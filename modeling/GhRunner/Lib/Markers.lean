import GhRunner.Lib.Text

/-!
# Markers between blocks

A text that is put together from blocks and searched for a marker.

* `Apart`, `Clear pat l` — the marker begins nowhere in `l`, whatever follows; this is decided on
  constant blocks, and holds of a block that does not have the marker's first element;
* `splitFirst_of_clear`, `splitFirst_clear_append` — where the first marker stands;
* `splitAll pat l` — `l` cut at every marker;
* `replaceAll pat rep l` — every marker replaced, `replaceAll_clear`, `replaceAll_marker` — block by
  block;
* `replaceAll_flatMap`, `replaceAll_singleton` — in a text in which every element is a block;
* `stripStart` — a text without what it starts with.
-/

namespace Text

variable {α : Type*} [DecidableEq α] {pat block before after rest : List α}

/-! ### Blocks in which a marker does not begin -/

/-- They differ where both have an element. -/
def Apart (pat l : List α) : Prop := ¬ pat <+: l ∧ ¬ l <+: pat

instance decidableApart (pat l : List α) : Decidable (Apart pat l) :=
  inferInstanceAs (Decidable (_ ∧ _))

def Clear (pat : List α) : List α → Prop
  | [] => True
  | a :: rest => Apart pat (a :: rest) ∧ Clear pat rest

instance decidableClear (pat : List α) : (l : List α) → Decidable (Clear pat l)
  | [] => .isTrue trivial
  | a :: rest =>
    have := decidableClear pat rest
    inferInstanceAs (Decidable (Apart pat (a :: rest) ∧ Clear pat rest))

omit [DecidableEq α] in
theorem apart_append (h : Apart pat block) (rest : List α) : Apart pat (block ++ rest) := by
  refine ⟨fun hpat => ?_, fun hblock => h.2 ((List.prefix_append block rest).trans hblock)⟩
  rcases List.prefix_or_prefix_of_prefix hpat (List.prefix_append block rest) with hshort | hlong
  · exact h.1 hshort
  · exact h.2 hlong

omit [DecidableEq α] in
theorem clear_append {l : List α} (h : Clear pat block) (h' : Clear pat l) :
    Clear pat (block ++ l) := by
  induction block with
  | nil => exact h'
  | cons a block ih => exact ⟨apart_append h.1 l, ih h.2⟩

omit [DecidableEq α] in
/-- A block without the marker's first element. -/
theorem clear_of_notMem {a : α} (h : a ∉ block) (pat : List α) : Clear (a :: pat) block := by
  induction block with
  | nil => trivial
  | cons b block ih =>
    rw [List.mem_cons, not_or] at h
    refine ⟨⟨fun hpat => ?_, fun hblock => ?_⟩, ih h.2⟩
    · exact h.1 (List.cons_prefix_cons.mp hpat).1
    · exact h.1 (List.cons_prefix_cons.mp hblock).1.symm

omit [DecidableEq α] in
theorem clear_of_head {a : α} (hpat : pat.head? = some a) (h : a ∉ block) : Clear pat block := by
  cases pat with
  | nil => cases hpat
  | cons b pat =>
    obtain rfl : b = a := Option.some.inj hpat
    exact clear_of_notMem h pat

omit [DecidableEq α] in
theorem clear_flatMap {β : Type*} {f : β → List α} {l : List β} (h : ∀ b ∈ l, Clear pat (f b)) :
    Clear pat (l.flatMap f) := by
  induction l with
  | nil => trivial
  | cons b l ih =>
    rw [List.forall_mem_cons] at h
    rw [List.flatMap_cons]
    exact clear_append h.1 (ih h.2)

/-! ### The first marker -/

/-- A block in which the marker does not begin is passed over. -/
theorem splitFirst_clear_append (h : Clear pat block) (rest : List α) :
    splitFirst pat (block ++ rest) =
      (splitFirst pat rest).map fun parts => (block ++ parts.1, parts.2) := by
  induction block with
  | nil => simp
  | cons a block ih =>
    have hnot : ¬ pat <+: a :: (block ++ rest) := (apart_append h.1 rest).1
    rw [List.cons_append, splitFirst, if_neg hnot, ih h.2, Option.map_map]
    rfl

theorem splitFirst_marker (hpat : pat ≠ []) (after : List α) :
    splitFirst pat (pat ++ after) = some ([], after) := by
  cases pat with
  | nil => exact absurd rfl hpat
  | cons a pat => exact splitFirst_of_notMem List.not_mem_nil pat after

theorem splitFirst_of_clear (hpat : pat ≠ []) (h : Clear pat before) (after : List α) :
    splitFirst pat (before ++ (pat ++ after)) = some (before, after) := by
  rw [splitFirst_clear_append h, splitFirst_marker hpat, Option.map_some, List.append_nil]

theorem splitFirst_eq_none_of_clear (hpat : pat ≠ []) (h : Clear pat block) :
    splitFirst pat block = none := by
  rw [← List.append_nil block, splitFirst_clear_append h, splitFirst, if_neg hpat, Option.map_none]

/-! ### Every marker -/

/-- A block in front of the first part. -/
def joinHead (block : List α) : List (List α) → List (List α)
  | [] => [block]
  | part :: parts => (block ++ part) :: parts

/-- `skip` elements of a marker are left. -/
def splitFrom (pat : List α) : ℕ → List α → List (List α)
  | _, [] => [[]]
  | skip + 1, _ :: rest => splitFrom pat skip rest
  | 0, a :: rest =>
    if pat <+: a :: rest then [] :: splitFrom pat (pat.length - 1) rest
    else joinHead [a] (splitFrom pat 0 rest)

/-- What stands between the markers. -/
def splitAll (pat : List α) : List α → List (List α) := splitFrom pat 0

def replaceAll (pat rep l : List α) : List α := rep.intercalate (splitAll pat l)

@[simp] theorem splitAll_nil (pat : List α) : splitAll pat [] = [[]] := rfl

theorem splitFrom_skip (pat before rest : List α) :
    splitFrom pat before.length (before ++ rest) = splitFrom pat 0 rest := by
  induction before with
  | nil => rfl
  | cons b before ih => exact ih

theorem splitFrom_ne_nil (pat : List α) (skip : ℕ) (l : List α) : splitFrom pat skip l ≠ [] := by
  induction l generalizing skip with
  | nil => exact List.cons_ne_nil _ _
  | cons a l ih =>
    cases skip with
    | succ skip => exact ih skip
    | zero =>
      rw [splitFrom]
      split
      · exact List.cons_ne_nil _ _
      · cases h : splitFrom pat 0 l with
        | nil => exact absurd h (ih 0)
        | cons part parts => exact List.cons_ne_nil _ _

theorem splitAll_marker (hpat : pat ≠ []) (rest : List α) :
    splitAll pat (pat ++ rest) = [] :: splitAll pat rest := by
  cases pat with
  | nil => exact absurd rfl hpat
  | cons a pat =>
    have hstart : a :: pat <+: a :: (pat ++ rest) := by simp
    rw [splitAll, List.cons_append, splitFrom, if_pos hstart]
    exact congrArg _ (splitFrom_skip (a :: pat) pat rest)

omit [DecidableEq α] in
theorem joinHead_joinHead {a : List α} {parts : List (List α)} :
    joinHead a (joinHead block parts) = joinHead (a ++ block) parts := by
  cases parts with
  | nil => rfl
  | cons part parts => rw [joinHead, joinHead, joinHead, List.append_assoc]

theorem splitAll_clear (h : Clear pat block) (rest : List α) :
    splitAll pat (block ++ rest) = joinHead block (splitAll pat rest) := by
  induction block with
  | nil =>
    cases hrest : splitAll pat rest with
    | nil => exact absurd hrest (splitFrom_ne_nil pat 0 rest)
    | cons part parts => exact hrest
  | cons a block ih =>
    have hnot : ¬ pat <+: a :: (block ++ rest) := (apart_append h.1 rest).1
    rw [splitAll, List.cons_append, splitFrom, if_neg hnot]
    show joinHead [a] (splitAll pat (block ++ rest)) = _
    rw [ih h.2, joinHead_joinHead]
    rfl

theorem splitAll_of_clear (h : Clear pat block) : splitAll pat block = [block] := by
  rw [← List.append_nil block, splitAll_clear h]
  rfl

theorem splitAll_ne_nil (pat l : List α) : splitAll pat l ≠ [] := splitFrom_ne_nil pat 0 l

/-! ### Replacing -/

variable {rep : List α}

theorem replaceAll_joinHead {l rest : List α} (h : splitAll pat l = joinHead block (splitAll pat rest)) :
    replaceAll pat rep l = block ++ replaceAll pat rep rest := by
  rw [replaceAll, replaceAll, h]
  cases hrest : splitAll pat rest with
  | nil => exact absurd hrest (splitAll_ne_nil pat rest)
  | cons part parts =>
    cases parts with
    | nil => rw [joinHead, List.intercalate_singleton, List.intercalate_singleton]
    | cons next parts =>
      rw [joinHead, List.intercalate_cons_cons, List.intercalate_cons_cons]
      simp

theorem replaceAll_clear (h : Clear pat block) (rest : List α) :
    replaceAll pat rep (block ++ rest) = block ++ replaceAll pat rep rest :=
  replaceAll_joinHead (splitAll_clear h rest)

/-- Where no marker begins, one element stays. -/
theorem replaceAll_cons {a : α} {rest : List α} (h : ¬pat <+: a :: rest) :
    replaceAll pat rep (a :: rest) = a :: replaceAll pat rep rest := by
  have hsplit : splitAll pat (a :: rest) = joinHead [a] (splitAll pat rest) := by
    rw [splitAll, splitFrom, if_neg h]
  exact replaceAll_joinHead hsplit

theorem replaceAll_marker (hpat : pat ≠ []) (rest : List α) :
    replaceAll pat rep (pat ++ rest) = rep ++ replaceAll pat rep rest := by
  rw [replaceAll, replaceAll, splitAll_marker hpat]
  cases hrest : splitAll pat rest with
  | nil => exact absurd hrest (splitAll_ne_nil pat rest)
  | cons part parts =>
    rw [List.intercalate_cons_cons]
    simp

/-- Blocks that are the marker are replaced, the others stay. -/
theorem replaceAll_flatMap {β : Type*} {f g : β → List α} {l : List β} (hpat : pat ≠ [])
    (h : ∀ b ∈ l, Clear pat (f b) ∧ g b = f b ∨ f b = pat ∧ g b = rep) :
    replaceAll pat rep (l.flatMap f) = l.flatMap g := by
  induction l with
  | nil => rfl
  | cons b l ih =>
    rw [List.forall_mem_cons] at h
    rw [List.flatMap_cons, List.flatMap_cons]
    rcases h.1 with ⟨hclear, hsame⟩ | ⟨hmarker, hrep⟩
    · rw [replaceAll_clear hclear, ih h.2, hsame]
    · rw [hmarker, replaceAll_marker hpat, ih h.2, hrep]

/-- A marker of one element. -/
theorem replaceAll_singleton (a : α) (rep l : List α) :
    replaceAll [a] rep l = l.flatMap fun b => if b = a then rep else [b] := by
  have hself : l.flatMap (fun b => [b]) = l := List.flatMap_singleton' l
  conv_lhs => rw [← hself]
  apply replaceAll_flatMap (List.cons_ne_nil _ _)
  intro b _
  by_cases hb : b = a
  · exact .inr ⟨by rw [hb], if_pos hb⟩
  · refine .inl ⟨clear_of_notMem ?_ [], if_neg hb⟩
    rw [List.mem_singleton]
    exact Ne.symm hb

/-! ### The start of a text -/

def stripStart (pat l : List α) : Option (List α) :=
  if pat <+: l then some (l.drop pat.length) else none

theorem stripStart_append (pat rest : List α) : stripStart pat (pat ++ rest) = some rest := by
  rw [stripStart, if_pos (List.prefix_append pat rest), List.drop_left]

end Text
