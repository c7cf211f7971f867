import Mathlib.Data.List.Basic
import Mathlib.Data.List.DropRight
import Mathlib.Tactic.Common

/-!
# Lines

A list cut into lines at a separator, each line with whether a separator ended it.

* `lines sep l` — the lines of `l`; nothing follows a last separator;
* `lines_cons_line` — the first line, with the separator behind it;
* `lines_append` — behind a text that is empty or ends in a separator, the lines of what follows are
  its own;
* `whole` — what stands up to the last separator; `whole_append` — more of it, behind a text that ends
  in one;
* `lines_join` — pieces without separators, joined by separators, are lines;
* `splitInclusive` — the lines with their separators: nothing is lost (`flatten_splitInclusive`), and
  what has no separator stays within one line (`infix_splitInclusive`).
-/

namespace Lines

variable {α : Type*} [DecidableEq α] {sep : α}

/-- A line, and whether a separator ended it. -/
abbrev Line (α : Type*) := List α × Bool

/-- One more element in front of the first line. -/
def consHead (a : α) : List (Line α) → List (Line α)
  | [] => [([a], false)]
  | (line, ended) :: more => (a :: line, ended) :: more

def lines (sep : α) : List α → List (Line α)
  | [] => []
  | a :: rest => if a = sep then ([], true) :: lines sep rest else consHead a (lines sep rest)

/-- Nothing is left open at the end. -/
def Closed (sep : α) (l : List α) : Prop := l = [] ∨ l.getLast? = some sep

@[simp] theorem lines_nil : lines sep [] = [] := rfl

theorem lines_cons_sep (rest : List α) : lines sep (sep :: rest) = ([], true) :: lines sep rest :=
  if_pos rfl

theorem lines_cons_of_ne {a : α} (h : a ≠ sep) (rest : List α) :
    lines sep (a :: rest) = consHead a (lines sep rest) := if_neg h

/-- A line with a separator behind it. -/
theorem lines_cons_line {line : List α} (h : sep ∉ line) (rest : List α) :
    lines sep (line ++ sep :: rest) = (line, true) :: lines sep rest := by
  induction line with
  | nil => exact lines_cons_sep rest
  | cons a line ih =>
    rw [List.mem_cons, not_or] at h
    rw [List.cons_append, lines_cons_of_ne (Ne.symm h.1), ih h.2]
    rfl

omit [DecidableEq α] in
theorem closed_cons {a b : α} {l : List α} (h : Closed sep (a :: b :: l)) : Closed sep (b :: l) := by
  rcases h with h | h
  · cases h
  · exact .inr (by rwa [List.getLast?_cons_cons] at h)

/-- Lines of a text that leaves nothing open. -/
theorem lines_append {l : List α} (h : Closed sep l) (l' : List α) :
    lines sep (l ++ l') = lines sep l ++ lines sep l' := by
  induction l with
  | nil => rfl
  | cons a l ih =>
    cases l with
    | nil =>
      -- the only element is the last one, and so a separator
      have ha : a = sep := by
        rcases h with h | h
        · cases h
        · exact Option.some.inj h
      rw [ha, List.singleton_append, lines_cons_sep, lines_cons_sep]
      rfl
    | cons b l =>
      have ih := ih (closed_cons h)
      by_cases ha : a = sep
      · subst ha
        rw [List.cons_append, lines_cons_sep, lines_cons_sep, ih]
        rfl
      · rw [List.cons_append, lines_cons_of_ne ha, lines_cons_of_ne ha, ih]
        -- what follows is not empty, so the new element joins its first line
        cases hlines : lines sep (b :: l) with
        | nil =>
          rw [lines] at hlines
          split at hlines
          · cases hlines
          · cases hrest : lines sep l <;> rw [hrest] at hlines <;> cases hlines
        | cons line more => rfl

omit [DecidableEq α] in
theorem closed_append_sep (l : List α) : Closed sep (l ++ [sep]) :=
  .inr List.getLast?_concat

/-- Up to the last separator. -/
def whole (sep : α) (l : List α) : List α := l.rdropWhile (· ≠ sep)

theorem whole_starts (l : List α) : whole sep l <+: l := List.rdropWhile_prefix _ l

theorem closed_whole (l : List α) : Closed sep (whole sep l) := by
  by_cases hne : whole sep l = []
  · exact .inl hne
  · refine .inr ?_
    have hlast := List.rdropWhile_last_not (fun a => decide (a ≠ sep)) l hne
    rw [List.getLast?_eq_some_getLast hne]
    simpa [whole] using hlast

theorem whole_of_closed {l : List α} (h : Closed sep l) : whole sep l = l := by
  rcases h with rfl | h
  · rfl
  · rw [whole, List.rdropWhile_eq_self_iff]
    intro hne
    rw [List.getLast?_eq_some_getLast hne] at h
    simpa using Option.some.inj h

/-- What is whole behind a text that ends in a separator. -/
theorem whole_append {front : List α} (h : Closed sep front) (rest : List α) :
    whole sep (front ++ rest) = front ++ whole sep rest := by
  induction rest using List.reverseRecOn with
  | nil =>
    rw [List.append_nil, whole_of_closed h]
    exact (List.append_nil _).symm
  | append_singleton rest a ih =>
    rw [← List.append_assoc, whole, whole, List.rdropWhile_concat, List.rdropWhile_concat]
    split
    · exact ih
    · exact List.append_assoc _ _ _

/-- Pieces joined by separators, with one more at the end. -/
theorem lines_join {pieces : List (List α)} (h : ∀ p ∈ pieces, sep ∉ p) (hne : pieces ≠ [])
    (rest : List α) :
    lines sep ([sep].intercalate pieces ++ sep :: rest) =
      pieces.map (fun p => (p, true)) ++ lines sep rest := by
  induction pieces with
  | nil => exact absurd rfl hne
  | cons p pieces ih =>
    obtain ⟨hp, hpieces⟩ := List.forall_mem_cons.mp h
    cases pieces with
    | nil =>
      rw [List.intercalate_singleton, lines_cons_line hp]
      rfl
    | cons q pieces =>
      have hjoin : [sep].intercalate (p :: q :: pieces) = p ++ sep :: [sep].intercalate (q :: pieces) := by
        rw [List.intercalate_cons_cons]
        simp
      rw [hjoin, List.append_assoc, List.cons_append, lines_cons_line hp,
        ih hpieces (List.cons_ne_nil _ _)]
      rfl

omit [DecidableEq α] in
/-- What stands in joined pieces stands in a piece, or between them. -/
theorem mem_intercalate {a : α} {pieces : List (List α)} (h : a ∈ [sep].intercalate pieces) :
    a = sep ∨ ∃ p ∈ pieces, a ∈ p := by
  induction pieces with
  | nil => cases h
  | cons p pieces ih =>
    cases pieces with
    | nil =>
      rw [List.intercalate_singleton] at h
      exact .inr ⟨p, List.mem_singleton_self p, h⟩
    | cons q pieces =>
      rw [List.intercalate_cons_cons, List.mem_append, List.mem_append, List.mem_singleton] at h
      rcases h with (h | rfl) | h
      · exact .inr ⟨p, List.mem_cons_self, h⟩
      · exact .inl rfl
      · exact (ih h).imp_right fun ⟨piece, hpiece, ha⟩ => ⟨piece, List.mem_cons_of_mem _ hpiece, ha⟩

/-- Pieces that were joined already join with the ones before them. -/
theorem intercalate_append_intercalate {α : Type*} (sep : List α) (xs : List (List α))
    {ys : List (List α)} (h : ys ≠ []) :
    sep.intercalate (xs ++ [sep.intercalate ys]) = sep.intercalate (xs ++ ys) := by
  induction xs with
  | nil => exact List.intercalate_singleton
  | cons x xs ih =>
    rw [List.cons_append, List.cons_append, List.intercalate_cons_of_ne_nil (by simp), ih,
      List.intercalate_cons_of_ne_nil (by simp [h])]

theorem notMem_of_mem_splitOn {l piece : List α} (h : piece ∈ l.splitOn sep) : sep ∉ piece := by
  induction l generalizing piece with
  | nil =>
    rw [List.splitOn_nil, List.mem_singleton] at h
    rw [h]
    exact List.not_mem_nil
  | cons a l ih =>
    rw [List.splitOn_cons_eq_if_modifyHead] at h
    split at h
    case isTrue =>
      rcases List.mem_cons.mp h with rfl | h
      · exact List.not_mem_nil
      · exact ih h
    case isFalse ha =>
      cases hsplit : l.splitOn sep with
      | nil => exact absurd hsplit (List.splitOn_ne_nil _ _)
      | cons first more =>
        rw [hsplit] at h ih
        rcases List.mem_cons.mp h with rfl | h
        · rw [List.mem_cons, not_or]
          exact ⟨fun heq => ha (beq_iff_eq.mpr heq.symm), ih List.mem_cons_self⟩
        · exact ih (List.mem_cons_of_mem _ h)

/-! ### Lines with their separators -/

/-- `split_inclusive`. -/
def splitInclusive (sep : α) (l : List α) : List (List α) :=
  (lines sep l).map fun line => if line.2 then line.1 ++ [sep] else line.1

@[simp] theorem splitInclusive_nil : splitInclusive sep [] = [] := rfl

theorem splitInclusive_cons_line {line : List α} (h : sep ∉ line) (rest : List α) :
    splitInclusive sep (line ++ sep :: rest) = (line ++ [sep]) :: splitInclusive sep rest := by
  rw [splitInclusive, lines_cons_line h]
  rfl

theorem splitInclusive_append {l : List α} (h : Closed sep l) (l' : List α) :
    splitInclusive sep (l ++ l') = splitInclusive sep l ++ splitInclusive sep l' := by
  rw [splitInclusive, lines_append h, List.map_append]
  rfl

/-- What has no separator is one line, if it is anything. -/
theorem splitInclusive_of_notMem {l : List α} (h : sep ∉ l) (hne : l ≠ []) :
    splitInclusive sep l = [l] := by
  have hlines : lines sep l = [(l, false)] := by
    induction l with
    | nil => exact absurd rfl hne
    | cons a l ih =>
      rw [List.mem_cons, not_or] at h
      rw [lines_cons_of_ne (Ne.symm h.1)]
      by_cases hl : l = []
      · rw [hl]
        rfl
      · rw [ih h.2 hl]
        rfl
  rw [splitInclusive, hlines]
  rfl

omit [DecidableEq α] in
/-- What holds of texts without separator, and of a line in front of a text if of the text, holds of all. -/
theorem line_induction (sep : α) {P : List α → Prop} (hopen : ∀ l, sep ∉ l → P l)
    (hline : ∀ line rest, sep ∉ line → P rest → P (line ++ sep :: rest)) (l : List α) : P l := by
  induction hn : l.length using Nat.strongRecOn generalizing l with
  | _ n ih =>
    by_cases h : sep ∈ l
    · obtain ⟨line, rest, rfl, hnot⟩ := List.eq_append_cons_of_mem h
      refine hline line rest hnot (ih rest.length ?_ rest rfl)
      rw [List.length_append, List.length_cons] at hn
      omega
    · exact hopen l h

theorem flatten_splitInclusive (l : List α) : (splitInclusive sep l).flatten = l := by
  induction l using line_induction sep with
  | hopen l h =>
    by_cases hl : l = []
    · rw [hl]
      rfl
    · rw [splitInclusive_of_notMem h hl, List.flatten_singleton]
  | hline line rest h ih =>
    rw [splitInclusive_cons_line h, List.flatten_cons, ih, List.append_assoc, List.singleton_append]

omit [DecidableEq α] in
/-- What has no separator stands on one side of one. -/
theorem infix_append_cons {p front behind : List α} (hp : sep ∉ p)
    (h : p <:+: front ++ sep :: behind) : p <:+: front ∨ p <:+: behind := by
  obtain ⟨before, after, heq⟩ := h
  rw [List.append_eq_append_iff] at heq
  rcases heq with ⟨more, hfront, -⟩ | ⟨more, hbefore, hbehind⟩
  · exact .inl ⟨before, more, hfront.symm⟩
  · cases more with
    | nil =>
      rw [List.append_nil] at hbefore
      exact .inl ⟨before, [], by rw [List.append_nil, hbefore]⟩
    | cons a more =>
      obtain ⟨rfl, hrest⟩ := List.cons.inj hbehind
      rw [List.append_eq_append_iff] at hbefore
      rcases hbefore with ⟨inner, -, hinner⟩ | ⟨inner, -, hinner⟩
      · -- the separator would be within `p`
        exact absurd (hinner ▸ List.mem_append_right _ List.mem_cons_self) hp
      · cases inner with
        | nil =>
          have hhead : p = sep :: more := hinner.symm
          exact absurd (hhead ▸ List.mem_cons_self) hp
        | cons b inner =>
          obtain ⟨-, rfl⟩ := List.cons.inj hinner
          exact .inr ⟨inner, after, hrest.symm⟩

theorem infix_splitInclusive {p l : List α} (hp : sep ∉ p) (hne : p ≠ []) (h : p <:+: l) :
    ∃ line ∈ splitInclusive sep l, p <:+: line := by
  induction l using line_induction sep with
  | hopen l hl =>
    have hl' : l ≠ [] := fun hnil => hne (List.infix_nil.mp (hnil ▸ h))
    exact ⟨l, by rw [splitInclusive_of_notMem hl hl']; exact List.mem_cons_self, h⟩
  | hline line rest hline ih =>
    rw [splitInclusive_cons_line hline]
    rcases infix_append_cons hp h with hfront | hbehind
    · exact ⟨_, List.mem_cons_self, hfront.trans (List.prefix_append _ _).isInfix⟩
    · obtain ⟨found, hmem, hin⟩ := ih hbehind
      exact ⟨found, List.mem_cons_of_mem _ hmem, hin⟩

end Lines
