import Mathlib.Data.List.Infix
import Mathlib.Data.List.DropRight

/-!
# Finding a pattern in a list

* `splitFirst pat l` — `l` cut at the first place where `pat` stands in it;
* `splitFirst_eq_none_iff`, `splitFirst_eq_some`, `splitFirst_first` — it fails exactly when there is
  none, it cuts where the pattern is, and at no later place than the first;
* `splitFirst_of_notMem` — where it cuts a list that has the pattern's first element nowhere before;
* `splitOnP_map`, `map_intercalate` — a list cut up, or put together, and a map over its elements;
* `Str`, `trim` — texts;
* `casing_toLower` — a casing of texts that agrees with ASCII's.
-/

namespace Text

variable {α : Type*} [DecidableEq α] {pat : List α}

/-- What stands before the first occurrence of the pattern, and what after it. -/
def splitFirst (pat : List α) : List α → Option (List α × List α)
  | [] => if pat = [] then some ([], []) else none
  | a :: rest =>
    if pat <+: a :: rest then some ([], (a :: rest).drop pat.length)
    else (splitFirst pat rest).map fun (before, after) => (a :: before, after)

theorem splitFirst_eq_some {l before after : List α}
    (h : splitFirst pat l = some (before, after)) : l = before ++ (pat ++ after) := by
  induction l generalizing before with
  | nil =>
    unfold splitFirst at h
    split at h
    case isTrue hpat =>
      cases h
      simp [hpat]
    case isFalse => cases h
  | cons a rest ih =>
    unfold splitFirst at h
    split at h
    case isTrue hpat =>
      obtain ⟨rfl, rfl⟩ := Prod.mk.inj (Option.some.inj h)
      exact (List.prefix_iff_eq_append.mp hpat).symm
    case isFalse =>
      obtain ⟨⟨before', after'⟩, hrest, heq⟩ := Option.map_eq_some_iff.mp h
      obtain ⟨rfl, rfl⟩ := Prod.mk.inj heq
      rw [ih hrest, List.cons_append]

theorem splitFirst_eq_none_iff {l : List α} : splitFirst pat l = none ↔ ¬ pat <:+: l := by
  induction l with
  | nil =>
    unfold splitFirst
    split
    case isTrue hpat => simp [hpat]
    case isFalse hpat => simp [List.infix_nil, hpat]
  | cons a rest ih =>
    unfold splitFirst
    split
    case isTrue hpat => simp [hpat.isInfix]
    case isFalse hpat => rw [Option.map_eq_none_iff, ih, List.infix_cons_iff, not_or, and_iff_right hpat]

/-- The pattern does not stand at any earlier place. -/
theorem splitFirst_first {l before after : List α} (h : splitFirst pat l = some (before, after)) :
    ∀ k < before.length, ¬ pat <+: l.drop k := by
  induction l generalizing before with
  | nil =>
    unfold splitFirst at h
    split at h
    · cases h
      simp
    · cases h
  | cons a rest ih =>
    unfold splitFirst at h
    split at h
    case isTrue =>
      obtain ⟨rfl, -⟩ := Prod.mk.inj (Option.some.inj h)
      simp
    case isFalse hpat =>
      obtain ⟨⟨before', after'⟩, hrest, heq⟩ := Option.map_eq_some_iff.mp h
      obtain ⟨rfl, rfl⟩ := Prod.mk.inj heq
      intro k hk
      cases k with
      | zero => exact hpat
      | succ k => exact ih hrest k (Nat.lt_of_succ_lt_succ hk)

/-- What stands before has no occurrence of its own. -/
theorem not_infix_before (hpat : pat ≠ []) {l before after : List α}
    (h : splitFirst pat l = some (before, after)) : ¬ pat <:+: before := by
  rintro ⟨xs, ys, rfl⟩
  have hlt : xs.length < (xs ++ pat ++ ys).length := by
    have := List.length_pos_of_ne_nil hpat
    simp only [List.length_append]
    omega
  refine splitFirst_first h xs.length hlt ?_
  rw [splitFirst_eq_some h, List.append_assoc, List.append_assoc, List.drop_left]
  exact List.prefix_append _ _

/-- Where the pattern's first element does not stand before it, the cut is at the pattern. -/
theorem splitFirst_of_notMem {a : α} {before : List α} (h : a ∉ before) (pat after : List α) :
    splitFirst (a :: pat) (before ++ (a :: pat ++ after)) = some (before, after) := by
  induction before with
  | nil =>
    rw [List.nil_append, List.cons_append, splitFirst, if_pos (by simp)]
    simp
  | cons b before ih =>
    rw [List.mem_cons, not_or] at h
    have hpat : ¬ a :: pat <+: b :: (before ++ (a :: pat ++ after)) := fun hpat =>
      h.1 (List.cons_prefix_cons.mp hpat).1
    rw [List.cons_append, splitFirst, if_neg hpat, ih h.2]
    rfl

/-- A pattern whose first element stands nowhere else in it: the cut is at the first one there is. -/
theorem splitFirst_of_not_infix {a : α} {pat before : List α} (hpat : a ∉ pat)
    (h : ¬ a :: pat <:+: before) (after : List α) :
    splitFirst (a :: pat) (before ++ (a :: pat ++ after)) = some (before, after) := by
  induction before with
  | nil => exact splitFirst_of_notMem List.not_mem_nil pat after
  | cons b before ih =>
    rw [List.infix_cons_iff, not_or] at h
    have hnot : ¬ a :: pat <+: b :: (before ++ (a :: pat ++ after)) := by
      rintro ⟨tail, htail⟩
      obtain ⟨rfl, hrest⟩ := List.cons.inj htail
      -- either the pattern ends within what stands before, or its first element stands in it again
      rcases List.append_eq_append_iff.mp hrest with ⟨more, hbefore, -⟩ | ⟨more, rfl, hmore⟩
      · exact h.1 ⟨more, by rw [hbefore]; rfl⟩
      · cases more with
        | nil => exact h.1 ⟨[], by rw [List.append_nil, List.append_nil]⟩
        | cons m more =>
          obtain ⟨rfl, -⟩ := List.cons.inj hmore
          exact hpat (List.mem_append_right _ (List.mem_cons_self ..))
    rw [List.cons_append, splitFirst, if_neg hnot, ih h.2]
    rfl

theorem length_splitFirst {l before after : List α} (h : splitFirst pat l = some (before, after)) :
    l.length = before.length + (pat.length + after.length) := by
  rw [splitFirst_eq_some h, List.length_append, List.length_append]

/-! ### Elements replaced one by one -/

theorem splitOnP_map {β γ : Type*} (f : β → γ) (p : γ → Bool) (l : List β) :
    (l.map f).splitOnP p = (l.splitOnP (p ∘ f)).map (List.map f) := by
  induction l with
  | nil => rfl
  | cons a l ih =>
    rw [List.map_cons, List.splitOnP_cons_eq_if_modifyHead, List.splitOnP_cons_eq_if_modifyHead, ih,
      Function.comp_apply]
    split
    · rfl
    · cases l.splitOnP (p ∘ f) <;> rfl

theorem map_intercalate {β γ : Type*} (f : β → γ) (sep : List β) (ls : List (List β)) :
    (List.intercalate sep ls).map f = List.intercalate (sep.map f) (ls.map (List.map f)) := by
  induction ls with
  | nil => rfl
  | cons first rest ih =>
    cases rest with
    | nil => simp
    | cons second rest =>
      rw [List.intercalate_cons_cons, List.map_append, List.map_append, ih, List.map_cons,
        List.map_cons, List.map_cons, List.intercalate_cons_cons]

/-! ### Texts -/

/-- A text by its characters. -/
abbrev Str := List Char

instance lawfulBEqStr : LawfulBEq Str := List.instLawfulBEq

/-- A condition on the characters of a text is decided along the text, not over all characters. -/
instance (priority := 2000) decidableForallMem (s : Str) (p : Char → Prop) [DecidablePred p] :
    Decidable (∀ c ∈ s, p c) := List.decidableBAll p s

/-- The Unicode property `White_Space`. -/
def isWhitespace (c : Char) : Bool :=
  let n := c.toNat
  (9 ≤ n && n ≤ 13) || n == 0x20 || n == 0x85 || n == 0xA0 || n == 0x1680 ||
    (0x2000 ≤ n && n ≤ 0x200A) || n == 0x2028 || n == 0x2029 || n == 0x202F || n == 0x205F ||
    n == 0x3000

theorem isAlpha_bounds {c : Char} (h : c.isAlpha = true) :
    65 ≤ c.toNat ∧ c.toNat ≤ 90 ∨ 97 ≤ c.toNat ∧ c.toNat ≤ 122 := by
  rcases Bool.or_eq_true_iff.mp h with hupper | hlower
  · obtain ⟨hlo, hhi⟩ := of_decide_eq_true hupper
    exact .inl ⟨UInt32.le_iff_toNat_le.mp hlo, UInt32.le_iff_toNat_le.mp hhi⟩
  · obtain ⟨hlo, hhi⟩ := Bool.and_eq_true_iff.mp hlower
    exact .inr ⟨UInt32.le_iff_toNat_le.mp (of_decide_eq_true hlo),
      UInt32.le_iff_toNat_le.mp (of_decide_eq_true hhi)⟩

theorem of_isUpper {c : Char} (h : c.isUpper = true) :
    c.isAlpha = true ∧ c.toLower.isAlpha = true ∧ c.toLower.toUpper = c.toUpper ∧
      isWhitespace c = false ∧ isWhitespace c.toLower = false := by
  have hbound : c.toNat < 128 := by
    have halpha : c.isAlpha = true := Bool.or_eq_true_iff.mpr (Or.inl h)
    have hletter := isAlpha_bounds halpha
    omega
  have hall : ∀ n < 128, (Char.ofNat n).isUpper = true →
      (Char.ofNat n).isAlpha = true ∧ (Char.ofNat n).toLower.isAlpha = true ∧
        (Char.ofNat n).toLower.toUpper = (Char.ofNat n).toUpper ∧
        isWhitespace (Char.ofNat n) = false ∧ isWhitespace (Char.ofNat n).toLower = false := by
    decide
  have hc := hall c.toNat hbound
  rw [Char.ofNat_toNat] at hc
  exact hc h

theorem toLower_of_not_isUpper {c : Char} (h : c.isUpper = false) : c.toLower = c := by
  have hnot : ¬ (c.val ≥ 'A'.val ∧ c.val ≤ 'Z'.val) := of_decide_eq_false h
  exact dif_neg hnot

theorem isWhitespace_toLower (c : Char) : isWhitespace c.toLower = isWhitespace c := by
  cases h : c.isUpper with
  | true =>
    obtain ⟨-, -, -, hc, hlower⟩ := of_isUpper h
    rw [hc, hlower]
  | false => rw [toLower_of_not_isUpper h]

/-- A casing that gives each ASCII letter its upper case does not look at the case of one. -/
theorem casing_toLower {f : Char → Str} (hf : ∀ c, c.isAlpha = true → f c = [c.toUpper]) (c : Char) :
    f c.toLower = f c := by
  cases h : c.isUpper with
  | true =>
    obtain ⟨hc, hlower, hupper, -, -⟩ := of_isUpper h
    rw [hf _ hc, hf _ hlower, hupper]
  | false => rw [toLower_of_not_isUpper h]

/-- Without the white space at both ends. -/
def trim (s : Str) : Str := (s.dropWhile isWhitespace).rdropWhile isWhitespace

theorem mem_dropWhile {p : Char → Bool} {c : Char} {s : Str} (hc : c ∈ s) (hp : p c = false) :
    c ∈ s.dropWhile p := by
  have hsplit : s.takeWhile p ++ s.dropWhile p = s := List.takeWhile_append_dropWhile
  rw [← hsplit, List.mem_append] at hc
  refine hc.resolve_left fun hfront => ?_
  rw [List.mem_takeWhile_imp hfront] at hp
  cases hp

/-- Trimming keeps what is no white space. -/
theorem mem_trim {c : Char} {s : Str} (hc : c ∈ s) (hblank : isWhitespace c = false) : c ∈ trim s :=
  List.mem_reverse.mp (by
    rw [trim, List.rdropWhile, List.reverse_reverse]
    exact mem_dropWhile (List.mem_reverse.mpr (mem_dropWhile hc hblank)) hblank)

/-- Trimming leaves a text alone that has no white space at either end. -/
theorem trim_of_ends {s : Str} (hhead : ∀ c ∈ s.head?, isWhitespace c = false)
    (hlast : ∀ c ∈ s.getLast?, isWhitespace c = false) : trim s = s := by
  have hfront : s.dropWhile isWhitespace = s := by
    cases s with
    | nil => rfl
    | cons c s => exact List.dropWhile_cons_of_neg (by simp [hhead c rfl])
  rw [trim, hfront, List.rdropWhile_eq_self_iff]
  intro hne
  simp [hlast _ (List.getLast?_eq_some_getLast hne)]

end Text
