import Mathlib.Data.List.Basic
import Mathlib.Data.Prod.Lex

/-!
# The first by rank

* `Best` — a choice among values that each have a rank: none where there are none, else one of the
  least rank;
* `Best.findSome?` — to ask one list after the other, and in each for its best, is to rank by the
  list first and within the list second;
* `Best.congr`, `Best.map` — the same choice among the same values, and among their images.
-/

section Ranked

variable {ρ α β : Type*}

theorem findSome?_congr {l : List β} {f g : β → Option α} (h : ∀ b ∈ l, f b = g b) :
    l.findSome? f = l.findSome? g := by
  induction l with
  | nil => rfl
  | cons b l ih =>
    rw [List.forall_mem_cons] at h
    rw [List.findSome?_cons, List.findSome?_cons, h.1, ih h.2]

/-- `S p a`: the value `a` is there to choose, with the rank `p`. -/
def Best [LE ρ] (S : ρ → α → Prop) : Option α → Prop
  | none => ∀ p a, ¬ S p a
  | some a => ∃ p, S p a ∧ ∀ p' a', S p' a' → p ≤ p'

theorem Best.congr [LE ρ] {S T : ρ → α → Prop} {choice : Option α} (h : Best S choice)
    (heq : ∀ p a, S p a ↔ T p a) : Best T choice := by
  obtain rfl : S = T := by
    ext p a
    exact heq p a
  exact h

theorem Best.eq_none_iff [LE ρ] {S : ρ → α → Prop} {choice : Option α} (h : Best S choice) :
    choice = none ↔ ∀ p a, ¬ S p a := by
  cases choice with
  | none => exact iff_of_true rfl h
  | some a =>
    obtain ⟨p, hp, -⟩ := h
    exact iff_of_false (by simp) fun hnone => hnone p a hp

theorem Best.map [LE ρ] {S : ρ → α → Prop} {choice : Option α} (h : Best S choice) (f : α → β) :
    Best (fun p b => ∃ a, S p a ∧ f a = b) (choice.map f) := by
  cases choice with
  | none => exact fun p b ⟨a, ha, _⟩ => h p a ha
  | some a =>
    obtain ⟨p, hp, hleast⟩ := h
    exact ⟨p, ⟨a, hp, rfl⟩, fun p' b ⟨a', ha', _⟩ => hleast p' a' ha'⟩

/-- The lists are asked in order, and the first one that has an answer gives it. -/
theorem Best.findSome? [Preorder ρ] {l : List β} {f : β → Option α} {S : β → ρ → α → Prop}
    (h : ∀ b ∈ l, Best (S b) (f b)) :
    Best (fun (r : ℕ ×ₗ ρ) a => ∃ b, l[(ofLex r).1]? = some b ∧ S b (ofLex r).2 a)
      (l.findSome? f) := by
  induction l with
  | nil => exact fun r a ⟨b, hb, _⟩ => by simp at hb
  | cons b l ih =>
    rw [List.forall_mem_cons] at h
    obtain ⟨hb, hl⟩ := h
    rw [List.findSome?_cons]
    cases hf : f b with
    | some a =>
      rw [hf] at hb
      obtain ⟨p, hp, hleast⟩ := hb
      refine ⟨toLex (0, p), ⟨b, rfl, hp⟩, ?_⟩
      intro r a' ⟨b', hb', ha'⟩
      rw [Prod.Lex.le_iff]
      obtain ⟨i, q⟩ := r
      cases i with
      | zero =>
        obtain rfl : b = b' := Option.some.inj hb'
        exact .inr ⟨rfl, hleast q a' ha'⟩
      | succ i => exact .inl (Nat.succ_pos i)
    | none =>
      rw [hf] at hb
      -- nothing to choose under the first list, so every rank is that of the rest, one further on
      have hshift (r : ℕ ×ₗ ρ) (a : α) :
          (∃ b', (b :: l)[(ofLex r).1]? = some b' ∧ S b' (ofLex r).2 a) →
            ∃ i, (ofLex r).1 = i + 1 ∧ ∃ b', l[i]? = some b' ∧ S b' (ofLex r).2 a := by
        rintro ⟨b', hb', ha⟩
        obtain ⟨i, q⟩ := r
        cases i with
        | zero =>
          obtain rfl : b = b' := Option.some.inj hb'
          exact absurd ha (hb q a)
        | succ i => exact ⟨i, rfl, b', hb', ha⟩
      have ih := ih hl
      cases hrest : l.findSome? f with
      | none =>
        rw [hrest] at ih
        intro r a hr
        obtain ⟨i, -, hi⟩ := hshift r a hr
        exact ih (toLex (i, (ofLex r).2)) a hi
      | some a =>
        rw [hrest] at ih
        obtain ⟨r, ⟨b', hb', ha⟩, hleast⟩ := ih
        refine ⟨toLex ((ofLex r).1 + 1, (ofLex r).2), ⟨b', hb', ha⟩, ?_⟩
        intro r' a' hr'
        obtain ⟨i, hi, hrest'⟩ := hshift r' a' hr'
        have hle := hleast (toLex (i, (ofLex r').2)) a' hrest'
        rw [Prod.Lex.le_iff] at hle ⊢
        rcases hle with hlt | ⟨heq, hle⟩
        · left
          show (ofLex r).1 + 1 < (ofLex r').1
          have hlt : (ofLex r).1 < i := hlt
          omega
        · right
          have heq : (ofLex r).1 = i := heq
          exact ⟨by show (ofLex r).1 + 1 = (ofLex r').1; omega, hle⟩

end Ranked
