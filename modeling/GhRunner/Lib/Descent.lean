import Mathlib.Data.List.Basic

/-!
# Recursive descent

Parsers that take tokens from the front of a list, and the loops they are built with.

* `Parser`, `Reads` — a parser, and what it says about the tokens it takes;
* `iterate` — repeat a step until it declines; the fuel is the number of tokens, and
  `iterate_of_ok` unrolls it for a step that takes a token each time;
* `Reads.iterate` — what a whole loop reads, from what one step reads;
* `iterate_ne_exhausted` — the fuel lasts.
-/

namespace Descent

variable {τ ε α β : Type}

/-- The value read and the tokens left, or an error. -/
abbrev Parser (τ ε α : Type) := List τ → Except ε (α × List τ)

/-- What the parser takes from the front derives the value it returns. -/
def Reads (D : List τ → α → Prop) (p : Parser τ ε α) : Prop :=
  ∀ ⦃ts a rest⦄, p ts = .ok (a, rest) → ∃ pre, ts = pre ++ rest ∧ D pre a

theorem Reads.length_le {D : List τ → α → Prop} {p : Parser τ ε α} (h : Reads D p) {ts rest : List τ}
    {a : α} (hp : p ts = .ok (a, rest)) : rest.length ≤ ts.length := by
  obtain ⟨pre, rfl, -⟩ := h hp
  rw [List.length_append]
  omega

theorem bind_eq_ok {x : Except ε α} {f : α → Except ε β} {b : β} :
    x >>= f = .ok b ↔ ∃ a, x = .ok a ∧ f a = .ok b := by
  cases x with
  | error e =>
    show Except.error e = .ok b ↔ _
    simp
  | ok a =>
    show f a = .ok b ↔ _
    simp

theorem map_eq_ok {x : Except ε α} {f : α → β} {b : β} :
    x.map f = .ok b ↔ ∃ a, x = .ok a ∧ f a = b := by
  cases x with
  | error e =>
    show Except.error e = .ok b ↔ _
    simp
  | ok a =>
    show Except.ok (f a) = .ok b ↔ _
    simp

theorem bind_eq_error {x : Except ε α} {f : α → Except ε β} {e : ε} :
    x >>= f = .error e ↔ x = .error e ∨ ∃ a, x = .ok a ∧ f a = .error e := by
  cases x with
  | error e' =>
    show Except.error e' = .error e ↔ _
    simp
  | ok a =>
    show f a = .error e ↔ _
    simp

/-! ### Loops -/

/-- One round of a loop: `none` leaves it. -/
abbrev Step (τ ε α : Type) := α → List τ → Option (Except ε (α × List τ))

/-- Repeat the step until it declines, `fuel - 1` times at most. -/
def loop (step : Step τ ε α) (exhausted : ε) : ℕ → α → Parser τ ε α
  | 0, _, _ => .error exhausted
  | fuel + 1, a, ts =>
    match step a ts with
    | none => .ok (a, ts)
    | some round => round >>= fun next => loop step exhausted fuel next.1 next.2

def iterate (step : Step τ ε α) (exhausted : ε) (a : α) : Parser τ ε α := fun ts =>
  loop step exhausted (ts.length + 1) a ts

/-- Every round takes a token. -/
def Consuming (step : Step τ ε α) : Prop :=
  ∀ ⦃a ts a' rest⦄, step a ts = some (.ok (a', rest)) → rest.length < ts.length

variable {step : Step τ ε α} {exhausted : ε}

theorem loop_of_none {fuel : ℕ} {a : α} {ts : List τ} (h : step a ts = none) :
    loop step exhausted (fuel + 1) a ts = .ok (a, ts) := by
  rw [loop, h]

theorem loop_of_some {fuel : ℕ} {a : α} {ts : List τ} {round : Except ε (α × List τ)}
    (h : step a ts = some round) :
    loop step exhausted (fuel + 1) a ts =
      round >>= fun next => loop step exhausted fuel next.1 next.2 := by
  rw [loop, h]

theorem loop_fuel (h : Consuming step) {fuel fuel' : ℕ} (a : α) (ts : List τ)
    (hfuel : ts.length < fuel) (hfuel' : ts.length < fuel') :
    loop step exhausted fuel a ts = loop step exhausted fuel' a ts := by
  induction fuel generalizing fuel' a ts with
  | zero => omega
  | succ fuel ih =>
    obtain ⟨fuel', rfl⟩ : ∃ k, fuel' = k + 1 := ⟨fuel' - 1, by omega⟩
    cases hstep : step a ts with
    | none => rw [loop_of_none hstep, loop_of_none hstep]
    | some round =>
      rw [loop_of_some hstep, loop_of_some hstep]
      cases round with
      | error e => rfl
      | ok next =>
        have hlt := h hstep
        exact ih next.1 next.2 (by omega) (by omega)

theorem iterate_of_none {a : α} {ts : List τ} (h : step a ts = none) :
    iterate step exhausted a ts = .ok (a, ts) := loop_of_none h

theorem iterate_of_ok (hstep : Consuming step) {a a' : α} {ts rest : List τ}
    (h : step a ts = some (.ok (a', rest))) :
    iterate step exhausted a ts = iterate step exhausted a' rest := by
  have hround : iterate step exhausted a ts = loop step exhausted ts.length a' rest :=
    loop_of_some h
  rw [hround]
  exact loop_fuel hstep a' rest (hstep h) (Nat.lt_succ_self _)

/-- If every round extends what was read, so does the loop. -/
theorem Reads.iterate {D : List τ → α → Prop}
    (hstep : ∀ pre a ts a' rest, D pre a → step a ts = some (.ok (a', rest)) →
      ∃ mid, ts = mid ++ rest ∧ D (pre ++ mid) a')
    {pre : List τ} {a : α} (ha : D pre a) :
    Reads (fun mid a' => D (pre ++ mid) a') (iterate step exhausted a) := by
  intro ts a' rest h
  unfold Descent.iterate at h
  generalize ts.length + 1 = fuel at h
  induction fuel generalizing pre a ts with
  | zero => cases h
  | succ fuel ih =>
    cases hround : step a ts with
    | none =>
      rw [loop_of_none hround] at h
      obtain ⟨rfl, rfl⟩ := Prod.mk.inj (Except.ok.inj h)
      refine ⟨[], rfl, ?_⟩
      show D (pre ++ []) a
      rwa [List.append_nil]
    | some round =>
      rw [loop_of_some hround] at h
      obtain ⟨⟨b, us⟩, rfl, h⟩ := bind_eq_ok.mp h
      obtain ⟨mid, rfl, hb⟩ := hstep pre a ts b us ha hround
      obtain ⟨mid', rfl, ha'⟩ := ih hb h
      refine ⟨mid ++ mid', (List.append_assoc ..).symm, ?_⟩
      show D (pre ++ (mid ++ mid')) a'
      rwa [← List.append_assoc]

/-- The fuel lasts, if no round runs out of its own on the tokens at hand. -/
theorem iterate_ne_exhausted (hstep : Consuming step) {n : ℕ}
    (hround : ∀ a us, us.length ≤ n → step a us ≠ some (.error exhausted)) {a : α} {ts : List τ}
    (hts : ts.length ≤ n) : iterate step exhausted a ts ≠ .error exhausted := by
  unfold iterate
  have hfuel : ts.length < ts.length + 1 := Nat.lt_succ_self _
  generalize ts.length + 1 = fuel at hfuel
  induction fuel generalizing a ts with
  | zero => omega
  | succ fuel ih =>
    intro h
    cases hr : step a ts with
    | none =>
      rw [loop_of_none hr] at h
      cases h
    | some round =>
      rw [loop_of_some hr] at h
      rcases bind_eq_error.mp h with rfl | ⟨⟨b, us⟩, rfl, h⟩
      · exact hround a ts hts hr
      · have hlt : us.length < ts.length := hstep hr
        exact ih (show us.length ≤ n by omega) (show us.length < fuel by omega) h

end Descent
