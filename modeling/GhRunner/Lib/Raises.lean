import GhRunner.Lib.Descent
import GhRunner.Lib.Traced

/-!
# The errors of a computation

* `RaisesOnly` — every error of a computation is of one kind;
* `RaisesOnly.bind`, `RaisesOnly.map`, `RaisesOnly.traced` — it is enough that the parts of the
  computation are so.
-/

/-- Every error of the computation is as `P` says. -/
def RaisesOnly {ε α : Type} (P : ε → Prop) (x : Except ε α) : Prop := ∀ e, x = .error e → P e

namespace RaisesOnly

variable {ε ω α β : Type} {P Q : ε → Prop} {x : Except ε α}

theorem ok (a : α) : RaisesOnly P (.ok a) := fun _ h => by cases h

theorem error {e : ε} (h : P e) : RaisesOnly P (.error e : Except ε α) := by
  intro e' h'
  obtain rfl := Except.error.inj h'
  exact h

/-- What comes second is asked about only where the first has a value. -/
theorem bind {f : α → Except ε β} (hx : RaisesOnly P x)
    (hf : ∀ a, x = .ok a → RaisesOnly P (f a)) : RaisesOnly P (x >>= f) := by
  intro e he
  rcases Descent.bind_eq_error.mp he with hx' | ⟨a, ha, hfa⟩
  · exact hx e hx'
  · exact hf a ha e hfa

theorem map {f : α → β} (hx : RaisesOnly P x) : RaisesOnly P (x.map f) := by
  intro e he
  cases x with
  | error e' =>
    obtain rfl : e' = e := Except.error.inj he
    exact hx e' rfl
  | ok a => cases he

theorem ite {c : Prop} [Decidable c] {y : Except ε α} (hx : c → RaisesOnly P x)
    (hy : ¬ c → RaisesOnly P y) : RaisesOnly P (if c then x else y) := by
  split
  · exact hx ‹_›
  · exact hy ‹_›

/-- A computation that notes what it does on the way. -/
theorem traced {x : Traced ε ω α} {f : α → Traced ε ω β} (hx : RaisesOnly P x.result)
    (hf : ∀ a, x.result = .ok a → RaisesOnly P (f a).result) : RaisesOnly P (x >>= f).result := by
  rw [Traced.result_bind]
  exact hx.bind hf

end RaisesOnly
