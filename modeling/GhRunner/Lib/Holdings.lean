import Mathlib.Data.List.Basic
import Mathlib.Tactic.Common

/-!
# What is held after a log

Events may acquire a thing, and may release one.

* `Held` — the thing was acquired, and not released after that;
* `held_append` — what is held after one log and another;
* `Acquires`, `Releases` — some event of the log does.
-/

namespace Holdings

variable {ε ρ : Type*} (acquires releases : ε → Option ρ)

/-- Some event acquires `r`, and none after it releases it. -/
def Held : List ε → ρ → Prop
  | [], _ => False
  | e :: log, r => (acquires e = some r ∧ ∀ f ∈ log, releases f ≠ some r) ∨ Held log r

def Acquires (log : List ε) (r : ρ) : Prop := ∃ e ∈ log, acquires e = some r

def Releases (log : List ε) (r : ρ) : Prop := ∃ e ∈ log, releases e = some r

variable {acquires releases} {log log' : List ε} {r : ρ}

@[simp] theorem not_held_nil : ¬ Held acquires releases [] r := id

theorem held_cons {e : ε} :
    Held acquires releases (e :: log) r ↔
      (acquires e = some r ∧ ¬ Releases releases log r) ∨ Held acquires releases log r := by
  simp only [Held, Releases, not_exists, not_and, ne_eq]

@[simp] theorem acquires_append :
    Acquires acquires (log ++ log') r ↔ Acquires acquires log r ∨ Acquires acquires log' r := by
  simp only [Acquires, List.mem_append, or_and_right, exists_or]

@[simp] theorem releases_append :
    Releases releases (log ++ log') r ↔ Releases releases log r ∨ Releases releases log' r :=
  acquires_append

@[simp] theorem not_acquires_nil : ¬ Acquires acquires [] r := by simp [Acquires]

theorem acquires_cons {e : ε} :
    Acquires acquires (e :: log) r ↔ acquires e = some r ∨ Acquires acquires log r := by
  simp [Acquires]

/-- What is held after two logs was acquired in the second, or is left of the first. -/
theorem held_append :
    Held acquires releases (log ++ log') r ↔
      Held acquires releases log r ∧ ¬ Releases releases log' r ∨ Held acquires releases log' r := by
  induction log with
  | nil => simp
  | cons e log ih =>
    rw [List.cons_append, held_cons, held_cons, ih, releases_append, not_or]
    tauto

theorem acquires_of_held (h : Held acquires releases log r) : Acquires acquires log r := by
  induction log with
  | nil => exact h.elim
  | cons e log ih =>
    rcases held_cons.mp h with ⟨he, -⟩ | h
    · exact acquires_cons.mpr (.inl he)
    · exact acquires_cons.mpr (.inr (ih h))

/-- Where nothing is acquired, no more is held than before. -/
theorem held_append_of_not_acquires (h : ¬ Acquires acquires log' r) :
    Held acquires releases (log ++ log') r ↔
      Held acquires releases log r ∧ ¬ Releases releases log' r := by
  rw [held_append, or_iff_left fun hheld => h (acquires_of_held hheld)]

end Holdings
