import Mathlib.Tactic.Common

/-!
# Two stateful computations in lockstep

A computation over two kinds of state, and what can be said of it from its parts.

* `Keeps`, `Leads` — a property of the state that a computation does not lose, or that it leads to;
* `InStep` — from states that agree two computations come to the same and to states that agree, or
  both come to states that are lost;
* `Keeps.bind`, `InStep.bind` — sequences, where what is lost stays lost;
* `Closed` — what holds of pairs of sequences when it holds of their parts, so that a program over
  given computations is gone through once for all of these.
-/

namespace Lockstep

variable {S T α β : Type}

theorem run_bind (x : StateM S α) (f : α → StateM S β) (s : S) :
    (x >>= f).run s = (f (x.run s).1).run (x.run s).2 := rfl

def Keeps (P : S → Prop) (x : StateM S α) : Prop := ∀ s, P s → P (x.run s).2

section Keeps

variable {P : S → Prop}

theorem Keeps.pure (a : α) : Keeps P (Pure.pure a : StateM S α) := fun _ h => h

theorem Keeps.bind {x : StateM S α} {f : α → StateM S β} (hx : Keeps P x)
    (hf : ∀ a, Keeps P (f a)) : Keeps P (x >>= f) := fun s h => hf _ _ (hx s h)

theorem Keeps.modify {f : S → S} (hf : ∀ s, P s → P (f s)) : Keeps P (modify f : StateM S PUnit) :=
  hf

end Keeps

/-- From a state with `P` the computation comes to a value and a state with `Q`. -/
def Leads (P : S → Prop) (x : StateM S α) (Q : α → S → Prop) : Prop :=
  ∀ s, P s → Q (x.run s).1 (x.run s).2

section Leads

variable {P : S → Prop} {Q : α → S → Prop} {R : β → S → Prop}

theorem Leads.pure {a : α} (h : ∀ s, P s → Q a s) : Leads P (Pure.pure a : StateM S α) Q := h

theorem Leads.bind {x : StateM S α} {f : α → StateM S β} (hx : Leads P x Q)
    (hf : ∀ a, Leads (Q a) (f a) R) : Leads P (x >>= f) R := fun s h => hf _ _ (hx s h)

theorem Keeps.leads {x : StateM S α} (hx : Keeps P x) : Leads P x fun _ => P := hx

end Leads

/-- `P` and `Q` are the states that are lost. -/
def InStep (before after : S → T → Prop) (P : S → Prop) (Q : T → Prop) (x : StateM S α)
    (y : StateM T α) : Prop :=
  ∀ s t, before s t →
    (x.run s).1 = (y.run t).1 ∧ after (x.run s).2 (y.run t).2 ∨ P (x.run s).2 ∧ Q (y.run t).2

section InStep

variable {before between after : S → T → Prop} {P : S → Prop} {Q : T → Prop}

theorem InStep.pure (a : α) :
    InStep after after P Q (Pure.pure a : StateM S α) (Pure.pure a : StateM T α) :=
  fun _ _ h => .inl ⟨rfl, h⟩

theorem InStep.bind {x : StateM S α} {y : StateM T α} {f : α → StateM S β} {g : α → StateM T β}
    (hx : InStep before between P Q x y) (hf : ∀ a, InStep between after P Q (f a) (g a))
    (hP : ∀ a, Keeps P (f a)) (hQ : ∀ a, Keeps Q (g a)) :
    InStep before after P Q (x >>= f) (y >>= g) := by
  intro s t h
  rcases hx s t h with ⟨heq, hbetween⟩ | ⟨hlost, hlost'⟩
  · -- both go on with the same value
    have hrest := hf (x.run s).1 (x.run s).2 (y.run t).2 hbetween
    rw [run_bind, run_bind, ← heq]
    exact hrest
  · exact .inr ⟨hP _ _ hlost, hQ _ _ hlost'⟩

end InStep

/-! ### Programs over given computations -/

/-- What sequences of related computations are related by. -/
structure Closed (K : ∀ {α : Type}, StateM S α → StateM T α → Prop) : Prop where
  pure : ∀ {α : Type} (a : α), K (pure a) (pure a)
  bind : ∀ {α β : Type} {x : StateM S α} {y : StateM T α} {f : α → StateM S β}
    {g : α → StateM T β}, K x y → (∀ a, K (f a) (g a)) → K (x >>= f) (y >>= g)

theorem closed_keeps (P : S → Prop) : Closed fun {α} (x _ : StateM S α) => Keeps P x where
  pure := Keeps.pure
  bind := Keeps.bind

/-- In step as long as nothing is lost, and what is lost stays lost. -/
structure Together (agree : S → T → Prop) (P : S → Prop) (Q : T → Prop) {α : Type}
    (x : StateM S α) (y : StateM T α) : Prop where
  inStep : InStep agree agree P Q x y
  keepsLeft : Keeps P x
  keepsRight : Keeps Q y

theorem closed_together (agree : S → T → Prop) (P : S → Prop) (Q : T → Prop) :
    Closed fun {α} (x : StateM S α) (y : StateM T α) => Together agree P Q x y where
  pure a := ⟨InStep.pure a, Keeps.pure a, Keeps.pure a⟩
  bind hx hf := ⟨hx.inStep.bind (fun a => (hf a).inStep) (fun a => (hf a).keepsLeft)
      fun a => (hf a).keepsRight,
    hx.keepsLeft.bind fun a => (hf a).keepsLeft, hx.keepsRight.bind fun a => (hf a).keepsRight⟩

end Lockstep
