import Mathlib.Data.List.Basic
import Mathlib.Tactic.Common

/-!
# Runs of a deterministic machine

A machine is a total step function `step : σ → ε → σ`; an event that is not enabled leaves
the state as it is.  An interleaving of several actors is the list of their events in the
order in which they take effect.

* `run step s es` — the state after the events `es`;
* `Throughout step P s es` — `P` holds of every event of the run, at the state it meets;
* `run_invariant` — what every permitted step keeps, a permitted run keeps;
* `throughout_iff` — the recursive `Throughout` says what it should about prefixes.
-/

namespace Machine

variable {σ ε : Type*} (step : σ → ε → σ)

/-- The state after a list of events. -/
def run (s : σ) (es : List ε) : σ := es.foldl step s

/-- `P` holds of every event of the run, in the state the event is taken in. -/
def Throughout (P : σ → ε → Prop) : σ → List ε → Prop
  | _, [] => True
  | s, e :: es => P s e ∧ Throughout P (step s e) es

@[simp] theorem run_nil (s : σ) : run step s [] = s := rfl

@[simp] theorem run_cons (s : σ) (e : ε) (es : List ε) :
    run step s (e :: es) = run step (step s e) es := rfl

theorem run_append (s : σ) (es fs : List ε) :
    run step s (es ++ fs) = run step (run step s es) fs := List.foldl_append

@[simp] theorem throughout_nil (P : σ → ε → Prop) (s : σ) : Throughout step P s [] := trivial

@[simp] theorem throughout_cons (P : σ → ε → Prop) (s : σ) (e : ε) (es : List ε) :
    Throughout step P s (e :: es) ↔ P s e ∧ Throughout step P (step s e) es := Iff.rfl

instance decidableThroughout (P : σ → ε → Prop) [∀ s e, Decidable (P s e)] (s : σ) :
    (es : List ε) → Decidable (Throughout step P s es)
  | [] => .isTrue trivial
  | e :: es =>
    have := decidableThroughout P (step s e) es
    inferInstanceAs (Decidable (P s e ∧ Throughout step P (step s e) es))

/-- A run is permitted iff every event is, after the events before it. -/
theorem throughout_iff (P : σ → ε → Prop) (s : σ) (es : List ε) :
    Throughout step P s es ↔
      ∀ before e after, es = before ++ e :: after → P (run step s before) e := by
  induction es generalizing s with
  | nil => simp
  | cons e es ih =>
    rw [throughout_cons, ih]
    constructor
    · rintro ⟨hhead, htail⟩ before e' after h
      cases before with
      | nil =>
        obtain ⟨rfl, -⟩ := List.cons.inj h
        exact hhead
      | cons b bs =>
        obtain ⟨rfl, hes⟩ := List.cons.inj h
        exact htail bs e' after hes
    · intro h
      exact ⟨h [] e es rfl, fun before e' after hes => h (e :: before) e' after (by rw [hes]; rfl)⟩

theorem throughout_append (P : σ → ε → Prop) (s : σ) (es fs : List ε) :
    Throughout step P s (es ++ fs) ↔
      Throughout step P s es ∧ Throughout step P (run step s es) fs := by
  induction es generalizing s with
  | nil => simp
  | cons e es ih => simp [ih, and_assoc]

theorem throughout_and {P Q : σ → ε → Prop} {s : σ} {es : List ε} :
    Throughout step (fun s e => P s e ∧ Q s e) s es ↔
      Throughout step P s es ∧ Throughout step Q s es := by
  induction es generalizing s with
  | nil => simp
  | cons e es ih => simp [ih, and_and_and_comm]

theorem Throughout.mono {P Q : σ → ε → Prop} (h : ∀ s e, P s e → Q s e) {s : σ} {es : List ε}
    (hall : Throughout step P s es) : Throughout step Q s es := by
  induction es generalizing s with
  | nil => trivial
  | cons e es ih => exact ⟨h s e hall.1, ih hall.2⟩

theorem throughout_congr {P Q : σ → ε → Prop} (h : ∀ s e, P s e ↔ Q s e) {s : σ} {es : List ε} :
    Throughout step P s es ↔ Throughout step Q s es :=
  ⟨Throughout.mono step fun s e => (h s e).mp, Throughout.mono step fun s e => (h s e).mpr⟩

/-- A property of the events alone holds throughout when it holds of each of them. -/
theorem throughout_of_forall {P : ε → Prop} {es : List ε} (h : ∀ e ∈ es, P e) (s : σ) :
    Throughout step (fun _ e => P e) s es := by
  induction es generalizing s with
  | nil => trivial
  | cons e es ih =>
    exact ⟨h e (by simp), ih (fun e' he' => h e' (by simp [he'])) (step s e)⟩

variable {step}

/-- What every permitted step keeps, a permitted run keeps. -/
theorem run_invariant {P : σ → ε → Prop} {I : σ → Prop}
    (hstep : ∀ s e, I s → P s e → I (step s e)) {s : σ} {es : List ε}
    (hall : Throughout step P s es) (hinit : I s) : I (run step s es) := by
  induction es generalizing s with
  | nil => exact hinit
  | cons e es ih => exact ih hall.2 (hstep s e hinit hall.1)

/-- Along a permitted run, what the invariant says of the steps holds of each of them. -/
theorem throughout_of_invariant {P Q : σ → ε → Prop} {I : σ → Prop}
    (hstep : ∀ s e, I s → P s e → I (step s e)) (hsafe : ∀ s e, I s → P s e → Q s e) {s : σ}
    {es : List ε} (hall : Throughout step P s es) (hinit : I s) : Throughout step Q s es := by
  induction es generalizing s with
  | nil => trivial
  | cons e es ih => exact ⟨hsafe s e hinit hall.1, ih hall.2 (hstep s e hinit hall.1)⟩

/-- The same of a property that speaks of the events so far as well. -/
theorem run_history_append {P : σ → ε → Prop} {I : List ε → σ → Prop}
    (hstep : ∀ past s e, I past s → P s e → I (past ++ [e]) (step s e)) {past : List ε} {s : σ}
    {es : List ε} (hall : Throughout step P s es) (hinit : I past s) :
    I (past ++ es) (run step s es) := by
  induction es generalizing past s with
  | nil => rwa [List.append_nil]
  | cons e es ih =>
    rw [List.append_cons]
    exact ih hall.2 (hstep past s e hinit hall.1)

theorem run_history {P : σ → ε → Prop} {I : List ε → σ → Prop}
    (hstep : ∀ past s e, I past s → P s e → I (past ++ [e]) (step s e)) {s : σ} {es : List ε}
    (hall : Throughout step P s es) (hinit : I [] s) : I es (run step s es) :=
  run_history_append hstep hall hinit

/-- What every step keeps, every run keeps. -/
theorem run_invariant_of_step {I : σ → Prop} (hstep : ∀ s e, I s → I (step s e)) {s : σ}
    (es : List ε) (hinit : I s) : I (run step s es) := by
  induction es generalizing s with
  | nil => exact hinit
  | cons e es ih => exact ih (hstep s e hinit)

/-- What no step changes, no run changes. -/
theorem run_frame {γ : Type*} {f : σ → γ} (hstep : ∀ s e, f (step s e) = f s) (s : σ)
    (es : List ε) : f (run step s es) = f s := by
  induction es generalizing s with
  | nil => rfl
  | cons e es ih => rw [run_cons, ih, hstep]

end Machine
