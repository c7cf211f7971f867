import Mathlib.Data.List.Basic
import Mathlib.Tactic.Common

/-!
# What each event adds, after the ones before it

* `emits f es` — `f` of every event and the events before it, one after another;
* `emits_append`, `emits_concat` — what later events add does not change what earlier ones added;
* `mem_emits` — where an element comes from.
-/

namespace History

variable {ε α : Type*} (f : List ε → ε → List α)

def emitsFrom (past : List ε) : List ε → List α
  | [] => []
  | e :: es => f past e ++ emitsFrom (past ++ [e]) es

def emits (es : List ε) : List α := emitsFrom f [] es

theorem emitsFrom_append (past es fs : List ε) :
    emitsFrom f past (es ++ fs) = emitsFrom f past es ++ emitsFrom f (past ++ es) fs := by
  induction es generalizing past with
  | nil => simp [emitsFrom]
  | cons e es ih => simp [emitsFrom, ih]

theorem emits_append (es fs : List ε) : emits f (es ++ fs) = emits f es ++ emitsFrom f es fs :=
  emitsFrom_append f [] es fs

@[simp] theorem emits_nil : emits f [] = [] := rfl

theorem emits_concat (es : List ε) (e : ε) : emits f (es ++ [e]) = emits f es ++ f es e := by
  rw [emits_append]
  simp [emitsFrom]

variable {f}

theorem mem_emitsFrom {past es : List ε} {a : α} :
    a ∈ emitsFrom f past es ↔ ∃ before e after, es = before ++ e :: after ∧ a ∈ f (past ++ before) e := by
  induction es generalizing past with
  | nil => simp [emitsFrom]
  | cons e es ih =>
    rw [emitsFrom, List.mem_append, ih]
    constructor
    · rintro (h | ⟨before, e', after, rfl, h⟩)
      · exact ⟨[], e, es, rfl, by rwa [List.append_nil]⟩
      · exact ⟨e :: before, e', after, rfl, by rwa [List.append_assoc] at h⟩
    · rintro ⟨before, e', after, hes, h⟩
      cases before with
      | nil =>
        obtain ⟨rfl, rfl⟩ := List.cons.inj hes
        rw [List.append_nil] at h
        exact .inl h
      | cons b before =>
        obtain ⟨rfl, rfl⟩ := List.cons.inj hes
        exact .inr ⟨before, e', after, rfl, by rwa [List.append_assoc]⟩

theorem mem_emits {es : List ε} {a : α} :
    a ∈ emits f es ↔ ∃ before e after, es = before ++ e :: after ∧ a ∈ f before e :=
  mem_emitsFrom

end History
