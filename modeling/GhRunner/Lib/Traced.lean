import Mathlib.Data.List.Forall2
import Mathlib.Tactic.Common

/-!
# Computations that may fail and leave a trace

* `Traced ε ω α` — a result or an error of type `ε`, with everything of type `ω` that was noted on
  the way to it; what was noted before an error stays;
* `bind_of_ok`, `bind_of_error`, `bind_eq_ok` — what a sequence of two computations does;
* `inOrder` — a computation for each element of a list, in order, up to the first error.
-/

@[ext] structure Traced (ε ω α : Type) where
  result : Except ε α
  trace : List ω

namespace Traced

variable {ε ω α β : Type}

/-- Nothing is noted. -/
def lift (result : Except ε α) : Traced ε ω α := ⟨result, []⟩

instance : Monad (Traced ε ω) where
  pure a := ⟨.ok a, []⟩
  bind x f :=
    match x.result with
    | .error e => ⟨.error e, x.trace⟩
    | .ok a => ⟨(f a).result, x.trace ++ (f a).trace⟩

@[simp] theorem result_pure (a : α) : (pure a : Traced ε ω α).result = .ok a := rfl

@[simp] theorem trace_pure (a : α) : (pure a : Traced ε ω α).trace = [] := rfl

@[simp] theorem result_lift (r : Except ε α) : (lift r : Traced ε ω α).result = r := rfl

@[simp] theorem trace_lift (r : Except ε α) : (lift r : Traced ε ω α).trace = [] := rfl

theorem lift_ok (a : α) : (lift (.ok a) : Traced ε ω α) = pure a := rfl

theorem bind_of_ok {x : Traced ε ω α} {a : α} (h : x.result = .ok a) (f : α → Traced ε ω β) :
    (x >>= f) = ⟨(f a).result, x.trace ++ (f a).trace⟩ := by
  show (match x.result with
    | .error e => _
    | .ok a => _) = _
  rw [h]

theorem bind_of_error {x : Traced ε ω α} {e : ε} (h : x.result = .error e)
    (f : α → Traced ε ω β) : (x >>= f) = ⟨.error e, x.trace⟩ := by
  show (match x.result with
    | .error e => _
    | .ok a => _) = _
  rw [h]

theorem result_bind (x : Traced ε ω α) (f : α → Traced ε ω β) :
    (x >>= f).result = x.result >>= fun a => (f a).result := by
  cases hx : x.result with
  | error e => rw [bind_of_error hx]; rfl
  | ok a => rw [bind_of_ok hx]; rfl

/-- A sequence succeeds when both parts do. -/
theorem bind_eq_ok {x : Traced ε ω α} {f : α → Traced ε ω β} {b : β}
    (h : (x >>= f).result = .ok b) :
    ∃ a, x.result = .ok a ∧ (f a).result = .ok b ∧ (x >>= f).trace = x.trace ++ (f a).trace := by
  cases hx : x.result with
  | error e =>
    rw [bind_of_error hx] at h
    cases h
  | ok a =>
    rw [bind_of_ok hx] at h ⊢
    exact ⟨a, rfl, h, rfl⟩

theorem result_bind_eq_ok_iff {x : Traced ε ω α} {f : α → Traced ε ω β} {b : β} :
    (x >>= f).result = .ok b ↔ ∃ a, x.result = .ok a ∧ (f a).result = .ok b := by
  constructor
  · intro h
    obtain ⟨a, ha, hb, -⟩ := bind_eq_ok h
    exact ⟨a, ha, hb⟩
  · rintro ⟨a, ha, hb⟩
    rw [bind_of_ok ha]
    exact hb

/-- Two ways to go on are the same after `x` exactly when they are for what `x` returns. -/
theorem bind_left_inj {x : Traced ε ω α} {f g : α → Traced ε ω β} :
    x >>= f = x >>= g ↔ ∀ a, x.result = .ok a → f a = g a := by
  cases hx : x.result with
  | error e =>
    rw [bind_of_error hx, bind_of_error hx]
    simp
  | ok a =>
    rw [bind_of_ok hx, bind_of_ok hx]
    constructor
    · intro h a' ha
      obtain rfl : a = a' := Except.ok.inj ha
      obtain ⟨hresult, htrace⟩ := Traced.mk.inj h
      exact Traced.ext hresult (List.append_cancel_left htrace)
    · intro h
      rw [h a rfl]

instance : LawfulMonad (Traced ε ω) := LawfulMonad.mk' _
  (fun x => by
    show (x >>= fun a => pure (id a)) = x
    cases hx : x.result with
    | error e => rw [bind_of_error hx, ← hx]
    | ok a =>
      rw [bind_of_ok hx]
      ext1
      · exact hx.symm
      · exact List.append_nil _)
  (fun a f => by
    rw [bind_of_ok (result_pure a)]
    rfl)
  (fun x f g => by
    cases hx : x.result with
    | error e => rw [bind_of_error hx, bind_of_error hx, bind_of_error rfl]
    | ok a =>
      rw [bind_of_ok hx, bind_of_ok hx]
      cases hf : (f a).result with
      | error e => rw [bind_of_error rfl, bind_of_error hf]
      | ok b => rw [bind_of_ok rfl, bind_of_ok hf, List.append_assoc])

/-- A sequence that notes nothing consists of parts that note nothing. -/
theorem eq_pure_of_bind {x : Traced ε ω α} {f : α → Traced ε ω β} {b : β}
    (h : (x >>= f) = pure b) : ∃ a, x = pure a ∧ f a = pure b := by
  obtain ⟨a, ha, hb, htrace⟩ := bind_eq_ok (congrArg result h)
  rw [h, trace_pure] at htrace
  obtain ⟨hx, hf⟩ := List.append_eq_nil_iff.mp htrace.symm
  exact ⟨a, Traced.ext ha hx, Traced.ext hb hf⟩

/-! ### Lists -/

/-- One computation after another; the first error ends it. -/
def inOrder (f : α → Traced ε ω β) : List α → Traced ε ω (List β)
  | [] => pure []
  | a :: rest => do
    let b ← f a
    let bs ← inOrder f rest
    pure (b :: bs)

variable {f : α → Traced ε ω β}

/-- Every computation has succeeded, and the trace is theirs, in order. -/
theorem inOrder_eq_ok {as : List α} {bs : List β} (h : (inOrder f as).result = .ok bs) :
    List.Forall₂ (fun a b => (f a).result = .ok b) as bs ∧
      (inOrder f as).trace = as.flatMap fun a => (f a).trace := by
  induction as generalizing bs with
  | nil =>
    obtain rfl : [] = bs := Except.ok.inj h
    exact ⟨.nil, rfl⟩
  | cons a as ih =>
    obtain ⟨b, hb, hrest, htrace⟩ := bind_eq_ok h
    obtain ⟨bs', hbs, hcons, htrace'⟩ := bind_eq_ok hrest
    obtain rfl : b :: bs' = bs := Except.ok.inj hcons
    obtain ⟨hall, htail⟩ := ih hbs
    refine ⟨.cons hb hall, ?_⟩
    rw [inOrder, htrace, htrace', trace_pure, List.append_nil, htail, List.flatMap_cons]

/-- Where no computation notes anything and all succeed, the list is only mapped. -/
theorem inOrder_pure {g : α → β} {as : List α} (h : ∀ a ∈ as, f a = pure (g a)) :
    inOrder f as = pure (as.map g) := by
  induction as with
  | nil => rfl
  | cons a as ih =>
    rw [List.forall_mem_cons] at h
    rw [inOrder, h.1, pure_bind, ih h.2, pure_bind, List.map_cons]

/-- What every computation keeps, the list of results keeps. -/
theorem map_eq_of_forall₂ {γ : Type} {g : α → γ} {g' : β → γ} {as : List α} {bs : List β}
    (h : List.Forall₂ (fun a b => (f a).result = .ok b) as bs)
    (hkeep : ∀ a b, (f a).result = .ok b → g' b = g a) : bs.map g' = as.map g := by
  induction h with
  | nil => rfl
  | cons hab _ ih => rw [List.map_cons, List.map_cons, ih, hkeep _ _ hab]

theorem exists_ok_of_mem {as : List α} {bs : List β}
    (h : List.Forall₂ (fun a b => (f a).result = .ok b) as bs) {a : α} (ha : a ∈ as) :
    ∃ b ∈ bs, (f a).result = .ok b := by
  induction h with
  | nil => cases ha
  | @cons a' b' as bs hb _ ih =>
    rcases List.mem_cons.mp ha with rfl | ha
    · exact ⟨b', List.mem_cons_self, hb⟩
    · obtain ⟨b, hmem, hb⟩ := ih ha
      exact ⟨b, List.mem_cons_of_mem b' hmem, hb⟩

/-- A list of computations succeeds when each of them does, in whatever order. -/
theorem exists_inOrder_iff {as : List α} :
    (∃ bs, (inOrder f as).result = .ok bs) ↔ ∀ a ∈ as, ∃ b, (f a).result = .ok b := by
  constructor
  · rintro ⟨bs, hbs⟩ a ha
    obtain ⟨b, -, hb⟩ := exists_ok_of_mem (inOrder_eq_ok hbs).1 ha
    exact ⟨b, hb⟩
  · intro h
    induction as with
    | nil => exact ⟨[], rfl⟩
    | cons a as ih =>
      obtain ⟨b, hb⟩ := h a List.mem_cons_self
      obtain ⟨bs, hbs⟩ := ih fun a ha => h a (List.mem_cons_of_mem _ ha)
      refine ⟨b :: bs, ?_⟩
      rw [inOrder, bind_of_ok hb, bind_of_ok hbs]
      rfl

theorem exists_ok_of_mem_right {as : List α} {bs : List β}
    (h : List.Forall₂ (fun a b => (f a).result = .ok b) as bs) {b : β} (hb : b ∈ bs) :
    ∃ a ∈ as, (f a).result = .ok b := by
  induction h with
  | nil => cases hb
  | @cons a b' as bs hab _ ih =>
    rcases List.mem_cons.mp hb with rfl | hb
    · exact ⟨a, List.mem_cons_self, hab⟩
    · obtain ⟨a', hmem, ha⟩ := ih hb
      exact ⟨a', List.mem_cons_of_mem a hmem, ha⟩

/-- And only there. -/
theorem eq_pure_of_inOrder {as : List α} {bs : List β} (h : inOrder f as = pure bs) :
    ∀ a ∈ as, ∃ b ∈ bs, f a = pure b := by
  obtain ⟨hall, htrace⟩ := inOrder_eq_ok (show (inOrder f as).result = .ok bs by rw [h]; rfl)
  rw [h, trace_pure, eq_comm, List.flatMap_eq_nil_iff] at htrace
  intro a ha
  obtain ⟨b, hmem, hb⟩ := exists_ok_of_mem hall ha
  exact ⟨b, hmem, Traced.ext hb (htrace a ha)⟩

end Traced
