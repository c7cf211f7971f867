import Mathlib.Data.List.Induction

/-!
# Rules in an order, of which the last one decides

A rule matches things, and what it matches it hides or shows again.

* `hidden` — the rules tried one after another, those left out that could change nothing;
* `decisive`, `hidden_eq` — the last rule that matches decides, and without one nothing is hidden;
* `hidden_mono` — what is matched by every rule that matches something hidden, and shown by no rule
  that does not show that too, is hidden as well.
-/

namespace LastMatch

variable {ρ θ : Type*} (shows : ρ → Bool) (hits : ρ → θ → Bool)

/-- What a rule makes of what was found so far. -/
def apply (x : θ) (hidden : Bool) (rule : ρ) : Bool :=
  if shows rule != hidden then hidden else if hits rule x then !shows rule else hidden

def hidden (rules : List ρ) (x : θ) : Bool := rules.foldl (apply shows hits x) false

def decisive (rules : List ρ) (x : θ) : Option ρ := (rules.filter fun rule => hits rule x).getLast?

variable {shows hits}

theorem hidden_concat (rules : List ρ) (rule : ρ) (x : θ) :
    hidden shows hits (rules ++ [rule]) x =
      if hits rule x then !shows rule else hidden shows hits rules x := by
  rw [hidden, List.foldl_append, List.foldl_cons, List.foldl_nil]
  show apply shows hits x (hidden shows hits rules x) rule = _
  unfold apply
  cases shows rule <;> cases hidden shows hits rules x <;> simp

theorem hidden_eq (rules : List ρ) (x : θ) :
    hidden shows hits rules x = (decisive hits rules x).elim false fun rule => !shows rule := by
  induction rules using List.reverseRecOn with
  | nil => rfl
  | append_singleton rules rule ih =>
    rw [hidden_concat, decisive, List.filter_append, ih]
    cases h : hits rule x with
    | false => simp [decisive, h]
    | true => simp [h]

theorem hidden_mono {rules : List ρ} {x y : θ}
    (hhits : ∀ rule ∈ rules, hits rule x = true → hits rule y = true)
    (hshows : ∀ rule ∈ rules, shows rule = true → hits rule y = true → hits rule x = true)
    (h : hidden shows hits rules x = true) : hidden shows hits rules y = true := by
  induction rules using List.reverseRecOn with
  | nil => exact h
  | append_singleton rules rule ih =>
    have hrule : rule ∈ rules ++ [rule] := List.mem_append_right _ (List.mem_singleton_self rule)
    have hrest := ih (fun r hr => hhits r (List.mem_append_left _ hr))
      fun r hr => hshows r (List.mem_append_left _ hr)
    rw [hidden_concat] at h ⊢
    split at h
    case isTrue hx => rwa [if_pos (hhits rule hrule hx)]
    case isFalse hx =>
      split
      case isTrue hy =>
        -- a rule that shows `y` would show `x`
        cases hshow : shows rule with
        | false => rfl
        | true => exact absurd (hshows rule hrule hshow hy) hx
      case isFalse => exact hrest h

end LastMatch
