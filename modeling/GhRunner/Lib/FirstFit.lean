import Mathlib.Data.List.Basic
import Mathlib.Data.List.Sublists

/-!
# First fit

One pass over a list of items, from left to right: an item is taken when it fits into what is left
of a resource, and what is left shrinks by it.

* `offer`, `pass` — one item, and the whole pass;
* `pass_sublist`, `nodup_pass` — what is taken stands in the order of the list, once each;
* `not_fits_of_notMem` — what is not taken does not fit into what is left in the end;
* `filter_eq_pass_iff` — the list has nothing else of the taken items, where none of them stands twice.
-/

namespace FirstFit

variable {κ α : Type*} [DecidableEq α] (fits : κ → α → Prop) [∀ c x, Decidable (fits c x)]
  (take : κ → α → κ)

/-- What is left and what has been taken, after one more item. -/
def offer (acc : κ × List α) (x : α) : κ × List α :=
  if x ∉ acc.2 ∧ fits acc.1 x then (take acc.1 x, acc.2 ++ [x]) else acc

def pass (c : κ) (xs : List α) : κ × List α := xs.foldl (offer fits take) (c, [])

@[simp] theorem pass_nil (c : κ) : pass fits take c [] = (c, []) := rfl

theorem pass_append_singleton (c : κ) (xs : List α) (x : α) :
    pass fits take c (xs ++ [x]) = offer fits take (pass fits take c xs) x :=
  List.foldl_concat _ _ _ _

theorem pass_sublist (c : κ) (xs : List α) : (pass fits take c xs).2.Sublist xs := by
  induction xs using List.reverseRecOn with
  | nil => exact List.Sublist.refl _
  | append_singleton xs x ih =>
    rw [pass_append_singleton, offer]
    split
    · exact ih.append (List.Sublist.refl _)
    · exact ih.trans (List.sublist_append_left xs [x])

theorem nodup_pass (c : κ) (xs : List α) : (pass fits take c xs).2.Nodup := by
  induction xs using List.reverseRecOn with
  | nil => exact List.nodup_nil
  | append_singleton xs x ih =>
    rw [pass_append_singleton, offer]
    split
    case isTrue h =>
      refine List.nodup_append.mpr ⟨ih, List.nodup_singleton x, ?_⟩
      intro y hy z hz heq
      obtain rfl := List.mem_singleton.mp hz
      exact h.1 (heq ▸ hy)
    case isFalse => exact ih

variable {fits take}

/-- Taking an item never makes room for another. -/
theorem not_fits_of_notMem (hshrinks : ∀ c x y, fits (take c x) y → fits c y) {c : κ}
    {xs : List α} {x : α} (hx : x ∈ xs) (h : x ∉ (pass fits take c xs).2) :
    ¬ fits (pass fits take c xs).1 x := by
  induction xs using List.reverseRecOn with
  | nil => cases hx
  | append_singleton xs y ih =>
    rw [pass_append_singleton, offer] at h ⊢
    split at h
    case isTrue hy =>
      rw [if_pos hy]
      rw [List.mem_append, List.mem_singleton, not_or] at h
      have hold : x ∈ xs := by
        rcases List.mem_append.mp hx with hold | hnew
        · exact hold
        · exact absurd (List.mem_singleton.mp hnew) h.2
      exact fun hfits => ih hold h.1 (hshrinks _ _ _ hfits)
    case isFalse hy =>
      rw [if_neg hy]
      by_cases hold : x ∈ xs
      · exact ih hold h
      · obtain rfl : x = y := by simpa [hold] using hx
        exact fun hfits => hy ⟨h, hfits⟩

/-- An item of the list before has been decided on. -/
theorem mem_pass_append_singleton (hshrinks : ∀ c x y, fits (take c x) y → fits c y) {c : κ}
    {xs : List α} {x y : α} (hx : x ∈ xs) :
    x ∈ (pass fits take c (xs ++ [y])).2 ↔ x ∈ (pass fits take c xs).2 := by
  rw [pass_append_singleton, offer]
  split
  case isTrue hy =>
    rw [List.mem_append, List.mem_singleton, or_iff_left_iff_imp]
    rintro rfl
    -- had it been turned down before, it would not fit now
    by_contra hnot
    exact not_fits_of_notMem hshrinks hx hnot hy.2
  case isFalse => exact Iff.rfl

/-- Where no taken item stands in the list twice, the taken ones are all that the list has of
    them. -/
theorem filter_eq_pass_iff {c : κ} {xs : List α} :
    (xs.filter fun x => x ∈ (pass fits take c xs).2) = (pass fits take c xs).2 ↔
      ∀ x ∈ (pass fits take c xs).2, xs.count x = 1 := by
  set taken := (pass fits take c xs).2 with htaken
  have hsub : taken.Sublist xs := pass_sublist fits take c xs
  have hnodup : taken.Nodup := nodup_pass fits take c xs
  have hcount : ∀ x ∈ taken, (xs.filter fun x => x ∈ taken).count x = xs.count x :=
    fun x hx => List.count_filter (by simpa using hx)
  constructor
  · intro h x hx
    rw [← hcount x hx, h]
    exact List.count_eq_one_of_mem hnodup hx
  · intro h
    have hfilter : taken.Sublist (xs.filter fun x => x ∈ taken) := by
      have := hsub.filter fun x => decide (x ∈ taken)
      rwa [List.filter_eq_self.mpr (fun x hx => by simpa using hx)] at this
    have honce : (xs.filter fun x => x ∈ taken).Nodup := by
      rw [List.nodup_iff_count_le_one]
      intro x
      by_cases hx : x ∈ taken
      · exact ((hcount x hx).trans (h x hx)).le
      · rw [List.count_eq_zero.mpr (by simp [hx])]
        exact Nat.zero_le 1
    have hlength : taken.length = (xs.filter fun x => x ∈ taken).length := by
      refine List.Perm.length_eq ((List.perm_ext_iff_of_nodup hnodup honce).mpr fun x => ?_)
      rw [List.mem_filter]
      exact ⟨fun hx => ⟨hsub.subset hx, by simpa using hx⟩, fun hx => by simpa using hx.2⟩
    exact (hfilter.eq_of_length hlength).symm

end FirstFit
