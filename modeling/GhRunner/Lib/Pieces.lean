import Mathlib.Data.List.Basic

/-!
# Ranges across the pieces of a list

A list is kept as consecutive pieces; a range of it is read one piece at a time, skipping into the
first piece and stopping inside the last.

* `exists_piece` — every position of the list lies inside one piece;
* `cut` — the slices of the pieces that a range consists of;
* `flatten_cut` — put together they are the range.
-/

namespace Pieces

variable {α : Type*}

/-- Position `n` lies inside a piece: those before it add up to what is left of `n`. -/
theorem exists_piece {ps : List (List α)} {n : ℕ} (h : n < ps.flatten.length) :
    ∃ before p after k, ps = before ++ p :: after ∧ n = before.flatten.length + k ∧
      k < p.length := by
  induction ps generalizing n with
  | nil => simp at h
  | cons p ps ih =>
    by_cases hn : n < p.length
    · exact ⟨[], p, ps, n, rfl, by simp, hn⟩
    · have hrest : n - p.length < ps.flatten.length := by
        rw [List.flatten_cons, List.length_append] at h
        omega
      obtain ⟨before, q, after, k, rfl, hsum, hk⟩ := ih hrest
      refine ⟨p :: before, q, after, k, rfl, ?_, hk⟩
      rw [List.flatten_cons, List.length_append]
      omega

/-- The slices of `n` elements in all, the first one `skip` elements into its piece. -/
def cut : List (List α) → ℕ → ℕ → List (List α)
  | [], _, _ => []
  | p :: ps, skip, n =>
    if n = 0 then []
    else (p.drop skip).take (min (p.length - skip) n) :: cut ps 0 (n - min (p.length - skip) n)

/-- A range that starts inside the first piece is put together from its slices. -/
theorem flatten_cut (ps : List (List α)) (skip n : ℕ) (h : ∀ p ∈ ps.head?, skip ≤ p.length) :
    (cut ps skip n).flatten = (ps.flatten.drop skip).take n := by
  induction ps generalizing skip n with
  | nil => simp [cut]
  | cons p ps ih =>
    have hskip : skip ≤ p.length := h p rfl
    unfold cut
    split
    case isTrue hn => simp [hn]
    case isFalse hn =>
      have hhead : (p.drop skip).take (min (p.length - skip) n) = (p.drop skip).take n := by
        rw [← List.length_drop, Nat.min_comm, ← List.take_eq_take_min]
      have hleft : n - min (p.length - skip) n = n - (p.drop skip).length := by
        rw [List.length_drop]
        omega
      rw [List.flatten_cons, ih 0 _ (fun _ _ => Nat.zero_le _), List.drop_zero, hhead, hleft,
        List.flatten_cons, List.drop_append_of_le_length hskip, List.take_append]

end Pieces
