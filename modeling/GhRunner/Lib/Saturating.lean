import Mathlib.Data.BitVec
import Mathlib.Data.Multiset.Fold
import Mathlib.Algebra.BigOperators.Group.Multiset.Basic

/-!
# Saturating arithmetic on fixed-width machine integers

Unsigned machine integers are `BitVec w`.  Saturating addition clamps at the largest value
of the width, saturating subtraction clamps at zero.  Both are described by their value as
a natural number (`toNat_satAdd`, `toNat_satSub`), which is what every later argument uses:

* `satAdd_comm` / `satAdd_assoc` — the order of a saturating sum does not matter, so a fold
  over an unordered container is well defined;
* `toNat_foldl_satAdd` / `toNat_fold_satAdd` — a saturating fold is the true sum clamped
  once, at the end.
-/

namespace Saturating

variable {w : ℕ}

/-- The largest value of the width, as a natural number. -/
def maxNat (w : ℕ) : ℕ := 2 ^ w - 1

/-- Clamp a natural number into the width. -/
def clamp (w n : ℕ) : BitVec w := BitVec.ofNat w (min n (maxNat w))

/-- Addition that stays at the largest value instead of wrapping. -/
def satAdd (a b : BitVec w) : BitVec w := clamp w (a.toNat + b.toNat)

/-- Subtraction that stays at zero instead of wrapping. -/
def satSub (a b : BitVec w) : BitVec w := clamp w (a.toNat - b.toNat)

/-- The smaller of the two. -/
def minOf (a b : BitVec w) : BitVec w := if a ≤ b then a else b

theorem maxNat_lt (w : ℕ) : maxNat w < 2 ^ w := by
  have := Nat.two_pow_pos w
  unfold maxNat
  omega

theorem toNat_le_maxNat (a : BitVec w) : a.toNat ≤ maxNat w := by
  have := a.isLt
  unfold maxNat
  omega

@[simp] theorem toNat_clamp (n : ℕ) : (clamp w n).toNat = min n (maxNat w) := by
  have h : min n (maxNat w) < 2 ^ w := lt_of_le_of_lt (min_le_right _ _) (maxNat_lt w)
  rw [clamp, BitVec.toNat_ofNat, Nat.mod_eq_of_lt h]

@[simp] theorem toNat_satAdd (a b : BitVec w) :
    (satAdd a b).toNat = min (a.toNat + b.toNat) (maxNat w) := toNat_clamp _

@[simp] theorem toNat_satSub (a b : BitVec w) : (satSub a b).toNat = a.toNat - b.toNat := by
  have h : a.toNat - b.toNat ≤ maxNat w := le_trans (Nat.sub_le _ _) (toNat_le_maxNat a)
  rw [satSub, toNat_clamp, min_eq_left h]

@[simp] theorem toNat_minOf (a b : BitVec w) : (minOf a b).toNat = min a.toNat b.toNat := by
  unfold minOf
  split
  case isTrue h => exact (min_eq_left (BitVec.le_def.mp h)).symm
  case isFalse h => exact (min_eq_right (Nat.le_of_not_le fun hle => h (BitVec.le_def.mpr hle))).symm

theorem satAdd_comm (a b : BitVec w) : satAdd a b = satAdd b a := by
  rw [satAdd, satAdd, Nat.add_comm]

theorem satAdd_assoc (a b c : BitVec w) : satAdd (satAdd a b) c = satAdd a (satAdd b c) := by
  apply BitVec.eq_of_toNat_eq
  simp only [toNat_satAdd]
  omega

/-- A saturating fold is the true sum, clamped once. -/
theorem toNat_foldl_satAdd (l : List (BitVec w)) (a : BitVec w) :
    (l.foldl satAdd a).toNat = min (a.toNat + (l.map BitVec.toNat).sum) (maxNat w) := by
  induction l generalizing a with
  | nil =>
    have := toNat_le_maxNat a
    simp only [List.foldl_nil, List.map_nil, List.sum_nil]
    omega
  | cons x xs ih =>
    simp only [List.foldl_cons, List.map_cons, List.sum_cons, ih, toNat_satAdd]
    omega

instance : Std.Commutative (satAdd (w := w)) := ⟨satAdd_comm⟩

instance : Std.Associative (satAdd (w := w)) := ⟨satAdd_assoc⟩

/-- The same fact for a container with no order of its own. -/
theorem toNat_fold_satAdd (s : Multiset (BitVec w)) (a : BitVec w) :
    (s.fold satAdd a).toNat = min (a.toNat + (s.map BitVec.toNat).sum) (maxNat w) := by
  induction s using Multiset.induction with
  | empty =>
    have := toNat_le_maxNat a
    simp only [Multiset.fold_zero, Multiset.map_zero, Multiset.sum_zero]
    omega
  | cons x xs ih =>
    simp only [Multiset.fold_cons_left, Multiset.map_cons, Multiset.sum_cons, toNat_satAdd, ih]
    omega

end Saturating
