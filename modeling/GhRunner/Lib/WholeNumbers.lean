import GhRunner.Lib.Decimal

/-!
# Whole numbers in binary floating point

A float below `2^52` that is a whole number, as the decimals and the integers it is converted to and
from.

* `IsWhole` — the float's magnitude is this number;
* `ofRatio_of_isWhole`, `ofInt_of_isWhole` — the conversion from the integer gives the float's bits;
* `decimal_of_isWhole` — its significant digits are those of the integer, and zeros;
* `fixedDigits_mul_pow`, `ofDigits_fixedDigits` — the numerals of a given width.
-/

namespace Binary64

open Decimal

/-! ### Numerals of a given width -/

theorem digitValue_digitChar (d : ℕ) : digitValue (digitChar d) = d % 10 := by
  have hlt : d % 10 < 10 := Nat.mod_lt _ (by decide)
  have hall : ∀ r < 10, digitValue (Char.ofNat ('0'.toNat + r)) = r := by decide
  exact hall _ hlt

theorem digitChar_eq_zero_iff {d : ℕ} : digitChar d = '0' ↔ d % 10 = 0 := by
  have hlt : d % 10 < 10 := Nat.mod_lt _ (by decide)
  have hall : ∀ r < 10, Char.ofNat ('0'.toNat + r) = '0' ↔ r = 0 := by decide
  exact hall _ hlt

@[simp] theorem length_fixedDigits (width n : ℕ) : (fixedDigits width n).length = width := by
  induction width generalizing n with
  | zero => rfl
  | succ width ih => rw [fixedDigits, List.length_append, ih, List.length_singleton]

/-- The first digit apart from the others. -/
theorem fixedDigits_succ (width n : ℕ) :
    fixedDigits (width + 1) n = digitChar (n / 10 ^ width) :: fixedDigits width n := by
  induction width generalizing n with
  | zero =>
    rw [Nat.pow_zero, Nat.div_one]
    rfl
  | succ width ih =>
    rw [fixedDigits, ih, fixedDigits, List.cons_append, Nat.div_div_eq_div_mul, Nat.pow_succ,
      Nat.mul_comm]

theorem fixedDigits_mul_pow (width zeros n : ℕ) :
    fixedDigits (width + zeros) (n * 10 ^ zeros) =
      fixedDigits width n ++ List.replicate zeros '0' := by
  induction zeros with
  | zero => rw [Nat.pow_zero, Nat.mul_one, List.replicate_zero, List.append_nil, Nat.add_zero]
  | succ zeros ih =>
    have hdiv : n * 10 ^ (zeros + 1) / 10 = n * 10 ^ zeros := by
      rw [Nat.pow_succ, ← Nat.mul_assoc]
      exact Nat.mul_div_cancel _ (by decide)
    have hlast : digitChar (n * 10 ^ (zeros + 1)) = '0' := by
      rw [digitChar_eq_zero_iff, Nat.pow_succ, ← Nat.mul_assoc]
      exact Nat.mul_mod_left _ _
    rw [← Nat.add_assoc, fixedDigits, hdiv, ih, hlast, List.append_assoc, List.replicate_succ']

theorem ofDigits_fixedDigits (width n : ℕ) : ofDigits (fixedDigits width n) = n % 10 ^ width := by
  induction width generalizing n with
  | zero => rw [Nat.pow_zero, Nat.mod_one]; rfl
  | succ width ih =>
    have hlast : ofDigits [digitChar n] = n % 10 := by
      rw [← digitValue_digitChar]
      exact Nat.zero_add _
    rw [fixedDigits, ofDigits_append, ih, hlast, List.length_singleton, Nat.pow_one, Nat.pow_succ',
      Nat.mod_mul]
    omega

/-! ### Rounding what is whole -/

theorem roundHalfEven_mul {d : ℕ} (hd : 0 < d) (q : ℕ) : roundHalfEven (q * d) d = q := by
  have hrem : q * d % d = 0 := Nat.mul_mod_left _ _
  unfold roundHalfEven
  rw [hrem, Nat.mul_div_cancel _ hd]
  exact if_pos (Or.inl (by omega))

/-- The float is finite, and its magnitude is this number. -/
structure IsWhole (n : BitVec 64) (k : ℕ) : Prop where
  finite : exponentBits n < 2047
  eq : (magnitude n).1 = k * (magnitude n).2

theorem magnitude_pos (n : BitVec 64) : 0 < (magnitude n).2 := by
  have hpow : ∀ e : ℕ, 0 < 2 ^ e := Nat.two_pow_pos
  unfold magnitude
  dsimp only
  split
  case isTrue => exact hpow 1074
  case isFalse =>
    split
    case isTrue => exact Nat.one_pos
    case isFalse => exact hpow _

/-- A float's bits: the sign, the exponent, the fraction. -/
theorem toNat_eq (n : BitVec 64) :
    n.toNat = (if n.msb then 2 ^ 63 else 0) + (exponentBits n * 2 ^ 52 + fractionBits n) := by
  have hlt := n.isLt
  have hmsb : n.msb = true ↔ 2 ^ 63 ≤ n.toNat := by
    rw [BitVec.msb_eq_decide, decide_eq_true_eq]
  unfold exponentBits fractionBits
  by_cases h : n.msb = true
  · have := hmsb.mp h
    rw [if_pos h]
    omega
  · have : ¬ 2 ^ 63 ≤ n.toNat := fun hle => h (hmsb.mpr hle)
    rw [if_neg h]
    omega

theorem fractionBits_lt (n : BitVec 64) : fractionBits n < 2 ^ 52 := Nat.mod_lt _ (Nat.two_pow_pos _)

/-- The significand of a whole number is the number moved to the left. -/
theorem IsWhole.significand {n : BitVec 64} {k : ℕ} (h : IsWhole n k) (hpos : 0 < k)
    (hlt : k < 2 ^ 52) :
    ∃ s ≤ 52, exponentBits n = 1075 - s ∧ 2 ^ 52 + fractionBits n = k * 2 ^ s := by
  have hfraction := fractionBits_lt n
  have hbig (e : ℕ) (he : 52 ≤ e) : 2 ^ 52 ≤ k * 2 ^ e := calc
    2 ^ 52 ≤ 2 ^ e := Nat.pow_le_pow_right (by decide) he
    _ ≤ k * 2 ^ e := Nat.le_mul_of_pos_left _ hpos
  have heq := h.eq
  unfold magnitude at heq
  dsimp only at heq
  split at heq
  case isTrue =>
    -- a subnormal number is less than one
    exact absurd (hbig 1074 (by decide)) (not_le.mpr (heq ▸ hfraction))
  case isFalse =>
    split at heq
    case isTrue =>
      have hgrows : 2 ^ 52 + fractionBits n ≤
          (2 ^ 52 + fractionBits n) * 2 ^ (exponentBits n - 1075) :=
        Nat.le_mul_of_pos_right _ (Nat.two_pow_pos _)
      have heq : (2 ^ 52 + fractionBits n) * 2 ^ (exponentBits n - 1075) = k * 1 := heq
      omega
    case isFalse hsmall =>
      have heq : 2 ^ 52 + fractionBits n = k * 2 ^ (1075 - exponentBits n) := heq
      refine ⟨1075 - exponentBits n, ?_, by omega, heq⟩
      by_contra hmore
      have hover : 2 ^ 53 ≤ k * 2 ^ (1075 - exponentBits n) := calc
        2 ^ 53 ≤ 2 ^ (1075 - exponentBits n) := Nat.pow_le_pow_right (by decide) (by omega)
        _ ≤ k * 2 ^ (1075 - exponentBits n) := Nat.le_mul_of_pos_left _ hpos
      omega

theorem log_of_significand {k s f : ℕ} (hs : s ≤ 52) (hf : f < 2 ^ 52)
    (h : 2 ^ 52 + f = k * 2 ^ s) : Nat.log 2 k = 52 - s := by
  apply Nat.log_eq_of_pow_le_of_lt_pow
  · apply Nat.le_of_mul_le_mul_right (c := 2 ^ s) _ (Nat.two_pow_pos s)
    rw [← Nat.pow_add, Nat.sub_add_cancel hs]
    omega
  · apply Nat.lt_of_mul_lt_mul_right (a := 2 ^ s)
    rw [← Nat.pow_add, show 52 - s + 1 + s = 53 by omega]
    omega

/-- The integer's bits are those of the float without its sign. -/
theorem ofRatio_of_isWhole {n : BitVec 64} {k : ℕ} (h : IsWhole n k) (hlt : k < 2 ^ 52) :
    ofRatio k 1 = exponentBits n * 2 ^ 52 + fractionBits n := by
  have hfraction := fractionBits_lt n
  have hfinite := h.finite
  rcases Nat.eq_zero_or_pos k with rfl | hpos
  · -- nothing but the sign is set in a zero
    have heq := h.eq
    rw [Nat.zero_mul] at heq
    unfold magnitude at heq
    dsimp only at heq
    rw [ofRatio, if_pos rfl]
    split at heq
    case isTrue hzero =>
      have heq : fractionBits n = 0 := heq
      omega
    case isFalse =>
      split at heq
      · have hprod : (2 ^ 52 + fractionBits n) * 2 ^ (exponentBits n - 1075) = 0 := heq
        have hpow := Nat.two_pow_pos (exponentBits n - 1075)
        rcases Nat.mul_eq_zero.mp hprod with h | h <;> omega
      · have heq : 2 ^ 52 + fractionBits n = 0 := heq
        omega
  · obtain ⟨s, hs, hexponent, hsignificand⟩ := h.significand hpos hlt
    have hlog : floorLog 2 k 1 = ((52 - s : ℕ) : ℤ) := by
      rw [floorLog, if_pos (show 1 ≤ k from hpos), Nat.div_one, log_of_significand hs hfraction hsignificand]
    have he : max (-1074) (floorLog 2 k 1 - 52) = -(s : ℤ) := by
      rw [hlog]
      omega
    have hscale : scale 2 (-(-(s : ℤ))) k 1 = (k * 2 ^ s, 1) := by
      rw [scale, neg_neg]
      simp
    have hround : roundHalfEven (k * 2 ^ s) 1 = 2 ^ 52 + fractionBits n := by
      rw [hsignificand]
      simpa using roundHalfEven_mul Nat.one_pos (k * 2 ^ s)
    have hcarry : (-(s : ℤ) + 1074).toNat = 1074 - s := by omega
    rw [ofRatio, if_neg (by omega), he]
    dsimp only
    rw [hscale]
    dsimp only
    rw [hround, if_neg (by omega), hcarry]
    have hone : exponentBits n = (1074 - s) + 1 := by omega
    have hlimit : (1074 - s) + 1 < 2047 := hone ▸ hfinite
    rw [hone]
    clear * - hlimit hfraction
    generalize 1074 - s = e at hlimit ⊢
    have htop : e * 2 ^ 52 + (2 ^ 52 + fractionBits n) ≤ 2047 * 2 ^ 52 := by omega
    rw [min_eq_right htop, Nat.add_mul, Nat.one_mul, Nat.add_assoc]

theorem withSign_of_isWhole {n : BitVec 64} {k : ℕ} (h : IsWhole n k) (hlt : k < 2 ^ 52) :
    withSign n.msb (ofRatio k 1) = n := by
  have hn := toNat_eq n
  have hisLt := n.isLt
  apply BitVec.eq_of_toNat_eq
  rw [withSign, ofRatio_of_isWhole h hlt, BitVec.toNat_ofNat]
  cases hmsb : n.msb
  · rw [hmsb, if_neg Bool.false_ne_true] at hn
    rw [if_neg Bool.false_ne_true]
    omega
  · rw [hmsb, if_pos rfl] at hn
    rw [if_pos rfl]
    omega

/-- Fifteen significant digits of a number that has no more. -/
theorem decimal_of_isWhole {n : BitVec 64} {k : ℕ} (h : IsWhole n k) (hpos : 0 < k)
    (hlt : k < 10 ^ 15) :
    decimal 15 n = (k * 10 ^ (14 - Nat.log 10 k), (Nat.log 10 k : ℤ)) := by
  have hden := magnitude_pos n
  have hwhole := h.eq
  have hlog : Nat.log 10 k ≤ 14 := Nat.lt_succ_iff.mp (Nat.log_lt_of_lt_pow (by omega) hlt)
  rcases hmagnitude : magnitude n with ⟨num, den⟩
  rw [hmagnitude] at hden hwhole
  obtain rfl : num = k * den := hwhole
  have hden : 0 < den := hden
  have hfloor : floorLog 10 (k * den) den = (Nat.log 10 k : ℤ) := by
    rw [floorLog, if_pos (Nat.le_mul_of_pos_left _ hpos), Nat.mul_div_cancel _ hden]
  have hscale : scale 10 ((15 : ℕ) - 1 - (Nat.log 10 k : ℤ)) (k * den) den =
      (k * 10 ^ (14 - Nat.log 10 k) * den, den) := by
    have hup : ((15 : ℕ) - 1 - (Nat.log 10 k : ℤ)).toNat = 14 - Nat.log 10 k := by omega
    have hdown : (-((15 : ℕ) - 1 - (Nat.log 10 k : ℤ))).toNat = 0 := by omega
    rw [scale, hup, hdown, Nat.pow_zero, Nat.mul_one, Nat.mul_right_comm]
  have hsmall : k * 10 ^ (14 - Nat.log 10 k) < 10 ^ 15 := calc
    k * 10 ^ (14 - Nat.log 10 k) < 10 ^ (Nat.log 10 k + 1) * 10 ^ (14 - Nat.log 10 k) :=
      Nat.mul_lt_mul_of_pos_right (Nat.lt_pow_succ_log_self (by decide) k) (Nat.pow_pos (by decide))
    _ = 10 ^ 15 := by rw [← Nat.pow_add]; congr 1; omega
  have hzero : k * den ≠ 0 := (Nat.mul_pos hpos hden).ne'
  rw [decimal, hmagnitude]
  dsimp only
  rw [if_neg hzero, hfloor, hscale]
  dsimp only
  rw [roundHalfEven_mul hden, if_neg hsmall.ne]

end Binary64
