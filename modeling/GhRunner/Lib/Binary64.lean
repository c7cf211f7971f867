import GhRunner.Lib.Text
import Mathlib.Algebra.Group.Nat.Defs
import Mathlib.Algebra.Order.Ring.Int
import Mathlib.Data.Nat.Log

/-!
# Binary floating point and decimal texts

The 64-bit format of IEEE 754 by its bits, and the two correctly rounded conversions between it and
decimals.

* `magnitude`, `ofRatio` — a number as a fraction, and the number nearest to a fraction, ties to the
  even one;
* `partialCmp` — their order;
* `decimal`, `ofDecimal` — its first significant decimal digits, and the number nearest to a decimal;
* `parseFloat` — the decimal notation with an optional sign, point and exponent;
* `fixedDigits` — numerals of a given width.
-/

namespace Binary64

open Text

/-! ### Fractions -/

def exponentBits (n : BitVec 64) : ℕ := n.toNat / 2 ^ 52 % 2048

def fractionBits (n : BitVec 64) : ℕ := n.toNat % 2 ^ 52

def isNaN (n : BitVec 64) : Bool := exponentBits n = 2047 && fractionBits n ≠ 0

def isInfinite (n : BitVec 64) : Bool := exponentBits n = 2047 && fractionBits n = 0

/-- The magnitude of a finite number, as numerator and denominator. -/
def magnitude (n : BitVec 64) : ℕ × ℕ :=
  let e := exponentBits n
  if e = 0 then (fractionBits n, 2 ^ 1074)
  else if 1075 ≤ e then ((2 ^ 52 + fractionBits n) * 2 ^ (e - 1075), 1)
  else (2 ^ 52 + fractionBits n, 2 ^ (1075 - e))

def roundHalfEven (num den : ℕ) : ℕ :=
  let q := num / den
  let r := num % den
  if 2 * r < den ∨ 2 * r = den ∧ q % 2 = 0 then q else q + 1

/-- The exponent of the greatest power of the base that is at most the fraction. -/
def floorLog (base num den : ℕ) : ℤ :=
  if den ≤ num then Nat.log base (num / den)
  else -(Nat.clog base ((den + num - 1) / num) : ℤ)

/-- The fraction times a power of the base. -/
def scale (base : ℕ) (k : ℤ) (num den : ℕ) : ℕ × ℕ :=
  (num * base ^ k.toNat, den * base ^ (-k).toNat)

/-- The bits of the magnitude nearest to a fraction. -/
def ofRatio (num den : ℕ) : ℕ :=
  if num = 0 then 0
  else
    let e := max (-1074) (floorLog 2 num den - 52)
    let (num, den) := scale 2 (-e) num den
    let m := roundHalfEven num den
    -- rounding up to the next power of two is carried into the exponent by the sum
    if m < 2 ^ 52 then m else min (2047 * 2 ^ 52) ((e + 1074).toNat * 2 ^ 52 + m)

def withSign (negative : Bool) (bits : ℕ) : BitVec 64 :=
  BitVec.ofNat 64 (if negative then 2 ^ 63 + bits else bits)

def ofInt (i : ℤ) : BitVec 64 := withSign (i < 0) (ofRatio i.natAbs 1)

/-! ### Order -/

/-- A number's place among the others; both zeros have one. -/
def rank (n : BitVec 64) : ℤ := if n.msb then -(n.toNat - 2 ^ 63 : ℤ) else n.toNat

/-- NaN is not before, after or at any number. -/
def partialCmp (a b : BitVec 64) : Option Ordering :=
  if isNaN a || isNaN b then none else some (compare (rank a) (rank b))

/-- The whole part of a finite number's magnitude. -/
def wholePart (n : BitVec 64) : ℕ := (magnitude n).1 / (magnitude n).2

/-! ### Decimals -/

/-- The first significant digits of a finite number, as a number of that many digits, and the
    exponent of the first one. -/
def decimal (digits : ℕ) (n : BitVec 64) : ℕ × ℤ :=
  let (num, den) := magnitude n
  if num = 0 then (0, 0)
  else
    let k := floorLog 10 num den
    let (num, den) := scale 10 (digits - 1 - k) num den
    let d := roundHalfEven num den
    if d = 10 ^ digits then (10 ^ (digits - 1), k + 1) else (d, k)

/-- The number nearest to a decimal. -/
def ofDecimal (negative : Bool) (digits : ℕ) (exponent : ℤ) : BitVec 64 :=
  let (num, den) := scale 10 exponent digits 1
  withSign negative (ofRatio num den)

def digitValue (c : Char) : ℕ := c.toNat - '0'.toNat

def ofDigits (digits : Str) : ℕ := digits.foldl (fun n c => 10 * n + digitValue c) 0

/-- A sign, if there is one, and what follows it. -/
def takeSign : Str → Bool × Str
  | '+' :: rest => (false, rest)
  | '-' :: rest => (true, rest)
  | rest => (false, rest)

/-- Nothing, or an exponent. -/
def parseExponent : Str → Option ℤ
  | [] => some 0
  | c :: rest =>
    if c = 'e' ∨ c = 'E' then
      let (negative, digits) := takeSign rest
      if digits ≠ [] ∧ digits.all Char.isDigit then
        some (if negative then -(ofDigits digits : ℤ) else ofDigits digits)
      else none
    else none

/-- Digits before and behind a point, of which there is at least one. -/
def parseMantissa (text : Str) : Option (Str × Str × Str) :=
  let whole := text.takeWhile Char.isDigit
  match text.dropWhile Char.isDigit with
  | '.' :: rest =>
    let fraction := rest.takeWhile Char.isDigit
    if whole ++ fraction = [] then none
    else some (whole, fraction, rest.dropWhile Char.isDigit)
  | rest => if whole = [] then none else some (whole, [], rest)

/-- A number in decimal notation. -/
def parseFloat (text : Str) : Option (BitVec 64) :=
  let (negative, text) := takeSign text
  match parseMantissa text with
  | none => none
  | some (whole, fraction, rest) =>
    (parseExponent rest).map fun exponent =>
      ofDecimal negative (ofDigits (whole ++ fraction)) (exponent - fraction.length)

def digitChar (d : ℕ) : Char := Char.ofNat ('0'.toNat + d % 10)

/-- The last digits of a number, with zeros before it. -/
def fixedDigits : ℕ → ℕ → Str
  | 0, _ => []
  | width + 1, n => fixedDigits width (n / 10) ++ [digitChar n]

theorem isDigit_digitChar (d : ℕ) : (digitChar d).isDigit := by
  have hlt : d % 10 < 10 := Nat.mod_lt _ (by decide)
  have hall : ∀ r < 10, (Char.ofNat ('0'.toNat + r)).isDigit = true := by decide
  exact hall _ hlt

theorem isDigit_of_mem_fixedDigits {width n : ℕ} {c : Char} (h : c ∈ fixedDigits width n) :
    c.isDigit := by
  induction width generalizing n with
  | zero => cases h
  | succ width ih =>
    rcases List.mem_append.mp h with h | h
    · exact ih h
    · exact List.mem_singleton.mp h ▸ isDigit_digitChar n

end Binary64
