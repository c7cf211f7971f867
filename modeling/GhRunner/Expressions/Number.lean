import GhRunner.Lib.Binary64
import GhRunner.Expressions.Value

namespace GhRunner.Expressions

open Text Binary64

/-!
# Numbers of expressions

Numeric coercion and rendering (`crates/expressions/src/number.rs`).

* `parseNumberChecked`, `parseNumber` — a text as a number;
* `formatNumber` — a number by its first fifteen digits;
* `notMem_of_parseNumberChecked` — no quote and no brace is part of a number.
-/

def nanBits : F64 := 0x7FF8000000000000

def infinityBits : F64 := 0x7FF0000000000000

def negInfinityBits : F64 := 0xFFF0000000000000

def eqIgnoreAsciiCase (s t : Str) : Bool := s.map Char.toLower = t.map Char.toLower

/-- The digit's value in the base, letters of either case standing for ten and above. -/
def toDigit (radix : ℕ) (c : Char) : Option ℕ :=
  let value :=
    if c.isDigit then some (c.toNat - '0'.toNat)
    else if 'a' ≤ c ∧ c ≤ 'z' then some (c.toNat - 'a'.toNat + 10)
    else if 'A' ≤ c ∧ c ≤ 'Z' then some (c.toNat - 'A'.toNat + 10)
    else none
  value.filter (· < radix)

/-- The 32 bits read as a signed number. -/
def parseRadix (digits : Str) (radix : ℕ) : Except Str F64 :=
  if digits = [] ∨ ¬ digits.all (fun c => (toDigit radix c).isSome) then
    .error "invalid radix digits".toList
  else
    let n := digits.foldl (fun n c => radix * n + (toDigit radix c).getD 0) 0
    if n < 2 ^ 32 then .ok (ofInt (BitVec.ofNat 32 n).toInt)
    else .error "number too large to fit in target type".toList

/-- The characters of a decimal number. -/
def isDecimalChar (c : Char) : Bool := c.isDigit || c ∈ ['+', '-', '.', 'e', 'E']

/-- Parse a numeric literal, or say why it is none. -/
def parseNumberChecked (input : Str) : Except Str F64 :=
  let text := trim input
  if text = [] then .ok 0
  else if "0x".toList <+: text then parseRadix (text.drop 2) 16
  else if "0o".toList <+: text then parseRadix (text.drop 2) 8
  else if eqIgnoreAsciiCase text "infinity".toList || eqIgnoreAsciiCase text "+infinity".toList then
    .ok infinityBits
  else if eqIgnoreAsciiCase text "-infinity".toList then .ok negInfinityBits
  else if text.any (fun c => !isDecimalChar c) then .error "invalid numeric syntax".toList
  else
    match parseFloat text with
    | some n => .ok n
    | none => .error "invalid float literal".toList

/-- Invalid values map to NaN. -/
def parseNumber (input : Str) : F64 :=
  match parseNumberChecked input with
  | .ok n => n
  | .error _ => nanBits

/-- Fifteen significant digits, the first apart, and the exponent of the first. -/
def scientificDigits (n : F64) : Char × Str × ℤ :=
  let (digits, exponent) := decimal 15 n
  (digitChar (digits / 10 ^ 14), fixedDigits 14 digits, exponent)

/-- With its sign and two digits at least; the exponent of a number has no more than three. -/
def formatExponent (exponent : ℤ) : Str :=
  (if exponent < 0 then '-' else '+') ::
    fixedDigits (if exponent.natAbs < 100 then 2 else 3) exponent.natAbs

/-- The digits of a finite number without its sign. -/
def formatMagnitude (n : F64) : Str :=
  let (first, more, exponent) := scientificDigits n
  let fraction := more.rdropWhile (· = '0')
  let digits := first :: fraction
  if exponent < -4 ∨ 15 ≤ exponent then
    first :: ((if fraction = [] then [] else '.' :: fraction) ++ 'E' :: formatExponent exponent)
  else
    let point := exponent + 1
    if point ≤ 0 then '0' :: '.' :: (List.replicate (-point).toNat '0' ++ digits)
    else if digits.length ≤ point.toNat then
      digits ++ List.replicate (point.toNat - digits.length) '0'
    else digits.take point.toNat ++ '.' :: digits.drop point.toNat

/-- Render fifteen significant digits. -/
def formatNumber (n : F64) : Str :=
  if isNaN n then "NaN".toList
  else if isInfinite n then (if n.msb then "-Infinity" else "Infinity").toList
  else (if n.msb then ['-'] else []) ++ formatMagnitude n

/-! ### What is part of a number -/

section Digits

variable {c : Char} {text : Str} {n : F64}

theorem all_of_parseRadix {digits : Str} {radix : ℕ} (h : parseRadix digits radix = .ok n) :
    ∀ c ∈ digits, (toDigit radix c).isSome := by
  unfold parseRadix at h
  split at h
  case isTrue => cases h
  case isFalse hdigits =>
    rw [not_or, not_not] at hdigits
    exact fun c hc => List.all_eq_true.mp hdigits.2 c hc

theorem notMem_of_prefixed {first second : Char} {radix : ℕ} (hpre : [first, second] <+: text)
    (hfirst : c ≠ first) (hsecond : c ≠ second) (hdigit : toDigit radix c = none)
    (h : parseRadix (text.drop 2) radix = .ok n) : c ∉ text := by
  obtain ⟨digits, rfl⟩ := hpre
  intro hc
  simp only [List.cons_append, List.nil_append, List.mem_cons] at hc
  rcases hc with hc | hc | hc
  · exact hfirst hc
  · exact hsecond hc
  · have hsome := all_of_parseRadix h c hc
    rw [hdigit] at hsome
    cases hsome

theorem notMem_of_eqIgnoreAsciiCase {word : Str} (hc : c.toLower ∉ word.map Char.toLower)
    (h : eqIgnoreAsciiCase text word = true) : c ∉ text := by
  intro hmem
  rw [← of_decide_eq_true h] at hc
  exact hc (List.mem_map_of_mem hmem)

end Digits

/-- A quote or a brace is part of no number. -/
theorem notMem_of_parseNumberChecked {c : Char} (hc : c = '\'' ∨ c = '\x7b' ∨ c = '\x7d') {s : Str}
    {n : F64} (h : parseNumberChecked s = .ok n) : c ∉ s := by
  have hblank : isWhitespace c = false := by rcases hc with rfl | rfl | rfl <;> rfl
  suffices hnot : c ∉ trim s from fun hmem => hnot (mem_trim hmem hblank)
  unfold parseNumberChecked at h
  generalize trim s = text at h
  dsimp only at h
  split at h
  case isTrue hnil =>
    rw [hnil]
    exact List.not_mem_nil
  case isFalse =>
    split at h
    case isTrue hpre =>
      refine notMem_of_prefixed hpre ?_ ?_ ?_ h
      all_goals rcases hc with rfl | rfl | rfl <;> decide
    case isFalse =>
      split at h
      case isTrue hpre =>
        refine notMem_of_prefixed hpre ?_ ?_ ?_ h
        all_goals rcases hc with rfl | rfl | rfl <;> decide
      case isFalse =>
        split at h
        case isTrue hword =>
          rcases Bool.or_eq_true_iff.mp hword with hword | hword
          all_goals
            refine notMem_of_eqIgnoreAsciiCase ?_ hword
            rcases hc with rfl | rfl | rfl <;> decide
        case isFalse =>
          split at h
          case isTrue hword =>
            refine notMem_of_eqIgnoreAsciiCase ?_ hword
            rcases hc with rfl | rfl | rfl <;> decide
          case isFalse =>
            split at h
            case isTrue => cases h
            case isFalse hall =>
              intro hmem
              refine hall (List.any_eq_true.mpr ⟨c, hmem, ?_⟩)
              rcases hc with rfl | rfl | rfl <;> rfl

/-- White space behind a number is no part of it. -/
theorem parseNumberChecked_append_blank {c : Char} (hc : isWhitespace c = true) (s : Str) :
    parseNumberChecked (s ++ [c]) = parseNumberChecked s := by
  have htrim : trim (s ++ [c]) = trim s := by
    unfold trim
    rw [List.dropWhile_append]
    split
    case isTrue hnil =>
      rw [List.isEmpty_iff.mp hnil, List.dropWhile_cons_of_pos hc]
      rfl
    case isFalse => exact List.rdropWhile_concat_pos _ _ _ hc
  rw [parseNumberChecked, htrim, parseNumberChecked]

end GhRunner.Expressions
