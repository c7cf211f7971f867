import GhRunner.Docker.OptionValues
import GhRunner.Lib.Decimal
import GhRunner.Lib.Descent
import Mathlib.Algebra.Order.Floor.Semifield
import Mathlib.Data.Rat.Floor
import Mathlib.Tactic.Ring

namespace GhRunner.Docker

open Text Binary64 Decimal
open GhRunner.Daemon (parseDigits)

/-!
# Durations

What a duration on the command line stands for, and that `parse_duration` of
`crates/execution/src/docker/container_health_options.rs` reads it so.

* `DurationUnit`, `Component`, `durationText` — the durations and their texts;
* `Component.nanos`, `durationSum` — what they stand for, in whole nanoseconds;
* `durationComponent_text`, `decimalNanos_numberText` — one component, read from the front;
* `durationNanos_sound`, `durationNanos_complete`, `durationNanos_inv` — the components behind each
  other;
* `duration_exact` — whole values.
-/

/-! ### Durations and their texts -/

inductive DurationUnit
  | ns
  | us
  | microsecond
  | ms
  | s
  | m
  | h
deriving DecidableEq, Repr

namespace DurationUnit

def text : DurationUnit → Str
  | ns => "ns".toList
  | us => "us".toList
  | microsecond => "µs".toList
  | ms => "ms".toList
  | s => "s".toList
  | m => "m".toList
  | h => "h".toList

def nanos : DurationUnit → ℕ
  | ns => 1
  | us => 10 ^ 3
  | microsecond => 10 ^ 3
  | ms => 10 ^ 6
  | s => 10 ^ 9
  | m => 60 * 10 ^ 9
  | h => 60 * 60 * 10 ^ 9

theorem nanos_bounds (unit : DurationUnit) : 0 < unit.nanos ∧ unit.nanos ≤ 60 * 60 * 10 ^ 9 := by
  cases unit <;> decide

end DurationUnit

/-- A decimal number with its unit; the digits before or behind the point may be missing. -/
structure Component where
  whole : Str
  fraction : Option Str
  unit : DurationUnit
  whole_digits : ∀ c ∈ whole, c.isDigit = true
  fraction_digits : ∀ c ∈ fraction.getD [], c.isDigit = true
  some_digit : ¬ (whole = [] ∧ fraction.getD [] = [])

namespace Component

def numberText (c : Component) : Str := c.whole ++ c.fraction.elim [] ('.' :: ·)

def text (c : Component) : Str := c.numberText ++ c.unit.text

def number (c : Component) : ℚ :=
  ofDigits c.whole + ofDigits (c.fraction.getD []) / 10 ^ (c.fraction.getD []).length

/-- Whole nanoseconds; what is left over is dropped. -/
def nanos (c : Component) : ℕ := ⌊c.number * c.unit.nanos⌋₊

theorem nanos_eq (c : Component) :
    c.nanos = ofDigits c.whole * c.unit.nanos +
      ofDigits (c.fraction.getD []) * c.unit.nanos / 10 ^ (c.fraction.getD []).length := by
  have hsplit : c.number * c.unit.nanos =
      ((ofDigits (c.fraction.getD []) * c.unit.nanos : ℕ) : ℚ) /
        ((10 ^ (c.fraction.getD []).length : ℕ) : ℚ) +
          ((ofDigits c.whole * c.unit.nanos : ℕ) : ℚ) := by
    rw [number]
    push_cast
    ring
  rw [nanos, hsplit, Nat.floor_add_natCast (by positivity), Nat.floor_div_eq_div, Nat.add_comm]

end Component

def durationText (plus : Bool) (components : List Component) : Str :=
  (if plus then ['+'] else []) ++ components.flatMap Component.text

def durationSum (components : List Component) : ℕ := (components.map Component.nanos).sum

/-- Nothing, or at least a millisecond, and an `i64`. -/
def DurationInRange (nanos : ℕ) : Prop := nanos = 0 ∨ 10 ^ 6 ≤ nanos ∧ nanos ≤ 2 ^ 63 - 1

instance (nanos : ℕ) : Decidable (DurationInRange nanos) := inferInstanceAs (Decidable (_ ∨ _))

/-! ### Digits -/

theorem parseDigits_eq_some_iff {s : Str} {n : ℕ} :
    parseDigits s = some n ↔ s ≠ [] ∧ (∀ c ∈ s, c.isDigit = true) ∧ n = ofDigits s := by
  have hfold (s : Str) (k : ℕ) :
      s.foldlM (fun n d => if d.isDigit then some (10 * n + (d.toNat - 48)) else none) k = some n ↔
        (∀ c ∈ s, c.isDigit = true) ∧ n = s.foldl (fun n c => 10 * n + digitValue c) k := by
    induction s generalizing k with
    | nil => exact ⟨fun h => ⟨List.forall_mem_nil _, (Option.some.inj h).symm⟩,
        fun h => congrArg some h.2.symm⟩
    | cons c s ih =>
      rw [List.foldlM_cons, List.forall_mem_cons, List.foldl_cons]
      by_cases hc : c.isDigit = true
      · rw [if_pos hc]
        exact (ih _).trans (by simp [hc, digitValue])
      · rw [if_neg hc]
        simp [hc]
  cases s with
  | nil => simp [parseDigits]
  | cons c s =>
    rw [parseDigits, hfold]
    simp [ofDigits]

theorem checkedU128_eq_some_iff {n k : ℕ} : checkedU128 n = some k ↔ n < 2 ^ 128 ∧ k = n := by
  rw [checkedU128, Option.ite_none_right_eq_some, Option.some.injEq, eq_comm (a := n)]

theorem checkedU128_of_lt {n : ℕ} (h : n < 2 ^ 128) : checkedU128 n = some n := if_pos h

/-- Digits that may be missing. -/
def optionalU128 (s : Str) : Option ℕ := if s = [] then some 0 else parseU128 s

theorem optionalU128_eq_some_iff {s : Str} {n : ℕ} :
    optionalU128 s = some n ↔
      (∀ c ∈ s, c.isDigit = true) ∧ ofDigits s < 2 ^ 128 ∧ n = ofDigits s := by
  unfold optionalU128
  split
  case isTrue hnil =>
    subst hnil
    rw [Option.some.injEq]
    constructor
    · rintro rfl
      exact ⟨List.forall_mem_nil _, by decide, rfl⟩
    · rintro ⟨-, -, rfl⟩
      rfl
  case isFalse hsome =>
    rw [parseU128, Option.bind_eq_some_iff]
    constructor
    · rintro ⟨k, hk, hchecked⟩
      obtain ⟨-, hdigits, rfl⟩ := parseDigits_eq_some_iff.mp hk
      obtain ⟨hlt, rfl⟩ := checkedU128_eq_some_iff.mp hchecked
      exact ⟨hdigits, hlt, rfl⟩
    · rintro ⟨hdigits, hlt, rfl⟩
      exact ⟨_, parseDigits_eq_some_iff.mpr ⟨hsome, hdigits, rfl⟩, checkedU128_of_lt hlt⟩

/-! ### One component -/

theorem fractionNanos_eq_some_iff {fraction : Str} {unit n : ℕ} :
    fractionNanos fraction unit = some n ↔
      (∀ c ∈ fraction, c.isDigit = true) ∧ ofDigits fraction < 2 ^ 128 ∧
        10 ^ fraction.length < 2 ^ 128 ∧ ofDigits fraction * unit < 2 ^ 128 ∧
          n = ofDigits fraction * unit / 10 ^ fraction.length := by
  have heq : fractionNanos fraction unit = (optionalU128 fraction).bind fun numerator =>
      (checkedU128 (10 ^ fraction.length)).bind fun denominator =>
        (checkedU128 (numerator * unit)).bind fun product => some (product / denominator) := by
    unfold fractionNanos optionalU128
    split <;> rfl
  simp only [heq, Option.bind_eq_some_iff, checkedU128_eq_some_iff, optionalU128_eq_some_iff,
    Option.some.injEq]
  constructor
  · rintro ⟨_, ⟨hdigits, hlt, rfl⟩, _, ⟨hden, rfl⟩, _, ⟨hprod, rfl⟩, rfl⟩
    exact ⟨hdigits, hlt, hden, hprod, rfl⟩
  · rintro ⟨hdigits, hlt, hden, hprod, rfl⟩
    exact ⟨_, ⟨hdigits, hlt, rfl⟩, _, ⟨hden, rfl⟩, _, ⟨hprod, rfl⟩, rfl⟩

/-- The digits before the point and those behind it, with every operation in the range of `u128`. -/
theorem decimalNanos_eq_some_iff {number whole fraction : Str} {unit n : ℕ}
    (hsplit : (splitFirst ['.'] number).getD (number, []) = (whole, fraction)) :
    decimalNanos number unit = some n ↔
      ¬ ((whole = [] ∧ fraction = []) ∨ number.count '.' > 1) ∧
        (∀ c ∈ whole, c.isDigit = true) ∧ ofDigits whole < 2 ^ 128 ∧
        (∀ c ∈ fraction, c.isDigit = true) ∧ ofDigits fraction < 2 ^ 128 ∧
        10 ^ fraction.length < 2 ^ 128 ∧ ofDigits fraction * unit < 2 ^ 128 ∧
        ofDigits whole * unit < 2 ^ 128 ∧
        ofDigits whole * unit + ofDigits fraction * unit / 10 ^ fraction.length < 2 ^ 128 ∧
        n = ofDigits whole * unit + ofDigits fraction * unit / 10 ^ fraction.length := by
  have heq : decimalNanos number unit =
      if (whole = [] ∧ fraction = []) ∨ number.count '.' > 1 then none
      else (optionalU128 whole).bind fun whole =>
        if fraction.all Char.isDigit = true then
          (fractionNanos fraction unit).bind fun fraction =>
            (checkedU128 (whole * unit)).bind fun product => checkedU128 (product + fraction)
        else none := by
    unfold decimalNanos optionalU128
    rw [hsplit]
    dsimp only
    split
    · rfl
    · cases hall : fraction.all Char.isDigit with
      | false => split <;> rfl
      | true => split <;> rfl
  rw [heq, Option.ite_none_left_eq_some]
  apply and_congr Iff.rfl
  simp only [Option.bind_eq_some_iff, optionalU128_eq_some_iff, Option.ite_none_right_eq_some,
    List.all_eq_true, fractionNanos_eq_some_iff, checkedU128_eq_some_iff]
  constructor
  · rintro ⟨_, ⟨hwhole, hwholelt, rfl⟩, -, _, ⟨hfraction, hlt, hden, hprod, rfl⟩, _, ⟨hmul, rfl⟩,
      hadd, rfl⟩
    exact ⟨hwhole, hwholelt, hfraction, hlt, hden, hprod, hmul, hadd, rfl⟩
  · rintro ⟨hwhole, hwholelt, hfraction, hlt, hden, hprod, hmul, hadd, rfl⟩
    exact ⟨_, ⟨hwhole, hwholelt, rfl⟩, hfraction, _, ⟨hfraction, hlt, hden, hprod, rfl⟩, _,
      ⟨hmul, rfl⟩, hadd, rfl⟩

theorem not_isDigit_point : ¬ '.'.isDigit = true := by decide

namespace Component

theorem split_numberText (c : Component) :
    (splitFirst ['.'] c.numberText).getD (c.numberText, []) = (c.whole, c.fraction.getD []) := by
  have hpoint : '.' ∉ c.whole := fun h => not_isDigit_point (c.whole_digits _ h)
  cases hfraction : c.fraction with
  | none =>
    have hnone : splitFirst ['.'] c.numberText = none := by
      rw [splitFirst_eq_none_iff, numberText, hfraction]
      simpa [List.singleton_infix_iff] using hpoint
    rw [hnone, numberText, hfraction]
    simp
  | some fraction =>
    have hsome : splitFirst ['.'] c.numberText = some (c.whole, fraction) := by
      rw [numberText, hfraction]
      exact splitFirst_of_notMem hpoint [] fraction
    rw [hsome]
    rfl

theorem count_numberText (c : Component) : c.numberText.count '.' ≤ 1 := by
  have hwhole : c.whole.count '.' = 0 :=
    List.count_eq_zero.mpr fun h => not_isDigit_point (c.whole_digits _ h)
  have hfraction : (c.fraction.getD []).count '.' = 0 :=
    List.count_eq_zero.mpr fun h => not_isDigit_point (c.fraction_digits _ h)
  rw [numberText, List.count_append, hwhole]
  cases hf : c.fraction with
  | none => simp
  | some fraction =>
    rw [hf] at hfraction
    show 0 + ('.' :: fraction).count '.' ≤ 1
    rw [List.count_cons_self, show fraction.count '.' = 0 from hfraction]

end Component

theorem decimalNanos_numberText_sound (c : Component) {n : ℕ}
    (h : decimalNanos c.numberText c.unit.nanos = some n) : n = c.nanos := by
  rw [decimalNanos_eq_some_iff c.split_numberText] at h
  obtain ⟨-, -, -, -, -, -, -, -, -, rfl⟩ := h
  exact c.nanos_eq.symm

/-- A fraction of at most twenty digits leaves room for the largest unit. -/
theorem decimalNanos_numberText (c : Component) (hfraction : (c.fraction.getD []).length ≤ 20)
    (hnanos : c.nanos < 2 ^ 63) : decimalNanos c.numberText c.unit.nanos = some c.nanos := by
  obtain ⟨hpos, hunit⟩ := c.unit.nanos_bounds
  rw [decimalNanos_eq_some_iff c.split_numberText, ← c.nanos_eq]
  have hle : ofDigits c.whole * c.unit.nanos ≤ c.nanos := by
    rw [c.nanos_eq]
    exact Nat.le_add_right _ _
  have hwhole : ofDigits c.whole ≤ ofDigits c.whole * c.unit.nanos := Nat.le_mul_of_pos_right _ hpos
  have hden : 10 ^ (c.fraction.getD []).length ≤ 10 ^ 20 := Nat.pow_le_pow_right (by decide) hfraction
  have hnum : ofDigits (c.fraction.getD []) < 10 ^ 20 :=
    (ofDigits_lt c.fraction_digits).trans_le hden
  have hprod : ofDigits (c.fraction.getD []) * c.unit.nanos ≤ 10 ^ 20 * (60 * 60 * 10 ^ 9) :=
    Nat.mul_le_mul hnum.le hunit
  have hcount := c.count_numberText
  have hsome := c.some_digit
  refine ⟨?_, c.whole_digits, by omega, c.fraction_digits, by omega, by omega, by omega, by omega,
    by omega, rfl⟩
  rintro (hnone | hmore)
  · exact hsome hnone
  · omega

/-! ### Components from the front of a text -/

def isNumberChar (c : Char) : Bool := c.isDigit || c = '.'

/-- What may follow a component: nothing, or the next number. -/
def StartsNumber (rest : Str) : Prop := ∀ c ∈ rest.head?, isNumberChar c = true

namespace DurationUnit

/-- The units are told apart: `ms` is tried before `m`, and no number begins with an `s`. -/
theorem durationUnit_text (unit : DurationUnit) {rest : Str} (h : StartsNumber rest) :
    durationUnit (unit.text ++ rest) = some (unit.text, unit.nanos) := by
  cases unit with
  | m =>
    have hnot : "ms".toList.isPrefixOf ('m' :: rest) = false := by
      cases rest with
      | nil => rfl
      | cons c rest =>
        have hc := h c rfl
        have hne : c ≠ 's' := by
          rintro rfl
          exact absurd hc (by decide)
        simpa [List.isPrefixOf] using fun heq => hne heq.symm
    show durationUnits.find? (fun unit => unit.1.isPrefixOf ('m' :: rest)) = _
    simp only [durationUnits, List.find?_cons, hnot]
    rfl
  | _ => rfl

theorem text_head (unit : DurationUnit) (rest : Str) :
    ∀ c ∈ (unit.text ++ rest).head?, isNumberChar c = false := by
  cases unit with
  | _ =>
    rintro _ ⟨⟩
    decide

theorem eq_of_durationUnit {value text : Str} {multiplier : ℕ}
    (h : durationUnit value = some (text, multiplier)) :
    ∃ unit : DurationUnit, text = unit.text ∧ multiplier = unit.nanos := by
  have hall : ∀ pair ∈ durationUnits, ∃ unit ∈ [ns, us, microsecond, ms, s, m, DurationUnit.h],
      pair = (unit.text, unit.nanos) := by decide
  obtain ⟨unit, -, heq⟩ := hall _ (List.mem_of_find?_eq_some h)
  exact ⟨unit, (Prod.mk.inj heq).1, (Prod.mk.inj heq).2⟩

end DurationUnit

theorem isNumberChar_numberText (c : Component) : ∀ d ∈ c.numberText, isNumberChar d = true := by
  intro d hd
  rw [isNumberChar, Bool.or_eq_true, decide_eq_true_eq]
  rcases List.mem_append.mp hd with hwhole | hrest
  · exact .inl (c.whole_digits d hwhole)
  · cases hfraction : c.fraction with
    | none =>
      rw [hfraction] at hrest
      exact absurd hrest List.not_mem_nil
    | some fraction =>
      rw [hfraction] at hrest
      rcases List.mem_cons.mp hrest with rfl | hd
      · exact .inr rfl
      · exact .inl (c.fraction_digits d (by rwa [hfraction]))

/-- A component is taken off the front of the text, whatever number follows. -/
theorem durationComponent_text (c : Component) {rest : Str} (h : StartsNumber rest) :
    durationComponent (c.text ++ rest) = some (c.numberText, c.unit.nanos, rest) := by
  have hhead := c.unit.text_head rest
  have htake : (c.text ++ rest).takeWhile isNumberChar = c.numberText := by
    rw [Component.text, List.append_assoc]
    exact takeWhile_append_of_stop (isNumberChar_numberText c) hhead
  have hdrop : (c.text ++ rest).dropWhile isNumberChar = c.unit.text ++ rest := by
    rw [Component.text, List.append_assoc]
    exact dropWhile_append_of_stop (isNumberChar_numberText c) hhead
  show (durationUnit ((c.text ++ rest).dropWhile isNumberChar)).map _ = _
  rw [hdrop, c.unit.durationUnit_text h]
  show some ((c.text ++ rest).takeWhile isNumberChar, _,
    ((c.text ++ rest).dropWhile isNumberChar).drop _) = _
  rw [htake, hdrop, List.drop_left]

/-- What is taken off the front of a text and has a value is a component. -/
theorem component_of_durationComponent {value number next : Str} {unit nanos : ℕ}
    (h : durationComponent value = some (number, unit, next))
    (hnanos : decimalNanos number unit = some nanos) :
    ∃ c : Component, value = c.text ++ next ∧ nanos = c.nanos := by
  obtain ⟨⟨text, multiplier⟩, hunit, heq⟩ := Option.map_eq_some_iff.mp h
  obtain ⟨name, rfl, rfl⟩ := DurationUnit.eq_of_durationUnit hunit
  obtain ⟨rest, hrest⟩ := (durationUnit_pos hunit).1
  simp only [Prod.mk.injEq] at heq
  obtain ⟨hnumber, rfl, hnext⟩ := heq
  have hvalue : value = number ++ (name.text ++ next) := by
    rw [← hrest, List.drop_left] at hnext
    rw [← hnext, hrest, ← hnumber, List.takeWhile_append_dropWhile]
  cases hpoint : splitFirst ['.'] number with
  | none =>
    obtain ⟨hform, hdigits, -, -, -, -, -, -, -, rfl⟩ :=
      (decimalNanos_eq_some_iff (congrArg (Option.getD · (number, [])) hpoint)).mp hnanos
    have hsome : ¬ (number = [] ∧ (none : Option Str).getD [] = []) := fun hnil => hform (.inl hnil)
    let c : Component := ⟨number, none, name, hdigits, fun _ hc => absurd hc List.not_mem_nil, hsome⟩
    refine ⟨c, ?_, c.nanos_eq.symm⟩
    rw [hvalue, Component.text, Component.numberText]
    simp [c]
  | some parts =>
    obtain ⟨whole, fraction⟩ := parts
    obtain ⟨hform, hdigits, -, hfraction, -, -, -, -, -, rfl⟩ :=
      (decimalNanos_eq_some_iff (congrArg (Option.getD · (number, [])) hpoint)).mp hnanos
    have hsome : ¬ (whole = [] ∧ (some fraction).getD [] = []) := fun hnil => hform (.inl hnil)
    let c : Component := ⟨whole, some fraction, name, hdigits, hfraction, hsome⟩
    refine ⟨c, ?_, c.nanos_eq.symm⟩
    rw [hvalue, splitFirst_eq_some hpoint, Component.text, Component.numberText]
    simp [c]

/-! ### Components behind each other -/

theorem text_ne_nil (c : Component) : c.text ≠ [] := by
  intro h
  have hunit : c.unit.text = [] := (List.append_eq_nil_iff.mp h).2
  cases hu : c.unit with
  | _ =>
    rw [hu] at hunit
    cases hunit

theorem startsNumber_flatMap (components : List Component) :
    StartsNumber (components.flatMap Component.text) := by
  cases components with
  | nil => exact fun c hc => by cases hc
  | cons c components =>
    intro d hd
    have hnumber : c.numberText ≠ [] := by
      intro h
      obtain ⟨hwhole, hfraction⟩ := List.append_eq_nil_iff.mp h
      refine c.some_digit ⟨hwhole, ?_⟩
      cases hf : c.fraction with
      | none => rfl
      | some fraction =>
        rw [hf] at hfraction
        cases hfraction
    obtain ⟨first, rest, hfirst⟩ := List.exists_cons_of_ne_nil hnumber
    rw [List.flatMap_cons, Component.text, hfirst] at hd
    obtain rfl : first = d := Option.some.inj hd
    exact isNumberChar_numberText c first (by rw [hfirst]; exact List.mem_cons_self)

/-- One round of the loop. -/
theorem durationNanos_text (flag : Str) (c : Component) (components : List Component) (total : ℕ) :
    durationNanos flag (c.text ++ components.flatMap Component.text) total =
      match decimalNanos c.numberText c.unit.nanos with
      | none => .error (.duration flag)
      | some nanos =>
        match checkedU128 (total + nanos) with
        | none => .error (.outOfRange flag)
        | some total => durationNanos flag (components.flatMap Component.text) total := by
  have hcomponent := durationComponent_text c (startsNumber_flatMap components)
  obtain ⟨first, rest, hfirst⟩ := List.exists_cons_of_ne_nil
    (List.append_ne_nil_of_left_ne_nil (text_ne_nil c) (components.flatMap Component.text))
  rw [hfirst] at hcomponent ⊢
  rw [durationNanos]
  split
  case h_1 hnone =>
    rw [hcomponent] at hnone
    cases hnone
  case h_2 hsome =>
    rw [hcomponent] at hsome
    obtain ⟨rfl, rfl, rfl⟩ : _ ∧ _ ∧ _ := by simpa using hsome
    rfl

theorem durationNanos_sound {flag : Str} {components : List Component} {total n : ℕ}
    (h : durationNanos flag (components.flatMap Component.text) total = .ok n) :
    n = total + durationSum components := by
  induction components generalizing total with
  | nil =>
    rw [List.flatMap_nil, durationNanos] at h
    exact (Except.ok.inj h).symm
  | cons c components ih =>
    rw [List.flatMap_cons, durationNanos_text] at h
    split at h
    · cases h
    · rename_i nanos hnanos
      split at h
      · cases h
      · rename_i total' htotal
        obtain rfl := decimalNanos_numberText_sound c hnanos
        obtain ⟨-, rfl⟩ := checkedU128_eq_some_iff.mp htotal
        rw [ih h, durationSum, durationSum, List.map_cons, List.sum_cons, Nat.add_assoc]

theorem durationNanos_complete (flag : Str) {components : List Component} {total : ℕ}
    (hfraction : ∀ c ∈ components, (c.fraction.getD []).length ≤ 20)
    (hsum : total + durationSum components < 2 ^ 63) :
    durationNanos flag (components.flatMap Component.text) total =
      .ok (total + durationSum components) := by
  induction components generalizing total with
  | nil =>
    rw [List.flatMap_nil, durationNanos]
    rfl
  | cons c components ih =>
    rw [List.forall_mem_cons] at hfraction
    have hcons : durationSum (c :: components) = c.nanos + durationSum components := by
      rw [durationSum, List.map_cons, List.sum_cons]
      rfl
    rw [hcons] at hsum ⊢
    rw [List.flatMap_cons, durationNanos_text, decimalNanos_numberText c hfraction.1 (by omega)]
    show (match checkedU128 (total + c.nanos) with | none => _ | some total => _) = _
    rw [checkedU128_of_lt (by omega)]
    show durationNanos flag _ (total + c.nanos) = _
    rw [ih hfraction.2 (by omega), Nat.add_assoc]

/-- Only components behind each other have a value. -/
theorem durationNanos_inv {flag value : Str} {total n : ℕ}
    (h : durationNanos flag value total = .ok n) :
    ∃ components : List Component, value = components.flatMap Component.text := by
  fun_induction durationNanos flag value total with
  | case1 total => exact ⟨[], rfl⟩
  | case2 => cases h
  | case3 => cases h
  | case4 => cases h
  | case5 total c rest number unit next hcomponent nanos hnanos total' htotal ih =>
    obtain ⟨component, hvalue, -⟩ := component_of_durationComponent hcomponent hnanos
    obtain ⟨components, rfl⟩ := ih h
    exact ⟨component :: components, hvalue⟩

/-! ### Values -/

/-- What is made of the sum of the components. -/
def durationTotal (flag : Str) (total : ℕ) : Except OptionError ℤ :=
  (checkedI64 total).elim (.error (.outOfRange flag)) fun nanos =>
    if nanos ≠ 0 ∧ nanos < 1000000 then .error (.shortDuration flag) else .ok nanos

theorem durationTotal_eq_ok_iff {flag : Str} {total : ℕ} {n : ℤ} :
    durationTotal flag total = .ok n ↔ DurationInRange total ∧ n = total := by
  unfold durationTotal checkedI64 DurationInRange
  split
  case isTrue hin =>
    show (if _ then _ else _) = _ ↔ _
    split
    case isTrue hshort =>
      simp only [reduceCtorEq, false_iff, not_and]
      omega
    case isFalse hlong =>
      rw [Except.ok.injEq]
      omega
  case isFalse hout =>
    simp only [Option.elim_none, reduceCtorEq, false_iff, not_and]
    omega

theorem flatMap_text_ne_zero {components : List Component} (hsome : components ≠ []) :
    components.flatMap Component.text ≠ ['0'] := by
  obtain ⟨c, rest, rfl⟩ := List.exists_cons_of_ne_nil hsome
  intro hzero
  -- a zero alone has no unit
  have hcomponent := durationComponent_text c (startsNumber_flatMap rest)
  rw [← List.flatMap_cons, hzero] at hcomponent
  have hnone : durationComponent ['0'] = none := by decide
  rw [hnone] at hcomponent
  cases hcomponent

theorem parseDuration_text (flag : Str) (plus : Bool) {components : List Component}
    (hsome : components ≠ []) :
    parseDuration flag (durationText plus components) =
      (durationNanos flag (components.flatMap Component.text) 0).bind (durationTotal flag) := by
  have hstart := startsNumber_flatMap components
  have hzero := flatMap_text_ne_zero hsome
  have hne : components.flatMap Component.text ≠ [] := by
    obtain ⟨c, rest, rfl⟩ := List.exists_cons_of_ne_nil hsome
    exact List.append_ne_nil_of_left_ne_nil (text_ne_nil c) _
  unfold durationText
  generalize components.flatMap Component.text = text at hstart hne hzero ⊢
  obtain ⟨first, rest, rfl⟩ := List.exists_cons_of_ne_nil hne
  have hfirst := hstart first rfl
  cases plus with
  | true => rfl
  | false =>
    have hminus : first ≠ '-' := by
      rintro rfl
      exact absurd hfirst (by decide)
    have hplus : first ≠ '+' := by
      rintro rfl
      exact absurd hfirst (by decide)
    show parseDuration flag (first :: rest) = _
    unfold parseDuration
    rw [if_neg hzero, if_neg (by simpa using hminus)]
    dsimp only
    rw [if_neg (c := (first :: rest).head? = some '+') (by simpa using hplus), if_neg hne]
    rfl

theorem strip_plus (value : Str) : ∃ plus : Bool,
    value = (if plus then ['+'] else []) ++
      (if value.head? = some '+' then value.tail else value) := by
  by_cases hplus : value.head? = some '+'
  · refine ⟨true, ?_⟩
    rw [if_pos hplus]
    exact (List.cons_head?_tail hplus).symm
  · refine ⟨false, ?_⟩
    rw [if_neg hplus]
    rfl

theorem parseDuration_eq_ok {flag value : Str} {n : ℤ} (h : parseDuration flag value = .ok n) :
    value = "0".toList ∨ ∃ plus components, components ≠ [] ∧
      value = durationText plus components := by
  obtain ⟨plus, hvalue⟩ := strip_plus value
  unfold parseDuration at h
  dsimp only at h
  generalize (if value.head? = some '+' then value.tail else value) = text at h hvalue
  split at h
  case isTrue hzero => exact .inl hzero
  case isFalse =>
    right
    split at h
    case isTrue => cases h
    case isFalse =>
      split at h
      case isTrue => cases h
      case isFalse hempty =>
        obtain ⟨total, hnanos, -⟩ := Descent.bind_eq_ok.mp h
        obtain ⟨components, rfl⟩ := durationNanos_inv hnanos
        refine ⟨plus, components, ?_, hvalue⟩
        rintro rfl
        exact hempty rfl

/-- A duration has the value it stands for, if that is in range, and an error otherwise; nothing else
    but a plain zero has a value; and no value comes from an operation that went out of its range,
    however long the fractions are. -/
theorem duration_exact (flag : Str) :
    parseDuration flag "0".toList = .ok 0 ∧
    (∀ plus components, components ≠ [] →
      (∀ c ∈ components, (c.fraction.getD []).length ≤ 20) →
        if DurationInRange (durationSum components) then
          parseDuration flag (durationText plus components) = .ok (durationSum components : ℤ)
        else ∃ e, parseDuration flag (durationText plus components) = .error e) ∧
    (∀ value, value ≠ "0".toList →
      (¬ ∃ plus components, components ≠ [] ∧ value = durationText plus components) →
        ∃ e, parseDuration flag value = .error e) ∧
    ∀ plus components n, components ≠ [] →
      parseDuration flag (durationText plus components) = .ok n →
        DurationInRange (durationSum components) ∧ n = durationSum components := by
  have hsound (plus : Bool) (components : List Component) (n : ℤ) (hsome : components ≠ [])
      (h : parseDuration flag (durationText plus components) = .ok n) :
      DurationInRange (durationSum components) ∧ n = durationSum components := by
    rw [parseDuration_text flag plus hsome] at h
    obtain ⟨total, htotal, hvalue⟩ := Descent.bind_eq_ok.mp h
    rw [durationNanos_sound htotal, Nat.zero_add] at hvalue
    exact durationTotal_eq_ok_iff.mp hvalue
  refine ⟨rfl, ?_, ?_, hsound⟩
  · intro plus components hsome hfraction
    split
    case isTrue hrange =>
      have hlt : 0 + durationSum components < 2 ^ 63 := by
        unfold DurationInRange at hrange
        omega
      rw [parseDuration_text flag plus hsome]
      refine Descent.bind_eq_ok.mpr ⟨_, durationNanos_complete flag hfraction hlt, ?_⟩
      rw [Nat.zero_add]
      exact durationTotal_eq_ok_iff.mpr ⟨hrange, rfl⟩
    case isFalse hrange =>
      cases h : parseDuration flag (durationText plus components) with
      | error e => exact ⟨e, rfl⟩
      | ok n => exact absurd (hsound plus components n hsome h).1 hrange
  · intro value hzero hform
    cases h : parseDuration flag value with
    | error e => exact ⟨e, rfl⟩
    | ok n =>
      rcases parseDuration_eq_ok h with rfl | hcomponents
      · exact absurd rfl hzero
      · exact absurd hcomponents hform

/-- `1.5s`. -/
def secondAndAHalf : Component where
  whole := ['1']
  fraction := some ['5']
  unit := .s
  whole_digits := by decide
  fraction_digits := by decide
  some_digit := by decide

theorem duration_exact_second_and_a_half :
    parseDuration "--health-interval".toList "+1.5s".toList = .ok 1500000000 := by
  have hsum : durationSum [secondAndAHalf] = 1500000000 := by
    rw [durationSum, List.map_singleton, List.sum_singleton, Component.nanos_eq]
    rfl
  have h := (duration_exact "--health-interval".toList).2.1 true [secondAndAHalf]
    (List.cons_ne_nil _ _) (by decide)
  rw [hsum, if_pos (by decide)] at h
  exact h

end GhRunner.Docker
