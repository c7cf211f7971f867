import GhRunner.Lib.Binary64

/-!
# Decimal numerals

The digits of a number as the standard library writes them, and reading them.

* `digits` — the decimal digits of a natural number;
* `ofDigits_digits`, `isDigit_of_mem_digits`, `digits_ne_nil` — they are digits, at least one, of the
  number;
* `ofDigits_append`, `ofDigits_lt` — the digits of two numerals behind each other, and how large a
  number a numeral can stand for;
* `takeWhile_append_of_stop`, `dropWhile_append_of_stop` — a reader that takes characters as long as
  they are of a kind stops where the next one is not.
-/

namespace Decimal

open Text Binary64

/-! ### Reading up to the first character of another kind -/

section Stop

variable {α : Type*} {p : α → Bool} {front rest : List α}

theorem takeWhile_append_of_stop (hfront : ∀ a ∈ front, p a = true)
    (hrest : ∀ a ∈ rest.head?, p a = false) : (front ++ rest).takeWhile p = front := by
  rw [List.takeWhile_append_of_pos hfront]
  cases rest with
  | nil => exact List.append_nil _
  | cons a rest =>
    rw [List.takeWhile_cons_of_neg (by rw [hrest a rfl]; exact Bool.false_ne_true)]
    exact List.append_nil _

theorem dropWhile_append_of_stop (hfront : ∀ a ∈ front, p a = true)
    (hrest : ∀ a ∈ rest.head?, p a = false) : (front ++ rest).dropWhile p = rest := by
  rw [List.dropWhile_append_of_pos hfront]
  cases rest with
  | nil => rfl
  | cons a rest =>
    rw [List.dropWhile_cons_of_neg (by rw [hrest a rfl]; exact Bool.false_ne_true)]

end Stop

/-! ### Numerals -/

def digits (n : ℕ) : Str := Nat.toDigits 10 n

theorem isDigit_of_mem_digits {n : ℕ} {c : Char} (h : c ∈ digits n) : c.isDigit = true :=
  Nat.isDigit_of_mem_toDigits (by decide) (by decide) h

theorem digits_ne_nil (n : ℕ) : digits n ≠ [] := Nat.toDigits_ne_nil

theorem ofDigits_digits (n : ℕ) : ofDigits (digits n) = n := Nat.ofDigitChars_ten_toDigits

theorem ofDigits_append (s t : Str) : ofDigits (s ++ t) = 10 ^ t.length * ofDigits s + ofDigits t := by
  rw [ofDigits, List.foldl_append]
  exact Nat.ofDigitChars_eq_ofDigitChars_zero

theorem digitValue_le {c : Char} (h : c.isDigit = true) : digitValue c ≤ 9 := by
  have hnine : c.toNat ≤ '9'.toNat := (Char.isDigit_iff_toNat.mp h).2
  show c.toNat - 48 ≤ 9
  have : '9'.toNat = 57 := rfl
  omega

theorem ofDigits_lt {s : Str} (h : ∀ c ∈ s, c.isDigit = true) : ofDigits s < 10 ^ s.length := by
  induction s using List.reverseRecOn with
  | nil => exact Nat.one_pos
  | append_singleton s c ih =>
    rw [List.forall_mem_append, List.forall_mem_singleton] at h
    have hfront := ih h.1
    have hlast := digitValue_le h.2
    have heq : ofDigits (s ++ [c]) = 10 * ofDigits s + digitValue c := by
      rw [ofDigits, List.foldl_append]
      rfl
    rw [heq, List.length_append, List.length_singleton, Nat.pow_succ]
    omega

/-- A digit is no white space. -/
theorem trim_digits (n : ℕ) : trim (digits n) = digits n := by
  have hsolid {c : Char} (hc : c ∈ digits n) : isWhitespace c = false := by
    have := Char.isDigit_iff_toNat.mp (isDigit_of_mem_digits hc)
    have h0 : '0'.toNat = 48 := rfl
    have h9 : '9'.toNat = 57 := rfl
    simp only [isWhitespace, Bool.or_eq_false_iff, Bool.and_eq_false_iff, decide_eq_false_iff_not,
      beq_eq_false_iff_ne]
    omega
  exact trim_of_ends (fun c hc => hsolid (List.mem_of_mem_head? hc))
    fun c hc => hsolid (List.mem_of_mem_getLast? hc)

end Decimal
