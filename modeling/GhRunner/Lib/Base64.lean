import GhRunner.Lib.Text
import Mathlib.Data.List.Nodup

/-!
# Base64

Bytes as texts over an alphabet of sixty-four characters.

* `sextets`, `ofSextets` — bytes as digits of six bits, three bytes to four digits, and back;
  bits that do not fill a byte must be zero;
* `ofSextets_eq_some_iff` — the digits that are read are the digits that are written;
* `sextets_prefix_append` — what follows the bytes leaves their digits, if its first four bits are zero;
* `Alphabet`, `encode`, `decode` — the digits as characters;
* `decode_eq_some_iff`, `encode_injective` — the same for texts;
* `encodePadded` — filled up to whole groups of four;
* `urlSafe`, `standard` — the alphabets with `-` and `_`, and with `+` and `/`.
-/

namespace Base64

open Text

abbrev Sextet := Fin 64

/-! ### Three bytes and four digits -/

def first (a : UInt8) : Sextet := ⟨a.toNat / 4, by have := a.toNat_lt; omega⟩

def second (a b : UInt8) : Sextet :=
  ⟨a.toNat % 4 * 16 + b.toNat / 16, by have := b.toNat_lt; omega⟩

def third (b c : UInt8) : Sextet :=
  ⟨b.toNat % 16 * 4 + c.toNat / 64, by have := c.toNat_lt; omega⟩

def fourth (c : UInt8) : Sextet := ⟨c.toNat % 64, by omega⟩

def byteOne (p q : Sextet) : UInt8 := UInt8.ofNat (p.val * 4 + q.val / 16)

def byteTwo (q r : Sextet) : UInt8 := UInt8.ofNat (q.val % 16 * 16 + r.val / 4)

def byteThree (r s : Sextet) : UInt8 := UInt8.ofNat (r.val % 4 * 64 + s.val)

section Digits

variable (a b c : UInt8) (p q r s : Sextet)

theorem byteOne_toNat : (byteOne p q).toNat = p.val * 4 + q.val / 16 :=
  UInt8.toNat_ofNat_of_lt' (show p.val * 4 + q.val / 16 < 256 by omega)

theorem byteTwo_toNat : (byteTwo q r).toNat = q.val % 16 * 16 + r.val / 4 :=
  UInt8.toNat_ofNat_of_lt' (show q.val % 16 * 16 + r.val / 4 < 256 by omega)

theorem byteThree_toNat : (byteThree r s).toNat = r.val % 4 * 64 + s.val :=
  UInt8.toNat_ofNat_of_lt' (show r.val % 4 * 64 + s.val < 256 by omega)

@[simp] theorem byteOne_first_second : byteOne (first a) (second a b) = a := by
  apply UInt8.toNat_inj.mp
  have := b.toNat_lt
  rw [byteOne_toNat]
  simp only [first, second]
  omega

@[simp] theorem byteTwo_second_third : byteTwo (second a b) (third b c) = b := by
  apply UInt8.toNat_inj.mp
  have := b.toNat_lt
  have := c.toNat_lt
  rw [byteTwo_toNat]
  simp only [second, third]
  omega

@[simp] theorem byteThree_third_fourth : byteThree (third b c) (fourth c) = c := by
  apply UInt8.toNat_inj.mp
  have := c.toNat_lt
  rw [byteThree_toNat]
  simp only [third, fourth]
  omega

@[simp] theorem first_byteOne : first (byteOne p q) = p := by
  apply Fin.ext
  simp only [first, byteOne_toNat]
  omega

@[simp] theorem second_byteOne_byteTwo : second (byteOne p q) (byteTwo q r) = q := by
  apply Fin.ext
  simp only [second, byteOne_toNat, byteTwo_toNat]
  omega

@[simp] theorem third_byteTwo_byteThree : third (byteTwo q r) (byteThree r s) = r := by
  apply Fin.ext
  simp only [third, byteTwo_toNat, byteThree_toNat]
  omega

@[simp] theorem fourth_byteThree : fourth (byteThree r s) = s := by
  apply Fin.ext
  simp only [fourth, byteThree_toNat]
  omega

/-- A last byte is completed with zero bits. -/
@[simp] theorem second_zero_mod : (second a 0).val % 16 = 0 := by
  simp [second]

@[simp] theorem third_zero_mod : (third b 0).val % 4 = 0 := by
  simp [third]

variable {q r}

theorem second_byteOne_zero (h : q.val % 16 = 0) : second (byteOne p q) 0 = q := by
  apply Fin.ext
  simp only [second, byteOne_toNat, UInt8.toNat_zero]
  omega

theorem third_byteTwo_zero (h : r.val % 4 = 0) : third (byteTwo q r) 0 = r := by
  apply Fin.ext
  simp only [third, byteTwo_toNat, UInt8.toNat_zero]
  omega

end Digits

/-! ### Digits of six bits -/

/-- Three bytes make four digits; one byte left makes two, two left make three. -/
def sextets : List UInt8 → List Sextet
  | [] => []
  | [a] => [first a, second a 0]
  | [a, b] => [first a, second a b, third b 0]
  | a :: b :: c :: rest => first a :: second a b :: third b c :: fourth c :: sextets rest

/-- One digit left is no byte, and what two or three digits have beyond a byte must be zero. -/
def ofSextets : List Sextet → Option (List UInt8)
  | [] => some []
  | [_] => none
  | [p, q] => if q.val % 16 = 0 then some [byteOne p q] else none
  | [p, q, r] => if r.val % 4 = 0 then some [byteOne p q, byteTwo q r] else none
  | p :: q :: r :: s :: rest =>
    (ofSextets rest).map fun bytes => byteOne p q :: byteTwo q r :: byteThree r s :: bytes

theorem sextets_eq_nil_iff {bytes : List UInt8} : sextets bytes = [] ↔ bytes = [] := by
  unfold sextets
  split <;> simp

theorem ofSextets_sextets (bytes : List UInt8) : ofSextets (sextets bytes) = some bytes := by
  fun_induction sextets bytes with
  | case1 => rfl
  | case2 a => simp [ofSextets]
  | case3 a b => simp [ofSextets]
  | case4 a b c rest ih => simp [ofSextets, ih]

theorem sextets_of_ofSextets {digits : List Sextet} {bytes : List UInt8}
    (h : ofSextets digits = some bytes) : digits = sextets bytes := by
  fun_induction ofSextets digits generalizing bytes with
  | case1 =>
    obtain rfl := Option.some.inj h
    rfl
  | case2 => cases h
  | case3 p q hzero =>
    obtain rfl := Option.some.inj h
    rw [sextets, first_byteOne, second_byteOne_zero p hzero]
  | case4 => cases h
  | case5 p q r hzero =>
    obtain rfl := Option.some.inj h
    rw [sextets, first_byteOne, second_byteOne_byteTwo, third_byteTwo_zero hzero]
  | case6 => cases h
  | case7 p q r s rest ih =>
    obtain ⟨tail, htail, rfl⟩ := Option.map_eq_some_iff.mp h
    rw [sextets, first_byteOne, second_byteOne_byteTwo, third_byteTwo_byteThree, fourth_byteThree,
      ih htail]

/-- Digits are read exactly where they are what some bytes are written as. -/
theorem ofSextets_eq_some_iff {digits : List Sextet} {bytes : List UInt8} :
    ofSextets digits = some bytes ↔ digits = sextets bytes := by
  constructor
  · exact sextets_of_ofSextets
  · rintro rfl
    exact ofSextets_sextets bytes

theorem length_sextets (bytes : List UInt8) : (sextets bytes).length = (8 * bytes.length + 5) / 6 := by
  fun_induction sextets bytes with
  | case1 => simp
  | case2 a => simp
  | case3 a b => simp
  | case4 a b c rest ih =>
    simp only [List.length_cons, ih]
    omega

/-- The bits that complete a last digit are those of a byte below sixteen. -/
theorem sextets_prefix_append (bytes : List UInt8) {more : List UInt8} (h : ∀ b ∈ more.head?, b.toNat < 16) :
    sextets bytes <+: sextets (bytes ++ more) := by
  fun_induction sextets bytes with
  | case1 => exact List.nil_prefix
  | case2 a =>
    rcases more with _ | ⟨b, more⟩
    · exact List.prefix_refl _
    · have hb : b.toNat < 16 := h b rfl
      have hsecond : second a b = second a 0 := by
        apply Fin.ext
        simp only [second, UInt8.toNat_zero]
        omega
      rcases more with _ | ⟨c, more⟩
      · rw [List.singleton_append, sextets, hsecond]
        exact ⟨_, rfl⟩
      · rw [List.singleton_append, sextets, hsecond]
        exact ⟨_, rfl⟩
  | case3 a b =>
    rcases more with _ | ⟨c, more⟩
    · exact List.prefix_refl _
    · have hc : c.toNat < 16 := h c rfl
      have hthird : third b c = third b 0 := by
        apply Fin.ext
        simp only [third, UInt8.toNat_zero]
        omega
      rw [List.cons_append, List.singleton_append, sextets, hthird]
      exact ⟨_, rfl⟩
  | case4 a b c rest ih =>
    rw [List.cons_append, List.cons_append, List.cons_append, sextets]
    exact (List.prefix_append_right_inj [first a, second a b, third b c, fourth c]).mpr ih

/-! ### Alphabets -/

/-- Sixty-four characters, no two of them alike. -/
structure Alphabet where
  chars : Str
  length_eq : chars.length = 64
  nodup : chars.Nodup

namespace Alphabet

variable (A : Alphabet)

def digit (n : Sextet) : Char := A.chars.get (n.cast A.length_eq.symm)

def value (c : Char) : Option Sextet :=
  if h : A.chars.idxOf c < 64 then some ⟨A.chars.idxOf c, h⟩ else none

theorem digit_mem (n : Sextet) : A.digit n ∈ A.chars := List.get_mem _ _

@[simp] theorem value_digit (n : Sextet) : A.value (A.digit n) = some n := by
  have hidx : A.chars.idxOf (A.digit n) = n.val := by
    rw [digit, List.get_eq_getElem, A.nodup.idxOf_getElem]
    rfl
  rw [value, dif_pos (by rw [hidx]; exact n.isLt)]
  exact congrArg some (Fin.ext hidx)

theorem digit_of_value {c : Char} {n : Sextet} (h : A.value c = some n) : A.digit n = c := by
  unfold value at h
  split at h
  case isTrue hlt =>
    obtain rfl := Option.some.inj h
    exact List.getElem_idxOf (A.length_eq.symm ▸ hlt)
  case isFalse => cases h

theorem value_eq_some_iff {c : Char} {n : Sextet} : A.value c = some n ↔ c = A.digit n := by
  constructor
  · exact fun h => (A.digit_of_value h).symm
  · rintro rfl
    exact A.value_digit n

end Alphabet

/-! ### Texts -/

variable (A : Alphabet)

def encode (bytes : List UInt8) : Str := (sextets bytes).map A.digit

def decode (text : Str) : Option (List UInt8) := (text.mapM A.value).bind ofSextets

theorem mapM_value_eq_some_iff {text : Str} {digits : List Sextet} :
    text.mapM A.value = some digits ↔ text = digits.map A.digit := by
  induction text generalizing digits with
  | nil =>
    rw [List.mapM_nil]
    exact ⟨fun h => by cases h; rfl, fun h => by rw [List.map_eq_nil_iff.mp h.symm]; rfl⟩
  | cons c text ih =>
    have hcons : (c :: text).mapM A.value = some digits ↔
        ∃ n, A.value c = some n ∧ ∃ rest, text.mapM A.value = some rest ∧ n :: rest = digits := by
      rw [List.mapM_cons]
      cases A.value c <;> cases text.mapM A.value <;> simp
    rw [hcons]
    constructor
    · rintro ⟨n, hn, rest, hrest, rfl⟩
      rw [A.value_eq_some_iff.mp hn, ih.mp hrest, List.map_cons]
    · intro h
      obtain ⟨n, rest, rfl, hn, hrest⟩ := List.map_eq_cons_iff.mp h.symm
      exact ⟨n, A.value_eq_some_iff.mpr hn.symm, rest, ih.mpr hrest.symm, rfl⟩

/-- **What is read is what is written.**  A text is read as some bytes exactly where it is what
    those bytes are written as. -/
theorem decode_eq_some_iff {text : Str} {bytes : List UInt8} :
    decode A text = some bytes ↔ text = encode A bytes := by
  rw [decode, Option.bind_eq_some_iff]
  constructor
  · rintro ⟨digits, hdigits, hbytes⟩
    rw [(mapM_value_eq_some_iff A).mp hdigits, ofSextets_eq_some_iff.mp hbytes, encode]
  · rintro rfl
    exact ⟨sextets bytes, (mapM_value_eq_some_iff A).mpr rfl, ofSextets_sextets bytes⟩

theorem decode_encode (bytes : List UInt8) : decode A (encode A bytes) = some bytes :=
  (decode_eq_some_iff A).mpr rfl

theorem encode_injective : Function.Injective (encode A) := by
  intro xs ys h
  have hxs := decode_encode A xs
  rw [h, decode_encode] at hxs
  exact (Option.some.inj hxs).symm

theorem encode_eq_nil_iff {bytes : List UInt8} : encode A bytes = [] ↔ bytes = [] := by
  rw [encode, List.map_eq_nil_iff, sextets_eq_nil_iff]

theorem mem_encode {bytes : List UInt8} {c : Char} (h : c ∈ encode A bytes) : c ∈ A.chars := by
  obtain ⟨n, -, rfl⟩ := List.mem_map.mp h
  exact A.digit_mem n

theorem length_encode (bytes : List UInt8) : (encode A bytes).length = (8 * bytes.length + 5) / 6 := by
  rw [encode, List.length_map, length_sextets]

theorem encode_prefix_append (bytes : List UInt8) {more : List UInt8} (h : ∀ b ∈ more.head?, b.toNat < 16) :
    encode A bytes <+: encode A (bytes ++ more) :=
  (sextets_prefix_append bytes h).map _

/-- With a sign for each of the digits that the last four lack. -/
def encodePadded (bytes : List UInt8) : Str :=
  encode A bytes ++ List.replicate ((3 - bytes.length % 3) % 3) '='

def urlSafe : Alphabet where
  chars := "ABCDEFGHIJKLMNOPQRSTUVWXYZabcdefghijklmnopqrstuvwxyz0123456789-_".toList
  length_eq := rfl
  nodup := List.Nodup.of_map Char.toNat (by decide +kernel)

def standard : Alphabet where
  chars := "ABCDEFGHIJKLMNOPQRSTUVWXYZabcdefghijklmnopqrstuvwxyz0123456789+/".toList
  length_eq := rfl
  nodup := List.Nodup.of_map Char.toNat (by decide +kernel)

example : encodePadded standard [102, 111, 111, 98] = "Zm9vYg==".toList := by decide

end Base64
