import GhRunner.Lib.Utf8
import Mathlib.Data.Nat.Basic
import Mathlib.Tactic.Common

/-!
# Bytes read as text, whatever they are

* `fromUtf8Lossy` — what is no character is replaced;
* `fromUtf8Lossy_append` — where a character begins the reading begins anew;
* `infix_fromUtf8Lossy` — the bytes of a text are read as it, whatever surrounds them.
-/

namespace Utf8

open Text

/-- The bytes that may follow a first byte, one range for each. -/
def continuationRanges (b : UInt8) : Option (List (UInt8 × UInt8)) :=
  let any : UInt8 × UInt8 := (0x80, 0xbf)
  if b < 0x80 then some []
  else if 0xc2 ≤ b ∧ b ≤ 0xdf then some [any]
  else if b = 0xe0 then some [(0xa0, 0xbf), any]
  else if b = 0xed then some [(0x80, 0x9f), any]
  else if 0xe1 ≤ b ∧ b ≤ 0xef then some [any, any]
  else if b = 0xf0 then some [(0x90, 0xbf), any, any]
  else if 0xf1 ≤ b ∧ b ≤ 0xf3 then some [any, any, any]
  else if b = 0xf4 then some [(0x80, 0x8f), any, any]
  else none

def replacementCharacter : Char := '\uFFFD'

/-- The bits that a first byte has for its character. -/
def leadingBits (b : UInt8) : ℕ :=
  if b < 0x80 then b.toNat else if b < 0xe0 then b.toNat % 32 else if b < 0xf0 then b.toNat % 16
  else b.toNat % 8

/-- A character begins, or something that is none. -/
def beginCharacter (b : UInt8) : Str × ℕ × List (UInt8 × UInt8) :=
  match continuationRanges b with
  | none => ([replacementCharacter], 0, [])
  | some [] => ([Char.ofNat (leadingBits b)], 0, [])
  | some ranges => ([], leadingBits b, ranges)

/-- The rest of a text, after a part of a character that waits for these ranges. -/
def lossyFrom (bits : ℕ) (ranges : List (UInt8 × UInt8)) : List UInt8 → Str
  | [] => if ranges = [] then [] else [replacementCharacter]
  | b :: rest =>
    match ranges with
    | [] =>
      let (out, bits, ranges) := beginCharacter b
      out ++ lossyFrom bits ranges rest
    | (low, high) :: ranges =>
      if low ≤ b ∧ b ≤ high then
        let bits := bits * 64 + b.toNat % 64
        if ranges = [] then Char.ofNat bits :: lossyFrom 0 [] rest else lossyFrom bits ranges rest
      else
        -- what was begun is replaced, and this byte begins anew
        let (out, bits, ranges) := beginCharacter b
        replacementCharacter :: out ++ lossyFrom bits ranges rest

/-- `String::from_utf8_lossy`. -/
def fromUtf8Lossy (content : List UInt8) : Str := lossyFrom 0 [] content

/-! ### One byte at a time -/

/-- What one byte makes of a reading: what is read, and the part that waits after it. -/
def readByte (bits : ℕ) (ranges : List (UInt8 × UInt8)) (b : UInt8) :
    Str × ℕ × List (UInt8 × UInt8) :=
  match ranges with
  | [] => beginCharacter b
  | (low, high) :: ranges =>
    if low ≤ b ∧ b ≤ high then
      let bits := bits * 64 + b.toNat % 64
      if ranges = [] then ([Char.ofNat bits], 0, []) else ([], bits, ranges)
    else
      let (out, bits, ranges) := beginCharacter b
      (replacementCharacter :: out, bits, ranges)

theorem lossyFrom_cons (bits : ℕ) (ranges : List (UInt8 × UInt8)) (b : UInt8) (rest : List UInt8) :
    lossyFrom bits ranges (b :: rest) = (readByte bits ranges b).1 ++
      lossyFrom (readByte bits ranges b).2.1 (readByte bits ranges b).2.2 rest := by
  cases ranges with
  | nil => rfl
  | cons range ranges =>
    obtain ⟨low, high⟩ := range
    rw [lossyFrom, readByte]
    split
    · dsimp only
      split <;> rfl
    · rfl

/-- What waits for the rest of a character waits for bytes that begin none. -/
def Waits (ranges : List (UInt8 × UInt8)) : Prop := ∀ range ∈ ranges, 0x80 ≤ range.1 ∧ range.2 ≤ 0xbf

theorem waits_nil : Waits [] := fun _ h => absurd h List.not_mem_nil

theorem waits_beginCharacter (b : UInt8) : Waits (beginCharacter b).2.2 := by
  have hall : ∀ n < 256, (beginCharacter (UInt8.ofNat n)).2.2.all
      (fun range => 0x80 ≤ range.1 ∧ range.2 ≤ 0xbf) = true := by
    decide +kernel
  have hb := hall b.toNat b.toNat_lt
  rw [UInt8.ofNat_toNat] at hb
  exact fun range hrange => of_decide_eq_true (List.all_eq_true.mp hb range hrange)

theorem waits_readByte {bits : ℕ} {ranges : List (UInt8 × UInt8)} (h : Waits ranges) (b : UInt8) :
    Waits (readByte bits ranges b).2.2 := by
  cases ranges with
  | nil => exact waits_beginCharacter b
  | cons range ranges =>
    rw [readByte]
    split
    · dsimp only
      split
      · exact waits_nil
      · exact fun range hrange => h range (List.mem_cons_of_mem _ hrange)
    · exact waits_beginCharacter b

/-- A byte that continues no character. -/
def Begins (b : UInt8) : Prop := b.toNat < 0x80 ∨ 0xc0 ≤ b.toNat

/-- What waits is replaced when a character begins. -/
theorem lossyFrom_begins {bits : ℕ} {ranges : List (UInt8 × UInt8)} (h : Waits ranges) {b : UInt8}
    (hb : Begins b) (rest : List UInt8) :
    lossyFrom bits ranges (b :: rest) = lossyFrom bits ranges [] ++ fromUtf8Lossy (b :: rest) := by
  cases ranges with
  | nil => rfl
  | cons range ranges =>
    have hout : ¬ (range.1 ≤ b ∧ b ≤ range.2) := fun hin => by
      obtain ⟨hfrom, hto⟩ := h range List.mem_cons_self
      have hfrom : 0x80 ≤ range.1.toNat := UInt8.le_iff_toNat_le.mp hfrom
      have hto : range.2.toNat ≤ 0xbf := UInt8.le_iff_toNat_le.mp hto
      have hlow := UInt8.le_iff_toNat_le.mp hin.1
      have hhigh := UInt8.le_iff_toNat_le.mp hin.2
      rcases hb with hb | hb <;> omega
    exact if_neg hout

/-- Where a character begins the reading begins anew. -/
theorem lossyFrom_append {bits : ℕ} {ranges : List (UInt8 × UInt8)} (h : Waits ranges)
    (front : List UInt8) {b : UInt8} (hb : Begins b) (rest : List UInt8) :
    lossyFrom bits ranges (front ++ b :: rest) =
      lossyFrom bits ranges front ++ fromUtf8Lossy (b :: rest) := by
  induction front generalizing bits ranges with
  | nil => exact lossyFrom_begins h hb rest
  | cons c front ih =>
    rw [List.cons_append, lossyFrom_cons, ih (waits_readByte h c), lossyFrom_cons bits ranges c front,
      List.append_assoc]

theorem fromUtf8Lossy_append (front : List UInt8) {b : UInt8} (hb : Begins b) (rest : List UInt8) :
    fromUtf8Lossy (front ++ b :: rest) = fromUtf8Lossy front ++ fromUtf8Lossy (b :: rest) :=
  lossyFrom_append waits_nil front hb rest

/-! ### Texts -/

/-- A byte of ASCII is its character. -/
theorem fromUtf8Lossy_cons_of_lt {b : UInt8} (hb : b.toNat < 0x80) (rest : List UInt8) :
    fromUtf8Lossy (b :: rest) = Char.ofNat b.toNat :: fromUtf8Lossy rest := by
  have hlt : b < 0x80 := UInt8.lt_iff_toNat_lt.mpr hb
  have hbegin : beginCharacter b = ([Char.ofNat b.toNat], 0, []) := by
    rw [beginCharacter, continuationRanges, if_pos hlt]
    show ([Char.ofNat (leadingBits b)], 0, []) = _
    rw [leadingBits, if_pos hlt]
  rw [fromUtf8Lossy, lossyFrom_cons, readByte, hbegin]
  rfl

/-- What stands before it can be read with it. -/
theorem fromUtf8Lossy_append_of_lt (front : List UInt8) {b : UInt8} (hb : b.toNat < 0x80)
    (rest : List UInt8) :
    fromUtf8Lossy (front ++ b :: rest) = fromUtf8Lossy (front ++ [b]) ++ fromUtf8Lossy rest := by
  rw [fromUtf8Lossy_append front (.inl hb), fromUtf8Lossy_append front (.inl hb) [],
    fromUtf8Lossy_cons_of_lt hb, fromUtf8Lossy_cons_of_lt hb [], List.append_assoc]
  rfl

theorem lossyFrom_last {bits : ℕ} {low high b : UInt8} (hlow : low.toNat ≤ b.toNat)
    (hhigh : b.toNat ≤ high.toNat) (rest : List UInt8) :
    lossyFrom bits [(low, high)] (b :: rest) =
      Char.ofNat (bits * 64 + b.toNat % 64) :: lossyFrom 0 [] rest := by
  rw [lossyFrom, if_pos ⟨UInt8.le_iff_toNat_le.mpr hlow, UInt8.le_iff_toNat_le.mpr hhigh⟩]
  exact if_pos rfl

theorem lossyFrom_more {bits : ℕ} {low high b : UInt8} {range : UInt8 × UInt8}
    {ranges : List (UInt8 × UInt8)} (hlow : low.toNat ≤ b.toNat) (hhigh : b.toNat ≤ high.toNat)
    (rest : List UInt8) :
    lossyFrom bits ((low, high) :: range :: ranges) (b :: rest) =
      lossyFrom (bits * 64 + b.toNat % 64) (range :: ranges) rest := by
  rw [lossyFrom, if_pos ⟨UInt8.le_iff_toNat_le.mpr hlow, UInt8.le_iff_toNat_le.mpr hhigh⟩]
  exact if_neg (List.cons_ne_nil _ _)

/-! The first bytes of characters of two, three and four bytes. -/

theorem beginCharacter_two : ∀ n < 32, beginCharacter (UInt8.ofNat (n + 0xc0)) =
    if n < 2 then ([replacementCharacter], 0, []) else ([], n, [(0x80, 0xbf)]) := by
  decide

theorem beginCharacter_three : ∀ n < 16, beginCharacter (UInt8.ofNat (n + 0xe0)) =
    ([], n, [(if n = 0 then 0xa0 else 0x80, if n = 13 then 0x9f else 0xbf), (0x80, 0xbf)]) := by
  decide

theorem beginCharacter_four : ∀ n < 5, beginCharacter (UInt8.ofNat (n + 0xf0)) =
    ([], n, [(if n = 0 then 0x90 else 0x80, if n = 4 then 0x8f else 0xbf), (0x80, 0xbf), (0x80, 0xbf)]) := by
  decide

/-- A byte that continues a character. -/
theorem toNat_continuation (v : ℕ) : (UInt8.ofNat (v % 0x40 + 0x80)).toNat = v % 0x40 + 0x80 := by
  rw [UInt8.toNat_ofNat']
  omega

theorem lossyFrom_encodeChar (c : Char) (rest : List UInt8) :
    lossyFrom 0 [] (String.utf8EncodeChar c ++ rest) = c :: lossyFrom 0 [] rest := by
  have hc : Char.ofNat c.toNat = c := Char.ofNat_toNat c
  have hvalid : c.toNat < 0xd800 ∨ 0xdfff < c.toNat ∧ c.toNat < 0x110000 := c.valid
  have hnat : c.val.toNat = c.toNat := rfl
  unfold String.utf8EncodeChar
  rw [hnat]
  generalize c.toNat = v at hc hvalid
  subst hc
  dsimp only
  split
  case isTrue hone =>
    have hb : (UInt8.ofNat v).toNat = v := by rw [UInt8.toNat_ofNat']; omega
    have hascii := fromUtf8Lossy_cons_of_lt (b := UInt8.ofNat v) (by omega) rest
    rw [hb] at hascii
    exact hascii
  case isFalse hone =>
    split
    case isTrue htwo =>
      have hlast := toNat_continuation v
      rw [List.cons_append, List.cons_append, List.nil_append, lossyFrom_cons, readByte,
        beginCharacter_two (v / 64 % 0x20) (by omega), if_neg (by omega), List.nil_append,
        lossyFrom_last (by rw [hlast]; exact Nat.le_add_left _ _) (by rw [hlast]; show _ ≤ 0xbf; omega), hlast]
      congr 2
      dsimp only
      omega
    case isFalse htwo =>
      split
      case isTrue hthree =>
        have hmiddle := toNat_continuation (v / 64)
        have hlast := toNat_continuation v
        rw [List.cons_append, List.cons_append, List.cons_append, List.nil_append, lossyFrom_cons, readByte,
          beginCharacter_three (v / 4096 % 0x10) (by omega), List.nil_append]
        dsimp only
        -- the second byte says that the character is not shorter, and is no surrogate
        rw [lossyFrom_more (by rw [hmiddle]; split <;> simp only [UInt8.toNat_ofNat] <;> omega)
            (by rw [hmiddle]; split <;> simp only [UInt8.toNat_ofNat] <;> omega),
          lossyFrom_last (by rw [hlast]; exact Nat.le_add_left _ _) (by rw [hlast]; show _ ≤ 0xbf; omega),
          hmiddle, hlast]
        congr 2
        omega
      case isFalse hthree =>
        have hsecond := toNat_continuation (v / 4096)
        have hmiddle := toNat_continuation (v / 64)
        have hlast := toNat_continuation v
        rw [List.cons_append, List.cons_append, List.cons_append, List.cons_append, List.nil_append,
          lossyFrom_cons, readByte, beginCharacter_four (v / 262144 % 0x08) (by omega), List.nil_append]
        dsimp only
        rw [lossyFrom_more (by rw [hsecond]; split <;> simp only [UInt8.toNat_ofNat] <;> omega)
            (by rw [hsecond]; split <;> simp only [UInt8.toNat_ofNat] <;> omega),
          lossyFrom_more (by rw [hmiddle]; exact Nat.le_add_left _ _) (by rw [hmiddle]; show _ ≤ 0xbf; omega),
          lossyFrom_last (by rw [hlast]; exact Nat.le_add_left _ _) (by rw [hlast]; show _ ≤ 0xbf; omega),
          hsecond, hmiddle, hlast]
        congr 2
        omega

/-- A text is read as it is. -/
theorem fromUtf8Lossy_bytes_append (s : Str) (rest : List UInt8) :
    fromUtf8Lossy (bytes s ++ rest) = s ++ fromUtf8Lossy rest := by
  induction s with
  | nil => rfl
  | cons c s ih =>
    rw [bytes_cons, List.append_assoc, fromUtf8Lossy, lossyFrom_encodeChar]
    exact congrArg _ ih

theorem begins_encodeChar (c : Char) : ∃ b rest, String.utf8EncodeChar c = b :: rest ∧ Begins b := by
  unfold String.utf8EncodeChar
  dsimp only
  split
  case isTrue h => exact ⟨_, _, rfl, .inl (by rw [UInt8.toNat_ofNat']; omega)⟩
  case isFalse =>
    split
    case isTrue => exact ⟨_, _, rfl, .inr (by rw [UInt8.toNat_ofNat']; omega)⟩
    case isFalse =>
      split <;> exact ⟨_, _, rfl, .inr (by rw [UInt8.toNat_ofNat']; omega)⟩

/-- A text stays in one piece, whatever surrounds it. -/
theorem infix_fromUtf8Lossy {p : Str} {content : List UInt8} (h : bytes p <:+: content) :
    p <:+: fromUtf8Lossy content := by
  obtain ⟨front, behind, rfl⟩ := h
  cases p with
  | nil => exact List.nil_infix
  | cons c p =>
    obtain ⟨b, rest, hbytes, hbegins⟩ := begins_encodeChar c
    refine ⟨fromUtf8Lossy front, fromUtf8Lossy behind, ?_⟩
    have hwhole : bytes (c :: p) ++ behind = b :: (rest ++ bytes p ++ behind) := by
      rw [bytes_cons, hbytes]
      simp
    rw [List.append_assoc, List.append_assoc, hwhole, fromUtf8Lossy_append front hbegins, ← hwhole,
      fromUtf8Lossy_bytes_append]

end Utf8
