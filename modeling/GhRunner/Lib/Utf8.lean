import GhRunner.Lib.Text
import Mathlib.Data.List.Basic

/-!
# UTF-8

Texts as their bytes.  Where the bytes of one text stand among the bytes of another, the texts
themselves do: no character begins inside another one.

* `bytes`, `utf8Len`, `decode` — the encoding, its length, and the way back;
* `bytes_prefix_iff`, `bytes_split` — prefixes and occurrences among bytes are prefixes and
  occurrences among characters;
* `splitBytes`, `getRange`, `getFrom` — cutting at a byte offset, which works at the boundaries of
  characters only.
-/

namespace Utf8

open Text

def bytes (s : Str) : List UInt8 := s.flatMap String.utf8EncodeChar

/-- The length in bytes. -/
def utf8Len (s : Str) : ℕ := (bytes s).length

@[simp] theorem bytes_nil : bytes [] = [] := rfl

@[simp] theorem bytes_cons (c : Char) (s : Str) :
    bytes (c :: s) = String.utf8EncodeChar c ++ bytes s := List.flatMap_cons

@[simp] theorem bytes_append (s t : Str) : bytes (s ++ t) = bytes s ++ bytes t := List.flatMap_append

@[simp] theorem utf8Len_nil : utf8Len [] = 0 := rfl

@[simp] theorem utf8Len_cons (c : Char) (s : Str) : utf8Len (c :: s) = c.utf8Size + utf8Len s := by
  rw [utf8Len, bytes_cons, List.length_append, String.length_utf8EncodeChar, utf8Len]

@[simp] theorem utf8Len_append (s t : Str) : utf8Len (s ++ t) = utf8Len s + utf8Len t := by
  rw [utf8Len, bytes_append, List.length_append, utf8Len, utf8Len]

theorem utf8Len_eq_zero_iff {s : Str} : utf8Len s = 0 ↔ s = [] := by
  cases s with
  | nil => simp
  | cons c s =>
    have := c.utf8Size_pos
    simp
    omega

theorem length_le_utf8Len (s : Str) : s.length ≤ utf8Len s := by
  induction s with
  | nil => exact Nat.le_refl 0
  | cons c s ih =>
    have := c.utf8Size_pos
    rw [List.length_cons, utf8Len_cons]
    omega

/-! ### The code is prefix-free -/

theorem encodeChar_inj {c d : Char} {xs ys : List UInt8}
    (h : String.utf8EncodeChar c ++ xs = String.utf8EncodeChar d ++ ys) : c = d := by
  have hdecode := congrArg (fun l : List UInt8 => ByteArray.utf8DecodeChar? l.toByteArray 0) h
  simpa [List.toByteArray_append, ByteArray.utf8DecodeChar?_utf8EncodeChar_append] using hdecode

theorem bytes_prefix_iff {p s : Str} : bytes p <+: bytes s ↔ p <+: s := by
  constructor
  · intro h
    induction p generalizing s with
    | nil => exact List.nil_prefix
    | cons c p ih =>
      obtain ⟨rest, hrest⟩ := h
      cases s with
      | nil => simp [String.utf8EncodeChar_ne_nil] at hrest
      | cons d s =>
        rw [bytes_cons, bytes_cons, List.append_assoc] at hrest
        obtain rfl := encodeChar_inj hrest
        exact List.cons_prefix_cons.mpr ⟨rfl, ih ⟨rest, List.append_cancel_left hrest⟩⟩
  · rintro ⟨t, rfl⟩
    exact ⟨bytes t, (bytes_append p t).symm⟩

theorem bytes_injective : Function.Injective bytes := by
  intro s t h
  have hst : s <+: t := bytes_prefix_iff.mp (h ▸ List.prefix_refl _)
  have hts : t <+: s := bytes_prefix_iff.mp (h ▸ List.prefix_refl _)
  exact hst.eq_of_length (le_antisymm hst.length_le hts.length_le)

theorem toByteArray_bytes (s : Str) : (bytes s).toByteArray = s.utf8Encode := rfl

/-- The text that bytes encode, if they do. -/
def decode (bs : List UInt8) : Option Str := bs.toByteArray.utf8Decode?.map (·.toList)

/-- Bytes are read as a text exactly where they encode it. -/
theorem decode_eq_some_iff {bs : List UInt8} {s : Str} : decode bs = some s ↔ bs = bytes s := by
  constructor
  · intro h
    obtain ⟨chars, hchars, rfl⟩ := Option.map_eq_some_iff.mp h
    have hvalid : bs.toByteArray.utf8Decode?.isSome := by rw [hchars]; rfl
    have hget : (bs.toByteArray.utf8Decode?.get hvalid).toList.utf8Encode = bs.toByteArray :=
      ByteArray.utf8Encode_get_utf8Decode?
    simp only [hchars, Option.get_some] at hget
    rw [← toByteArray_bytes] at hget
    exact (List.toByteArray_inj.mp hget).symm
  · rintro rfl
    rw [decode, toByteArray_bytes, List.utf8Decode?_utf8Encode]
    rfl

/-- A byte below 128 is its character. -/
theorem encodeChar_of_lt {c : Char} {b : UInt8} (hb : b ∈ String.utf8EncodeChar c)
    (hlt : b.toNat < 128) : c.toNat = b.toNat := by
  have hnat : c.val.toNat = c.toNat := rfl
  unfold String.utf8EncodeChar at hb
  rw [hnat] at hb
  dsimp only at hb
  split at hb
  case isTrue h =>
    rw [List.mem_singleton.mp hb, UInt8.toNat_ofNat']
    omega
  case isFalse =>
    split at hb
    case isTrue =>
      simp only [List.mem_cons, List.not_mem_nil, or_false] at hb
      rcases hb with rfl | rfl <;> rw [UInt8.toNat_ofNat'] at hlt <;> omega
    case isFalse =>
      split at hb
      case isTrue =>
        simp only [List.mem_cons, List.not_mem_nil, or_false] at hb
        rcases hb with rfl | rfl | rfl <;> rw [UInt8.toNat_ofNat'] at hlt <;> omega
      case isFalse =>
        simp only [List.mem_cons, List.not_mem_nil, or_false] at hb
        rcases hb with rfl | rfl | rfl | rfl <;> rw [UInt8.toNat_ofNat'] at hlt <;> omega

theorem encodeChar_eq_of_lt {c d : Char} {b : UInt8} (hb : b ∈ String.utf8EncodeChar c)
    (hlt : b.toNat < 128) (hd : d.toNat = b.toNat) : c = d :=
  Char.toNat_inj.mp ((encodeChar_of_lt hb hlt).trans hd.symm)

/-- What begins a text begins with a first byte, which no character has at a later place. -/
theorem head_not_inside {c d : Char} {xs tail ys zs : List UInt8} (hxs : xs ≠ [])
    (hd : String.utf8EncodeChar d = xs ++ tail) (htail : tail ≠ [])
    (h : String.utf8EncodeChar c ++ ys = tail ++ zs) : False := by
  obtain ⟨b, tail, rfl⟩ := List.exists_cons_of_ne_nil htail
  have hfirst : b.IsUTF8FirstByte := by
    have hlen : 0 < (String.utf8EncodeChar c).length := by
      rw [String.length_utf8EncodeChar]
      exact c.utf8Size_pos
    have hb : (String.utf8EncodeChar c)[0] = b := by
      have hget := congrArg (fun l : List UInt8 => l[0]?) h
      rw [List.getElem?_append_left hlen, List.getElem?_eq_getElem hlen] at hget
      exact Option.some.inj hget
    exact hb ▸ UInt8.isUTF8FirstByte_getElem_utf8EncodeChar.mpr rfl
  have hlen : xs.length < (String.utf8EncodeChar d).length := by
    rw [hd, List.length_append, List.length_cons]
    omega
  have hb : (String.utf8EncodeChar d)[xs.length] = b := by
    simp [hd]
  have hzero : xs.length = 0 :=
    UInt8.isUTF8FirstByte_getElem_utf8EncodeChar.mp (hb.symm ▸ hfirst)
  exact hxs (List.eq_nil_of_length_eq_zero hzero)

/-- The bytes of a text stand among those of another only where the text does. -/
theorem bytes_split {p s : Str} (hp : p ≠ []) {xs ys : List UInt8}
    (h : bytes s = xs ++ (bytes p ++ ys)) :
    ∃ a b, s = a ++ (p ++ b) ∧ bytes a = xs ∧ bytes b = ys := by
  induction s generalizing xs with
  | nil =>
    obtain ⟨c, p, rfl⟩ := List.exists_cons_of_ne_nil hp
    simp [String.utf8EncodeChar_ne_nil] at h
  | cons d s ih =>
    by_cases hxs : xs = []
    · subst hxs
      obtain ⟨b, hb⟩ := bytes_prefix_iff.mp ⟨ys, h.symm⟩
      rw [← hb, bytes_append, List.nil_append] at h
      exact ⟨[], b, hb.symm, rfl, List.append_cancel_left h⟩
    · rw [bytes_cons] at h
      rcases List.append_eq_append_iff.mp h with ⟨xs', rfl, hrest⟩ | ⟨tail, htail, hrest⟩
      · obtain ⟨a, b, rfl, rfl, rfl⟩ := ih hrest
        exact ⟨d :: a, b, rfl, bytes_cons d a, rfl⟩
      · obtain ⟨c, p, rfl⟩ := List.exists_cons_of_ne_nil hp
        by_cases hempty : tail = []
        · subst hempty
          obtain ⟨a, b, rfl, ha, rfl⟩ := @ih [] (by simpa using hrest.symm)
          refine ⟨d :: a, b, rfl, ?_, rfl⟩
          rw [bytes_cons, ha, htail, List.append_nil, List.append_nil]
        · rw [bytes_cons, List.append_assoc] at hrest
          exact (head_not_inside hxs htail hempty hrest).elim

/-! ### Cutting at a byte offset -/

/-- The text up to a byte offset and from it on, at the boundary of a character. -/
def splitBytes : Str → ℕ → Option (Str × Str)
  | s, 0 => some ([], s)
  | [], _ + 1 => none
  | c :: s, n + 1 =>
    if c.utf8Size ≤ n + 1 then
      (splitBytes s (n + 1 - c.utf8Size)).map fun (before, after) => (c :: before, after)
    else none

/-- `get(start..stop)` -/
def getRange (s : Str) (start stop : ℕ) : Option Str :=
  (splitBytes s stop).bind fun (before, _) => (splitBytes before start).map (·.2)

/-- `get(start..)` -/
def getFrom (s : Str) (start : ℕ) : Option Str := (splitBytes s start).map (·.2)

theorem splitBytes_append (a b : Str) : splitBytes (a ++ b) (utf8Len a) = some (a, b) := by
  induction a with
  | nil => cases b <;> rfl
  | cons c a ih =>
    have hpos := c.utf8Size_pos
    obtain ⟨n, hn⟩ : ∃ n, c.utf8Size + utf8Len a = n + 1 :=
      ⟨_, (Nat.succ_pred_eq_of_pos (by omega)).symm⟩
    rw [List.cons_append, utf8Len_cons, hn, splitBytes, if_pos (by omega),
      show n + 1 - c.utf8Size = utf8Len a by omega, ih]
    rfl

theorem getRange_append (a b c : Str) :
    getRange (a ++ (b ++ c)) (utf8Len a) (utf8Len a + utf8Len b) = some b := by
  rw [getRange, ← utf8Len_append, ← List.append_assoc, splitBytes_append]
  exact congrArg (Option.map (·.2)) (splitBytes_append a b)

theorem getFrom_append (a b : Str) : getFrom (a ++ b) (utf8Len a) = some b := by
  rw [getFrom, splitBytes_append]
  rfl

/-- The offset is where a character begins, or the end. -/
def Boundary (s : Str) (n : ℕ) : Prop := ∃ a b, s = a ++ b ∧ utf8Len a = n

theorem boundary_zero (s : Str) : Boundary s 0 := ⟨[], s, rfl, rfl⟩

theorem getFrom_boundary {s : Str} {n : ℕ} (h : Boundary s n) :
    ∃ t, getFrom s n = some t ∧ bytes t = (bytes s).drop n := by
  obtain ⟨a, b, rfl, rfl⟩ := h
  exact ⟨b, getFrom_append a b, by rw [bytes_append, utf8Len, List.drop_left]⟩

theorem getRange_boundary {s : Str} {start stop : ℕ} (hstart : Boundary s start)
    (hstop : Boundary s stop) (hle : start ≤ stop) :
    ∃ t, getRange s start stop = some t ∧ bytes t = ((bytes s).take stop).drop start := by
  obtain ⟨a, b, rfl, rfl⟩ := hstart
  obtain ⟨c, d, hsplit, rfl⟩ := hstop
  have hac : a <+: c := by
    have ha : a <+: a ++ b := List.prefix_append a b
    have hc : c <+: a ++ b := hsplit ▸ List.prefix_append c d
    rcases List.prefix_or_prefix_of_prefix ha hc with h | ⟨e, rfl⟩
    · exact h
    · rw [utf8Len_append] at hle
      have he : e = [] := utf8Len_eq_zero_iff.mp (by omega)
      rw [he, List.append_nil]
  obtain ⟨e, rfl⟩ := hac
  refine ⟨e, ?_, ?_⟩
  · rw [hsplit, utf8Len_append, List.append_assoc]
    exact getRange_append a e d
  · have hutf8 : utf8Len (a ++ e) = (bytes (a ++ e)).length := rfl
    rw [hsplit, bytes_append, hutf8, List.take_left, bytes_append, utf8Len, List.drop_left]

end Utf8
