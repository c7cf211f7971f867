import GhRunner.Expressions.Functions
import GhRunner.Lib.Json
import GhRunner.Lib.WholeNumbers

namespace GhRunner.Expressions

open Text Binary64 Json

/-!
# What toJSON writes, fromJSON reads

The writer is made by hand, the reader is `serde_json`'s
(`crates/expressions/src/functions/json_convert.rs`).

* `SerdeJson` — the reader: it reads what the grammar says, as far as readers agree;
* `jsonToExprValue` — the expression value of a JSON value;
* `Exchangeable` — the values that go through: nested no deeper than the reader goes, numbers whole and
  of fifteen digits at most, keys distinct;
* `formatNumber_isWhole`, `string_escapeJsonChar`, `value_writeJson` — the writer's numbers, strings and
  values, read back in front of anything;
* `fromJson_toJson` — the round trip.
-/

/-! ### The reader -/

mutual

def jsonToExprValue : Json.Value → ExprValue
  | .null => .null
  | .bool b => .bool b
  | .number n => .number n.toF64
  | .string s => .string s
  | .array values => .array (jsonToExprValues values)
  | .object members => .object (jsonToExprMembers members [])

def jsonToExprValues : List Json.Value → List ExprValue
  | [] => []
  | v :: values => jsonToExprValue v :: jsonToExprValues values

/-- The members collected one by one. -/
def jsonToExprMembers : List (Str × Json.Value) → List (Str × ExprValue) → List (Str × ExprValue)
  | [], collected => collected
  | (key, v) :: members, collected =>
    jsonToExprMembers members (objectInsert key (jsonToExprValue v) collected)

end

/-- Arrays and objects may be nested this deep. -/
def recursionLimit : ℕ := 127

/-- `serde_json` with the order of keys preserved.  Beyond its recursion limit, on floats and on a key
    that stands twice nothing is assumed of it. -/
structure SerdeJson (platform : Platform) where
  fromStr : Str → Except RunnerError Json.Value
  platform_fromStr : ∀ s, platform.fromStr s = (fromStr s).map jsonToExprValue
  correct : ∀ s v, Json.parse s = some v → Supported recursionLimit v → fromStr s = .ok v

/-! ### The values that go through -/

/-- A whole number of fifteen digits at most. -/
def FifteenDigits (n : F64) : Prop := IsWhole n (wholePart n) ∧ wholePart n < 10 ^ 15

namespace SharedValue

mutual

def Exchangeable (limit : ℕ) : SharedValue → Prop
  | .number n => FifteenDigits n
  | .array _ _ values => 0 < limit ∧ ExchangeableValues (limit - 1) values
  | .object _ entries =>
    0 < limit ∧ (entries.map (·.1)).Nodup ∧ ExchangeableEntries (limit - 1) entries
  | _ => True

def ExchangeableValues (limit : ℕ) : List SharedValue → Prop
  | [] => True
  | value :: values => Exchangeable limit value ∧ ExchangeableValues limit values

def ExchangeableEntries (limit : ℕ) : List (Str × SharedValue) → Prop
  | [] => True
  | (_, value) :: entries => Exchangeable limit value ∧ ExchangeableEntries limit entries

end

mutual

/-- The JSON value of an expression value. -/
def toJson : SharedValue → Json.Value
  | .null => .null
  | .bool b => .bool b
  | .number n => .number (ofWhole n.msb (wholePart n))
  | .string s => .string s
  | .array _ _ values => .array (toJsonValues values)
  | .object _ entries => .object (toJsonMembers entries)

def toJsonValues : List SharedValue → List Json.Value
  | [] => []
  | value :: values => toJson value :: toJsonValues values

def toJsonMembers : List (Str × SharedValue) → List (Str × Json.Value)
  | [] => []
  | (key, value) :: entries => (key, toJson value) :: toJsonMembers entries

end

end SharedValue

/-! ### Numbers -/

theorem toF64_ofWhole {n : F64} {k : ℕ} (h : IsWhole n k) (hlt : k < 10 ^ 15) :
    (ofWhole n.msb k).toF64 = n := by
  have hbits := withSign_of_isWhole h (show k < 2 ^ 52 by omega)
  cases hmsb : n.msb with
  | true =>
    rw [hmsb] at hbits
    rcases Nat.eq_zero_or_pos k with rfl | hpos
    · exact hbits
    · have hneg : -(k : ℤ) < 0 := by omega
      have hwhole : ofWhole true k = .int (-k) := by
        rw [ofWhole, if_pos rfl, if_neg hpos.ne', if_pos (by omega)]
      rw [hwhole, Number.toF64, ofInt, Int.natAbs_neg, Int.natAbs_natCast, decide_eq_true hneg, hbits]
  | false =>
    rw [hmsb] at hbits
    have hnonneg : ¬ (k : ℤ) < 0 := by omega
    have hwhole : ofWhole false k = .int k := by
      rw [ofWhole, if_neg Bool.false_ne_true, if_pos (by omega)]
    rw [hwhole, Number.toF64, ofInt, Int.natAbs_natCast, decide_eq_false hnonneg, hbits]

theorem whole_ofWhole (negative : Bool) {k : ℕ} (hlt : k < 10 ^ 15) : (ofWhole negative k).Whole := by
  unfold ofWhole
  cases negative with
  | true =>
    rw [if_pos rfl]
    split
    · rfl
    · rw [if_pos (by omega)]
      trivial
  | false =>
    rw [if_neg Bool.false_ne_true, if_pos (by omega)]
    trivial

/-- Zeros taken off the end, and put back. -/
theorem rdropWhile_append_zeros (ds : Str) :
    ds.rdropWhile (· = '0') ++
      List.replicate (ds.length - (ds.rdropWhile (· = '0')).length) '0' = ds := by
  induction ds using List.reverseRecOn with
  | nil => rfl
  | append_singleton ds c ih =>
    by_cases hc : c = '0'
    · have hle : (ds.rdropWhile (· = '0')).length ≤ ds.length :=
        (List.rdropWhile_prefix _ ds).length_le
      rw [List.rdropWhile_concat_pos _ _ _ (by simp [hc]), List.length_append, List.length_singleton,
        Nat.sub_add_comm hle, List.replicate_succ', ← List.append_assoc, ih, hc]
    · rw [List.rdropWhile_concat_neg _ _ _ (by simp [hc]), Nat.sub_self, List.replicate_zero,
        List.append_nil]

/-- The zeros that fill up fifteen digits are taken off again. -/
theorem rdropWhile_append_replicate (ds : Str) (zeros : ℕ) :
    (ds ++ List.replicate zeros '0').rdropWhile (· = '0') = ds.rdropWhile (· = '0') := by
  induction zeros with
  | zero => rw [List.replicate_zero, List.append_nil]
  | succ zeros ih =>
    rw [List.replicate_succ', ← List.append_assoc, List.rdropWhile_concat_pos _ _ _ (by simp), ih]

/-- A positive whole number is written with the digits of its width. -/
theorem formatMagnitude_isWhole {n : F64} {k : ℕ} (h : IsWhole n k) (hpos : 0 < k)
    (hlt : k < 10 ^ 15) : formatMagnitude n = fixedDigits (Nat.log 10 k + 1) k := by
  have hlog : Nat.log 10 k ≤ 14 := Nat.lt_succ_iff.mp (Nat.log_lt_of_lt_pow (by omega) hlt)
  have hall : fixedDigits 15 (k * 10 ^ (14 - Nat.log 10 k)) =
      fixedDigits (Nat.log 10 k + 1) k ++ List.replicate (14 - Nat.log 10 k) '0' := by
    rw [← fixedDigits_mul_pow, show Nat.log 10 k + 1 + (14 - Nat.log 10 k) = 15 by omega]
  rw [fixedDigits_succ 14, fixedDigits_succ (Nat.log 10 k), List.cons_append] at hall
  obtain ⟨hfirst, hmore⟩ := List.cons.inj hall
  have hscientific : scientificDigits n = (digitChar (k / 10 ^ Nat.log 10 k),
      fixedDigits (Nat.log 10 k) k ++ List.replicate (14 - Nat.log 10 k) '0',
      (Nat.log 10 k : ℤ)) := by
    rw [scientificDigits, decimal_of_isWhole h hpos hlt]
    show (digitChar (k * 10 ^ (14 - Nat.log 10 k) / 10 ^ 14),
      fixedDigits 14 (k * 10 ^ (14 - Nat.log 10 k)), _) = _
    rw [hfirst, hmore]
  have hrange : ¬ ((Nat.log 10 k : ℤ) < -4 ∨ 15 ≤ (Nat.log 10 k : ℤ)) := by omega
  have hpoint : ¬ ((Nat.log 10 k : ℤ) + 1 ≤ 0) := by omega
  have hwidth : ((Nat.log 10 k : ℤ) + 1).toNat = Nat.log 10 k + 1 := by omega
  have hzeros := rdropWhile_append_zeros (fixedDigits (Nat.log 10 k) k)
  have hle : ((fixedDigits (Nat.log 10 k) k).rdropWhile (· = '0')).length ≤ Nat.log 10 k := by
    have := (List.rdropWhile_prefix (· = '0') (fixedDigits (Nat.log 10 k) k)).length_le
    rwa [length_fixedDigits] at this
  rw [length_fixedDigits] at hzeros
  rw [formatMagnitude, hscientific]
  dsimp only
  rw [if_neg hrange, if_neg hpoint, hwidth, rdropWhile_append_replicate, List.length_cons,
    if_pos (by omega), List.cons_append, Nat.add_sub_add_right, hzeros, fixedDigits_succ]

theorem formatMagnitude_zero {n : F64} (h : IsWhole n 0) : formatMagnitude n = ['0'] := by
  have hzero : (magnitude n).1 = 0 := h.eq.trans (Nat.zero_mul _)
  have hdecimal : decimal 15 n = (0, 0) := by
    unfold decimal
    rcases hmagnitude : magnitude n with ⟨num, den⟩
    rw [hmagnitude] at hzero
    exact if_pos hzero
  rw [formatMagnitude, scientificDigits, hdecimal]
  decide

/-- The digits that a whole number is written with. -/
theorem numeral_formatMagnitude {n : F64} {k : ℕ} (h : IsWhole n k) (hlt : k < 10 ^ 15) :
    Numeral (formatMagnitude n) k := by
  rcases Nat.eq_zero_or_pos k with rfl | hpos
  · rw [formatMagnitude_zero h]
    exact ⟨by decide, by decide, fun _ => rfl, rfl⟩
  · have hle : 10 ^ Nat.log 10 k ≤ k := Nat.pow_log_le_self 10 hpos.ne'
    have hlt' : k < 10 ^ (Nat.log 10 k + 1) := Nat.lt_pow_succ_log_self (by decide) k
    rw [formatMagnitude_isWhole h hpos hlt]
    refine ⟨fun c hc => isDigit_of_mem_fixedDigits hc, ?_, fun hzero => ?_, ?_⟩
    · rw [fixedDigits_succ]
      exact List.cons_ne_nil _ _
    · -- the first digit is not zero
      rw [fixedDigits_succ, List.head?_cons, Option.some.injEq, digitChar_eq_zero_iff] at hzero
      have hone : 1 ≤ k / 10 ^ Nat.log 10 k := (Nat.one_le_div_iff (Nat.pow_pos (by decide))).mpr hle
      have hten : k / 10 ^ Nat.log 10 k < 10 := by
        rw [Nat.div_lt_iff_lt_mul (Nat.pow_pos (by decide)), ← Nat.pow_succ']
        exact hlt'
      omega
    · rw [ofDigits_fixedDigits, Nat.mod_eq_of_lt hlt']

theorem formatNumber_isWhole {n : F64} {k : ℕ} (h : IsWhole n k) :
    formatNumber n = (if n.msb then ['-'] else []) ++ formatMagnitude n := by
  have hfinite : exponentBits n ≠ 2047 := h.finite.ne
  have hnan : isNaN n = false := by
    rw [isNaN, decide_eq_false hfinite]
    rfl
  have hinfinite : isInfinite n = false := by
    rw [isInfinite, decide_eq_false hfinite]
    rfl
  rw [formatNumber, hnan, hinfinite]
  rfl

/-! ### Strings -/

theorem hex4_hexDigit : ∀ n < 32, hex4 '0' '0' (hexDigit (n / 16)) (hexDigit (n % 16)) = some n := by
  decide

/-- A character that was escaped is read back, whatever follows. -/
theorem string_escapeJsonChar (c : Char) (rest : Str) :
    Json.string (escapeJsonChar c ++ rest) = consChar c (Json.string rest) := by
  unfold escapeJsonChar
  split
  case isTrue h => exact h ▸ string_escaped (e := '"') rfl rest
  case isFalse hquote =>
  split
  case isTrue h => exact h ▸ string_escaped (e := '\\') rfl rest
  case isFalse hback =>
  split
  case isTrue h => exact h ▸ string_escaped (e := 'b') rfl rest
  case isFalse =>
  split
  case isTrue h => exact h ▸ string_escaped (e := 'f') rfl rest
  case isFalse =>
  split
  case isTrue h => exact h ▸ string_escaped (e := 'n') rfl rest
  case isFalse =>
  split
  case isTrue h => exact h ▸ string_escaped (e := 'r') rfl rest
  case isFalse =>
  split
  case isTrue h => exact h ▸ string_escaped (e := 't') rfl rest
  case isFalse =>
  split
  case isTrue hlow =>
    have hunicode := string_unicode (hex4_hexDigit c.toNat hlow) (by omega) rest
    rw [Char.ofNat_toNat] at hunicode
    exact hunicode
  case isFalse hlow => exact string_plain hquote hback hlow rest

theorem string_jsonString (s rest : Str) :
    Json.string (s.flatMap escapeJsonChar ++ '"' :: rest) = some (s, rest) := by
  induction s with
  | nil => exact string_quote rest
  | cons c s ih =>
    rw [List.flatMap_cons, List.append_assoc, string_escapeJsonChar, ih]
    rfl

/-! ### What stands between the values -/

theorem blank_jsonNewline (depth : ℕ) : ∀ c ∈ jsonNewline depth false, isSpace c = true := by
  intro c hc
  rcases List.mem_cons.mp hc with rfl | hc
  · rfl
  · obtain ⟨line, hline, hc⟩ := List.mem_flatten.mp hc
    rw [List.eq_of_mem_replicate hline] at hc
    rcases List.mem_cons.mp hc with rfl | hc
    · rfl
    · rw [List.mem_singleton.mp hc]
      rfl

theorem length_jsonNewline (depth : ℕ) (comma : Bool) : 0 < (jsonNewline depth comma).length := by
  cases comma <;> exact Nat.succ_pos _

theorem ends_jsonNewline (depth : ℕ) (comma : Bool) (rest : Str) :
    Ends (jsonNewline depth comma ++ rest) := by
  cases comma <;> · rintro c ⟨⟩; decide

theorem writeJsonValues_comma (depth : ℕ) (value : SharedValue) (values : List SharedValue) :
    writeJsonValues depth true (value :: values) =
      ',' :: writeJsonValues depth false (value :: values) := rfl

theorem writeJsonEntries_comma (depth : ℕ) (entry : Str × SharedValue)
    (entries : List (Str × SharedValue)) :
    writeJsonEntries depth true (entry :: entries) =
      ',' :: writeJsonEntries depth false (entry :: entries) := rfl

theorem ends_writeJsonValues (depth : ℕ) (values : List SharedValue) (rest : Str) :
    Ends (writeJsonValues depth true values ++ (jsonNewline depth false ++ rest)) := by
  cases values with
  | nil => exact ends_jsonNewline depth false rest
  | cons value values =>
    rw [writeJsonValues_comma]
    rintro c ⟨⟩
    decide

theorem ends_writeJsonEntries (depth : ℕ) (entries : List (Str × SharedValue)) (rest : Str) :
    Ends (writeJsonEntries depth true entries ++ (jsonNewline depth false ++ rest)) := by
  cases entries with
  | nil => exact ends_jsonNewline depth false rest
  | cons entry entries =>
    rw [writeJsonEntries_comma]
    rintro c ⟨⟩
    decide

/-- How a number starts. -/
theorem head_formatNumber {n : F64} (h : FifteenDigits n) :
    ∃ c more, formatNumber n = c :: more ∧ (c = '-' ∨ c.isDigit = true) := by
  have hnumeral := numeral_formatMagnitude h.1 h.2
  rw [formatNumber_isWhole h.1]
  cases n.msb with
  | true => exact ⟨'-', _, rfl, Or.inl rfl⟩
  | false =>
    cases hds : formatMagnitude n with
    | nil => exact absurd hds hnumeral.nonempty
    | cons c ds => exact ⟨c, ds, rfl, Or.inr (hnumeral.isDigit c (hds ▸ List.mem_cons_self))⟩

/-- A value's text starts with no white space and no closing bracket. -/
theorem head_writeJson {limit : ℕ} {v : SharedValue} (h : v.Exchangeable limit) (depth : ℕ) :
    ∃ c more, writeJson depth v = c :: more ∧ isSpace c = false ∧ c ≠ ']' := by
  cases v with
  | null => exact ⟨'n', ['u', 'l', 'l'], rfl, by decide, by decide⟩
  | bool b =>
    cases b with
    | true => exact ⟨'t', ['r', 'u', 'e'], rfl, by decide, by decide⟩
    | false => exact ⟨'f', ['a', 'l', 's', 'e'], rfl, by decide, by decide⟩
  | number n =>
    obtain ⟨c, more, heq, hc⟩ := head_formatNumber h
    refine ⟨c, more, heq, ?_, ?_⟩
    · rcases hc with rfl | hc
      · rfl
      · by_contra hspace
        simp only [isSpace, Bool.not_eq_false, Bool.or_eq_true, decide_eq_true_eq] at hspace
        rcases hspace with ((rfl | rfl) | rfl) | rfl <;> cases hc
    · rintro rfl
      rcases hc with hc | hc <;> cases hc
  | string s => exact ⟨'"', _, rfl, by decide, by decide⟩
  | array ref filtered values => exact ⟨'[', _, rfl, by decide, by decide⟩
  | object ref entries => exact ⟨'\x7b', _, rfl, by decide, by decide⟩

/-! ### Values -/

theorem value_formatNumber {n : F64} (h : FifteenDigits n) (fuel : ℕ) {rest : Str}
    (hrest : Ends rest) :
    Json.value (fuel + 1) (formatNumber n ++ rest) =
      some (.number (ofWhole n.msb (wholePart n)), rest) := by
  obtain ⟨c, more, heq, hc⟩ := head_formatNumber h
  have hread : number (formatNumber n ++ rest) = some (ofWhole n.msb (wholePart n), rest) := by
    rw [formatNumber_isWhole h.1, List.append_assoc]
    exact number_whole n.msb (numeral_formatMagnitude h.1 h.2) hrest
  rw [heq, List.cons_append] at hread ⊢
  have hplain (d : Char) (hminus : d ≠ '-') (hdigit : d.isDigit = false) : c ≠ d := by
    rintro rfl
    rcases hc with hc | hc
    · exact hminus hc
    · rw [hc] at hdigit
      cases hdigit
  have hspace : isSpace c = false := by
    rcases hc with rfl | hc
    · rfl
    · simp [isSpace, hplain ' ' (by decide) (by decide), hplain '\t' (by decide) (by decide),
        hplain '\n' (by decide) (by decide), hplain '\r' (by decide) (by decide)]
  rw [value_scalar hspace (hplain '"' (by decide) (by decide)) (hplain '[' (by decide) (by decide))
    (hplain '\x7b' (by decide) (by decide)), scalar_number hc, hread]
  rfl

mutual

/-- A value that was written is read back, whatever ends it. -/
theorem value_writeJson {limit : ℕ} (v : SharedValue) (h : v.Exchangeable limit) (depth fuel : ℕ)
    (rest : Str) (hrest : Ends rest) (hfuel : (writeJson depth v).length < fuel) :
    Json.value fuel (writeJson depth v ++ rest) = some (v.toJson, rest) := by
  cases fuel with
  | zero => exact absurd hfuel (Nat.not_lt_zero _)
  | succ fuel =>
  cases v with
  | null => exact value_scalar (c := 'n') rfl (by decide) (by decide) (by decide) fuel _
  | bool b =>
    cases b with
    | true => exact value_scalar (c := 't') rfl (by decide) (by decide) (by decide) fuel _
    | false => exact value_scalar (c := 'f') rfl (by decide) (by decide) (by decide) fuel _
  | number n => exact value_formatNumber h fuel hrest
  | string s =>
    have htext : writeJson depth (.string s) ++ rest =
        '"' :: (s.flatMap escapeJsonChar ++ '"' :: rest) := by
      simp [writeJson, jsonString]
    rw [htext, value_string, string_jsonString]
    rfl
  | array ref filtered values =>
    have hlength : (writeJsonValues depth false values).length < fuel := by
      simp only [writeJson, List.length_cons, List.length_append] at hfuel
      omega
    have hread := elements_writeJsonValues values h.2 depth fuel rest
    cases values with
    | nil => exact value_array_nil fuel rest
    | cons value values =>
      have htext : writeJson depth (.array ref filtered (value :: values)) ++ rest =
          '[' :: (writeJsonValues depth false (value :: values) ++
            (jsonNewline depth false ++ ']' :: rest)) := by
        simp [writeJson]
      -- the first element does not close the array
      have hopen : ∀ c ∈ (skip (writeJsonValues depth false (value :: values) ++
          (jsonNewline depth false ++ ']' :: rest))).head?, c ≠ ']' := by
        obtain ⟨c, more, hfirst, hspace, hbracket⟩ := head_writeJson h.2.1 (depth + 1)
        rw [writeJsonValues, hfirst, List.append_assoc, List.append_assoc,
          skip_append (blank_jsonNewline _), List.cons_append, skip_cons hspace]
        rintro _ ⟨⟩
        exact hbracket
      rw [htext, value_array hopen, hread (List.cons_ne_nil _ _) hlength]
      rfl
  | object ref entries =>
    have hlength : (writeJsonEntries depth false entries).length < fuel := by
      simp only [writeJson, List.length_cons, List.length_append] at hfuel
      omega
    have hread := members_writeJsonEntries entries h.2.2 depth fuel rest
    cases entries with
    | nil => exact value_object_nil fuel rest
    | cons entry entries =>
      have htext : writeJson depth (.object ref (entry :: entries)) ++ rest =
          '\x7b' :: (writeJsonEntries depth false (entry :: entries) ++
            (jsonNewline depth false ++ '\x7d' :: rest)) := by
        simp [writeJson]
      -- nor does the first key close the object
      have hopen : ∀ c ∈ (skip (writeJsonEntries depth false (entry :: entries) ++
          (jsonNewline depth false ++ '\x7d' :: rest))).head?, c ≠ '\x7d' := by
        rw [writeJsonEntries, jsonString]
        simp only [List.append_assoc]
        rw [skip_append (blank_jsonNewline _), List.cons_append, skip_cons rfl]
        rintro _ ⟨⟩
        decide
      rw [htext, value_object hopen, hread (List.cons_ne_nil _ _) hlength]
      rfl

theorem elements_writeJsonValues {limit : ℕ} : ∀ (values : List SharedValue),
    SharedValue.ExchangeableValues limit values → ∀ (depth fuel : ℕ) (rest : Str), values ≠ [] →
      (writeJsonValues depth false values).length < fuel →
        Json.elements fuel (writeJsonValues depth false values ++
          (jsonNewline depth false ++ ']' :: rest)) = some (SharedValue.toJsonValues values, rest)
  | [], _, _, _, _, hne, _ => absurd rfl hne
  | value :: values, h, depth, fuel, rest, _, hfuel => by
    cases fuel with
    | zero => exact absurd hfuel (Nat.not_lt_zero _)
    | succ fuel =>
      have hpos := length_jsonNewline (depth + 1) false
      simp only [writeJsonValues, List.length_append] at hfuel
      have hvalue := value_writeJson value h.1 (depth + 1) fuel
        (writeJsonValues depth true values ++ (jsonNewline depth false ++ ']' :: rest))
        (ends_writeJsonValues depth values _) (by omega)
      have htext : writeJsonValues depth false (value :: values) ++
          (jsonNewline depth false ++ ']' :: rest) =
            jsonNewline (depth + 1) false ++ (writeJson (depth + 1) value ++
              (writeJsonValues depth true values ++ (jsonNewline depth false ++ ']' :: rest))) := by
        simp [writeJsonValues]
      rw [← value_append (blank_jsonNewline (depth + 1)), ← htext] at hvalue
      have hmore := elements_writeJsonValues values h.2 depth fuel rest
      cases values with
      | nil =>
        refine elements_last hvalue ?_
        rw [writeJsonValues, List.nil_append, skip_append (blank_jsonNewline _), skip_cons rfl]
      | cons value' values =>
        rw [writeJsonValues_comma, List.length_cons] at hfuel
        rw [elements_more hvalue (by rw [writeJsonValues_comma, List.cons_append, skip_cons rfl]),
          hmore (List.cons_ne_nil _ _) (by omega)]
        rfl

theorem members_writeJsonEntries {limit : ℕ} : ∀ (entries : List (Str × SharedValue)),
    SharedValue.ExchangeableEntries limit entries → ∀ (depth fuel : ℕ) (rest : Str), entries ≠ [] →
      (writeJsonEntries depth false entries).length < fuel →
        Json.members fuel (writeJsonEntries depth false entries ++
          (jsonNewline depth false ++ '\x7d' :: rest)) =
            some (SharedValue.toJsonMembers entries, rest)
  | [], _, _, _, _, hne, _ => absurd rfl hne
  | (key, value) :: entries, h, depth, fuel, rest, _, hfuel => by
    cases fuel with
    | zero => exact absurd hfuel (Nat.not_lt_zero _)
    | succ fuel =>
      have hpos := length_jsonNewline (depth + 1) false
      simp only [writeJsonEntries, List.length_append] at hfuel
      have hvalue := value_writeJson value h.1 (depth + 1) fuel
        (writeJsonEntries depth true entries ++ (jsonNewline depth false ++ '\x7d' :: rest))
        (ends_writeJsonEntries depth entries _) (by omega)
      have hblank : ∀ c ∈ [' '], isSpace c = true := by decide
      rw [← value_append hblank] at hvalue
      have hmore := members_writeJsonEntries entries h.2 depth fuel rest
      have htext : writeJsonEntries depth false ((key, value) :: entries) ++
          (jsonNewline depth false ++ '\x7d' :: rest) =
            jsonNewline (depth + 1) false ++ ('"' :: (key.flatMap escapeJsonChar ++
              '"' :: (':' :: ([' '] ++ (writeJson (depth + 1) value ++
                (writeJsonEntries depth true entries ++
                  (jsonNewline depth false ++ '\x7d' :: rest))))))) := by
        simp [writeJsonEntries, jsonString]
      have hskip := (skip_append (blank_jsonNewline (depth + 1)) _).trans
        (skip_cons (show isSpace '"' = false from rfl) (key.flatMap escapeJsonChar ++
              '"' :: (':' :: ([' '] ++ (writeJson (depth + 1) value ++
                (writeJsonEntries depth true entries ++
                  (jsonNewline depth false ++ '\x7d' :: rest)))))))
      rw [htext]
      cases entries with
      | nil =>
        refine members_last hskip (string_jsonString key _) hvalue ?_
        rw [writeJsonEntries, List.nil_append, skip_append (blank_jsonNewline _), skip_cons rfl]
      | cons entry entries =>
        rw [writeJsonEntries_comma, List.length_cons] at hfuel
        rw [members_more hskip (string_jsonString key _) hvalue
          (by rw [writeJsonEntries_comma, List.cons_append, skip_cons rfl]),
          hmore (List.cons_ne_nil _ _) (by omega)]
        rfl

end

/-! ### The round trip -/

/-- The text of a whole document. -/
theorem parse_writeJson {limit : ℕ} {v : SharedValue} (h : v.Exchangeable limit) :
    Json.parse (writeJson 0 v) = some v.toJson := by
  have hread := value_writeJson v h 0 ((writeJson 0 v).length + 1) [] (by rintro c ⟨⟩)
    (Nat.lt_succ_self _)
  rw [List.append_nil] at hread
  rw [Json.parse, hread]
  rfl

theorem writeJson_ne_nil {limit : ℕ} {v : SharedValue} (h : v.Exchangeable limit) (depth : ℕ) :
    writeJson depth v ≠ [] := by
  obtain ⟨c, more, heq, -, -⟩ := head_writeJson h depth
  rw [heq]
  exact List.cons_ne_nil c more

theorem map_fst_toJsonMembers (entries : List (Str × SharedValue)) :
    (SharedValue.toJsonMembers entries).map (·.1) = entries.map (·.1) := by
  induction entries with
  | nil => rfl
  | cons entry entries ih => rw [SharedValue.toJsonMembers, List.map_cons, ih, List.map_cons]

mutual

/-- Every reader agrees on the text of a value that goes through. -/
theorem supported_toJson {limit : ℕ} (v : SharedValue) (h : v.Exchangeable limit) :
    Supported limit v.toJson := by
  cases v with
  | null => trivial
  | bool b => trivial
  | number n => exact whole_ofWhole n.msb h.2
  | string s => trivial
  | array ref filtered values => exact ⟨h.1, supported_toJsonValues values h.2⟩
  | object ref entries =>
    exact ⟨h.1, (map_fst_toJsonMembers entries).symm ▸ h.2.1, supported_toJsonMembers entries h.2.2⟩

theorem supported_toJsonValues {limit : ℕ} : ∀ (values : List SharedValue),
    SharedValue.ExchangeableValues limit values →
      SupportedValues limit (SharedValue.toJsonValues values)
  | [], _ => trivial
  | value :: values, h => ⟨supported_toJson value h.1, supported_toJsonValues values h.2⟩

theorem supported_toJsonMembers {limit : ℕ} : ∀ (entries : List (Str × SharedValue)),
    SharedValue.ExchangeableEntries limit entries →
      SupportedMembers limit (SharedValue.toJsonMembers entries)
  | [], _ => trivial
  | (_, value) :: entries, h => ⟨supported_toJson value h.1, supported_toJsonMembers entries h.2⟩

end

/-- A new key goes to the end. -/
theorem objectInsert_of_notMem {key : Str} (value : ExprValue) {entries : List (Str × ExprValue)}
    (h : key ∉ entries.map (·.1)) : objectInsert key value entries = entries ++ [(key, value)] := by
  induction entries with
  | nil => rfl
  | cons entry entries ih =>
    rw [List.map_cons, List.mem_cons, not_or] at h
    rw [objectInsert, if_neg (Ne.symm h.1), ih h.2]
    rfl

mutual

theorem jsonToExprValue_toJson {limit : ℕ} (v : SharedValue) (h : v.Exchangeable limit) :
    jsonToExprValue v.toJson = v.toExprValue := by
  cases v with
  | null => rfl
  | bool b => rfl
  | number n =>
    show ExprValue.number (ofWhole n.msb (wholePart n)).toF64 = .number n
    rw [toF64_ofWhole h.1 h.2]
  | string s => rfl
  | array ref filtered values =>
    show ExprValue.array (jsonToExprValues (SharedValue.toJsonValues values)) = _
    rw [jsonToExprValues_toJsonValues values h.2]
    rfl
  | object ref entries =>
    show ExprValue.object (jsonToExprMembers (SharedValue.toJsonMembers entries) []) = _
    rw [jsonToExprMembers_toJsonMembers entries h.2.2 [] h.2.1]
    rfl

theorem jsonToExprValues_toJsonValues {limit : ℕ} : ∀ (values : List SharedValue),
    SharedValue.ExchangeableValues limit values →
      jsonToExprValues (SharedValue.toJsonValues values) = SharedValue.toExprValues values
  | [], _ => rfl
  | value :: values, h => by
    rw [SharedValue.toJsonValues, jsonToExprValues, jsonToExprValue_toJson value h.1,
      jsonToExprValues_toJsonValues values h.2, SharedValue.toExprValues]

/-- Distinct keys are collected in their order. -/
theorem jsonToExprMembers_toJsonMembers {limit : ℕ} : ∀ (entries : List (Str × SharedValue)),
    SharedValue.ExchangeableEntries limit entries → ∀ collected : List (Str × ExprValue),
      (collected.map (·.1) ++ entries.map (·.1)).Nodup →
        jsonToExprMembers (SharedValue.toJsonMembers entries) collected =
          collected ++ SharedValue.toExprEntries entries
  | [], _, collected, _ => (List.append_nil collected).symm
  | (key, value) :: entries, h, collected, hnodup => by
    have hnew : key ∉ collected.map (·.1) := fun hmem =>
      (List.nodup_append.mp hnodup).2.2 key hmem key List.mem_cons_self rfl
    have hmore : ((collected ++ [(key, value.toExprValue)]).map (·.1) ++ entries.map (·.1)).Nodup := by
      rw [List.map_append, List.append_assoc]
      exact hnodup
    rw [SharedValue.toJsonMembers, jsonToExprMembers, jsonToExprValue_toJson value h.1,
      objectInsert_of_notMem _ hnew, jsonToExprMembers_toJsonMembers entries h.2 _ hmore,
      List.append_assoc]
    rfl

end

section Identities

variable (ref : List ℕ → Ref)

mutual

/-- Identities are given to a value and taken off again. -/
theorem toExprValue_ofExprValue (position : List ℕ) (x : ExprValue) :
    (SharedValue.ofExprValue ref position x).toExprValue = x := by
  cases x with
  | null => rfl
  | bool b => rfl
  | number n => rfl
  | string s => rfl
  | array values =>
    rw [SharedValue.ofExprValue, SharedValue.toExprValue, toExprValues_ofExprValues position 0 values]
  | object entries =>
    rw [SharedValue.ofExprValue, SharedValue.toExprValue,
      toExprEntries_ofExprEntries position 0 entries]

theorem toExprValues_ofExprValues (position : List ℕ) : ∀ (index : ℕ) (values : List ExprValue),
    SharedValue.toExprValues (SharedValue.ofExprValues ref position index values) = values
  | _, [] => rfl
  | index, value :: values => by
    rw [SharedValue.ofExprValues, SharedValue.toExprValues, toExprValue_ofExprValue _ value,
      toExprValues_ofExprValues position (index + 1) values]

theorem toExprEntries_ofExprEntries (position : List ℕ) :
    ∀ (index : ℕ) (entries : List (Str × ExprValue)),
      SharedValue.toExprEntries (SharedValue.ofExprEntries ref position index entries) = entries
  | _, [] => rfl
  | index, (key, value) :: entries => by
    rw [SharedValue.ofExprEntries, SharedValue.toExprEntries, toExprValue_ofExprValue _ value,
      toExprEntries_ofExprEntries position (index + 1) entries]

end

end Identities

/-- `fromJSON(toJSON(v))` is `v`: its structure, its scalars, its keys and their order. -/
theorem fromJson_toJson {platform : Platform} (serde : SerdeJson platform) (ref : List ℕ → Ref)
    (v : SharedValue) (h : v.Exchangeable recursionLimit) :
    ∃ s v', fnToJson [v] = .ok s ∧ fnFromJson platform ref [s] = .ok v' ∧
      v'.toExprValue = v.toExprValue := by
  have hread : serde.fromStr (writeJson 0 v) = .ok v.toJson :=
    serde.correct _ _ (parse_writeJson h) (supported_toJson v h)
  have hparsed : platform.fromStr (writeJson 0 v) = .ok v.toExprValue := by
    rw [serde.platform_fromStr, hread, Except.map, jsonToExprValue_toJson v h]
  refine ⟨.string (writeJson 0 v), .ofExprValue ref [] v.toExprValue, rfl, ?_,
    toExprValue_ofExprValue ref [] v.toExprValue⟩
  show (if writeJson 0 v = [] then _ else (platform.fromStr (writeJson 0 v)).map _) = _
  rw [if_neg (writeJson_ne_nil h 0), hparsed]
  rfl

/-- A platform with the grammar's own reader. -/
def grammarPlatform : Platform where
  toUppercase c := [c.toUpper]
  fromStr s :=
    match Json.parse s with
    | some v => .ok (jsonToExprValue v)
    | none => .error (.other "invalid JSON".toList)
  hashFiles _ _ := .ok []
  debug _ := []

def grammarReader : SerdeJson grammarPlatform where
  fromStr s :=
    match Json.parse s with
    | some v => .ok v
    | none => .error (.other "invalid JSON".toList)
  platform_fromStr s := by
    show (match Json.parse s with | some v => _ | none => _) = _
    cases Json.parse s <;> rfl
  correct s v h _ := by rw [h]

/-- `{"say \"hi\"": [-17, -0.0, "a\\b\n\u0001", {}], "none": [null, true]}` -/
def sampleValue : SharedValue :=
  .object (.given [] []) [
    (['s', 'a', 'y', ' ', '"', 'h', 'i', '"'], .array (.given [] [0]) false [
      .number 0xC031000000000000#64, .number 0x8000000000000000#64,
      .string ['a', '\\', 'b', '\n', '\x01'], .object (.given [] [1, 0]) []]),
    (['n', 'o', 'n', 'e'], .array (.given [] [2]) true [.null, .bool true])]

theorem fromJson_toJson_sample : sampleValue.Exchangeable recursionLimit ∧
    ∃ s v', fnToJson [sampleValue] = .ok s ∧
      fnFromJson grammarPlatform (.fresh [0]) [s] = .ok v' ∧
        v'.toExprValue = sampleValue.toExprValue := by
  have hseventeen : FifteenDigits 0xC031000000000000#64 := ⟨⟨by decide, by decide⟩, by decide⟩
  have hzero : FifteenDigits 0x8000000000000000#64 :=
    ⟨⟨by decide, by decide +kernel⟩, by decide +kernel⟩
  have hsample : sampleValue.Exchangeable recursionLimit :=
    ⟨by decide, by decide,
      ⟨by decide, hseventeen, hzero, trivial, ⟨by decide, by decide, trivial⟩, trivial⟩,
      ⟨by decide, trivial, trivial, trivial⟩, trivial⟩
  exact ⟨hsample, fromJson_toJson grammarReader (.fresh [0]) sampleValue hsample⟩

end GhRunner.Expressions
