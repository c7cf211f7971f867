import GhRunner.Lib.Decimal

/-!
# JSON texts

The values that JSON texts stand for, and a reader of the grammar of RFC 8259.  Numbers are whole ones
or floats, as readers that keep 64-bit integers apart have them; members keep their order.

* `Value`, `Number` — what a text stands for;
* `string`, `number`, `value` — reading one at the front of a text; the fuel of `value` bounds the
  calls, and the length of the text is enough;
* `parse` — a whole text;
* `Supported` — nested no deeper than a limit, with whole numbers only and no key twice: where readers
  agree;
* `string_plain`, `string_escaped`, `string_unicode` — a string character by character;
* `value_array`, `elements_more`, `members_more` — arrays and objects piece by piece;
* `number_whole` — a numeral in front of a comma or white space.
-/

namespace Json

open Text Binary64

/-! ### Values -/

inductive Number
  | int (i : ℤ)
  | float (n : BitVec 64)
deriving DecidableEq

def Number.toF64 : Number → BitVec 64
  | .int i => ofInt i
  | .float n => n

inductive Value
  | null
  | bool (b : Bool)
  | number (n : Number)
  | string (s : Str)
  | array (values : List Value)
  | object (members : List (Str × Value))

def negZero : BitVec 64 := withSign true 0

/-- A whole number that fits 64 bits, or the zero with a sign. -/
def Number.Whole : Number → Prop
  | .int _ => True
  | .float n => n = negZero

mutual

def Supported (limit : ℕ) : Value → Prop
  | .number n => n.Whole
  | .array values => 0 < limit ∧ SupportedValues (limit - 1) values
  | .object members =>
    0 < limit ∧ (members.map (·.1)).Nodup ∧ SupportedMembers (limit - 1) members
  | _ => True

def SupportedValues (limit : ℕ) : List Value → Prop
  | [] => True
  | v :: values => Supported limit v ∧ SupportedValues limit values

def SupportedMembers (limit : ℕ) : List (Str × Value) → Prop
  | [] => True
  | (_, v) :: members => Supported limit v ∧ SupportedMembers limit members

end

/-! ### White space -/

def isSpace (c : Char) : Bool := c = ' ' || c = '\t' || c = '\n' || c = '\r'

def skip (text : Str) : Str := text.dropWhile isSpace

/-! ### Strings -/

def hexValue (c : Char) : Option ℕ :=
  if '0' ≤ c ∧ c ≤ '9' then some (c.toNat - 48)
  else if 'a' ≤ c ∧ c ≤ 'f' then some (c.toNat - 87)
  else if 'A' ≤ c ∧ c ≤ 'F' then some (c.toNat - 55)
  else none

/-- Four hexadecimal digits. -/
def hex4 (a b c d : Char) : Option ℕ := do
  let a ← hexValue a
  let b ← hexValue b
  let c ← hexValue c
  let d ← hexValue d
  return ((a * 16 + b) * 16 + c) * 16 + d

/-- What a backslash and this character stand for, but for `u`. -/
def escaped (c : Char) : Option Char :=
  match c with
  | '"' => some '"'
  | '\\' => some '\\'
  | '/' => some '/'
  | 'b' => some '\x08'
  | 'f' => some '\x0C'
  | 'n' => some '\n'
  | 'r' => some '\r'
  | 't' => some '\t'
  | _ => none

def consChar (c : Char) (r : Option (Str × Str)) : Option (Str × Str) :=
  r.map fun (s, rest) => (c :: s, rest)

/-- The rest of a string up to its closing quote, and what follows it. -/
def string : Str → Option (Str × Str)
  | [] => none
  | c :: rest =>
    if c = '"' then some ([], rest)
    else if c = '\\' then
      match rest with
      | 'u' :: a :: b :: c :: d :: rest =>
        match hex4 a b c d with
        | none => none
        | some n =>
          if 0xD800 ≤ n ∧ n < 0xDC00 then
            -- the first half of a pair
            match rest with
            | '\\' :: 'u' :: a :: b :: c :: d :: rest =>
              match hex4 a b c d with
              | none => none
              | some m =>
                if 0xDC00 ≤ m ∧ m < 0xE000 then
                  consChar (Char.ofNat (0x10000 + (n - 0xD800) * 0x400 + (m - 0xDC00)))
                    (string rest)
                else none
            | _ => none
          else if 0xDC00 ≤ n ∧ n < 0xE000 then none
          else consChar (Char.ofNat n) (string rest)
      | e :: rest =>
        match escaped e with
        | none => none
        | some c => consChar c (string rest)
      | [] => none
    else if c.toNat < 32 then none
    else consChar c (string rest)

/-! ### Numbers -/

/-- One digit at least. -/
def digits (text : Str) : Option (Str × Str) :=
  let ds := text.takeWhile Char.isDigit
  if ds = [] then none else some (ds, text.dropWhile Char.isDigit)

/-- No zero stands before another digit. -/
def whole (text : Str) : Option (Str × Str) :=
  match digits text with
  | none => none
  | some (ds, rest) => if ds.head? = some '0' ∧ ds ≠ ['0'] then none else some (ds, rest)

/-- The digits behind a point, if there is one. -/
def fraction : Str → Option (Option Str × Str)
  | '.' :: rest => (digits rest).map fun (ds, rest) => (some ds, rest)
  | rest => some (none, rest)

def exponent : Str → Option (Option ℤ × Str)
  | c :: rest =>
    if c = 'e' ∨ c = 'E' then
      let (negative, rest) := takeSign rest
      (digits rest).map fun (ds, rest) =>
        (some (if negative then -(ofDigits ds : ℤ) else ofDigits ds), rest)
    else some (none, c :: rest)
  | [] => some (none, [])

/-- A number without a point and an exponent. -/
def ofWhole (negative : Bool) (n : ℕ) : Number :=
  if negative then
    if n = 0 then .float negZero
    else if n ≤ 2 ^ 63 then .int (-n)
    else .float (ofDecimal true n 0)
  else if n < 2 ^ 64 then .int n
  else .float (ofDecimal false n 0)

def ofParts (negative : Bool) (ds : Str) : Option Str → Option ℤ → Number
  | none, none => ofWhole negative (ofDigits ds)
  | frac, exp =>
    .float (ofDecimal negative (ofDigits (ds ++ frac.getD []))
      (exp.getD 0 - (frac.getD []).length))

def takeMinus : Str → Bool × Str
  | '-' :: rest => (true, rest)
  | rest => (false, rest)

def number (text : Str) : Option (Number × Str) := do
  let (negative, text) := takeMinus text
  let (ds, text) ← whole text
  let (frac, text) ← fraction text
  let (exp, text) ← exponent text
  return (ofParts negative ds frac exp, text)

/-! ### Values -/

/-- One of the three names, or a number. -/
def scalar (text : Str) : Option (Value × Str) :=
  match "null".toList.isPrefixOf? text with
  | some rest => some (.null, rest)
  | none =>
    match "true".toList.isPrefixOf? text with
    | some rest => some (.bool true, rest)
    | none =>
      match "false".toList.isPrefixOf? text with
      | some rest => some (.bool false, rest)
      | none => (number text).map fun (n, rest) => (.number n, rest)

mutual

def value : ℕ → Str → Option (Value × Str)
  | 0, _ => none
  | fuel + 1, text =>
    match skip text with
    | '"' :: rest => (string rest).map fun (s, rest) => (.string s, rest)
    | '[' :: rest =>
      match skip rest with
      | ']' :: rest => some (.array [], rest)
      | _ => (elements fuel rest).map fun (vs, rest) => (.array vs, rest)
    | '{' :: rest =>
      match skip rest with
      | '}' :: rest => some (.object [], rest)
      | _ => (members fuel rest).map fun (ms, rest) => (.object ms, rest)
    | text => scalar text

/-- The elements of an array up to its bracket, one at least. -/
def elements : ℕ → Str → Option (List Value × Str)
  | 0, _ => none
  | fuel + 1, text =>
    match value fuel text with
    | none => none
    | some (v, rest) =>
      match skip rest with
      | ']' :: rest => some ([v], rest)
      | ',' :: rest => (elements fuel rest).map fun (vs, rest) => (v :: vs, rest)
      | _ => none

/-- The members of an object up to its brace, one at least. -/
def members : ℕ → Str → Option (List (Str × Value) × Str)
  | 0, _ => none
  | fuel + 1, text =>
    match skip text with
    | '"' :: rest =>
      match string rest with
      | none => none
      | some (key, rest) =>
        match skip rest with
        | ':' :: rest =>
          match value fuel rest with
          | none => none
          | some (v, rest) =>
            match skip rest with
            | '}' :: rest => some ([(key, v)], rest)
            | ',' :: rest => (members fuel rest).map fun (ms, rest) => ((key, v) :: ms, rest)
            | _ => none
        | _ => none
    | _ => none

end

def parse (text : Str) : Option Value :=
  match value (text.length + 1) text with
  | none => none
  | some (v, rest) => if skip rest = [] then some v else none

/-! ### White space in front -/

theorem skip_of_head {text : Str} (h : ∀ c ∈ text.head?, isSpace c = false) : skip text = text := by
  cases text with
  | nil => rfl
  | cons c text => exact List.dropWhile_cons_of_neg (by simp [h c rfl])

theorem skip_append {blank : Str} (h : ∀ c ∈ blank, isSpace c = true) (text : Str) :
    skip (blank ++ text) = skip text := List.dropWhile_append_of_pos h

theorem value_append {blank : Str} (h : ∀ c ∈ blank, isSpace c = true) (fuel : ℕ) (text : Str) :
    value fuel (blank ++ text) = value fuel text := by
  cases fuel with
  | zero => rfl
  | succ fuel =>
    unfold value
    rw [skip_append h]

/-! ### Strings character by character -/

theorem string_quote (rest : Str) : string ('"' :: rest) = some ([], rest) := by
  delta string
  rfl

theorem string_plain {c : Char} (hquote : c ≠ '"') (hback : c ≠ '\\') (hlow : ¬ c.toNat < 32)
    (rest : Str) : string (c :: rest) = consChar c (string rest) := by
  delta string
  exact (if_neg hquote).trans ((if_neg hback).trans (if_neg hlow))

theorem string_escaped {e c : Char} (h : escaped e = some c) (rest : Str) :
    string ('\\' :: e :: rest) = consChar c (string rest) := by
  have he : e ≠ 'u' := by
    rintro rfl
    cases h
  rw [string.eq_def]
  simp [h, he]

theorem string_unicode {a b c d : Char} {n : ℕ} (h : hex4 a b c d = some n) (hlow : n < 0xD800)
    (rest : Str) :
    string ('\\' :: 'u' :: a :: b :: c :: d :: rest) = consChar (Char.ofNat n) (string rest) := by
  have hfirst : ¬ (0xD800 ≤ n ∧ n < 0xDC00) := by omega
  have hsecond : ¬ (0xDC00 ≤ n ∧ n < 0xE000) := by omega
  have hback : ¬ '\\' = '"' := by decide
  rw [string.eq_def]
  simp only [if_neg hback, if_true, h, if_neg hfirst, if_neg hsecond]

/-! ### Arrays and objects piece by piece -/

theorem skip_cons {c : Char} (h : isSpace c = false) (text : Str) : skip (c :: text) = c :: text :=
  skip_of_head (by rintro _ ⟨⟩; exact h)

theorem value_string (fuel : ℕ) (text : Str) :
    value (fuel + 1) ('"' :: text) = (string text).map fun (s, rest) => (.string s, rest) := rfl

theorem value_array_nil (fuel : ℕ) (rest : Str) :
    value (fuel + 1) ('[' :: ']' :: rest) = some (.array [], rest) := rfl

theorem value_array {text : Str} (h : ∀ c ∈ (skip text).head?, c ≠ ']') (fuel : ℕ) :
    value (fuel + 1) ('[' :: text) =
      (elements fuel text).map fun (vs, rest) => (.array vs, rest) := by
  show (match skip text with
    | ']' :: rest => some (Value.array [], rest)
    | _ => (elements fuel text).map fun (vs, rest) => (Value.array vs, rest)) = _
  split
  case h_1 heq => exact absurd rfl (h ']' (by rw [heq]; rfl))
  case h_2 => rfl

theorem value_object_nil (fuel : ℕ) (rest : Str) :
    value (fuel + 1) ('\x7b' :: '\x7d' :: rest) = some (.object [], rest) := rfl

theorem value_object {text : Str} (h : ∀ c ∈ (skip text).head?, c ≠ '\x7d') (fuel : ℕ) :
    value (fuel + 1) ('\x7b' :: text) =
      (members fuel text).map fun (ms, rest) => (.object ms, rest) := by
  show (match skip text with
    | '\x7d' :: rest => some (Value.object [], rest)
    | _ => (members fuel text).map fun (ms, rest) => (Value.object ms, rest)) = _
  split
  case h_1 heq => exact absurd rfl (h '\x7d' (by rw [heq]; rfl))
  case h_2 => rfl

section Pieces

variable {fuel : ℕ} {text after rest : Str} {v : Value}

/-- What follows an element decides how the array goes on. -/
theorem elements_succ (hvalue : value fuel text = some (v, after)) :
    elements (fuel + 1) text = match skip after with
      | ']' :: rest => some ([v], rest)
      | ',' :: rest => (elements fuel rest).map fun (vs, rest) => (v :: vs, rest)
      | _ => none := by
  show (match value fuel text with
    | none => none
    | some (v, rest) => _) = _
  rw [hvalue]

theorem elements_last (hvalue : value fuel text = some (v, after)) (hafter : skip after = ']' :: rest) :
    elements (fuel + 1) text = some ([v], rest) := by
  rw [elements_succ hvalue, hafter]
  rfl

theorem elements_more (hvalue : value fuel text = some (v, after)) (hafter : skip after = ',' :: rest) :
    elements (fuel + 1) text = (elements fuel rest).map fun (vs, rest) => (v :: vs, rest) := by
  rw [elements_succ hvalue, hafter]
  rfl

variable {member colon key : Str}

theorem members_succ (htext : skip text = '"' :: member) (hkey : string member = some (key, ':' :: colon))
    (hvalue : value fuel colon = some (v, after)) :
    members (fuel + 1) text = match skip after with
      | '\x7d' :: rest => some ([(key, v)], rest)
      | ',' :: rest => (members fuel rest).map fun (ms, rest) => ((key, v) :: ms, rest)
      | _ => none := by
  rw [members, htext]
  simp only [hkey, skip_cons (show isSpace ':' = false from rfl), hvalue]

theorem members_last (htext : skip text = '"' :: member) (hkey : string member = some (key, ':' :: colon))
    (hvalue : value fuel colon = some (v, after)) (hafter : skip after = '\x7d' :: rest) :
    members (fuel + 1) text = some ([(key, v)], rest) := by
  rw [members_succ htext hkey hvalue, hafter]
  rfl

theorem members_more (htext : skip text = '"' :: member) (hkey : string member = some (key, ':' :: colon))
    (hvalue : value fuel colon = some (v, after)) (hafter : skip after = ',' :: rest) :
    members (fuel + 1) text =
      (members fuel rest).map fun (ms, rest) => ((key, v) :: ms, rest) := by
  rw [members_succ htext hkey hvalue, hafter]
  rfl

end Pieces

/-! ### Numerals -/

/-- Nothing that would go on with a number. -/
def Ends (rest : Str) : Prop :=
  ∀ c ∈ rest.head?, c.isDigit = false ∧ c ≠ '.' ∧ c ≠ 'e' ∧ c ≠ 'E'

/-- The numeral of a number: digits, without a zero in front unless it is the only one. -/
structure Numeral (ds : Str) (n : ℕ) : Prop where
  isDigit : ∀ c ∈ ds, c.isDigit = true
  nonempty : ds ≠ []
  noZero : ds.head? = some '0' → ds = ['0']
  value : ofDigits ds = n

theorem whole_append {ds : Str} {n : ℕ} (h : Numeral ds n) {rest : Str} (hrest : Ends rest) :
    whole (ds ++ rest) = some (ds, rest) := by
  have hstop : ∀ c ∈ rest.head?, c.isDigit = false := fun c hc => (hrest c hc).1
  have hdigits : digits (ds ++ rest) = some (ds, rest) := by
    rw [digits, Decimal.takeWhile_append_of_stop h.isDigit hstop,
      Decimal.dropWhile_append_of_stop h.isDigit hstop]
    exact if_neg h.nonempty
  rw [whole, hdigits]
  exact if_neg fun hzero => hzero.2 (h.noZero hzero.1)

theorem fraction_of_ends {rest : Str} (h : Ends rest) : fraction rest = some (none, rest) := by
  cases rest with
  | nil => rfl
  | cons c rest =>
    unfold fraction
    split
    case h_1 rest' heq =>
      obtain ⟨rfl, -⟩ := List.cons.inj heq
      exact absurd rfl (h '.' rfl).2.1
    case h_2 => rfl

theorem exponent_of_ends {rest : Str} (h : Ends rest) : exponent rest = some (none, rest) := by
  cases rest with
  | nil => rfl
  | cons c rest =>
    obtain ⟨-, -, hlower, hupper⟩ := h c rfl
    exact if_neg (not_or.mpr ⟨hlower, hupper⟩)

theorem takeMinus_of_digit {c : Char} (h : c.isDigit = true) (text : Str) :
    takeMinus (c :: text) = (false, c :: text) := by
  unfold takeMinus
  split
  case h_1 rest heq =>
    obtain ⟨rfl, -⟩ := List.cons.inj heq
    exact absurd h (by decide)
  case h_2 => rfl

/-- A whole number with or without a sign, in front of what ends it. -/
theorem number_whole (negative : Bool) {ds : Str} {n : ℕ} (h : Numeral ds n) {rest : Str}
    (hrest : Ends rest) :
    number ((if negative then ['-'] else []) ++ (ds ++ rest)) = some (ofWhole negative n, rest) := by
  have hminus : takeMinus ((if negative then ['-'] else []) ++ (ds ++ rest)) =
      (negative, ds ++ rest) := by
    cases negative with
    | true => rfl
    | false =>
      cases hds : ds with
      | nil => exact absurd hds h.nonempty
      | cons c ds => exact takeMinus_of_digit (h.isDigit c (hds ▸ List.mem_cons_self)) (ds ++ rest)
  simp only [number, hminus, whole_append h hrest, fraction_of_ends hrest, exponent_of_ends hrest,
    Option.bind_eq_bind, Option.bind_some]
  show some (ofWhole negative (ofDigits ds), rest) = _
  rw [h.value]

/-- What neither opens a string, an array or an object is a name or a number. -/
theorem value_scalar {c : Char} (hspace : isSpace c = false) (hquote : c ≠ '"') (hbracket : c ≠ '[')
    (hbrace : c ≠ '\x7b') (fuel : ℕ) (text : Str) :
    value (fuel + 1) (c :: text) = scalar (c :: text) := by
  rw [value, skip_cons hspace]
  split
  case h_1 heq => exact absurd (List.cons.inj heq).1 hquote
  case h_2 heq => exact absurd (List.cons.inj heq).1 hbracket
  case h_3 heq => exact absurd (List.cons.inj heq).1 hbrace
  case h_4 => rfl

/-- A number starts with a digit or a sign, and no name does. -/
theorem scalar_number {c : Char} (h : c = '-' ∨ c.isDigit = true) (text : Str) :
    scalar (c :: text) = (number (c :: text)).map fun (n, rest) => (.number n, rest) := by
  have hname : ∀ first : Char, ∀ more : Str, first ≠ '-' → first.isDigit = false →
      (first :: more).isPrefixOf? (c :: text) = none := by
    intro first more hminus hdigit
    have hne : first ≠ c := by
      rintro rfl
      rcases h with h | h
      · exact hminus h
      · rw [h] at hdigit
        cases hdigit
    rw [List.isPrefixOf?, if_neg (by simpa using hne)]
  have hnull : "null".toList.isPrefixOf? (c :: text) = none :=
    hname 'n' ['u', 'l', 'l'] (by decide) (by decide)
  have htrue : "true".toList.isPrefixOf? (c :: text) = none :=
    hname 't' ['r', 'u', 'e'] (by decide) (by decide)
  have hfalse : "false".toList.isPrefixOf? (c :: text) = none :=
    hname 'f' ['a', 'l', 's', 'e'] (by decide) (by decide)
  simp only [scalar, hnull, htrue, hfalse]

end Json
