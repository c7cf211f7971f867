import GhRunner.Expressions.Number

namespace GhRunner.Expressions

open Text Binary64

/-!
# Values as they are computed with

Arrays and objects are compared by where they were built, which a value alone does not say
(`crates/expressions/src/types.rs`, `array.rs`, `object.rs`, `access.rs`).

* `Ref`, `SharedValue` — a value with the identities of its arrays and objects;
* `SharedValue.ofExprValue`, `SharedValue.toExprValue` — with identities, and without;
* `SharedValue.isTruthy`, `coerceToString`, `coerceToNumber`, `looseEq` — the coercions;
* `ordinalCompare` — strings without regard to case;
* `access` — an index, or a wildcard.
-/

/-! ### Identity -/

/-- Where an array or an object was built.  Every node of a tree is evaluated at most once and builds
    its arrays and objects by their positions in what it returns. -/
inductive Ref
  | given (context : Str) (position : List ℕ)
  | fresh (node position : List ℕ)
deriving DecidableEq, Repr

inductive SharedValue
  | null
  | bool (b : Bool)
  | number (n : F64)
  | string (s : Str)
  /-- Later indexes project over the members of a filtered one. -/
  | array (ref : Ref) (filtered : Bool) (values : List SharedValue)
  | object (ref : Ref) (entries : List (Str × SharedValue))

namespace SharedValue

section Identities

variable (ref : List ℕ → Ref)

mutual

def ofExprValue (position : List ℕ) : ExprValue → SharedValue
  | .null => .null
  | .bool b => .bool b
  | .number n => .number n
  | .string s => .string s
  | .array values => .array (ref position) false (ofExprValues position 0 values)
  | .object entries => .object (ref position) (ofExprEntries position 0 entries)

def ofExprValues (position : List ℕ) (index : ℕ) : List ExprValue → List SharedValue
  | [] => []
  | value :: values =>
    ofExprValue (index :: position) value :: ofExprValues position (index + 1) values

def ofExprEntries (position : List ℕ) (index : ℕ) :
    List (Str × ExprValue) → List (Str × SharedValue)
  | [] => []
  | (key, value) :: entries =>
    (key, ofExprValue (index :: position) value) :: ofExprEntries position (index + 1) entries

end

end Identities

mutual

def toExprValue : SharedValue → ExprValue
  | .null => .null
  | .bool b => .bool b
  | .number n => .number n
  | .string s => .string s
  | .array _ _ values => .array (toExprValues values)
  | .object _ entries => .object (toExprEntries entries)

def toExprValues : List SharedValue → List ExprValue
  | [] => []
  | value :: values => toExprValue value :: toExprValues values

def toExprEntries : List (Str × SharedValue) → List (Str × ExprValue)
  | [] => []
  | (key, value) :: entries => (key, toExprValue value) :: toExprEntries entries

end

/-! ### Coercions -/

/-- Whether this value can be converted to an object index. -/
def isPrimitive : SharedValue → Bool
  | .array _ _ _ | .object _ _ => false
  | _ => true

def isTruthy : SharedValue → Bool
  | .null => false
  | .bool b => b
  | .number n => !(isNaN n || partialCmp n 0 = some .eq)
  | .string s => !s.isEmpty
  | .array _ _ _ | .object _ _ => true

def coerceToString : SharedValue → Str
  | .bool b => (if b then "true" else "false").toList
  | .number n => formatNumber n
  | .string s => s
  | .null => []
  | .array _ _ _ => "Array".toList
  | .object _ _ => "Object".toList

/-- The bits of one. -/
def oneBits : F64 := 0x3FF0000000000000

def coerceToNumber : SharedValue → F64
  | .null => 0
  | .bool b => if b then oneBits else 0
  | .number n => n
  | .string s => parseNumber s
  | .array _ _ _ | .object _ _ => nanBits

end SharedValue

def floatEq (a b : F64) : Bool := partialCmp a b = some .eq

/-! ### Strings without regard to case -/

section Ordinal

-- the upper case of a character, one or more, as the standard library has it
variable (toUppercase : Char → List Char)

/-- Ordinal casing uses only a mapping to a single character, and none from outside of ASCII into
    it. -/
def ordinalUpperChar (ch : Char) : Char :=
  if ch = '\u0131' ∨ ch = '\u017f' then ch
  else
    match toUppercase ch with
    | [upper] => upper
    | _ => ch

/-- A character in UTF-16. -/
def encodeUtf16 (c : Char) : List ℕ :=
  if c.toNat < 0x10000 then [c.toNat]
  else [0xD800 + (c.toNat - 0x10000) / 0x400, 0xDC00 + (c.toNat - 0x10000) % 0x400]

def ordinalUpper (s : Str) : List ℕ :=
  (s.map (ordinalUpperChar toUppercase)).flatMap encodeUtf16

def ordinalCompare (a b : Str) : Ordering :=
  compare (ordinalUpper toUppercase a) (ordinalUpper toUppercase b)

/-- GitHub Actions loose equality; arrays and objects are equal to themselves. -/
def SharedValue.looseEq : SharedValue → SharedValue → Bool
  | .null, .null => true
  | .bool a, .bool b => a = b
  | .number a, .number b => floatEq a b
  | .string a, .string b => ordinalCompare toUppercase a b = .eq
  | .array ref _ _, .array ref' _ _ => ref = ref'
  | .object ref _, .object ref' _ => ref = ref'
  | a, b => floatEq a.coerceToNumber b.coerceToNumber

/-! ### Access -/

/-- The greatest index of an array. -/
def maxIndex : ℕ := 2 ^ 31 - 1

def lookup (value index : SharedValue) : Option SharedValue :=
  match value with
  | .object _ entries =>
    if index.isPrimitive then
      (entries.find? fun entry =>
        ordinalCompare toUppercase entry.1 index.coerceToString = .eq).map (·.2)
    else none
  | .array _ _ values =>
    let number := index.coerceToNumber
    if isNaN number || isInfinite number || partialCmp number 0 = some .lt ||
        maxIndex < wholePart number then none
    else values[wholePart number]?
  | _ => none

def appendValues : SharedValue → List SharedValue
  | .array _ _ values => values
  | .object _ entries => entries.map (·.2)
  | _ => []

/-- What an index selects, or a wildcard when there is none; `ref` is for the array that it builds. -/
def access (ref : Ref) (value : SharedValue) (index : Option SharedValue) : SharedValue :=
  match value, index with
  | .array _ true values, some index =>
    .array ref true (values.filterMap fun item => lookup toUppercase item index)
  | .array _ true values, none => .array ref true (values.flatMap appendValues)
  | value, some index => (lookup toUppercase value index).getD .null
  | value, none => .array ref true (appendValues value)

end Ordinal

end GhRunner.Expressions
