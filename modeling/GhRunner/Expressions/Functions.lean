import GhRunner.Expressions.Coercion
import GhRunner.Expressions.Parser

namespace GhRunner.Expressions

open Text Traced

/-!
# Built-in functions

`crates/expressions/src/functions/builtins.rs`, `format.rs`, `json_convert.rs`, `validation.rs`.

* `Platform` — what is computed outside of the expression language;
* `Builtin`, `validateArity` — the functions by their names, and how many arguments each takes;
* `parseFormat`, `render` — format strings, whose arguments are asked for when they are met first;
* `writeJson`, `fnFromJson` — JSON;
* `callFunction` — a function of values.
-/

/-- The standard library's Unicode tables, the JSON parser, hashing files, and how a token prints in
    an error. -/
structure Platform where
  toUppercase : Char → List Char
  /-- The parsed text, its numbers as `f64`. -/
  fromStr : Str → Except RunnerError ExprValue
  hashFiles : Str → List Str → Except RunnerError Str
  debug : Token → Str

/-- What an expression may read. -/
structure SharedContext where
  contexts : HashMap SharedValue
  jobStatus : JobStatus
  workspace : Option Str

/-! ### Names and arities -/

inductive Builtin
  | success
  | failure
  | always
  | cancelled
  | contains
  | startsWith
  | endsWith
  | format
  | case
  | join
  | toJson
  | fromJson
  | hashFiles
deriving DecidableEq, Repr

namespace Builtin

def name : Builtin → Str
  | success => "success".toList
  | failure => "failure".toList
  | always => "always".toList
  | cancelled => "cancelled".toList
  | contains => "contains".toList
  | startsWith => "startswith".toList
  | endsWith => "endswith".toList
  | format => "format".toList
  | case => "case".toList
  | join => "join".toList
  | toJson => "tojson".toList
  | fromJson => "fromjson".toList
  | hashFiles => "hashfiles".toList

def all : List Builtin :=
  [success, failure, always, cancelled, contains, startsWith, endsWith, format, case, join, toJson,
    fromJson, hashFiles]

/-- Function name matching is case-insensitive. -/
def ofName (name : Str) : Option Builtin :=
  all.find? fun builtin => name.map Char.toLower = builtin.name

/-- The least and the greatest number of arguments. -/
def arity : Builtin → ℕ × ℕ
  | case => (3, 255)
  | contains | startsWith | endsWith => (2, 2)
  | format | hashFiles => (1, 255)
  | join => (1, 2)
  | toJson | fromJson => (1, 1)
  | success | failure | cancelled | always => (0, 0)

end Builtin

def decimalText (n : ℕ) : Str := (toString n).toList

def unknownFunction (name : Str) : RunnerError := .expression ("unknown function: ".toList ++ name)

def validateArity (name : Str) (count : ℕ) : Except RunnerError Unit :=
  match Builtin.ofName name with
  | none => .error (unknownFunction name)
  | some builtin =>
    let (min, max) := builtin.arity
    if count < min ∨ max < count then
      .error (.expression (name ++ " expects ".toList ++ decimalText min ++ "..=".toList ++
        decimalText max ++ " arguments, got ".toList ++ decimalText count))
    else if builtin = .case ∧ count % 2 = 0 then
      .error (.expression "case expects an odd number of arguments".toList)
    else .ok ()

theorem validateArity_eq_ok_iff {name : Str} {count : ℕ} :
    validateArity name count = .ok () ↔ ∃ builtin, Builtin.ofName name = some builtin ∧
      builtin.arity.1 ≤ count ∧ count ≤ builtin.arity.2 ∧ ¬ (builtin = .case ∧ count % 2 = 0) := by
  unfold validateArity
  cases Builtin.ofName name with
  | none => simp
  | some builtin =>
    dsimp only
    split
    case isTrue hout =>
      simp only [reduceCtorEq, Option.some.injEq, exists_eq_left', false_iff]
      omega
    case isFalse hin =>
      split
      case isTrue heven => simp [heven]
      case isFalse hodd =>
        simp only [Option.some.injEq, exists_eq_left', true_iff]
        exact ⟨by omega, by omega, hodd⟩

/-! ### Format strings -/

inductive Segment
  | text (text : Str)
  | argument (index : ℕ) (invalidSpecifier : Bool)
deriving DecidableEq, Repr

def invalidFormat (message : Str) : RunnerError := .expression ("format: ".toList ++ message)

/-- Behind a colon: whether anything stands before the closing brace, and what is left. -/
def formatSpecifier (nonempty : Bool) : Str → Option (Bool × Str)
  | '}' :: '}' :: rest => formatSpecifier true rest
  | '}' :: rest => some (nonempty, rest)
  | _ :: rest => formatSpecifier true rest
  | [] => none

/-- The index of an argument, as a `u8`. -/
def formatIndex (digits : Str) : Except RunnerError ℕ :=
  if digits = [] then
    .error (invalidFormat "invalid argument index: cannot parse integer from empty string".toList)
  else if 256 ≤ Binary64.ofDigits digits then
    .error (invalidFormat
      "invalid argument index: number too large to fit in target type".toList)
  else .ok (Binary64.ofDigits digits)

/-- What follows an argument's index: a specifier or none, and the closing brace. -/
def formatEnd : Str → Except RunnerError (Bool × Str)
  | '}' :: rest => .ok (false, rest)
  | ':' :: rest =>
    match formatSpecifier false rest with
    | some ending => .ok ending
    | none => .error (invalidFormat "unclosed format specifier".toList)
  | _ => .error (invalidFormat "unclosed or invalid placeholder".toList)

/-- A placeholder behind its opening brace. -/
def formatArgument (count : ℕ) (chars : Str) : Except RunnerError (Segment × Str) := do
  let index ← formatIndex (chars.takeWhile Char.isDigit)
  if count ≤ index then .error (invalidFormat "argument index out of range".toList)
  else do
    let ending ← formatEnd (chars.dropWhile Char.isDigit)
    .ok (.argument index ending.1, ending.2)

/-- The segments of a template behind the given text; every round takes a character. -/
def parseFormatLoop (count : ℕ) : ℕ → Str → Str → Except RunnerError (List Segment)
  | 0, text, _ => .ok [.text text]
  | fuel + 1, text, chars =>
    match chars with
    | [] => .ok [.text text]
    | ch :: rest =>
      if ch ≠ '{' ∧ ch ≠ '}' then parseFormatLoop count fuel (text ++ [ch]) rest
      else if rest.head? = some ch then parseFormatLoop count fuel (text ++ [ch]) rest.tail
      else if ch = '}' then .error (invalidFormat "unmatched closing brace".toList)
      else do
        let argument ← formatArgument count rest
        let segments ← parseFormatLoop count fuel [] argument.2
        .ok (.text text :: argument.1 :: segments)

def parseFormat (template : Str) (count : ℕ) : Except RunnerError (List Segment) :=
  parseFormatLoop count (template.length + 1) [] template

theorem length_formatSpecifier {nonempty : Bool} {chars : Str} {ending : Bool × Str}
    (h : formatSpecifier nonempty chars = some ending) : ending.2.length < chars.length := by
  fun_induction formatSpecifier nonempty chars with
  | case1 nonempty rest ih => exact (ih h).trans (by simp only [List.length_cons]; omega)
  | case2 nonempty rest =>
    obtain rfl := Option.some.inj h
    exact Nat.lt_succ_self _
  | case3 nonempty c rest _ _ ih => exact (ih h).trans (Nat.lt_succ_self _)
  | case4 => cases h

theorem length_formatEnd {chars : Str} {ending : Bool × Str} (h : formatEnd chars = .ok ending) :
    ending.2.length < chars.length := by
  unfold formatEnd at h
  split at h
  case h_1 rest =>
    obtain rfl := Except.ok.inj h
    exact Nat.lt_succ_self _
  case h_2 rest =>
    split at h
    case h_1 ending' hending =>
      obtain rfl := Except.ok.inj h
      exact (length_formatSpecifier hending).trans (Nat.lt_succ_self _)
    case h_2 => cases h
  case h_3 => cases h

theorem length_formatArgument {count : ℕ} {chars : Str} {argument : Segment × Str}
    (h : formatArgument count chars = .ok argument) : argument.2.length < chars.length := by
  unfold formatArgument at h
  cases hindex : formatIndex (chars.takeWhile Char.isDigit) with
  | error e =>
    rw [hindex] at h
    cases h
  | ok index =>
    rw [hindex] at h
    change (if count ≤ index then _ else _) = _ at h
    split at h
    case isTrue => cases h
    case isFalse =>
      cases hend : formatEnd (chars.dropWhile Char.isDigit) with
      | error e =>
        rw [hend] at h
        cases h
      | ok ending =>
        rw [hend] at h
        obtain rfl := Except.ok.inj h
        exact (length_formatEnd hend).trans_le (List.length_dropWhile_le _ _)

/-- Rounds beyond the length of the template change nothing. -/
theorem parseFormatLoop_fuel {count fuel fuel' : ℕ} {text chars : Str}
    (hfuel : chars.length < fuel) (hfuel' : chars.length < fuel') :
    parseFormatLoop count fuel text chars = parseFormatLoop count fuel' text chars := by
  induction fuel generalizing fuel' text chars with
  | zero => omega
  | succ fuel ih =>
    obtain ⟨fuel', rfl⟩ : ∃ k, fuel' = k + 1 := ⟨fuel' - 1, by omega⟩
    cases chars with
    | nil => rfl
    | cons ch rest =>
      rw [List.length_cons] at hfuel hfuel'
      have htail : rest.tail.length ≤ rest.length := by
        rw [List.length_tail]
        omega
      rw [parseFormatLoop, parseFormatLoop]
      split
      · exact ih (by omega) (by omega)
      · split
        · exact ih (by omega) (by omega)
        · split
          · rfl
          · cases hargument : formatArgument count rest with
            | error e => rfl
            | ok argument =>
              have hshort := length_formatArgument hargument
              show (parseFormatLoop count fuel [] argument.2 >>= _) =
                (parseFormatLoop count fuel' [] argument.2 >>= _)
              rw [ih (by omega) (by omega : argument.2.length < fuel')]

section Render

variable (argument : ℕ → Except RunnerError SharedValue)

/-- The texts and the arguments' values behind each other; an argument whose value is not known yet
    is noted and asked for. -/
def renderSegments : List (Option Str) → List Segment → Str → Traced RunnerError ℕ Str
  | _, [], result => pure result
  | cache, .text text :: segments, result => renderSegments cache segments (result ++ text)
  | cache, .argument index invalidSpecifier :: segments, result =>
    match cache[index]? with
    | none => lift (.error (invalidFormat "index out of range".toList))
    | some cached => do
      let value ←
        (match cached with
          | some value => pure value
          | none => ⟨(argument index).map SharedValue.coerceToString, [index]⟩ :
          Traced RunnerError ℕ Str)
      if invalidSpecifier then
        lift (.error (invalidFormat "unsupported format specifier".toList))
      else renderSegments (cache.set index (some value)) segments (result ++ value)

/-- Render a format string, asking for each argument that it refers to once. -/
def render (template : Str) (count : ℕ) : Traced RunnerError ℕ Str := do
  let segments ← lift (parseFormat template count)
  renderSegments argument (List.replicate count none) segments []

end Render

/-! ### JSON -/

def hexDigit (n : ℕ) : Char := if n < 10 then Char.ofNat (48 + n) else Char.ofNat (87 + n)

/-- A character of a JSON string. -/
def escapeJsonChar (c : Char) : Str :=
  if c = '"' then "\\\"".toList
  else if c = '\\' then "\\\\".toList
  else if c = '\x08' then "\\b".toList
  else if c = '\x0C' then "\\f".toList
  else if c = '\n' then "\\n".toList
  else if c = '\r' then "\\r".toList
  else if c = '\t' then "\\t".toList
  else if c.toNat < 32 then "\\u00".toList ++ [hexDigit (c.toNat / 16), hexDigit (c.toNat % 16)]
  else [c]

def jsonString (s : Str) : Str := '"' :: (s.flatMap escapeJsonChar ++ ['"'])

def jsonNewline (depth : ℕ) (comma : Bool) : Str :=
  (if comma then [','] else []) ++ '\n' :: (List.replicate depth "  ".toList).flatten

mutual

def writeJson (depth : ℕ) : SharedValue → Str
  | .null => "null".toList
  | .bool b => (SharedValue.bool b).coerceToString
  | .number n => (SharedValue.number n).coerceToString
  | .string s => jsonString s
  | .array _ _ values =>
    '[' :: (writeJsonValues depth false values ++
      (if values.isEmpty then [] else jsonNewline depth false) ++ [']'])
  | .object _ entries =>
    '{' :: (writeJsonEntries depth false entries ++
      (if entries.isEmpty then [] else jsonNewline depth false) ++ ['}'])

def writeJsonValues (depth : ℕ) (comma : Bool) : List SharedValue → Str
  | [] => []
  | value :: values =>
    jsonNewline (depth + 1) comma ++ writeJson (depth + 1) value ++
      writeJsonValues depth true values

def writeJsonEntries (depth : ℕ) (comma : Bool) : List (Str × SharedValue) → Str
  | [] => []
  | (key, value) :: entries =>
    jsonNewline (depth + 1) comma ++ jsonString key ++ ": ".toList ++ writeJson (depth + 1) value ++
      writeJsonEntries depth true entries

end

/-! ### The functions -/

def wrongCount (name : String) (expected : String) (count : ℕ) : RunnerError :=
  .expression (name.toList ++ " expects ".toList ++ expected.toList ++ ", got ".toList ++
    decimalText count)

def fnToJson : List SharedValue → Except RunnerError SharedValue
  | [value] => .ok (.string (writeJson 0 value))
  | args => .error (wrongCount "toJSON" "1 arg" args.length)

section Functions

variable (platform : Platform) (ctx : SharedContext)

/-- `ref` is for the arrays and objects of the parsed value. -/
def fnFromJson (ref : List ℕ → Ref) : List SharedValue → Except RunnerError SharedValue
  | [value] =>
    if value.coerceToString = [] then
      .error (.expression "fromJSON: empty string is not valid JSON".toList)
    else (platform.fromStr value.coerceToString).map (SharedValue.ofExprValue ref [])
  | args => .error (wrongCount "fromJSON" "1 arg" args.length)

def fnHashFiles (args : List SharedValue) : Except RunnerError SharedValue :=
  if args = [] then .error (.expression "hashFiles expects at least 1 argument".toList)
  else
    match ctx.workspace with
    | none => .error (.expression "hashFiles is unavailable outside a job workspace".toList)
    | some workspace =>
      (platform.hashFiles workspace (args.map SharedValue.coerceToString)).map .string

def fnContains : List SharedValue → Except RunnerError SharedValue
  | [search, item] =>
    match search with
    | .array _ _ values => .ok (.bool (values.any fun el => el.looseEq platform.toUppercase item))
    | .object _ _ => .ok (.bool false)
    | search =>
      if item.isPrimitive then
        .ok (.bool (ordinalUpper platform.toUppercase item.coerceToString <:+:
          ordinalUpper platform.toUppercase search.coerceToString))
      else .ok (.bool false)
  | args => .error (wrongCount "contains" "2 args" args.length)

def fnStartsWith : List SharedValue → Except RunnerError SharedValue
  | [a, b] =>
    .ok (.bool (a.isPrimitive && b.isPrimitive &&
      (ordinalUpper platform.toUppercase b.coerceToString).isPrefixOf
        (ordinalUpper platform.toUppercase a.coerceToString)))
  | args => .error (wrongCount "startsWith" "2 args" args.length)

def fnEndsWith : List SharedValue → Except RunnerError SharedValue
  | [a, b] =>
    .ok (.bool (a.isPrimitive && b.isPrimitive &&
      (ordinalUpper platform.toUppercase b.coerceToString).isSuffixOf
        (ordinalUpper platform.toUppercase a.coerceToString)))
  | args => .error (wrongCount "endsWith" "2 args" args.length)

def fnFormat : List SharedValue → Except RunnerError SharedValue
  | [] => .error (.expression "format requires an argument".toList)
  | template :: args =>
    (render (fun index =>
      match args[index]? with
      | some value => .ok value
      | none => .error (.expression "format argument out of range".toList))
      template.coerceToString args.length).result.map .string

def casePredicateError : RunnerError :=
  .expression "case predicate must evaluate to a boolean".toList

/-- The pairs of a predicate and a result, and what is left when none holds. -/
def fnCaseLoop (last : Except RunnerError SharedValue) :
    List SharedValue → Except RunnerError SharedValue
  | predicate :: result :: rest =>
    match predicate with
    | .bool true => .ok result
    | .bool false => fnCaseLoop last rest
    | _ => .error casePredicateError
  | _ => last

def fnCase (args : List SharedValue) : Except RunnerError SharedValue :=
  fnCaseLoop
    (match args.getLast? with
      | some value => .ok value
      | none => .error (.expression "case missing default".toList)) args

/-- The separator stands between the values of an array. -/
def fnJoin : List SharedValue → Except RunnerError SharedValue
  | first :: rest =>
    if 1 < rest.length then .error (.expression "join expects 1-2 arguments".toList)
    else
      let separator :=
        match rest with
        | value :: _ => if value.isPrimitive then value.coerceToString else ",".toList
        | [] => ",".toList
      match first with
      | .array _ _ values =>
        .ok (.string (separator.intercalate (values.map SharedValue.coerceToString)))
      | .object _ _ => .ok (.string [])
      | first => .ok (.string first.coerceToString)
  | [] => .error (.expression "join expects 1-2 arguments".toList)

/-- Call a built-in function; `ref` is for the arrays and objects that it builds. -/
def callFunction (ref : List ℕ → Ref) (name : Str) (args : List SharedValue) :
    Except RunnerError SharedValue := do
  validateArity name args.length
  match Builtin.ofName name with
  | none => .error (unknownFunction name)
  | some .success => .ok (.bool (ctx.jobStatus = .success))
  | some .failure => .ok (.bool (ctx.jobStatus = .failure))
  | some .always => .ok (.bool true)
  | some .cancelled => .ok (.bool (ctx.jobStatus = .cancelled))
  | some .contains => fnContains platform args
  | some .startsWith => fnStartsWith platform args
  | some .endsWith => fnEndsWith platform args
  | some .format => fnFormat args
  | some .case => fnCase args
  | some .join => fnJoin args
  | some .toJson => fnToJson args
  | some .fromJson => fnFromJson platform ref args
  | some .hashFiles => fnHashFiles platform ctx args

end Functions

end GhRunner.Expressions
