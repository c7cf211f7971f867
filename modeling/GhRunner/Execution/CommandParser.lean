import GhRunner.Lib.Percent
import GhRunner.Execution.FileCommands

namespace GhRunner.Execution

open Text

/-!
# Workflow commands

A line of a step's output that is a command (`crates/execution/src/execution/command_parser.rs`), and
the two ways its texts are unescaped (`command_dispatch.rs`).

* `parseCommand` — `::name key=value,…::data` as the command it is;
* `normalizedRange` — the lines and columns an annotation ends up with;
* `unescapeData`, `unescapeProperty` — the codes that are put back;
* `rangeOf_numerals` — a property that is not a number has no part in a range.
-/

/-! ### Commands -/

inductive CommandName
  | error | warning | notice | addMatcher | removeMatcher | debug | group | endgroup | setOutput
  | addMask | saveState | addPath | setEnv | echo | stopCommands
deriving DecidableEq, Repr

def CommandName.text : CommandName → Str
  | .error => "error".toList
  | .warning => "warning".toList
  | .notice => "notice".toList
  | .addMatcher => "add-matcher".toList
  | .removeMatcher => "remove-matcher".toList
  | .debug => "debug".toList
  | .group => "group".toList
  | .endgroup => "endgroup".toList
  | .setOutput => "set-output".toList
  | .addMask => "add-mask".toList
  | .saveState => "save-state".toList
  | .addPath => "add-path".toList
  | .setEnv => "set-env".toList
  | .echo => "echo".toList
  | .stopCommands => "stop-commands".toList

def CommandName.all : List CommandName :=
  [.error, .warning, .notice, .addMatcher, .removeMatcher, .debug, .group, .endgroup, .setOutput,
    .addMask, .saveState, .addPath, .setEnv, .echo, .stopCommands]

/-- The arm of the parser's match that a name falls into. -/
def commandName (name : Str) : Option CommandName := CommandName.all.find? fun n => n.text = name

structure AnnotationFields where
  message : Str
  file : Option Str
  line : Option ℤ
  col : Option ℤ
  endLine : Option ℤ
  endColumn : Option ℤ
  title : Option Str
deriving DecidableEq, Repr

inductive WorkflowCommand
  | error (fields : AnnotationFields)
  | warning (fields : AnnotationFields)
  | notice (fields : AnnotationFields)
  | addMatcher (path : Str)
  | removeMatcher (owner : Option Str) (path : Str)
  | debug (message : Str)
  | group (title : Str)
  | endGroup
  | setOutput (name value : Str)
  | addMask (value : Str)
  | saveState (name value : Str)
  | addPath (value : Str)
  | setEnv (name value : Str)
  | echo (on : Bool)
  | stopCommands (token : Str)
  /-- The parser never makes one. -/
  | resumeCommands (token : Str)
deriving DecidableEq, Repr

/-! ### Ranges -/

/-- A decimal number of at most 32 bits with an optional sign. -/
def parseI32 (s : Str) : Option ℤ :=
  let (negative, digits) :=
    match s with
    | '-' :: digits => (true, digits)
    | '+' :: digits => (false, digits)
    | digits => (false, digits)
  if digits = [] ∨ digits.all Char.isDigit = false then none
  else
    let n : ℤ := digits.foldl (fun n d => 10 * n + (d.toNat - '0'.toNat)) 0
    let n := if negative then -n else n
    if -2 ^ 31 ≤ n ∧ n < 2 ^ 31 then some n else none

structure Range where
  line : Option ℤ
  col : Option ℤ
  endLine : Option ℤ
  endColumn : Option ℤ
deriving DecidableEq, Repr

/-- Both ends are there, the wrong way round. -/
def backwards : Option ℤ → Option ℤ → Bool
  | some first, some last => decide (last < first)
  | _, _ => false

/-- The range that the four texts make, an end that is missing being the start. -/
def rangeOf (startLineRaw endLineRaw colRaw endColumnRaw : Option Str) : Range :=
  let startLine := startLineRaw.bind parseI32
  let endLine := endLineRaw.bind parseI32
  let col := colRaw.bind parseI32
  let endColumn := endColumnRaw.bind parseI32
  let line := if endLine.isSome ∧ startLine.isNone then endLine else startLine
  let col := if endColumn.isSome ∧ col.isNone then endColumn else col
  let (col, endColumn) := if line.isNone then (none, none) else (col, endColumn)
  -- columns count within one line: the two lines are compared as they are written
  let effectiveStartRaw := if startLine.isSome then startLineRaw else endLineRaw
  let (col, endColumn) :=
    if endLine.isSome ∧ effectiveStartRaw ≠ endLineRaw ∧ col.isSome then (none, none)
    else (col, endColumn)
  let (line, endLine) := if backwards line endLine then (none, none) else (line, endLine)
  let (col, endColumn) := if backwards col endColumn then (none, none) else (col, endColumn)
  { line := line
    col := col
    endLine := endLine.or line
    endColumn := endColumn.or col }

def normalizedRange (props : Pairs) : Range :=
  rangeOf (props.lookup "line".toList) (props.lookup "endLine".toList)
    (props.lookup "col".toList) (props.lookup "endColumn".toList)

/-! ### Parsing -/

def buildAnnotation (message : Str) (props : Pairs) : AnnotationFields :=
  let range := normalizedRange props
  { message := message
    file := props.lookup "file".toList
    line := range.line
    col := range.col
    endLine := range.endLine
    endColumn := range.endColumn
    title := props.lookup "title".toList }

/-- Data that turns echoing on; any other turns it off. -/
def isOn (value : Str) : Bool := asciiLower (trim value) = "on".toList

def commandOf (props : Pairs) (value : Str) : CommandName → WorkflowCommand
  | .error => .error ( buildAnnotation value props)
  | .warning => .warning ( buildAnnotation value props)
  | .notice => .notice ( buildAnnotation value props)
  | .addMatcher => .addMatcher value
  | .removeMatcher => .removeMatcher (props.lookup "owner".toList) value
  | .debug => .debug value
  | .group => .group value
  | .endgroup => .endGroup
  | .setOutput => .setOutput ((props.lookup "name".toList).getD []) value
  | .addMask => .addMask value
  | .saveState => .saveState ((props.lookup "name".toList).getD []) value
  | .addPath => .addPath value
  | .setEnv => .setEnv ((props.lookup "name".toList).getD []) value
  | .echo => .echo (isOn value)
  | .stopCommands => .stopCommands value

/-- A later property replaces an earlier one of its key; what has no `=` is passed over. -/
def insertProp (props : Pairs) (pair : Str) : Pairs :=
  match splitFirst ['='] pair with
  | some (key, value) => props.insert (trim key) (trim value)
  | none => props

def parseProps (propsStr : Str) : Pairs := (propsStr.splitOn ',').foldl insertProp ∅

def splitCommandAndProps (head : Str) : Str × Pairs :=
  match splitFirst [' '] head with
  | some (command, propsStr) => (command, parseProps propsStr)
  | none => (head, ∅)

/-- The name, the properties and the data of a line that begins with `::` and has another. -/
def splitCommand (line : Str) : Option (Str × Pairs × Str) := do
  let rest ← "::".toList.isPrefixOf? line
  let (head, value) ← splitFirst "::".toList rest
  let (command, props) := splitCommandAndProps head
  some (command, props, value)

def parseCommand (line : Str) : Option WorkflowCommand := do
  let (command, props, value) ← splitCommand line
  let name ← commandName command
  some (commandOf props value name)

/-! ### Unescaping -/

def decodeDataEscape (a b : Char) : Option Char :=
  match a.toUpper, b.toUpper with
  | '2', '5' => some '%'
  | '0', 'D' => some '\r'
  | '0', 'A' => some '\n'
  | _, _ => none

def decodePropertyEscape (a b : Char) : Option Char :=
  match a.toUpper, b.toUpper with
  | '3', 'A' => some ':'
  | '2', 'C' => some ','
  | _, _ => decodeDataEscape a b

def unescapeData : Str → Str := Percent.unescape decodeDataEscape

def unescapeProperty : Str → Str := Percent.unescape decodePropertyEscape

/-! ### What the parser reads -/

theorem commandName_text (n : CommandName) : commandName n.text = some n := by
  cases n <;> decide

theorem commandName_eq_some {name : Str} {n : CommandName} :
    commandName name = some n ↔ name = n.text := by
  constructor
  · intro h
    simpa [eq_comm] using List.find?_some h
  · rintro rfl
    exact commandName_text n

/-- The text of a number, and nothing of any other. -/
def numeral (raw : Str) : Option Str := if (parseI32 raw).isSome then some raw else none

theorem bind_numeral (raw : Option Str) : (raw.bind numeral).bind parseI32 = raw.bind parseI32 := by
  cases raw with
  | none => rfl
  | some raw =>
    rw [Option.bind_some, numeral]
    split
    case isTrue => rfl
    case isFalse h => exact (Option.not_isSome_iff_eq_none.mp h).symm

/-- A text that is not a number makes no difference to a range, the lines that are compared as they
    are written included. -/
theorem rangeOf_numerals (startLineRaw endLineRaw colRaw endColumnRaw : Option Str) :
    rangeOf (startLineRaw.bind numeral) (endLineRaw.bind numeral) (colRaw.bind numeral)
      (endColumnRaw.bind numeral) = rangeOf startLineRaw endLineRaw colRaw endColumnRaw := by
  have hself : ∀ raw : Option Str, (raw.bind parseI32).isSome → raw.bind numeral = raw := by
    intro raw h
    cases raw with
    | none => rfl
    | some raw => exact if_pos h
  have hcompared : ∀ P : Prop, ((endLineRaw.bind parseI32).isSome = true ∧
      (if (startLineRaw.bind parseI32).isSome then startLineRaw.bind numeral
        else endLineRaw.bind numeral) ≠ endLineRaw.bind numeral ∧ P) =
      ((endLineRaw.bind parseI32).isSome = true ∧
        (if (startLineRaw.bind parseI32).isSome then startLineRaw else endLineRaw) ≠ endLineRaw ∧
          P) := by
    intro P
    refine propext (and_congr_right fun hend => ?_)
    rw [hself endLineRaw hend]
    split
    case isTrue hstart => rw [hself startLineRaw hstart]
    case isFalse => rfl
  unfold rangeOf
  simp only [bind_numeral, hcompared]

/-- A number has no character but digits and a sign. -/
theorem of_parseI32 {raw : Str} (h : (parseI32 raw).isSome) :
    ∀ c ∈ raw, c = '-' ∨ c = '+' ∨ c.isDigit = true := by
  have hdigits : ∀ digits : Str, ¬ (digits = [] ∨ digits.all Char.isDigit = false) →
      ∀ c ∈ digits, c.isDigit = true := by
    intro digits h
    simpa using (not_or.mp h).2
  unfold parseI32 at h
  split at h
  rename_i negative digits hsplit
  split at h
  case isTrue => cases h
  case isFalse hne =>
    have hall := hdigits digits hne
    split at hsplit <;> obtain ⟨rfl, rfl⟩ := Prod.mk.inj hsplit
    · simpa using fun c hc => .inr (.inr (hall c hc))
    · simpa using fun c hc => .inr (.inr (hall c hc))
    · exact fun c hc => .inr (.inr (hall c hc))

end GhRunner.Execution
