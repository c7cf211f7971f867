import GhRunner.Execution.ActionRef
import GhRunner.Expressions.FormatStrings

namespace GhRunner.Execution.ShellTemplates

open Text
open Expressions (isBrace doubleBraces)

/-!
# Shell templates

`parse_shell`, `format_argument` and `ShellCommand::args` of
`crates/execution/src/execution/handlers/shell_command.rs`, over any way to split a shell string into words.

* `formatArgument`, `parseShell`, `ShellCommand.args` — as in the source, errors with their texts;
* `Reads`, `fill` — what a word of a template says, and what it is for a path;
* `formatArgument_eq_ok_iff` — the scan of a word finds what it says, whatever the path;
* `args_of_parseShell` — a template that is accepted takes every path, a word for a word.
-/

structure ScriptHandlerError where
  message : Str
deriving DecidableEq, Repr

def invalid (reason : Str) : ScriptHandlerError :=
  ⟨"invalid shell option: ".toList ++ reason ++
    "; use bash, sh, python, pwsh or a command template containing '\x7b0\x7d'".toList⟩

/-- A validated shell command, without the program that its name is resolved to. -/
structure ShellCommand where
  name : Str
  arguments : List Str
  builtinPwsh : Bool
deriving DecidableEq, Repr

/-- The loop of `format_argument`: what has been read, and whether the script field was there. -/
def formatLoop (path : Str) : Str → Bool → Str → Except ScriptHandlerError (Str × Bool)
  | result, hasPath, [] => .ok (result, hasPath)
  | result, hasPath, '\x7b' :: '\x7b' :: chars => formatLoop path (result ++ ['\x7b']) hasPath chars
  | result, _, '\x7b' :: '0' :: '\x7d' :: chars => formatLoop path (result ++ path) true chars
  | _, _, '\x7b' :: _ => .error (invalid "unsupported or unmatched format field".toList)
  | result, hasPath, '\x7d' :: '\x7d' :: chars => formatLoop path (result ++ ['\x7d']) hasPath chars
  | _, _, '\x7d' :: _ => .error (invalid "unmatched closing brace".toList)
  | result, hasPath, ch :: chars => formatLoop path (result ++ [ch]) hasPath chars

/-- Interpret only the script field and escaped literal braces, never shell code. -/
def formatArgument (template path : Str) : Except ScriptHandlerError (Str × Bool) :=
  formatLoop path [] false template

/-- The words behind the name of a shell that is given alone. -/
def builtinTemplate (name : Str) : Option Str :=
  let name := asciiLower name
  if name = "bash".toList then some "--noprofile --norc -e -o pipefail \x7b0\x7d".toList
  else if name = "sh".toList then some "-e \x7b0\x7d".toList
  else if name = "python".toList then some "\x7b0\x7d".toList
  else if name = "pwsh".toList then some "-command \". '\x7b0\x7d'\"".toList
  else none

/-- Whether one of the arguments has the script field; all of them are looked at. -/
def validate : Bool → List Str → Except ScriptHandlerError Bool
  | hasPath, [] => .ok hasPath
  | hasPath, argument :: arguments => do
    let (_, here) ← formatArgument argument []
    validate (hasPath || here) arguments

section Parse

variable (split : Str → Option (List Str))

/-- The words of the template, those of a built-in one if the name stands alone. -/
def templateWords (name : Str) : List Str → Except ScriptHandlerError (List Str)
  | word :: words => .ok (word :: words)
  | [] =>
    match builtinTemplate name with
    | none => .error (invalid "unknown shell without a template".toList)
    | some template =>
      match split template with
      | none => .error (invalid "invalid built-in template".toList)
      | some arguments => .ok arguments

def parseShell (shell : Str) : Except ScriptHandlerError ShellCommand :=
  if '\x00' ∈ shell then .error (invalid "NUL is not permitted".toList)
  else
    match split shell with
    | none => .error (invalid "unterminated quote or escape".toList)
    | some [] | some ([] :: _) => .error (invalid "empty executable".toList)
    | some (name :: words) => do
      let builtinPwsh := words.isEmpty && asciiLower name = "pwsh".toList
      let arguments ← templateWords split name words
      let hasPath ← validate false arguments
      if hasPath then .ok ⟨name, arguments, builtinPwsh⟩
      else .error (invalid "template is missing \x7b0\x7d".toList)

end Parse

/-- Every single quote doubled. -/
def doubleQuotes (path : Str) : Str := path.flatMap fun c => if c = '\'' then [c, c] else [c]

/-- Produce argv while keeping substituted paths inside their original argument. -/
def ShellCommand.args (command : ShellCommand) (path : Str) : Except ScriptHandlerError (List Str) :=
  let path := if command.builtinPwsh then doubleQuotes path else path
  command.arguments.mapM fun argument => (formatArgument argument path).map Prod.fst

/-! ### What a word says -/

/-- The characters that a word stands for, and nothing for each of its script fields. -/
inductive Reads : Str → List (Option Char) → Prop
  | nil : Reads [] []
  | opening {chars said} (h : Reads chars said) : Reads ('\x7b' :: '\x7b' :: chars) (some '\x7b' :: said)
  | closing {chars said} (h : Reads chars said) : Reads ('\x7d' :: '\x7d' :: chars) (some '\x7d' :: said)
  | field {chars said} (h : Reads chars said) : Reads ('\x7b' :: '0' :: '\x7d' :: chars) (none :: said)
  | plain {c chars said} (hc : isBrace c = false) (h : Reads chars said) : Reads (c :: chars) (some c :: said)

/-- The word for a path. -/
def fill (path : Str) (said : List (Option Char)) : Str :=
  said.flatMap fun
    | some c => [c]
    | none => path

def hasField (said : List (Option Char)) : Bool := said.any Option.isNone

section Words

variable {template path chars : Str} {said : List (Option Char)}

theorem formatLoop_plain {c : Char} (hc : isBrace c = false) (result : Str) (hasPath : Bool) (chars : Str) :
    formatLoop path result hasPath (c :: chars) = formatLoop path (result ++ [c]) hasPath chars := by
  have hbrace : c ≠ '\x7b' ∧ c ≠ '\x7d' := by simpa [isBrace] using hc
  rw [formatLoop] <;> grind

theorem formatLoop_of_reads (h : Reads chars said) (path result : Str) (hasPath : Bool) :
    formatLoop path result hasPath chars = .ok (result ++ fill path said, hasPath || hasField said) := by
  induction h generalizing result hasPath with
  | nil =>
    show Except.ok (result, hasPath) = _
    simp [fill, hasField]
  | opening h ih =>
    refine (ih (result ++ ['\x7b']) hasPath).trans ?_
    simp [fill, hasField]
  | closing h ih =>
    refine (ih (result ++ ['\x7d']) hasPath).trans ?_
    simp [fill, hasField]
  | field h ih =>
    refine (ih (result ++ path) true).trans ?_
    simp [fill, hasField]
  | plain hc h ih =>
    rw [formatLoop_plain hc, ih]
    simp [fill, hasField]

theorem reads_of_formatLoop {result : Str} {hasPath : Bool} {r : Str × Bool}
    (h : formatLoop path result hasPath chars = .ok r) : ∃ said, Reads chars said := by
  fun_induction formatLoop path result hasPath chars with
  | case1 => exact ⟨[], .nil⟩
  | case2 result hasPath chars ih =>
    obtain ⟨said, hsaid⟩ := ih h
    exact ⟨_, hsaid.opening⟩
  | case3 result hasPath chars ih =>
    obtain ⟨said, hsaid⟩ := ih h
    exact ⟨_, hsaid.field⟩
  | case4 => cases h
  | case5 result hasPath chars ih =>
    obtain ⟨said, hsaid⟩ := ih h
    exact ⟨_, hsaid.closing⟩
  | case6 => cases h
  | case7 result hasPath c chars h1 h2 h3 h4 h5 ih =>
    obtain ⟨said, hsaid⟩ := ih h
    refine ⟨_, hsaid.plain ?_⟩
    rw [isBrace, Bool.or_eq_false_iff]
    exact ⟨decide_eq_false h3, decide_eq_false h5⟩

/-- A word is taken exactly if it can be read, and then whatever the path. -/
theorem formatArgument_eq_ok_iff {r : Str × Bool} :
    formatArgument template path = .ok r ↔ ∃ said, Reads template said ∧ r = (fill path said, hasField said) := by
  constructor
  · intro h
    obtain ⟨said, hsaid⟩ := reads_of_formatLoop h
    refine ⟨said, hsaid, ?_⟩
    rw [formatArgument, formatLoop_of_reads hsaid] at h
    exact (Except.ok.inj h).symm
  · rintro ⟨said, hsaid, rfl⟩
    exact formatLoop_of_reads hsaid path [] false

theorem reads_doubleBraces (word : Str) : Reads (doubleBraces word) (word.map some) := by
  induction word with
  | nil => exact .nil
  | cons c word ih =>
    by_cases hc : isBrace c = true
    · have hdouble : doubleBraces (c :: word) = c :: c :: doubleBraces word := by
        simp [doubleBraces, hc]
      rw [hdouble]
      rcases (by simpa [isBrace] using hc : c = '\x7b' ∨ c = '\x7d') with rfl | rfl
      · exact ih.opening
      · exact ih.closing
    · have hsingle : doubleBraces (c :: word) = c :: doubleBraces word := by
        simp [doubleBraces, hc]
      rw [hsingle]
      exact ih.plain (by simpa using hc)

theorem fill_map_some (path word : Str) : fill path (word.map some) = word := by
  induction word with
  | nil => rfl
  | cons c word ih => exact congrArg (c :: ·) ih

theorem infix_fill (h : none ∈ said) (path : Str) : path <:+: fill path said := by
  obtain ⟨before, after, rfl⟩ := List.append_of_mem h
  rw [fill, List.flatMap_append, List.flatMap_cons]
  exact ⟨_, _, List.append_assoc _ _ _⟩

theorem hasField_eq_true : hasField said = true ↔ none ∈ said := by
  simp [hasField]

end Words

/-! ### Commands -/

section Commands

variable {arguments : List Str} {readings : List (List (Option Char))}

theorem validate_eq_ok_iff {hasPath b : Bool} :
    validate hasPath arguments = .ok b ↔
      ∃ readings, List.Forall₂ Reads arguments readings ∧ b = (hasPath || readings.any hasField) := by
  induction arguments generalizing hasPath with
  | nil =>
    constructor
    · intro h
      exact ⟨[], .nil, by simpa using (Except.ok.inj h).symm⟩
    · rintro ⟨_, ⟨⟩, rfl⟩
      simp [validate]
  | cons argument arguments ih =>
    rw [validate]
    constructor
    · intro h
      obtain ⟨⟨result, here⟩, hargument, h⟩ := Descent.bind_eq_ok.mp h
      obtain ⟨said, hsaid, heq⟩ := (formatArgument_eq_ok_iff).mp hargument
      obtain ⟨readings, hreadings, rfl⟩ := ih.mp h
      obtain ⟨rfl, rfl⟩ := Prod.mk.inj heq
      exact ⟨said :: readings, .cons hsaid hreadings, by simp [Bool.or_assoc]⟩
    · rintro ⟨_, hreadings, rfl⟩
      cases hreadings with
      | cons hsaid hreadings =>
        rw [(formatArgument_eq_ok_iff).mpr ⟨_, hsaid, rfl⟩]
        exact ih.mpr ⟨_, hreadings, by simp [Bool.or_assoc]⟩

theorem mapM_formatArgument (h : List.Forall₂ Reads arguments readings) (path : Str) :
    arguments.mapM (fun argument => (formatArgument argument path).map Prod.fst) =
      .ok (readings.map (fill path)) := by
  induction h with
  | nil => rfl
  | cons hsaid h ih =>
    rw [List.mapM_cons, (formatArgument_eq_ok_iff).mpr ⟨_, hsaid, rfl⟩, ih]
    rfl

variable {split : Str → Option (List Str)} {shell : Str} {command : ShellCommand}

/-- Which words the arguments are. -/
def ArgumentsOf (split : Str → Option (List Str)) (shell : Str) (command : ShellCommand) : Prop :=
  ∃ words, split shell = some (command.name :: words) ∧
    (words ≠ [] → command.arguments = words) ∧
    (words = [] → ∃ template, builtinTemplate command.name = some template ∧
      split template = some command.arguments) ∧
    (command.builtinPwsh = true ↔ words = [] ∧ asciiLower command.name = "pwsh".toList)

theorem templateWords_eq_ok {name : Str} {words : List Str} (h : templateWords split name words = .ok arguments) :
    (words ≠ [] → arguments = words) ∧
      (words = [] → ∃ template, builtinTemplate name = some template ∧ split template = some arguments) := by
  unfold templateWords at h
  split at h
  case h_1 word words =>
    obtain rfl := Except.ok.inj h
    exact ⟨fun _ => rfl, fun hnil => (by cases hnil)⟩
  case h_2 =>
    refine ⟨fun hne => absurd rfl hne, fun _ => ?_⟩
    split at h
    case h_1 => cases h
    case h_2 template htemplate =>
      split at h
      case h_1 => cases h
      case h_2 words hwords =>
        obtain rfl := Except.ok.inj h
        exact ⟨template, htemplate, hwords⟩

theorem of_parseShell (h : parseShell split shell = .ok command) :
    ArgumentsOf split shell command ∧ validate false command.arguments = .ok true := by
  unfold parseShell at h
  split at h
  case isTrue => cases h
  case isFalse =>
    split at h
    case h_1 => cases h
    case h_2 => cases h
    case h_3 => cases h
    case h_4 name words _ hwords =>
      obtain ⟨arguments, harguments, h⟩ := Descent.bind_eq_ok.mp h
      obtain ⟨hasPath, hvalid, h⟩ := Descent.bind_eq_ok.mp h
      split at h
      case isFalse => cases h
      case isTrue hpath =>
        obtain rfl := Except.ok.inj h
        obtain ⟨hgiven, hbuiltin⟩ := templateWords_eq_ok harguments
        exact ⟨⟨words, hwords, hgiven, hbuiltin, by simp⟩, hpath ▸ hvalid⟩

/-- A template that is accepted takes every path: a word for a word, each what it says with the path in its
    fields; and words with their braces doubled are the words again. -/
theorem args_of_parseShell (split : Str → Option (List Str)) (shell : Str) :
    (∀ command, parseShell split shell = .ok command →
      ArgumentsOf split shell command ∧
        ∃ readings, List.Forall₂ Reads command.arguments readings ∧
          (∃ said ∈ readings, none ∈ said ∧ ∀ path, path <:+: fill path said) ∧
          ∀ path, command.args path =
            .ok (readings.map (fill (if command.builtinPwsh then doubleQuotes path else path)))) ∧
      ∀ name words builtinPwsh path,
        (ShellCommand.mk name (words.map doubleBraces) builtinPwsh).args path = .ok words := by
  constructor
  · intro command h
    obtain ⟨harguments, hvalid⟩ := of_parseShell h
    obtain ⟨readings, hreadings, hfield⟩ := (validate_eq_ok_iff).mp hvalid
    refine ⟨harguments, readings, hreadings, ?_, fun path => mapM_formatArgument hreadings _⟩
    rw [Bool.false_or, eq_comm, List.any_eq_true] at hfield
    obtain ⟨said, hsaid, hnone⟩ := hfield
    rw [hasField_eq_true] at hnone
    exact ⟨said, hsaid, hnone, infix_fill hnone⟩
  · intro name words builtinPwsh path
    have hreads : List.Forall₂ Reads (words.map doubleBraces) (words.map fun word => word.map some) := by
      rw [List.forall₂_map_left_iff, List.forall₂_map_right_iff, List.forall₂_same]
      exact fun word _ => reads_doubleBraces word
    refine (mapM_formatArgument hreads _).trans (congrArg Except.ok ?_)
    rw [List.map_map]
    exact List.map_id'' (fill_map_some _) words

/-- A script that `perl -w {0}` runs. -/
theorem args_of_perl :
    let split : Str → Option (List Str) := fun s => some ((s.splitOn ' ').filter (· ≠ []))
    let command : ShellCommand := ⟨"perl".toList, ["-w".toList, "\x7b0\x7d".toList], false⟩
    parseShell split "perl -w \x7b0\x7d".toList = .ok command ∧
      ∃ readings, List.Forall₂ Reads command.arguments readings ∧
        ∀ path, command.args path = .ok (readings.map (fill path)) := by
  intro split command
  have hparse : parseShell split "perl -w \x7b0\x7d".toList = .ok command := by decide
  obtain ⟨-, readings, hreadings, -, hargs⟩ := (args_of_parseShell split _).1 command hparse
  exact ⟨hparse, readings, hreadings, hargs⟩

end Commands

end GhRunner.Execution.ShellTemplates
