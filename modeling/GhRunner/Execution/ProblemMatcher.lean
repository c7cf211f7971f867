import GhRunner.Lib.Utf8
import GhRunner.Execution.ActionRef
import GhRunner.Lib.FiniteMap

namespace GhRunner.Execution

open Text Utf8

/-!
# Problem matchers

`crates/execution/src/execution/problem_matcher_model.rs`, `problem_matcher.rs` and
`problem_matcher_state.rs`.

* `MatcherCrates` — the regular expressions and the JSON reading that matchers rest on;
* `parseAdd`, `parseRemove` — a matcher document, checked;
* `MatcherRegistry` — the job's definitions, replaced by owner;
* `MatcherState.matchLine` — one line of a process stream, against every definition in its order.
-/

/-! ### Definitions -/

/-- Which group of a pattern is which field. -/
structure CaptureFields where
  file : Option ℕ
  line : Option ℕ
  column : Option ℕ
  severity : Option ℕ
  code : Option ℕ
  message : Option ℕ
  fromPath : Option ℕ
deriving DecidableEq, Repr

def CaptureFields.indices (fields : CaptureFields) : List (Option ℕ) :=
  [fields.file, fields.line, fields.column, fields.severity, fields.code, fields.message,
    fields.fromPath]

/-- A regular expression that was built, by its source. -/
structure PatternDefinition where
  regex : Str
  captures : CaptureFields
  loopPattern : Bool
deriving DecidableEq, Repr

structure MatcherDefinition where
  ownerKey : Str
  severity : Option Str
  fromPath : Option Str
  patterns : List PatternDefinition
deriving DecidableEq, Repr

structure RawPattern where
  regexp : Option Str
  fields : CaptureFields
  loopPattern : Bool

structure RawMatcher where
  owner : Option Str
  severity : Option Str
  fromPath : Option Str
  pattern : Option (List RawPattern)

/-- Regular expressions of bounded size: which sources build, how many groups they have, the group 0
    included, and the texts of the groups that took part in the leftmost match.  Documents are read
    or refused at a line and a column. -/
structure MatcherCrates where
  builds : Str → Bool
  capturesLen : Str → ℕ
  captures : Str → Str → Option (ℕ → Option Str)
  matcherFile : Str → Except (ℕ × ℕ) (Option (List RawMatcher))
  removalFile : Str → Except (ℕ × ℕ) (Option (List (Option Str)))

def maxJsonBytes : ℕ := 1024 * 1024
def maxOwners : ℕ := 64
def maxPatterns : ℕ := 32
def maxRegexBytes : ℕ := 16 * 1024

section Documents

variable (crates : MatcherCrates)

def validateSeverity : Option Str → Except Str (Option Str)
  | none => .ok none
  | some severity =>
    let normalized := asciiLower severity
    if normalized ∈ ["".toList, "error".toList, "warning".toList, "notice".toList] then
      .ok (some normalized)
    else .error "problem matcher severity is invalid".toList

def validateCaptureFields (fields : CaptureFields) (capturesLen : ℕ) : Except Str Unit :=
  if fields.indices.any fun index => index.any fun index => capturesLen ≤ index then
    .error "problem matcher capture index is out of range".toList
  else .ok ()

def parsePattern (raw : RawPattern) (isLast : Bool) : Except Str PatternDefinition := do
  let source := raw.regexp.getD []
  if maxRegexBytes < utf8Len source then
    throw "problem matcher regular expression exceeds the size limit".toList
  if crates.builds source = false then
    throw "problem matcher regular expression is unsupported".toList
  validateCaptureFields raw.fields (crates.capturesLen source)
  if raw.loopPattern ∧ isLast = false then
    throw "only the final problem matcher pattern may loop".toList
  if raw.loopPattern ∧ raw.fields.message.isNone then
    throw "a looping problem matcher pattern must capture a message".toList
  pure ⟨source, raw.fields, raw.loopPattern⟩

/-- The fields assigned so far, with those of one more pattern. -/
def validateFieldAssignments (fields : CaptureFields) (assignedFields : List Bool) :
    Except Str (List Bool) :=
  let assigned := fields.indices.map Option.isSome
  if (assignedFields.zip assigned).any fun p => p.1 && p.2 then
    .error "a problem matcher field may only be assigned once".toList
  else .ok (assignedFields.zipWith or assigned)

/-- The patterns in order; the last of them is the last of the matcher. -/
def parsePatterns (assignedFields : List Bool) : List RawPattern → Except Str (List PatternDefinition)
  | [] => .ok []
  | raw :: rest => do
    let definition ← parsePattern crates raw rest.isEmpty
    let assignedFields ← validateFieldAssignments definition.captures assignedFields
    let definitions ← parsePatterns assignedFields rest
    pure (definition :: definitions)

def parseMatcher (raw : RawMatcher) : Except Str MatcherDefinition := do
  let owner := (raw.owner.map trim).getD []
  if owner = [] then throw "problem matcher owner is required".toList
  let severity ← validateSeverity raw.severity
  match raw.pattern with
  | none => throw "problem matcher pattern is required".toList
  | some patterns =>
    if patterns = [] ∨ maxPatterns < patterns.length then
      throw "problem matcher has an invalid number of patterns".toList
    if patterns.length = 1 ∧ patterns.any RawPattern.loopPattern then
      throw "a single problem matcher pattern may not loop".toList
    let definitions ← parsePatterns crates (List.replicate 7 false) patterns
    if definitions.any (fun pattern => pattern.captures.message.isSome) = false then
      throw "a problem matcher pattern must capture a message".toList
    pure ⟨asciiLower owner, severity, raw.fromPath, definitions⟩

def jsonError (position : ℕ × ℕ) : Str :=
  ("invalid problem matcher JSON at " ++ toString position.1 ++ ":" ++ toString position.2).toList

/-- Each matcher in turn; no two of one owner. -/
def parseMatchers (owners : List Str) : List RawMatcher → Except Str (List MatcherDefinition)
  | [] => .ok []
  | matcher :: rest => do
    let definition ← parseMatcher crates matcher
    if definition.ownerKey ∈ owners then throw "problem matcher owners must be unique".toList
    let definitions ← parseMatchers (definition.ownerKey :: owners) rest
    pure (definition :: definitions)

def parseAdd (input : Str) : Except Str (List MatcherDefinition) := do
  if maxJsonBytes < utf8Len input then
    throw "problem matcher JSON exceeds the size limit".toList
  let matchers := ((← (crates.matcherFile input).mapError jsonError).getD [])
  if maxOwners < matchers.length then
    throw "problem matcher registry has too many owners".toList
  parseMatchers crates [] matchers

/-- The owners named, whatever their patterns. -/
def parseRemove (input : Str) : Except Str (List Str) := do
  if maxJsonBytes < utf8Len input then
    throw "problem matcher JSON exceeds the size limit".toList
  let matchers := ((← (crates.removalFile input).mapError jsonError).getD [])
  let owners := matchers.filterMap fun owner => (owner.map trim).filter (· ≠ [])
  pure (owners.map asciiLower).eraseDups

end Documents

/-! ### The registry -/

/-- A shared value: one address holds one value, so that pointers are equal iff these are. -/
structure Arc (α : Type) where
  address : ℕ
  value : α
deriving DecidableEq

/-- The owners of some definitions. -/
def owners (definitions : List (Arc MatcherDefinition)) : List Str :=
  definitions.map fun d => d.value.ownerKey

/-- The definitions in matching order, one for each owner; `fresh` is the next address that is given
    out. -/
structure MatcherRegistry where
  definitions : List (Arc MatcherDefinition)
  fresh : ℕ
  nodup : (owners definitions).Nodup

/-- `Arc::new` for each definition. -/
def allocate (fresh : ℕ) : List MatcherDefinition → List (Arc MatcherDefinition)
  | [] => []
  | d :: ds => ⟨fresh, d⟩ :: allocate (fresh + 1) ds

/-- Additions go to the front in their order, in the place of their owners' earlier definitions. -/
def insertAll (additions definitions : List (Arc MatcherDefinition)) : List (Arc MatcherDefinition) :=
  additions.foldr
    (fun addition definitions =>
      addition :: definitions.filter fun existing =>
        existing.value.ownerKey ≠ addition.value.ownerKey)
    definitions

theorem nodup_owners_filter {definitions : List (Arc MatcherDefinition)}
    (h : (owners definitions).Nodup) (p : Arc MatcherDefinition → Bool) :
    (owners (definitions.filter p)).Nodup :=
  h.sublist (List.filter_sublist.map _)

theorem nodup_insertAll {definitions : List (Arc MatcherDefinition)}
    (h : (owners definitions).Nodup) (additions : List (Arc MatcherDefinition)) :
    (owners (insertAll additions definitions)).Nodup := by
  induction additions with
  | nil => exact h
  | cons addition additions ih =>
    refine List.nodup_cons.mpr ⟨?_, nodup_owners_filter ih _⟩
    simp

namespace MatcherRegistry

def empty : MatcherRegistry := ⟨[], 0, List.nodup_nil⟩

/-- Too many owners leave the registry as it was. -/
def addJson (crates : MatcherCrates) (registry : MatcherRegistry) (input : Str) :
    Except Str MatcherRegistry := do
  let additions ← parseAdd crates input
  let definitions := insertAll (allocate registry.fresh additions) registry.definitions
  if maxOwners < definitions.length then
    throw "problem matcher registry has too many owners".toList
  pure ⟨definitions, registry.fresh + additions.length, nodup_insertAll registry.nodup _⟩

/-- The registry with the definitions that satisfy `p`. -/
def retain (registry : MatcherRegistry) (p : Arc MatcherDefinition → Bool) : MatcherRegistry :=
  ⟨registry.definitions.filter p, registry.fresh, nodup_owners_filter registry.nodup p⟩

def removeJson (crates : MatcherCrates) (registry : MatcherRegistry) (input : Str) :
    Except Str MatcherRegistry := do
  let owners ← parseRemove crates input
  pure (registry.retain fun d => d.value.ownerKey ∉ owners)

def removeOwner (registry : MatcherRegistry) (owner : Str) : MatcherRegistry :=
  let owner := asciiLower (trim owner)
  if owner = [] then registry else registry.retain fun d => d.value.ownerKey ≠ owner

end MatcherRegistry

/-! ### One line -/

/-- A diagnostic taken from a line. -/
structure MatchResult where
  file : Option Str
  line : Option Str
  column : Option Str
  severity : Option Str
  code : Option Str
  message : Option Str
  fromPath : Option Str
deriving DecidableEq, Repr

def MatchResult.empty : MatchResult := ⟨none, none, none, none, none, none, none⟩

structure ActiveMatcher where
  definition : Arc MatcherDefinition
  states : List (Option MatchResult)
deriving DecidableEq

/-- Where a line is: in its text, before the bracket of a control sequence, or within one. -/
inductive AnsiState
  | text | escape | sequence

/-- Without the control sequences that start with ESC and `[`, up to their final byte. -/
def stripAnsi : AnsiState → Str → Str
  | _, [] => []
  | .text, c :: rest =>
    if c = '\x1b' ∧ rest.head? = some '[' then stripAnsi .escape rest
    else c :: stripAnsi .text rest
  | .escape, _ :: rest => stripAnsi .sequence rest
  | .sequence, c :: rest =>
    if '@' ≤ c ∧ c ≤ '~' then stripAnsi .text rest else stripAnsi .sequence rest

def maxLineBytes : ℕ := 64 * 1024

def assign (target : Option Str) (index : Option ℕ) (captures : ℕ → Option Str) : Option Str :=
  (index.bind captures).or target

def applyCaptures (result : MatchResult) (fields : CaptureFields) (captures : ℕ → Option Str) :
    MatchResult where
  file := assign result.file fields.file captures
  line := assign result.line fields.line captures
  column := assign result.column fields.column captures
  severity := assign result.severity fields.severity captures
  code := assign result.code fields.code captures
  message := assign result.message fields.message captures
  fromPath := assign result.fromPath fields.fromPath captures

/-- Absent or empty. -/
def blank (value : Option Str) : Bool := value.all fun value => value = []

def applyDefaults (result : MatchResult) (definition : MatcherDefinition) : MatchResult :=
  { result with
    severity := if blank result.severity then definition.severity else result.severity
    fromPath := if blank result.fromPath then definition.fromPath else result.fromPath }

def isReportable (result : MatchResult) : Bool :=
  (result.message.any fun message => trim message ≠ []) &&
    (result.severity.all fun severity =>
      asciiLower severity ∈ ["".toList, "error".toList, "warning".toList, "notice".toList])

namespace ActiveMatcher

/-- What is kept under an index. -/
def slot (active : ActiveMatcher) (index : ℕ) : Option MatchResult := active.states[index]?.join

def store (active : ActiveMatcher) (index : ℕ) (state : Option MatchResult) : ActiveMatcher :=
  { active with states := active.states.set index state }

def reset (active : ActiveMatcher) : ActiveMatcher :=
  { active with states := active.states.map fun _ => none }

def patterns (active : ActiveMatcher) : List PatternDefinition := active.definition.value.patterns

/-- What a match of the pattern goes on from; nothing, when the pattern before it is not matched. -/
def previousResult (active : ActiveMatcher) : ℕ → Option MatchResult
  | 0 => some .empty
  | previous + 1 => active.slot previous

/-- A line that the last pattern does not match breaks the run; another one's own slot is emptied. -/
def clearFailedState (active : ActiveMatcher) (index last : ℕ) : ActiveMatcher :=
  if index = last then if index = 0 then active else active.store (index - 1) none
  else active.store index none

/-- A looping matcher keeps what stands before its last pattern. -/
def finishMatch (active : ActiveMatcher) (last : ℕ) (loopPattern : Bool) : ActiveMatcher :=
  if loopPattern ∧ 0 < last then active.reset.store (last - 1) (active.slot (last - 1))
  else active.reset

variable (crates : MatcherCrates)

def attemptPattern (active : ActiveMatcher) (index last : ℕ) (line : Str) :
    ActiveMatcher × Option MatchResult :=
  match active.previousResult index, active.patterns[index]? with
  | some previous, some pattern =>
    match crates.captures pattern.regex line with
    | none => (active.clearFailedState index last, none)
    | some captures =>
      let result := applyCaptures previous pattern.captures captures
      if index ≠ last then (active.store index (some result), none)
      else
        (active.finishMatch last pattern.loopPattern,
          some (applyDefaults result active.definition.value))
  | _, _ => (active, none)

/-- The patterns before `count`, the last one first. -/
def attempts (last : ℕ) (line : Str) : ℕ → ActiveMatcher → ActiveMatcher × Option MatchResult
  | 0, active => (active, none)
  | index + 1, active =>
    match active.attemptPattern crates index last line with
    | (active, some result) => (active, some result)
    | (active, none) => attempts last line index active

def matchActive (active : ActiveMatcher) (line : Str) : ActiveMatcher × Option MatchResult :=
  active.attempts crates (active.patterns.length - 1) line active.patterns.length

end ActiveMatcher

/-- What is under way on one stream, by owner. -/
abbrev MatcherState := Finmap fun _ : Str => ActiveMatcher

namespace MatcherState

variable (crates : MatcherCrates)

/-- What was put together for a definition that is no longer registered is dropped. -/
def sync (state : MatcherState) (registry : MatcherRegistry) : MatcherState :=
  let kept := state.retain fun owner active =>
    registry.definitions.any fun d => d.value.ownerKey = owner && d = active.definition
  registry.definitions.foldl
    (fun state d =>
      if d.value.ownerKey ∈ state then state
      else state.insert d.value.ownerKey ⟨d, d.value.patterns.map fun _ => none⟩)
    kept

def reset (state : MatcherState) : MatcherState := state.mapValues fun _ active => active.reset

def resetExcept (state : MatcherState) (owner : Str) : MatcherState :=
  state.mapValues fun candidate active => if candidate ≠ owner then active.reset else active

/-- The definitions in order, up to the first that reports. -/
def visit (line : Str) : List (Arc MatcherDefinition) → MatcherState →
    MatcherState × Option MatchResult
  | [], state => (state, none)
  | definition :: rest, state =>
    let owner := definition.value.ownerKey
    match state.lookup owner with
    | none => visit line rest state
    | some active =>
      match active.matchActive crates line with
      | (active, none) => visit line rest (state.insert owner active)
      | (active, some result) =>
        let state := resetExcept (state.insert owner active) owner
        if isReportable result then (state, some result) else visit line rest state

def matchLine (state : MatcherState) (registry : MatcherRegistry) (line : Str) :
    MatcherState × Option MatchResult :=
  let state := state.sync registry
  if registry.definitions = [] then (state, none)
  else if maxLineBytes < utf8Len line then (state.reset, none)
  else state.visit crates (stripAnsi .text line) registry.definitions

end MatcherState

end GhRunner.Execution
