import GhRunner.Execution.CommandParser
import GhRunner.Execution.ProblemMatcher
import GhRunner.Shared.SecretMasker

namespace GhRunner.Execution

open Text Utf8 GhRunner.Shared

/-!
# Workflow commands applied

One step's output lines, acted on as they come: `crates/execution/src/execution/command_dispatch.rs` and
`matcher_dispatch.rs`.

* `CommandContext` — what of the job's state a command can change;
* `CommandDispatcher` — what belongs to the step alone;
* `onOutputLine` — a line that is a command is applied, any other is matched and passed through;
* `apply` — each command's handler, with the texts it unescapes.
-/

inductive LogStream
  | stdout | stderr
deriving DecidableEq, Repr

inductive AnnotationLevel
  | notice | warning | error
deriving DecidableEq, Repr

inductive RunnerEvent
  | log (stepId line : Str) (stream : LogStream)
  | logGroup (stepId title : Str) (opened : Bool)
  | annotate (stepId : Str) (level : AnnotationLevel) (fields : AnnotationFields)
deriving DecidableEq, Repr

def RunnerEvent.isAnnotation : RunnerEvent → Bool
  | .annotate .. => true
  | _ => false

/-- What a line turns out to be: applied, or logged as it is. -/
inductive LineDisposition
  | consumed
  | passThrough (text : Str)
deriving DecidableEq, Repr

/-- The outputs are those of the steps by scope and visible name, the states those of the actions by
    scope and step. -/
structure CommandContext (A : AhoCorasick) where
  scopePath : List Str
  stepOutputs : Finmap fun _ : List Str × Str => Pairs
  actionStates : Finmap fun _ : List Str × Str => Pairs
  masker : SecretMasker A
  matchers : MatcherRegistry

structure CommandDispatcher where
  stepId : Str
  outputContextName : Option Str
  logStepId : Str
  echoOn : Bool
  /-- While there is one, no line but its marker is a command. -/
  stopToken : Option Str
  groupDepth : ℕ
  pending : List RunnerEvent
  setOutputs : List (Str × Str)
  matcherStdout : MatcherState
  matcherStderr : MatcherState
  outputStream : LogStream
  failed : Bool
  longLineWarned : Bool

def CommandDispatcher.new (stepId logStepId : Str) (outputContextName : Option Str) :
    CommandDispatcher where
  stepId := stepId
  outputContextName := outputContextName
  logStepId := logStepId
  echoOn := false
  stopToken := none
  groupDepth := 0
  pending := []
  setOutputs := []
  matcherStdout := ∅
  matcherStderr := ∅
  outputStream := .stdout
  failed := false
  longLineWarned := false

/-- What a line finds on the machine: the files of matchers, and which matched paths are files of the
    checkout. -/
structure Surroundings where
  crates : MatcherCrates
  readMatcher : Str → Except Str Str
  annotationPath : Option Str → Option Str → Option Str

/-- A dispatcher at work. -/
structure Dispatch (A : AhoCorasick) where
  dispatcher : CommandDispatcher
  ctx : CommandContext A

/-! ### Stop tokens -/

def reserved : List Str :=
  ["error".toList, "warning".toList, "notice".toList, "debug".toList, "group".toList,
    "endgroup".toList, "set-output".toList, "add-mask".toList, "save-state".toList,
    "add-path".toList, "set-env".toList, "echo".toList, "stop-commands".toList,
    "pause-logging".toList, "add-matcher".toList, "remove-matcher".toList]

def isReservedStopToken (token : Str) : Bool := reserved.any fun r => asciiLower token = asciiLower r

def validatedStopToken (token : Str) : Option Str :=
  if token = [] ∨ isReservedStopToken token then none else some token

/-- `strip_suffix`. -/
def stripSuffix (suffix s : Str) : Option Str :=
  (suffix.reverse.isPrefixOf? s.reverse).map List.reverse

/-- The line is the marker of the token, white space around it apart. -/
def isResumeMarker (line token : Str) : Bool :=
  match ("::".toList.isPrefixOf? (trim line)).bind (stripSuffix "::".toList) with
  | some inner => inner = token
  | none => false

/-! ### Handlers -/

namespace Dispatch

variable {A : AhoCorasick} (s : Dispatch A)

def mask (line : Str) : Str := s.ctx.masker.mask line

def push (event : RunnerEvent) : Dispatch A :=
  { s with dispatcher.pending := s.dispatcher.pending ++ [event] }

def logEvent (line : Str) : RunnerEvent := .log s.dispatcher.logStepId line s.dispatcher.outputStream

def setStepOutput (contextName key value : Str) : Dispatch A :=
  let entry := (s.ctx.scopePath, contextName)
  { s with
    ctx.stepOutputs := s.ctx.stepOutputs.insert entry
      (((s.ctx.stepOutputs.lookup entry).getD ∅).insert key value) }

def setStepState (key value : Str) : Dispatch A :=
  let entry := (s.ctx.scopePath, s.dispatcher.stepId)
  { s with
    ctx.actionStates := s.ctx.actionStates.insert entry
      (((s.ctx.actionStates.lookup entry).getD ∅).insert key value) }

def applySetOutput (name value : Str) : Dispatch A :=
  if name = [] then s
  else
    let name := unescapeData name
    let value := unescapeData value
    let s :=
      match s.dispatcher.outputContextName with
      | some contextName => s.setStepOutput contextName name value
      | none => s
    { s with dispatcher.setOutputs := s.dispatcher.setOutputs ++ [(name, value)] }

def applySaveState (name value : Str) : Dispatch A :=
  if name = [] then s else s.setStepState (unescapeData name) (unescapeData value)

def applyAddMask (value : Str) : Dispatch A :=
  { s with ctx.masker := s.ctx.masker.addMask (unescapeData value) }

/-- `group_depth` saturates at the ends of 32 bits. -/
def applyGroup (title : Str) : Dispatch A :=
  let s := { s with dispatcher.groupDepth := min (s.dispatcher.groupDepth + 1) (2 ^ 32 - 1) }
  s.push (.logGroup s.dispatcher.logStepId (s.mask (unescapeData title)) true)

def applyEndgroup : Dispatch A :=
  let s := { s with dispatcher.groupDepth := s.dispatcher.groupDepth - 1 }
  s.push (.logGroup s.dispatcher.logStepId [] false)

/-- An annotation without a message is dropped; one with a blank file has none. -/
def pushAnnotation (level : AnnotationLevel) (fields : AnnotationFields) : Dispatch A :=
  let message := s.mask (unescapeData fields.message)
  if trim message = [] then s
  else
    s.push (.annotate s.dispatcher.logStepId level
      { fields with
        message := message
        file := (fields.file.map fun file => s.mask (unescapeProperty file)).filter fun file =>
          trim file ≠ []
        title := fields.title.map fun title => s.mask (unescapeProperty title) })

/-- An annotation at no place. -/
def bareFields (message : Str) : AnnotationFields := ⟨message, none, none, none, none, none, none⟩

/-- A command that would change the live environment is refused. -/
def warnDisabledStdoutCommand (command fileVar : Str) : Dispatch A :=
  s.pushAnnotation .warning (bareFields ("the `::".toList ++ command ++
    "::` stdout command is disabled for security; use $".toList ++ fileVar))

/-! #### Matchers -/

def matcherDiagnostic (level : AnnotationLevel) (message : Str) : Dispatch A :=
  s.push (.annotate s.dispatcher.logStepId level (bareFields (s.mask message)))

def matcherFailure (message : Str) : Dispatch A :=
  { s with dispatcher.failed := true }.matcherDiagnostic .error message

/-- The registry after a document, or the failure it is. -/
def withMatchers (result : Except Str MatcherRegistry) : Dispatch A :=
  match result with
  | .ok matchers => { s with ctx.matchers := matchers }
  | .error message => s.matcherFailure message

def addMatcher (world : Surroundings) (path : Str) : Dispatch A :=
  let path := unescapeData path
  if path = [] then s.matcherDiagnostic .warning "add-matcher requires a file path".toList
  else s.withMatchers ((world.readMatcher path).bind (s.ctx.matchers.addJson world.crates))

def removeMatcher (world : Surroundings) (owner : Option Str) (path : Str) : Dispatch A :=
  let path := unescapeData path
  let owner := (owner.map unescapeProperty).filter (· ≠ [])
  match owner, decide (path = []) with
  | some owner, true => { s with ctx.matchers := s.ctx.matchers.removeOwner owner }
  | none, false => s.withMatchers ((world.readMatcher path).bind (s.ctx.matchers.removeJson world.crates))
  | _, _ =>
    s.matcherDiagnostic .warning
      "remove-matcher requires either owner or a file path, not both".toList

/-- Digits only. -/
def coordinate (value : Option Str) : Option ℤ :=
  (value.filter fun value => value ≠ [] && value.all Char.isDigit).bind parseI32

def resultLevel (severity : Option Str) : AnnotationLevel :=
  let severity := asciiLower (severity.getD [])
  if severity = "warning".toList then .warning
  else if severity = "notice".toList then .notice
  else .error

/-- The matching progress of the stream the line came from. -/
def matcherState : MatcherState :=
  match s.dispatcher.outputStream with
  | .stdout => s.dispatcher.matcherStdout
  | .stderr => s.dispatcher.matcherStderr

def setMatcherState (state : MatcherState) : Dispatch A :=
  match s.dispatcher.outputStream with
  | .stdout => { s with dispatcher.matcherStdout := state }
  | .stderr => { s with dispatcher.matcherStderr := state }

/-- The first line that is too long to be matched is said so. -/
def warnLongLine (text : Str) : Dispatch A :=
  if maxLineBytes < utf8Len text ∧ s.dispatcher.longLineWarned = false ∧
      s.ctx.matchers.definitions ≠ [] then
    { s with dispatcher.longLineWarned := true }.matcherDiagnostic .warning
      "problem matching skipped output over 64 KiB; original log retained".toList
  else s

def pushResult (world : Surroundings) (result : MatchResult) : Dispatch A :=
  let line := coordinate result.line
  let col := coordinate result.column
  s.push (.annotate s.dispatcher.logStepId (resultLevel result.severity)
    { message := s.mask (result.message.getD [])
      file := (world.annotationPath result.file result.fromPath).map s.mask
      line := line
      col := col
      endLine := line
      endColumn := col
      title := none })

def matchOutput (world : Surroundings) (text : Str) : Dispatch A × LineDisposition :=
  let (state, result) := s.matcherState.matchLine world.crates s.ctx.matchers text
  let s := (s.setMatcherState state).warnLongLine text
  match result with
  | some result => (s.pushResult world result, .passThrough text)
  | none => (s, .passThrough text)

/-! #### Lines -/

def apply (world : Surroundings) : WorkflowCommand → Dispatch A
  | .setOutput name value => s.applySetOutput name value
  | .saveState name value => s.applySaveState name value
  | .addMask value => s.applyAddMask value
  | .addMatcher path => s.addMatcher world path
  | .removeMatcher owner path => s.removeMatcher world owner path
  | .addPath _ => s.warnDisabledStdoutCommand "add-path".toList "GITHUB_PATH".toList
  | .setEnv _ _ => s.warnDisabledStdoutCommand "set-env".toList "GITHUB_ENV".toList
  | .group title => s.applyGroup title
  | .endGroup => s.applyEndgroup
  | .error fields => s.pushAnnotation .error fields
  | .warning fields => s.pushAnnotation .warning fields
  | .notice fields => s.pushAnnotation .notice fields
  -- goes to the runner's own log
  | .debug _ => s
  | .echo on => { s with dispatcher.echoOn := on }
  | .stopCommands token => { s with dispatcher.stopToken := validatedStopToken token }
  | .resumeCommands _ => s

def withStream (stream : LogStream) : Dispatch A := { s with dispatcher.outputStream := stream }

/-- The state in which commands are no longer stopped. -/
def resumed : Dispatch A := { s with dispatcher.stopToken := none }

def onOutputLine (world : Surroundings) (line : Str) (stream : LogStream) :
    Dispatch A × LineDisposition :=
  let s := s.withStream stream
  match s.dispatcher.stopToken with
  | some token =>
    if isResumeMarker line token then (s.resumed, .consumed) else s.matchOutput world line
  | none =>
    match parseCommand line with
    | none => s.matchOutput world line
    | some command =>
      let s := if s.dispatcher.echoOn then s.push (s.logEvent line) else s
      (s.apply world command, .consumed)

end Dispatch

end GhRunner.Execution
