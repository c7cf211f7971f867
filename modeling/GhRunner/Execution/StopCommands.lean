import GhRunner.Execution.CommandDispatch
import GhRunner.Shared.Masking

namespace GhRunner.Execution

open Text GhRunner.Shared

/-!
# While commands are stopped

A step stops the commands under a token and resumes them with the token's marker.  In between a line is
matched as plain output and nothing else: what a matcher makes of it is queued, and the progress of the
matchers is the only state it changes.

* `commandState` — all that a command can change;
* `stopToken_onOutputLine` — what becomes of the token, line by line;
* `suspended_run` — no line but a marker changes the state of the commands;
* `stop_commands_airtight` — from the token that is accepted to its marker.
-/

variable {A : AhoCorasick}

/-! ### Markers -/

def resumeMarker (token : Str) : Str := "::".toList ++ (token ++ "::".toList)

theorem isResumeMarker_iff {line token : Str} :
    isResumeMarker line token = true ↔ trim line = resumeMarker token := by
  have hinner : ∀ inner : Str,
      ("::".toList.isPrefixOf? (trim line)).bind (stripSuffix "::".toList) = some inner ↔
        trim line = resumeMarker inner := by
    intro inner
    rw [Option.bind_eq_some_iff]
    constructor
    · rintro ⟨rest, hrest, hsuffix⟩
      obtain ⟨before, hbefore, rfl⟩ := Option.map_eq_some_iff.mp hsuffix
      have hreverse := congrArg List.reverse (List.isPrefixOf?_eq_some_iff_append_eq.mp hbefore)
      rw [List.reverse_append, List.reverse_reverse, List.reverse_reverse] at hreverse
      rw [← List.isPrefixOf?_eq_some_iff_append_eq.mp hrest, ← hreverse, resumeMarker]
    · intro h
      refine ⟨inner ++ "::".toList, List.isPrefixOf?_eq_some_iff_append_eq.mpr h.symm, ?_⟩
      rw [stripSuffix, List.reverse_append, Option.map_eq_some_iff]
      exact ⟨inner.reverse, List.isPrefixOf?_eq_some_iff_append_eq.mpr rfl, List.reverse_reverse _⟩
  unfold isResumeMarker
  split
  case h_1 inner heq =>
    rw [(hinner inner).mp heq, decide_eq_true_iff]
    constructor
    · rintro rfl
      rfl
    · intro h
      exact List.append_cancel_right (List.append_cancel_left h)
  case h_2 hnone =>
    refine iff_of_false Bool.false_ne_true fun h => ?_
    rw [(hinner token).mpr h] at hnone
    cases hnone

/-- A marker has no white space around it. -/
theorem trim_resumeMarker (token : Str) : trim (resumeMarker token) = resumeMarker token := by
  have hback : resumeMarker token = ("::".toList ++ (token ++ [':'])) ++ [':'] := by
    simp [resumeMarker]
  apply trim_of_ends
  · rintro c ⟨⟩
    decide
  · rw [hback, List.getLast?_concat]
    rintro c ⟨⟩
    decide

/-! ### What a command can change -/

/-- A line of the step's output, and what it finds on the machine. -/
structure DispatchedLine where
  world : Surroundings
  text : Str
  stream : LogStream

namespace Dispatch

def step (s : Dispatch A) (e : DispatchedLine) : Dispatch A := (s.onOutputLine e.world e.text e.stream).1

def disposition (s : Dispatch A) (e : DispatchedLine) : LineDisposition :=
  (s.onOutputLine e.world e.text e.stream).2

/-- All but the progress of the matchers and what is queued. -/
def commandState (s : Dispatch A) : Dispatch A :=
  { s with
    dispatcher.pending := []
    dispatcher.matcherStdout := ∅
    dispatcher.matcherStderr := ∅
    dispatcher.outputStream := .stdout
    dispatcher.longLineWarned := false }

variable {s : Dispatch A} {world : Surroundings} {text token : Str} {e : DispatchedLine}

/-! #### Plain output -/

theorem pending_matcherDiagnostic (s : Dispatch A) (level : AnnotationLevel) (message : Str) :
    (s.matcherDiagnostic level message).dispatcher.pending = s.dispatcher.pending ++
      [.annotate s.dispatcher.logStepId level (bareFields (s.mask message))] := rfl

theorem pending_pushResult (s : Dispatch A) (world : Surroundings) (result : MatchResult) :
    ∃ event, (s.pushResult world result).dispatcher.pending = s.dispatcher.pending ++ [event] ∧
      event.isAnnotation = true := ⟨_, rfl, rfl⟩

/-- Matching leaves the state of the commands, and queues annotations only. -/
theorem matchOutput_frame (s : Dispatch A) (world : Surroundings) (text : Str) :
    (s.matchOutput world text).1.commandState = s.commandState ∧
      (∃ diagnostics : List RunnerEvent,
        (s.matchOutput world text).1.dispatcher.pending = s.dispatcher.pending ++ diagnostics ∧
          ∀ d ∈ diagnostics, d.isAnnotation = true) ∧
      (s.matchOutput world text).2 = .passThrough text := by
  rcases hmatch : s.matcherState.matchLine world.crates s.ctx.matchers text with ⟨state, result⟩
  have hset : (s.setMatcherState state).commandState = s.commandState ∧
      (s.setMatcherState state).dispatcher.pending = s.dispatcher.pending := by
    unfold setMatcherState
    split <;> exact ⟨rfl, rfl⟩
  have hwarn : ((s.setMatcherState state).warnLongLine text).commandState = s.commandState ∧
      ∃ diagnostics : List RunnerEvent,
        ((s.setMatcherState state).warnLongLine text).dispatcher.pending =
            s.dispatcher.pending ++ diagnostics ∧ ∀ d ∈ diagnostics, d.isAnnotation = true := by
    unfold warnLongLine
    split
    case isTrue =>
      have hpending := (pending_matcherDiagnostic
        { s.setMatcherState state with dispatcher.longLineWarned := true } .warning
        "problem matching skipped output over 64 KiB; original log retained".toList)
      exact ⟨hset.1, _, hpending.trans (congrArg (· ++ _) hset.2), by simp [RunnerEvent.isAnnotation]⟩
    case isFalse => exact ⟨hset.1, [], by rw [hset.2, List.append_nil], by simp⟩
  unfold matchOutput
  rw [hmatch]
  obtain ⟨hstate, diagnostics, hpending, hall⟩ := hwarn
  cases result with
  | none => exact ⟨hstate, ⟨diagnostics, hpending, hall⟩, rfl⟩
  | some result =>
    obtain ⟨event, hpush, hevent⟩ := pending_pushResult
      ((s.setMatcherState state).warnLongLine text) world result
    refine ⟨hstate, ⟨diagnostics ++ [event], ?_, ?_⟩, rfl⟩
    · rw [← List.append_assoc, ← hpending]
      exact hpush
    · exact List.forall_mem_append.mpr ⟨hall, List.forall_mem_singleton.mpr hevent⟩

/-! #### The token -/

theorem stopToken_pushAnnotation (s : Dispatch A) (level : AnnotationLevel)
    (fields : AnnotationFields) :
    (s.pushAnnotation level fields).dispatcher.stopToken = s.dispatcher.stopToken := by
  unfold pushAnnotation
  dsimp only
  split <;> rfl

theorem stopToken_withMatchers (s : Dispatch A) (result : Except Str MatcherRegistry) :
    (s.withMatchers result).dispatcher.stopToken = s.dispatcher.stopToken := by
  cases result <;> rfl

/-- What a command makes of the token that holds. -/
def tokenAfter (token : Option Str) : WorkflowCommand → Option Str
  | .stopCommands next => validatedStopToken next
  | _ => token

/-- Only `stop-commands` touches the token. -/
theorem stopToken_apply (s : Dispatch A) (world : Surroundings) (command : WorkflowCommand) :
    (s.apply world command).dispatcher.stopToken = tokenAfter s.dispatcher.stopToken command := by
  cases command with
  | error fields => exact stopToken_pushAnnotation s .error fields
  | warning fields => exact stopToken_pushAnnotation s .warning fields
  | notice fields => exact stopToken_pushAnnotation s .notice fields
  | addPath => exact stopToken_pushAnnotation s .warning _
  | setEnv => exact stopToken_pushAnnotation s .warning _
  | addMatcher path =>
    show (s.addMatcher world path).dispatcher.stopToken = _
    unfold addMatcher
    dsimp only
    split
    case isTrue => rfl
    case isFalse => exact stopToken_withMatchers s _
  | removeMatcher owner path =>
    show (s.removeMatcher world owner path).dispatcher.stopToken = _
    unfold removeMatcher
    dsimp only
    split
    case h_1 => rfl
    case h_2 => exact stopToken_withMatchers s _
    case h_3 => rfl
  | setOutput name value =>
    show (s.applySetOutput name value).dispatcher.stopToken = _
    unfold applySetOutput
    split
    case isTrue => rfl
    case isFalse =>
      dsimp only
      split <;> rfl
  | saveState name value =>
    show (s.applySaveState name value).dispatcher.stopToken = _
    unfold applySaveState
    split <;> rfl
  | _ => rfl

/-! #### Lines -/

theorem onOutputLine_suspended (stream : LogStream) (h : s.dispatcher.stopToken = some token) :
    s.onOutputLine world text stream =
      if isResumeMarker text token then ((s.withStream stream).resumed, .consumed)
      else (s.withStream stream).matchOutput world text := by
  have htoken : (s.withStream stream).dispatcher.stopToken = some token := h
  unfold onOutputLine
  dsimp only
  rw [htoken]

theorem onOutputLine_plain (stream : LogStream) (h : s.dispatcher.stopToken = none)
    (hparse : parseCommand text = none) :
    s.onOutputLine world text stream = (s.withStream stream).matchOutput world text := by
  have htoken : (s.withStream stream).dispatcher.stopToken = none := h
  unfold onOutputLine
  dsimp only
  rw [htoken, hparse]

theorem stopToken_commandState : s.commandState.dispatcher.stopToken = s.dispatcher.stopToken := rfl

theorem stopToken_onOutputLine_command (stream : LogStream) {command : WorkflowCommand}
    (h : s.dispatcher.stopToken = none) (hparse : parseCommand text = some command) :
    (s.onOutputLine world text stream).1.dispatcher.stopToken = tokenAfter none command := by
  have htoken : (s.withStream stream).dispatcher.stopToken = none := h
  unfold onOutputLine
  dsimp only
  rw [htoken, hparse]
  dsimp only
  rw [stopToken_apply]
  -- an echoed line is queued before the command is applied
  split
  case isTrue => exact congrArg (tokenAfter · command) h
  case isFalse => exact congrArg (tokenAfter · command) h

theorem validatedStopToken_eq_some {t : Str} :
    validatedStopToken t = some token ↔ t = token ∧ token ≠ [] ∧ isReservedStopToken token = false := by
  unfold validatedStopToken
  split
  case isTrue h =>
    refine iff_of_false (by simp) ?_
    rintro ⟨rfl, hne, hfree⟩
    exact h.elim hne (by simp [hfree])
  case isFalse h =>
    rw [not_or, Bool.not_eq_true] at h
    rw [Option.some_inj]
    exact ⟨fun heq => ⟨heq, heq ▸ h⟩, And.left⟩

/-- A token is taken from a `stop-commands` command, when it is not empty and not reserved. -/
theorem accepted_iff (hlive : s.dispatcher.stopToken = none) :
    (s.step e).dispatcher.stopToken = some token ↔
      parseCommand e.text = some (.stopCommands token) ∧ token ≠ [] ∧
        isReservedStopToken token = false := by
  unfold step
  cases hparse : parseCommand e.text with
  | none =>
    rw [onOutputLine_plain e.stream hlive hparse, ← stopToken_commandState,
      (matchOutput_frame _ e.world e.text).1]
    refine iff_of_false (fun h => ?_) (by simp)
    exact absurd (hlive.symm.trans h) (by simp)
  | some command =>
    rw [stopToken_onOutputLine_command e.stream hlive hparse]
    cases command with
    | stopCommands t =>
      rw [tokenAfter, validatedStopToken_eq_some, Option.some_inj, WorkflowCommand.stopCommands.injEq]
    | _ => simp [tokenAfter]

/-! ### From the token to its marker -/

/-- A line that is no marker is plain output. -/
theorem suspended_line (htoken : s.dispatcher.stopToken = some token)
    (hline : trim e.text ≠ resumeMarker token) :
    (s.step e).commandState = s.commandState ∧
      (∃ diagnostics : List RunnerEvent,
        (s.step e).dispatcher.pending = s.dispatcher.pending ++ diagnostics ∧
          ∀ d ∈ diagnostics, d.isAnnotation = true) ∧
      s.disposition e = .passThrough e.text := by
  have hmarker : isResumeMarker e.text token = false := by
    rw [← Bool.not_eq_true, isResumeMarker_iff]
    exact hline
  unfold step disposition
  rw [onOutputLine_suspended e.stream htoken, hmarker]
  exact matchOutput_frame (s.withStream e.stream) e.world e.text

/-- The marker is consumed and only takes the token away. -/
theorem marker_line (htoken : s.dispatcher.stopToken = some token)
    (hline : trim e.text = resumeMarker token) :
    s.step e = (s.withStream e.stream).resumed ∧ s.disposition e = .consumed := by
  unfold step disposition
  rw [onOutputLine_suspended e.stream htoken, isResumeMarker_iff.mpr hline]
  exact ⟨rfl, rfl⟩

/-- No run of lines without the marker changes the state of the commands. -/
theorem suspended_run {es : List DispatchedLine} (htoken : s.dispatcher.stopToken = some token)
    (hlines : ∀ e ∈ es, trim e.text ≠ resumeMarker token) :
    (Machine.run step s es).commandState = s.commandState ∧
      ∃ diagnostics : List RunnerEvent,
        (Machine.run step s es).dispatcher.pending = s.dispatcher.pending ++ diagnostics ∧
          ∀ d ∈ diagnostics, d.isAnnotation = true := by
  induction es generalizing s with
  | nil => exact ⟨rfl, [], (List.append_nil _).symm, by simp⟩
  | cons e es ih =>
    obtain ⟨hline, hlines⟩ := List.forall_mem_cons.mp hlines
    obtain ⟨hstate, ⟨first, hfirst, hall⟩, -⟩ := suspended_line htoken hline
    have htoken' : (s.step e).dispatcher.stopToken = some token := by
      rw [← stopToken_commandState, hstate]
      exact htoken
    obtain ⟨hrest, more, hmore, hall'⟩ := ih htoken' hlines
    refine ⟨hrest.trans hstate, first ++ more, ?_, List.forall_mem_append.mpr ⟨hall, hall'⟩⟩
    rw [Machine.run_cons, hmore, hfirst, List.append_assoc]

/-- From the moment a token is accepted, and until a line that is its marker but for white space around
    it, every line passes through and changes no state of the commands, whatever it reads as; the marker
    is consumed and resumes, also where it reads as a command. -/
theorem stop_commands_airtight (s : Dispatch A) (e : DispatchedLine) (token : Str)
    (hlive : s.dispatcher.stopToken = none) (haccept : (s.step e).dispatcher.stopToken = some token) :
    (parseCommand e.text = some (.stopCommands token) ∧ token ≠ [] ∧
      isReservedStopToken token = false) ∧
    (∀ es : List DispatchedLine, (∀ l ∈ es, trim l.text ≠ resumeMarker token) →
      let t := Machine.run step (s.step e) es
      t.commandState = (s.step e).commandState ∧
      (∃ diagnostics : List RunnerEvent,
        t.dispatcher.pending = (s.step e).dispatcher.pending ++ diagnostics ∧
          ∀ d ∈ diagnostics, d.isAnnotation = true) ∧
      (∀ l, trim l.text ≠ resumeMarker token → t.disposition l = .passThrough l.text) ∧
      ∀ l, trim l.text = resumeMarker token →
        t.step l = (t.withStream l.stream).resumed ∧ t.disposition l = .consumed) ∧
    trim (resumeMarker token) = resumeMarker token := by
  refine ⟨(accepted_iff hlive).mp haccept, fun es hlines => ?_, trim_resumeMarker token⟩
  obtain ⟨hstate, hpending⟩ := suspended_run haccept hlines
  have htoken : (Machine.run step (s.step e) es).dispatcher.stopToken = some token := by
    rw [← stopToken_commandState, hstate]
    exact haccept
  exact ⟨hstate, hpending, fun l hl => (suspended_line htoken hl).2.2,
    fun l hl => marker_line htoken hl⟩

/-! ### A concrete step -/

/-- A dispatcher at its start, in a job without matchers. -/
def fresh : Dispatch scanning where
  dispatcher := .new "step".toList "step".toList none
  ctx := ⟨[], ∅, ∅, .new, .empty⟩

/-- A machine without matcher files. -/
def bareWorld : Surroundings where
  crates := ⟨fun _ => true, fun _ => 1, fun _ _ => none, fun _ => .error (0, 0), fun _ => .error (0, 0)⟩
  readMatcher _ := .error []
  annotationPath _ _ := none

def outputLine (text : String) : DispatchedLine := ⟨bareWorld, text.toList, .stdout⟩

/-- The marker is met where it reads as a command of its own: it resumes and sets nothing. -/
theorem stop_commands_airtight_setOutput :
    let s := fresh.step (outputLine "::stop-commands::set-output name=x")
    (s.step (outputLine "::set-output name=x::")).dispatcher.setOutputs = [] ∧
      s.disposition (outputLine "::set-output name=x::") = .consumed := by
  intro s
  have h := stop_commands_airtight fresh (outputLine "::stop-commands::set-output name=x")
    "set-output name=x".toList rfl (by decide)
  obtain ⟨-, -, -, hmarker⟩ := h.2.1 [] (by simp)
  obtain ⟨hstep, hconsumed⟩ := hmarker (outputLine "::set-output name=x::") (by decide)
  refine ⟨?_, hconsumed⟩
  have hsets : s.dispatcher.setOutputs = [] := by decide
  exact (congrArg (fun t => t.dispatcher.setOutputs) hstep).trans hsets

/-- A line that is not exactly the marker resumes too, when it is the marker with white space around. -/
theorem padded_marker_resumes :
    ¬ ∀ (s : Dispatch scanning) (e : DispatchedLine) (token : Str), s.dispatcher.stopToken = none →
      (s.step e).dispatcher.stopToken = some token → ∀ es : List DispatchedLine,
        (∀ l ∈ es, l.text ≠ resumeMarker token) →
          (Machine.run step (s.step e) es).commandState = (s.step e).commandState := by
  intro h
  have hstate := h fresh (outputLine "::stop-commands::tok") "tok".toList rfl (by decide)
    [outputLine " ::tok:: ", outputLine "::set-output name=a::1"] (by decide)
  have hset : (Machine.run step (fresh.step (outputLine "::stop-commands::tok"))
      [outputLine " ::tok:: ", outputLine "::set-output name=a::1"]).dispatcher.setOutputs =
        [("a".toList, "1".toList)] := by decide
  have hsets := congrArg (fun t => t.dispatcher.setOutputs) hstate
  exact absurd (hset.symm.trans hsets) (by decide)

end Dispatch

end GhRunner.Execution
