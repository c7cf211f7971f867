import GhRunner.Execution.JobSteps
import Mathlib.Data.Finmap

namespace GhRunner.Listener

open Text

/-!
# The event forwarder

What becomes of the events of a job, and of its log lines: `spawn_event_forwarder`, `forward_events`,
`finish_forwarder` and `handle_event_arm` of `crates/listener/src/execution_loop.rs`, with
`setup_forwarding.rs` and `execution_loop_logs.rs`.

* `Journal`, `Journal.handleEventArm` — what the collector, the combined log, the uploaders of the steps
  and the live log have got;
* `ForwarderState`, `beforeEvent`, `finishSetup` — the set-up step, which is open until something ends it;
* `forwardEvents`, `runForwarder` — the loop over the engine's events, from the lines of the set-up on;
* `addressed`, `journalled` — the events as the journal gets them;
* `runForwarder_journal` — it gets each of them once, in that order.

Writes to the spool of the combined log succeed, and an uploader takes what it is sent.
-/

abbrev Conclusion := Execution.Conclusion

inductive RunnerEvent
  | stepSummary (stepId content : Str)
  | jobStarted
  | stepStarted (stepId stepName : Str) (stepNumber : ℕ)
  | stepCompleted (stepId : Str) (conclusion : Conclusion)
  | stepSkipped (stepId : Str)
  | log (stepId line : Str)
  | logGroup (stepId : Str)
  | annotation (stepId : Str)
  | jobCompleted (conclusion : Conclusion) (outputs : List (Str × Str)) (environmentUrl : Option Str)
  | stepMetadata (stepId kind : Str) (action : Option Str)
  | infrastructureError (message : Str)
deriving DecidableEq, Repr

/-- Reserved routing ID for engine preparation diagnostics; the listener maps it to its setup UUID. -/
def setupStepId : Str := "__toolu_setup_job".toList

/-- What the live-log channel answers to a line. -/
inductive LiveSend
  | sent
  | full
  | closed
deriving DecidableEq, Repr

/-- What an event meets: the masker's patterns at that time, and the live-log channel. -/
structure Moment where
  mask : Str → Str
  live : LiveSend

/-- For the forwarder's own events, which nothing masks. -/
def Moment.quiet : Moment := ⟨fun text => text, .full⟩

structure FwdConfig where
  setupId : Option Str
  /-- Whether there is a Results Service. -/
  resultsUrl : Bool
  /-- Whether there is a live log. -/
  liveLog : Bool
deriving DecidableEq, Repr

/-! ### The journal -/

/-- What an uploader was started for, and the lines it was sent. -/
structure Upload where
  stepId : Str
  stepName : Str
  lines : List Str
deriving DecidableEq, Repr

structure Journal where
  /-- What the collector was told. -/
  recorded : List RunnerEvent
  jobLog : List Str
  /-- Which upload takes the lines of a step. -/
  uploaders : Finmap fun _ : Str => ℕ
  uploads : List Upload
  summaries : List (Str × Str)
  liveLines : List (Str × Str)
  liveLogClosed : Bool

namespace Journal

def empty : Journal := ⟨[], [], ∅, [], [], [], false⟩

variable (cfg : FwdConfig) (j : Journal)

def record (event : RunnerEvent) : Journal := { j with recorded := j.recorded ++ [event] }

def spawnStepUploader (stepId stepName : Str) : Journal :=
  if cfg.resultsUrl then
    { j with
      uploads := j.uploads ++ [⟨stepId, stepName, []⟩]
      uploaders := j.uploaders.insert stepId j.uploads.length }
  else j

/-- The line of the step goes to its uploader, if it has one. -/
def sendToUploader (stepId masked : Str) : Journal :=
  match j.uploaders.lookup stepId with
  | some n => { j with uploads := j.uploads.modify n fun u => { u with lines := u.lines ++ [masked] } }
  | none => j

def forwardLiveLine (live : LiveSend) (stepId masked : Str) : Journal :=
  if cfg.liveLog && !j.liveLogClosed then
    match live with
    | .sent => { j with liveLines := j.liveLines ++ [(stepId, masked)] }
    | .full => j
    | .closed => { j with liveLogClosed := true }
  else j

/-- Mask a log line once and fan it out to every consumer. -/
def forwardLogLine (m : Moment) (stepId line : Str) : Journal :=
  let masked := m.mask line
  let j := { j with jobLog := j.jobLog ++ [masked] }
  (j.sendToUploader stepId masked).forwardLiveLine cfg m.live stepId masked

/-- Dispatch the per-event side effects. -/
def handleEventArm (m : Moment) : RunnerEvent → Journal
  | .stepSummary stepId content =>
    if cfg.resultsUrl then { j with summaries := j.summaries ++ [(stepId, m.mask content)] } else j
  | .stepStarted stepId stepName _ => j.spawnStepUploader cfg stepId stepName
  | .log stepId line => j.forwardLogLine cfg m stepId line
  | .stepCompleted stepId _ =>
    -- the uploader of the set-up stays, for downloads that come later
    if cfg.setupId ≠ some stepId then { j with uploaders := j.uploaders.erase stepId } else j
  | _ => j

/-- The event is recorded, and has its effects. -/
def handle (e : Moment × RunnerEvent) : Journal := (j.record e.2).handleEventArm cfg e.1 e.2

end Journal

/-! ### The loop -/

structure ForwarderState where
  setupPending : Bool
  journal : Journal
  conclusion : Option Conclusion
  outputs : List (Str × Str)
  environmentUrl : Option Str

/-- An event of the engine, with the moment it comes in, whether the job was cancelled by then, and
    whether the listener still takes events. -/
structure Arrival where
  event : RunnerEvent
  moment : Moment
  cancelled : Bool
  taken : Bool

namespace ForwarderState

variable (cfg : FwdConfig) (s : ForwarderState)

def new : ForwarderState := ⟨cfg.setupId.isSome, .empty, none, [], none⟩

def deliver (m : Moment) (event : RunnerEvent) : ForwarderState :=
  { s with journal := s.journal.handle cfg (m, event) }

/-- Start the setup log even when the Results Service is absent. -/
def start (lines : List (Moment × Str)) : ForwarderState :=
  match cfg.setupId with
  | none => s
  | some id =>
    let s := s.deliver cfg .quiet (.stepStarted id "Set up job".toList 1)
    let s := s.deliver cfg .quiet (.stepMetadata id "runner".toList (some "setup_job".toList))
    lines.foldl (fun s line => s.deliver cfg line.1 (.log id line.2)) s

/-- Complete setup once; its uploader is retained. -/
def finishSetup (conclusion : Conclusion) : ForwarderState :=
  if s.setupPending then
    let s := { s with setupPending := false }
    match cfg.setupId with
    | none => s
    | some id => s.deliver cfg .quiet (.stepCompleted id conclusion)
  else s

/-- Close initial setup before the first executable step; a line of the set-up is given its id. -/
def beforeEvent (a : Arrival) : ForwarderState × RunnerEvent :=
  match a.event with
  | .stepStarted .. => (s.finishSetup cfg (if a.cancelled then .cancelled else .success), a.event)
  | .jobCompleted conclusion _ _ => (s.finishSetup cfg conclusion, a.event)
  | .log stepId line =>
    match cfg.setupId with
    | some id => (s, if stepId = setupStepId ∨ s.setupPending then .log id line else .log stepId line)
    | none => (s, .log stepId line)
  | event => (s, event)

/-- The job's result is latched. -/
def latch : RunnerEvent → ForwarderState
  | .jobCompleted conclusion outputs environmentUrl =>
    { s with conclusion := some conclusion, outputs := outputs, environmentUrl := environmentUrl }
  | _ => s

def maskMessage (m : Moment) : RunnerEvent → RunnerEvent
  | .infrastructureError message => .infrastructureError (m.mask message)
  | event => event

def forwardEvent (a : Arrival) : ForwarderState :=
  let (s, event) := s.beforeEvent cfg a
  (s.latch event).deliver cfg a.moment (maskMessage a.moment event)

/-- Until the channel closes, or the listener is gone. -/
def forwardEvents (s : ForwarderState) : List Arrival → ForwarderState
  | [] => s
  | a :: rest => if a.taken then forwardEvents (s.forwardEvent cfg a) rest else s.forwardEvent cfg a

end ForwarderState

/-- The forwarder, from the lines of the set-up to the end of the engine's events. -/
def runForwarder (cfg : FwdConfig) (lines : List (Moment × Str)) (arrivals : List Arrival) :
    ForwarderState :=
  (((ForwarderState.new cfg).start cfg lines).forwardEvents cfg arrivals).finishSetup cfg .failure

/-! ### The events of the journal -/

/-- The engine's events that the forwarder receives: after one that the listener does not take, none. -/
def received : List Arrival → List Arrival
  | [] => []
  | a :: rest => a :: if a.taken then received rest else []

def endsSetup : RunnerEvent → Bool
  | .stepStarted .. | .jobCompleted .. => true
  | _ => false

/-- An event as it reaches the journal, while setup is pending or after. -/
def addressed (setup : Str) (pending : Bool) (a : Arrival) : Moment × RunnerEvent :=
  (a.moment,
    match a.event with
    | .log stepId line => if stepId = setupStepId ∨ pending then .log setup line else .log stepId line
    | event => ForwarderState.maskMessage a.moment event)

def opening (setup : Str) (lines : List (Moment × Str)) : List (Moment × RunnerEvent) :=
  (.quiet, .stepStarted setup "Set up job".toList 1) ::
    (.quiet, .stepMetadata setup "runner".toList (some "setup_job".toList)) ::
    lines.map fun line => (line.1, .log setup line.2)

/-- What setup is completed with: as the event says that ends it, or as failed when none does. -/
def setupConclusion : List Arrival → Conclusion
  | [] => .failure
  | a :: _ =>
    match a.event with
    | .jobCompleted conclusion _ _ => conclusion
    | _ => if a.cancelled then .cancelled else .success

/-- The events before the one that ends setup, and from it on. -/
def early (arrivals : List Arrival) : List Arrival := arrivals.takeWhile fun a => !endsSetup a.event

def late (arrivals : List Arrival) : List Arrival := arrivals.dropWhile fun a => !endsSetup a.event

/-- Setup's completion and what follows, after the events so far. -/
def fromCompletion (setup : Str) (arrivals : List Arrival) : List (Moment × RunnerEvent) :=
  (.quiet, .stepCompleted setup (setupConclusion arrivals)) :: arrivals.map (addressed setup false)

def journalled (setup : Str) (lines : List (Moment × Str)) (arrivals : List Arrival) :
    List (Moment × RunnerEvent) :=
  opening setup lines ++ ((early arrivals).map (addressed setup true) ++
    fromCompletion setup (late arrivals))

section Loop

/-- The configuration of a job whose set-up is reported. -/
abbrev reporting (setup : Str) (url live : Bool) : FwdConfig := ⟨some setup, url, live⟩

variable (setup : Str) (url live : Bool)

theorem finishSetup_done (cfg : FwdConfig) {s : ForwarderState} (h : s.setupPending = false)
    (conclusion : Conclusion) : s.finishSetup cfg conclusion = s := by
  rw [ForwarderState.finishSetup, h]
  rfl

@[simp] theorem deliver_latch_journal (cfg : FwdConfig) (s : ForwarderState) (event : RunnerEvent)
    (m : Moment) (e : RunnerEvent) :
    ((s.latch event).deliver cfg m e).journal = s.journal.handle cfg (m, e) := by
  cases event <;> rfl

@[simp] theorem deliver_latch_setupPending (cfg : FwdConfig) (s : ForwarderState) (event : RunnerEvent)
    (m : Moment) (e : RunnerEvent) :
    ((s.latch event).deliver cfg m e).setupPending = s.setupPending := by
  cases event <;> rfl

/-- After setup an event goes on as it is, but for lines with the reserved id. -/
theorem forwardEvent_done {s : ForwarderState} (h : s.setupPending = false) (a : Arrival) :
    (s.forwardEvent (reporting setup url live) a).setupPending = false ∧
      (s.forwardEvent (reporting setup url live) a).journal =
        s.journal.handle (reporting setup url live) (addressed setup false a) := by
  have hbefore : ∃ event, s.beforeEvent (reporting setup url live) a = (s, event) ∧
      addressed setup false a = (a.moment, ForwarderState.maskMessage a.moment event) := by
    obtain ⟨event, m, cancelled, taken⟩ := a
    cases event with
    | stepStarted | jobCompleted =>
      unfold ForwarderState.beforeEvent
      dsimp only
      rw [finishSetup_done _ h]
      exact ⟨_, rfl, rfl⟩
    | log stepId line =>
      refine ⟨_, rfl, ?_⟩
      rw [h]
      unfold addressed
      dsimp only
      split <;> rfl
    | _ => exact ⟨_, rfl, rfl⟩
  obtain ⟨event, hbefore, haddressed⟩ := hbefore
  unfold ForwarderState.forwardEvent
  rw [hbefore, haddressed]
  exact ⟨(deliver_latch_setupPending ..).trans h, deliver_latch_journal ..⟩

/-- While setup is pending, an event that does not end it changes no more. -/
theorem forwardEvent_pending {s : ForwarderState} (h : s.setupPending = true) {a : Arrival}
    (ha : endsSetup a.event = false) :
    (s.forwardEvent (reporting setup url live) a).setupPending = true ∧
      (s.forwardEvent (reporting setup url live) a).journal =
        s.journal.handle (reporting setup url live) (addressed setup true a) := by
  have hbefore : ∃ event, s.beforeEvent (reporting setup url live) a = (s, event) ∧
      addressed setup true a = (a.moment, ForwarderState.maskMessage a.moment event) := by
    obtain ⟨event, m, cancelled, taken⟩ := a
    cases event with
    | stepStarted | jobCompleted => cases ha
    | log stepId line =>
      refine ⟨_, rfl, ?_⟩
      rw [h]
      unfold addressed
      dsimp only
      split <;> rfl
    | _ => exact ⟨_, rfl, rfl⟩
  obtain ⟨event, hbefore, haddressed⟩ := hbefore
  unfold ForwarderState.forwardEvent
  rw [hbefore, haddressed]
  exact ⟨(deliver_latch_setupPending ..).trans h, deliver_latch_journal ..⟩

/-- The event that ends setup comes after its completion. -/
theorem forwardEvent_ends {s : ForwarderState} (h : s.setupPending = true) {a : Arrival}
    (ha : endsSetup a.event = true) (rest : List Arrival) :
    (s.forwardEvent (reporting setup url live) a).setupPending = false ∧
      (s.forwardEvent (reporting setup url live) a).journal =
        (s.journal.handle (reporting setup url live)
          (.quiet, .stepCompleted setup (setupConclusion (a :: rest)))).handle (reporting setup url live)
            (addressed setup false a) := by
  have hfinish (conclusion : Conclusion) : s.finishSetup (reporting setup url live) conclusion =
      { s with setupPending := false }.deliver (reporting setup url live) .quiet
        (.stepCompleted setup conclusion) := if_pos h
  obtain ⟨event, m, cancelled, taken⟩ := a
  cases event with
  | stepStarted | jobCompleted =>
    unfold ForwarderState.forwardEvent ForwarderState.beforeEvent
    dsimp only
    rw [hfinish]
    exact ⟨rfl, rfl⟩
  | _ => cases ha

theorem forwardEvents_done {s : ForwarderState} (h : s.setupPending = false) (arrivals : List Arrival) :
    (s.forwardEvents (reporting setup url live) arrivals).setupPending = false ∧
      (s.forwardEvents (reporting setup url live) arrivals).journal =
        ((received arrivals).map (addressed setup false)).foldl
          (Journal.handle (reporting setup url live)) s.journal := by
  induction arrivals generalizing s with
  | nil => exact ⟨h, rfl⟩
  | cons a rest ih =>
    obtain ⟨hdone, hjournal⟩ := forwardEvent_done setup url live h a
    unfold ForwarderState.forwardEvents received
    split
    case isTrue =>
      obtain ⟨hrest, hmore⟩ := ih hdone
      refine ⟨hrest, ?_⟩
      rw [hmore, hjournal]
      rfl
    case isFalse => exact ⟨hdone, hjournal⟩

/-- All of the engine's events, from where setup is pending, and the end of the forwarder. -/
theorem forwardEvents_pending {s : ForwarderState} (h : s.setupPending = true)
    (arrivals : List Arrival) :
    ((s.forwardEvents (reporting setup url live) arrivals).finishSetup (reporting setup url live)
        .failure).journal =
      ((early (received arrivals)).map (addressed setup true) ++
        fromCompletion setup (late (received arrivals))).foldl
          (Journal.handle (reporting setup url live)) s.journal := by
  have hfinish {s : ForwarderState} (h : s.setupPending = true) :
      (s.finishSetup (reporting setup url live) .failure).journal =
        s.journal.handle (reporting setup url live) (.quiet, .stepCompleted setup .failure) := by
    rw [ForwarderState.finishSetup, if_pos h]
    rfl
  induction arrivals generalizing s with
  | nil => exact hfinish h
  | cons a rest ih =>
    cases ha : endsSetup a.event with
    | true =>
      have hearly (more : List Arrival) : early (a :: more) = [] :=
        List.takeWhile_cons_of_neg (by rw [ha]; exact Bool.false_ne_true)
      have hlate (more : List Arrival) : late (a :: more) = a :: more :=
        List.dropWhile_cons_of_neg (by rw [ha]; exact Bool.false_ne_true)
      obtain ⟨hdone, hjournal⟩ := forwardEvent_ends setup url live h ha
        (if a.taken then received rest else [])
      unfold ForwarderState.forwardEvents received
      rw [hearly, hlate]
      split
      case isTrue htaken =>
        -- setup is over: the end of the forwarder finds nothing to finish
        obtain ⟨hrest, hmore⟩ := forwardEvents_done setup url live hdone rest
        rw [if_pos htaken] at hjournal
        rw [finishSetup_done _ hrest, hmore, hjournal]
        rfl
      case isFalse htaken =>
        rw [if_neg htaken] at hjournal
        rw [finishSetup_done _ hdone, hjournal]
        rfl
    | false =>
      obtain ⟨hpending, hjournal⟩ := forwardEvent_pending setup url live h ha
      have hearly (more : List Arrival) : early (a :: more) = a :: early more :=
        List.takeWhile_cons_of_pos (by rw [ha]; rfl)
      have hlate (more : List Arrival) : late (a :: more) = late more :=
        List.dropWhile_cons_of_pos (by rw [ha]; rfl)
      unfold ForwarderState.forwardEvents received
      rw [hearly, hlate]
      split
      case isTrue =>
        rw [ih hpending, hjournal]
        rfl
      case isFalse =>
        rw [hfinish hpending, hjournal]
        rfl

/-- The whole run: the journal takes each of these events once, in this order. -/
theorem runForwarder_journal (lines : List (Moment × Str)) (arrivals : List Arrival) :
    (runForwarder (reporting setup url live) lines arrivals).journal =
      (journalled setup lines (received arrivals)).foldl (Journal.handle (reporting setup url live))
        .empty := by
  have hlines (s : ForwarderState) : s.setupPending = true →
      (lines.foldl (fun s line => s.deliver (reporting setup url live) line.1 (.log setup line.2))
          s).setupPending = true ∧
        (lines.foldl (fun s line => s.deliver (reporting setup url live) line.1 (.log setup line.2))
          s).journal =
          (lines.map fun line => (line.1, RunnerEvent.log setup line.2)).foldl
            (Journal.handle (reporting setup url live)) s.journal := by
    induction lines generalizing s with
    | nil => exact fun h => ⟨h, rfl⟩
    | cons line rest ih => exact fun h => ih (s.deliver _ line.1 (.log setup line.2)) h
  obtain ⟨hpending, hjournal⟩ := hlines
    (((ForwarderState.new (reporting setup url live)).deliver (reporting setup url live) .quiet
      (.stepStarted setup "Set up job".toList 1)).deliver (reporting setup url live) .quiet
        (.stepMetadata setup "runner".toList (some "setup_job".toList))) rfl
  unfold journalled
  rw [List.foldl_append]
  refine (forwardEvents_pending setup url live hpending arrivals).trans ?_
  rw [hjournal]
  rfl

end Loop

end GhRunner.Listener
