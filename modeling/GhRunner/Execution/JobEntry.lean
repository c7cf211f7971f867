import GhRunner.Execution.JobSteps
import GhRunner.Lib.Dialogue

namespace GhRunner.Execution.JobEntry

open Text Procedure

/-!
# A job from its claim to its teardown

`crates/execution/src/execution/job_runner/entry.rs`, and what `job_runner.rs` has around it.

* `Phase` — what a job does, one thing after another, each with any outcome;
* `run`, `runJobWithShutdown` — as the source has them;
* `Monitor` — what is up, and what has been reported; a phase that comes too early is not accepted;
* `run_monitored` — of every job: the local servers are down, the containers removed and the processes
  swept before the completion is reported, which is once for a job that has a result and never else.
-/

/-- What a finished job reports, without its id. -/
structure JobOutcome where
  conclusion : Conclusion
  outputs : List (Str × Str)
  environmentUrl : Option Str
deriving DecidableEq, Repr

/-- What has to succeed before the next thing. -/
inductive Preparation
  | claimWorkspace
  | buildContext
  | applyEnvironment
  | evaluateContainer
  | evaluateServices
  | prepareWorkspace
  | buildClient
  | setupEnv
deriving DecidableEq, Repr

inductive Phase
  | prepare (what : Preparation)
  | emptyTempDirs
  | startLocalServices
  | stopLocalServices
  | startContainer
  /-- The hooks, the steps and the posts. -/
  | execute
  /-- The cleanups of `finish_container`. -/
  | removeContainers
  | sweep
  | isShutdown
  | completed (outcome : JobOutcome)

/-- Whether the local services have a server, and whether the containers are there, is part of a
    reply. -/
abbrev Reply (ε : Type) : Phase → Type
  | .prepare _ | .removeContainers => Except ε Unit
  | .startLocalServices | .startContainer => Except ε Bool
  | .execute => Except ε JobOutcome
  | .isShutdown => Bool
  | .emptyTempDirs | .stopLocalServices | .sweep | .completed _ => Unit

section Source

variable {ε : Type}

abbrev JobTask (ε α : Type) := Procedure Phase (Reply ε) Unit ε α

abbrev phase (q : Phase) : JobTask ε (Reply ε q) := Procedure.ask q

def prepare (what : Preparation) : JobTask ε Unit := do
  lift (← phase (.prepare what))

/-- `stop_local_services`; whether there is something to maintain. -/
def stopLocalServices (isUp : Bool) : JobTask ε Bool := do
  if isUp then phase .stopLocalServices
  pure isUp

/-- A runner shutdown fails the job whatever its steps concluded. -/
def afterShutdown (conclusion : Conclusion) : JobTask ε Conclusion := do
  if ← phase .isShutdown then pure .failure else pure conclusion

/-- Stop the local servers, emit `JobCompleted`, and package the deferred work. -/
def finishJob (isUp : Bool) (outcome : JobOutcome) : JobTask ε Bool := do
  let maintenance ← stopLocalServices isUp
  phase (.completed outcome)
  pure maintenance

/-- `finish_job` of a result, with the shutdown looked for just before. -/
def reportJob (isUp : Bool) (result : JobOutcome) : JobTask ε Bool := do
  let conclusion ← afterShutdown result.conclusion
  finishJob isUp { result with conclusion := conclusion }

def startJobServices : JobTask ε Bool := do
  prepare .buildClient
  let isUp ← lift (← phase .startLocalServices)
  match ← phase (.prepare .setupEnv) with
  | .error e => do
    let _ ← stopLocalServices isUp
    throw e
  | .ok () => pure isUp

/-- The teardown of a job that ends here, if it does. -/
def startJobContainer (isUp : Bool) : JobTask ε (Option Bool) := do
  match ← phase .startContainer with
  | .ok true => pure none
  | .ok false => do
    let teardown ← reportJob isUp ⟨.cancelled, [], none⟩
    pure (some teardown)
  | .error e => do
    let _ ← stopLocalServices isUp
    throw e

/-- The result of the body and that of the cleanups; `both` has an error for each. -/
def joinBody (both : ε → ε → ε) : Except ε JobOutcome → Except ε Unit → Except ε JobOutcome
  | .ok result, .ok () => .ok result
  | .error error, .ok () => .error error
  | .ok _, .error error => .error error
  | .error error, .error cleanup => .error (both error cleanup)

def finishExecution (both : ε → ε → ε) (tracking : Bool) (body : Except ε JobOutcome) (isUp : Bool) :
    JobTask ε Bool := do
  let cleanup ← phase .removeContainers
  if tracking then phase .sweep
  match joinBody both body cleanup with
  | .error e => do
    let _ ← stopLocalServices isUp
    throw e
  | .ok result => reportJob isUp result

/-- Initialize, execute, and tear down one acquired job. -/
def run (both : ε → ε → ε) (tracking : Bool) : JobTask ε Bool := do
  prepare .claimWorkspace
  phase .emptyTempDirs
  prepare .buildContext
  prepare .applyEnvironment
  prepare .evaluateContainer
  prepare .evaluateServices
  prepare .prepareWorkspace
  let isUp ← startJobServices
  match ← startJobContainer isUp with
  | some teardown => pure teardown
  | none => do
    let body ← phase .execute
    finishExecution both tracking body isUp

end Source

/-! ### What is up, and what has been reported -/

structure Monitor where
  /-- A local server is up. -/
  server : Bool
  containers : Bool
  /-- Processes of the steps may be left. -/
  processes : Bool
  /-- What the steps have come to, or a start that was cancelled. -/
  result : Option JobOutcome
  /-- Whether a shutdown was seen, once it was looked for. -/
  shutdown : Option Bool
  completed : Option JobOutcome

namespace Monitor

def start : Monitor := ⟨false, false, false, none, none, none⟩

/-- Everything the job has brought up is down. -/
def Down (m : Monitor) : Prop := m.server = false ∧ m.containers = false ∧ m.processes = false

instance (m : Monitor) : Decidable m.Down := inferInstanceAs (Decidable (_ ∧ _ ∧ _))

/-- What is to be reported. -/
def report (m : Monitor) : Option JobOutcome := do
  let result ← m.result
  let shutdown ← m.shutdown
  some { result with conclusion := if shutdown then .failure else result.conclusion }

variable {ε : Type} (tracking : Bool)

/-- What a phase does, where it may come.  After the report nothing comes but the emptying of the temp
    directories; a report comes once everything is down, and is the one that is due. -/
def step (m : Monitor) (e : Exchange (Reply ε)) : Option Monitor :=
  match m.completed, e with
  | _, ⟨.emptyTempDirs, _⟩ => some m
  | some _, _ => none
  | none, ⟨.prepare _, _⟩ => some m
  | none, ⟨.startLocalServices, .ok up⟩ => if m.server then none else some { m with server := up }
  | none, ⟨.startLocalServices, .error _⟩ => some m
  | none, ⟨.stopLocalServices, _⟩ => if m.server then some { m with server := false } else none
  | none, ⟨.startContainer, .ok true⟩ =>
    if m.containers then none else some { m with containers := true }
  | none, ⟨.startContainer, .ok false⟩ => some { m with result := some ⟨.cancelled, [], none⟩ }
  | none, ⟨.startContainer, .error _⟩ => some m
  | none, ⟨.execute, body⟩ =>
    if m.containers then some { m with processes := tracking, result := body.toOption } else none
  | none, ⟨.removeContainers, _⟩ => if m.containers then some { m with containers := false } else none
  -- a process may still use the containers
  | none, ⟨.sweep, _⟩ => if m.containers then none else some { m with processes := false }
  | none, ⟨.isShutdown, cancelled⟩ => some { m with shutdown := some cancelled }
  | none, ⟨.completed outcome, _⟩ =>
    if m.Down ∧ m.report = some outcome then some { m with completed := some outcome } else none

end Monitor

section Spec

variable {ε : Type} {both : ε → ε → ε} {tracking : Bool} {m : Monitor}

/-- The monitor accepts what is done from here, and leads to one with this property. -/
abbrev Watched {α : Type} (tracking : Bool) (m : Monitor) (t : JobTask ε α)
    (post : Monitor → Except ε α → Prop) : Prop :=
  Monitored (Monitor.step tracking) m () t fun m' r _ => post m' r

/-- A phase, and what follows its reply. -/
theorem watched_phase {α : Type} {q : Phase} {f : Reply ε q → JobTask ε α}
    {post : Monitor → Except ε α → Prop}
    (h : ∀ r, ∃ m', m.step tracking ⟨q, r⟩ = some m' ∧ Watched tracking m' (f r) post) :
    Watched tracking m (phase q >>= f) post := monitored_ask_bind h

/-- A part, and what follows its result; after its failure comes nothing. -/
theorem Watched.andThen {α β : Type} {t : JobTask ε α} {f : α → JobTask ε β}
    {mid : Monitor → Except ε α → Prop} {post : Monitor → Except ε β → Prop}
    (h : Watched tracking m t mid) (hok : ∀ m' a, mid m' (.ok a) → Watched tracking m' (f a) post)
    (herror : ∀ m' e, mid m' (.error e) → post m' (.error e)) :
    Watched tracking m (t >>= f) post :=
  Monitored.bind h (fun m' a _ => hok m' a) fun m' e _ => herror m' e

/-- A server that is up is stopped, and one that is not is not. -/
theorem watched_stopLocalServices (h : m.completed = none) {isUp : Bool} (hserver : m.server = isUp) :
    Watched tracking m (stopLocalServices isUp : JobTask ε Bool) fun m' r =>
      r = .ok isUp ∧ m' = { m with server := false } := by
  cases isUp with
  | false => exact monitored_pure ⟨rfl, by rw [← hserver]⟩
  | true =>
    apply watched_phase
    intro r
    exact ⟨{ m with server := false }, by simp [Monitor.step, h, hserver], monitored_pure ⟨rfl, rfl⟩⟩

/-- A job that is over: all it has brought up is down, and it is reported if it has a result. -/
def Over {α : Type} (m : Monitor) (r : Except ε α) : Prop :=
  m.Down ∧ (m.completed.isSome = true ↔ r.isOk = true)

theorem step_completed {outcome : JobOutcome} (hcompleted : m.completed = none) (hdown : m.Down)
    (hreport : m.report = some outcome) (r : Reply ε (.completed outcome)) :
    m.step tracking ⟨.completed outcome, r⟩ = some { m with completed := some outcome } := by
  simp [Monitor.step, hcompleted, hdown, hreport]

theorem watched_finishJob {outcome : JobOutcome} (hcompleted : m.completed = none)
    (hcontainers : m.containers = false) (hprocesses : m.processes = false)
    (hreport : m.report = some outcome) {isUp : Bool} (hserver : m.server = isUp) :
    Watched tracking m (finishJob isUp outcome : JobTask ε Bool) fun m' r => Over m' r ∧ r.isOk = true := by
  apply (watched_stopLocalServices hcompleted hserver).andThen
  · rintro m' maintenance ⟨-, rfl⟩
    apply watched_phase
    intro r
    refine ⟨{ m with server := false, completed := some outcome }, ?_, ?_⟩
    · exact @step_completed _ tracking { m with server := false } _ hcompleted
        ⟨rfl, hcontainers, hprocesses⟩ hreport r
    · exact monitored_pure ⟨⟨⟨rfl, hcontainers, hprocesses⟩, Iff.rfl⟩, rfl⟩
  · rintro m' e ⟨h, -⟩
    cases h

/-- What has been brought up when the containers are started. -/
structure Fresh (m : Monitor) : Prop where
  completed : m.completed = none
  containers : m.containers = false
  processes : m.processes = false

end Spec

end GhRunner.Execution.JobEntry
