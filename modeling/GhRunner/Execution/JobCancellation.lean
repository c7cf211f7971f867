import GhRunner.Expressions.Evaluator
import GhRunner.Execution.Context
import GhRunner.Lib.Machine

namespace GhRunner.Execution.Cancellation

open Text GhRunner.Expressions

/-!
# Cancelling a job

`crates/execution/src/execution/job_cancellation.rs`, and of `steps_runner.rs`, `post_drain.rs` and
`composite_exec.rs` where they ask it.

* `JobCancellation` — the tokens of a job, the deadline that is set once and the task that waits for
  it; `withGrace`, `isForced`, `status`, `watchStep` — as the source has them;
* `StepCancellation` — a step's token and the task that evaluates its condition again;
* `JobTasks`, `step` — a job's tasks, the cancellations from outside and the clock, in any order.

A token that is cancelled cancels its children under their locks, so that no other task sees one
without the other.
-/

/-! ### The signals of a job -/

/-- Instants and durations, in a unit of the clock. -/
abbrev Instant := ℕ

def cleanupGrace : Instant := 300

/-- Where the task spawned by `withGrace` is. -/
inductive Watcher
  /-- Waiting for `force` or the request. -/
  | selecting
  /-- It has seen the request. -/
  | observed
  | sleepingUntil (deadline : Instant)
  | finished
deriving DecidableEq, Repr

/-- Job-scoped signals. -/
structure JobCancellation where
  grace : Instant
  /-- Graceful job cancellation, also fired when shutdown interrupts setup. -/
  request : Bool
  /-- Runner lifetime signal, which takes precedence over graceful cancellation. -/
  shutdown : Bool
  /-- Whether `force`, a child of `shutdown`, has been cancelled itself. -/
  forceFired : Bool
  deadline : Option Instant
  watcher : Watcher
deriving DecidableEq, Repr

namespace JobCancellation

/-- Interrupts every step when shutdown or the shared cleanup deadline fires. -/
def force (signal : JobCancellation) : Bool := signal.forceFired || signal.shutdown

/-- An already-fired signal is observed before any step can start. -/
def withGrace (request shutdown : Bool) (grace now : Instant) : JobCancellation :=
  let request := request || shutdown
  { grace
    request
    shutdown
    forceFired := false
    deadline := if request then some (now + grace) else none
    watcher := .selecting }

/-- The deadline is set at most once. -/
def getOrInit (signal : JobCancellation) (now : Instant) : JobCancellation × Instant :=
  match signal.deadline with
  | some deadline => (signal, deadline)
  | none => ({ signal with deadline := some (now + signal.grace) }, now + signal.grace)

/-- Whether user work must stop even when its condition is still true.  Latches `force`. -/
def isForced (signal : JobCancellation) (now : Instant) : Bool × JobCancellation :=
  let signal :=
    if signal.shutdown || signal.deadline.any (· ≤ now) then { signal with forceFired := true }
    else signal
  (signal.force, signal)

/-- Live cancellation over the aggregate execution status. -/
def status (signal : JobCancellation) (prior : JobStatus) : JobStatus :=
  if signal.shutdown then .failure
  else if signal.request then .cancelled
  else prior

/-! The branches of the watcher's two `select!`s. -/

def watcherStopped (signal : JobCancellation) : JobCancellation :=
  match signal.watcher with
  | .selecting =>
    if signal.force then { signal with request := true, watcher := .finished } else signal
  | .sleepingUntil _ => if signal.force then { signal with watcher := .finished } else signal
  | _ => signal

def watcherObserves (signal : JobCancellation) : JobCancellation :=
  match signal.watcher with
  | .selecting => if signal.request then { signal with watcher := .observed } else signal
  | _ => signal

def watcherSetsDeadline (signal : JobCancellation) (now : Instant) : JobCancellation :=
  match signal.watcher with
  | .observed =>
    let (signal, deadline) := signal.getOrInit now
    { signal with watcher := .sleepingUntil deadline }
  | _ => signal

def watcherWakes (signal : JobCancellation) (now : Instant) : JobCancellation :=
  match signal.watcher with
  | .sleepingUntil deadline =>
    if deadline ≤ now then { signal with forceFired := true, watcher := .finished } else signal
  | _ => signal

/-- Dropping the controller stops its deadline task. -/
def drop (signal : JobCancellation) : JobCancellation := { signal with watcher := .finished }

end JobCancellation

/-! ### The signal of a step -/

/-- Where the task spawned by `watchStep` is. -/
inductive StepWatcher
  | selecting
  /-- It has seen the request and goes on to evaluate the condition. -/
  | observed
  | finished
deriving DecidableEq, Repr

structure StepCancellation where
  /-- Whether the step's token, a child of `force`, has been cancelled itself. -/
  fired : Bool
  eval : EvalContext
  condition : Str
  watcher : StepWatcher

/-- An absent condition and a blank one are `success()`. -/
def watchStep (eval : EvalContext) (condition : Str) : StepCancellation where
  fired := false
  eval
  condition := if trim condition = [] then "success()".toList else condition
  watcher := .selecting

/-- The snapshot with the status of the job cancelled. -/
def withCancelledStatus (eval : EvalContext) : EvalContext where
  contexts :=
    match eval.contexts.lookup "job".toList with
    | some (.object job) =>
      eval.contexts.replace "job".toList
        (.object (objectInsert "status".toList (.string "cancelled".toList) job))
    | _ => eval.contexts
  jobStatus := .cancelled
  workspace := eval.workspace

/-- Whether a condition is true; one that fails is not. -/
def holds (platform : Platform) (eval : EvalContext) (condition : Str) : Bool :=
  match evaluate platform eval.shared condition with
  | .ok value => value.isTruthy
  | .error _ => false

namespace StepCancellation

def watcherStopped (watch : StepCancellation) (force : Bool) : StepCancellation :=
  match watch.watcher with
  | .selecting =>
    if watch.fired || force then { watch with watcher := .finished } else watch
  | _ => watch

def watcherObserves (watch : StepCancellation) (request : Bool) : StepCancellation :=
  match watch.watcher with
  | .selecting => if request then { watch with watcher := .observed } else watch
  | _ => watch

/-- Keep the running step unless its condition becomes false on cancellation. -/
def watcherDecides (platform : Platform) (watch : StepCancellation) : StepCancellation :=
  match watch.watcher with
  | .observed =>
    if holds platform (withCancelledStatus watch.eval) watch.condition then
      { watch with watcher := .finished }
    else { watch with fired := true, watcher := .finished }
  | _ => watch

/-- Dropped with its step; an aborted task that has nothing more to wait for still ends. -/
def drop (watch : StepCancellation) : StepCancellation :=
  match watch.watcher with
  | .selecting => { watch with watcher := .finished }
  | _ => watch

end StepCancellation

/-! ### The tasks of a job -/

/-- Where the job's own task is; what it does in between is its own. -/
inductive Task
  /-- Before a main step or a post step, or after the last. -/
  | between
  /-- The check has let the step pass; its condition is yet to be evaluated. -/
  | admitted
  /-- It runs the step of this ordinal, whatever the step is. -/
  | running (n : ℕ)
  | over
deriving DecidableEq, Repr

structure JobTasks where
  now : Instant
  signal : JobCancellation
  /-- When the request was first observed, by `withGrace` or by the watcher. -/
  observedAt : Option Instant
  /-- The steps that have been started, in order. -/
  watches : List StepCancellation
  task : Task

inductive Event
  /-- The job is cancelled from outside. -/
  | request
  | shutdown
  | tick (d : Instant)
  | watcherStopped
  | watcherObserves
  | watcherSetsDeadline
  | watcherWakes
  | stepWatcherStopped (n : ℕ)
  | stepWatcherObserves (n : ℕ)
  | stepWatcherDecides (n : ℕ)
  /-- `run_single_step` and `run_scoped_post` ask whether the step may go on. -/
  | check
  /-- The condition of the step is not true, or fails. -/
  | skip
  /-- The step starts, with a snapshot of its scope and its condition. -/
  | start (eval : EvalContext) (condition : Str)
  /-- A composite action that the step runs asks, before one of its own steps. -/
  | innerCheck
  | finish
  /-- The job's context goes, with the controller. -/
  | drop

namespace JobTasks

def init (request shutdown : Bool) (grace now : Instant) : JobTasks where
  now
  signal := .withGrace request shutdown grace now
  observedAt := if request || shutdown then some now else none
  watches := []
  task := .between

def modifyWatch (s : JobTasks) (n : ℕ) (f : StepCancellation → StepCancellation) : JobTasks :=
  { s with watches := s.watches.modify n f }

/-- Whether the token of the step of this ordinal is cancelled. -/
def stepCancelled (s : JobTasks) (n : ℕ) : Bool :=
  s.watches[n]?.any fun watch => watch.fired || s.signal.force

/-- `isForced` is asked: the answer, and the state with what it has latched. -/
def ask (s : JobTasks) : Bool × JobTasks :=
  let (answer, signal) := s.signal.isForced s.now
  (answer, { s with signal })

end JobTasks

open JobTasks in
/-- An event that is not enabled leaves everything as it is. -/
def step (platform : Platform) (s : JobTasks) : Event → JobTasks
  | .request => { s with signal := { s.signal with request := true } }
  | .shutdown => { s with signal := { s.signal with shutdown := true } }
  | .tick d => { s with now := s.now + d }
  | .watcherStopped => { s with signal := s.signal.watcherStopped }
  | .watcherObserves =>
    let signal := s.signal.watcherObserves
    { s with
      signal
      observedAt :=
        if signal.watcher = .observed then s.observedAt.or (some s.now) else s.observedAt }
  | .watcherSetsDeadline => { s with signal := s.signal.watcherSetsDeadline s.now }
  | .watcherWakes => { s with signal := s.signal.watcherWakes s.now }
  | .stepWatcherStopped n => s.modifyWatch n (·.watcherStopped s.signal.force)
  | .stepWatcherObserves n => s.modifyWatch n (·.watcherObserves s.signal.request)
  | .stepWatcherDecides n => s.modifyWatch n (·.watcherDecides platform)
  | .check =>
    if s.task = .between then
      let (forced, s) := s.ask
      if forced then s else { s with task := .admitted }
    else s
  | .skip => if s.task = .admitted then { s with task := .between } else s
  | .start eval condition =>
    if s.task = .admitted then
      { s with
        watches := s.watches ++ [watchStep eval condition]
        task := .running s.watches.length }
    else s
  | .innerCheck =>
    match s.task with
    | .running _ => s.ask.2
    | _ => s
  | .finish =>
    match s.task with
    | .running n => { s.modifyWatch n (·.drop) with task := .between }
    | _ => s
  | .drop =>
    if s.task = .between then { s with signal := s.signal.drop, task := .over } else s

abbrev run (platform : Platform) : JobTasks → List Event → JobTasks :=
  Machine.run (step platform)

end GhRunner.Execution.Cancellation
