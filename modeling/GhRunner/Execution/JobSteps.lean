import GhRunner.Lib.Machine
import GhRunner.Expressions.Value

namespace GhRunner.Execution

open Text Machine GhRunner.Expressions

/-!
# The steps of a job

The loop over the main steps, the posts they leave behind, and the result of the job
(`crates/execution/src/execution/steps_runner.rs`, `steps_runner/step_reports.rs`, `post_drain.rs`,
`step_naming.rs`, `context.rs`, `context/state.rs`, `job_cancellation.rs`).

* `Signals`, `fired` — when the job is cancelled, the runner shut down, the clean-up time over;
* `Step`, `PostStep` — a step, with what its evaluations answer and how its handler ends;
* `Job` — the context's status and step results, the queue of posts, and the events sent so far;
* `evaluateCondition`, `recordStepResult`, `runSingleStep` — one main step;
* `mainStep`, `runMainSteps` — the loop over them;
* `runOnePost`, `drainStep`, `drainPostSteps` — the posts, last registered first;
* `runMainAndPosts` — the two, and how they are merged.

What a handler does beyond its conclusion, and the names, numbers and log lines of the steps, are
left out.
-/

inductive Conclusion
  | success
  | failure
  | cancelled
  | skipped
deriving DecidableEq, Repr

/-- An error is told from another only where it is a cancellation. -/
inductive StepError
  | cancelled
  | other (message : Str)
deriving DecidableEq, Repr

/-! ### Cancellation -/

/-- When each signal fires, on a clock that every look at a signal advances.  None is taken back. -/
structure Signals where
  request : Option ℕ
  shutdown : Option ℕ
  /-- The end of the clean-up time of a cancelled job. -/
  deadline : Option ℕ

def fired (signal : Option ℕ) (now : ℕ) : Bool := signal.any fun time => decide (time ≤ now)

/-- Whether user work must stop even when its condition is still true. -/
def Signals.isForced (signals : Signals) (now : ℕ) : Bool :=
  fired signals.shutdown now || fired signals.deadline now

/-- A status, as the signals change it; they are looked at one after the other. -/
def Signals.status (signals : Signals) (prior : JobStatus) (now : ℕ) : JobStatus :=
  if fired signals.shutdown now then .failure
  else if fired signals.request (now + 1) then .cancelled
  else prior

/-! ### Steps -/

structure PostStep where
  reportId : Str
  condition : Option Str
  /-- What the evaluator makes of a condition, at a status of the job. -/
  evaluate : Str → JobStatus → Except StepError Bool
  result : Except StepError Conclusion
  continueOnError : Bool

structure Step where
  id : Str
  contextName : Option Str
  condition : Option Str
  /-- Whether its environment can be resolved. -/
  env : Except StepError Unit
  evaluate : Str → JobStatus → Except StepError Bool
  /-- How the step's handler ends, after any time. -/
  result : Except StepError Conclusion
  continueOnError : Bool
  /-- What the handler registers. -/
  posts : List PostStep

/-- Name visible through `steps.<name>`; generated and absent names are private. -/
def Step.expressionName (step : Step) : Option Str :=
  step.contextName.filter fun name => name ≠ [] ∧ ¬ ['_', '_'] <+: name

/-- The result of a step before `continue-on-error`. -/
def Step.outcome (step : Step) : Conclusion :=
  match step.result with
  | .ok outcome => outcome
  | .error _ => .failure

/-- What `continue-on-error` makes of a failure. -/
def adjust (continueOnError : Bool) (outcome : Conclusion) : Conclusion :=
  if outcome = .failure ∧ continueOnError = true then .success else outcome

/-! ### The job -/

inductive StepEvent
  | started (id : Str)
  /-- The line that is logged as the handler starts. -/
  | executing (id : Str)
  | skipped (id : Str)
  | completed (id : Str) (conclusion : Conclusion)
deriving DecidableEq, Repr

structure StepState where
  outcome : Option Conclusion := none
  conclusion : Option Conclusion := none
deriving DecidableEq, Repr

structure Job where
  status : JobStatus := .success
  steps : Str → StepState := fun _ => {}
  posts : List PostStep := []
  events : List StepEvent := []
  now : ℕ := 0

namespace Job

def send (job : Job) (event : StepEvent) : Job := { job with events := job.events ++ [event] }

/-- The signals have been looked at. -/
def elapse (job : Job) : Job := { job with now := job.now + 2 }

def setStepOutcome (job : Job) (name : Str) (outcome : Conclusion) : Job :=
  { job with steps := Function.update job.steps name { job.steps name with outcome } }

def setStepConclusion (job : Job) (name : Str) (conclusion : Conclusion) : Job :=
  { job with steps := Function.update job.steps name { job.steps name with conclusion } }

/-- Under the step's name, if it has one. -/
def recordOutcome (job : Job) (step : Step) (outcome : Conclusion) : Job :=
  match step.expressionName with
  | some name => job.setStepOutcome name outcome
  | none => job

def recordConclusion (job : Job) (step : Step) (conclusion : Conclusion) : Job :=
  match step.expressionName with
  | some name => job.setStepConclusion name conclusion
  | none => job

/-- A step whose handler does not run. -/
def recordUnstarted (job : Job) (step : Step) (conclusion : Conclusion) : Job :=
  (job.recordOutcome step conclusion).recordConclusion step conclusion

/-- Mark the job cancelled before evaluating cleanup conditions. -/
def recordJobCancelled (job : Job) : Job := { job with status := .cancelled }

variable (signals : Signals)

/-- Current aggregate job status used by step-condition functions. -/
def jobStatus (job : Job) : JobStatus := signals.status job.status job.now

/-- Mark the overall job status as failed. -/
def recordStepFailure (job : Job) : Job :=
  if job.jobStatus signals ≠ .cancelled then { job with status := .failure }.elapse
  else job.elapse

/-- Note a cancellation that has been asked for. -/
def noteCancellation (job : Job) : Job :=
  if fired signals.request job.now then job.recordJobCancelled.elapse else job.elapse

def literalStatusCondition (job : Job) (condition : Str) : Option Bool :=
  if trim condition = "success()".toList then some (job.jobStatus signals = .success)
  else if trim condition = "always()".toList then some true
  else if trim condition = "failure()".toList then some (job.jobStatus signals = .failure)
  else if trim condition = "cancelled()".toList then some (job.jobStatus signals = .cancelled)
  else none

def evaluateCondition (job : Job) (step : Step) : Except StepError Bool :=
  let condition := step.condition.getD "success()".toList
  if trim condition = [] then
    .ok ((job.literalStatusCondition signals "success()".toList).getD false)
  else
    match job.literalStatusCondition signals condition with
    | some literal => .ok literal
    | none => step.evaluate condition (job.jobStatus signals)

/-! ### One main step -/

/-- Report failure before handler execution, where continue-on-error cannot apply. -/
def recordConditionFailure (job : Job) (step : Step) : Job :=
  (((job.send (.started step.id)).recordUnstarted step .failure).recordStepFailure signals).send
    (.completed step.id .failure)

def reportSkippedStep (job : Job) (step : Step) : Job :=
  (((job.recordUnstarted step .skipped).send (.started step.id)).send (.skipped step.id)).send
    (.completed step.id .skipped)

/-- A step's real outcome is recorded; its conclusion is the one that `continue-on-error` makes of
    it. -/
def recordStepResult (job : Job) (step : Step) (outcome : Conclusion) : Job × Conclusion :=
  let conclusion := adjust step.continueOnError outcome
  let job := job.recordOutcome step outcome
  let job := if conclusion = .failure then job.recordStepFailure signals else job
  (job.recordConclusion step conclusion, conclusion)

def executeStartedStep (job : Job) (step : Step) : Job × Conclusion :=
  let job := job.send (.executing step.id)
  let (job, conclusion) :=
    { job with posts := job.posts ++ step.posts }.recordStepResult signals step step.outcome
  (job.send (.completed step.id conclusion), conclusion)

def runSingleStep (job : Job) (step : Step) : Job × Except StepError Conclusion :=
  if signals.isForced job.now then ((job.reportSkippedStep step).elapse, .ok .skipped)
  else
    let job := job.elapse
    match step.env.bind fun _ => job.evaluateCondition signals step with
    | .error _ => (job.elapse.recordConditionFailure signals step, .ok .failure)
    | .ok false => (job.elapse.reportSkippedStep step, .ok .success)
    | .ok true =>
      let (job, conclusion) := (job.elapse.send (.started step.id)).executeStartedStep signals step
      (job, .ok conclusion)

/-! ### The posts -/

/-- One post, up to the report of an error that it ends with. -/
def runOnePost (job : Job) (post : PostStep) : Job × Except StepError Conclusion :=
  let condition := post.condition.getD "always()".toList
  let status := job.jobStatus signals
  let job := (job.send (.started post.reportId)).elapse
  let skipped :=
    ((job.elapse.send (.skipped post.reportId)).send (.completed post.reportId .skipped),
      Except.ok Conclusion.skipped)
  if signals.isForced job.now then skipped
  else
    match post.evaluate condition status with
    | .error e => (job.elapse, .error e)
    | .ok false => skipped
    | .ok true =>
      let job := job.elapse.send (.executing post.reportId)
      match post.result with
      | .error .cancelled => (job, .error .cancelled)
      | result =>
        let outcome := match result with
          | .ok outcome => outcome
          | .error _ => .failure
        let conclusion := adjust post.continueOnError outcome
        (job.send (.completed post.reportId conclusion), .ok conclusion)

/-- The queue of posts is taken. -/
def emptied (job : Job) : Job := { job with posts := [] }

/-- The report of an error that a post ends with. -/
def reportPost (job : Job) (post : PostStep) : Except StepError Conclusion → Job × Conclusion
  | .ok conclusion => (job, conclusion)
  | .error .cancelled => (job.send (.completed post.reportId .cancelled), .cancelled)
  | .error (.other _) => (job.send (.completed post.reportId .failure), .failure)

end Job

/-- The posts that have run, and their conclusion. -/
structure Drain where
  job : Job
  aggregate : Conclusion

structure MainLoop where
  job : Job
  /-- The conclusion so far, or the error that has ended the loop. -/
  result : Except StepError Conclusion

section

variable (signals : Signals)

def mainStep (main : MainLoop) (step : Step) : MainLoop :=
  match main.result with
  | .error _ => main
  | .ok jobConclusion =>
    match (main.job.noteCancellation signals).runSingleStep signals step with
    | (job, .error e) => ⟨job, .error e⟩
    | (job, .ok stepConclusion) =>
      let jobConclusion :=
        if stepConclusion = .failure ∧ jobConclusion ≠ .cancelled then .failure else jobConclusion
      if stepConclusion = .cancelled then ⟨job.recordJobCancelled, .ok .cancelled⟩
      else ⟨job, .ok jobConclusion⟩

/-- The main step loop, and its aggregate conclusion. -/
def runMainSteps (job : Job) (steps : List Step) : MainLoop :=
  run (mainStep signals) ⟨job, .ok .success⟩ steps

def drainStep (drain : Drain) (post : PostStep) : Drain :=
  let (job, result) := (drain.job.noteCancellation signals).runOnePost signals post
  let (job, result) := job.reportPost post result
  if result = .failure then
    ⟨job.recordStepFailure signals,
      if drain.aggregate ≠ .cancelled then .failure else drain.aggregate⟩
  else if result = .cancelled then ⟨job.recordJobCancelled, .cancelled⟩
  else ⟨job, drain.aggregate⟩

/-- Drain the post-step queue LIFO. -/
def drainPostSteps (job : Job) : Drain :=
  run (drainStep signals) ⟨job.emptied, .success⟩ job.posts.reverse

/-- What the main loop leaves is noted before the posts run. -/
def endMain (main : MainLoop) : Job :=
  let job := match main.result with
    | .error _ => main.job.recordStepFailure signals
    | .ok _ => main.job
  if main.result = .ok .cancelled then job.recordJobCancelled.elapse
  else job.noteCancellation signals

/-- The job's result, from its signals and what its main steps and posts have come to. -/
def merge (job : Job) (main post : Conclusion) : Conclusion :=
  if fired signals.shutdown job.now then .failure
  else if fired signals.request (job.now + 1) then .cancelled
  else if main = .cancelled ∨ post = .cancelled then .cancelled
  else if main = .failure ∨ post = .failure then .failure
  else main

/-- Run main steps, then every registered cleanup stage before merging status. -/
def runMainAndPosts (job : Job) (steps : List Step) : Job × Except StepError Conclusion :=
  let main := runMainSteps signals job steps
  let drain := drainPostSteps signals (endMain signals main)
  let job := drain.job.noteCancellation signals
  (job, main.result.map fun conclusion => merge signals job conclusion drain.aggregate)

end

end GhRunner.Execution
