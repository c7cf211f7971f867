import GhRunner.Lib.Lockstep
import GhRunner.Execution.JobSteps

namespace GhRunner.Execution.Depth

open Text Lockstep

/-!
# The depth of nested composite actions

What a job's one depth tracker counts while composite actions run each other
(`crates/execution/src/execution/depth_tracker.rs`, `action_exec.rs`, `composite_exec.rs`,
`composite_uses.rs`, `steps_runner.rs`).

* `DepthTracker` — as in the source;
* `Surroundings` — everything else that the functions do, to a state that is left open;
* `executeAction`, `runCompositeAction`, `runCompositeSteps` and the rest — as in the source, over
  any way to account for the depth;
* `tracked`, `nested` — that of the source, and the one that counts nothing but the chain of
  enclosing composites.
-/

/-! ### The tracker -/

inductive ActionError
  | stepExecution (message : Str)
  | cancelled
  | other (message : Str)
deriving DecidableEq, Repr

def maxCompositeDepth : ℕ := 10

structure DepthTracker where
  current : ℕ
  max : ℕ
deriving DecidableEq, Repr

namespace DepthTracker

def new : DepthTracker := ⟨0, maxCompositeDepth⟩

def limitExceeded (max : ℕ) : ActionError :=
  .stepExecution ("composite action depth limit exceeded (max ".toList ++ (Nat.repr max).toList ++
    ")".toList)

def enter (depth : DepthTracker) : Except ActionError Unit × DepthTracker :=
  let depth := { depth with current := depth.current + 1 }
  if depth.current > depth.max then (.error (limitExceeded depth.max), depth) else (.ok (), depth)

def exit (depth : DepthTracker) : DepthTracker := { depth with current := depth.current - 1 }

end DepthTracker

/-- A way to account for the depth; it is told how many composites enclose an action, the action
    itself among them. -/
structure Accounting (D : Type) where
  enter : ℕ → D → Except ActionError Unit × D
  exit : D → D

/-- The source's. -/
def tracked : Accounting DepthTracker where
  enter _ := DepthTracker.enter
  exit := DepthTracker.exit

/-- By the chain alone. -/
def nested (max : ℕ) : Accounting Unit where
  enter chain _ := (if chain > max then .error (DepthTracker.limitExceeded max) else .ok (), ())
  exit := id

/-! ### The run of a job -/

/-- What has happened to the depth, for the record. -/
inductive DepthEvent (D : Type)
  /-- A composite at the end of a chain of so many was let in, or refused. -/
  | entered (chain : ℕ) (refused : Bool)
  /-- `execute_action` returned. -/
  | returned (before after : D)
  /-- The chain was longer than the model follows it. -/
  | lost
deriving DecidableEq, Repr

structure JobRun (σ D : Type) where
  ctx : σ
  depth : D
  log : List (DepthEvent D)

/-- An inner step of a composite, or a step of the job; `body` is the rest of it. -/
structure RunnerStep (U B : Type) where
  uses : Option U
  body : B

inductive RunsUsing (U B : Type)
  | node
  | docker
  | composite (steps : List (RunnerStep U B))

/-- What the functions do besides, to the job's context: it may do anything there. -/
structure Surroundings (σ U B : Type) where
  /-- `resolve_action`, `resolve_step_env` and the manifest. -/
  resolveAction : U → StateM σ (Except ActionError (RunsUsing U B))
  runResolvedNode : U → StateM σ (Except ActionError Conclusion)
  runDockerAction : U → StateM σ (Except ActionError Conclusion)
  /-- What is undone at the end of `execute_action`. -/
  popStepEnv : StateM σ Unit
  /-- `build_composite_inputs`, the temp dir and `enter_step_scope`. -/
  enterScope : U → StateM σ (Except ActionError Unit)
  /-- `restore_step_scope`, the outputs, and what the action adds to the environment. -/
  leaveScope : U → Conclusion → StateM σ (Except ActionError Unit)
  isForced : StateM σ Bool
  evaluateCompositeCondition : B → StateM σ (Except ActionError Bool)
  reportCompositeStepError : ActionError → StateM σ Unit
  recordInnerResult : B → Conclusion → Conclusion → StateM σ Unit
  setScopeStatus : Conclusion → StateM σ Unit
  resolveContinueOnError : B → StateM σ Bool
  /-- `build_nested_step` and the environment of a nested step. -/
  buildNestedStep : B → StateM σ (Except ActionError Unit)
  recordNestedResult : B → Conclusion → StateM σ Unit
  /-- `None` where the step has no script. -/
  runRunStep : B → StateM σ (Option (Except ActionError Conclusion))
  /-- A step of the job, as far as its condition. -/
  startStep : B → StateM σ Bool
  /-- What becomes of its result. -/
  recordStepResult : B → Except ActionError Conclusion → StateM σ Unit

section Runs

variable {σ U B D : Type}

/-- A computation on the context. -/
def onCtx {α : Type} (x : StateM σ α) : StateM (JobRun σ D) α := fun s =>
  ((x.run s.ctx).1, { s with ctx := (x.run s.ctx).2 })

def note (e : DepthEvent D) : StateM (JobRun σ D) Unit := modify fun s =>
  { s with log := s.log ++ [e] }

variable (acc : Accounting D) (env : Surroundings σ U B)

/-- A call of an action with so many composites around it. -/
abbrev Call (σ U D : Type) := U → StateM (JobRun σ D) (Except ActionError Conclusion)

def runNestedUsesStep (call : Call σ U D) (uses : U) (body : B) :
    StateM (JobRun σ D) (Except ActionError Conclusion) := do
  match ← onCtx (env.buildNestedStep body) with
  | .error e => pure (.error e)
  | .ok () =>
    match ← call uses with
    | .error e => pure (.error e)
    | .ok conclusion => do
      onCtx (env.recordNestedResult body conclusion)
      pure (.ok conclusion)

/-- `None` where the step has neither an action nor a script. -/
def runOneStep (call : Call σ U D) (step : RunnerStep U B) :
    StateM (JobRun σ D) (Option Conclusion) :=
  match step.uses with
  | some uses => do
    match ← runNestedUsesStep env call uses step.body with
    | .ok conclusion => pure (some conclusion)
    | .error .cancelled => pure (some .cancelled)
    | .error e => do
      onCtx (env.reportCompositeStepError e)
      pure (some .failure)
  | none => do
    match ← onCtx (env.runRunStep step.body) with
    | none => pure none
    | some (.ok conclusion) => pure (some conclusion)
    | some (.error e) => do
      onCtx (env.reportCompositeStepError e)
      pure (some .failure)

def updateCompositeStatus (conclusion aggregate : Conclusion) :
    StateM (JobRun σ D) Conclusion :=
  match conclusion with
  | .failure =>
    if aggregate ≠ .cancelled then do
      onCtx (env.setScopeStatus .failure)
      pure .failure
    else pure aggregate
  | .cancelled => do
    onCtx (env.setScopeStatus .cancelled)
    pure .cancelled
  | _ => pure aggregate

/-- A failed step counts as a success where it may fail. -/
def innerConclusion (step : RunnerStep U B) (outcome : Conclusion) :
    StateM (JobRun σ D) Conclusion :=
  if outcome = .failure then do
    if ← onCtx (env.resolveContinueOnError step.body) then pure .success else pure outcome
  else pure outcome

def runCompositeSteps (call : Call σ U D) :
    List (RunnerStep U B) → Conclusion → StateM (JobRun σ D) Conclusion
  | [], aggregate => pure aggregate
  | step :: steps, aggregate => do
    if ← onCtx env.isForced then pure .cancelled
    else
      match ← onCtx (env.evaluateCompositeCondition step.body) with
      | .ok false => do
        onCtx (env.recordInnerResult step.body .skipped .skipped)
        runCompositeSteps call steps aggregate
      | .error e => do
        onCtx (env.reportCompositeStepError e)
        onCtx (env.recordInnerResult step.body .failure .failure)
        pure (if aggregate ≠ .cancelled then .failure else aggregate)
      | .ok true =>
        match ← runOneStep env call step with
        | none => runCompositeSteps call steps aggregate
        | some outcome => do
          let conclusion ← innerConclusion env step outcome
          onCtx (env.recordInnerResult step.body outcome conclusion)
          let aggregate ← updateCompositeStatus env conclusion aggregate
          runCompositeSteps call steps aggregate

def runCompositeInner (call : Call σ U D) (uses : U) (steps : List (RunnerStep U B)) :
    StateM (JobRun σ D) (Except ActionError Conclusion) := do
  match ← onCtx (env.enterScope uses) with
  | .error e => pure (.error e)
  | .ok () => do
    let conclusion ← runCompositeSteps env call steps .success
    match ← onCtx (env.leaveScope uses conclusion) with
    | .error e => pure (.error e)
    | .ok () => pure (.ok conclusion)

def enterDepth (chain : ℕ) : StateM (JobRun σ D) (Except ActionError Unit) := fun s =>
  match acc.enter chain s.depth with
  | (entered, depth) => (entered, { s with depth })

/-- `DepthExitGuard`. -/
def exitDepth : StateM (JobRun σ D) Unit := modify fun s => { s with depth := acc.exit s.depth }

def runCompositeAction (call : Call σ U D) (chain : ℕ) (uses : U)
    (steps : List (RunnerStep U B)) : StateM (JobRun σ D) (Except ActionError Conclusion) := do
  match ← enterDepth acc (chain + 1) with
  | .error e => do
    note (.entered (chain + 1) true)
    pure (.error e)
  | .ok () => do
    note (.entered (chain + 1) false)
    let result ← runCompositeInner env call uses steps
    exitDepth acc
    pure result

def dispatchAction (call : Call σ U D) (chain : ℕ) (uses : U) :
    RunsUsing U B → StateM (JobRun σ D) (Except ActionError Conclusion)
  | .node => onCtx (env.runResolvedNode uses)
  | .docker => onCtx (env.runDockerAction uses)
  | .composite steps => runCompositeAction acc env call chain uses steps

def executeResolved (call : Call σ U D) (chain : ℕ) (uses : U) :
    StateM (JobRun σ D) (Except ActionError Conclusion) := do
  match ← onCtx (env.resolveAction uses) with
  | .error e => pure (.error e)
  | .ok runs => do
    let result ← dispatchAction acc env call chain uses runs
    onCtx env.popStepEnv
    pure result

/-- `execute_action`, for chains of at most `fuel` more composites. -/
def executeAction : ℕ → ℕ → Call σ U D
  | 0, _, _ => do
    note .lost
    pure (.error (.other []))
  | fuel + 1, chain, uses => do
    let before ← (fun s => (s.depth, s) : StateM (JobRun σ D) D)
    let result ← executeResolved acc env (executeAction fuel (chain + 1)) chain uses
    let after ← (fun s => (s.depth, s) : StateM (JobRun σ D) D)
    note (.returned before after)
    pure result

/-- The steps of the job: scripts, and actions that nothing encloses. -/
def runSteps (fuel : ℕ) : List (RunnerStep U B) → StateM (JobRun σ D) Unit
  | [] => pure ()
  | step :: steps => do
    if ← onCtx (env.startStep step.body) then
      match step.uses with
      | some uses => do
        let result ← executeAction acc env fuel 0 uses
        onCtx (env.recordStepResult step.body result)
        runSteps fuel steps
      | none => do
        let result ← onCtx (env.runRunStep step.body)
        onCtx (env.recordStepResult step.body (result.getD (.ok .success)))
        runSteps fuel steps
    else runSteps fuel steps

end Runs

end GhRunner.Execution.Depth
