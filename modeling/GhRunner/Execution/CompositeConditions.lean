import GhRunner.Execution.CommandDispatch
import GhRunner.Execution.CompositeDepth
import GhRunner.Execution.Context
import GhRunner.Expressions.Evaluator

namespace GhRunner.Execution.Conditions

open Text Lockstep Depth GhRunner.Expressions

/-!
# The conditions of inner steps

Which steps of a composite action run once one of them has failed
(`crates/execution/src/execution/composite_expr.rs`, `composite_exec.rs`, `context_eval.rs`,
`context/state.rs`).

* `evaluateCompositeCondition` — the condition of an inner step;
* `Scopes`, `World` — the scopes of the composites under way, and the rest of the job, which may do
  anything;
* `World.surroundings` — the two as the surroundings of the loops over the steps;
* `Gated` — what holds of every step that is let through after a failure in its scope;
* `default_conditions_withheld` — no step without a condition of its own is among these.
-/

/-! ### Conditions -/

/-- The expression of a condition; an absent or a blank one is `success()`. -/
def conditionText (condition : Option Str) : Except RunnerError Str :=
  let condition := trim (condition.getD "success()".toList)
  match openDelim.isPrefixOf? condition with
  | some inner =>
    match stripSuffix closeDelim inner with
    | some inner => .ok (trim inner)
    | none => .error (.expression "unclosed composite if expression".toList)
  | none => if condition = [] then .ok "success()".toList else .ok condition

def evaluateCompositeCondition (platform : Platform) (condition : Option Str)
    (evalCtx : EvalContext) : Except RunnerError Bool := do
  let expression ← conditionText condition
  validateExpression platform.engine expression .ifField
  let value ← evaluate platform evalCtx.shared expression
  return value.isTruthy

/-- The condition asks for nothing but `success()`: it is absent or blank, or says just that. -/
def Default (condition : Option Str) : Prop :=
  conditionText condition = .ok "success()".toList ∨ conditionText condition = .ok []

/-! ### Scopes -/

/-- A step of an action or of the job. -/
structure InnerStep (B : Type) where
  condition : Option Str
  rest : B

/-- The `uses:` of a step; its composite is entered under the step's id. -/
structure Uses (A : Type) where
  wireId : Str
  action : A

/-- What happens in a scope, for the record. -/
inductive ScopeEvent (B : Type)
  | entered (path : List Str)
  /-- The condition held against this snapshot, and the step is run. -/
  | eligible (path : List Str) (step : InnerStep B) (evalCtx : EvalContext)
  | concluded (path : List Str) (step : InnerStep B) (conclusion : Conclusion)

structure Scopes (B : Type) where
  scopePath : List Str := []
  scopedStatus : List Str → Option JobStatus := fun _ => none
  /-- The `prior_scope` of every composite under way, the innermost first. -/
  priorScopes : List (List Str) := []
  /-- The last event first. -/
  events : List (ScopeEvent B) := []

structure Scoped (W B : Type) where
  scopes : Scopes B
  world : W

/-- The rest of the job, which knows the scopes and changes none. -/
structure World (W A B : Type) where
  others : Scopes B → Depth.Surroundings W (Uses A) (InnerStep B)
  createTempDir : Scopes B → StateM W (Except ActionError Unit)
  /-- The status of the job and its cancellation. -/
  jobStatus : StateM W JobStatus
  setJobStatus : JobStatus → StateM W Unit
  contexts : Scopes B → StateM W (HashMap ExprValue)
  workspace : StateM W (Option Str)

section Operations

variable {W A B α : Type}

def inWorld (x : Scopes B → StateM W α) : StateM (Scoped W B) α := fun s =>
  (((x s.scopes).run s.world).1, { s with world := ((x s.scopes).run s.world).2 })

def inScopes (f : Scopes B → Scopes B) : StateM (Scoped W B) Unit := fun s =>
  ((), { s with scopes := f s.scopes })

def note (e : List Str → ScopeEvent B) (scopes : Scopes B) : Scopes B :=
  { scopes with events := e scopes.scopePath :: scopes.events }

def enterStepScope (wireId : Str) (scopes : Scopes B) : Scopes B :=
  let path := scopes.scopePath ++ [wireId]
  { scopePath := path
    scopedStatus := fun q => if q = path then some .success else scopes.scopedStatus q
    priorScopes := scopes.scopePath :: scopes.priorScopes
    events := .entered path :: scopes.events }

def restoreStepScope (scopes : Scopes B) : Scopes B :=
  { scopes with
    scopePath := scopes.priorScopes.headD []
    priorScopes := scopes.priorScopes.tail }

variable (world : World W A B)

def setScopeStatus (status : JobStatus) : StateM (Scoped W B) Unit := do
  if (← get).scopes.scopePath = [] then inWorld fun _ => world.setJobStatus status
  else inScopes fun scopes =>
    { scopes with
      scopedStatus := fun q => if q = scopes.scopePath then some status else scopes.scopedStatus q }

def scopedJobStatus : StateM (Scoped W B) JobStatus := do
  if (← inWorld fun _ => world.jobStatus) = .cancelled then return .cancelled
  else
    let scopes := (← get).scopes
    match scopes.scopedStatus scopes.scopePath with
    | some status => return status
    | none => inWorld fun _ => world.jobStatus

/-- The snapshot, with the inputs of the action in it. -/
def compositeEvalContext : StateM (Scoped W B) EvalContext := do
  let contexts ← inWorld world.contexts
  let jobStatus ← scopedJobStatus world
  let workspace ← inWorld fun _ => world.workspace
  return { contexts, jobStatus, workspace }

def toActionError : RunnerError → ActionError
  | .expression message | .actionResolution message | .other message => .other message

/-- The status that a conclusion gives its scope. -/
def statusOf : Conclusion → JobStatus
  | .failure => .failure
  | .cancelled => .cancelled
  | .success | .skipped => .success

/-- The surroundings of the loops over the steps, the scopes kept as the source keeps them. -/
def World.surroundings (platform : Platform) : Depth.Surroundings (Scoped W B) (Uses A) (InnerStep B) where
  resolveAction uses := inWorld fun scopes => (world.others scopes).resolveAction uses
  runResolvedNode uses := inWorld fun scopes => (world.others scopes).runResolvedNode uses
  runDockerAction uses := inWorld fun scopes => (world.others scopes).runDockerAction uses
  popStepEnv := inWorld fun scopes => (world.others scopes).popStepEnv
  enterScope uses := do
    match ← inWorld fun scopes => (world.others scopes).enterScope uses with
    | .error e => return .error e
    | .ok () =>
      inScopes (enterStepScope uses.wireId)
      match ← inWorld world.createTempDir with
      | .ok () => return .ok ()
      | .error e =>
        inScopes restoreStepScope
        return .error e
  leaveScope uses conclusion := do
    let left ← inWorld fun scopes => (world.others scopes).leaveScope uses conclusion
    inScopes restoreStepScope
    return left
  isForced := inWorld fun scopes => (world.others scopes).isForced
  evaluateCompositeCondition step := do
    let evalCtx ← compositeEvalContext world
    match evaluateCompositeCondition platform step.condition evalCtx with
    | .ok true =>
      inScopes (note fun path => .eligible path step evalCtx)
      return .ok true
    | .ok false => return .ok false
    | .error e => return .error (toActionError e)
  reportCompositeStepError e := inWorld fun scopes => (world.others scopes).reportCompositeStepError e
  recordInnerResult step outcome conclusion := do
    inWorld fun scopes => (world.others scopes).recordInnerResult step outcome conclusion
    inScopes (note fun path => .concluded path step conclusion)
  setScopeStatus conclusion := setScopeStatus world (statusOf conclusion)
  resolveContinueOnError step := inWorld fun scopes => (world.others scopes).resolveContinueOnError step
  buildNestedStep step := inWorld fun scopes => (world.others scopes).buildNestedStep step
  recordNestedResult step conclusion :=
    inWorld fun scopes => (world.others scopes).recordNestedResult step conclusion
  runRunStep step := inWorld fun scopes => (world.others scopes).runRunStep step
  startStep step := inWorld fun scopes => (world.others scopes).startStep step
  recordStepResult step result :=
    inWorld fun scopes => (world.others scopes).recordStepResult step result

end Operations

/-! ### The record -/

section Record

variable {B : Type}

def fails (conclusion : Conclusion) : Bool := conclusion = .failure || conclusion = .cancelled

/-- Since the scope was entered last, one of its steps has concluded with a failure or cancelled. -/
def failedIn (path : List Str) : List (ScopeEvent B) → Bool
  | [] => false
  | .entered q :: events => q ≠ path && failedIn path events
  | .eligible _ _ _ :: events => failedIn path events
  | .concluded q _ conclusion :: events =>
    (q = path && fails conclusion) || failedIn path events

/-- Every step that is let through after a failure in its scope is so lawfully. -/
def Gated (Lawful : InnerStep B → EvalContext → Prop) : List (ScopeEvent B) → Prop
  | [] => True
  | .eligible path step evalCtx :: events =>
    (failedIn path events = true → Lawful step evalCtx) ∧ Gated Lawful events
  | _ :: events => Gated Lawful events

end Record

/-- A condition of its own, which holds as it stands although the scope has failed. -/
structure Explicit (platform : Platform) {B : Type} (step : InnerStep B) (evalCtx : EvalContext) :
    Prop where
  own : ¬ Default step.condition
  status : evalCtx.jobStatus ≠ .success
  holds : evaluateCompositeCondition platform step.condition evalCtx = .ok true

/-! ### `success()` -/

/-- It does not hold once the status is another. -/
theorem not_default_of_holds {platform : Platform} {condition : Option Str} {evalCtx : EvalContext}
    (hstatus : evalCtx.jobStatus ≠ .success)
    (h : evaluateCompositeCondition platform condition evalCtx = .ok true) : ¬ Default condition := by
  rintro (htext | htext)
  · have hvalue : evaluateCompositeCondition platform condition evalCtx =
        .ok (decide (evalCtx.jobStatus = .success)) := by
      rw [evaluateCompositeCondition, htext]
      rfl
    rw [hvalue, decide_eq_false hstatus] at h
    cases h
  · -- nothing is no expression
    obtain ⟨e, he⟩ : ∃ e, evaluateCompositeCondition platform condition evalCtx = .error e := by
      rw [evaluateCompositeCondition, htext]
      exact ⟨_, rfl⟩
    rw [he] at h
    cases h

/-! ### What stays below a scope -/

section Containment

variable {W A B D α β : Type} {world : World W A B} {platform : Platform} {acc : Accounting D}

/-- The scope is entered below this one. -/
def Below (path q : List Str) : Prop := path <+: q ∧ q ≠ path

theorem below_concat (path : List Str) (wireId : Str) {q : List Str} (h : path ++ [wireId] <+: q) :
    Below path q := by
  refine ⟨(List.prefix_append _ _).trans h, ?_⟩
  rintro rfl
  have := h.length_le
  simp at this

/-- What returns to the scope it was called in has touched none but those below. -/
structure Returned (platform : Platform) (before after : Scopes B) : Prop where
  path : after.scopePath = before.scopePath
  prior : after.priorScopes = before.priorScopes
  status : ∀ q, ¬ Below before.scopePath q → after.scopedStatus q = before.scopedStatus q
  failed : ∀ q, ¬ Below before.scopePath q → failedIn q after.events = failedIn q before.events
  gated : Gated (Explicit platform) after.events

theorem Returned.refl {scopes : Scopes B} (h : Gated (Explicit platform) scopes.events) :
    Returned platform scopes scopes := ⟨rfl, rfl, fun _ _ => rfl, fun _ _ => rfl, h⟩

theorem Returned.trans {a b c : Scopes B} (hab : Returned platform a b) (hbc : Returned platform b c) :
    Returned platform a c where
  path := hbc.path.trans hab.path
  prior := hbc.prior.trans hab.prior
  status q hq := (hbc.status q (hab.path.symm ▸ hq)).trans (hab.status q hq)
  failed q hq := (hbc.failed q (hab.path.symm ▸ hq)).trans (hab.failed q hq)
  gated := hbc.gated

def Contained (platform : Platform) (x : StateM (JobRun (Scoped W B) D) α) : Prop :=
  ∀ s, Gated (Explicit platform) s.ctx.scopes.events →
    Returned platform s.ctx.scopes (x.run s).2.ctx.scopes

theorem Contained.pure (a : α) :
    Contained platform (pure a : StateM (JobRun (Scoped W B) D) α) := fun _ h => .refl h

theorem Contained.bind {x : StateM (JobRun (Scoped W B) D) α}
    {f : α → StateM (JobRun (Scoped W B) D) β} (hx : Contained platform x)
    (hf : ∀ a, Contained platform (f a)) : Contained platform (x >>= f) := fun s h =>
  (hx s h).trans (hf _ _ (hx s h).gated)

theorem contained_inWorld (x : Scopes B → StateM W α) :
    Contained (D := D) platform (onCtx (inWorld x)) := fun _ h => .refl h

theorem contained_note (e : DepthEvent D) :
    Contained platform (Depth.note e : StateM (JobRun (Scoped W B) D) Unit) := fun _ h => .refl h

variable {call : Call (Scoped W B) (Uses A) D}

theorem contained_runNestedUsesStep (hcall : ∀ uses, Contained platform (call uses)) (uses : Uses A)
    (step : InnerStep B) :
    Contained platform (Depth.runNestedUsesStep (world.surroundings platform) call uses step) := by
  refine (contained_inWorld _).bind fun prepared => ?_
  cases prepared with
  | error e => exact .pure _
  | ok _ =>
    refine (hcall uses).bind fun outcome => ?_
    cases outcome with
    | error e => exact .pure _
    | ok conclusion => exact (contained_inWorld _).bind fun _ => .pure _

theorem contained_runOneStep (hcall : ∀ uses, Contained platform (call uses))
    (step : RunnerStep (Uses A) (InnerStep B)) :
    Contained platform (runOneStep (world.surroundings platform) call step) := by
  unfold runOneStep
  cases step.uses with
  | some uses =>
    refine (contained_runNestedUsesStep hcall uses step.body).bind fun outcome => ?_
    match outcome with
    | .ok _ => exact .pure _
    | .error .cancelled => exact .pure _
    | .error (.stepExecution _) => exact (contained_inWorld _).bind fun _ => .pure _
    | .error (.other _) => exact (contained_inWorld _).bind fun _ => .pure _
  | none =>
    refine (contained_inWorld _).bind fun result => ?_
    match result with
    | none => exact .pure _
    | some (.ok _) => exact .pure _
    | some (.error _) => exact (contained_inWorld _).bind fun _ => .pure _

theorem contained_innerConclusion (step : RunnerStep (Uses A) (InnerStep B)) (outcome : Conclusion) :
    Contained platform (innerConclusion (σ := Scoped W B) (D := D) (world.surroundings platform) step outcome) := by
  unfold innerConclusion
  split
  · refine (contained_inWorld _).bind fun tolerated => ?_
    cases tolerated with
    | true => exact .pure _
    | false => exact .pure _
  · exact .pure _

end Containment

/-! ### The snapshot -/

section Snapshot

variable {W A B : Type} (world : World W A B)

/-- The status of the scope is that of the snapshot, or hidden by the job's cancellation. -/
theorem scopedJobStatus_run (s : Scoped W B) :
    ((scopedJobStatus world).run s).2.scopes = s.scopes ∧
      ∀ status, s.scopes.scopedStatus s.scopes.scopePath = some status → status ≠ .success →
        ((scopedJobStatus world).run s).1 ≠ .success := by
  unfold scopedJobStatus
  rw [run_bind]
  split
  · refine ⟨rfl, fun _ _ _ => ?_⟩
    show JobStatus.cancelled ≠ .success
    decide
  · show ((match s.scopes.scopedStatus s.scopes.scopePath with
      | some status => pure status
      | none => inWorld fun _ => world.jobStatus : StateM (Scoped W B) JobStatus).run _).2.scopes =
        s.scopes ∧ ∀ status, s.scopes.scopedStatus s.scopes.scopePath = some status →
          status ≠ .success → ((match s.scopes.scopedStatus s.scopes.scopePath with
            | some status => pure status
            | none => inWorld fun _ => world.jobStatus : StateM (Scoped W B) JobStatus).run _).1 ≠
              .success
    cases s.scopes.scopedStatus s.scopes.scopePath with
    | none => exact ⟨rfl, nofun⟩
    | some status =>
      refine ⟨rfl, ?_⟩
      rintro _ ⟨⟩ hstatus
      exact hstatus

theorem compositeEvalContext_run (s : Scoped W B) :
    ((compositeEvalContext world).run s).2.scopes = s.scopes ∧
      ∀ status, s.scopes.scopedStatus s.scopes.scopePath = some status → status ≠ .success →
        ((compositeEvalContext world).run s).1.jobStatus ≠ .success := by
  have h := scopedJobStatus_run world ((inWorld world.contexts).run s).2
  exact h

/-- Inside a composite the status is that of its scope. -/
theorem setScopeStatus_run (status : JobStatus) {s : Scoped W B} (h : s.scopes.scopePath ≠ []) :
    ((setScopeStatus world status).run s).2.scopes =
      { s.scopes with
        scopedStatus := fun q =>
          if q = s.scopes.scopePath then some status else s.scopes.scopedStatus q } := by
  show ((if s.scopes.scopePath = [] then inWorld fun _ => world.setJobStatus status
    else inScopes _ : StateM (Scoped W B) Unit).run s).2.scopes = _
  rw [if_neg h]
  rfl

/-- Nothing is changed but the record, and that only where the condition holds. -/
theorem evaluateCompositeCondition_run (platform : Platform) (step : InnerStep B) (s : Scoped W B) :
    let after := (((world.surroundings platform).evaluateCompositeCondition step).run s).2
    after.scopes = s.scopes ∨ ∃ evalCtx,
      after.scopes = note (fun path => .eligible path step evalCtx) s.scopes ∧
      evaluateCompositeCondition platform step.condition evalCtx = .ok true ∧
      ∀ status, s.scopes.scopedStatus s.scopes.scopePath = some status → status ≠ .success →
        evalCtx.jobStatus ≠ .success := by
  intro after
  obtain ⟨hscopes, hstatus⟩ := compositeEvalContext_run world s
  rcases hsnapshot : (compositeEvalContext world).run s with ⟨evalCtx, s'⟩
  rw [hsnapshot] at hscopes hstatus
  have hafter : after = ((match evaluateCompositeCondition platform step.condition evalCtx with
      | .ok true => do
        inScopes (note fun path => .eligible path step evalCtx)
        return .ok true
      | .ok false => return .ok false
      | .error e => return .error (toActionError e) :
        StateM (Scoped W B) (Except ActionError Bool)).run s').2 := by
    show (((compositeEvalContext world >>= _ : StateM (Scoped W B) (Except ActionError Bool))).run s).2 = _
    rw [run_bind, hsnapshot]
  rw [hafter]
  match hvalue : evaluateCompositeCondition platform step.condition evalCtx with
  | .ok true =>
    refine .inr ⟨evalCtx, ?_, hvalue, hstatus⟩
    have hscopes : s'.scopes = s.scopes := hscopes
    show note (fun path => .eligible path step evalCtx) s'.scopes = _
    rw [hscopes]
  | .ok false => exact .inl hscopes
  | .error e => exact .inl hscopes

end Snapshot

/-! ### The loop over the steps -/

section Loop

variable {W A B D : Type} {world : World W A B} {platform : Platform} {acc : Accounting D}
  {call : Call (Scoped W B) (Uses A) D} {before : Scopes B} {wireId : Str}

/-- In the scope of a composite that was entered from another one. -/
structure Within (platform : Platform) (before : Scopes B) (wireId : Str) (s : Scopes B) : Prop where
  path : s.scopePath = before.scopePath ++ [wireId]
  prior : s.priorScopes = before.scopePath :: before.priorScopes
  status : ∀ q, ¬ Below before.scopePath q → s.scopedStatus q = before.scopedStatus q
  failed : ∀ q, ¬ Below before.scopePath q → failedIn q s.events = failedIn q before.events
  gated : Gated (Explicit platform) s.events

def Failing (status : Option JobStatus) : Prop := ∃ shown, status = some shown ∧ shown ≠ .success

/-- The scope's status shows the failures on record, but for the conclusion that is recorded last. -/
structure Running (platform : Platform) (before : Scopes B) (wireId : Str)
    (pending aggregate : Conclusion) (s : Scopes B) : Prop extends
    Within platform before wireId s where
  shown : failedIn s.scopePath s.events = true →
    Failing (s.scopedStatus s.scopePath) ∨ fails pending = true
  aggregated : fails aggregate = true → Failing (s.scopedStatus s.scopePath)

theorem Running.returned {pending aggregate : Conclusion} {s s' : Scopes B}
    (h : Running platform before wireId pending aggregate s) (hs : Returned platform s s') :
    Running platform before wireId pending aggregate s' := by
  have hself : ¬ Below s.scopePath s.scopePath := fun hbelow => hbelow.2 rfl
  have houter : ∀ q, ¬ Below before.scopePath q → ¬ Below s.scopePath q := by
    intro q hq hbelow
    rw [h.path] at hbelow
    exact hq (below_concat _ _ hbelow.1)
  refine ⟨⟨hs.path.trans h.path, hs.prior.trans h.prior,
    fun q hq => (hs.status q (houter q hq)).trans (h.status q hq),
    fun q hq => (hs.failed q (houter q hq)).trans (h.failed q hq), hs.gated⟩, ?_, ?_⟩
  · rw [hs.path, hs.status _ hself, hs.failed _ hself]
    exact h.shown
  · rw [hs.path, hs.status _ hself]
    exact h.aggregated

theorem Running.settled {pending aggregate : Conclusion} {s : Scopes B}
    (h : Running platform before wireId pending aggregate s)
    (hor : fails pending = false ∨ fails aggregate = true) :
    Running platform before wireId .success aggregate s := by
  refine ⟨h.toWithin, fun hfailed => .inl ?_, h.aggregated⟩
  rcases h.shown hfailed with hshown | hpending
  · exact hshown
  · rcases hor with hno | hyes
    · rw [hno] at hpending
      cases hpending
    · exact h.aggregated hyes

theorem Contained.running {α : Type} {x : StateM (JobRun (Scoped W B) D) α}
    (hx : Contained platform x) (pending aggregate : Conclusion) :
    Keeps (fun s => Running platform before wireId pending aggregate s.ctx.scopes) x :=
  fun s h => h.returned (hx s h.gated)

/-- A step that is let through is so lawfully. -/
theorem running_evaluateCompositeCondition (step : InnerStep B) (aggregate : Conclusion) :
    Keeps (fun s : JobRun (Scoped W B) D =>
        Running platform before wireId .success aggregate s.ctx.scopes)
      (onCtx ((world.surroundings platform).evaluateCompositeCondition step)) := by
  intro s h
  rcases evaluateCompositeCondition_run world platform step s.ctx with
    hsame | ⟨evalCtx, hnote, hholds, hstatus⟩
  · show Running platform before wireId .success aggregate
      (((world.surroundings platform).evaluateCompositeCondition step).run s.ctx).2.scopes
    rw [hsame]
    exact h
  · show Running platform before wireId .success aggregate
      (((world.surroundings platform).evaluateCompositeCondition step).run s.ctx).2.scopes
    rw [hnote]
    refine ⟨⟨h.path, h.prior, h.status, h.failed, fun hfailed => ?_, h.gated⟩, h.shown, h.aggregated⟩
    obtain ⟨shown, hshown, hne⟩ := (h.shown hfailed).resolve_right Bool.false_ne_true
    have hsnapshot := hstatus shown hshown hne
    exact ⟨not_default_of_holds hsnapshot hholds, hsnapshot, hholds⟩

/-- A conclusion goes on record before the status shows it. -/
theorem running_recordInnerResult (step : InnerStep B) (outcome conclusion aggregate : Conclusion) :
    Leads (fun s : JobRun (Scoped W B) D =>
        Running platform before wireId .success aggregate s.ctx.scopes)
      (onCtx ((world.surroundings platform).recordInnerResult step outcome conclusion))
      fun _ s => Running platform before wireId conclusion aggregate s.ctx.scopes := by
  intro s h
  have hbelow : Below before.scopePath s.ctx.scopes.scopePath := by
    rw [h.path]
    exact below_concat _ _ (List.prefix_refl _)
  refine ⟨⟨h.path, h.prior, h.status, fun q hq => ?_, h.gated⟩, fun hfailed => ?_, h.aggregated⟩
  · have hne : s.ctx.scopes.scopePath ≠ q := fun heq => hq (heq ▸ hbelow)
    show ((decide (s.ctx.scopes.scopePath = q) && fails conclusion) || _) = _
    rw [decide_eq_false hne]
    exact h.failed q hq
  · rcases Bool.or_eq_true_iff.mp hfailed with hnow | hearlier
    · exact .inr (Bool.and_eq_true_iff.mp hnow).2
    · exact .inl ((h.shown hearlier).resolve_right Bool.false_ne_true)

/-- Then the status does show it. -/
theorem running_updateCompositeStatus (conclusion aggregate : Conclusion) :
    Leads (fun s : JobRun (Scoped W B) D =>
        Running platform before wireId conclusion aggregate s.ctx.scopes)
      (updateCompositeStatus (world.surroundings platform) conclusion aggregate)
      fun aggregate s => Running platform before wireId .success aggregate s.ctx.scopes := by
  have hset : ∀ new : Conclusion, statusOf new ≠ .success →
      Leads (fun s : JobRun (Scoped W B) D =>
          Running platform before wireId conclusion aggregate s.ctx.scopes)
        (onCtx ((world.surroundings platform).setScopeStatus new))
        fun _ s => Running platform before wireId .success new s.ctx.scopes := by
    intro new hnew s h
    have hpath : s.ctx.scopes.scopePath ≠ [] := by
      rw [h.path]
      exact List.concat_ne_nil _ _
    show Running platform before wireId .success new
      ((setScopeStatus world (statusOf new)).run s.ctx).2.scopes
    rw [setScopeStatus_run world _ hpath]
    have hbelow : Below before.scopePath s.ctx.scopes.scopePath := by
      rw [h.path]
      exact below_concat _ _ (List.prefix_refl _)
    have hshows : Failing (if s.ctx.scopes.scopePath = s.ctx.scopes.scopePath then
        some (statusOf new) else s.ctx.scopes.scopedStatus s.ctx.scopes.scopePath) :=
      ⟨statusOf new, if_pos rfl, hnew⟩
    refine ⟨⟨h.path, h.prior, fun q hq => ?_, h.failed, h.gated⟩, fun _ => .inl hshows,
      fun _ => hshows⟩
    have hne : q ≠ s.ctx.scopes.scopePath := fun heq => hq (heq ▸ hbelow)
    exact (if_neg hne).trans (h.status q hq)
  unfold updateCompositeStatus
  cases conclusion with
  | failure =>
    dsimp only
    split
    case isTrue => exact (hset .failure (by decide)).bind fun _ => .pure fun _ h => h
    case isFalse hcancelled =>
      obtain rfl := not_not.mp hcancelled
      exact .pure fun _ h => h.settled (.inr rfl)
  | cancelled => exact (hset .cancelled (by decide)).bind fun _ => .pure fun _ h => h
  | success => exact .pure fun _ h => h.settled (.inl rfl)
  | skipped => exact .pure fun _ h => h.settled (.inl rfl)

theorem leads_runCompositeSteps (hcall : ∀ uses, Contained platform (call uses))
    (steps : List (RunnerStep (Uses A) (InnerStep B))) (aggregate : Conclusion) :
    Leads (fun s => Running platform before wireId .success aggregate s.ctx.scopes)
      (runCompositeSteps (world.surroundings platform) call steps aggregate)
      fun _ s => Within platform before wireId s.ctx.scopes := by
  induction steps generalizing aggregate with
  | nil => exact .pure fun _ h => h.toWithin
  | cons step steps ih =>
    refine ((contained_inWorld _).running .success aggregate).leads.bind fun forced => ?_
    cases forced with
    | true => exact .pure fun _ h => h.toWithin
    | false =>
      refine (running_evaluateCompositeCondition step.body aggregate).leads.bind fun eligible => ?_
      match eligible with
      | .ok false =>
        refine (running_recordInnerResult _ _ _ aggregate).bind fun _ => ?_
        exact fun s h => ih aggregate s (h.settled (.inl rfl))
      | .error e =>
        -- the failure goes on record, and no step of the scope comes after it
        refine ((contained_inWorld _).running .success aggregate).leads.bind fun _ => ?_
        refine (running_recordInnerResult _ _ _ aggregate).bind fun _ => ?_
        exact .pure fun _ h => h.toWithin
      | .ok true =>
        refine ((contained_runOneStep hcall step).running .success aggregate).leads.bind
          fun outcome => ?_
        cases outcome with
        | none => exact ih aggregate
        | some outcome =>
          refine ((contained_innerConclusion step outcome).running .success aggregate).leads.bind
            fun conclusion => ?_
          refine (running_recordInnerResult _ _ conclusion aggregate).bind fun _ => ?_
          exact (running_updateCompositeStatus conclusion aggregate).bind ih

theorem running_enterStepScope {s : Scopes B} (h : Gated (Explicit platform) s.events)
    (wireId : Str) : Running platform s wireId .success .success (enterStepScope wireId s) := by
  have hbelow : Below s.scopePath (s.scopePath ++ [wireId]) := below_concat _ _ (List.prefix_refl _)
  refine ⟨⟨rfl, rfl, fun q hq => ?_, fun q hq => ?_, h⟩, fun hfailed => ?_, nofun⟩
  · exact if_neg fun heq : q = s.scopePath ++ [wireId] => hq (heq ▸ hbelow)
  · have hne : s.scopePath ++ [wireId] ≠ q := fun heq => hq (heq ▸ hbelow)
    show (decide (s.scopePath ++ [wireId] ≠ q) && failedIn q s.events) = failedIn q s.events
    rw [decide_eq_true hne, Bool.true_and]
  · have hself : decide (s.scopePath ++ [wireId] ≠ s.scopePath ++ [wireId]) = true :=
      (Bool.and_eq_true_iff.mp hfailed).1
    exact absurd rfl (of_decide_eq_true hself)

theorem Within.restored {s : Scopes B} (h : Within platform before wireId s) :
    Returned platform before (restoreStepScope s) := by
  refine ⟨?_, ?_, h.status, h.failed, h.gated⟩
  · show s.priorScopes.headD [] = _
    rw [h.prior]
    rfl
  · show s.priorScopes.tail = _
    rw [h.prior]
    rfl

end Loop

/-! ### Actions and jobs -/

section Jobs

variable {W A B D : Type} (world : World W A B) (platform : Platform) (acc : Accounting D)
  {call : Call (Scoped W B) (Uses A) D}

theorem enterScope_run (uses : Uses A) (s : Scoped W B) :
    let entered := ((world.surroundings platform).enterScope uses).run s
    (entered.1 = .ok () ∧ entered.2.scopes = enterStepScope uses.wireId s.scopes) ∨
      ∃ e, entered.1 = .error e ∧ (entered.2.scopes = s.scopes ∨
        entered.2.scopes = restoreStepScope (enterStepScope uses.wireId s.scopes)) := by
  intro entered
  have hentered : entered = ((match ((world.others s.scopes).enterScope uses).run s.world with
      | (.error e, w) => (.error e, ⟨s.scopes, w⟩)
      | (.ok (), w) =>
        match (world.createTempDir (enterStepScope uses.wireId s.scopes)).run w with
        | (.ok (), w) => (.ok (), ⟨enterStepScope uses.wireId s.scopes, w⟩)
        | (.error e, w) =>
          (.error e, ⟨restoreStepScope (enterStepScope uses.wireId s.scopes), w⟩)) :
      Except ActionError Unit × Scoped W B) := by
    show (((inWorld fun scopes => (world.others scopes).enterScope uses) >>= _ :
      StateM (Scoped W B) (Except ActionError Unit)).run s) = _
    rw [run_bind]
    simp only [inWorld, StateT.run]
    rcases (world.others s.scopes).enterScope uses s.world with ⟨e | made, w⟩
    · rfl
    · cases made
      show ((inScopes (enterStepScope uses.wireId) >>= _ :
        StateM (Scoped W B) (Except ActionError Unit)).run ⟨s.scopes, w⟩) = _
      rw [run_bind, run_bind]
      simp only [inWorld, inScopes, StateT.run]
      rcases world.createTempDir (enterStepScope uses.wireId s.scopes) w with ⟨e | ⟨⟩, w⟩
      · rfl
      · rfl
  rw [hentered]
  rcases ((world.others s.scopes).enterScope uses).run s.world with ⟨e | ⟨⟩, w⟩
  · exact .inr ⟨e, rfl, .inl rfl⟩
  · dsimp only
    rcases (world.createTempDir (enterStepScope uses.wireId s.scopes)).run w with ⟨e | ⟨⟩, w⟩
    · exact .inr ⟨e, rfl, .inr rfl⟩
    · exact .inl ⟨rfl, rfl⟩

theorem contained_runCompositeInner (hcall : ∀ uses, Contained platform (call uses))
    (uses : Uses A) (steps : List (RunnerStep (Uses A) (InnerStep B))) :
    Contained platform (runCompositeInner (world.surroundings platform) call uses steps) := by
  intro s h
  have hrunning : Running platform s.ctx.scopes uses.wireId .success .success
      (enterStepScope uses.wireId s.ctx.scopes) := running_enterStepScope h uses.wireId
  unfold runCompositeInner
  rw [run_bind]
  rcases enterScope_run world platform uses s.ctx with ⟨hok, hscopes⟩ | ⟨e, herror, hscopes⟩
  · have hvalue : ((onCtx ((world.surroundings platform).enterScope uses)).run s).1 = .ok () := hok
    rw [hvalue]
    dsimp only
    have hloop : Leads (fun s' : JobRun (Scoped W B) D =>
          Running platform s.ctx.scopes uses.wireId .success .success s'.ctx.scopes)
        (runCompositeSteps (world.surroundings platform) call steps .success)
        fun _ s' => Within platform s.ctx.scopes uses.wireId s'.ctx.scopes :=
      leads_runCompositeSteps hcall steps .success
    have hin : Running platform s.ctx.scopes uses.wireId .success .success
        ((onCtx ((world.surroundings platform).enterScope uses)).run s).2.ctx.scopes :=
      hscopes.symm ▸ hrunning
    refine hloop.bind (R := fun _ s' => Returned platform s.ctx.scopes s'.ctx.scopes)
      (fun conclusion => ?_) _ hin
    refine Leads.bind (Q := fun _ s' => Returned platform s.ctx.scopes s'.ctx.scopes)
      (fun _ hwithin => hwithin.restored) fun left => ?_
    cases left with
    | error e => exact .pure fun _ h => h
    | ok _ => exact .pure fun _ h => h
  · have hvalue : ((onCtx ((world.surroundings platform).enterScope uses)).run s).1 = .error e := herror
    rw [hvalue]
    show Returned platform s.ctx.scopes
      (((world.surroundings platform).enterScope uses).run s.ctx).2.scopes
    rcases hscopes with hsame | hrestored
    · rw [hsame]
      exact .refl h
    · rw [hrestored]
      exact hrunning.toWithin.restored

theorem contained_runCompositeAction (hcall : ∀ uses, Contained platform (call uses)) (chain : ℕ)
    (uses : Uses A) (steps : List (RunnerStep (Uses A) (InnerStep B))) :
    Contained platform (runCompositeAction acc (world.surroundings platform) call chain uses steps) := by
  have hdepth : Contained platform
      (enterDepth acc (chain + 1) : StateM (JobRun (Scoped W B) D) _) := by
    intro s h
    unfold enterDepth
    rcases acc.enter (chain + 1) s.depth with ⟨entered, depth⟩
    exact .refl h
  refine hdepth.bind fun entered => ?_
  cases entered with
  | error e => exact (contained_note _).bind fun _ => .pure _
  | ok _ =>
    refine (contained_note _).bind fun _ => ?_
    refine (contained_runCompositeInner world platform hcall uses steps).bind fun result => ?_
    exact .bind (fun _ h => .refl h) fun _ => .pure _

theorem contained_executeAction (fuel chain : ℕ) (uses : Uses A) :
    Contained platform (Depth.executeAction acc (world.surroundings platform) fuel chain uses) := by
  induction fuel generalizing chain uses with
  | zero => exact (contained_note _).bind fun _ => .pure _
  | succ fuel ih =>
    have hdispatch (runs : Depth.RunsUsing (Uses A) (InnerStep B)) : Contained platform
        (dispatchAction acc (world.surroundings platform)
          (Depth.executeAction acc (world.surroundings platform) fuel (chain + 1)) chain uses runs) := by
      cases runs with
      | node => exact contained_inWorld _
      | docker => exact contained_inWorld _
      | composite steps => exact contained_runCompositeAction world platform acc (ih _) chain uses steps
    refine .bind (fun _ h => .refl h) fun before => ?_
    refine .bind ?_ fun result => .bind (fun _ h => .refl h) fun after => (contained_note _).bind
      fun _ => .pure _
    refine (contained_inWorld _).bind fun resolved => ?_
    cases resolved with
    | error e => exact .pure _
    | ok runs => exact (hdispatch runs).bind fun _ => (contained_inWorld _).bind fun _ => .pure _

theorem contained_runSteps (fuel : ℕ) (steps : List (RunnerStep (Uses A) (InnerStep B))) :
    Contained platform (runSteps acc (world.surroundings platform) fuel steps) := by
  induction steps with
  | nil => exact .pure _
  | cons step steps ih =>
    refine (contained_inWorld _).bind fun starts => ?_
    cases starts with
    | false => exact ih
    | true =>
      cases step.uses with
      | some uses =>
        exact (contained_executeAction world platform acc fuel 0 uses).bind fun _ =>
          (contained_inWorld _).bind fun _ => ih
      | none => exact (contained_inWorld _).bind fun _ => (contained_inWorld _).bind fun _ => ih

/-- The scopes of a job once its steps have run, from the start of the job. -/
def jobScopes (fuel : ℕ) (steps : List (RunnerStep (Uses A) (InnerStep B))) (w : W) (depth : D) :
    Scopes B :=
  ((runSteps acc (world.surroundings platform) fuel steps).run ⟨⟨{}, w⟩, depth, []⟩).2.ctx.scopes

/-- **No default condition holds after a failure.**  In every job, an inner step that is let through
    although an earlier step of its scope has failed or was cancelled has a condition of its own,
    which holds as it stands. -/
theorem default_conditions_withheld (fuel : ℕ) (steps : List (RunnerStep (Uses A) (InnerStep B)))
    (w : W) (depth : D) :
    Gated (Explicit platform) (jobScopes world platform acc fuel steps w depth).events :=
  (contained_runSteps world platform acc fuel steps ⟨⟨{}, w⟩, depth, []⟩ trivial).gated

end Jobs

/-! ### A condition on data alone -/

def statusNames : List Str := ["success", "failure", "always", "cancelled"].map String.toList

mutual

def callsStatus : Expr → Bool
  | .literal _ => false
  | .context _ => false
  | .propertyAccess object _ => callsStatus object
  | .indexAccess object index => callsStatus object || callsStatus index
  | .wildcardAccess object => callsStatus object
  | .functionCall name args => asciiLower name ∈ statusNames || argsCallStatus args
  | .unaryOp _ operand => callsStatus operand
  | .binaryOp _ left right => callsStatus left || callsStatus right

def argsCallStatus : List Expr → Bool
  | [] => false
  | arg :: args => callsStatus arg || argsCallStatus args

end

/-- No status function stands in the condition, which may be absent or blank. -/
def Plain (platform : Platform) (condition : Option Str) : Prop :=
  Default condition ∨ ∃ text ast, conditionText condition = .ok text ∧
    parse platform.debug text = .ok ast ∧ callsStatus ast = false

/-- The first step fails, the second one is a deployment under `if: true`. -/
def deployAfterFailure : World Unit Unit Bool where
  others _ :=
    { resolveAction := fun _ => pure (.ok (.composite
        [⟨none, ⟨none, true⟩⟩, ⟨none, ⟨some ['t', 'r', 'u', 'e'], false⟩⟩]))
      runResolvedNode := fun _ => pure (.ok .success)
      runDockerAction := fun _ => pure (.ok .success)
      popStepEnv := pure ()
      enterScope := fun _ => pure (.ok ())
      leaveScope := fun _ _ => pure (.ok ())
      isForced := pure false
      evaluateCompositeCondition := fun _ => pure (.ok true)
      reportCompositeStepError := fun _ => pure ()
      recordInnerResult := fun _ _ _ => pure ()
      setScopeStatus := fun _ => pure ()
      resolveContinueOnError := fun _ => pure false
      buildNestedStep := fun _ => pure (.ok ())
      recordNestedResult := fun _ _ => pure ()
      runRunStep := fun step => pure (some (.ok (if step.rest then .failure else .success)))
      startStep := fun _ => pure true
      recordStepResult := fun _ _ => pure () }
  createTempDir _ := pure (.ok ())
  jobStatus := pure .success
  setJobStatus _ := pure ()
  contexts _ := pure ∅
  workspace := pure none

def plainPlatform : Platform where
  toUppercase c := [c.toUpper]
  fromStr _ := .error (.other [])
  hashFiles _ _ := .ok []
  debug _ := []

/-- A step with this condition is let through after a failure in its scope. -/
def letThrough {B : Type} (condition : Option Str) : List (ScopeEvent B) → Bool
  | [] => false
  | .eligible path step _ :: events =>
    (failedIn path events && step.condition = condition) || letThrough condition events
  | .entered _ :: events => letThrough condition events
  | .concluded _ _ _ :: events => letThrough condition events

theorem not_gated_of_letThrough {B : Type} {Lawful : InnerStep B → EvalContext → Prop}
    {condition : Option Str} {events : List (ScopeEvent B)}
    (hcondition : ∀ step evalCtx, step.condition = condition → ¬ Lawful step evalCtx)
    (h : letThrough condition events = true) : ¬ Gated Lawful events := by
  intro hgated
  induction events with
  | nil => cases h
  | cons e events ih =>
    cases e with
    | entered path => exact ih h hgated
    | concluded path step conclusion => exact ih h hgated
    | eligible path step evalCtx =>
      rcases Bool.or_eq_true_iff.mp h with hhere | hearlier
      · obtain ⟨hfailed, hsame⟩ := Bool.and_eq_true_iff.mp hhere
        exact hcondition step evalCtx (of_decide_eq_true hsame) (hgated.1 hfailed)
      · exact ih hearlier hgated.2

/-- The deployment is let through. -/
theorem data_condition_holds_after_failure :
    ¬ Gated (fun step _ => ¬ Plain plainPlatform step.condition)
      (jobScopes deployAfterFailure plainPlatform tracked 2 [⟨some ⟨['a'], ()⟩, ⟨none, true⟩⟩] ()
        .new).events := by
  have hplain : Plain plainPlatform (some ['t', 'r', 'u', 'e']) :=
    .inr ⟨['t', 'r', 'u', 'e'], .literal (.bool true), rfl, rfl, rfl⟩
  have hthrough : letThrough (some ['t', 'r', 'u', 'e'])
      (jobScopes deployAfterFailure plainPlatform tracked 2 [⟨some ⟨['a'], ()⟩, ⟨none, true⟩⟩] ()
        .new).events = true := by
    decide +kernel
  refine not_gated_of_letThrough (fun step _ heq hlawful => hlawful ?_) hthrough
  rw [heq]
  exact hplain

end GhRunner.Execution.Conditions
