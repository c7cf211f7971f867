import GhRunner.Execution.Context
import GhRunner.Execution.JobResult

namespace GhRunner.Execution

open Text Machine GhRunner.Expressions

/-!
# The scopes of posts

What a post sees of the job's context while it runs, and what it leaves of it: `drain_post_steps` and
`run_one_post` of `crates/execution/src/execution/post_drain.rs`, `PostStepQueue` of `step_naming.rs`, with
`context_scopes.rs`, `context/state.rs` and `action_metadata.rs`.

* `StageCommand` — what a post's process makes of the context, by its commands and command files;
* `RegisteredPost`, `PostStepQueue` — a post with the scope, environment and action it was registered in;
* `runScopedPost`, `runPost`, `drainPosts` — the loop, in which each post enters its scope and leaves it;
* `ContextKept` — the scope, the environments of steps and the names of the action are as before;
* `drain_restores` — each post is taken once, last registered first, and leaves these as they were.

The statuses, conclusions and events are those of `JobSteps`.
-/

/-! ### The context -/

/-- The part of the job's context that commands write, and the rest. -/
structure PostContext where
  ctx : ExecutionContext
  pathAdditions : List Str
  /-- Saved state, by the scope and the step that saved it. -/
  actionStates : Finmap fun _ : List Str × Str => HashMap Str

/-- The commands of a stage that is not the main one: it has no outputs to show. -/
inductive StageCommand
  | setEnv (key value : Str)
  | prependPath (dir : Str)
  | saveState (key value : Str)
deriving DecidableEq, Repr

namespace PostContext

variable (c : PostContext)

def setStepState (stepId key value : Str) : PostContext :=
  let entry := (c.ctx.scopePath, stepId)
  { c with
    actionStates :=
      c.actionStates.insert entry (((c.actionStates.lookup entry).getD ∅).insert key value) }

def applyCommand (stepId : Str) (c : PostContext) : StageCommand → PostContext
  | .setEnv key value => { c with ctx.env := c.ctx.env.insert key value }
  | .prependPath dir => { c with pathAdditions := c.pathAdditions ++ [dir] }
  | .saveState key value => c.setStepState stepId key value

/-- Restore the parent environment after a nested action returns. -/
def popStepEnv : PostContext := { c with ctx.stepEnvOverlays := c.ctx.stepEnvOverlays.dropLast }

def restoreStepScope (path : List Str) : PostContext := { c with ctx.scopePath := path }

end PostContext

/-! ### Posts -/

/-- A post as it was registered, with what the evaluator answers in a context and what its process does
    there, before it ends or is stopped. -/
structure RegisteredPost where
  stepId : Str
  reference : ActionStepDefinitionReference
  actionName : Str
  stepEnv : HashMap Str
  reportId : Str
  scopePath : List Str
  condition : Option Str
  evaluate : PostContext → Str → JobStatus → Except StepError Bool
  continueOnError : PostContext → Bool
  stage : PostContext → List StageCommand × Except StepError Conclusion

structure PostStepQueue where
  steps : List RegisteredPost

namespace PostStepQueue

def new : PostStepQueue := ⟨[]⟩

def register (queue : PostStepQueue) (post : RegisteredPost) : PostStepQueue := ⟨queue.steps ++ [post]⟩

/-- Drain all post-steps in LIFO order (last registered runs first). -/
def drainLifo (queue : PostStepQueue) : List RegisteredPost × PostStepQueue := (queue.steps.reverse, new)

theorem steps_register (queue : PostStepQueue) (posts : List RegisteredPost) :
    (posts.foldl register queue).steps = queue.steps ++ posts := by
  induction posts generalizing queue with
  | nil => exact (List.append_nil _).symm
  | cons post posts ih => rw [List.foldl_cons, ih, register, List.append_assoc, List.singleton_append]

end PostStepQueue

namespace RegisteredPost

variable (post : RegisteredPost) (c : PostContext)

/-- The context after the stage's commands. -/
def commandsApplied : PostContext := (post.stage c).1.foldl (PostContext.applyCommand post.stepId) c

/-- The post with the answers that it gets in a context. -/
def inContext : PostStep where
  reportId := post.reportId
  condition := post.condition
  evaluate := post.evaluate c
  result := (post.stage c).2
  continueOnError := post.continueOnError (post.commandsApplied c)

/-- The post's own action, scope and environment. -/
def enter : PostContext :=
  { c with
    ctx := { (c.ctx.setGithubContext "action".toList post.actionName).setReference post.reference with
      scopePath := post.scopePath }.pushStepEnv post.stepEnv }

end RegisteredPost

/-! ### Draining -/

/-- The job, its context, and the conclusion so far. -/
structure PostDrain where
  drain : Drain
  context : PostContext

section

variable (signals : Signals)

/-- The post's condition holds and the job is not forced to end. -/
def startsPost (job : Job) (post : PostStep) : Bool :=
  !signals.isForced (job.now + 2) &&
    match post.evaluate (post.condition.getD "always()".toList) (job.jobStatus signals) with
    | .ok holds => holds
    | .error _ => false

/-- The context after the post in its own scope: the commands of its stage, if that starts. -/
def runScopedPost (job : Job) (c : PostContext) (post : RegisteredPost) : PostContext :=
  if startsPost signals job (post.inContext c) then post.commandsApplied c else c

/-- A post is run in its own scope, and what was there before is put back, whatever it ends with. -/
def runPost (d : PostDrain) (post : RegisteredPost) : PostDrain :=
  let priorScope := d.context.ctx.scopePath
  let priorMetadata := d.context.ctx.captureMetadata
  let entered := post.enter d.context
  let left := runScopedPost signals (d.drain.job.noteCancellation signals) entered post
  let restored := left.popStepEnv.restoreStepScope priorScope
  { drain := drainStep signals d.drain (post.inContext entered)
    context := { restored with ctx := restored.ctx.restoreMetadata priorMetadata } }

/-- Run the queue's posts over a job and its context. -/
def drainPosts (job : Job) (c : PostContext) (queue : PostStepQueue) : PostDrain × PostStepQueue :=
  let (posts, queue) := queue.drainLifo
  (run (runPost signals) ⟨⟨job, .success⟩, c⟩ posts, queue)

end

/-! ### What is put back -/

theorem objectGet_objectInsert (key key' : Str) (value : ExprValue) (entries : List (Str × ExprValue)) :
    objectGet key (objectInsert key' value entries) =
      if key' = key then some value else objectGet key entries := by
  induction entries with
  | nil =>
    by_cases hkey : key' = key
    · simp [objectInsert, objectGet, hkey]
    · simp [objectInsert, objectGet, hkey]
  | cons entry entries ih =>
    obtain ⟨k, v⟩ := entry
    unfold objectGet at ih ⊢
    by_cases hk : k = key'
    · subst hk
      by_cases hkey : k = key
      · simp [objectInsert, hkey]
      · simp [objectInsert, hkey]
    · -- the entry stands in front of the insertion
      rw [objectInsert, if_neg hk, List.find?_cons, List.find?_cons]
      by_cases hkey : k = key
      · have hne : key' ≠ key := fun heq => hk (hkey.trans heq.symm)
        simp [hkey, hne]
      · simpa [hkey] using ih

/-- The keys of the `github` context that name the action. -/
def metadataKeys : List Str := ["action".toList, "action_repository".toList, "action_ref".toList]

/-- The other entries of the `github` context are the same. -/
def SameElsewhere (github github' : List (Str × ExprValue)) : Prop :=
  ∀ key ∉ metadataKeys, objectGet key github' = objectGet key github

theorem SameElsewhere.refl (github : List (Str × ExprValue)) : SameElsewhere github github :=
  fun _ _ => rfl

theorem SameElsewhere.trans {g g' g'' : List (Str × ExprValue)} (h : SameElsewhere g g')
    (h' : SameElsewhere g' g'') : SameElsewhere g g'' :=
  fun key hkey => (h' key hkey).trans (h key hkey)

theorem SameElsewhere.insert {g g' : List (Str × ExprValue)} (h : SameElsewhere g g') {key : Str}
    (hkey : key ∈ metadataKeys) (value : ExprValue) : SameElsewhere g (objectInsert key value g') := by
  intro other hother
  have hne : key ≠ other := fun heq => hother (heq ▸ hkey)
  rw [objectGet_objectInsert, if_neg hne]
  exact h other hother

namespace ExecutionContext

variable (ctx : ExecutionContext)

theorem setReference_sameElsewhere (reference : ActionStepDefinitionReference)
    {g : List (Str × ExprValue)} (h : SameElsewhere g ctx.github) :
    SameElsewhere g (ctx.setReference reference).github := by
  have hrepository : "action_repository".toList ∈ metadataKeys := by decide
  have href : "action_ref".toList ∈ metadataKeys := by decide
  have hcleared : SameElsewhere g ctx.clearRepository.github :=
    (h.insert hrepository _).insert href _
  unfold setReference
  dsimp only
  split
  · exact hcleared
  · split
    · exact hcleared
    · split
      · exact hcleared
      · exact (hcleared.insert hrepository _).insert href _

theorem setReference_overlays (reference : ActionStepDefinitionReference) :
    (ctx.setReference reference).stepEnvOverlays = ctx.stepEnvOverlays := by
  unfold setReference
  dsimp only
  split
  · rfl
  · split
    · rfl
    · split <;> rfl

/-- What was captured is what is found after it was put back. -/
theorem captureMetadata_restoreMetadata (before : ExecutionContext) :
    (ctx.restoreMetadata before.captureMetadata).captureMetadata = before.captureMetadata := by
  show metadataKeys.map (fun key => (key, (objectGet key
    (objectInsert "action_ref".toList _ (objectInsert "action_repository".toList _
      (objectInsert "action".toList _ ctx.github)))).getD .null)) = _
  simp only [metadataKeys, List.map_cons, List.map_nil, objectGet_objectInsert]
  rfl

theorem restoreMetadata_sameElsewhere {metadata : List (Str × ExprValue)}
    (hkeys : ∀ entry ∈ metadata, entry.1 ∈ metadataKeys) {g : List (Str × ExprValue)}
    (h : SameElsewhere g ctx.github) : SameElsewhere g (ctx.restoreMetadata metadata).github := by
  induction metadata generalizing ctx with
  | nil => exact h
  | cons entry metadata ih =>
    obtain ⟨hkey, hrest⟩ := List.forall_mem_cons.mp hkeys
    exact ih (ctx.setGithubContextValue entry.1 entry.2) hrest (h.insert hkey entry.2)

theorem captureMetadata_keys : ∀ entry ∈ ctx.captureMetadata, entry.1 ∈ metadataKeys := by
  intro entry hentry
  obtain ⟨key, hkey, rfl⟩ := List.mem_map.mp hentry
  exact hkey

end ExecutionContext

/-- The scope, the environments of steps and the names of the action are as before. -/
structure ContextKept (before after : ExecutionContext) : Prop where
  scopePath : after.scopePath = before.scopePath
  overlays : after.stepEnvOverlays = before.stepEnvOverlays
  metadata : after.captureMetadata = before.captureMetadata
  github : SameElsewhere before.github after.github

theorem ContextKept.refl (ctx : ExecutionContext) : ContextKept ctx ctx := ⟨rfl, rfl, rfl, .refl _⟩

theorem ContextKept.trans {a b c : ExecutionContext} (h : ContextKept a b) (h' : ContextKept b c) : ContextKept a c :=
  ⟨h'.scopePath.trans h.scopePath, h'.overlays.trans h.overlays, h'.metadata.trans h.metadata,
    h.github.trans h'.github⟩

/-- The commands of a stage write none of these. -/
theorem commandsApplied_frame (post : RegisteredPost) (c : PostContext) :
    (post.commandsApplied c).ctx.stepEnvOverlays = c.ctx.stepEnvOverlays ∧
      (post.commandsApplied c).ctx.github = c.ctx.github := by
  unfold RegisteredPost.commandsApplied
  generalize (post.stage c).1 = commands
  induction commands generalizing c with
  | nil => exact ⟨rfl, rfl⟩
  | cons command commands ih =>
    obtain ⟨hoverlays, hgithub⟩ := ih (PostContext.applyCommand post.stepId c command)
    rw [List.foldl_cons, hoverlays, hgithub]
    cases command <;> exact ⟨rfl, rfl⟩

variable (signals : Signals)

theorem runScopedPost_frame (job : Job) (c : PostContext) (post : RegisteredPost) :
    (runScopedPost signals job c post).ctx.stepEnvOverlays = c.ctx.stepEnvOverlays ∧
      (runScopedPost signals job c post).ctx.github = c.ctx.github := by
  unfold runScopedPost
  split
  · exact commandsApplied_frame post c
  · exact ⟨rfl, rfl⟩

theorem runPost_kept (d : PostDrain) (post : RegisteredPost) :
    ContextKept d.context.ctx (runPost signals d post).context.ctx := by
  obtain ⟨hoverlays, hgithub⟩ := runScopedPost_frame signals
    (d.drain.job.noteCancellation signals) (post.enter d.context) post
  have hentered : SameElsewhere d.context.ctx.github (post.enter d.context).ctx.github :=
    ExecutionContext.setReference_sameElsewhere _ _ ((SameElsewhere.refl _).insert (by decide) _)
  refine ⟨rfl, ?_, ExecutionContext.captureMetadata_restoreMetadata _ _, ?_⟩
  · -- the environment that was pushed is the one that is popped
    show (runScopedPost signals _ (post.enter d.context) post).ctx.stepEnvOverlays.dropLast = _
    rw [hoverlays]
    show (ExecutionContext.stepEnvOverlays _ ++ [post.stepEnv]).dropLast = _
    rw [List.dropLast_concat, ExecutionContext.setReference_overlays]
    rfl
  · refine ExecutionContext.restoreMetadata_sameElsewhere _ (ExecutionContext.captureMetadata_keys _) ?_
    show SameElsewhere _ (runScopedPost signals _ (post.enter d.context) post).ctx.github
    rw [hgithub]
    exact hentered

/-! ### The whole queue -/

theorem run_kept (d : PostDrain) (posts : List RegisteredPost) :
    ContextKept d.context.ctx (run (runPost signals) d posts).context.ctx :=
  run_invariant_of_step (I := fun after => ContextKept d.context.ctx after.context.ctx)
    (fun after post h => h.trans (runPost_kept signals after post)) posts (.refl _)

/-- The posts that were started, by their reports. -/
def startedIds (events : List StepEvent) : List Str :=
  events.filterMap fun event =>
    match event with
    | .started id => some id
    | _ => none

@[simp] theorem startedIds_send (job : Job) (event : StepEvent) :
    startedIds (job.send event).events = startedIds job.events ++ startedIds [event] :=
  List.filterMap_append

/-- A post is started once, whatever becomes of it. -/
theorem startedIds_runOnePost (job : Job) (post : PostStep) :
    startedIds (job.runOnePost signals post).1.events = startedIds job.events ++ [post.reportId] := by
  have hstarted : startedIds (job.send (.started post.reportId)).elapse.events =
      startedIds job.events ++ [post.reportId] := startedIds_send job _
  have hskipped (before : Job) (h : startedIds before.events = startedIds job.events ++ [post.reportId]) :
      startedIds ((before.send (.skipped post.reportId)).send (.completed post.reportId .skipped)).events =
        startedIds job.events ++ [post.reportId] := by
    rw [startedIds_send, startedIds_send, h]
    simp [startedIds]
  unfold Job.runOnePost
  dsimp only
  split
  · exact hskipped _ hstarted
  · split
    · exact hstarted
    · exact hskipped _ hstarted
    · split
      · exact (startedIds_send _ _).trans ((List.append_nil _).trans hstarted)
      · rw [startedIds_send, startedIds_send]
        exact (List.append_nil _).trans ((List.append_nil _).trans hstarted)

theorem startedIds_reportPost (job : Job) (post : PostStep) (result : Except StepError Conclusion) :
    startedIds (job.reportPost post result).1.events = startedIds job.events := by
  unfold Job.reportPost
  split
  · rfl
  · exact (startedIds_send _ _).trans (List.append_nil _)
  · exact (startedIds_send _ _).trans (List.append_nil _)

theorem startedIds_drainStep (d : Drain) (post : PostStep) :
    startedIds (drainStep signals d post).job.events =
      startedIds d.job.events ++ [post.reportId] := by
  have hran := startedIds_runOnePost signals (d.job.noteCancellation signals) post
  rw [noteCancellation_events] at hran
  unfold drainStep
  generalize (d.job.noteCancellation signals).runOnePost signals post = ran at hran ⊢
  obtain ⟨job, result⟩ := ran
  have hreport := (startedIds_reportPost job post result).trans hran
  dsimp only
  generalize job.reportPost post result = sent at hreport ⊢
  obtain ⟨job', conclusion⟩ := sent
  dsimp only
  split
  · rw [recordStepFailure_events]
    exact hreport
  · split <;> exact hreport

theorem startedIds_run (d : PostDrain) (posts : List RegisteredPost) :
    startedIds (run (runPost signals) d posts).drain.job.events =
      startedIds d.drain.job.events ++ posts.map RegisteredPost.reportId := by
  induction posts generalizing d with
  | nil => exact (List.append_nil _).symm
  | cons post posts ih =>
    rw [run_cons, ih, List.map_cons, List.append_cons]
    exact congrArg (· ++ _) (startedIds_drainStep signals d.drain _)

/-- Posts drain completely and leave no trace: each registered post is taken once, the last registered
    first, and none is left; and after each of them, however it ended, the scope, the environments of
    steps and the names of the action are those from before. -/
theorem drain_restores (job : Job) (c : PostContext) (registered : List RegisteredPost) :
    let queue := registered.foldl PostStepQueue.register .new
    (drainPosts signals job c queue).2 = .new ∧
    startedIds (drainPosts signals job c queue).1.drain.job.events =
      startedIds job.events ++ (registered.map RegisteredPost.reportId).reverse ∧
    ContextKept c.ctx (drainPosts signals job c queue).1.context.ctx ∧
    ∀ taken post later, registered.reverse = taken ++ post :: later →
      ContextKept (run (runPost signals) ⟨⟨job, .success⟩, c⟩ taken).context.ctx
        (run (runPost signals) ⟨⟨job, .success⟩, c⟩ (taken ++ [post])).context.ctx := by
  intro queue
  have hqueue : queue.drainLifo = (registered.reverse, .new) := by
    rw [PostStepQueue.drainLifo, PostStepQueue.steps_register]
    rfl
  unfold drainPosts
  rw [hqueue]
  dsimp only
  refine ⟨rfl, ?_, run_kept signals ⟨⟨job, .success⟩, c⟩ registered.reverse, fun taken post later _ => ?_⟩
  · rw [startedIds_run, List.map_reverse]
  · rw [run_append]
    exact runPost_kept signals _ post

end GhRunner.Execution
