import GhRunner.Execution.CompositeEnv
import GhRunner.Execution.StopCommands

namespace GhRunner.Execution

open Text GhRunner.Shared

/-!
# The outputs of a step that is done

A `run:` step sets outputs with `::set-output` commands, which the dispatcher applies as they come, and in
the file of `GITHUB_OUTPUT`, which is read in the end.  How the two are merged is up to where the step
runs: `apply_file_commands_and_merge_outputs` of `crates/execution/src/execution/step_env.rs` at the top
level; `execute_composite_script` and `apply_run_file_commands` of `composite_exec.rs`, with
`process_file_commands` of `composite_env.rs`, inside a composite action.

* `Write`, `stdoutOutputs`, `fileOutputs` — what a step writes, and what either way comes to;
* `applyFileCommandsAndMergeOutputs`, `finishCompositeRun` — the two merges;
* `stepOutputs_topLevel`, `stepOutputs_composite` — the outputs each of them leaves under the step's name;
* `outputs_agree_iff` — where they leave the same.
-/

variable {A : AhoCorasick}

/-! ### What a step writes -/

/-- One command of the step, or a write to its file of outputs, with how the file reads after it. -/
inductive Write
  | setOutput (name value : Str)
  | file (contents : Except Str Str)

/-- The commands as the dispatcher records them. -/
def recordedOutputs : List Write → List (Str × Str)
  | [] => []
  | .setOutput name value :: rest =>
    if name = [] then recordedOutputs rest
    else (unescapeData name, unescapeData value) :: recordedOutputs rest
  | .file _ :: rest => recordedOutputs rest

/-- The values that commands set, the last one for each name. -/
def stdoutOutputs (writes : List Write) : Pairs := CompositeEnv.setAll ∅ (recordedOutputs writes)

/-- How the file reads in the end. -/
def outputFile (writes : List Write) : Except Str Str :=
  writes.foldl (fun contents w => match w with
    | .setOutput _ _ => contents
    | .file contents => contents) (.ok [])

/-- The values that the file sets. -/
def fileOutputs (writes : List Write) : Pairs := (parseKvCommand "output".toList (outputFile writes)).1

def isSetBy (writes : List Write) (key : Str) : Prop :=
  key ∈ stdoutOutputs writes ∨ key ∈ fileOutputs writes

/-! ### The step -/

namespace CommandContext

variable (ctx : CommandContext A)

/-- `step_outputs`. -/
def outputsOf (contextName : Str) : Pairs :=
  (ctx.stepOutputs.lookup (ctx.scopePath, contextName)).getD ∅

/-- `set_step_output` for each of the outputs. -/
def setStepOutputs (contextName : Str) (outputs : Pairs) : CommandContext A :=
  { ctx with
    stepOutputs := ctx.stepOutputs.insert (ctx.scopePath, contextName)
      (outputs ∪ ctx.outputsOf contextName) }

end CommandContext

namespace Dispatch

variable (s : Dispatch A)

def write : Write → Dispatch A
  | .setOutput name value => s.applySetOutput name value
  | .file _ => s

/-- `take_set_outputs`, collected. -/
def takeSetOutputs : Pairs := CompositeEnv.setAll ∅ s.dispatcher.setOutputs

end Dispatch

/-- The dispatcher of a step at work, from its start to the end of its output. -/
def runStep (ctx : CommandContext A) (stepId logStepId contextName : Str) (writes : List Write) :
    Dispatch A :=
  Machine.run Dispatch.write ⟨.new stepId logStepId (some contextName), ctx⟩ writes

/-! ### The two merges -/

/-- At the top level: outputs of commands take precedence over outputs of the file. -/
def applyFileCommandsAndMergeOutputs (ctx : CommandContext A) (expressionName : Str)
    (stdoutOutputs : Pairs) (output : Except Str Str) : Pairs × CommandContext A :=
  let outputs := stdoutOutputs ∪ (parseKvCommand "output".toList output).1
  (outputs, ctx.setStepOutputs expressionName outputs)

def topLevelStep (ctx : CommandContext A) (stepId expressionName : Str) (writes : List Write) :
    Pairs × CommandContext A :=
  let done := runStep ctx stepId stepId expressionName writes
  applyFileCommandsAndMergeOutputs done.ctx expressionName done.takeSetOutputs (outputFile writes)

/-- Inside a composite action: the action's own record of the step's outputs is extended by those of
    the commands, then by those of the file, and is what the context gets. -/
def finishCompositeRun (ctx : CommandContext A) (stepOutputs : Finmap fun _ : Str => Pairs)
    (stepId : Str) (stdoutOutputs : Pairs) (output : Except Str Str) :
    (Finmap fun _ : Str => Pairs) × CommandContext A :=
  let recorded := stdoutOutputs ∪ (stepOutputs.lookup stepId).getD ∅
  let recorded := (parseKvCommand "output".toList output).1 ∪ recorded
  (stepOutputs.insert stepId recorded, ctx.setStepOutputs stepId recorded)

def compositeStep (ctx : CommandContext A) (stepOutputs : Finmap fun _ : Str => Pairs)
    (stepId parentStepId : Str) (writes : List Write) :
    (Finmap fun _ : Str => Pairs) × CommandContext A :=
  let done := runStep ctx stepId parentStepId stepId writes
  finishCompositeRun done.ctx stepOutputs stepId done.takeSetOutputs (outputFile writes)

/-! ### The run of a step -/

section Run

variable {s : Dispatch A} {contextName : Str}

theorem setAll_append (env : Pairs) (entries entries' : List (Str × Str)) :
    CompositeEnv.setAll env (entries ++ entries') = CompositeEnv.setAll (CompositeEnv.setAll env entries) entries' :=
  List.foldl_append

theorem setAll_eq_union (env : Pairs) (entries : List (Str × Str)) :
    CompositeEnv.setAll env entries = CompositeEnv.setAll ∅ entries ∪ env := by
  induction entries using List.reverseRecOn with
  | nil => exact Finmap.empty_union.symm
  | append_singleton entries entry ih =>
    rw [setAll_append, setAll_append, ih]
    show (CompositeEnv.setAll ∅ entries ∪ env).insert entry.1 entry.2 =
      (CompositeEnv.setAll ∅ entries).insert entry.1 entry.2 ∪ env
    exact Finmap.insert_union

@[simp] theorem outputsOf_setStepOutputs (ctx : CommandContext A) (outputs : Pairs) :
    (ctx.setStepOutputs contextName outputs).outputsOf contextName =
      outputs ∪ ctx.outputsOf contextName := by
  show ((ctx.stepOutputs.insert (ctx.scopePath, contextName) _).lookup (ctx.scopePath, contextName)).getD ∅
    = _
  rw [Finmap.lookup_insert]
  rfl

/-- One write is recorded, and its value is the one under the step's name. -/
theorem write_spec (hname : s.dispatcher.outputContextName = some contextName) (w : Write) :
    (s.write w).dispatcher.outputContextName = some contextName ∧
      (s.write w).dispatcher.setOutputs = s.dispatcher.setOutputs ++ recordedOutputs [w] ∧
      (s.write w).ctx.outputsOf contextName =
        CompositeEnv.setAll (s.ctx.outputsOf contextName) (recordedOutputs [w]) := by
  cases w with
  | file contents => exact ⟨hname, (List.append_nil _).symm, rfl⟩
  | setOutput name value =>
    show (s.applySetOutput name value).dispatcher.outputContextName = _ ∧ _
    unfold Dispatch.write Dispatch.applySetOutput recordedOutputs
    by_cases hempty : name = []
    · simp only [if_pos hempty]
      exact ⟨hname, (List.append_nil _).symm, rfl⟩
    · simp only [if_neg hempty, hname]
      refine ⟨hname, rfl, ?_⟩
      show ((s.ctx.stepOutputs.insert (s.ctx.scopePath, contextName) _).lookup
        (s.ctx.scopePath, contextName)).getD ∅ = _
      rw [Finmap.lookup_insert]
      rfl

theorem recordedOutputs_cons (w : Write) (rest : List Write) :
    recordedOutputs (w :: rest) = recordedOutputs [w] ++ recordedOutputs rest := by
  cases w with
  | file contents => rfl
  | setOutput name value =>
    show (if name = [] then recordedOutputs rest else _) =
      (if name = [] then [] else [(unescapeData name, unescapeData value)]) ++ recordedOutputs rest
    split <;> rfl

theorem runWrites_spec (hname : s.dispatcher.outputContextName = some contextName) (writes : List Write) :
    (Machine.run Dispatch.write s writes).dispatcher.setOutputs =
        s.dispatcher.setOutputs ++ recordedOutputs writes ∧
      (Machine.run Dispatch.write s writes).ctx.outputsOf contextName =
        CompositeEnv.setAll (s.ctx.outputsOf contextName) (recordedOutputs writes) := by
  induction writes generalizing s with
  | nil => exact ⟨(List.append_nil _).symm, rfl⟩
  | cons w rest ih =>
    obtain ⟨hname', hrecorded, hvalues⟩ := write_spec hname w
    obtain ⟨hrest, hmore⟩ := ih hname'
    refine ⟨hrest.trans ?_, hmore.trans ?_⟩
    · rw [hrecorded, List.append_assoc, ← recordedOutputs_cons]
    · rw [hvalues, ← setAll_append, ← recordedOutputs_cons]

/-- Before the merge, the step's name has the values of its commands. -/
theorem runStep_spec (ctx : CommandContext A) (stepId logStepId contextName : Str) (writes : List Write) :
    (runStep ctx stepId logStepId contextName writes).takeSetOutputs = stdoutOutputs writes ∧
      (runStep ctx stepId logStepId contextName writes).ctx.outputsOf contextName =
        stdoutOutputs writes ∪ ctx.outputsOf contextName := by
  obtain ⟨hrecorded, hvalues⟩ := runWrites_spec
    (s := ⟨.new stepId logStepId (some contextName), ctx⟩) rfl writes
  exact ⟨congrArg (CompositeEnv.setAll ∅) hrecorded, hvalues.trans (setAll_eq_union _ _)⟩

end Run

/-! ### What is left under the step's name -/

section Merged

variable (ctx : CommandContext A)

theorem stepOutputs_topLevel (stepId expressionName : Str) (writes : List Write) :
    (topLevelStep ctx stepId expressionName writes).1 = stdoutOutputs writes ∪ fileOutputs writes ∧
      (topLevelStep ctx stepId expressionName writes).2.outputsOf expressionName =
        (stdoutOutputs writes ∪ fileOutputs writes) ∪
          (stdoutOutputs writes ∪ ctx.outputsOf expressionName) := by
  obtain ⟨htaken, hvalues⟩ := runStep_spec ctx stepId stepId expressionName writes
  unfold topLevelStep applyFileCommandsAndMergeOutputs
  dsimp only
  rw [outputsOf_setStepOutputs, htaken, hvalues]
  exact ⟨rfl, rfl⟩

theorem stepOutputs_composite (stepOutputs : Finmap fun _ : Str => Pairs) (stepId parentStepId : Str)
    (writes : List Write) :
    (compositeStep ctx stepOutputs stepId parentStepId writes).2.outputsOf stepId =
      (fileOutputs writes ∪ (stdoutOutputs writes ∪ (stepOutputs.lookup stepId).getD ∅)) ∪
        (stdoutOutputs writes ∪ ctx.outputsOf stepId) := by
  obtain ⟨htaken, hvalues⟩ := runStep_spec ctx stepId parentStepId stepId writes
  unfold compositeStep finishCompositeRun
  dsimp only
  rw [outputsOf_setStepOutputs, htaken, hvalues]
  rfl

end Merged

/-- A step leaves the same values at the top level and inside a composite action exactly if no key that is
    set both ways has two values in the end. -/
theorem outputs_agree_iff (ctx ctx' : CommandContext A) (stepOutputs : Finmap fun _ : Str => Pairs)
    (stepId parentStepId : Str) (writes : List Write) :
    (∀ key, isSetBy writes key →
        ((topLevelStep ctx stepId stepId writes).2.outputsOf stepId).lookup key =
          ((compositeStep ctx' stepOutputs stepId parentStepId writes).2.outputsOf stepId).lookup key) ↔
      ∀ key value value', (stdoutOutputs writes).lookup key = some value →
        (fileOutputs writes).lookup key = some value' → value = value' := by
  rw [(stepOutputs_topLevel ctx stepId stepId writes).2, stepOutputs_composite]
  have htop (key : Str) (h : isSetBy writes key) :
      ((stdoutOutputs writes ∪ fileOutputs writes) ∪
        (stdoutOutputs writes ∪ ctx.outputsOf stepId)).lookup key =
          ((stdoutOutputs writes).lookup key).or ((fileOutputs writes).lookup key) := by
    rw [Finmap.lookup_union_left (Finmap.mem_union.mpr h), Finmap.lookup_union]
  have hcomposite (key : Str) (h : isSetBy writes key) :
      ((fileOutputs writes ∪ (stdoutOutputs writes ∪ (stepOutputs.lookup stepId).getD ∅)) ∪
        (stdoutOutputs writes ∪ ctx'.outputsOf stepId)).lookup key =
          ((fileOutputs writes).lookup key).or ((stdoutOutputs writes).lookup key) := by
    have hin : key ∈ fileOutputs writes ∪
        (stdoutOutputs writes ∪ (stepOutputs.lookup stepId).getD ∅) :=
      Finmap.mem_union.mpr (h.symm.imp_right fun h => Finmap.mem_union.mpr (.inl h))
    rw [Finmap.lookup_union_left hin, Finmap.lookup_union, Finmap.lookup_union]
    cases hfile : (fileOutputs writes).lookup key with
    | some value => rfl
    | none =>
      -- then a command sets it, and what was recorded before does not count
      have hstdout : key ∈ stdoutOutputs writes :=
        h.resolve_right fun h => Finmap.lookup_eq_none.mp hfile h
      obtain ⟨value, hvalue⟩ := Finmap.mem_iff.mp hstdout
      rw [hvalue]
      rfl
  constructor
  · intro h key value value' hvalue hvalue'
    have hset : isSetBy writes key := .inl (Finmap.mem_of_lookup_eq_some hvalue)
    have hagree := h key hset
    rw [htop key hset, hcomposite key hset, hvalue, hvalue'] at hagree
    exact Option.some.inj hagree
  · intro h key hset
    rw [htop key hset, hcomposite key hset]
    cases hvalue : (stdoutOutputs writes).lookup key with
    | none => exact (Option.or_none).symm
    | some value =>
      cases hvalue' : (fileOutputs writes).lookup key with
      | none => rfl
      | some value' => rw [h key value value' hvalue hvalue']

/-- `k` is set to `a` by a command and to `b` in the file: outside it is `a`, inside it is `b`. -/
theorem outputs_differ :
    let writes := [Write.setOutput ['k'] ['a'], .file (.ok "k=b\n".toList)]
    ((topLevelStep Dispatch.fresh.ctx ['s'] ['s'] writes).2.outputsOf ['s']).lookup ['k'] = some ['a'] ∧
      ((compositeStep Dispatch.fresh.ctx ∅ ['s'] ['p'] writes).2.outputsOf ['s']).lookup ['k'] = some ['b'] := by
  decide

end GhRunner.Execution
