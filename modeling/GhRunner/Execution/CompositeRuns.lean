import GhRunner.Execution.CompositeEnv

namespace GhRunner.Execution.CompositeEnv

open Text Machine

/-!
# What the steps of a composite action see of each other

A composite keeps what its `run:` steps write in a copy of its own, next to the job's environment
(`crates/execution/src/execution/composite_env.rs`, `composite_exec.rs`, `action_exec.rs`).

* `Current` — the copy says of each variable what the job's environment says;
* `last_writer_wins` — while it does, each step sees each variable as it was written last;
* `InOrder` — no directory is pending that the step would not see, or not see in its place;
* `path_additions_in_order` — then `PATH` is what the top-level runner makes of the same additions.
-/

/-! ### Layers -/

section Layers

variable {key : Str} {value : Str} {env layer : Pairs} {entries : List (Str × Str)}

theorem lookup_setAll_of_notMem (h : key ∉ entries.map Prod.fst) :
    (setAll env entries).lookup key = env.lookup key := by
  induction entries generalizing env with
  | nil => rfl
  | cons entry entries ih =>
    rw [List.map_cons, List.mem_cons, not_or] at h
    show (setAll (env.insert entry.1 entry.2) entries).lookup key = env.lookup key
    rw [ih h.2, Finmap.lookup_insert_of_ne _ h.1]

theorem lookup_over_of_notMem (h : key ∉ layer) : (layer ∪ env).lookup key = env.lookup key := by
  rw [Finmap.lookup_union, Finmap.lookup_eq_none.mpr h]
  rfl

theorem lookup_under (h : env.lookup key = some value) : (env ∪ layer).lookup key = some value := by
  rw [Finmap.lookup_union, h]
  rfl

theorem lookup_inheritHost (setup : JobSetup) (h : env.lookup key = some value) :
    (setup.inheritHost env layer).lookup key = some value := by
  unfold JobSetup.inheritHost
  split
  · exact lookup_under h
  · exact h

theorem lookup_erase_of_ne (h : env.lookup key = some value) (hkey : key ≠ "PATH".toList) :
    (env.erase "PATH".toList).lookup key = some value := by
  rw [Finmap.lookup_erase_ne hkey, h]

theorem lookup_insert_path {path : Str} (h : env.lookup key = some value)
    (hkey : key ≠ "PATH".toList) :
    (env.insert "PATH".toList path).lookup key = some value := by
  rw [Finmap.lookup_insert_of_ne _ hkey, h]

theorem lookup_translateContainerEnv (setup : JobSetup) (env : Pairs) (key : Str) :
    (setup.translateContainerEnv env).lookup key = (env.lookup key).map fun value =>
      match setup.container with
      | none => value
      | some container => container.translateEnv key value := by
  unfold JobSetup.translateContainerEnv
  cases setup.container with
  | none => exact Option.map_id'.symm
  | some container => exact Finmap.lookup_mapValues _ _ _

end Layers

/-! ### Variables -/

def metadataNames : List Str :=
  ["GITHUB_ACTION", "GITHUB_ACTION_REPOSITORY", "GITHUB_ACTION_REF", "RUNNER_ENVIRONMENT"].map
    String.toList

def fileCommandNames : List Str :=
  ["GITHUB_STATE", "GITHUB_STEP_SUMMARY", "GITHUB_OUTPUT", "GITHUB_ENV", "GITHUB_PATH"].map
    String.toList

/-- The names the runner itself sets in the environments it builds. -/
def runnerNames : List Str :=
  metadataNames ++ fileCommandNames ++
    ["PATH", "GITHUB_ACTION_PATH", "GITHUB_WORKSPACE", "RUNNER_TEMP", "RUNNER_TOOL_CACHE"].map
      String.toList

/-- What a step is given besides the job's environment. -/
def ownLayers (setup : JobSetup) (s : EnvState) : Event → List Pairs
  | .run step =>
    [step.env, setup.serviceScript.entries] ++
      match s.composites with
      | [] => []
      | composite :: _ => [composite.stepInputs.entries]
  | .stage action =>
    [action.env, action.inputs.entries, action.state.entries] ++
      match action.kind with
      | .node => [setup.serviceNode.entries]
      | .docker _ => [setup.serviceContainer.entries,
          setAll ∅ [("HOME".toList, []), ("GITHUB_ACTIONS".toList, [])]]
  | _ => []

/-- The variable is set for this step by something else than the job's environment. -/
def Overridden (setup : JobSetup) (s : EnvState) (e : Event) (key : Str) : Prop :=
  key ∈ runnerNames ∨ ∃ layer ∈ s.ctx.stepEnvOverlays ++ ownLayers setup s e, key ∈ layer

/-- A value as the environment of a step names it: a path may be known by another name in the
    container the step runs in. -/
def named (setup : JobSetup) (s : EnvState) (e : Event) (key value : Str) : Str :=
  match e with
  | .run _ =>
    match s.composites, setup.container with
    | _ :: _, some container => container.translateEnv key value
    | _, _ => value
  | .stage action =>
    match action.kind with
    | .docker docker => docker.translateEnv key value
    | .node => value
  | _ => value

instance (setup : JobSetup) (s : EnvState) (e : Event) (key : Str) :
    Decidable (Overridden setup s e key) := inferInstanceAs (Decidable (_ ∨ _))

/-- Each variable that only the job's environment sets has its latest value. -/
def SeesLatest (setup : JobSetup) (s : EnvState) (latest : Pairs) (e : Event) : Prop :=
  ∀ env ∈ seen setup s e, ∀ key value, ¬ Overridden setup s e key →
    latest.lookup key = some value → env.lookup key = some (named setup s e key value)

/-- Laid over the job's environment, the composite's copy changes nothing. -/
def Current (ctx : EnvContext) (composite : Composite) : Prop :=
  composite.extraEnv ∪ ctx.env = ctx.env

/-- The copy a step is given, or that is handed on, is not behind the job's environment. -/
def Fresh (s : EnvState) : Event → Prop
  | .run _ => ∀ composite ∈ s.composites.head?, Current s.ctx composite
  | .leave rendered => rendered = true → ∀ composite ∈ s.composites.head?, Current s.ctx composite
  | _ => True

instance (ctx : EnvContext) (composite : Composite) : Decidable (Current ctx composite) :=
  inferInstanceAs (Decidable (_ = _))

instance (s : EnvState) : (e : Event) → Decidable (Fresh s e)
  | .run _ => inferInstanceAs (Decidable (∀ composite ∈ s.composites.head?, Current s.ctx composite))
  | .leave rendered => inferInstanceAs (Decidable
      (rendered = true → ∀ composite ∈ s.composites.head?, Current s.ctx composite))
  | .enter _ _ _ => .isTrue trivial
  | .stage _ => .isTrue trivial

section Variables

variable {setup : JobSetup} {ctx : EnvContext} {key value : Str}

theorem ne_path_of_notMem (h : key ∉ runnerNames) : key ≠ "PATH".toList :=
  fun hkey => h (hkey ▸ by decide)

theorem visibleEnv_lookup (h : ∀ overlay ∈ ctx.stepEnvOverlays, key ∉ overlay) :
    ctx.visibleEnv.lookup key = ctx.env.lookup key := by
  obtain ⟨env, overlays, dirs⟩ := ctx
  show (overlays.foldl (fun env overlay => overlay ∪ env) env).lookup key = env.lookup key
  induction overlays generalizing env with
  | nil => rfl
  | cons overlay overlays ih =>
    rw [List.foldl_cons, ih _ fun o ho => h o (List.mem_cons_of_mem _ ho)]
    exact lookup_over_of_notMem (h overlay (List.mem_cons_self ..))

theorem metadataNames_subset : metadataNames ⊆ runnerNames := by decide

theorem fileCommandNames_subset : fileCommandNames ⊆ runnerNames := by decide

theorem export_lookup (metadata : Metadata) (env : Pairs) (h : key ∉ metadataNames) :
    (metadata.export env).lookup key = env.lookup key := lookup_setAll_of_notMem h

theorem fileCommandEnv_lookup (env : Pairs) (files : FileCommandPaths)
    (h : key ∉ fileCommandNames) : (fileCommandEnv env files).lookup key = env.lookup key :=
  lookup_setAll_of_notMem h

theorem mergeFileCommandEnv_lookup (env : Pairs) (files : FileCommandPaths)
    (h : key ∉ fileCommandNames) :
    (mergeFileCommandEnv env files).lookup key = env.lookup key :=
  lookup_setAll_of_notMem fun hmem => h (List.mem_cons_of_mem _ hmem)

/-- The job's environment reaches a step under the variables of its own. -/
theorem buildStepEnv_lookup (metadata : Metadata) (hkey : key ∉ runnerNames)
    (hvalue : ctx.visibleEnv.lookup key = some value) :
    (buildStepEnv setup ctx metadata ∅).lookup key = some value := by
  have hbase : (baseEnv setup ctx).lookup key = some value := by
    unfold baseEnv
    split
    · exact hvalue
    · exact lookup_under hvalue
  rw [buildStepEnv, export_lookup _ _ (mt (metadataNames_subset ·) hkey), mergeStepEnvWithPaths,
    Finmap.empty_union]
  split
  · exact hbase
  · exact lookup_insert_path hbase (ne_path_of_notMem hkey)

theorem prependPathAdditions_lookup {env : Pairs} (dirs : List Str) (hkey : key ∉ runnerNames)
    (hvalue : env.lookup key = some value) :
    (prependPathAdditions env dirs).lookup key = some value := by
  unfold prependPathAdditions
  split
  · exact hvalue
  · exact lookup_insert_path hvalue (ne_path_of_notMem hkey)

/-- A top-level `run:` step sees the job's environment. -/
theorem scriptStepEnv_lookup {step : RunStep} (hkey : key ∉ runnerNames)
    (hservice : key ∉ setup.serviceScript.entries)
    (hvalue : ctx.visibleEnv.lookup key = some value) :
    (scriptStepEnv setup ctx step).lookup key = some value := by
  have hstep : (buildStepEnv setup ctx step.metadata ∅).lookup key = some value :=
    buildStepEnv_lookup step.metadata hkey hvalue
  refine lookup_inheritHost setup ?_
  rw [fileCommandEnv_lookup _ _ (mt (fileCommandNames_subset ·) hkey), lookup_over_of_notMem hservice]
  exact hstep

/-- A composite's `run:` step sees the composite's copy, and the job's environment behind it. -/
theorem compositeStepEnv_lookup {composite : Composite} {step : RunStep} (hkey : key ∉ runnerNames)
    (hinputs : key ∉ composite.stepInputs.entries) (henv : key ∉ step.env)
    (hservice : key ∉ setup.serviceScript.entries)
    (hvalue : (composite.extraEnv ∪ ctx.visibleEnv).lookup key = some value) :
    (compositeStepEnv setup ctx composite step).lookup key =
      some (match setup.container with
        | none => value
        | some container => container.translateEnv key value) := by
  have hcopy : (composite.extraEnv ∪ setup.inheritHost (buildStepEnv setup ctx step.metadata ∅)
      setup.inheritedProcessEnv).lookup key = some value := by
    rw [Finmap.lookup_union] at hvalue ⊢
    cases hextra : composite.extraEnv.lookup key with
    | some written => rwa [hextra] at hvalue
    | none =>
      rw [hextra] at hvalue
      exact lookup_inheritHost setup (buildStepEnv_lookup step.metadata hkey hvalue)
  have hpaths : ["GITHUB_WORKSPACE".toList, "RUNNER_TEMP".toList] ⊆ runnerNames := by decide
  have haction : key ≠ "GITHUB_ACTION_PATH".toList := fun h => hkey (h ▸ by decide)
  unfold compositeStepEnv
  rw [mergeFileCommandEnv_lookup _ _ (mt (fileCommandNames_subset ·) hkey),
    lookup_translateContainerEnv, export_lookup _ _ (mt (metadataNames_subset ·) hkey),
    lookup_setAll_of_notMem fun hmem => hkey (hpaths hmem), prependPathAdditions_lookup _ hkey]
  · rfl
  · rw [lookup_over_of_notMem hservice, lookup_over_of_notMem henv,
      Finmap.lookup_insert_of_ne _ haction, lookup_over_of_notMem hinputs]
    exact hcopy

theorem buildResolvedActionEnv_lookup {action : ActionStage} (hkey : key ∉ runnerNames)
    (hinputs : key ∉ action.inputs.entries) (hstate : key ∉ action.state.entries)
    (hservice : match action.kind with
      | .node => key ∉ setup.serviceNode.entries
      | .docker _ => key ∉ setup.serviceContainer.entries)
    (hvalue : ctx.visibleEnv.lookup key = some value) :
    (buildResolvedActionEnv setup ctx action).lookup key = some value := by
  have hpaths : ["GITHUB_WORKSPACE".toList, "RUNNER_TEMP".toList, "RUNNER_TOOL_CACHE".toList] ⊆
      runnerNames := by decide
  have haction : key ∉ setAll ∅ [("GITHUB_ACTION_PATH".toList, action.actionDir)] := by
    rw [← Finmap.lookup_eq_none, lookup_setAll_of_notMem fun hmem => hkey ?_]
    · exact Finmap.lookup_empty key
    · exact (by decide : ["GITHUB_ACTION_PATH".toList] ⊆ runnerNames) hmem
  unfold buildResolvedActionEnv
  rw [lookup_setAll_of_notMem fun hmem => hkey (hpaths hmem), buildActionEnv, Finmap.union_assoc,
    Finmap.union_assoc, lookup_over_of_notMem hstate, lookup_over_of_notMem hinputs,
    lookup_over_of_notMem haction]
  cases hkind : action.kind with
  | node =>
    rw [hkind] at hservice
    exact (lookup_over_of_notMem hservice).trans (buildStepEnv_lookup action.metadata hkey hvalue)
  | docker docker =>
    rw [hkind] at hservice
    exact (lookup_over_of_notMem hservice).trans (buildStepEnv_lookup action.metadata hkey hvalue)

theorem nodeStageEnv_lookup {action : ActionStage} (hkey : key ∉ runnerNames)
    (hvalue : (buildResolvedActionEnv setup ctx action).lookup key = some value) :
    (nodeStageEnv setup ctx action).lookup key = some value := by
  rw [nodeStageEnv, fileCommandEnv_lookup _ _ (mt (fileCommandNames_subset ·) hkey)]
  exact lookup_inheritHost setup hvalue

theorem dockerStageEnv_lookup {action : ActionStage} {docker : DockerAction}
    (hkey : key ∉ runnerNames) (hinputs : key ∉ action.inputs.entries)
    (hhome : key ≠ "HOME".toList) (hactions : key ≠ "GITHUB_ACTIONS".toList)
    (hvalue : (buildResolvedActionEnv setup ctx action).lookup key = some value) :
    (dockerStageEnv setup ctx action docker).lookup key =
      some (docker.translateEnv key value) := by
  have hpath := ne_path_of_notMem hkey
  have hvalues : (dockerStageValues setup ctx action docker).lookup key = some value := by
    refine lookup_under ?_
    rw [Finmap.lookup_insert_of_ne _ hactions]
    refine lookup_under ?_
    rw [fileCommandEnv_lookup _ _ (mt (fileCommandNames_subset ·) hkey)]
    refine lookup_under ?_
    rw [lookup_over_of_notMem hinputs]
    -- what is left are the action's variables with the `PATH` of the steps so far, if any
    split
    · exact lookup_insert_path (lookup_erase_of_ne hvalue hpath) hpath
    · exact lookup_erase_of_ne hvalue hpath
  unfold dockerStageEnv
  dsimp only
  rw [Finmap.lookup_mapValues, Finmap.lookup_insert_of_ne _ hhome]
  split
  · rw [lookup_erase_of_ne hvalues hpath]
    rfl
  · rw [lookup_insert_path (lookup_erase_of_ne hvalues hpath) hpath]
    rfl

end Variables

/-! ### The last writer -/

section LastWriter

variable {setup : JobSetup} {s : EnvState} {key value : Str}

theorem pushStepEnv_lookup {ctx : EnvContext} {overlay : Pairs}
    (hoverlays : ∀ layer ∈ ctx.stepEnvOverlays, key ∉ layer) (hown : key ∉ overlay)
    (hvalue : ctx.env.lookup key = some value) :
    (ctx.pushStepEnv overlay).visibleEnv.lookup key = some value := by
  rw [visibleEnv_lookup]
  · exact hvalue
  · intro layer hlayer
    rcases List.mem_append.mp hlayer with hlayer | hlayer
    · exact hoverlays layer hlayer
    · exact List.mem_singleton.mp hlayer ▸ hown

/-- With a copy that is not behind, a step sees what the job's environment says. -/
theorem sees_env {e : Event} (hfresh : Fresh s e) : SeesLatest setup s s.ctx.env e := by
  intro env henv key value hfree hvalue
  obtain ⟨hkey, hlayers⟩ := not_or.mp hfree
  have hlayer : ∀ layer ∈ s.ctx.stepEnvOverlays ++ ownLayers setup s e, key ∉ layer :=
    fun layer hmem hin => hlayers ⟨layer, hmem, hin⟩
  have hoverlays : ∀ layer ∈ s.ctx.stepEnvOverlays, key ∉ layer :=
    fun layer hmem => hlayer layer (List.mem_append_left _ hmem)
  have hown : ∀ layer ∈ ownLayers setup s e, key ∉ layer :=
    fun layer hmem => hlayer layer (List.mem_append_right _ hmem)
  obtain ⟨ctx, composites⟩ := s
  match e, composites with
  | .enter _ _ _, _ => exact absurd henv (Option.not_mem_none _)
  | .leave _, _ => exact absurd henv (Option.not_mem_none _)
  | .run step, [] =>
    obtain rfl := Option.mem_some.mp henv
    refine scriptStepEnv_lookup hkey (hown _ (by simp [ownLayers])) ?_
    exact pushStepEnv_lookup hoverlays (hown _ (by simp [ownLayers])) hvalue
  | .run step, composite :: outer =>
    obtain rfl := Option.mem_some.mp henv
    have hcurrent : composite.extraEnv ∪ ctx.env = ctx.env := hfresh composite rfl
    have hcopy : (composite.extraEnv ∪ ctx.visibleEnv).lookup key = some value := by
      rw [Finmap.lookup_union, visibleEnv_lookup hoverlays, ← Finmap.lookup_union, hcurrent]
      exact hvalue
    rw [compositeStepEnv_lookup hkey (hown _ (by simp [ownLayers])) (hown _ (by simp [ownLayers]))
      (hown _ (by simp [ownLayers])) hcopy]
    show _ = some (match composite :: outer, setup.container with
      | _ :: _, some container => container.translateEnv key value
      | _, _ => value)
    cases setup.container <;> rfl
  | .stage action, composites =>
    obtain rfl := Option.mem_some.mp henv
    have hvisible : (ctx.pushStepEnv action.env).visibleEnv.lookup key = some value :=
      pushStepEnv_lookup hoverlays (hown _ (by simp [ownLayers])) hvalue
    have hresolved : (buildResolvedActionEnv setup (ctx.pushStepEnv action.env) action).lookup key =
        some value := by
      refine buildResolvedActionEnv_lookup hkey (hown _ (by simp [ownLayers]))
        (hown _ (by simp [ownLayers])) ?_ hvisible
      cases hkind : action.kind with
      | node => exact hown _ (by simp [ownLayers, hkind])
      | docker docker => exact hown _ (by simp [ownLayers, hkind])
    show (match action.kind with
        | .node => nodeStageEnv setup (ctx.pushStepEnv action.env) action
        | .docker docker => dockerStageEnv setup (ctx.pushStepEnv action.env) action
            docker).lookup key =
      some (match action.kind with
        | .docker docker => docker.translateEnv key value
        | .node => value)
    cases hkind : action.kind with
    | node => exact nodeStageEnv_lookup hkey hresolved
    | docker docker =>
      have hnames : key ∉ setAll ∅ [("HOME".toList, []), ("GITHUB_ACTIONS".toList, [])] :=
        hown _ (by simp [ownLayers, hkind])
      refine dockerStageEnv_lookup hkey (hown _ (by simp [ownLayers])) ?_ ?_ hresolved
      · rintro rfl
        exact hnames (by decide)
      · rintro rfl
        exact hnames (by decide)

/-- With copies that are not behind, the job's environment is what was written last. -/
theorem env_eq_lastWritten {env : Pairs} {es : List Event}
    (h : Throughout step Fresh (jobStart env) es) :
    (run step (jobStart env) es).ctx.env = lastWritten env es := by
  have hstep : ∀ past s e, s.ctx.env = lastWritten env past → Fresh s e →
      (step s e).ctx.env = lastWritten env (past ++ [e]) := by
    intro past s e hpast hfresh
    have hlast : lastWritten env (past ++ [e]) = e.envVars ∪ lastWritten env past :=
      List.foldl_concat ..
    rw [hlast, ← hpast]
    obtain ⟨ctx, composites⟩ := s
    match e, composites with
    | .enter _ _ _, _ => exact Finmap.empty_union.symm
    | .stage _, _ => rfl
    | .run step, [] => rfl
    | .run step, composite :: outer =>
      have hcurrent : composite.extraEnv ∪ ctx.env = ctx.env := hfresh composite rfl
      show step.written.envVars ∪ composite.extraEnv ∪ ctx.env = step.written.envVars ∪ ctx.env
      rw [Finmap.union_assoc, hcurrent]
    | .leave _, [] => exact Finmap.empty_union.symm
    | .leave false, composite :: outer => exact Finmap.empty_union.symm
    | .leave true, composite :: outer =>
      have hcurrent : composite.extraEnv ∪ ctx.env = ctx.env := hfresh rfl composite rfl
      exact hcurrent.trans Finmap.empty_union.symm
  exact run_history hstep h rfl

/-- **The last writer wins while no copy is behind.** In every run in which, when a composite's
    `run:` step starts or the composite hands its variables on, the composite's copy says of each of
    its variables what the job's environment says, every later step, inside or outside, sees each
    variable that only the job's environment sets as it was written last. -/
theorem last_writer_wins (setup : JobSetup) (env : Pairs) (es : List Event)
    (h : Throughout step Fresh (jobStart env) es) (before after : List Event) (e : Event)
    (hes : es = before ++ e :: after) :
    SeesLatest setup (run step (jobStart env) before) (lastWritten env before) e := by
  subst hes
  obtain ⟨hbefore, hafter⟩ := (throughout_append step Fresh (jobStart env) before _).mp h
  rw [← env_eq_lastWritten hbefore]
  exact sees_env hafter.1

end LastWriter

/-! ### `PATH` -/

/-- The directories of a running composite's `run:` steps, the outermost composite's first. -/
def pending (composites : List Composite) : List Str :=
  composites.reverse.flatMap Composite.pathAdditions

/-- The same job outside any composite, with all the additions in its own list. -/
def topLevel (ctx : EnvContext) (dirs : List Str) : EnvState :=
  ⟨{ ctx with pathAdditions := dirs }, []⟩

/-- The step's `PATH` is what the top-level runner makes of the same additions, as the job's
    container names it. -/
def SeesAdditions (setup : JobSetup) (s : EnvState) (dirs : List Str) (e : Event) : Prop :=
  ∀ env ∈ seen setup s e, ∀ top ∈ seen setup (topLevel s.ctx dirs) e,
    env.lookup "PATH".toList = (top.lookup "PATH".toList).map fun path =>
      match e with
      | .run _ => named setup s e "PATH".toList path
      | _ => path

/-- Neither the composite's copy nor the step's `env:` takes the place of a `PATH` that has the job's
    additions, and without such additions the copy is not behind. -/
def PathKept (ctx : EnvContext) (composite : Composite) (step : RunStep) : Prop :=
  if ctx.pathAdditions = [] then
    "PATH".toList ∈ step.env ∨ "PATH".toList ∉ composite.extraEnv ∨
      composite.extraEnv.lookup "PATH".toList = ctx.visibleEnv.lookup "PATH".toList
  else "PATH".toList ∉ step.env ∧ "PATH".toList ∉ composite.extraEnv

/-- Nothing is pending that the step would not see, or would not see in its place, and nothing that
    is pending is dropped. -/
def InOrder (s : EnvState) : Event → Prop
  | .enter _ _ _ => True
  | .run step =>
    match s.composites with
    | [] => True
    | composite :: outer => (∀ c ∈ outer, c.pathAdditions = []) ∧
        composite.pathAdditions.reverse = composite.pathAdditions ∧ PathKept s.ctx composite step
  | .stage _ => ∀ c ∈ s.composites, c.pathAdditions = []
  | .leave rendered => rendered = true ∨ ∀ c ∈ s.composites.head?, c.pathAdditions = []

instance (ctx : EnvContext) (composite : Composite) (step : RunStep) :
    Decidable (PathKept ctx composite step) := inferInstanceAs (Decidable (ite _ _ _))

instance : (s : EnvState) → (e : Event) → Decidable (InOrder s e)
  | _, .enter _ _ _ => .isTrue trivial
  | ⟨_, []⟩, .run _ => .isTrue trivial
  | ⟨_, _ :: _⟩, .run _ => inferInstanceAs (Decidable (_ ∧ _ ∧ _))
  | s, .stage _ => inferInstanceAs (Decidable (∀ c ∈ s.composites, c.pathAdditions = []))
  | _, .leave _ => inferInstanceAs (Decidable (_ ∨ _))

section Path

variable {setup : JobSetup} {ctx : EnvContext}

/-- A `PATH` with directories ahead of it, if there are any. -/
def pathValue (dirs : List Str) (inherited : Option Str) : Option Str :=
  if dirs = [] then inherited else some (joinPath dirs (inherited.getD []))

theorem joinPath_ne_nil {dirs : List Str} {existing : Str} (hne : dirs ≠ [])
    (hdirs : ∀ dir ∈ dirs, dir ≠ []) : joinPath dirs existing ≠ [] := by
  obtain ⟨dir, rest, rfl⟩ := List.exists_cons_of_ne_nil hne
  obtain ⟨c, cs, rfl⟩ := List.exists_cons_of_ne_nil (hdirs dir (List.mem_cons_self ..))
  rw [joinPath, List.cons_append, List.intercalate_cons_cons_left]
  exact List.cons_ne_nil _ _

theorem joinPath_joinPath {dirs more : List Str} {existing : Str} (hne : more ≠ [])
    (hmore : ∀ dir ∈ more, dir ≠ []) :
    joinPath dirs (joinPath more existing) = joinPath (dirs ++ more) existing := by
  rw [joinPath, if_neg (joinPath_ne_nil hne hmore), joinPath, joinPath, List.append_assoc]
  exact Lines.intercalate_append_intercalate _ dirs (by simp [hne])

theorem pathValue_pathValue {dirs more : List Str} {inherited : Option Str}
    (hmore : ∀ dir ∈ more, dir ≠ []) :
    pathValue dirs (pathValue more inherited) = pathValue (dirs ++ more) inherited := by
  unfold pathValue
  by_cases hdirs : dirs = []
  · rw [hdirs, if_pos rfl, List.nil_append]
  by_cases hne : more = []
  · rw [hne, if_pos rfl, List.append_nil]
  · rw [if_neg hdirs, if_neg hne, if_neg (by simp [hdirs]), Option.getD_some,
      joinPath_joinPath hne hmore]

theorem inheritedProcessEnv_path (setup : JobSetup) :
    setup.inheritedProcessEnv.lookup "PATH".toList = setup.configPath := by
  rw [JobSetup.inheritedProcessEnv, lookup_over_of_notMem setup.network_path,
    JobSetup.safeProcessEnvVars, Finmap.lookup_retain]
  cases hpath : setup.processVars.lookup "PATH".toList with
  | none => exact hpath.symm
  | some path => exact hpath.symm

theorem service_path (service : NamedEnv "ACTIONS_".toList) : "PATH".toList ∉ service.entries :=
  fun hmem => absurd (service.named _ hmem) (by decide)

theorem inputs_path (inputs : NamedEnv "INPUT_".toList) : "PATH".toList ∉ inputs.entries :=
  fun hmem => absurd (inputs.named _ hmem) (by decide)

/-- The `PATH` that additions go ahead of. -/
def inheritedPath (setup : JobSetup) (ctx : EnvContext) : Option Str :=
  ((baseEnv setup ctx).lookup "PATH".toList).or setup.configPath

theorem baseEnv_path (setup : JobSetup) (ctx : EnvContext) :
    (baseEnv setup ctx).lookup "PATH".toList =
      (ctx.visibleEnv.lookup "PATH".toList).or (setup.container.map JobContainer.imagePath) := by
  unfold baseEnv
  cases setup.container with
  | none => exact (Option.or_none).symm
  | some container =>
    rw [Finmap.lookup_union]
    rfl

theorem buildStepEnv_path (metadata : Metadata) :
    (buildStepEnv setup ctx metadata ∅).lookup "PATH".toList =
      if ctx.pathAdditions = [] then (baseEnv setup ctx).lookup "PATH".toList
      else some (joinPath ctx.pathAdditions.reverse ((inheritedPath setup ctx).getD [])) := by
  rw [buildStepEnv, export_lookup _ _ (by decide), mergeStepEnvWithPaths, Finmap.empty_union]
  split
  · rfl
  · rw [Finmap.lookup_insert]
    rfl

/-- A process gets the runner's `PATH` when the job has no other. -/
theorem inheritHost_path {env : Pairs} (metadata : Metadata)
    (henv : env.lookup "PATH".toList =
      (buildStepEnv setup ctx metadata ∅).lookup "PATH".toList) :
    (setup.inheritHost env setup.inheritedProcessEnv).lookup "PATH".toList =
      pathValue ctx.pathAdditions.reverse (inheritedPath setup ctx) := by
  rw [buildStepEnv_path] at henv
  unfold JobSetup.inheritHost pathValue
  rw [inheritedPath, baseEnv_path] at *
  cases hcontainer : setup.container with
  | none =>
    rw [hcontainer] at henv
    rw [if_pos (by rfl), Finmap.lookup_union, inheritedProcessEnv_path, henv]
    by_cases hnil : ctx.pathAdditions = [] <;> simp [hnil]
  | some container =>
    rw [hcontainer] at henv
    rw [if_neg (by simp), henv]
    by_cases hnil : ctx.pathAdditions = [] <;> simp [hnil]

theorem scriptStepEnv_path (step : RunStep) :
    (scriptStepEnv setup ctx step).lookup "PATH".toList =
      pathValue ctx.pathAdditions.reverse (inheritedPath setup ctx) := by
  refine inheritHost_path step.metadata ?_
  rw [fileCommandEnv_lookup _ _ (by decide), lookup_over_of_notMem (service_path setup.serviceScript)]

theorem prependPathAdditions_path (env : Pairs) (dirs : List Str) :
    (prependPathAdditions env dirs).lookup "PATH".toList =
      pathValue dirs (env.lookup "PATH".toList) := by
  unfold prependPathAdditions pathValue
  split
  · rfl
  · exact Finmap.lookup_insert _

/-- The step's own `env:` may set another `PATH`. -/
theorem pushStepEnv_path (overlay : Pairs) (dirs : List Str) :
    inheritedPath setup (({ ctx with pathAdditions := dirs } : EnvContext).pushStepEnv overlay) =
      (overlay.lookup "PATH".toList).or (inheritedPath setup ctx) := by
  have hvisible : (({ ctx with pathAdditions := dirs } : EnvContext).pushStepEnv overlay).visibleEnv =
      overlay ∪ ctx.visibleEnv := List.foldl_concat ..
  rw [inheritedPath, baseEnv_path, hvisible, Finmap.lookup_union, Option.or_assoc, Option.or_assoc,
    inheritedPath, baseEnv_path, Option.or_assoc]

/-- Before a composite's additions are put ahead, its `PATH` is the job's. -/
theorem pathKept_path {composite : Composite} {step : RunStep}
    (hkept : PathKept ctx composite step) :
    ((step.env.lookup "PATH".toList).or ((composite.extraEnv.lookup "PATH".toList).or
      (pathValue ctx.pathAdditions.reverse (inheritedPath setup ctx)))) =
      pathValue ctx.pathAdditions.reverse
        ((step.env.lookup "PATH".toList).or (inheritedPath setup ctx)) := by
  unfold PathKept at hkept
  split at hkept
  case isTrue hnil =>
    rw [hnil]
    show (step.env.lookup "PATH".toList).or
      ((composite.extraEnv.lookup "PATH".toList).or (inheritedPath setup ctx)) = _
    rcases hkept with hown | hcopy | hcopy
    · obtain ⟨path, hpath⟩ := Finmap.mem_iff.mp hown
      rw [hpath]
      rfl
    · rw [Finmap.lookup_eq_none.mpr hcopy]
      rfl
    · rw [hcopy, inheritedPath, baseEnv_path]
      cases ctx.visibleEnv.lookup "PATH".toList <;> rfl
  case isFalse =>
    rw [Finmap.lookup_eq_none.mpr hkept.1, Finmap.lookup_eq_none.mpr hkept.2]
    rfl

theorem compositeStepEnv_path {composite : Composite} {step : RunStep}
    (hadded : ∀ dir ∈ ctx.pathAdditions, dir ≠ []) (hkept : PathKept ctx composite step) :
    (compositeStepEnv setup ctx composite step).lookup "PATH".toList =
      (pathValue (composite.pathAdditions ++ ctx.pathAdditions.reverse)
        ((step.env.lookup "PATH".toList).or (inheritedPath setup ctx))).map fun path =>
          match setup.container with
          | none => path
          | some container => container.translateEnv "PATH".toList path := by
  have hhost : (setup.inheritHost (buildStepEnv setup ctx step.metadata ∅)
      setup.inheritedProcessEnv).lookup "PATH".toList = _ := inheritHost_path _ rfl
  have hpaths : "PATH".toList ∉ ["GITHUB_WORKSPACE".toList, "RUNNER_TEMP".toList] := by decide
  unfold compositeStepEnv
  rw [mergeFileCommandEnv_lookup _ _ (by decide), lookup_translateContainerEnv,
    export_lookup _ _ (by decide), lookup_setAll_of_notMem hpaths, prependPathAdditions_path,
    lookup_over_of_notMem (service_path setup.serviceScript), Finmap.lookup_union,
    Finmap.lookup_insert_of_ne _ (by decide), lookup_over_of_notMem (inputs_path _),
    Finmap.lookup_union, hhost, pathKept_path hkept, pathValue_pathValue]
  exact fun dir hdir => hadded dir (List.mem_reverse.mp hdir)

end Path

/-! ### The order of `PATH` -/

section Order

variable {setup : JobSetup} {s : EnvState}

theorem pending_cons (composite : Composite) (outer : List Composite) :
    pending (composite :: outer) = pending outer ++ composite.pathAdditions := by
  rw [pending, List.reverse_cons, List.flatMap_append, List.flatMap_singleton, pending]

theorem pending_eq_nil {composites : List Composite}
    (h : ∀ composite ∈ composites, composite.pathAdditions = []) : pending composites = [] :=
  List.flatMap_eq_nil_iff.mpr fun composite hmem => h composite (List.mem_reverse.mp hmem)

theorem additions_append (es : List Event) (e : Event) :
    additions (es ++ [e]) = additions es ++ e.pathAdditions := by
  rw [additions, List.flatMap_append, List.flatMap_singleton, additions]

/-- A file of directories has no empty ones. -/
theorem additions_ne_nil {es : List Event} : ∀ dir ∈ additions es, dir ≠ [] := by
  intro dir hdir
  obtain ⟨e, -, he⟩ := List.mem_flatMap.mp hdir
  have hfile : ∀ written : Written, dir ∈ written.pathAdditions → dir ≠ [] := by
    intro written hmem
    unfold Written.pathAdditions at hmem
    cases hread : written.path with
    | error message =>
      rw [hread] at hmem
      cases hmem
    | ok content =>
      rw [hread] at hmem
      exact of_decide_eq_true (List.mem_filter.mp hmem).2
  cases e with
  | run step => exact hfile step.written he
  | stage action => exact hfile action.written he
  | enter env inputs dir => cases he
  | leave rendered => cases he

/-- The job's list and what is pending make up the additions so far, in order, and of two running
    composites one at most has something pending. -/
structure Accounted (dirs : List Str) (s : EnvState) : Prop where
  eq : dirs = s.ctx.pathAdditions ++ pending s.composites
  apart : s.composites.Pairwise fun inner outer => inner.pathAdditions = [] ∨ outer.pathAdditions = []

theorem accounted_step {dirs : List Str} {e : Event} (hacc : Accounted dirs s)
    (horder : InOrder s e) : Accounted (dirs ++ e.pathAdditions) (step s e) := by
  obtain ⟨ctx, composites⟩ := s
  obtain ⟨rfl, hapart⟩ := hacc
  match e, composites with
  | .enter env inputs dir, composites =>
    refine ⟨?_, List.pairwise_cons.mpr ⟨fun _ _ => .inl rfl, hapart⟩⟩
    show (ctx.pathAdditions ++ pending composites) ++ [] = ctx.pathAdditions ++ pending (_ :: _)
    rw [pending_cons, List.append_nil, List.append_nil]
  | .run step, [] =>
    refine ⟨?_, .nil⟩
    show (ctx.pathAdditions ++ []) ++ step.written.pathAdditions =
      (ctx.pathAdditions ++ step.written.pathAdditions) ++ []
    rw [List.append_nil, List.append_nil]
  | .run step, composite :: outer =>
    obtain ⟨houter, -, -⟩ := horder
    refine ⟨?_, List.pairwise_cons.mpr
      ⟨fun other hmem => .inr (houter other hmem), (List.pairwise_cons.mp hapart).2⟩⟩
    show (ctx.pathAdditions ++ pending (composite :: outer)) ++ step.written.pathAdditions =
      ctx.pathAdditions ++ pending (_ :: outer)
    rw [pending_cons, pending_cons, List.append_assoc, List.append_assoc]
  | .stage action, composites =>
    refine ⟨?_, hapart⟩
    show (ctx.pathAdditions ++ pending composites) ++ action.written.pathAdditions =
      (ctx.pathAdditions ++ action.written.pathAdditions) ++ pending composites
    rw [pending_eq_nil horder, List.append_nil, List.append_nil]
  | .leave rendered, [] => exact ⟨List.append_nil _, .nil⟩
  | .leave rendered, composite :: outer =>
    obtain ⟨hhead, htail⟩ := List.pairwise_cons.mp hapart
    refine ⟨?_, htail⟩
    show (ctx.pathAdditions ++ pending (composite :: outer)) ++ [] =
      (propagate ctx composite rendered).pathAdditions ++ pending outer
    rw [pending_cons, List.append_nil]
    by_cases hnil : composite.pathAdditions = []
    · cases rendered with
      | false => rw [hnil, List.append_nil]; rfl
      | true => show _ = (ctx.pathAdditions ++ composite.pathAdditions) ++ _; simp [hnil]
    · -- the composites outside have nothing pending, so that this one's additions are the latest
      have houter := pending_eq_nil fun other hmem => (hhead other hmem).resolve_left hnil
      have hrendered : rendered = true := horder.resolve_right fun h => hnil (h composite rfl)
      subst hrendered
      rw [houter]
      show _ = (ctx.pathAdditions ++ composite.pathAdditions) ++ []
      simp

theorem accounted_run {env : Pairs} {es : List Event}
    (h : Throughout step InOrder (jobStart env) es) :
    Accounted (additions es) (run step (jobStart env) es) := by
  have hstep : ∀ past s e, Accounted (additions past) s → InOrder s e →
      Accounted (additions (past ++ [e])) (step s e) := by
    intro past s e hacc horder
    rw [additions_append]
    exact accounted_step hacc horder
  exact run_history hstep h ⟨rfl, .nil⟩

/-- Where nothing is pending out of place, a step's `PATH` is the top-level runner's. -/
theorem sees_additions {dirs : List Str} {e : Event} (hdirs : ∀ dir ∈ dirs, dir ≠ [])
    (hacc : Accounted dirs s) (horder : InOrder s e) : SeesAdditions setup s dirs e := by
  obtain ⟨ctx, composites⟩ := s
  obtain ⟨rfl, -⟩ := hacc
  intro env henv top htop
  match e, composites with
  | .enter _ _ _, _ => exact absurd henv (Option.not_mem_none _)
  | .leave _, _ => exact absurd henv (Option.not_mem_none _)
  | .run step, [] =>
    obtain rfl := Option.mem_some.mp henv
    obtain rfl := Option.mem_some.mp htop
    show _ = Option.map (fun path => path) _
    rw [Option.map_id', pending_eq_nil (by simp), List.append_nil]
    rfl
  | .run step, composite :: outer =>
    obtain rfl := Option.mem_some.mp henv
    obtain rfl := Option.mem_some.mp htop
    obtain ⟨houter, hsymm, hkept⟩ := horder
    have hadded : ∀ dir ∈ ctx.pathAdditions, dir ≠ [] :=
      fun dir hdir => hdirs dir (List.mem_append_left _ hdir)
    rw [compositeStepEnv_path hadded hkept, scriptStepEnv_path, pushStepEnv_path, pending_cons,
      pending_eq_nil houter, List.nil_append]
    show _ = (pathValue (ctx.pathAdditions ++ composite.pathAdditions).reverse _).map _
    rw [List.reverse_append, hsymm]
    congr 1
    funext path
    show _ = match composite :: outer, setup.container with
      | _ :: _, some container => container.translateEnv "PATH".toList path
      | _, _ => path
    cases setup.container <;> rfl
  | .stage action, composites =>
    obtain rfl := Option.mem_some.mp henv
    obtain rfl := Option.mem_some.mp htop
    show _ = Option.map (fun path => path) _
    rw [Option.map_id', pending_eq_nil horder, List.append_nil]
    rfl

/-- **`PATH` is ordered while nothing is pending out of place.** In every run whose steps are all in
    order, each later step, inside composites or outside, sees the `PATH` that the top-level runner
    makes of all the additions before it: the latest first, ahead of the inherited one. -/
theorem path_additions_in_order (setup : JobSetup) (env : Pairs) (es : List Event)
    (h : Throughout step InOrder (jobStart env) es) (before after : List Event) (e : Event)
    (hes : es = before ++ e :: after) :
    SeesAdditions setup (run step (jobStart env) before) (additions before) e := by
  subst hes
  obtain ⟨hbefore, hafter⟩ := (throughout_append step InOrder (jobStart env) before _).mp h
  exact sees_additions additions_ne_nil (accounted_run hbefore) hafter.1

end Order

/-! ### A host job -/

/-- A job without a container, whose runner has a `PATH` and nothing else. -/
def hostJob : JobSetup where
  processVars := setAll ∅ [("PATH".toList, "/usr/bin".toList)]
  networkEnv := ∅
  network_path := Finmap.notMem_empty
  container := none
  serviceScript := ∅
  serviceNode := ∅
  serviceContainer := ∅
  workspace := "/work".toList
  runnerTemp := "/temp".toList
  runnerToolCache := "/tool".toList

def noMetadata : Metadata := ⟨[], [], []⟩

def noFiles : FileCommandPaths := ⟨[], [], [], [], []⟩

/-- A `run:` step that writes these files. -/
def writes (env path : String) : Event :=
  .run ⟨∅, noMetadata, noFiles, ⟨.ok env.toList, .ok path.toList⟩⟩

/-- A node action that writes these files. -/
def nodeWrites (env path : String) : Event :=
  .stage ⟨.node, ∅, ∅, ∅, "/action".toList, noMetadata, noFiles, ⟨.ok env.toList, .ok path.toList⟩⟩

def entered : Event := .enter ∅ ∅ "/composite".toList

/-- A composite's `run:` step and a nested action write different variables, and a later top-level
    step sees both. -/
theorem last_writer_wins_distinct :
    SeesLatest hostJob
      (run step (jobStart ∅) [entered, writes "K=1\n" "", nodeWrites "J=2\n" "", .leave true])
      (lastWritten ∅ [entered, writes "K=1\n" "", nodeWrites "J=2\n" "", .leave true])
      (writes "" "") :=
  last_writer_wins hostJob ∅
    [entered, writes "K=1\n" "", nodeWrites "J=2\n" "", .leave true, writes "" ""]
    (by decide +kernel) _ [] _ rfl

/-- A nested action overwrites what a `run:` step of the composite wrote: the composite's next `run:`
    step still sees the old value. -/
theorem stale_copy_shadows :
    ¬ ∀ (setup : JobSetup) (env : Pairs) (before : List Event) (e : Event),
      SeesLatest setup (run step (jobStart env) before) (lastWritten env before) e := by
  intro h
  have hsees := h hostJob ∅ [entered, writes "K=1\n" "", nodeWrites "K=2\n" ""] (writes "" "")
    _ rfl "K".toList "2".toList (by decide +kernel) (by decide +kernel)
  exact absurd hsees (by decide)

/-- A nested action adds a directory, a composite's `run:` step another, and the composite's next
    `run:` step sees both. -/
theorem path_additions_in_order_two :
    SeesAdditions hostJob
      (run step (jobStart ∅) [nodeWrites "" "/a\n", entered, writes "" "/b\n"])
      (additions [nodeWrites "" "/a\n", entered, writes "" "/b\n"]) (writes "" "") :=
  path_additions_in_order hostJob ∅
    [nodeWrites "" "/a\n", entered, writes "" "/b\n", writes "" ""]
    (by decide) _ [] _ rfl

/-- Two `run:` steps of a composite each add a directory: the next one has the earlier addition
    first. -/
theorem additions_earliest_first :
    ¬ ∀ (setup : JobSetup) (env : Pairs) (before : List Event) (e : Event),
      SeesAdditions setup (run step (jobStart env) before) (additions before) e := by
  intro h
  have hsees := h hostJob ∅ [entered, writes "" "/a\n", writes "" "/b\n"] (writes "" "") _ rfl _ rfl
  exact absurd hsees (by decide)

end GhRunner.Execution.CompositeEnv
