import GhRunner.Lib.Machine
import GhRunner.Execution.FileCommands

namespace GhRunner.Execution.CompositeEnv

open Text

/-!
# The environment of a job's steps, inside composite actions and outside

`crates/execution/src/execution/composite_env.rs`, `composite_exec.rs`, `context_env.rs`,
`context_scopes.rs`, `action_metadata.rs`, `action_support.rs`, `node_stage.rs`, `docker_stage.rs`,
`step_env.rs`, `action_exec.rs`, `steps_runner/script_support.rs` and
`crates/execution/src/docker/action_container.rs`.

* `JobSetup` — what no step of the job changes;
* `EnvContext`, `Composite` — the job's own environment and a running composite's copy;
* `buildStepEnv` — the job's environment as a step sees it;
* `scriptStepEnv`, `compositeStepEnv`, `actionStageEnv` — what a top-level `run:` step, a composite's
  `run:` step and a stage of an action are given;
* `Event`, `step`, `seen` — the steps of a job in the order in which they run.

A step's `env:` and inputs are taken as rendered and its command files as read.
-/

/-! ### Layers -/

/-- Variables whose names all begin alike. -/
structure NamedEnv (pre : Str) where
  entries : Pairs
  named : ∀ key ∈ entries, pre <+: key

instance (pre : Str) : EmptyCollection (NamedEnv pre) :=
  ⟨∅, fun _ hkey => absurd hkey Finmap.notMem_empty⟩

/-- One variable after the other. -/
def setAll (env : Pairs) (entries : List (Str × Str)) : Pairs :=
  entries.foldl (fun env entry => env.insert entry.1 entry.2) env

/-- `PATH` with directories ahead of it. -/
def joinPath (dirs : List Str) (existing : Str) : Str :=
  [':'].intercalate (dirs ++ if existing = [] then [] else [existing])

/-! ### The job -/

/-- How a job container names the host's paths. -/
structure JobContainer where
  imagePath : Str
  translateValue : Str → Str
  translateRunnerWorkspace : Str → Str
  toContainer : Str → Str

/-- The variables that hold one path of the runner. -/
def runnerPathNames : List Str :=
  ["GITHUB_WORKSPACE", "GITHUB_ACTION_PATH", "GITHUB_EVENT_PATH", "GITHUB_ENV", "GITHUB_OUTPUT",
    "GITHUB_PATH", "GITHUB_STATE", "GITHUB_STEP_SUMMARY", "RUNNER_TEMP", "RUNNER_TOOL_CACHE"].map
    String.toList

def JobContainer.translateEnv (container : JobContainer) (key value : Str) : Str :=
  if key = "PATH".toList then container.translateValue value
  else if key = "RUNNER_WORKSPACE".toList then container.translateRunnerWorkspace value
  else if key ∈ runnerPathNames then container.toContainer value
  else value

structure JobSetup where
  /-- The runner's own environment. -/
  processVars : Pairs
  networkEnv : Pairs
  network_path : "PATH".toList ∉ networkEnv
  container : Option JobContainer
  serviceScript : NamedEnv "ACTIONS_".toList
  serviceNode : NamedEnv "ACTIONS_".toList
  serviceContainer : NamedEnv "ACTIONS_".toList
  workspace : Str
  runnerTemp : Str
  runnerToolCache : Str

namespace JobSetup

variable (setup : JobSetup)

def configPath : Option Str := setup.processVars.lookup "PATH".toList

def isRunnerPrivateEnvKey (key : Str) : Bool := asciiLower (key.take 13) = "toolu_runner_".toList

/-- The runner's environment without what is its own. -/
def safeProcessEnvVars : Pairs :=
  setup.processVars.retain fun key _ =>
    !isRunnerPrivateEnvKey key && key != "RUNNER_TRACKING_ID".toList

/-- The network export over the runner's environment. -/
def inheritedProcessEnv : Pairs := setup.networkEnv ∪ setup.safeProcessEnvVars

/-- Values as the job's container names them. -/
def translateContainerEnv (env : Pairs) : Pairs :=
  match setup.container with
  | none => env
  | some container => env.mapValues container.translateEnv

/-- Host steps inherit the runner's environment below everything else. -/
def inheritHost (env inherited : Pairs) : Pairs :=
  if setup.container.isNone then env ∪ inherited else env

end JobSetup

/-- Which action the `github` context names while a step runs. -/
structure Metadata where
  action : Str
  actionRepository : Str
  actionRef : Str

/-- Exported after user overlays so that stale values cannot reach a child. -/
def Metadata.export (metadata : Metadata) (env : Pairs) : Pairs :=
  setAll env
    [("GITHUB_ACTION".toList, metadata.action),
      ("GITHUB_ACTION_REPOSITORY".toList, metadata.actionRepository),
      ("GITHUB_ACTION_REF".toList, metadata.actionRef),
      ("RUNNER_ENVIRONMENT".toList, "self-hosted".toList)]

/-- Where a step finds its command files. -/
structure FileCommandPaths where
  summary : Str
  output : Str
  env : Str
  path : Str
  state : Str

/-- What a step wrote to the files of variables and of directories. -/
structure Written where
  env : Except Str Str
  path : Except Str Str

/-- The variables a step set, without those the runner refuses. -/
def Written.envVars (written : Written) : Pairs :=
  (stripBlockedEnv (parseKvCommand "env".toList written.env).1).1

def Written.pathAdditions (written : Written) : List Str := (parsePathCommand written.path).1

/-! ### The job's own environment -/

structure EnvContext where
  env : Pairs
  stepEnvOverlays : List Pairs
  pathAdditions : List Str

namespace EnvContext

/-- Persistent job env with the active step overlays applied. -/
def visibleEnv (ctx : EnvContext) : Pairs :=
  ctx.stepEnvOverlays.foldl (fun env overlay => overlay ∪ env) ctx.env

def pushStepEnv (ctx : EnvContext) (env : Pairs) : EnvContext :=
  { ctx with stepEnvOverlays := ctx.stepEnvOverlays ++ [env] }

def popStepEnv (ctx : EnvContext) : EnvContext :=
  { ctx with stepEnvOverlays := ctx.stepEnvOverlays.dropLast }

/-- `set_env` for each of the entries. -/
def setEnvs (ctx : EnvContext) (entries : Pairs) : EnvContext :=
  { ctx with env := entries ∪ ctx.env }

/-- `prepend_path` for each of the directories; the latest is kept last. -/
def prependPaths (ctx : EnvContext) (dirs : List Str) : EnvContext :=
  { ctx with pathAdditions := ctx.pathAdditions ++ dirs }

end EnvContext

def mergeStepEnvWithPaths (setup : JobSetup) (result stepEnv : Pairs) (pathAdditions : List Str) :
    Pairs :=
  let result := stepEnv ∪ result
  if pathAdditions = [] then result
  else result.insert "PATH".toList
    (joinPath pathAdditions.reverse (((result.lookup "PATH".toList).or setup.configPath).getD []))

/-- Container jobs use `PATH` and `HOME` from their image. -/
def baseEnv (setup : JobSetup) (ctx : EnvContext) : Pairs :=
  match setup.container with
  | none => ctx.visibleEnv
  | some container => ctx.visibleEnv ∪ setAll ∅
      [("PATH".toList, container.imagePath), ("HOME".toList, "/github/home".toList)]

/-- Merge global env, step env and the additions to `PATH`. -/
def buildStepEnv (setup : JobSetup) (ctx : EnvContext) (metadata : Metadata) (stepEnv : Pairs) :
    Pairs :=
  metadata.export (mergeStepEnvWithPaths setup (baseEnv setup ctx) stepEnv ctx.pathAdditions)

/-! ### `run:` steps -/

/-- A `run:` step, its `env:` as rendered. -/
structure RunStep where
  env : Pairs
  metadata : Metadata
  files : FileCommandPaths
  written : Written

/-- The command files every step is told of. -/
def FileCommandPaths.entries (files : FileCommandPaths) : List (Str × Str) :=
  [("GITHUB_STEP_SUMMARY".toList, files.summary), ("GITHUB_OUTPUT".toList, files.output),
    ("GITHUB_ENV".toList, files.env), ("GITHUB_PATH".toList, files.path)]

/-- A composite's step has no file for its state. -/
def mergeFileCommandEnv (env : Pairs) (files : FileCommandPaths) : Pairs := setAll env files.entries

def fileCommandEnv (env : Pairs) (files : FileCommandPaths) : Pairs :=
  setAll env (("GITHUB_STATE".toList, files.state) :: files.entries)

/-- The environment of a top-level `run:` step, its `env:` among the overlays. -/
def scriptStepEnv (setup : JobSetup) (ctx : EnvContext) (step : RunStep) : Pairs :=
  let env := buildStepEnv setup ctx step.metadata ∅
  let env := setup.serviceScript.entries ∪ env
  let env := fileCommandEnv env step.files
  setup.inheritHost env setup.inheritedProcessEnv

/-- A running composite action: its parameters, and what its `run:` steps wrote so far. -/
structure Composite where
  stepInputs : NamedEnv "INPUT_".toList
  actionDir : Str
  extraEnv : Pairs
  pathAdditions : List Str

/-- Prepend composite `GITHUB_PATH` additions ahead of the inherited `PATH`. -/
def prependPathAdditions (env : Pairs) (pathAdditions : List Str) : Pairs :=
  if pathAdditions = [] then env
  else env.insert "PATH".toList (joinPath pathAdditions ((env.lookup "PATH".toList).getD []))

/-- The environment of a composite `run:` step. -/
def compositeStepEnv (setup : JobSetup) (ctx : EnvContext) (composite : Composite)
    (step : RunStep) : Pairs :=
  let env := buildStepEnv setup ctx step.metadata ∅
  let env := setup.inheritHost env setup.inheritedProcessEnv
  let env := composite.extraEnv ∪ env
  let env := composite.stepInputs.entries ∪ env
  let env := env.insert "GITHUB_ACTION_PATH".toList composite.actionDir
  let env := step.env ∪ env
  let env := setup.serviceScript.entries ∪ env
  let env := prependPathAdditions env composite.pathAdditions
  let env := setAll env
    [("GITHUB_WORKSPACE".toList, setup.workspace), ("RUNNER_TEMP".toList, setup.runnerTemp)]
  let env := step.metadata.export env
  mergeFileCommandEnv (setup.translateContainerEnv env) step.files

/-! ### Stages of actions -/

/-- What a container action's image and manifest add, and how the container names the host's
    paths. -/
structure DockerAction where
  imagePath : Option Str
  manifestEnv : Pairs
  networkEnv : Pairs
  ci : Str
  toContainer : Str → Str
  translateEnv : Str → Str → Str

inductive ActionKind
  | node
  | docker (action : DockerAction)

/-- One stage of a node or a container action, the `env:` of its step as rendered. -/
structure ActionStage where
  kind : ActionKind
  env : Pairs
  inputs : NamedEnv "INPUT_".toList
  state : NamedEnv "STATE_".toList
  actionDir : Str
  metadata : Metadata
  files : FileCommandPaths
  written : Written

def buildActionEnv (stage : ActionStage) : Pairs :=
  stage.state.entries ∪ stage.inputs.entries ∪
    setAll ∅ [("GITHUB_ACTION_PATH".toList, stage.actionDir)]

def buildResolvedActionEnv (setup : JobSetup) (ctx : EnvContext) (stage : ActionStage) : Pairs :=
  let env := buildStepEnv setup ctx stage.metadata ∅
  let service :=
    match stage.kind with
    | .node => setup.serviceNode
    | .docker _ => setup.serviceContainer
  let env := buildActionEnv stage ∪ (service.entries ∪ env)
  setAll env
    [("GITHUB_WORKSPACE".toList, setup.workspace), ("RUNNER_TEMP".toList, setup.runnerTemp),
      ("RUNNER_TOOL_CACHE".toList, setup.runnerToolCache)]

/-- Node inherits the runner's environment under this one, so that only the network export is laid
    below it here. -/
def nodeStageEnv (setup : JobSetup) (ctx : EnvContext) (stage : ActionStage) : Pairs :=
  fileCommandEnv
    (setup.inheritHost (buildResolvedActionEnv setup ctx stage) setup.networkEnv) stage.files

/-- A container action's environment, up to its `PATH`. -/
def dockerStageValues (setup : JobSetup) (ctx : EnvContext) (stage : ActionStage)
    (docker : DockerAction) : Pairs :=
  let env := (buildResolvedActionEnv setup ctx stage).erase "PATH".toList
  let env :=
    match ctx.visibleEnv.lookup "PATH".toList with
    | some path => env.insert "PATH".toList path
    | none => env
  let env := stage.inputs.entries ∪ env
  let env := fileCommandEnv (env ∪ docker.manifestEnv) stage.files
  (env ∪ docker.networkEnv).insert "GITHUB_ACTIONS".toList "true".toList ∪
    setAll ∅ [("CI".toList, docker.ci)]

/-- The directories of a container action's `PATH`, as the container names them. -/
def dockerPath (ctx : EnvContext) (docker : DockerAction) (env : Pairs) : List Str :=
  let base := ((env.lookup "PATH".toList).or docker.imagePath).getD []
  ctx.pathAdditions.reverse.map docker.toContainer ++
    if base = [] then [] else [docker.translateEnv "PATH".toList base]

def dockerStageEnv (setup : JobSetup) (ctx : EnvContext) (stage : ActionStage)
    (docker : DockerAction) : Pairs :=
  let env := dockerStageValues setup ctx stage docker
  let path := dockerPath ctx docker env
  let env := env.erase "PATH".toList
  let env := if path = [] then env else env.insert "PATH".toList ([':'].intercalate path)
  (env.insert "HOME".toList "/github/home".toList).mapValues docker.translateEnv

def actionStageEnv (setup : JobSetup) (ctx : EnvContext) (stage : ActionStage) : Pairs :=
  match stage.kind with
  | .node => nodeStageEnv setup ctx stage
  | .docker docker => dockerStageEnv setup ctx stage docker

/-! ### The steps of a job -/

/-- The job's environment and the composite actions that are running, the innermost first. -/
structure EnvState where
  ctx : EnvContext
  composites : List Composite

/-- One step after the other: a composite action is entered, with the rendered `env:` of its `uses:`
    step, and left, with its outputs rendered or not. -/
inductive Event
  | enter (env : Pairs) (stepInputs : NamedEnv "INPUT_".toList) (actionDir : Str)
  | run (step : RunStep)
  | stage (stage : ActionStage)
  | leave (rendered : Bool)

/-- What a composite's `run:` step leaves behind: its writes join the composite's own, and the job's
    environment is given all of those. -/
def finishRunStep (ctx : EnvContext) (composite : Composite) (written : Written) :
    EnvContext × Composite :=
  let extraEnv := written.envVars ∪ composite.extraEnv
  (ctx.setEnvs extraEnv,
    { composite with
      extraEnv := extraEnv
      pathAdditions := composite.pathAdditions ++ written.pathAdditions })

/-- What a top-level step or a stage of an action leaves behind. -/
def applyFileCommands (ctx : EnvContext) (written : Written) : EnvContext :=
  (ctx.setEnvs written.envVars).prependPaths written.pathAdditions

/-- What a composite that ends hands on; nothing when its outputs could not be rendered. -/
def propagate (ctx : EnvContext) (composite : Composite) (rendered : Bool) : EnvContext :=
  if rendered then (ctx.setEnvs composite.extraEnv).prependPaths composite.pathAdditions else ctx

def step (s : EnvState) : Event → EnvState
  | .enter env stepInputs actionDir =>
    ⟨s.ctx.pushStepEnv env, ⟨stepInputs, actionDir, ∅, []⟩ :: s.composites⟩
  | .run step =>
    match s.composites with
    | [] => { s with ctx := applyFileCommands s.ctx step.written }
    | composite :: outer =>
      let (ctx, composite) := finishRunStep s.ctx composite step.written
      ⟨ctx, composite :: outer⟩
  | .stage stage => { s with ctx := applyFileCommands s.ctx stage.written }
  | .leave rendered =>
    match s.composites with
    | [] => s
    | composite :: outer => ⟨(propagate s.ctx composite rendered).popStepEnv, outer⟩

/-- A job before its first step. -/
def jobStart (env : Pairs) : EnvState := ⟨⟨env, [], []⟩, []⟩

/-- The environment an event's process is given; the overlay of a top-level step or of an action is
    there only while it is built. -/
def seen (setup : JobSetup) (s : EnvState) : Event → Option Pairs
  | .enter _ _ _ => none
  | .run step =>
    match s.composites with
    | [] => some (scriptStepEnv setup (s.ctx.pushStepEnv step.env) step)
    | composite :: _ => some (compositeStepEnv setup s.ctx composite step)
  | .stage stage => some (actionStageEnv setup (s.ctx.pushStepEnv stage.env) stage)
  | .leave _ => none

/-! ### What was written -/

/-- What an event's process wrote. -/
def Event.written : Event → Option Written
  | .run step => some step.written
  | .stage action => some action.written
  | _ => none

def Event.envVars (e : Event) : Pairs := (e.written.map Written.envVars).getD ∅

def Event.pathAdditions (e : Event) : List Str := (e.written.map Written.pathAdditions).getD []

/-- Each variable as it was written last. -/
def lastWritten (env : Pairs) (es : List Event) : Pairs :=
  es.foldl (fun env e => e.envVars ∪ env) env

/-- The directories added, in order. -/
def additions (es : List Event) : List Str := es.flatMap Event.pathAdditions

end GhRunner.Execution.CompositeEnv
