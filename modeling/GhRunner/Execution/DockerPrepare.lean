import Mathlib.Data.Multiset.DershowitzManna
import GhRunner.Lib.Descent
import GhRunner.Lib.Paths
import GhRunner.Execution.CompositeDepth
import GhRunner.Execution.NestedUses

namespace GhRunner.Execution.DockerPrepare

open Text Paths GhRunner.Expressions
open Depth (maxCompositeDepth)

/-!
# Images prepared before the steps

`crates/execution/src/execution/docker_prepare.rs` and `docker_action.rs`, and what both ask of
`crates/execution/src/docker/action_image.rs`.

* `DockerHost`, `prepareImage` — one call, at the engine as it meets it;
* `imageKey` — under which an image is recorded;
* `ImagePlan`, `discover` — the images met on the way through the manifests;
* `prepare`, `stepImage` — what is recorded, and what a step makes of it;
* `Sound`, `sound_discover`, `mem_prepare` — each build of the plan is one that its directory asks
  for, and each record stands for a task of the plan;
* `prepared_transparent` — so a record is the image the step asks for, up to the case of a registry
  reference.

The fetcher, the manifests on disk and the engine are arguments.  Another fetcher serves the steps.
-/

inductive RunnerError
  | stepExecution (message : Str)
  | actionManifest (message : Str)
  | actionResolution (message : Str)
  | docker (message : Str)
  | cancelled
  | other (message : Str)
deriving DecidableEq, Repr

/-! ### One image -/

/-- How a request to the engine ends that has no answer. -/
inductive Fault
  | cancelled
  | message (text : Str)
deriving DecidableEq, Repr

/-- The engine, and the files, as one call meets them. -/
structure DockerHost where
  /-- At the start, and before the build. -/
  isCancelled : Bool × Bool
  mask : Str → Str
  isFile : Str → Bool
  newUuid : Str
  version : Except Fault (Option Str × Option Str)
  imageExists : Str → Except Fault Bool
  createImage : Str → Except Fault Unit
  archiveContext : List Component → Str → Except RunnerError Unit
  buildImage : Str → Str → Except Fault Unit
  inspectImage : Str → Except Fault Unit

namespace DockerHost

/-- The daemon's errors are masked before they go into a message. -/
def call {α : Type} (host : DockerHost) (operation : String) : Except Fault α → Except RunnerError α
  | .ok a => .ok a
  | .error .cancelled => .error .cancelled
  | .error (.message text) => .error (.docker (operation.toList ++ ": ".toList ++ host.mask text))

end DockerHost

/-- What is left of a reference after the scheme. -/
def registryOf (image : Str) : Option Str :=
  if "docker://".toList <+: image then some (image.drop "docker://".toList.length) else none

def checkCancel (cancelled : Bool) : Except RunnerError Unit :=
  if cancelled then .error .cancelled else .ok ()

def pullImage (host : DockerHost) (image : Str) : Except RunnerError Str :=
  if trim image = [] then .error (.docker "Docker action registry image is empty".toList)
  else do
    host.call "pull Docker action image" (host.createImage image)
    host.call "inspect pulled Docker action image" (host.inspectImage image)
    return image

/-- A name, or the dot at the front. -/
def plainComponent : Component → Bool
  | .normal _ | .curDir => true
  | _ => false

/-- The directory of the Dockerfile, and its name there. -/
def resolveDockerfile (host : DockerHost) (dockerfile actionDir : Str) :
    Except RunnerError (List Component × Str) :=
  if dockerfile = [] ∨ isAbsolute dockerfile ∨ (components dockerfile).all plainComponent = false then
    .error (.docker ("Docker action Dockerfile path is invalid: ".toList ++ dockerfile))
  else
    let full := join actionDir dockerfile
    if host.isFile full = false then
      .error (.docker ("Docker action Dockerfile does not exist: ".toList ++ full))
    else
      match (components full).getLast? with
      | some (.normal name) => .ok ((components full).dropLast, name)
      | none | some .rootDir =>
        .error (.docker ("Docker action Dockerfile has no parent: ".toList ++ full))
      | some _ => .error (.docker "Dockerfile name is not valid Unicode".toList)

variable (blake3 : Str → Str)

/-- The tag of an image that is kept: what it is built from, and for which platform. -/
def keptTag (cacheKey dockerfile : Str) (platform : Option Str × Option Str) : Str :=
  "toolu-action:".toList ++ blake3 (cacheKey ++ '\n' :: dockerfile ++ '\n' ::
    platform.1.getD "unknown".toList ++ '/' :: platform.2.getD "unknown".toList)

def buildTag (host : DockerHost) (cacheKey : Option Str) (dockerfile : Str) :
    Except RunnerError Str :=
  match cacheKey with
  | none => .ok ("toolu-action:local-".toList ++ host.newUuid)
  | some key => do
    let version ← host.call "inspect Docker action platform" host.version
    return keptTag blake3 key dockerfile version

/-- An image that is kept is built once. -/
def alreadyBuilt (host : DockerHost) (cacheKey : Option Str) (tag : Str) : Except RunnerError Bool :=
  match cacheKey with
  | none => .ok false
  | some _ => host.call "inspect cached Docker action image" (host.imageExists tag)

def buildImage (host : DockerHost) (dockerfile actionDir : Str) (cacheKey : Option Str) :
    Except RunnerError Str := do
  let (contextDir, name) ← resolveDockerfile host dockerfile actionDir
  let tag ← buildTag blake3 host cacheKey dockerfile
  if ← alreadyBuilt host cacheKey tag then return tag
  host.archiveContext contextDir name
  checkCancel host.isCancelled.2
  host.call "build Docker action image" (host.buildImage name tag)
  host.call "inspect built Docker action image" (host.inspectImage tag)
  return tag

def prepareImage (host : DockerHost) (image actionDir : Str) (cacheKey : Option Str) :
    Except RunnerError Str := do
  checkCancel host.isCancelled.1
  match registryOf image with
  | some registry => pullImage host registry
  | none => buildImage blake3 host image actionDir cacheKey

/-! ### The plan -/

def pullKey (registry : Str) : Str := "pull:".toList ++ asciiLower registry

def buildKey (cacheKey : Str) : Str := "build:".toList ++ cacheKey

def imageKey (image : Str) (cacheKey : Option Str) : Option Str :=
  match registryOf image with
  | some registry => some (pullKey registry)
  | none => cacheKey.map buildKey

structure BuildAction where
  image : Str
  actionDir : Str
  cacheKey : Str
deriving DecidableEq, Repr

structure BuildGroup where
  repository : Str
  actions : List BuildAction
deriving DecidableEq, Repr

structure ImagePlan where
  pulls : List Str := []
  pullKeys : List Str := []
  builds : List BuildGroup := []
  buildKeys : List Str := []
deriving DecidableEq, Repr

/-- With the first group of the repository, or in a group of its own. -/
def insertAction (repository : Str) (action : BuildAction) : List BuildGroup → List BuildGroup
  | [] => [⟨repository, [action]⟩]
  | group :: rest =>
    if asciiLower group.repository = asciiLower repository then
      { group with actions := group.actions ++ [action] } :: rest
    else group :: insertAction repository action rest

namespace ImagePlan

def addPull (plan : ImagePlan) (image : Str) : Except RunnerError ImagePlan :=
  if trim image = [] then
    .error (.actionManifest "Docker action registry image is empty".toList)
  else if asciiLower image ∈ plan.pullKeys then .ok plan
  else .ok { plan with
    pulls := plan.pulls ++ [image]
    pullKeys := asciiLower image :: plan.pullKeys }

def addBuild (plan : ImagePlan) (repository image actionDir : Str) : ImagePlan :=
  if actionDir ∈ plan.buildKeys then plan
  else { plan with
    builds := insertAction repository ⟨image, actionDir, actionDir⟩ plan.builds
    buildKeys := actionDir :: plan.buildKeys }

end ImagePlan

/-! ### Discovery -/

/-- A manifest's `runs`, with the `uses` of each step. -/
structure ActionRuns where
  runsUsing : RunsUsing
  image : Option Str
  steps : List (Option Str)

structure ActionFetcher where
  ensureAction : ActionRef → Except RunnerError Str

def resolveActionDir (cacheDir : Str) (subpath : Option Str) : Str :=
  match subpath with
  | some path => if path = [] then cacheDir else join cacheDir path
  | none => cacheDir

variable (readManifest : Str → Except RunnerError ActionRuns) (fetcher : ActionFetcher)

/-- Nothing for what the steps themselves will have to resolve. -/
def loadRemote (uses : Str) : Option (ActionRef × Str × ActionRuns) := do
  let ref ← (parseActionRef uses).toOption
  if ref.kind = .local then none
  else
    let cacheDir ← (fetcher.ensureAction ref).toOption
    let actionDir := resolveActionDir cacheDir ref.subpath
    let runs ← (readManifest actionDir).toOption
    return (ref, actionDir, runs)

/-- A self-repository reference counts from the action that has it; an invalid one is left as it
    is. -/
def childUses (selfRepositoryEnabled : Bool) (ref : ActionRef) (uses : Str) : Str :=
  match resolveSelfReference uses
      (if selfRepositoryEnabled then some (ref.owner ++ '/' :: ref.repo, ref.gitRef) else none) with
  | .ok (some resolved) => resolved
  | .ok none | .error _ => uses

variable (selfRepositoryEnabled : Bool)

/-- The plan with the action's image, and what is to be visited for it. -/
def discoverRemote (uses : Str) (depth : ℕ) (plan : ImagePlan) :
    Except RunnerError (ImagePlan × List (Str × ℕ)) :=
  match loadRemote readManifest fetcher uses with
  | none => .ok (plan, [])
  | some (ref, actionDir, runs) =>
    match runs.runsUsing with
    | .node _ => .ok (plan, [])
    | .composite => .ok (plan, runs.steps.filterMap fun step =>
        step.map fun uses => (childUses selfRepositoryEnabled ref uses, depth + 1))
    | .docker =>
      match runs.image with
      | none => .ok (plan, [])
      | some image =>
        match registryOf image with
        | some registry => (plan.addPull registry).map fun plan => (plan, [])
        | none => .ok (plan.addBuild (ref.owner ++ '/' :: ref.repo) image actionDir, [])

/-- How far each entry of the queue still may go down. -/
def remaining (queue : List (Str × ℕ)) : Multiset ℕ :=
  (queue.map fun entry => maxCompositeDepth + 1 - entry.2 : List ℕ)

/-- What an action puts into the queue is one further down. -/
theorem depth_of_mem_discoverRemote {uses : Str} {depth : ℕ} {plan : ImagePlan}
    {result : ImagePlan × List (Str × ℕ)}
    (h : discoverRemote readManifest fetcher selfRepositoryEnabled uses depth plan = .ok result)
    {entry : Str × ℕ} (hentry : entry ∈ result.2) : entry.2 = depth + 1 := by
  have hempty {plan : ImagePlan} (h : Except.ok (plan, []) = Except.ok (ε := RunnerError) result) :
      entry.2 = depth + 1 := by
    cases h
    cases hentry
  unfold discoverRemote at h
  split at h
  case h_1 => exact hempty h
  case h_2 ref actionDir runs _ =>
    split at h
    case h_1 => exact hempty h
    case h_2 =>
      cases h
      obtain ⟨step, -, hstep⟩ := List.mem_filterMap.mp hentry
      obtain ⟨uses, -, rfl⟩ := Option.map_eq_some_iff.mp hstep
      rfl
    case h_3 =>
      split at h
      case h_1 => exact hempty h
      case h_2 image _ =>
        split at h
        case h_1 registry _ =>
          cases hpull : plan.addPull registry with
          | error e =>
            rw [hpull] at h
            cases h
          | ok plan =>
            rw [hpull] at h
            exact hempty h
        case h_2 => exact hempty h

theorem remaining_lt (uses : Str) {depth : ℕ} (rest : List (Str × ℕ)) {more : List (Str × ℕ)}
    (hdepth : depth ≤ maxCompositeDepth) (hmore : ∀ entry ∈ more, entry.2 = depth + 1) :
    (remaining (rest ++ more)).IsDershowitzMannaLT (remaining ((uses, depth) :: rest)) := by
  refine ⟨remaining rest, remaining more, {maxCompositeDepth + 1 - depth}, by simp, ?_, ?_, ?_⟩
  · simp [remaining]
  · rw [remaining, List.map_cons, ← Multiset.cons_coe, ← Multiset.singleton_add]
    exact Multiset.add_comm _ _
  · intro n hn
    obtain ⟨entry, hentry, rfl⟩ := List.mem_map.mp (Multiset.mem_coe.mp hn)
    refine ⟨_, Multiset.mem_singleton_self _, ?_⟩
    rw [hmore entry hentry]
    omega

theorem remaining_tail_lt (uses : Str) {depth : ℕ} (rest : List (Str × ℕ))
    (hdepth : depth ≤ maxCompositeDepth) :
    (remaining rest).IsDershowitzMannaLT (remaining ((uses, depth) :: rest)) := by
  have h := remaining_lt uses rest hdepth fun _ hentry => absurd hentry List.not_mem_nil
  rwa [List.append_nil] at h

/-- The loop of `discover`.  The cancellation is looked at twice in each round. -/
def walk (cancel : ℕ → Bool) (plan : ImagePlan) (visited : List Str) :
    List (Str × ℕ) → Except RunnerError ImagePlan
  | [] => .ok plan
  | (uses, depth) :: rest =>
    if cancel 0 then .error .cancelled
    else if _hdepth : depth > maxCompositeDepth then
      .error (.stepExecution ("composite action depth limit exceeded (max ".toList ++
        (Nat.repr maxCompositeDepth).toList ++ ")".toList))
    else
      match registryOf uses with
      | some image =>
        match plan.addPull image with
        | .error e => .error e
        | .ok plan => walk (fun n => cancel (n + 2)) plan visited rest
      | none =>
        if uses ∈ visited then walk (fun n => cancel (n + 2)) plan visited rest
        else if cancel 1 then .error .cancelled
        else
          match _hfound : discoverRemote readManifest fetcher selfRepositoryEnabled uses depth plan with
          | .error e => .error e
          | .ok (plan, more) =>
            walk (fun n => cancel (n + 2)) plan (uses :: visited) (rest ++ more)
termination_by queue => remaining queue
decreasing_by
  · exact remaining_tail_lt uses rest (not_lt.mp _hdepth)
  · exact remaining_tail_lt uses rest (not_lt.mp _hdepth)
  · exact remaining_lt uses rest (not_lt.mp _hdepth)
      fun entry => depth_of_mem_discoverRemote readManifest fetcher selfRepositoryEnabled _hfound

section Rounds

variable {readManifest fetcher selfRepositoryEnabled} {cancel : ℕ → Bool} {plan : ImagePlan}
  {visited : List Str} {uses : Str} {depth : ℕ} {rest : List (Str × ℕ)}

theorem walk_registry {image : Str} (hcancel : cancel 0 = false) (hdepth : depth ≤ maxCompositeDepth)
    (huses : registryOf uses = some image) :
    walk readManifest fetcher selfRepositoryEnabled cancel plan visited ((uses, depth) :: rest) =
      plan.addPull image >>= fun plan => walk readManifest fetcher selfRepositoryEnabled
        (fun n => cancel (n + 2)) plan visited rest := by
  rw [walk, if_neg (Bool.eq_false_iff.mp hcancel), dif_neg (not_lt.mpr hdepth)]
  simp only [huses]
  cases plan.addPull image <;> rfl

theorem walk_remote (hcancel : cancel 0 = false) (hcancel' : cancel 1 = false)
    (hdepth : depth ≤ maxCompositeDepth) (huses : registryOf uses = none) (hnew : uses ∉ visited) :
    walk readManifest fetcher selfRepositoryEnabled cancel plan visited ((uses, depth) :: rest) =
      discoverRemote readManifest fetcher selfRepositoryEnabled uses depth plan >>= fun next =>
        walk readManifest fetcher selfRepositoryEnabled (fun n => cancel (n + 2)) next.1
          (uses :: visited) (rest ++ next.2) := by
  rw [walk, if_neg (Bool.eq_false_iff.mp hcancel), dif_neg (not_lt.mpr hdepth)]
  simp only [huses, if_neg hnew, if_neg (Bool.eq_false_iff.mp hcancel')]
  split
  case h_1 e hfound =>
    rw [hfound]
    rfl
  case h_2 next more hfound =>
    rw [hfound]
    rfl

end Rounds

def isRunStep (step : ActionStep) : Bool := step.reference.refType = some "script".toList

def discover (cancel : ℕ → Bool) (steps : List ActionStep) : Except RunnerError ImagePlan :=
  walk readManifest fetcher selfRepositoryEnabled cancel {} []
    ((steps.filter fun step => !isRunStep step).map fun step => (buildUsesRef step.reference, 0))

/-! ### Preparation -/

inductive SetupTask
  | pull (image : Str)
  | build (group : BuildGroup)
deriving DecidableEq, Repr

/-- The engine over the time of the preparation: the connection of each task, and the call for each
    key. -/
structure DockerEngine where
  connect : ℕ → Except RunnerError Unit
  host : Str → DockerHost

variable (engine : DockerEngine)

/-- The first number is 2. -/
def setupStepNumber (index : ℕ) : Except RunnerError ℕ :=
  if index + 2 < 2 ^ 32 then .ok (index + 2)
  else .error (.stepExecution "Docker setup step number overflow".toList)

def prepareActions : List BuildAction → Except RunnerError (List (Str × Str))
  | [] => .ok []
  | action :: actions => do
    let key := buildKey action.cacheKey
    let tag ← prepareImage blake3 (engine.host key) action.image action.actionDir
      (some action.cacheKey)
    let prepared ← prepareActions actions
    return (key, tag) :: prepared

def prepareTask (index : ℕ) (task : SetupTask) : Except RunnerError (List (Str × Str)) := do
  engine.connect index
  match task with
  | .pull image => do
    let key := pullKey image
    let tag ← prepareImage blake3 (engine.host key) ("docker://".toList ++ image) [] none
    return [(key, tag)]
  | .build group => prepareActions blake3 engine group.actions

def runTask (task : SetupTask) (index : ℕ) : Except RunnerError (List (Str × Str)) := do
  let _ ← setupStepNumber index
  prepareTask blake3 engine index task

/-- One task after the other, from the one of the number. -/
def runTasks (images : HashMap Str) (index : ℕ) : List SetupTask → Except RunnerError (HashMap Str)
  | [] => .ok images
  | task :: tasks => do
    let prepared ← runTask blake3 engine task index
    runTasks (extend images prepared) (index + 1) tasks

theorem runTasks_cons {blake3 : Str → Str} {engine : DockerEngine} {images : HashMap Str} {index : ℕ}
    {task : SetupTask} {tasks : List SetupTask} {prepared : List (Str × Str)}
    (h : runTask blake3 engine task index = .ok prepared) :
    runTasks blake3 engine images index (task :: tasks) =
      runTasks blake3 engine (extend images prepared) (index + 1) tasks := by
  rw [runTasks, h]
  rfl

namespace ImagePlan

/-- The pulls come first. -/
def tasks (plan : ImagePlan) : List SetupTask := plan.pulls.map .pull ++ plan.builds.map .build

end ImagePlan

def runPlan (plan : ImagePlan) : Except RunnerError (HashMap Str) :=
  if plan.tasks.length < 2 ^ 32 then runTasks blake3 engine ∅ 0 plan.tasks
  else .error (.stepExecution
    "too many Docker setup tasks: out of range integral type conversion attempted".toList)

/-- Only on Linux are there images. -/
def prepare (linux : Bool) (cancel : ℕ → Bool) (steps : List ActionStep) :
    Except RunnerError (HashMap Str) := do
  let plan ← discover readManifest fetcher selfRepositoryEnabled cancel steps
  if plan.tasks = [] ∨ linux = false then return ∅
  runPlan blake3 engine plan

/-! ### A step -/

structure ResolvedStep where
  imageCacheKey : Option Str
  actionDir : Str
  runs : ActionRuns

/-- Of an action in the workspace. -/
def localDir (ref : ActionRef) (workspace : Str) : Option Str :=
  match ref.localPath with
  | none => none
  | some path =>
    if "./".toList <+: path then
      if .parentDir ∈ components (path.drop 2) then none else some (join workspace (path.drop 2))
    else none

/-- `resolve_action`, of a step that uses this. -/
def resolveAction (workspace uses : Str) : Except RunnerError ResolvedStep :=
  match registryOf uses with
  | some image =>
    if trim image = [] then
      .error (.actionManifest "Docker action registry image is empty".toList)
    else .ok ⟨none, workspace, ⟨.docker, some uses, []⟩⟩
  | none =>
    match parseActionRef uses with
    | .error (.actionResolution message) => .error (.actionResolution message)
    | .error (.expression message) | .error (.other message) => .error (.other message)
    | .ok ref =>
      if ref.kind = .local then
        match localDir ref workspace with
        | none =>
          .error (.actionResolution ("invalid local action ref '".toList ++ uses ++ "'".toList))
        | some actionDir => do
          let runs ← readManifest actionDir
          return ⟨none, actionDir, runs⟩
      else do
        let cacheDir ← fetcher.ensureAction ref
        let actionDir := resolveActionDir cacheDir ref.subpath
        let runs ← readManifest actionDir
        return ⟨some actionDir, actionDir, runs⟩

/-- The image's record, if it has one. -/
def recorded (images : HashMap Str) (image : Str) (cacheKey : Option Str) : Option Str :=
  (imageKey image cacheKey).bind images.lookup

/-- The `prepare` of `docker_action.rs`, with the connection and the engine as it meets them. -/
def stepImage (images : HashMap Str) (connect : Except RunnerError Unit) (host : DockerHost)
    (resolved : ResolvedStep) : Except RunnerError Str :=
  match resolved.runs.image.filter fun image => image ≠ [] with
  | none => .error (.actionManifest "Docker action requires runs.image".toList)
  | some image => do
    connect
    match recorded images image resolved.imageCacheKey with
    | some prepared => return prepared
    | none => prepareImage blake3 host image resolved.actionDir resolved.imageCacheKey

/-! ### What the plan holds -/

section Plans

variable {readManifest fetcher selfRepositoryEnabled}

theorem mem_insertAction {repository : Str} {action a : BuildAction} {groups : List BuildGroup}
    {group : BuildGroup} (hgroup : group ∈ insertAction repository action groups)
    (ha : a ∈ group.actions) : a = action ∨ ∃ g ∈ groups, a ∈ g.actions := by
  induction groups with
  | nil =>
    rw [insertAction, List.mem_singleton] at hgroup
    subst hgroup
    exact Or.inl (List.mem_singleton.mp ha)
  | cons first rest ih =>
    rw [insertAction] at hgroup
    split at hgroup
    · rcases List.mem_cons.mp hgroup with rfl | hrest
      · rcases List.mem_append.mp ha with hold | hnew
        · exact Or.inr ⟨first, List.mem_cons_self, hold⟩
        · exact Or.inl (List.mem_singleton.mp hnew)
      · exact Or.inr ⟨group, List.mem_cons_of_mem _ hrest, ha⟩
    · rcases List.mem_cons.mp hgroup with rfl | hrest
      · exact Or.inr ⟨group, List.mem_cons_self, ha⟩
      · refine (ih hrest).imp_right fun h => ?_
        obtain ⟨g, hg, hag⟩ := h
        exact ⟨g, List.mem_cons_of_mem _ hg, hag⟩

theorem builds_addPull {plan plan' : ImagePlan} {image : Str}
    (h : plan.addPull image = .ok plan') : plan'.builds = plan.builds := by
  unfold ImagePlan.addPull at h
  split at h
  · cases h
  · split at h
    · cases h
      rfl
    · cases h
      rfl

/-- The directory's manifest asks for the build. -/
structure BuildAction.Asked (readManifest : Str → Except RunnerError ActionRuns)
    (action : BuildAction) : Prop where
  cacheKey : action.cacheKey = action.actionDir
  local_image : registryOf action.image = none
  manifest : ∃ runs, readManifest action.actionDir = .ok runs ∧ runs.image = some action.image

namespace ImagePlan

def Sound (readManifest : Str → Except RunnerError ActionRuns) (plan : ImagePlan) : Prop :=
  ∀ group ∈ plan.builds, ∀ action ∈ group.actions, action.Asked readManifest

theorem Sound.addPull {plan plan' : ImagePlan} {image : Str} (hplan : plan.Sound readManifest)
    (h : plan.addPull image = .ok plan') : plan'.Sound readManifest := by
  rw [Sound, builds_addPull h]
  exact hplan

theorem Sound.addBuild {plan : ImagePlan} {repository image actionDir : Str}
    (hplan : plan.Sound readManifest)
    (hasked : BuildAction.Asked readManifest ⟨image, actionDir, actionDir⟩) :
    (plan.addBuild repository image actionDir).Sound readManifest := by
  unfold ImagePlan.addBuild
  split
  · exact hplan
  · intro group hgroup action haction
    rcases mem_insertAction hgroup haction with rfl | ⟨g, hg, hag⟩
    · exact hasked
    · exact hplan g hg action hag

end ImagePlan

/-- What was loaded was read from the directory it comes with. -/
theorem readManifest_of_loadRemote {uses actionDir : Str} {ref : ActionRef} {runs : ActionRuns}
    (h : loadRemote readManifest fetcher uses = some (ref, actionDir, runs)) :
    readManifest actionDir = .ok runs := by
  unfold loadRemote at h
  obtain ⟨ref', -, h⟩ := Option.bind_eq_some_iff.mp h
  split at h
  · cases h
  · obtain ⟨cacheDir, -, h⟩ := Option.bind_eq_some_iff.mp h
    obtain ⟨runs', hruns, h⟩ := Option.bind_eq_some_iff.mp h
    cases h
    cases hread : readManifest (resolveActionDir cacheDir ref.subpath) with
    | error e =>
      rw [hread] at hruns
      cases hruns
    | ok runs' =>
      rw [hread] at hruns
      cases hruns
      rfl

theorem sound_discoverRemote {uses : Str} {depth : ℕ} {plan : ImagePlan}
    {result : ImagePlan × List (Str × ℕ)} (hplan : plan.Sound readManifest)
    (h : discoverRemote readManifest fetcher selfRepositoryEnabled uses depth plan = .ok result) :
    result.1.Sound readManifest := by
  unfold discoverRemote at h
  split at h
  case h_1 =>
    cases h
    exact hplan
  case h_2 ref actionDir runs hload =>
    split at h
    case h_1 =>
      cases h
      exact hplan
    case h_2 =>
      cases h
      exact hplan
    case h_3 =>
      split at h
      case h_1 =>
        cases h
        exact hplan
      case h_2 image himage =>
        split at h
        case h_1 registry _ =>
          cases hpull : plan.addPull registry with
          | error e =>
            rw [hpull] at h
            cases h
          | ok plan' =>
            rw [hpull] at h
            cases h
            exact hplan.addPull hpull
        case h_2 hlocal =>
          cases h
          exact hplan.addBuild ⟨rfl, hlocal, runs, readManifest_of_loadRemote hload, himage⟩

/-- One round after the other: the plan stays sound, whatever the queue holds. -/
theorem sound_walk {cancel : ℕ → Bool} {plan plan' : ImagePlan} {visited : List Str}
    {queue : List (Str × ℕ)} (hplan : plan.Sound readManifest)
    (h : walk readManifest fetcher selfRepositoryEnabled cancel plan visited queue = .ok plan') :
    plan'.Sound readManifest := by
  fun_induction walk readManifest fetcher selfRepositoryEnabled cancel plan visited queue with
  | case1 cancel plan visited =>
    cases h
    exact hplan
  | case2 => cases h
  | case3 => cases h
  | case4 => cases h
  | case5 cancel plan visited uses depth rest _ _ image _ next hpull ih =>
    exact ih (hplan.addPull hpull) h
  | case6 cancel plan visited uses depth rest _ _ _ _ ih => exact ih hplan h
  | case7 => cases h
  | case8 => cases h
  | case9 cancel plan visited uses depth rest _ _ _ _ _ next more hfound ih =>
    exact ih (sound_discoverRemote hplan hfound) h

theorem sound_discover {cancel : ℕ → Bool} {steps : List ActionStep} {plan : ImagePlan}
    (h : discover readManifest fetcher selfRepositoryEnabled cancel steps = .ok plan) :
    plan.Sound readManifest :=
  sound_walk (fun _ hgroup => absurd hgroup List.not_mem_nil) h

end Plans

/-! ### What is recorded -/

section Records

variable {blake3 : Str → Str} {engine : DockerEngine}

/-- A call of the preparation for one of the plan's images, and the key of its record. -/
inductive Call (plan : ImagePlan) : Str → Str → Str → Option Str → Prop
  | pull {registry : Str} (h : registry ∈ plan.pulls) :
    Call plan (pullKey registry) ("docker://".toList ++ registry) [] none
  | build {group : BuildGroup} {action : BuildAction} (hgroup : group ∈ plan.builds)
      (haction : action ∈ group.actions) :
    Call plan (buildKey action.cacheKey) action.image action.actionDir (some action.cacheKey)

/-- The call was made, and the image is what came of it. -/
def Made (blake3 : Str → Str) (engine : DockerEngine) (plan : ImagePlan) (key tag : Str) : Prop :=
  ∃ image actionDir cacheKey, Call plan key image actionDir cacheKey ∧
    prepareImage blake3 (engine.host key) image actionDir cacheKey = .ok tag

theorem mem_prepareActions {actions : List BuildAction} {prepared : List (Str × Str)}
    (h : prepareActions blake3 engine actions = .ok prepared) {entry : Str × Str}
    (hentry : entry ∈ prepared) :
    ∃ action ∈ actions, entry.1 = buildKey action.cacheKey ∧
      prepareImage blake3 (engine.host entry.1) action.image action.actionDir
        (some action.cacheKey) = .ok entry.2 := by
  induction actions generalizing prepared with
  | nil =>
    cases h
    cases hentry
  | cons action actions ih =>
    rw [prepareActions] at h
    obtain ⟨tag, htag, h⟩ := Descent.bind_eq_ok.mp h
    obtain ⟨rest, hrest, h⟩ := Descent.bind_eq_ok.mp h
    cases h
    rcases List.mem_cons.mp hentry with rfl | hmem
    · exact ⟨action, List.mem_cons_self, rfl, htag⟩
    · obtain ⟨a, ha, hkey, hmade⟩ := ih hrest hmem
      exact ⟨a, List.mem_cons_of_mem _ ha, hkey, hmade⟩

theorem mem_prepareTask {plan : ImagePlan} {index : ℕ} {task : SetupTask} (htask : task ∈ plan.tasks)
    {prepared : List (Str × Str)} (h : prepareTask blake3 engine index task = .ok prepared)
    {entry : Str × Str} (hentry : entry ∈ prepared) : Made blake3 engine plan entry.1 entry.2 := by
  obtain ⟨-, -, h⟩ := Descent.bind_eq_ok.mp h
  cases task with
  | pull image =>
    obtain ⟨tag, htag, h⟩ := Descent.bind_eq_ok.mp h
    cases h
    have himage : image ∈ plan.pulls := by simpa [ImagePlan.tasks] using htask
    obtain rfl := List.mem_singleton.mp hentry
    exact ⟨_, _, _, .pull himage, htag⟩
  | build group =>
    have hgroup : group ∈ plan.builds := by simpa [ImagePlan.tasks] using htask
    obtain ⟨action, haction, hkey, hmade⟩ := mem_prepareActions h hentry
    refine ⟨_, _, _, ?_, hmade⟩
    rw [hkey]
    exact .build hgroup haction

/-- The records of a run of tasks: those before it, and those of the tasks. -/
theorem mem_runTasks {plan : ImagePlan} {tasks : List SetupTask} (htasks : tasks ⊆ plan.tasks)
    {images result : HashMap Str} {index : ℕ}
    (h : runTasks blake3 engine images index tasks = .ok result) {key tag : Str}
    (hlookup : result.lookup key = some tag) :
    images.lookup key = some tag ∨ Made blake3 engine plan key tag := by
  induction tasks generalizing images index with
  | nil =>
    cases h
    exact Or.inl hlookup
  | cons task tasks ih =>
    obtain ⟨htask, hrest⟩ := List.cons_subset.mp htasks
    rw [runTasks] at h
    obtain ⟨prepared, hrun, h⟩ := Descent.bind_eq_ok.mp h
    obtain ⟨-, -, hprepared⟩ := Descent.bind_eq_ok.mp hrun
    rcases ih hrest h with hsofar | hmade
    · exact (lookup_extend_cases hsofar).symm.imp_right fun hentry =>
        mem_prepareTask htask hprepared hentry
    · exact Or.inr hmade

theorem mem_runPlan {plan : ImagePlan} {images : HashMap Str}
    (h : runPlan blake3 engine plan = .ok images) {key tag : Str}
    (hlookup : images.lookup key = some tag) : Made blake3 engine plan key tag := by
  unfold runPlan at h
  split at h
  · refine (mem_runTasks (List.Subset.refl _) h hlookup).resolve_left fun hnone => ?_
    rw [AList.lookup_empty] at hnone
    cases hnone
  · cases h

theorem mem_prepare {readManifest : Str → Except RunnerError ActionRuns} {fetcher : ActionFetcher}
    {selfRepositoryEnabled linux : Bool} {cancel : ℕ → Bool} {steps : List ActionStep}
    {images : HashMap Str}
    (h : prepare blake3 readManifest fetcher selfRepositoryEnabled engine linux cancel steps =
      .ok images) {key tag : Str} (hlookup : images.lookup key = some tag) :
    ∃ plan, plan.Sound readManifest ∧ Made blake3 engine plan key tag := by
  obtain ⟨plan, hplan, h⟩ := Descent.bind_eq_ok.mp h
  split at h
  · cases h
    rw [AList.lookup_empty] at hlookup
    cases hlookup
  · exact ⟨plan, sound_discover hplan, mem_runPlan h hlookup⟩

end Records

/-! ### What a step makes of a record -/

section Transparency

variable {blake3 : Str → Str} {readManifest : Str → Except RunnerError ActionRuns}

theorem registryOf_docker (registry : Str) :
    registryOf ("docker://".toList ++ registry) = some registry := by
  rw [registryOf, if_pos (List.prefix_append _ _), List.drop_left]

/-- A registry image is its own tag, whatever the engine. -/
theorem prepareImage_registry {host : DockerHost} {image registry : Str}
    (himage : registryOf image = some registry) (actionDir : Str) (cacheKey : Option Str) {tag : Str}
    (h : prepareImage blake3 host image actionDir cacheKey = .ok tag) : tag = registry := by
  obtain ⟨-, -, h⟩ := Descent.bind_eq_ok.mp h
  rw [himage] at h
  change pullImage host registry = .ok tag at h
  unfold pullImage at h
  split at h
  · cases h
  · obtain ⟨-, -, h⟩ := Descent.bind_eq_ok.mp h
    obtain ⟨-, -, h⟩ := Descent.bind_eq_ok.mp h
    cases h
    rfl

/-- Neither the directory nor the cache key matters to a pull. -/
theorem prepareImage_pull {host : DockerHost} {image registry : Str}
    (himage : registryOf image = some registry) (actionDir actionDir' : Str)
    (cacheKey cacheKey' : Option Str) :
    prepareImage blake3 host image actionDir cacheKey =
      prepareImage blake3 host image actionDir' cacheKey' := by
  rw [prepareImage, prepareImage, himage]

/-- An image that is kept has the tag of what it is built from, built now or before. -/
theorem prepareImage_kept {host : DockerHost} {image actionDir cacheKey tag : Str}
    (himage : registryOf image = none)
    (h : prepareImage blake3 host image actionDir (some cacheKey) = .ok tag) :
    ∃ platform, host.version = .ok platform ∧ tag = keptTag blake3 cacheKey image platform := by
  obtain ⟨-, -, h⟩ := Descent.bind_eq_ok.mp h
  rw [himage] at h
  change buildImage blake3 host image actionDir (some cacheKey) = .ok tag at h
  unfold buildImage at h
  obtain ⟨⟨contextDir, name⟩, -, h⟩ := Descent.bind_eq_ok.mp h
  obtain ⟨built, hbuilt, h⟩ := Descent.bind_eq_ok.mp h
  -- every way through the rest returns the tag
  have htag : tag = built := by
    obtain ⟨there, -, h⟩ := Descent.bind_eq_ok.mp h
    split at h
    · cases h
      rfl
    · obtain ⟨-, -, h⟩ := Descent.bind_eq_ok.mp h
      obtain ⟨-, -, h⟩ := Descent.bind_eq_ok.mp h
      obtain ⟨-, -, h⟩ := Descent.bind_eq_ok.mp h
      obtain ⟨-, -, h⟩ := Descent.bind_eq_ok.mp h
      cases h
      rfl
  subst htag
  obtain ⟨platform, hplatform, hbuilt⟩ := Descent.bind_eq_ok.mp hbuilt
  refine ⟨platform, ?_, ?_⟩
  · cases hversion : host.version with
    | ok v =>
      rw [hversion] at hplatform
      cases hplatform
      rfl
    | error fault =>
      rw [hversion] at hplatform
      cases fault <;> cases hplatform
  · cases hbuilt
    rfl

/-- Two calls for one image come to the same tag, unless the daemon is another one by then. -/
theorem tag_unique {host host' : DockerHost} {image actionDir tag tag' : Str} {cacheKey : Option Str}
    (hkey : registryOf image = none → cacheKey ≠ none) (hversion : host'.version = host.version)
    (h : prepareImage blake3 host image actionDir cacheKey = .ok tag)
    (h' : prepareImage blake3 host' image actionDir cacheKey = .ok tag') : tag' = tag := by
  cases himage : registryOf image with
  | some registry =>
    rw [prepareImage_registry himage _ _ h, prepareImage_registry himage _ _ h']
  | none =>
    obtain ⟨key, rfl⟩ := Option.ne_none_iff_exists'.mp (hkey himage)
    obtain ⟨platform, hplatform, rfl⟩ := prepareImage_kept himage h
    obtain ⟨platform', hplatform', rfl⟩ := prepareImage_kept himage h'
    rw [hversion, hplatform] at hplatform'
    rw [Except.ok.inj hplatform']

/-- The same Dockerfile, or the same registry reference up to the case of its ASCII letters. -/
def SameReference (image own : Str) : Prop :=
  image = own ∨ ∃ registry registry', registryOf image = some registry ∧
    registryOf own = some registry' ∧ asciiLower registry = asciiLower registry'

/-- The step resolves to an action with this image, which is looked up under this key. -/
structure AsksFor (readManifest : Str → Except RunnerError ActionRuns) (fetcher : ActionFetcher)
    (workspace uses : Str) (resolved : ResolvedStep) (image key : Str) : Prop where
  resolves : resolveAction readManifest fetcher workspace uses = .ok resolved
  runs_image : resolved.runs.image = some image
  looks_up : imageKey image resolved.imageCacheKey = some key

/-- A step with a cache key has it from its directory, and its manifest from there. -/
theorem resolved_of_cacheKey {fetcher : ActionFetcher} {workspace uses cacheKey : Str}
    {resolved : ResolvedStep}
    (h : resolveAction readManifest fetcher workspace uses = .ok resolved)
    (hkey : resolved.imageCacheKey = some cacheKey) :
    resolved.actionDir = cacheKey ∧ readManifest cacheKey = .ok resolved.runs := by
  unfold resolveAction at h
  split at h
  · split at h
    · cases h
    · cases h
      cases hkey
  · split at h
    · cases h
    · cases h
    · cases h
    · split at h
      · split at h
        · cases h
        · obtain ⟨runs, -, h⟩ := Descent.bind_eq_ok.mp h
          cases h
          cases hkey
      · obtain ⟨cacheDir, -, h⟩ := Descent.bind_eq_ok.mp h
        obtain ⟨runs, hruns, h⟩ := Descent.bind_eq_ok.mp h
        cases h
        cases hkey
        exact ⟨rfl, hruns⟩

/-- A build's key starts with another letter. -/
theorem buildKey_ne_pullKey (cacheKey registry : Str) : buildKey cacheKey ≠ pullKey registry := by
  intro h
  have hbuild : (buildKey cacheKey).head? = some 'b' := rfl
  have hpull : (pullKey registry).head? = some 'p' := rfl
  rw [h, hpull] at hbuild
  exact absurd (Option.some.inj hbuild) (by decide)

theorem imageKey_eq_pullKey {image registry : Str} {cacheKey : Option Str}
    (h : imageKey image cacheKey = some (pullKey registry)) :
    ∃ own, registryOf image = some own ∧ asciiLower own = asciiLower registry := by
  unfold imageKey at h
  split at h
  case h_1 own hown =>
    exact ⟨own, hown, List.append_cancel_left (Option.some.inj h)⟩
  case h_2 =>
    obtain ⟨key, -, hkey⟩ := Option.map_eq_some_iff.mp h
    exact absurd hkey (buildKey_ne_pullKey key registry)

theorem imageKey_eq_buildKey {image key : Str} {cacheKey : Option Str}
    (h : imageKey image cacheKey = some (buildKey key)) :
    registryOf image = none ∧ cacheKey = some key := by
  unfold imageKey at h
  split at h
  case h_1 own hown =>
    exact absurd (Option.some.inj h).symm (buildKey_ne_pullKey key own)
  case h_2 hnone =>
    obtain ⟨key', rfl, hkey⟩ := Option.map_eq_some_iff.mp h
    exact ⟨hnone, congrArg some (List.append_cancel_left hkey)⟩

/-- What is asked for under a key that the preparation has called for. -/
theorem sameReference_of_call {fetcher : ActionFetcher} {workspace uses image key : Str}
    {resolved : ResolvedStep} (hasks : AsksFor readManifest fetcher workspace uses resolved image key)
    {plan : ImagePlan} (hplan : plan.Sound readManifest) {own actionDir : Str}
    {cacheKey : Option Str} (hcall : Call plan key own actionDir cacheKey) :
    SameReference image own ∧
      (registryOf own = none → actionDir = resolved.actionDir ∧ cacheKey = resolved.imageCacheKey ∧
        cacheKey ≠ none) := by
  cases hcall with
  | pull h =>
    obtain ⟨registry, hregistry, hsame⟩ := imageKey_eq_pullKey hasks.looks_up
    refine ⟨Or.inr ⟨_, _, hregistry, registryOf_docker _, hsame⟩, fun hnone => ?_⟩
    rw [registryOf_docker] at hnone
    cases hnone
  | @build group action hgroup haction =>
    obtain ⟨-, hkey⟩ := imageKey_eq_buildKey hasks.looks_up
    obtain ⟨hdir, hruns⟩ := resolved_of_cacheKey hasks.resolves hkey
    have hasked := hplan group hgroup action haction
    -- one directory, so one manifest and one Dockerfile
    obtain ⟨runs, hread, himage⟩ := hasked.manifest
    rw [← hasked.cacheKey, hruns] at hread
    obtain rfl := Except.ok.inj hread
    rw [hasks.runs_image] at himage
    refine ⟨Or.inl (Option.some.inj himage), fun _ => ⟨?_, hkey.symm, Option.some_ne_none _⟩⟩
    rw [hdir, hasked.cacheKey]

variable {engine : DockerEngine} {before : ActionFetcher} {selfRepositoryEnabled : Bool}

/-- Whatever has been prepared: an image that a step finds recorded came of a call of `prepare_image`
    with its own directory and cache key and with its own reference, or with another spelling of it
    that differs only in the case of its ASCII letters; and so would any later call on that platform.
    Steps that share a record differ in no more than that. -/
theorem prepared_transparent {linux : Bool} {cancel : ℕ → Bool} {steps : List ActionStep}
    {images : HashMap Str}
    (hprepare : prepare blake3 readManifest before selfRepositoryEnabled engine linux cancel steps =
      .ok images) :
    (∀ now workspace uses resolved image key prepared,
      AsksFor readManifest now workspace uses resolved image key →
      images.lookup key = some prepared →
      ∃ own, SameReference image own ∧
        prepareImage blake3 (engine.host key) own resolved.actionDir resolved.imageCacheKey =
          .ok prepared ∧
        ∀ host tag, host.version = (engine.host key).version →
          prepareImage blake3 host own resolved.actionDir resolved.imageCacheKey = .ok tag →
          tag = prepared) ∧
    ∀ now now' workspace workspace' uses uses' resolved resolved' image image' key,
      AsksFor readManifest now workspace uses resolved image key →
      AsksFor readManifest now' workspace' uses' resolved' image' key →
      SameReference image image' ∧
        (registryOf image = none → resolved'.actionDir = resolved.actionDir ∧
          resolved'.imageCacheKey = resolved.imageCacheKey) := by
  constructor
  · intro now workspace uses resolved image key prepared hasks hlookup
    obtain ⟨plan, hplan, own, actionDir, cacheKey, hcall, hmade⟩ := mem_prepare hprepare hlookup
    obtain ⟨hsame, hown⟩ := sameReference_of_call hasks hplan hcall
    -- the call was made with what the step has
    have hcalled : prepareImage blake3 (engine.host key) own resolved.actionDir
        resolved.imageCacheKey = .ok prepared := by
      cases himage : registryOf own with
      | some registry =>
        rw [← hmade]
        exact prepareImage_pull himage _ _ _ _
      | none =>
        obtain ⟨rfl, rfl, -⟩ := hown himage
        exact hmade
    refine ⟨own, hsame, hcalled, fun host tag hversion htag => ?_⟩
    refine tag_unique (fun hnone => ?_) hversion hcalled htag
    obtain ⟨-, hkey, hsome⟩ := hown hnone
    exact hkey ▸ hsome
  · intro now now' workspace workspace' uses uses' resolved resolved' image image' key hasks hasks'
    cases himage : registryOf image with
    | some registry =>
      have hkey : imageKey image resolved.imageCacheKey = some (pullKey registry) := by
        rw [imageKey, himage]
      have hkey' := hasks'.looks_up
      rw [← hasks.looks_up, hkey] at hkey'
      obtain ⟨registry', hregistry', hsame⟩ := imageKey_eq_pullKey hkey'
      exact ⟨Or.inr ⟨registry, registry', himage, hregistry', hsame.symm⟩, nofun⟩
    | none =>
      have hkey := hasks.looks_up
      rw [imageKey, himage] at hkey
      obtain ⟨cacheKey, hcache, rfl⟩ := Option.map_eq_some_iff.mp hkey
      obtain ⟨-, hcache'⟩ := imageKey_eq_buildKey hasks'.looks_up
      obtain ⟨hdir, hruns⟩ := resolved_of_cacheKey hasks.resolves hcache
      obtain ⟨hdir', hruns'⟩ := resolved_of_cacheKey hasks'.resolves hcache'
      rw [hruns] at hruns'
      have hsame : image = image' := by
        have hrunsSame := Except.ok.inj hruns'
        have himage' := hasks'.runs_image
        rw [← hrunsSame, hasks.runs_image] at himage'
        exact Option.some.inj himage'
      exact ⟨Or.inl hsame, fun _ => ⟨hdir'.trans hdir.symm, hcache'.trans hcache.symm⟩⟩

end Transparency

/-! ### Two spellings of one reference -/

section Spellings

/-- An engine that has every image. -/
def servingHost : DockerHost where
  isCancelled := (false, false)
  mask := id
  isFile _ := true
  newUuid := []
  version := .ok (some "linux".toList, some "amd64".toList)
  imageExists _ := .ok true
  createImage _ := .ok ()
  archiveContext _ _ := .ok ()
  buildImage _ _ := .ok ()
  inspectImage _ := .ok ()

def servingEngine : DockerEngine where
  connect _ := .ok ()
  host _ := servingHost

def probeFetcher : ActionFetcher where
  ensureAction _ := .ok "/data/actions/acme/probe".toList

/-- Each action is built from its Dockerfile. -/
def probeManifest (_ : Str) : Except RunnerError ActionRuns := .ok ⟨.docker, some "Dockerfile".toList, []⟩

def usesStep (refType : String) (image name gitRef : Option Str) : ActionStep where
  id := []
  stepType := none
  contextName := none
  condition := none
  continueOnError := none
  reference := ⟨some refType.toList, image, name, gitRef, none, none⟩
  inputs := ⟨2, none, none, none, none, none⟩
  environment := none

def probeSteps : List ActionStep :=
  [usesStep "repository" none (some "acme/probe".toList) (some "main".toList),
    usesStep "containerRegistry" (some "repo:tag".toList) none none,
    usesStep "containerRegistry" (some "repo:Tag".toList) none none]

def probeDir : Str := "/data/actions/acme/probe".toList

def probePlan : ImagePlan where
  pulls := ["repo:tag".toList]
  pullKeys := ["repo:tag".toList]
  builds := [⟨"acme/probe".toList, [⟨"Dockerfile".toList, probeDir, probeDir⟩]⟩]
  buildKeys := [probeDir]

def probeTag : Str :=
  keptTag id probeDir "Dockerfile".toList (some "linux".toList, some "amd64".toList)

def probeImages : HashMap Str :=
  extend ∅ [(pullKey "repo:tag".toList, "repo:tag".toList),
    (buildKey probeDir, probeTag)]

theorem prepare_probeSteps :
    prepare id probeManifest probeFetcher true servingEngine true (fun _ => false) probeSteps =
      .ok probeImages := by
  have hqueue : ((probeSteps.filter fun step => !isRunStep step).map fun step =>
      (buildUsesRef step.reference, 0)) = [("acme/probe@main".toList, 0),
        ("docker://repo:tag".toList, 0), ("docker://repo:Tag".toList, 0)] := by decide
  have hremote : registryOf "acme/probe@main".toList = none ∧
      discoverRemote probeManifest probeFetcher true "acme/probe@main".toList 0 {} =
        .ok ({ builds := probePlan.builds, buildKeys := probePlan.buildKeys }, []) := by
    decide
  have hfirst : registryOf "docker://repo:tag".toList = some "repo:tag".toList ∧
      ImagePlan.addPull { builds := probePlan.builds, buildKeys := probePlan.buildKeys }
        "repo:tag".toList = .ok probePlan := by decide
  have hsecond : registryOf "docker://repo:Tag".toList = some "repo:Tag".toList ∧
      probePlan.addPull "repo:Tag".toList = .ok probePlan := by decide
  have hplan : discover probeManifest probeFetcher true (fun _ => false) probeSteps =
      .ok probePlan := by
    rw [discover, hqueue, walk_remote rfl rfl (Nat.zero_le _) hremote.1 List.not_mem_nil, hremote.2]
    change walk _ _ _ _ _ _ [("docker://repo:tag".toList, 0), ("docker://repo:Tag".toList, 0)] = _
    rw [walk_registry rfl (Nat.zero_le _) hfirst.1, hfirst.2]
    change walk _ _ _ _ _ _ [("docker://repo:Tag".toList, 0)] = _
    rw [walk_registry rfl (Nat.zero_le _) hsecond.1, hsecond.2]
    exact walk.eq_1 ..
  have hpull : runTask id servingEngine (.pull "repo:tag".toList) 0 =
      .ok [(pullKey "repo:tag".toList, "repo:tag".toList)] := by decide
  have hbuild : runTask id servingEngine (.build ⟨"acme/probe".toList,
      [⟨"Dockerfile".toList, probeDir, probeDir⟩]⟩) 1 = .ok [(buildKey probeDir, probeTag)] := by
    decide
  rw [prepare, hplan]
  change runPlan id servingEngine probePlan = .ok probeImages
  rw [runPlan, if_pos (by decide)]
  change runTasks _ _ ∅ 0 [.pull "repo:tag".toList, .build ⟨"acme/probe".toList,
    [⟨"Dockerfile".toList, probeDir, probeDir⟩]⟩] = _
  rw [runTasks_cons hpull, runTasks_cons hbuild]
  rfl

theorem resolve_probe :
    resolveAction probeManifest probeFetcher "/work".toList "acme/probe@main".toList =
      .ok ⟨some probeDir, probeDir, ⟨.docker, some "Dockerfile".toList, []⟩⟩ := by
  have hregistry : registryOf "acme/probe@main".toList = none := by decide
  have hparse : parseActionRef "acme/probe@main".toList =
      .ok ⟨.remote, "acme".toList, "probe".toList, "main".toList, none, none⟩ := by decide
  rw [resolveAction, hregistry]
  simp only [hparse]
  rfl

theorem prepared_transparent_probe :
    ∃ own, SameReference "Dockerfile".toList own ∧
      prepareImage id (servingEngine.host (buildKey probeDir)) own probeDir (some probeDir) =
        .ok probeTag ∧
      ∀ host tag, host.version = (servingEngine.host (buildKey probeDir)).version →
        prepareImage id host own probeDir (some probeDir) = .ok tag → tag = probeTag := by
  have hkey : imageKey "Dockerfile".toList (some probeDir) = some (buildKey probeDir) := by
    decide
  have hlookup : probeImages.lookup (buildKey probeDir) = some probeTag := by decide
  have hasks : AsksFor probeManifest probeFetcher "/work".toList "acme/probe@main".toList _
      "Dockerfile".toList (buildKey probeDir) := ⟨resolve_probe, rfl, hkey⟩
  have h := (prepared_transparent prepare_probeSteps).1 _ _ _ _ _ _ _ hasks hlookup
  exact h

/-- The tag `Tag` runs the image of the tag `tag`. -/
theorem spellings_share :
    prepare id probeManifest probeFetcher true servingEngine true (fun _ => false) probeSteps =
      .ok probeImages ∧
    resolveAction probeManifest probeFetcher "/work".toList "docker://repo:Tag".toList >>=
      stepImage id probeImages (.ok ()) servingHost = .ok "repo:tag".toList ∧
    prepareImage id servingHost "docker://repo:Tag".toList "/work".toList none =
      .ok "repo:Tag".toList ∧
    imageKey "docker://repo:Tag".toList none = imageKey "docker://repo:tag".toList none :=
  ⟨prepare_probeSteps, by decide, by decide, by decide⟩

end Spellings

end GhRunner.Execution.DockerPrepare
