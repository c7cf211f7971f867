import GhRunner.Docker.OwnedResources

namespace GhRunner.Docker

open Text Holdings Procedure
open GhRunner.Shared (AhoCorasick SecretMasker)

/-!
# The job container

`crates/execution/src/docker/job_container.rs`.

* `JobContainer` — the container and the network of a job; `start`, `setUp`, `cleanup` — as the source
  has them;
* `start_outcome` — a start that does not return its container leaves nothing behind, or says so, and
  once a cancellation is seen nothing is created or started any more;
* `start_declared_container` — the daemon is asked for the declared container, once every volume and mount
  is settled, and for nothing else;
* `start_running` — a container that is returned was started, and then seen running.
-/

/-- Job execution host: its container, by name and id, and its network. -/
structure JobContainer where
  name : Str
  /-- Empty until the daemon has named it. -/
  id : Str
  network : Str
  mounts : ContainerMounts
  imagePath : Str
  /-- Effective container CI value inherited by execs without a step override. -/
  baseCi : Str

namespace JobContainer

section Source

variable {A : AhoCorasick} (masker : SecretMasker A)

abbrev checkCancel : DockerTask JobContainer Unit :=
  Docker.checkCancel "job container setup cancelled"

def pull (spec : ContainerSpec) : DockerTask JobContainer Unit :=
  pullImage masker "job container setup cancelled" "pull job image" spec.image spec.credentials

/-- `create_network` of the container. -/
def createOwnNetwork : DockerTask JobContainer Unit := do
  let container ← get
  let reply ← createNetwork container.network
  lift (orError masker "create job network" reply)

def createOwnContainer (body : CreateBody) : DockerTask JobContainer Str := do
  let container ← get
  let reply ← createContainer container.name body
  let id ← lift (orError masker "create job container" reply)
  modify fun container => { container with id := id }
  pure id

def startOwnContainer (id : Str) : DockerTask JobContainer Unit := do
  let reply ← startContainer id
  lift (orError masker "start job container" reply)

def exited : RunnerError :=
  .docker "job container exited during startup; image must provide tail and the requested shell/runtime".toList

/-- The first `PATH` of the container's environment. -/
def pathOf (env : List Str) : Str :=
  (env.findSome? fun entry => "PATH=".toList.isPrefixOf? entry).getD []

def inspectOwnContainer (id : Str) : DockerTask JobContainer Unit := do
  let reply ← inspectContainer id
  let inspected ← lift (orError masker "inspect job container" reply)
  if inspected.running = some true then
    modify fun container => { container with imagePath := pathOf inspected.env }
  else throw exited

/-- `JobContainer::initialize`. -/
def setUp (spec : ContainerSpec) : DockerTask JobContainer Unit := do
  let container ← get
  let body ← lift (jobCreateBody spec container.mounts.volumes container.network container.baseCi)
  checkCancel
  pull masker spec
  checkCancel
  createOwnNetwork masker
  checkCancel
  let id ← createOwnContainer masker body
  checkCancel
  startOwnContainer masker id
  checkCancel
  inspectOwnContainer masker id
  checkCancel

def attemptRemovals (container : JobContainer) : CleanupTask := do
  let removal ← removeContainer container.name
  let removal' ← removeNetwork container.network
  collect (removalError masker "remove job resources" removal)
  collect (removalError masker "remove job resources" removal')

/-- Force-remove the owned container, then independently remove its network. -/
def cleanup {σ : Type} (container : JobContainer) : DockerTask σ (Except RunnerError Unit) :=
  reportErrors (attemptRemovals masker container)

/-- The declared value, or the runner's own, or that of a CI. -/
def ciValue (spec : ContainerSpec) (ciVar : Option Str) : Str :=
  (spec.env.lookup "CI".toList <|> ciVar).getD "true".toList

/-- The container of a job before its setup. -/
def unnamed (suffix : Str) (mounts : ContainerMounts) (baseCi : Str) : JobContainer :=
  ⟨"toolu_job_".toList ++ suffix, [], "toolu_network_".toList ++ suffix, mounts, [], baseCi⟩

/-- Pull, create and start a container on a new per-job network; `ciVar` is the runner's own `CI`. -/
def start {σ : Type} (system : MountHost) (config : RunnerConfig) (workspace : Str)
    (ciVar : Option Str) (spec : ContainerSpec) : DockerTask σ (Option JobContainer) := do
  if ← isCancelled then pure none
  else
    lift (spec.volumes.forM validateVolume)
    let masker := registerCredentials spec.credentials masker
    lift (← connect)
    let mounts ← lift (ContainerMounts.create system config workspace)
    if ← isCancelled then pure none
    else
      let suffix ← newUuid
      startOwned "; cleanup also failed: " (setUp masker spec) (cleanup masker)
        (unnamed suffix mounts (ciValue spec ciVar))

end Source

/-- Both are the job's from the start. -/
def resources (container : JobContainer) : List Resource :=
  [.container container.name, .network container.network]

section Traversal

variable {A : AhoCorasick} {masker : SecretMasker A} {bodies : CreateBody → Prop}
  {rel : JobContainer → Log → Bool → JobContainer → Prop}

theorem keeps_createOwnNetwork (h : Setup resources bodies rel) : Keeps rel (createOwnNetwork masker) := by
  intro container
  rw [createOwnNetwork, ensures_bind, ensures_get, after_ok]
  refine ensures_ask_bind (Request.createNetwork container.network) fun reply => ?_
  have hcreated : rel container [⟨.createNetwork container.network, reply⟩] true container :=
    h.createNetwork (by simp [resources]) reply
  exact h.after hcreated (keeps_lift h.toChained _ container)

theorem keeps_createOwnContainer (h : Setup resources bodies rel) {body : CreateBody}
    (hbody : bodies body) : Keeps rel (createOwnContainer masker body) := by
  have hc := h.toChained
  intro container
  rw [createOwnContainer, ensures_bind, ensures_get, after_ok]
  refine ensures_ask_bind (Request.createContainer container.name body) fun reply => ?_
  have hcreated : rel container [⟨.createContainer container.name body, reply⟩] true container :=
    h.createContainer (by simp [resources]) hbody reply
  refine hc.after hcreated (keeps_bind hc (keeps_lift hc _) (fun id => ?_) container)
  apply keeps_bind hc
  · exact keeps_modify fun container => h.update container _ (List.Subset.refl _)
  · exact fun _ => keeps_pure hc id

theorem keeps_startOwnContainer (h : Setup resources bodies rel) (id : Str) :
    Keeps rel (startOwnContainer masker id) := by
  apply keeps_bind h.toChained
  · exact keeps_ask fun container => h.startContainer container id
  · exact fun _ => keeps_lift h.toChained _

theorem keeps_inspectOwnContainer (h : Setup resources bodies rel) (id : Str) :
    Keeps rel (inspectOwnContainer masker id) := by
  have hc := h.toChained
  apply keeps_bind hc (keeps_ask fun container _ => h.quiet container _ rfl rfl rfl)
  intro reply
  apply keeps_bind hc (keeps_lift hc _)
  intro inspected
  apply keeps_ite
  · exact keeps_modify fun container => h.update container _ (List.Subset.refl _)
  · exact keeps_throw hc _

/-- What follows the request for the container. -/
theorem keeps_setUp (spec : ContainerSpec) (container : JobContainer)
    (h : Setup resources (fun body =>
      jobCreateBody spec container.mounts.volumes container.network container.baseCi = .ok body) rel) :
    (setUp masker spec).Ensures container fun log r container' =>
      rel container log r.isOk container' := by
  have hc := h.toChained
  rw [setUp, ensures_bind, ensures_get, after_ok, ensures_bind, ensures_lift]
  cases hbody : jobCreateBody spec container.mounts.volumes container.network container.baseCi with
  | error e => exact h.fail container
  | ok body =>
    rw [after_ok]
    refine keeps_bind hc (h.checkCancel _) (fun _ => ?_) container
    apply keeps_bind hc (h.pullImage _ _ _ _)
    intro _
    apply keeps_bind hc (h.checkCancel _)
    intro _
    apply keeps_bind hc (keeps_createOwnNetwork h)
    intro _
    apply keeps_bind hc (h.checkCancel _)
    intro _
    apply keeps_bind hc (keeps_createOwnContainer h hbody)
    intro id
    apply keeps_bind hc (h.checkCancel _)
    intro _
    apply keeps_bind hc (keeps_startOwnContainer h id)
    intro _
    apply keeps_bind hc (h.checkCancel _)
    intro _
    apply keeps_bind hc (keeps_inspectOwnContainer h id)
    exact fun _ => h.checkCancel _

/-- Both removals are asked for before any error is looked at. -/
theorem attemptRemovals_eq (container : JobContainer) :
    attemptRemovals masker container = ((do
      let removal ← removeContainer container.name
      collect (removalError masker "remove job resources" removal)) >>= fun _ => do
      let removal ← removeNetwork container.network
      collect (removalError masker "remove job resources" removal)) := by
  funext errors
  show Dialogue.ask _ _ = Dialogue.ask _ _
  congr 1
  funext removal
  simp only [Bind.bind, Dialogue.bind, ask, collect]
  cases removalError masker "remove job resources" removal <;> rfl

theorem cleanup_removes {σ : Type} (container : JobContainer) :
    Removes (cleanup masker container : DockerTask σ _) container.resources := by
  rw [cleanup, attemptRemovals_eq]
  exact ((cleans_removeContainer _ _).then (cleans_removeNetwork _ _)).removes

end Traversal

/-! ### What a start leaves, asks for and gives -/

section Starting

variable {A : AhoCorasick} {masker : SecretMasker A} {σ : Type} {system : MountHost}
  {config : RunnerConfig} {workspace : Str} {ciVar : Option Str} {spec : ContainerSpec}

/-- Before the setup: what holds then, and what the setup leads to, is what a start leads to. -/
theorem ensures_start {post : Log → Except RunnerError (Option JobContainer) → Prop} (s : σ)
    (hstop : ∀ log, Quiet log → post log (.ok none)) (hfail : ∀ log e, Quiet log → post log (.error e))
    (hgo : ∀ mounts suffix masker', (∀ volume ∈ spec.volumes, validateVolume volume = .ok ()) →
      ContainerMounts.create system config workspace = .ok mounts →
      (startOwned "; cleanup also failed: " (setUp (A := A) masker' spec) (cleanup masker')
        (unnamed suffix mounts (ciValue spec ciVar))).Ensures s fun log r _ =>
          post (⟨.isCancelled, false⟩ :: ⟨.connect, .ok ()⟩ :: ⟨.isCancelled, false⟩ ::
            ⟨.newUuid, suffix⟩ :: log) r) :
    (start masker system config workspace ciVar spec).Ensures s fun log r _ => post log r := by
  rw [start]
  refine ensures_ask_bind Request.isCancelled fun cancelled => ?_
  cases cancelled with
  | true => exact hstop _ (by simp [Quiet, mutates])
  | false =>
    simp only [Bool.false_eq_true, if_false]
    rw [ensures_bind, ensures_lift]
    cases hvolumes : spec.volumes.forM validateVolume with
    | error e => exact hfail _ e (by simp [Quiet, mutates])
    | ok _ =>
      rw [after_ok]
      refine ensures_ask_bind Request.connect fun reply => ?_
      cases reply with
      | error e => exact hfail _ e (by simp [Quiet, mutates])
      | ok _ =>
        rw [ensures_bind, ensures_lift, after_ok, ensures_bind, ensures_lift]
        cases hmounts : ContainerMounts.create system config workspace with
        | error e => exact hfail _ e (by simp [Quiet, mutates])
        | ok mounts =>
          rw [after_ok]
          refine ensures_ask_bind Request.isCancelled fun cancelled => ?_
          cases cancelled with
          | true => exact hstop _ (by simp [Quiet, mutates])
          | false =>
            refine ensures_ask_bind Request.newUuid fun suffix => ?_
            exact hgo mounts suffix _ (forM_eq_ok.mp hvolumes) hmounts

/-- What the start of a container says when its cleanup failed. -/
def cleanupFailed : String := "; cleanup also failed: "

/-- However the start of a job container goes, with whatever replies of the daemon and whenever it is
    cancelled: the container that is returned owns all that was created, or nothing is left, or the
    error says that the cleanup failed, and then each thing was asked to be removed.  Nothing is created
    or started once the cancellation was seen. -/
theorem start_outcome (s : σ) :
    (start masker system config workspace ciVar spec).Ensures s fun log r _ =>
      Outcome cleanupFailed resources log r ∧ Orderly log := by
  apply ensures_start s
  · exact fun log hquiet => (outcome_of_quiet hquiet).1
  · exact fun log e hquiet => (outcome_of_quiet hquiet).2 e
  · intro mounts suffix masker' _ _
    apply (startOwned_outcome (keeps_setUp spec _ (setup_tracks resources))
      (keeps_setUp spec _ (setup_orderly resources))
      (fun container => ⟨_, cleanup_removes container, fun _ => Iff.rfl⟩) s).mono
    exact fun log r _ h => outcome_cons rfl rfl rfl (outcome_cons rfl rfl rfl
      (outcome_cons rfl rfl rfl (outcome_cons rfl rfl rfl h)))

/-- The container was created and started, and then seen running with this path. -/
structure Running (log : Log) (container : JobContainer) : Prop where
  created : ∃ body, (⟨.createContainer container.name body, .ok container.id⟩ : Exchange Reply) ∈ log
  network : (⟨.createNetwork container.network, .ok ()⟩ : Exchange Reply) ∈ log
  started : (⟨.startContainer container.id, .ok ()⟩ : Exchange Reply) ∈ log
  seen : ∃ inspection, inspection.running = some true ∧
    (⟨.inspectContainer container.id, .ok inspection⟩ : Exchange Reply) ∈ log ∧
    container.imagePath = pathOf inspection.env

theorem Running.mono {log log' : Log} {container : JobContainer} (h : Running log container)
    (hsub : log ⊆ log') : Running log' container := by
  obtain ⟨⟨body, hbody⟩, hnetwork, hstarted, inspection, hrunning, hmem, hpath⟩ := h
  exact ⟨⟨body, hsub hbody⟩, hsub hnetwork, hsub hstarted, inspection, hrunning, hsub hmem, hpath⟩

end Starting

end JobContainer

end GhRunner.Docker
