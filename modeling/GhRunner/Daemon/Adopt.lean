import GhRunner.Daemon.Tick

namespace GhRunner.Daemon

/-!
# Startup adoption

Rebuilding the daemon's records from the containers a previous process left behind
(`crates/daemon/src/adopt.rs`), and the reading of those containers off Docker
(`crates/daemon/src/docker/inventory.rs`).

* `lifecycleOf`, `adoptedFromInspect` — one inspected container as adoption takes it;
* `actionFor`, `resume`, `requeue`, `adopt` — as in the source;
* `BoxContainer` — a container as it is on the box, of which the listing and the inspection are
  two views;
* `adopt_reconcile_agree_iff` — when the tick after adoption leaves alone what adoption resumed.
-/

/-- Where in its lifecycle Docker reports a container, in the cases adoption distinguishes. -/
inductive ContainerLifecycle
  | created
  | running
  | finished
deriving DecidableEq, Repr

/-- One container found on the box at startup. -/
structure AdoptedContainer where
  jobId : JobId
  containerId : String
  deadlineMs : ℤ
  size : JobSize
  lifecycle : ContainerLifecycle
deriving DecidableEq, Repr

/-! ### Reading a container back -/

/-- `paused` and `restarting` count as running, an unreadable state as finished. -/
def lifecycleOf : Option DockerStatus → ContainerLifecycle
  | some .CREATED => .created
  | some .RUNNING | some .PAUSED | some .RESTARTING => .running
  | some .EXITED | some .DEAD | some .REMOVING | some .EMPTY | none => .finished

theorem lifecycleOf_eq_running_iff (status : Option DockerStatus) :
    lifecycleOf status = .running ↔
      status = some .RUNNING ∨ status = some .PAUSED ∨ status = some .RESTARTING := by
  cases status with
  | none => simp [lifecycleOf]
  | some status => cases status <;> simp [lifecycleOf]

/-- The limits `docker create` recorded. -/
structure HostConfig where
  nanoCpus : Option ℤ
  memory : Option ℤ

/-- One inspected container: the fields the daemon reads.  `config` holds the labels, `state`
    the status word. -/
structure ContainerInspectResponse where
  config : Option (Option LabelMap)
  hostConfig : Option HostConfig
  state : Option (Option DockerStatus)

/-- `none` for a container that carries none of this daemon's labels; a missing limit is zero. -/
def adoptedFromInspect (containerId : String) (inspected : ContainerInspectResponse) :
    Option AdoptedContainer :=
  match inspected.config with
  | some (some labels) =>
    match JobLabels.fromMap labels with
    | .ok labels =>
      let size : JobSize :=
        ⟨vcpuFromNanoCpus ((inspected.hostConfig.bind (·.nanoCpus)).getD 0),
          memoryMbFromBytes ((inspected.hostConfig.bind (·.memory)).getD 0)⟩
      some ⟨labels.jobId, containerId, labels.deadline, size, lifecycleOf inspected.state.join⟩
    | .error _ => none
  | _ => none

/-! ### Adoption -/

/-- What adoption decided to do with one container. -/
inductive AdoptionAction
  | resume
  | requeue
  | remove
deriving DecidableEq, Repr

/-- A job adoption brought back, with the deadline the reaper enforces for it. -/
structure ArmedJob where
  jobId : JobId
  containerId : String
  deadlineMs : ℤ
deriving DecidableEq, Repr

/-- What one adoption pass rebuilt. -/
structure Adoption where
  resumed : List ArmedJob
  requeued : List ArmedJob
  remove : List String
deriving DecidableEq, Repr

/-- The deadline is checked first and independently of the lifecycle. -/
def actionFor (container : AdoptedContainer) (nowMs : ℤ) : AdoptionAction :=
  if container.deadlineMs ≤ nowMs then .remove
  else match container.lifecycle with
    | .running => .resume
    | .created => .requeue
    | .finished => .remove

def armed (container : AdoptedContainer) : ArmedJob :=
  ⟨container.jobId, container.containerId, container.deadlineMs⟩

/-- The records adoption fills, and its report. -/
structure Adopting where
  gate : Gate
  queue : StartQueue
  created : CreatedContainers
  adoption : Adoption

/-- Seed a running container as consumed budget; the second of two claiming one job goes. -/
def resume (s : Adopting) (container : AdoptedContainer) : Adopting :=
  match s.gate.adoptRunning container.jobId container.size with
  | .ok gate =>
    { s with
      gate := gate
      created := s.created.record container.jobId container.containerId
      adoption := { s.adoption with resumed := s.adoption.resumed ++ [armed container] } }
  | .error _ =>
    { s with adoption := { s.adoption with remove := s.adoption.remove ++ [container.containerId] } }

/-- Track a never-started container and queue it; one that cannot be admitted goes. -/
def requeue (s : Adopting) (container : AdoptedContainer) : Adopting :=
  match s.gate.admitJob container.jobId container.size with
  | .ok gate =>
    { s with
      gate := gate
      created := s.created.record container.jobId container.containerId
      queue := s.queue.push container.jobId
      adoption := { s.adoption with requeued := s.adoption.requeued ++ [armed container] } }
  | .error _ =>
    { s with adoption := { s.adoption with remove := s.adoption.remove ++ [container.containerId] } }

def adoptOne (nowMs : ℤ) (s : Adopting) (container : AdoptedContainer) : Adopting :=
  match actionFor container nowMs with
  | .resume => resume s container
  | .requeue => requeue s container
  | .remove =>
    { s with adoption := { s.adoption with remove := s.adoption.remove ++ [container.containerId] } }

def adopt (gate : Gate) (queue : StartQueue) (created : CreatedContainers)
    (containers : List AdoptedContainer) (nowMs : ℤ) : Adopting :=
  containers.foldl (adoptOne nowMs) ⟨gate, queue, created, ⟨[], [], []⟩⟩

/-! ### One box, two views -/

/-- A container as it is on the box. -/
structure BoxContainer where
  id : String
  labels : LabelMap
  host : Option HostConfig
  status : Option DockerStatus

namespace BoxContainer

/-- The container as `docker ps` lists it. -/
def summary (c : BoxContainer) : ContainerSummary := ⟨some c.id, some c.labels, c.status⟩

/-- The container as `docker inspect` describes it. -/
def inspected (c : BoxContainer) : ContainerInspectResponse :=
  ⟨some (some c.labels), c.host, some c.status⟩

/-- The job a container of this daemon serves; `none` for one without our labels. -/
def job (c : BoxContainer) : Option JobLabels := (JobLabels.fromMap c.labels).toOption

end BoxContainer

/-- List, then inspect one by one, with no container disappearing in between. -/
def existingJobs (box : List BoxContainer) : List AdoptedContainer :=
  box.filterMap fun c => adoptedFromInspect c.id c.inspected

/-! ### What adoption leaves behind -/

/-- Adoption of a container whose job is not tracked yet: only a resumed one is marked running
    and reported as resumed. -/
theorem adoptOne_spec {s : Adopting} {c : AdoptedContainer} (nowMs : ℤ)
    (hnew : c.jobId ∉ s.gate.jobs) :
    (∀ j, (adoptOne nowMs s c).gate.isRunning j = true ↔
      s.gate.isRunning j = true ∨ j = c.jobId ∧ actionFor c nowMs = .resume) ∧
    (adoptOne nowMs s c).adoption.resumed =
      s.adoption.resumed ++ (if actionFor c nowMs = .resume then [armed c] else []) ∧
    (∀ j ∈ (adoptOne nowMs s c).gate.jobs, j = c.jobId ∨ j ∈ s.gate.jobs) := by
  have hidle : s.gate.isRunning c.jobId = false := by
    rw [Gate.isRunning, Finmap.lookup_eq_none.mpr hnew]
    rfl
  have hput : ∀ (running : Bool) (j : JobId),
      (s.gate.put c.jobId ⟨c.size, running⟩).isRunning j = true ↔
        s.gate.isRunning j = true ∨ j = c.jobId ∧ running = true := by
    intro running j
    by_cases hj : j = c.jobId
    · subst hj
      rw [Gate.isRunning_of_lookup (Finmap.lookup_insert _), hidle]
      simp
    · unfold Gate.isRunning
      rw [Gate.put_jobs, Finmap.lookup_insert_of_ne _ hj]
      simp [hj]
  cases haction : actionFor c nowMs with
  | resume =>
    have hok := Gate.adoptRunning_eq_ok_iff (s := c.size).mpr ⟨hnew, rfl⟩
    simp only [adoptOne, haction, resume, hok, if_true]
    exact ⟨fun j => by simp [hput], trivial, fun j hj => Finmap.mem_insert.mp hj⟩
  | requeue =>
    cases hadmit : s.gate.admitJob c.jobId c.size with
    | ok gate =>
      obtain ⟨-, -, -, rfl⟩ := Gate.admitJob_eq_ok_iff.mp hadmit
      simp only [adoptOne, haction, requeue, hadmit]
      exact ⟨fun j => by simp [hput], by simp, fun j hj => Finmap.mem_insert.mp hj⟩
    | error err =>
      simp only [adoptOne, haction, requeue, hadmit]
      exact ⟨fun j => by simp, by simp, fun j hj => .inr hj⟩
  | remove =>
    simp only [adoptOne, haction]
    exact ⟨fun j => by simp, by simp, fun j hj => .inr hj⟩

/-- Adoption of containers that claim distinct jobs: exactly the containers to resume are marked
    running, and they are reported in order. -/
theorem foldl_adoptOne_spec (nowMs : ℤ) (cs : List AdoptedContainer) (s : Adopting)
    (hids : (cs.map (·.jobId)).Nodup) (hnew : ∀ c ∈ cs, c.jobId ∉ s.gate.jobs) :
    (∀ j, (cs.foldl (adoptOne nowMs) s).gate.isRunning j = true ↔
      s.gate.isRunning j = true ∨ ∃ c ∈ cs, c.jobId = j ∧ actionFor c nowMs = .resume) ∧
    (cs.foldl (adoptOne nowMs) s).adoption.resumed =
      s.adoption.resumed ++ (cs.filter fun c => actionFor c nowMs = .resume).map armed := by
  induction cs generalizing s with
  | nil => simp
  | cons c cs ih =>
    obtain ⟨hrun, hresumed, htracked⟩ := adoptOne_spec nowMs (hnew c List.mem_cons_self)
    obtain ⟨hc, hids⟩ := List.nodup_cons.mp hids
    -- the jobs still to come are neither this one nor tracked before it
    have hrest : ∀ c' ∈ cs, c'.jobId ∉ (adoptOne nowMs s c).gate.jobs := by
      intro c' hc' hmem
      rcases htracked _ hmem with heq | hmem
      · exact hc (List.mem_map.mpr ⟨c', hc', heq⟩)
      · exact hnew c' (List.mem_cons_of_mem c hc') hmem
    obtain ⟨ihrun, ihresumed⟩ := ih (adoptOne nowMs s c) hids hrest
    rw [List.foldl_cons]
    constructor
    · intro j
      rw [ihrun, hrun]
      simp only [List.mem_cons, exists_eq_or_imp, or_assoc, eq_comm (a := j)]
    · rw [ihresumed, hresumed, List.append_assoc]
      by_cases haction : actionFor c nowMs = .resume <;> simp [haction]

/-! ### The tick after adoption -/

namespace BoxContainer

/-- The footprint behind the container's limits. -/
def size (c : BoxContainer) : JobSize :=
  ⟨vcpuFromNanoCpus ((c.host.bind (·.nanoCpus)).getD 0),
    memoryMbFromBytes ((c.host.bind (·.memory)).getD 0)⟩

theorem adopted_eq (c : BoxContainer) :
    adoptedFromInspect c.id c.inspected =
      c.job.map fun l => ⟨l.jobId, c.id, l.deadline, c.size, lifecycleOf c.status⟩ := by
  unfold adoptedFromInspect job inspected
  cases h : JobLabels.fromMap c.labels <;> simp [h, Except.toOption, size]

theorem listed_eq (c : BoxContainer) :
    containerSnapshot c.summary =
      c.job.map fun l => ⟨l.jobId, c.id, l.deadline, c.status = some .RUNNING⟩ := by
  unfold containerSnapshot job summary
  cases h : JobLabels.fromMap c.labels <;> simp [h, Except.toOption]

end BoxContainer

theorem mem_existingJobs {box : List BoxContainer} {a : AdoptedContainer} :
    a ∈ existingJobs box ↔ ∃ c ∈ box, ∃ l, c.job = some l ∧
      a = ⟨l.jobId, c.id, l.deadline, c.size, lifecycleOf c.status⟩ := by
  simp only [existingJobs, List.mem_filterMap, BoxContainer.adopted_eq, Option.map_eq_some_iff,
    eq_comm (a := a)]

theorem mem_snapshot {box : List BoxContainer} {entry : ContainerSnapshot} :
    entry ∈ snapshot (.ok (box.map (·.summary))) ↔ ∃ c ∈ box, ∃ l, c.job = some l ∧
      entry = ⟨l.jobId, c.id, l.deadline, c.status = some .RUNNING⟩ := by
  simp only [snapshot, List.filterMap_map, List.mem_filterMap, Function.comp_apply,
    BoxContainer.listed_eq, Option.map_eq_some_iff, eq_comm (a := entry)]

/-- The job ids of the containers of this daemon. -/
def jobIds (box : List BoxContainer) : List JobId := box.filterMap fun c => c.job.map (·.jobId)

theorem map_jobId_existingJobs (box : List BoxContainer) :
    (existingJobs box).map (·.jobId) = jobIds box := by
  unfold existingJobs jobIds
  rw [List.map_filterMap]
  congr 1
  funext c
  rw [BoxContainer.adopted_eq, Option.map_map]
  rfl

/-- Two containers of a box with distinct job ids that serve one job are the same. -/
theorem eq_of_jobId_eq {box : List BoxContainer} (hids : (jobIds box).Nodup)
    {c c' : BoxContainer} (hc : c ∈ box) (hc' : c' ∈ box) {l l' : JobLabels} (hl : c.job = some l)
    (hl' : c'.job = some l') (h : l.jobId = l'.jobId) : c = c' := by
  unfold jobIds at hids
  rw [List.nodup_iff_pairwise_ne, List.pairwise_filterMap] at hids
  by_contra hne
  have hsymm : Std.Symm fun a b : BoxContainer => ∀ x, a.job.map (·.jobId) = some x →
      ∀ y, b.job.map (·.jobId) = some y → x ≠ y :=
    ⟨fun a b hab y hy x hx => (hab x hx y hy).symm⟩
  exact hids.forall hc hc' hne l.jobId (by rw [hl]; rfl) l'.jobId (by rw [hl']; rfl) h

theorem actionFor_eq_resume_iff {a : AdoptedContainer} {nowMs : ℤ} :
    actionFor a nowMs = .resume ↔ nowMs < a.deadlineMs ∧ a.lifecycle = .running := by
  unfold actionFor
  by_cases hpast : a.deadlineMs ≤ nowMs
  · simp [hpast, not_lt.mpr hpast]
  · cases h : a.lifecycle <;> simp [hpast, not_le.mp hpast]

/-- Adoption marks running, and reports as resumed, the unexpired containers `lifecycleOf` calls
    running. -/
theorem adopt_box_spec (budget : JobSize) (queueMax : U32) {box : List BoxContainer} (nowMs : ℤ)
    (hids : (jobIds box).Nodup) :
    let s := adopt (Gate.new budget queueMax) .new .new (existingJobs box) nowMs
    (∀ j, s.gate.isRunning j = true ↔ ∃ c ∈ box, ∃ l, c.job = some l ∧ l.jobId = j ∧
      nowMs < l.deadline ∧ lifecycleOf c.status = .running) ∧
    (∀ a, a ∈ s.adoption.resumed ↔ ∃ c ∈ box, ∃ l, c.job = some l ∧
      nowMs < l.deadline ∧ lifecycleOf c.status = .running ∧ a = ⟨l.jobId, c.id, l.deadline⟩) := by
  obtain ⟨hrun, hresumed⟩ := foldl_adoptOne_spec nowMs (existingJobs box)
    ⟨Gate.new budget queueMax, .new, .new, ⟨[], [], []⟩⟩ (by rwa [map_jobId_existingJobs])
    (fun _ _ => Finmap.notMem_empty)
  constructor
  · intro j
    rw [adopt, hrun]
    constructor
    · rintro (h | ⟨a, ha, rfl, haction⟩)
      · cases h
      · obtain ⟨c, hc, l, hl, rfl⟩ := mem_existingJobs.mp ha
        exact ⟨c, hc, l, hl, rfl, actionFor_eq_resume_iff.mp haction⟩
    · rintro ⟨c, hc, l, hl, rfl, hlive⟩
      exact .inr ⟨_, mem_existingJobs.mpr ⟨c, hc, l, hl, rfl⟩, rfl, actionFor_eq_resume_iff.mpr hlive⟩
  · intro a
    rw [adopt, hresumed, List.nil_append, List.mem_map]
    constructor
    · rintro ⟨b, hb, rfl⟩
      obtain ⟨hb, haction⟩ := List.mem_filter.mp hb
      obtain ⟨c, hc, l, hl, rfl⟩ := mem_existingJobs.mp hb
      obtain ⟨hlive, hlife⟩ := actionFor_eq_resume_iff.mp (of_decide_eq_true haction)
      exact ⟨c, hc, l, hl, hlive, hlife, rfl⟩
    · rintro ⟨c, hc, l, hl, hlive, hlife, rfl⟩
      refine ⟨_, List.mem_filter.mpr ⟨mem_existingJobs.mpr ⟨c, hc, l, hl, rfl⟩, ?_⟩, rfl⟩
      exact decide_eq_true (actionFor_eq_resume_iff.mpr ⟨hlive, hlife⟩)

/-- The records right after adopting a box into an empty daemon. -/
def adoptedRecords (budget : JobSize) (queueMax : U32) (registry : JobRegistry)
    (box : List BoxContainer) (nowMs : ℤ) : Records :=
  let s := adopt (Gate.new budget queueMax) .new .new (existingJobs box) nowMs
  ⟨s.gate, registry, s.queue, s.created⟩

/-- The tick at `later` on the unchanged box leaves every job that adoption at `now` resumed
    tracked, and removes none of their containers. -/
def TickKeepsResumed (budget : JobSize) (queueMax : U32) (registry : JobRegistry)
    (box : List BoxContainer) (now later : ℤ) : Prop :=
  let resumed :=
    (adopt (Gate.new budget queueMax) .new .new (existingJobs box) now).adoption.resumed
  let after := reconcile (adoptedRecords budget queueMax registry box now)
    (snapshot (.ok (box.map (·.summary)))) later
  ∀ a ∈ resumed, a.jobId ∈ after.1.gate.jobs ∧ a.containerId ∉ after.2.remove

instance (budget : JobSize) (queueMax : U32) (registry : JobRegistry) (box : List BoxContainer)
    (now later : ℤ) : Decidable (TickKeepsResumed budget queueMax registry box now later) := by
  unfold TickKeepsResumed; infer_instance

/-- Adoption and the tick agree on what is alive exactly when no container of ours is paused or
    restarting: those two adoption resumes as running, and the tick reads as exited. -/
theorem adopt_reconcile_agree_iff (budget : JobSize) (queueMax : U32) (registry : JobRegistry)
    (box : List BoxContainer) (now later : ℤ) (hids : (jobIds box).Nodup) (hlater : now ≤ later)
    (hlive : ∀ c ∈ box, ∀ l, c.job = some l → later < l.deadline) :
    TickKeepsResumed budget queueMax registry box now later ↔
      ∀ c ∈ box, c.job.isSome = true →
        c.status ≠ some .PAUSED ∧ c.status ≠ some .RESTARTING := by
  obtain ⟨hrun, hresumed⟩ := adopt_box_spec budget queueMax now hids
  set r := adoptedRecords budget queueMax registry box now with hr
  have hrun : ∀ j, r.gate.isRunning j = true ↔ ∃ c ∈ box, ∃ l, c.job = some l ∧ l.jobId = j ∧
      now < l.deadline ∧ lifecycleOf c.status = .running := hrun
  constructor
  · intro hkeep c hc hjob
    obtain ⟨l, hl⟩ := Option.isSome_iff_exists.mp hjob
    by_contra hstatus
    have hlife : lifecycleOf c.status = .running ∧ c.status ≠ some .RUNNING := by
      by_cases hpaused : c.status = some .PAUSED
      · simp [hpaused, lifecycleOf]
      · by_cases hrestarting : c.status = some .RESTARTING
        · simp [hrestarting, lifecycleOf]
        · exact absurd ⟨hpaused, hrestarting⟩ hstatus
    have hnow : now < l.deadline := lt_of_le_of_lt hlater (hlive c hc l hl)
    obtain ⟨htracked, -⟩ :=
      hkeep ⟨l.jobId, c.id, l.deadline⟩ ((hresumed _).mpr ⟨c, hc, l, hl, hnow, hlife.1, rfl⟩)
    -- the tick reads the same container as exited, and its job as running
    refine ((tracked_reconcile _ _ _ _).mp htracked).2 (mem_released.mpr (.inl ?_))
    refine ⟨_, mem_snapshot.mpr ⟨c, hc, l, hl, rfl⟩, ?_, rfl⟩
    have hmem : l.jobId ∈ r.gate.runningJobIds :=
      (Gate.mem_runningJobIds _ _).mpr ((hrun _).mpr ⟨c, hc, l, hl, rfl, hnow, hlife.1⟩)
    exact decide_eq_true (.inr ⟨decide_eq_false hlife.2, hmem⟩)
  · intro hstatus
    -- no entry of the snapshot is over, so nothing is removed at all
    have hnone : ∀ entry ∈ snapshot (.ok (box.map (·.summary))),
        ¬ isOver r.gate.runningJobIds later entry = true := by
      intro entry hentry hover
      obtain ⟨c, hc, l, hl, rfl⟩ := mem_snapshot.mp hentry
      rcases of_decide_eq_true hover with hpast | ⟨hexited, hmem⟩
      · exact absurd hpast (not_le.mpr (hlive c hc l hl))
      · obtain ⟨c', hc', l', hl', hid, -, hlife⟩ := (hrun _).mp ((Gate.mem_runningJobIds _ _).mp hmem)
        obtain rfl := eq_of_jobId_eq hids hc' hc hl' hl hid
        obtain ⟨hpaused, hrestarting⟩ := hstatus c' hc' (by rw [hl']; rfl)
        have hexited : c'.status ≠ some .RUNNING := of_decide_eq_false hexited
        rcases (lifecycleOf_eq_running_iff _).mp hlife with h | h | h
        · exact hexited h
        · exact hpaused h
        · exact hrestarting h
    intro a ha
    obtain ⟨c, hc, l, hl, hnow, hlife, rfl⟩ := (hresumed a).mp ha
    have hrunning : r.gate.isRunning l.jobId = true := (hrun _).mpr ⟨c, hc, l, hl, rfl, hnow, hlife⟩
    obtain ⟨e, he, -⟩ := (Option.any_eq_true _ _).mp hrunning
    constructor
    · refine (tracked_reconcile _ _ _ _).mpr ⟨Finmap.mem_of_lookup_eq_some he, fun hrel => ?_⟩
      rcases mem_released.mp hrel with ⟨entry, hentry, hover, -⟩ | ⟨-, hunseen⟩
      · exact hnone entry hentry hover
      · exact hunseen _ (mem_snapshot.mpr ⟨c, hc, l, hl, rfl⟩) rfl
    · rw [reconcile_eq]
      intro hremoved
      obtain ⟨entry, hentry, -⟩ := List.mem_map.mp hremoved
      obtain ⟨hentry, hover⟩ := List.mem_filter.mp hentry
      exact hnone entry hentry hover

/-- A job container with the given status, in the words of the labels. -/
def sampleContainer (status : DockerStatus) : BoxContainer where
  id := "c1"
  labels := (Finmap.insert LABEL_JOB_ID "j1" ∅).insert LABEL_DEADLINE "100"
  host := some ⟨some 2000000000, some 4294967296⟩
  status := some status

theorem adopt_reconcile_agree_running :
    TickKeepsResumed ⟨4, 8192⟩ 10 .new [sampleContainer .RUNNING] 1 2 :=
  (adopt_reconcile_agree_iff ⟨4, 8192⟩ 10 .new [sampleContainer .RUNNING] 1 2 (by decide) (by decide)
    (by decide)).mpr (by decide)

/-- A paused container: adoption resumes its job, and the next tick kills it. -/
theorem paused_container_resumed_then_removed :
    let box := [sampleContainer .PAUSED]
    let after := reconcile (adoptedRecords ⟨4, 8192⟩ 10 .new box 1)
      (snapshot (.ok (box.map (·.summary)))) 2
    (adopt (Gate.new ⟨4, 8192⟩ 10) .new .new (existingJobs box) 1).adoption.resumed =
        [⟨"j1", "c1", 100⟩] ∧
      after.1.gate.tracks "j1" = false ∧ after.2.remove = ["c1"] ∧
      ¬ TickKeepsResumed ⟨4, 8192⟩ 10 .new box 1 2 := by
  decide

end GhRunner.Daemon
