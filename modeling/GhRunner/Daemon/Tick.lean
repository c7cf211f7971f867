import GhRunner.Daemon.Labels
import GhRunner.Daemon.Reconcile

namespace GhRunner.Daemon

/-!
# One tick against Docker

The Docker half of a reconciliation tick (`crates/daemon/src/docker.rs`): list, decide, act.
Docker itself is what it answers: the listing, and one answer per `docker start`.

* `containerSnapshot`, `snapshot` — the listing as the reaper sees it;
* `requeueAfterFailedStart`, `startPromoted` — what a failed start puts back;
* `tick` — the whole tick, with the calls it issues;
* `DecidesNothing` — what a tick is to be that could not list, and when it is.
-/

/-- Docker's own status words; the listing and the inspection use the same ones. -/
inductive DockerStatus
  | EMPTY
  | CREATED
  | RUNNING
  | PAUSED
  | RESTARTING
  | EXITED
  | REMOVING
  | DEAD
deriving DecidableEq, Repr

/-- One listed container: the fields the daemon reads. -/
structure ContainerSummary where
  id : Option String
  labels : Option LabelMap
  state : Option DockerStatus

/-- A bollard error, by the words it logs. -/
abbrev DockerError := String

/-- Skips anything missing an id, our labels or a readable deadline. -/
def containerSnapshot (container : ContainerSummary) : Option ContainerSnapshot :=
  match container.id, container.labels with
  | some containerId, some labels =>
    match JobLabels.fromMap labels with
    | .ok parsed =>
      some ⟨parsed.jobId, containerId, parsed.deadline, container.state = some .RUNNING⟩
    | .error _ => none
  | _, _ => none

/-- A listing failure is read as no containers. -/
def snapshot (listing : Except DockerError (List ContainerSummary)) : List ContainerSnapshot :=
  match listing with
  | .ok containers => containers.filterMap containerSnapshot
  | .error _ => []

/-- How Docker answers one `docker start`. -/
inductive StartAnswer
  | ok
  | noSuchContainer
  | transient
deriving DecidableEq, Repr

/-- Undo the gate claim of a failed start and put the job back at the end of the queue, unless
    the gate no longer tracks it. -/
def requeueAfterFailedStart (r : Records) (jobId : JobId) : Records :=
  match r.gate.unstart jobId with
  | (true, gate) => { r with gate := gate, queue := r.queue.push jobId }
  | (false, gate) => { r with gate := gate }

/-- What one answered start request leaves behind. -/
def afterStart (r : Records) (request : StartRequest) : StartAnswer → Records
  | .ok => r
  | .transient => requeueAfterFailedStart r request.jobId
  | .noSuchContainer => r.releaseJob request.jobId

/-- The promoted requests in order, the `i`-th answered by `answers i`. -/
def startPromoted (answers : ℕ → StartAnswer) (r : Records) (requests : List StartRequest) :
    Records :=
  requests.zipIdx.foldl (fun r request => afterStart r request.1 (answers request.2)) r

/-- A call the tick issues to Docker after the listing. -/
inductive DockerCall
  | removeContainer (containerId : String)
  | startContainer (containerId : String)
deriving DecidableEq, Repr

/-- What Docker answers during one tick.  Removals are best effort: nothing reads their answer. -/
structure DockerAnswers where
  listing : Except DockerError (List ContainerSummary)
  starts : ℕ → StartAnswer

def tick (docker : DockerAnswers) (r : Records) (nowMs : ℤ) : Records × List DockerCall :=
  let snapshot := snapshot docker.listing
  let (r, outcome) := reconcile r snapshot nowMs
  (startPromoted docker.starts r outcome.start,
    outcome.remove.map .removeContainer ++
      outcome.start.map fun request => .startContainer request.containerId)

/-! ### A tick whose listing failed -/

/-- The tick releases no budget, starts and re-queues no job, and calls Docker for nothing more. -/
def DecidesNothing (docker : DockerAnswers) (r : Records) (nowMs : ℤ) : Prop :=
  (tick docker r nowMs).1.gate = r.gate ∧ (tick docker r nowMs).1.queue = r.queue ∧
    (tick docker r nowMs).2 = []

instance (docker : DockerAnswers) (r : Records) (nowMs : ℤ) :
    Decidable (DecidesNothing docker r nowMs) := by
  unfold DecidesNothing; infer_instance

/-- Off an empty snapshot a tick releases every running job. -/
theorem released_nil (r : Records) (nowMs : ℤ) : released r [] nowMs = r.gate.runningJobIds.val := by
  simp [released]

private theorem tick_error (err : DockerError) (starts : ℕ → StartAnswer) (r : Records) (nowMs : ℤ) :
    tick ⟨.error err, starts⟩ r nowMs =
      (startPromoted starts (reconcile r [] nowMs).1 (reconcile r [] nowMs).2.start,
        (reconcile r [] nowMs).2.remove.map .removeContainer ++
          (reconcile r [] nowMs).2.start.map fun request => .startContainer request.containerId) :=
  rfl

private theorem gate_reconcile_nil (r : Records) (nowMs : ℤ) :
    (reconcile r [] nowMs).1.gate =
      (promote (r.releaseMany r.gate.runningJobIds.val).gate
        (r.releaseMany r.gate.runningJobIds.val).queue).1 := by
  rw [reconcile_eq, released_nil]

/-- Off an empty snapshot a job that ran is released, and promotion does not bring it back. -/
theorem idle_of_gate_reconcile_nil {r : Records} {nowMs : ℤ}
    (h : (reconcile r [] nowMs).1.gate = r.gate) : r.gate.runningJobIds = ∅ := by
  apply Finset.eq_empty_of_forall_notMem
  intro j hj
  have hrun := (Gate.mem_runningJobIds _ _).mp hj
  have hlook := (promote_spec (r.releaseMany r.gate.runningJobIds.val).gate
    (r.releaseMany r.gate.runningJobIds.val).queue).lookup j
  rw [← gate_reconcile_nil r nowMs, h, Records.lookup_releaseMany, if_pos (Finset.mem_val.mpr hj),
    Option.map_none, ite_self] at hlook
  rw [Gate.isRunning, hlook] at hrun
  cases hrun

/-- With nothing running, a promotion shows in the gate. -/
theorem started_eq_nil_of_gate_eq {gate : Gate} {queue : StartQueue} (hidle : gate.runningJobIds = ∅)
    (h : (promote gate queue).1 = gate) : (promote gate queue).2.2 = [] := by
  have hspec := promote_spec gate queue
  apply List.eq_nil_iff_forall_not_mem.mpr
  intro k hk
  obtain ⟨e, he⟩ := Finmap.mem_iff.mp (hspec.tracked k hk)
  have hlook := hspec.lookup k
  rw [if_pos hk, h, he, Option.map_some] at hlook
  have hrun : e.running = true := congrArg Entry.running (Option.some.inj hlook)
  rw [Gate.notRunning_of_idle hidle he] at hrun
  cases hrun

theorem reconcile_nil_of_idle {r : Records} {nowMs : ℤ} (hidle : r.gate.runningJobIds = ∅)
    (hstarted : (promote r.gate r.queue).2.2 = []) : reconcile r [] nowMs = (r, ⟨[], []⟩) := by
  have hzero : r.releaseMany (released r [] nowMs) = r := by
    rw [released_nil, hidle, Finset.empty_val, Records.releaseMany_zero]
  rw [reconcile_eq]
  simp only [hzero, promote_eq_of_idle hstarted]
  rfl

/-- A failed listing is read as an empty one, so the tick decides nothing exactly when an empty
    box would leave nothing to decide: no job is marked running, and no waiting job that is
    tracked fits the whole budget. -/
theorem failed_listing_decides_nothing_iff (err : DockerError) (starts : ℕ → StartAnswer)
    (r : Records) (nowMs : ℤ) :
    DecidesNothing ⟨.error err, starts⟩ r nowMs ↔
      r.gate.runningJobIds = ∅ ∧
      ∀ j ∈ r.queue.waiting, ∀ e, r.gate.jobs.lookup j = some e →
        ¬ e.size.fitsWithin r.gate.budget := by
  constructor
  · rintro ⟨hgate, -, hcalls⟩
    rw [tick_error] at hgate hcalls
    obtain ⟨-, hstart⟩ := List.append_eq_nil_iff.mp hcalls
    -- no start call, so the gate the tick leaves is the one `reconcile` left
    rw [List.map_eq_nil_iff.mp hstart] at hgate
    have hgate : (reconcile r [] nowMs).1.gate = r.gate := hgate
    have hidle : r.gate.runningJobIds = ∅ := idle_of_gate_reconcile_nil hgate
    have hpromote : (promote r.gate r.queue).1 = r.gate := by
      have hrec := gate_reconcile_nil r nowMs
      rw [hidle, Finset.empty_val, Records.releaseMany_zero] at hrec
      exact hrec.symm.trans hgate
    refine ⟨hidle, fun j hj e he hfit => ?_⟩
    have hstarted := started_eq_nil_of_gate_eq hidle hpromote
    exact (promote_idle_iff _ _).mp hstarted j hj
      ((Gate.tryStart_started_iff_of_idle hidle j).mpr ⟨e, he, hfit⟩)
  · rintro ⟨hidle, hbig⟩
    have hstarted : (promote r.gate r.queue).2.2 = [] := by
      apply (promote_idle_iff _ _).mpr
      intro j hj hstart
      obtain ⟨e, he, hfit⟩ := (Gate.tryStart_started_iff_of_idle hidle j).mp hstart
      exact hbig j hj e he hfit
    have htick : tick ⟨.error err, starts⟩ r nowMs = (r, []) := by
      rw [tick_error, reconcile_nil_of_idle hidle hstarted]
      rfl
    exact ⟨by rw [htick], by rw [htick], by rw [htick]⟩

/-- A box with one running and one waiting job: the failed listing gives the running job's budget
    away and starts the waiting one on top of it. -/
theorem failed_listing_starts_over_running :
    let gate : Gate := ⟨⟨4, 8192⟩, 10, (Finmap.insert "a" ⟨⟨4, 8192⟩, true⟩ ∅).insert "b"
      ⟨⟨4, 8192⟩, false⟩⟩
    let r : Records := ⟨gate, .new, ⟨["b"]⟩, (CreatedContainers.new.record "a" "ca").record "b" "cb"⟩
    let docker : DockerAnswers := ⟨.error "connection refused", fun _ => .ok⟩
    (tick docker r 0).1.gate.tracks "a" = false ∧
      (tick docker r 0).2 = [.startContainer "cb"] ∧ ¬ DecidesNothing docker r 0 := by
  decide

end GhRunner.Daemon
