import GhRunner.Daemon.Registry
import GhRunner.Daemon.GateAccounting

namespace GhRunner.Daemon

/-!
# The reaper and scheduler

The pure decision of one reconciliation tick (`crates/daemon/src/reaper.rs`): release what
exited or outlived its deadline, then start what fits.

* `StartQueue`, `CreatedContainers` — the waiting order and the recorded container ids;
* `Records` — the four records the daemon keeps, as `reconcile` takes them;
* `promote`, `releaseJob`, `reconcile` — as in the source, with `TickOutcome` as the answer.
-/

/-- Admitted jobs whose containers exist but have not started, in arrival order. -/
structure StartQueue where
  waiting : List JobId
deriving DecidableEq, Repr

namespace StartQueue

def new : StartQueue := ⟨[]⟩

def push (q : StartQueue) (jobId : JobId) : StartQueue := ⟨q.waiting ++ [jobId]⟩

def remove (q : StartQueue) (jobId : JobId) : StartQueue :=
  ⟨q.waiting.filter fun queued => queued ≠ jobId⟩

end StartQueue

/-- The container id recorded for each job whose `docker create` has finished. -/
structure CreatedContainers where
  recorded : Finmap fun _ : JobId => String
deriving DecidableEq

namespace CreatedContainers

def new : CreatedContainers := ⟨∅⟩

def record (c : CreatedContainers) (jobId : JobId) (containerId : String) : CreatedContainers :=
  ⟨c.recorded.insert jobId containerId⟩

def existing (c : CreatedContainers) (jobId : JobId) : Option String := c.recorded.lookup jobId

def forget (c : CreatedContainers) (jobId : JobId) : CreatedContainers := ⟨c.recorded.erase jobId⟩

theorem existing_record (c : CreatedContainers) (j k : JobId) (cid : String) :
    (c.record j cid).existing k = if k = j then some cid else c.existing k := by
  unfold existing record
  by_cases hk : k = j
  · rw [if_pos hk, hk, Finmap.lookup_insert]
  · rw [if_neg hk, Finmap.lookup_insert_of_ne _ hk]

theorem existing_forget (c : CreatedContainers) (j k : JobId) :
    (c.forget j).existing k = if k = j then none else c.existing k := by
  unfold existing forget
  by_cases hk : k = j
  · rw [if_pos hk, hk, Finmap.lookup_erase]
  · rw [if_neg hk, Finmap.lookup_erase_ne hk]

end CreatedContainers

/-- One container as read back from Docker at the start of a tick.  The deadline is an `i64`
    that is only compared. -/
structure ContainerSnapshot where
  jobId : JobId
  containerId : String
  deadlineMs : ℤ
  running : Bool
deriving DecidableEq, Repr

/-- One promoted container, and the job it serves. -/
structure StartRequest where
  jobId : JobId
  containerId : String
deriving DecidableEq, Repr

/-- What one tick decided. -/
structure TickOutcome where
  remove : List String
  start : List StartRequest
deriving DecidableEq, Repr

/-- The four records of the daemon, in lock order. -/
structure Records where
  gate : Gate
  registry : JobRegistry
  queue : StartQueue
  created : CreatedContainers
deriving DecidableEq

/-- One step of `promote`: offer the job to the gate; a started one leaves the queue. -/
def promoteOne (acc : Gate × StartQueue × List JobId) (jobId : JobId) :
    Gate × StartQueue × List JobId :=
  match acc with
  | (gate, queue, started) =>
    match gate.tryStart jobId with
    | (some .started, gate) => (gate, queue.remove jobId, started ++ [jobId])
    | (_, gate) => (gate, queue, started)

def promote (gate : Gate) (queue : StartQueue) : Gate × StartQueue × List JobId :=
  queue.waiting.foldl promoteOne (gate, queue, [])

/-- Drop every trace of a job: budget, tombstone, queue place, recorded container.  The footprint
    the source returns as well is `gate.release`'s answer; no caller reads it. -/
def Records.releaseJob (r : Records) (jobId : JobId) : Records where
  gate := (r.gate.release jobId).2
  registry := r.registry.forget jobId
  created := r.created.forget jobId
  queue := r.queue.remove jobId

/-- One snapshot entry of the first pass: past its deadline, or exited on its own. -/
def reconcileEntry (runningBefore : Finset JobId) (nowMs : ℤ) (acc : Records × List String)
    (entry : ContainerSnapshot) : Records × List String :=
  let deadlinePassed := entry.deadlineMs ≤ nowMs
  let exitedOnItsOwn := entry.running = false ∧ entry.jobId ∈ runningBefore
  if deadlinePassed ∨ exitedOnItsOwn then
    (acc.1.releaseJob entry.jobId, acc.2 ++ [entry.containerId])
  else acc

theorem Records.releaseJob_comm (r : Records) (j k : JobId) :
    (r.releaseJob j).releaseJob k = (r.releaseJob k).releaseJob j := by
  simp only [releaseJob, Gate.release, JobRegistry.forget, CreatedContainers.forget,
    StartQueue.remove, Finmap.erase_erase, List.filter_filter, Bool.and_comm]

instance : RightCommutative Records.releaseJob := ⟨Records.releaseJob_comm⟩

/-- Drop every trace of a collection of jobs, in any order. -/
def Records.releaseMany (r : Records) (js : Multiset JobId) : Records :=
  js.foldl Records.releaseJob r

/-- The second pass walks a `HashSet`; the order does not matter (`releaseJob_comm`). -/
def reconcile (r : Records) (snapshot : List ContainerSnapshot) (nowMs : ℤ) :
    Records × TickOutcome :=
  let runningBefore := r.gate.runningJobIds
  let (r, remove) := snapshot.foldl (reconcileEntry runningBefore nowMs) (r, [])
  let seen := (snapshot.map (·.jobId)).toFinset
  let r := r.releaseMany (runningBefore.filter fun j => j ∉ seen).val
  let (gate, queue, promoted) := promote r.gate r.queue
  let start := promoted.filterMap fun jobId =>
    (r.created.existing jobId).map fun containerId => ⟨jobId, containerId⟩
  ({ r with gate := gate, queue := queue }, ⟨remove, start⟩)

end GhRunner.Daemon
