import GhRunner.Daemon.System
import GhRunner.Daemon.Adopt

namespace GhRunner.Daemon

open Machine

/-!
# The four records stay consistent

Gate, registry, start queue and created map are updated by five paths that take their locks one
at a time.  What holds of them at rest is kept by every interleaving whose steps meet `StepOk`.

* `Consistent` — what the records are to satisfy when nothing is in flight;
* `JobOk` — the invariant, one job at a time: what is missing from `Consistent` while a request
  or the tick stands between two of its sections;
* `StepOk` — a step does not act, on behalf of an earlier life of a job, on the job as it was
  admitted anew;
* `quiescent_consistent` — the run theorem;
* `redelivery_during_destroy_strands_job` — a run without `StepOk` that strands a job.
-/

/-! ### What the records are to satisfy -/

namespace Records

def recorded (r : Records) (j : JobId) : Bool := (r.created.existing j).isSome

/-- Every waiting job waits once, is tracked, not running and recorded; every record and every
    claim belongs to a tracked job; every tracked job that is not running waits. -/
structure Consistent (r : Records) : Prop where
  nodup : r.queue.waiting.Nodup
  waiting : ∀ j ∈ r.queue.waiting,
    j ∈ r.gate.jobs ∧ r.gate.isRunning j = false ∧ r.recorded j = true
  recorded : ∀ j, r.recorded j = true → j ∈ r.gate.jobs
  queued : ∀ j ∈ r.gate.jobs, r.gate.isRunning j = false → j ∈ r.queue.waiting
  noClaim : ∀ j, r.registry.state j ≠ some .creating
  claim : ∀ j c, r.registry.state j = some (.created c) → j ∈ r.gate.jobs

end Records

theorem Records.fresh_consistent (budget : JobSize) (queueMax : U32) :
    (Records.fresh budget queueMax).Consistent where
  nodup := List.nodup_nil
  waiting j hj := by cases hj
  recorded j hj := by cases hj
  queued j hj := absurd hj Finmap.notMem_empty
  noClaim j hj := by cases hj
  claim j c hj := by cases hj

/-- Tracking a new job with its container: as running, or as waiting with a place in the queue. -/
theorem Records.Consistent.track {r : Records} (h : r.Consistent) {j : JobId}
    (hnew : j ∉ r.gate.jobs) (size : JobSize) (running : Bool) (cid : String) :
    Records.Consistent ⟨r.gate.put j ⟨size, running⟩, r.registry,
      if running then r.queue else r.queue.push j, r.created.record j cid⟩ := by
  have hfresh : j ∉ r.queue.waiting := fun hw => hnew (h.waiting j hw).1
  have hmem : ∀ k, k ∈ (r.gate.put j ⟨size, running⟩).jobs ↔ k = j ∨ k ∈ r.gate.jobs :=
    fun k => Finmap.mem_insert
  have hwaiting : ∀ k, k ∈ (if running then r.queue else r.queue.push j).waiting ↔
      k ∈ r.queue.waiting ∨ k = j ∧ running = false := by
    intro k
    cases running <;> simp [StartQueue.push]
  have hrun : ∀ k, (r.gate.put j ⟨size, running⟩).isRunning k =
      if k = j then running else r.gate.isRunning k := by
    intro k
    by_cases hk : k = j
    · rw [if_pos hk, hk, Gate.isRunning_of_lookup (Finmap.lookup_insert _)]
    · rw [if_neg hk, Gate.isRunning, Gate.put_jobs, Finmap.lookup_insert_of_ne _ hk, Gate.isRunning]
  have hrecorded : ∀ (g : Gate) (q : StartQueue) (k : JobId),
      (⟨g, r.registry, q, r.created.record j cid⟩ : Records).recorded k =
        if k = j then true else r.recorded k := by
    intro g q k
    rw [Records.recorded, Records.recorded, CreatedContainers.existing_record]
    by_cases hk : k = j <;> simp [hk]
  refine ⟨?_, fun k hk => ?_, fun k hk => ?_, fun k hk hi => ?_, h.noClaim, fun k c hc => ?_⟩
  · cases running with
    | true => exact h.nodup
    | false =>
      refine List.nodup_append.mpr ⟨h.nodup, List.nodup_singleton j, ?_⟩
      rintro a ha b hb rfl
      exact hfresh (List.mem_singleton.mp hb ▸ ha)
  · rw [hmem, hrun, hrecorded]
    rcases (hwaiting k).mp hk with hw | ⟨rfl, hidle⟩
    · have hne : k ≠ j := fun hkj => hfresh (hkj ▸ hw)
      rw [if_neg hne, if_neg hne]
      exact (h.waiting k hw).imp_left .inr
    · rw [if_pos rfl, if_pos rfl]
      exact ⟨.inl rfl, hidle, rfl⟩
  · rw [hrecorded] at hk
    rw [hmem]
    by_cases hkj : k = j
    · exact .inl hkj
    · rw [if_neg hkj] at hk
      exact .inr (h.recorded k hk)
  · rw [hrun] at hi
    rw [hwaiting]
    by_cases hkj : k = j
    · rw [if_pos hkj] at hi
      exact .inr ⟨hkj, hi⟩
    · rw [if_neg hkj] at hi
      exact .inl (h.queued k (((hmem k).mp hk).resolve_left hkj) hi)
  · exact (hmem k).mpr (.inr (h.claim k c hc))

/-- What adoption has filled so far, over a fresh registry. -/
def Adopting.records (s : Adopting) : Records := ⟨s.gate, .new, s.queue, s.created⟩

/-- Adoption records every job it tracks and queues those it does not mark running. -/
theorem consistent_adoptOne {s : Adopting} (nowMs : ℤ) (c : AdoptedContainer)
    (h : s.records.Consistent) : (adoptOne nowMs s c).records.Consistent := by
  unfold adoptOne
  cases actionFor c nowMs with
  | remove => exact h
  | resume =>
    cases hadopt : s.gate.adoptRunning c.jobId c.size with
    | error err =>
      simp only [resume, hadopt]
      exact h
    | ok gate =>
      obtain ⟨hnew, rfl⟩ := Gate.adoptRunning_eq_ok_iff.mp hadopt
      simp only [resume, hadopt]
      exact h.track hnew c.size true c.containerId
  | requeue =>
    cases hadmit : s.gate.admitJob c.jobId c.size with
    | error err =>
      simp only [requeue, hadmit]
      exact h
    | ok gate =>
      obtain ⟨hnew, -, -, rfl⟩ := Gate.admitJob_eq_ok_iff.mp hadmit
      simp only [requeue, hadmit]
      exact h.track hnew c.size false c.containerId

/-- Startup adoption hands the daemon consistent records, whatever is on the box. -/
theorem adopted_consistent (budget : JobSize) (queueMax : U32) (box : List BoxContainer)
    (nowMs : ℤ) : (adoptedRecords budget queueMax .new box nowMs).Consistent := by
  show (run (adoptOne nowMs) ⟨Gate.new budget queueMax, .new, .new, ⟨[], [], []⟩⟩
    (existingJobs box)).records.Consistent
  exact run_invariant_of_step (I := fun s : Adopting => s.records.Consistent)
    (fun _ c h => consistent_adoptOne nowMs c h) _ (Records.fresh_consistent budget queueMax)

namespace Task

/-- A create of `j` that will still queue the job or give its slot back, or a release of `j`
    that has not yet given the slot back. -/
def inFlight (j : JobId) : Task → Prop
  | .beginCreate k | .dockerCreate k | .finishCreate k _ | .discardReaped k _
  | .rememberCreated k _ | .releaseGate k => k = j
  | _ => False

instance (j : JobId) : DecidablePred (inFlight j) := fun t => by
  unfold inFlight; split <;> infer_instance

/-- A release of `j` that has given the slot back but not yet the place in the queue. -/
def atQueue (j : JobId) (t : Task) : Prop := t = .releaseQueue j

instance (j : JobId) : DecidablePred (atQueue j) :=
  fun t => inferInstanceAs (Decidable (t = .releaseQueue j))

/-- A release of `j` that has given the slot back but not yet the record. -/
def releasing (j : JobId) (t : Task) : Prop := t = .releaseQueue j ∨ t = .releaseCreated j

/-- A create of `j` that holds the `creating` claim. -/
def claiming (j : JobId) : Task → Prop
  | .dockerCreate k | .finishCreate k _ => k = j
  | _ => False

/-- A request that will still forget the `created` claim of `j` or hand it to the gate's job. -/
def keeping (j : JobId) : Task → Prop
  | .rememberCreated k _ | .destroy _ (some k) | .forget k _ => k = j
  | _ => False

instance (j : JobId) : DecidablePred (keeping j) := fun t => by
  unfold keeping; split <;> infer_instance

end Task

namespace System

/-- The invariant for one job. -/
structure JobOk (s : System) (j : JobId) : Prop where
  once : s.Pending (Task.atQueue j) ∨ s.records.queue.waiting.count j ≤ 1
  waiting : j ∈ s.records.queue.waiting → s.Pending (Task.atQueue j) ∨
    (j ∈ s.records.gate.jobs ∧ s.records.gate.isRunning j = false ∧ s.records.recorded j = true)
  recorded : s.records.recorded j = true → j ∈ s.records.gate.jobs ∨ s.Pending (Task.releasing j)
  queued : j ∈ s.records.gate.jobs → s.records.gate.isRunning j = false →
    j ∈ s.records.queue.waiting ∨ s.Pending (Task.inFlight j) ∨ s.Requeueing j
  requeueing : s.Requeueing j → s.records.gate.isRunning j = false
  claim : s.records.registry.state j = some .creating → s.Pending (Task.claiming j)
  kept : ∀ c, s.records.registry.state j = some (.created c) →
    j ∈ s.records.gate.jobs ∨ s.Pending (Task.keeping j)

/-- The next section of the request `i` is not one of those that mistake a job admitted anew for
    its earlier life:
    * `remember_created` finds its job tracked but already running or waiting, and no release
      about to clear the queue;
    * the second section of `release` takes the place of a tracked job that no create in flight
      will queue again;
    * the third section of `release` takes the record of a tracked job that waits;
    * the first section of `release`, or a create abandoning a container it could not remove,
      leaves the `created` claim of an untracked job to nobody. -/
def TaskOk (s : System) (i : ℕ) (answer : Answer) : Task → Prop
  | .rememberCreated j _ => j ∈ s.records.gate.jobs → s.Pending (Task.atQueue j) ∨
      (s.records.gate.isRunning j = false ∧ j ∉ s.records.queue.waiting)
  | .releaseQueue j => j ∈ s.records.gate.jobs → s.records.gate.isRunning j = false →
      j ∈ s.records.queue.waiting → s.Pending (Task.inFlight j) ∨ s.Requeueing j
  | .releaseCreated j => j ∈ s.records.gate.jobs → j ∈ s.records.queue.waiting →
      s.Pending (Task.atQueue j)
  | .releaseGate j => s.records.registry.isCreated j = true → s.Pending (Task.keeping j)
  | .destroy c (some j) => ¬ (answer = .ok ∧ s.live c = true) →
      s.records.registry.isCreated j = true →
        j ∈ s.records.gate.jobs ∨ (s.done i).Pending (Task.keeping j)
  | _ => True

/-- Nor is it the push of a failed start that finds its job released, unrecorded or waiting
    again, and no release about to clear the queue. -/
def PushOk (s : System) : TickPhase → Prop
  | .requeueing j _ => s.Pending (Task.atQueue j) ∨
      (j ∈ s.records.gate.jobs ∧ s.records.recorded j = true ∧ j ∉ s.records.queue.waiting)
  | _ => True

def StepOk (s : System) : Event → Prop
  | .run i answer => ∀ t ∈ s.tasks.lookup i, s.TaskOk i answer t
  | .tickPush => s.PushOk s.tick
  | _ => True

instance (s : System) (i : ℕ) (answer : Answer) (t : Task) : Decidable (s.TaskOk i answer t) := by
  unfold TaskOk; split <;> infer_instance

instance (s : System) (phase : TickPhase) : Decidable (s.PushOk phase) := by
  unfold PushOk; split <;> infer_instance

instance (s : System) (e : Event) : Decidable (s.StepOk e) := by
  unfold StepOk; split <;> infer_instance

/-! ### Steps that do not concern a job -/

/-- Nothing the invariant says about `j` got worse from `s` to `s'`. -/
structure SameJob (s s' : System) (j : JobId) : Prop where
  gate : s'.records.gate.jobs.lookup j = s.records.gate.jobs.lookup j
  queue : s'.records.queue.waiting.count j = s.records.queue.waiting.count j
  created : s'.records.created.existing j = s.records.created.existing j
  registry : ∀ x, s'.records.registry.state j = some x → s.records.registry.state j = some x
  pending : ∀ P : Task → Prop, (∀ t, P t → t.job = some j) → s.Pending P → s'.Pending P
  tick : s'.Requeueing j ↔ s.Requeueing j

theorem job_of_inFlight {j : JobId} {t : Task} (h : t.inFlight j) : t.job = some j := by
  cases t <;> simp_all [Task.inFlight, Task.job]

theorem job_of_atQueue {j : JobId} {t : Task} (h : t.atQueue j) : t.job = some j := by
  rw [Task.atQueue] at h
  rw [h, Task.job]

theorem job_of_releasing {j : JobId} {t : Task} (h : t.releasing j) : t.job = some j := by
  rcases h with rfl | rfl <;> rfl

theorem job_of_claiming {j : JobId} {t : Task} (h : t.claiming j) : t.job = some j := by
  cases t <;> simp_all [Task.claiming, Task.job]

theorem job_of_keeping {j : JobId} {t : Task} (h : t.keeping j) : t.job = some j := by
  cases t with
  | destroy c abandonedBy => cases abandonedBy <;> simp_all [Task.keeping, Task.job]
  | _ => simp_all [Task.keeping, Task.job]

theorem JobOk.frame {s s' : System} {j : JobId} (ok : s.JobOk j) (h : SameJob s s' j) :
    s'.JobOk j := by
  have hmem : j ∈ s'.records.gate.jobs ↔ j ∈ s.records.gate.jobs := by
    rw [← Finmap.lookup_isSome, ← Finmap.lookup_isSome, h.gate]
  have hrun : s'.records.gate.isRunning j = s.records.gate.isRunning j := by
    rw [Gate.isRunning, Gate.isRunning, h.gate]
  have hwait : j ∈ s'.records.queue.waiting ↔ j ∈ s.records.queue.waiting := by
    rw [← List.count_pos_iff, ← List.count_pos_iff, h.queue]
  have hrec : s'.records.recorded j = s.records.recorded j := by
    rw [Records.recorded, Records.recorded, h.created]
  have hqueue := h.pending _ fun _ => job_of_atQueue
  constructor
  · rw [h.queue]
    exact ok.once.imp_left hqueue
  · rw [hwait, hmem, hrun, hrec]
    exact fun hw => (ok.waiting hw).imp_left hqueue
  · rw [hmem, hrec]
    exact fun hr => (ok.recorded hr).imp_right (h.pending _ fun _ => job_of_releasing)
  · rw [hmem, hrun, hwait, h.tick]
    exact fun ht hi => (ok.queued ht hi).imp_right
      (Or.imp_left (h.pending _ fun _ => job_of_inFlight))
  · rw [h.tick, hrun]
    exact ok.requeueing
  · exact fun hc => h.pending _ (fun _ => job_of_claiming) (ok.claim (h.registry _ hc))
  · rw [hmem]
    exact fun c hc => (ok.kept c (h.registry _ hc)).imp_right (h.pending _ fun _ => job_of_keeping)

/-- A request about another job moves on. -/
theorem Moves.sameJob {s u : System} {answer : Answer} {t : Task} {next : Option Task} {i : ℕ}
    (ht : s.tasks.lookup i = some t) (h : Moves s answer t u next) {j : JobId}
    (hj : t.job ≠ some j) : SameJob s (u.advanceTo i next) j := by
  have hpending : ∀ P : Task → Prop, (∀ t, P t → t.job = some j) → s.Pending P →
      (u.advanceTo i next).Pending P := by
    intro P hP hpend
    exact hpend.advanceTo h.tasks_eq ht (fun ht => hj (hP t ht)) next
  have htick : (u.advanceTo i next).Requeueing j ↔ s.Requeueing j := by
    unfold Requeueing
    rw [advanceTo_tick, h.tick_eq]
  have hprune : ∀ x, (s.records.registry.prune s.now).state j = some x →
      s.records.registry.state j = some x := by
    intro x hx
    rw [JobRegistry.state_prune] at hx
    exact (Option.filter_eq_some_iff.mp hx).1
  refine ⟨?_, ?_, ?_, ?_, hpending, htick⟩
  all_goals rw [advanceTo_records]
  · cases h with
    | admitted job size hnew =>
      exact Finmap.lookup_insert_of_ne _ fun hjk => hj (by rw [hjk, Task.job])
    | releasedGate job => exact Finmap.lookup_erase_ne fun hjk => hj (by rw [hjk, Task.job])
    | discarded job c => cases answer <;> rfl
    | reapKnownRemoved job c => cases answer <;> rfl
    | _ => rfl
  · cases h with
    | remembered job c htracked =>
      have hne : job ≠ j := fun hjk => hj (by rw [hjk, Task.job])
      simp [remember, StartQueue.push, hne]
    | releasedQueue job =>
      have hne : j ≠ job := fun hjk => hj (by rw [hjk, Task.job])
      exact List.count_filter (by simpa using hne)
    | discarded job c => cases answer <;> rfl
    | reapKnownRemoved job c => cases answer <;> rfl
    | _ => rfl
  · cases h with
    | remembered job c htracked =>
      have hne : j ≠ job := fun hjk => hj (by rw [hjk, Task.job])
      exact (CreatedContainers.existing_record _ _ _ _).trans (if_neg hne)
    | releasedCreated job =>
      have hne : j ≠ job := fun hjk => hj (by rw [hjk, Task.job])
      exact (CreatedContainers.existing_forget _ _ _).trans (if_neg hne)
    | discarded job c => cases answer <;> rfl
    | reapKnownRemoved job c => cases answer <;> rfl
    | _ => rfl
  · intro x hx
    cases h with
    | claimed job hfree =>
      have hne : j ≠ job := fun hjk => hj (by rw [hjk, Task.job])
      exact hprune x ((Finmap.lookup_insert_of_ne _ hne).symm.trans hx)
    | notClaimed job => exact hprune x hx
    | createFailed job =>
      have hne : j ≠ job := fun hjk => hj (by rw [hjk, Task.job])
      exact ((JobRegistry.state_abandonCreate _ _ _).trans (if_neg hne)).symm.trans hx
    | kept job c hlive =>
      have hne : j ≠ job := fun hjk => hj (by rw [hjk, Task.job])
      exact ((JobRegistry.state_finishCreate _ _ _ _ _).trans (if_neg hne)).symm.trans hx
    | reaped job c hreaped =>
      have hne : j ≠ job := fun hjk => hj (by rw [hjk, Task.job])
      exact ((JobRegistry.state_finishCreate _ _ _ _ _).trans (if_neg hne)).symm.trans hx
    | forgotten job thenRelease =>
      have hne : j ≠ job := fun hjk => hj (by rw [hjk, Task.job])
      exact ((JobRegistry.state_forget _ _ _).trans (if_neg hne)).symm.trans hx
    | reapMarked job next hnext =>
      have hne : j ≠ job := fun hjk => hj (by rw [hjk, Task.job])
      exact hprune x (((JobRegistry.state_reap _ _ _ _).trans (if_neg hne)).symm.trans hx)
    | discarded job c => cases answer <;> exact hx
    | reapKnownRemoved job c => cases answer <;> exact hx
    | _ => exact hx

/-! ### Steps of a request about the job -/

/-- A request moves on without touching gate, queue and created map.  What is left to show is
    that it still carries what the invariant relies on it for. -/
theorem JobOk.carry {s u : System} {j : JobId} (ok : s.JobOk j) {i : ℕ} {t : Task}
    (ht : s.tasks.lookup i = some t) {next : Option Task} (htasks : u.tasks = s.tasks)
    (htick : u.tick = s.tick) (hgate : u.records.gate = s.records.gate)
    (hqueue : u.records.queue = s.records.queue) (hcreated : u.records.created = s.records.created)
    (hreleasing : ¬ t.releasing j)
    (hflight : j ∈ s.records.gate.jobs → t.inFlight j → ∃ n, next = some n ∧ n.inFlight j)
    (hclaim : u.records.registry.state j = some .creating →
      (u.advanceTo i next).Pending (Task.claiming j))
    (hkept : ∀ c, u.records.registry.state j = some (.created c) →
      j ∈ s.records.gate.jobs ∨ (u.advanceTo i next).Pending (Task.keeping j)) :
    (u.advanceTo i next).JobOk j := by
  have hrel : ∀ P : Task → Prop, (∀ t, P t → t.releasing j) → s.Pending P →
      (u.advanceTo i next).Pending P :=
    fun P hP h => h.advanceTo htasks ht (fun h => hreleasing (hP t h)) next
  have hatQueue := hrel _ fun _ => Or.inl
  have hrecorded : u.records.recorded j = s.records.recorded j := by
    rw [Records.recorded, hcreated, Records.recorded]
  have hrequeue : (u.advanceTo i next).Requeueing j ↔ s.Requeueing j := by
    unfold Requeueing
    rw [advanceTo_tick, htick]
  constructor
  all_goals rw [advanceTo_records]
  · rw [hqueue]
    exact ok.once.imp_left hatQueue
  · rw [hqueue, hgate, hrecorded]
    exact fun hw => (ok.waiting hw).imp_left hatQueue
  · rw [hgate, hrecorded]
    exact fun hr => (ok.recorded hr).imp_right (hrel _ fun _ h => h)
  · rw [hgate, hqueue, hrequeue]
    intro hmem hidle
    rcases ok.queued hmem hidle with hw | hf | hr
    · exact .inl hw
    · exact .inr (.inl (hf.carry htasks ht (hflight hmem)))
    · exact .inr (.inr hr)
  · rw [hgate, hrequeue]
    exact ok.requeueing
  · exact hclaim
  · rw [hgate]
    exact hkept

/-- Moves that touch no record at all. -/
theorem JobOk.carry_all {s u : System} {j : JobId} (ok : s.JobOk j) {i : ℕ} {t : Task}
    (ht : s.tasks.lookup i = some t) {next : Option Task} (htasks : u.tasks = s.tasks)
    (htick : u.tick = s.tick) (hrecords : u.records = s.records) (hreleasing : ¬ t.releasing j)
    (hflight : j ∈ s.records.gate.jobs → t.inFlight j → ∃ n, next = some n ∧ n.inFlight j)
    (hclaim : t.claiming j → ∃ n, next = some n ∧ n.claiming j)
    (hkept : t.keeping j → ∃ n, next = some n ∧ n.keeping j) :
    (u.advanceTo i next).JobOk j := by
  refine ok.carry ht htasks htick (by rw [hrecords]) (by rw [hrecords]) (by rw [hrecords])
    hreleasing hflight ?_ ?_
  · rw [hrecords]
    exact fun hc => (ok.claim hc).carry htasks ht hclaim
  · rw [hrecords]
    exact fun c hc => (ok.kept c hc).imp_right fun h => h.carry htasks ht hkept

theorem JobOk.admitted {s : System} {j : JobId} (ok : s.JobOk j) {i : ℕ} {size : JobSize}
    (ht : s.tasks.lookup i = some (.admitJob j size)) (hnew : j ∉ s.records.gate.jobs) :
    ((s.setGate (s.records.gate.put j ⟨size, false⟩)).advanceTo i
      (some (.beginCreate j))).JobOk j := by
  have hmem : j ∈ (s.records.gate.put j ⟨size, false⟩).jobs := Finmap.mem_insert.mpr (.inl rfl)
  have hidle : (s.records.gate.put j ⟨size, false⟩).isRunning j = false :=
    Gate.isRunning_of_lookup (e := ⟨size, false⟩) (Finmap.lookup_insert _)
  have hpend : ∀ P : Task → Prop, ¬ P (.admitJob j size) → s.Pending P →
      ((s.setGate (s.records.gate.put j ⟨size, false⟩)).advanceTo i
        (some (.beginCreate j))).Pending P :=
    fun P hP h => h.advanceTo (by rfl) ht hP _
  refine ⟨ok.once.imp_left (hpend _ (by simp [Task.atQueue])), fun hw => ?_, fun _ => .inl hmem,
    fun _ _ => ?_, fun _ => hidle, fun hc => hpend _ (by simp [Task.claiming]) (ok.claim hc),
    fun _ _ => .inl hmem⟩
  · -- a place in the queue from before the admission belongs to a release under way
    rcases ok.waiting hw with h | ⟨htracked, -⟩
    · exact .inl (hpend _ (by simp [Task.atQueue]) h)
    · exact absurd htracked hnew
  · exact .inr (.inl (pending_goto _ i rfl))

theorem JobOk.remembered {s : System} {j : JobId} (ok : s.JobOk j) {i : ℕ} {c : String}
    (ht : s.tasks.lookup i = some (.rememberCreated j c)) (htracked : j ∈ s.records.gate.jobs)
    (hok : s.Pending (Task.atQueue j) ∨
      (s.records.gate.isRunning j = false ∧ j ∉ s.records.queue.waiting)) :
    ((s.remember j c).advanceTo i none).JobOk j := by
  have hpend : ∀ P : Task → Prop, ¬ P (.rememberCreated j c) → s.Pending P →
      ((s.remember j c).advanceTo i none).Pending P :=
    fun P hP h => h.advanceTo (by rfl) ht hP _
  have hatQueue := hpend (Task.atQueue j) (by simp [Task.atQueue])
  have hrecorded : ((s.remember j c).advanceTo i none).records.recorded j = true := by
    rw [advanceTo_records, Records.recorded, remember, CreatedContainers.existing_record, if_pos rfl]
    rfl
  have hwaiting : j ∈ ((s.remember j c).advanceTo i none).records.queue.waiting := by
    rw [advanceTo_records]
    exact List.mem_append_right _ (List.mem_singleton_self j)
  refine ⟨?_, fun _ => ?_, fun _ => .inl htracked, fun _ _ => .inl hwaiting, ok.requeueing,
    fun hc => hpend _ (by simp [Task.claiming]) (ok.claim hc), fun _ _ => .inl htracked⟩
  · refine hok.imp hatQueue fun h => ?_
    rw [advanceTo_records, remember, StartQueue.push, List.count_append,
      List.count_eq_zero_of_not_mem h.2]
    simp
  · exact hok.imp hatQueue fun h => ⟨htracked, h.1, hrecorded⟩

theorem JobOk.releasedGate {s : System} {j : JobId} (ok : s.JobOk j) {i : ℕ}
    (ht : s.tasks.lookup i = some (.releaseGate j))
    (hok : s.records.registry.isCreated j = true → s.Pending (Task.keeping j)) :
    ((s.setGate (s.records.gate.release j).2).advanceTo i (some (.releaseQueue j))).JobOk j := by
  have hgone : j ∉ (s.records.gate.release j).2.jobs := Finmap.notMem_erase_self
  have hidle : (s.records.gate.release j).2.isRunning j = false := by
    rw [Gate.isRunning, Finmap.lookup_eq_none.mpr hgone]
    rfl
  have hpend : ∀ P : Task → Prop, ¬ P (.releaseGate j) → s.Pending P →
      ((s.setGate (s.records.gate.release j).2).advanceTo i (some (.releaseQueue j))).Pending P :=
    fun P hP h => h.advanceTo (by rfl) ht hP _
  exact ⟨.inl (pending_goto _ i rfl), fun _ => .inl (pending_goto _ i rfl),
    fun _ => .inr (pending_goto _ i (.inl rfl)), fun h => absurd h hgone, fun _ => hidle,
    fun hc => hpend _ (by simp [Task.claiming]) (ok.claim hc),
    fun c hc => .inr (hpend _ (by simp [Task.keeping])
      (hok (JobRegistry.isCreated_iff.mpr ⟨c, hc⟩)))⟩

theorem JobOk.releasedQueue {s : System} {j : JobId} (ok : s.JobOk j) {i : ℕ}
    (ht : s.tasks.lookup i = some (.releaseQueue j))
    (hok : j ∈ s.records.gate.jobs → s.records.gate.isRunning j = false →
      j ∈ s.records.queue.waiting → s.Pending (Task.inFlight j) ∨ s.Requeueing j) :
    (({ s with records := { s.records with queue := s.records.queue.remove j } } :
      System).advanceTo i (some (.releaseCreated j))).JobOk j := by
  have hgone : j ∉ (s.records.queue.remove j).waiting := by simp [StartQueue.remove]
  have hpend : ∀ P : Task → Prop, ¬ P (.releaseQueue j) → s.Pending P →
      (({ s with records := { s.records with queue := s.records.queue.remove j } } :
        System).advanceTo i (some (.releaseCreated j))).Pending P :=
    fun P hP h => h.advanceTo (by rfl) ht hP _
  refine ⟨.inr ?_, fun h => absurd h hgone, fun _ => .inr (pending_goto _ i (.inr rfl)),
    fun htracked hidle => .inr ?_, ok.requeueing,
    fun hc => hpend _ (by simp [Task.claiming]) (ok.claim hc),
    fun c hc => (ok.kept c hc).imp_right (hpend _ (by simp [Task.keeping]))⟩
  · exact (List.count_eq_zero_of_not_mem hgone).trans_le (Nat.zero_le 1)
  · have hleft : s.Pending (Task.inFlight j) ∨ s.Requeueing j := by
      rcases ok.queued htracked hidle with hw | h
      · exact hok htracked hidle hw
      · exact h
    exact hleft.imp_left (hpend _ (by simp [Task.inFlight]))

theorem JobOk.releasedCreated {s : System} {j : JobId} (ok : s.JobOk j) {i : ℕ}
    (ht : s.tasks.lookup i = some (.releaseCreated j))
    (hok : j ∈ s.records.gate.jobs → j ∈ s.records.queue.waiting → s.Pending (Task.atQueue j)) :
    (({ s with records := { s.records with created := s.records.created.forget j } } :
      System).advanceTo i none).JobOk j := by
  have hpend : ∀ P : Task → Prop, ¬ P (.releaseCreated j) → s.Pending P →
      (({ s with records := { s.records with created := s.records.created.forget j } } :
        System).advanceTo i none).Pending P :=
    fun P hP h => h.advanceTo (by rfl) ht hP _
  have hatQueue := hpend (Task.atQueue j) (by simp [Task.atQueue])
  have hgone : ¬ (({ s.records with created := s.records.created.forget j } :
      Records).recorded j = true) := by
    rw [Records.recorded, CreatedContainers.existing_forget, if_pos rfl]
    simp
  refine ⟨ok.once.imp_left hatQueue, fun hw => .inl ?_, fun h => absurd h hgone,
    fun htracked hidle => ?_, ok.requeueing,
    fun hc => hpend _ (by simp [Task.claiming]) (ok.claim hc),
    fun c hc => (ok.kept c hc).imp_right (hpend _ (by simp [Task.keeping]))⟩
  · rcases ok.waiting hw with h | ⟨htracked, -⟩
    · exact hatQueue h
    · exact hatQueue (hok htracked hw)
  · exact (ok.queued htracked hidle).imp_right (Or.imp_left (hpend _ (by simp [Task.inFlight])))

/-- A request about the job moves on by a step that `StepOk` permits. -/
theorem JobOk.moved {s u : System} {j : JobId} (ok : s.JobOk j) (hlabel : s.TasksLabelled) {i : ℕ}
    {answer : Answer} {t : Task} {next : Option Task} (ht : s.tasks.lookup i = some t)
    (hmove : Moves s answer t u next) (hok : s.StepOk (.run i answer)) (hj : t.job = some j) :
    (u.advanceTo i next).JobOk j := by
  have hok : s.TaskOk i answer t := hok t ht
  have htasks := hmove.tasks_eq
  have htick := hmove.tick_eq
  cases hmove with
  | admitted job size hnew =>
    obtain rfl := Option.some.inj hj
    exact ok.admitted ht hnew
  | refused job size =>
    exact ok.carry_all ht htasks htick rfl (by simp [Task.releasing])
      (by simp [Task.inFlight]) (by simp [Task.claiming]) (by simp [Task.keeping])
  | claimed job hfree =>
    obtain rfl := Option.some.inj hj
    have hstate := JobRegistry.state_insert (s.records.registry.prune s.now).jobs job job .creating
    rw [if_pos rfl] at hstate
    refine ok.carry ht htasks htick rfl rfl rfl (by simp [Task.releasing])
      (fun _ _ => ⟨_, rfl, rfl⟩) (fun _ => pending_goto _ i rfl) fun c hc => ?_
    cases hstate.symm.trans hc
  | notClaimed job =>
    obtain rfl := Option.some.inj hj
    have hprune : ∀ x, (s.records.registry.prune s.now).state job = some x →
        s.records.registry.state job = some x := by
      intro x hx
      rw [JobRegistry.state_prune] at hx
      exact (Option.filter_eq_some_iff.mp hx).1
    refine ok.carry ht htasks htick rfl rfl rfl (by simp [Task.releasing])
      (fun _ _ => ⟨_, rfl, rfl⟩) (fun hc => ?_) fun c hc => ?_
    · exact (ok.claim (hprune _ hc)).carry htasks ht (by simp [Task.claiming])
    · exact (ok.kept c (hprune _ hc)).imp_right fun h =>
        h.carry htasks ht (by simp [Task.keeping])
  | created job c hfresh =>
    obtain rfl := Option.some.inj hj
    exact ok.carry_all ht htasks htick rfl (by simp [Task.releasing])
      (fun _ _ => ⟨_, rfl, rfl⟩) (fun _ => ⟨_, rfl, rfl⟩) (by simp [Task.keeping])
  | createFailed job =>
    obtain rfl := Option.some.inj hj
    have hstate := JobRegistry.state_abandonCreate s.records.registry job job
    rw [if_pos rfl] at hstate
    refine ok.carry ht htasks htick rfl rfl rfl (by simp [Task.releasing])
      (fun _ _ => ⟨_, rfl, rfl⟩) (fun hc => ?_) fun c hc => ?_
    · have := (Option.filter_eq_some_iff.mp (hstate.symm.trans hc)).2
      cases this
    · have := (Option.filter_eq_some_iff.mp (hstate.symm.trans hc)).2
      cases this
  | kept job c hlive =>
    obtain rfl := Option.some.inj hj
    have hstate := JobRegistry.state_finishCreate s.records.registry job job c s.now
    rw [if_pos rfl] at hstate
    refine ok.carry ht htasks htick rfl rfl rfl (by simp [Task.releasing])
      (fun _ _ => ⟨_, rfl, rfl⟩) (fun hc => ?_) fun _ _ => .inr (pending_goto _ i rfl)
    have hc := hstate.symm.trans hc
    split at hc <;> cases hc
  | reaped job c hreaped =>
    obtain rfl := Option.some.inj hj
    obtain ⟨at_, hat⟩ := hreaped
    have hstate := JobRegistry.state_finishCreate s.records.registry job job c s.now
    rw [if_pos rfl, hat] at hstate
    refine ok.carry ht htasks htick rfl rfl rfl (by simp [Task.releasing])
      (fun _ _ => ⟨_, rfl, rfl⟩) (fun hc => ?_) fun c hc => ?_
    · cases hstate.symm.trans hc
    · cases hstate.symm.trans hc
  | discarded job c =>
    obtain rfl := Option.some.inj hj
    exact ok.carry_all ht htasks htick (by cases answer <;> rfl) (by simp [Task.releasing])
      (fun _ _ => ⟨_, rfl, rfl⟩) (by simp [Task.claiming]) (by simp [Task.keeping])
  | remembered job c htracked =>
    obtain rfl := Option.some.inj hj
    exact ok.remembered ht htracked (hok htracked)
  | untracked job c hgone =>
    obtain rfl := Option.some.inj hj
    exact ok.carry_all ht htasks htick rfl (by simp [Task.releasing])
      (fun htracked => absurd htracked hgone) (by simp [Task.claiming]) (fun _ => ⟨_, rfl, rfl⟩)
  | destroyed c abandonedBy job hlive =>
    -- the label of the container names the job that abandoned it
    obtain rfl : abandonedBy = some j := hj
    have hc := hlabel i _ ht j c (.inr (.inr (.inr rfl)))
    rw [Labelled, hlive] at hc
    obtain rfl : job = j := Option.some.inj hc
    exact ok.carry_all ht htasks htick rfl (by simp [Task.releasing]) (by simp [Task.inFlight])
      (by simp [Task.claiming]) (fun _ => ⟨_, rfl, rfl⟩)
  | notDestroyed c abandonedBy hfail =>
    obtain rfl : abandonedBy = some j := hj
    refine ok.carry ht htasks htick rfl rfl rfl (by simp [Task.releasing]) (by simp [Task.inFlight])
      (fun hc => (ok.claim hc).advanceTo htasks ht (by simp [Task.claiming]) _) fun c' hc' => ?_
    exact hok hfail (JobRegistry.isCreated_iff.mpr ⟨c', hc'⟩)
  | forgotten job thenRelease =>
    obtain rfl := Option.some.inj hj
    have hstate := JobRegistry.state_forget s.records.registry job job
    rw [if_pos rfl] at hstate
    refine ok.carry ht htasks htick rfl rfl rfl (by simp [Task.releasing]) (by simp [Task.inFlight])
      (fun hc => ?_) fun c hc => ?_
    · cases hstate.symm.trans hc
    · cases hstate.symm.trans hc
  | releasedGate job =>
    obtain rfl := Option.some.inj hj
    exact ok.releasedGate ht hok
  | releasedQueue job =>
    obtain rfl := Option.some.inj hj
    exact ok.releasedQueue ht hok
  | releasedCreated job =>
    obtain rfl := Option.some.inj hj
    exact ok.releasedCreated ht hok
  | reapMarked job next hnext =>
    obtain rfl := Option.some.inj hj
    have hstate := JobRegistry.state_reap s.records.registry job job s.now
    rw [if_pos rfl] at hstate
    refine ok.carry ht htasks htick rfl rfl rfl (by simp [Task.releasing]) (by simp [Task.inFlight])
      (fun hc => ?_) fun c hc => ?_
    · cases hstate.symm.trans hc
    · cases hstate.symm.trans hc
  | reapKnownRemoved job c =>
    exact ok.carry_all ht htasks htick (by cases answer <;> rfl)
      (by simp [Task.releasing]) (by simp [Task.inFlight]) (by simp [Task.claiming])
      (by simp [Task.keeping])
  | _ =>
    exact ok.carry_all ht htasks htick rfl (by simp [Task.releasing]) (by simp [Task.inFlight])
      (by simp [Task.claiming]) (by simp [Task.keeping])

/-! ### Steps of the tick -/

theorem JobOk.of_gone {s : System} {j : JobId} (h : s.records.Gone j) : s.JobOk j where
  once := .inr ((List.count_eq_zero_of_not_mem h.queue).trans_le (Nat.zero_le 1))
  waiting hw := absurd hw h.queue
  recorded hr := by
    rw [Records.recorded, h.created] at hr
    cases hr
  queued htracked := absurd htracked h.gate
  requeueing _ := by
    rw [Gate.isRunning, Finmap.lookup_eq_none.mpr h.gate]
    rfl
  claim hc := by
    rw [h.registry] at hc
    cases hc
  kept c hc := by
    rw [h.registry] at hc
    cases hc

/-- A step that changes neither the requests nor what the records say about the job. -/
theorem SameJob.of_same {s s' : System} {j : JobId} (h : s.records.Same s'.records j)
    (htasks : s'.tasks = s.tasks) (htick : s'.Requeueing j ↔ s.Requeueing j) : SameJob s s' j where
  gate := h.gate
  queue := h.queue
  created := h.created
  registry _ hx := h.registry ▸ hx
  pending _ _ := fun ⟨k, t, ht, hP⟩ => ⟨k, t, htasks ▸ ht, hP⟩
  tick := htick

/-- A started job is tracked and running, which is all the invariant asks. -/
theorem JobOk.started {s s' : System} {j : JobId} (ok : s.JobOk j)
    (h : s.records.Started s'.records j) (htasks : s'.tasks = s.tasks) (htick : ¬ s'.Requeueing j) :
    s'.JobOk j := by
  obtain ⟨e, he, he'⟩ := h.lookup
  have hmem : j ∈ s'.records.gate.jobs := Finmap.mem_of_lookup_eq_some he'
  have hrun : s'.records.gate.isRunning j = true := Gate.isRunning_of_lookup he'
  have hpend : ∀ P : Task → Prop, s.Pending P → s'.Pending P :=
    fun P ⟨k, t, ht, hP⟩ => ⟨k, t, htasks ▸ ht, hP⟩
  exact ⟨.inr ((List.count_eq_zero_of_not_mem h.queue).trans_le (Nat.zero_le 1)),
    fun hw => absurd hw h.queue, fun _ => .inl hmem,
    fun _ hidle => absurd (hrun.symm.trans hidle) (by simp), fun hr => absurd hr htick,
    fun hc => hpend _ (ok.claim (h.registry ▸ hc)), fun _ _ => .inl hmem⟩

theorem JobOk.of_reconcile {s : System} {j : JobId} (ok : s.JobOk j) {nowMs : ℤ}
    {snapshot : List ContainerSnapshot} (htick : s.tick = .listed snapshot) (remove : List String)
    (start : List StartRequest) :
    ({ s with
      records := (reconcile s.records snapshot nowMs).1
      tick := .acting remove start } : System).JobOk j := by
  rcases reconcile_job s.records snapshot nowMs j with ⟨-, h⟩ | ⟨-, h | h⟩
  · exact .of_gone h
  · exact ok.started h rfl (by simp [Requeueing])
  · exact ok.frame (.of_same h rfl (by simp [Requeueing, htick]))

theorem JobOk.unstarted {s : System} {j : JobId} (ok : s.JobOk j) {k : JobId} {e : Entry}
    {remove : List String} {requests : List StartRequest} (htick : s.tick = .acting remove requests)
    (hlook : s.records.gate.jobs.lookup k = some e) (start : List StartRequest) :
    ({ s.setGate (s.records.gate.put k { e with running := false }) with
      tick := .requeueing k start } : System).JobOk j := by
  by_cases hj : j = k
  · subst hj
    have hmem : j ∈ s.records.gate.jobs := Finmap.mem_of_lookup_eq_some hlook
    have hmem' : j ∈ (s.records.gate.put j { e with running := false }).jobs :=
      Finmap.mem_insert.mpr (.inl rfl)
    have hidle : (s.records.gate.put j { e with running := false }).isRunning j = false :=
      Gate.isRunning_of_lookup (e := { e with running := false }) (Finmap.lookup_insert _)
    exact ⟨ok.once, fun hw => (ok.waiting hw).imp_right fun h => ⟨hmem', hidle, h.2.2⟩,
      fun _ => .inl hmem', fun _ _ => .inr (.inr ⟨start, rfl⟩), fun _ => hidle, ok.claim,
      fun _ _ => .inl hmem'⟩
  · refine ok.frame (.of_same ⟨Finmap.lookup_insert_of_ne _ hj, rfl, rfl, rfl⟩ rfl ?_)
    simp only [Requeueing, htick, TickPhase.requeueing.injEq, reduceCtorEq, exists_false, iff_false,
      not_exists, not_and]
    exact fun _ h => absurd h.symm hj

theorem JobOk.pushed {s : System} {j : JobId} (ok : s.JobOk j) {k : JobId}
    {start : List StartRequest} (htick : s.tick = .requeueing k start)
    (hok : s.Pending (Task.atQueue k) ∨ (k ∈ s.records.gate.jobs ∧ s.records.recorded k = true ∧
      k ∉ s.records.queue.waiting)) :
    ({ s with
      records := { s.records with queue := s.records.queue.push k }
      tick := .acting [] start } : System).JobOk j := by
  by_cases hj : j = k
  · subst hj
    have hidle : s.records.gate.isRunning j = false := ok.requeueing ⟨start, htick⟩
    have hwaiting : j ∈ (s.records.queue.push j).waiting :=
      List.mem_append_right _ (List.mem_singleton_self j)
    refine ⟨hok.imp_right fun h => ?_, fun _ => hok.imp_right fun h => ⟨h.1, hidle, h.2.1⟩,
      ok.recorded, fun _ _ => .inl hwaiting, fun _ => hidle, ok.claim, ok.kept⟩
    show (s.records.queue.waiting ++ [j]).count j ≤ 1
    rw [List.count_append, List.count_eq_zero_of_not_mem h.2.2]
    simp
  · refine ok.frame (.of_same ⟨rfl, ?_, rfl, rfl⟩ rfl ?_)
    · have hzero : [k].count j = 0 := List.count_eq_zero_of_not_mem (by simpa using hj)
      show (s.records.queue.waiting ++ [k]).count j = _
      rw [List.count_append, hzero, Nat.add_zero]
    · simp only [Requeueing, htick, TickPhase.requeueing.injEq, reduceCtorEq, exists_false,
        false_iff, not_exists, not_and]
      exact fun _ h => absurd h.symm hj

/-! ### Whole runs -/

/-- The invariant of the machine. -/
structure Ok (s : System) : Prop where
  labelled : s.TasksLabelled
  job : ∀ j, s.JobOk j

theorem Ok.step {s : System} (ok : s.Ok) {e : Event} (hok : s.StepOk e) : (s.step e).Ok := by
  refine ⟨ok.labelled.step e, fun j => ?_⟩
  have heff := s.step_effect e
  have hj := ok.job j
  generalize s.step e = s' at heff
  cases heff with
  | stuttered => exact hj
  | advanced d => exact hj.frame (.of_same (.refl _ _) rfl Iff.rfl)
  | spawned _ i t hi ht =>
    exact hj.frame ⟨rfl, rfl, rfl, fun _ h => h, fun _ _ h => h.spawn hi t, Iff.rfl⟩
  | moved i answer t u next ht hmove =>
    by_cases hjob : t.job = some j
    · exact hj.moved ok.labelled ht hmove hok hjob
    · exact hj.frame (hmove.sameJob ht hjob)
  | listed snapshot htick =>
    exact hj.frame (.of_same (.refl _ _) rfl (by simp [Requeueing, htick]))
  | reconciled nowMs snapshot htick => exact hj.of_reconcile htick _ _
  | removed c remove start htick =>
    exact hj.frame (.of_same (.refl _ _) rfl (by simp [Requeueing, htick]))
  | notRemoved c remove start htick =>
    exact hj.frame (.of_same (.refl _ _) rfl (by simp [Requeueing, htick]))
  | started request start htick hlive =>
    exact hj.frame (.of_same (.refl _ _) rfl (by simp [Requeueing, htick]))
  | vanished request start htick hgone =>
    by_cases hjob : j = request.jobId
    · exact .of_gone (hjob ▸ s.records.gone_releaseJob _)
    · exact hj.frame (.of_same (s.records.same_releaseJob hjob) rfl (by simp [Requeueing, htick]))
  | unstarted request start e htick hlook => exact hj.unstarted htick hlook start
  | untrackedStart request start htick hgone =>
    exact hj.frame (.of_same (.refl _ _) rfl (by simp [Requeueing, htick]))
  | pushed job start htick =>
    have hok : s.PushOk s.tick := hok
    rw [htick] at hok
    exact hj.pushed htick hok
  | ended htick => exact hj.frame (.of_same (.refl _ _) rfl (by simp [Requeueing, htick]))

theorem Ok.start {r : Records} (h : r.Consistent) (docker : Finmap fun _ : String => Container) :
    (System.start r docker).Ok where
  labelled i t ht := by
    rw [System.start, Finmap.lookup_empty] at ht
    cases ht
  job j :=
    { once := .inr (List.nodup_iff_count_le_one.mp h.nodup j)
      waiting := fun hw => .inr (h.waiting j hw)
      recorded := fun hr => .inl (h.recorded j hr)
      queued := fun ht hi => .inl (h.queued j ht hi)
      requeueing := fun ⟨_, hr⟩ => by cases hr
      claim := fun hc => absurd hc (h.noClaim j)
      kept := fun c hc => .inl (h.claim j c hc) }

theorem Ok.consistent {s : System} (ok : s.Ok) (hq : s.Quiescent) : s.records.Consistent := by
  have hnone : ∀ P : Task → Prop, ¬ s.Pending P := by
    rintro P ⟨i, t, ht, -⟩
    rw [hq.1, Finmap.lookup_empty] at ht
    cases ht
  have hidle : ∀ j, ¬ s.Requeueing j := by
    rintro j ⟨start, h⟩
    rw [hq.2] at h
    cases h
  exact {
    nodup := List.nodup_iff_count_le_one.mpr fun j => (ok.job j).once.resolve_left (hnone _)
    waiting := fun j hw => ((ok.job j).waiting hw).resolve_left (hnone _)
    recorded := fun j hr => ((ok.job j).recorded hr).resolve_right (hnone _)
    queued := fun j ht hi => ((ok.job j).queued ht hi).resolve_right
      fun h => h.elim (hnone _) (hidle j)
    noClaim := fun j hc => hnone _ ((ok.job j).claim hc)
    claim := fun j c hc => ((ok.job j).kept c hc).resolve_right (hnone _) }

/-- **The four records are consistent at rest.**  From consistent records, after any
    interleaving whose steps meet `StepOk`, they are consistent again whenever nothing is in
    flight. -/
theorem quiescent_consistent {r : Records} (hr : r.Consistent)
    (docker : Finmap fun _ : String => Container) (es : List Event)
    (hes : Throughout step StepOk (start r docker) es)
    (hq : (run step (start r docker) es).Quiescent) :
    (run step (start r docker) es).records.Consistent :=
  (run_invariant (fun _ _ ok hok => Ok.step ok hok) hes (Ok.start hr docker)).consistent hq

/-- A create and the tick that starts it, with nothing else going on. -/
theorem quiescent_consistent_create :
    let es : List Event := [.postJob 0 "j" ⟨1, 1⟩, .run 0 .ok, .run 0 .ok, .run 0 (.created "c"),
      .run 0 .ok, .run 0 .ok, .tickList [⟨"j", "c", 100, false⟩], .tickReconcile 1, .tickStart .ok,
      .tickEnd]
    (run step (start (.fresh ⟨4, 4⟩ 10) ∅) es).records.Consistent :=
  quiescent_consistent (Records.fresh_consistent _ _) ∅ _ (by decide) (by decide)

/-- A redelivery that lands inside the release of the destroy: the second and third sections of
    the release take the new admission's place and record, and the job is tracked for ever with
    nothing to start it. -/
theorem redelivery_during_destroy_strands_job :
    let es : List Event := [.postJob 0 "j" ⟨1, 1⟩, .run 0 .ok, .run 0 .ok, .run 0 (.created "c"),
      .run 0 .ok, .run 0 .ok,
      -- the destroy removes the container, forgets the claim and gives the slot back
      .deleteContainer 1 "c", .run 1 .ok, .run 1 .ok, .run 1 .ok,
      -- the redelivery is admitted, creates its container and is remembered
      .postJob 2 "j" ⟨1, 1⟩, .run 2 .ok, .run 2 .ok, .run 2 (.created "d"), .run 2 .ok, .run 2 .ok,
      -- the destroy clears the queue and the record
      .run 1 .ok, .run 1 .ok]
    let s := run step (start (.fresh ⟨4, 4⟩ 10) ∅) es
    s.Quiescent ∧ s.records.gate.tracks "j" = true ∧ s.records.gate.isRunning "j" = false ∧
      s.records.queue.waiting = [] ∧ ¬ s.records.Consistent := by
  intro es s
  have h : s.Quiescent ∧ s.records.gate.tracks "j" = true ∧
      s.records.gate.isRunning "j" = false ∧ s.records.queue.waiting = [] := by decide
  refine ⟨h.1, h.2.1, h.2.2.1, h.2.2.2, fun hc => ?_⟩
  have hw := hc.queued "j" ((Gate.tracks_iff _ _).mp h.2.1) h.2.2.1
  rw [h.2.2.2] at hw
  cases hw

end System

end GhRunner.Daemon
