import GhRunner.Daemon.Tick

namespace GhRunner.Daemon

/-!
# The daemon as a machine

Requests and ticks interleave at their critical sections and Docker calls; a step of the machine
is one of these.

* `Task` — where a request stands: the section or call it is about to enter;
* `TickPhase` — where the one reconciliation loop stands;
* `System` — the four records, the containers Docker has, the requests in flight, the tick;
* `Event`, `System.step` — what happens next; Docker's answers and the listing a tick works from
  come with the event, so every behaviour of Docker is covered;
* `pending` — some request in flight stands at a point with a given property.

Sources: `crates/daemon/src/routes/handlers.rs` (`create_job`, `run_admitted_create`,
`remember_created`, `release`, `destroy_job`, `reap_job`) and `crates/daemon/src/docker.rs`
(`create`, `run_create`, `destroy`, `run_reap`, `tick`, `start_promoted`).
-/

/-- One request, by the critical section or Docker call it enters next. -/
inductive Task
  /-- `create_job` about to admitJob. -/
  | admitJob (job : JobId) (size : JobSize)
  | beginCreate (job : JobId)
  /-- The claim is taken and `docker create` is in flight. -/
  | dockerCreate (job : JobId)
  | finishCreate (job : JobId) (containerId : String)
  /-- A container created for a reaped job, about to be removed. -/
  | discardReaped (job : JobId) (containerId : String)
  | rememberCreated (job : JobId) (containerId : String)
  /-- The backend's `destroy`: of a request, or of the create of a job that was released. -/
  | destroy (containerId : String) (abandonedBy : Option JobId)
  | forget (job : JobId) (thenRelease : Bool)
  /-- The three sections of the handlers' `release`. -/
  | releaseGate (job : JobId)
  | releaseQueue (job : JobId)
  | releaseCreated (job : JobId)
  | reap (job : JobId)
  | reapKnown (job : JobId) (containerId : String)
  | reapList (job : JobId) (settled : Bool)
  | reapRemove (job : JobId) (left : Finset String) (settled : Bool)
deriving DecidableEq

/-- The job a request is about; a destroy request knows its container only. -/
def Task.job : Task → Option JobId
  | .admitJob job _ | .beginCreate job | .dockerCreate job | .finishCreate job _
  | .discardReaped job _ | .rememberCreated job _ | .forget job _ | .releaseGate job
  | .releaseQueue job | .releaseCreated job | .reap job | .reapKnown job _ | .reapList job _
  | .reapRemove job _ _ => some job
  | .destroy _ abandonedBy => abandonedBy

/-- The request carries the container as one Docker made for the job. -/
def Task.holds (j : JobId) (c : String) (t : Task) : Prop :=
  t = .finishCreate j c ∨ t = .discardReaped j c ∨ t = .rememberCreated j c ∨
    t = .destroy c (some j)

/-- A request that has only just arrived. -/
def Task.arriving : Task → Bool
  | .admitJob _ _ | .destroy _ none | .reap _ => true
  | _ => false

/-- Where the reconciliation loop stands.  There is one loop, so one tick at a time. -/
inductive TickPhase
  | idle
  | listed (snapshot : List ContainerSnapshot)
  | acting (remove : List String) (start : List StartRequest)
  /-- Between the two sections of `requeue_after_failed_start`. -/
  | requeueing (job : JobId) (start : List StartRequest)
deriving DecidableEq

/-- A container Docker made for a job; ids are never used twice. -/
structure Container where
  job : JobId
  live : Bool
deriving DecidableEq, Repr

structure System where
  records : Records
  docker : Finmap fun _ : String => Container
  now : Instant
  tasks : Finmap fun _ : ℕ => Task
  tick : TickPhase
  /-- How many ticks have begun. -/
  tickNo : ℕ
deriving DecidableEq

/-- What Docker answers the call a request is in; ignored by a section without a call. -/
inductive Answer
  | ok
  | fail
  | created (containerId : String)
  /-- One of the containers a reap removes in turn, and whether that worked. -/
  | removal (containerId : String) (removed : Bool)
deriving DecidableEq, Repr

inductive Event
  /-- Time passes. -/
  | advance (d : ℕ)
  | postJob (i : ℕ) (job : JobId) (size : JobSize)
  | deleteContainer (i : ℕ) (containerId : String)
  | deleteJob (i : ℕ) (job : JobId)
  /-- The request `i` enters its next section or call. -/
  | run (i : ℕ) (answer : Answer)
  | tickList (snapshot : List ContainerSnapshot)
  | tickReconcile (nowMs : ℤ)
  | tickRemove (removed : Bool)
  | tickStart (answer : StartAnswer)
  | tickPush
  | tickEnd
deriving DecidableEq

/-- The records of a daemon that has adopted nothing. -/
def Records.fresh (budget : JobSize) (queueMax : U32) : Records :=
  ⟨Gate.new budget queueMax, .new, .new, .new⟩

namespace System

/-- A freshly started daemon over given records and containers. -/
def start (r : Records) (docker : Finmap fun _ : String => Container) : System :=
  ⟨r, docker, 0, ∅, .idle, 0⟩

def goto (s : System) (i : ℕ) (t : Task) : System := { s with tasks := s.tasks.insert i t }

def done (s : System) (i : ℕ) : System := { s with tasks := s.tasks.erase i }

def setGate (s : System) (gate : Gate) : System := { s with records := { s.records with gate } }

def setRegistry (s : System) (registry : JobRegistry) : System :=
  { s with records := { s.records with registry } }

/-- Docker still has the container. -/
def live (s : System) (containerId : String) : Bool :=
  (s.docker.lookup containerId).any (·.live)

/-- A successful removal; removing what is not there succeeds too. -/
def removeContainer (s : System) (containerId : String) : System :=
  { s with docker := s.docker.modify containerId fun c => { c with live := false } }

/-- Every live container labelled with the job. -/
def containersLabelled (s : System) (job : JobId) : Finset String :=
  s.docker.keys.filter fun c => s.docker.lookup c = some ⟨job, true⟩

/-- `force_remove` with Docker's answer. -/
def forceRemove (s : System) (containerId : String) : Answer → System
  | .ok => s.removeContainer containerId
  | _ => s

/-- `remember_created`, all under one critical section. -/
def remember (s : System) (job : JobId) (containerId : String) : System :=
  { s with records := { s.records with
      created := s.records.created.record job containerId
      queue := s.records.queue.push job } }

/-- The request `i`, standing at `t`, takes its next step. -/
def runTask (s : System) (i : ℕ) (answer : Answer) : Task → System
  | .admitJob job size =>
    match s.records.gate.admitJob job size with
    | .ok gate => (s.setGate gate).goto i (.beginCreate job)
    | .error _ => s.done i
  | .beginCreate job =>
    match s.records.registry.beginCreate job s.now with
    | (.proceed, registry) => (s.setRegistry registry).goto i (.dockerCreate job)
    | (_, registry) => (s.setRegistry registry).goto i (.releaseGate job)
  | .dockerCreate job =>
    match answer with
    | .created c =>
      if c ∈ s.docker then s
      else { s with docker := s.docker.insert c ⟨job, true⟩ }.goto i (.finishCreate job c)
    | _ => (s.setRegistry (s.records.registry.abandonCreate job)).goto i (.releaseGate job)
  | .finishCreate job c =>
    match s.records.registry.finishCreate job c s.now with
    | (.keep, registry) => (s.setRegistry registry).goto i (.rememberCreated job c)
    | (.discardReaped, registry) => (s.setRegistry registry).goto i (.discardReaped job c)
  | .discardReaped job c => (s.forceRemove c answer).goto i (.releaseGate job)
  | .rememberCreated job c =>
    if s.records.gate.tracks job then (s.remember job c).done i
    else s.goto i (.destroy c (some job))
  | .destroy c abandonedBy =>
    match answer, s.docker.lookup c with
    | .ok, some ⟨job, true⟩ => (s.removeContainer c).goto i (.forget job abandonedBy.isNone)
    | _, _ => s.done i
  | .forget job thenRelease =>
    let s := s.setRegistry (s.records.registry.forget job)
    if thenRelease then s.goto i (.releaseGate job) else s.done i
  | .releaseGate job => (s.setGate (s.records.gate.release job).2).goto i (.releaseQueue job)
  | .releaseQueue job =>
    { s with records := { s.records with queue := s.records.queue.remove job } }.goto i
      (.releaseCreated job)
  | .releaseCreated job =>
    { s with records := { s.records with created := s.records.created.forget job } }.done i
  | .reap job =>
    match s.records.registry.reap job s.now with
    | (some c, registry) => (s.setRegistry registry).goto i (.reapKnown job c)
    | (none, registry) => (s.setRegistry registry).goto i (.reapList job true)
  | .reapKnown job c => (s.forceRemove c answer).goto i (.reapList job (decide (answer = .ok)))
  | .reapList job settled =>
    match answer with
    | .ok => s.goto i (.reapRemove job (s.containersLabelled job) settled)
    | _ => s.goto i (.reapRemove job ∅ false)
  | .reapRemove job left settled =>
    if left = ∅ then if settled then s.goto i (.releaseGate job) else s.done i
    else match answer with
    | .removal c removed =>
      if c ∈ left then
        if removed then (s.removeContainer c).goto i (.reapRemove job (left.erase c) settled)
        else s.goto i (.reapRemove job (left.erase c) false)
      else s
    | _ => s

def step (s : System) : Event → System
  | .advance d => { s with now := s.now + d }
  | .postJob i job size => if i ∈ s.tasks then s else s.goto i (.admitJob job size)
  | .deleteContainer i c => if i ∈ s.tasks then s else s.goto i (.destroy c none)
  | .deleteJob i job => if i ∈ s.tasks then s else s.goto i (.reap job)
  | .run i answer =>
    match s.tasks.lookup i with
    | some t => s.runTask i answer t
    | none => s
  | .tickList snapshot =>
    match s.tick with
    | .idle => { s with tick := .listed snapshot, tickNo := s.tickNo + 1 }
    | _ => s
  | .tickReconcile nowMs =>
    match s.tick with
    | .listed snapshot =>
      let (records, outcome) := reconcile s.records snapshot nowMs
      { s with records := records, tick := .acting outcome.remove outcome.start }
    | _ => s
  | .tickRemove removed =>
    match s.tick with
    | .acting (c :: remove) start =>
      { if removed then s.removeContainer c else s with tick := .acting remove start }
    | _ => s
  | .tickStart answer =>
    match s.tick with
    | .acting [] (request :: start) =>
      match answer with
      | .ok => if s.live request.containerId then { s with tick := .acting [] start } else s
      | .noSuchContainer =>
        if s.live request.containerId then s
        else { s with records := s.records.releaseJob request.jobId, tick := .acting [] start }
      | .transient =>
        match s.records.gate.unstart request.jobId with
        | (true, gate) => { s.setGate gate with tick := .requeueing request.jobId start }
        | (false, gate) => { s.setGate gate with tick := .acting [] start }
    | _ => s
  | .tickPush =>
    match s.tick with
    | .requeueing job start =>
      { s with
        records := { s.records with queue := s.records.queue.push job }
        tick := .acting [] start }
    | _ => s
  | .tickEnd =>
    match s.tick with
    | .acting [] [] => { s with tick := .idle }
    | _ => s

/-- No request is in flight and no tick is under way. -/
def Quiescent (s : System) : Prop := s.tasks = ∅ ∧ s.tick = .idle

/-- The tick is between the two sections of a failed start's re-queueing of `j`. -/
def Requeueing (s : System) (j : JobId) : Prop := ∃ start, s.tick = .requeueing j start

/-- Some request in flight stands at a point with the property. -/
def Pending (s : System) (P : Task → Prop) : Prop := ∃ i t, s.tasks.lookup i = some t ∧ P t

instance (s : System) : Decidable s.Quiescent :=
  inferInstanceAs (Decidable (s.tasks = ∅ ∧ s.tick = .idle))

instance (s : System) (P : Task → Prop) [DecidablePred P] : Decidable (s.Pending P) :=
  decidable_of_iff (∃ i ∈ s.tasks.keys, (s.tasks.lookup i).any fun t => decide (P t)) <| by
    constructor
    · rintro ⟨i, -, h⟩
      obtain ⟨t, ht, hP⟩ := (Option.any_eq_true _ _).mp h
      exact ⟨i, t, ht, of_decide_eq_true hP⟩
    · rintro ⟨i, t, ht, hP⟩
      refine ⟨i, Finmap.mem_keys.mpr (Finmap.mem_of_lookup_eq_some ht), ?_⟩
      rw [ht]
      exact decide_eq_true hP

instance (s : System) (j : JobId) : Decidable (s.Requeueing j) :=
  match h : s.tick with
  | .requeueing k start =>
    decidable_of_iff (k = j) ⟨fun hk => ⟨start, hk ▸ h⟩, fun ⟨_, hk⟩ => by rw [h] at hk; cases hk; rfl⟩
  | .idle => .isFalse fun ⟨_, hk⟩ => by rw [h] at hk; cases hk
  | .listed _ => .isFalse fun ⟨_, hk⟩ => by rw [h] at hk; cases hk
  | .acting _ _ => .isFalse fun ⟨_, hk⟩ => by rw [h] at hk; cases hk

/-! ### What one step of a request can do -/

/-- Back in line at `next`, or finished. -/
def advanceTo (s : System) (i : ℕ) : Option Task → System
  | some next => s.goto i next
  | none => s.done i

/-- Everything the next section or call of a request can do to the rest of the system, and where
    the request stands afterwards. -/
inductive Moves (s : System) (answer : Answer) : Task → System → Option Task → Prop
  | admitted (job size) (hnew : job ∉ s.records.gate.jobs) :
      Moves s answer (.admitJob job size) (s.setGate (s.records.gate.put job ⟨size, false⟩))
        (some (.beginCreate job))
  | refused (job size) : Moves s answer (.admitJob job size) s none
  | claimed (job) (hfree : (s.records.registry.prune s.now).state job = none) :
      Moves s answer (.beginCreate job)
        (s.setRegistry ⟨(s.records.registry.prune s.now).jobs.insert job .creating⟩)
        (some (.dockerCreate job))
  | notClaimed (job) :
      Moves s answer (.beginCreate job) (s.setRegistry (s.records.registry.prune s.now))
        (some (.releaseGate job))
  | created (job c) (hfresh : c ∉ s.docker) :
      Moves s answer (.dockerCreate job) { s with docker := s.docker.insert c ⟨job, true⟩ }
        (some (.finishCreate job c))
  | createFailed (job) :
      Moves s answer (.dockerCreate job) (s.setRegistry (s.records.registry.abandonCreate job))
        (some (.releaseGate job))
  | kept (job c) (hlive : ∀ at_, s.records.registry.state job ≠ some (.reaped at_)) :
      Moves s answer (.finishCreate job c)
        (s.setRegistry (s.records.registry.finishCreate job c s.now).2)
        (some (.rememberCreated job c))
  | reaped (job c) (hreaped : ∃ at_, s.records.registry.state job = some (.reaped at_)) :
      Moves s answer (.finishCreate job c)
        (s.setRegistry (s.records.registry.finishCreate job c s.now).2)
        (some (.discardReaped job c))
  | discarded (job c) :
      Moves s answer (.discardReaped job c) (s.forceRemove c answer) (some (.releaseGate job))
  | remembered (job c) (htracked : job ∈ s.records.gate.jobs) :
      Moves s answer (.rememberCreated job c) (s.remember job c) none
  | untracked (job c) (hgone : job ∉ s.records.gate.jobs) :
      Moves s answer (.rememberCreated job c) s (some (.destroy c (some job)))
  | destroyed (c abandonedBy job) (hlive : s.docker.lookup c = some ⟨job, true⟩) :
      Moves s answer (.destroy c abandonedBy) (s.removeContainer c)
        (some (.forget job abandonedBy.isNone))
  | notDestroyed (c abandonedBy) (hfail : ¬ (answer = .ok ∧ s.live c = true)) :
      Moves s answer (.destroy c abandonedBy) s none
  | forgotten (job thenRelease) :
      Moves s answer (.forget job thenRelease) (s.setRegistry (s.records.registry.forget job))
        (if thenRelease then some (.releaseGate job) else none)
  | releasedGate (job) :
      Moves s answer (.releaseGate job) (s.setGate (s.records.gate.release job).2)
        (some (.releaseQueue job))
  | releasedQueue (job) :
      Moves s answer (.releaseQueue job)
        { s with records := { s.records with queue := s.records.queue.remove job } }
        (some (.releaseCreated job))
  | releasedCreated (job) :
      Moves s answer (.releaseCreated job)
        { s with records := { s.records with created := s.records.created.forget job } } none
  | reapMarked (job next) (hnext : next = .reapList job true ∨ ∃ c, next = .reapKnown job c) :
      Moves s answer (.reap job) (s.setRegistry (s.records.registry.reap job s.now).2) (some next)
  | reapKnownRemoved (job c) :
      Moves s answer (.reapKnown job c) (s.forceRemove c answer)
        (some (.reapList job (decide (answer = .ok))))
  | reapListed (job settled) :
      Moves s answer (.reapList job settled) s
        (some (.reapRemove job (s.containersLabelled job) settled))
  | reapNotListed (job settled) : Moves s answer (.reapList job settled) s (some (.reapRemove job ∅ false))
  | reapRemoved (job left settled c) :
      Moves s answer (.reapRemove job left settled) (s.removeContainer c)
        (some (.reapRemove job (left.erase c) settled))
  | reapNotRemoved (job left settled c) :
      Moves s answer (.reapRemove job left settled) s (some (.reapRemove job (left.erase c) false))
  | reapSettled (job) : Moves s answer (.reapRemove job ∅ true) s (some (.releaseGate job))
  | reapUnresolved (job) : Moves s answer (.reapRemove job ∅ false) s none

/-- A request's step is one of the moves, or Docker has not answered yet. -/
theorem runTask_moves (s : System) (i : ℕ) (answer : Answer) (t : Task) :
    s.runTask i answer t = s ∨
      ∃ u next, Moves s answer t u next ∧ s.runTask i answer t = u.advanceTo i next := by
  cases t with
  | admitJob job size =>
    right
    cases h : s.records.gate.admitJob job size with
    | ok gate =>
      obtain ⟨hnew, -, -, rfl⟩ := Gate.admitJob_eq_ok_iff.mp h
      exact ⟨_, _, .admitted job size hnew, by simp only [runTask, h]; rfl⟩
    | error err => exact ⟨_, _, .refused job size, by simp only [runTask, h]; rfl⟩
  | beginCreate job =>
    right
    rcases s.records.registry.beginCreate_spec job s.now with ⟨_, -, h⟩ | ⟨-, h⟩ | ⟨hfree, h⟩
    · exact ⟨_, _, .notClaimed job, by simp only [runTask, h]; rfl⟩
    · exact ⟨_, _, .notClaimed job, by simp only [runTask, h]; rfl⟩
    · exact ⟨_, _, .claimed job hfree, by simp only [runTask, h]; rfl⟩
  | dockerCreate job =>
    cases answer with
    | created c =>
      by_cases hc : c ∈ s.docker
      · exact .inl (by simp only [runTask, if_pos hc])
      · exact .inr ⟨_, _, .created job c hc, by simp only [runTask, if_neg hc]; rfl⟩
    | ok => exact .inr ⟨_, _, .createFailed job, rfl⟩
    | fail => exact .inr ⟨_, _, .createFailed job, rfl⟩
    | removal c removed => exact .inr ⟨_, _, .createFailed job, rfl⟩
  | finishCreate job c =>
    right
    have hiff := s.records.registry.finishCreate_discard_iff job c s.now
    cases h : s.records.registry.finishCreate job c s.now with
    | mk outcome registry =>
      rw [h] at hiff
      have hreg : registry = (s.records.registry.finishCreate job c s.now).2 := by rw [h]
      cases outcome with
      | keep =>
        have hlive : ∀ at_, s.records.registry.state job ≠ some (.reaped at_) :=
          fun at_ hat => by cases hiff.mpr ⟨at_, hat⟩
        exact ⟨_, _, .kept job c hlive, by simp only [runTask, h]; rfl⟩
      | discardReaped =>
        exact ⟨_, _, .reaped job c (hiff.mp rfl), by simp only [runTask, h]; rfl⟩
  | discardReaped job c => exact .inr ⟨_, _, .discarded job c, rfl⟩
  | rememberCreated job c =>
    right
    by_cases h : job ∈ s.records.gate.jobs
    · have htracks : s.records.gate.tracks job = true := (Gate.tracks_iff _ _).mpr h
      exact ⟨_, _, .remembered job c h, by simp only [runTask, if_pos htracks]; rfl⟩
    · have htracks : ¬ s.records.gate.tracks job = true := mt (Gate.tracks_iff _ _).mp h
      exact ⟨_, _, .untracked job c h, by simp only [runTask, if_neg htracks]; rfl⟩
  | destroy c abandonedBy =>
    right
    simp only [runTask]
    split
    case h_1 job hlook => exact ⟨_, _, .destroyed c abandonedBy job hlook, rfl⟩
    case h_2 hnot =>
      refine ⟨_, _, .notDestroyed c abandonedBy ?_, rfl⟩
      rintro ⟨rfl, hlive⟩
      obtain ⟨⟨job, live⟩, hlook, hlive⟩ := (Option.any_eq_true _ _).mp hlive
      obtain rfl : live = true := hlive
      exact hnot job rfl hlook
  | forget job thenRelease =>
    refine .inr ⟨_, _, .forgotten job thenRelease, ?_⟩
    cases thenRelease <;> rfl
  | releaseGate job => exact .inr ⟨_, _, .releasedGate job, rfl⟩
  | releaseQueue job => exact .inr ⟨_, _, .releasedQueue job, rfl⟩
  | releaseCreated job => exact .inr ⟨_, _, .releasedCreated job, rfl⟩
  | reap job =>
    right
    cases h : s.records.registry.reap job s.now with
    | mk known registry =>
      have hreg : registry = (s.records.registry.reap job s.now).2 := by rw [h]
      cases known with
      | none =>
        exact ⟨_, _, .reapMarked job _ (.inl rfl), by simp only [runTask, h]; rfl⟩
      | some c =>
        exact ⟨_, _, .reapMarked job _ (.inr ⟨c, rfl⟩), by simp only [runTask, h]; rfl⟩
  | reapKnown job c => exact .inr ⟨_, _, .reapKnownRemoved job c, rfl⟩
  | reapList job settled =>
    cases answer with
    | ok => exact .inr ⟨_, _, .reapListed job settled, rfl⟩
    | fail => exact .inr ⟨_, _, .reapNotListed job settled, rfl⟩
    | created c => exact .inr ⟨_, _, .reapNotListed job settled, rfl⟩
    | removal c removed => exact .inr ⟨_, _, .reapNotListed job settled, rfl⟩
  | reapRemove job left settled =>
    by_cases hleft : left = ∅
    · subst hleft
      cases settled with
      | true => exact .inr ⟨_, _, .reapSettled job, rfl⟩
      | false => exact .inr ⟨_, _, .reapUnresolved job, rfl⟩
    · cases answer with
      | removal c removed =>
        by_cases hc : c ∈ left
        · cases removed with
          | true =>
            exact .inr ⟨_, _, .reapRemoved job left settled c, by simp [runTask, hleft, hc, advanceTo]⟩
          | false =>
            exact .inr ⟨_, _, .reapNotRemoved job left settled c,
              by simp [runTask, hleft, hc, advanceTo]⟩
        · exact .inl (by simp [runTask, hleft, hc])
      | ok => exact .inl (by simp [runTask, hleft])
      | fail => exact .inl (by simp [runTask, hleft])
      | created c => exact .inl (by simp [runTask, hleft])

/-- Everything one step of the machine can do. -/
inductive Effect (s : System) : Event → System → Prop
  | stuttered (e) : Effect s e s
  | advanced (d) : Effect s (.advance d) { s with now := s.now + d }
  | spawned (e i t) (hi : i ∉ s.tasks) (ht : t.arriving = true) : Effect s e (s.goto i t)
  | moved (i answer t u next) (ht : s.tasks.lookup i = some t) (hmove : Moves s answer t u next) :
      Effect s (.run i answer) (u.advanceTo i next)
  | listed (snapshot) (htick : s.tick = .idle) :
      Effect s (.tickList snapshot) { s with tick := .listed snapshot, tickNo := s.tickNo + 1 }
  | reconciled (nowMs snapshot) (htick : s.tick = .listed snapshot) :
      Effect s (.tickReconcile nowMs)
        { s with
          records := (reconcile s.records snapshot nowMs).1
          tick := .acting (reconcile s.records snapshot nowMs).2.remove
            (reconcile s.records snapshot nowMs).2.start }
  | removed (c remove start) (htick : s.tick = .acting (c :: remove) start) :
      Effect s (.tickRemove true) { s.removeContainer c with tick := .acting remove start }
  | notRemoved (c remove start) (htick : s.tick = .acting (c :: remove) start) :
      Effect s (.tickRemove false) { s with tick := .acting remove start }
  | started (request start) (htick : s.tick = .acting [] (request :: start))
      (hlive : s.live request.containerId = true) :
      Effect s (.tickStart .ok) { s with tick := .acting [] start }
  | vanished (request start) (htick : s.tick = .acting [] (request :: start))
      (hgone : s.live request.containerId = false) :
      Effect s (.tickStart .noSuchContainer)
        { s with records := s.records.releaseJob request.jobId, tick := .acting [] start }
  | unstarted (request start e) (htick : s.tick = .acting [] (request :: start))
      (hlook : s.records.gate.jobs.lookup request.jobId = some e) :
      Effect s (.tickStart .transient)
        { s.setGate (s.records.gate.put request.jobId { e with running := false }) with
          tick := .requeueing request.jobId start }
  | untrackedStart (request start) (htick : s.tick = .acting [] (request :: start))
      (hgone : request.jobId ∉ s.records.gate.jobs) :
      Effect s (.tickStart .transient) { s with tick := .acting [] start }
  | pushed (job start) (htick : s.tick = .requeueing job start) :
      Effect s .tickPush
        { s with
          records := { s.records with queue := s.records.queue.push job }
          tick := .acting [] start }
  | ended (htick : s.tick = .acting [] []) : Effect s .tickEnd { s with tick := .idle }

theorem step_effect (s : System) (e : Event) : s.Effect e (s.step e) := by
  cases e with
  | advance d => exact .advanced d
  | postJob i job size =>
    simp only [step]
    split
    case isTrue => exact .stuttered _
    case isFalse hi => exact .spawned _ i _ hi rfl
  | deleteContainer i c =>
    simp only [step]
    split
    case isTrue => exact .stuttered _
    case isFalse hi => exact .spawned _ i _ hi rfl
  | deleteJob i job =>
    simp only [step]
    split
    case isTrue => exact .stuttered _
    case isFalse hi => exact .spawned _ i _ hi rfl
  | run i answer =>
    cases ht : s.tasks.lookup i with
    | none =>
      simp only [step, ht]
      exact .stuttered _
    | some t =>
      simp only [step, ht]
      rcases s.runTask_moves i answer t with heq | ⟨u, next, hmove, heq⟩
      · rw [heq]
        exact .stuttered _
      · rw [heq]
        exact .moved i answer t u next ht hmove
  | tickList snapshot =>
    cases htick : s.tick with
    | idle => simpa only [step, htick] using .listed snapshot htick
    | _ => simpa only [step, htick] using .stuttered _
  | tickReconcile nowMs =>
    cases htick : s.tick with
    | listed snapshot => simpa only [step, htick] using .reconciled nowMs snapshot htick
    | _ => simpa only [step, htick] using .stuttered _
  | tickRemove removed =>
    simp only [step]
    split
    case h_1 c remove start htick =>
      cases removed
      · exact .notRemoved c remove start htick
      · exact .removed c remove start htick
    case h_2 => exact .stuttered _
  | tickStart answer =>
    simp only [step]
    split
    case h_1 request start htick =>
      cases answer with
      | ok =>
        dsimp only
        split
        case isTrue hlive => exact .started request start htick hlive
        case isFalse => exact .stuttered _
      | noSuchContainer =>
        dsimp only
        split
        case isTrue => exact .stuttered _
        case isFalse hgone => exact .vanished request start htick (Bool.eq_false_of_not_eq_true hgone)
      | transient =>
        dsimp only
        by_cases hmem : request.jobId ∈ s.records.gate.jobs
        · obtain ⟨e, he⟩ := Finmap.mem_iff.mp hmem
          rw [Gate.unstart_of_lookup he]
          exact .unstarted request start e htick he
        · rw [Gate.unstart_of_notMem hmem]
          exact .untrackedStart request start htick hmem
    case h_2 => exact .stuttered _
  | tickPush =>
    simp only [step]
    split
    case h_1 job start htick => exact .pushed job start htick
    case h_2 => exact .stuttered _
  | tickEnd =>
    simp only [step]
    split
    case h_1 htick => exact .ended htick
    case h_2 => exact .stuttered _

/-! ### What a step leaves alone -/

theorem Moves.tasks_eq {s u : System} {answer : Answer} {t : Task} {next : Option Task}
    (h : Moves s answer t u next) : u.tasks = s.tasks := by
  cases h with
  | discarded job c => cases answer <;> rfl
  | reapKnownRemoved job c => cases answer <;> rfl
  | _ => rfl

theorem Moves.tick_eq {s u : System} {answer : Answer} {t : Task} {next : Option Task}
    (h : Moves s answer t u next) : u.tick = s.tick := by
  cases h with
  | discarded job c => cases answer <;> rfl
  | reapKnownRemoved job c => cases answer <;> rfl
  | _ => rfl

theorem Moves.tickNo_eq {s u : System} {answer : Answer} {t : Task} {next : Option Task}
    (h : Moves s answer t u next) : u.tickNo = s.tickNo := by
  cases h with
  | discarded job c => cases answer <;> rfl
  | reapKnownRemoved job c => cases answer <;> rfl
  | _ => rfl

@[simp] theorem advanceTo_records (s : System) (i : ℕ) (next : Option Task) :
    (s.advanceTo i next).records = s.records := by
  cases next <;> rfl

@[simp] theorem advanceTo_docker (s : System) (i : ℕ) (next : Option Task) :
    (s.advanceTo i next).docker = s.docker := by
  cases next <;> rfl

@[simp] theorem advanceTo_tick (s : System) (i : ℕ) (next : Option Task) :
    (s.advanceTo i next).tick = s.tick := by
  cases next <;> rfl

@[simp] theorem advanceTo_tickNo (s : System) (i : ℕ) (next : Option Task) :
    (s.advanceTo i next).tickNo = s.tickNo := by
  cases next <;> rfl

/-- A request that did not stand at `P` may move on: who did still does. -/
theorem Pending.advanceTo {s u : System} (htasks : u.tasks = s.tasks) {i : ℕ} {t : Task}
    (ht : s.tasks.lookup i = some t) {P : Task → Prop} (hP : ¬ P t) (next : Option Task)
    (h : s.Pending P) : (u.advanceTo i next).Pending P := by
  obtain ⟨k, t', ht', hP'⟩ := h
  have hne : k ≠ i := by
    rintro rfl
    rw [ht] at ht'
    exact hP (Option.some.inj ht' ▸ hP')
  refine ⟨k, t', ?_, hP'⟩
  cases next with
  | none => exact (Finmap.lookup_erase_ne hne).trans (htasks ▸ ht')
  | some n => exact (Finmap.lookup_insert_of_ne _ hne).trans (htasks ▸ ht')

/-- The same when a request that stood at `P` moves on to `P`. -/
theorem Pending.carry {s u : System} (htasks : u.tasks = s.tasks) {i : ℕ} {t : Task}
    (ht : s.tasks.lookup i = some t) {P : Task → Prop} {next : Option Task}
    (hcarry : P t → ∃ n, next = some n ∧ P n) (h : s.Pending P) :
    (u.advanceTo i next).Pending P := by
  by_cases hP : P t
  · obtain ⟨n, rfl, hn⟩ := hcarry hP
    exact ⟨i, n, Finmap.lookup_insert _, hn⟩
  · exact h.advanceTo htasks ht hP next

/-- The request stands where it went. -/
theorem pending_goto (s : System) (i : ℕ) {t : Task} {P : Task → Prop} (hP : P t) :
    (s.advanceTo i (some t)).Pending P :=
  ⟨i, t, Finmap.lookup_insert _, hP⟩

/-- A new request disturbs nobody. -/
theorem Pending.spawn {s : System} {i : ℕ} (hi : i ∉ s.tasks) (t : Task) {P : Task → Prop}
    (h : s.Pending P) : (s.goto i t).Pending P := by
  obtain ⟨k, t', ht', hP⟩ := h
  have hne : k ≠ i := by
    rintro rfl
    exact hi (Finmap.mem_of_lookup_eq_some ht')
  exact ⟨k, t', (Finmap.lookup_insert_of_ne _ hne).trans ht', hP⟩

/-! ### Containers carry the label of their job -/

/-- Docker made the container for the job, whether or not it still has it. -/
def Labelled (s : System) (c : String) (j : JobId) : Prop :=
  (s.docker.lookup c).map (·.job) = some j

theorem labelled_removeContainer {s : System} {c : String} {j : JobId} (d : String)
    (h : s.Labelled c j) : (s.removeContainer d).Labelled c j := by
  unfold Labelled removeContainer at *
  rw [Finmap.lookup_modify]
  by_cases hc : c = d
  · subst hc
    rwa [if_pos rfl, Option.map_map]
  · rwa [if_neg hc]

theorem labelled_forceRemove {s : System} {c : String} {j : JobId} (d : String) (answer : Answer)
    (h : s.Labelled c j) : (s.forceRemove d answer).Labelled c j := by
  cases answer with
  | ok => exact labelled_removeContainer d h
  | _ => exact h

theorem Moves.labelled {s u : System} {answer : Answer} {t : Task} {next : Option Task}
    (h : Moves s answer t u next)
    {c : String} {j : JobId} (hc : s.Labelled c j) : u.Labelled c j := by
  cases h with
  | created job d hfresh =>
    have hne : c ≠ d := by
      rintro rfl
      rw [Labelled, Finmap.lookup_eq_none.mpr hfresh] at hc
      cases hc
    rwa [Labelled, Finmap.lookup_insert_of_ne _ hne]
  | discarded job d => exact labelled_forceRemove d answer hc
  | reapKnownRemoved job d => exact labelled_forceRemove d answer hc
  | destroyed d _ job _ => exact labelled_removeContainer d hc
  | reapRemoved job left settled d => exact labelled_removeContainer d hc
  | _ => exact hc

theorem Effect.labelled {s s' : System} {e : Event} (h : s.Effect e s') {c : String} {j : JobId}
    (hc : s.Labelled c j) : s'.Labelled c j := by
  cases h with
  | moved i answer t u next ht hmove =>
    rw [Labelled, advanceTo_docker]
    exact hmove.labelled hc
  | removed d remove start htick => exact labelled_removeContainer d hc
  | _ => exact hc

theorem live_removeContainer (s : System) (c d : String) :
    (s.removeContainer d).live c = true ↔ s.live c = true ∧ c ≠ d := by
  unfold live removeContainer
  rw [Finmap.lookup_modify]
  by_cases hc : c = d
  · rw [if_pos hc]
    cases s.docker.lookup d <;> simp [hc]
  · simp [hc]

theorem live_of_forceRemove {s : System} {c d : String} {answer : Answer}
    (h : (s.forceRemove d answer).live c = true) : s.live c = true := by
  cases answer with
  | ok => exact ((live_removeContainer s c d).mp h).1
  | _ => exact h

theorem Moves.live {s u : System} {answer : Answer} {t : Task} {next : Option Task}
    (h : Moves s answer t u next) {c : String} {j : JobId} (hc : s.Labelled c j)
    (hl : u.live c = true) : s.live c = true := by
  cases h with
  | created job d hfresh =>
    have hne : c ≠ d := by
      rintro rfl
      rw [Labelled, Finmap.lookup_eq_none.mpr hfresh] at hc
      cases hc
    rwa [System.live, Finmap.lookup_insert_of_ne _ hne] at hl
  | discarded job d => exact live_of_forceRemove hl
  | reapKnownRemoved job d => exact live_of_forceRemove hl
  | destroyed d _ job _ => exact ((live_removeContainer s c d).mp hl).1
  | reapRemoved job left settled d => exact ((live_removeContainer s c d).mp hl).1
  | _ => exact hl

/-- No step brings a container back. -/
theorem Effect.live {s s' : System} {e : Event} (h : s.Effect e s') {c : String} {j : JobId}
    (hc : s.Labelled c j) (hl : s'.live c = true) : s.live c = true := by
  cases h with
  | moved i answer t u next ht hmove =>
    rw [System.live, advanceTo_docker] at hl
    exact hmove.live hc hl
  | removed d remove start htick => exact ((live_removeContainer s c d).mp hl).1
  | _ => exact hl

/-- Every container a request carries was made for the request's job. -/
def TasksLabelled (s : System) : Prop :=
  ∀ i t, s.tasks.lookup i = some t → ∀ j c, t.holds j c → s.Labelled c j

theorem Moves.holds {s u : System} {answer : Answer} {t n : Task}
    (h : Moves s answer t u (some n)) {j : JobId} {c : String} (hn : n.holds j c) :
    t.holds j c ∨ u.Labelled c j := by
  unfold Task.holds at *
  generalize hnext : some n = next at h
  cases h with
  | created job d hfresh =>
    obtain rfl := Option.some.inj hnext
    simp only [Task.finishCreate.injEq, reduceCtorEq, or_false] at hn
    obtain ⟨rfl, rfl⟩ := hn
    right
    rw [Labelled, Finmap.lookup_insert]
    rfl
  | forgotten job thenRelease => cases thenRelease <;> simp_all
  | reapMarked job next hnext' =>
    obtain rfl := Option.some.inj hnext
    rcases hnext' with rfl | ⟨d, rfl⟩ <;> simp at hn
  | _ => simp_all

/-- Where a request stands after a step: where it stood, just arrived, or where it moved. -/
theorem Effect.lookup {s s' : System} {e : Event} (h : s.Effect e s') {i : ℕ} {t : Task}
    (ht : s'.tasks.lookup i = some t) :
    s.tasks.lookup i = some t ∨ (i ∉ s.tasks ∧ t.arriving = true) ∨
      ∃ answer t₀ u, e = .run i answer ∧ s.tasks.lookup i = some t₀ ∧
        Moves s answer t₀ u (some t) ∧ s' = u.advanceTo i (some t) := by
  cases h with
  | spawned _ k t' hk hnew =>
    by_cases hik : i = k
    · subst hik
      rw [goto, Finmap.lookup_insert] at ht
      exact .inr (.inl ⟨hk, Option.some.inj ht ▸ hnew⟩)
    · rw [goto, Finmap.lookup_insert_of_ne _ hik] at ht
      exact .inl ht
  | moved k answer t₀ u next ht₀ hmove =>
    by_cases hik : i = k
    · subst hik
      cases next with
      | none =>
        rw [advanceTo, done, Finmap.lookup_erase] at ht
        cases ht
      | some n =>
        rw [advanceTo, goto, Finmap.lookup_insert] at ht
        obtain rfl := Option.some.inj ht
        exact .inr (.inr ⟨answer, t₀, u, rfl, ht₀, hmove, rfl⟩)
    · left
      cases next with
      | none => rwa [advanceTo, done, Finmap.lookup_erase_ne hik, hmove.tasks_eq] at ht
      | some n => rwa [advanceTo, goto, Finmap.lookup_insert_of_ne _ hik, hmove.tasks_eq] at ht
  | _ => exact .inl ht

theorem TasksLabelled.step {s : System} (h : s.TasksLabelled) (e : Event) :
    (s.step e).TasksLabelled := by
  intro i t ht j c hc
  have heff := s.step_effect e
  rcases heff.lookup ht with hold | ⟨-, hnew⟩ | ⟨answer, t₀, u, rfl, ht₀, hmove, hs⟩
  · exact heff.labelled (h i t hold j c hc)
  · rcases hc with rfl | rfl | rfl | rfl <;> cases hnew
  · rcases hmove.holds hc with hc | hc
    · exact heff.labelled (h i t₀ ht₀ j c hc)
    · rw [hs, Labelled, advanceTo_docker]
      exact hc

/-- The start requests the tick has still to issue. -/
def starts (s : System) : List StartRequest :=
  match s.tick with
  | .acting _ start | .requeueing _ start => start
  | .idle | .listed _ => []

/-- Every container the daemon refers to was made for the job it is referred to for. -/
structure AllLabelled (s : System) : Prop where
  tasks : s.TasksLabelled
  recorded : ∀ j c, s.records.created.existing j = some c → s.Labelled c j
  starts : ∀ request ∈ s.starts, s.Labelled request.containerId request.jobId

/-- What a request's move does to the record of a job: nothing, or it writes the container the
    request carries, or it drops the record. -/
theorem Moves.existing {s u : System} {answer : Answer} {t : Task} {next : Option Task}
    (h : Moves s answer t u next) (j : JobId) :
    u.records.created.existing j = s.records.created.existing j ∨
    (∃ c, t = .rememberCreated j c ∧ u.records.created.existing j = some c) ∨
    u.records.created.existing j = none := by
  cases h with
  | remembered job c htracked =>
    have hrecord := CreatedContainers.existing_record s.records.created job j c
    by_cases hj : j = job
    · subst hj
      exact .inr (.inl ⟨c, rfl, hrecord.trans (if_pos rfl)⟩)
    · exact .inl (hrecord.trans (if_neg hj))
  | releasedCreated job =>
    have hforget := CreatedContainers.existing_forget s.records.created job j
    by_cases hj : j = job
    · exact .inr (.inr (hforget.trans (if_pos hj)))
    · exact .inl (hforget.trans (if_neg hj))
  | discarded job c => cases answer <;> exact .inl rfl
  | reapKnownRemoved job c => cases answer <;> exact .inl rfl
  | _ => exact .inl rfl

/-- A promoted job's start request names the container recorded for it. -/
theorem mem_start_reconcile {r : Records} {snapshot : List ContainerSnapshot} {nowMs : ℤ}
    {request : StartRequest} (h : request ∈ (reconcile r snapshot nowMs).2.start) :
    request.jobId ∈ r.queue.waiting ∧
      r.created.existing request.jobId = some request.containerId := by
  rw [reconcile_eq] at h
  obtain ⟨j, hj, hmap⟩ := List.mem_filterMap.mp h
  obtain ⟨c, hc, rfl⟩ := Option.map_eq_some_iff.mp hmap
  have hwaiting := (promote_sublist _ _).subset hj
  rw [Records.waiting_releaseMany] at hwaiting
  rw [Records.existing_releaseMany] at hc
  refine ⟨(List.mem_filter.mp hwaiting).1, ?_⟩
  split at hc
  · cases hc
  · exact hc

/-- The records of a job after a tick are those before, or gone. -/
theorem existing_reconcile {r : Records} {snapshot : List ContainerSnapshot} {nowMs : ℤ} {j : JobId}
    {c : String} (h : (reconcile r snapshot nowMs).1.created.existing j = some c) :
    r.created.existing j = some c := by
  rcases reconcile_job r snapshot nowMs j with ⟨-, hgone⟩ | ⟨-, hstarted | hsame⟩
  · rw [hgone.created] at h
    cases h
  · exact hstarted.created ▸ h
  · exact hsame.created ▸ h

/-- A record found after a step was there before, or a create has just written it. -/
theorem Effect.existing {s s' : System} {e : Event} (h : s.Effect e s') {j : JobId} {c : String}
    (hc : s'.records.created.existing j = some c) :
    s.records.created.existing j = some c ∨ s.Pending fun t => t = .rememberCreated j c := by
  cases h with
  | moved i answer t u next ht hmove =>
    rw [advanceTo_records] at hc
    rcases hmove.existing j with heq | ⟨d, rfl, heq⟩ | heq
    · exact .inl (heq ▸ hc)
    · obtain rfl : d = c := Option.some.inj (heq.symm.trans hc)
      exact .inr ⟨i, _, ht, rfl⟩
    · rw [heq] at hc
      cases hc
  | reconciled nowMs snapshot htick => exact .inl (existing_reconcile hc)
  | vanished request start htick hgone =>
    have hforget := CreatedContainers.existing_forget s.records.created request.jobId j
    have hc := hforget.symm.trans hc
    split at hc
    · cases hc
    · exact .inl hc
  | _ => exact .inl hc

/-- A start request the tick holds after a step: it held it before, or a reconciliation has just
    promoted its job with the container recorded for it. -/
theorem Effect.mem_starts {s s' : System} {e : Event} (h : s.Effect e s') {request : StartRequest}
    (hr : request ∈ s'.starts) :
    (request ∈ s.starts ∧ s'.tickNo = s.tickNo) ∨
      (request.jobId ∈ s.records.queue.waiting ∧
        s.records.created.existing request.jobId = some request.containerId) := by
  unfold System.starts at *
  cases h with
  | moved i answer t u next ht hmove =>
    rw [advanceTo_tick, hmove.tick_eq] at hr
    rw [advanceTo_tickNo, hmove.tickNo_eq]
    exact .inl ⟨hr, rfl⟩
  | reconciled nowMs snapshot htick => exact .inr (mem_start_reconcile hr)
  | listed snapshot htick => cases hr
  | ended htick => cases hr
  | removed c remove start htick => exact .inl ⟨by rw [htick]; exact hr, rfl⟩
  | notRemoved c remove start htick => exact .inl ⟨by rw [htick]; exact hr, rfl⟩
  | started r start htick hlive => exact .inl ⟨by rw [htick]; exact List.mem_cons_of_mem _ hr, rfl⟩
  | vanished r start htick hgone => exact .inl ⟨by rw [htick]; exact List.mem_cons_of_mem _ hr, rfl⟩
  | unstarted r start e htick hlook =>
    exact .inl ⟨by rw [htick]; exact List.mem_cons_of_mem _ hr, rfl⟩
  | untrackedStart r start htick hgone =>
    exact .inl ⟨by rw [htick]; exact List.mem_cons_of_mem _ hr, rfl⟩
  | pushed job start htick => exact .inl ⟨by rw [htick]; exact hr, rfl⟩
  | _ => exact .inl ⟨hr, rfl⟩

theorem AllLabelled.step {s : System} (h : s.AllLabelled) (e : Event) : (s.step e).AllLabelled := by
  have heff := s.step_effect e
  refine ⟨h.tasks.step e, fun j c hc => heff.labelled ?_, fun request hr => heff.labelled ?_⟩
  · rcases heff.existing hc with hold | ⟨i, t, ht, rfl⟩
    · exact h.recorded j c hold
    · exact h.tasks i _ ht j c (.inr (.inr (.inl rfl)))
  · rcases heff.mem_starts hr with ⟨hold, -⟩ | ⟨-, hexisting⟩
    · exact h.starts request hold
    · exact h.recorded _ _ hexisting

end System

end GhRunner.Daemon
