import GhRunner.Daemon.Gate

namespace GhRunner.Daemon

/-!
# The in-flight job registry

What the daemon knows about a job id while its container is being created, and the tombstone a
reap leaves behind (`crates/daemon/src/docker/registry.rs`).

* `JobState` — a create in flight, an existing container, or a reaped job;
* `JobRegistry` — the map, with one definition per method;
* one spec lemma per method, in terms of `lookup`.

Instants are nanoseconds since an arbitrary origin; the caller passes `now`.
-/

/-- Nanoseconds on the monotonic clock. -/
abbrev Instant := ℕ

/-- How long a tombstone is kept: 600 s. -/
def TOMBSTONE_TTL : ℕ := 600 * 1000000000

/-- What the daemon knows about one job id. -/
inductive JobState
  | creating
  | created (containerId : String)
  | reaped (at_ : Instant)
deriving DecidableEq, Repr

/-- What `beginCreate` decided about a create that is about to call Docker. -/
inductive BeginOutcome
  | proceed
  | alreadyReaped
  | alreadyTracked
deriving DecidableEq, Repr

/-- What `finishCreate` decided about a container that has just been created. -/
inductive FinishOutcome
  | keep
  | discardReaped
deriving DecidableEq, Repr

structure JobRegistry where
  jobs : Finmap fun _ : JobId => JobState
deriving DecidableEq

/-- A tombstone older than `TOMBSTONE_TTL` is dropped; nothing else expires by time. -/
def JobState.expired (now : Instant) : JobState → Bool
  | .reaped at_ => !decide (now - at_ < TOMBSTONE_TTL)
  | .creating | .created _ => false

namespace JobRegistry

def new : JobRegistry := ⟨∅⟩

/-- What the registry holds for one job. -/
def state (r : JobRegistry) (j : JobId) : Option JobState := r.jobs.lookup j

/-- The job's container exists and is claimed. -/
def isCreated (r : JobRegistry) (j : JobId) : Bool :=
  (r.state j).any fun state => match state with | .created _ => true | _ => false

def prune (r : JobRegistry) (now : Instant) : JobRegistry :=
  ⟨r.jobs.retain fun _ state => !state.expired now⟩

def beginCreate (r : JobRegistry) (jobId : JobId) (now : Instant) : BeginOutcome × JobRegistry :=
  let r := r.prune now
  match r.state jobId with
  | some (.reaped _) => (.alreadyReaped, r)
  | some .creating | some (.created _) => (.alreadyTracked, r)
  | none => (.proceed, ⟨r.jobs.insert jobId .creating⟩)

/-- A reap that arrived while the create was in flight keeps its tombstone, refreshed. -/
def finishCreate (r : JobRegistry) (jobId : JobId) (containerId : String) (now : Instant) :
    FinishOutcome × JobRegistry :=
  match r.state jobId with
  | some (.reaped _) => (.discardReaped, ⟨r.jobs.insert jobId (.reaped now)⟩)
  | some .creating | some (.created _) | none =>
    (.keep, ⟨r.jobs.insert jobId (.created containerId)⟩)

def abandonCreate (r : JobRegistry) (jobId : JobId) : JobRegistry :=
  match r.state jobId with
  | some .creating | some (.created _) => ⟨r.jobs.erase jobId⟩
  | some (.reaped _) | none => r

def reap (r : JobRegistry) (jobId : JobId) (now : Instant) : Option String × JobRegistry :=
  let r := r.prune now
  let previous := r.state jobId
  (match previous with
    | some (.created containerId) => some containerId
    | some .creating | some (.reaped _) | none => none,
   ⟨r.jobs.insert jobId (.reaped now)⟩)

def forget (r : JobRegistry) (jobId : JobId) : JobRegistry := ⟨r.jobs.erase jobId⟩

/-! ### Each method by what it leaves behind -/

@[simp] theorem state_new (j : JobId) : new.state j = none := rfl

theorem isCreated_iff {r : JobRegistry} {j : JobId} :
    r.isCreated j = true ↔ ∃ c, r.state j = some (.created c) := by
  unfold isCreated
  cases h : r.state j with
  | none => simp
  | some state => cases state <;> simp

theorem state_prune (r : JobRegistry) (now : Instant) (j : JobId) :
    (r.prune now).state j = (r.state j).filter fun state => !state.expired now :=
  Finmap.lookup_retain _ _ _

@[simp] theorem state_forget (r : JobRegistry) (j k : JobId) :
    (r.forget j).state k = if k = j then none else r.state k := by
  unfold state forget
  by_cases hk : k = j
  · rw [if_pos hk, hk, Finmap.lookup_erase]
  · rw [if_neg hk, Finmap.lookup_erase_ne hk]

theorem state_insert (m : Finmap fun _ : JobId => JobState) (j k : JobId) (s : JobState) :
    (⟨m.insert j s⟩ : JobRegistry).state k = if k = j then some s else m.lookup k := by
  unfold state
  by_cases hk : k = j
  · rw [if_pos hk, hk, Finmap.lookup_insert]
  · rw [if_neg hk, Finmap.lookup_insert_of_ne _ hk]

@[simp] theorem state_reap (r : JobRegistry) (j k : JobId) (now : Instant) :
    (r.reap j now).2.state k = if k = j then some (.reaped now) else (r.prune now).state k :=
  state_insert _ _ _ _

/-- `beginCreate` answers by the unexpired state, and claims the job when there is none. -/
theorem beginCreate_spec (r : JobRegistry) (j : JobId) (now : Instant) :
    (∃ at_, (r.prune now).state j = some (.reaped at_) ∧
      r.beginCreate j now = (.alreadyReaped, r.prune now)) ∨
    (((r.prune now).state j = some .creating ∨ ∃ c, (r.prune now).state j = some (.created c)) ∧
      r.beginCreate j now = (.alreadyTracked, r.prune now)) ∨
    ((r.prune now).state j = none ∧
      r.beginCreate j now = (.proceed, ⟨(r.prune now).jobs.insert j .creating⟩)) := by
  unfold beginCreate
  cases h : (r.prune now).state j with
  | none => exact .inr (.inr ⟨rfl, by simp [h]⟩)
  | some s =>
    cases s with
    | reaped at_ => exact .inl ⟨at_, rfl, by simp [h]⟩
    | creating => exact .inr (.inl ⟨.inl rfl, by simp [h]⟩)
    | created c => exact .inr (.inl ⟨.inr ⟨c, rfl⟩, by simp [h]⟩)

/-- A claim that was granted stands as `creating`. -/
theorem state_beginCreate_proceed {r : JobRegistry} {j : JobId} {now : Instant}
    (h : (r.beginCreate j now).1 = .proceed) :
    (r.prune now).state j = none ∧ (r.beginCreate j now).2.state j = some .creating := by
  rcases r.beginCreate_spec j now with ⟨_, -, hb⟩ | ⟨-, hb⟩ | ⟨hnone, hb⟩
  · rw [hb] at h
    cases h
  · rw [hb] at h
    cases h
  · rw [hb, state_insert, if_pos rfl]
    exact ⟨hnone, rfl⟩

theorem state_finishCreate (r : JobRegistry) (j k : JobId) (c : String) (now : Instant) :
    (r.finishCreate j c now).2.state k =
      if k = j then
        (match r.state j with
          | some (.reaped _) => some (.reaped now)
          | _ => some (.created c))
      else r.state k := by
  unfold finishCreate
  cases h : r.state j with
  | none => exact state_insert _ _ _ _
  | some s => cases s <;> exact state_insert _ _ _ _

theorem finishCreate_discard_iff (r : JobRegistry) (j : JobId) (c : String) (now : Instant) :
    (r.finishCreate j c now).1 = .discardReaped ↔ ∃ at_, r.state j = some (.reaped at_) := by
  unfold finishCreate
  cases h : r.state j with
  | none => simp
  | some s => cases s <;> simp

theorem state_abandonCreate (r : JobRegistry) (j k : JobId) :
    (r.abandonCreate j).state k =
      if k = j then (r.state j).filter (fun s => match s with | .reaped _ => true | _ => false)
      else r.state k := by
  have herase : (⟨r.jobs.erase j⟩ : JobRegistry).state k = if k = j then none else r.state k :=
    r.state_forget j k
  unfold abandonCreate
  cases h : r.state j with
  | none =>
    by_cases hk : k = j
    · rw [if_pos hk, hk, h]
      rfl
    · rw [if_neg hk]
  | some s =>
    cases s with
    | creating => exact herase
    | created c => exact herase
    | reaped at_ =>
      by_cases hk : k = j
      · rw [if_pos hk, hk, h]
        rfl
      · rw [if_neg hk]

end JobRegistry

end GhRunner.Daemon
