import GhRunner.Lib.Text

namespace GhRunner.Listener

open Text

/-!
# The watcher of a claim

The task beside a toolu.sh job (`watch_claim`, `heartbeat` and `mark_dispatched` of
`crates/toolu-runner/src/poll_job.rs`): it says that the listener has started, renews the lease, and cancels the
job at the claim's deadline.

* `TooluError`, `heartbeatDelay` — what a call ends with, and when a lease is renewed;
* `Note`, `since` — what is sent and heard of, newest first, and the part of the claim in hand;
* `Turn`, `Watch`, `Watch.step` — the task, from one await to the next;
* `Watch.Keeps`, `Watch.keeps_step` — what it knows of a lost claim and of a 401;
* `Watch.Steps`, `Watch.steps_step` — what a step can do, and when it sends a heartbeat.

A call that is not answered in time ends as a transient error. No task panics.
-/

/-- A failed `/runner/*` call. -/
inductive TooluError
  /-- 401. -/
  | revoked (why : Str)
  /-- 409. -/
  | conflict (body : Str)
  /-- 404. -/
  | notFound
  /-- 400. -/
  | refused (why : Str)
  | transient (why : Str)
  | protocol (why : Str)
deriving DecidableEq, Repr

/-- In milliseconds. -/
def heartbeatMin : ℕ := 1000

def heartbeatMax : ℕ := 300000

def heartbeatLapsed : ℕ := 30000

/-- A third of the lease that is left. -/
def heartbeatDelay (leaseExpiresAt now : ℕ) : ℕ :=
  let remaining := leaseExpiresAt - now
  if remaining = 0 then heartbeatLapsed else min (max (remaining / 3) heartbeatMin) heartbeatMax

/-! ### What is sent and heard of -/

inductive Note
  /-- The loop is cancelled or drained. -/
  | stopping
  | claimSent
  | claimed
  | dispatchedSent
  | heartbeatSent
  | completeSent
  /-- A 401 to a call of the claim. -/
  | unauthorized
  /-- A heartbeat finds the claim lost. -/
  | lost
  | jobEnded
  | accepted
  /-- A report is refused, and not only for now. -/
  | refused
deriving DecidableEq, Repr

/-- What came after the last claim, of all notes with the newest first. -/
def since (log : List Note) : List Note := log.takeWhile (· ≠ .claimed)

@[simp] theorem since_claimed (log : List Note) : since (.claimed :: log) = [] := rfl

@[simp] theorem since_cons {n : Note} (h : n ≠ .claimed) (log : List Note) : since (n :: log) = n :: since log :=
  List.takeWhile_cons_of_pos (by simpa using h)

theorem since_toList {note : Option Note} (h : ∀ n ∈ note, n ≠ .claimed) (log : List Note) :
    since (note.toList ++ log) = note.toList ++ since log := by
  cases note with
  | none => rfl
  | some n => exact since_cons (h n rfl) log

/-! ### The task -/

/-- Where the task waits. -/
inductive Turn
  /-- For the reply to `dispatched`. -/
  | dispatching
  /-- In its select, where the next renewal is due at `beatAt`. -/
  | selecting (lease beatAt : ℕ) (renewing deadlineFired : Bool)
  /-- For the reply to a heartbeat. -/
  | beating (lease : ℕ) (deadlineFired : Bool)
  /-- With the reason of a 401, if it ended with one. -/
  | ended (revoked : Option Str)
deriving DecidableEq, Repr

structure Watch where
  leaseExpiresAt : ℕ
  deadline : ℕ
  /-- The task has cancelled the job. -/
  jobCancel : Bool
  turn : Turn
deriving DecidableEq, Repr

inductive WatchEvent
  | dispatchedReply (reply : Except TooluError Unit)
  /-- A select takes the stop. -/
  | stopped
  /-- A select takes the deadline. -/
  | deadline
  /-- The select takes the renewal that is due, and the call is sent. -/
  | beat
  | heartbeatReply (reply : Except TooluError ℕ)

namespace Watch

def start (leaseExpiresAt deadline : ℕ) : Watch where
  leaseExpiresAt := leaseExpiresAt
  deadline := deadline
  jobCancel := false
  turn := .dispatching

/-- The head of the loop. -/
def select (w : Watch) (now lease : ℕ) (renewing deadlineFired : Bool) : Watch :=
  { w with turn := .selecting lease (now + heartbeatDelay lease now) renewing deadlineFired }

def revoke (w : Watch) (why : Str) : Watch × Option Note :=
  ({ w with jobCancel := true, turn := .ended (some why) }, some .unauthorized)

def atDeadline (w : Watch) (now lease : ℕ) (renewing : Bool) : Watch :=
  { w with jobCancel := true }.select now lease renewing true

def dispatched (w : Watch) (now : ℕ) : Except TooluError Unit → Watch × Option Note
  | .error (.revoked why) => w.revoke why
  | _ => (w.select now w.leaseExpiresAt true false, none)

def renewed (w : Watch) (now lease : ℕ) (deadlineFired : Bool) :
    Except TooluError ℕ → Watch × Option Note
  | .ok leaseExpiresAt => (w.select now leaseExpiresAt true deadlineFired, none)
  | .error (.revoked why) => w.revoke why
  | .error (.conflict _) | .error .notFound => (w.select now lease false deadlineFired, some .lost)
  | .error _ => (w.select now lease true deadlineFired, none)

/-- The select has its renewal branch, and that is due. -/
def beatDue (w : Watch) (now : ℕ) : Bool :=
  match w.turn with
  | .selecting _ beatAt renewing _ => renewing && beatAt ≤ now
  | .dispatching | .beating _ _ | .ended _ => false

/-- Until when the select in hand has its deadline branch; the wait for `dispatched` has none. -/
def armed (w : Watch) : Option ℕ :=
  match w.turn with
  | .selecting _ _ _ false | .beating _ false => some w.deadline
  | .selecting _ _ _ true | .beating _ true | .dispatching | .ended _ => none

/-- With what it sends or learns. -/
def step (w : Watch) (now : ℕ) (stop : Bool) : WatchEvent → Watch × Option Note
  | .dispatchedReply reply =>
    match w.turn with
    | .dispatching => w.dispatched now reply
    | _ => (w, none)
  | .stopped =>
    match w.turn with
    | .ended _ => (w, none)
    | _ => if stop then ({ w with turn := .ended none }, none) else (w, none)
  | .deadline =>
    match w.turn with
    | .selecting lease _ renewing false =>
      if w.deadline ≤ now then (w.atDeadline now lease renewing, none) else (w, none)
    | .beating lease false =>
      -- the heartbeat is abandoned
      if w.deadline ≤ now then (w.atDeadline now lease true, none) else (w, none)
    | _ => (w, none)
  | .beat =>
    match w.turn with
    | .selecting lease beatAt true deadlineFired =>
      if beatAt ≤ now then ({ w with turn := .beating lease deadlineFired }, some .heartbeatSent)
      else (w, none)
    | _ => (w, none)
  | .heartbeatReply reply =>
    match w.turn with
    | .beating lease deadlineFired => w.renewed now lease deadlineFired reply
    | _ => (w, none)

end Watch

/-! ### What it knows -/

/-- It may send another heartbeat. -/
def Turn.renewing : Turn → Bool
  | .dispatching | .beating _ _ => true
  | .selecting _ _ renewing _ => renewing
  | .ended _ => false

/-- It has cancelled the job to get here. -/
def Turn.cancels : Turn → Bool
  | .selecting _ _ _ deadlineFired | .beating _ deadlineFired => deadlineFired
  | .ended revoked => revoked.isSome
  | .dispatching => false

namespace Watch

/-- The task beside a job, after these notes of its claim. -/
structure Keeps (stop : Bool) (seen : List Note) (w : Watch) : Prop where
  held : w.turn.renewing = true → .lost ∉ seen
  unauthorized : .unauthorized ∈ seen ↔ ∃ why, w.turn = .ended (some why)
  cancelled : w.turn.cancels = true → w.jobCancel = true
  stopped : w.turn = .ended none → stop = true

variable {stop : Bool} {seen : List Note} {w : Watch}

theorem keeps_start (leaseExpiresAt deadline : ℕ) :
    Keeps false [.dispatchedSent] (start leaseExpiresAt deadline) where
  held _ := by decide
  unauthorized := iff_of_false (by decide) (by rintro ⟨why, hwhy⟩; cases hwhy)
  cancelled hon := by cases hon
  stopped hend := by cases hend

/-- A note of another kind. -/
theorem Keeps.cons {n : Note} (h : Keeps stop seen w) (hlost : n ≠ .lost) (hrevoked : n ≠ .unauthorized) :
    Keeps stop (n :: seen) w where
  held hon := by
    rw [List.mem_cons, or_iff_right hlost.symm]
    exact h.held hon
  unauthorized := by
    rw [List.mem_cons, or_iff_right hrevoked.symm]
    exact h.unauthorized
  cancelled := h.cancelled
  stopped := h.stopped

/-- When the job ends the task is told. -/
theorem Keeps.told (h : Keeps stop seen w) : Keeps true seen w where
  held := h.held
  unauthorized := h.unauthorized
  cancelled := h.cancelled
  stopped _ := rfl

/-- Only an ended task knows of a 401. -/
theorem Keeps.authorized (h : Keeps stop seen w) (hturn : ∀ why, w.turn ≠ .ended (some why)) :
    .unauthorized ∉ seen := by
  intro hmem
  obtain ⟨why, hwhy⟩ := h.unauthorized.mp hmem
  exact hturn why hwhy

/-- Another turn of a task that goes on, or that is stopped. -/
theorem Keeps.turn {w' : Watch} (h : Keeps stop seen w) (hturn : ∀ why, w.turn ≠ .ended (some why))
    (hturn' : ∀ why, w'.turn ≠ .ended (some why)) (hheld : w'.turn.renewing = true → .lost ∉ seen)
    (hcancels : w'.turn.cancels = true → w'.jobCancel = true)
    (hstopped : w'.turn = .ended none → stop = true) : Keeps stop seen w' where
  held := hheld
  unauthorized := by
    refine iff_of_false (h.authorized hturn) ?_
    rintro ⟨why, hwhy⟩
    exact hturn' why hwhy
  cancelled := hcancels
  stopped := hstopped

theorem keeps_select (h : Keeps stop seen w) (hturn : ∀ why, w.turn ≠ .ended (some why)) (now lease : ℕ)
    {renewing deadlineFired : Bool} (hheld : renewing = true → .lost ∉ seen)
    (hfired : deadlineFired = true → w.jobCancel = true) :
    Keeps stop seen (w.select now lease renewing deadlineFired) :=
  h.turn hturn (fun _ => by simp [select]) hheld hfired (fun hend => by cases hend)

/-- After a claim that was found lost it waits without renewals. -/
theorem keeps_lost (h : Keeps stop seen w) (hturn : ∀ why, w.turn ≠ .ended (some why)) (now lease : ℕ)
    {deadlineFired : Bool} (hfired : deadlineFired = true → w.jobCancel = true) :
    Keeps stop (.lost :: seen) (w.select now lease false deadlineFired) where
  held hon := by cases hon
  unauthorized := by
    rw [List.mem_cons, or_iff_right (by decide)]
    exact iff_of_false (h.authorized hturn) (by simp [select])
  cancelled := hfired
  stopped hend := by cases hend

theorem keeps_atDeadline (h : Keeps stop seen w) (hturn : ∀ why, w.turn ≠ .ended (some why)) (now lease : ℕ)
    {renewing : Bool} (hheld : renewing = true → .lost ∉ seen) :
    Keeps stop seen (w.atDeadline now lease renewing) :=
  h.turn hturn (fun _ => by simp [atDeadline, select]) hheld (fun _ => rfl) (fun hend => by cases hend)

theorem keeps_revoke (why : Str) :
    Keeps stop ((w.revoke why).2.toList ++ seen) (w.revoke why).1 where
  held hon := by cases hon
  unauthorized := iff_of_true (List.mem_cons_self ..) ⟨why, rfl⟩
  cancelled _ := rfl
  stopped hend := by cases hend

theorem keeps_dispatched (h : Keeps stop seen w) (hturn : w.turn = .dispatching) (now : ℕ)
    (reply : Except TooluError Unit) :
    Keeps stop ((w.dispatched now reply).2.toList ++ seen) (w.dispatched now reply).1 := by
  unfold dispatched
  split
  case h_1 why => exact keeps_revoke why
  case h_2 =>
    refine keeps_select h (by simp [hturn]) now _ (fun _ => h.held ?_) (fun hfired => by cases hfired)
    rw [hturn]
    rfl

theorem keeps_renewed (h : Keeps stop seen w) {lease : ℕ} {deadlineFired : Bool}
    (hturn : w.turn = .beating lease deadlineFired) (now : ℕ) (reply : Except TooluError ℕ) :
    Keeps stop ((w.renewed now lease deadlineFired reply).2.toList ++ seen)
      (w.renewed now lease deadlineFired reply).1 := by
  have hlive : ∀ why, w.turn ≠ .ended (some why) := by simp [hturn]
  have hheld : .lost ∉ seen := h.held (by rw [hturn]; rfl)
  have hfired : deadlineFired = true → w.jobCancel = true := by
    intro hon
    exact h.cancelled (by rw [hturn]; exact hon)
  have hgoes : ∀ leaseExpiresAt, Keeps stop seen (w.select now leaseExpiresAt true deadlineFired) :=
    fun leaseExpiresAt => keeps_select h hlive now leaseExpiresAt (fun _ => hheld) hfired
  have hstops : Keeps stop (.lost :: seen) (w.select now lease false deadlineFired) :=
    keeps_lost h hlive now lease hfired
  unfold renewed
  split
  case h_1 => exact hgoes _
  case h_2 why => exact keeps_revoke why
  case h_3 => exact hstops
  case h_4 => exact hstops
  case h_5 => exact hgoes _

theorem keeps_step (h : Keeps stop seen w) (now : ℕ) (e : WatchEvent) :
    Keeps stop ((w.step now stop e).2.toList ++ seen) (w.step now stop e).1 := by
  cases e with
  | dispatchedReply reply =>
    unfold step
    dsimp only
    split
    case h_1 hturn => exact keeps_dispatched h hturn now reply
    case h_2 => exact h
  | stopped =>
    unfold step
    dsimp only
    split
    case h_1 => exact h
    case h_2 hlive =>
      split
      case isTrue hstop =>
        exact h.turn (fun why => hlive (some why)) (fun _ => by simp) (fun hon => by cases hon)
          (fun hon => by cases hon) (fun _ => hstop)
      case isFalse => exact h
  | deadline =>
    unfold step
    dsimp only
    split
    case h_1 lease beatAt renewing hturn =>
      split
      case isTrue =>
        refine keeps_atDeadline h (by simp [hturn]) now lease fun hon => h.held ?_
        rw [hturn]
        exact hon
      case isFalse => exact h
    case h_2 lease hturn =>
      split
      case isTrue =>
        refine keeps_atDeadline h (by simp [hturn]) now lease fun _ => h.held ?_
        rw [hturn]
        rfl
      case isFalse => exact h
    case h_3 => exact h
  | beat =>
    unfold step
    dsimp only
    split
    case h_1 lease beatAt deadlineFired hturn =>
      split
      case isTrue =>
        have hheld : .lost ∉ seen := h.held (by rw [hturn]; rfl)
        have hfired : deadlineFired = true → w.jobCancel = true := by
          intro hon
          exact h.cancelled (by rw [hturn]; exact hon)
        have hbeats : Keeps stop seen { w with turn := .beating lease deadlineFired } :=
          h.turn (by simp [hturn]) (fun _ => by simp) (fun _ => hheld) hfired (fun hend => by cases hend)
        exact hbeats.cons (by decide) (by decide)
      case isFalse => exact h
    case h_2 => exact h
  | heartbeatReply reply =>
    unfold step
    dsimp only
    split
    case h_1 lease deadlineFired hturn => exact keeps_renewed h hturn now reply
    case h_2 => exact h

/-! ### What it sends and changes -/

/-- What a step can do: it renews only at its select, when the renewal is due. -/
structure Steps (now : ℕ) (e : WatchEvent) (w : Watch) (r : Watch × Option Note) : Prop where
  deadline : r.1.deadline = w.deadline
  jobCancel : w.jobCancel = true → r.1.jobCancel = true
  note : ∀ n ∈ r.2, n = .lost ∨ n = .unauthorized ∨ n = .heartbeatSent ∧ e = .beat ∧ w.beatDue now = true

theorem steps_quiet {now : ℕ} {e : WatchEvent} {w' : Watch} (hdeadline : w'.deadline = w.deadline)
    (hcancel : w.jobCancel = true → w'.jobCancel = true) : Steps now e w (w', none) where
  deadline := hdeadline
  jobCancel := hcancel
  note _ hmem := by cases hmem

theorem steps_revoke (now : ℕ) (e : WatchEvent) (w : Watch) (why : Str) : Steps now e w (w.revoke why) where
  deadline := rfl
  jobCancel _ := rfl
  note n hmem := by
    obtain rfl := Option.mem_some_iff.mp hmem
    exact .inr (.inl rfl)

theorem steps_renewed (now lease : ℕ) (deadlineFired : Bool) (reply : Except TooluError ℕ) :
    Steps now (.heartbeatReply reply) w (w.renewed now lease deadlineFired reply) := by
  have hlost : Steps now (.heartbeatReply reply) w (w.select now lease false deadlineFired, some .lost) := by
    refine ⟨rfl, id, fun n hmem => ?_⟩
    obtain rfl := Option.mem_some_iff.mp hmem
    exact .inl rfl
  unfold renewed
  split
  case h_1 => exact steps_quiet rfl id
  case h_2 why => exact steps_revoke now _ w why
  case h_3 => exact hlost
  case h_4 => exact hlost
  case h_5 => exact steps_quiet rfl id

theorem steps_step (w : Watch) (now : ℕ) (stop : Bool) (e : WatchEvent) :
    Steps now e w (w.step now stop e) := by
  have hstill : Steps now e w (w, none) := steps_quiet rfl id
  cases e with
  | dispatchedReply reply =>
    unfold step
    dsimp only
    split
    case h_1 =>
      unfold dispatched
      split
      case h_1 why => exact steps_revoke now _ w why
      case h_2 => exact steps_quiet rfl id
    case h_2 => exact hstill
  | stopped =>
    unfold step
    dsimp only
    split
    case h_1 => exact hstill
    case h_2 =>
      split
      case isTrue => exact steps_quiet rfl id
      case isFalse => exact hstill
  | deadline =>
    unfold step
    dsimp only
    split
    case h_1 =>
      split
      case isTrue => exact steps_quiet rfl fun _ => rfl
      case isFalse => exact hstill
    case h_2 =>
      split
      case isTrue => exact steps_quiet rfl fun _ => rfl
      case isFalse => exact hstill
    case h_3 => exact hstill
  | beat =>
    unfold step
    dsimp only
    split
    case h_1 lease beatAt deadlineFired hturn =>
      split
      case isTrue hdue =>
        refine ⟨rfl, id, fun n hmem => ?_⟩
        obtain rfl := Option.mem_some_iff.mp hmem
        exact .inr (.inr ⟨rfl, rfl, by simp [beatDue, hturn, hdue]⟩)
      case isFalse => exact hstill
    case h_2 => exact hstill
  | heartbeatReply reply =>
    unfold step
    dsimp only
    split
    case h_1 => exact steps_renewed now _ _ reply
    case h_2 => exact hstill

/-- A note of another kind stays where it was. -/
theorem Steps.mem_iff {now : ℕ} {e : WatchEvent} {r : Watch × Option Note} (h : Steps now e w r) {n : Note}
    (hlost : n ≠ .lost) (hrevoked : n ≠ .unauthorized) (hbeat : n ≠ .heartbeatSent) (notes : List Note) :
    n ∈ r.2.toList ++ notes ↔ n ∈ notes := by
  rw [List.mem_append, or_iff_right]
  intro hmem
  rcases h.note n (Option.mem_toList.mp hmem) with hn | hn | ⟨hn, -⟩
  · exact hlost hn
  · exact hrevoked hn
  · exact hbeat hn

theorem Steps.since_eq {now : ℕ} {e : WatchEvent} {r : Watch × Option Note} (h : Steps now e w r)
    (log : List Note) : since (r.2.toList ++ log) = r.2.toList ++ since log := by
  refine since_toList (fun n hmem => ?_) log
  rcases h.note n hmem with rfl | rfl | ⟨rfl, -⟩
  · decide
  · decide
  · decide

theorem renewing_of_beatDue {now : ℕ} (h : w.beatDue now = true) : w.turn.renewing = true := by
  unfold beatDue at h
  split at h
  case h_1 lease beatAt renewing deadlineFired hturn =>
    rw [hturn]
    exact (Bool.and_eq_true_iff.mp h).1
  case h_2 => cases h
  case h_3 => cases h
  case h_4 => cases h

/-- A renewal that is due can be chosen, whether the task was told to stop or not. -/
theorem step_beat {now : ℕ} (h : w.beatDue now = true) (stop : Bool) :
    (w.step now stop .beat).2 = some .heartbeatSent := by
  unfold beatDue at h
  split at h
  case h_1 lease beatAt renewing deadlineFired hturn =>
    rw [Bool.and_eq_true, decide_eq_true_eq] at h
    obtain ⟨rfl, hdue⟩ := h
    unfold step
    simp [hturn, hdue]
  case h_2 => cases h
  case h_3 => cases h
  case h_4 => cases h

/-- Once told, the task ends at its next select. -/
theorem step_stopped (w : Watch) (now : ℕ) :
    ∃ revoked, (w.step now true .stopped).1.turn = .ended revoked := by
  unfold step
  dsimp only
  split
  case h_1 revoked hturn => exact ⟨revoked, hturn⟩
  case h_2 => exact ⟨none, rfl⟩

end Watch

end GhRunner.Listener
