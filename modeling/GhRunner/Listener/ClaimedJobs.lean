import GhRunner.Listener.ClaimWatch
import GhRunner.Listener.Forwarder
import GhRunner.Listener.Sessions

namespace GhRunner.Listener

open Text Machine

/-!
# The claims of a toolu.sh machine

`crates/toolu-runner/src/poll_loop.rs` and `poll_job.rs`: the loop claims one job after another and runs each
beside the watcher of its claim.

* `parseClaimRefusal`, `claimRefused` — what a refusal means;
* `Main`, `Poller`, `PollEvent`, `Poller.step` — the loop, the job in hand and the clock;
* `Allowed`, `Sound`, `Reported` — what may be sent after what, and what has to be;
* `Kept`, `Timely` — the life of the claims, and the steps that keep to it;
* `Keeps`, `keeps_step` — the loop after such steps;
* `claims_kept` — claims are reported once, in time, and not made after a stop, exactly in the runs of such steps.

The waits between two passes take any time.
-/

/-! ### Refusals -/

inductive ClaimRefusal
  | taken
  | slotsFull
  /-- The reason, or the body. -/
  | other (reason : Str)
deriving DecidableEq, Repr

abbrev JobOutcome := Except RunnerError (Option Conclusion)

/-- What a pass ends with. -/
inductive Pass
  | idle
  | backoff
  | ran (outcome : JobOutcome)

section Refusals

-- the `error` of a body, if `serde_json` reads one
variable (errorBody : Str → Option Str)

def parseClaimRefusal (body : Str) : ClaimRefusal :=
  match errorBody body with
  | none => .other body
  | some error =>
    let reason := trim (("claim refused: ".toList.isPrefixOf? error).getD error)
    if reason = "taken".toList then .taken
    else if reason = "slots-full".toList then .slotsFull
    else .other reason

/-- `none` to try the next job; the error of a 401. -/
def claimRefused : TooluError → Except Str (Option Pass)
  | .revoked why => .error why
  | .notFound => .ok none
  | .conflict body =>
    match parseClaimRefusal errorBody body with
    | .taken => .ok none
    | .slotsFull | .other _ => .ok (some .idle)
  | .protocol _ | .refused _ => .ok none
  | .transient _ => .ok (some .backoff)

end Refusals

/-! ### The loop -/

/-- Times are in epoch milliseconds. -/
structure Claim where
  deadline : ℕ
  leaseExpiresAt : ℕ
deriving DecidableEq, Repr

/-- Where the loop is. -/
inductive Main
  | top
  | listing
  | offering (jobs : List Str)
  | claiming (rest : List Str)
  /-- The listener runs. -/
  | running (w : Watch)
  /-- The listener has returned, and the watcher is told to stop. -/
  | joining (outcome : JobOutcome) (w : Watch)
  /-- A report is sent. -/
  | reporting (outcome : JobOutcome) (attempt : ℕ)
  | retrying (outcome : JobOutcome) (attempt wake : ℕ)
  | settling (pass : Pass)
  | sleeping
  /-- With the reason of a 401, if that ended it. -/
  | ended (revoked : Option Str)

structure Poller where
  now : ℕ
  cancel : Bool
  drain : Bool
  main : Main
  /-- Newest first. -/
  log : List Note

inductive PollEvent
  /-- Time passes, but not over a deadline that a select waits for. -/
  | elapse (ms : ℕ)
  | cancel
  | drain
  /-- The head of the loop: whether a removal is pending, and whether the configuration is usable. -/
  | pass (pendingRemove usable : Bool)
  | listed (reply : Except TooluError (List Str))
  /-- The list is abandoned. -/
  | listStopped
  | offer
  /-- A claim's reply, and the listener for it if it can be built. -/
  | claimReply (reply : Except TooluError Claim) (built : Except RunnerError Unit)
  | watcher (e : WatchEvent)
  | listenerReturned (outcome : JobOutcome)
  | joined
  | completeReply (reply : Except TooluError Unit)
  | retry
  | settle (pendingRemove : Bool)
  /-- The sleep is over. -/
  | wake
  | sleepStopped

def completeAttempts : ℕ := 5

namespace Poller

def start (now : ℕ) : Poller where
  now := now
  cancel := false
  drain := false
  main := .top
  log := []

def stopping (s : Poller) : Bool := s.cancel || s.drain

def note (s : Poller) (n : Note) : Poller := { s with log := n :: s.log }

def goto (s : Poller) (main : Main) : Poller := { s with main := main }

/-- The job's token is a child of the loop's. -/
def jobCancelled (s : Poller) (w : Watch) : Bool := s.cancel || w.jobCancel

/-- The clock stops at the watcher's deadline until the watcher has seen to it. -/
def later (s : Poller) (ms : ℕ) : ℕ :=
  match s.main with
  | .running w | .joining _ w =>
    match w.armed with
    | some deadline => max s.now (min (s.now + ms) deadline)
    | none => s.now + ms
  | _ => s.now + ms

def report (s : Poller) (outcome : JobOutcome) (attempt : ℕ) : Poller :=
  (s.goto (.reporting outcome attempt)).note .completeSent

/-- The claim is this machine's. -/
def claimed (s : Poller) (claim : Claim) (built : Except RunnerError Unit) : Poller :=
  if claim.deadline ≤ s.now then
    (s.note .claimed).report
      (.error (.other "the claim's deadline passed before the job started".toList)) 1
  else
    match built with
    | .error e => (s.note .claimed).report (.error e) 1
    | .ok _ =>
      ((s.note .claimed).goto (.running (.start claim.leaseExpiresAt claim.deadline))).note .dispatchedSent

/-- A reply to a report: after a transient error another attempt follows, `2 ^ (attempt - 1)` seconds
    later. -/
def completed (s : Poller) (outcome : JobOutcome) (attempt : ℕ) : Except TooluError Unit → Poller
  | .ok _ => (s.goto (.settling (.ran outcome))).note .accepted
  | .error (.revoked why) => (s.goto (.ended (some why))).note .unauthorized
  | .error (.transient _) =>
    if attempt < completeAttempts then
      s.goto (.retrying outcome attempt (s.now + 1000 * 2 ^ (attempt - 1)))
    else s.goto (.settling (.ran outcome))
  | .error _ => (s.goto (.settling (.ran outcome))).note .refused

/-- A step of the watcher. -/
def watched (s : Poller) (main : Watch → Main) (r : Watch × Option Note) : Poller :=
  { s with main := main r.1, log := r.2.toList ++ s.log }

section Step

variable (errorBody : Str → Option Str) (once : Bool)

def step (s : Poller) : PollEvent → Poller
  | .elapse ms => { s with now := s.later ms }
  | .cancel => { s with cancel := true }.note .stopping
  | .drain => { s with drain := true }.note .stopping
  | .pass pendingRemove usable =>
    match s.main with
    | .top => s.goto (if s.stopping || pendingRemove || !usable then .ended none else .listing)
    | _ => s
  | .listed reply =>
    match s.main with
    | .listing =>
      match reply with
      | .ok jobs => s.goto (.offering jobs)
      | .error (.revoked why) => s.goto (.ended (some why))
      | .error _ => s.goto (.settling .backoff)
    | _ => s
  | .listStopped =>
    match s.main with
    | .listing => if s.stopping then s.goto (.settling .idle) else s
    | _ => s
  | .offer =>
    match s.main with
    | .offering [] => s.goto (.settling .idle)
    | .offering (_ :: rest) =>
      -- a claim cannot be handed back
      if s.stopping then s.goto (.settling .idle) else (s.goto (.claiming rest)).note .claimSent
    | _ => s
  | .claimReply reply built =>
    match s.main with
    | .claiming rest =>
      match reply with
      | .ok claim => s.claimed claim built
      | .error refusal =>
        match claimRefused errorBody refusal with
        | .error why => s.goto (.ended (some why))
        | .ok (some pass) => s.goto (.settling pass)
        | .ok none => s.goto (.offering rest)
    | _ => s
  | .watcher e =>
    match s.main with
    | .running w => s.watched .running (w.step s.now false e)
    | .joining outcome w => s.watched (.joining outcome) (w.step s.now true e)
    | _ => s
  | .listenerReturned outcome =>
    match s.main with
    | .running w => (s.goto (.joining outcome w)).note .jobEnded
    | _ => s
  | .joined =>
    match s.main with
    | .joining outcome w =>
      match w.turn with
      | .ended (some why) => s.goto (.ended (some why))
      | .ended none => s.report outcome 1
      | _ => s
    | _ => s
  | .completeReply reply =>
    match s.main with
    | .reporting outcome attempt => s.completed outcome attempt reply
    | _ => s
  | .retry =>
    match s.main with
    | .retrying outcome attempt wake => if wake ≤ s.now then s.report outcome (attempt + 1) else s
    | _ => s
  | .settle pendingRemove =>
    match s.main with
    | .settling (.ran outcome) =>
      match nextAction (outcome.map fun _ => ()) once s.stopping pendingRemove with
      | .exit _ => s.goto (.ended none)
      | .reregister => s.goto .top
      | .backoffRetry => s.goto .sleeping
    | .settling _ => s.goto .sleeping
    | _ => s
  | .wake =>
    match s.main with
    | .sleeping => s.goto .top
    | _ => s
  | .sleepStopped =>
    match s.main with
    | .sleeping => if s.stopping then s.goto (.ended none) else s
    | _ => s

end Step

end Poller

/-! ### The life of a claim -/

/-- The claim was reported, or the machine found revoked; or there was none. -/
def Reported (log : List Note) : Prop :=
  .completeSent ∈ since log ∨ .unauthorized ∈ since log ∨ .claimed ∉ log

instance (log : List Note) : Decidable (Reported log) := inferInstanceAs (Decidable (_ ∨ _ ∨ _))

/-- What may be sent after these notes. -/
def Allowed (before : List Note) : Note → Prop
  | .claimSent => .stopping ∉ before
  | .claimed => Reported before
  | .completeSent => .accepted ∉ since before ∧ .refused ∉ since before ∧ .unauthorized ∉ since before
  | .heartbeatSent => .jobEnded ∉ since before ∧ .lost ∉ since before
  | _ => True

instance (before : List Note) (n : Note) : Decidable (Allowed before n) := by
  unfold Allowed
  split <;> infer_instance

def Sound : List Note → Prop
  | [] => True
  | n :: before => Allowed before n ∧ Sound before

namespace Poller

/-- A claim is in hand that is not reported yet. -/
def inClaim (s : Poller) : Bool :=
  match s.main with
  | .running _ | .joining _ _ => true
  | _ => false

/-- When the deadline has passed, the job is cancelled. -/
def OnTime (s : Poller) : Prop := ∀ w, s.main = .running w → w.deadline < s.now → s.jobCancelled w = true

section Kept

variable (errorBody : Str → Option Str) (once : Bool)

/-- What is to hold of the claims at any time. -/
structure Kept (s : Poller) : Prop where
  sound : Sound s.log
  reported : s.inClaim = false → Reported s.log
  /-- Once the listener returns, the watcher stops and the report is sent. -/
  reports : ∀ outcome, Reported
    (run (step errorBody once) s [.listenerReturned outcome, .watcher .stopped, .joined]).log
  onTime : s.OnTime

end Kept

/-- A step that does not let the reply to `dispatched` outlast the deadline of a job that runs on, nor begin a
    renewal after the end of a job. -/
def Timely (s : Poller) : PollEvent → Prop
  | .elapse ms =>
    ∀ w, s.main = .running w → w.turn = .dispatching → s.jobCancelled w = false → s.now + ms ≤ w.deadline
  | .watcher .beat => ∀ outcome w, s.main = .joining outcome w → w.beatDue s.now = false
  | _ => True

/-! ### After steps in time -/

/-- No report of the claim is answered for good. -/
def Pending (log : List Note) : Prop := .accepted ∉ since log ∧ .refused ∉ since log

/-- What the loop knows of the claim, wherever it is. -/
def Phase (cancel : Bool) (now : ℕ) (log : List Note) : Main → Prop
  | .running w =>
    Pending log ∧ .jobEnded ∉ since log ∧ w.Keeps false (since log) ∧
      (w.deadline < now → (cancel || w.jobCancel) = true)
  | .joining _ w => Pending log ∧ .jobEnded ∈ since log ∧ w.Keeps true (since log)
  | .reporting _ _ | .retrying _ _ _ =>
    Pending log ∧ .unauthorized ∉ since log ∧ .completeSent ∈ since log
  | _ => Reported log

structure Keeps (s : Poller) : Prop where
  sound : Sound s.log
  stopped : .stopping ∈ s.log → s.stopping = true
  phase : Phase s.cancel s.now s.log s.main

/-- No claim is in hand. -/
def free : Main → Bool
  | .running _ | .joining _ _ | .reporting _ _ | .retrying _ _ _ => false
  | _ => true

theorem reported_cons {n : Note} (hn : n ≠ .claimed) {log : List Note} (h : Reported log) :
    Reported (n :: log) := by
  rcases h with hsent | hrevoked | hnone
  · exact .inl (by simp [hn, hsent])
  · exact .inr (.inl (by simp [hn, hrevoked]))
  · exact .inr (.inr (by simp [hn.symm, hnone]))

theorem pending_cons {n : Note} (hn : n ≠ .claimed) (haccepted : n ≠ .accepted) (hrefused : n ≠ .refused)
    {log : List Note} (h : Pending log) : Pending (n :: log) := by
  unfold Pending
  rw [since_cons hn]
  exact ⟨by simp [haccepted.symm, h.1], by simp [hrefused.symm, h.2]⟩

variable {errorBody : Str → Option Str} {once : Bool} {s : Poller}

theorem phase_free {main : Main} (hfree : free main = true) (cancel : Bool) (now : ℕ) (log : List Note) :
    Phase cancel now log main ↔ Reported log := by
  cases main <;> first | exact .rfl | cases hfree

theorem Keeps.reported {main : Main} (h : Keeps s) (hmain : s.main = main) (hfree : free main = true) :
    Reported s.log := by
  have hphase := h.phase
  rw [hmain] at hphase
  exact (phase_free hfree _ _ _).mp hphase

/-- From one place to another without a claim, or once its report is answered. -/
theorem keeps_goto (h : Keeps s) (hreported : Reported s.log) {main : Main} (hfree : free main = true) :
    Keeps (s.goto main) where
  sound := h.sound
  stopped := h.stopped
  phase := (phase_free hfree _ _ _).mpr hreported

theorem keeps_start (now : ℕ) : Keeps (start now) where
  sound := trivial
  stopped hmem := by cases hmem
  phase := .inr (.inr List.not_mem_nil)

/-! ### Time and stops -/

/-- A watcher beside a job that is not cancelled waits for its deadline, or for the reply to
    `dispatched`. -/
theorem armed_of_keeps {w : Watch} {seen : List Note} (h : w.Keeps false seen) (hcancel : w.jobCancel = false) :
    w.turn = .dispatching ∨ w.armed = some w.deadline := by
  have hfired : w.turn.cancels = false := by
    by_contra hon
    rw [h.cancelled (by simpa using hon)] at hcancel
    cases hcancel
  unfold Watch.armed
  cases hturn : w.turn with
  | dispatching => exact .inl rfl
  | selecting lease beatAt renewing deadlineFired =>
    rw [hturn] at hfired
    obtain rfl : deadlineFired = false := hfired
    exact .inr rfl
  | beating lease deadlineFired =>
    rw [hturn] at hfired
    obtain rfl : deadlineFired = false := hfired
    exact .inr rfl
  | ended revoked =>
    rw [hturn] at hfired
    cases revoked with
    | none => exact absurd (h.stopped hturn) (by decide)
    | some why => cases hfired

theorem later_of_armed {w : Watch} {deadline : ℕ} (hmain : s.main = .running w)
    (h : w.armed = some deadline) (ms : ℕ) : s.later ms = max s.now (min (s.now + ms) deadline) := by
  unfold later
  rw [hmain]
  simp [h]

theorem later_of_dispatching {w : Watch} (hmain : s.main = .running w) (h : w.turn = .dispatching)
    (ms : ℕ) : s.later ms = s.now + ms := by
  have hnone : w.armed = none := by simp [Watch.armed, h]
  unfold later
  rw [hmain]
  simp [hnone]

theorem phase_later {cancel : Bool} {now now' : ℕ} {log : List Note} {main : Main}
    (h : Phase cancel now log main)
    (htime : ∀ w, main = .running w → w.deadline < now' → (cancel || w.jobCancel) = true) :
    Phase cancel now' log main := by
  cases main with
  | running w => exact ⟨h.1, h.2.1, h.2.2.1, htime w rfl⟩
  | _ => exact h

theorem keeps_elapse (h : Keeps s) (ms : ℕ) (htimely : Timely s (.elapse ms)) :
    Keeps { s with now := s.later ms } where
  sound := h.sound
  stopped := h.stopped
  phase := by
    refine phase_later h.phase fun w hmain hover => ?_
    replace hmain : s.main = .running w := hmain
    replace hover : w.deadline < s.later ms := hover
    have hphase := h.phase
    rw [hmain] at hphase
    obtain ⟨-, -, hwatch, htime⟩ := hphase
    by_contra hgoes
    replace hgoes : s.jobCancelled w = false := Bool.not_eq_true _ ▸ hgoes
    rcases armed_of_keeps hwatch (Bool.or_eq_false_iff.mp hgoes).2 with hturn | harmed
    -- only the step itself keeps to the deadline here: the first post has no branch for it
    · have hlimit := htimely w hmain hturn hgoes
      rw [later_of_dispatching hmain hturn] at hover
      omega
    -- the clock has stopped at the deadline, unless that had passed before
    · rw [later_of_armed hmain harmed] at hover
      have hpast : s.jobCancelled w = true := htime (by omega)
      rw [hpast] at hgoes
      cases hgoes

theorem phase_stopping {cancel cancel' : Bool} {now : ℕ} {log : List Note} {main : Main}
    (hcancel : cancel = true → cancel' = true) (h : Phase cancel now log main) :
    Phase cancel' now (.stopping :: log) main := by
  have hpending : Pending log → Pending (.stopping :: log) :=
    pending_cons (by decide) (by decide) (by decide)
  cases main with
  | running w =>
    obtain ⟨hopen, hon, hwatch, htime⟩ := h
    refine ⟨hpending hopen, by simpa using hon, ?_, fun hover => ?_⟩
    · rw [since_cons (by decide)]
      exact hwatch.cons (by decide) (by decide)
    · rcases Bool.or_eq_true_iff.mp (htime hover) with hloop | hjob
      · rw [hcancel hloop, Bool.true_or]
      · rw [hjob, Bool.or_true]
  | joining outcome w =>
    obtain ⟨hopen, hended, hwatch⟩ := h
    refine ⟨hpending hopen, by simpa using hended, ?_⟩
    rw [since_cons (by decide)]
    exact hwatch.cons (by decide) (by decide)
  | reporting outcome attempt =>
    obtain ⟨hopen, hauth, hsent⟩ := h
    exact ⟨hpending hopen, by simpa using hauth, by simpa using hsent⟩
  | retrying outcome attempt wake =>
    obtain ⟨hopen, hauth, hsent⟩ := h
    exact ⟨hpending hopen, by simpa using hauth, by simpa using hsent⟩
  | _ => exact reported_cons (by decide) h

/-- The loop is cancelled or drained. -/
theorem keeps_stopping (h : Keeps s) {cancel drain : Bool} (hstop : (cancel || drain) = true)
    (hcancel : s.cancel = true → cancel = true) :
    Keeps ({ s with cancel := cancel, drain := drain }.note .stopping) where
  sound := ⟨trivial, h.sound⟩
  stopped _ := hstop
  phase := phase_stopping hcancel h.phase

/-! ### Claims -/

theorem keeps_claimSent (h : Keeps s) (hreported : Reported s.log) (hgoes : s.stopping = false)
    (rest : List Str) : Keeps ((s.goto (.claiming rest)).note .claimSent) where
  sound := by
    refine ⟨fun hmem => ?_, h.sound⟩
    rw [h.stopped hmem] at hgoes
    cases hgoes
  stopped hmem := h.stopped ((List.mem_cons.mp hmem).resolve_left (by decide))
  phase := reported_cons (by decide) hreported

/-- A report of a claim that is still to be reported. -/
theorem keeps_report {log : List Note} (hsound : Sound log) (hpending : Pending log)
    (hauth : .unauthorized ∉ since log) (hstopped : .stopping ∈ log → s.stopping = true)
    (outcome : JobOutcome) (attempt : ℕ) : Keeps ({ s with log := log }.report outcome attempt) where
  sound := ⟨⟨hpending.1, hpending.2, hauth⟩, hsound⟩
  stopped hmem := hstopped ((List.mem_cons.mp hmem).resolve_left (by decide))
  phase := ⟨pending_cons (by decide) (by decide) (by decide) hpending, by simpa [goto, note, report] using hauth,
    by simp [goto, note, report]⟩

theorem keeps_claimed (h : Keeps s) (hreported : Reported s.log) (claim : Claim)
    (built : Except RunnerError Unit) : Keeps (s.claimed claim built) := by
  have hsound : Sound (.claimed :: s.log) := ⟨hreported, h.sound⟩
  have hstopped : .stopping ∈ Note.claimed :: s.log → s.stopping = true :=
    fun hmem => h.stopped ((List.mem_cons.mp hmem).resolve_left (by decide))
  have hpending : Pending (.claimed :: s.log) := by simp [Pending]
  have hauth : .unauthorized ∉ since (.claimed :: s.log) := by simp
  unfold claimed
  split
  case isTrue => exact keeps_report hsound hpending hauth hstopped _ 1
  case isFalse hgoes =>
    split
    case h_1 e => exact keeps_report hsound hpending hauth hstopped _ 1
    case h_2 =>
      refine ⟨⟨trivial, hsound⟩, fun hmem => hstopped ?_, ?_⟩
      · exact (List.mem_cons.mp hmem).resolve_left (by decide)
      · refine ⟨pending_cons (by decide) (by decide) (by decide) hpending, by simp [note, goto], ?_,
          fun hover => absurd hover.le hgoes⟩
        exact Watch.keeps_start claim.leaseExpiresAt claim.deadline

/-! ### The watcher -/

theorem pending_watched {now : ℕ} {e : WatchEvent} {w : Watch} {r : Watch × Option Note}
    (hsteps : Watch.Steps now e w r) {log : List Note} (h : Pending log) : Pending (r.2.toList ++ log) := by
  unfold Pending
  rw [hsteps.since_eq]
  refine ⟨fun hmem => h.1 ?_, fun hmem => h.2 ?_⟩
  · exact (hsteps.mem_iff (by decide) (by decide) (by decide) _).mp hmem
  · exact (hsteps.mem_iff (by decide) (by decide) (by decide) _).mp hmem

/-- Of its notes only a heartbeat has to be allowed. -/
theorem sound_watched {now : ℕ} {e : WatchEvent} {w : Watch} {r : Watch × Option Note}
    (hsteps : Watch.Steps now e w r) {log : List Note} (h : Sound log)
    (hbeat : e = .beat → w.beatDue now = true → Allowed log .heartbeatSent) :
    Sound (r.2.toList ++ log) := by
  cases hnote : r.2 with
  | none => exact h
  | some n =>
    refine ⟨?_, h⟩
    rcases hsteps.note n hnote with rfl | rfl | ⟨rfl, he, hdue⟩
    · trivial
    · trivial
    · exact hbeat he hdue

theorem keeps_running (h : Keeps s) {w : Watch} (hmain : s.main = .running w) (e : WatchEvent) :
    Keeps (s.watched .running (w.step s.now false e)) := by
  have hsteps := Watch.steps_step w s.now false e
  have hphase := h.phase
  rw [hmain] at hphase
  obtain ⟨hpending, hon, hwatch, htime⟩ := hphase
  refine ⟨?_, fun hmem => h.stopped ?_, pending_watched hsteps hpending, ?_, ?_, fun hover => ?_⟩
  -- a renewal is chosen only while none has found the claim lost
  · refine sound_watched hsteps h.sound fun _ hdue => ⟨hon, ?_⟩
    exact hwatch.held (Watch.renewing_of_beatDue hdue)
  · exact (hsteps.mem_iff (by decide) (by decide) (by decide) _).mp hmem
  · intro hmem
    rw [watched, hsteps.since_eq] at hmem
    exact hon ((hsteps.mem_iff (by decide) (by decide) (by decide) _).mp hmem)
  · rw [watched, hsteps.since_eq]
    exact Watch.keeps_step hwatch s.now e
  · rw [hsteps.deadline] at hover
    rcases Bool.or_eq_true_iff.mp (htime hover) with hloop | hjob
    · exact Bool.or_eq_true_iff.mpr (.inl hloop)
    · exact Bool.or_eq_true_iff.mpr (.inr (hsteps.jobCancel hjob))

theorem keeps_joining (h : Keeps s) {outcome : JobOutcome} {w : Watch} (hmain : s.main = .joining outcome w)
    {e : WatchEvent} (htimely : Timely s (.watcher e)) :
    Keeps (s.watched (.joining outcome) (w.step s.now true e)) := by
  have hsteps := Watch.steps_step w s.now true e
  have hphase := h.phase
  rw [hmain] at hphase
  obtain ⟨hpending, hended, hwatch⟩ := hphase
  refine ⟨?_, fun hmem => h.stopped ?_, pending_watched hsteps hpending, ?_, ?_⟩
  -- told to stop or not, the select may take the renewal, which a step in time does not
  · refine sound_watched hsteps h.sound fun he hdue => ?_
    subst he
    rw [htimely outcome w hmain] at hdue
    cases hdue
  · exact (hsteps.mem_iff (by decide) (by decide) (by decide) _).mp hmem
  · rw [watched, hsteps.since_eq]
    exact List.mem_append_right _ hended
  · rw [watched, hsteps.since_eq]
    exact Watch.keeps_step hwatch s.now e

theorem keeps_watcher (h : Keeps s) (e : WatchEvent) (htimely : Timely s (.watcher e)) :
    Keeps (s.step errorBody once (.watcher e)) := by
  unfold step
  dsimp only
  split
  case h_1 w hmain => exact keeps_running h hmain e
  case h_2 outcome w hmain => exact keeps_joining h hmain htimely
  case h_3 => exact h

/-! ### Reports -/

theorem keeps_listenerReturned (h : Keeps s) {w : Watch} (hmain : s.main = .running w) (outcome : JobOutcome) :
    Keeps ((s.goto (.joining outcome w)).note .jobEnded) := by
  have hphase := h.phase
  rw [hmain] at hphase
  obtain ⟨hpending, -, hwatch, -⟩ := hphase
  refine ⟨⟨trivial, h.sound⟩, fun hmem => h.stopped ?_, ?_, ?_, ?_⟩
  · exact (List.mem_cons.mp hmem).resolve_left (by decide)
  · exact pending_cons (by decide) (by decide) (by decide) hpending
  · simp [note]
  · rw [note, since_cons (by decide)]
    exact hwatch.told.cons (by decide) (by decide)

theorem keeps_joined (h : Keeps s) {outcome : JobOutcome} {w : Watch} (hmain : s.main = .joining outcome w)
    {revoked : Option Str} (hturn : w.turn = .ended revoked) :
    Keeps (match revoked with
      | some why => s.goto (.ended (some why))
      | none => s.report outcome 1) := by
  have hphase := h.phase
  rw [hmain] at hphase
  obtain ⟨hpending, -, hwatch⟩ := hphase
  cases revoked with
  | some why => exact keeps_goto h (.inr (.inl (hwatch.unauthorized.mpr ⟨why, hturn⟩))) rfl
  | none => exact keeps_report h.sound hpending (hwatch.authorized (by simp [hturn])) h.stopped outcome 1

/-- A reply that settles the report. -/
theorem keeps_settled (h : Keeps s) (hsent : .completeSent ∈ since s.log) (n : Note) (hallowed : Allowed s.log n)
    (hn : n ≠ .claimed) (hstop : n ≠ .stopping) {main : Main} (hfree : free main = true) :
    Keeps ((s.goto main).note n) where
  sound := ⟨hallowed, h.sound⟩
  stopped hmem := h.stopped ((List.mem_cons.mp hmem).resolve_left hstop.symm)
  phase := (phase_free hfree _ _ _).mpr (reported_cons hn (.inl hsent))

theorem keeps_completed (h : Keeps s) {outcome : JobOutcome} {attempt : ℕ}
    (hmain : s.main = .reporting outcome attempt) (reply : Except TooluError Unit) :
    Keeps (s.completed outcome attempt reply) := by
  have hphase := h.phase
  rw [hmain] at hphase
  obtain ⟨hpending, hauth, hsent⟩ := hphase
  unfold completed
  split
  case h_1 => exact keeps_settled h hsent .accepted trivial (by decide) (by decide) rfl
  case h_2 why => exact keeps_settled h hsent .unauthorized trivial (by decide) (by decide) rfl
  case h_3 =>
    split
    case isTrue => exact ⟨h.sound, h.stopped, hpending, hauth, hsent⟩
    case isFalse => exact keeps_goto h (.inl hsent) rfl
  case h_4 => exact keeps_settled h hsent .refused trivial (by decide) (by decide) rfl

theorem keeps_retry (h : Keeps s) {outcome : JobOutcome} {attempt wake : ℕ}
    (hmain : s.main = .retrying outcome attempt wake) : Keeps (s.report outcome (attempt + 1)) := by
  have hphase := h.phase
  rw [hmain] at hphase
  obtain ⟨hpending, hauth, -⟩ := hphase
  exact keeps_report h.sound hpending hauth h.stopped outcome (attempt + 1)

/-! ### Every step -/

theorem keeps_step (s : Poller) (e : PollEvent) (h : Keeps s) (htimely : Timely s e) :
    Keeps (s.step errorBody once e) := by
  cases e with
  | elapse ms => exact keeps_elapse h ms htimely
  | cancel => exact keeps_stopping h (Bool.true_or _) fun _ => rfl
  | drain => exact keeps_stopping h (Bool.or_true _) id
  | watcher e => exact keeps_watcher h e htimely
  | pass pendingRemove usable =>
    unfold step
    dsimp only
    split
    case h_1 hmain =>
      refine keeps_goto h (h.reported hmain rfl) ?_
      split <;> rfl
    case h_2 => exact h
  | listed reply =>
    unfold step
    dsimp only
    split
    case h_1 hmain =>
      have hreported := h.reported hmain rfl
      split
      case h_1 => exact keeps_goto h hreported rfl
      case h_2 => exact keeps_goto h hreported rfl
      case h_3 => exact keeps_goto h hreported rfl
    case h_2 => exact h
  | listStopped =>
    unfold step
    dsimp only
    split
    case h_1 hmain =>
      split
      case isTrue => exact keeps_goto h (h.reported hmain rfl) rfl
      case isFalse => exact h
    case h_2 => exact h
  | offer =>
    unfold step
    dsimp only
    split
    case h_1 hmain => exact keeps_goto h (h.reported hmain rfl) rfl
    case h_2 job rest hmain =>
      have hreported := h.reported hmain rfl
      split
      case isTrue => exact keeps_goto h hreported rfl
      case isFalse hgoes => exact keeps_claimSent h hreported (Bool.not_eq_true _ ▸ hgoes) rest
    case h_3 => exact h
  | claimReply reply built =>
    unfold step
    dsimp only
    split
    case h_1 rest hmain =>
      have hreported := h.reported hmain rfl
      split
      case h_1 claim => exact keeps_claimed h hreported claim built
      case h_2 refusal =>
        split
        case h_1 => exact keeps_goto h hreported rfl
        case h_2 => exact keeps_goto h hreported rfl
        case h_3 => exact keeps_goto h hreported rfl
    case h_2 => exact h
  | listenerReturned outcome =>
    unfold step
    dsimp only
    split
    case h_1 w hmain => exact keeps_listenerReturned h hmain outcome
    case h_2 => exact h
  | joined =>
    unfold step
    dsimp only
    split
    case h_1 outcome w hmain =>
      split
      case h_1 why hturn => exact keeps_joined h hmain hturn
      case h_2 hturn => exact keeps_joined h hmain hturn
      case h_3 => exact h
    case h_2 => exact h
  | completeReply reply =>
    unfold step
    dsimp only
    split
    case h_1 outcome attempt hmain => exact keeps_completed h hmain reply
    case h_2 => exact h
  | retry =>
    unfold step
    dsimp only
    split
    case h_1 outcome attempt wake hmain =>
      split
      case isTrue => exact keeps_retry h hmain
      case isFalse => exact h
    case h_2 => exact h
  | settle pendingRemove =>
    unfold step
    dsimp only
    split
    case h_1 outcome hmain =>
      have hreported := h.reported hmain rfl
      split
      case h_1 => exact keeps_goto h hreported rfl
      case h_2 => exact keeps_goto h hreported rfl
      case h_3 => exact keeps_goto h hreported rfl
    case h_2 hmain => exact keeps_goto h (h.reported hmain rfl) rfl
    case h_3 => exact h
  | wake =>
    unfold step
    dsimp only
    split
    case h_1 hmain => exact keeps_goto h (h.reported hmain rfl) rfl
    case h_2 => exact h
  | sleepStopped =>
    unfold step
    dsimp only
    split
    case h_1 hmain =>
      split
      case isTrue => exact keeps_goto h (h.reported hmain rfl) rfl
      case isFalse => exact h
    case h_2 => exact h

/-! ### The claims -/

theorem Keeps.reported_of_not_inClaim (h : Keeps s) (hfree : s.inClaim = false) : Reported s.log := by
  have hphase := h.phase
  unfold inClaim at hfree
  cases hmain : s.main with
  | running w =>
    rw [hmain] at hfree
    cases hfree
  | joining outcome w =>
    rw [hmain] at hfree
    cases hfree
  | reporting outcome attempt =>
    rw [hmain] at hphase
    exact .inl hphase.2.2
  | retrying outcome attempt wake =>
    rw [hmain] at hphase
    exact .inl hphase.2.2
  | _ => exact h.reported hmain rfl

/-- Without a claim there is no listener and no watcher. -/
theorem step_of_not_inClaim (errorBody : Str → Option Str) (once : Bool) (hfree : s.inClaim = false) :
    (∀ outcome, s.step errorBody once (.listenerReturned outcome) = s) ∧
      (∀ e, s.step errorBody once (.watcher e) = s) ∧ s.step errorBody once .joined = s := by
  unfold inClaim at hfree
  unfold step
  dsimp only
  cases hmain : s.main with
  | running w =>
    rw [hmain] at hfree
    cases hfree
  | joining outcome w =>
    rw [hmain] at hfree
    cases hfree
  | _ => exact ⟨fun _ => rfl, fun _ => rfl, rfl⟩

/-- The watcher of a job that has ended stops, and the claim is reported. -/
theorem reported_of_joining (h : Keeps s) {outcome : JobOutcome} {w : Watch}
    (hmain : s.main = .joining outcome w) :
    Reported (run (step errorBody once) s [.watcher .stopped, .joined]).log := by
  obtain ⟨revoked, hturn⟩ := w.step_stopped s.now
  have hwatched : s.step errorBody once (.watcher .stopped) =
      s.watched (.joining outcome) (w.step s.now true .stopped) := by
    unfold step
    simp only [hmain]
  have hkeeps : Keeps (s.step errorBody once (.watcher .stopped)) :=
    keeps_step s (.watcher .stopped) h trivial
  have hjoined : Keeps ((s.step errorBody once (.watcher .stopped)).step errorBody once .joined) :=
    keeps_step _ .joined hkeeps trivial
  refine hjoined.reported_of_not_inClaim ?_
  rw [hwatched]
  unfold step
  cases revoked with
  | none => simp [watched, hturn, report, goto, note, inClaim]
  | some why => simp [watched, hturn, goto, inClaim]

theorem Keeps.reports (h : Keeps s) (outcome : JobOutcome) :
    Reported (run (step errorBody once) s [.listenerReturned outcome, .watcher .stopped, .joined]).log := by
  cases hclaim : s.inClaim with
  | false =>
    obtain ⟨hreturned, hwatcher, hjoined⟩ := step_of_not_inClaim errorBody once hclaim
    rw [run_cons, hreturned, run_cons, hwatcher, run_cons, hjoined, run_nil]
    exact h.reported_of_not_inClaim hclaim
  | true =>
    -- the listener returns, or it has already and this event is none
    have hreturned : ∃ outcome' w, (s.step errorBody once (.listenerReturned outcome)).main =
        .joining outcome' w := by
      unfold inClaim at hclaim
      unfold step
      cases hmain : s.main with
      | running w => exact ⟨outcome, w, rfl⟩
      | joining outcome' w => exact ⟨outcome', w, hmain⟩
      | _ =>
        rw [hmain] at hclaim
        cases hclaim
    obtain ⟨outcome', w, hmain⟩ := hreturned
    exact reported_of_joining (keeps_step s (.listenerReturned outcome) h trivial) hmain

theorem Keeps.onTime (h : Keeps s) : s.OnTime := by
  intro w hmain
  have hphase := h.phase
  rw [hmain] at hphase
  exact hphase.2.2.2

theorem kept_of_keeps (h : Keeps s) : Kept errorBody once s where
  sound := h.sound
  reported := h.reported_of_not_inClaim
  reports := h.reports
  onTime := h.onTime

/-- A step that is not in time breaks what is to hold of the claims at once. -/
theorem timely_of_kept (h : Keeps s) {e : PollEvent} (hkept : Kept errorBody once (s.step errorBody once e)) :
    Timely s e := by
  cases e with
  | elapse ms =>
    intro w hmain hturn hgoes
    by_contra hlong
    have hover : w.deadline < s.later ms := by
      rw [later_of_dispatching hmain hturn]
      omega
    have hcancelled : s.jobCancelled w = true := hkept.onTime w hmain hover
    rw [hcancelled] at hgoes
    cases hgoes
  | watcher e =>
    cases e with
    | beat =>
      intro outcome w hmain
      by_contra hdue
      have hphase := h.phase
      rw [hmain] at hphase
      have hsound := hkept.sound
      unfold step at hsound
      simp only [hmain, watched, Watch.step_beat (Bool.not_eq_false _ ▸ hdue) true] at hsound
      exact hsound.1.1 hphase.2.1
    | _ => trivial
  | _ => trivial

/-- The claims of a machine are reported once, in time and not after a 401, and none is made after a stop;
    this holds of every state of a run exactly if each of its steps is in time. -/
theorem claims_kept (errorBody : Str → Option Str) (once : Bool) (now : ℕ) (es : List PollEvent) :
    Throughout (step errorBody once) (fun s e => Kept errorBody once (s.step errorBody once e)) (start now) es ↔
      Throughout (step errorBody once) Timely (start now) es := by
  constructor
  · intro hall
    refine throughout_of_invariant (I := Keeps) ?_ (fun s e h hkept => timely_of_kept h hkept) hall
      (keeps_start now)
    exact fun s e h hkept => keeps_step s e h (timely_of_kept h hkept)
  · intro hall
    exact throughout_of_invariant keeps_step
      (fun s e h htimely => kept_of_keeps (keeps_step s e h htimely)) hall (keeps_start now)

/-- A claim, with its deadline and its lease. -/
def claimRun (deadline leaseExpiresAt : ℕ) : List PollEvent :=
  [.pass false true, .listed (.ok [['1']]), .offer, .claimReply (.ok ⟨deadline, leaseExpiresAt⟩) (.ok ())]

/-- The reply to `dispatched` is still out at the deadline; a renewal is due when the job ends. -/
theorem late_steps :
    (let es := claimRun 10 3000 ++ [.elapse 11]
     ¬ Throughout (step (fun _ => none) false)
      (fun s e => Kept (fun _ => none) false (s.step (fun _ => none) false e)) (start 0) es) ∧
    (let es := claimRun 9000 3000 ++ [.watcher (.dispatchedReply (.ok ())), .elapse 1000,
        .listenerReturned (.ok none), .watcher .beat]
     ¬ Throughout (step (fun _ => none) false)
      (fun s e => Kept (fun _ => none) false (s.step (fun _ => none) false e)) (start 0) es) := by
  constructor
  · intro es hall
    have hlast : Kept _ _ _ := hall.2.2.2.2.1
    have hcancelled := hlast.onTime (.start 3000 10) rfl (by decide)
    cases hcancelled
  · intro es hall
    have hlast : Kept _ _ _ := hall.2.2.2.2.2.2.2.1
    have hbeat := hlast.sound.1.1
    revert hbeat
    decide

end Poller

end GhRunner.Listener
