import GhRunner.Listener.Idle

namespace GhRunner.Listener

open Text Machine

/-!
# The sessions of one process

`run --all` drives a loop for every registration, and hands each the tokens it may trip
(`crates/toolu-runner/src/supervisor.rs`, `run_cmd.rs`, `poll_loop.rs`, `poll_job.rs`;
`crates/listener/src/loop_decision.rs`, `job_lifecycle.rs`, `job_lifecycle/idle.rs`).

* `Token`, `Process.isCancelled` — the cancellation tokens and which of them are children;
* `nextAction` — what a loop does after a lifecycle;
* `watchStep` — what a message asks of the poll beside a job;
* `SessionEvent`, `Process.step` — messages at every session, signals, drains, jobs that end;
* `Isolated`, `Contained` — a message concerns its own registration only, and the messages that do;
* `isolated_iff` — the ones that trip the root token are exactly the others;
* `Targeted`, `Named` — a cancellation acts on the job it names, and the cancellations that do;
* `targeted_iff` — these are exactly the ones that arrive during the job they name.
-/

/-! ### After a lifecycle -/

inductive LoopAction
  | exit (code : ℤ)
  | reregister
  | backoffRetry
deriving DecidableEq, Repr

def sessionConflictExitCode : ℤ := 5

/-- First match wins. -/
def nextAction (outcome : Except RunnerError Unit) (once cancelled pendingRemove : Bool) :
    LoopAction :=
  if cancelled then .exit 0
  else if once then
    match outcome with
    | .ok _ => .exit 0
    | .error (.sessionConflict _) => .exit sessionConflictExitCode
    | .error _ => .exit 1
  else if pendingRemove then .exit 0
  else
    match outcome with
    | .error (.sessionConflict _) => .exit sessionConflictExitCode
    | .ok _ | .error (.auth _) => .reregister
    | .error _ => .backoffRetry

/-! ### The tokens -/

/-- Whom a registration gets its jobs from. -/
inductive Provider
  | github
  | toolu
deriving DecidableEq, Repr

inductive Token (R : Type)
  /-- The process's own, which SIGINT and SIGTERM trip. -/
  | root
  | drain (r : R)
  /-- Of the claim that a toolu.sh lifecycle runs for. -/
  | claim (r : R)
  /-- Of the job in flight. -/
  | job (r : R)
deriving DecidableEq, Repr

/-- Where a registration's loop stands. -/
inductive LoopState
  /-- Between two lifecycles. -/
  | starting
  /-- Polling for a job, with the redelivery cursor. -/
  | idle (lastMessageId : ℤ)
  /-- A job in flight; `watcher` is the cursor of the poll beside it, until it goes dormant. -/
  | busy (jobId : Str) (watcher : Option ℤ)
  | ended
deriving DecidableEq, Repr

structure Process (R : Type) where
  /-- The tokens that were cancelled themselves. -/
  tripped : Token R → Bool
  loops : R → LoopState

section Tokens

variable {R : Type} (provider : R → Provider)

/-- The token a listener lifecycle is given, which its session holds. -/
def sessionToken (r : R) : Token R :=
  match provider r with
  | .github => .root
  | .toolu => .claim r

/-- The token itself and the ones it is a child of. -/
def Token.lineage : Token R → List (Token R)
  | .root => [.root]
  | .drain r => [.drain r]
  | .claim r => [.claim r, .root]
  | .job r =>
    match provider r with
    | .github => [.job r, .root]
    | .toolu => [.job r, .claim r, .root]

/-- A child is cancelled with its parent. -/
def Process.isCancelled (s : Process R) (token : Token R) : Bool :=
  (token.lineage provider).any s.tripped

end Tokens

/-! ### The poll beside a job -/

/-- What a message asks of the watcher. -/
inductive WatchEffect
  | continue
  | dormant
  /-- Trip the job's token and go dormant. -/
  | cancelJob
  /-- Trip the session's token and go dormant. -/
  | cancelSession
deriving DecidableEq, Repr

def watchStep : PollOutcome → WatchEffect
  | .cancel _ _ => .cancelJob
  | .cancelled => .dormant
  | .shutdown _ => .cancelSession
  | .networkError _ | .noWork | .skip _ | .unknown _ | .unsupportedControl _ _ | .refreshToken _
  | .migrated _ _ | .job _ => .continue

/-! ### The process -/

inductive SessionEvent (R : Type)
  /-- SIGINT or SIGTERM. -/
  | signal
  /-- A rescan drains the registration's loop. -/
  | drain (r : R)
  /-- A rescan starts a loop for a registration without one. -/
  | spawn (r : R)
  /-- A session is created. -/
  | connect (r : R)
  /-- A poll of the registration's session comes back with a message; `acquired` is the id of the
      job that is acquired if it is a job's. -/
  | message (r : R) (msg : BrokerMessage) (acquired : Option Str)
  /-- GitHub no longer knows the job, or was out of reach for too long. -/
  | renewalLost (r : R)
  /-- The lifecycle is over: the job is, or the session ended without one. -/
  | lifecycleEnds (r : R) (outcome : Except RunnerError Unit) (pendingRemove fatal : Bool)

namespace Process

variable {R : Type} [DecidableEq R] (provider : R → Provider) (reader : R → BodyReader)

def start : Process R := ⟨fun _ => false, fun _ => .starting⟩

def trip (s : Process R) (token : Token R) : Process R :=
  { s with tripped := Function.update s.tripped token true }

/-- A new token takes the place of the old. -/
def fresh (s : Process R) (token : Token R) : Process R :=
  { s with tripped := Function.update s.tripped token false }

def setLoop (s : Process R) (r : R) (state : LoopState) : Process R :=
  { s with loops := Function.update s.loops r state }

/-- Cancelled or drained: take no more jobs. -/
def stopping (s : Process R) (r : R) : Bool :=
  s.isCancelled provider .root || s.isCancelled provider (.drain r)

/-- The run loop's next pass, or its end. -/
def afterLifecycle (s : Process R) (r : R) (outcome : Except RunnerError Unit)
    (pendingRemove fatal : Bool) : Process R :=
  match nextAction outcome false (s.stopping provider r) pendingRemove with
  | .exit _ => s.setLoop r .ended
  | .reregister | .backoffRetry => s.setLoop r (if fatal then .ended else .starting)

/-- A message past the idle loop's cursor. -/
def idleMessage (s : Process R) (r : R) (messageId : ℤ) (outcome : PollOutcome)
    (acquired : Option Str) : Process R :=
  match handleIdleOutcome outcome with
  | .continue | .migrate _ | .backOff | .refresh => s.setLoop r (.idle messageId)
  | .exit => s.afterLifecycle provider r (.ok ()) false false
  | .job _ =>
    match acquired with
    | some jobId => (s.fresh (.job r)).setLoop r (.busy jobId (some 0))
    | none => s.afterLifecycle provider r (.error (.other [])) false false
  | .cancelSession =>
    (s.trip (sessionToken provider r)).afterLifecycle provider r (.ok ()) false false

/-- A message past the watcher's cursor.  Which job it names makes no difference. -/
def watchMessage (s : Process R) (r : R) (jobId : Str) (messageId : ℤ) (outcome : PollOutcome) :
    Process R :=
  match watchStep outcome with
  | .continue => s.setLoop r (.busy jobId (some messageId))
  | .dormant => s.setLoop r (.busy jobId none)
  | .cancelJob => (s.trip (.job r)).setLoop r (.busy jobId none)
  | .cancelSession => (s.trip (sessionToken provider r)).setLoop r (.busy jobId none)

/-- A poll looks at the session's token first, and then at the cursor. -/
def message (s : Process R) (r : R) (msg : BrokerMessage) (acquired : Option Str) : Process R :=
  if s.isCancelled provider (sessionToken provider r) then s
  else
    match s.loops r with
    | .idle cursor =>
      if msg.messageId ≤ cursor then s
      else s.idleMessage provider r msg.messageId (classifyReceivedMessage (reader r) msg) acquired
    | .busy jobId (some cursor) =>
      if msg.messageId ≤ cursor then s
      else s.watchMessage provider r jobId msg.messageId (classifyReceivedMessage (reader r) msg)
    | .busy _ none | .starting | .ended => s

def step (s : Process R) : SessionEvent R → Process R
  | .signal => s.trip .root
  | .drain r => s.trip (.drain r)
  | .spawn r =>
    match s.loops r with
    | .ended => (s.fresh (.drain r)).setLoop r .starting
    | _ => s
  | .connect r =>
    match s.loops r with
    | .starting => (s.fresh (.claim r)).setLoop r (.idle 0)
    | _ => s
  | .message r msg acquired => s.message provider reader r msg acquired
  | .renewalLost r =>
    match s.loops r with
    | .busy _ _ => s.trip (.job r)
    | _ => s
  | .lifecycleEnds r outcome pendingRemove fatal =>
    match s.loops r with
    | .idle _ | .busy _ _ => s.afterLifecycle provider r outcome pendingRemove fatal
    | _ => s

end Process

/-! ### What a message is to leave alone -/

section Claims

variable {R : Type} [DecidableEq R] (provider : R → Provider) (reader : R → BodyReader)

/-- The cursor of the poll a loop is in. -/
def LoopState.cursor : LoopState → Option ℤ
  | .idle cursor => some cursor
  | .busy _ watcher => watcher
  | .starting | .ended => none

/-- The message reaches its handler: the session is alive, a poll is out, and the message is new. -/
def Heard (s : Process R) (r : R) (msg : BrokerMessage) : Prop :=
  s.isCancelled provider (sessionToken provider r) = false ∧
    ∃ cursor, (s.loops r).cursor = some cursor ∧ cursor < msg.messageId

/-- In that state of the loop the outcome trips the session's token. -/
def TripsSession (state : LoopState) (outcome : PollOutcome) : Prop :=
  match state with
  | .idle _ => handleIdleOutcome outcome = .cancelSession
  | .busy _ _ => watchStep outcome = .cancelSession
  | .starting | .ended => False

/-- No other registration's tokens change, nor the root; nor any other loop. -/
structure Frame (r : R) (s t : Process R) : Prop where
  loops : ∀ q, q ≠ r → t.loops q = s.loops q
  tokens : ∀ token, token ∉ [Token.drain r, .claim r, .job r] →
    t.isCancelled provider token = s.isCancelled provider token

/-- A message concerns only the registration at whose session it arrives. -/
def Isolated (s : Process R) : SessionEvent R → Prop
  | .message r msg acquired => Frame provider r s (s.message provider reader r msg acquired)
  | _ => True

/-- The message does not trip the token of a session that GitHub's own registration holds. -/
def Contained (s : Process R) : SessionEvent R → Prop
  | .message r msg _ => provider r = .github → Heard provider s r msg →
      ¬ TripsSession (s.loops r) (classifyReceivedMessage (reader r) msg)
  | _ => True

/-- The loop will take jobs. -/
def CanTake (s : Process R) (r : R) : Prop :=
  s.stopping provider r = false ∧
    match s.loops r with
    | .idle _ => s.isCancelled provider (sessionToken provider r) = false
    | .starting => True
    | .busy _ _ | .ended => False

/-- A cancellation cancels the job in flight only if it names it, and none that arrives while there
    is none keeps the loop from taking jobs. -/
def Targeted (s : Process R) : SessionEvent R → Prop
  | .message r msg acquired => ∀ m named,
      classifyReceivedMessage (reader r) msg = .cancel m named →
        (∀ jobId watcher, s.loops r = .busy jobId watcher →
          s.isCancelled provider (.job r) = false →
          (s.message provider reader r msg acquired).isCancelled provider (.job r) = true →
          named = jobId) ∧
        (∀ cursor, s.loops r = .idle cursor → CanTake provider s r →
          CanTake provider (s.message provider reader r msg acquired) r)
  | _ => True

/-- A cancellation that is heard names the job in flight; or there is nothing left to cancel, or
    only the claim of a toolu.sh job. -/
def Named (s : Process R) : SessionEvent R → Prop
  | .message r msg _ => ∀ m named, classifyReceivedMessage (reader r) msg = .cancel m named →
      Heard provider s r msg →
        match s.loops r with
        | .busy jobId _ => named = jobId ∨ s.isCancelled provider (.job r) = true
        | .idle _ => provider r = .toolu ∨ s.stopping provider r = true
        | .starting | .ended => True
  | _ => True

end Claims

/-! ### Tokens that are tripped and renewed -/

section Steps

variable {R : Type} {provider : R → Provider} {s t u : Process R} {r : R}

theorem frame_refl (s : Process R) : Frame provider r s s :=
  ⟨fun _ _ => rfl, fun _ _ => rfl⟩

theorem Frame.trans (h : Frame provider r s t) (h' : Frame provider r t u) :
    Frame provider r s u :=
  ⟨fun q hq => (h'.loops q hq).trans (h.loops q hq),
    fun token htoken => (h'.tokens token htoken).trans (h.tokens token htoken)⟩

/-- No other registration's token is a child of this one's. -/
theorem notMem_lineage {own token : Token R} (hown : own ∈ [Token.drain r, .claim r, .job r])
    (htoken : token ∉ [Token.drain r, .claim r, .job r]) : own ∉ token.lineage provider := by
  intro hmem
  simp only [List.mem_cons, List.not_mem_nil, or_false, not_or] at hown htoken
  cases token with
  | root =>
    rw [Token.lineage, List.mem_singleton] at hmem
    subst hmem
    simp at hown
  | drain q =>
    rw [Token.lineage, List.mem_singleton] at hmem
    subst hmem
    simp_all
  | claim q =>
    rw [Token.lineage, List.mem_pair] at hmem
    rcases hmem with rfl | rfl <;> simp_all
  | job q =>
    have hne : q ≠ r := fun h => htoken.2.2 (h ▸ rfl)
    rw [Token.lineage] at hmem
    split at hmem <;> simp only [List.mem_cons, List.not_mem_nil, or_false] at hmem <;>
      rcases hown with rfl | rfl | rfl <;> simp_all

theorem isCancelled_root (s : Process R) : s.isCancelled provider .root = s.tripped .root := by
  rw [Process.isCancelled, Token.lineage, List.any_cons, List.any_nil, Bool.or_false]

variable [DecidableEq R] {reader : R → BodyReader}

@[simp] theorem tripped_trip_self (s : Process R) (token : Token R) :
    (s.trip token).tripped token = true := Function.update_self _ _ _

@[simp] theorem loops_setLoop_self (s : Process R) (state : LoopState) :
    (s.setLoop r state).loops r = state := Function.update_self _ _ _

/-- A token is untouched by what is done to one that it is no child of. -/
theorem isCancelled_update {changed token : Token R} {value : Bool}
    (h : changed ∉ token.lineage provider) :
    ({ s with tripped := Function.update s.tripped changed value } : Process R).isCancelled provider
      token = s.isCancelled provider token := by
  have hsame : ∀ a ∈ token.lineage provider,
      Function.update s.tripped changed value a = s.tripped a := by
    intro a ha
    refine Function.update_of_ne ?_ _ _
    rintro rfl
    exact h ha
  rw [Bool.eq_iff_iff, Process.isCancelled, Process.isCancelled, List.any_eq_true,
    List.any_eq_true]
  exact exists_congr fun a => and_congr_right fun ha => by rw [← hsame a ha]

theorem frame_setLoop (s : Process R) (state : LoopState) :
    Frame provider r s (s.setLoop r state) :=
  ⟨fun _ hq => Function.update_of_ne hq _ _, fun _ _ => rfl⟩

theorem frame_update {own : Token R} {value : Bool}
    (hown : own ∈ [Token.drain r, .claim r, .job r]) :
    Frame provider r s { s with tripped := Function.update s.tripped own value } :=
  ⟨fun _ _ => rfl, fun _ htoken => isCancelled_update (notMem_lineage hown htoken)⟩

theorem frame_trip (s : Process R) {own : Token R}
    (hown : own ∈ [Token.drain r, .claim r, .job r]) : Frame provider r s (s.trip own) :=
  frame_update hown

theorem frame_fresh (s : Process R) {own : Token R}
    (hown : own ∈ [Token.drain r, .claim r, .job r]) : Frame provider r s (s.fresh own) :=
  frame_update hown

variable (provider r) in
theorem afterLifecycle_eq (s : Process R) (outcome : Except RunnerError Unit)
    (pendingRemove fatal : Bool) :
    ∃ state, s.afterLifecycle provider r outcome pendingRemove fatal = s.setLoop r state := by
  unfold Process.afterLifecycle
  split
  · exact ⟨_, rfl⟩
  · exact ⟨_, rfl⟩
  · exact ⟨_, rfl⟩

theorem frame_afterLifecycle (s : Process R) (outcome : Except RunnerError Unit)
    (pendingRemove fatal : Bool) :
    Frame provider r s (s.afterLifecycle provider r outcome pendingRemove fatal) := by
  obtain ⟨state, hstate⟩ := afterLifecycle_eq provider r s outcome
    pendingRemove fatal
  rw [hstate]
  exact frame_setLoop s state

/-- Of the tokens that a session may trip, only the root is not its registration's own. -/
theorem frame_tripSession (s : Process R) (h : provider r ≠ .github) :
    Frame provider r s (s.trip (sessionToken provider r)) := by
  apply frame_trip
  unfold sessionToken
  split
  case h_1 hgithub => exact absurd hgithub h
  case h_2 => simp

theorem frame_idleMessage {messageId : ℤ} {outcome : PollOutcome} {acquired : Option Str}
    (h : provider r = .github → handleIdleOutcome outcome ≠ .cancelSession) :
    Frame provider r s (s.idleMessage provider r messageId outcome acquired) := by
  unfold Process.idleMessage
  split
  case h_7 heffect =>
    have hprovider : provider r ≠ .github := fun hgithub => h hgithub heffect
    exact (frame_tripSession s hprovider).trans (frame_afterLifecycle _ _ _ _)
  case h_5 => exact frame_afterLifecycle _ _ _ _
  case h_6 =>
    split
    · exact (frame_fresh s (by simp)).trans (frame_setLoop _ _)
    · exact frame_afterLifecycle _ _ _ _
  all_goals exact frame_setLoop _ _

theorem frame_watchMessage {jobId : Str} {messageId : ℤ} {outcome : PollOutcome}
    (h : provider r = .github → watchStep outcome ≠ .cancelSession) :
    Frame provider r s (s.watchMessage provider r jobId messageId outcome) := by
  unfold Process.watchMessage
  split
  case h_4 heffect =>
    have hprovider : provider r ≠ .github := fun hgithub => h hgithub heffect
    exact (frame_tripSession s hprovider).trans (frame_setLoop _ _)
  case h_3 => exact (frame_trip s (by simp)).trans (frame_setLoop _ _)
  all_goals exact frame_setLoop _ _

/-! ### One message -/

/-- A message that is not heard changes nothing. -/
theorem message_of_not_heard {msg : BrokerMessage} (acquired : Option Str)
    (h : ¬ Heard provider s r msg) : s.message provider reader r msg acquired = s := by
  unfold Process.message
  split
  · rfl
  · rename_i halive
    rw [Bool.not_eq_true] at halive
    split
    case h_1 cursor hloop =>
      exact if_pos (not_lt.mp fun hnew => h ⟨halive, cursor, by rw [hloop]; rfl, hnew⟩)
    case h_2 jobId cursor hloop =>
      exact if_pos (not_lt.mp fun hnew => h ⟨halive, cursor, by rw [hloop]; rfl, hnew⟩)
    all_goals rfl

theorem message_idle {msg : BrokerMessage} {cursor : ℤ} (acquired : Option Str)
    (hloop : s.loops r = .idle cursor) (h : Heard provider s r msg) :
    s.message provider reader r msg acquired =
      s.idleMessage provider r msg.messageId (classifyReceivedMessage (reader r) msg) acquired := by
  obtain ⟨halive, cursor', hcursor, hnew⟩ := h
  rw [hloop] at hcursor
  obtain rfl := Option.some.inj hcursor
  unfold Process.message
  rw [if_neg (by rw [halive]; exact Bool.false_ne_true), hloop]
  exact if_neg (not_le.mpr hnew)

theorem message_busy {msg : BrokerMessage} {jobId : Str} {watcher : Option ℤ}
    (acquired : Option Str) (hloop : s.loops r = .busy jobId watcher)
    (h : Heard provider s r msg) :
    s.message provider reader r msg acquired =
      s.watchMessage provider r jobId msg.messageId (classifyReceivedMessage (reader r) msg) := by
  obtain ⟨halive, cursor, hcursor, hnew⟩ := h
  rw [hloop] at hcursor
  obtain rfl : watcher = some cursor := hcursor
  unfold Process.message
  rw [if_neg (by rw [halive]; exact Bool.false_ne_true), hloop]
  exact if_neg (not_le.mpr hnew)

theorem isolated_iff_contained (s : Process R) (e : SessionEvent R) :
    Isolated provider reader s e ↔ Contained provider reader s e := by
  cases e with
  | message r msg acquired =>
    show Frame provider r s _ ↔ _
    constructor
    · intro hframe hgithub hheard htrips
      have hroot := hframe.tokens .root (by simp)
      have halive : s.isCancelled provider .root = false := by
        have := hheard.1
        rwa [sessionToken, hgithub] at this
      have htripped : (s.message provider reader r msg acquired).isCancelled provider .root =
          true := by
        have hsession : sessionToken provider r = .root := by rw [sessionToken, hgithub]
        unfold TripsSession at htrips
        split at htrips
        case h_1 cursor hloop =>
          obtain ⟨state, hstate⟩ := afterLifecycle_eq provider r
            (s.trip .root) (.ok ()) false false
          rw [message_idle acquired hloop hheard]
          unfold Process.idleMessage
          rw [htrips, hsession]
          show Process.isCancelled _ (Process.afterLifecycle _ _ _ _ _ _) _ = true
          rw [hstate, isCancelled_root]
          exact tripped_trip_self s .root
        case h_2 jobId watcher hloop =>
          rw [message_busy acquired hloop hheard]
          unfold Process.watchMessage
          rw [htrips, hsession, isCancelled_root]
          exact tripped_trip_self s .root
        all_goals exact htrips.elim
      rw [htripped, halive] at hroot
      cases hroot
    · intro hcontained
      by_cases hheard : Heard provider s r msg
      · obtain ⟨-, cursor, hcursor, -⟩ := id hheard
        cases hloop : s.loops r with
        | starting => rw [hloop] at hcursor; cases hcursor
        | ended => rw [hloop] at hcursor; cases hcursor
        | idle _ =>
          rw [message_idle acquired hloop hheard]
          apply frame_idleMessage
          intro hgithub heffect
          exact hcontained hgithub hheard (by rw [hloop]; exact heffect)
        | busy _ _ =>
          rw [message_busy acquired hloop hheard]
          apply frame_watchMessage
          intro hgithub heffect
          exact hcontained hgithub hheard (by rw [hloop]; exact heffect)
      · rw [message_of_not_heard acquired hheard]
        exact frame_refl s
  | signal => exact Iff.rfl
  | drain r => exact Iff.rfl
  | spawn r => exact Iff.rfl
  | connect r => exact Iff.rfl
  | renewalLost r => exact Iff.rfl
  | lifecycleEnds r outcome pendingRemove fatal => exact Iff.rfl

/-- A cancellation that is heard beside a job cancels it. -/
theorem isCancelled_job_of_cancel {msg m : BrokerMessage} {named jobId : Str}
    {watcher : Option ℤ} (acquired : Option Str)
    (hcancel : classifyReceivedMessage (reader r) msg = .cancel m named)
    (hloop : s.loops r = .busy jobId watcher) (h : Heard provider s r msg) :
    (s.message provider reader r msg acquired).isCancelled provider (.job r) = true := by
  rw [message_busy acquired hloop h, hcancel]
  have hmem : Token.job r ∈ (Token.job r).lineage provider := by
    rw [Token.lineage]
    split <;> exact List.mem_cons_self
  exact List.any_eq_true.mpr ⟨.job r, hmem, tripped_trip_self s (.job r)⟩

theorem stopping_trip_root (s : Process R) : (s.trip .root).stopping provider r = true := by
  rw [Process.stopping, isCancelled_root, Bool.or_eq_true]
  exact .inl (tripped_trip_self s .root)

theorem stopping_trip_claim (s : Process R) :
    (s.trip (.claim r)).stopping provider r = s.stopping provider r := by
  have hroot : (s.trip (.claim r)).isCancelled provider .root = s.isCancelled provider .root :=
    isCancelled_update (by simp [Token.lineage])
  have hdrain : (s.trip (.claim r)).isCancelled provider (.drain r) =
      s.isCancelled provider (.drain r) := isCancelled_update (by simp [Token.lineage])
  rw [Process.stopping, Process.stopping, hroot, hdrain]

theorem stopping_setLoop (s : Process R) (state : LoopState) :
    (s.setLoop r state).stopping provider r = s.stopping provider r := rfl

/-- A cancellation that is heard while idle ends the lifecycle, with the session's token tripped. -/
theorem message_idle_cancel {msg m : BrokerMessage} {named : Str} {cursor : ℤ}
    (acquired : Option Str) (hcancel : classifyReceivedMessage (reader r) msg = .cancel m named)
    (hloop : s.loops r = .idle cursor) (h : Heard provider s r msg) :
    s.message provider reader r msg acquired =
      (s.trip (sessionToken provider r)).afterLifecycle provider r (.ok ()) false false := by
  rw [message_idle acquired hloop h, hcancel]
  rfl

/-- That is the end of a loop whose session holds the root token. -/
theorem not_canTake_of_github (s : Process R) (hgithub : provider r = .github) :
    ¬ CanTake provider
      ((s.trip (sessionToken provider r)).afterLifecycle provider r (.ok ()) false false) r := by
  obtain ⟨state, hstate⟩ := afterLifecycle_eq provider r
    (s.trip (sessionToken provider r)) (.ok ()) false false
  intro hcan
  have hstopping := hcan.1
  rw [hstate, stopping_setLoop, sessionToken, hgithub] at hstopping
  exact Bool.false_ne_true (hstopping.symm.trans (stopping_trip_root s))

/-- It is only the end of the claim where the session holds the claim's token. -/
theorem canTake_of_toolu (htoolu : provider r = .toolu) (h : s.stopping provider r = false) :
    CanTake provider
      ((s.trip (sessionToken provider r)).afterLifecycle provider r (.ok ()) false false) r := by
  have hsession : sessionToken provider r = .claim r := by rw [sessionToken, htoolu]
  have hstopping : (s.trip (.claim r)).stopping provider r = false :=
    (stopping_trip_claim s).trans h
  have hafter : (s.trip (.claim r)).afterLifecycle provider r (.ok ()) false false =
      (s.trip (.claim r)).setLoop r .starting := by
    unfold Process.afterLifecycle
    rw [hstopping]
    rfl
  rw [hsession, hafter]
  refine ⟨hstopping, ?_⟩
  rw [loops_setLoop_self]
  trivial

theorem targeted_iff_named (s : Process R) (e : SessionEvent R) :
    Targeted provider reader s e ↔ Named provider reader s e := by
  cases e with
  | message r msg acquired =>
    constructor
    · intro htargeted m named hcancel hheard
      obtain ⟨hbusy, hidle⟩ := htargeted m named hcancel
      split
      case h_1 jobId watcher hloop =>
        by_cases hjob : s.isCancelled provider (.job r) = true
        · exact .inr hjob
        · exact .inl (hbusy jobId watcher hloop (Bool.not_eq_true _ ▸ hjob)
            (isCancelled_job_of_cancel acquired hcancel hloop hheard))
      case h_2 cursor hloop =>
        rw [message_idle_cancel acquired hcancel hloop hheard] at hidle
        cases hprovider : provider r with
        | toolu => exact .inl rfl
        | github =>
          refine .inr (Bool.not_eq_false _ ▸ fun hstopping => ?_)
          -- a loop that was to take jobs does so no more
          have hcan : CanTake provider s r := ⟨hstopping, by rw [hloop]; exact hheard.1⟩
          exact not_canTake_of_github s hprovider (hidle cursor hloop hcan)
      all_goals trivial
    · intro hnamed m named hcancel
      by_cases hheard : Heard provider s r msg
      · have hnamed := hnamed m named hcancel hheard
        constructor
        · intro jobId watcher hloop hbefore _
          rw [hloop] at hnamed
          exact hnamed.resolve_right (by rw [hbefore]; exact Bool.false_ne_true)
        · intro cursor hloop hcan
          rw [hloop] at hnamed
          have htoolu : provider r = .toolu :=
            hnamed.resolve_right (by rw [hcan.1]; exact Bool.false_ne_true)
          rw [message_idle_cancel acquired hcancel hloop hheard]
          exact canTake_of_toolu htoolu hcan.1
      · rw [message_of_not_heard acquired hheard]
        refine ⟨fun _ _ _ hbefore hafter => ?_, fun _ _ hcan => hcan⟩
        rw [hbefore] at hafter
        cases hafter
  | signal => exact Iff.rfl
  | drain r => exact Iff.rfl
  | spawn r => exact Iff.rfl
  | connect r => exact Iff.rfl
  | renewalLost r => exact Iff.rfl
  | lifecycleEnds r outcome pendingRemove fatal => exact Iff.rfl

/-! ### Every run -/

/-- Nothing but a signal, or a message that is not contained, trips the root token. -/
theorem root_step {e : SessionEvent R} (hcontained : Contained provider reader s e)
    (hsignal : e ≠ .signal) :
    (s.step provider reader e).isCancelled provider .root = s.isCancelled provider .root := by
  cases e with
  | signal => exact absurd rfl hsignal
  | message r msg acquired =>
    have hframe : Frame provider r s (s.message provider reader r msg acquired) :=
      (isolated_iff_contained s (.message r msg acquired)).mpr hcontained
    exact hframe.tokens .root (by simp)
  | drain r => exact (frame_trip (r := r) s (by simp)).tokens .root (by simp)
  | spawn r =>
    simp only [Process.step]
    split
    · exact (frame_fresh (r := r) s (by simp)).tokens .root (by simp)
    · rfl
  | connect r =>
    simp only [Process.step]
    split
    · exact (frame_fresh (r := r) s (by simp)).tokens .root (by simp)
    · rfl
  | renewalLost r =>
    simp only [Process.step]
    split
    · exact (frame_trip (r := r) s (by simp)).tokens .root (by simp)
    · rfl
  | lifecycleEnds r outcome pendingRemove fatal =>
    simp only [Process.step]
    split
    · exact (frame_afterLifecycle s _ _ _).tokens .root (by simp)
    · exact (frame_afterLifecycle s _ _ _).tokens .root (by simp)
    · rfl

theorem signal_of_root_cancelled {es : List (SessionEvent R)}
    (h : Throughout (Process.step provider reader) (Contained provider reader) Process.start es) :
    (run (Process.step provider reader) Process.start es).isCancelled provider .root = true →
      SessionEvent.signal ∈ es := by
  refine run_history (P := Contained provider reader)
    (I := fun past s => s.isCancelled provider .root = true → SessionEvent.signal ∈ past) ?_ h ?_
  · intro past s e ih hcontained hroot
    by_cases hsignal : e = .signal
    · rw [hsignal]
      simp
    · rw [root_step hcontained hsignal] at hroot
      exact List.mem_append_left _ (ih hroot)
  · intro hroot
    rw [isCancelled_root] at hroot
    cases hroot

end Steps

section Runs

variable {R : Type} [DecidableEq R] (provider : R → Provider) (reader : R → BodyReader)

/-- Every message of a run concerns its own registration alone, and the root token is cancelled by a
    signal or not at all, exactly if no message of the run trips the token of a session that holds
    the root. -/
theorem isolated_iff (es : List (SessionEvent R)) :
    (Throughout (Process.step provider reader) (Isolated provider reader) Process.start es ∧
      ((run (Process.step provider reader) Process.start es).isCancelled provider .root = true →
        SessionEvent.signal ∈ es)) ↔
      Throughout (Process.step provider reader) (Contained provider reader) Process.start es := by
  rw [throughout_congr _ isolated_iff_contained]
  exact ⟨And.left, fun hcontained => ⟨hcontained, signal_of_root_cancelled hcontained⟩⟩

/-- Every cancellation of a run acts on the job it names exactly if each that is heard arrives
    during that job. -/
theorem targeted_iff (es : List (SessionEvent R)) :
    Throughout (Process.step provider reader) (Targeted provider reader) Process.start es ↔
      Throughout (Process.step provider reader) (Named provider reader) Process.start es :=
  throughout_congr _ targeted_iff_named

end Runs

/-! ### Two registrations -/

/-- Bodies in the clear, a cancellation's being the id of its job. -/
def plainReader : BodyReader := ⟨false, fun _ _ => none, some, some⟩

/-- While one registration runs a job, GitHub asks the session of the other, which is idle, to shut
    down: the job is cancelled, without a signal. -/
theorem shutdown_cancels_the_other :
    let step := Process.step (fun _ : Bool => Provider.github) fun _ => plainReader
    let s := run step Process.start
      [.connect true, .message true ⟨1, .runnerJobRequest, [], none⟩ (some "j".toList),
        .connect false]
    let t := step s (.message false ⟨1, .hostedRunnerShutdown, [], none⟩ none)
    s.loops true = .busy "j".toList (some 0) ∧
      s.isCancelled (fun _ => .github) (.job true) = false ∧
      t.isCancelled (fun _ => .github) (.job true) = true ∧
      t.isCancelled (fun _ => .github) .root = true := by
  decide

/-- A cancellation of job `k` cancels job `j`; and an idle runner that gets it stops. -/
theorem cancellation_of_another_job :
    let step := Process.step (fun _ : Unit => Provider.github) fun _ => plainReader
    let cancel : SessionEvent Unit := .message () ⟨2, .jobCancellation, "k".toList, none⟩ none
    let s := run step Process.start
      [.connect (), .message () ⟨1, .runnerJobRequest, [], none⟩ (some "j".toList)]
    s.loops () = .busy "j".toList (some 0) ∧
      s.isCancelled (fun _ => .github) (.job ()) = false ∧
      (step s cancel).isCancelled (fun _ => .github) (.job ()) = true ∧
      (run step Process.start [.connect (), cancel]).loops () = .ended := by
  decide

end GhRunner.Listener
