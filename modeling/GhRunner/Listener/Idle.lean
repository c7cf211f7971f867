import GhRunner.Lib.Machine
import GhRunner.Listener.Broker

namespace GhRunner.Listener

open Text Machine

/-!
# The idle poll

Long-poll the broker until a job message arrives, the session ends, or a drain asks the runner to
take no more jobs (`crates/listener/src/job_lifecycle/idle.rs`).

* `IdleLoop`, `Wake`, `IdleLoop.step` — the loop, and what it does when it is woken;
* `handleIdleOutcome` — what an outcome asks of it;
* `step_log` — what one wake-up adds to the actions taken, and to the cursor;
* `Ordered` — the ids acted on rise, the cursor is the last of them, and every poll was sent it;
* `idle_poll` — and no fresh message is lost.

A wake-up carries everything the task may find then: two futures that are raced are both looked at,
in the order of the race.
-/

/-- In milliseconds. -/
def pollBackoffStart : ℕ := 1000

def pollBackoffMax : ℕ := 60000

/-- What an outcome asks of the idle loop. -/
inductive IdleEffect
  | continue
  | exit
  | job (msg : BrokerMessage)
  | migrate (url : Str)
  /-- Trip the session's token, then exit. -/
  | cancelSession
  /-- Sleep, then poll again. -/
  | backOff
  /-- Exchange the token, then poll again. -/
  | refresh
deriving DecidableEq, Repr

def handleIdleOutcome : PollOutcome → IdleEffect
  | .cancelled => .exit
  | .noWork => .continue
  | .migrated url _ => .migrate url
  | .job msg => .job msg
  | .cancel _ _ => .cancelSession
  | .networkError _ => .backOff
  | .skip _ | .unknown _ | .unsupportedControl _ _ => .continue
  | .shutdown _ => .cancelSession
  | .refreshToken _ => .refresh

/-- Where the task is waiting. -/
inductive IdlePhase
  /-- At the head of the loop. -/
  | top
  | polling
  /-- Sleeping after a message that was seen before. -/
  | redelivered
  /-- Sleeping after a poll that failed. -/
  | backingOff
  | refreshing
  | finished (result : Except RunnerError (Option BrokerMessage))
deriving DecidableEq

/-- What the loop has done that others see. -/
inductive IdleAction
  | polled (lastMessageId : ℤ)
  | acted (messageId : ℤ)
deriving DecidableEq, Repr

structure IdleLoop where
  phase : IdlePhase
  /-- `0` until the first message, then the id of the last message handled. -/
  lastMessageId : ℤ
  backoff : ℕ
  token : Str
  brokerUrl : Str
  /-- The loop itself has tripped the session's token. -/
  tripped : Bool
  log : List IdleAction
deriving DecidableEq

/-- What a task that is woken finds. -/
structure Wake where
  drained : Bool := false
  /-- The session's token is cancelled. -/
  cancelled : Bool := false
  /-- The reply to the poll. -/
  reply : Option PollReply := none
  /-- The sleep is over. -/
  elapsed : Bool := false
  /-- What the exchange of the token came to. -/
  refreshed : Option (Except RunnerError Str) := none

namespace IdleLoop

def start (token brokerUrl : Str) : IdleLoop where
  phase := .top
  lastMessageId := 0
  backoff := pollBackoffStart
  token := token
  brokerUrl := brokerUrl
  tripped := false
  log := []

/-- End without a job. -/
def drainedOut (s : IdleLoop) : IdleLoop := { s with phase := .finished (.ok none) }

def doubled (backoff : ℕ) : ℕ := min (backoff * 2) pollBackoffMax

/-- Run what is waited for unless the drain fires while it is pending: the drain comes second. -/
def unlessDrained {α : Type} (s : IdleLoop) (w : Wake) (ready : Option α)
    (next : α → IdleLoop) : IdleLoop :=
  match ready with
  | some value => next value
  | none => if w.drained then s.drainedOut else s

/-- Whether the sleep ended in a cancellation, when it is over. -/
def sleepOrCancel (w : Wake) : Option Bool :=
  if w.cancelled then some true else if w.elapsed then some false else none

/-- Apply an outcome whose cursor has been advanced. -/
def handle (s : IdleLoop) (outcome : PollOutcome) : IdleLoop :=
  match handleIdleOutcome outcome with
  | .continue => { s with backoff := pollBackoffStart, phase := .top }
  | .exit => { s with phase := .finished (.ok none) }
  | .job msg => { s with phase := .finished (.ok (some msg)) }
  | .migrate url => { s with brokerUrl := url, backoff := pollBackoffStart, phase := .top }
  | .cancelSession => { s with tripped := true, phase := .finished (.ok none) }
  | .backOff => { s with phase := .backingOff }
  | .refresh => { s with phase := .refreshing }

/-- The poll is over. -/
def received (s : IdleLoop) (outcome : PollOutcome) : IdleLoop :=
  match outcome.messageId with
  | some messageId =>
    if isRedelivery s.lastMessageId outcome then { s with phase := .redelivered }
    else
      handle { s with lastMessageId := messageId, log := s.log ++ [.acted messageId] } outcome
  | none => s.handle outcome

/-- A sleep is over; the next one will be twice as long. -/
def slept (s : IdleLoop) (cancelled : Bool) : IdleLoop :=
  if cancelled then { s with phase := .finished (.ok none) }
  else { s with backoff := doubled s.backoff, phase := .top }

/-- The exchange of the token is over: the new one is published after a success only. -/
def exchanged (s : IdleLoop) : Except RunnerError Str → IdleLoop
  | .ok token => { s with token := token, backoff := pollBackoffStart, phase := .top }
  | .error .cancelled => { s with phase := .finished (.ok none) }
  | .error e => { s with phase := .finished (.error e) }

/-- The token exchange at a wake-up: cancellation is looked at first. -/
def refreshAccessToken (w : Wake) : Option (Except RunnerError Str) :=
  if w.cancelled then some (.error .cancelled) else w.refreshed

def step (reader : BodyReader) (s : IdleLoop) (w : Wake) : IdleLoop :=
  match s.phase with
  | .top =>
    if w.drained then s.drainedOut
    else { s with phase := .polling, log := s.log ++ [.polled s.lastMessageId] }
  | .polling => s.unlessDrained w (pollOnce reader w.cancelled w.reply) s.received
  | .redelivered => s.unlessDrained w (sleepOrCancel w) s.slept
  | .backingOff => s.unlessDrained w (sleepOrCancel w) s.slept
  | .refreshing => s.unlessDrained w (refreshAccessToken w) s.exchanged
  | .finished _ => s

/-! ### What one wake-up does -/

variable {reader : BodyReader} {s : IdleLoop} {w : Wake}

/-- The ids of the messages acted on, in order. -/
def actedIds (log : List IdleAction) : List ℤ :=
  log.filterMap fun
    | .acted messageId => some messageId
    | .polled _ => none

@[simp] theorem handle_log (s : IdleLoop) (outcome : PollOutcome) :
    (s.handle outcome).log = s.log := by
  unfold handle
  split <;> rfl

@[simp] theorem handle_lastMessageId (s : IdleLoop) (outcome : PollOutcome) :
    (s.handle outcome).lastMessageId = s.lastMessageId := by
  unfold handle
  split <;> rfl

/-- What a wake-up may add to the log, and what it does to the cursor then. -/
inductive Logs (s t : IdleLoop) : Prop
  | nothing (hlog : t.log = s.log) (hcursor : t.lastMessageId = s.lastMessageId)
  | polled (hlog : t.log = s.log ++ [.polled s.lastMessageId])
      (hcursor : t.lastMessageId = s.lastMessageId)
  | acted (messageId : ℤ) (hfresh : s.lastMessageId < messageId)
      (hlog : t.log = s.log ++ [.acted messageId]) (hcursor : t.lastMessageId = messageId)

theorem logs_unlessDrained {α : Type} {ready : Option α} {next : α → IdleLoop}
    (h : ∀ value, ready = some value → Logs s (next value)) :
    Logs s (s.unlessDrained w ready next) := by
  unfold unlessDrained
  split
  case h_1 value => exact h value rfl
  case h_2 => split <;> exact .nothing rfl rfl

theorem logs_received (outcome : PollOutcome) : Logs s (s.received outcome) := by
  unfold received
  split
  case h_2 => exact .nothing (handle_log _ _) (handle_lastMessageId _ _)
  case h_1 messageId hid =>
    split
    case isTrue => exact .nothing rfl rfl
    case isFalse hfresh =>
      rw [isRedelivery_eq_true_iff hid, not_le] at hfresh
      exact .acted messageId hfresh (handle_log _ _) (handle_lastMessageId _ _)

theorem logs_slept (cancelled : Bool) : Logs s (s.slept cancelled) := by
  unfold slept
  split <;> exact .nothing rfl rfl

theorem logs_exchanged (result : Except RunnerError Str) : Logs s (s.exchanged result) := by
  unfold exchanged
  split <;> exact .nothing rfl rfl

variable (reader) in
/-- A message is acted on only past the cursor, and the cursor moves to it. -/
theorem step_log (s : IdleLoop) (w : Wake) : Logs s (step reader s w) := by
  unfold step
  split
  case h_1 =>
    split
    · exact .nothing rfl rfl
    · exact .polled rfl rfl
  case h_2 => exact logs_unlessDrained fun outcome _ => logs_received outcome
  case h_3 => exact logs_unlessDrained fun cancelled _ => logs_slept cancelled
  case h_4 => exact logs_unlessDrained fun cancelled _ => logs_slept cancelled
  case h_5 => exact logs_unlessDrained fun result _ => logs_exchanged result
  case h_6 => exact .nothing rfl rfl

/-! ### Every run -/

/-- The largest of the ids, or `0`. -/
def largest (ids : List ℤ) : ℤ := ids.foldl max 0

@[simp] theorem largest_append_singleton (ids : List ℤ) (id : ℤ) :
    largest (ids ++ [id]) = max (largest ids) id := by
  rw [largest, List.foldl_append]
  rfl

theorem le_largest {ids : List ℤ} {id : ℤ} (h : id ∈ ids) : id ≤ largest ids := by
  induction ids using List.reverseRecOn with
  | nil => cases h
  | append_singleton ids last ih =>
    rw [largest_append_singleton]
    rcases List.mem_append.mp h with h | h
    · exact (ih h).trans (le_max_left _ _)
    · rw [List.mem_singleton.mp h]
      exact le_max_right _ _

@[simp] theorem actedIds_append (log log' : List IdleAction) :
    actedIds (log ++ log') = actedIds log ++ actedIds log' := List.filterMap_append

/-- The cursor is the largest id acted on, the ids acted on rise, and each poll was sent the largest
    id acted on before it. -/
structure Ordered (s : IdleLoop) : Prop where
  cursor : s.lastMessageId = largest (actedIds s.log)
  rising : (actedIds s.log).Pairwise (· < ·)
  sent : ∀ before cursor after, s.log = before ++ .polled cursor :: after →
    cursor = largest (actedIds before)

/-- An entry of a log that got one more is an old entry, or the new one. -/
theorem split_append_singleton {log before after : List IdleAction} {entry new : IdleAction}
    (h : log ++ [new] = before ++ entry :: after) :
    (∃ rest, after = rest ++ [new] ∧ log = before ++ entry :: rest) ∨
      (after = [] ∧ log = before ∧ new = entry) := by
  induction after using List.reverseRecOn with
  | nil =>
    obtain ⟨hlog, hnew⟩ := List.append_inj' h rfl
    exact .inr ⟨rfl, hlog, List.singleton_inj.mp hnew⟩
  | append_singleton rest last _ =>
    rw [← List.cons_append, ← List.append_assoc] at h
    obtain ⟨hlog, hnew⟩ := List.append_inj' h rfl
    exact .inl ⟨rest, by rw [List.singleton_inj.mp hnew], hlog⟩

theorem ordered_start (token brokerUrl : Str) : Ordered (start token brokerUrl) where
  cursor := rfl
  rising := List.Pairwise.nil
  sent before cursor after h := by cases before <;> cases h

theorem ordered_step (s : IdleLoop) (w : Wake) (h : Ordered s) : Ordered (step reader s w) := by
  cases step_log reader s w with
  | nothing hlog hcursor => exact ⟨by rw [hcursor, hlog, h.cursor], by rw [hlog]; exact h.rising,
      fun before cursor after hsplit => h.sent before cursor after (hlog ▸ hsplit)⟩
  | polled hlog hcursor =>
    have hids : actedIds (step reader s w).log = actedIds s.log := by
      rw [hlog, actedIds_append]
      exact List.append_nil _
    refine ⟨by rw [hcursor, hids, h.cursor], by rw [hids]; exact h.rising, ?_⟩
    intro before cursor after hsplit
    rw [hlog] at hsplit
    rcases split_append_singleton hsplit with ⟨rest, -, hold⟩ | ⟨-, rfl, hnew⟩
    · exact h.sent before cursor rest hold
    · rw [← IdleAction.polled.inj hnew, h.cursor]
  | acted messageId hfresh hlog hcursor =>
    have hids : actedIds (step reader s w).log = actedIds s.log ++ [messageId] := by
      rw [hlog, actedIds_append]
      rfl
    rw [h.cursor] at hfresh
    refine ⟨?_, ?_, ?_⟩
    · rw [hcursor, hids, largest_append_singleton, max_eq_right hfresh.le]
    · rw [hids, List.pairwise_append]
      refine ⟨h.rising, List.pairwise_singleton _ _, fun old hold new hnew => ?_⟩
      rw [List.mem_singleton.mp hnew]
      exact (le_largest hold).trans_lt hfresh
    · intro before cursor after hsplit
      rw [hlog] at hsplit
      rcases split_append_singleton hsplit with ⟨rest, -, hold⟩ | ⟨-, -, hnew⟩
      · exact h.sent before cursor rest hold
      · cases hnew

theorem ordered_run (token brokerUrl : Str) (ws : List Wake) :
    Ordered (run (step reader) (start token brokerUrl) ws) :=
  run_invariant_of_step ordered_step ws (ordered_start token brokerUrl)

/-! ### What becomes of a message -/

/-- The poll comes back with a message at this wake-up, whether or not a drain fired too. -/
structure Wake.Delivers (w : Wake) (msg : BrokerMessage) : Prop where
  cancelled : w.cancelled = false
  reply : w.reply = some (.message msg)

theorem step_of_delivers {msg : BrokerMessage} (hphase : s.phase = .polling)
    (h : Wake.Delivers w msg) :
    step reader s w = s.received (classifyReceivedMessage reader msg) := by
  rw [step, hphase]
  show s.unlessDrained w (pollOnce reader w.cancelled w.reply) s.received = _
  rw [h.cancelled, h.reply]
  rfl

/-- A fresh message moves the cursor and is handled. -/
theorem received_fresh {msg : BrokerMessage} (hfresh : s.lastMessageId < msg.messageId) :
    s.received (classifyReceivedMessage reader msg) =
      handle { s with lastMessageId := msg.messageId, log := s.log ++ [.acted msg.messageId] }
        (classifyReceivedMessage reader msg) := by
  have hid := messageId_classifyReceivedMessage reader msg
  have hnot : ¬ isRedelivery s.lastMessageId (classifyReceivedMessage reader msg) = true := by
    rw [isRedelivery_eq_true_iff hid]
    exact not_le.mpr hfresh
  unfold received
  rw [hid]
  exact if_neg hnot

/-- A message at or behind the cursor changes neither the cursor nor the log. -/
theorem received_seen {msg : BrokerMessage} (hseen : msg.messageId ≤ s.lastMessageId) :
    s.received (classifyReceivedMessage reader msg) = { s with phase := .redelivered } := by
  have hid := messageId_classifyReceivedMessage reader msg
  have hredelivery := (isRedelivery_eq_true_iff hid).mpr hseen
  unfold received
  rw [hid]
  exact if_pos hredelivery

/-- A message that is bad, or of no known use, is passed over. -/
def PassedOver : PollOutcome → Prop
  | .skip _ | .unknown _ | .unsupportedControl _ _ => True
  | _ => False

theorem handle_passedOver {outcome : PollOutcome} (h : PassedOver outcome) :
    (s.handle outcome).phase = .top := by
  unfold PassedOver at h
  split at h
  case h_4 => exact h.elim
  all_goals rfl

end IdleLoop

open IdleLoop

/-- However the messages, the failures and the drain fall: the ids acted on rise, every poll is sent
    the largest of them, a fresh message moves the cursor whatever it turns out to be, one that is
    bad or unknown sends the loop back to poll, and a fresh job is handed on, drained or not. -/
theorem idle_poll (reader : BodyReader) (token brokerUrl : Str) (ws : List Wake) :
    let s := run (step reader) (start token brokerUrl) ws
    (actedIds s.log).Pairwise (· < ·) ∧
      (∀ before cursor after, s.log = before ++ .polled cursor :: after →
        cursor = largest (actedIds before)) ∧
      (s.phase = .polling → ∀ w msg, Wake.Delivers w msg →
        if s.lastMessageId < msg.messageId then
          (step reader s w).lastMessageId = msg.messageId ∧
            (PassedOver (classifyReceivedMessage reader msg) → (step reader s w).phase = .top) ∧
            ∀ job, classifyReceivedMessage reader msg = .job job →
              (step reader s w).phase = .finished (.ok (some job))
        else (step reader s w).log = s.log) := by
  intro s
  have hordered : Ordered s := ordered_run token brokerUrl ws
  refine ⟨hordered.rising, hordered.sent, fun hphase w msg hw => ?_⟩
  rw [step_of_delivers hphase hw]
  split
  case isTrue hfresh =>
    rw [received_fresh hfresh]
    refine ⟨handle_lastMessageId _ _, handle_passedOver, fun job hjob => ?_⟩
    rw [hjob]
    rfl
  case isFalse hseen =>
    rw [received_seen (not_lt.mp hseen)]

/-- A job that comes after a message with a larger id is not handed on. -/
theorem late_job_dropped :
    let reader : BodyReader := ⟨false, fun _ _ => none, fun _ => none, fun _ => none⟩
    let job : BrokerMessage := ⟨3, .runnerJobRequest, [], none⟩
    let ws : List Wake := [{}, { reply := some (.message ⟨5, .unknown [], [], none⟩) }, {}]
    let s := run (step reader) (start [] []) ws
    s.phase = .polling ∧ 3 ∉ actedIds s.log ∧ classifyReceivedMessage reader job = .job job ∧
      (step reader s { reply := some (.message job) }).phase ≠ .finished (.ok (some job)) := by
  decide

end GhRunner.Listener
