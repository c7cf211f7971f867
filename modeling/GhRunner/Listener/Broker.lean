import GhRunner.Lib.Text
import Mathlib.Algebra.Order.Ring.Int

namespace GhRunner.Listener

open Text

/-!
# Broker messages

What one reply of the long poll is taken for (`crates/listener/src/broker_message.rs`,
`message_route.rs`, `job_lifecycle.rs`; `crates/protocol/src/messages.rs`).

* `MessageType`, `BrokerMessage` — what arrives;
* `route` — what a type asks for;
* `BodyReader` — how bodies are decrypted and parsed, of which nothing is assumed;
* `PollOutcome`, `classifyReceivedMessage`, `pollOnce` — what a poll comes back with;
* `isRedelivery` — whether its message is one at or behind the cursor;
* `messageId_classifyReceivedMessage` — every message keeps its id, whatever it turns out to be.
-/

inductive RunnerError
  | auth (message : Str)
  | sessionConflict (message : Str)
  | cancelled
  | other (message : Str)
deriving DecidableEq, Repr

inductive MessageType
  | runnerJobRequest
  | brokerMigration
  | jobCancellation
  | forceTokenRefresh
  | runnerRefresh
  | agentRefresh
  | runnerRefreshConfig
  | hostedRunnerShutdown
  /-- A type of the future, by its name on the wire. -/
  | unknown (wire : Str)
deriving DecidableEq, Repr

structure BrokerMessage where
  messageId : ℤ
  messageType : MessageType
  body : Str
  iv : Option Str := none
deriving DecidableEq, Repr

/-- What the poll loop does with a received message. -/
inductive MessageRoute
  | acquireJob
  | migrate
  | cancel
  | refreshToken
  | unsupportedControl
  | shutdown
  | skipUnknown
deriving DecidableEq, Repr

def route : MessageType → MessageRoute
  | .runnerJobRequest => .acquireJob
  | .brokerMigration => .migrate
  | .jobCancellation => .cancel
  | .forceTokenRefresh => .refreshToken
  | .runnerRefresh | .agentRefresh | .runnerRefreshConfig => .unsupportedControl
  | .hostedRunnerShutdown => .shutdown
  | .unknown _ => .skipUnknown

/-- The session's way with bodies. -/
structure BodyReader where
  /-- The session negotiated encryption. -/
  encrypted : Bool
  /-- The plain text of a body under an initialization vector. -/
  decryptBrokerBody : Str → Str → Option Str
  /-- The `brokerBaseUrl` of a migration's body. -/
  parseMigration : Str → Option Str
  /-- The `jobId` of a cancellation's body. -/
  parseCancel : Str → Option Str

/-! ### Outcomes of a poll -/

inductive PollOutcome
  | noWork
  | migrated (url : Str) (messageId : ℤ)
  | job (msg : BrokerMessage)
  | cancel (msg : BrokerMessage) (jobId : Str)
  | refreshToken (messageId : ℤ)
  | unsupportedControl (messageId : ℤ) (kind : Str)
  | shutdown (messageId : ℤ)
  | unknown (messageId : ℤ)
  /-- The body could not be decrypted or parsed. -/
  | skip (messageId : ℤ)
  | networkError (e : RunnerError)
  /-- The session's token was tripped during the poll. -/
  | cancelled
deriving DecidableEq, Repr

/-- The id of the message, when there was one. -/
def PollOutcome.messageId : PollOutcome → Option ℤ
  | .migrated _ messageId | .skip messageId | .refreshToken messageId
  | .unsupportedControl messageId _ | .shutdown messageId | .unknown messageId => some messageId
  | .job msg | .cancel msg _ => some msg.messageId
  | .noWork | .networkError _ | .cancelled => none

section Classify

variable (reader : BodyReader)

def decryptBodyIfNeeded (msg : BrokerMessage) : Option BrokerMessage :=
  if reader.encrypted then
    match msg.iv with
    | none => none
    | some iv => (reader.decryptBrokerBody msg.body iv).map fun body => { msg with body }
  else some msg

def unsupportedKind : MessageType → Str
  | .runnerRefresh => "RunnerRefresh".toList
  | .agentRefresh => "AgentRefresh".toList
  | .runnerRefreshConfig => "RunnerRefreshConfig".toList
  | _ => "known control".toList

def classifyMessage (msg : BrokerMessage) : PollOutcome :=
  match route msg.messageType with
  | .migrate =>
    match reader.parseMigration msg.body with
    | some url => .migrated url msg.messageId
    | none => .skip msg.messageId
  | .acquireJob => .job msg
  | .refreshToken => .refreshToken msg.messageId
  | .unsupportedControl => .unsupportedControl msg.messageId (unsupportedKind msg.messageType)
  | .shutdown => .shutdown msg.messageId
  | .skipUnknown => .unknown msg.messageId
  | .cancel =>
    match reader.parseCancel msg.body with
    | some jobId => .cancel msg jobId
    | none => .skip msg.messageId

/-- Control types without a body contract bypass decryption entirely. -/
def classifyReceivedMessage (msg : BrokerMessage) : PollOutcome :=
  if route msg.messageType ∈ [.acquireJob, .migrate, .cancel] then
    match decryptBodyIfNeeded reader msg with
    | none => .skip msg.messageId
    | some msg => classifyMessage reader msg
  else classifyMessage reader msg

/-- What the broker answers a poll with. -/
inductive PollReply
  | noContent
  | message (msg : BrokerMessage)
  | failed (e : RunnerError)
deriving DecidableEq, Repr

/-- The poll at one wake-up, if it is over: the session's token is looked at first. -/
def pollOnce (cancelled : Bool) (reply : Option PollReply) : Option PollOutcome :=
  if cancelled then some .cancelled
  else
    match reply with
    | none => none
    | some .noContent => some .noWork
    | some (.message msg) => some (classifyReceivedMessage reader msg)
    | some (.failed e) => some (.networkError e)

end Classify

/-- A reply at or behind the cursor must not trigger a second action. -/
def isRedelivery (lastMessageId : ℤ) (outcome : PollOutcome) : Bool :=
  outcome.messageId.any fun messageId => messageId ≤ lastMessageId

/-! ### The id of a message -/

variable {reader : BodyReader}

@[simp] theorem messageId_classifyMessage (msg : BrokerMessage) :
    (classifyMessage reader msg).messageId = some msg.messageId := by
  unfold classifyMessage
  split
  case h_1 => split <;> rfl
  case h_7 => split <;> rfl
  all_goals rfl

theorem messageId_decryptBodyIfNeeded {msg plain : BrokerMessage}
    (h : decryptBodyIfNeeded reader msg = some plain) : plain.messageId = msg.messageId := by
  unfold decryptBodyIfNeeded at h
  split at h
  case isTrue =>
    split at h
    · cases h
    · obtain ⟨body, -, rfl⟩ := Option.map_eq_some_iff.mp h
      rfl
  case isFalse =>
    obtain rfl := Option.some.inj h
    rfl

variable (reader) in
/-- Whatever a message is taken for, its id is known. -/
@[simp] theorem messageId_classifyReceivedMessage (msg : BrokerMessage) :
    (classifyReceivedMessage reader msg).messageId = some msg.messageId := by
  unfold classifyReceivedMessage
  split
  case isFalse => exact messageId_classifyMessage msg
  case isTrue =>
    split
    case h_1 => rfl
    case h_2 plain hplain =>
      rw [messageId_classifyMessage, messageId_decryptBodyIfNeeded hplain]

theorem isRedelivery_eq_true_iff {cursor : ℤ} {outcome : PollOutcome} {id : ℤ}
    (h : outcome.messageId = some id) : isRedelivery cursor outcome = true ↔ id ≤ cursor := by
  rw [isRedelivery, h]
  exact decide_eq_true_iff

end GhRunner.Listener
