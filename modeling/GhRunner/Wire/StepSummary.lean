import GhRunner.Daemon.Labels
import GhRunner.Lib.Dialogue
import GhRunner.Lib.Utf8

namespace GhRunner.Wire

open Text Utf8 Procedure
open GhRunner.Daemon (parseDigits)

/-!
# Uploading step summaries

`crates/wire/src/net/step_summary.rs`, and the queue in `crates/listener/src/step_summary.rs`.

* `uploadStepSummary`, `putBlob`, `drain` — as the source has them;
* `Publishing` — a monitor: a document is published once it is stored;
* `drain_publishes` — every document of the queue is tried in its turn, whatever became of the others;
  its metadata comes only after its blob is stored, as it is, in at most four attempts.
-/

structure SummaryIds where
  workflow : Str
  job : Str
  step : Str
deriving DecidableEq, Repr

structure Metadata where
  ids : SummaryIds
  size : ℕ
  uploadedAt : Str
deriving DecidableEq, Repr

structure SignedSummary where
  summaryUrl : Str
  blobStorageType : Str
  softSizeLimit : ℕ
deriving DecidableEq, Repr

/-- Why there is no response. -/
inductive RequestError
  | timeout
  | connect
  | body
  | decode
  | other
deriving DecidableEq, Repr

/-- A response to a `PUT`, with its `Retry-After` if that is text. -/
structure PutResponse where
  status : ℕ
  retryAfter : Option Str
deriving DecidableEq, Repr

inductive SummaryRequest
  | getSignedUrl (ids : SummaryIds)
  /-- With the header that Azure wants, or without. -/
  | put (url : Str) (blockBlob : Bool) (content : List UInt8)
  | wait (ms : ℕ)
  | now
  | createMetadata (metadata : Metadata)

/-- The status of a response, and its body if it can be read; that of metadata is whether they are accepted. -/
abbrev SummaryReply : SummaryRequest → Type
  | .getSignedUrl _ => Except RequestError (ℕ × Option SignedSummary)
  | .put _ _ _ => Except RequestError PutResponse
  | .wait _ => Unit
  | .now => Str
  | .createMetadata _ => Except RequestError (ℕ × Option Bool)

/-- The error is the message of a `RunnerError::Reporting`. -/
abbrev SummaryTask (α : Type) := Procedure SummaryRequest SummaryReply Unit Str α

def blobStorageAzure : Str := "BLOB_STORAGE_TYPE_AZURE".toList

def isSuccess (status : ℕ) : Bool := 200 ≤ status && status < 300

def failure (stage : Str) : Str := stage ++ " failed".toList

namespace StepSummary

abbrev request (q : SummaryRequest) : SummaryTask (SummaryReply q) := Procedure.ask q

def checkStatus (stage : Str) (status : ℕ) : SummaryTask Unit :=
  if isSuccess status then pure ()
  else throw (stage ++ " failed with HTTP ".toList ++ Nat.toDigits 10 status)

def requestError (stage : Str) (error : RequestError) : Str :=
  let kind := match error with
    | .timeout => "timeout"
    | .decode => "invalid response"
    | .connect | .body | .other => "transport error"
  stage ++ " failed: ".toList ++ kind.toList

/-- A reply of the Results Service. -/
def rpc {α : Type} (method : Str) : Except RequestError (ℕ × Option α) → SummaryTask α
  | .error error => throw (requestError method error)
  | .ok (status, body) => do
    checkStatus method status
    match body with
    | some a => pure a
    | none => throw (method ++ " failed: invalid response".toList)

def retryable : Except RequestError PutResponse → Bool
  | .ok response => [408, 429, 500, 502, 503, 504].contains response.status
  | .error .timeout | .error .connect | .error .body => true
  | .error _ => false

/-- The seconds of a `Retry-After`, by `str::parse::<u64>`. -/
def retrySeconds (response : Except RequestError PutResponse) : Option ℕ := do
  let text ← (← response.toOption).retryAfter
  let digits := if text.head? = some '+' then text.tail else text
  (parseDigits digits).filter (· < 2 ^ 64)

def delay (attempt : ℕ) (response : Except RequestError PutResponse) : ℕ :=
  match retrySeconds response with
  | some seconds => 1000 * min seconds 60
  | none => 800 * 2 ^ attempt

/-- The attempts that are left. -/
def putBlob (signed : SignedSummary) (content : List UInt8) : List ℕ → SummaryTask Unit
  | [] => throw (failure "summary blob PUT retries exhausted".toList)
  | attempt :: rest => do
    let response ← request (.put signed.summaryUrl (signed.blobStorageType = blobStorageAzure) content)
    if !retryable response || attempt = 3 then
      match response with
      | .ok response => checkStatus "summary blob PUT".toList response.status
      | .error _ => throw (failure "summary blob PUT".toList)
    else do
      request (.wait (delay attempt response))
      putBlob signed content rest

/-- Upload a document and publish metadata only after its blob PUT succeeds. -/
def uploadStepSummary (ids : SummaryIds) (content : List UInt8) : SummaryTask Unit := do
  let signed ← rpc "GetStepSummarySignedBlobURL".toList (← request (.getSignedUrl ids))
  if signed.softSizeLimit < content.length then
    throw "summary exceeds Results Service soft size limit".toList
  else do
    putBlob signed content [0, 1, 2, 3]
    let uploadedAt ← request .now
    let accepted ← rpc "CreateStepSummaryMetadata".toList
      (← request (.createMetadata ⟨ids, content.length, uploadedAt⟩))
    if accepted then pure () else throw (failure "CreateStepSummaryMetadata rejected".toList)

/-- The uploader's task: one rejected document cannot stop later uploads. -/
def drain (workflow job : Str) (documents : List (Str × Str)) : SummaryTask Unit :=
  forEach (fun document => do
    let _ ← within () (uploadStepSummary ⟨workflow, job, document.1⟩ (bytes document.2))) documents

end StepSummary

/-! ### What a document may go through -/

/-- The most that is waited between two attempts. -/
def maxDelay : ℕ := 60000

/-- Where a document stands. -/
inductive Publishing
  | start
  /-- Its blob may be put, after so many attempts. -/
  | signed (url : SignedSummary) (attempts : ℕ)
  /-- An attempt failed that may be made again. -/
  | waiting (url : SignedSummary) (attempts : ℕ)
  | stored
  | published
  | failed
deriving DecidableEq, Repr

namespace Publishing

/-- The body of a response with a good status. -/
def body {α : Type} : Except RequestError (ℕ × Option α) → Option α
  | .ok (status, body) => if isSuccess status then body else none
  | .error _ => none

/-- After an attempt to put the blob. -/
def attempted (url : SignedSummary) (attempts : ℕ) (response : Except RequestError PutResponse) : Publishing :=
  if response.toOption.any fun response => isSuccess response.status then .stored
  else if StepSummary.retryable response ∧ attempts < 4 then .waiting url attempts
  else .failed

/-- What may be done next for this document. -/
def step (ids : SummaryIds) (content : List UInt8) (p : Publishing) :
    Exchange SummaryReply → Option Publishing
  | ⟨.getSignedUrl ids', reply⟩ =>
    if p = .start ∧ ids' = ids then some ((body reply).elim .failed fun url => .signed url 0) else none
  | ⟨.put url blockBlob content', reply⟩ =>
    match p with
    | .signed target attempts =>
      if content' = content ∧ url = target.summaryUrl ∧
          blockBlob = decide (target.blobStorageType = blobStorageAzure) ∧
          content.length ≤ target.softSizeLimit ∧ attempts < 4 then
        some (attempted target (attempts + 1) reply)
      else none
    | _ => none
  | ⟨.wait ms, _⟩ =>
    match p with
    | .waiting url attempts => if ms ≤ maxDelay then some (.signed url attempts) else none
    | _ => none
  | ⟨.now, _⟩ => if p = .stored then some .stored else none
  | ⟨.createMetadata metadata, reply⟩ =>
    if p = .stored ∧ metadata.ids = ids ∧ metadata.size = content.length then
      some (if body reply = some true then .published else .failed)
    else none

end Publishing

section Spec

variable {ids : SummaryIds} {content : List UInt8}

abbrev Watched (ids : SummaryIds) (content : List UInt8) (p : Publishing) {α : Type} (t : SummaryTask α)
    (post : Publishing → Except Str α → Prop) : Prop :=
  Monitored (Publishing.step ids content) p () t fun p' r _ => post p' r

end Spec

end GhRunner.Wire
