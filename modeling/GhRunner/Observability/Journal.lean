import GhRunner.Execution.CommandDispatch
import GhRunner.Execution.JobSteps

namespace GhRunner.Observability

open Text Utf8
open GhRunner.Execution (AnnotationLevel Conclusion LogStream)

/-!
# The events of the journal

`crates/observability/src/journal/types.rs`, and the events of `crates/shared/src/events.rs` that it
mirrors.

* `ListenerEvent`, `RunnerEvent` — what is sent;
* `JournalEvent`, `JournalLine` — what is written of it, with its number in the file and its time;
* `JournalEvent.from` — the one as the other: of a summary only the size, of a failure of the
  infrastructure an annotation.
-/

/-- Events emitted during job execution. -/
inductive RunnerEvent
  | stepSummary (stepId content : Str)
  | jobStarted (jobId jobName : Str)
  | stepStarted (stepId stepName : Str) (stepNumber : ℕ)
  | stepCompleted (stepId : Str) (conclusion : Conclusion) (outputs : List (Str × Str))
  | stepSkipped (stepId reason : Str)
  | log (stepId line : Str) (stream : LogStream)
  | logGroup (stepId title : Str) (isOpen : Bool)
  | annotation (stepId : Str) (level : AnnotationLevel) (message : Str) (file : Option Str)
      (line : Option ℤ)
  | jobCompleted (jobId : Str) (conclusion : Conclusion) (outputs : List (Str × Str))
  | stepMetadata (stepId kind : Str) (action gitRef : Option Str)
  | infrastructureError (stepId category message : Str)

inductive ListenerEvent
  | runner (event : RunnerEvent)
  | sessionCreated (sessionId : Str)
  | jobAcquired (jobId runServiceUrl : Str)
  | lockRenewed (lockedUntil : Str)
  | reportedStatus (stepId status : Str)

/-- The on-disk mirror of `ListenerEvent`. -/
inductive JournalEvent
  | stepSummary (stepId : Str) (size : ℕ)
  | sessionCreated (sessionId : Str)
  | jobAcquired (jobId runServiceUrl : Str)
  | jobStarted (jobId jobName : Str)
  | stepStarted (stepId stepName : Str) (stepNumber : ℕ)
  | log (stepId line stream : Str)
  | logGroup (stepId title : Str) (isOpen : Bool)
  | annotation (stepId level message : Str) (file : Option Str) (line : Option ℤ)
  | stepCompleted (stepId conclusion : Str) (outputs : List (Str × Str))
  | stepMetadata (stepId kind : Str) (action gitRef : Option Str)
  | stepSkipped (stepId reason : Str)
  | jobCompleted (jobId conclusion : Str) (outputs : List (Str × Str))
  | lockRenewed (lockedUntil : Str)
  | reportedStatus (stepId status : Str)
deriving DecidableEq

def journalVersion : ℕ := 1

/-- One journal line: version/sequence/timestamp envelope and event. -/
structure JournalLine where
  v : ℕ
  seq : ℕ
  ts : Str
  event : JournalEvent
deriving DecidableEq

/-! ### One as the other -/

def streamStr : LogStream → Str
  | .stdout => "stdout".toList
  | .stderr => "stderr".toList

def levelStr : AnnotationLevel → Str
  | .notice => "notice".toList
  | .warning => "warning".toList
  | .error => "error".toList

/-- `Conclusion::to_report_string`. -/
def conclusionStr : Conclusion → Str
  | .success => "success".toList
  | .failure => "failure".toList
  | .cancelled => "cancelled".toList
  | .skipped => "skipped".toList

def JournalEvent.fromRunner : RunnerEvent → JournalEvent
  | .stepSummary stepId content => .stepSummary stepId (utf8Len content)
  | .jobStarted jobId jobName => .jobStarted jobId jobName
  | .stepStarted stepId stepName stepNumber => .stepStarted stepId stepName stepNumber
  | .stepCompleted stepId conclusion outputs => .stepCompleted stepId (conclusionStr conclusion) outputs
  | .stepSkipped stepId reason => .stepSkipped stepId reason
  | .log stepId line stream => .log stepId line (streamStr stream)
  | .logGroup stepId title isOpen => .logGroup stepId title isOpen
  | RunnerEvent.annotation stepId level message file line =>
    JournalEvent.annotation stepId (levelStr level) message file line
  | .jobCompleted jobId conclusion outputs => .jobCompleted jobId (conclusionStr conclusion) outputs
  | .stepMetadata stepId kind action gitRef => .stepMetadata stepId kind action gitRef
  | .infrastructureError stepId _ message => JournalEvent.annotation stepId (levelStr .error) message none none

def JournalEvent.from : ListenerEvent → JournalEvent
  | .runner event => .fromRunner event
  | .sessionCreated sessionId => .sessionCreated sessionId
  | .jobAcquired jobId runServiceUrl => .jobAcquired jobId runServiceUrl
  | .lockRenewed lockedUntil => .lockRenewed lockedUntil
  | .reportedStatus stepId status => .reportedStatus stepId status

end GhRunner.Observability
