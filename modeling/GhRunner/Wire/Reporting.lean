import GhRunner.Lib.Text

namespace GhRunner.Wire

open Text

/-!
# What is reported of a job

`crates/wire/src/reporting/types.rs` and `results_types.rs`: the annotations and the results of its steps, and
the updates while they run.
-/

inductive ReportAnnotationLevel
  | unknown
  | notice
  | warning
  | failure
deriving DecidableEq, Repr

structure Annotation where
  level : ReportAnnotationLevel
  message : Str
  title : Option Str
  rawDetails : Option Str
  path : Option Str
  isInfrastructureIssue : Bool
  startLine : ℤ
  endLine : ℤ
  startColumn : ℤ
  endColumn : ℤ
  /-- `0` for an issue of the job as a whole. -/
  stepNumber : ℤ
deriving DecidableEq, Repr

inductive StepState
  | completed
deriving DecidableEq, Repr

inductive JobConclusion
  | succeeded
  | failed
  | canceled
  | skipped
deriving DecidableEq, Repr

structure StepResult where
  externalId : Str
  number : ℕ
  name : Str
  actionName : Option Str
  gitRef : Option Str
  kind : Option Str
  status : StepState
  conclusion : JobConclusion
  startedAt : Option Str
  completedAt : Option Str
  completedLogUrl : Option Str
  completedLogLines : Option ℕ
  annotations : List Annotation
deriving DecidableEq, Repr

inductive Status
  | unknown
  | inProgress
  | pending
  | completed
deriving DecidableEq, Repr

inductive ReportConclusion
  | unknown
  | success
  | failure
  | cancelled
  | skipped
deriving DecidableEq, Repr

structure StepUpdateEntry where
  externalId : Str
  number : ℕ
  name : Str
  status : Status
  conclusion : Option ReportConclusion
  startedAt : Option Str
  completedAt : Option Str
deriving DecidableEq, Repr

structure WorkflowStepsUpdateRequest where
  steps : List StepUpdateEntry
  changeOrder : ℕ
  workflowJobRunBackendId : Str
  workflowRunBackendId : Str
deriving DecidableEq, Repr

end GhRunner.Wire
