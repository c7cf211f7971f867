import GhRunner.Execution.CommandDispatch
import GhRunner.Lib.History
import GhRunner.Listener.Forwarder
import GhRunner.Wire.Reporting

namespace GhRunner.Listener.StepReporter

open Text Machine History

/-!
# The step collector

What `complete_job` says of the steps: `crates/listener/src/step_reporter.rs`.

* `CollectorState`, `record`, `setLogUrl` — the maps of what is pending, and the results;
* `completions`, `resultFor`, `categories` — what the reports say of the steps, by what was reported before
  and after their completion;
* `Collects`, `collects_concat` — the collector after any reports;
* `collected_as_reported` — its results are what the reports say.
-/

/-! ### The collector -/

/-- The events, with what the collector reads of them. -/
inductive RunnerEvent
  | stepStarted (stepId stepName : Str) (stepNumber : ℕ)
  | stepCompleted (stepId : Str) (conclusion : Conclusion)
  | annotation (stepId : Str) (level : Execution.AnnotationLevel) (fields : Execution.AnnotationFields)
  | stepMetadata (stepId kind : Str) (action gitRef : Option Str)
  | infrastructureError (stepId category message : Str)
  | stepSummary
  | jobStarted
  | stepSkipped
  | log
  | logGroup
  | jobCompleted
deriving DecidableEq, Repr

structure CollectedMeta where
  number : ℕ
  name : Str
  startedAt : Str
deriving DecidableEq, Repr

/-- The kind, the action's name and its ref. -/
abbrev ActionIdentity := Str × Option Str × Option Str

structure CollectorState where
  metas : Str → Option CollectedMeta
  pendingAnnotations : Str → Option (List Wire.Annotation)
  identities : Str → Option ActionIdentity
  infrastructure : Str → Option Str
  /-- Of the first step that ended failed with one. -/
  category : Option Str
  results : List Wire.StepResult

/-- `JobConclusion::from`. -/
def jobConclusion : Conclusion → Wire.JobConclusion
  | .success => .succeeded
  | .failure => .failed
  | .cancelled => .canceled
  | .skipped => .skipped

def reportLevel : Execution.AnnotationLevel → Wire.ReportAnnotationLevel
  | .notice => .notice
  | .warning => .warning
  | .error => .failure

def toReportAnnotation (event : RunnerEvent) (number : Option ℕ) : Option Wire.Annotation :=
  let stepNumber : ℤ := (number.getD 0 : ℕ)
  match event with
  | .infrastructureError _ _ message => some
      { level := .failure
        message := message
        title := none
        rawDetails := none
        path := none
        isInfrastructureIssue := true
        startLine := 0
        endLine := 0
        startColumn := 0
        endColumn := 0
        stepNumber := stepNumber }
  | RunnerEvent.annotation _ level fields => some
      { level := reportLevel level
        message := fields.message
        title := fields.title
        rawDetails := none
        path := fields.file
        isInfrastructureIssue := false
        startLine := fields.line.getD 0
        endLine := fields.endLine.getD 0
        startColumn := fields.col.getD 0
        endColumn := fields.endColumn.getD 0
        stepNumber := stepNumber }
  | _ => none

/-- Change the first result of a step. -/
def alterResult (stepId : Str) (change : Wire.StepResult → Wire.StepResult) :
    List Wire.StepResult → List Wire.StepResult
  | [] => []
  | result :: rest =>
    if result.externalId = stepId then change result :: rest
    else result :: alterResult stepId change rest

namespace CollectorState

def new : CollectorState where
  metas _ := none
  pendingAnnotations _ := none
  identities _ := none
  infrastructure _ := none
  category := none
  results := []

def resultOf (s : CollectorState) (stepId : Str) : Option Wire.StepResult :=
  s.results.find? fun result => result.externalId = stepId

def recordCompletion (s : CollectorState) (now stepId : Str) (conclusion : Conclusion) :
    CollectorState :=
  let started := s.metas stepId
  let identity := s.identities stepId
  { metas := Function.update s.metas stepId none
    pendingAnnotations := Function.update s.pendingAnnotations stepId none
    identities := Function.update s.identities stepId none
    infrastructure := Function.update s.infrastructure stepId none
    category :=
      if conclusion = .failure ∧ s.category.isNone then s.infrastructure stepId else s.category
    results := s.results ++
      [{ externalId := stepId
         number := (started.map (·.number)).getD 0
         name := (started.map (·.name)).getD []
         actionName := identity.bind (·.2.1)
         gitRef := identity.bind (·.2.2)
         kind := identity.map (·.1)
         status := .completed
         conclusion := jobConclusion conclusion
         startedAt := started.map (·.startedAt)
         completedAt := some now
         completedLogUrl := none
         completedLogLines := none
         annotations := (s.pendingAnnotations stepId).getD [] }] }

/-- The number is that of the step as it was started, else that in its result. -/
def numberOf (s : CollectorState) (stepId : Str) : Option ℕ :=
  ((s.metas stepId).map (·.number)).orElse fun _ => (s.resultOf stepId).map (·.number)

/-- To the result, if there is one, else kept for it. -/
def recordAnnotation (s : CollectorState) (stepId : Str) (event : RunnerEvent) : CollectorState :=
  match toReportAnnotation event (s.numberOf stepId) with
  | none => s
  | some issue =>
    if (s.resultOf stepId).isSome then
      { s with
        results := alterResult stepId
          (fun result => { result with annotations := result.annotations ++ [issue] }) s.results }
    else
      { s with
        pendingAnnotations := Function.update s.pendingAnnotations stepId
          (some ((s.pendingAnnotations stepId).getD [] ++ [issue])) }

def record (s : CollectorState) (now : Str) (event : RunnerEvent) : CollectorState :=
  match event with
  | .stepStarted stepId stepName stepNumber =>
    { s with metas := Function.update s.metas stepId (some ⟨stepNumber, stepName, now⟩) }
  | .stepCompleted stepId conclusion => s.recordCompletion now stepId conclusion
  | RunnerEvent.annotation stepId _ _ => s.recordAnnotation stepId event
  | .stepMetadata stepId kind action gitRef =>
    { s with identities := Function.update s.identities stepId (some (kind, action, gitRef)) }
  | .infrastructureError stepId category _ =>
    recordAnnotation
      { s with infrastructure := Function.update s.infrastructure stepId (some category) } stepId event
  | .stepSummary | .jobStarted | .stepSkipped | .log | .logGroup | .jobCompleted => s

def setLogUrl (s : CollectorState) (stepId url : Str) (lineCount : ℕ) : CollectorState :=
  { s with
    results := alterResult stepId
      (fun result =>
        { result with completedLogUrl := some url, completedLogLines := some lineCount }) s.results }

end CollectorState

/-- What the collector is told. -/
inductive Report
  | event (now : Str) (event : RunnerEvent)
  | logUrl (stepId url : Str) (lineCount : ℕ)
deriving DecidableEq, Repr

def CollectorState.step (s : CollectorState) : Report → CollectorState
  | .event now event => s.record now event
  | .logUrl stepId url lineCount => s.setLogUrl stepId url lineCount

/-- The collector after these reports. -/
def collected (reports : List Report) : CollectorState := run CollectorState.step .new reports

/-! ### What the reports say -/

def startIn (stepId : Str) : Report → Option CollectedMeta
  | .event now (.stepStarted id name number) => if id = stepId then some ⟨number, name, now⟩ else none
  | _ => none

def identityIn (stepId : Str) : Report → Option ActionIdentity
  | .event _ (.stepMetadata id kind action gitRef) =>
    if id = stepId then some (kind, action, gitRef) else none
  | _ => none

def categoryIn (stepId : Str) : Report → Option Str
  | .event _ (.infrastructureError id category _) => if id = stepId then some category else none
  | _ => none

/-- The last that was reported of a step. -/
def lastOf {α : Type} (read : Report → Option α) (past : List Report) : Option α :=
  (past.filterMap read).getLast?

def startOf (stepId : Str) (past : List Report) : Option CollectedMeta := lastOf (startIn stepId) past

def startedId : Report → Option Str
  | .event _ (.stepStarted id _ _) => some id
  | _ => none

def completedId : Report → Option Str
  | .event _ (.stepCompleted id _) => some id
  | _ => none

def startedIds (reports : List Report) : List Str := reports.filterMap startedId

def completedIds (reports : List Report) : List Str := reports.filterMap completedId

/-- The step that an annotation or an infrastructure error is about. -/
def annotated : Report → Option Str
  | .event _ ( RunnerEvent.annotation id _ _) => some id
  | .event _ (.infrastructureError id _ _) => some id
  | _ => none

/-- What a report adds to the annotations of a step: with the number that it was started with before. -/
def annotationIn (stepId : Str) (past : List Report) : Report → List Wire.Annotation
  | .event now event =>
    if annotated (.event now event) = some stepId then
      ( toReportAnnotation event ((startOf stepId past).map (·.number))).toList
    else []
  | .logUrl .. => []

/-- The log of a step that was completed before. -/
def logIn (stepId : Str) (past : List Report) : Report → List (Str × ℕ)
  | .logUrl id url lineCount =>
    if id = stepId ∧ stepId ∈ completedIds past then [(url, lineCount)] else []
  | .event .. => []

structure Completion where
  /-- The reports before it. -/
  past : List Report
  stepId : Str
  conclusion : Conclusion
  now : Str

def completionIn (past : List Report) : Report → List Completion
  | .event now (.stepCompleted id conclusion) => [⟨past, id, conclusion, now⟩]
  | _ => []

def completions (reports : List Report) : List Completion := emits completionIn reports

def categoryAt (past : List Report) : Report → List Str
  | .event _ (.stepCompleted id .failure) => (lastOf (categoryIn id) past).toList
  | _ => []

/-- The categories pending where a step completed as a failure. -/
def categories (reports : List Report) : List Str := emits categoryAt reports

def annotationsOf (stepId : Str) (reports : List Report) : List Wire.Annotation :=
  emits (annotationIn stepId) reports

def logOf (stepId : Str) (reports : List Report) : Option (Str × ℕ) :=
  (emits (logIn stepId) reports).getLast?

/-- The result of a step that was completed. -/
def resultFor (reports : List Report) (c : Completion) : Wire.StepResult where
  externalId := c.stepId
  number := ((startOf c.stepId c.past).map (·.number)).getD 0
  name := ((startOf c.stepId c.past).map (·.name)).getD []
  actionName := (lastOf (identityIn c.stepId) c.past).bind (·.2.1)
  gitRef := (lastOf (identityIn c.stepId) c.past).bind (·.2.2)
  kind := (lastOf (identityIn c.stepId) c.past).map (·.1)
  status := .completed
  conclusion := jobConclusion c.conclusion
  startedAt := (startOf c.stepId c.past).map (·.startedAt)
  completedAt := some c.now
  completedLogUrl := (logOf c.stepId reports).map (·.1)
  completedLogLines := (logOf c.stepId reports).map (·.2)
  annotations := annotationsOf c.stepId reports

/-! ### One report more -/

theorem filterMap_concat {α β : Type} (read : α → Option β) (past : List α) (r : α) :
    (past ++ [r]).filterMap read = past.filterMap read ++ (read r).toList := by
  rw [List.filterMap_append]
  cases h : read r <;> simp [h]

theorem lastOf_concat {α : Type} (read : Report → Option α) (past : List Report) (r : Report) :
    lastOf read (past ++ [r]) = (read r).or (lastOf read past) := by
  rw [lastOf, lastOf, filterMap_concat]
  cases read r <;> simp

theorem lastOf_append {α : Type} (read : Report → Option α) (past rest : List Report) :
    lastOf read (past ++ rest) = (lastOf read rest).or (lastOf read past) := by
  rw [lastOf, List.filterMap_append, List.getLast?_append]
  rfl

theorem startedIds_concat (past : List Report) (r : Report) :
    startedIds (past ++ [r]) = startedIds past ++ (startedId r).toList := filterMap_concat _ past r

theorem completedIds_concat (past : List Report) (r : Report) :
    completedIds (past ++ [r]) = completedIds past ++ (completedId r).toList := filterMap_concat _ past r

theorem completions_concat (past : List Report) (r : Report) :
    completions (past ++ [r]) = completions past ++ completionIn past r := emits_concat _ past r

theorem annotationsOf_concat (stepId : Str) (past : List Report) (r : Report) :
    annotationsOf stepId (past ++ [r]) = annotationsOf stepId past ++ annotationIn stepId past r :=
  emits_concat _ past r

theorem logOf_concat (stepId : Str) (past : List Report) (r : Report) :
    logOf stepId (past ++ [r]) = ((logIn stepId past r).getLast?).or (logOf stepId past) := by
  rw [logOf, logOf, emits_concat, List.getLast?_append]

theorem map_completions (reports : List Report) :
    (completions reports).map (·.stepId) = completedIds reports := by
  induction reports using List.reverseRecOn with
  | nil => rfl
  | append_singleton past r ih =>
    rw [completions_concat, completedIds_concat, List.map_append, ih]
    congr 1
    cases r with
    | logUrl => rfl
    | event now event => cases event <;> rfl

theorem mem_completedIds {reports : List Report} {stepId : Str} :
    stepId ∈ completedIds reports ↔ ∃ c ∈ completions reports, c.stepId = stepId := by
  rw [← map_completions, List.mem_map]

theorem startOf_eq_none_of {stepId : Str} {past : List Report} (h : stepId ∉ startedIds past) :
    startOf stepId past = none := by
  rw [startOf, lastOf, List.getLast?_eq_none_iff, List.filterMap_eq_nil_iff]
  intro r hr
  by_contra hsome
  apply h
  rw [startedIds, List.mem_filterMap]
  refine ⟨r, hr, ?_⟩
  cases r with
  | logUrl => exact absurd rfl hsome
  | event now event =>
    cases event with
    | stepStarted id name number =>
      rw [startIn] at hsome
      split at hsome
      case isTrue heq => exact congrArg some heq
      case isFalse => exact absurd rfl hsome
    | _ => exact absurd rfl hsome

/-- The start that was found before is the only one of its step. -/
theorem startOf_append {id : Str} {past rest : List Report} {m : CollectedMeta}
    (honce : (startedIds (past ++ rest)).Nodup) (h : startOf id past = some m) :
    startOf id (past ++ rest) = some m := by
  have hpast : id ∈ startedIds past := by
    by_contra habsent
    rw [startOf_eq_none_of habsent] at h
    cases h
  have hrest : id ∉ startedIds rest := by
    rw [startedIds, List.filterMap_append] at honce
    exact fun hmem => (List.nodup_append.mp honce).2.2 id hpast id hmem rfl
  have hnone : lastOf (startIn id) rest = none := startOf_eq_none_of hrest
  rw [startOf, lastOf_append, hnone]
  exact h

/-- A backfill that comes before the completion finds no result. -/
theorem logOf_eq_none_of {stepId : Str} {reports : List Report} (h : stepId ∉ completedIds reports) :
    logOf stepId reports = none := by
  rw [logOf, List.getLast?_eq_none_iff, List.eq_nil_iff_forall_not_mem]
  intro log hlog
  obtain ⟨past, r, rest, rfl, hin⟩ := mem_emits.mp hlog
  cases r with
  | event => cases hin
  | logUrl id url lineCount =>
    rw [logIn] at hin
    split at hin
    case isFalse => cases hin
    case isTrue hthere =>
      apply h
      rw [completedIds, List.filterMap_append, List.mem_append]
      exact .inl hthere.2

/-- What is neither about the step nor a log leaves its result as it was. -/
theorem resultFor_concat_of_quiet {past : List Report} {r : Report} {c : Completion}
    (hissue : annotationIn c.stepId past r = []) (hlog : logIn c.stepId past r = []) :
    resultFor (past ++ [r]) c = resultFor past c := by
  simp [resultFor, annotationsOf_concat, logOf_concat, hissue, hlog]

theorem alterResult_map {stepId : Str} {change : Wire.StepResult → Wire.StepResult}
    {cs : List Completion} {result : Completion → Wire.StepResult} (honce : (cs.map (·.stepId)).Nodup)
    (hid : ∀ c, (result c).externalId = c.stepId) :
    alterResult stepId change (cs.map result) =
      cs.map fun c => if c.stepId = stepId then change (result c) else result c := by
  induction cs with
  | nil => rfl
  | cons c cs ih =>
    rw [List.map_cons, List.nodup_cons] at honce
    rw [List.map_cons, List.map_cons, alterResult, hid]
    split
    case isTrue heq =>
      congr 1
      refine List.map_congr_left fun c' hc' => (if_neg fun heq' => honce.1 ?_).symm
      rw [heq, ← heq']
      exact List.mem_map_of_mem hc'
    case isFalse => rw [ih honce.2]

/-! ### The collector after any reports -/

/-- The results and the maps that their annotations need. -/
structure Annotates (reports : List Report) (s : CollectorState) : Prop where
  results : s.results = (completions reports).map (resultFor reports)
  started : ∀ id, id ∉ completedIds reports → s.metas id = startOf id reports
  /-- A step that was started after it was completed is in the map again. -/
  closed : ∀ c ∈ completions reports,
    (startOf c.stepId c.past = none ∧ s.metas c.stepId = startOf c.stepId reports) ∨
      ∃ m, startOf c.stepId c.past = some m ∧ s.metas c.stepId = none ∧
        startOf c.stepId reports = some m
  pending : ∀ id, id ∉ completedIds reports →
    (s.pendingAnnotations id).getD [] = annotationsOf id reports

structure Collects (reports : List Report) (s : CollectorState) : Prop
    extends Annotates reports s where
  identities : ∀ id, id ∉ completedIds reports → s.identities id = lastOf (identityIn id) reports
  infrastructure : ∀ id, id ∉ completedIds reports →
    s.infrastructure id = lastOf (categoryIn id) reports
  category : s.category = (categories reports).head?

variable {past : List Report} {s : CollectorState}

theorem Annotates.resultOf_eq_none (h : Annotates past s) {id : Str} (hid : id ∉ completedIds past) :
    s.resultOf id = none := by
  rw [CollectorState.resultOf, List.find?_eq_none, h.results]
  intro result hresult heq
  obtain ⟨c, hc, rfl⟩ := List.mem_map.mp hresult
  exact hid (mem_completedIds.mpr ⟨c, hc, of_decide_eq_true heq⟩)

theorem Annotates.resultOf_eq_some (h : Annotates past s) {id : Str} (hid : id ∈ completedIds past) :
    ∃ c ∈ completions past, c.stepId = id ∧ s.resultOf id = some (resultFor past c) := by
  obtain ⟨c, hc, hcid⟩ := mem_completedIds.mp hid
  have hmem : resultFor past c ∈ s.results := by
    rw [h.results]
    exact List.mem_map_of_mem hc
  cases hfind : s.resultOf id with
  | none =>
    rw [CollectorState.resultOf, List.find?_eq_none] at hfind
    exact absurd (decide_eq_true hcid) (hfind _ hmem)
  | some result =>
    have hfound : s.results.find? (fun result => result.externalId = id) = some result := hfind
    have hresult := List.mem_of_find?_eq_some hfound
    have heq : result.externalId = id := by simpa using List.find?_some hfound
    rw [h.results] at hresult
    obtain ⟨c', hc', rfl⟩ := List.mem_map.mp hresult
    exact ⟨c', hc', heq, rfl⟩

/-- An annotation gets the number that its step was started with before, if it was. -/
theorem Annotates.numberOf (h : Annotates past s) (id : Str) :
    (s.numberOf id).getD 0 = ((startOf id past).map (·.number)).getD 0 := by
  rw [CollectorState.numberOf]
  by_cases hid : id ∈ completedIds past
  · obtain ⟨c, hc, rfl, hresult⟩ := h.resultOf_eq_some hid
    rw [hresult]
    rcases h.closed c hc with ⟨hpast, hmeta⟩ | ⟨m, hpast, hmeta, hnow⟩
    -- completed before it was started: its result has no number, and the map has what came after
    · rw [hmeta]
      cases startOf c.stepId past <;> simp [resultFor, hpast]
    · simp [hmeta, hnow, resultFor, hpast]
  · rw [h.resultOf_eq_none hid, h.started id hid]
    cases startOf id past <;> rfl

theorem toReportAnnotation_congr (event : RunnerEvent) {number number' : Option ℕ}
    (h : number.getD 0 = number'.getD 0) :
    toReportAnnotation event number = toReportAnnotation event number' := by
  unfold toReportAnnotation
  rw [h]

/-- What is left to show where a report starts and completes no step. -/
theorem Annotates.others {r : Report} {s' : CollectorState} (h : Annotates past s)
    (hstart : ∀ id, startIn id r = none) (hcompletion : completionIn past r = [])
    (hcompleted : completedId r = none) (hmetas : s'.metas = s.metas)
    (hresults : s'.results = (completions past).map (resultFor (past ++ [r])))
    (hpending : ∀ id, id ∉ completedIds past →
      (s'.pendingAnnotations id).getD [] = annotationsOf id past ++ annotationIn id past r) :
    Annotates (past ++ [r]) s' := by
  have hstartOf (id : Str) : startOf id (past ++ [r]) = startOf id past := by
    rw [startOf, lastOf_concat, hstart]
    rfl
  have hids : completedIds (past ++ [r]) = completedIds past := by
    rw [completedIds_concat, hcompleted]
    exact List.append_nil _
  have hall : completions (past ++ [r]) = completions past := by
    rw [completions_concat, hcompletion, List.append_nil]
  refine ⟨?_, ?_, ?_, ?_⟩
  · rw [hall]
    exact hresults
  · intro id hid
    rw [hids] at hid
    rw [hmetas, hstartOf, h.started id hid]
  · intro c hc
    rw [hall] at hc
    rw [hmetas, hstartOf]
    exact h.closed c hc
  · intro id hid
    rw [hids] at hid
    rw [annotationsOf_concat, hpending id hid]

/-- A report that the results and the maps for them do not depend on. -/
theorem Annotates.quiet {r : Report} (h : Annotates past s) (hstart : ∀ id, startIn id r = none)
    (hcompletion : completionIn past r = []) (hcompleted : completedId r = none)
    (hissue : ∀ id, annotationIn id past r = []) (hlog : ∀ id, logIn id past r = []) :
    Annotates (past ++ [r]) s := by
  refine h.others hstart hcompletion hcompleted rfl ?_ fun id hid => ?_
  · exact h.results.trans (List.map_congr_left fun c _ =>
      (resultFor_concat_of_quiet (hissue c.stepId) (hlog c.stepId)).symm)
  · rw [hissue, List.append_nil, h.pending id hid]

/-- The step that starts has not been started before. -/
theorem Annotates.start (h : Annotates past s) {now id name : Str} {number : ℕ}
    (hfresh : id ∉ startedIds past) :
    Annotates (past ++ [.event now (.stepStarted id name number)])
      { s with metas := Function.update s.metas id (some ⟨number, name, now⟩) } := by
  let r : Report := .event now (.stepStarted id name number)
  have hsame : startOf id (past ++ [r]) = some ⟨number, name, now⟩ := by
    rw [startOf, lastOf_concat]
    simp [r, startIn]
  have hother {id' : Str} (hne : id' ≠ id) : startOf id' (past ++ [r]) = startOf id' past := by
    rw [startOf, lastOf_concat]
    simp [r, startIn, hne.symm, startOf]
  have hids : completedIds (past ++ [r]) = completedIds past := by
    rw [completedIds_concat]
    exact List.append_nil _
  have hall : completions (past ++ [r]) = completions past := by
    rw [completions_concat]
    exact List.append_nil _
  refine ⟨?_, ?_, ?_, ?_⟩
  · rw [hall]
    exact h.results.trans (List.map_congr_left fun c _ => (resultFor_concat_of_quiet rfl rfl).symm)
  · intro id' hid'
    rw [hids] at hid'
    by_cases heq : id' = id
    · rw [heq, hsame]
      exact Function.update_self ..
    · rw [hother heq, ← h.started id' hid']
      exact Function.update_of_ne heq ..
  · intro c hc
    rw [hall] at hc
    by_cases heq : c.stepId = id
    -- a step that was started before its completion is not started again
    · rcases h.closed c hc with ⟨hpast, -⟩ | ⟨m, -, -, hnow⟩
      · refine .inl ⟨hpast, ?_⟩
        rw [heq, hsame]
        exact Function.update_self ..
      · rw [heq, startOf_eq_none_of hfresh] at hnow
        cases hnow
    · rw [hother heq]
      show _ ∧ Function.update _ _ _ _ = _ ∨ ∃ m, _ ∧ Function.update _ _ _ _ = _ ∧ _
      rw [Function.update_of_ne heq]
      exact h.closed c hc
  · intro id' hid'
    rw [hids] at hid'
    rw [annotationsOf_concat]
    exact (h.pending id' hid').trans (List.append_nil _).symm

/-- A step is completed that was not completed before. -/
theorem Annotates.complete (h : Annotates past s) {now id : Str} {conclusion : Conclusion}
    (hfresh : id ∉ completedIds past) (hidentity : s.identities id = lastOf (identityIn id) past) :
    Annotates (past ++ [.event now (.stepCompleted id conclusion)])
      (s.recordCompletion now id conclusion) := by
  let r : Report := .event now (.stepCompleted id conclusion)
  have hstartOf (id' : Str) : startOf id' (past ++ [r]) = startOf id' past := by
    rw [startOf, lastOf_concat]
    rfl
  have hannotations (id' : Str) : annotationsOf id' (past ++ [r]) = annotationsOf id' past := by
    rw [annotationsOf_concat]
    exact List.append_nil _
  have hids : completedIds (past ++ [r]) = completedIds past ++ [id] := completedIds_concat past r
  have hall : completions (past ++ [r]) = completions past ++ [⟨past, id, conclusion, now⟩] :=
    completions_concat past r
  refine ⟨?_, ?_, ?_, ?_⟩
  · rw [hall, List.map_append]
    refine congrArg₂ (· ++ ·) ?_ (congrArg (fun result => [result]) ?_)
    · exact h.results.trans (List.map_congr_left fun c _ => (resultFor_concat_of_quiet rfl rfl).symm)
    · rw [resultFor_concat_of_quiet rfl rfl, resultFor, logOf_eq_none_of hfresh]
      simp only [h.started id hfresh, h.pending id hfresh, hidentity]
      rfl
  · intro id' hid'
    rw [hids, List.mem_append, List.mem_singleton, not_or] at hid'
    rw [hstartOf, ← h.started id' hid'.1]
    exact Function.update_of_ne hid'.2 ..
  · intro c hc
    rw [hall, List.mem_append, List.mem_singleton] at hc
    rw [hstartOf]
    rcases hc with hc | rfl
    · have hne : c.stepId ≠ id := fun heq => hfresh (mem_completedIds.mpr ⟨c, hc, heq⟩)
      show _ ∧ Function.update _ _ _ _ = _ ∨ ∃ m, _ ∧ Function.update _ _ _ _ = _ ∧ _
      rw [Function.update_of_ne hne]
      exact h.closed c hc
    · have hmeta : (s.recordCompletion now id conclusion).metas id = none := Function.update_self ..
      cases hstart : startOf id past with
      | none => exact .inl ⟨rfl, hmeta⟩
      | some m => exact .inr ⟨m, rfl, hmeta, rfl⟩
  · intro id' hid'
    rw [hids, List.mem_append, List.mem_singleton, not_or] at hid'
    rw [hannotations, ← h.pending id' hid'.1]
    exact congrArg (Option.getD · []) (Function.update_of_ne hid'.2 ..)

/-- The ids of the results are those of the steps that were completed, each once. -/
theorem Annotates.alterResult (h : Annotates past s) (honce : (completedIds past).Nodup) (id : Str)
    (change : Wire.StepResult → Wire.StepResult) :
    alterResult id change s.results = (completions past).map fun c =>
      if c.stepId = id then change (resultFor past c) else resultFor past c := by
  rw [h.results]
  exact alterResult_map (by rwa [map_completions]) fun _ => rfl

/-- An annotation is added to the result of its step, or to what is pending for it. -/
theorem Annotates.annotate (h : Annotates past s) (honce : (completedIds past).Nodup)
    {now id : Str} {event : RunnerEvent} (habout : annotated (.event now event) = some id) :
    Annotates (past ++ [.event now event]) ( s.recordAnnotation id event) := by
  let r : Report := .event now event
  obtain ⟨issue, hissue⟩ : ∃ issue,
      toReportAnnotation event ((startOf id past).map (·.number)) = some issue := by
    cases event <;> first | exact ⟨_, rfl⟩ | cases habout
  have hrecorded : toReportAnnotation event (s.numberOf id) = some issue :=
    (toReportAnnotation_congr event (h.numberOf id)).trans hissue
  have hstart (id' : Str) : startIn id' r = none := by
    cases event <;> first | rfl | cases habout
  have hcompletion : completionIn past r = [] := by
    cases event <;> first | rfl | cases habout
  have hcompleted : completedId r = none := by
    cases event <;> first | rfl | cases habout
  have hadded (id' : Str) : annotationIn id' past r = if id = id' then [issue] else [] := by
    rw [annotationIn, habout]
    by_cases heq : id = id'
    · rw [if_pos (congrArg some heq), if_pos heq, ← heq, hissue]
      rfl
    · rw [if_neg (fun hsome => heq (Option.some.inj hsome)), if_neg heq]
  have hresult (c : Completion) : resultFor (past ++ [r]) c =
      if c.stepId = id then
        { resultFor past c with annotations := (resultFor past c).annotations ++ [issue] }
      else resultFor past c := by
    by_cases heq : c.stepId = id
    · rw [if_pos heq]
      simp [resultFor, annotationsOf_concat, logOf_concat, hadded, heq, r, logIn]
    · rw [if_neg heq]
      exact resultFor_concat_of_quiet (by rw [hadded, if_neg (Ne.symm heq)]) rfl
  unfold CollectorState.recordAnnotation
  rw [hrecorded]
  dsimp only
  split
  case isTrue hthere =>
    -- the step has been completed, so nothing is pending for it
    have hdone : id ∈ completedIds past := by
      by_contra hid
      rw [h.resultOf_eq_none hid] at hthere
      cases hthere
    refine h.others hstart hcompletion hcompleted rfl ?_ fun id' hid' => ?_
    · rw [h.alterResult honce]
      exact List.map_congr_left fun c _ => (hresult c).symm
    · have hne : id ≠ id' := fun heq => hid' (heq ▸ hdone)
      rw [hadded, if_neg hne, List.append_nil, ← h.pending id' hid']
  case isFalse habsent =>
    have hopen : id ∉ completedIds past := by
      intro hid
      obtain ⟨c, -, -, hresult⟩ := h.resultOf_eq_some hid
      rw [hresult] at habsent
      exact habsent rfl
    refine h.others hstart hcompletion hcompleted rfl ?_ fun id' hid' => ?_
    · refine h.results.trans (List.map_congr_left fun c hc => ?_)
      have hne : c.stepId ≠ id := fun heq => hopen (mem_completedIds.mpr ⟨c, hc, heq⟩)
      rw [hresult, if_neg hne]
    · rw [hadded]
      by_cases heq : id = id'
      · subst heq
        rw [if_pos rfl, ← h.pending id hid']
        show (Function.update s.pendingAnnotations id _ id).getD [] = _
        rw [Function.update_self]
        rfl
      · rw [if_neg heq, List.append_nil, ← h.pending id' hid']
        exact congrArg (Option.getD · []) (Function.update_of_ne (Ne.symm heq) ..)

/-- A backfill finds the result of a step that was completed. -/
theorem Annotates.setLogUrl (h : Annotates past s) (honce : (completedIds past).Nodup)
    (id url : Str) (lineCount : ℕ) :
    Annotates (past ++ [.logUrl id url lineCount]) (s.setLogUrl id url lineCount) := by
  refine h.others (fun _ => rfl) rfl rfl rfl ?_ fun id' hid' => ?_
  · refine (h.alterResult honce id _).trans (List.map_congr_left fun c hc => ?_)
    have hdone : c.stepId ∈ completedIds past := mem_completedIds.mpr ⟨c, hc, rfl⟩
    by_cases heq : c.stepId = id
    · rw [if_pos heq]
      simp [resultFor, annotationsOf_concat, logOf_concat, logIn, annotationIn, heq, heq ▸ hdone]
    · rw [if_neg heq]
      refine (resultFor_concat_of_quiet rfl ?_).symm
      rw [logIn, if_neg fun hall => heq hall.1.symm]
  · exact (h.pending id' hid').trans (List.append_nil _).symm

/-! ### Every sequence of reports -/

theorem collects_nil : Collects [] .new where
  results := rfl
  started _ _ := rfl
  closed _ hc := nomatch hc
  pending _ _ := rfl
  identities _ _ := rfl
  infrastructure _ _ := rfl
  category := rfl

theorem update_eq_or {α : Type} (f : Str → Option α) (id id' : Str) (value : α) :
    Function.update f id (some value) id' = (if id = id' then some value else none).or (f id') := by
  by_cases heq : id = id'
  · subst heq
    simp
  · simp [heq, Function.update_of_ne (Ne.symm heq)]

theorem recordAnnotation_frame (s : CollectorState) (id : Str) (event : RunnerEvent) :
    ( s.recordAnnotation id event).identities = s.identities ∧
      ( s.recordAnnotation id event).infrastructure = s.infrastructure ∧
      ( s.recordAnnotation id event).category = s.category := by
  unfold CollectorState.recordAnnotation
  split
  · exact ⟨rfl, rfl, rfl⟩
  · split <;> exact ⟨rfl, rfl, rfl⟩

/-- The rest of what is collected, where no step is completed. -/
theorem Collects.others {r : Report} {s' : CollectorState} (h : Collects past s)
    (hannotates : Annotates (past ++ [r]) s') (hids : completedId r = none)
    (hcategories : categoryAt past r = [])
    (hidentities : ∀ id, s'.identities id = (identityIn id r).or (s.identities id))
    (hinfrastructure : ∀ id, s'.infrastructure id = (categoryIn id r).or (s.infrastructure id))
    (hcategory : s'.category = s.category) : Collects (past ++ [r]) s' := by
  have hsame : completedIds (past ++ [r]) = completedIds past := by
    rw [completedIds_concat, hids]
    exact List.append_nil _
  refine ⟨hannotates, fun id hid => ?_, fun id hid => ?_, ?_⟩
  · rw [hsame] at hid
    rw [lastOf_concat, hidentities, h.identities id hid]
  · rw [hsame] at hid
    rw [lastOf_concat, hinfrastructure, h.infrastructure id hid]
  · rw [categories, emits_concat, hcategories, List.append_nil, hcategory]
    exact h.category

theorem Collects.complete (h : Collects past s) {now id : Str} {conclusion : Conclusion}
    (hfresh : id ∉ completedIds past) :
    Collects (past ++ [.event now (.stepCompleted id conclusion)])
      (s.recordCompletion now id conclusion) := by
  have hids : completedIds (past ++ [.event now (.stepCompleted id conclusion)]) =
      completedIds past ++ [id] := completedIds_concat past _
  refine ⟨h.toAnnotates.complete hfresh (h.identities id hfresh), fun id' hid' => ?_,
    fun id' hid' => ?_, ?_⟩
  · rw [hids, List.mem_append, List.mem_singleton, not_or] at hid'
    rw [lastOf_concat]
    exact (Function.update_of_ne hid'.2 ..).trans (h.identities id' hid'.1)
  · rw [hids, List.mem_append, List.mem_singleton, not_or] at hid'
    rw [lastOf_concat]
    exact (Function.update_of_ne hid'.2 ..).trans (h.infrastructure id' hid'.1)
  · have hcategory := h.category
    rw [categories, emits_concat]
    show (if conclusion = .failure ∧ s.category.isNone then s.infrastructure id else s.category) = _
    rw [h.infrastructure id hfresh, hcategory, categories]
    -- the first category stays
    cases hbefore : emits categoryAt past with
    | cons first rest => simp
    | nil =>
      cases conclusion <;> simp [categoryAt]

theorem collects_concat (h : Collects past s) {r : Report}
    (hstarts : (startedIds (past ++ [r])).Nodup) (hcompletes : (completedIds (past ++ [r])).Nodup) :
    Collects (past ++ [r]) (s.step r) := by
  have honce : (completedIds past).Nodup := by
    rw [completedIds_concat] at hcompletes
    exact (List.nodup_append.mp hcompletes).1
  have hquiet {s' : CollectorState} (hsame : s' = s) (hstart : ∀ id, startIn id r = none)
      (hcompletion : completionIn past r = []) (hcompleted : completedId r = none)
      (hissue : ∀ id, annotationIn id past r = []) (hlog : ∀ id, logIn id past r = [])
      (hcategories : categoryAt past r = []) (hidentity : ∀ id, identityIn id r = none)
      (hcategory : ∀ id, categoryIn id r = none) : Collects (past ++ [r]) s' := by
    subst hsame
    exact h.others (h.toAnnotates.quiet hstart hcompletion hcompleted hissue hlog) hcompleted
      hcategories (fun id => by rw [hidentity]; rfl) (fun id => by rw [hcategory]; rfl) rfl
  cases r with
  | logUrl id url lineCount =>
    exact h.others (h.toAnnotates.setLogUrl honce id url lineCount) rfl rfl (fun _ => rfl)
      (fun _ => rfl) rfl
  | event now event =>
    cases event with
    | stepStarted id name number =>
      have hfresh : id ∉ startedIds past := by
        rw [startedIds_concat] at hstarts
        intro hmem
        exact (List.nodup_append.mp hstarts).2.2 id hmem id (List.mem_singleton_self id) rfl
      exact h.others (h.toAnnotates.start hfresh) rfl rfl (fun _ => rfl) (fun _ => rfl) rfl
    | stepCompleted id conclusion =>
      have hfresh : id ∉ completedIds past := by
        rw [completedIds_concat] at hcompletes
        intro hmem
        exact (List.nodup_append.mp hcompletes).2.2 id hmem id (List.mem_singleton_self id) rfl
      exact h.complete hfresh
    | annotation id level fields =>
      obtain ⟨hidentities, hinfrastructure, hcategory⟩ :=
        recordAnnotation_frame s id ( RunnerEvent.annotation id level fields)
      refine h.others (h.toAnnotates.annotate honce rfl) rfl rfl (fun id' => ?_) (fun id' => ?_)
        hcategory
      · exact congrFun hidentities id'
      · exact congrFun hinfrastructure id'
    | stepMetadata id kind action gitRef =>
      have hannotates : Annotates (past ++ [.event now (.stepMetadata id kind action gitRef)]) s :=
        h.toAnnotates.quiet (fun _ => rfl) rfl rfl (fun _ => rfl) fun _ => rfl
      refine h.others ⟨hannotates.results, hannotates.started, hannotates.closed, hannotates.pending⟩
        rfl rfl (fun id' => ?_) (fun _ => rfl) rfl
      exact update_eq_or s.identities id id' _
    | infrastructureError id category message =>
      let s' := { s with infrastructure := Function.update s.infrastructure id (some category) }
      -- the category is noted first; the annotation is that of any other event
      have hannotates : Annotates past s' := ⟨h.results, h.started, h.closed, h.pending⟩
      obtain ⟨hidentities, hinfrastructure, hcategory⟩ :=
        recordAnnotation_frame s' id (.infrastructureError id category message)
      refine h.others (hannotates.annotate honce rfl) rfl rfl (fun id' => ?_) (fun id' => ?_)
        hcategory
      · exact congrFun hidentities id'
      · exact (congrFun hinfrastructure id').trans (update_eq_or s.infrastructure id id' category)
    | _ =>
      exact hquiet rfl (fun _ => rfl) rfl rfl (fun _ => rfl) (fun _ => rfl) rfl (fun _ => rfl)
        fun _ => rfl

theorem collects_collected (reports : List Report) (hstarts : (startedIds reports).Nodup)
    (hcompletes : (completedIds reports).Nodup) : Collects reports (collected reports) := by
  induction reports using List.reverseRecOn with
  | nil => exact collects_nil
  | append_singleton past r ih =>
    have hstarts' : (startedIds past).Nodup := by
      rw [startedIds_concat] at hstarts
      exact (List.nodup_append.mp hstarts).1
    have hcompletes' : (completedIds past).Nodup := by
      rw [completedIds_concat] at hcompletes
      exact (List.nodup_append.mp hcompletes).1
    have hrun : collected (past ++ [r]) = (collected past).step r := by
      rw [collected, run_append]
      rfl
    rw [hrun]
    exact collects_concat (ih hstarts' hcompletes') hstarts hcompletes

/-- Where no step is started or completed twice, the results are one for each completion, in their order, as
    the reports say: with the start that came before it, and the identity reported last before it; with all
    annotations of the step, before and after it, in their order, each with the number that the step had been
    started with by then, if it had; and with the last backfill after it. A start that came before is the only
    one of its step, a backfill changes the two fields of the step's own result, and the category is the first
    that was pending where a step failed. -/
theorem collected_as_reported (reports : List Report) (hstarts : (startedIds reports).Nodup)
    (hcompletes : (completedIds reports).Nodup) :
    (collected reports).results = (completions reports).map (resultFor reports) ∧
      (∀ past rest, reports = past ++ rest → ∀ id m, startOf id past = some m →
        startOf id reports = some m) ∧
      (collected reports).category = (categories reports).head? ∧
      ∀ id url lineCount, (collected (reports ++ [.logUrl id url lineCount])).results =
        (collected reports).results.map fun result =>
          if result.externalId = id then
            { result with completedLogUrl := some url, completedLogLines := some lineCount }
          else result := by
  have h := collects_collected reports hstarts hcompletes
  refine ⟨h.results, ?_, h.category, fun id url lineCount => ?_⟩
  · rintro past rest rfl id m
    exact startOf_append hstarts
  · have hrun : collected (reports ++ [.logUrl id url lineCount]) =
        (collected reports).setLogUrl id url lineCount := by
      rw [collected, run_append]
      rfl
    rw [hrun, h.results, List.map_map]
    exact h.toAnnotates.alterResult hcompletes id _

/-- A step that fails, with an infrastructure error, an annotation that is late, and its log. -/
def failedFetch : List Report :=
  [.event "1".toList (.stepStarted "a".toList "Fetch".toList 2),
    .event "2".toList (.infrastructureError "a".toList "resolve_action".toList "no reply".toList),
    .event "3".toList (.stepCompleted "a".toList .failure),
    .event "4".toList ( RunnerEvent.annotation "a".toList .error ⟨"late".toList, none, none, none, none, none, none⟩)]

theorem failedFetch_as_reported :
    (collected failedFetch).results = (completions failedFetch).map (resultFor failedFetch) ∧
      (∀ past rest, failedFetch = past ++ rest → ∀ id m, startOf id past = some m →
        startOf id failedFetch = some m) ∧
      (collected failedFetch).category = (categories failedFetch).head? ∧
      ∀ id url lineCount, (collected (failedFetch ++ [.logUrl id url lineCount])).results =
        (collected failedFetch).results.map fun result =>
          if result.externalId = id then
            { result with completedLogUrl := some url, completedLogLines := some lineCount }
          else result :=
  collected_as_reported failedFetch (by decide) (by decide)

def earlyAnnotation : List Report :=
  [.event "1".toList ( RunnerEvent.annotation "a".toList .notice ⟨"early".toList, none, none, none, none, none, none⟩),
    .event "2".toList (.stepStarted "a".toList "Build".toList 2),
    .event "3".toList (.stepCompleted "a".toList .success)]

def lateStart : List Report :=
  [.event "1".toList (.stepCompleted "a".toList .success),
    .event "2".toList (.stepStarted "a".toList "Build".toList 2)]

/-- An annotation that comes before its step is started has no number, and a step that is started after it was
    completed has no name. -/
theorem lateStart_not_seen :
    ((startedIds earlyAnnotation).Nodup ∧ (completedIds earlyAnnotation).Nodup ∧
      (collected earlyAnnotation).results.map (fun result =>
        (result.number, result.annotations.map (·.stepNumber))) = [(2, [0])]) ∧
    ((startedIds lateStart).Nodup ∧ (completedIds lateStart).Nodup ∧
      (collected lateStart).results.map (fun result => (result.number, result.name)) = [(0, [])]) := by
  decide

end GhRunner.Listener.StepReporter
