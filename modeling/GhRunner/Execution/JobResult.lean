import GhRunner.Execution.JobSteps

namespace GhRunner.Execution

open Text Machine GhRunner.Expressions

/-!
# The result of a job

What `runMainAndPosts` makes of its steps, whatever they do and whenever the job is cancelled or the
runner shut down.

* `conclusions`, `worst` — the steps that have concluded, and the conclusion that stands for them;
* `afterSteps` — the job after some of its main steps and posts;
* `Merged`, `FailureStays`, `OutcomeKept`, `DefaultSkips` — the four things that hold of the result;
* `Grows` — what no operation takes back;
* `Doomed` — `success()` is false, and will be;
* `Accounted` — the aggregate of a loop is the worst of the conclusions it has reported;
* `job_result` — the four, of every list of steps.
-/

def StepEvent.conclusion : StepEvent → Option Conclusion
  | .completed _ conclusion => some conclusion
  | .started _ | .executing _ | .skipped _ => none

def StepEvent.executed : StepEvent → Option Str
  | .executing id => some id
  | .started _ | .skipped _ | .completed _ _ => none

namespace Job

/-- What has been reported of the steps that are over. -/
def conclusions (job : Job) : List Conclusion := job.events.filterMap StepEvent.conclusion

/-- The steps whose handler has run. -/
def executed (job : Job) : List Str := job.events.filterMap StepEvent.executed

end Job

/-- Cancellation takes precedence over failure. -/
def worst (conclusions : List Conclusion) : Conclusion :=
  if .cancelled ∈ conclusions then .cancelled
  else if .failure ∈ conclusions then .failure
  else .success

/-- The default condition, written or not. -/
def Step.isDefault (step : Step) : Prop :=
  ∀ condition, step.condition = some condition →
    trim condition = [] ∨ trim condition = "success()".toList

section

variable (signals : Signals) (steps : List Step)

/-- A job from its start to the end of its main steps. -/
def mainLoop : MainLoop := runMainSteps signals {} steps

/-- What has become of a job, and its conclusion as it stands. -/
structure Progress where
  job : Job
  conclusion : Except StepError Conclusion

/-- After its first `n` main steps and posts. -/
def afterSteps (n : ℕ) : Progress :=
  if n ≤ steps.length then
    let main := mainLoop signals (steps.take n)
    ⟨main.job, main.result⟩
  else
    let main := mainLoop signals steps
    let job := endMain signals main
    let drain := run (drainStep signals) ⟨job.emptied, .success⟩
      (job.posts.reverse.take (n - steps.length))
    ⟨drain.job, main.result.map fun conclusion => worst [conclusion, drain.aggregate]⟩

/-- The result says how the job was ended, and else how its steps have concluded. -/
def Merged : Prop :=
  ∀ result, (runMainAndPosts signals {} steps).2 = .ok result →
    let job := (runMainAndPosts signals {} steps).1
    result =
      if fired signals.shutdown job.now then .failure
      else if fired signals.request (job.now + 1) then .cancelled
      else worst job.conclusions

/-- Neither the aggregate nor the status that conditions see is a success after a failure. -/
structure FailureStays : Prop where
  conclusion : ∀ m n, m ≤ n → (afterSteps signals steps m).conclusion = .ok .failure →
    (afterSteps signals steps n).conclusion ≠ .ok .success
  status : ∀ m n, m ≤ n → (afterSteps signals steps m).job.jobStatus signals = .failure →
    (afterSteps signals steps n).job.jobStatus signals ≠ .success

/-- A step's outcome is recorded whatever its `continue-on-error`, and stays. -/
structure OutcomeKept : Prop where
  same : ∀ before step after, steps = before ++ step :: after → ∀ flag name,
    ((mainLoop signals (before ++ [{ step with continueOnError := flag }])).job.steps name).outcome
      = ((mainLoop signals (before ++ [step])).job.steps name).outcome
  adjusted : ∀ before step after, steps = before ++ step :: after → ∀ name,
    step.expressionName = some name →
      ∃ outcome, (mainLoop signals (before ++ [step])).job.steps name =
          ⟨some outcome, some outcome⟩ ∨
        outcome = .failure ∧ step.continueOnError = true ∧
          (mainLoop signals (before ++ [step])).job.steps name = ⟨some outcome, some .success⟩
  kept : ∀ before after, steps = before ++ after → ∀ name,
    (∀ step ∈ after, step.expressionName ≠ some name) →
      (runMainAndPosts signals {} steps).1.steps name = (mainLoop signals before).job.steps name

/-- After a failure no handler of a step with the default condition runs. -/
def DefaultSkips : Prop :=
  ∀ before step after, steps = before ++ step :: after → step.isDefault →
    .failure ∈ (mainLoop signals before).job.conclusions →
      (mainLoop signals (before ++ [step])).job.executed = (mainLoop signals before).job.executed

end

/-! ### Signals -/

section

variable {signals : Signals} {signal : Option ℕ} {now now' : ℕ} {prior : JobStatus}

theorem fired_mono (h : fired signal now = true) (hle : now ≤ now') :
    fired signal now' = true := by
  cases signal with
  | none => cases h
  | some time =>
    have htime : time ≤ now := of_decide_eq_true h
    exact decide_eq_true (htime.trans hle)

theorem status_ne_success :
    signals.status prior now ≠ .success ↔
      fired signals.shutdown now = true ∨ fired signals.request (now + 1) = true ∨
        prior ≠ .success := by
  unfold Signals.status
  split
  · simp [*]
  · split <;> simp [*]

end

/-! ### What no operation takes back -/

/-- Time goes on, a status that is no success stays none, and what was sent stays sent. -/
structure Grows (job job' : Job) : Prop where
  now : job.now ≤ job'.now
  status : job.status ≠ .success → job'.status ≠ .success

namespace Grows

theorem refl (job : Job) : Grows job job := ⟨le_refl _, id⟩

theorem trans {a b c : Job} (hab : Grows a b) (hbc : Grows b c) : Grows a c :=
  ⟨hab.now.trans hbc.now, hbc.status ∘ hab.status⟩

end Grows

section

variable {signals : Signals} {job job' : Job}

/-- `success()` is false. -/
def Doomed (signals : Signals) (job : Job) : Prop := job.jobStatus signals ≠ .success

theorem Doomed.grows (h : Doomed signals job) (hgrows : Grows job job') : Doomed signals job' := by
  have hnow := hgrows.now
  rcases (status_ne_success).mp h with hshutdown | hrequest | hstatus
  · exact (status_ne_success).mpr (.inl (fired_mono hshutdown hnow))
  · exact (status_ne_success).mpr (.inr (.inl (fired_mono hrequest (by omega))))
  · exact (status_ne_success).mpr (.inr (.inr (hgrows.status hstatus)))

theorem grows_recordJobCancelled : Grows job job.recordJobCancelled := ⟨le_refl _, fun _ => nofun⟩

theorem grows_elapse : Grows job job.elapse := ⟨Nat.le_add_right _ _, id⟩

theorem grows_recordStepFailure : Grows job (job.recordStepFailure signals) := by
  unfold Job.recordStepFailure
  split
  · exact ⟨Nat.le_add_right _ _, fun _ => nofun⟩
  · exact grows_elapse

variable (signals) in
theorem grows_noteCancellation : Grows job (job.noteCancellation signals) := by
  unfold Job.noteCancellation
  split
  · exact grows_recordJobCancelled.trans grows_elapse
  · exact grows_elapse

/-- A failure that is recorded is one that `success()` sees. -/
theorem doomed_recordStepFailure : Doomed signals (job.recordStepFailure signals) := by
  unfold Job.recordStepFailure
  split
  case isTrue => exact (status_ne_success).mpr (.inr (.inr nofun))
  case isFalse hcancelled =>
    have hdoomed : Doomed signals job := by
      unfold Doomed
      rw [not_ne_iff.mp hcancelled]
      nofun
    exact hdoomed.grows grows_elapse

/-! ### One step -/

section

variable (signals : Signals) (job : Job) (step : Step) (conclusion : Conclusion)

@[simp] theorem recordOutcome_events : (job.recordOutcome step conclusion).events = job.events := by
  unfold Job.recordOutcome
  split <;> rfl

@[simp] theorem recordConclusion_events :
    (job.recordConclusion step conclusion).events = job.events := by
  unfold Job.recordConclusion
  split <;> rfl

@[simp] theorem recordUnstarted_events :
    (job.recordUnstarted step conclusion).events = job.events := by
  unfold Job.recordUnstarted
  rw [recordConclusion_events, recordOutcome_events]

@[simp] theorem recordStepFailure_events : (job.recordStepFailure signals).events = job.events := by
  unfold Job.recordStepFailure
  split <;> rfl

@[simp] theorem recordStepFailure_steps : (job.recordStepFailure signals).steps = job.steps := by
  unfold Job.recordStepFailure
  split <;> rfl

theorem grows_recordOutcome : Grows job (job.recordOutcome step conclusion) := by
  unfold Job.recordOutcome
  split
  · exact ⟨le_refl _, id⟩
  · exact Grows.refl job

theorem grows_recordConclusion : Grows job (job.recordConclusion step conclusion) := by
  unfold Job.recordConclusion
  split
  · exact ⟨le_refl _, id⟩
  · exact Grows.refl job

theorem grows_recordUnstarted : Grows job (job.recordUnstarted step conclusion) :=
  (grows_recordOutcome job step conclusion).trans (grows_recordConclusion _ step conclusion)

theorem grows_send (event : StepEvent) : Grows job (job.send event) := ⟨le_refl _, id⟩

end

variable {step : Step} {conclusion outcome : Conclusion} {ran : Bool}

/-- They look at the results alone. -/
theorem recordOutcome_steps (h : job'.steps = job.steps) :
    (job'.recordOutcome step outcome).steps = (job.recordOutcome step outcome).steps := by
  unfold Job.recordOutcome Job.setStepOutcome
  split
  · rw [h]
  · exact h

theorem recordConclusion_steps (h : job'.steps = job.steps) :
    (job'.recordConclusion step conclusion).steps =
      (job.recordConclusion step conclusion).steps := by
  unfold Job.recordConclusion Job.setStepConclusion
  split
  · rw [h]
  · exact h

/-- A step has come to a conclusion, and has run its handler for it or not. -/
structure Concluded (signals : Signals) (step : Step) (conclusion : Conclusion) (ran : Bool)
    (job job' : Job) : Prop where
  grows : Grows job job'
  events : ∃ new, job'.events = job.events ++ new ∧
    new.filterMap StepEvent.conclusion = [conclusion] ∧
    new.filterMap StepEvent.executed = if ran then [step.id] else []
  doomed : conclusion = .failure → Doomed signals job'
  steps : job'.steps =
    ((job.recordOutcome step (if ran then step.outcome else conclusion)).recordConclusion step
      conclusion).steps
  adjusted : ran = true → conclusion = adjust step.continueOnError step.outcome

theorem concluded_reportSkippedStep :
    Concluded signals step .skipped false job (job.reportSkippedStep step) where
  grows := (grows_recordUnstarted job step .skipped).trans ⟨le_refl _, id⟩
  events := ⟨[.started step.id, .skipped step.id, .completed step.id .skipped],
    by simp [Job.reportSkippedStep, Job.send], rfl, rfl⟩
  doomed := nofun
  steps := rfl
  adjusted := nofun

theorem concluded_recordConditionFailure :
    Concluded signals step .failure false job (job.recordConditionFailure signals step) where
  grows := ((grows_send job (.started step.id)).trans (grows_recordUnstarted _ step .failure)).trans
    (grows_recordStepFailure.trans (grows_send _ (.completed step.id .failure)))
  events := ⟨[.started step.id, .completed step.id .failure],
    by simp [Job.recordConditionFailure, Job.send], rfl, rfl⟩
  doomed _ := doomed_recordStepFailure
  steps := by
    show ((_ : Job).recordStepFailure signals).steps = _
    rw [recordStepFailure_steps]
    exact recordConclusion_steps (recordOutcome_steps rfl)
  adjusted := nofun

theorem concluded_executeStartedStep :
    Concluded signals step (adjust step.continueOnError step.outcome) true job
      (job.executeStartedStep signals step).1 := by
  obtain ⟨conclusion, hconclusion⟩ :
      ∃ conclusion, adjust step.continueOnError step.outcome = conclusion := ⟨_, rfl⟩
  obtain ⟨ready, hready⟩ : ∃ ready : Job, { job.send (.executing step.id) with
      posts := job.posts ++ step.posts }.recordOutcome step step.outcome = ready := ⟨_, rfl⟩
  have hended : (job.executeStartedStep signals step).1 =
      ((if conclusion = .failure then ready.recordStepFailure signals else ready).recordConclusion
        step conclusion).send (.completed step.id conclusion) := by
    rw [← hconclusion, ← hready]
    rfl
  have hevents : ready.events = job.events ++ [.executing step.id] := by
    rw [← hready, recordOutcome_events]
    rfl
  have hsteps : ready.steps = (job.recordOutcome step step.outcome).steps := by
    rw [← hready]
    exact recordOutcome_steps rfl
  have hgrows : Grows job ready := by
    rw [← hready]
    have hexecuting : Grows job { job.send (.executing step.id) with
        posts := job.posts ++ step.posts } := ⟨le_refl _, id⟩
    exact hexecuting.trans (grows_recordOutcome _ step step.outcome)
  rw [hended, hconclusion]
  refine ⟨?_, ⟨[.executing step.id, .completed step.id conclusion], ?_, rfl, rfl⟩,
    fun hfailure => ?_, ?_, fun _ => hconclusion.symm⟩
  · have hrecorded : Grows ready
        (if conclusion = .failure then ready.recordStepFailure signals else ready) := by
      split
      · exact grows_recordStepFailure
      · exact Grows.refl ready
    exact (hgrows.trans hrecorded).trans
      ((grows_recordConclusion _ step conclusion).trans (grows_send _ _))
  · show (Job.recordConclusion _ step conclusion).events ++ _ = _
    rw [recordConclusion_events, apply_ite Job.events, recordStepFailure_events, ite_self, hevents,
      List.append_assoc]
    rfl
  · rw [if_pos hfailure]
    exact doomed_recordStepFailure.grows
      ((grows_recordConclusion _ step conclusion).trans (grows_send _ _))
  · show (Job.recordConclusion _ step conclusion).steps = _
    apply recordConclusion_steps
    rw [apply_ite Job.steps, recordStepFailure_steps, ite_self]
    exact hsteps

/-- The clock goes on before and after. -/
theorem Concluded.prepend {before : Job} (h : Concluded signals step conclusion ran job job')
    (hgrows : Grows before job) (hsteps : job.steps = before.steps) {sent : List StepEvent}
    (hevents : job.events = before.events ++ sent)
    (hsent : sent.filterMap StepEvent.conclusion = [])
    (hran : sent.filterMap StepEvent.executed = []) :
    Concluded signals step conclusion ran before job' := by
  obtain ⟨new, hnew, hconclusion, hexecuted⟩ := h.events
  refine ⟨hgrows.trans h.grows, ⟨sent ++ new, ?_, ?_, ?_⟩, h.doomed, ?_, h.adjusted⟩
  · rw [hnew, hevents, List.append_assoc]
  · rw [List.filterMap_append, hsent, hconclusion, List.nil_append]
  · rw [List.filterMap_append, hran, hexecuted, List.nil_append]
  · rw [h.steps]
    exact recordConclusion_steps (recordOutcome_steps hsteps)

theorem Concluded.elapse_before (h : Concluded signals step conclusion ran job.elapse job') :
    Concluded signals step conclusion ran job job' :=
  h.prepend grows_elapse rfl (List.append_nil _).symm rfl rfl

theorem Concluded.append {after : Job} (h : Concluded signals step conclusion ran job job')
    (hgrows : Grows job' after) (hevents : after.events = job'.events)
    (hsteps : after.steps = job'.steps) : Concluded signals step conclusion ran job after where
  grows := h.grows.trans hgrows
  events := hevents ▸ h.events
  doomed hfailure := (h.doomed hfailure).grows hgrows
  steps := hsteps.trans h.steps
  adjusted := h.adjusted

theorem Concluded.conclusions (h : Concluded signals step conclusion ran job job') :
    job'.conclusions = job.conclusions ++ [conclusion] := by
  obtain ⟨new, hnew, hconclusion, -⟩ := h.events
  unfold Job.conclusions
  rw [hnew, List.filterMap_append, hconclusion]

theorem Concluded.executed (h : Concluded signals step conclusion ran job job') :
    job'.executed = job.executed ++ if ran then [step.id] else [] := by
  obtain ⟨new, hnew, -, hexecuted⟩ := h.events
  unfold Job.executed
  rw [hnew, List.filterMap_append, hexecuted]

variable (signals) in
/-- A condition that is left to its default asks whether all is well. -/
theorem evaluateCondition_default (job : Job) (hdefault : step.isDefault) :
    job.evaluateCondition signals step = .ok (job.jobStatus signals = .success) := by
  have hliteral : ∀ condition, trim condition = "success()".toList →
      job.literalStatusCondition signals condition =
        some (decide (job.jobStatus signals = .success)) := fun condition h => by
    unfold Job.literalStatusCondition
    rw [if_pos h]
  have hsuccess := hliteral "success()".toList (by decide)
  unfold Job.evaluateCondition
  cases hcondition : step.condition with
  | none =>
    rw [Option.getD_none]
    dsimp only
    rw [if_neg (by decide), hsuccess]
  | some condition =>
    rw [Option.getD_some]
    dsimp only
    rcases hdefault condition hcondition with hblank | hwritten
    · rw [if_pos hblank, hsuccess, Option.getD_some]
    · rw [if_neg (by rw [hwritten]; decide), hliteral condition hwritten]

/-- What becomes of one step: it concludes as it is reported, and a default condition keeps it from
    its handler once `success()` is false. -/
theorem runSingleStep_concludes (signals : Signals) (job : Job) (step : Step) :
    ∃ result conclusion ran, (job.runSingleStep signals step).2 = .ok result ∧
      Concluded signals step conclusion ran job (job.runSingleStep signals step).1 ∧
      (result = .failure ↔ conclusion = .failure) ∧
      (result = .cancelled ↔ conclusion = .cancelled) ∧
      (step.isDefault → Doomed signals job → ran = false) := by
  unfold Job.runSingleStep
  split
  · have hskipped : Concluded signals step .skipped false job (job.reportSkippedStep step).elapse :=
      concluded_reportSkippedStep.append grows_elapse rfl rfl
    exact ⟨.skipped, .skipped, false, rfl, hskipped, .rfl, .rfl, fun _ _ => rfl⟩
  dsimp only
  split
  · exact ⟨.failure, .failure, false, rfl,
      concluded_recordConditionFailure.elapse_before.elapse_before, .rfl, .rfl, fun _ _ => rfl⟩
  · exact ⟨.success, .skipped, false, rfl, concluded_reportSkippedStep.elapse_before.elapse_before,
      by decide, by decide, fun _ _ => rfl⟩
  case h_3 hruns =>
    refine ⟨_, _, true, rfl, ?_, .rfl, .rfl, fun hdefault hdoomed => ?_⟩
    · apply Concluded.elapse_before
      apply Concluded.elapse_before
      exact concluded_executeStartedStep.prepend (grows_send _ _) rfl rfl rfl rfl
    · have hcondition := evaluateCondition_default signals job.elapse hdefault
      have hfalse : decide (job.elapse.jobStatus signals = .success) = false :=
        decide_eq_false (hdoomed.grows grows_elapse)
      rw [hcondition, hfalse] at hruns
      cases henv : step.env with
      | error e =>
        rw [henv] at hruns
        cases hruns
      | ok u =>
        rw [henv] at hruns
        cases hruns

/-! ### The loops -/

/-- The aggregate after one more conclusion. -/
def follow (aggregate conclusion : Conclusion) : Conclusion :=
  if conclusion = .cancelled then .cancelled
  else if conclusion = .failure ∧ aggregate ≠ .cancelled then .failure
  else aggregate

theorem worst_concat (cs : List Conclusion) (c : Conclusion) :
    worst (cs ++ [c]) = follow (worst cs) c := by
  unfold worst follow
  by_cases hc : Conclusion.cancelled ∈ cs <;> by_cases hf : Conclusion.failure ∈ cs <;>
    cases c <;> simp [hc, hf]

theorem worst_append (cs ds : List Conclusion) :
    worst (cs ++ ds) =
      if worst cs = .cancelled ∨ worst ds = .cancelled then .cancelled
      else if worst cs = .failure ∨ worst ds = .failure then .failure
      else worst cs := by
  unfold worst
  by_cases hc : Conclusion.cancelled ∈ cs <;> by_cases hf : Conclusion.failure ∈ cs <;>
    by_cases hc' : Conclusion.cancelled ∈ ds <;> by_cases hf' : Conclusion.failure ∈ ds <;>
    simp [hc, hf, hc', hf']

theorem worst_pair (cs ds : List Conclusion) : worst [worst cs, worst ds] = worst (cs ++ ds) := by
  unfold worst
  by_cases hc : Conclusion.cancelled ∈ cs <;> by_cases hf : Conclusion.failure ∈ cs <;>
    by_cases hc' : Conclusion.cancelled ∈ ds <;> by_cases hf' : Conclusion.failure ∈ ds <;>
    simp [hc, hf, hc', hf']

theorem failure_mem_of_worst {cs : List Conclusion} (h : worst cs = .failure) : .failure ∈ cs := by
  unfold worst at h
  split at h
  · cases h
  · split at h
    · assumption
    · cases h

theorem worst_ne_success {cs : List Conclusion} (h : .failure ∈ cs) : worst cs ≠ .success := by
  unfold worst
  rw [if_pos h]
  split <;> nofun

/-- The aggregate stands for what has been reported. -/
def Accounted (main : MainLoop) : Prop := main.result = .ok (worst main.job.conclusions)

theorem noteCancellation_events : (job.noteCancellation signals).events = job.events := by
  unfold Job.noteCancellation
  split <;> rfl

theorem noteCancellation_steps : (job.noteCancellation signals).steps = job.steps := by
  unfold Job.noteCancellation
  split <;> rfl

variable (signals) in
/-- One turn of the main loop, which no error ends. -/
theorem mainStep_concludes {main : MainLoop} {aggregate : Conclusion}
    (h : main.result = .ok aggregate) (step : Step) :
    ∃ conclusion ran,
      Concluded signals step conclusion ran main.job (mainStep signals main step).job ∧
      (mainStep signals main step).result = .ok (follow aggregate conclusion) ∧
      (step.isDefault → Doomed signals main.job → ran = false) := by
  obtain ⟨result, conclusion, ran, hresult, hconcluded, hfailure, hcancelled, hdefault⟩ :=
    runSingleStep_concludes signals (main.job.noteCancellation signals) step
  have hgrows : Grows main.job (main.job.noteCancellation signals) := grows_noteCancellation signals
  have hnoted := hconcluded.prepend hgrows noteCancellation_steps
    (noteCancellation_events.trans (List.append_nil _).symm) rfl rfl
  have hstep : mainStep signals main step =
      if result = .cancelled then
        ⟨((main.job.noteCancellation signals).runSingleStep signals step).1.recordJobCancelled,
          .ok .cancelled⟩
      else ⟨((main.job.noteCancellation signals).runSingleStep signals step).1,
        .ok (if result = .failure ∧ aggregate ≠ .cancelled then .failure else aggregate)⟩ := by
    unfold mainStep
    rw [h]
    obtain ⟨ended, hended⟩ : ∃ ended,
      (main.job.noteCancellation signals).runSingleStep signals step = ended := ⟨_, rfl⟩
    rw [hended] at hresult ⊢
    obtain ⟨job, _ | stepResult⟩ := ended
    · cases hresult
    · obtain rfl := Except.ok.inj hresult
      rfl
  refine ⟨conclusion, ran, ?_, ?_, fun hd hdoomed => hdefault hd (hdoomed.grows hgrows)⟩
  · rw [hstep]
    split
    · exact hnoted.append grows_recordJobCancelled rfl rfl
    · exact hnoted
  · rw [hstep]
    unfold follow
    simp only [← hfailure, ← hcancelled]
    split <;> rfl

theorem accounted_mainStep (main : MainLoop) (step : Step) (h : Accounted main) :
    Accounted (mainStep signals main step) := by
  obtain ⟨conclusion, ran, hconcluded, hresult, -⟩ := mainStep_concludes signals h step
  unfold Accounted
  rw [hresult, hconcluded.conclusions, worst_concat]

theorem accounted_mainLoop (signals : Signals) (steps : List Step) :
    Accounted (mainLoop signals steps) :=
  run_invariant_of_step accounted_mainStep steps rfl

theorem mainLoop_concat (signals : Signals) (before : List Step) (step : Step) :
    mainLoop signals (before ++ [step]) = mainStep signals (mainLoop signals before) step :=
  run_append _ _ before [step]

/-- A job goes on without a step's result being recorded, and reports some conclusions. -/
structure Adds (job job' : Job) (new : List Conclusion) : Prop where
  grows : Grows job job'
  steps : job'.steps = job.steps
  conclusions : job'.conclusions = job.conclusions ++ new

namespace Adds

variable {a b c : Job} {new more : List Conclusion}

theorem refl (a : Job) : Adds a a [] := ⟨Grows.refl a, rfl, (List.append_nil _).symm⟩

theorem trans (hab : Adds a b new) (hbc : Adds b c more) : Adds a c (new ++ more) where
  grows := hab.grows.trans hbc.grows
  steps := hbc.steps.trans hab.steps
  conclusions := by rw [hbc.conclusions, hab.conclusions, List.append_assoc]

/-- The events stay what they are. -/
theorem of_quiet (hgrows : Grows a b) (hevents : b.events = a.events) (hsteps : b.steps = a.steps) :
    Adds a b [] :=
  ⟨hgrows, hsteps, by unfold Job.conclusions; rw [hevents, List.append_nil]⟩

theorem quiet (hab : Adds a b new) (hgrows : Grows b c) (hevents : c.events = b.events)
    (hsteps : c.steps = b.steps) : Adds a c new :=
  List.append_nil new ▸ hab.trans (of_quiet hgrows hevents hsteps)

theorem send (job : Job) (event : StepEvent) :
    Adds job (job.send event) event.conclusion.toList where
  grows := grows_send job event
  steps := rfl
  conclusions := by
    unfold Job.send Job.conclusions
    rw [List.filterMap_append]
    cases event <;> rfl

end Adds

theorem adds_noteCancellation : Adds job (job.noteCancellation signals) [] :=
  .of_quiet (grows_noteCancellation signals) noteCancellation_events noteCancellation_steps

/-- What a post reports itself; an error is left to the drain. -/
def reportedBy : Except StepError Conclusion → List Conclusion
  | .ok conclusion => [conclusion]
  | .error _ => []

variable (signals) in
theorem runOnePost_adds (job : Job) (post : PostStep) :
    Adds job (job.runOnePost signals post).1 (reportedBy (job.runOnePost signals post).2) := by
  have hstarted : Adds job (job.send (.started post.reportId)).elapse [] :=
    (Adds.send job _).quiet grows_elapse rfl rfl
  have hready : Adds job (job.send (.started post.reportId)).elapse.elapse [] :=
    hstarted.quiet grows_elapse rfl rfl
  have hskipped : Adds job
      (((job.send (.started post.reportId)).elapse.elapse.send (.skipped post.reportId)).send
        (.completed post.reportId .skipped)) [.skipped] :=
    (hready.trans (.send _ _)).trans (.send _ (.completed post.reportId .skipped))
  have hexecuting : Adds job
      ((job.send (.started post.reportId)).elapse.elapse.send (.executing post.reportId)) [] :=
    hready.trans (.send _ _)
  unfold Job.runOnePost
  dsimp only
  split
  · exact hskipped
  · split
    · exact hready
    · exact hskipped
    · split
      · exact hexecuting
      · exact hexecuting.trans (.send _ (.completed post.reportId _))

theorem reportPost_adds (job : Job) (post : PostStep) (result : Except StepError Conclusion) :
    Adds job (job.reportPost post result).1
      (if result.isOk then [] else [(job.reportPost post result).2]) := by
  obtain (_ | message) | conclusion := result
  · exact .send _ (.completed post.reportId .cancelled)
  · exact .send _ (.completed post.reportId .failure)
  · exact .refl job

variable (signals) in
/-- One turn of the drain. -/
theorem drainStep_adds (drain : Drain) (post : PostStep) :
    ∃ conclusion, Adds drain.job (drainStep signals drain post).job [conclusion] ∧
      (drainStep signals drain post).aggregate = follow drain.aggregate conclusion := by
  have hpost := adds_noteCancellation.trans
    (runOnePost_adds signals (drain.job.noteCancellation signals) post)
  unfold drainStep
  obtain ⟨⟨job, result⟩, hended⟩ : ∃ ended,
    (drain.job.noteCancellation signals).runOnePost signals post = ended := ⟨_, rfl⟩
  rw [hended] at hpost ⊢
  have hreport : Adds drain.job (job.reportPost post result).1
      [(job.reportPost post result).2] := by
    have htrans := hpost.trans (reportPost_adds job post result)
    cases result <;> exact htrans
  refine ⟨(job.reportPost post result).2, ?_, ?_⟩
  · dsimp only
    split
    · exact hreport.quiet grows_recordStepFailure (recordStepFailure_events _ _)
        (recordStepFailure_steps _ _)
    · split
      · exact hreport.quiet grows_recordJobCancelled rfl rfl
      · exact hreport
  · dsimp only
    unfold follow
    obtain ⟨conclusion, hconclusion⟩ : ∃ conclusion, (job.reportPost post result).2 = conclusion :=
      ⟨_, rfl⟩
    rw [hconclusion]
    cases conclusion <;> simp

/-- The posts account for themselves. -/
theorem drain_adds (signals : Signals) (job : Job) (posts : List PostStep) :
    ∃ new, Adds job (run (drainStep signals) ⟨job, .success⟩ posts).job new ∧
      (run (drainStep signals) ⟨job, .success⟩ posts).aggregate = worst new := by
  apply run_invariant_of_step (I := fun drain : Drain =>
    ∃ new, Adds job drain.job new ∧ drain.aggregate = worst new)
  · rintro drain post ⟨new, hadds, haggregate⟩
    obtain ⟨conclusion, hpost, hfollow⟩ := drainStep_adds signals drain post
    exact ⟨new ++ [conclusion], hadds.trans hpost, by rw [hfollow, haggregate, worst_concat]⟩
  · exact ⟨[], .refl job, rfl⟩

theorem endMain_adds {main : MainLoop} (h : Accounted main) :
    Adds main.job (endMain signals main) [] := by
  unfold endMain
  rw [h]
  dsimp only
  split
  · exact .of_quiet (grows_recordJobCancelled.trans grows_elapse) rfl rfl
  · exact adds_noteCancellation

variable (signals) in
/-- All that the posts add to a job whose main steps are over. -/
theorem drained_adds {main : MainLoop} (h : Accounted main) (posts : List PostStep) :
    ∃ new, Adds main.job
        (run (drainStep signals) ⟨(endMain signals main).emptied, .success⟩ posts).job new ∧
      (run (drainStep signals) ⟨(endMain signals main).emptied, .success⟩ posts).aggregate
        = worst new := by
  obtain ⟨new, hadds, haggregate⟩ := drain_adds signals (endMain signals main).emptied posts
  have hend : Adds main.job (endMain signals main).emptied [] :=
    (endMain_adds h).quiet ⟨le_refl _, id⟩ rfl rfl
  exact ⟨new, hend.trans hadds, haggregate⟩

/-! ### The four -/

theorem merged (signals : Signals) (steps : List Step) : Merged signals steps := by
  have hmain := accounted_mainLoop signals steps
  obtain ⟨new, hadds, haggregate⟩ :=
    drained_adds signals hmain (endMain signals (mainLoop signals steps)).posts.reverse
  have hjob := hadds.quiet (grows_noteCancellation signals) noteCancellation_events
    noteCancellation_steps
  intro result hresult
  have hmap : (mainLoop signals steps).result.map (fun conclusion =>
      merge signals (runMainAndPosts signals {} steps).1 conclusion
        (drainPostSteps signals (endMain signals (mainLoop signals steps))).aggregate) =
      .ok result := hresult
  have hdrain : (drainPostSteps signals (endMain signals (mainLoop signals steps))).aggregate =
      worst new := haggregate
  rw [hmain, hdrain] at hmap
  have hmerge := Except.ok.inj hmap
  have hconclusions : (runMainAndPosts signals {} steps).1.conclusions =
      (mainLoop signals steps).job.conclusions ++ new := hjob.conclusions
  dsimp only
  rw [← hmerge, hconclusions, worst_append]
  rfl

/-- Nothing that was reported, and no failure that was noted, is taken back. -/
structure Follows (a b : Job) : Prop where
  grows : Grows a b
  conclusions : a.conclusions <+: b.conclusions

theorem Follows.trans {a b c : Job} (hab : Follows a b) (hbc : Follows b c) : Follows a c :=
  ⟨hab.grows.trans hbc.grows, hab.conclusions.trans hbc.conclusions⟩

theorem Adds.follows {new : List Conclusion} (h : Adds job job' new) : Follows job job' :=
  ⟨h.grows, h.conclusions ▸ List.prefix_append _ _⟩

variable (signals) in
theorem follows_main {main : MainLoop} (h : Accounted main) (steps : List Step) :
    Follows main.job (run (mainStep signals) main steps).job := by
  have hkept : ∀ main' step, Accounted main' ∧ Follows main.job main'.job →
      Accounted (mainStep signals main' step) ∧
        Follows main.job (mainStep signals main' step).job := by
    rintro main' step ⟨haccounted, hfollows⟩
    obtain ⟨conclusion, ran, hconcluded, -, -⟩ :=
      mainStep_concludes signals haccounted step
    refine ⟨accounted_mainStep main' step haccounted, hfollows.trans ⟨hconcluded.grows, ?_⟩⟩
    rw [hconcluded.conclusions]
    exact List.prefix_append _ _
  exact (run_invariant_of_step hkept steps ⟨h, .refl _, List.prefix_refl _⟩).2

theorem follows_drain (drain : Drain) (posts : List PostStep) :
    Follows drain.job (run (drainStep signals) drain posts).job := by
  apply run_invariant_of_step (I := fun drain' : Drain => Follows drain.job drain'.job)
  · intro drain' post hfollows
    obtain ⟨conclusion, hadds, -⟩ := drainStep_adds signals drain' post
    exact hfollows.trans hadds.follows
  · exact (Adds.refl _).follows

/-- The running conclusion stands for what has been reported. -/
theorem afterSteps_conclusion (signals : Signals) (steps : List Step) (n : ℕ) :
    (afterSteps signals steps n).conclusion =
      .ok (worst (afterSteps signals steps n).job.conclusions) := by
  unfold afterSteps
  split
  · exact accounted_mainLoop signals _
  · have hmain := accounted_mainLoop signals steps
    obtain ⟨new, hadds, haggregate⟩ := drained_adds signals hmain
      ((endMain signals (mainLoop signals steps)).posts.reverse.take (n - steps.length))
    dsimp only
    rw [hmain, haggregate, hadds.conclusions, ← worst_pair]
    rfl

theorem afterSteps_follows (signals : Signals) (steps : List Step) {m n : ℕ} (hle : m ≤ n) :
    Follows (afterSteps signals steps m).job (afterSteps signals steps n).job := by
  unfold afterSteps
  by_cases hm : m ≤ steps.length <;> by_cases hn : n ≤ steps.length
  · rw [if_pos hm, if_pos hn]
    obtain ⟨k, rfl⟩ := Nat.exists_eq_add_of_le hle
    have hmain := follows_main signals (accounted_mainLoop signals (steps.take m))
      ((steps.drop m).take k)
    have hrun : mainLoop signals (steps.take (m + k)) =
        run (mainStep signals) (mainLoop signals (steps.take m)) ((steps.drop m).take k) := by
      rw [List.take_add]
      exact run_append _ _ _ _
    rw [hrun]
    exact hmain
  · rw [if_pos hm, if_neg hn]
    have hmain := follows_main signals (accounted_mainLoop signals (steps.take m)) (steps.drop m)
    have hrun : mainLoop signals steps =
        run (mainStep signals) (mainLoop signals (steps.take m)) (steps.drop m) := by
      conv_lhs => rw [← List.take_append_drop m steps]
      exact run_append _ _ _ _
    obtain ⟨new, hadds, -⟩ := drained_adds signals (accounted_mainLoop signals steps)
      ((endMain signals (mainLoop signals steps)).posts.reverse.take (n - steps.length))
    rw [← hrun] at hmain
    exact hmain.trans hadds.follows
  · omega
  · rw [if_neg hm, if_neg hn]
    obtain ⟨k, hk⟩ := Nat.exists_eq_add_of_le (Nat.sub_le_sub_right hle steps.length)
    dsimp only
    rw [hk, List.take_add, run_append]
    exact follows_drain _ _

theorem failureStays (signals : Signals) (steps : List Step) : FailureStays signals steps where
  conclusion m n hle hm hn := by
    rw [afterSteps_conclusion] at hm hn
    have hstarts := (afterSteps_follows signals steps hle).conclusions
    have hm := Except.ok.inj hm
    have hn := Except.ok.inj hn
    have hseen := failure_mem_of_worst hm
    exact worst_ne_success (hstarts.subset hseen) hn
  status m n hle hm := by
    have hdoomed : Doomed signals (afterSteps signals steps m).job := by
      unfold Doomed
      rw [hm]
      nofun
    exact hdoomed.grows (afterSteps_follows signals steps hle).grows

/-- What a name's record is after the step of that name. -/
theorem record_steps (job : Job) {name : Str} (hname : step.expressionName = some name)
    (outcome conclusion : Conclusion) :
    ((job.recordOutcome step outcome).recordConclusion step conclusion).steps name =
      ⟨some outcome, some conclusion⟩ := by
  unfold Job.recordConclusion Job.recordOutcome
  rw [hname]
  simp [Job.setStepConclusion, Job.setStepOutcome]

theorem record_steps_of_ne (job : Job) {name : Str} (hname : step.expressionName ≠ some name)
    (outcome conclusion : Conclusion) :
    ((job.recordOutcome step outcome).recordConclusion step conclusion).steps name =
      job.steps name := by
  unfold Job.recordConclusion Job.recordOutcome
  cases hstep : step.expressionName with
  | none => rfl
  | some other =>
    have hne : name ≠ other := fun heq => hname (hstep.trans (congrArg some heq.symm))
    simp [Job.setStepConclusion, Job.setStepOutcome, hne]

theorem recordConclusion_outcome (job : Job) (name : Str) :
    ((job.recordConclusion step conclusion).steps name).outcome = (job.steps name).outcome := by
  unfold Job.recordConclusion
  split
  case h_1 other _ =>
    by_cases hname : name = other
    · simp [Job.setStepConclusion, hname]
    · simp [Job.setStepConclusion, hname]
  case h_2 => rfl

/-- Whatever is to become of a failure, the outcome is recorded alike. -/
theorem runSingleStep_outcome (job : Job) (step : Step) (flag : Bool) (name : Str) :
    ((job.runSingleStep signals { step with continueOnError := flag }).1.steps name).outcome =
      ((job.runSingleStep signals step).1.steps name).outcome := by
  unfold Job.runSingleStep
  split
  · rfl
  dsimp only
  obtain ⟨answer, hanswer⟩ : ∃ answer,
    (step.env.bind fun _ => job.elapse.evaluateCondition signals step) = answer := ⟨_, rfl⟩
  have hflag : (step.env.bind fun _ =>
    job.elapse.evaluateCondition signals { step with continueOnError := flag }) = answer := hanswer
  rw [hanswer, hflag]
  obtain e | _ | _ := answer
  · rfl
  · rfl
  · dsimp only
    rw [concluded_executeStartedStep.steps, concluded_executeStartedStep.steps,
      recordConclusion_outcome, recordConclusion_outcome]
    rfl

theorem mainStep_steps (main : MainLoop) (step : Step) (h : Accounted main) :
    (mainStep signals main step).job.steps =
      ((main.job.noteCancellation signals).runSingleStep signals step).1.steps := by
  unfold mainStep
  rw [h]
  dsimp only
  split
  · rename_i hended
    rw [hended]
  · rename_i hended
    rw [hended]
    split <;> rfl

variable (signals) in
/-- Steps of other names leave a record alone. -/
theorem mainSteps_kept {main : MainLoop} (h : Accounted main) {steps : List Step} {name : Str}
    (hother : ∀ step ∈ steps, step.expressionName ≠ some name) :
    (run (mainStep signals) main steps).job.steps name = main.job.steps name := by
  induction steps generalizing main with
  | nil => rfl
  | cons step steps ih =>
    obtain ⟨conclusion, ran, hconcluded, -, -⟩ := mainStep_concludes signals h step
    have hothers : ∀ s ∈ steps, s.expressionName ≠ some name := fun s hs =>
      hother s (List.mem_cons_of_mem _ hs)
    rw [run_cons, ih (accounted_mainStep main step h) hothers, hconcluded.steps,
      record_steps_of_ne _ (hother step List.mem_cons_self)]

theorem outcomeKept (signals : Signals) (steps : List Step) : OutcomeKept signals steps where
  same before step after hsteps flag name := by
    have hmain := accounted_mainLoop signals before
    rw [mainLoop_concat, mainLoop_concat, mainStep_steps _ _ hmain, mainStep_steps _ _ hmain,
      runSingleStep_outcome]
  adjusted before step after hsteps name hname := by
    obtain ⟨conclusion, ran, hconcluded, -, -⟩ :=
      mainStep_concludes signals (accounted_mainLoop signals before) step
    rw [mainLoop_concat, hconcluded.steps, record_steps _ hname]
    cases ran with
    | false => exact ⟨conclusion, .inl rfl⟩
    | true =>
      refine ⟨step.outcome, ?_⟩
      rw [hconcluded.adjusted rfl, if_pos rfl]
      unfold adjust
      split
      case isTrue hfailed => exact .inr ⟨hfailed.1, hfailed.2, rfl⟩
      case isFalse => exact .inl rfl
  kept before after hsteps name hother := by
    have hmain : (mainLoop signals steps).job.steps name =
        (mainLoop signals before).job.steps name := by
      rw [hsteps]
      have hrun := mainSteps_kept signals (accounted_mainLoop signals before) hother
      rw [← hrun]
      exact congrArg (fun main : MainLoop => main.job.steps name) (run_append _ _ _ _)
    obtain ⟨new, hadds, -⟩ := drained_adds signals (accounted_mainLoop signals steps)
      (endMain signals (mainLoop signals steps)).posts.reverse
    have hjob := hadds.quiet (grows_noteCancellation signals) noteCancellation_events
      noteCancellation_steps
    exact (congrFun hjob.steps name).trans hmain

/-- A failure that has been reported is one that `success()` sees. -/
theorem doomed_of_failure (signals : Signals) (steps : List Step)
    (h : .failure ∈ (mainLoop signals steps).job.conclusions) :
    Doomed signals (mainLoop signals steps).job := by
  have hkept : ∀ main step,
      Accounted main ∧ (.failure ∈ main.job.conclusions → Doomed signals main.job) →
      Accounted (mainStep signals main step) ∧
        (.failure ∈ (mainStep signals main step).job.conclusions →
          Doomed signals (mainStep signals main step).job) := by
    rintro main step ⟨haccounted, hseen⟩
    obtain ⟨conclusion, ran, hconcluded, -, -⟩ := mainStep_concludes signals haccounted step
    refine ⟨accounted_mainStep main step haccounted, fun hfailure => ?_⟩
    rw [hconcluded.conclusions] at hfailure
    rcases List.mem_append.mp hfailure with hbefore | hnow
    · exact (hseen hbefore).grows hconcluded.grows
    · exact hconcluded.doomed (List.mem_singleton.mp hnow).symm
  have hrun : Accounted (mainLoop signals steps) ∧
      (.failure ∈ (mainLoop signals steps).job.conclusions →
        Doomed signals (mainLoop signals steps).job) :=
    run_invariant_of_step hkept steps ⟨rfl, fun hnone => absurd hnone List.not_mem_nil⟩
  exact hrun.2 h

theorem defaultSkips (signals : Signals) (steps : List Step) : DefaultSkips signals steps := by
  intro before step after hsteps hdefault hfailure
  have hdoomed := doomed_of_failure signals before hfailure
  obtain ⟨conclusion, ran, hconcluded, -, hran⟩ :=
    mainStep_concludes signals (accounted_mainLoop signals before) step
  rw [mainLoop_concat, hconcluded.executed, hran hdefault hdoomed]
  exact List.append_nil _

end

/-- Whatever its steps are and whenever it is ended, a job's result is the worst of what its steps
    have concluded with, and of its end. -/
theorem job_result (signals : Signals) (steps : List Step) :
    Merged signals steps ∧ FailureStays signals steps ∧ OutcomeKept signals steps ∧
      DefaultSkips signals steps :=
  ⟨merged signals steps, failureStays signals steps, outcomeKept signals steps,
    defaultSkips signals steps⟩

end GhRunner.Execution
