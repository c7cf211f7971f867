import GhRunner.Listener.Forwarder

namespace GhRunner.Listener

open Text

/-!
# Where the forwarded lines end up

* `linesFor`, `uploadsOf` — the lines each uploader is to get of the journal's events;
* `extended_handle`, `foldl_handle_uploads` — one event, and all of them, with the uploaders in the middle
  of their steps;
* `forwarder_journal` — the combined log, the uploads and the recorded events of a whole run.
-/

/-- A line the uploaders and the log may get, as the masker prints it then. -/
def maskedLine : Moment × RunnerEvent → Option Str
  | (m, .log _ line) => some (m.mask line)
  | _ => none

/-- The lines an uploader of the step gets that is registered when these events come: up to the step's
    completion, unless it is setup's, and up to where the step is started anew. -/
def linesFor (setup stepId : Str) : List (Moment × RunnerEvent) → List Str
  | [] => []
  | (m, .log id line) :: rest =>
    if id = stepId then m.mask line :: linesFor setup stepId rest else linesFor setup stepId rest
  | (_, .stepStarted id _ _) :: rest => if id = stepId then [] else linesFor setup stepId rest
  | (_, .stepCompleted id _) :: rest =>
    if id = stepId ∧ id ≠ setup then [] else linesFor setup stepId rest
  | _ :: rest => linesFor setup stepId rest

/-- The uploaders these events start, each with the lines it gets. -/
def uploadsOf (setup : Str) : List (Moment × RunnerEvent) → List Upload
  | [] => []
  | (_, .stepStarted id name _) :: rest => ⟨id, name, linesFor setup id rest⟩ :: uploadsOf setup rest
  | _ :: rest => uploadsOf setup rest

/-- The lines with this step's id. -/
def linesTo (stepId : Str) : List (Moment × RunnerEvent) → List Str
  | [] => []
  | (m, .log id line) :: rest =>
    if id = stepId then m.mask line :: linesTo stepId rest else linesTo stepId rest
  | _ :: rest => linesTo stepId rest

def completes (stepId : Str) : RunnerEvent → Bool
  | .stepCompleted id _ => id = stepId
  | _ => false

/-- An engine's line that the masker prints, whatever its step. -/
def Arrival.line (a : Arrival) : Option Str := maskedLine (a.moment, a.event)

/-- An engine's line for the set-up. -/
def Arrival.setupLine (setup : Str) (a : Arrival) : Option Str :=
  match a.event with
  | .log stepId line =>
    if stepId = setupStepId ∨ stepId = setup then some (a.moment.mask line) else none
  | _ => none

/-! ### What the journal gets of some events -/

section Journal

variable (cfg : FwdConfig) (j : Journal)

@[simp] theorem sendToUploader_jobLog (stepId masked : Str) :
    (j.sendToUploader stepId masked).jobLog = j.jobLog := by
  unfold Journal.sendToUploader
  split <;> rfl

@[simp] theorem sendToUploader_recorded (stepId masked : Str) :
    (j.sendToUploader stepId masked).recorded = j.recorded := by
  unfold Journal.sendToUploader
  split <;> rfl

@[simp] theorem sendToUploader_uploaders (stepId masked : Str) :
    (j.sendToUploader stepId masked).uploaders = j.uploaders := by
  unfold Journal.sendToUploader
  split <;> rfl

/-- The live log has no say in anything but itself. -/
theorem forwardLiveLine_frame (send : LiveSend) (stepId masked : Str) :
    (j.forwardLiveLine cfg send stepId masked).jobLog = j.jobLog ∧
      (j.forwardLiveLine cfg send stepId masked).recorded = j.recorded ∧
      (j.forwardLiveLine cfg send stepId masked).uploaders = j.uploaders ∧
      (j.forwardLiveLine cfg send stepId masked).uploads = j.uploads := by
  unfold Journal.forwardLiveLine
  split
  · cases send <;> exact ⟨rfl, rfl, rfl, rfl⟩
  · exact ⟨rfl, rfl, rfl, rfl⟩

@[simp] theorem spawnStepUploader_jobLog (stepId stepName : Str) :
    (j.spawnStepUploader cfg stepId stepName).jobLog = j.jobLog := by
  unfold Journal.spawnStepUploader
  split <;> rfl

@[simp] theorem spawnStepUploader_recorded (stepId stepName : Str) :
    (j.spawnStepUploader cfg stepId stepName).recorded = j.recorded := by
  unfold Journal.spawnStepUploader
  split <;> rfl

theorem handle_recorded (e : Moment × RunnerEvent) :
    (j.handle cfg e).recorded = j.recorded ++ [e.2] := by
  obtain ⟨m, event⟩ := e
  cases event with
  | log stepId line =>
    refine (forwardLiveLine_frame cfg _ m.live stepId (m.mask line)).2.1.trans ?_
    rw [sendToUploader_recorded]
    rfl
  | stepStarted stepId name _ => exact spawnStepUploader_recorded cfg _ stepId name
  | stepSummary | stepCompleted =>
    unfold Journal.handle Journal.handleEventArm
    dsimp only
    split <;> rfl
  | _ => rfl

theorem handle_jobLog (e : Moment × RunnerEvent) :
    (j.handle cfg e).jobLog = j.jobLog ++ (maskedLine e).toList := by
  obtain ⟨m, event⟩ := e
  cases event with
  | log stepId line =>
    refine (forwardLiveLine_frame cfg _ m.live stepId (m.mask line)).1.trans ?_
    rw [sendToUploader_jobLog]
    rfl
  | stepStarted stepId name _ =>
    refine (spawnStepUploader_jobLog cfg _ stepId name).trans ?_
    exact (List.append_nil _).symm
  | stepSummary | stepCompleted =>
    unfold Journal.handle Journal.handleEventArm
    dsimp only
    split <;> exact (List.append_nil _).symm
  | _ => exact (List.append_nil _).symm

theorem foldl_handle_recorded (es : List (Moment × RunnerEvent)) :
    (es.foldl (Journal.handle cfg) j).recorded = j.recorded ++ es.map Prod.snd := by
  induction es generalizing j with
  | nil => simp
  | cons e rest ih => simp [ih, handle_recorded]

theorem foldl_handle_jobLog (es : List (Moment × RunnerEvent)) :
    (es.foldl (Journal.handle cfg) j).jobLog = j.jobLog ++ es.filterMap maskedLine := by
  induction es generalizing j with
  | nil => simp
  | cons e rest ih =>
    rw [List.foldl_cons, ih, handle_jobLog, List.append_assoc]
    cases h : maskedLine e <;> simp [h]

end Journal

/-! ### The uploaders -/

section Uploads

variable {setup : Str} {live : Bool}

/-- Each uploader is registered under its own step. -/
def Registered (j : Journal) : Prop :=
  ∀ stepId n, j.uploaders.lookup stepId = some n → ∃ u, j.uploads[n]? = some u ∧ u.stepId = stepId

/-- The lines that the upload is still to get, if its step's lines go there. -/
def owed (setup : Str) (j : Journal) (es : List (Moment × RunnerEvent)) (n : ℕ) (stepId : Str) :
    List Str :=
  if j.uploaders.lookup stepId = some n then linesFor setup stepId es else []

/-- The uploads, each with those lines. -/
def extended (setup : Str) (j : Journal) (es : List (Moment × RunnerEvent)) : List Upload :=
  j.uploads.mapIdx fun n u => ⟨u.stepId, u.stepName, u.lines ++ owed setup j es n u.stepId⟩

theorem getElem?_extended (j : Journal) (es : List (Moment × RunnerEvent)) (n : ℕ) :
    (extended setup j es)[n]? = j.uploads[n]?.map fun u =>
      ⟨u.stepId, u.stepName, u.lines ++ owed setup j es n u.stepId⟩ :=
  List.getElem?_mapIdx

theorem extended_congr {j j' : Journal} {es es' : List (Moment × RunnerEvent)}
    (huploads : j'.uploads = j.uploads)
    (h : ∀ n u, j.uploads[n]? = some u →
      owed setup j' es n u.stepId = owed setup j es' n u.stepId) :
    extended setup j' es = extended setup j es' := by
  apply List.ext_getElem?
  intro n
  rw [getElem?_extended, getElem?_extended, huploads]
  cases hu : j.uploads[n]? with
  | none => rfl
  | some u =>
    show some (Upload.mk _ _ (u.lines ++ owed setup j' es n u.stepId)) = _
    rw [h n u hu]
    rfl

/-- A started step has a new uploader, and its old one gets nothing more. -/
theorem extended_start (j : Journal) (m : Moment) (stepId stepName : Str) (number : ℕ)
    (es : List (Moment × RunnerEvent)) :
    extended setup (j.spawnStepUploader (reporting setup true live) stepId stepName) es =
      extended setup j ((m, .stepStarted stepId stepName number) :: es) ++
        [⟨stepId, stepName, linesFor setup stepId es⟩] := by
  have howed (n : ℕ) (id : Str) (h : n < j.uploads.length) :
      owed setup (j.spawnStepUploader (reporting setup true live) stepId stepName) es n id =
        owed setup j ((m, .stepStarted stepId stepName number) :: es) n id := by
    show (if (j.uploaders.insert stepId j.uploads.length).lookup id = some n then
        linesFor setup id es else []) =
      if j.uploaders.lookup id = some n then
        (if stepId = id then [] else linesFor setup id es) else []
    by_cases hstep : stepId = id
    · -- the new uploader is behind all of these
      have hother : some j.uploads.length ≠ some n := fun h => by
        rw [Option.some.injEq] at h
        omega
      rw [hstep, Finmap.lookup_insert, if_neg hother, if_pos rfl, ite_self]
    · rw [Finmap.lookup_insert_of_ne _ (Ne.symm hstep), if_neg hstep]
  have hlast : owed setup (j.spawnStepUploader (reporting setup true live) stepId stepName) es
      (0 + j.uploads.length) stepId = linesFor setup stepId es := by
    refine if_pos ?_
    rw [Nat.zero_add]
    exact Finmap.lookup_insert _
  unfold extended
  show (j.uploads ++ [Upload.mk stepId stepName []]).mapIdx _ = _
  rw [List.mapIdx_append]
  congr 1
  · apply List.ext_getElem?
    intro n
    rw [List.getElem?_mapIdx, List.getElem?_mapIdx]
    cases hu : j.uploads[n]? with
    | none => rfl
    | some u =>
      show some (Upload.mk _ _ (u.lines ++ owed _ _ es n u.stepId)) = _
      rw [howed n u.stepId (List.getElem?_eq_some_iff.mp hu).1]
      rfl
  · show [Upload.mk _ _ ([] ++ owed _ _ es (0 + j.uploads.length) stepId)] = _
    rw [hlast, List.nil_append]

/-- A line with its step's uploader is the first of those it is still to get. -/
theorem extended_log {j : Journal} (hreg : Registered j) (m : Moment) (stepId line : Str)
    (es : List (Moment × RunnerEvent)) :
    extended setup (j.sendToUploader stepId (m.mask line)) es =
      extended setup j ((m, .log stepId line) :: es) := by
  have hcons (n : ℕ) (id : Str) : owed setup j ((m, .log stepId line) :: es) n id =
      if j.uploaders.lookup id = some n then
        (if stepId = id then m.mask line :: linesFor setup id es else linesFor setup id es) else [] := rfl
  -- another step's uploader gets as much as before
  have hother (n : ℕ) (id : Str) (h : j.uploaders.lookup stepId ≠ some n) :
      owed setup j es n id = owed setup j ((m, .log stepId line) :: es) n id := by
    rw [hcons]
    by_cases hstep : stepId = id
    · rw [← hstep, if_neg h]
      exact if_neg h
    · rw [if_neg hstep]
      rfl
  cases hlookup : j.uploaders.lookup stepId with
  | none =>
    have hsame : j.sendToUploader stepId (m.mask line) = j := by
      unfold Journal.sendToUploader
      rw [hlookup]
    rw [hsame]
    refine extended_congr rfl fun n u _ => hother n u.stepId ?_
    rw [hlookup]
    exact (Option.some_ne_none n).symm
  | some k =>
    obtain ⟨v, hv, hid⟩ := hreg stepId k hlookup
    have hsent : j.sendToUploader stepId (m.mask line) =
        { j with uploads := j.uploads.modify k fun u => { u with lines := u.lines ++ [m.mask line] } } := by
      unfold Journal.sendToUploader
      rw [hlookup]
    rw [hsent]
    apply List.ext_getElem?
    intro n
    rw [getElem?_extended, getElem?_extended, List.getElem?_modify]
    cases hu : j.uploads[n]? with
    | none => rfl
    | some u =>
      by_cases hk : k = n
      · -- the uploader that takes it
        obtain rfl : u = v := Option.some.inj (hu.symm.trans (hk ▸ hv))
        have hget : j.uploaders.lookup u.stepId = some n := by rw [hid, hlookup, hk]
        have hrest : owed setup j es n u.stepId = linesFor setup u.stepId es := if_pos hget
        have hall : owed setup j ((m, .log stepId line) :: es) n u.stepId =
            m.mask line :: linesFor setup u.stepId es := by
          rw [hcons, if_pos hget, if_pos hid.symm]
        simp only [Option.map_eq_map, Option.map_some, if_pos hk]
        show some (Upload.mk _ _ (u.lines ++ [m.mask line] ++ owed setup j es n u.stepId)) = _
        rw [hall, hrest, List.append_assoc]
        rfl
      · have hne : j.uploaders.lookup stepId ≠ some n := by
          rw [hlookup]
          exact fun h => hk (Option.some.inj h)
        simp only [Option.map_eq_map, Option.map_some, if_neg hk]
        show some (Upload.mk _ _ (u.lines ++ owed setup j es n u.stepId)) = _
        rw [hother n u.stepId hne]

/-- A completed step's uploader gets nothing more, unless it is setup's. -/
theorem extended_complete (j : Journal) (m : Moment) (stepId : Str) (conclusion : Conclusion)
    (es : List (Moment × RunnerEvent)) :
    extended setup (j.handleEventArm (reporting setup true live) m (.stepCompleted stepId conclusion)) es =
      extended setup j ((m, .stepCompleted stepId conclusion) :: es) := by
  have hcons (n : ℕ) (id : Str) : owed setup j ((m, .stepCompleted stepId conclusion) :: es) n id =
      if j.uploaders.lookup id = some n then
        (if stepId = id ∧ stepId ≠ setup then [] else linesFor setup id es) else [] := rfl
  unfold Journal.handleEventArm
  dsimp only
  split
  case isTrue hne =>
    have hne : stepId ≠ setup := fun h => hne (congrArg some h.symm)
    refine extended_congr rfl fun n u _ => ?_
    rw [hcons]
    by_cases hstep : stepId = u.stepId
    · have hends : stepId = u.stepId ∧ stepId ≠ setup := ⟨hstep, hne⟩
      rw [if_pos hends, ite_self, ← hstep]
      refine if_neg ?_
      rw [Finmap.lookup_erase]
      exact (Option.some_ne_none n).symm
    · have hgoes : ¬(stepId = u.stepId ∧ stepId ≠ setup) := fun h => hstep h.1
      rw [if_neg hgoes]
      unfold owed
      rw [Finmap.lookup_erase_ne (Ne.symm hstep)]
  case isFalse heq =>
    have heq : stepId = setup := (Option.some.inj (not_not.mp heq)).symm
    refine extended_congr rfl fun n u _ => ?_
    have hkept : ¬(stepId = u.stepId ∧ stepId ≠ setup) := fun h => h.2 heq
    rw [hcons, if_neg hkept]
    rfl

theorem registered_handle {j : Journal} (hreg : Registered j) (e : Moment × RunnerEvent) :
    Registered (j.handle (reporting setup true live) e) := by
  obtain ⟨m, event⟩ := e
  cases event with
  | stepStarted stepId name number =>
    intro id n hid
    by_cases hstep : id = stepId
    · -- the uploader is at the end
      have hn : n = j.uploads.length := by
        have hlookup : (j.uploaders.insert stepId j.uploads.length).lookup stepId = some n := hstep ▸ hid
        rw [Finmap.lookup_insert] at hlookup
        exact (Option.some.inj hlookup).symm
      refine ⟨⟨stepId, name, []⟩, ?_, hstep.symm⟩
      rw [hn]
      exact List.getElem?_concat_length
    · have hlookup : (j.uploaders.insert stepId j.uploads.length).lookup id = some n := hid
      rw [Finmap.lookup_insert_of_ne _ hstep] at hlookup
      obtain ⟨u, hu, hiu⟩ := hreg id n hlookup
      refine ⟨u, ?_, hiu⟩
      exact (List.getElem?_append_left (List.getElem?_eq_some_iff.mp hu).1).trans hu
  | log stepId line =>
    obtain ⟨-, -, huploaders, huploads⟩ := forwardLiveLine_frame (reporting setup true live)
      ({ j.record (.log stepId line) with jobLog := j.jobLog ++ [m.mask line] }.sendToUploader stepId
        (m.mask line)) m.live stepId (m.mask line)
    intro id n hid
    have hlookup : j.uploaders.lookup id = some n := by
      have hid := (congrArg (fun t => Finmap.lookup id t) huploaders).symm.trans hid
      rwa [sendToUploader_uploaders] at hid
    obtain ⟨u, hu, hiu⟩ := hreg id n hlookup
    have hsent : ∃ v, ({ j.record (.log stepId line) with jobLog := j.jobLog ++ [m.mask line] }.sendToUploader
        stepId (m.mask line)).uploads[n]? = some v ∧ v.stepId = u.stepId := by
      unfold Journal.sendToUploader
      split
      case h_1 k hk =>
        refine ⟨if k = n then { u with lines := u.lines ++ [m.mask line] } else u, ?_, ?_⟩
        · show (j.uploads.modify k _)[n]? = _
          rw [List.getElem?_modify, hu]
          rfl
        · split <;> rfl
      case h_2 => exact ⟨u, hu, rfl⟩
    obtain ⟨v, hv, hiv⟩ := hsent
    exact ⟨v, (congrArg (fun l : List Upload => l[n]?) huploads).trans hv, hiv.trans hiu⟩
  | stepCompleted stepId conclusion =>
    unfold Journal.handle Journal.handleEventArm
    dsimp only
    split
    case isTrue =>
      intro id n hid
      have hlookup : (j.uploaders.erase stepId).lookup id = some n := hid
      by_cases hstep : id = stepId
      · rw [hstep, Finmap.lookup_erase] at hlookup
        exact absurd hlookup.symm (Option.some_ne_none n)
      · rw [Finmap.lookup_erase_ne hstep] at hlookup
        exact hreg id n hlookup
    case isFalse => exact hreg
  | _ => exact hreg

/-- One event, and those that come after it. -/
theorem extended_handle {j : Journal} (hreg : Registered j) (e : Moment × RunnerEvent)
    (es : List (Moment × RunnerEvent)) :
    extended setup (j.handle (reporting setup true live) e) es ++ uploadsOf setup es =
      extended setup j (e :: es) ++ uploadsOf setup (e :: es) := by
  obtain ⟨m, event⟩ := e
  cases event with
  | stepStarted stepId name number =>
    show extended setup ((j.record (.stepStarted stepId name number)).spawnStepUploader
      (reporting setup true live) stepId name) es ++ _ = _
    rw [extended_start (j.record (.stepStarted stepId name number)) m stepId name number es,
      List.append_assoc]
    rfl
  | log stepId line =>
    obtain ⟨-, -, huploaders, huploads⟩ := forwardLiveLine_frame (reporting setup true live)
      ({ j.record (.log stepId line) with jobLog := j.jobLog ++ [m.mask line] }.sendToUploader stepId
        (m.mask line)) m.live stepId (m.mask line)
    have hlive : extended setup (j.handle (reporting setup true live) (m, .log stepId line)) es =
        extended setup ({ j.record (.log stepId line) with
          jobLog := j.jobLog ++ [m.mask line] }.sendToUploader stepId (m.mask line)) es := by
      refine extended_congr huploads fun n u _ => ?_
      unfold owed
      exact congrArg (fun t => if Finmap.lookup u.stepId t = some n then linesFor setup u.stepId es else [])
        huploaders
    have hreg : Registered { j.record (.log stepId line) with jobLog := j.jobLog ++ [m.mask line] } := hreg
    rw [hlive, extended_log hreg m stepId line es]
    rfl
  | stepCompleted stepId conclusion =>
    exact congrArg (· ++ uploadsOf setup es)
      (extended_complete (j.record (.stepCompleted stepId conclusion)) m stepId conclusion es)
  | _ => rfl

/-- Each uploader gets what it is to get. -/
theorem foldl_handle_uploads {j : Journal} (hreg : Registered j) (es : List (Moment × RunnerEvent)) :
    (es.foldl (Journal.handle (reporting setup true live)) j).uploads =
      extended setup j es ++ uploadsOf setup es := by
  induction es generalizing j with
  | nil =>
    show _ = j.uploads.mapIdx _ ++ []
    rw [List.append_nil]
    apply List.ext_getElem?
    intro n
    rw [List.getElem?_mapIdx]
    cases hu : j.uploads[n]? with
    | none => exact hu
    | some u =>
      show _ = some (Upload.mk _ _ (u.lines ++ owed setup j [] n u.stepId))
      have hnone : owed setup j [] n u.stepId = [] := ite_self _
      rw [hnone, List.append_nil]
      exact hu
  | cons e rest ih =>
    rw [← extended_handle hreg e rest]
    exact ih (registered_handle hreg e)

/-- Without a Results Service there are no uploaders. -/
theorem foldl_handle_uploads_absent {j : Journal} (h : j.uploads = []) (es : List (Moment × RunnerEvent)) :
    (es.foldl (Journal.handle (reporting setup false live)) j).uploads = [] := by
  induction es generalizing j with
  | nil => exact h
  | cons e rest ih =>
    refine ih ?_
    obtain ⟨m, event⟩ := e
    cases event with
    | log stepId line =>
      refine (forwardLiveLine_frame (reporting setup false live) _ m.live stepId (m.mask line)).2.2.2.trans ?_
      unfold Journal.sendToUploader
      split
      case h_1 k _ =>
        show j.uploads.modify k _ = []
        rw [h]
        exact List.modify_nil ..
      case h_2 => exact h
    | stepCompleted stepId conclusion =>
      unfold Journal.handle Journal.handleEventArm
      dsimp only
      split <;> exact h
    | _ => exact h

end Uploads

/-! ### The lines of the events -/

section Lines

variable (setup : Str)

@[simp] theorem maskedLine_addressed (pending : Bool) (a : Arrival) :
    maskedLine (addressed setup pending a) = a.line := by
  obtain ⟨event, m, cancelled, taken⟩ := a
  cases event with
  | log stepId line =>
    unfold addressed
    dsimp only
    split <;> rfl
  | _ => rfl

@[simp] theorem completes_addressed (pending : Bool) (a : Arrival) :
    completes setup (addressed setup pending a).2 = completes setup a.event := by
  obtain ⟨event, m, cancelled, taken⟩ := a
  cases event with
  | log stepId line =>
    unfold addressed
    dsimp only
    split <;> rfl
  | _ => rfl

theorem early_append_late (arrivals : List Arrival) : early arrivals ++ late arrivals = arrivals :=
  List.takeWhile_append_dropWhile

theorem filterMap_journalled (lines : List (Moment × Str)) (arrivals : List Arrival) :
    (journalled setup lines arrivals).filterMap maskedLine =
      lines.map (fun line => line.1.mask line.2) ++ arrivals.filterMap Arrival.line := by
  have hpart (pending : Bool) (part : List Arrival) :
      (part.map (addressed setup pending)).filterMap maskedLine = part.filterMap Arrival.line := by
    rw [List.filterMap_map]
    exact List.filterMap_congr fun a _ => maskedLine_addressed setup pending a
  have hopening : (opening setup lines).filterMap maskedLine = lines.map fun line => line.1.mask line.2 := by
    show (lines.map fun line => (line.1, RunnerEvent.log setup line.2)).filterMap maskedLine = _
    rw [List.filterMap_map, ← List.filterMap_eq_map]
    rfl
  have hcompletion : (fromCompletion setup (late arrivals)).filterMap maskedLine =
      (late arrivals).filterMap Arrival.line := hpart false (late arrivals)
  unfold journalled
  rw [List.filterMap_append, List.filterMap_append, hopening, hpart, hcompletion, ← List.filterMap_append,
    early_append_late]

/-- A registered uploader of setup, and those that follow it, get all of setup's lines between them. -/
theorem linesFor_append_uploadsOf (es : List (Moment × RunnerEvent)) :
    linesFor setup setup es ++ ((uploadsOf setup es).filter (·.stepId = setup)).flatMap Upload.lines =
      linesTo setup es := by
  induction es with
  | nil => rfl
  | cons e rest ih =>
    obtain ⟨m, event⟩ := e
    cases event with
    | log stepId line =>
      show (if stepId = setup then _ else _) ++ _ = if stepId = setup then _ else _
      by_cases h : stepId = setup
      · rw [if_pos h, if_pos h, ← ih]
        rfl
      · rw [if_neg h, if_neg h]
        exact ih
    | stepStarted stepId name number =>
      show (if stepId = setup then [] else linesFor setup setup rest) ++
        ((Upload.mk stepId name (linesFor setup stepId rest) :: uploadsOf setup rest).filter
          (·.stepId = setup)).flatMap Upload.lines = linesTo setup rest
      by_cases h : stepId = setup
      · -- the uploader that was registered gives way to this one
        rw [if_pos h, List.filter_cons_of_pos (by simp [h]), ← ih, h]
        rfl
      · rw [if_neg h, List.filter_cons_of_neg (by simp [h])]
        exact ih
    | stepCompleted stepId conclusion =>
      have hkept : ¬(stepId = setup ∧ stepId ≠ setup) := fun h => h.2 h.1
      show (if stepId = setup ∧ stepId ≠ setup then [] else linesFor setup setup rest) ++ _ = _
      rw [if_neg hkept]
      exact ih
    | _ => exact ih

theorem linesTo_append (es es' : List (Moment × RunnerEvent)) :
    linesTo setup (es ++ es') = linesTo setup es ++ linesTo setup es' := by
  induction es with
  | nil => rfl
  | cons e rest ih =>
    obtain ⟨m, event⟩ := e
    cases event with
    | log stepId line =>
      show (if stepId = setup then _ else _) = (if stepId = setup then _ else _) ++ _
      split
      · exact congrArg (m.mask line :: ·) ih
      · exact ih
    | _ => exact ih

theorem linesTo_opening (lines : List (Moment × Str)) :
    linesTo setup (opening setup lines) = lines.map fun line => line.1.mask line.2 := by
  show linesTo setup (lines.map fun line => (line.1, RunnerEvent.log setup line.2)) = _
  induction lines with
  | nil => rfl
  | cons line rest ih =>
    show (if setup = setup then _ else _) = _
    rw [if_pos rfl, ih]
    rfl

/-- While setup is pending, every line is its line. -/
theorem linesTo_early (arrivals : List Arrival) :
    linesTo setup (arrivals.map (addressed setup true)) = arrivals.filterMap Arrival.line := by
  induction arrivals with
  | nil => rfl
  | cons a rest ih =>
    obtain ⟨event, m, cancelled, taken⟩ := a
    cases event with
    | log stepId line =>
      have haddressed : addressed setup true ⟨.log stepId line, m, cancelled, taken⟩ = (m, .log setup line) :=
        congrArg (Prod.mk m) (if_pos (.inr rfl))
      rw [List.map_cons, haddressed]
      show (if setup = setup then _ else _) = _
      rw [if_pos rfl, ih]
      rfl
    | _ => exact ih

/-- After it, those with the reserved id or its own. -/
theorem linesTo_late (arrivals : List Arrival) :
    linesTo setup (arrivals.map (addressed setup false)) =
      arrivals.filterMap (Arrival.setupLine setup) := by
  induction arrivals with
  | nil => rfl
  | cons a rest ih =>
    obtain ⟨event, m, cancelled, taken⟩ := a
    cases event with
    | log stepId line =>
      have haddressed : addressed setup false ⟨.log stepId line, m, cancelled, taken⟩ =
          (m, .log (if stepId = setupStepId then setup else stepId) line) := by
        unfold addressed
        by_cases h : stepId = setupStepId <;> simp [h]
      have hline : Arrival.setupLine setup ⟨.log stepId line, m, cancelled, taken⟩ =
          if stepId = setupStepId ∨ stepId = setup then some (m.mask line) else none := rfl
      rw [List.map_cons, haddressed, List.filterMap_cons, hline]
      unfold linesTo
      by_cases hreserved : stepId = setupStepId
      · simp [hreserved, ih]
      · by_cases hsetup : stepId = setup <;> simp [hreserved, hsetup, ih]
    | _ => exact ih

end Lines

/-- Every line is in the combined log once, masked, in order; each uploader gets its step's lines, with
    the lines before setup's end and those for setup at setup's; and setup is completed when a step starts,
    when the job completes or when the events end, whichever comes first, besides what the engine itself
    completes under setup's id. -/
theorem forwarder_journal (setup : Str) (url live : Bool) (lines : List (Moment × Str))
    (arrivals : List Arrival) :
    let j := (runForwarder (reporting setup url live) lines arrivals).journal
    let events := received arrivals
    j.jobLog = lines.map (fun line => line.1.mask line.2) ++ events.filterMap Arrival.line ∧
      j.uploads = (if url then uploadsOf setup (journalled setup lines events) else []) ∧
      ((j.uploads.filter (·.stepId = setup)).flatMap Upload.lines =
        if url then lines.map (fun line => line.1.mask line.2) ++ (early events).filterMap Arrival.line ++
          (late events).filterMap (Arrival.setupLine setup) else []) ∧
      j.recorded = (opening setup lines).map Prod.snd ++
        ((early events).map (fun a => (addressed setup true a).2) ++
          .stepCompleted setup (setupConclusion (late events)) ::
            (late events).map fun a => (addressed setup false a).2) ∧
      (early events).all (fun a => !endsSetup a.event) = true ∧
      j.recorded.countP (completes setup) = 1 + events.countP fun a => completes setup a.event := by
  intro j events
  have hjournal : j = (journalled setup lines events).foldl (Journal.handle (reporting setup url live)) .empty :=
    runForwarder_journal setup url live lines arrivals
  have huploads : j.uploads = if url then uploadsOf setup (journalled setup lines events) else [] := by
    rw [hjournal]
    cases url with
    | true =>
      refine (foldl_handle_uploads ?_ _).trans (List.nil_append _)
      intro stepId n h
      exact absurd h.symm (Option.some_ne_none n)
    | false => exact foldl_handle_uploads_absent rfl _
  have hrecorded : j.recorded = (opening setup lines).map Prod.snd ++
      ((early events).map (fun a => (addressed setup true a).2) ++
        .stepCompleted setup (setupConclusion (late events)) ::
          (late events).map fun a => (addressed setup false a).2) := by
    rw [hjournal, foldl_handle_recorded]
    unfold journalled fromCompletion
    simp only [Journal.empty, List.nil_append, List.map_append, List.map_map, List.map_cons]
    rfl
  refine ⟨?_, huploads, ?_, hrecorded, ?_, ?_⟩
  · rw [hjournal, foldl_handle_jobLog, filterMap_journalled]
    rfl
  · rw [huploads]
    cases url with
    | true =>
      -- setup's first uploader is started before all else
      have hall := linesFor_append_uploadsOf setup ((journalled setup lines events).tail)
      have hfirst : ((uploadsOf setup (journalled setup lines events)).filter (·.stepId = setup)) =
          ⟨setup, "Set up job".toList, linesFor setup setup (journalled setup lines events).tail⟩ ::
            (uploadsOf setup (journalled setup lines events).tail).filter (·.stepId = setup) :=
        List.filter_cons_of_pos (decide_eq_true rfl)
      have htail : linesTo setup (journalled setup lines events).tail =
          linesTo setup (journalled setup lines events) := rfl
      show ((uploadsOf setup (journalled setup lines events)).filter (·.stepId = setup)).flatMap
        Upload.lines = _
      rw [hfirst, List.flatMap_cons, hall, htail]
      unfold journalled
      rw [linesTo_append, linesTo_append, linesTo_opening, linesTo_early, List.append_assoc]
      exact congrArg _ (congrArg _ (linesTo_late setup (late events)))
    | false => rfl
  · exact List.all_takeWhile
  · have hopening : ((opening setup lines).map Prod.snd).countP (completes setup) = 0 := by
      rw [List.countP_eq_zero]
      intro event hevent
      simp only [opening, List.map_cons, List.map_map, List.mem_cons, List.mem_map] at hevent
      obtain rfl | rfl | ⟨line, -, rfl⟩ := hevent <;> exact Bool.false_ne_true
    have hpart (pending : Bool) (part : List Arrival) :
        (part.map fun a => (addressed setup pending a).2).countP (completes setup) =
          part.countP fun a => completes setup a.event := by
      rw [List.countP_map]
      exact List.countP_congr fun a _ => by simp
    have hcompletion : completes setup (.stepCompleted setup (setupConclusion (late events))) = true :=
      decide_eq_true rfl
    have hsplit : events.countP (fun a => completes setup a.event) =
        (early events).countP (fun a => completes setup a.event) +
          (late events).countP fun a => completes setup a.event := by
      rw [← List.countP_append, early_append_late]
    rw [hrecorded, List.countP_append, List.countP_append, List.countP_cons, hopening, hpart, hpart, hsplit,
      hcompletion, if_pos rfl]
    omega

/-- A completion that the engine sends under setup's id is recorded beside the forwarder's own. -/
theorem setup_completed_twice :
    ¬∀ (setup : Str) (arrivals : List Arrival),
      ((runForwarder (reporting setup false false) [] arrivals).journal.recorded.countP
        (completes setup)) = 1 := by
  intro h
  exact absurd (h ['s'] [⟨.stepCompleted ['s'] .success, .quiet, false, true⟩]) (by decide)

end GhRunner.Listener
