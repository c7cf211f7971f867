import GhRunner.Execution.WorkspaceLeases

set_option linter.unusedSectionVars false

namespace GhRunner.Execution

open Text Paths Machine

/-!
# The steps of claims and sweeps

What one step of a claim, or of a sweep, does to the tracking files, the directories and the lease
files, and what it leaves to the others.
-/

namespace WorkRoot

variable {J K : Type} [DecidableEq J] [DecidableEq K] {registrations : Registrations J K}
  {s t : WorkRoot J K} {j j' : J} {k k' : K} {fails : Bool} {name : Str}

/-! ### Claims -/

theorem setClaim_self (s : WorkRoot J K) (j : J) (state : ClaimState) :
    (s.setClaim j state).claims j = state :=
  Function.update_self _ _ _

theorem next_claims_of_ne (h : j' ≠ j) :
    (s.next registrations j fails).claims j' = s.claims j' := by
  fun_cases next
  case case24 => rw [setClaim_claims, if_neg h, (openFile_frame s _).2.1]
  all_goals first | rfl | exact Function.update_of_ne h _ _

variable (registrations s j fails) in
theorem next_tracking :
    (s.next registrations j fails).tracking = s.tracking ∨
      ∃ repository tracking, s.claims j = .saving repository tracking ∧
        (s.next registrations j fails).claims j = .leaving repository tracking ∧
        (s.next registrations j fails).tracking = s.tracking.insert repository tracking := by
  fun_cases next
  case case16 repository tracking hstate hfails =>
    exact .inr ⟨repository, tracking, hstate, Function.update_self _ _ _, rfl⟩
  case case24 => exact .inl (openFile_frame s _).1
  all_goals exact .inl rfl

theorem setDir_dirs_or (s : WorkRoot J K) (other name : Str) (mtime : Option Instant) :
    (s.setDir other mtime).dirs name = s.dirs name ∨ name = other :=
  (em (name = other)).symm.imp_left fun h => Function.update_of_ne h _ _

variable (registrations s j fails) in
theorem next_dirs (name : Str) :
    (s.next registrations j fails).dirs name = s.dirs name ∨
      (∃ repository tracking, (s.claims j).mapped = some (repository, tracking) ∧
        name = tracking.pipelineDirectory) ∨
      ((s.next registrations j fails).claims j).unborn = false ∧
        name = (registrations.job j).jobDir := by
  fun_cases next
  case case19 repository tracking hstate _ _ =>
    exact (setDir_dirs_or s tracking.pipelineDirectory name _).imp_right fun h =>
      .inl ⟨repository, tracking, by rw [hstate]; rfl, h⟩
  case case22 repository tracking hstate _ =>
    exact (setDir_dirs_or s tracking.pipelineDirectory name _).imp_right fun h =>
      .inl ⟨repository, tracking, by rw [hstate]; rfl, h⟩
  case case24 => exact .inl (congrFun (openFile_frame s _).2.2.2 name)
  case case32 hstate _ =>
    exact (setDir_dirs_or s _ name _).imp_right fun h =>
      .inr ⟨by rw [setClaim_self]; rfl, h⟩
  all_goals first | exact .inl rfl

theorem next_leaseFiles (h : name ≠ (registrations.job j).jobDir) :
    (s.next registrations j fails).leaseFiles name = s.leaseFiles name := by
  fun_cases next
  case case24 => exact (openFile_leaseFiles s _ name).trans (if_neg h)
  case case29 => exact Function.update_of_ne h _ _
  all_goals first | rfl

/-- What a claim has opened keeps its name. -/
theorem next_opened (hopened : ∀ file, (s.claims j).openedFile = some file →
      s.leaseFiles (registrations.job j).jobDir = some file) :
    ∀ file, ((s.next registrations j fails).claims j).openedFile = some file →
      (s.next registrations j fails).leaseFiles (registrations.job j).jobDir = some file := by
  fun_cases next
  case case24 =>
    rw [setClaim_self]
    rintro _ ⟨⟩
    exact (openFile_leaseFiles s _ _).trans (if_pos rfl)
  case case26 file hstate _ _ =>
    rw [hstate] at hopened
    rw [setClaim_self]
    exact hopened
  case case30 file hstate _ =>
    rw [hstate] at hopened
    rw [setClaim_self]
    exact hopened
  case case32 file hstate _ =>
    rw [hstate] at hopened
    rw [setClaim_self]
    exact hopened
  all_goals first | exact hopened | simp [endClaim, setClaim_self, ClaimState.openedFile]

theorem next_unborn (h : ((s.next registrations j fails).claims j).unborn = true) :
    (s.claims j).unborn = true := by
  cases hstate : s.claims j with
  | freshWorking file =>
    simp [next, hstate, ClaimState.unborn] at h
  | ended => simp [next, hstate, ClaimState.unborn] at h
  | _ => rfl

/-! ### Sweeps -/

@[simp] theorem setSweep_self (s : WorkRoot J K) (k : K) (sweep : Sweep) :
    (s.setSweep k sweep).sweeps k = sweep :=
  Function.update_self _ _ _

@[simp] theorem setStage_self (s : WorkRoot J K) (k : K) (stage : SweepStage) :
    (s.setStage k stage).sweeps k = { s.sweeps k with stage } :=
  Function.update_self _ _ _

theorem keepStable_stage (s : WorkRoot J K) (k : K) (tracking : TrackingConfig) :
    ((s.keepStable k tracking).sweeps k).stage = .scanning := by
  rw [keepStable, setSweep_self]

theorem sweep_sweeps_of_ne (h : k' ≠ k) :
    (s.sweep registrations k fails).sweeps k' = s.sweeps k' := by
  fun_cases sweep
  case case21 name _ _ =>
    rw [← (openFile_frame s name).2.2.1]
    exact Function.update_of_ne h _ _
  all_goals first | rfl | exact Function.update_of_ne h _ _

theorem sweep_listed :
    ((s.sweep registrations k fails).sweeps k).listed = (s.sweeps k).listed := by
  fun_cases sweep
  case case21 name _ _ => rw [setStage_self, (openFile_frame s name).2.2.1]
  all_goals first | rfl | simp only [keepStable, setStage_self, setSweep_self] <;> rfl

variable (registrations s k fails) in
theorem sweep_tracking :
    (s.sweep registrations k fails).tracking = s.tracking ∨
      ∃ repository tracking, (s.sweeps k).stage = .forgetting repository tracking ∧
        ((s.sweep registrations k fails).sweeps k).stage = .scanning ∧
        (s.sweep registrations k fails).tracking = s.tracking.erase repository := by
  fun_cases sweep
  case case13 repository tracking hstage _ =>
    exact .inr ⟨repository, tracking, hstage, by rw [setStage_self], rfl⟩
  case case21 => exact .inl (openFile_frame s _).1
  all_goals exact .inl rfl

theorem sweep_dirs (name : Str) :
    (s.sweep registrations k fails).dirs name = s.dirs name ∨
      (s.sweep registrations k fails).dirs name = none := by
  have gone (other : Str) : (s.setDir other none).dirs name = s.dirs name ∨
      (s.setDir other none).dirs name = none := by
    rw [setDir_dirs]
    split
    · exact .inr rfl
    · exact .inl rfl
  fun_cases sweep
  case case11 => exact gone _
  case case18 => exact gone _
  case case29 => exact gone _
  case case21 => exact .inl (congrFun (openFile_frame s _).2.2.2 name)
  all_goals exact .inl rfl

variable (registrations s k fails) in
/-- A lease file is made where there was one, or removed where the sweep has its lock. -/
theorem sweep_leaseFiles (name : Str) :
    (s.sweep registrations k fails).leaseFiles name = s.leaseFiles name ∨
      (s.leaseFiles name = none ∧ (s.sweeps k).stage.byLease = some name) ∨
      ∃ file, (s.sweeps k).stage = .unlinking name file := by
  fun_cases sweep
  case case21 other hstage _ =>
    rcases hfile : s.leaseFiles name with _ | file
    · by_cases h : name = other
      · exact .inr (.inl ⟨rfl, by rw [hstage, h]; rfl⟩)
      · exact .inl ((openFile_leaseFiles s _ name).trans ((if_neg h).trans hfile))
    · by_cases h : name = other
      · subst h
        exact .inl (by rw [openFile_of_some hfile]; exact hfile)
      · exact .inl ((openFile_leaseFiles s _ name).trans ((if_neg h).trans hfile))
  case case31 other file hstage _ =>
    by_cases h : name = other
    · exact .inr (.inr ⟨file, by rw [hstage, h]⟩)
    · exact .inl (Function.update_of_ne h _ _)
  all_goals exact .inl rfl

theorem sweep_entry : ∀ name,
    ((s.sweep registrations k fails).sweeps k).stage.entry = some name →
      (s.sweeps k).stage.entry = some name := by
  fun_cases sweep
  all_goals first | exact fun _ => id | simp only [setStage_self, keepStable_stage, setSweep_self]
  all_goals grind [SweepStage.entry]

theorem sweep_byAge : ∀ name,
    ((s.sweep registrations k fails).sweeps k).stage.byAge = some name →
      (s.sweeps k).stage.byAge = some name ∨ s.leaseFiles name = none := by
  fun_cases sweep
  all_goals first | exact fun _ => .inl | simp only [setStage_self, keepStable_stage, setSweep_self]
  all_goals grind [SweepStage.byAge, Option.isSome_eq_false_iff, Option.isNone_iff_eq_none]

theorem sweep_byLease : ∀ name,
    ((s.sweep registrations k fails).sweeps k).stage.byLease = some name →
      (s.sweeps k).stage.byLease = some name ∨ (s.leaseFiles name).isSome := by
  fun_cases sweep
  all_goals first | exact fun _ => .inl | simp only [setStage_self, keepStable_stage, setSweep_self]
  all_goals grind [SweepStage.byLease]

theorem sweep_openedFile : ∀ name file,
    ((s.sweep registrations k fails).sweeps k).stage.openedFile = some (name, file) →
      (s.sweeps k).stage.openedFile = some (name, file) ∨ (s.openFile name).2 = file := by
  fun_cases sweep
  all_goals first | exact fun _ _ => .inl | simp only [setStage_self, keepStable_stage, setSweep_self]
  all_goals grind [SweepStage.openedFile]

theorem sweep_pruning : ∀ repository tracking current,
    ((s.sweep registrations k fails).sweeps k).stage = .pruning repository tracking current →
      (s.sweeps k).stage = .pruning repository tracking current ∨
        s.tracking.lookup repository = some current := by
  fun_cases sweep
  all_goals first
    | exact fun _ _ _ => .inl
    | simp only [setStage_self, keepStable_stage, setSweep_self]
  all_goals grind

end WorkRoot

end GhRunner.Execution
