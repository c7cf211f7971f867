import GhRunner.Execution.WorkspaceMappings

set_option linter.unusedSectionVars false

namespace GhRunner.Execution

open Text Paths Machine

/-!
# Workspaces of live jobs

No two live jobs have one directory, and no sweep removes the directory of one, as long as the sweeps
and the claims go by what the tracking files say.

* `Exclusive`, `Spares` — that, of a state and of a step;
* `Born` — what a sweep can know of a fresh workspace;
* `workspaces_exclusive` — from this, `Locked` and `Mapped`;
* `suspended_sweep` — a sweep whose scan is out of date.
-/

/-! ### Directories in the root -/

theorem isName_of_isSingleComponent {name : Str} (h : isSingleComponent name = true) :
    IsName name := by
  rw [isSingleComponent, Bool.and_eq_true] at h
  obtain ⟨hone, hchars⟩ := h
  refine ⟨fun hmem => ?_, ?_, ?_, ?_⟩
  · simpa using List.all_eq_true.mp hchars '/' hmem
  all_goals
    rintro rfl
    revert hone
    decide

theorem isName_candidate {name : Str} (h : IsName name) (n : ℕ) : IsName (candidate name n) := by
  unfold candidate
  split
  case isTrue => exact h
  case isFalse =>
    have hmem : '_' ∈ name ++ '_' :: Nat.toDigits 10 (n + 1) := by simp
    refine ⟨?_, ?_, ?_, ?_⟩
    · rw [List.mem_append, List.mem_cons]
      rintro (hname | hsep | hdigit)
      · exact h.slash hname
      · exact absurd hsep (by decide)
      · exact absurd (Nat.isDigit_of_mem_toDigits (by decide) (by decide) hdigit) (by decide)
    all_goals
      intro heq
      rw [heq] at hmem
      revert hmem
      decide

namespace WorkRoot

variable {J K : Type} [DecidableEq J] [DecidableEq K] (registrations : Registrations J K)

/-- No two live jobs have one directory, or one inside the other, and no two tracking files name
    one, whatever the case of its letters. -/
structure Exclusive (work : Str) (s : WorkRoot J K) : Prop where
  apart : ∀ j j' directory other, j ≠ j' → s.holds registrations j = some directory →
    s.holds registrations j' = some other → ¬ Inside (join work directory) (join work other)
  distinct : ∀ repository repository' tracking tracking', repository ≠ repository' →
    s.tracking.lookup repository = some tracking → s.tracking.lookup repository' = some tracking' →
      asciiLower tracking.pipelineDirectory ≠ asciiLower tracking'.pipelineDirectory

/-- The event removes no directory of a live job. -/
def Spares (s : WorkRoot J K) (e : WorkEvent J K) : Prop :=
  ∀ j directory, s.holds registrations j = some directory → s.removes e ≠ some directory

variable {registrations} {s t : WorkRoot J K} {j : J} {k : K} {fails : Bool}

/-! ### Fresh workspaces -/

variable (registrations) in
/-- What a sweep can know of the directory of a fresh job: nothing before it is made, and from then
    on that it has a lease file. -/
structure Born (s : WorkRoot J K) : Prop where
  unmade : ∀ j, (s.claims j).unborn = true → s.dirs (registrations.job j).jobDir = none
  unlisted : ∀ j, (s.claims j).unborn = true → ∀ k,
    (registrations.job j).jobDir ∉ (s.sweeps k).listed
  entry : ∀ k name, (s.sweeps k).stage.entry = some name → name ∈ (s.sweeps k).listed
  opened : ∀ j file, (s.claims j).openedFile = some file →
    s.leaseFiles (registrations.job j).jobDir = some file
  byAge : ∀ j k file, s.claims j = .freshWorking file →
    (s.sweeps k).stage.byAge ≠ some (registrations.job j).jobDir
  openedBySweep : ∀ j k file found, s.claims j = .freshWorking file →
    (s.sweeps k).stage.openedFile = some ((registrations.job j).jobDir, found) → found = file
  named : ∀ name, (s.leaseFiles name).isSome → ∃ j, name = (registrations.job j).jobDir
  byLease : ∀ k name, (s.sweeps k).stage.byLease = some name →
    ∃ j, name = (registrations.job j).jobDir

theorem born_start {dirs : Str → Option Instant}
    (hdirs : ∀ j, dirs (registrations.job j).jobDir = none) :
    Born registrations (start dirs : WorkRoot J K) where
  unmade j _ := hdirs j
  unlisted _ _ _ := List.not_mem_nil
  entry _ _ := nofun
  opened _ _ := nofun
  byAge _ _ _ := nofun
  openedBySweep _ _ _ _ := nofun
  named _ := nofun
  byLease _ _ := nofun

theorem entry_of_byAge {stage : SweepStage} {name : Str} (h : stage.byAge = some name) :
    stage.entry = some name := by
  cases stage <;> simp_all [SweepStage.byAge, SweepStage.entry]

theorem entry_of_openedFile {stage : SweepStage} {name : Str} {file : LeaseFile}
    (h : stage.openedFile = some (name, file)) : stage.entry = some name := by
  cases stage <;> simp_all [SweepStage.openedFile, SweepStage.entry]

/-- No sweep is at the directory of a job that has not made it. -/
theorem Born.entry_ne (h : Born registrations s) (hj : (s.claims j).unborn = true) (k : K) :
    (s.sweeps k).stage.entry ≠ some (registrations.job j).jobDir :=
  fun hentry => h.unlisted j hj k (h.entry k _ hentry)

/-- One claim moves. -/
theorem born_of_claim (h : Born registrations s) (hothers : ∀ j', j' ≠ j → t.claims j' = s.claims j')
    (hsweeps : t.sweeps = s.sweeps)
    (hunborn : (t.claims j).unborn = true → (s.claims j).unborn = true)
    (hdirs : ∀ j', (t.claims j').unborn = true →
      t.dirs (registrations.job j').jobDir = s.dirs (registrations.job j').jobDir)
    (hfiles : ∀ name, name ≠ (registrations.job j).jobDir → t.leaseFiles name = s.leaseFiles name)
    (hopened : ∀ file, (t.claims j).openedFile = some file →
      t.leaseFiles (registrations.job j).jobDir = some file)
    (hworking : ∀ file, t.claims j = .freshWorking file →
      s.claims j = .freshWorking file ∨ (s.claims j).unborn = true) : Born registrations t := by
  have unborn (j' : J) (hj' : (t.claims j').unborn = true) : (s.claims j').unborn = true := by
    by_cases hj : j' = j
    · subst hj
      exact hunborn hj'
    · rwa [hothers j' hj] at hj'
  have working (j' : J) (file : LeaseFile) (hj' : t.claims j' = .freshWorking file) :
      s.claims j' = .freshWorking file ∨ (s.claims j').unborn = true := by
    by_cases hj : j' = j
    · subst hj
      exact hworking file hj'
    · rw [hothers j' hj] at hj'
      exact .inl hj'
  refine ⟨fun j' hj' => ?_, fun j' hj' k => ?_, ?_, fun j' file hj' => ?_, fun j' k file hj' => ?_,
    fun j' k file found hj' hk => ?_, fun name hname => ?_, ?_⟩
  · rw [hdirs j' hj']
    exact h.unmade j' (unborn j' hj')
  · rw [hsweeps]
    exact h.unlisted j' (unborn j' hj') k
  · rw [hsweeps]
    exact h.entry
  · by_cases hj : j' = j
    · subst hj
      exact hopened file hj'
    · rw [hfiles _ fun heq => hj (registrations.unique _ _ heq)]
      rw [hothers j' hj] at hj'
      exact h.opened j' file hj'
  · rw [hsweeps]
    rcases working j' file hj' with hold | hold
    · exact h.byAge j' k file hold
    · exact fun hage => h.entry_ne hold k (entry_of_byAge hage)
  · rw [hsweeps] at hk
    rcases working j' file hj' with hold | hold
    · exact h.openedBySweep j' k file found hold hk
    · exact absurd (entry_of_openedFile hk) (h.entry_ne hold k)
  · by_cases hj : name = (registrations.job j).jobDir
    · exact ⟨j, hj⟩
    · rw [hfiles name hj] at hname
      exact h.named name hname
  · rw [hsweeps]
    exact h.byLease

/-- No file of a repository names the directory of a job. -/
theorem Mapped.pipeline_ne (h : Mapped registrations s) {repository : Repository}
    {tracking : TrackingConfig} (hlookup : s.tracking.lookup repository = some tracking) (j : J) :
    tracking.pipelineDirectory ≠ (registrations.job j).jobDir := by
  obtain ⟨⟨j', hj'⟩, hderived⟩ := h.derived repository tracking hlookup
  intro heq
  exact registrations.apart j j' repository hj' (heq ▸ hderived)

theorem born_next (h : Born registrations s) (hmapped : Mapped registrations s) :
    Born registrations (s.next registrations j fails) := by
  apply born_of_claim (j := j) h
  · exact fun j' hj' => next_claims_of_ne hj'
  · exact next_sweeps
  · exact next_unborn
  · intro j' hj'
    rcases next_dirs registrations s j fails (registrations.job j').jobDir with
      hsame | ⟨repository, tracking, hstate, heq⟩ | ⟨hborn, heq⟩
    · exact hsame
    · exact absurd heq.symm
        (hmapped.pipeline_ne ((hmapped.claims j).mapped repository tracking hstate) j')
    · rw [registrations.unique j' j heq, hborn] at hj'
      cases hj'
  · exact fun name hname => next_leaseFiles hname
  · exact next_opened (h.opened j)
  · intro file hfile
    cases hstate : s.claims j with
    | ended =>
      rw [show s.next registrations j fails = s by rw [next, hstate], hstate] at hfile
      cases hfile
    | freshWorking other =>
      rw [show s.next registrations j fails = s by rw [next, hstate], hstate] at hfile
      exact .inl hfile
    | _ => exact .inr rfl

theorem unborn_or_of_openedFile {state : ClaimState} {file : LeaseFile}
    (h : state.openedFile = some file) : state.unborn = true ∨ state = .freshWorking file := by
  cases state <;> simp_all [ClaimState.openedFile, ClaimState.unborn]

/-- No sweep has the lock of the lease file of a job that has opened it. -/
theorem Born.not_locked (h : Born registrations s) (hlocked : Locked s) {file found : LeaseFile}
    (hopened : (s.claims j).openedFile = some file)
    (hfound : (s.sweeps k).stage.openedFile = some ((registrations.job j).jobDir, found)) :
    (s.sweeps k).stage.lockedFile ≠ some found := by
  intro hlock
  rcases unborn_or_of_openedFile hopened with hunborn | hworking
  · exact h.entry_ne hunborn k (entry_of_openedFile hfound)
  · have hfile : found = file := h.openedBySweep j k file found hworking hfound
    have hjob : s.locks file = some (.inl j) := hlocked.file j file (by rw [hworking]; rfl)
    have hsweep : s.locks found = some (.inr k) := hlocked.sweepFile k found hlock
    rw [hfile, hjob] at hsweep
    cases hsweep

theorem born_sweep (h : Born registrations s) (hlocked : Locked s) :
    Born registrations (s.sweep registrations k fails) := by
  have hclaims := sweep_claims registrations s k fails
  refine ⟨fun j hj => ?_, fun j hj k' => ?_, fun k' name hk' => ?_, fun j file hj => ?_,
    fun j k' file hj hk' => ?_, fun j k' file found hj hk' => ?_, fun name hname => ?_,
    fun k' name hk' => ?_⟩
  · rw [hclaims] at hj
    exact (sweep_dirs _).elim (·.trans (h.unmade j hj)) id
  · rw [hclaims] at hj
    by_cases hk : k' = k
    · rw [hk, sweep_listed]
      exact h.unlisted j hj k
    · rw [sweep_sweeps_of_ne hk]
      exact h.unlisted j hj k'
  · by_cases hk : k' = k
    · subst hk
      rw [sweep_listed]
      exact h.entry k' name (sweep_entry name hk')
    · rw [sweep_sweeps_of_ne hk] at hk' ⊢
      exact h.entry k' name hk'
  · rw [hclaims] at hj
    have hfile := h.opened j file hj
    rcases sweep_leaseFiles registrations s k fails (registrations.job j).jobDir with
      hsame | ⟨hnone, -⟩ | ⟨found, hstage⟩
    · exact hsame.trans hfile
    · rw [hnone] at hfile
      cases hfile
    · exact (h.not_locked hlocked hj (by rw [hstage]; rfl) (by rw [hstage]; rfl)).elim
  · rw [hclaims] at hj
    by_cases hk : k' = k
    · subst hk
      rcases sweep_byAge _ hk' with hold | hnone
      · exact h.byAge j k' file hj hold
      · rw [h.opened j file (by rw [hj]; rfl)] at hnone
        cases hnone
    · rw [sweep_sweeps_of_ne hk] at hk'
      exact h.byAge j k' file hj hk'
  · rw [hclaims] at hj
    by_cases hk : k' = k
    · subst hk
      rcases sweep_openedFile _ found hk' with hold | hopen
      · exact h.openedBySweep j k' file found hj hold
      · rw [openFile_of_some (h.opened j file (by rw [hj]; rfl))] at hopen
        exact hopen.symm
    · rw [sweep_sweeps_of_ne hk] at hk'
      exact h.openedBySweep j k' file found hj hk'
  · rcases sweep_leaseFiles registrations s k fails name with
      hsame | ⟨-, hstage⟩ | ⟨found, hstage⟩
    · rw [hsame] at hname
      exact h.named name hname
    · exact h.byLease k name hstage
    · exact h.byLease k name (by rw [hstage]; rfl)
  · by_cases hk : k' = k
    · subst hk
      rcases sweep_byLease name hk' with hold | hfile
      · exact h.byLease k' name hold
      · exact h.named name hfile
    · rw [sweep_sweeps_of_ne hk] at hk'
      exact h.byLease k' name hk'

theorem born_setSweep {sweep : Sweep} (h : Born registrations s)
    (hlisted : ∀ name ∈ sweep.listed, name ∈ (s.sweeps k).listed ∨ (s.dirs name).isSome)
    (hentry : ∀ name, sweep.stage.entry = some name → name ∈ sweep.listed)
    (hage : ∀ name, sweep.stage.byAge = some name → (s.sweeps k).stage.byAge = some name)
    (hopened : ∀ opened, sweep.stage.openedFile = some opened →
      (s.sweeps k).stage.openedFile = some opened)
    (hlease : ∀ name, sweep.stage.byLease = some name → (s.sweeps k).stage.byLease = some name) :
    Born registrations (s.setSweep k sweep) where
  unmade := h.unmade
  unlisted j hj k' hmem := by
    rw [setSweep_sweeps] at hmem
    split at hmem
    case isTrue =>
      rcases hlisted _ hmem with hold | hmade
      · exact h.unlisted j hj k hold
      · rw [h.unmade j hj] at hmade
        cases hmade
    case isFalse => exact h.unlisted j hj k' hmem
  entry k' name hk' := by
    rw [setSweep_sweeps] at hk' ⊢
    split at hk'
    case isTrue heq =>
      rw [if_pos heq]
      exact hentry name hk'
    case isFalse hne =>
      rw [if_neg hne]
      exact h.entry k' name hk'
  opened := h.opened
  byAge j k' file hj hk' := by
    rw [setSweep_sweeps] at hk'
    split at hk'
    case isTrue => exact h.byAge j k file hj (hage _ hk')
    case isFalse => exact h.byAge j k' file hj hk'
  openedBySweep j k' file found hj hk' := by
    rw [setSweep_sweeps] at hk'
    split at hk'
    case isTrue => exact h.openedBySweep j k file found hj (hopened _ hk')
    case isFalse => exact h.openedBySweep j k' file found hj hk'
  named := h.named
  byLease k' name hk' := by
    rw [setSweep_sweeps] at hk'
    split at hk'
    case isTrue => exact h.byLease k name (hlease name hk')
    case isFalse => exact h.byLease k' name hk'

/-- The sweep lists nothing and is at no entry. -/
theorem born_between {sweep : Sweep} (h : Born registrations s)
    (hlisted : sweep.listed = (s.sweeps k).listed) (hentry : sweep.stage.entry = none)
    (hage : sweep.stage.byAge = none) (hopened : sweep.stage.openedFile = none)
    (hlease : sweep.stage.byLease = none) : Born registrations (s.setSweep k sweep) := by
  apply born_setSweep h
  · exact fun name hname => .inl (hlisted ▸ hname)
  · exact fun name hname => nomatch hentry.symm.trans hname
  · exact fun name hname => nomatch hage.symm.trans hname
  · exact fun opened hname => nomatch hopened.symm.trans hname
  · exact fun name hname => nomatch hlease.symm.trans hname

/-- A claim moves and touches no directory and no lease file. -/
theorem born_setClaim {state : ClaimState} (h : Born registrations s)
    (hunborn : state.unborn = true → (s.claims j).unborn = true) (hopened : state.openedFile = none)
    (hworking : ∀ file, state ≠ .freshWorking file) :
    Born registrations (s.setClaim j state) := by
  have hself : (s.setClaim j state).claims j = state := setClaim_self s j state
  apply born_of_claim (j := j) h
  · exact fun j' hj' => Function.update_of_ne hj' _ _
  · rfl
  · rw [hself]
    exact hunborn
  · exact fun _ _ => rfl
  · exact fun _ _ => rfl
  · rw [hself, hopened]
    nofun
  · rw [hself]
    exact fun file hfile => absurd hfile (hworking file)

theorem born_step (h : Born registrations s) (hmapped : Mapped registrations s) (hlocked : Locked s)
    (e : WorkEvent J K) : Born registrations (s.step registrations e) := by
  have letGo (who : J ⊕ K) : Born registrations (s.letGo who) :=
    ⟨h.unmade, h.unlisted, h.entry, h.opened, h.byAge, h.openedBySweep, h.named, h.byLease⟩
  cases e with
  | claim j =>
    unfold step
    dsimp only
    split
    case h_1 hidle _ => exact born_setClaim h (fun _ => by rw [hidle]; rfl) rfl nofun
    case h_2 hidle _ => exact born_setClaim h (fun _ => by rw [hidle]; rfl) rfl nofun
    case h_3 => exact h
  | next j fails => exact born_next h hmapped
  | read j repository =>
    unfold step
    dsimp only
    split
    case h_1 hstate _ => exact born_setClaim h (fun _ => by rw [hstate]; rfl) rfl nofun
    case h_2 => exact h
  | drop j => exact born_setClaim (letGo _) nofun rfl nofun
  | gc k =>
    unfold step
    dsimp only
    split
    · exact born_between h rfl rfl rfl rfl rfl
    · exact h
  | list k name =>
    unfold step
    dsimp only
    split
    case isTrue hlist =>
      have hmade := (Bool.and_eq_true_iff.mp hlist).1
      apply born_setSweep h
      · exact List.forall_mem_cons.mpr ⟨.inr hmade, fun _ => .inl⟩
      · exact fun other hother => List.mem_cons_of_mem _ (h.entry k other hother)
      · exact fun _ => id
      · exact fun _ => id
      · exact fun _ => id
    case isFalse => exact h
  | scan k repository fails =>
    show Born registrations (s.scan registrations k repository fails)
    unfold scan
    split
    case h_1 hstage =>
      split
      · refine born_between h rfl ?_ ?_ ?_ ?_
        all_goals exact congrArg _ hstage
      · split
        · exact born_between h rfl rfl rfl rfl rfl
        · exact born_between h rfl rfl rfl rfl rfl
    case h_2 => exact h
  | visit k name =>
    unfold step
    dsimp only
    split
    case isTrue hvisit =>
      refine born_setSweep h (fun _ => .inl) ?_ nofun nofun nofun
      rintro _ ⟨⟩
      exact hvisit.2.1
    case isFalse => exact h
  | sweep k fails => exact born_sweep h hlocked
  | delete k => exact h
  | die k => exact born_between (letGo _) rfl rfl rfl rfl rfl
  | touch name mtime =>
    unfold step
    dsimp only
    split
    case isTrue hmade =>
      refine ⟨fun j hj => ?_, h.unlisted, h.entry, h.opened, h.byAge, h.openedBySweep, h.named,
        h.byLease⟩
      have hnone := h.unmade j hj
      rw [setDir_dirs, if_neg, hnone]
      rintro rfl
      rw [hnone] at hmade
      cases hmade
    case isFalse => exact h
  | clock now =>
    exact ⟨h.unmade, h.unlisted, h.entry, h.opened, h.byAge, h.openedBySweep, h.named, h.byLease⟩

/-! ### Exclusion -/

theorem holds_cases {directory : Str} (h : s.holds registrations j = some directory) :
    (∃ repository tracking, (s.claims j).mapped = some (repository, tracking) ∧
        directory = tracking.pipelineDirectory) ∨
      (s.claims j).isFresh = true ∧ directory = (registrations.job j).jobDir := by
  unfold holds at h
  split at h
  case h_1 repository tracking hmapped =>
    exact .inl ⟨repository, tracking, hmapped, (Option.some.inj h).symm⟩
  case h_2 =>
    split at h
    case isTrue hfresh => exact .inr ⟨hfresh, (Option.some.inj h).symm⟩
    case isFalse => cases h

theorem unborn_or_of_isFresh {state : ClaimState} (h : state.isFresh = true) :
    state.unborn = true ∨ ∃ file, state = .freshWorking file := by
  cases state <;> simp_all [ClaimState.isFresh, ClaimState.unborn]

/-- Two jobs with stable workspaces have different repositories. -/
theorem Locked.repository_ne (h : Locked s) {j j' : J} (hne : j ≠ j')
    {repository repository' : Repository} {tracking tracking' : TrackingConfig}
    (hj : (s.claims j).mapped = some (repository, tracking))
    (hj' : (s.claims j').mapped = some (repository', tracking')) : repository ≠ repository' := by
  rintro rfl
  have hlease := h.lease j repository (leasedRepository_of_mapped hj)
  have hlease' := h.lease j' repository (leasedRepository_of_mapped hj')
  exact hne (Sum.inl.inj (Option.some.inj (hlease.symm.trans hlease')))

theorem Mapped.isName (h : Mapped registrations s) {repository : Repository}
    {tracking : TrackingConfig} (hlookup : s.tracking.lookup repository = some tracking) :
    IsName tracking.pipelineDirectory := by
  obtain ⟨-, n, -, hn⟩ := h.derived repository tracking hlookup
  rw [hn]
  have hvalid := repository.valid
  rw [Bool.and_eq_true, Bool.and_eq_true] at hvalid
  exact isName_candidate (isName_of_isSingleComponent hvalid.1.2) n

theorem exclusive_of (hplain : ∀ j, isSingleComponent (registrations.job j).jobDir = true)
    (work : Str) (hmapped : Mapped registrations s) (hlocked : Locked s) :
    Exclusive registrations work s where
  apart j j' directory other hne hj hj' := by
    have lookup (j : J) (repository : Repository) (tracking : TrackingConfig)
        (h : (s.claims j).mapped = some (repository, tracking)) :
        s.tracking.lookup repository = some tracking :=
      (hmapped.claims j).mapped repository tracking h
    rcases holds_cases hj with ⟨repository, tracking, hown, rfl⟩ | ⟨-, rfl⟩ <;>
      rcases holds_cases hj' with ⟨repository', tracking', hown', rfl⟩ | ⟨-, rfl⟩
    · have hold := lookup j repository tracking hown
      have hold' := lookup j' repository' tracking' hown'
      rw [inside_join_names work (hmapped.isName hold) (hmapped.isName hold')]
      intro heq
      exact hmapped.distinct repository repository' tracking tracking'
        (hlocked.repository_ne hne hown hown') hold hold' (congrArg asciiLower heq)
    · have hold := lookup j repository tracking hown
      rw [inside_join_names work (hmapped.isName hold) (isName_of_isSingleComponent (hplain j'))]
      exact hmapped.pipeline_ne hold j'
    · have hold' := lookup j' repository' tracking' hown'
      rw [inside_join_names work (isName_of_isSingleComponent (hplain j)) (hmapped.isName hold')]
      exact (hmapped.pipeline_ne hold' j).symm
    · rw [inside_join_names work (isName_of_isSingleComponent (hplain j))
        (isName_of_isSingleComponent (hplain j'))]
      exact fun heq => hne (registrations.unique j j' heq)
  distinct := hmapped.distinct

/-- What a sweep is removing is no live job's. -/
theorem removing_ne {directory name : Str} (hborn : Born registrations s)
    (hmapped : Mapped registrations s) (hlocked : Locked s)
    (hcurrent : ∀ repository tracking, (s.sweeps k).stage = .removingOld name →
      s.tracking.lookup repository = some tracking → tracking.pipelineDirectory ≠ name)
    (hheld : s.holds registrations j = some directory)
    (hremoving : (s.sweeps k).stage.removing = some name) : directory ≠ name := by
  have fresh (hfresh : (s.claims j).isFresh = true)
      (hentry : (s.sweeps k).stage.entry = some (registrations.job j).jobDir) :
      ∃ file, s.claims j = .freshWorking file :=
    (unborn_or_of_isFresh hfresh).resolve_left fun hunborn => hborn.entry_ne hunborn k hentry
  rcases hstage : (s.sweeps k).stage with _ | _ | _ | _ | ⟨repository, listed, current⟩ | _ | _ |
    _ | _ | _ | _ | _ | _ | _ | ⟨_, file⟩ | _ | _ <;> rw [hstage] at hremoving <;>
    cases hremoving
  case pruning =>
    have hcurrent := hmapped.pruning k repository listed current hstage
    rcases holds_cases hheld with ⟨repository', tracking, hown, rfl⟩ | ⟨-, rfl⟩
    · -- two files that name one directory are of one repository, whose lease the sweep has
      intro heq
      have hlookup := (hmapped.claims j).mapped repository' tracking hown
      have hrepository : repository' = repository := by
        by_contra hne
        exact hmapped.distinct repository' repository tracking current hne hlookup hcurrent
          (congrArg asciiLower heq)
      have hsweep := hlocked.sweepLease k repository (by rw [hstage]; rfl)
      have hjob := hlocked.lease j repository' (leasedRepository_of_mapped hown)
      rw [hrepository, hsweep] at hjob
      cases hjob
    · exact (hmapped.pipeline_ne hcurrent j).symm
  case removingOld =>
    rcases holds_cases hheld with ⟨repository, tracking, hown, rfl⟩ | ⟨hfresh, rfl⟩
    · exact hcurrent repository tracking hstage
        ((hmapped.claims j).mapped repository tracking hown)
    · rintro rfl
      obtain ⟨file, hworking⟩ := fresh hfresh (by rw [hstage]; rfl)
      exact hborn.byAge j k file hworking (by rw [hstage]; rfl)
  case removingFresh =>
    rcases holds_cases hheld with ⟨repository, tracking, hown, rfl⟩ | ⟨hfresh, rfl⟩
    · -- only jobs' own directories have lease files
      obtain ⟨j', hj'⟩ := hborn.byLease k name (by rw [hstage]; rfl)
      rw [hj']
      exact hmapped.pipeline_ne ((hmapped.claims j).mapped repository tracking hown) j'
    · rintro rfl
      obtain ⟨opened, hworking⟩ := fresh hfresh (by rw [hstage]; rfl)
      have hopened : (s.claims j).openedFile = some opened := by
        rw [hworking]
        rfl
      exact hborn.not_locked hlocked hopened (by rw [hstage]; rfl) (by rw [hstage]; rfl)

theorem spares_of {e : WorkEvent J K} (hborn : Born registrations s)
    (hmapped : Mapped registrations s) (hlocked : Locked s) (hcurrent : Current s e) :
    Spares registrations s e := by
  have spared (k : K) (j : J) (directory : Str)
      (hold : ∀ name, (s.sweeps k).stage = .removingOld name →
        ∀ entry ∈ s.tracking.entries, entry.2.pipelineDirectory ≠ name)
      (hheld : s.holds registrations j = some directory) :
      (s.sweeps k).stage.removing ≠ some directory := fun hremoving =>
    removing_ne hborn hmapped hlocked
      (fun repository tracking hstage hlookup =>
        hold directory hstage ⟨repository, tracking⟩ (AList.mem_lookup_iff.mp hlookup))
      hheld hremoving rfl
  have named {k : K} {name : Str} (hstage : (s.sweeps k).stage = .removingOld name)
      (h : Current s (.delete k)) :
      ∀ entry ∈ s.tracking.entries, entry.2.pipelineDirectory ≠ name := by
    simpa only [Current, hstage] using h
  intro j directory hheld
  cases e with
  | sweep k fails =>
    cases fails with
    | false => exact spared k j directory (fun name hstage => named hstage hcurrent) hheld
    | true => exact (Option.some_ne_none directory).symm
  | delete k => exact spared k j directory (fun name hstage => named hstage hcurrent) hheld
  | _ => exact (Option.some_ne_none directory).symm

/-- What a run has reached. -/
structure Consistent (registrations : Registrations J K) (s : WorkRoot J K) : Prop where
  locked : s.Locked
  mapped : s.Mapped registrations
  born : s.Born registrations

theorem consistent_step (registrations : Registrations J K) (s : WorkRoot J K) (e : WorkEvent J K)
    (h : Consistent registrations s) (hcurrent : s.Current e) :
    Consistent registrations (s.step registrations e) where
  locked := locked_step h.locked e
  mapped := mapped_step h.mapped h.locked e hcurrent
  born := born_step h.born h.mapped h.locked e

end WorkRoot

variable {J K : Type} [DecidableEq J] [DecidableEq K]

/-- As long as the sweeps and the claims go by what the tracking files say, workspaces of live jobs
    are exclusive, and no sweep removes one. -/
theorem workspaces_exclusive (registrations : Registrations J K) (work : Str)
    (dirs : Str → Option Instant)
    (hplain : ∀ j, isSingleComponent (registrations.job j).jobDir = true)
    (hdirs : ∀ j, dirs (registrations.job j).jobDir = none) (es : List (WorkEvent J K))
    (hcurrent : Throughout (WorkRoot.step registrations) WorkRoot.Current (.start dirs) es) :
    (run (WorkRoot.step registrations) (.start dirs) es).Exclusive registrations work ∧
      Throughout (WorkRoot.step registrations) (WorkRoot.Spares registrations) (.start dirs) es := by
  have hstart : WorkRoot.Consistent registrations (.start dirs) :=
    ⟨WorkRoot.locked_start dirs, WorkRoot.mapped_start dirs, WorkRoot.born_start hdirs⟩
  constructor
  · have hend := run_invariant (WorkRoot.consistent_step registrations) hcurrent hstart
    exact WorkRoot.exclusive_of hplain work hend.mapped hend.locked
  · exact throughout_of_invariant (WorkRoot.consistent_step registrations)
      (fun s e h hcurrent => WorkRoot.spares_of h.born h.mapped h.locked hcurrent) hcurrent hstart

/-! ### One repository, two jobs -/

theorem head?_candidate {name : Str} (h : name ≠ []) (n : ℕ) :
    (candidate name n).head? = name.head? := by
  unfold candidate
  split
  · rfl
  · exact List.head?_append_of_ne_nil _ h

def demo : Repository := ⟨"octo".toList, "demo".toList, by decide⟩

/-- Two jobs of one repository, and the sweeps of one registration. -/
def sharing : Registrations (Fin 2) (Fin 1) where
  job j :=
    { repository := some demo
      jobId := if j = 0 then "job-0".toList else "job-1".toList
      dataDir := "/data".toList
      clean := none }
  policy _ :=
    { dataDir := "/data".toList, jobMaxAge := some 10, stableMaxAge := none, keep := [] }
  unique := by decide
  apart j j' repository hrepository := by
    obtain rfl : demo = repository := Option.some.inj hrepository
    rintro ⟨n, -, hn⟩
    have hhead := congrArg List.head? hn
    rw [head?_candidate (by decide)] at hhead
    clear hn
    revert j
    decide

/-- The first job has the stable workspace of the repository, the second a fresh one, and the sweep
    removes neither. -/
theorem workspaces_exclusive_sharing :
    let es : List (WorkEvent (Fin 2) (Fin 1)) :=
      .claim 0 :: List.replicate 9 (.next 0 false) ++
        [.claim 1, .next 1 false, .next 1 true, .next 1 false, .next 1 false, .next 1 false,
          .next 1 false, .gc 0, .scan 0 demo false, .clock 20, .sweep 0 false,
          .list 0 "demo".toList, .list 0 "job-1".toList, .visit 0 "demo".toList,
          .visit 0 "job-1".toList, .sweep 0 false, .sweep 0 false, .sweep 0 false]
    (run (WorkRoot.step sharing) (.start fun _ => none) es).Exclusive sharing "/work".toList ∧
      Throughout (WorkRoot.step sharing) (WorkRoot.Spares sharing) (.start fun _ => none) es :=
  workspaces_exclusive sharing "/work".toList (fun _ => none) (by decide) (fun _ => rfl) _
    (by decide +kernel)

/-- A sweep that is suspended after its scan comes upon the directory of a job that has begun since,
    and removes it by its age. -/
theorem suspended_sweep :
    ¬ ∀ es, Throughout (WorkRoot.step sharing) (WorkRoot.Spares sharing) (.start fun _ => none)
      es := by
  intro h
  let es : List (WorkEvent (Fin 2) (Fin 1)) :=
    .gc 0 :: .claim 0 :: List.replicate 9 (.next 0 false) ++
      [.clock 20, .sweep 0 false, .list 0 "demo".toList, .visit 0 "demo".toList, .sweep 0 false,
        .sweep 0 false]
  obtain ⟨-, hspares, -⟩ := (throughout_append _ _ _ _ _).mp (h (es ++ [.sweep 0 false]))
  exact hspares 0 "demo".toList (by decide) (by decide)

end GhRunner.Execution
