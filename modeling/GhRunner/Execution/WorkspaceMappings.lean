import GhRunner.Execution.WorkspaceMoves

set_option linter.unusedSectionVars false

namespace GhRunner.Execution

open Text Paths Machine

/-!
# The tracking files of a work root

The directory of a job with a stable workspace is the one that its repository's file names, and no
other file names it, as long as what the sweeps and the claims go by is not out of date.

* `Current` — that;
* `Fits` — what a claim has found out agrees with the files;
* `Mapped`, `mapped_step` — the files agree with each other, and the claims and the sweeps with them.
-/

namespace WorkRoot

variable {J K : Type} [DecidableEq J] [DecidableEq K] (registrations : Registrations J K)

/-- A sweep that goes by the age alone removes no directory that a tracking file names by then, and
    a claim that makes a new mapping has read every tracking file. -/
def Current (s : WorkRoot J K) : WorkEvent J K → Prop
  | .sweep k false | .delete k =>
    match (s.sweeps k).stage with
    | .removingOld name => ∀ entry ∈ s.tracking.entries, entry.2.pipelineDirectory ≠ name
    | _ => True
  | .next j _ =>
    match s.claims j with
    | .scanning _ claimed =>
      ∀ entry ∈ s.tracking.entries, asciiLower entry.2.pipelineDirectory ∈ claimed
    | _ => True
  | _ => True

instance (s : WorkRoot J K) (e : WorkEvent J K) : Decidable (Current s e) := by
  unfold Current
  split
  · split <;> infer_instance
  · split <;> infer_instance
  · split <;> infer_instance
  · infer_instance

/-! ### Tracking files -/

/-- What a claim has found out agrees with the tracking files. -/
structure Fits (tracking : AList fun _ : Repository => TrackingConfig) (j : J)
    (state : ClaimState) : Prop where
  own : ∀ repository, state.repository = some repository →
    (registrations.job j).repository = some repository
  naming : ∀ repository claimed n, state = .naming repository claimed n →
    ∀ other file, tracking.lookup other = some file →
      asciiLower file.pipelineDirectory ∈ claimed
  saving : ∀ repository file, state = .saving repository file →
    Derived repository file.pipelineDirectory ∧
      ∀ other otherFile, other ≠ repository → tracking.lookup other = some otherFile →
        asciiLower otherFile.pipelineDirectory ≠ asciiLower file.pipelineDirectory
  mapped : ∀ repository file, state.mapped = some (repository, file) →
    tracking.lookup repository = some file

structure Mapped (s : WorkRoot J K) : Prop where
  distinct : ∀ repository repository' tracking tracking', repository ≠ repository' →
    s.tracking.lookup repository = some tracking → s.tracking.lookup repository' = some tracking' →
      asciiLower tracking.pipelineDirectory ≠ asciiLower tracking'.pipelineDirectory
  derived : ∀ repository tracking, s.tracking.lookup repository = some tracking →
    (∃ j, (registrations.job j).repository = some repository) ∧
      Derived repository tracking.pipelineDirectory
  claims : ∀ j, Fits registrations s.tracking j (s.claims j)
  pruning : ∀ k repository tracking current,
    (s.sweeps k).stage = .pruning repository tracking current →
      s.tracking.lookup repository = some current

variable {registrations} {s t : WorkRoot J K} {j : J} {k : K} {fails : Bool}

theorem leasedRepository_of_mapped {state : ClaimState} {repository : Repository}
    {file : TrackingConfig} (h : state.mapped = some (repository, file)) :
    state.leasedRepository = some repository := by
  cases state <;> simp_all [ClaimState.mapped, ClaimState.leasedRepository]

theorem repository_of_leasedRepository {state : ClaimState} {repository : Repository}
    (h : state.leasedRepository = some repository) : state.repository = some repository := by
  cases state <;> simp_all [ClaimState.leasedRepository, ClaimState.repository]

theorem lookup_insert_cases {tracking : AList fun _ : Repository => TrackingConfig}
    {repository other : Repository} {file found : TrackingConfig}
    (h : (tracking.insert repository file).lookup other = some found) :
    other = repository ∧ found = file ∨ other ≠ repository ∧ tracking.lookup other = some found := by
  by_cases hother : other = repository
  · subst hother
    rw [AList.lookup_insert] at h
    exact .inl ⟨rfl, (Option.some.inj h).symm⟩
  · rw [AList.lookup_insert_ne hother] at h
    exact .inr ⟨hother, h⟩

theorem lookup_erase_cases {tracking : AList fun _ : Repository => TrackingConfig}
    {repository other : Repository} {found : TrackingConfig}
    (h : (tracking.erase repository).lookup other = some found) :
    other ≠ repository ∧ tracking.lookup other = some found := by
  have hother : other ≠ repository := by
    rintro rfl
    rw [AList.lookup_erase] at h
    cases h
  exact ⟨hother, AList.lookup_erase_ne hother ▸ h⟩

theorem fits_of_repository {tracking : AList fun _ : Repository => TrackingConfig}
    {state : ClaimState} (h : state.repository = none) : Fits registrations tracking j state where
  own _ hr := by
    rw [h] at hr
    cases hr
  naming _ _ _ hstate := by
    rw [hstate] at h
    cases h
  saving _ _ hstate := by
    rw [hstate] at h
    cases h
  mapped _ _ hmapped := by
    rw [repository_of_leasedRepository (leasedRepository_of_mapped hmapped)] at h
    cases h

/-- A claim that has found out nothing new. -/
theorem Fits.advance {tracking : AList fun _ : Repository => TrackingConfig}
    {old state : ClaimState} (h : Fits registrations tracking j old)
    (hrepository : state.repository = old.repository)
    (hnaming : ∀ repository claimed n, state ≠ .naming repository claimed n)
    (hsaving : ∀ repository file, state ≠ .saving repository file)
    (hmapped : state.mapped = none ∨ state.mapped = old.mapped) :
    Fits registrations tracking j state where
  own repository hr := h.own repository (hrepository ▸ hr)
  naming repository claimed n hstate := absurd hstate (hnaming repository claimed n)
  saving repository file hstate := absurd hstate (hsaving repository file)
  mapped repository file hm := by
    rcases hmapped with hnone | hsame
    · rw [hnone] at hm
      cases hm
    · exact h.mapped repository file (hsame ▸ hm)

theorem mapped_start (dirs : Str → Option Instant) :
    Mapped registrations (start dirs : WorkRoot J K) where
  distinct _ _ _ _ _ h := by
    rw [show (start dirs : WorkRoot J K).tracking = ∅ from rfl, AList.lookup_empty] at h
    cases h
  derived _ _ h := by
    rw [show (start dirs : WorkRoot J K).tracking = ∅ from rfl, AList.lookup_empty] at h
    cases h
  claims _ := fits_of_repository rfl
  pruning _ _ _ _ := nofun

theorem fits_next (h : Mapped registrations s) (hcurrent : Current s (.next j fails)) :
    Fits registrations (s.next registrations j fails).tracking j
      ((s.next registrations j fails).claims j) := by
  have hown := h.claims j
  have ended : Fits registrations s.tracking j ((s.endClaim j).claims j) := by
    rw [endClaim, setClaim_self]
    exact fits_of_repository rfl
  unfold next
  cases hstate : s.claims j with
  | idle => exact hown
  | entering repository =>
    rw [hstate] at hown
    dsimp only
    split
    · exact ended
    · split
      · rw [setClaim_self]
        exact hown.advance rfl (by simp) (by simp) (.inl rfl)
      · rw [hstate]
        exact hown
  | leasing repository =>
    rw [hstate] at hown
    dsimp only
    split
    · split
      · exact ended
      · rw [setClaim_self]
        exact hown.advance rfl (by simp) (by simp) (.inl rfl)
    · split
      · rw [setClaim_self]
        exact fits_of_repository rfl
      · rw [hstate]
        exact hown
  | loading repository =>
    rw [hstate] at hown
    have scans : Fits registrations s.tracking j (.scanning repository []) :=
      hown.advance rfl (by simp) (by simp) (.inl rfl)
    dsimp only
    split
    case h_1 tracking hlookup =>
      split
      · -- its own file still names its own directory
        rw [setClaim_self]
        refine ⟨hown.own, by simp, ?_, by simp [ClaimState.mapped]⟩
        rintro _ _ ⟨⟩
        exact ⟨(h.derived repository tracking hlookup).2,
          fun other file hne hother => h.distinct other repository file tracking hne hother hlookup⟩
      · rw [setClaim_self]
        exact scans
    case h_2 =>
      rw [setClaim_self]
      exact scans
  | scanning repository claimed =>
    rw [hstate] at hown
    rw [setClaim_self]
    refine ⟨hown.own, ?_, by simp, by simp [ClaimState.mapped]⟩
    rintro _ _ _ ⟨⟩ other file hfile
    have hall : ∀ entry ∈ s.tracking.entries,
        asciiLower entry.2.pipelineDirectory ∈ claimed := by
      simpa only [Current, hstate] using hcurrent
    exact hall ⟨other, file⟩ (AList.mem_lookup_iff.mp hfile)
  | naming repository claimed n =>
    rw [hstate] at hown
    have hclaimed := hown.naming repository claimed n rfl
    dsimp only
    split
    case isTrue => exact ended
    case isFalse hn =>
      split
      case isTrue =>
        rw [setClaim_self]
        refine ⟨hown.own, ?_, by simp, by simp [ClaimState.mapped]⟩
        rintro _ _ _ ⟨⟩
        exact hclaimed
      case isFalse hfree =>
        rw [setClaim_self]
        refine ⟨hown.own, by simp, ?_, by simp [ClaimState.mapped]⟩
        rintro _ _ ⟨⟩
        refine ⟨⟨n, not_le.mp hn, rfl⟩, fun other file _ hfile heq => hfree ?_⟩
        -- a file that named the candidate would have been read
        have hmem : asciiLower (candidate repository.name n) ∈ claimed :=
          heq ▸ hclaimed other file hfile
        simp only [isTaken, hmem, decide_true, Bool.or_true, Bool.true_or]
  | saving repository file =>
    rw [hstate] at hown
    dsimp only
    split
    · exact ended
    · rw [setClaim_self]
      refine ⟨hown.own, by simp, by simp, ?_⟩
      rintro _ _ ⟨⟩
      exact AList.lookup_insert _
  | leaving repository file =>
    rw [hstate] at hown
    rw [setClaim_self]
    exact hown.advance rfl (by simp) (by simp) (.inr rfl)
  | stable repository file =>
    rw [hstate] at hown
    dsimp only
    split
    · exact ended
    · split
      · rw [setClaim_self]
        exact hown.advance rfl (by simp) (by simp) (.inr rfl)
      · rw [setClaim_self]
        exact hown.advance rfl (by simp) (by simp) (.inr rfl)
  | cleaned repository file =>
    rw [hstate] at hown
    dsimp only
    split
    · exact ended
    · rw [setClaim_self]
      exact hown.advance rfl (by simp) (by simp) (.inr rfl)
  | working repository file => exact hown
  | fresh =>
    dsimp only
    split
    · exact ended
    · rw [setClaim_self]
      exact fits_of_repository rfl
  | opened file =>
    dsimp only
    split
    · split
      · exact ended
      · rw [setClaim_self]
        exact fits_of_repository rfl
    · split
      · exact ended
      · rw [hstate]
        exact fits_of_repository rfl
  | leased file =>
    dsimp only
    split
    · rw [endClaim, setClaim_self]
      exact fits_of_repository rfl
    · rw [setClaim_self]
      exact fits_of_repository rfl
  | owned file =>
    dsimp only
    split
    · exact ended
    · rw [setClaim_self]
      exact fits_of_repository rfl
  | freshWorking file => exact hown
  | ended => exact hown

/-- Nothing is written, and nobody removes what it has not looked up. -/
theorem mapped_of_tracking (h : Mapped registrations s) (htracking : t.tracking = s.tracking)
    (hclaims : ∀ j, t.claims j = s.claims j ∨ Fits registrations s.tracking j (t.claims j))
    (hsweeps : ∀ k repository tracking current,
      (t.sweeps k).stage = .pruning repository tracking current →
        (s.sweeps k).stage = .pruning repository tracking current ∨
          s.tracking.lookup repository = some current) : Mapped registrations t where
  distinct := htracking ▸ h.distinct
  derived := htracking ▸ h.derived
  claims j := by
    rw [htracking]
    rcases hclaims j with heq | hfits
    · rw [heq]
      exact h.claims j
    · exact hfits
  pruning k repository tracking current hk := by
    rw [htracking]
    exact (hsweeps k repository tracking current hk).elim (h.pruning k repository tracking current) id

theorem mapped_next (h : Mapped registrations s) (hlocked : Locked s)
    (hcurrent : Current s (.next j fails)) : Mapped registrations (s.next registrations j fails) := by
  have hfits := fits_next h hcurrent
  rcases next_tracking registrations s j fails with
    hsame | ⟨repository, file, hsaving, -, hinsert⟩
  · apply mapped_of_tracking h hsame
    · intro j'
      by_cases hj : j' = j
      · subst hj
        exact .inr (hsame ▸ hfits)
      · exact .inl (next_claims_of_ne hj)
    · intro k repository tracking current hk
      rw [next_sweeps] at hk
      exact .inl hk
  · have hown := h.claims j
    rw [hsaving] at hown
    obtain ⟨hderived, hothers⟩ := hown.saving repository file rfl
    have hlease : s.leases repository = some (.inl j) :=
      hlocked.lease j repository (by rw [hsaving]; rfl)
    have hroot : s.rootLock = some j := hlocked.root j (by rw [hsaving]; rfl)
    refine ⟨?_, ?_, fun j' => ?_, ?_⟩
    · rw [hinsert]
      intro r r' tracking tracking' hne hr hr'
      rcases lookup_insert_cases hr with ⟨rfl, rfl⟩ | ⟨hnew, hold⟩ <;>
        rcases lookup_insert_cases hr' with ⟨rfl, rfl⟩ | ⟨hnew', hold'⟩
      · exact absurd rfl hne
      · exact (hothers r' tracking' hnew' hold').symm
      · exact hothers r tracking hnew hold
      · exact h.distinct r r' tracking tracking' hne hold hold'
    · rw [hinsert]
      intro r tracking hr
      rcases lookup_insert_cases hr with ⟨rfl, rfl⟩ | ⟨-, hr⟩
      · exact ⟨⟨j, hown.own r rfl⟩, hderived⟩
      · exact h.derived r tracking hr
    · by_cases hj : j' = j
      · subst hj
        exact hfits
      -- only one claim is in the root, and only one has the repository
      rw [next_claims_of_ne hj, hinsert]
      have hout : (s.claims j').inRoot = true → False := fun hin =>
        hj (Option.some.inj ((hlocked.root j' hin).symm.trans hroot))
      refine ⟨(h.claims j').own, fun _ _ _ hstate => ?_, fun _ _ hstate => ?_, ?_⟩
      · exact (hout (by rw [hstate]; rfl)).elim
      · exact (hout (by rw [hstate]; rfl)).elim
      · intro r found hfound
        have hr : r ≠ repository := by
          rintro rfl
          have hlease' := hlocked.lease j' r (leasedRepository_of_mapped hfound)
          exact hj (Sum.inl.inj (Option.some.inj (hlease'.symm.trans hlease)))
        rw [AList.lookup_insert_ne hr]
        exact (h.claims j').mapped r found hfound
    · intro k r tracking current hk
      rw [next_sweeps] at hk
      have hr : r ≠ repository := by
        rintro rfl
        have hlease' := hlocked.sweepLease k r (by rw [hk]; rfl)
        exact nomatch hlease'.symm.trans hlease
      rw [hinsert, AList.lookup_insert_ne hr]
      exact h.pruning k r tracking current hk

theorem mapped_sweep (h : Mapped registrations s) (hlocked : Locked s) :
    Mapped registrations (s.sweep registrations k fails) := by
  have hclaims := sweep_claims registrations s k fails
  rcases sweep_tracking registrations s k fails with
    hsame | ⟨repository, file, hstage, hscanning, herase⟩
  · apply mapped_of_tracking h hsame
    · exact fun j => .inl (congrFun hclaims j)
    · intro k' repository tracking current hk
      by_cases hk' : k' = k
      · subst hk'
        exact sweep_pruning repository tracking current hk
      · rw [sweep_sweeps_of_ne hk'] at hk
        exact .inl hk
  · have hlease : s.leases repository = some (.inr k) :=
      hlocked.sweepLease k repository (by rw [hstage]; rfl)
    refine ⟨?_, ?_, fun j => ?_, ?_⟩
    · rw [herase]
      intro r r' tracking tracking' hne hr hr'
      exact h.distinct r r' tracking tracking' hne (lookup_erase_cases hr).2
        (lookup_erase_cases hr').2
    · rw [herase]
      intro r tracking hr
      exact h.derived r tracking (lookup_erase_cases hr).2
    · rw [hclaims, herase]
      have hown := h.claims j
      refine ⟨hown.own, fun r claimed n hstate other found hfound => ?_,
        fun r found hstate => ?_, fun r found hfound => ?_⟩
      · exact hown.naming r claimed n hstate other found (lookup_erase_cases hfound).2
      · obtain ⟨hderived, hothers⟩ := hown.saving r found hstate
        exact ⟨hderived, fun other otherFile hne hother =>
          hothers other otherFile hne (lookup_erase_cases hother).2⟩
      · -- the lease of the repository is with the sweep
        have hr : r ≠ repository := by
          rintro rfl
          have hlease' := hlocked.lease j r (leasedRepository_of_mapped hfound)
          exact nomatch hlease'.symm.trans hlease
        rw [AList.lookup_erase_ne hr]
        exact hown.mapped r found hfound
    · intro k' r tracking current hk
      have hne : k' ≠ k := by
        rintro rfl
        rw [hscanning] at hk
        cases hk
      rw [sweep_sweeps_of_ne hne] at hk
      have hr : r ≠ repository := by
        rintro rfl
        have hlease' := hlocked.sweepLease k' r (by rw [hk]; rfl)
        exact hne (Sum.inr.inj (Option.some.inj (hlease'.symm.trans hlease)))
      rw [herase, AList.lookup_erase_ne hr]
      exact h.pruning k' r tracking current hk

theorem mapped_setSweep {sweep : Sweep} (h : Mapped registrations s)
    (hstage : ∀ repository tracking current,
      sweep.stage = .pruning repository tracking current →
        (s.sweeps k).stage = .pruning repository tracking current) :
    Mapped registrations (s.setSweep k sweep) := by
  refine mapped_of_tracking (t := s.setSweep k sweep) h rfl (fun _ => .inl rfl) ?_
  intro k' repository tracking current hk
  rw [setSweep_sweeps] at hk
  split at hk
  case isTrue heq => exact .inl (heq ▸ hstage repository tracking current hk)
  case isFalse => exact .inl hk

theorem mapped_setClaim {state : ClaimState} (h : Mapped registrations s)
    (htracking : t.tracking = s.tracking) (hclaims : t.claims = s.claims)
    (hsweeps : t.sweeps = s.sweeps) (hstate : Fits registrations s.tracking j state) :
    Mapped registrations (t.setClaim j state) := by
  apply mapped_of_tracking (t := t.setClaim j state) h htracking
  · intro j'
    rw [setClaim_claims, hclaims]
    split
    case isTrue heq => exact .inr (heq ▸ hstate)
    case isFalse => exact .inl rfl
  · intro k repository tracking current hk
    exact .inl (hsweeps ▸ hk)

theorem mapped_step (h : Mapped registrations s) (hlocked : Locked s) (e : WorkEvent J K)
    (hcurrent : Current s e) : Mapped registrations (s.step registrations e) := by
  cases e with
  | claim j =>
    unfold step
    dsimp only
    split
    case h_1 repository _ hrepository =>
      apply mapped_setClaim h rfl rfl rfl
      refine ⟨?_, nofun, nofun, nofun⟩
      rintro _ ⟨⟩
      exact hrepository
    case h_2 => exact mapped_setClaim h rfl rfl rfl (fits_of_repository rfl)
    case h_3 => exact h
  | next j fails => exact mapped_next h hlocked hcurrent
  | read j repository =>
    unfold step
    dsimp only
    split
    case h_1 own claimed _ hstate _ =>
      have hown := h.claims j
      rw [hstate] at hown
      exact mapped_setClaim h rfl rfl rfl (hown.advance rfl nofun nofun (.inl rfl))
    case h_2 => exact h
  | drop j => exact mapped_setClaim h rfl rfl rfl (fits_of_repository rfl)
  | gc k =>
    unfold step
    dsimp only
    split
    · exact mapped_setSweep h nofun
    · exact h
  | list k name =>
    unfold step
    dsimp only
    split
    · exact mapped_setSweep h fun _ _ _ => id
    · exact h
  | scan k repository fails =>
    show Mapped registrations (s.scan registrations k repository fails)
    unfold scan
    split
    case h_1 hstage =>
      split
      · exact mapped_setSweep h fun _ _ _ => id
      · split
        · exact mapped_setSweep h nofun
        · exact mapped_setSweep h nofun
    case h_2 => exact h
  | visit k name =>
    unfold step
    dsimp only
    split
    · exact mapped_setSweep h nofun
    · exact h
  | sweep k fails => exact mapped_sweep h hlocked
  | delete k => exact h
  | die k =>
    have hgone : Mapped registrations (s.letGo (.inr k)) :=
      mapped_of_tracking h rfl (fun _ => .inl rfl) fun _ _ _ _ => .inl
    exact mapped_setSweep hgone nofun
  | touch name mtime =>
    unfold step
    dsimp only
    split
    · exact mapped_of_tracking h rfl (fun _ => .inl rfl) fun _ _ _ _ => .inl
    · exact h
  | clock now => exact mapped_of_tracking h rfl (fun _ => .inl rfl) fun _ _ _ _ => .inl

end WorkRoot

end GhRunner.Execution
