import GhRunner.Execution.Workspaces

set_option linter.unusedSectionVars false

namespace GhRunner.Execution

open Text Paths Machine

/-!
# The locks of a work root

The lock of the root, the leases of the repositories and those of the fresh jobs belong to whoever
is in the section that they guard.

* `Locked` — that;
* `LocksKept` — what somebody's steps leave of the locks of the others;
* `locked_step` — every event keeps it.
-/

namespace ClaimState

/-- Whether the claim has the lock of the root. -/
def inRoot : ClaimState → Bool
  | .leasing _ | .loading _ | .scanning _ _ | .naming _ _ _ | .saving _ _ | .leaving _ _ => true
  | _ => false

def repository : ClaimState → Option Repository
  | .entering repository | .leasing repository | .loading repository | .scanning repository _
  | .naming repository _ _ | .saving repository _ | .leaving repository _ | .stable repository _
  | .cleaned repository _ | .working repository _ => some repository
  | _ => none

/-- The repository whose lease it has. -/
def leasedRepository : ClaimState → Option Repository
  | .loading repository | .scanning repository _ | .naming repository _ _ | .saving repository _
  | .leaving repository _ | .stable repository _ | .cleaned repository _
  | .working repository _ => some repository
  | _ => none

def openedFile : ClaimState → Option LeaseFile
  | .opened file | .leased file | .owned file | .freshWorking file => some file
  | _ => none

def lockedFile : ClaimState → Option LeaseFile
  | .leased file | .owned file | .freshWorking file => some file
  | _ => none

/-- The directory of the job's id has not been made. -/
def unborn : ClaimState → Bool
  | .freshWorking _ | .ended => false
  | _ => true

end ClaimState

namespace SweepStage

def leasedRepository : SweepStage → Option Repository
  | .rereading repository _ | .pruning repository _ _ | .forgetting repository _ => some repository
  | _ => none

/-- The entry of the root it is at. -/
def entry : SweepStage → Option Str
  | .looking name | .judging name | .removingOld name | .asking name | .opening name
  | .locking name _ | .weighing name _ | .removingFresh name _ | .unlinking name _ => some name
  | _ => none

/-- The same, where only its age counts. -/
def byAge : SweepStage → Option Str
  | .judging name | .removingOld name => some name
  | _ => none

/-- The same, where it has a lease file. -/
def byLease : SweepStage → Option Str
  | .asking name | .opening name | .locking name _ | .weighing name _ | .removingFresh name _
  | .unlinking name _ => some name
  | _ => none

def openedFile : SweepStage → Option (Str × LeaseFile)
  | .locking name file | .weighing name file | .removingFresh name file
  | .unlinking name file => some (name, file)
  | _ => none

def lockedFile : SweepStage → Option LeaseFile
  | .weighing _ file | .removingFresh _ file | .unlinking _ file => some file
  | _ => none

end SweepStage

namespace WorkRoot

variable {J K : Type} [DecidableEq J] [DecidableEq K] (registrations : Registrations J K)

/-- Whatever is locked is locked by the one who is in the section. -/
structure Locked (s : WorkRoot J K) : Prop where
  root : ∀ j, (s.claims j).inRoot = true → s.rootLock = some j
  lease : ∀ j repository, (s.claims j).leasedRepository = some repository →
    s.leases repository = some (.inl j)
  sweepLease : ∀ k repository, (s.sweeps k).stage.leasedRepository = some repository →
    s.leases repository = some (.inr k)
  file : ∀ j file, (s.claims j).lockedFile = some file → s.locks file = some (.inl j)
  sweepFile : ∀ k file, (s.sweeps k).stage.lockedFile = some file →
    s.locks file = some (.inr k)

variable {registrations} {s t : WorkRoot J K} {j : J} {k : K}

theorem setClaim_claims (s : WorkRoot J K) (j j' : J) (state : ClaimState) :
    (s.setClaim j state).claims j' = if j' = j then state else s.claims j' :=
  Function.update_apply _ _ _ _

theorem setSweep_sweeps (s : WorkRoot J K) (k k' : K) (sweep : Sweep) :
    (s.setSweep k sweep).sweeps k' = if k' = k then sweep else s.sweeps k' :=
  Function.update_apply _ _ _ _

theorem setDir_dirs (s : WorkRoot J K) (name other : Str) (mtime : Option Instant) :
    (s.setDir name mtime).dirs other = if other = name then mtime else s.dirs other :=
  Function.update_apply _ _ _ _

/-! ### Locks -/

theorem openFile_of_some {name : Str} {file : LeaseFile} (h : s.leaseFiles name = some file) :
    s.openFile name = (s, file) := by
  simp only [openFile, h]

theorem openFile_leaseFiles (s : WorkRoot J K) (name other : Str) :
    (s.openFile name).1.leaseFiles other =
      if other = name then some (s.openFile name).2 else s.leaseFiles other := by
  unfold openFile
  cases h : s.leaseFiles name with
  | some file =>
    show s.leaseFiles other = _
    split
    case isTrue heq => rw [heq, h]
    case isFalse => rfl
  | none => exact Function.update_apply _ _ _ _

theorem locked_start (dirs : Str → Option Instant) : Locked (start dirs : WorkRoot J K) :=
  ⟨nofun, nofun, nofun, nofun, nofun⟩

/-- What `who` does to the locks leaves those of the others. -/
structure LocksKept (who : J ⊕ K) (s t : WorkRoot J K) : Prop where
  root : ∀ j, Sum.inl j ≠ who → s.rootLock = some j → t.rootLock = some j
  lease : ∀ repository holder, holder ≠ who → s.leases repository = some holder →
    t.leases repository = some holder
  file : ∀ file holder, holder ≠ who → s.locks file = some holder → t.locks file = some holder
  claims : t.claims = s.claims
  sweeps : t.sweeps = s.sweeps

theorem LocksKept.of_eq {who : J ⊕ K} (hroot : t.rootLock = s.rootLock) (hleases : t.leases = s.leases)
    (hlocks : t.locks = s.locks) (hclaims : t.claims = s.claims) (hsweeps : t.sweeps = s.sweeps) :
    LocksKept who s t :=
  ⟨fun _ _ h => hroot ▸ h, fun _ _ _ h => hleases ▸ h, fun _ _ _ h => hlocks ▸ h, hclaims, hsweeps⟩

theorem locksKept_letGo (s : WorkRoot J K) (who : J ⊕ K) : LocksKept who s (s.letGo who) where
  root _ hj h := Option.filter_eq_some_iff.mpr ⟨h, decide_eq_true hj⟩
  lease _ _ hholder h := Option.filter_eq_some_iff.mpr ⟨h, decide_eq_true hholder⟩
  file _ _ hholder h := Option.filter_eq_some_iff.mpr ⟨h, decide_eq_true hholder⟩
  claims := rfl
  sweeps := rfl

/-- A free lease is taken. -/
theorem locksKept_lease {repository : Repository} (who : J ⊕ K)
    (hfree : s.leases repository = none) : LocksKept who s (s.lease repository who) where
  root _ _ h := h
  lease other holder _ h := by
    have hne : other ≠ repository := by
      rintro rfl
      rw [hfree] at h
      cases h
    exact (Function.update_of_ne hne _ _).trans h
  file _ _ _ h := h
  claims := rfl
  sweeps := rfl

theorem locksKept_lock {file : LeaseFile} (who : J ⊕ K) (hfree : s.locks file = none) :
    LocksKept who s (s.lock file who) where
  root _ _ h := h
  lease _ _ _ h := h
  file other holder _ h := by
    have hne : other ≠ file := by
      rintro rfl
      rw [hfree] at h
      cases h
    exact (Function.update_of_ne hne _ _).trans h
  claims := rfl
  sweeps := rfl

theorem locksKept_openFile (s : WorkRoot J K) (name : Str) (who : J ⊕ K) :
    LocksKept who s (s.openFile name).1 := by
  unfold openFile
  split <;> exact .of_eq rfl rfl rfl rfl rfl

/-- A job comes to a state whose locks it has. -/
theorem locked_setClaim {state : ClaimState} (h : Locked s) (hkept : LocksKept (.inl j) s t)
    (hroot : state.inRoot = true → t.rootLock = some j)
    (hlease : ∀ repository, state.leasedRepository = some repository →
      t.leases repository = some (.inl j))
    (hfile : ∀ file, state.lockedFile = some file → t.locks file = some (.inl j)) :
    Locked (t.setClaim j state) where
  root j' hj' := by
    rw [setClaim_claims, hkept.claims] at hj'
    split at hj'
    case isTrue heq => exact heq ▸ hroot hj'
    case isFalse hne => exact hkept.root j' (hne ∘ Sum.inl.inj) (h.root j' hj')
  lease j' repository hj' := by
    rw [setClaim_claims, hkept.claims] at hj'
    split at hj'
    case isTrue heq => exact heq ▸ hlease repository hj'
    case isFalse hne =>
      exact hkept.lease repository _ (hne ∘ Sum.inl.inj) (h.lease j' repository hj')
  sweepLease k repository hk :=
    hkept.lease repository _ nofun (h.sweepLease k repository (hkept.sweeps ▸ hk))
  file j' file hj' := by
    rw [setClaim_claims, hkept.claims] at hj'
    split at hj'
    case isTrue heq => exact heq ▸ hfile file hj'
    case isFalse hne => exact hkept.file file _ (hne ∘ Sum.inl.inj) (h.file j' file hj')
  sweepFile k file hk := hkept.file file _ nofun (h.sweepFile k file (hkept.sweeps ▸ hk))

theorem locked_setSweep {sweep : Sweep} (h : Locked s) (hkept : LocksKept (.inr k) s t)
    (hlease : ∀ repository, sweep.stage.leasedRepository = some repository →
      t.leases repository = some (.inr k))
    (hfile : ∀ file, sweep.stage.lockedFile = some file → t.locks file = some (.inr k)) :
    Locked (t.setSweep k sweep) where
  root j hj := hkept.root j nofun (h.root j (hkept.claims ▸ hj))
  lease j repository hj :=
    hkept.lease repository _ nofun (h.lease j repository (hkept.claims ▸ hj))
  sweepLease k' repository hk' := by
    rw [setSweep_sweeps, hkept.sweeps] at hk'
    split at hk'
    case isTrue heq => exact heq ▸ hlease repository hk'
    case isFalse hne =>
      exact hkept.lease repository _ (hne ∘ Sum.inr.inj) (h.sweepLease k' repository hk')
  file j file hj := hkept.file file _ nofun (h.file j file (hkept.claims ▸ hj))
  sweepFile k' file hk' := by
    rw [setSweep_sweeps, hkept.sweeps] at hk'
    split at hk'
    case isTrue heq => exact heq ▸ hfile file hk'
    case isFalse hne => exact hkept.file file _ (hne ∘ Sum.inr.inj) (h.sweepFile k' file hk')

/-- The same for a move that needs no lock the job has not. -/
theorem locked_move {old state : ClaimState} (h : Locked s) (hold : s.claims j = old)
    (hkept : LocksKept (.inl j) s t)
    (hroot : state.inRoot = true → old.inRoot = true ∧ t.rootLock = s.rootLock)
    (hlease : ∀ repository, state.leasedRepository = some repository →
      old.leasedRepository = some repository ∧ t.leases = s.leases)
    (hfile : ∀ file, state.lockedFile = some file →
      old.lockedFile = some file ∧ t.locks = s.locks) : Locked (t.setClaim j state) := by
  subst hold
  apply locked_setClaim h hkept
  · exact fun hin => (hroot hin).2 ▸ h.root j (hroot hin).1
  · exact fun repository hr =>
      (hlease repository hr).2 ▸ h.lease j repository (hlease repository hr).1
  · exact fun file hf => (hfile file hf).2 ▸ h.file j file (hfile file hf).1

theorem locked_of_eq (h : Locked s) (hroot : t.rootLock = s.rootLock) (hleases : t.leases = s.leases)
    (hlocks : t.locks = s.locks) (hclaims : t.claims = s.claims) (hsweeps : t.sweeps = s.sweeps) :
    Locked t where
  root j hj := hroot ▸ h.root j (hclaims ▸ hj)
  lease j repository hj := hleases ▸ h.lease j repository (hclaims ▸ hj)
  sweepLease k repository hk := hleases ▸ h.sweepLease k repository (hsweeps ▸ hk)
  file j file hj := hlocks ▸ h.file j file (hclaims ▸ hj)
  sweepFile k file hk := hlocks ▸ h.sweepFile k file (hsweeps ▸ hk)

theorem locked_endClaim (h : Locked s) (j : J) : Locked (s.endClaim j) :=
  locked_setClaim h (locksKept_letGo s _) nofun nofun nofun

theorem locked_next (h : Locked s) (j : J) (fails : Bool) :
    Locked (s.next registrations j fails) := by
  have same : LocksKept (.inl j) s s := .of_eq rfl rfl rfl rfl rfl
  unfold next
  cases hstate : s.claims j with
  | idle => exact h
  | entering repository =>
    dsimp only
    split
    · exact locked_endClaim h j
    · split
      case h_1 hfree =>
        refine locked_setClaim h ⟨?_, fun _ _ _ h => h, fun _ _ _ h => h, rfl, rfl⟩ (fun _ => rfl)
          nofun nofun
        rintro j' - hj'
        rw [hfree] at hj'
        cases hj'
      case h_2 => exact h
  | leasing repository =>
    dsimp only
    split
    case h_1 hfree =>
      split
      · exact locked_endClaim h j
      · refine locked_setClaim h (locksKept_lease _ hfree)
          (fun _ => h.root j (by rw [hstate]; rfl)) ?_ nofun
        rintro _ ⟨⟩
        exact Function.update_self _ _ _
    case h_2 =>
      split
      · exact locked_setClaim h (locksKept_letGo s _) nofun nofun nofun
      · exact h
  | loading repository =>
    have moves (state : ClaimState) (hin : state.inRoot = true)
        (hr : state.leasedRepository = some repository) (hf : state.lockedFile = none) :
        Locked (s.setClaim j state) := by
      apply locked_move h hstate same
      · exact fun _ => ⟨rfl, rfl⟩
      · exact fun _ hr' => ⟨hr.symm.trans hr', rfl⟩
      · exact fun _ hf' => nomatch hf.symm.trans hf'
    dsimp only
    split
    · split
      · exact moves _ rfl rfl rfl
      · exact moves _ rfl rfl rfl
    · exact moves _ rfl rfl rfl
  | scanning repository claimed =>
    exact locked_move h hstate same (⟨·, rfl⟩) (fun _ => (⟨·, rfl⟩)) nofun
  | naming repository claimed n =>
    dsimp only
    split
    · exact locked_endClaim h j
    · split
      · exact locked_move h hstate same (⟨·, rfl⟩) (fun _ => (⟨·, rfl⟩)) nofun
      · exact locked_move h hstate same (⟨·, rfl⟩) (fun _ => (⟨·, rfl⟩)) nofun
  | saving repository tracking =>
    dsimp only
    split
    · exact locked_endClaim h j
    · exact locked_move h hstate (.of_eq rfl rfl rfl rfl rfl) (⟨·, rfl⟩) (fun _ => (⟨·, rfl⟩)) nofun
  | leaving repository tracking =>
    -- the lock of the root was its own
    have hroot : s.rootLock = some j := h.root j (by rw [hstate]; rfl)
    refine locked_move h hstate ⟨fun j' hne hj' => ?_, fun _ _ _ h => h, fun _ _ _ h => h, rfl, rfl⟩
      nofun (fun _ => (⟨·, rfl⟩)) nofun
    exact absurd (congrArg Sum.inl (Option.some.inj (hj'.symm.trans hroot))) hne
  | stable repository tracking =>
    dsimp only
    split
    · exact locked_endClaim h j
    · split
      · exact locked_move h hstate (.of_eq rfl rfl rfl rfl rfl) nofun (fun _ => (⟨·, rfl⟩)) nofun
      · exact locked_move h hstate same nofun (fun _ => (⟨·, rfl⟩)) nofun
  | cleaned repository tracking =>
    dsimp only
    split
    · exact locked_endClaim h j
    · exact locked_move h hstate (.of_eq rfl rfl rfl rfl rfl) nofun (fun _ => (⟨·, rfl⟩)) nofun
  | working repository tracking => exact h
  | fresh =>
    dsimp only
    split
    · exact locked_endClaim h j
    · exact locked_move h hstate (locksKept_openFile s _ _) nofun nofun nofun
  | opened file =>
    dsimp only
    split
    case h_1 hfree =>
      split
      · exact locked_endClaim h j
      · refine locked_setClaim h (locksKept_lock _ hfree) nofun nofun ?_
        rintro _ ⟨⟩
        exact Function.update_self _ _ _
    case h_2 =>
      split
      · exact locked_endClaim h j
      · exact h
  | leased file =>
    dsimp only
    split
    · exact locked_endClaim (locked_of_eq (t := s.removeFile (registrations.job j).jobDir) h
        rfl rfl rfl rfl rfl) j
    · exact locked_move h hstate (.of_eq rfl rfl rfl rfl rfl) nofun nofun (fun _ => (⟨·, rfl⟩))
  | owned file =>
    dsimp only
    split
    · exact locked_endClaim h j
    · exact locked_move h hstate (.of_eq rfl rfl rfl rfl rfl) nofun nofun (fun _ => (⟨·, rfl⟩))
  | freshWorking file => exact h
  | ended => exact h

/-- A sweep goes on with no lock that it has not. -/
theorem locked_turn {old : SweepStage} {sweep : Sweep} (h : Locked s)
    (hold : (s.sweeps k).stage = old) (hkept : LocksKept (.inr k) s t)
    (hlease : ∀ repository, sweep.stage.leasedRepository = some repository →
      old.leasedRepository = some repository ∧ t.leases = s.leases)
    (hfile : ∀ file, sweep.stage.lockedFile = some file →
      old.lockedFile = some file ∧ t.locks = s.locks) : Locked (t.setSweep k sweep) := by
  subst hold
  apply locked_setSweep h hkept
  · exact fun repository hr =>
      (hlease repository hr).2 ▸ h.sweepLease k repository (hlease repository hr).1
  · exact fun file hf => (hfile file hf).2 ▸ h.sweepFile k file (hfile file hf).1

theorem locked_sweep (h : Locked s) (k : K) (fails : Bool) :
    Locked (s.sweep registrations k fails) := by
  have same : LocksKept (.inr k) s s := .of_eq rfl rfl rfl rfl rfl
  have keep (tracking : TrackingConfig) : Locked (s.keepStable k tracking) :=
    locked_setSweep h same nofun nofun
  have gone := locksKept_letGo s (.inr k)
  have drop (tracking : TrackingConfig) : Locked ((s.letGo (.inr k)).keepStable k tracking) :=
    locked_setSweep h gone nofun nofun
  unfold sweep
  cases hstage : (s.sweeps k).stage with
  | idle => exact h
  | finished => exact h
  | scanning =>
    dsimp only
    split <;> exact locked_setSweep h same nofun nofun
  | leasing repository tracking =>
    dsimp only
    split
    case h_1 hfree =>
      split
      · exact keep tracking
      · refine locked_setSweep h (locksKept_lease _ hfree) ?_ nofun
        rintro _ ⟨⟩
        exact Function.update_self _ _ _
    case h_2 =>
      split
      · exact keep tracking
      · exact h
  | rereading repository tracking =>
    dsimp only
    split
    · split
      · exact locked_turn h hstage same (fun _ => (⟨·, rfl⟩)) nofun
      · exact drop tracking
    · exact drop tracking
  | pruning repository tracking current =>
    dsimp only
    split
    · exact drop tracking
    · exact locked_turn h hstage (.of_eq rfl rfl rfl rfl rfl) (fun _ => (⟨·, rfl⟩)) nofun
  | forgetting repository tracking =>
    dsimp only
    split
    · exact drop tracking
    · exact locked_setSweep h ⟨gone.root, gone.lease, gone.file, rfl, rfl⟩ nofun nofun
  | sweeping => exact locked_setSweep h same nofun nofun
  | looking name =>
    dsimp only
    split <;> exact locked_setSweep h same nofun nofun
  | judging name =>
    dsimp only
    split <;> exact locked_setSweep h same nofun nofun
  | removingOld name =>
    dsimp only
    split
    · exact locked_setSweep h same nofun nofun
    · exact locked_setSweep h (.of_eq rfl rfl rfl rfl rfl) nofun nofun
  | asking name =>
    dsimp only
    split
    · split <;> exact locked_setSweep h same nofun nofun
    · split <;> exact locked_setSweep h same nofun nofun
  | opening name =>
    dsimp only
    split
    · exact locked_setSweep h same nofun nofun
    · exact locked_setSweep h (locksKept_openFile s name _) nofun nofun
  | locking name file =>
    dsimp only
    split
    case h_1 hfree =>
      split
      · exact locked_setSweep h same nofun nofun
      · refine locked_setSweep h (locksKept_lock _ hfree) nofun ?_
        rintro _ ⟨⟩
        exact Function.update_self _ _ _
    case h_2 =>
      split
      · exact locked_setSweep h same nofun nofun
      · exact h
  | weighing name file =>
    dsimp only
    split
    · exact locked_turn h hstage same nofun (fun _ => (⟨·, rfl⟩))
    · exact locked_setSweep h gone nofun nofun
  | removingFresh name file =>
    dsimp only
    split
    · exact locked_setSweep h gone nofun nofun
    · exact locked_turn h hstage (.of_eq rfl rfl rfl rfl rfl) nofun (fun _ => (⟨·, rfl⟩))
  | unlinking name file =>
    dsimp only
    split
    · exact locked_setSweep h gone nofun nofun
    · exact locked_setSweep h ⟨gone.root, gone.lease, gone.file, rfl, rfl⟩ nofun nofun

theorem locked_step (h : Locked s) (e : WorkEvent J K) : Locked (s.step registrations e) := by
  have same (who : J ⊕ K) : LocksKept who s s := .of_eq rfl rfl rfl rfl rfl
  cases e with
  | claim j =>
    unfold step
    dsimp only
    split
    · exact locked_setClaim h (same _) nofun nofun nofun
    · exact locked_setClaim h (same _) nofun nofun nofun
    · exact h
  | next j fails => exact locked_next h j fails
  | read j repository =>
    unfold step
    dsimp only
    split
    case h_1 own claimed _ hstate _ =>
      exact locked_move h hstate (same _) (⟨·, rfl⟩) (fun _ => (⟨·, rfl⟩)) nofun
    case h_2 => exact h
  | drop j => exact locked_endClaim h j
  | gc k =>
    unfold step
    dsimp only
    split
    · exact locked_setSweep h (same _) nofun nofun
    · exact h
  | list k name =>
    unfold step
    dsimp only
    split
    · exact locked_turn h rfl (same _) (fun _ => (⟨·, rfl⟩)) (fun _ => (⟨·, rfl⟩))
    · exact h
  | scan k repository fails =>
    show Locked (s.scan registrations k repository fails)
    unfold scan
    split
    · split
      · exact locked_turn h rfl (same _) (fun _ => (⟨·, rfl⟩)) (fun _ => (⟨·, rfl⟩))
      · split
        · exact locked_setSweep h (same _) nofun nofun
        · exact locked_setSweep h (same _) nofun nofun
    · exact h
  | visit k name =>
    unfold step
    dsimp only
    split
    · exact locked_setSweep h (same _) nofun nofun
    · exact h
  | sweep k fails => exact locked_sweep h k fails
  | delete k => exact h
  | die k => exact locked_setSweep h (locksKept_letGo s _) nofun nofun
  | touch name mtime =>
    unfold step
    dsimp only
    split
    · exact locked_of_eq h rfl rfl rfl rfl rfl
    · exact h
  | clock now => exact locked_of_eq h rfl rfl rfl rfl rfl

end WorkRoot

end GhRunner.Execution
