import GhRunner.Lib.Machine
import GhRunner.Lib.Paths
import GhRunner.Execution.ActionRef
import Mathlib.Data.List.AList
import Mathlib.Algebra.Order.Ring.Nat

set_option linter.unusedSectionVars false

namespace GhRunner.Execution

open Text Paths Machine

/-!
# Workspaces on a shared work root

How jobs come by their directories, and how the sweeps of any registration remove the old ones
(`crates/execution/src/execution/workspace_layout.rs`, `workspace_lease.rs`, `workspace_tracking.rs`,
`workspace_gc.rs`; `sanitize_job_id` of `crates/shared/src/paths.rs`).

* `Repository`, `TrackingConfig` — what a stable workspace belongs to, and the file that says so;
* `candidate` — the directories a repository may be given;
* `Registrations` — the jobs and the sweeps of the registrations that share the root;
* `ClaimState` — where a job is in `prepare_workspace` and `create_dirs`, one step after the other;
* `SweepStage`, `Sweep` — where a sweep is in `gc_workspaces`;
* `WorkRoot`, `WorkEvent`, `step` — the root with its locks, files and directories;
* `holds`, `removes` — the directory of a live job, and the one that a step of a sweep removes.
-/

/-! ### Names -/

/-- Exactly one normal path component. -/
def isSingleComponent (name : Str) : Bool :=
  (match components name with
    | [.normal _] => true
    | _ => false) && name.all fun c => c ∉ ['/', '\\', '\x00']

structure Repository where
  owner : Str
  name : Str
  valid : (isSingleComponent owner && isSingleComponent name && owner.head? != some '_') = true
deriving DecidableEq

namespace Repository

/-- Parse `owner/name`. -/
def parse (fullName : Str) : Option Repository :=
  match splitFirst ['/'] fullName with
  | some (owner, name) =>
    if h : (isSingleComponent owner && isSingleComponent name && owner.head? != some '_') = true then
      some ⟨owner, name, h⟩
    else none
  | none => none

def fullName (repository : Repository) : Str := repository.owner ++ '/' :: repository.name

end Repository

def sanitizeJobId (jobId : Str) : Str :=
  jobId.map fun c => if safeChar "._-".toList c then c else '_'

def mappingDir : Str := "_PipelineMapping".toList

/-- Upper bound on collision suffixes before giving up. -/
def maxSuffix : ℕ := 1000

/-- The repository's name, and the same with the suffixes from 2 on. -/
def candidate (name : Str) (n : ℕ) : Str :=
  if n = 0 then name else name ++ '_' :: Nat.toDigits 10 (n + 1)

/-- A directory that a repository may be given. -/
def Derived (repository : Repository) (pipeline : Str) : Prop :=
  ∃ n < maxSuffix, pipeline = candidate repository.name n

/-- Whether `name` is one that could be allocated for `repo`, both in lower case. -/
def isPipelineNameFor (name repo : Str) : Bool :=
  repo.isPrefixOf name &&
    match name.drop repo.length with
    | [] => true
    | c :: digits => c = '_' && !digits.isEmpty && digits.all Char.isDigit

/-! ### The tracking file -/

/-- In nanoseconds. -/
abbrev Instant := ℕ

def unixSeconds (time : Instant) : ℕ := time / 1000000000

structure TrackingConfig where
  repositoryName : Str
  pipelineDirectory : Str
  workspaceDirectory : Str
  lastRunOnUnix : ℕ
  dataDir : Str
deriving DecidableEq

namespace TrackingConfig

/-- A new mapping of `fullName` to `<pipeline>/<name>`. -/
def new (fullName name pipeline : Str) : TrackingConfig where
  repositoryName := fullName
  pipelineDirectory := pipeline
  workspaceDirectory := pipeline ++ '/' :: name
  lastRunOnUnix := 0
  dataDir := []

/-- Whether this mapping is for `fullName` and only names directories directly under the root. -/
def isUsableFor (tracking : TrackingConfig) (fullName : Str) : Bool :=
  asciiLower tracking.repositoryName = asciiLower fullName &&
    isSingleComponent tracking.pipelineDirectory &&
    asciiLower tracking.pipelineDirectory != asciiLower mappingDir &&
    match (components tracking.workspaceDirectory).getLast? with
    | some (.normal rest) =>
      components tracking.workspaceDirectory =
        components tracking.pipelineDirectory ++ [.normal rest] && isSingleComponent rest
    | _ => false

end TrackingConfig

/-! ### Who shares the root -/

structure WorkspaceJob where
  /-- None in fresh mode, or where the message names no safe `owner/name`. -/
  repository : Option Repository
  jobId : Str
  dataDir : Str
  clean : Option Str

def WorkspaceJob.jobDir (job : WorkspaceJob) : Str := sanitizeJobId job.jobId

structure GcPolicy where
  dataDir : Str
  jobMaxAge : Option Instant
  stableMaxAge : Option Instant
  keep : Str

/-- Jobs have directories of their own, none of which a repository may be given. -/
structure Registrations (J K : Type) where
  job : J → WorkspaceJob
  policy : K → GcPolicy
  unique : ∀ j j', (job j).jobDir = (job j').jobDir → j = j'
  apart : ∀ j j' repository, (job j').repository = some repository →
    ¬ Derived repository (job j).jobDir

/-! ### Claims and sweeps -/

abbrev LeaseFile := ℕ

inductive ClaimState
  | idle
  /-- Waits for the lock of the work root. -/
  | entering (repository : Repository)
  /-- Has it, and is to take the repository's lease. -/
  | leasing (repository : Repository)
  | loading (repository : Repository)
  /-- Reads the tracking files; these are the directories they name. -/
  | scanning (repository : Repository) (claimed : List Str)
  | naming (repository : Repository) (claimed : List Str) (n : ℕ)
  | saving (repository : Repository) (tracking : TrackingConfig)
  /-- Has saved it, and is to drop the lock of the root. -/
  | leaving (repository : Repository) (tracking : TrackingConfig)
  | stable (repository : Repository) (tracking : TrackingConfig)
  | cleaned (repository : Repository) (tracking : TrackingConfig)
  | working (repository : Repository) (tracking : TrackingConfig)
  /-- A fresh workspace, without its lease so far. -/
  | fresh
  | opened (file : LeaseFile)
  | leased (file : LeaseFile)
  | owned (file : LeaseFile)
  | freshWorking (file : LeaseFile)
  /-- The workspace is dropped, the claim has failed, or the process is dead. -/
  | ended
deriving DecidableEq

inductive SweepStage
  | idle
  | scanning
  /-- `tracking` is old; is to take the lease of its repository. -/
  | leasing (repository : Repository) (tracking : TrackingConfig)
  | rereading (repository : Repository) (tracking : TrackingConfig)
  /-- Removes the directory that the file names now. -/
  | pruning (repository : Repository) (tracking current : TrackingConfig)
  | forgetting (repository : Repository) (tracking : TrackingConfig)
  /-- The pass over the entries of the root. -/
  | sweeping
  /-- Whether the entry has a lease file. -/
  | looking (name : Str)
  /-- It has none: only its age counts. -/
  | judging (name : Str)
  | removingOld (name : Str)
  | asking (name : Str)
  | opening (name : Str)
  | locking (name : Str) (file : LeaseFile)
  | weighing (name : Str) (file : LeaseFile)
  | removingFresh (name : Str) (file : LeaseFile)
  | unlinking (name : Str) (file : LeaseFile)
  | finished
deriving DecidableEq

structure Sweep where
  stage : SweepStage := .idle
  /-- What reading the root has yielded so far. -/
  listed : List Str := []
  claimed : List Str := []
  unreadable : List Str := []
  now : Instant := 0

structure WorkRoot (J K : Type) where
  rootLock : Option J
  tracking : AList fun _ : Repository => TrackingConfig
  leases : Repository → Option (J ⊕ K)
  /-- The lease files of fresh jobs, by the job's directory. -/
  leaseFiles : Str → Option LeaseFile
  owners : LeaseFile → Option Str
  locks : LeaseFile → Option (J ⊕ K)
  nextFile : LeaseFile
  /-- The directories in the root, and when they were last modified. -/
  dirs : Str → Option Instant
  now : Instant
  claims : J → ClaimState
  sweeps : K → Sweep

inductive WorkEvent (J K : Type)
  /-- `prepare_workspace` is called. -/
  | claim (j : J)
  /-- The next step of a job; `fails` if the operation does, or a lock is not waited for. -/
  | next (j : J) (fails : Bool)
  /-- A new mapping's scan reads one tracking file. -/
  | read (j : J) (repository : Repository)
  /-- The workspace is dropped, or the process dies. -/
  | drop (j : J)
  | gc (k : K)
  /-- Reading the root yields an entry. -/
  | list (k : K) (name : Str)
  /-- A sweep's scan comes to one tracking file. -/
  | scan (k : K) (repository : Repository) (fails : Bool)
  | visit (k : K) (name : Str)
  | sweep (k : K) (fails : Bool)
  /-- A removal deletes something in its directory. -/
  | delete (k : K)
  | die (k : K)
  | touch (name : Str) (mtime : Instant)
  | clock (now : Instant)

namespace WorkRoot

variable {J K : Type} [DecidableEq J] [DecidableEq K]

def start (dirs : Str → Option Instant) : WorkRoot J K where
  rootLock := none
  tracking := ∅
  leases _ := none
  leaseFiles _ := none
  owners _ := none
  locks _ := none
  nextFile := 0
  dirs := dirs
  now := 0
  claims _ := .idle
  sweeps _ := {}

def setClaim (s : WorkRoot J K) (j : J) (state : ClaimState) : WorkRoot J K :=
  { s with claims := Function.update s.claims j state }

def setStage (s : WorkRoot J K) (k : K) (stage : SweepStage) : WorkRoot J K :=
  { s with sweeps := Function.update s.sweeps k { s.sweeps k with stage } }

def setDir (s : WorkRoot J K) (name : Str) (mtime : Option Instant) : WorkRoot J K :=
  { s with dirs := Function.update s.dirs name mtime }

/-- Whatever is locked by this one is free again. -/
def letGo (s : WorkRoot J K) (who : J ⊕ K) : WorkRoot J K :=
  { s with
    rootLock := s.rootLock.filter fun j => Sum.inl j ≠ who
    leases := fun repository => (s.leases repository).filter fun holder => holder ≠ who
    locks := fun file => (s.locks file).filter fun holder => holder ≠ who }

def endClaim (s : WorkRoot J K) (j : J) : WorkRoot J K := (s.letGo (.inl j)).setClaim j .ended

/-- Open a lease file, creating it. -/
def openFile (s : WorkRoot J K) (name : Str) : WorkRoot J K × LeaseFile :=
  match s.leaseFiles name with
  | some file => (s, file)
  | none =>
    ({ s with
      leaseFiles := Function.update s.leaseFiles name (some s.nextFile)
      nextFile := s.nextFile + 1 }, s.nextFile)

def removeFile (s : WorkRoot J K) (name : Str) : WorkRoot J K :=
  { s with leaseFiles := Function.update s.leaseFiles name none }

def setOwner (s : WorkRoot J K) (file : LeaseFile) (dataDir : Str) : WorkRoot J K :=
  { s with owners := Function.update s.owners file (some dataDir) }

def lease (s : WorkRoot J K) (repository : Repository) (who : J ⊕ K) : WorkRoot J K :=
  { s with leases := Function.update s.leases repository (some who) }

def lock (s : WorkRoot J K) (file : LeaseFile) (who : J ⊕ K) : WorkRoot J K :=
  { s with locks := Function.update s.locks file (some who) }

/-- A directory is made, unless it is there. -/
def makeDir (s : WorkRoot J K) (name : Str) : WorkRoot J K :=
  s.setDir name (some ((s.dirs name).getD s.now))

variable (registrations : Registrations J K)

/-- Whether a candidate is spoken for. -/
def isTaken (s : WorkRoot J K) (claimed : List Str) (name : Str) : Bool :=
  asciiLower name = asciiLower mappingDir || asciiLower name ∈ claimed || (s.dirs name).isSome

/-- The file that the claim is to write. -/
def stamped (s : WorkRoot J K) (j : J) (tracking : TrackingConfig) : TrackingConfig :=
  { tracking with
    lastRunOnUnix := unixSeconds s.now
    dataDir := (registrations.job j).dataDir }

/-- The next step of `prepare_workspace` or `create_dirs`. -/
def next (s : WorkRoot J K) (j : J) (fails : Bool) : WorkRoot J K :=
  match s.claims j with
  | .entering repository =>
    if fails then s.endClaim j
    else
      match s.rootLock with
      | none => { s with rootLock := some j }.setClaim j (.leasing repository)
      | some _ => s
  | .leasing repository =>
    match s.leases repository with
    | none =>
      if fails then s.endClaim j
      else (s.lease repository (.inl j)).setClaim j (.loading repository)
    | some _ => if fails then (s.letGo (.inl j)).setClaim j .fresh else s
  | .loading repository =>
    match s.tracking.lookup repository with
    | some tracking =>
      if !fails && tracking.isUsableFor repository.fullName then
        s.setClaim j (.saving repository (s.stamped registrations j tracking))
      else s.setClaim j (.scanning repository [])
    | none => s.setClaim j (.scanning repository [])
  | .scanning repository claimed => s.setClaim j (.naming repository claimed 0)
  | .naming repository claimed n =>
    if maxSuffix ≤ n then s.endClaim j
    else if s.isTaken claimed (candidate repository.name n) then
      s.setClaim j (.naming repository claimed (n + 1))
    else
      s.setClaim j (.saving repository (s.stamped registrations j
        (.new repository.fullName repository.name (candidate repository.name n))))
  | .saving repository tracking =>
    if fails then s.endClaim j
    else
      { s with tracking := s.tracking.insert repository tracking }.setClaim j
        (.leaving repository tracking)
  | .leaving repository tracking =>
    { s with rootLock := none }.setClaim j (.stable repository tracking)
  | .stable repository tracking =>
    if fails then s.endClaim j
    else if (registrations.job j).clean.map asciiLower = some "all".toList then
      (s.setDir tracking.pipelineDirectory none).setClaim j (.cleaned repository tracking)
    else s.setClaim j (.cleaned repository tracking)
  | .cleaned repository tracking =>
    if fails then s.endClaim j
    else (s.makeDir tracking.pipelineDirectory).setClaim j (.working repository tracking)
  | .fresh =>
    if fails then s.endClaim j
    else
      (s.openFile (registrations.job j).jobDir).1.setClaim j
        (.opened (s.openFile (registrations.job j).jobDir).2)
  | .opened file =>
    match s.locks file with
    | none => if fails then s.endClaim j else (s.lock file (.inl j)).setClaim j (.leased file)
    | some _ => if fails then s.endClaim j else s
  | .leased file =>
    -- a file without an owner is of no use to anybody
    if fails then (s.removeFile (registrations.job j).jobDir).endClaim j
    else (s.setOwner file (registrations.job j).dataDir).setClaim j (.owned file)
  | .owned file =>
    if fails then s.endClaim j
    else (s.makeDir (registrations.job j).jobDir).setClaim j (.freshWorking file)
  | .idle | .working _ _ | .freshWorking _ | .ended => s

/-! ### Sweeps -/

def isStaleUnix (s : WorkRoot J K) (lastRun maxAge : ℕ) : Bool :=
  0 < lastRun && unixSeconds maxAge < unixSeconds s.now - lastRun

/-- A directory of a future time, or of none, is fresh. -/
def isStaleDir (s : WorkRoot J K) (k : K) (name : Str) : Bool :=
  (s.dirs name).any fun mtime => (registrations.policy k).jobMaxAge.any fun maxAge =>
    mtime ≤ (s.sweeps k).now && maxAge < (s.sweeps k).now - mtime

/-- Whether a stable workspace may be pruned, as its tracking file has it. -/
def eligible (s : WorkRoot J K) (k : K) (tracking : TrackingConfig) : Bool :=
  (registrations.policy k).stableMaxAge.any fun maxAge =>
    tracking.dataDir = (registrations.policy k).dataDir &&
      tracking.pipelineDirectory != (registrations.policy k).keep &&
      tracking.isUsableFor tracking.repositoryName &&
      s.isStaleUnix tracking.lastRunOnUnix maxAge

/-- Whether the pass over the root leaves an entry alone. -/
def isSpared (s : WorkRoot J K) (k : K) (name : Str) : Bool :=
  name = (registrations.policy k).keep || name.head? = some '_' ||
    asciiLower name ∈ (s.sweeps k).claimed ||
    (s.sweeps k).unreadable.any fun repo => isPipelineNameFor (asciiLower name) repo

def setSweep (s : WorkRoot J K) (k : K) (sweep : Sweep) : WorkRoot J K :=
  { s with sweeps := Function.update s.sweeps k sweep }

/-- A stable workspace is kept: what its file named is claimed. -/
def keepStable (s : WorkRoot J K) (k : K) (tracking : TrackingConfig) : WorkRoot J K :=
  s.setSweep k { s.sweeps k with
    stage := .scanning
    claimed := asciiLower tracking.pipelineDirectory :: (s.sweeps k).claimed }

def scan (s : WorkRoot J K) (k : K) (repository : Repository) (fails : Bool) : WorkRoot J K :=
  match (s.sweeps k).stage with
  | .scanning =>
    match (if fails then none else s.tracking.lookup repository) with
    | none =>
      s.setSweep k { s.sweeps k with
        unreadable := asciiLower repository.name :: (s.sweeps k).unreadable }
    | some tracking =>
      if s.eligible registrations k tracking then s.setStage k (.leasing repository tracking)
      else s.keepStable k tracking
  | _ => s

/-- The next step of a sweep. -/
def sweep (s : WorkRoot J K) (k : K) (fails : Bool) : WorkRoot J K :=
  match (s.sweeps k).stage with
  | .scanning =>
    if (registrations.policy k).jobMaxAge.isSome then
      s.setSweep k { s.sweeps k with stage := .sweeping, now := s.now }
    else s.setStage k .finished
  | .leasing repository tracking =>
    match s.leases repository with
    | none =>
      if fails then s.keepStable k tracking
      else (s.lease repository (.inr k)).setStage k (.rereading repository tracking)
    | some _ => if fails then s.keepStable k tracking else s
  | .rereading repository tracking =>
    match (if fails then none else s.tracking.lookup repository) with
    | some current =>
      if s.eligible registrations k current then
        s.setStage k (.pruning repository tracking current)
      else (s.letGo (.inr k)).keepStable k tracking
    | none => (s.letGo (.inr k)).keepStable k tracking
  | .pruning repository tracking current =>
    if fails then (s.letGo (.inr k)).keepStable k tracking
    else (s.setDir current.pipelineDirectory none).setStage k (.forgetting repository tracking)
  | .forgetting repository tracking =>
    if fails then (s.letGo (.inr k)).keepStable k tracking
    else
      ({ s with tracking := s.tracking.erase repository }.letGo (.inr k)).setStage k .scanning
  | .sweeping => s.setStage k .finished
  | .looking name =>
    s.setStage k (if (s.leaseFiles name).isSome then .asking name else .judging name)
  | .judging name =>
    s.setStage k (if s.isStaleDir registrations k name then .removingOld name else .sweeping)
  | .removingOld name =>
    if fails then s.setStage k .sweeping else (s.setDir name none).setStage k .sweeping
  | .asking name =>
    let owner := if fails then none else (s.leaseFiles name).bind s.owners
    s.setStage k
      (if owner = some (registrations.policy k).dataDir then .opening name else .sweeping)
  | .opening name =>
    if fails then s.setStage k .sweeping
    else (s.openFile name).1.setStage k (.locking name (s.openFile name).2)
  | .locking name file =>
    match s.locks file with
    | none =>
      if fails then s.setStage k .sweeping
      else (s.lock file (.inr k)).setStage k (.weighing name file)
    | some _ => if fails then s.setStage k .sweeping else s
  | .weighing name file =>
    if s.isStaleDir registrations k name then s.setStage k (.removingFresh name file)
    else (s.letGo (.inr k)).setStage k .sweeping
  | .removingFresh name file =>
    if fails then (s.letGo (.inr k)).setStage k .sweeping
    else (s.setDir name none).setStage k (.unlinking name file)
  | .unlinking name _ =>
    if fails then (s.letGo (.inr k)).setStage k .sweeping
    else ((s.removeFile name).letGo (.inr k)).setStage k .sweeping
  | .idle | .finished => s

/-! ### Runs -/

def step (s : WorkRoot J K) : WorkEvent J K → WorkRoot J K
  | .claim j =>
    match s.claims j, (registrations.job j).repository with
    | .idle, some repository => s.setClaim j (.entering repository)
    | .idle, none => s.setClaim j .fresh
    | _, _ => s
  | .next j fails => s.next registrations j fails
  | .read j repository =>
    match s.claims j, s.tracking.lookup repository with
    | .scanning own claimed, some tracking =>
      s.setClaim j (.scanning own (asciiLower tracking.pipelineDirectory :: claimed))
    | _, _ => s
  | .drop j => s.endClaim j
  | .gc k => if (s.sweeps k).stage = .idle then s.setStage k .scanning else s
  | .list k name =>
    if (s.dirs name).isSome && (s.sweeps k).stage != .idle then
      s.setSweep k { s.sweeps k with listed := name :: (s.sweeps k).listed }
    else s
  | .scan k repository fails => s.scan registrations k repository fails
  | .visit k name =>
    if (s.sweeps k).stage = .sweeping ∧ name ∈ (s.sweeps k).listed ∧
        s.isSpared registrations k name = false then
      s.setStage k (.looking name)
    else s
  | .sweep k fails => s.sweep registrations k fails
  | .delete _ => s
  | .die k => (s.letGo (.inr k)).setStage k .finished
  | .touch name mtime => if (s.dirs name).isSome then s.setDir name (some mtime) else s
  | .clock now => { s with now := now }

end WorkRoot

/-! ### Who holds what -/

/-- The tracking file of a job that has its stable workspace. -/
def ClaimState.mapped : ClaimState → Option (Repository × TrackingConfig)
  | .leaving repository tracking | .stable repository tracking | .cleaned repository tracking
  | .working repository tracking => some (repository, tracking)
  | _ => none

/-- Whether the job has its fresh workspace. -/
def ClaimState.isFresh : ClaimState → Bool
  | .fresh | .opened _ | .leased _ | .owned _ | .freshWorking _ => true
  | _ => false

/-- The directory that a sweep is removing. -/
def SweepStage.removing : SweepStage → Option Str
  | .pruning _ _ current => some current.pipelineDirectory
  | .removingOld name => some name
  | .removingFresh name _ => some name
  | _ => none

namespace WorkRoot

variable {J K : Type} [DecidableEq J] [DecidableEq K] (registrations : Registrations J K)

/-- The pipeline directory of a live job. -/
def holds (s : WorkRoot J K) (j : J) : Option Str :=
  match (s.claims j).mapped with
  | some (_, tracking) => some tracking.pipelineDirectory
  | none => if (s.claims j).isFresh then some (registrations.job j).jobDir else none

/-- The directory that an event removes, or something of it. -/
def removes (s : WorkRoot J K) : WorkEvent J K → Option Str
  | .sweep k false => (s.sweeps k).stage.removing
  | .delete k => (s.sweeps k).stage.removing
  | _ => none

/-! ### The claims and the sweeps leave each other alone -/

theorem openFile_frame (s : WorkRoot J K) (name : Str) :
    (s.openFile name).1.tracking = s.tracking ∧ (s.openFile name).1.claims = s.claims ∧
      (s.openFile name).1.sweeps = s.sweeps ∧ (s.openFile name).1.dirs = s.dirs := by
  unfold openFile
  split <;> exact ⟨rfl, rfl, rfl, rfl⟩

variable {registrations} in
theorem next_sweeps {s : WorkRoot J K} {j : J} {fails : Bool} :
    (s.next registrations j fails).sweeps = s.sweeps := by
  fun_cases next
  case case24 => exact (openFile_frame s _).2.2.1
  all_goals rfl

theorem sweep_claims (s : WorkRoot J K) (k : K) (fails : Bool) :
    (s.sweep registrations k fails).claims = s.claims := by
  fun_cases sweep
  case case21 => exact (openFile_frame s _).2.1
  all_goals rfl

end WorkRoot

end GhRunner.Execution
