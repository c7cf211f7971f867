import GhRunner.Execution.Workspaces

namespace GhRunner.Execution.Gc

open Text

/-!
# One sweep of the work root

`gc_workspaces` from its first read of the root to its last removal, where any of its operations may
fail (`crates/execution/src/execution/workspace_gc.rs`, `tracking_files` and `child_dirs` of
`workspace_tracking.rs`).  What other registrations do meanwhile is left to `WorkRoot`.

* `Root`, `TrackingFile` — the root as the sweep finds it;
* `Operation`, `Io` — what may fail, and when it is done;
* `trackingFiles` — the scan of the mappings;
* `pruneStable`, `pruneJobDir` — the removals;
* `gcWorkspaces` — the two passes.
-/

/-! ### The root -/

/-- Holds the leases of fresh jobs, and no tracking files. -/
def jobLeasesDir : Str := "_jobs".toList

/-- The tracking file of `owner` and `repo`. -/
structure TrackingFile where
  owner : Str
  repo : Str
deriving DecidableEq

inductive Document
  | tracking (config : TrackingConfig)
  /-- Anything else than a tracking document. -/
  | garbled
deriving DecidableEq

structure JobLease where
  /-- The `dataDir` that it records. -/
  owner : Option Str
  held : Bool

structure Root where
  present : Bool
  /-- What the root is read to hold; an entry need not be a directory. -/
  entries : List Str
  /-- The directories of the mapping directory, and those of each of them. -/
  owners : List Str
  repos : Str → List Str
  documents : TrackingFile → Option Document
  /-- Whether somebody else has the lease of the repository. -/
  leased : TrackingFile → Bool
  jobLeases : Str → Option JobLease
  /-- The directories of the root, and when they were last modified. -/
  dirs : Str → Option Instant
  entries_nodup : entries.Nodup
  owners_nodup : owners.Nodup
  repos_nodup : ∀ owner, (repos owner).Nodup
  listed : ∀ file, (documents file).isSome → file.owner ∈ owners ∧ file.repo ∈ repos file.owner

namespace Root

def removeDir (root : Root) (name : Str) : Root :=
  { root with dirs := Function.update root.dirs name none }

def removeDocument (root : Root) (file : TrackingFile) : Root :=
  { root with
    documents := Function.update root.documents file none
    listed := fun other h => root.listed other <| by
      by_cases hfile : other = file
      · simp [hfile] at h
      · rwa [Function.update_of_ne hfile] at h }

def removeJobLease (root : Root) (name : Str) : Root :=
  { root with jobLeases := Function.update root.jobLeases name none }

/-- A tracking file on disk. -/
def Tracks (root : Root) (file : TrackingFile) (tracking : TrackingConfig) : Prop :=
  file.owner ≠ jobLeasesDir ∧ root.documents file = some (.tracking tracking)

end Root

/-! ### What may fail -/

inductive Operation
  | listRoot
  | listMapping
  /-- Reading the entry of an owner's directory, or looking at what it is. -/
  | readOwner (owner : Str)
  | listOwner (owner : Str)
  | readRepo (file : TrackingFile)
  | statFile (file : TrackingFile)
  | load (file : TrackingFile)
  | lease (file : TrackingFile)
  | reload (file : TrackingFile)
  | removeTree (file : TrackingFile)
  | removeFile (file : TrackingFile)
  | readEntry (name : Str)
  | statLease (name : Str)
  | readLease (name : Str)
  | lockLease (name : Str)
  | metadata (name : Str)
  | removeJobTree (name : Str)
  | removeLease (name : Str)
deriving DecidableEq

structure Io where
  fails : Operation → Bool
  clock : Operation → Instant
  /-- When the pass over the root begins. -/
  now : Instant

/-! ### The scan -/

/-- The directories that are listed: those that cannot be read are skipped. -/
def childDirs (io : Io) (list : Operation) (read : Str → Operation) (dirs : List Str) : List Str :=
  if io.fails list then [] else dirs.filter fun name => !io.fails (read name)

/-- Every tracking file that is found. -/
def trackingFiles (io : Io) (root : Root) : List TrackingFile :=
  (childDirs io .listMapping .readOwner root.owners).flatMap fun owner =>
    if owner = jobLeasesDir then []
    else
      ((childDirs io (.listOwner owner) (fun repo => .readRepo ⟨owner, repo⟩)
        (root.repos owner)).map (TrackingFile.mk owner)).filter fun file =>
          (root.documents file).isSome && !io.fails (.statFile file)

def loadTracking (io : Io) (root : Root) (operation : Operation) (file : TrackingFile) :
    Option TrackingConfig :=
  if io.fails operation then none
  else
    match root.documents file with
    | some (.tracking tracking) => some tracking
    | some .garbled | none => none

/-! ### Removals -/

/-- A directory that is removed, or part of it, and the tracking file whose lease is held. -/
structure Removal where
  directory : Str
  under : Option TrackingFile
deriving DecidableEq

structure Collection where
  root : Root
  claimed : List Str := []
  unreadable : List Str := []
  removed : ℕ := 0
  removals : List Removal := []

/-- Whether a time is more than `maxAge` in the past; 0 is unknown. -/
def isStaleUnix (now : Instant) (lastRun : ℕ) (maxAge : Instant) : Bool :=
  0 < lastRun && unixSeconds maxAge < unixSeconds now - lastRun

/-- A directory that cannot be looked at, or is of a future time, is fresh. -/
def isStaleDir (io : Io) (root : Root) (name : Str) (now maxAge : Instant) : Bool :=
  !io.fails (.metadata name) && (root.dirs name).any fun mtime =>
    mtime ≤ now && maxAge < now - mtime

/-- `remove_dir_all`, which may fail when part of the directory is gone. -/
def removeTree (io : Io) (s : Collection) (operation : Operation) (name : Str)
    (under : Option TrackingFile) : Bool × Collection :=
  let s := if (s.root.dirs name).isSome then
    { s with removals := ⟨name, under⟩ :: s.removals } else s
  if io.fails operation then (false, s)
  else (true, { s with root := s.root.removeDir name })

/-- Whether a stable workspace may be pruned, as its tracking file has it. -/
def eligible (policy : GcPolicy) (maxAge now : Instant) (tracking : TrackingConfig) : Bool :=
  tracking.dataDir = policy.dataDir && tracking.pipelineDirectory != policy.keep &&
    tracking.isUsableFor tracking.repositoryName && isStaleUnix now tracking.lastRunOnUnix maxAge

/-- Remove one stale stable workspace and its tracking file. -/
def pruneStable (io : Io) (policy : GcPolicy) (s : Collection) (file : TrackingFile)
    (tracking : TrackingConfig) (maxAge : Instant) : Bool × Collection :=
  if !eligible policy maxAge (io.clock (.load file)) tracking then (false, s)
  else if io.fails (.lease file) || s.root.leased file then (false, s)
  else
    -- under the lease
    match (loadTracking io s.root (.reload file) file).filter
        (eligible policy maxAge (io.clock (.reload file))) with
    | none => (false, s)
    | some current =>
      match removeTree io s (.removeTree file) current.pipelineDirectory (some file) with
      | (false, s) => (false, s)
      | (true, s) =>
        if io.fails (.removeFile file) then (false, s)
        else (true, { s with root := s.root.removeDocument file })

/-- The `dataDir` that a fresh job's lease records, if it can be read. -/
def leaseOwner (io : Io) (name : Str) (lease : JobLease) : Option Str :=
  if io.fails (.readLease name) then none else lease.owner

/-- Remove one stale fresh directory. -/
def pruneJobDir (io : Io) (policy : GcPolicy) (s : Collection) (name : Str)
    (now maxAge : Instant) : Bool × Collection :=
  match (if io.fails (.statLease name) then none else s.root.jobLeases name) with
  | none =>
    if isStaleDir io s.root name now maxAge then removeTree io s (.removeJobTree name) name none
    else (false, s)
  | some lease =>
    if leaseOwner io name lease != some policy.dataDir then (false, s)
    else if io.fails (.lockLease name) || lease.held then (false, s)
    else if isStaleDir io s.root name now maxAge then
      match removeTree io s (.removeJobTree name) name none with
      | (false, s) => (false, s)
      | (true, s) =>
        if io.fails (.removeLease name) then (false, s)
        else (true, { s with root := s.root.removeJobLease name })
    else (false, s)

/-! ### The passes -/

/-- What comes of one tracking file. -/
def scanFile (io : Io) (policy : GcPolicy) (s : Collection) (file : TrackingFile) : Collection :=
  match loadTracking io s.root (.load file) file with
  | none => { s with unreadable := asciiLower file.repo :: s.unreadable }
  | some tracking =>
    match policy.stableMaxAge.elim (false, s) (pruneStable io policy s file tracking) with
    | (true, s) => { s with removed := s.removed + 1 }
    | (false, s) => { s with claimed := asciiLower tracking.pipelineDirectory :: s.claimed }

/-- Whether the pass over the root leaves an entry alone. -/
def isSpared (policy : GcPolicy) (s : Collection) (name : Str) : Bool :=
  name = policy.keep || name.head? = some '_' || asciiLower name ∈ s.claimed ||
    s.unreadable.any fun repo => isPipelineNameFor (asciiLower name) repo

/-- What comes of one entry of the root. -/
def visitEntry (io : Io) (policy : GcPolicy) (now maxAge : Instant) (s : Collection)
    (name : Str) : Collection :=
  if io.fails (.readEntry name) || isSpared policy s name then s
  else
    match pruneJobDir io policy s name now maxAge with
    | (true, s) => { s with removed := s.removed + 1 }
    | (false, s) => s

def scanFiles (io : Io) (policy : GcPolicy) (root : Root) : Collection :=
  (trackingFiles io root).foldl (scanFile io policy) { root }

/-- What is removed, or none if the root cannot be listed. -/
def gcWorkspaces (io : Io) (policy : GcPolicy) (root : Root) : Option Collection :=
  if !root.present then some { root }
  else if io.fails .listRoot then none
  else
    match policy.jobMaxAge with
    | none => some (scanFiles io policy root)
    | some maxAge =>
      some (root.entries.foldl (visitEntry io policy io.now maxAge)
        (scanFiles io policy root))

end GhRunner.Execution.Gc
