import GhRunner.Execution.WorkspaceGc

namespace GhRunner.Execution.Gc

open Text

/-!
# Which workspaces a sweep may remove

* `prunable` — the tracking files whose lease is taken and that are found stale under it;
* `Scanned`, `scanned_scanFiles` — what the scan removes, and what it claims for the second pass;
* `Visited`, `visited_foldl` — what the second pass removes;
* `Protects` — nothing is removed that a tracking file names, but under its lease;
* `protects_iff` — the failures of the scan under which this is so, and `unlisted_owner` — one under
  which it is not.
-/

variable (io : Io) (policy : GcPolicy) (root : Root)

/-! ### What is asked of a tracking file, and of an entry -/

/-- Nobody else has the lease, and what is read before and under it is owned and stale. -/
def prunable (file : TrackingFile) : Option TrackingConfig :=
  policy.stableMaxAge.bind fun maxAge =>
    (loadTracking io root (.load file) file).filter fun tracking =>
      eligible policy maxAge (io.clock (.load file)) tracking &&
        !(io.fails (.lease file) || root.leased file) && !io.fails (.reload file) &&
        eligible policy maxAge (io.clock (.reload file)) tracking

/-- The directory and the tracking file are gone then. -/
def prunes (file : TrackingFile) : Bool :=
  (prunable io policy root file).isSome && !io.fails (.removeTree file) &&
    !io.fails (.removeFile file)

/-- Whether a tracking file that is found keeps the second pass from a name. -/
def covers (file : TrackingFile) (name : Str) : Bool :=
  match loadTracking io root (.load file) file with
  | some tracking =>
    asciiLower tracking.pipelineDirectory = asciiLower name && !prunes io policy root file
  | none => isPipelineNameFor (asciiLower name) (asciiLower file.repo)

/-- The tests of `prune_job_dir`. -/
def judgedOld (name : Str) : Bool :=
  policy.jobMaxAge.any fun maxAge =>
    isStaleDir io root name io.now maxAge &&
      match (if io.fails (.statLease name) then none else root.jobLeases name) with
      | none => true
      | some lease =>
        leaseOwner io name lease = some policy.dataDir &&
          !(io.fails (.lockLease name) || lease.held)

/-- Whether the second pass removes an entry that nobody claims. -/
def freshTarget (name : Str) : Bool :=
  name ∈ root.entries && !io.fails (.readEntry name) && name != policy.keep &&
    name.head? != some '_' && judgedOld io policy root name

/-! ### One tracking file -/

section Scan

variable {io policy root} {file other : TrackingFile} {tracking current : TrackingConfig}
  {s : Collection} {maxAge : Instant} {name : Str}

theorem loadTracking_eq_some {operation : Operation} :
    loadTracking io root operation file = some tracking ↔
      io.fails operation = false ∧ root.documents file = some (.tracking tracking) := by
  unfold loadTracking
  cases io.fails operation with
  | true => simp
  | false => rcases root.documents file with _ | _ | _ <;> simp

theorem prunable_eq_some :
    prunable io policy root file = some tracking ↔
      ∃ maxAge, policy.stableMaxAge = some maxAge ∧
        loadTracking io root (.load file) file = some tracking ∧
        eligible policy maxAge (io.clock (.load file)) tracking = true ∧
        (io.fails (.lease file) || root.leased file) = false ∧
        io.fails (.reload file) = false ∧
        eligible policy maxAge (io.clock (.reload file)) tracking = true := by
  unfold prunable
  simp [Option.bind_eq_some_iff, Option.filter_eq_some_iff, and_assoc]

theorem mem_trackingFiles (h : file ∈ trackingFiles io root) :
    file.owner ≠ jobLeasesDir ∧ (root.documents file).isSome := by
  simp only [trackingFiles, List.mem_flatMap] at h
  obtain ⟨owner, -, hfile⟩ := h
  split at hfile
  · exact absurd hfile (List.not_mem_nil)
  next howner =>
    obtain ⟨hmap, hdocument⟩ := List.mem_filter.mp hfile
    obtain ⟨repo, -, rfl⟩ := List.mem_map.mp hmap
    exact ⟨howner, (Bool.and_eq_true_iff.mp hdocument).1⟩

theorem childDirs_nodup {list : Operation} {read : Str → Operation} {dirs : List Str}
    (h : dirs.Nodup) : (childDirs io list read dirs).Nodup := by
  unfold childDirs
  split
  · exact List.nodup_nil
  · exact h.filter _

theorem trackingFiles_nodup : (trackingFiles io root).Nodup := by
  refine List.nodup_flatMap.mpr ⟨fun owner _ => ?_, ?_⟩
  · split
    · exact List.nodup_nil
    · exact ((childDirs_nodup (root.repos_nodup owner)).map
        fun _ _ h => (TrackingFile.mk.inj h).2).filter _
  · -- files of two owners differ by their owner
    refine (childDirs_nodup root.owners_nodup).imp_of_mem fun {owner owner'} _ _ hne file h h' => ?_
    have howner : ∀ {o : Str}, file ∈ (if o = jobLeasesDir then []
        else ((childDirs io (.listOwner o) (fun repo => .readRepo ⟨o, repo⟩)
          (root.repos o)).map (TrackingFile.mk o)).filter fun file =>
            (root.documents file).isSome && !io.fails (.statFile file)) → file.owner = o := by
      intro o hmem
      split at hmem
      · exact absurd hmem List.not_mem_nil
      · obtain ⟨repo, -, rfl⟩ := List.mem_map.mp (List.mem_filter.mp hmem).1
        rfl
    exact hne ((howner h).symm.trans (howner h'))

/-- What the scan leaves, once it has been at these tracking files. -/
structure Scanned (io : Io) (policy : GcPolicy) (root : Root) (done : List TrackingFile)
    (s : Collection) : Prop where
  leased : s.root.leased = root.leased
  jobLeases : s.root.jobLeases = root.jobLeases
  documents : ∀ file, file ∉ done → s.root.documents file = root.documents file
  dirs : ∀ name, s.root.dirs name = root.dirs name ∨ s.root.dirs name = none ∧
    ∃ file ∈ done, ∃ tracking, prunable io policy root file = some tracking ∧
      tracking.pipelineDirectory = name
  cleared : ∀ file ∈ done, ∀ tracking, prunable io policy root file = some tracking →
    prunes io policy root file = true → s.root.dirs tracking.pipelineDirectory = none
  removals : ∀ removal ∈ s.removals, ∃ file ∈ done, ∃ tracking,
    prunable io policy root file = some tracking ∧
      removal = ⟨tracking.pipelineDirectory, some file⟩ ∧
      (root.dirs tracking.pipelineDirectory).isSome
  attempted : ∀ file ∈ done, ∀ tracking, prunable io policy root file = some tracking →
    (root.dirs tracking.pipelineDirectory).isSome →
    ∃ under, ⟨tracking.pipelineDirectory, some under⟩ ∈ s.removals
  claimed : ∀ name, name ∈ s.claimed ↔ ∃ file ∈ done, ∃ tracking,
    loadTracking io root (.load file) file = some tracking ∧
      asciiLower tracking.pipelineDirectory = name ∧ prunes io policy root file = false
  unreadable : ∀ name, name ∈ s.unreadable ↔ ∃ file ∈ done,
    loadTracking io root (.load file) file = none ∧ asciiLower file.repo = name

/-- What comes of one tracking file. -/
structure ScanStep (io : Io) (policy : GcPolicy) (root : Root) (file : TrackingFile)
    (s s' : Collection) : Prop where
  leased : s'.root.leased = s.root.leased
  jobLeases : s'.root.jobLeases = s.root.jobLeases
  documents : ∀ other, other ≠ file → s'.root.documents other = s.root.documents other
  dirs : ∀ name, s'.root.dirs name = s.root.dirs name ∨ s'.root.dirs name = none ∧
    ∃ tracking, prunable io policy root file = some tracking ∧ tracking.pipelineDirectory = name
  cleared : ∀ tracking, prunable io policy root file = some tracking →
    prunes io policy root file = true → s'.root.dirs tracking.pipelineDirectory = none
  removals : ∀ removal, removal ∈ s'.removals ↔ removal ∈ s.removals ∨ ∃ tracking,
    prunable io policy root file = some tracking ∧
      removal = ⟨tracking.pipelineDirectory, some file⟩ ∧
      (s.root.dirs tracking.pipelineDirectory).isSome
  claimed : ∀ name, name ∈ s'.claimed ↔ name ∈ s.claimed ∨ ∃ tracking,
    loadTracking io root (.load file) file = some tracking ∧
      asciiLower tracking.pipelineDirectory = name ∧ prunes io policy root file = false
  unreadable : ∀ name, name ∈ s'.unreadable ↔ name ∈ s.unreadable ∨
    loadTracking io root (.load file) file = none ∧ asciiLower file.repo = name

/-- Nothing is removed: at most a name is claimed. -/
theorem ScanStep.kept {s' : Collection} (hroot : s'.root = s.root)
    (hremovals : s'.removals = s.removals) (hnone : prunable io policy root file = none)
    (hclaimed : ∀ name, name ∈ s'.claimed ↔ name ∈ s.claimed ∨ ∃ tracking,
      loadTracking io root (.load file) file = some tracking ∧
        asciiLower tracking.pipelineDirectory = name)
    (hunreadable : ∀ name, name ∈ s'.unreadable ↔ name ∈ s.unreadable ∨
      loadTracking io root (.load file) file = none ∧ asciiLower file.repo = name) :
    ScanStep io policy root file s s' where
  leased := by rw [hroot]
  jobLeases := by rw [hroot]
  documents _ _ := by rw [hroot]
  dirs _ := .inl (by rw [hroot])
  cleared tracking h := by simp [hnone] at h
  removals removal := by simp [hremovals, hnone]
  claimed name := by
    have hprunes : prunes io policy root file = false := by simp [prunes, hnone]
    simp [hclaimed, hprunes]
  unreadable := hunreadable

/-! ### A removal -/

section RemoveTree

variable {operation : Operation} {under : Option TrackingFile}

@[simp] theorem removeTree_fst (io : Io) (s : Collection) (operation : Operation) (name : Str)
    (under : Option TrackingFile) :
    (removeTree io s operation name under).1 = !io.fails operation := by
  unfold removeTree
  cases io.fails operation <;> rfl

theorem removeTree_frame (io : Io) (s : Collection) (operation : Operation) (name : Str)
    (under : Option TrackingFile) :
    (removeTree io s operation name under).2.claimed = s.claimed ∧
      (removeTree io s operation name under).2.unreadable = s.unreadable ∧
      (removeTree io s operation name under).2.root.leased = s.root.leased ∧
      (removeTree io s operation name under).2.root.jobLeases = s.root.jobLeases ∧
      (removeTree io s operation name under).2.root.documents = s.root.documents := by
  unfold removeTree
  cases io.fails operation <;> cases (s.root.dirs name).isSome <;> exact ⟨rfl, rfl, rfl, rfl, rfl⟩

theorem removeTree_dirs :
    (removeTree io s operation name under).2.root.dirs =
      if io.fails operation then s.root.dirs else Function.update s.root.dirs name none := by
  unfold removeTree
  cases io.fails operation <;> cases (s.root.dirs name).isSome <;> rfl

theorem removeTree_removals :
    (removeTree io s operation name under).2.removals =
      if (s.root.dirs name).isSome then ⟨name, under⟩ :: s.removals else s.removals := by
  unfold removeTree
  cases io.fails operation <;> cases (s.root.dirs name).isSome <;> rfl

end RemoveTree

/-! ### The scan -/

/-- The root has this tracking file as it was at first. -/
structure Untouched (root : Root) (file : TrackingFile) (s : Collection) : Prop where
  leased : s.root.leased = root.leased
  documents : s.root.documents file = root.documents file

theorem Untouched.loadTracking (h : Untouched root file s) (operation : Operation) :
    loadTracking io s.root operation file = Gc.loadTracking io root operation file := by
  rw [Gc.loadTracking, Gc.loadTracking, h.documents]

theorem pruneStable_of_none (h : Untouched root file s)
    (hload : loadTracking io root (.load file) file = some tracking)
    (hage : policy.stableMaxAge = some maxAge) (hnone : prunable io policy root file = none) :
    pruneStable io policy s file tracking maxAge = (false, s) := by
  unfold pruneStable
  split
  · rfl
  next heligible =>
    split
    · rfl
    next hlease =>
      rw [h.loadTracking, h.leased] at *
      -- the document that is read again is the one that was read at first
      split
      · rfl
      next current hcurrent =>
        obtain ⟨hreload, hcurrent⟩ := Option.filter_eq_some_iff.mp hcurrent
        obtain ⟨hfails, hdocument⟩ := loadTracking_eq_some.mp hreload
        have hsame := (loadTracking_eq_some.mp hload).2.symm.trans hdocument
        obtain rfl : tracking = current := by simpa using hsame
        have hsome := prunable_eq_some.mpr ⟨maxAge, hage, hload, by simpa using heligible,
          by simpa using hlease, hfails, by simpa using hcurrent⟩
        rw [hsome] at hnone
        cases hnone

theorem pruneStable_of_some (h : Untouched root file s) (hage : policy.stableMaxAge = some maxAge)
    (hsome : prunable io policy root file = some tracking) :
    pruneStable io policy s file tracking maxAge =
      if prunes io policy root file then
        (true, { (removeTree io s (.removeTree file) tracking.pipelineDirectory (some file)).2 with
          root := (removeTree io s (.removeTree file) tracking.pipelineDirectory
            (some file)).2.root.removeDocument file })
      else (false, (removeTree io s (.removeTree file) tracking.pipelineDirectory
        (some file)).2) := by
  obtain ⟨_, hage', hload, hfirst, hlease, hreload, hagain⟩ := prunable_eq_some.mp hsome
  obtain rfl := Option.some.inj (hage.symm.trans hage')
  have hcurrent : (loadTracking io s.root (.reload file) file).filter
      (eligible policy maxAge (io.clock (.reload file))) = some tracking :=
    Option.filter_eq_some_iff.mpr ⟨by
      rw [h.loadTracking]
      exact loadTracking_eq_some.mpr ⟨hreload, (loadTracking_eq_some.mp hload).2⟩, hagain⟩
  have hprunes : prunes io policy root file =
      (!io.fails (.removeTree file) && !io.fails (.removeFile file)) := by
    simp [prunes, hsome]
  have hfst := removeTree_fst io s (.removeTree file) tracking.pipelineDirectory (some file)
  unfold pruneStable
  rw [hfirst, h.leased, hlease, hcurrent, hprunes]
  rcases hremove : removeTree io s (.removeTree file) tracking.pipelineDirectory (some file)
    with ⟨gone, s'⟩
  rw [hremove] at hfst
  obtain rfl : gone = !io.fails (.removeTree file) := hfst
  dsimp only
  rw [hremove]
  cases io.fails (.removeTree file) <;> cases io.fails (.removeFile file) <;> rfl

/-- The directory is removed, as far as that goes. -/
theorem ScanStep.removed {s' r : Collection}
    (hsome : prunable io policy root file = some tracking)
    (hr : (removeTree io s (.removeTree file) tracking.pipelineDirectory (some file)).2 = r)
    (hleased : s'.root.leased = r.root.leased) (hjob : s'.root.jobLeases = r.root.jobLeases)
    (hdocuments : ∀ other, other ≠ file → s'.root.documents other = r.root.documents other)
    (hdirs : s'.root.dirs = r.root.dirs) (hremovals : s'.removals = r.removals)
    (hclaimed : ∀ name, name ∈ s'.claimed ↔ name ∈ r.claimed ∨
      asciiLower tracking.pipelineDirectory = name ∧ prunes io policy root file = false)
    (hunreadable : s'.unreadable = r.unreadable) :
    ScanStep io policy root file s s' := by
  obtain ⟨_, -, hload, -⟩ := prunable_eq_some.mp hsome
  subst hr
  obtain ⟨hclaimed', hunreadable', hleased', hjob', hdocuments'⟩ :=
    removeTree_frame io s (.removeTree file) tracking.pipelineDirectory (some file)
  rw [removeTree_dirs] at hdirs
  rw [removeTree_removals] at hremovals
  refine
    { leased := hleased.trans hleased'
      jobLeases := hjob.trans hjob'
      documents := fun other hother => by rw [hdocuments other hother, hdocuments']
      dirs := fun name => ?_
      cleared := fun current hcurrent hprunes => ?_
      removals := fun removal => ?_
      claimed := fun name => ?_
      unreadable := fun name => ?_ }
  · rw [hdirs]
    by_cases hname : tracking.pipelineDirectory = name
    · cases io.fails (.removeTree file) with
      | true => exact .inl rfl
      | false => exact .inr ⟨by simp [hname], tracking, hsome, hname⟩
    · left
      split
      · rfl
      · exact Function.update_of_ne (Ne.symm hname) ..
  · obtain rfl : tracking = current := Option.some.inj (hsome.symm.trans hcurrent)
    have hfails : io.fails (.removeTree file) = false := by
      simp only [prunes, Bool.and_eq_true, Bool.not_eq_true'] at hprunes
      exact hprunes.1.2
    simp [hdirs, hfails]
  · rw [hremovals, hsome]
    cases hdir : (s.root.dirs tracking.pipelineDirectory).isSome with
    | true => simp [hdir, or_comm]
    | false => simp [hdir]
  · rw [hclaimed, hclaimed', hload]
    simp
  · rw [hunreadable, hunreadable', hload]
    simp

theorem scanFile_step (h : Untouched root file s) :
    ScanStep io policy root file s (scanFile io policy s file) := by
  unfold scanFile
  rw [h.loadTracking]
  rcases hload : loadTracking io root (.load file) file with _ | tracking
  · have hnone : prunable io policy root file = none := by simp [prunable, hload]
    exact .kept rfl rfl hnone (by simp [hload]) fun name => by simp [hload, or_comm, eq_comm]
  · rcases hprunable : prunable io policy root file with _ | current
    · have hpair : policy.stableMaxAge.elim (false, s) (pruneStable io policy s file tracking) =
          (false, s) := by
        rcases hage : policy.stableMaxAge with _ | maxAge
        · rfl
        · exact pruneStable_of_none h hload hage hprunable
      dsimp only
      rw [hpair]
      exact .kept rfl rfl hprunable (fun name => by simp [hload, or_comm, eq_comm])
        (by simp [hload])
    · obtain ⟨maxAge, hage, hload', -⟩ := prunable_eq_some.mp hprunable
      obtain rfl : tracking = current := Option.some.inj (hload.symm.trans hload')
      dsimp only
      rw [hage, Option.elim_some, pruneStable_of_some h hage hprunable]
      cases hprunes : prunes io policy root file with
      | true =>
        exact .removed hprunable rfl rfl rfl (fun other hother => Function.update_of_ne hother ..)
          rfl rfl (by simp [hprunes]) rfl
      | false =>
        exact .removed hprunable rfl rfl rfl (fun _ _ => rfl) rfl rfl
          (fun name => by simp [hprunes, or_comm, eq_comm]) rfl

theorem Scanned.snoc {done : List TrackingFile} {s' : Collection}
    (h : Scanned io policy root done s) (hstep : ScanStep io policy root file s s') :
    Scanned io policy root (done ++ [file]) s' where
  leased := hstep.leased.trans h.leased
  jobLeases := hstep.jobLeases.trans h.jobLeases
  documents other hother := by
    have hne : other ≠ file := by
      rintro rfl
      exact hother (by simp)
    rw [hstep.documents other hne,
      h.documents other fun hmem => hother (List.mem_append_left _ hmem)]
  dirs name := by
    rcases hstep.dirs name with hsame | ⟨hgone, tracking, hsome, hdir⟩
    · rcases h.dirs name with hsame' | ⟨hgone, file', hmem, hrest⟩
      · exact .inl (hsame.trans hsame')
      · exact .inr ⟨hsame.trans hgone, file', List.mem_append_left _ hmem, hrest⟩
    · exact .inr ⟨hgone, file, by simp, tracking, hsome, hdir⟩
  cleared other hother tracking hsome hprunes := by
    rcases List.mem_append.mp hother with hdone | hnew
    · rcases hstep.dirs tracking.pipelineDirectory with hsame | ⟨hgone, -⟩
      · rw [hsame, h.cleared other hdone tracking hsome hprunes]
      · exact hgone
    · rw [List.mem_singleton.mp hnew] at hsome hprunes
      exact hstep.cleared tracking hsome hprunes
  removals removal hremoval := by
    rcases (hstep.removals removal).mp hremoval with hold | ⟨tracking, hsome, rfl, hdir⟩
    · obtain ⟨file', hmem, hrest⟩ := h.removals removal hold
      exact ⟨file', List.mem_append_left _ hmem, hrest⟩
    · refine ⟨file, by simp, tracking, hsome, rfl, ?_⟩
      -- a directory that is still there was there at first
      rcases h.dirs tracking.pipelineDirectory with hsame | ⟨hgone, -⟩
      · rwa [hsame] at hdir
      · simp [hgone] at hdir
  attempted other hother tracking hsome hdir := by
    rcases List.mem_append.mp hother with hdone | hnew
    · obtain ⟨under, hmem⟩ := h.attempted other hdone tracking hsome hdir
      exact ⟨under, (hstep.removals _).mpr (.inl hmem)⟩
    · rw [List.mem_singleton.mp hnew] at hsome
      rcases h.dirs tracking.pipelineDirectory with
        hsame | ⟨-, file', hmem, current, hsome', hdir'⟩
      · exact ⟨file, (hstep.removals _).mpr (.inr ⟨tracking, hsome, rfl, hsame ▸ hdir⟩)⟩
      · -- a tracking file before this one has named it as well
        obtain ⟨under, hunder⟩ := h.attempted file' hmem current hsome' (hdir' ▸ hdir)
        exact ⟨under, (hstep.removals _).mpr (.inl (hdir' ▸ hunder))⟩
  claimed name := by
    rw [hstep.claimed, h.claimed]
    simp [or_and_right, exists_or]
  unreadable name := by
    rw [hstep.unreadable, h.unreadable]
    simp [or_and_right, exists_or]

theorem scanned_foldl {files : List TrackingFile} (hnodup : files.Nodup) :
    Scanned io policy root files (files.foldl (scanFile io policy) { root }) := by
  induction files using List.reverseRecOn with
  | nil =>
    exact
      { leased := rfl
        jobLeases := rfl
        documents := fun _ _ => rfl
        dirs := fun _ => .inl rfl
        cleared := by simp
        removals := by simp
        attempted := by simp
        claimed := by simp
        unreadable := by simp }
  | append_singleton done file ih =>
    obtain ⟨hdone, -, hnew⟩ := List.nodup_append.mp hnodup
    have h := ih hdone
    have hnot : file ∉ done := fun hmem => hnew file hmem file (by simp) rfl
    rw [List.foldl_append, List.foldl_cons, List.foldl_nil]
    exact h.snoc (scanFile_step ⟨h.leased, h.documents file hnot⟩)

theorem scanned_scanFiles (io : Io) (policy : GcPolicy) (root : Root) :
    Scanned io policy root (trackingFiles io root) (scanFiles io policy root) :=
  scanned_foldl trackingFiles_nodup

end Scan

/-! ### The pass over the root -/

section Visit

variable {io policy root} {s s₁ : Collection} {name : Str} {maxAge : Instant}

/-- An entry that is removed, from what the scan has left. -/
def taken (io : Io) (policy : GcPolicy) (s : Collection) (name : Str) : Bool :=
  !io.fails (.readEntry name) && !isSpared policy s name && judgedOld io policy s.root name

theorem judgedOld_congr {root' : Root} (hdirs : root'.dirs name = root.dirs name)
    (hleases : root'.jobLeases name = root.jobLeases name) :
    judgedOld io policy root' name = judgedOld io policy root name := by
  simp only [judgedOld, isStaleDir, hdirs, hleases]

theorem dirs_of_judgedOld (h : judgedOld io policy root name = true) :
    (root.dirs name).isSome := by
  unfold judgedOld isStaleDir at h
  cases hdir : root.dirs name with
  | some _ => rfl
  | none =>
    rw [hdir] at h
    cases hage : policy.jobMaxAge <;> simp [hage] at h

/-- The removal of an entry, and of nothing else. -/
structure VisitStep (name : Str) (s s' : Collection) : Prop where
  claimed : s'.claimed = s.claimed
  unreadable : s'.unreadable = s.unreadable
  dirs : ∀ other, other ≠ name → s'.root.dirs other = s.root.dirs other
  jobLeases : ∀ other, other ≠ name → s'.root.jobLeases other = s.root.jobLeases other
  removals : s'.removals = ⟨name, none⟩ :: s.removals

theorem removeTree_visitStep (io : Io) (operation : Operation) (hdir : (s.root.dirs name).isSome) :
    VisitStep name s (removeTree io s operation name none).2 := by
  obtain ⟨hclaimed, hunreadable, -, hjob, -⟩ := removeTree_frame io s operation name none
  refine ⟨hclaimed, hunreadable, fun other hother => ?_, fun _ _ => by rw [hjob], ?_⟩
  · rw [removeTree_dirs]
    split
    · rfl
    · exact Function.update_of_ne hother ..
  · rw [removeTree_removals, if_pos hdir]

theorem pruneJobDir_of_young (hage : policy.jobMaxAge = some maxAge)
    (h : judgedOld io policy s.root name = false) :
    pruneJobDir io policy s name io.now maxAge = (false, s) := by
  simp only [judgedOld, hage, Option.any_some, Bool.and_eq_false_iff] at h
  unfold pruneJobDir
  split
  next hlease =>
    simp only [hlease, Bool.true_eq_false, or_false] at h
    rw [if_neg (by simp [h])]
  next lease hlease =>
    split
    · rfl
    next howner =>
      split
      · rfl
      next hlock =>
        have howned : leaseOwner io name lease = some policy.dataDir := by simpa using howner
        rw [hlease] at h
        simp only [howned, hlock, decide_true, Bool.not_false, Bool.true_and, Bool.true_eq_false,
          or_false] at h
        rw [if_neg (by simp [h])]

theorem pruneJobDir_of_old (hage : policy.jobMaxAge = some maxAge)
    (h : judgedOld io policy s.root name = true) :
    VisitStep name s (pruneJobDir io policy s name io.now maxAge).2 := by
  have hdir := dirs_of_judgedOld h
  simp only [judgedOld, hage, Option.any_some, Bool.and_eq_true] at h
  obtain ⟨hstale, hlease⟩ := h
  unfold pruneJobDir
  split
  · rw [if_pos hstale]
    exact removeTree_visitStep io _ hdir
  next lease heq =>
    rw [heq] at hlease
    simp only [Bool.and_eq_true, decide_eq_true_eq, Bool.not_eq_true'] at hlease
    rw [if_neg (by simp [hlease.1]), if_neg (by simp [hlease.2]), if_pos hstale]
    have hstep := removeTree_visitStep io (.removeJobTree name) hdir
    rcases hremove : removeTree io s (.removeJobTree name) name none with ⟨_ | _, s'⟩ <;>
      rw [hremove] at hstep
    · exact hstep
    · dsimp only
      split
      · exact hstep
      · exact { hstep with
          jobLeases := fun other hother => by
            rw [← hstep.jobLeases other hother]
            exact Function.update_of_ne hother .. }

theorem taken_congr (io : Io) (policy : GcPolicy) (hclaimed : s.claimed = s₁.claimed)
    (hunreadable : s.unreadable = s₁.unreadable)
    (hdirs : s.root.dirs name = s₁.root.dirs name)
    (hleases : s.root.jobLeases name = s₁.root.jobLeases name) :
    taken io policy s name = taken io policy s₁ name := by
  rw [taken, taken, judgedOld_congr hdirs hleases, isSpared, isSpared, hclaimed, hunreadable]

theorem visitEntry_of_not_taken (hage : policy.jobMaxAge = some maxAge)
    (h : taken io policy s name = false) : visitEntry io policy io.now maxAge s name = s := by
  unfold visitEntry
  split
  · rfl
  next hspared =>
    have hyoung : judgedOld io policy s.root name = false := by
      simp only [Bool.or_eq_true, not_or, Bool.not_eq_true] at hspared
      simpa [taken, hspared] using h
    rw [pruneJobDir_of_young hage hyoung]

theorem visitEntry_of_taken (hage : policy.jobMaxAge = some maxAge)
    (h : taken io policy s name = true) :
    VisitStep name s (visitEntry io policy io.now maxAge s name) := by
  simp only [taken, Bool.and_eq_true, Bool.not_eq_true'] at h
  have hstep := pruneJobDir_of_old hage h.2
  unfold visitEntry
  rw [if_neg (by simp [h.1])]
  rcases hprune : pruneJobDir io policy s name io.now maxAge with ⟨_ | _, s'⟩ <;>
    rw [hprune] at hstep
  · exact hstep
  · exact ⟨hstep.claimed, hstep.unreadable, hstep.dirs, hstep.jobLeases, hstep.removals⟩

/-- What the second pass leaves, once it has been at these entries. -/
structure Visited (io : Io) (policy : GcPolicy) (s₁ : Collection) (done : List Str)
    (s : Collection) : Prop where
  claimed : s.claimed = s₁.claimed
  unreadable : s.unreadable = s₁.unreadable
  dirs : ∀ name, name ∉ done → s.root.dirs name = s₁.root.dirs name
  jobLeases : ∀ name, name ∉ done → s.root.jobLeases name = s₁.root.jobLeases name
  removals : ∀ removal, removal ∈ s.removals ↔ removal ∈ s₁.removals ∨
    removal.under = none ∧ removal.directory ∈ done ∧ taken io policy s₁ removal.directory = true

theorem Visited.snoc {done : List Str} (hage : policy.jobMaxAge = some maxAge)
    (h : Visited io policy s₁ done s) (hnew : name ∉ done) :
    Visited io policy s₁ (done ++ [name]) (visitEntry io policy io.now maxAge s name) := by
  have hsame := taken_congr io policy h.claimed h.unreadable
    (h.dirs name hnew) (h.jobLeases name hnew)
  cases htaken : taken io policy s name with
  | false =>
    rw [visitEntry_of_not_taken hage htaken]
    refine ⟨h.claimed, h.unreadable, fun other hother => ?_, fun other hother => ?_, fun removal => ?_⟩
    · exact h.dirs other fun hmem => hother (List.mem_append_left _ hmem)
    · exact h.jobLeases other fun hmem => hother (List.mem_append_left _ hmem)
    · rw [h.removals]
      constructor
      · rintro (hold | ⟨hunder, hmem, htaken'⟩)
        · exact .inl hold
        · exact .inr ⟨hunder, List.mem_append_left _ hmem, htaken'⟩
      · rintro (hold | ⟨hunder, hmem, htaken'⟩)
        · exact .inl hold
        · rcases List.mem_append.mp hmem with hmem | hmem
          · exact .inr ⟨hunder, hmem, htaken'⟩
          · rw [List.mem_singleton.mp hmem, ← hsame, htaken] at htaken'
            cases htaken'
  | true =>
    have hstep := visitEntry_of_taken hage htaken
    have hne : ∀ other, other ∉ done ++ [name] → other ∉ done ∧ other ≠ name := by
      intro other hother
      simpa [not_or] using hother
    refine ⟨hstep.claimed.trans h.claimed, hstep.unreadable.trans h.unreadable,
      fun other hother => ?_, fun other hother => ?_, fun removal => ?_⟩
    · rw [hstep.dirs other (hne other hother).2, h.dirs other (hne other hother).1]
    · rw [hstep.jobLeases other (hne other hother).2, h.jobLeases other (hne other hother).1]
    · rw [hstep.removals, List.mem_cons, h.removals]
      constructor
      · rintro (rfl | hold | ⟨hunder, hmem, htaken'⟩)
        · exact .inr ⟨rfl, by simp, hsame ▸ htaken⟩
        · exact .inl hold
        · exact .inr ⟨hunder, List.mem_append_left _ hmem, htaken'⟩
      · rintro (hold | ⟨hunder, hmem, htaken'⟩)
        · exact .inr (.inl hold)
        · rcases List.mem_append.mp hmem with hmem | hmem
          · exact .inr (.inr ⟨hunder, hmem, htaken'⟩)
          · obtain ⟨directory, under⟩ := removal
            obtain rfl : under = none := hunder
            obtain rfl : directory = name := List.mem_singleton.mp hmem
            exact .inl rfl

theorem visited_foldl (hage : policy.jobMaxAge = some maxAge) {entries : List Str}
    (hnodup : entries.Nodup) :
    Visited io policy s₁ entries (entries.foldl (visitEntry io policy io.now maxAge) s₁) := by
  induction entries using List.reverseRecOn with
  | nil => exact ⟨rfl, rfl, fun _ _ => rfl, fun _ _ => rfl, by simp⟩
  | append_singleton done name ih =>
    obtain ⟨hdone, -, hnew⟩ := List.nodup_append.mp hnodup
    rw [List.foldl_append, List.foldl_cons, List.foldl_nil]
    exact (ih hdone).snoc hage fun hmem => hnew name hmem name (by simp) rfl

/-- The removals of a sweep: those of the scan, and the entries that nobody claims by then. -/
theorem gcWorkspaces_removals (policy : GcPolicy) (hpresent : root.present = true)
    (hlist : io.fails .listRoot = false) :
    ∃ s, gcWorkspaces io policy root = some s ∧ ∀ removal, removal ∈ s.removals ↔
      removal ∈ (scanFiles io policy root).removals ∨ removal.under = none ∧
        removal.directory ∈ root.entries ∧
        taken io policy (scanFiles io policy root) removal.directory = true := by
  unfold gcWorkspaces
  rw [hpresent, hlist]
  cases hage : policy.jobMaxAge with
  | none => exact ⟨_, rfl, fun removal => by simp [taken, judgedOld, hage]⟩
  | some maxAge => exact ⟨_, rfl, (visited_foldl hage root.entries_nodup).removals⟩

end Visit

/-! ### What is protected -/

/-- The lease of the repository is taken, and under it the workspace is stale and owned. -/
structure LeasedStale (file : TrackingFile) (tracking : TrackingConfig) : Prop where
  free : root.leased file = false
  taken : io.fails (.lease file) = false
  owned : tracking.dataDir = policy.dataDir
  stale : ∃ maxAge, policy.stableMaxAge = some maxAge ∧
    isStaleUnix (io.clock (.reload file)) tracking.lastRunOnUnix maxAge = true

/-- No directory that a tracking file names is removed, but under that file's lease. -/
def Protects (s : Collection) : Prop :=
  ∀ removal ∈ s.removals, ∀ file tracking, root.Tracks file tracking →
    tracking.pipelineDirectory = removal.directory →
    removal.under = some file ∧ LeasedStale io policy root file tracking

def KeepsWhenUnsure : Prop := ∀ s, gcWorkspaces io policy root = some s → Protects io policy root s

/-- A directory that is pruned belongs to one tracking file alone. -/
def Unshared : Prop :=
  ∀ file ∈ trackingFiles io root, ∀ tracking, prunable io policy root file = some tracking →
    (root.dirs tracking.pipelineDirectory).isSome → ∀ other current, root.Tracks other current →
      current.pipelineDirectory = tracking.pipelineDirectory → other = file

/-- The scan finds the file, and reads it or can tell its directory by the repository's name. -/
def Reached (file : TrackingFile) (tracking : TrackingConfig) : Prop :=
  file ∈ trackingFiles io root ∧ (io.fails (.load file) = false ∨
    isPipelineNameFor (asciiLower tracking.pipelineDirectory) (asciiLower file.repo) = true)

/-- What the scan does not reach is no target of the second pass, or another file covers it. -/
def Covered : Prop :=
  ∀ file tracking, root.Tracks file tracking → Reached io root file tracking ∨
    freshTarget io policy root tracking.pipelineDirectory = false ∨
    ∃ other ∈ trackingFiles io root, covers io policy root other tracking.pipelineDirectory = true

section Protection

variable {io policy root} {file other : TrackingFile} {tracking current : TrackingConfig}
  {name : Str}

theorem tracks_of_prunable (hfile : file ∈ trackingFiles io root)
    (h : prunable io policy root file = some tracking) : root.Tracks file tracking := by
  obtain ⟨_, -, hload, -⟩ := prunable_eq_some.mp h
  exact ⟨(mem_trackingFiles hfile).1, (loadTracking_eq_some.mp hload).2⟩

theorem leasedStale_of_prunable (h : prunable io policy root file = some tracking) :
    LeasedStale io policy root file tracking := by
  obtain ⟨maxAge, hage, -, -, hlease, -, heligible⟩ := prunable_eq_some.mp h
  simp only [eligible, Bool.and_eq_true, decide_eq_true_eq] at heligible
  obtain ⟨hfails, hfree⟩ := Bool.or_eq_false_iff.mp hlease
  exact ⟨hfree, hfails, heligible.1.1.1, maxAge, hage, heligible.2⟩

/-- What the scan has claimed for the second pass. -/
theorem isSpared_scanFiles :
    isSpared policy (scanFiles io policy root) name = true ↔ name = policy.keep ∨
      name.head? = some '_' ∨ ∃ other ∈ trackingFiles io root,
        covers io policy root other name = true := by
  have h := scanned_scanFiles io policy root
  simp only [isSpared, Bool.or_eq_true, decide_eq_true_eq, List.any_eq_true, h.claimed,
    h.unreadable, or_assoc]
  refine or_congr_right (or_congr_right ⟨?_, ?_⟩)
  · rintro (⟨other, hmem, tracking, hload, hname, hkept⟩ | ⟨repo, ⟨other, hmem, hload, rfl⟩, hname⟩)
    · exact ⟨other, hmem, by simp [covers, hload, hname, hkept]⟩
    · exact ⟨other, hmem, by simp [covers, hload, hname]⟩
  · rintro ⟨other, hmem, hcovers⟩
    unfold covers at hcovers
    split at hcovers
    next tracking hload =>
      simp only [Bool.and_eq_true, decide_eq_true_eq, Bool.not_eq_true'] at hcovers
      exact .inl ⟨other, hmem, tracking, hload, hcovers.1, hcovers.2⟩
    next hload => exact .inr ⟨_, ⟨other, hmem, hload, rfl⟩, hcovers⟩

/-- What is taken after the scan was a target before it, and nothing covers it. -/
theorem of_taken (h : taken io policy (scanFiles io policy root) name = true)
    (hentry : name ∈ root.entries) :
    freshTarget io policy root name = true ∧
      ((scanFiles io policy root).root.dirs name).isSome ∧
      ¬ ∃ other ∈ trackingFiles io root, covers io policy root other name = true := by
  have hscan := scanned_scanFiles io policy root
  simp only [taken, Bool.and_eq_true, Bool.not_eq_true'] at h
  obtain ⟨⟨hread, hspared⟩, hold⟩ := h
  have hdir := dirs_of_judgedOld hold
  have hclear : ¬ (name = policy.keep ∨ name.head? = some '_' ∨ ∃ other ∈ trackingFiles io root,
      covers io policy root other name = true) := by
    rw [← isSpared_scanFiles, hspared]
    exact Bool.false_ne_true
  simp only [not_or] at hclear
  have hsame : (scanFiles io policy root).root.dirs name = root.dirs name := by
    rcases hscan.dirs name with hsame | ⟨hgone, -⟩
    · exact hsame
    · simp [hgone] at hdir
  rw [judgedOld_congr hsame (congrFun hscan.jobLeases name)] at hold
  exact ⟨by simp [freshTarget, hentry, hread, hclear.1, hclear.2.1, hold], hdir, hclear.2.2⟩

/-- A file that is reached keeps the second pass from its directory: it is covered or gone. -/
theorem not_taken_of_reached (htracks : root.Tracks file tracking)
    (h : Reached io root file tracking)
    (hentry : tracking.pipelineDirectory ∈ root.entries) :
    taken io policy (scanFiles io policy root) tracking.pipelineDirectory = false := by
  by_contra htaken
  rw [Bool.not_eq_false] at htaken
  obtain ⟨-, hdir, huncovered⟩ := of_taken htaken hentry
  obtain ⟨hfile, hreached⟩ := h
  apply huncovered
  rcases hload : loadTracking io root (.load file) file with _ | current
  · -- it is not read, so that its directory goes by the repository's name
    have hname : isPipelineNameFor (asciiLower tracking.pipelineDirectory)
        (asciiLower file.repo) = true := by
      rcases hreached with hfails | hname
      · rw [loadTracking_eq_some.mpr ⟨hfails, htracks.2⟩] at hload
        cases hload
      · exact hname
    exact ⟨file, hfile, by simp [covers, hload, hname]⟩
  · have hsame := (loadTracking_eq_some.mp hload).2.symm.trans htracks.2
    obtain rfl : current = tracking := by simpa using hsame
    cases hprunes : prunes io policy root file with
    | false => exact ⟨file, hfile, by simp [covers, hload, hprunes]⟩
    | true =>
      obtain ⟨current', hsome⟩ : ∃ t, prunable io policy root file = some t := by
        simp only [prunes, Bool.and_eq_true] at hprunes
        exact Option.isSome_iff_exists.mp hprunes.1.1
      obtain ⟨_, -, hload', -⟩ := prunable_eq_some.mp hsome
      obtain rfl : current = current' := Option.some.inj (hload.symm.trans hload')
      have hgone := (scanned_scanFiles io policy root).cleared
        file hfile current hsome hprunes
      simp [hgone] at hdir

theorem keepsWhenUnsure_of (hunshared : Unshared io policy root)
    (hcovered : Covered io policy root) (hpresent : root.present = true)
    (hlist : io.fails .listRoot = false) : KeepsWhenUnsure io policy root := by
  intro s hs removal hremoval file tracking htracks hdir
  obtain ⟨s', hs', hremovals⟩ := gcWorkspaces_removals policy hpresent hlist
  obtain rfl : s = s' := Option.some.inj (hs.symm.trans hs')
  rcases (hremovals removal).mp hremoval with hscan | ⟨-, hentry, htaken⟩
  · obtain ⟨other, hother, current, hsome, rfl, hpresent⟩ :=
      (scanned_scanFiles io _ _).removals removal hscan
    obtain rfl := hunshared other hother current hsome hpresent file tracking htracks hdir
    have hsame := (tracks_of_prunable hother hsome).2.symm.trans htracks.2
    obtain rfl : current = tracking := by simpa using hsame
    exact ⟨rfl, leasedStale_of_prunable hsome⟩
  · rw [← hdir] at hentry htaken
    obtain ⟨htarget, -, huncovered⟩ := of_taken htaken hentry
    rcases hcovered file tracking htracks with hreached | hno | hcovers
    · simp [not_taken_of_reached htracks hreached hentry] at htaken
    · simp [hno] at htarget
    · exact absurd hcovers huncovered

/-- One of the tracking files that name a pruned directory has the lease under which it goes. -/
theorem unshared_of_protects {s : Collection}
    (hremovals : ∀ removal ∈ (scanFiles io policy root).removals, removal ∈ s.removals)
    (h : Protects io policy root s) : Unshared io policy root := by
  intro file hfile tracking hsome hdir other current htracks hname
  obtain ⟨under, hunder⟩ := (scanned_scanFiles io _ _).attempted file hfile tracking hsome hdir
  obtain ⟨hother, -⟩ := h _ (hremovals _ hunder) other current htracks hname
  obtain ⟨hown, -⟩ := h _ (hremovals _ hunder) file tracking (tracks_of_prunable hfile hsome) rfl
  exact Option.some.inj (hother.symm.trans hown)

theorem covered_of_protects {s : Collection}
    (hremovals : ∀ removal, removal ∈ s.removals ↔
      removal ∈ (scanFiles io policy root).removals ∨ removal.under = none ∧
        removal.directory ∈ root.entries ∧
        taken io policy (scanFiles io policy root) removal.directory = true)
    (h : Protects io policy root s) : Covered io policy root := by
  intro file tracking htracks
  by_contra hcovered
  simp only [not_or, Bool.not_eq_false] at hcovered
  obtain ⟨hunreached, htarget, huncovered⟩ := hcovered
  simp only [freshTarget, Bool.and_eq_true, decide_eq_true_eq, Bool.not_eq_true', bne_iff_ne,
    ne_eq] at htarget
  obtain ⟨⟨⟨⟨hentry, hread⟩, hkeep⟩, hunderscore⟩, hold⟩ := htarget
  have hscan := scanned_scanFiles io policy root
  have hspared : isSpared policy (scanFiles io policy root) tracking.pipelineDirectory = false := by
    rw [← Bool.not_eq_true, isSpared_scanFiles]
    rintro (hname | hname | hname)
    · exact hkeep hname
    · exact hunderscore hname
    · exact huncovered hname
  have hsame : (scanFiles io policy root).root.dirs tracking.pipelineDirectory =
      root.dirs tracking.pipelineDirectory := by
    rcases hscan.dirs tracking.pipelineDirectory with hsame | ⟨-, other, hother, current, hsome, hname⟩
    · exact hsame
    · -- the file whose lease was held is this one, and it was reached
      exfalso
      have hsub : ∀ removal ∈ (scanFiles io policy root).removals, removal ∈ s.removals :=
        fun removal hmem => (hremovals removal).mpr (.inl hmem)
      have hdir : (root.dirs current.pipelineDirectory).isSome := hname ▸ dirs_of_judgedOld hold
      obtain rfl := unshared_of_protects hsub h other hother current hsome hdir file tracking
        htracks hname.symm
      obtain ⟨_, -, hload, -⟩ := prunable_eq_some.mp hsome
      exact hunreached ⟨hother, .inl (loadTracking_eq_some.mp hload).1⟩
  have htaken : taken io policy (scanFiles io policy root) tracking.pipelineDirectory = true := by
    simp only [taken, hread, hspared, Bool.not_false, Bool.true_and]
    rwa [judgedOld_congr hsame (congrFun hscan.jobLeases _)]
  have hremoved : (⟨tracking.pipelineDirectory, none⟩ : Removal) ∈ s.removals :=
    (hremovals _).mpr (.inr ⟨rfl, hentry, htaken⟩)
  exact absurd (h _ hremoved file tracking htracks rfl).1 (by simp)

end Protection

/-- **A sweep keeps what it is unsure of** exactly if no pruned directory is shared, and the scan
    reaches every tracking file whose directory the second pass would remove. -/
theorem keepsWhenUnsure_iff :
    KeepsWhenUnsure io policy root ↔ (root.present = true → io.fails .listRoot = false →
      Unshared io policy root ∧ Covered io policy root) := by
  constructor
  · intro h hpresent hlist
    obtain ⟨s, hs, hremovals⟩ := gcWorkspaces_removals policy hpresent hlist
    have hsub : ∀ removal ∈ (scanFiles io policy root).removals, removal ∈ s.removals :=
      fun removal hmem => (hremovals removal).mpr (.inl hmem)
    exact ⟨unshared_of_protects hsub (h s hs), covered_of_protects hremovals (h s hs)⟩
  · intro h
    cases hpresent : root.present with
    | false =>
      -- there is nothing to remove
      intro s hs removal hremoval
      obtain rfl : ({ root } : Collection) = s := by simpa [gcWorkspaces, hpresent] using hs
      cases hremoval
    | true =>
      cases hlist : io.fails .listRoot with
      | true =>
        intro s hs
        simp [gcWorkspaces, hpresent, hlist] at hs
      | false =>
        obtain ⟨hunshared, hcovered⟩ := h hpresent hlist
        exact keepsWhenUnsure_of hunshared hcovered hpresent hlist

/-! ### Scans that fail, and scans that do not -/

section Unlisted

def hello : TrackingFile := ⟨"octo".toList, "hello".toList⟩

def helloTracking : TrackingConfig where
  repositoryName := "octo/hello".toList
  pipelineDirectory := "hello".toList
  workspaceDirectory := "hello/hello".toList
  lastRunOnUnix := 1000000
  dataDir := "/runners/2".toList

/-- A running job of another registration is in `hello`. -/
def busyRoot : Root where
  present := true
  entries := [mappingDir, "hello".toList]
  owners := ["octo".toList]
  repos _ := ["hello".toList]
  documents file := if file = hello then some (.tracking helloTracking) else none
  leased _ := true
  jobLeases _ := none
  dirs name := if name = "hello".toList then some 0 else none
  entries_nodup := by decide +kernel
  owners_nodup := List.nodup_singleton _
  repos_nodup _ := List.nodup_singleton _
  listed file h := by
    by_cases hfile : file = hello
    · exact hfile ▸ ⟨List.mem_singleton.mpr rfl, List.mem_singleton.mpr rfl⟩
    · simp [hfile] at h

/-- The directory of the owner cannot be listed. -/
def blindIo : Io where
  fails operation := operation = .listOwner "octo".toList
  clock _ := 1000000 * 1000000000
  now := 1000000 * 1000000000

def dayPolicy : GcPolicy where
  dataDir := "/runners/1".toList
  jobMaxAge := some (86400 * 1000000000)
  stableMaxAge := none
  keep := "job".toList

/-- The workspace of the running job is removed, without its lease. -/
theorem unlisted_owner :
    (∃ s, gcWorkspaces blindIo dayPolicy busyRoot = some s ∧
      s.removals = [⟨"hello".toList, none⟩]) ∧ busyRoot.leased hello = true ∧
    ¬ KeepsWhenUnsure blindIo dayPolicy busyRoot := by
  have hremoved : (gcWorkspaces blindIo dayPolicy busyRoot).map (·.removals) =
      some [⟨"hello".toList, none⟩] := by decide
  obtain ⟨s, hs, hremovals⟩ := Option.map_eq_some_iff.mp hremoved
  refine ⟨⟨s, hs, hremovals⟩, rfl, fun h => ?_⟩
  have htracks : busyRoot.Tracks hello helloTracking := by
    refine ⟨by decide, ?_⟩
    show (if hello = hello then some (Document.tracking helloTracking) else none) = _
    exact if_pos rfl
  have hunder := (h s hs ⟨"hello".toList, none⟩ (by simp [hremovals]) hello helloTracking htracks
    rfl).1
  cases hunder

end Unlisted

end GhRunner.Execution.Gc
