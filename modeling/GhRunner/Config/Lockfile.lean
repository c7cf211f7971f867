import GhRunner.Lib.Text
import GhRunner.Lib.Machine
import Mathlib.Data.Fintype.Basic
import Mathlib.Data.Finset.Insert

set_option linter.unusedSectionVars false

namespace GhRunner.Config

open Text Machine

/-!
# The single-job lock

At most one live `run` for a data directory (`crates/config/src/lockfile.rs`).  A lock is an `flock`
on the file the path names; one that looks stale has its file removed and a new one locked.

* `LockBody`, `LockError` — what the file says of its holder, and what a refused caller is told;
* `CallState` — where a call of `acquire` stands, one file-system step after the other;
* `LockWorld`, `LockEvent`, `step` — the calls of all processes, processes that die, and the clock;
* `Abandoned` — a file is removed only while nobody has it open to lock it, or has locked it;
* `Current` — everybody who may hold the lock has the file that the path names;
* `at_most_one_guard` — then there is one guard at most;
* `foreign_holder_robbed` — and what happens to a holder whose process the caller cannot see.
-/

/-- In nanoseconds. -/
abbrev Time := ℕ

def staleLockAge : Time := 300000000000

def acquireRetries : ℕ := 10

/-- The body of the lock file. -/
structure LockBody where
  pid : ℕ
  startedAt : Str
  configPath : Str
deriving DecidableEq, Repr

inductive LockError
  | lockHeld (pid : ℕ) (startedAt configPath : Str)
  /-- The file that replaced a stale one was locked by somebody else. -/
  | afterStaleLockRemoval
  | io
deriving DecidableEq, Repr

abbrev Inode := ℕ

/-- Where a call of `acquire` stands. -/
inductive CallState
  | idle
  /-- The file is open; so many tries to lock it have failed. -/
  | opened (file : Inode) (attempts : ℕ)
  /-- Locked, the body not yet written. -/
  | locked (file : Inode)
  /-- Locked, and the body of the holder before cleared. -/
  | truncated (file : Inode)
  /-- The lock is held by somebody else. -/
  | contended
  | bodyRead (existing : Option LockBody)
  | timed (existing : Option LockBody) (now : Time)
  | aged (existing : Option LockBody) (age : Time)
  /-- Taken for stale; the file is to be removed. -/
  | stale
  | removed
  /-- The file that takes its place is open. -/
  | reopened (file : Inode)
  | guard (file : Inode)
  /-- The guard is being dropped: its body is cleared, its file still open. -/
  | dropping (file : Inode)
  | failed (e : LockError)
  | done
deriving DecidableEq, Repr

/-- The file that the call will lock, or has locked for its guard. -/
def CallState.file : CallState → Option Inode
  | .opened file _ | .locked file | .truncated file | .reopened file | .guard file => some file
  | _ => none

/-- The file that the call has locked. -/
def CallState.lockedFile : CallState → Option Inode
  | .locked file | .truncated file | .guard file | .dropping file => some file
  | _ => none

structure File where
  /-- Nothing if the body cannot be read as one. -/
  body : Option LockBody
  mtime : Time
deriving DecidableEq, Repr

/-- The calls there are, and the processes that make them. -/
structure Callers (Q C : Type) where
  owner : C → Q
  /-- The pid under which a process sees another, if it is in a namespace where it does. -/
  pid : Q → Q → Option ℕ
  startedAt : C → Str
  configPath : C → Str

def Callers.body {Q C : Type} (callers : Callers Q C) (c : C) : LockBody where
  pid := (callers.pid (callers.owner c) (callers.owner c)).getD 0
  startedAt := callers.startedAt c
  configPath := callers.configPath c

structure LockWorld (Q C : Type) where
  /-- The processes that run. -/
  live : Finset Q
  now : Time
  /-- The file that the path names. -/
  entry : Option Inode
  files : Inode → File
  nextInode : Inode
  /-- The call whose open file has the lock. -/
  flock : Inode → Option C
  calls : C → CallState

inductive LockEvent (Q C : Type)
  | acquire (c : C)
  /-- The next step of a call; `fails` if it writes and cannot. -/
  | next (c : C) (fails : Bool)
  /-- The guard is dropped; `fails` if its body cannot be cleared. -/
  | drop (c : C) (fails : Bool)
  | start (q : Q)
  | die (q : Q)
  | clock (now : Time)

namespace LockWorld

variable {Q C : Type} [DecidableEq Q] [DecidableEq C] (callers : Callers Q C)

def start : LockWorld Q C where
  live := ∅
  now := 0
  entry := none
  files := fun _ => ⟨none, 0⟩
  nextInode := 0
  flock := fun _ => none
  calls := fun _ => .idle

def setCall (s : LockWorld Q C) (c : C) (state : CallState) : LockWorld Q C :=
  { s with calls := Function.update s.calls c state }

def setLock (s : LockWorld Q C) (file : Inode) (holder : Option C) : LockWorld Q C :=
  { s with flock := Function.update s.flock file holder }

/-- A new file, which the path names from now on. -/
def makeFile (s : LockWorld Q C) : LockWorld Q C :=
  { s with
    entry := some s.nextInode
    files := Function.update s.files s.nextInode ⟨none, s.now⟩
    nextInode := s.nextInode + 1
    flock := Function.update s.flock s.nextInode none }

/-- Open the file at the path, or make one. -/
def openFile (s : LockWorld Q C) (c : C) (state : Inode → CallState) : LockWorld Q C :=
  match s.entry with
  | some file => s.setCall c (state file)
  | none => s.makeFile.setCall c (state s.nextInode)

/-- `flock`, without waiting. -/
def tryLock (s : LockWorld Q C) (c : C) (file : Inode) (refused : CallState) : LockWorld Q C :=
  match s.flock file with
  | none => (s.setLock file (some c)).setCall c (.locked file)
  | some _ => s.setCall c refused

def writeFile (s : LockWorld Q C) (file : Inode) (body : Option LockBody) : LockWorld Q C :=
  { s with files := Function.update s.files file ⟨body, s.now⟩ }

/-- The descriptor is closed, which releases the lock. -/
def close (s : LockWorld Q C) (c : C) (file : Inode) (state : CallState) : LockWorld Q C :=
  (s.setLock file none).setCall c state

/-- A live process has the pid, as the viewer sees it. -/
def isPidAlive (s : LockWorld Q C) (viewer : Q) (pid : ℕ) : Bool :=
  pid ≠ 0 && decide (∃ q ∈ s.live, callers.pid viewer q = some pid)

def readBody (s : LockWorld Q C) : Option LockBody := s.entry.bind fun file => (s.files file).body

def mtime (s : LockWorld Q C) : Time := (s.entry.map fun file => (s.files file).mtime).getD 0

/-- Whether a contended lock is held, or stale. -/
def judge (s : LockWorld Q C) (c : C) (existing : Option LockBody) (age : Time) : CallState :=
  match existing with
  | some body =>
    if s.isPidAlive callers (callers.owner c) body.pid || age < staleLockAge then
      .failed (.lockHeld body.pid body.startedAt body.configPath)
    else .stale
  | none =>
    if age < staleLockAge then
      .failed (.lockHeld 0 "unknown (lock body unreadable)".toList [])
    else .stale

/-- The next file-system step of a call. -/
def next (s : LockWorld Q C) (c : C) (fails : Bool) : LockWorld Q C :=
  match s.calls c with
  | .opened file attempts =>
    s.tryLock c file
      (if acquireRetries ≤ attempts + 1 then .contended else .opened file (attempts + 1))
  | .locked file =>
    if fails then s.close c file (.failed .io)
    else (s.writeFile file none).setCall c (.truncated file)
  | .truncated file =>
    if fails then s.close c file (.failed .io)
    else (s.writeFile file (some (callers.body c))).setCall c (.guard file)
  | .contended => s.setCall c (.bodyRead s.readBody)
  | .bodyRead existing => s.setCall c (.timed existing s.now)
  | .timed existing now => s.setCall c (.aged existing (now - s.mtime))
  | .aged existing age => s.setCall c (s.judge callers c existing age)
  | .stale => { s with entry := none }.setCall c .removed
  | .removed => s.openFile c .reopened
  | .reopened file => s.tryLock c file (.failed .afterStaleLockRemoval)
  | .dropping file => s.close c file .done
  | .idle | .guard _ | .failed _ | .done => s

def step (s : LockWorld Q C) : LockEvent Q C → LockWorld Q C
  | .acquire c =>
    if s.calls c = .idle ∧ callers.owner c ∈ s.live then s.openFile c fun file => .opened file 0
    else s
  | .next c fails => s.next callers c fails
  | .drop c fails =>
    match s.calls c with
    | .guard file =>
      (if fails then s else s.writeFile file none).setCall c (.dropping file)
    | _ => s
  | .start q => { s with live := insert q s.live }
  | .die q =>
    { s with
      live := s.live.erase q
      flock := fun file => (s.flock file).filter fun c => callers.owner c ≠ q
      calls := fun c => if callers.owner c = q then .done else s.calls c }
  | .clock now => { s with now := now }

/-- The call's process holds a guard, and lives. -/
def Guards (s : LockWorld Q C) (c : C) : Prop :=
  callers.owner c ∈ s.live ∧ ∃ file, s.calls c = .guard file

/-- When a file that was taken for stale is removed, nobody has it open to lock it, and nobody has
    locked it for a guard. -/
def Abandoned (s : LockWorld Q C) : LockEvent Q C → Prop
  | .next c _ => s.calls c = .stale → ∀ d, (s.calls d).file = none ∨ (s.calls d).file ≠ s.entry
  | _ => True

instance decidableAbandoned [Fintype C] (s : LockWorld Q C) :
    (e : LockEvent Q C) → Decidable (s.Abandoned e)
  | .next c _ => inferInstanceAs
      (Decidable (s.calls c = .stale → ∀ d, (s.calls d).file = none ∨ (s.calls d).file ≠ s.entry))
  | .acquire _ | .drop _ _ | .start _ | .die _ | .clock _ => .isTrue trivial

/-! ### The invariant -/

/-- Whoever may lock the file has the one that the path names, and whoever has locked it has the
    lock. -/
structure Current (s : LockWorld Q C) : Prop where
  file : ∀ c file, (s.calls c).file = some file → s.entry = some file
  locked : ∀ c file, (s.calls c).lockedFile = some file → s.flock file = some c
  made : ∀ c file, s.flock file = some c → file < s.nextInode
  path : ∀ file, s.entry = some file → file < s.nextInode

variable {callers} {s : LockWorld Q C} {c : C}

theorem current_start : Current (start : LockWorld Q C) where
  file c file h := by cases h
  locked c file h := by cases h
  made c file h := by cases h
  path file h := by cases h

theorem setCall_calls (s : LockWorld Q C) (c d : C) (state : CallState) :
    (s.setCall c state).calls d = if d = c then state else s.calls d :=
  Function.update_apply _ _ _ _

theorem setLock_flock (s : LockWorld Q C) (file g : Inode) (holder : Option C) :
    (s.setLock file holder).flock g = if g = file then holder else s.flock g :=
  Function.update_apply _ _ _ _

theorem makeFile_flock (s : LockWorld Q C) (g : Inode) :
    s.makeFile.flock g = if g = s.nextInode then none else s.flock g :=
  Function.update_apply _ _ _ _

/-- One call moves on, and takes no file or lock from the others. -/
theorem current_setCall {state : CallState} {t : LockWorld Q C} (h : Current s)
    (hcalls : t.calls = s.calls)
    (hentry : ∀ file, s.entry = some file → t.entry = some file)
    (hlock : ∀ d file, d ≠ c → s.flock file = some d → t.flock file = some d)
    (hmade : ∀ d file, t.flock file = some d → file < t.nextInode)
    (hpath : ∀ file, t.entry = some file → file < t.nextInode)
    (hfile : ∀ file, state.file = some file → t.entry = some file)
    (hlocked : ∀ file, state.lockedFile = some file → t.flock file = some c) :
    Current (t.setCall c state) where
  file d file hd := by
    rw [setCall_calls] at hd
    split at hd
    · exact hfile file hd
    · exact hentry file (h.file d file (hcalls ▸ hd))
  locked d file hd := by
    rw [setCall_calls] at hd
    split at hd
    case isTrue hcd => exact hcd ▸ hlocked file hd
    case isFalse hcd => exact hlock d file hcd (h.locked d file (hcalls ▸ hd))
  made := hmade
  path := hpath

/-- A call only moves on. -/
theorem current_setCall_self {state : CallState} (h : Current s)
    (hfile : ∀ file, state.file = some file → s.entry = some file)
    (hlocked : ∀ file, state.lockedFile = some file → s.flock file = some c) :
    Current (s.setCall c state) :=
  current_setCall h rfl (fun _ => id) (fun _ _ _ => id) h.made h.path hfile hlocked

/-- It gives up, or waits: it has no file in hand. -/
theorem current_setCall_of_none {state : CallState} (h : Current s) (hfile : state.file = none)
    (hlocked : state.lockedFile = none) : Current (s.setCall c state) :=
  current_setCall_self h (fun _ hsome => by rw [hfile] at hsome; cases hsome)
    (fun _ hsome => by rw [hlocked] at hsome; cases hsome)

theorem current_writeFile {file : Inode} {body : Option LockBody} (h : Current s) :
    Current (s.writeFile file body) := ⟨h.file, h.locked, h.made, h.path⟩

theorem current_openFile {state : Inode → CallState} (h : Current s)
    (hfile : ∀ file, (state file).file = some file)
    (hlocked : ∀ file, (state file).lockedFile = none) : Current (s.openFile c state) := by
  unfold openFile
  split
  case h_1 file hentry =>
    refine current_setCall_self h (fun g hg => ?_) (fun g hg => ?_)
    · rw [hfile] at hg
      rw [hentry, hg]
    · rw [hlocked] at hg
      cases hg
  case h_2 hentry =>
    refine current_setCall h rfl (fun g hg => ?_) (fun d g _ hd => ?_) (fun d g hd => ?_)
      (fun g hg => ?_) (fun g hg => ?_) (fun g hg => ?_)
    · -- there was no file for anybody to have in hand
      rw [hentry] at hg
      cases hg
    · rw [makeFile_flock, if_neg (h.made d g hd).ne, hd]
    · rw [makeFile_flock] at hd
      split at hd
      · cases hd
      · exact Nat.lt_succ_of_lt (h.made d g hd)
    · obtain rfl : s.nextInode = g := Option.some.inj hg
      exact Nat.lt_succ_self _
    · rw [hfile] at hg
      exact hg
    · rw [hlocked] at hg
      cases hg

theorem current_tryLock {file : Inode} {refused : CallState} (h : Current s)
    (hentry : s.entry = some file)
    (hrefused : ∀ g, refused.file = some g → g = file) (hlocked : refused.lockedFile = none) :
    Current (s.tryLock c file refused) := by
  unfold tryLock
  split
  case h_2 =>
    refine current_setCall_self h (fun g hg => ?_) (fun g hg => ?_)
    · rw [hrefused g hg, hentry]
    · rw [hlocked] at hg
      cases hg
  case h_1 hfree =>
    refine current_setCall h rfl (fun _ => id) (fun d g _ hd => ?_) (fun d g hd => ?_) h.path
      (fun g hg => ?_) (fun g hg => ?_)
    · have hne : g ≠ file := by
        rintro rfl
        rw [hfree] at hd
        cases hd
      rw [setLock_flock, if_neg hne, hd]
    · rw [setLock_flock] at hd
      split at hd
      case isTrue hg => exact hg ▸ h.path file hentry
      case isFalse => exact h.made d g hd
    · exact hentry.trans hg
    · obtain rfl := Option.some.inj hg
      rw [setLock_flock, if_pos rfl]

theorem current_close {file : Inode} {state : CallState} (h : Current s)
    (hc : (s.calls c).lockedFile = some file) (hfile : state.file = none)
    (hlocked : state.lockedFile = none) : Current (s.close c file state) := by
  refine current_setCall h rfl (fun _ => id) (fun d g hdc hd => ?_) (fun d g hd => ?_) h.path
    (fun g hg => ?_) (fun g hg => ?_)
  · have hne : g ≠ file := by
      rintro rfl
      exact hdc (Option.some.inj (hd.symm.trans (h.locked c g hc)))
    rw [setLock_flock, if_neg hne, hd]
  · rw [setLock_flock] at hd
    split at hd
    · cases hd
    · exact h.made d g hd
  · rw [hfile] at hg
    cases hg
  · rw [hlocked] at hg
    cases hg

/-- A file is removed while nobody has it in hand. -/
theorem current_remove (h : Current s)
    (habandoned : ∀ d, (s.calls d).file = none ∨ (s.calls d).file ≠ s.entry) :
    Current { s with entry := none } where
  file d file hd := by
    have hentry := h.file d file hd
    rcases habandoned d with hnone | hne
    · rw [hnone] at hd
      cases hd
    · exact absurd (hd.trans hentry.symm) hne
  locked := h.locked
  made := h.made
  path file hfile := by cases hfile

/-- A process that dies leaves its locks. -/
theorem current_die (q : Q) (h : Current s) : Current (s.step callers (.die q)) where
  file d file hd := by
    have hcalls : (s.step callers (.die q)).calls d =
        if callers.owner d = q then .done else s.calls d := rfl
    rw [hcalls] at hd
    split at hd
    · cases hd
    · exact h.file d file hd
  locked d file hd := by
    have hcalls : (s.step callers (.die q)).calls d =
        if callers.owner d = q then .done else s.calls d := rfl
    rw [hcalls] at hd
    split at hd
    · cases hd
    · rename_i howner
      exact Option.filter_eq_some_iff.mpr ⟨h.locked d file hd, decide_eq_true howner⟩
  made d file hd := h.made d file (Option.filter_eq_some_iff.mp hd).1
  path := h.path

theorem current_judge (existing : Option LockBody) (age : Time) (h : Current s) :
    Current (s.setCall c (s.judge callers c existing age)) := by
  unfold judge
  split <;> split <;> exact current_setCall_of_none h rfl rfl

/-- One step of a call. -/
theorem current_next (fails : Bool) (h : Current s)
    (habandoned : s.Abandoned (.next c fails : LockEvent Q C)) :
    Current (s.next callers c fails) := by
  unfold next
  cases hc : s.calls c with
  | opened file attempts =>
    have hentry := h.file c file (by rw [hc]; rfl)
    apply current_tryLock h hentry
    · intro g hg
      split at hg
      · cases hg
      · exact (Option.some.inj hg).symm
    · split <;> rfl
  | locked file =>
    have hlocked : (s.calls c).lockedFile = some file := by rw [hc]; rfl
    have hentry := h.file c file (by rw [hc]; rfl)
    dsimp only
    split
    · exact current_close h hlocked rfl rfl
    · apply current_setCall_self (current_writeFile h)
      · exact fun g hg => hentry.trans hg
      · exact fun g hg => Option.some.inj hg ▸ h.locked c file hlocked
  | truncated file =>
    have hlocked : (s.calls c).lockedFile = some file := by rw [hc]; rfl
    have hentry := h.file c file (by rw [hc]; rfl)
    dsimp only
    split
    · exact current_close h hlocked rfl rfl
    · apply current_setCall_self (current_writeFile h)
      · exact fun g hg => hentry.trans hg
      · exact fun g hg => Option.some.inj hg ▸ h.locked c file hlocked
  | stale => exact current_setCall_of_none (current_remove h (habandoned hc)) rfl rfl
  | removed => exact current_openFile h (fun _ => rfl) fun _ => rfl
  | reopened file =>
    have hentry := h.file c file (by rw [hc]; rfl)
    exact current_tryLock h hentry (fun g hg => by cases hg) rfl
  | aged existing age => exact current_judge existing age h
  | dropping file => exact current_close h (by rw [hc]; rfl) rfl rfl
  | contended => exact current_setCall_of_none h rfl rfl
  | bodyRead existing => exact current_setCall_of_none h rfl rfl
  | timed existing now => exact current_setCall_of_none h rfl rfl
  | idle => exact h
  | guard file => exact h
  | failed e => exact h
  | done => exact h

theorem current_step (s : LockWorld Q C) (e : LockEvent Q C) (h : Current s)
    (habandoned : s.Abandoned e) : Current (s.step callers e) := by
  cases e with
  | acquire c =>
    unfold step
    dsimp only
    split
    · exact current_openFile h (fun _ => rfl) fun _ => rfl
    · exact h
  | next c fails => exact current_next fails h habandoned
  | drop c fails =>
    unfold step
    dsimp only
    split
    case h_2 => exact h
    case h_1 file hc =>
      have hlock := h.locked c file (by rw [hc]; rfl)
      split
      · refine current_setCall_self h (fun g hg => by cases hg) fun g hg => ?_
        exact Option.some.inj hg ▸ hlock
      · refine current_setCall_self (current_writeFile h) (fun g hg => by cases hg) fun g hg => ?_
        exact Option.some.inj hg ▸ hlock
  | start q => exact ⟨h.file, h.locked, h.made, h.path⟩
  | die q => exact current_die q h
  | clock now => exact ⟨h.file, h.locked, h.made, h.path⟩

/-- Two guards have locked the same file. -/
theorem Current.guard_unique (h : Current s) {c d : C} (hc : s.Guards callers c)
    (hd : s.Guards callers d) : c = d := by
  obtain ⟨-, file, hfile⟩ := hc
  obtain ⟨-, file', hfile'⟩ := hd
  have hentry := h.file c file (by rw [hfile]; rfl)
  have hentry' := h.file d file' (by rw [hfile']; rfl)
  obtain rfl : file = file' := Option.some.inj (hentry.symm.trans hentry')
  have hlock := h.locked c file (by rw [hfile]; rfl)
  have hlock' := h.locked d file (by rw [hfile']; rfl)
  exact Option.some.inj (hlock.symm.trans hlock')

end LockWorld

open LockWorld

/-- As long as every file that is removed for stale is abandoned, there is one guard at most. -/
theorem at_most_one_guard {Q C : Type} [DecidableEq Q] [DecidableEq C] (callers : Callers Q C)
    (es : List (LockEvent Q C))
    (h : Throughout (LockWorld.step callers) Abandoned LockWorld.start es) :
    ∀ c d, (run (LockWorld.step callers) LockWorld.start es).Guards callers c →
      (run (LockWorld.step callers) LockWorld.start es).Guards callers d → c = d := by
  have hcurrent := run_invariant (fun s e => current_step s e) h current_start
  exact fun c d => hcurrent.guard_unique

/-! ### Two processes that do not see each other -/

/-- Each in a pid namespace of its own. -/
def foreigners : Callers Bool Bool where
  owner := id
  pid viewer q := if viewer = q then some (if q then 9 else 7) else none
  startedAt _ := []
  configPath _ := []

/-- One has the guard for five minutes; the other takes its lock for stale. -/
def takenForStale : List (LockEvent Bool Bool) :=
  [.start false, .start true, .acquire false] ++ List.replicate 3 (.next false false) ++
    .clock staleLockAge :: .acquire true :: List.replicate (acquireRetries + 4) (.next true false)

/-- It is dead by the time that its file is removed. -/
theorem at_most_one_guard_after_death :
    let s := run (LockWorld.step foreigners) LockWorld.start
      (takenForStale ++ .die false :: List.replicate 5 (.next true false))
    s.Guards foreigners true ∧
      ∀ c d, s.Guards foreigners c → s.Guards foreigners d → c = d := by
  refine ⟨⟨by decide, 1, by decide⟩, ?_⟩
  exact at_most_one_guard foreigners _ (by decide)

/-- It is alive, and both have a guard. -/
theorem foreign_holder_robbed :
    let s := run (LockWorld.step foreigners) LockWorld.start
      (takenForStale ++ List.replicate 5 (.next true false))
    s.Guards foreigners false ∧ s.Guards foreigners true := by
  exact ⟨⟨by decide, 0, by decide⟩, ⟨by decide, 1, by decide⟩⟩

end GhRunner.Config
