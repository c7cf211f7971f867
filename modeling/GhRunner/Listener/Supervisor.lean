import GhRunner.Lib.FiniteMap
import GhRunner.Lib.Machine

namespace GhRunner.Listener

open Machine

/-!
# The supervisor of every registration

`run --all` reconciles its registration loops with the registrations on disk
(`crates/toolu-runner/src/supervisor.rs`).

* `Disk`, `Scan` — what a rescan reads, in two looks at a disk that others write to;
* `Supervisor`, `rescan`, `startMissing`, `spawn` — the loops and what a rescan does to them;
* `SupervisorEvent`, `step` — the two halves of a rescan, and tasks that end at any time;
* `Held` — the invariant: a running task is in `loops` or `retired`, in the latter drained;
* `reconciled` — what it comes to in every run.

A task and the token that drains it have the number of the spawn that made them.
-/

abbrev TaskId := ℕ

/-- One registration's loop task and the token that drains it. -/
structure Supervised where
  drain : TaskId
  task : TaskId
deriving DecidableEq, Repr

/-- The registrations on disk. -/
structure Disk (P : Type) where
  listed : List P
  configExists : P → Bool
  pendingRemove : P → Bool
  /-- A registration is listed by its config. -/
  exists_of_listed : ∀ p ∈ listed, configExists p = true

/-- The removal is pending or the config is gone. -/
def Disk.departed {P : Type} (disk : Disk P) (p : P) : Bool :=
  !disk.configExists p || disk.pendingRemove p

/-- What a rescan reads from disk. -/
structure Scan (P : Type) where
  /-- Every registration, with whether its removal is pending. -/
  entries : List (P × Bool)
  departing : Finset P

/-- List the registrations, then check the live loops; the disk may have changed in between. -/
def Scan.read {P : Type} (listing looked : Disk P) (live : Finset P) : Scan P where
  entries := listing.listed.map fun p => (p, listing.pendingRemove p)
  departing := live.filter fun p => looked.departed p

inductive SupervisorPhase
  | serving
  /-- A rescan waits for the disk. -/
  | scanning
deriving DecidableEq, Repr

/-- The running registration loops, and the tasks and tokens of the process. -/
structure Supervisor (P : Type) where
  loops : Finmap fun _ : P => Supervised
  /-- Drained loops a successor replaced. -/
  retired : List TaskId
  phase : SupervisorPhase
  /-- The number of tasks spawned. -/
  next : TaskId
  /-- The registration each was spawned for. -/
  config : TaskId → Option P
  finished : TaskId → Bool
  /-- The tokens that were cancelled. -/
  drained : TaskId → Bool

inductive SupervisorEvent (P : Type)
  /-- A task ends. -/
  | ends (task : TaskId)
  /-- A rescan drops what has finished, and reads the disk. -/
  | rescan
  /-- The disk is read, in two looks; or the registry cannot be listed. -/
  | scanned (disks : Option (Disk P × Disk P))

namespace Supervisor

variable {P : Type}

/-- Spawned and not finished. -/
def Running (s : Supervisor P) (task : TaskId) : Prop := task < s.next ∧ s.finished task = false

/-- Tasks spawned before are neither drained nor ended. -/
structure Grows (s t : Supervisor P) : Prop where
  next : s.next ≤ t.next
  drained : ∀ task < s.next, t.drained task = s.drained task
  finished : ∀ task < s.next, t.finished task = s.finished task

theorem grows_refl (s : Supervisor P) : Grows s s := ⟨le_rfl, fun _ _ => rfl, fun _ _ => rfl⟩

theorem Grows.trans {s t u : Supervisor P} (h : Grows s t) (h' : Grows t u) : Grows s u where
  next := h.next.trans h'.next
  drained task hlt := (h'.drained task (hlt.trans_le h.next)).trans (h.drained task hlt)
  finished task hlt := (h'.finished task (hlt.trans_le h.next)).trans (h.finished task hlt)

variable [DecidableEq P]

def start : Supervisor P where
  loops := ∅
  retired := []
  phase := .serving
  next := 0
  config := fun _ => none
  finished := fun _ => false
  drained := fun _ => false

/-- Start the loop task of a registration. -/
def spawn (s : Supervisor P) (p : P) : Supervisor P :=
  { s with
    loops := s.loops.insert p ⟨s.next, s.next⟩
    next := s.next + 1
    config := Function.update s.config s.next (some p)
    finished := Function.update s.finished s.next false
    drained := Function.update s.drained s.next false }

/-- The loop that is being drained leaves its place. -/
def retire (s : Supervisor P) (p : P) (live : Supervised) : Supervisor P :=
  { s with loops := s.loops.erase p, retired := s.retired ++ [live.task] }

/-- One registration of the list: a loop that is not being drained is kept; one that is gets a
    successor. -/
def startEntry (s : Supervisor P) (entry : P × Bool) : Supervisor P :=
  if entry.2 then s
  else
    match s.loops.lookup entry.1 with
    | some live =>
      if s.drained live.drain = false then s
      else (s.retire entry.1 live).spawn entry.1
    | none => s.spawn entry.1

/-- Start a loop for every registration without one, unless its removal is pending. -/
def startMissing (s : Supervisor P) (entries : List (P × Bool)) : Supervisor P :=
  entries.foldl startEntry s

/-- Cancel the tokens of the departing loops. -/
def drainAll (s : Supervisor P) (departing : Finset P) : Supervisor P :=
  { s with drained := fun token => s.drained token ||
      decide (∃ p ∈ departing, (s.loops.lookup p).any fun live => live.drain = token) }

/-- Drop what has finished. -/
def retainRunning (s : Supervisor P) : Supervisor P :=
  { s with
    loops := s.loops.retain fun _ live => !s.finished live.task
    retired := s.retired.filter fun task => !s.finished task }

def step (s : Supervisor P) : SupervisorEvent P → Supervisor P
  | .ends task =>
    if task < s.next then { s with finished := Function.update s.finished task true } else s
  | .rescan =>
    match s.phase with
    | .serving => { s.retainRunning with phase := .scanning }
    | .scanning => s
  | .scanned disks =>
    match s.phase, disks with
    | .serving, _ => s
    | .scanning, none => { s with phase := .serving }
    | .scanning, some (listing, looked) =>
      let scan := Scan.read listing looked s.loops.keys
      { (s.drainAll scan.departing).startMissing scan.entries with phase := .serving }

/-- The tasks that a shutdown waits for. -/
def awaited (s : Supervisor P) : Finset TaskId :=
  (s.loops.keys.biUnion fun p => ((s.loops.lookup p).map Supervised.task).toFinset) ∪
    s.retired.toFinset

/-- A whole rescan, with the tasks that end while the disk is read. -/
def rescanWith (s : Supervisor P) (ending : List TaskId) (disks : Option (Disk P × Disk P)) :
    Supervisor P :=
  run step s (.rescan :: ending.map .ends ++ [.scanned disks])

/-! ### Who holds a task -/

/-- Every running task is held, and what is retired is drained. -/
structure Held (s : Supervisor P) : Prop where
  own : ∀ p live, s.loops.lookup p = some live →
    live.drain = live.task ∧ live.task < s.next ∧ s.config live.task = some p
  kept : ∀ task, s.Running task →
    (∃ p live, s.loops.lookup p = some live ∧ live.task = task) ∨ task ∈ s.retired
  out : ∀ task ∈ s.retired, task < s.next ∧ s.drained task = true
  bounded : ∀ task, s.finished task = true → task < s.next

variable {s t : Supervisor P} {p : P}

theorem held_start : Held (start : Supervisor P) where
  own p live h := by simp [start] at h
  kept task h := absurd h.1 (Nat.not_lt_zero task)
  out task h := by cases h
  bounded task h := by cases h

theorem held_ends (task : TaskId) (h : Held s) : Held (step s (.ends task)) := by
  show Held (if task < s.next then _ else s)
  split
  case isFalse => exact h
  case isTrue hlt =>
    refine ⟨h.own, fun other hother => ?_, h.out, fun other hother => ?_⟩
    · -- a task that runs still was running before
      have hne : other ≠ task := by
        rintro rfl
        exact Bool.false_ne_true (hother.2.symm.trans (Function.update_self _ _ _))
      refine h.kept other ⟨hother.1, ?_⟩
      exact (Function.update_of_ne hne _ _).symm.trans hother.2
    · by_cases hother' : other = task
      · rw [hother']
        exact hlt
      · exact h.bounded other ((Function.update_of_ne hother' _ _).symm.trans hother)

theorem lookup_retainRunning (s : Supervisor P) (p : P) :
    s.retainRunning.loops.lookup p =
      (s.loops.lookup p).filter fun live => !s.finished live.task :=
  Finmap.lookup_retain _ _ p

theorem held_retainRunning (h : Held s) : Held s.retainRunning where
  own p live hlive := by
    rw [lookup_retainRunning] at hlive
    exact h.own p live (Option.filter_eq_some_iff.mp hlive).1
  kept task htask := by
    have hrunning : (!s.finished task) = true := (Bool.not_eq_true' _).mpr htask.2
    rcases h.kept task htask with ⟨p, live, hlive, rfl⟩ | hretired
    · refine .inl ⟨p, live, ?_, rfl⟩
      rw [lookup_retainRunning]
      exact Option.filter_eq_some_iff.mpr ⟨hlive, hrunning⟩
    · exact .inr (List.mem_filter.mpr ⟨hretired, hrunning⟩)
  out task htask := h.out task (List.mem_filter.mp htask).1
  bounded := h.bounded

theorem held_drainAll (departing : Finset P) (h : Held s) : Held (s.drainAll departing) where
  own := h.own
  kept := h.kept
  out task htask := ⟨(h.out task htask).1, Bool.or_eq_true_iff.mpr (.inl (h.out task htask).2)⟩
  bounded := h.bounded

theorem lookup_spawn (s : Supervisor P) (p q : P) :
    (s.spawn p).loops.lookup q = if q = p then some ⟨s.next, s.next⟩ else s.loops.lookup q := by
  split
  case isTrue hq =>
    rw [hq]
    exact Finmap.lookup_insert _
  case isFalse hq => exact Finmap.lookup_insert_of_ne _ hq

theorem drained_spawn_of_lt {task : TaskId} (h : task < s.next) (p : P) :
    (s.spawn p).drained task = s.drained task := Function.update_of_ne h.ne _ _

theorem finished_spawn_of_lt {task : TaskId} (h : task < s.next) (p : P) :
    (s.spawn p).finished task = s.finished task := Function.update_of_ne h.ne _ _

theorem config_spawn_of_lt {task : TaskId} (h : task < s.next) (p : P) :
    (s.spawn p).config task = s.config task := Function.update_of_ne h.ne _ _

theorem held_spawn (h : Held s) (hp : s.loops.lookup p = none) : Held (s.spawn p) where
  own q live hlive := by
    rw [lookup_spawn] at hlive
    split at hlive
    case isTrue hq =>
      obtain rfl := Option.some.inj hlive
      exact ⟨rfl, Nat.lt_succ_self _, hq ▸ Function.update_self _ _ _⟩
    case isFalse =>
      obtain ⟨hdrain, hlt, hconfig⟩ := h.own q live hlive
      exact ⟨hdrain, Nat.lt_succ_of_lt hlt, (config_spawn_of_lt hlt p).trans hconfig⟩
  kept task htask := by
    rcases Nat.lt_succ_iff_lt_or_eq.mp htask.1 with hlt | rfl
    · have hrunning : s.Running task :=
        ⟨hlt, (finished_spawn_of_lt hlt p).symm.trans htask.2⟩
      refine (h.kept task hrunning).imp_left fun ⟨q, live, hlive, heq⟩ => ⟨q, live, ?_, heq⟩
      have hq : q ≠ p := by
        rintro rfl
        rw [hp] at hlive
        cases hlive
      rw [lookup_spawn, if_neg hq, hlive]
    · exact .inl ⟨p, ⟨s.next, s.next⟩, by rw [lookup_spawn, if_pos rfl], rfl⟩
  out task htask := by
    obtain ⟨hlt, hdrained⟩ := h.out task htask
    exact ⟨Nat.lt_succ_of_lt hlt, (drained_spawn_of_lt hlt p).trans hdrained⟩
  bounded task htask := by
    by_cases heq : task = s.next
    · rw [heq]
      exact Nat.lt_succ_self _
    · exact Nat.lt_succ_of_lt (h.bounded task ((Function.update_of_ne heq _ _).symm.trans htask))

theorem lookup_retire (s : Supervisor P) (p : P) (live : Supervised) (q : P) :
    (s.retire p live).loops.lookup q = if q = p then none else s.loops.lookup q := by
  split
  case isTrue hq =>
    rw [hq]
    exact Finmap.lookup_erase _ _
  case isFalse hq => exact Finmap.lookup_erase_ne hq

theorem held_retire {live : Supervised} (h : Held s) (hlive : s.loops.lookup p = some live)
    (hdrained : s.drained live.drain = true) : Held (s.retire p live) where
  own q other hother := by
    rw [lookup_retire] at hother
    split at hother
    · cases hother
    · exact h.own q other hother
  kept task htask := by
    rcases h.kept task htask with ⟨q, other, hother, rfl⟩ | hretired
    · by_cases hq : q = p
      · subst hq
        obtain rfl := Option.some.inj (hlive.symm.trans hother)
        exact .inr (List.mem_append_right _ (List.mem_singleton_self _))
      · refine .inl ⟨q, other, ?_, rfl⟩
        rw [lookup_retire, if_neg hq, hother]
    · exact .inr (List.mem_append_left _ hretired)
  out task htask := by
    rcases List.mem_append.mp htask with hretired | hlast
    · exact h.out task hretired
    · obtain ⟨hdrain, hlt, -⟩ := h.own p live hlive
      rw [List.mem_singleton.mp hlast]
      exact ⟨hlt, hdrain ▸ hdrained⟩
  bounded := h.bounded

/-! ### One registration of the list -/

/-- What becomes of one registration. -/
theorem startEntry_cases (s : Supervisor P) (entry : P × Bool) :
    (entry.2 = true ∧ s.startEntry entry = s) ∨
    (∃ live, s.loops.lookup entry.1 = some live ∧ s.drained live.drain = false ∧
      s.startEntry entry = s) ∨
    (entry.2 = false ∧ ∃ live, s.loops.lookup entry.1 = some live ∧ s.drained live.drain = true ∧
      s.startEntry entry = (s.retire entry.1 live).spawn entry.1) ∨
    (entry.2 = false ∧ s.loops.lookup entry.1 = none ∧ s.startEntry entry = s.spawn entry.1) := by
  unfold startEntry
  by_cases hpending : entry.2 = true
  · exact .inl ⟨hpending, if_pos hpending⟩
  · rw [if_neg hpending]
    rw [Bool.not_eq_true] at hpending
    cases hlive : s.loops.lookup entry.1 with
    | none => exact .inr (.inr (.inr ⟨hpending, rfl, rfl⟩))
    | some live =>
      by_cases hdrained : s.drained live.drain = false
      · exact .inr (.inl ⟨live, rfl, hdrained, if_pos hdrained⟩)
      · refine .inr (.inr (.inl ⟨hpending, live, rfl, ?_, if_neg hdrained⟩))
        exact Bool.not_eq_false _ ▸ hdrained

theorem held_startEntry (entry : P × Bool) (h : Held s) : Held (s.startEntry entry) := by
  rcases startEntry_cases s entry with ⟨-, heq⟩ | ⟨live, -, -, heq⟩ |
    ⟨-, live, hlive, hdrained, heq⟩ | ⟨-, hnone, heq⟩ <;> rw [heq]
  · exact h
  · exact h
  · exact held_spawn (held_retire h hlive hdrained) (by rw [lookup_retire, if_pos rfl])
  · exact held_spawn h hnone

theorem grows_spawn (s : Supervisor P) (p : P) : Grows s (s.spawn p) where
  next := Nat.le_succ _
  drained _ hlt := drained_spawn_of_lt hlt p
  finished _ hlt := finished_spawn_of_lt hlt p

theorem grows_startEntry (s : Supervisor P) (entry : P × Bool) : Grows s (s.startEntry entry) := by
  rcases startEntry_cases s entry with ⟨-, heq⟩ | ⟨live, -, -, heq⟩ | ⟨-, live, -, -, heq⟩ |
    ⟨-, -, heq⟩ <;> rw [heq]
  · exact grows_refl s
  · exact grows_refl s
  · have hspawn := grows_spawn (s.retire entry.1 live) entry.1
    exact ⟨hspawn.next, hspawn.drained, hspawn.finished⟩
  · exact grows_spawn s entry.1

/-- The registration has a loop that is not being drained. -/
def Served (s : Supervisor P) (p : P) : Prop :=
  ∃ live, s.loops.lookup p = some live ∧ s.drained live.drain = false

theorem served_startEntry {entry : P × Bool} (hpending : entry.2 = false) :
    Served (s.startEntry entry) entry.1 := by
  rcases startEntry_cases s entry with ⟨htrue, -⟩ | ⟨live, hlive, hdrained, heq⟩ |
    ⟨-, live, hlive, -, heq⟩ | ⟨-, hnone, heq⟩
  · rw [hpending] at htrue
    cases htrue
  · rw [heq]
    exact ⟨live, hlive, hdrained⟩
  · rw [heq]
    exact ⟨⟨s.next, s.next⟩, by rw [lookup_spawn, if_pos rfl]; rfl, Function.update_self _ _ _⟩
  · rw [heq]
    exact ⟨⟨s.next, s.next⟩, by rw [lookup_spawn, if_pos rfl], Function.update_self _ _ _⟩

/-- Only a loop that is being drained has to give way. -/
theorem Served.startEntry (hserved : Served s p) (h : Held s) (entry : P × Bool) :
    Served (s.startEntry entry) p := by
  obtain ⟨live, hlive, hdrained⟩ := hserved
  obtain ⟨hdrain, hlt, -⟩ := h.own p live hlive
  have hkeeps := (grows_startEntry s entry).drained live.drain (hdrain ▸ hlt)
  refine ⟨live, ?_, hkeeps.trans hdrained⟩
  rcases startEntry_cases s entry with ⟨-, heq⟩ | ⟨other, -, -, heq⟩ |
    ⟨-, other, hother, hgone, heq⟩ | ⟨-, hnone, heq⟩
  · rw [heq, hlive]
  · rw [heq, hlive]
  · have hne : p ≠ entry.1 := by
      rintro rfl
      obtain rfl := Option.some.inj (hlive.symm.trans hother)
      rw [hdrained] at hgone
      cases hgone
    rw [heq, lookup_spawn, if_neg hne, lookup_retire, if_neg hne, hlive]
  · have hne : p ≠ entry.1 := by
      rintro rfl
      rw [hlive] at hnone
      cases hnone
    rw [heq, lookup_spawn, if_neg hne, hlive]

theorem lookup_startEntry_of_ne {entry : P × Bool} (h : entry.2 = false → entry.1 ≠ p) :
    (s.startEntry entry).loops.lookup p = s.loops.lookup p := by
  rcases startEntry_cases s entry with ⟨-, heq⟩ | ⟨-, -, -, heq⟩ | ⟨hpending, live, -, -, heq⟩ |
    ⟨hpending, -, heq⟩
  · rw [heq]
  · rw [heq]
  · have hne := (h hpending).symm
    rw [heq, lookup_spawn, if_neg hne, lookup_retire, if_neg hne]
  · rw [heq, lookup_spawn, if_neg (h hpending).symm]

/-- No loop is of a task that had finished in `past`. -/
structure Unfinished (past s : Supervisor P) : Prop where
  spawned : ∀ task, past.finished task = true → task < s.next
  loops : ∀ p live, s.loops.lookup p = some live → past.finished live.task = false

theorem unfinished_spawn {past : Supervisor P} (h : Unfinished past s) (p : P) :
    Unfinished past (s.spawn p) where
  spawned task htask := Nat.lt_succ_of_lt (h.spawned task htask)
  loops q live hlive := by
    rw [lookup_spawn] at hlive
    split at hlive
    case isTrue =>
      obtain rfl := Option.some.inj hlive
      by_contra hfinished
      exact Nat.lt_irrefl _ (h.spawned _ (Bool.not_eq_false _ ▸ hfinished))
    case isFalse => exact h.loops q live hlive

theorem unfinished_retire {past : Supervisor P} (h : Unfinished past s) (p : P)
    (live : Supervised) : Unfinished past (s.retire p live) where
  spawned := h.spawned
  loops q other hother := by
    rw [lookup_retire] at hother
    split at hother
    · cases hother
    · exact h.loops q other hother

theorem unfinished_startEntry {past : Supervisor P} (h : Unfinished past s) (entry : P × Bool) :
    Unfinished past (s.startEntry entry) := by
  rcases startEntry_cases s entry with ⟨-, heq⟩ | ⟨-, -, -, heq⟩ | ⟨-, live, -, -, heq⟩ |
    ⟨-, -, heq⟩ <;> rw [heq]
  · exact h
  · exact h
  · exact unfinished_spawn (unfinished_retire h _ _) _
  · exact unfinished_spawn h _

/-! ### The whole list -/

theorem startMissing_cons (s : Supervisor P) (entry : P × Bool) (entries : List (P × Bool)) :
    s.startMissing (entry :: entries) = (s.startEntry entry).startMissing entries := rfl

theorem held_startMissing (entries : List (P × Bool)) (h : Held s) :
    Held (s.startMissing entries) := by
  induction entries generalizing s with
  | nil => exact h
  | cons entry entries ih => exact ih (held_startEntry entry h)

theorem grows_startMissing (s : Supervisor P) (entries : List (P × Bool)) :
    Grows s (s.startMissing entries) := by
  induction entries generalizing s with
  | nil => exact grows_refl s
  | cons entry entries ih => exact (grows_startEntry s entry).trans (ih _)

theorem unfinished_startMissing {past : Supervisor P} (h : Unfinished past s)
    (entries : List (P × Bool)) : Unfinished past (s.startMissing entries) := by
  induction entries generalizing s with
  | nil => exact h
  | cons entry entries ih => exact ih (unfinished_startEntry h entry)

theorem Served.startMissing (hserved : Served s p) (h : Held s) (entries : List (P × Bool)) :
    Served (s.startMissing entries) p := by
  induction entries generalizing s with
  | nil => exact hserved
  | cons entry entries ih => exact ih (hserved.startEntry h entry) (held_startEntry entry h)

theorem served_startMissing (h : Held s) {entries : List (P × Bool)} {entry : P × Bool}
    (hentry : entry ∈ entries) (hpending : entry.2 = false) :
    Served (s.startMissing entries) entry.1 := by
  induction entries generalizing s with
  | nil => cases hentry
  | cons first entries ih =>
    rcases List.mem_cons.mp hentry with rfl | hentry
    · exact (served_startEntry hpending).startMissing (held_startEntry entry h) entries
    · exact ih (held_startEntry first h) hentry

theorem lookup_startMissing_of_ne {entries : List (P × Bool)}
    (h : ∀ entry ∈ entries, entry.2 = false → entry.1 ≠ p) :
    (s.startMissing entries).loops.lookup p = s.loops.lookup p := by
  induction entries generalizing s with
  | nil => rfl
  | cons entry entries ih =>
    rw [startMissing_cons, ih fun e he => h e (List.mem_cons_of_mem _ he)]
    exact lookup_startEntry_of_ne (h entry List.mem_cons_self)

/-! ### Every run -/

theorem held_phase {phase : SupervisorPhase} (h : Held s) : Held { s with phase := phase } :=
  ⟨h.own, h.kept, h.out, h.bounded⟩

theorem held_step (s : Supervisor P) (e : SupervisorEvent P) (h : Held s) : Held (step s e) := by
  cases e with
  | ends task => exact held_ends task h
  | rescan =>
    unfold step
    dsimp only
    split
    · exact held_phase (held_retainRunning h)
    · exact h
  | scanned disks =>
    unfold step
    dsimp only
    split
    · exact h
    · exact held_phase h
    · exact held_phase (held_startMissing _ (held_drainAll _ h))

theorem held_run (es : List (SupervisorEvent P)) : Held (run step start es) :=
  run_invariant_of_step held_step es held_start

theorem mem_awaited {task : TaskId} :
    task ∈ s.awaited ↔
      (∃ p live, s.loops.lookup p = some live ∧ live.task = task) ∨ task ∈ s.retired := by
  rw [awaited, Finset.mem_union, List.mem_toFinset, Finset.mem_biUnion]
  refine or_congr_left ?_
  constructor
  · rintro ⟨p, -, hp⟩
    obtain ⟨live, hlive, rfl⟩ := Option.map_eq_some_iff.mp (Option.mem_toFinset.mp hp)
    exact ⟨p, live, hlive, rfl⟩
  · rintro ⟨p, live, hlive, rfl⟩
    refine ⟨p, ?_, Option.mem_toFinset.mpr (Option.map_eq_some_iff.mpr ⟨live, hlive, rfl⟩)⟩
    exact Finmap.mem_keys.mpr (Finmap.mem_of_lookup_eq_some hlive)

/-- A registration has one running task at most that is not being drained. -/
theorem Held.unique (h : Held s) {task other : TaskId} (htask : s.Running task)
    (hother : s.Running other) (hdrained : s.drained task = false)
    (hdrained' : s.drained other = false) (hconfig : s.config task = s.config other) :
    task = other := by
  -- neither is retired, so both are the loop of the registration
  have inLoops : ∀ task, s.Running task → s.drained task = false →
      ∃ p live, s.loops.lookup p = some live ∧ live.task = task ∧ s.config task = some p := by
    intro task htask hdrained
    rcases h.kept task htask with ⟨p, live, hlive, rfl⟩ | hretired
    · exact ⟨p, live, hlive, rfl, (h.own p live hlive).2.2⟩
    · rw [(h.out task hretired).2] at hdrained
      cases hdrained
  obtain ⟨p, live, hlive, rfl, hp⟩ := inLoops task htask hdrained
  obtain ⟨q, live', hlive', rfl, hq⟩ := inLoops other hother hdrained'
  obtain rfl : p = q := Option.some.inj (hp.symm.trans (hconfig.trans hq))
  rw [Option.some.inj (hlive.symm.trans hlive')]

/-! ### A whole rescan -/

theorem run_ends (s : Supervisor P) (ending : List TaskId) :
    ∃ finished, run step s (ending.map .ends) = { s with finished := finished } := by
  induction ending generalizing s with
  | nil => exact ⟨s.finished, rfl⟩
  | cons task ending ih =>
    have hstep : ∃ finished, step s (.ends task) = { s with finished := finished } := by
      show ∃ finished, (if task < s.next then _ else s) = { s with finished := finished }
      split
      · exact ⟨_, rfl⟩
      · exact ⟨s.finished, rfl⟩
    obtain ⟨finished, hfinished⟩ := hstep
    obtain ⟨finished', hrest⟩ := ih (step s (.ends task))
    refine ⟨finished', ?_⟩
    rw [List.map_cons, run_cons, hrest, hfinished]

/-- When the disk is read, the loops are the ones that ran when the rescan began. -/
theorem run_rescan (hphase : s.phase = .serving) (ending : List TaskId) :
    ∃ finished, run step s (.rescan :: ending.map .ends) =
      { s.retainRunning with phase := .scanning, finished := finished } := by
  have hstep : step s .rescan = { s.retainRunning with phase := .scanning } := by
    unfold step
    rw [hphase]
  rw [run_cons, hstep]
  exact run_ends _ ending

theorem rescanWith_eq (s : Supervisor P) (ending : List TaskId)
    (disks : Option (Disk P × Disk P)) :
    s.rescanWith ending disks =
      step (run step s (.rescan :: ending.map .ends)) (.scanned disks) := by
  rw [rescanWith, run_append]
  rfl

/-- What a rescan that cannot list the registrations leaves. -/
theorem rescanWith_none (hphase : s.phase = .serving) (ending : List TaskId) :
    ∃ finished, s.rescanWith ending none = { s.retainRunning with finished := finished } := by
  obtain ⟨finished, hrun⟩ := run_rescan hphase ending
  refine ⟨finished, ?_⟩
  rw [rescanWith_eq, hrun]
  show { s.retainRunning with phase := .serving, finished := finished } = _
  rw [← hphase]
  rfl

/-- A rescan that read the registry, from the loops that ran when it began. -/
theorem rescanWith_some (h : Held s) (hphase : s.phase = .serving) (ending : List TaskId)
    (listing looked : Disk P) :
    ∃ t : Supervisor P, Held t ∧ Unfinished s t ∧ t.next = s.next ∧ t.drained = s.drained ∧
      t.retired = s.retainRunning.retired ∧ t.loops = s.retainRunning.loops ∧
      s.rescanWith ending (some (listing, looked)) =
        { (t.drainAll (Scan.read listing looked t.loops.keys).departing).startMissing
            (Scan.read listing looked t.loops.keys).entries with phase := .serving } := by
  obtain ⟨finished, hrun⟩ := run_rescan hphase ending
  have hheld : Held (run step s (.rescan :: ending.map .ends)) :=
    run_invariant_of_step held_step _ h
  rw [hrun] at hheld
  refine ⟨_, hheld, ⟨h.bounded, fun p live hlive => ?_⟩, rfl, rfl, rfl, rfl, ?_⟩
  · have hfilter := (lookup_retainRunning s p).symm.trans hlive
    exact (Bool.not_eq_true' _).mp (Option.filter_eq_some_iff.mp hfilter).2
  · rw [rescanWith_eq, hrun]
    rfl

theorem drained_drainAll {departing : Finset P} {live : Supervised} (hp : p ∈ departing)
    (hlive : s.loops.lookup p = some live) : (s.drainAll departing).drained live.drain = true :=
  Bool.or_eq_true_iff.mpr (.inr (decide_eq_true ⟨p, hp, by rw [hlive]; exact decide_eq_true rfl⟩))

theorem mem_departing {listing looked : Disk P} {live : Supervised}
    (hlive : s.loops.lookup p = some live) (hdeparted : looked.departed p = true) :
    p ∈ (Scan.read listing looked s.loops.keys).departing :=
  Finset.mem_filter.mpr ⟨Finmap.mem_keys.mpr (Finmap.mem_of_lookup_eq_some hlive), hdeparted⟩

/-- Every task of a departed registration that ran when the rescan began is drained. -/
theorem drained_of_departed (h : Held s) (hphase : s.phase = .serving) (ending : List TaskId)
    {listing looked : Disk P} {task : TaskId} (htask : s.Running task)
    (hconfig : s.config task = some p) (hdeparted : looked.departed p = true) :
    (s.rescanWith ending (some (listing, looked))).drained task = true := by
  obtain ⟨t, -, -, hnext, hdrained, -, hloops, heq⟩ :=
    rescanWith_some h hphase ending listing looked
  rw [heq]
  have hkeeps := (grows_startMissing (t.drainAll (Scan.read listing looked t.loops.keys).departing)
    (Scan.read listing looked t.loops.keys).entries).drained task (htask.1.trans_eq hnext.symm)
  refine hkeeps.trans ?_
  rcases h.kept task htask with ⟨q, live, hlive, rfl⟩ | hretired
  · obtain ⟨hdrain, -, hq⟩ := h.own q live hlive
    obtain rfl : q = p := Option.some.inj (hq.symm.trans hconfig)
    have hkept : t.loops.lookup q = some live := by
      rw [hloops, lookup_retainRunning]
      exact Option.filter_eq_some_iff.mpr ⟨hlive, (Bool.not_eq_true' _).mpr htask.2⟩
    rw [← hdrain]
    exact drained_drainAll (mem_departing hkept hdeparted) hkept
  · refine Bool.or_eq_true_iff.mpr (.inl ?_)
    rw [hdrained]
    exact (h.out task hretired).2

/-- Every registration that is listed without a pending removal has a loop that is not being
    drained and that had not ended when the rescan began. -/
theorem served_of_listed (h : Held s) (hphase : s.phase = .serving) (ending : List TaskId)
    {listing looked : Disk P} (hlisted : p ∈ listing.listed)
    (hpending : listing.pendingRemove p = false) :
    ∃ live, (s.rescanWith ending (some (listing, looked))).loops.lookup p = some live ∧
      (s.rescanWith ending (some (listing, looked))).drained live.drain = false ∧
      s.finished live.task = false := by
  obtain ⟨t, ht, hunfinished, -, -, -, -, heq⟩ := rescanWith_some h hphase ending listing looked
  rw [heq]
  have hentry : (p, false) ∈ (Scan.read listing looked t.loops.keys).entries :=
    List.mem_map.mpr ⟨p, hlisted, by rw [hpending]⟩
  have hserved : Served (startMissing (t.drainAll _) _) p :=
    served_startMissing (held_drainAll (Scan.read listing looked t.loops.keys).departing ht) hentry
      rfl
  obtain ⟨live, hlive, hdrained⟩ := hserved
  have hdrainAll : Unfinished s (t.drainAll (Scan.read listing looked t.loops.keys).departing) :=
    ⟨hunfinished.spawned, hunfinished.loops⟩
  exact ⟨live, hlive, hdrained, (unfinished_startMissing hdrainAll _).loops p live hlive⟩

/-- If the disk has not changed between the looks, every loop of a departed registration is being
    drained. -/
theorem drained_of_loops (h : Held s) (hphase : s.phase = .serving) (ending : List TaskId)
    {disk : Disk P} {live : Supervised}
    (hlive : (s.rescanWith ending (some (disk, disk))).loops.lookup p = some live)
    (hdeparted : disk.departed p = true) :
    (s.rescanWith ending (some (disk, disk))).drained live.drain = true := by
  obtain ⟨t, ht, -, -, -, -, -, heq⟩ := rescanWith_some h hphase ending disk disk
  rw [heq] at hlive ⊢
  -- a departed registration is not listed, or its removal is pending
  have huntouched : ∀ entry ∈ (Scan.read disk disk t.loops.keys).entries,
      entry.2 = false → entry.1 ≠ p := by
    intro entry hentry hpending
    obtain ⟨q, hq, rfl⟩ := List.mem_map.mp hentry
    rintro rfl
    rw [Disk.departed, disk.exists_of_listed q hq, show disk.pendingRemove q = false from hpending]
      at hdeparted
    cases hdeparted
  have hold : t.loops.lookup p = some live :=
    (lookup_startMissing_of_ne (s := t.drainAll (Scan.read disk disk t.loops.keys).departing)
      huntouched).symm.trans hlive
  obtain ⟨hdrain, hlt, -⟩ := ht.own p live hold
  have hkeeps := (grows_startMissing (t.drainAll (Scan.read disk disk t.loops.keys).departing)
    (Scan.read disk disk t.loops.keys).entries).drained live.drain (hdrain ▸ hlt)
  exact hkeeps.trans (drained_drainAll (mem_departing hold hdeparted) hold)

/-- A rescan that cannot list the registrations touches no running task. -/
theorem unreadable_keeps (hphase : s.phase = .serving) (ending : List TaskId) :
    (s.rescanWith ending none).drained = s.drained ∧
      (s.rescanWith ending none).next = s.next ∧
      (∀ p, (s.rescanWith ending none).loops.lookup p =
        (s.loops.lookup p).filter fun live => !s.finished live.task) ∧
      (s.rescanWith ending none).retired = s.retired.filter fun task => !s.finished task := by
  obtain ⟨finished, heq⟩ := rescanWith_none hphase ending
  rw [heq]
  exact ⟨rfl, rfl, lookup_retainRunning s, rfl⟩

end Supervisor

open Supervisor

/-- In every state of every run: a registration has one running task at most that is not being
    drained; a shutdown waits for every running task; a rescan that read the registry has drained
    every task of a departed registration and left every other one that is listed with a loop; and
    one that could not read it has only dropped what had finished. -/
theorem reconciled {P : Type} [DecidableEq P] (es : List (SupervisorEvent P)) :
    let s : Supervisor P := run step start es
    (∀ task other, s.Running task → s.Running other → s.drained task = false →
      s.drained other = false → s.config task = s.config other → task = other) ∧
    (∀ task, s.Running task → task ∈ s.awaited) ∧
    (s.phase = .serving → ∀ ending listing looked,
      let t := s.rescanWith ending (some (listing, looked))
      (∀ task p, s.Running task → s.config task = some p → looked.departed p = true →
        t.drained task = true) ∧
      (∀ p ∈ listing.listed, listing.pendingRemove p = false →
        ∃ live, t.loops.lookup p = some live ∧ t.drained live.drain = false ∧
          s.finished live.task = false) ∧
      (listing = looked → ∀ p live, t.loops.lookup p = some live → looked.departed p = true →
        t.drained live.drain = true)) ∧
    (s.phase = .serving → ∀ ending,
      let t := s.rescanWith ending none
      t.drained = s.drained ∧ t.next = s.next ∧
        (∀ p, t.loops.lookup p = (s.loops.lookup p).filter fun live => !s.finished live.task) ∧
        t.retired = s.retired.filter fun task => !s.finished task) := by
  intro s
  have h : Held s := held_run es
  refine ⟨fun task other => h.unique, fun task htask => mem_awaited.mpr (h.kept task htask), ?_,
    fun hphase ending => unreadable_keeps hphase ending⟩
  intro hphase ending listing looked
  refine ⟨fun task p => drained_of_departed h hphase ending,
    fun p => served_of_listed h hphase ending, ?_⟩
  rintro rfl p live
  exact drained_of_loops h hphase ending

end GhRunner.Listener
