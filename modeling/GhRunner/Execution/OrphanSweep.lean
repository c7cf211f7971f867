import GhRunner.Lib.Saturating
import GhRunner.Lib.Utf8

namespace GhRunner.Execution.OrphanSweep

open Text Utf8 Saturating

/-!
# Sweeping up a job's orphans

`crates/execution/src/execution/orphan_cleanup.rs`, over a table of processes that is another one at each look.

* `Process`, `System` — what is known of a process, and of all that have been looked at;
* `Host` — the table, the process groups, the clock and the signals, at each look;
* `scanCandidates`, `killVerified`, `sweepBlocking` — as the source has them;
* `Kept` — the invariant of the passes: what becomes of the candidates that were attempted;
* `sweep_accounts` — what is signalled, what is left, and what the report says of it;
* `sweepBlocking_isSome` — the sweep returns once its deadline has passed;
* `unreadable_not_signalled` — a process whose environment cannot be read once is left alone for good.
-/

/-! ### Processes -/

abbrev Pid := UInt32

structure Process where
  startTime : BitVec 64
  environ : List (List UInt8)
  user : Option ℕ
  isThread : Bool
  isZombie : Bool
  name : Str

/-- Processes by their pids, in the order in which a hash map has them. -/
structure System where
  processes : List (Pid × Process)
  nodup : (processes.map Prod.fst).Nodup

namespace System

def process (system : System) (pid : Pid) : Option Process :=
  (system.processes.find? fun entry => entry.1 = pid).map Prod.snd

/-- What is seen of a process; its user is read once, if at all. -/
def refreshed (system : System) (withUser : Bool) (entry : Pid × Process) : Pid × Process :=
  let known := (system.process entry.1).filter fun process => process.startTime = entry.2.startTime
  (entry.1, { entry.2 with
    user := (known.bind Process.user).or (if withUser then entry.2.user else none) })

/-- `refresh_processes_specifics` of all processes, where the dead ones are removed. -/
def refreshAll (system table : System) (withUser : Bool) : System where
  processes := table.processes.map (system.refreshed withUser)
  nodup := by
    rw [List.map_map]
    exact table.nodup

/-- `refresh_processes_specifics` of some processes. -/
def refreshSome (system table : System) (targets : List Pid) : System where
  processes := (system.processes.filter fun entry => entry.1 ∉ targets) ++
    (table.processes.filter fun entry => entry.1 ∈ targets).map (system.refreshed false)
  nodup := by
    rw [List.map_append, List.map_map]
    refine List.nodup_append.mpr ⟨system.nodup.sublist (List.filter_sublist.map _),
      table.nodup.sublist (List.filter_sublist.map _), fun pid hold other hnew => ?_⟩
    obtain ⟨entry, hentry, rfl⟩ := List.mem_map.mp hold
    obtain ⟨seen, hseen, rfl⟩ := List.mem_map.mp hnew
    have hout : entry.1 ∉ targets := of_decide_eq_true (List.mem_filter.mp hentry).2
    have hin : seen.1 ∈ targets := of_decide_eq_true (List.mem_filter.mp hseen).2
    intro heq
    exact hout (heq ▸ hin)

end System

/-! ### What the sweep asks of the host -/

/-- At each look: the table of processes, their groups, whether the deadline has passed, and whether a signal
    can be delivered. -/
structure Host where
  table : ℕ → System
  processGroup : ℕ → Pid → Option Pid
  late : ℕ → Bool
  killWith : ℕ → Pid → Option Bool

/-- One registered step process group. -/
structure TrackedGroup where
  id : Pid
  leaderStart : Option (BitVec 64)

/-- A job's tracking as one sweep sees it. -/
structure Tracked where
  id : List UInt8
  started : BitVec 64
  groups : List TrackedGroup

def trackingEnv : List UInt8 := bytes "RUNNER_TRACKING_ID".toList

def startSlackSecs : BitVec 64 := 2

def toAsciiLowercase (byte : UInt8) : UInt8 := if 65 ≤ byte ∧ byte ≤ 90 then byte + 32 else byte

def carriesId (environ : List (List UInt8)) (id : List UInt8) : Bool :=
  environ.any fun entry =>
    match entry.idxOf? 61 with
    | none => false
    | some split => entry.take split = trackingEnv &&
        ((entry.drop split).drop 1).map toAsciiLowercase = id.map toAsciiLowercase

/-- How a candidate is tied to the job. -/
inductive Evidence
  | environment
  | group
deriving DecidableEq

structure Candidate where
  pid : Pid
  startTime : BitVec 64
  name : Str
  evidence : Evidence

inductive KillOutcome
  | killed
  | skipped
  | failed

structure Attempts where
  tried : List (Pid × Evidence)
  done : List Pid

namespace Attempts

/-- The candidates not yet attempted with their current evidence. -/
def fresh (attempts : Attempts) : List Candidate → List Candidate × Attempts
  | [] => ([], attempts)
  | candidate :: candidates =>
    if candidate.pid ∈ attempts.done ∨ (candidate.pid, candidate.evidence) ∈ attempts.tried then
      fresh attempts candidates
    else
      let (rest, attempts) := fresh
        { attempts with tried := (candidate.pid, candidate.evidence) :: attempts.tried } candidates
      (candidate :: rest, attempts)

def finish (attempts : Attempts) (pid : Pid) : Attempts := { attempts with done := pid :: attempts.done }

end Attempts

structure CleanupReport where
  terminated : List Pid
  survivors : List Pid
  timedOut : Bool
  degraded : Bool
  failed : Bool
deriving DecidableEq

/-- A signal that was sent: to whom, and what had last been seen of the processes. -/
structure Sent where
  candidate : Candidate
  system : System
  look : ℕ

/-- The sweep so far; with the signals it has sent and the candidates it has passed over. -/
structure Progress where
  system : System
  looks : ℕ
  attempts : Attempts
  killed : List Candidate
  report : CleanupReport
  scanned : List Candidate
  signals : List Sent
  skipped : List Candidate

def Progress.start : Progress :=
  ⟨⟨[], List.nodup_nil⟩, 0, ⟨[], []⟩, [], ⟨[], [], false, false, false⟩, [], [], []⟩

section Sweep

variable (host : Host) (tracked : Tracked) (ownPid : Pid)

def groupOwned (system : System) (group : TrackedGroup) : Bool :=
  match system.process group.id with
  | none => true
  | some leader => group.leaderStart = some leader.startTime

def ownedGroupOf (system : System) (processGroup : Option Pid) : Option TrackedGroup :=
  match processGroup with
  | none => none
  | some id => tracked.groups.find? fun group => group.id = id ∧ groupOwned system group = true

def inTrackedGroup (system : System) (processGroup : Option Pid) (process : Process) (ownUid : Option ℕ) :
    Bool :=
  !tracked.groups.isEmpty && tracked.started ≤ satAdd process.startTime startSlackSecs &&
    ownUid.any (fun uid => process.user = some uid) && (ownedGroupOf tracked system processGroup).isSome

/-- The evidence for a process in the record of a scan. -/
def evidenceOf (system : System) (look : ℕ) (entry : Pid × Process) : Option Evidence :=
  if entry.1 = ownPid ∨ entry.2.isThread = true ∨ entry.2.isZombie = true then none
  else if carriesId entry.2.environ tracked.id then some .environment
  else if inTrackedGroup tracked system (host.processGroup look entry.1) entry.2
      ((system.process ownPid).bind Process.user) then some .group
  else none

/-- The candidates, whether the runner's own process was seen, and the record. -/
def scanCandidates (system : System) (look : ℕ) : List Candidate × Bool × System :=
  let system := system.refreshAll (host.table look) !tracked.groups.isEmpty
  (system.processes.filterMap fun entry =>
      (evidenceOf host tracked ownPid system (look + 1) entry).map fun evidence =>
        ⟨entry.1, entry.2.startTime, entry.2.name, evidence⟩,
    system.processes.any fun entry => entry.1 = ownPid,
    system)

/-- The candidate, and for a group match its group's leader. -/
def targetsOf (candidate : Candidate) (look : ℕ) : List Pid :=
  candidate.pid ::
    match candidate.evidence with
    | .environment => []
    | .group => (host.processGroup look candidate.pid).toList

def stillTied (candidate : Candidate) (process : Process) (system : System) (look : ℕ) : Bool :=
  match candidate.evidence with
  | .environment => carriesId process.environ tracked.id
  | .group => (ownedGroupOf tracked system (host.processGroup look candidate.pid)).isSome

/-- Look at a candidate again, and signal it only if it is the same process and still tied to the job. -/
def killVerified (candidate : Candidate) (system : System) (look : ℕ) : KillOutcome × System :=
  let system := system.refreshSome (host.table (look + 1)) (targetsOf host candidate look)
  match system.process candidate.pid with
  | none => (.skipped, system)
  | some process =>
    if process.startTime ≠ candidate.startTime ∨
        stillTied host tracked candidate process system (look + 2) = false then (.skipped, system)
    else
      match host.killWith (look + 3) candidate.pid with
      | some true => (.killed, system)
      | some false | none => (.failed, system)

/-- One turn of the loop over the fresh candidates. -/
def attempt (candidate : Candidate) (p : Progress) : Progress :=
  let (outcome, system) := killVerified host tracked candidate p.system p.looks
  let sent : Sent := ⟨candidate, system, p.looks⟩
  let p := { p with system, looks := p.looks + 4 }
  match outcome with
  | .killed => { p with
      attempts := p.attempts.finish candidate.pid
      killed := p.killed ++ [candidate]
      signals := p.signals ++ [sent] }
  | .skipped => { p with skipped := p.skipped ++ [candidate] }
  | .failed => { p with
      attempts := p.attempts.finish candidate.pid
      report := { p.report with survivors := p.report.survivors ++ [candidate.pid] }
      signals := p.signals ++ [sent] }

def Progress.look (p : Progress) : Progress := { p with looks := p.looks + 1 }

def Progress.timeOut (p : Progress) : Progress := { p with report := { p.report with timedOut := true } }

/-- The loop over the fresh candidates, and whether the deadline has not cut it short. -/
def attemptAll : List Candidate → Progress → Bool × Progress
  | [], p => (true, p)
  | candidate :: candidates, p =>
    if host.late p.looks then (false, p.look.timeOut)
    else attemptAll candidates (attempt host tracked candidate p.look)

/-- A scan, with the candidates that are fresh. -/
def scanFresh (p : Progress) : List Candidate × Progress :=
  let (candidates, ownPidSeen, system) := scanCandidates host tracked ownPid p.system p.looks
  let (fresh, attempts) := p.attempts.fresh candidates
  (fresh, { p with
    system
    looks := p.looks + 2
    attempts
    report := { p.report with degraded := p.report.degraded || !ownPidSeen }
    scanned := candidates })

/-- The passes, and what is left of the fuel. -/
def passes : ℕ → Progress → Option Progress
  | 0, _ => none
  | fuel + 1, p =>
    if host.late p.looks then some p.look.timeOut
    else
      match scanFresh host tracked ownPid p.look with
      | ([], p) => some p
      | (candidate :: candidates, p) =>
        match attemptAll host tracked (candidate :: candidates) p with
        | (false, p) => some p
        | (true, p) => passes fuel p

/-- Gone, a zombie, or (when `startTime` is known) replaced by a new process. -/
def hasExited (pid : Pid) (startTime : Option (BitVec 64)) (p : Progress) : Bool × Progress :=
  let system := p.system.refreshSome (host.table p.looks) [pid]
  (match system.process pid with
    | none => true
    | some process => process.isZombie || startTime.any fun start => start ≠ process.startTime,
    { p with system, looks := p.looks + 1 })

def Progress.terminate (p : Progress) (pid : Pid) : Progress :=
  { p with report := { p.report with terminated := p.report.terminated ++ [pid] } }

def Progress.survive (p : Progress) (pids : List Pid) : Progress :=
  { p with report := { p.report with survivors := p.report.survivors ++ pids } }

/-- The candidates that have not exited. -/
def retainRunning : List Candidate → Progress → List Candidate × Progress
  | [], p => ([], p)
  | candidate :: candidates, p =>
    match hasExited host candidate.pid (some candidate.startTime) p with
    | (true, p) => retainRunning candidates (p.terminate candidate.pid)
    | (false, p) =>
      let (pending, p) := retainRunning candidates p
      (candidate :: pending, p)

def pollPending : ℕ → List Candidate → Progress → Option Progress
  | 0, _, _ => none
  | fuel + 1, pending, p =>
    match retainRunning host pending p with
    | ([], p) => some p
    | (candidate :: candidates, p) =>
      if host.late p.looks then
        some ((p.look.timeOut).survive ((candidate :: candidates).map Candidate.pid))
      else pollPending fuel (candidate :: candidates) p.look

/-- The last look at those that are reported as survivors. -/
def recheck : List Pid → Progress → Progress
  | [], p => p
  | pid :: pids, p =>
    match hasExited host pid none p with
    | (true, p) => recheck pids (p.terminate pid)
    | (false, p) => recheck pids (p.survive [pid])

def waitForExit (fuel : ℕ) (p : Progress) : Option Progress :=
  (pollPending host fuel p.killed p).map fun p =>
    recheck host p.report.survivors { p with report := { p.report with survivors := [] } }

def sweepBlocking (fuel : ℕ) : Option Progress :=
  (passes host tracked ownPid fuel .start).bind (waitForExit host fuel)

/-! ### What a signal rests on -/

/-- A process other than the runner was seen with the candidate's start time before this look. -/
def Recorded (candidate : Candidate) (look : ℕ) : Prop :=
  candidate.pid ≠ ownPid ∧ ∃ n < look, ∃ process,
    (host.table n).process candidate.pid = some process ∧ process.startTime = candidate.startTime

/-- At the last look before the signal the process had the start time that was recorded, and it carried the id
    or sat in a group that, by what was last seen of its leader, was still the job's. -/
def Sound (sent : Sent) : Prop :=
  Recorded host ownPid sent.candidate sent.look ∧
    ∃ process, (host.table (sent.look + 1)).process sent.candidate.pid = some process ∧
      process.startTime = sent.candidate.startTime ∧
      (carriesId process.environ tracked.id = true ∨
        ∃ group ∈ tracked.groups,
          host.processGroup (sent.look + 2) sent.candidate.pid = some group.id ∧
            groupOwned sent.system group = true)

end Sweep

theorem process_of_mem {system : System} {entry : Pid × Process} (h : entry ∈ system.processes) :
    system.process entry.1 = some entry.2 := by
  obtain ⟨processes, hnodup⟩ := system
  show (processes.find? fun other => other.1 = entry.1).map Prod.snd = some entry.2
  induction processes with
  | nil => cases h
  | cons first rest ih =>
    rw [List.map_cons, List.nodup_cons] at hnodup
    rcases List.mem_cons.mp h with rfl | hrest
    · simp
    · have hne : first.1 ≠ entry.1 := fun heq => hnodup.1 (heq ▸ List.mem_map_of_mem hrest)
      rw [List.find?_cons_of_neg (by simpa using hne)]
      exact ih hnodup.2 hrest

/-- What is refreshed is seen as it is in the table. -/
theorem process_refreshSome {system table : System} {targets : List Pid} {pid : Pid} {process : Process}
    (hpid : pid ∈ targets) (h : (system.refreshSome table targets).process pid = some process) :
    ∃ seen, table.process pid = some seen ∧ process.startTime = seen.startTime ∧
      process.environ = seen.environ := by
  rw [System.process, Option.map_eq_some_iff] at h
  obtain ⟨entry, hfind, rfl⟩ := h
  have hmem := List.mem_of_find?_eq_some hfind
  have heq : entry.1 = pid := by simpa using List.find?_some hfind
  rcases List.mem_append.mp hmem with hold | hnew
  · have hout : entry.1 ∉ targets := by simpa using (List.mem_filter.mp hold).2
    exact absurd (heq ▸ hpid) hout
  · obtain ⟨seen, hseen, rfl⟩ := List.mem_map.mp hnew
    exact ⟨seen.2, heq ▸ process_of_mem (List.mem_filter.mp hseen).1, rfl, rfl⟩

section Sweep

variable {host : Host} {tracked : Tracked} {ownPid : Pid}

theorem recorded_of_scan {system : System} {look : ℕ} {candidate : Candidate}
    (h : candidate ∈ (scanCandidates host tracked ownPid system look).1) :
    Recorded host ownPid candidate (look + 1) := by
  obtain ⟨entry, hentry, hcandidate⟩ := List.mem_filterMap.mp h
  obtain ⟨evidence, hevidence, rfl⟩ := Option.map_eq_some_iff.mp hcandidate
  obtain ⟨seen, hseen, rfl⟩ := List.mem_map.mp hentry
  refine ⟨fun heq => ?_, look, Nat.lt_succ_self look, seen.2, process_of_mem hseen, rfl⟩
  rw [evidenceOf, if_pos (.inl heq)] at hevidence
  cases hevidence

/-- The candidates have the pids of some of the processes, in their order. -/
theorem sublist_pids (evidence : Pid × Process → Option Evidence) (processes : List (Pid × Process)) :
    ((processes.filterMap fun entry => (evidence entry).map fun evidence =>
      (⟨entry.1, entry.2.startTime, entry.2.name, evidence⟩ : Candidate)).map Candidate.pid).Sublist
      (processes.map Prod.fst) := by
  induction processes with
  | nil => exact List.Sublist.slnil
  | cons entry rest ih =>
    rw [List.filterMap_cons]
    cases evidence entry with
    | none => exact ih.cons entry.1
    | some found => exact ih.cons_cons entry.1

theorem nodup_scan (system : System) (look : ℕ) :
    ((scanCandidates host tracked ownPid system look).1.map Candidate.pid).Nodup :=
  (system.refreshAll (host.table look) !tracked.groups.isEmpty).nodup.sublist (sublist_pids _ _)

/-! ### Attempts -/

def Candidate.key (candidate : Candidate) : Pid × Evidence := (candidate.pid, candidate.evidence)

theorem fresh_cons (attempts : Attempts) (candidate : Candidate) (candidates : List Candidate) :
    attempts.fresh (candidate :: candidates) =
      if candidate.pid ∈ attempts.done ∨ candidate.key ∈ attempts.tried then attempts.fresh candidates
      else
        let (rest, attempts) :=
          { attempts with tried := candidate.key :: attempts.tried }.fresh candidates
        (candidate :: rest, attempts) := rfl

theorem fresh_done (attempts : Attempts) (candidates : List Candidate) :
    (attempts.fresh candidates).2.done = attempts.done := by
  induction candidates generalizing attempts with
  | nil => rfl
  | cons candidate candidates ih =>
    rw [fresh_cons]
    split
    · exact ih attempts
    · exact ih _

theorem fresh_sublist (attempts : Attempts) (candidates : List Candidate) :
    (attempts.fresh candidates).1.Sublist candidates := by
  induction candidates generalizing attempts with
  | nil => exact List.Sublist.slnil
  | cons candidate candidates ih =>
    rw [fresh_cons]
    split
    · exact (ih attempts).cons candidate
    · exact (ih _).cons_cons candidate

theorem fresh_not_done {attempts : Attempts} {candidates : List Candidate} {candidate : Candidate}
    (h : candidate ∈ (attempts.fresh candidates).1) : candidate.pid ∉ attempts.done := by
  induction candidates generalizing attempts with
  | nil => cases h
  | cons first rest ih =>
    rw [fresh_cons] at h
    split at h
    case isTrue => exact ih h
    case isFalse hfresh =>
      rcases List.mem_cons.mp h with rfl | hrest
      · exact fun hdone => hfresh (.inl hdone)
      · have hopen := ih hrest
        exact hopen

theorem mem_fresh_tried (attempts : Attempts) (candidates : List Candidate) (tried : Pid × Evidence) :
    tried ∈ (attempts.fresh candidates).2.tried ↔
      tried ∈ attempts.tried ∨ ∃ candidate ∈ (attempts.fresh candidates).1, candidate.key = tried := by
  induction candidates generalizing attempts with
  | nil => simp [Attempts.fresh]
  | cons first rest ih =>
    rw [fresh_cons]
    split
    case isTrue => exact ih attempts
    case isFalse =>
      rw [ih, List.mem_cons]
      simp only [List.mem_cons, exists_eq_or_imp]
      constructor
      · rintro ((rfl | hold) | hnew)
        · exact .inr (.inl rfl)
        · exact .inl hold
        · exact .inr (.inr hnew)
      · rintro (hold | rfl | hnew)
        · exact .inl (.inr hold)
        · exact .inl (.inl rfl)
        · exact .inr hnew

/-- A candidate is passed over only if its pid is done or it was tried with this evidence. -/
theorem tried_of_scanned (attempts : Attempts) {candidates : List Candidate} {candidate : Candidate}
    (h : candidate ∈ candidates) :
    candidate.pid ∈ attempts.done ∨ candidate.key ∈ (attempts.fresh candidates).2.tried := by
  induction candidates generalizing attempts with
  | nil => cases h
  | cons first rest ih =>
    rw [fresh_cons]
    rcases List.mem_cons.mp h with rfl | hrest
    · split
      case isTrue hseen =>
        rcases hseen with hdone | htried
        · exact .inl hdone
        · exact .inr ((mem_fresh_tried _ _ _).mpr (.inl htried))
      case isFalse => exact .inr ((mem_fresh_tried _ _ _).mpr (.inl (List.mem_cons_self ..)))
    · split
      case isTrue => exact ih attempts hrest
      case isFalse => exact ih { attempts with tried := first.key :: attempts.tried } hrest

/-! ### The passes -/

def Progress.signalled (p : Progress) : List Pid := p.signals.map fun sent => sent.candidate.pid

/-- The sweep between two attempts, with the candidates of this pass that are still to be attempted. -/
structure Kept (host : Host) (tracked : Tracked) (ownPid : Pid) (waiting : List Candidate)
    (p : Progress) : Prop where
  /-- A pid is signalled once, and then it is killed or a survivor. -/
  accounted : (p.killed.map Candidate.pid ++ p.report.survivors).Perm p.signalled
  once : p.signalled.Nodup
  done : ∀ pid, pid ∈ p.attempts.done ↔ pid ∈ p.signalled
  tried : ∀ key ∈ p.attempts.tried, (∃ c ∈ p.skipped, c.key = key) ∨ key.1 ∈ p.signalled ∨
    ∃ c ∈ waiting, c.key = key
  waiting_once : (waiting.map Candidate.pid).Nodup
  waiting_open : ∀ c ∈ waiting, c.pid ∉ p.signalled
  recorded : ∀ c ∈ waiting, Recorded host ownPid c p.looks
  sound : ∀ sent ∈ p.signals, Sound host tracked ownPid sent
  running : p.report.terminated = []

theorem Recorded.mono {candidate : Candidate} {look look' : ℕ} (h : Recorded host ownPid candidate look)
    (hle : look ≤ look') : Recorded host ownPid candidate look' := by
  obtain ⟨hother, n, hn, hseen⟩ := h
  exact ⟨hother, n, by omega, hseen⟩

theorem kept_start : Kept host tracked ownPid [] .start where
  accounted := .nil
  once := List.nodup_nil
  done _ := Iff.rfl
  tried _ h := by cases h
  waiting_once := List.nodup_nil
  waiting_open _ h := by cases h
  recorded _ h := by cases h
  sound _ h := by cases h
  running := rfl

theorem Kept.look {waiting : List Candidate} {p : Progress} (h : Kept host tracked ownPid waiting p) :
    Kept host tracked ownPid waiting p.look :=
  ⟨h.accounted, h.once, h.done, h.tried, h.waiting_once, h.waiting_open,
    fun c hc => (h.recorded c hc).mono (Nat.le_succ _), h.sound, h.running⟩

theorem Kept.scanFresh {p : Progress} (h : Kept host tracked ownPid [] p) :
    Kept host tracked ownPid (scanFresh host tracked ownPid p).1 (scanFresh host tracked ownPid p).2 := by
  let candidates := (scanCandidates host tracked ownPid p.system p.looks).1
  have hsub : (p.attempts.fresh candidates).1.Sublist candidates := fresh_sublist _ _
  refine ⟨h.accounted, h.once, fun pid => ?_, fun key hkey => ?_, ?_, fun c hc => ?_, fun c hc => ?_,
    h.sound, h.running⟩
  · show pid ∈ (p.attempts.fresh candidates).2.done ↔ _
    rw [fresh_done]
    exact h.done pid
  · rcases (mem_fresh_tried p.attempts candidates key).mp hkey with hold | hnew
    · rcases h.tried key hold with hskipped | hsignalled | ⟨c, hc, -⟩
      · exact .inl hskipped
      · exact .inr (.inl hsignalled)
      · cases hc
    · exact .inr (.inr hnew)
  · exact (nodup_scan p.system p.looks).sublist (hsub.map _)
  · exact fun hsignalled => fresh_not_done hc ((h.done c.pid).mpr hsignalled)
  · exact (recorded_of_scan (hsub.subset hc)).mono (Nat.le_succ _)

theorem ownedGroupOf_isSome {system : System} {processGroup : Option Pid}
    (h : (ownedGroupOf tracked system processGroup).isSome = true) :
    ∃ group ∈ tracked.groups, processGroup = some group.id ∧ groupOwned system group = true := by
  rw [ownedGroupOf.eq_def] at h
  split at h
  case h_1 => cases h
  case h_2 id =>
    obtain ⟨group, hfind⟩ := Option.isSome_iff_exists.mp h
    have hmatch : group.id = id ∧ groupOwned system group = true := by
      simpa using List.find?_some hfind
    exact ⟨group, List.mem_of_find?_eq_some hfind, congrArg some hmatch.1.symm, hmatch.2⟩

/-- What is known when a candidate was signalled, or could not be. -/
theorem killVerified_spec {candidate : Candidate} {system : System} {look : ℕ}
    (hrecorded : Recorded host ownPid candidate look)
    (h : (killVerified host tracked candidate system look).1 ≠ .skipped) :
    Sound host tracked ownPid
      ⟨candidate, (killVerified host tracked candidate system look).2, look⟩ := by
  have hsystem : (killVerified host tracked candidate system look).2 =
      system.refreshSome (host.table (look + 1)) (targetsOf host candidate look) := by
    rw [killVerified]
    split
    · rfl
    · split
      · rfl
      · split <;> rfl
  rw [Sound, hsystem]
  refine ⟨hrecorded, ?_⟩
  rw [killVerified] at h
  split at h
  case h_1 => exact absurd rfl h
  case h_2 process hprocess =>
    obtain ⟨seen, hseen, hstart, henviron⟩ := process_refreshSome (List.mem_cons_self ..) hprocess
    split at h
    case isTrue => exact absurd rfl h
    case isFalse hverified =>
      rw [not_or, not_not, Bool.not_eq_false] at hverified
      obtain ⟨hsame, htied⟩ := hverified
      refine ⟨seen, hseen, hstart ▸ hsame, ?_⟩
      rw [stillTied] at htied
      split at htied
      case h_1 => exact .inl (henviron ▸ htied)
      case h_2 => exact .inr (ownedGroupOf_isSome htied)

/-- A candidate that was signalled is done with. -/
theorem Kept.signal {candidate : Candidate} {waiting : List Candidate} {p p' : Progress}
    (h : Kept host tracked ownPid (candidate :: waiting) p) {sent : Sent}
    (hsignals : p'.signals = p.signals ++ [sent]) (hcandidate : sent.candidate = candidate)
    (hsound : Sound host tracked ownPid sent)
    (haccounted : (p'.killed.map Candidate.pid ++ p'.report.survivors).Perm
      (candidate.pid :: (p.killed.map Candidate.pid ++ p.report.survivors)))
    (hattempts : p'.attempts = p.attempts.finish candidate.pid) (hskipped : p'.skipped = p.skipped)
    (hlooks : p.looks ≤ p'.looks) (hrunning : p'.report.terminated = []) :
    Kept host tracked ownPid waiting p' := by
  have hsignalled : p'.signalled = p.signalled ++ [candidate.pid] := by
    rw [Progress.signalled, hsignals, List.map_append]
    exact congrArg (fun c : Candidate => p.signalled ++ [c.pid]) hcandidate
  have hopen : candidate.pid ∉ p.signalled := h.waiting_open candidate (List.mem_cons_self ..)
  have hnodup := h.waiting_once
  rw [List.map_cons, List.nodup_cons] at hnodup
  refine ⟨?_, ?_, fun pid => ?_, fun key hkey => ?_, hnodup.2, fun c hc => ?_, fun c hc => ?_,
    fun other hother => ?_, hrunning⟩
  · rw [hsignalled]
    exact haccounted.trans ((h.accounted.cons _).trans (List.perm_append_singleton _ _).symm)
  · rw [hsignalled]
    exact (List.perm_append_singleton _ _).nodup_iff.mpr (List.nodup_cons.mpr ⟨hopen, h.once⟩)
  · rw [hattempts, hsignalled, List.mem_append, List.mem_singleton, ← h.done, Attempts.finish]
    exact (List.mem_cons).trans or_comm
  · rw [hskipped, hsignalled, List.mem_append, List.mem_singleton]
    rw [hattempts] at hkey
    rcases h.tried key hkey with hskipped | hsignalled | ⟨c, hc, rfl⟩
    · exact .inl hskipped
    · exact .inr (.inl (.inl hsignalled))
    · rcases List.mem_cons.mp hc with rfl | hrest
      · exact .inr (.inl (.inr rfl))
      · exact .inr (.inr ⟨c, hrest, rfl⟩)
  · rw [hsignalled, List.mem_append, List.mem_singleton, not_or]
    refine ⟨h.waiting_open c (List.mem_cons_of_mem _ hc), fun heq => hnodup.1 ?_⟩
    rw [← heq]
    exact List.mem_map_of_mem hc
  · exact (h.recorded c (List.mem_cons_of_mem _ hc)).mono hlooks
  · rw [hsignals, List.mem_append, List.mem_singleton] at hother
    rcases hother with hold | rfl
    · exact h.sound other hold
    · exact hsound

/-- An attempt settles its candidate: it is signalled now, or passed over for good. -/
theorem Kept.attempt {candidate : Candidate} {waiting : List Candidate} {p : Progress}
    (h : Kept host tracked ownPid (candidate :: waiting) p) :
    Kept host tracked ownPid waiting (attempt host tracked candidate p) := by
  have hspec : (killVerified host tracked candidate p.system p.looks).1 ≠ .skipped → _ :=
    killVerified_spec (h.recorded candidate (List.mem_cons_self ..))
  have hnodup := h.waiting_once
  rw [List.map_cons, List.nodup_cons] at hnodup
  unfold OrphanSweep.attempt
  generalize killVerified host tracked candidate p.system p.looks = result at hspec ⊢
  obtain ⟨outcome, system⟩ := result
  cases outcome with
  | killed =>
    -- a killed candidate and one that could not be signalled differ in the list they are put into
    refine h.signal rfl rfl (hspec (by simp)) ?_ rfl rfl (Nat.le_add_right ..) h.running
    show ((p.killed ++ [candidate]).map Candidate.pid ++ p.report.survivors).Perm _
    rw [List.map_append, List.append_assoc]
    exact List.perm_middle
  | skipped =>
    refine ⟨h.accounted, h.once, h.done, fun key hkey => ?_, hnodup.2,
      fun c hc => h.waiting_open c (List.mem_cons_of_mem _ hc),
      fun c hc => (h.recorded c (List.mem_cons_of_mem _ hc)).mono (Nat.le_add_right ..), h.sound, h.running⟩
    show (∃ c ∈ p.skipped ++ [candidate], c.key = key) ∨ _
    rcases h.tried key hkey with ⟨c, hc, rfl⟩ | hsignalled | ⟨c, hc, rfl⟩
    · exact .inl ⟨c, List.mem_append_left _ hc, rfl⟩
    · exact .inr (.inl hsignalled)
    · rcases List.mem_cons.mp hc with rfl | hrest
      · exact .inl ⟨c, List.mem_append_right _ (List.mem_singleton_self c), rfl⟩
      · exact .inr (.inr ⟨c, hrest, rfl⟩)
  | failed =>
    refine h.signal rfl rfl (hspec (by simp)) ?_ rfl rfl (Nat.le_add_right ..) h.running
    show (p.killed.map Candidate.pid ++ (p.report.survivors ++ [candidate.pid])).Perm _
    rw [← List.append_assoc]
    exact List.perm_append_singleton _ _

theorem Kept.timeOut {waiting : List Candidate} {p : Progress} (h : Kept host tracked ownPid waiting p) :
    Kept host tracked ownPid waiting p.timeOut :=
  ⟨h.accounted, h.once, h.done, h.tried, h.waiting_once, h.waiting_open, h.recorded, h.sound, h.running⟩

/-- All candidates of a pass are attempted, or the time is up. -/
theorem kept_attemptAll {waiting : List Candidate} {p : Progress}
    (h : Kept host tracked ownPid waiting p) :
    (∃ left, Kept host tracked ownPid left (attemptAll host tracked waiting p).2) ∧
      ((attemptAll host tracked waiting p).1 = true →
        Kept host tracked ownPid [] (attemptAll host tracked waiting p).2) ∧
      ((attemptAll host tracked waiting p).1 = false →
        (attemptAll host tracked waiting p).2.report.timedOut = true) := by
  induction waiting generalizing p with
  | nil => exact ⟨⟨[], h⟩, fun _ => h, fun hcut => by cases hcut⟩
  | cons candidate waiting ih =>
    rw [attemptAll]
    split
    case isTrue => exact ⟨⟨_, h.look.timeOut⟩, fun hall => (by cases hall), fun _ => rfl⟩
    case isFalse => exact ih h.look.attempt

/-- Everything the last scan found has been signalled, or was passed over with the same evidence. -/
def Settled (p : Progress) : Prop :=
  ∀ c ∈ p.scanned, c.pid ∈ p.signalled ∨ ∃ skipped ∈ p.skipped, skipped.key = c.key

/-- Where nothing is fresh in a scan, all that it found has been attempted. -/
theorem Kept.settled {p : Progress} (h : Kept host tracked ownPid [] p)
    (hnone : (OrphanSweep.scanFresh host tracked ownPid p).1 = []) :
    Settled (OrphanSweep.scanFresh host tracked ownPid p).2 := by
  have hkept := h.scanFresh
  rw [hnone] at hkept
  intro c hc
  -- what was not fresh is done, or was tried in an earlier pass
  rcases tried_of_scanned p.attempts hc with hdone | htried
  · exact .inl ((h.done c.pid).mp hdone)
  · rcases hkept.tried c.key htried with hskipped | hsignalled | ⟨c', hc', -⟩
    · exact .inr hskipped
    · exact .inl hsignalled
    · cases hc'

theorem kept_passes {fuel : ℕ} {p p' : Progress} (h : Kept host tracked ownPid [] p)
    (hpasses : passes host tracked ownPid fuel p = some p') :
    (∃ left, Kept host tracked ownPid left p') ∧ (p'.report.timedOut = false → Settled p') := by
  induction fuel generalizing p with
  | zero => cases hpasses
  | succ fuel ih =>
    rw [passes] at hpasses
    split at hpasses
    case isTrue =>
      obtain rfl := Option.some.inj hpasses
      exact ⟨⟨[], h.look.timeOut⟩, fun hintime => by cases hintime⟩
    case isFalse =>
      have hkept := h.look.scanFresh
      have hsettled := h.look.settled
      generalize scanFresh host tracked ownPid p.look = scanned at hkept hsettled hpasses
      obtain ⟨fresh, scanned⟩ := scanned
      cases fresh with
      | nil =>
        obtain rfl := Option.some.inj hpasses
        exact ⟨⟨[], hkept⟩, fun _ => hsettled rfl⟩
      | cons candidate waiting =>
        obtain ⟨hleft, hall, hcut⟩ := kept_attemptAll hkept
        dsimp only at hpasses hleft hall hcut
        generalize attemptAll host tracked (candidate :: waiting) scanned = attempted at hleft hall hcut hpasses
        obtain ⟨complete, attempted⟩ := attempted
        cases complete with
        | false =>
          obtain rfl := Option.some.inj hpasses
          exact ⟨hleft, fun hintime => by rw [hcut rfl] at hintime; cases hintime⟩
        | true => exact ih (hall rfl) hpasses

/-! ### The wait -/

/-- The wait changes of the sweep only what the report says, and what was last seen. -/
structure Waits (p p' : Progress) : Prop where
  signals : p'.signals = p.signals
  skipped : p'.skipped = p.skipped
  scanned : p'.scanned = p.scanned
  timedOut : p'.report.timedOut = false → p.report.timedOut = false

theorem Waits.refl (p : Progress) : Waits p p := ⟨rfl, rfl, rfl, fun h => h⟩

theorem Waits.trans {p p' p'' : Progress} (h : Waits p p') (h' : Waits p' p'') : Waits p p'' :=
  ⟨h'.signals.trans h.signals, h'.skipped.trans h.skipped, h'.scanned.trans h.scanned,
    fun hintime => h.timedOut (h'.timedOut hintime)⟩

theorem hasExited_frame (pid : Pid) (startTime : Option (BitVec 64)) (p : Progress) :
    Waits p (hasExited host pid startTime p).2 ∧
      (hasExited host pid startTime p).2.report = p.report :=
  ⟨⟨rfl, rfl, rfl, fun h => h⟩, rfl⟩

/-- The pids that have been reported. -/
def Progress.reported (p : Progress) : List Pid := p.report.terminated ++ p.report.survivors

theorem waits_terminate (p : Progress) (pid : Pid) : Waits p (p.terminate pid) :=
  ⟨rfl, rfl, rfl, fun h => h⟩

theorem waits_survive (p : Progress) (pids : List Pid) : Waits p (p.survive pids) :=
  ⟨rfl, rfl, rfl, fun h => h⟩

theorem waits_look (p : Progress) : Waits p p.look := ⟨rfl, rfl, rfl, fun h => h⟩

theorem reported_terminate (p : Progress) (pid : Pid) :
    (p.terminate pid).reported.Perm (pid :: p.reported) := by
  show (p.report.terminated ++ [pid] ++ p.report.survivors).Perm _
  rw [List.append_assoc]
  exact List.perm_middle

theorem reported_survive (p : Progress) (pids : List Pid) :
    (p.survive pids).reported = p.reported ++ pids := (List.append_assoc ..).symm

theorem retainRunning_spec (candidates : List Candidate) (p : Progress) :
    Waits p (retainRunning host candidates p).2 ∧
      ((retainRunning host candidates p).2.reported ++
        (retainRunning host candidates p).1.map Candidate.pid).Perm
          (p.reported ++ candidates.map Candidate.pid) := by
  induction candidates generalizing p with
  | nil => exact ⟨.refl p, .refl _⟩
  | cons candidate candidates ih =>
    have hframe : _ ∧ (hasExited host candidate.pid (some candidate.startTime) p).2.report = _ :=
      hasExited_frame candidate.pid (some candidate.startTime) p
    rw [retainRunning]
    generalize hasExited host candidate.pid (some candidate.startTime) p = result at hframe ⊢
    obtain ⟨exited, seen⟩ := result
    obtain ⟨hwaits, hreport⟩ := hframe
    have hsame : seen.reported = p.reported := by rw [Progress.reported, hreport]; rfl
    rw [List.map_cons]
    cases exited with
    | true =>
      obtain ⟨hrest, hperm⟩ := ih (seen.terminate candidate.pid)
      refine ⟨(hwaits.trans (waits_terminate seen candidate.pid)).trans hrest, hperm.trans ?_⟩
      refine ((reported_terminate seen candidate.pid).append_right _).trans ?_
      rw [hsame]
      exact List.perm_middle.symm
    | false =>
      obtain ⟨hrest, hperm⟩ := ih seen
      refine ⟨hwaits.trans hrest, ?_⟩
      rw [← hsame]
      exact List.perm_middle.trans ((hperm.cons candidate.pid).trans List.perm_middle.symm)

/-- Every process that was waited for is reported. -/
theorem pollPending_spec {fuel : ℕ} {pending : List Candidate} {p p' : Progress}
    (h : pollPending host fuel pending p = some p') :
    Waits p p' ∧ p'.reported.Perm (p.reported ++ pending.map Candidate.pid) := by
  induction fuel generalizing pending p with
  | zero => cases h
  | succ fuel ih =>
    rw [pollPending] at h
    obtain ⟨hwaits, hperm⟩ : Waits p (retainRunning host pending p).2 ∧ _ := retainRunning_spec pending p
    generalize retainRunning host pending p = result at hwaits hperm h
    obtain ⟨left, seen⟩ := result
    cases left with
    | nil =>
      obtain rfl := Option.some.inj h
      exact ⟨hwaits, by simpa using hperm⟩
    | cons candidate candidates =>
      dsimp only at h hwaits hperm
      split at h
      case isTrue =>
        obtain rfl := Option.some.inj h
        refine ⟨hwaits.trans ⟨rfl, rfl, rfl, fun hintime => by cases hintime⟩, ?_⟩
        rw [reported_survive]
        exact hperm
      case isFalse =>
        obtain ⟨hrest, hmore⟩ := ih h
        exact ⟨(hwaits.trans (waits_look seen)).trans hrest, hmore.trans hperm⟩

theorem recheck_spec (pids : List Pid) (p : Progress) :
    Waits p (recheck host pids p) ∧ (recheck host pids p).reported.Perm (p.reported ++ pids) := by
  induction pids generalizing p with
  | nil => exact ⟨.refl p, by simp [recheck]⟩
  | cons pid pids ih =>
    have hframe : _ ∧ (hasExited host pid none p).2.report = _ := hasExited_frame pid none p
    rw [recheck]
    generalize hasExited host pid none p = result at hframe ⊢
    obtain ⟨exited, seen⟩ := result
    obtain ⟨hwaits, hreport⟩ := hframe
    have hsame : seen.reported = p.reported := by rw [Progress.reported, hreport]; rfl
    cases exited with
    | true =>
      obtain ⟨hrest, hperm⟩ := ih (seen.terminate pid)
      refine ⟨(hwaits.trans (waits_terminate seen pid)).trans hrest, hperm.trans ?_⟩
      refine ((reported_terminate seen pid).append_right _).trans ?_
      rw [hsame]
      exact List.perm_middle.symm
    | false =>
      obtain ⟨hrest, hperm⟩ := ih (seen.survive [pid])
      refine ⟨(hwaits.trans (waits_survive seen [pid])).trans hrest, hperm.trans ?_⟩
      rw [reported_survive, hsame, List.append_assoc]
      rfl

theorem waitForExit_spec {fuel : ℕ} {p p' : Progress} (h : waitForExit host fuel p = some p') :
    Waits p p' ∧ p'.reported.Perm (p.reported ++ p.killed.map Candidate.pid) := by
  obtain ⟨polled, hpoll, rfl⟩ := Option.map_eq_some_iff.mp h
  obtain ⟨hwaits, hperm⟩ := pollPending_spec hpoll
  let emptied : Progress := { polled with report := { polled.report with survivors := [] } }
  have hemptied : Waits polled emptied := ⟨rfl, rfl, rfl, fun h => h⟩
  obtain ⟨hrest, hmore⟩ : Waits emptied (recheck host polled.report.survivors emptied) ∧ _ :=
    recheck_spec polled.report.survivors emptied
  refine ⟨(hwaits.trans hemptied).trans hrest, hmore.trans ?_⟩
  have hsame : (polled.report.terminated ++ [] ++ polled.report.survivors) = polled.reported := by
    rw [List.append_nil]
    rfl
  exact (List.Perm.of_eq hsame).trans hperm

/-! ### The sweep -/

/-- Whatever the process table is at each look: a process is signalled only as `Sound` says; when the sweep
    was in time, everything that its last scan found has been signalled, or was passed over when it was
    looked at again with the same evidence; and what has been signalled, or could not be, is reported once,
    as terminated or as a survivor. -/
theorem sweep_accounts {fuel : ℕ} {p : Progress}
    (h : sweepBlocking host tracked ownPid fuel = some p) :
    (∀ sent ∈ p.signals, Sound host tracked ownPid sent) ∧
      (p.report.timedOut = false → ∀ c ∈ p.scanned,
        c.pid ∈ p.signalled ∨ ∃ skipped ∈ p.skipped, skipped.key = c.key) ∧
      (p.report.terminated ++ p.report.survivors).Perm p.signalled ∧
      (p.report.terminated ++ p.report.survivors).Nodup := by
  obtain ⟨passed, hpasses, hwait⟩ := Option.bind_eq_some_iff.mp h
  obtain ⟨⟨left, hkept⟩, hsettled⟩ := kept_passes kept_start hpasses
  obtain ⟨hwaits, hperm⟩ := waitForExit_spec hwait
  have hsignalled : p.signalled = passed.signalled := congrArg (List.map _) hwaits.signals
  have hall : (p.report.terminated ++ p.report.survivors).Perm p.signalled := by
    rw [hsignalled]
    refine hperm.trans (.trans ?_ hkept.accounted)
    rw [Progress.reported, hkept.running, List.nil_append]
    exact List.perm_append_comm
  refine ⟨fun sent hsent => hkept.sound sent (hwaits.signals ▸ hsent), fun hintime c hc => ?_, hall, ?_⟩
  · rw [hsignalled, hwaits.skipped]
    exact hsettled (hwaits.timedOut hintime) c (hwaits.scanned ▸ hc)
  · rw [hall.nodup_iff, hsignalled]
    exact hkept.once

/-! ### The end of the sweep -/

theorem looks_attemptAll (waiting : List Candidate) (p : Progress) :
    p.looks ≤ (attemptAll host tracked waiting p).2.looks := by
  induction waiting generalizing p with
  | nil => exact Nat.le_refl _
  | cons candidate waiting ih =>
    rw [attemptAll]
    split
    case isTrue => exact Nat.le_succ _
    case isFalse =>
      refine Nat.le_trans ?_ (ih _)
      unfold attempt
      generalize killVerified host tracked candidate p.look.system p.look.looks = result
      obtain ⟨outcome, system⟩ := result
      have hmore : p.looks ≤ p.look.looks + 4 := Nat.le_trans (Nat.le_succ _) (Nat.le_add_right ..)
      cases outcome <;> exact hmore

theorem looks_retainRunning (candidates : List Candidate) (p : Progress) :
    p.looks ≤ (retainRunning host candidates p).2.looks := by
  induction candidates generalizing p with
  | nil => exact Nat.le_refl _
  | cons candidate candidates ih =>
    have hlooks : (hasExited host candidate.pid (some candidate.startTime) p).2.looks = p.looks + 1 := rfl
    rw [retainRunning]
    generalize hasExited host candidate.pid (some candidate.startTime) p = result at hlooks ⊢
    obtain ⟨exited, seen⟩ := result
    have hseen : p.looks ≤ seen.looks := by
      rw [show seen.looks = p.looks + 1 from hlooks]
      exact Nat.le_succ _
    cases exited with
    | true =>
      have hrest := ih (seen.terminate candidate.pid)
      exact hseen.trans hrest
    | false =>
      have hrest := ih seen
      exact hseen.trans hrest

variable {last : ℕ}

theorem passes_isSome (hlate : ∀ n, last ≤ n → host.late n = true) {fuel : ℕ} {p : Progress}
    (hfuel : last ≤ p.looks + fuel) : (passes host tracked ownPid (fuel + 1) p).isSome := by
  induction fuel generalizing p with
  | zero =>
    rw [passes, if_pos (hlate p.looks hfuel)]
    rfl
  | succ fuel ih =>
    rw [passes]
    split
    case isTrue => rfl
    case isFalse =>
      have hlooks : (scanFresh host tracked ownPid p.look).2.looks = p.looks + 3 := rfl
      generalize scanFresh host tracked ownPid p.look = scanned at hlooks ⊢
      obtain ⟨fresh, scanned⟩ := scanned
      cases fresh with
      | nil => rfl
      | cons candidate waiting =>
        have hmore : _ ≤ (attemptAll host tracked (candidate :: waiting) scanned).2.looks :=
          looks_attemptAll _ scanned
        dsimp only at hlooks ⊢
        generalize attemptAll host tracked (candidate :: waiting) scanned = attempted at hmore ⊢
        obtain ⟨complete, attempted⟩ := attempted
        dsimp only at hmore
        cases complete with
        | false => rfl
        | true => exact ih (by omega)

theorem pollPending_isSome (hlate : ∀ n, last ≤ n → host.late n = true) {fuel : ℕ}
    {pending : List Candidate} {p : Progress} (hfuel : last ≤ p.looks + fuel) :
    (pollPending host (fuel + 1) pending p).isSome := by
  induction fuel generalizing pending p with
  | zero =>
    rw [pollPending]
    have hmore : _ ≤ (retainRunning host pending p).2.looks := looks_retainRunning pending p
    generalize retainRunning host pending p = result at hmore ⊢
    obtain ⟨left, seen⟩ := result
    cases left with
    | nil => rfl
    | cons candidate candidates =>
      dsimp only at hmore ⊢
      rw [if_pos (hlate _ (by omega))]
      rfl
  | succ fuel ih =>
    rw [pollPending]
    have hmore : _ ≤ (retainRunning host pending p).2.looks := looks_retainRunning pending p
    generalize retainRunning host pending p = result at hmore ⊢
    obtain ⟨left, seen⟩ := result
    cases left with
    | nil => rfl
    | cons candidate candidates =>
      dsimp only at hmore ⊢
      split
      case isTrue => rfl
      case isFalse =>
        have hlook : seen.look.looks = seen.looks + 1 := rfl
        exact ih (by omega)

/-- Once the deadline has passed the sweep returns. -/
theorem sweepBlocking_isSome (hlate : ∀ n, last ≤ n → host.late n = true) :
    (sweepBlocking host tracked ownPid (last + 1)).isSome := by
  have hpasses : (passes host tracked ownPid (last + 1) .start).isSome :=
    passes_isSome hlate (Nat.le_add_left last _)
  obtain ⟨passed, hpassed⟩ := Option.isSome_iff_exists.mp hpasses
  have hpolls : (pollPending host (last + 1) passed.killed passed).isSome :=
    pollPending_isSome hlate (Nat.le_add_left last _)
  obtain ⟨polled, hpolled⟩ := Option.isSome_iff_exists.mp hpolls
  rw [sweepBlocking, hpassed]
  show (waitForExit host (last + 1) passed).isSome
  rw [waitForExit, hpolled]
  rfl

end Sweep

/-! ### A process that cannot be read once -/

def ownProcess : Process := ⟨100, [], some 0, false, false, "runner".toList⟩

def sleeper (environ : List (List UInt8)) : Process := ⟨105, environ, some 0, false, false, "sleep".toList⟩

def twoProcesses (environ : List (List UInt8)) : System where
  processes := [(1, ownProcess), (7, sleeper environ)]
  nodup := by
    show [(1 : Pid), 7].Nodup
    decide

def trackedJob : Tracked := ⟨bytes "job".toList, 100, []⟩

def jobEnviron : List (List UInt8) := [bytes "RUNNER_TRACKING_ID=job".toList]

/-- The process stays as it is, and does not die of the signal until the deadline. -/
def steadyHost : Host where
  table _ := twoProcesses jobEnviron
  processGroup _ _ := none
  late n := 20 ≤ n
  killWith _ _ := some true

/-- The environment cannot be read where the process is looked at again. -/
def unreadableOnce : Host where
  table n := twoProcesses (if n = 5 then [] else jobEnviron)
  processGroup _ _ := none
  late n := 20 ≤ n
  killWith _ _ := some true

theorem sweep_accounts_steady : ∃ p, sweepBlocking steadyHost trackedJob 1 21 = some p ∧
    (∀ sent ∈ p.signals, Sound steadyHost trackedJob 1 sent) ∧
      (p.report.timedOut = false → ∀ c ∈ p.scanned,
        c.pid ∈ p.signalled ∨ ∃ skipped ∈ p.skipped, skipped.key = c.key) ∧
      (p.report.terminated ++ p.report.survivors).Perm p.signalled ∧
      (p.report.terminated ++ p.report.survivors).Nodup := by
  have hreturns : (sweepBlocking steadyHost trackedJob 1 21).isSome :=
    sweepBlocking_isSome fun n hn => decide_eq_true hn
  obtain ⟨p, hp⟩ := Option.isSome_iff_exists.mp hreturns
  exact ⟨p, hp, sweep_accounts hp⟩

theorem unreadable_not_signalled :
    (sweepBlocking unreadableOnce trackedJob 1 21).map (fun p =>
      (p.report, p.signalled, p.scanned.map Candidate.pid)) =
      some (⟨[], [], false, false, false⟩, [], [7]) := by
  decide

end GhRunner.Execution.OrphanSweep
