import GhRunner.Lib.Saturating
import GhRunner.Lib.FiniteMap
import Mathlib.Tactic.ByContra

namespace GhRunner.Daemon

open Saturating

/-!
# The daemon's resource gate

Pure accounting for the jobs the daemon is responsible for (`crates/daemon/src/gate.rs`):
admission into a bounded queue, and the separate question whether an admitted job may start
within the vCPU/memory budget.

* `JobSize` — whole vCPUs and megabytes, both `u32`, with the saturating operations;
* `Gate` — the budget, the queue ceiling and the tracked jobs, as a map with unique keys;
* `admitJob`, `adoptRunning`, `tryStart`, `unstart`, `release` — one definition per method.  A
  method that can refuse returns `Except`, one that reports returns its report with the gate.

The two dimensions are treated alike through `JobSize.dim`: every fact about sizes is stated
once, for all `d : Dim`.
-/

/-- Machine word of the sizes and of the queue ceiling. -/
abbrev U32 := BitVec 32

/-- Identifies one job.  The registry and the created-container map are keyed by the same
    text, so the newtype is the text itself. -/
abbrev JobId := String

/-- A resource footprint, of one job or of the whole box. -/
structure JobSize where
  vcpu : U32
  memoryMb : U32
deriving DecidableEq, Repr

/-- The two resource dimensions. -/
inductive Dim
  | vcpu
  | memory
deriving DecidableEq, Repr

namespace JobSize

/-- The empty footprint. -/
def ZERO : JobSize := ⟨0, 0⟩

def saturatingAdd (a b : JobSize) : JobSize :=
  ⟨satAdd a.vcpu b.vcpu, satAdd a.memoryMb b.memoryMb⟩

def saturatingSub (a b : JobSize) : JobSize :=
  ⟨satSub a.vcpu b.vcpu, satSub a.memoryMb b.memoryMb⟩

/-- Whether the footprint fits within `budget` in both dimensions. -/
def fitsWithin (a budget : JobSize) : Prop := a.vcpu ≤ budget.vcpu ∧ a.memoryMb ≤ budget.memoryMb

instance (a budget : JobSize) : Decidable (a.fitsWithin budget) := by
  unfold fitsWithin; infer_instance

/-- One dimension of a footprint, as an unbounded number. -/
def dim (s : JobSize) : Dim → ℕ
  | .vcpu => s.vcpu.toNat
  | .memory => s.memoryMb.toNat

theorem dim_le_maxNat (s : JobSize) (d : Dim) : s.dim d ≤ maxNat 32 := by
  cases d <;> exact toNat_le_maxNat _

@[simp] theorem dim_ZERO (d : Dim) : ZERO.dim d = 0 := by cases d <;> rfl

@[simp] theorem dim_saturatingAdd (a b : JobSize) (d : Dim) :
    (a.saturatingAdd b).dim d = min (a.dim d + b.dim d) (maxNat 32) := by
  cases d <;> exact toNat_satAdd _ _

@[simp] theorem dim_saturatingSub (a b : JobSize) (d : Dim) :
    (a.saturatingSub b).dim d = a.dim d - b.dim d := by
  cases d <;> exact toNat_satSub _ _

theorem fitsWithin_iff (a budget : JobSize) :
    a.fitsWithin budget ↔ ∀ d, a.dim d ≤ budget.dim d := by
  constructor
  · rintro ⟨hv, hm⟩ d
    cases d
    · exact hv
    · exact hm
  · intro h
    exact ⟨h .vcpu, h .memory⟩

/-- Two footprints with the same dimensions are the same. -/
theorem ext_dim {a b : JobSize} (h : ∀ d, a.dim d = b.dim d) : a = b := by
  obtain ⟨av, am⟩ := a
  obtain ⟨bv, bm⟩ := b
  have hv : av = bv := BitVec.eq_of_toNat_eq (h .vcpu)
  have hm : am = bm := BitVec.eq_of_toNat_eq (h .memory)
  rw [hv, hm]

instance : Std.Commutative saturatingAdd where
  comm a b := ext_dim fun d => by simp only [dim_saturatingAdd, Nat.add_comm]

instance : Std.Associative saturatingAdd where
  assoc a b c := ext_dim fun d => by simp only [dim_saturatingAdd]; omega

/-- A saturating fold of footprints is, in each dimension, the true sum clamped once. -/
theorem dim_fold_saturatingAdd (s : Multiset JobSize) (d : Dim) :
    (s.fold saturatingAdd ZERO).dim d = min (s.map fun x => x.dim d).sum (maxNat 32) := by
  induction s using Multiset.induction with
  | empty => simp
  | cons x xs ih =>
    simp only [Multiset.fold_cons_left, Multiset.map_cons, Multiset.sum_cons, dim_saturatingAdd, ih]
    omega

end JobSize

/-- Why `admitJob` refused a job. -/
inductive AdmitError
  | exceedsBudget
  | queueFull
  | duplicateJobId
deriving DecidableEq, Repr

/-- What `tryStart` did with an admitted job. -/
inductive StartOutcome
  | started
  | deferred
deriving DecidableEq, Repr

/-- One tracked job: its footprint, and whether it has been started. -/
structure Entry where
  size : JobSize
  running : Bool
deriving DecidableEq, Repr

/-- The gate: total budget, queue ceiling, tracked jobs. -/
structure Gate where
  budget : JobSize
  queueMax : U32
  jobs : Finmap fun _ : JobId => Entry
deriving DecidableEq

namespace Gate

def new (budget : JobSize) (queueMax : U32) : Gate := ⟨budget, queueMax, ∅⟩

/-- `u32::try_from(self.jobs.len()).unwrap_or(u32::MAX)`. -/
def depth (g : Gate) : U32 := clamp 32 g.jobs.keys.card

/-- Total footprint of every running job. -/
def used (g : Gate) : JobSize :=
  (((g.jobs.entries.map (·.2)).filter fun e => e.running = true).map (·.size)).fold
    JobSize.saturatingAdd JobSize.ZERO

def admitJob (g : Gate) (jobId : JobId) (size : JobSize) : Except AdmitError Gate :=
  if jobId ∈ g.jobs then .error .duplicateJobId
  else if ¬ size.fitsWithin g.budget then .error .exceedsBudget
  else if g.queueMax ≤ g.depth then .error .queueFull
  else .ok { g with jobs := g.jobs.insert jobId ⟨size, false⟩ }

/-- Startup adoption's one way in: ignores both ceilings. -/
def adoptRunning (g : Gate) (jobId : JobId) (size : JobSize) : Except AdmitError Gate :=
  if jobId ∈ g.jobs then .error .duplicateJobId
  else .ok { g with jobs := g.jobs.insert jobId ⟨size, true⟩ }

def tryStart (g : Gate) (jobId : JobId) : Option StartOutcome × Gate :=
  match g.jobs.lookup jobId with
  | none => (none, g)
  | some entry =>
    if entry.running then (some .started, g)
    else
      let remaining := g.budget.saturatingSub g.used
      if ¬ entry.size.fitsWithin remaining then (some .deferred, g)
      else
        (some .started,
          { g with jobs := g.jobs.modify jobId fun tracked => { tracked with running := true } })

def unstart (g : Gate) (jobId : JobId) : Bool × Gate :=
  match g.jobs.lookup jobId with
  | some _ =>
    (true, { g with jobs := g.jobs.modify jobId fun entry => { entry with running := false } })
  | none => (false, g)

def tracks (g : Gate) (jobId : JobId) : Bool := decide (jobId ∈ g.jobs)

def release (g : Gate) (jobId : JobId) : Option JobSize × Gate :=
  ((g.jobs.lookup jobId).map (·.size), { g with jobs := g.jobs.erase jobId })

/-- Job ids the gate believes are running.  The source returns them in the map's own
    unspecified order and its caller collects them into a set. -/
def runningJobIds (g : Gate) : Finset JobId :=
  g.jobs.keys.filter fun j => (g.jobs.lookup j).any (·.running)

/-! ### What the gate says about one job -/

/-- The job is tracked and marked running. -/
def isRunning (g : Gate) (j : JobId) : Bool := (g.jobs.lookup j).any (·.running)

@[simp] theorem mem_runningJobIds (g : Gate) (j : JobId) :
    j ∈ g.runningJobIds ↔ g.isRunning j = true := by
  rw [runningJobIds, Finset.mem_filter, isRunning, Finmap.mem_keys]
  constructor
  · exact fun h => h.2
  · intro h
    obtain ⟨e, he, -⟩ := (Option.any_eq_true _ _).mp h
    exact ⟨Finmap.mem_of_lookup_eq_some he, h⟩

@[simp] theorem tracks_iff (g : Gate) (j : JobId) : g.tracks j = true ↔ j ∈ g.jobs := by
  simp [tracks]

theorem toNat_depth (g : Gate) : g.depth.toNat = min g.jobs.keys.card (maxNat 32) := toNat_clamp _

end Gate

end GhRunner.Daemon
