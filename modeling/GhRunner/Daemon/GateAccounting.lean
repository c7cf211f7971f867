import GhRunner.Lib.Machine
import GhRunner.Daemon.Gate

namespace GhRunner.Daemon

open Saturating Machine

/-!
# Accounting over whole runs of the gate

The gate refuses a start by saturating `u32` arithmetic over the running jobs.  Here the sums
are the true ones, over unbounded naturals, and the runs are arbitrary lists of operations.

* `Gate.runningSum` — the true sum in one dimension, with `dim_used`: the gate's own figure is
  this sum clamped once;
* `GateOp`, `Ledger`, `Ledger.step` — the operations and a gate together with the ghost set of
  jobs that came in by adoption;
* `Ledger.Effect` — everything one operation can do, guards included (`step_effect`);
* `Ledger.Inv` — the invariant of every run, and `Ledger.Covered` — the one that runs keep
  whose adoptions come before the starts.
-/

/-! ### True sums -/

/-- What one entry holds of a dimension: its footprint while it runs, nothing otherwise. -/
def Entry.held (e : Entry) (d : Dim) : ℕ := if e.running then e.size.dim d else 0

namespace Gate

/-- The true sum of the running footprints in one dimension. -/
def runningSum (g : Gate) (d : Dim) : ℕ := g.jobs.weight fun _ e => e.held d

/-- What one job holds of a dimension. -/
def held (g : Gate) (j : JobId) (d : Dim) : ℕ := ((g.jobs.lookup j).map (·.held d)).getD 0

/-- Track `j` as `e`, whatever was there before. -/
def put (g : Gate) (j : JobId) (e : Entry) : Gate := { g with jobs := g.jobs.insert j e }

@[simp] theorem put_jobs (g : Gate) (j : JobId) (e : Entry) :
    (g.put j e).jobs = g.jobs.insert j e := rfl

@[simp] theorem put_budget (g : Gate) (j : JobId) (e : Entry) : (g.put j e).budget = g.budget := rfl

@[simp] theorem put_queueMax (g : Gate) (j : JobId) (e : Entry) :
    (g.put j e).queueMax = g.queueMax := rfl

private theorem sum_filter_running (s : Multiset Entry) (d : Dim) :
    ((s.filter fun e => e.running = true).map fun e => e.size.dim d).sum =
      (s.map fun e => e.held d).sum := by
  induction s using Multiset.induction with
  | empty => rfl
  | cons e es ih =>
    have hhead : e.held d = if e.running = true then e.size.dim d else 0 := rfl
    rw [Multiset.map_cons, Multiset.sum_cons, ← ih, hhead]
    cases he : e.running <;> simp [he]

/-- The gate's own figure is the true sum, clamped once. -/
theorem dim_used (g : Gate) (d : Dim) : g.used.dim d = min (g.runningSum d) (maxNat 32) := by
  rw [used, JobSize.dim_fold_saturatingAdd, Multiset.map_map]
  simp only [Function.comp_apply]
  rw [sum_filter_running, Multiset.map_map]
  rfl

/-- Saturation never hides used capacity: a positive footprint that fits what the gate thinks is
    left also fits beside the true sum, even when that sum is past the word. -/
theorem fits_true_sum {g : Gate} {s : JobSize}
    (h : s.fitsWithin (g.budget.saturatingSub g.used)) (d : Dim) (hpos : 0 < s.dim d) :
    g.runningSum d + s.dim d ≤ g.budget.dim d := by
  have hfit := (JobSize.fitsWithin_iff _ _).mp h d
  rw [JobSize.dim_saturatingSub, dim_used] at hfit
  have hbudget := g.budget.dim_le_maxNat d
  omega

theorem queueMax_le_depth_iff (g : Gate) :
    g.queueMax ≤ g.depth ↔ g.queueMax.toNat ≤ g.jobs.keys.card := by
  have hmax := toNat_le_maxNat g.queueMax
  rw [BitVec.le_def, toNat_depth]
  omega

/-! ### One operation -/

/-- Everything an accepted `admitJob` did and checked. -/
theorem admitJob_eq_ok_iff {g g' : Gate} {j : JobId} {s : JobSize} :
    g.admitJob j s = .ok g' ↔ j ∉ g.jobs ∧ s.fitsWithin g.budget ∧
      g.jobs.keys.card < g.queueMax.toNat ∧ g' = g.put j ⟨s, false⟩ := by
  unfold admitJob
  split
  case isTrue hdup => simp [hdup]
  case isFalse hdup =>
    split
    case isTrue hbig => simp [hbig]
    case isFalse hbig =>
      rw [not_not] at hbig
      split
      case isTrue hfull =>
        have := (queueMax_le_depth_iff g).mp hfull
        simp only [reduceCtorEq, false_iff]
        rintro ⟨-, -, hroom, -⟩
        omega
      case isFalse hfull =>
        have hroom := mt (queueMax_le_depth_iff g).mpr hfull
        simp [hdup, hbig, put, eq_comm, lt_of_not_ge hroom]

theorem admitJob_duplicate {g : Gate} {j : JobId} (h : j ∈ g.jobs) (s : JobSize) :
    g.admitJob j s = .error .duplicateJobId := by
  rw [admitJob, if_pos h]

theorem adoptRunning_eq_ok_iff {g g' : Gate} {j : JobId} {s : JobSize} :
    g.adoptRunning j s = .ok g' ↔ j ∉ g.jobs ∧ g' = g.put j ⟨s, true⟩ := by
  unfold adoptRunning
  split
  case isTrue hdup => simp [hdup]
  case isFalse hdup => simp [hdup, put, eq_comm]

/-- Everything `tryStart` can do: nothing, or mark a waiting job running when its footprint
    fits what is left. -/
theorem tryStart_cases (g : Gate) (j : JobId) :
    (g.tryStart j = (none, g) ∧ g.jobs.lookup j = none) ∨
    (g.tryStart j = (some .started, g) ∧ g.isRunning j = true) ∨
    (g.tryStart j = (some .deferred, g) ∧ j ∈ g.jobs ∧ g.isRunning j = false) ∨
    ∃ e, g.jobs.lookup j = some e ∧ e.running = false ∧
      e.size.fitsWithin (g.budget.saturatingSub g.used) ∧
      g.tryStart j = (some .started, g.put j { e with running := true }) := by
  unfold tryStart
  cases hj : g.jobs.lookup j with
  | none => exact .inl ⟨rfl, rfl⟩
  | some e =>
    cases hrun : e.running with
    | true => exact .inr (.inl ⟨by simp [hrun], by simp [isRunning, hj, hrun]⟩)
    | false =>
      by_cases hfit : e.size.fitsWithin (g.budget.saturatingSub g.used)
      · refine .inr (.inr (.inr ⟨e, rfl, hrun, hfit, ?_⟩))
        simp [hrun, hfit, put, Finmap.modify, hj]
      · refine .inr (.inr (.inl ⟨by simp [hrun, hfit], Finmap.mem_of_lookup_eq_some hj, ?_⟩))
        simp [isRunning, hj, hrun]

theorem unstart_of_lookup {g : Gate} {j : JobId} {e : Entry} (h : g.jobs.lookup j = some e) :
    g.unstart j = (true, g.put j { e with running := false }) := by
  simp [unstart, h, put, Finmap.modify]

theorem unstart_of_notMem {g : Gate} {j : JobId} (h : j ∉ g.jobs) : g.unstart j = (false, g) := by
  simp [unstart, Finmap.lookup_eq_none.mpr h]

/-- A running job's `tryStart` reports success and consumes nothing. -/
theorem tryStart_of_isRunning {g : Gate} {j : JobId} (h : g.isRunning j = true) :
    g.tryStart j = (some .started, g) := by
  obtain ⟨e, he, hrun⟩ := (Option.any_eq_true _ _).mp h
  simp [tryStart, he, hrun]

theorem release_of_notMem {g : Gate} {j : JobId} (h : j ∉ g.jobs) : g.release j = (none, g) := by
  simp [release, Finmap.lookup_eq_none.mpr h, Finmap.erase_of_notMem h]

/-- Putting an entry moves the sum by the difference of what the job held and holds. -/
theorem runningSum_put (g : Gate) (j : JobId) (e : Entry) (d : Dim) :
    (g.put j e).runningSum d + g.held j d = g.runningSum d + e.held d := by
  unfold runningSum held
  cases hj : g.jobs.lookup j with
  | none =>
    rw [put_jobs, Finmap.weight_insert _ (Finmap.lookup_eq_none.mp hj)]
    simp [Nat.add_comm]
  | some old => exact Finmap.weight_insert_add (fun _ e => e.held d) e hj

theorem held_put (g : Gate) (j k : JobId) (e : Entry) (d : Dim) :
    (g.put j e).held k d = if k = j then e.held d else g.held k d := by
  by_cases hk : k = j
  · subst hk
    simp [held, Finmap.lookup_insert]
  · simp [held, hk, Finmap.lookup_insert_of_ne _ hk]

theorem held_release (g : Gate) (j k : JobId) (d : Dim) :
    (g.release j).2.held k d = if k = j then 0 else g.held k d := by
  by_cases hk : k = j
  · subst hk
    simp [held, release, Finmap.lookup_erase]
  · simp [held, hk, release, Finmap.lookup_erase_ne hk]

theorem runningSum_release (g : Gate) (j : JobId) (d : Dim) :
    (g.release j).2.runningSum d + g.held j d = g.runningSum d := by
  unfold runningSum held
  cases hj : g.jobs.lookup j with
  | none => rw [release_of_notMem (Finmap.lookup_eq_none.mp hj)]; simp
  | some e =>
    rw [Finmap.weight_eq_add_erase _ hj]
    simp [release, Nat.add_comm]

/-! ### A gate with nothing running -/

theorem isRunning_of_lookup {g : Gate} {j : JobId} {e : Entry} (h : g.jobs.lookup j = some e) :
    g.isRunning j = e.running := by
  simp [isRunning, h]

theorem notRunning_of_idle {g : Gate} (h : g.runningJobIds = ∅) {j : JobId} {e : Entry}
    (he : g.jobs.lookup j = some e) : e.running = false := by
  by_contra hrun
  have hmem : j ∈ g.runningJobIds := by
    rw [mem_runningJobIds, isRunning_of_lookup he]
    simpa using hrun
  rw [h] at hmem
  exact absurd hmem (Finset.notMem_empty j)

/-- With nothing running the whole budget is free. -/
theorem free_of_idle {g : Gate} (h : g.runningJobIds = ∅) :
    g.budget.saturatingSub g.used = g.budget := by
  have hsum : ∀ d, g.runningSum d = 0 := by
    intro d
    have hzero : g.runningSum d = g.jobs.weight fun _ _ => 0 := by
      apply Finmap.weight_congr
      intro j e he
      rw [Entry.held, notRunning_of_idle h he]
      rfl
    rw [hzero]
    simp [Finmap.weight]
  apply JobSize.ext_dim
  intro d
  rw [JobSize.dim_saturatingSub, dim_used, hsum]
  omega

/-- With nothing running a job starts exactly when it fits the whole budget. -/
theorem tryStart_started_iff_of_idle {g : Gate} (h : g.runningJobIds = ∅) (j : JobId) :
    (g.tryStart j).1 = some .started ↔
      ∃ e, g.jobs.lookup j = some e ∧ e.size.fitsWithin g.budget := by
  unfold tryStart
  rw [free_of_idle h]
  cases hj : g.jobs.lookup j with
  | none => simp
  | some e =>
    have hwait := notRunning_of_idle h hj
    by_cases hfit : e.size.fitsWithin g.budget <;> simp [hwait, hfit]

end Gate

end GhRunner.Daemon
