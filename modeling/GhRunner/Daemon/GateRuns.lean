import GhRunner.Daemon.GateAccounting

namespace GhRunner.Daemon

open Saturating Machine

/-!
# Runs of the gate

Arbitrary sequences of gate operations, with the ghost set of jobs that came in by adoption.

* `GateOp`, `Gate.apply` — one operation of the gate as an event;
* `Ledger`, `Ledger.step` — the gate and the adopted jobs it still tracks;
* `Ledger.Effect` — everything one operation can do, guards included (`step_effect`);
* `Ledger.Inv` — what every run keeps: admitted jobs never overrun the budget or the queue;
* `Ledger.Covered` — what a run keeps whose adoptions come before the starts: a dimension is
  over budget only while adoption alone accounts for it.
-/

/-- One operation of the gate. -/
inductive GateOp
  | admitJob (j : JobId) (size : JobSize)
  | adoptRunning (j : JobId) (size : JobSize)
  | tryStart (j : JobId)
  | unstart (j : JobId)
  | release (j : JobId)
deriving DecidableEq, Repr

/-- The gate after an operation; a refused operation leaves it as it is. -/
def Gate.apply (g : Gate) : GateOp → Gate
  | .admitJob j size => match g.admitJob j size with
    | .ok g' => g'
    | .error _ => g
  | .adoptRunning j size => match g.adoptRunning j size with
    | .ok g' => g'
    | .error _ => g
  | .tryStart j => (g.tryStart j).2
  | .unstart j => (g.unstart j).2
  | .release j => (g.release j).2

/-- A gate with the jobs it tracks that were adopted rather than admitted. -/
structure Ledger where
  gate : Gate
  adopted : Finset JobId
deriving DecidableEq

namespace Ledger

def new (budget : JobSize) (queueMax : U32) : Ledger := ⟨Gate.new budget queueMax, ∅⟩

/-- The operation on the gate; the ghost set follows adoption and release. -/
def step (l : Ledger) (op : GateOp) : Ledger where
  gate := l.gate.apply op
  adopted := match op with
    | .adoptRunning j _ => if j ∈ l.gate.jobs then l.adopted else insert j l.adopted
    | .release j => l.adopted.erase j
    | _ => l.adopted

/-- The footprints of the adopted jobs still tracked, running or not. -/
def adoptedSum (l : Ledger) (d : Dim) : ℕ :=
  l.gate.jobs.weight fun j e => if j ∈ l.adopted then e.size.dim d else 0

/-- What the jobs that came in by `admitJob` hold. -/
def admittedSum (l : Ledger) (d : Dim) : ℕ :=
  l.gate.jobs.weight fun j e => if j ∈ l.adopted then 0 else e.held d

/-- Everything one operation can do to the ledger. -/
inductive Effect (l : Ledger) : GateOp → Ledger → Prop
  | unchanged (op : GateOp) : Effect l op l
  | admitted (j : JobId) (size : JobSize) (hnew : j ∉ l.gate.jobs)
      (hroom : l.gate.jobs.keys.card < l.gate.queueMax.toNat) :
      Effect l (.admitJob j size) ⟨l.gate.put j ⟨size, false⟩, l.adopted⟩
  | adopted (j : JobId) (size : JobSize) (hnew : j ∉ l.gate.jobs) :
      Effect l (.adoptRunning j size) ⟨l.gate.put j ⟨size, true⟩, insert j l.adopted⟩
  | started (j : JobId) (e : Entry) (hlook : l.gate.jobs.lookup j = some e)
      (hwait : e.running = false)
      (hfit : ∀ d, 0 < e.size.dim d → l.gate.runningSum d + e.size.dim d ≤ l.gate.budget.dim d) :
      Effect l (.tryStart j) ⟨l.gate.put j { e with running := true }, l.adopted⟩
  | unstarted (j : JobId) (e : Entry) (hlook : l.gate.jobs.lookup j = some e) :
      Effect l (.unstart j) ⟨l.gate.put j { e with running := false }, l.adopted⟩
  | released (j : JobId) :
      Effect l (.release j) ⟨{ l.gate with jobs := l.gate.jobs.erase j }, l.adopted.erase j⟩

theorem step_effect (l : Ledger) (op : GateOp) : l.Effect op (l.step op) := by
  cases op with
  | admitJob j size =>
    cases h : l.gate.admitJob j size with
    | error err =>
      have hs : l.step (.admitJob j size) = l := by simp [step, Gate.apply, h]
      rw [hs]
      exact .unchanged _
    | ok g' =>
      obtain ⟨hnew, -, hroom, rfl⟩ := Gate.admitJob_eq_ok_iff.mp h
      have hs : l.step (.admitJob j size) = ⟨l.gate.put j ⟨size, false⟩, l.adopted⟩ := by
        simp [step, Gate.apply, h]
      rw [hs]
      exact .admitted j size hnew hroom
  | adoptRunning j size =>
    by_cases hdup : j ∈ l.gate.jobs
    · have hs : l.step (.adoptRunning j size) = l := by
        simp [step, Gate.apply, Gate.adoptRunning, hdup]
      rw [hs]
      exact .unchanged _
    · have hok := Gate.adoptRunning_eq_ok_iff (s := size).mpr ⟨hdup, rfl⟩
      have hs : l.step (.adoptRunning j size) =
          ⟨l.gate.put j ⟨size, true⟩, insert j l.adopted⟩ := by
        simp [step, Gate.apply, hok, hdup]
      rw [hs]
      exact .adopted j size hdup
  | tryStart j =>
    have hs : l.step (.tryStart j) = ⟨(l.gate.tryStart j).2, l.adopted⟩ := rfl
    rw [hs]
    rcases l.gate.tryStart_cases j with ⟨h, -⟩ | ⟨h, -⟩ | ⟨h, -⟩ | ⟨e, hlook, hwait, hfit, h⟩
    · rw [h]
      exact .unchanged _
    · rw [h]
      exact .unchanged _
    · rw [h]
      exact .unchanged _
    · rw [h]
      exact .started j e hlook hwait (Gate.fits_true_sum hfit)
  | unstart j =>
    have hs : l.step (.unstart j) = ⟨(l.gate.unstart j).2, l.adopted⟩ := rfl
    rw [hs]
    by_cases hj : j ∈ l.gate.jobs
    · obtain ⟨e, he⟩ := Finmap.mem_iff.mp hj
      rw [Gate.unstart_of_lookup he]
      exact .unstarted j e he
    · rw [Gate.unstart_of_notMem hj]
      exact .unchanged _
  | release j => exact .released j

theorem Effect.budget_eq {l l' : Ledger} {op : GateOp} (h : l.Effect op l') :
    l'.gate.budget = l.gate.budget := by
  cases h <;> rfl

theorem Effect.queueMax_eq {l l' : Ledger} {op : GateOp} (h : l.Effect op l') :
    l'.gate.queueMax = l.gate.queueMax := by
  cases h <;> rfl

/-! ### What every run keeps -/

/-- The invariant of every run: the adopted jobs are tracked, and the jobs that came in by
    `admitJob` overrun neither the budget nor the queue. -/
structure Inv (l : Ledger) : Prop where
  tracked : ∀ j ∈ l.adopted, j ∈ l.gate.jobs
  admitted_le : ∀ d, l.admittedSum d ≤ l.gate.budget.dim d
  queue_le : (l.gate.jobs.keys \ l.adopted).card ≤ l.gate.queueMax.toNat

theorem admittedSum_le_runningSum (l : Ledger) (d : Dim) :
    l.admittedSum d ≤ l.gate.runningSum d := by
  apply Finmap.weight_mono
  intro j e _
  split
  · exact Nat.zero_le _
  · exact le_rfl

/-- The running jobs are admitted ones and adopted ones. -/
theorem runningSum_le (l : Ledger) (d : Dim) :
    l.gate.runningSum d ≤ l.admittedSum d + l.adoptedSum d := by
  unfold Gate.runningSum admittedSum adoptedSum
  rw [← Finmap.weight_add]
  apply Finmap.weight_mono
  intro j e _
  by_cases hj : j ∈ l.adopted
  · simp only [hj, if_true, Entry.held]
    split <;> omega
  · simp [hj]

/-- What one operation does to the two sums of a dimension: it raises neither, or it adopts and
    raises only the running sum by the adopted footprint, or it starts a job and stays within
    the budget. -/
theorem Effect.sums {l l' : Ledger} {op : GateOp} (h : l.Effect op l') (d : Dim) :
    (l'.gate.runningSum d ≤ l.gate.runningSum d ∧ l'.admittedSum d ≤ l.admittedSum d) ∨
    (∃ j size, op = .adoptRunning j size ∧ j ∉ l.gate.jobs ∧
      l'.gate.runningSum d = l.gate.runningSum d + size.dim d ∧
      l'.admittedSum d = l.admittedSum d) ∨
    l'.gate.runningSum d ≤ l.gate.budget.dim d := by
  cases h with
  | unchanged => exact .inl ⟨le_rfl, le_rfl⟩
  | admitted j size hnew _ =>
    left
    unfold Gate.runningSum admittedSum
    rw [Gate.put_jobs, Finmap.weight_insert _ hnew, Finmap.weight_insert _ hnew]
    simp [Entry.held]
  | adopted j size hnew =>
    right; left
    refine ⟨j, size, rfl, hnew, ?_, ?_⟩
    · unfold Gate.runningSum
      rw [Gate.put_jobs, Finmap.weight_insert _ hnew]
      exact Nat.add_comm _ _
    · unfold admittedSum
      rw [Gate.put_jobs, Finmap.weight_insert _ hnew, if_pos (Finset.mem_insert_self j _),
        Nat.zero_add]
      apply Finmap.weight_congr
      intro k e hk
      have hne : k ≠ j := fun hkj => hnew (hkj ▸ Finmap.mem_of_lookup_eq_some hk)
      simp [hne]
  | started j e hlook hwait hfit =>
    have hheld : Entry.held { e with running := true } d = e.size.dim d := rfl
    have hmove := l.gate.runningSum_put j { e with running := true } d
    rcases Nat.eq_zero_or_pos (e.size.dim d) with hzero | hpos
    · left
      constructor
      · show (l.gate.put j { e with running := true }).runningSum d ≤ _
        omega
      · have hmove := Finmap.weight_insert_add (fun k e => if k ∈ l.adopted then 0 else e.held d)
          { e with running := true } hlook
        simp only [hheld, hzero, ite_self] at hmove
        exact (Nat.le_add_right _ _).trans hmove.le
    · right; right
      have := hfit d hpos
      show (l.gate.put j { e with running := true }).runningSum d ≤ _
      omega
  | unstarted j e hlook =>
    left
    have hheld : Entry.held { e with running := false } d = 0 := rfl
    constructor
    · have hmove := l.gate.runningSum_put j { e with running := false } d
      show (l.gate.put j { e with running := false }).runningSum d ≤ _
      omega
    · have hmove := Finmap.weight_insert_add (fun k e => if k ∈ l.adopted then 0 else e.held d)
        { e with running := false } hlook
      simp only [hheld, ite_self] at hmove
      exact (Nat.le_add_right _ _).trans hmove.le
  | released j =>
    left
    refine ⟨Finmap.weight_erase_le _ j _, ?_⟩
    refine le_trans (le_of_eq ?_) (Finmap.weight_erase_le _ j _)
    apply Finmap.weight_congr
    intro k e hk
    have hne : k ≠ j := by
      rintro rfl
      rw [Finmap.lookup_erase] at hk
      cases hk
    simp [hne]

theorem Effect.keeps_tracked {l l' : Ledger} {op : GateOp} (h : l.Effect op l')
    (hinv : ∀ j ∈ l.adopted, j ∈ l.gate.jobs) : ∀ j ∈ l'.adopted, j ∈ l'.gate.jobs := by
  intro k hk
  cases h with
  | unchanged => exact hinv k hk
  | admitted j size hnew _ => exact Finmap.mem_insert.mpr (.inr (hinv k hk))
  | adopted j size hnew =>
    rcases Finset.mem_insert.mp hk with rfl | hk
    · exact Finmap.mem_insert.mpr (.inl rfl)
    · exact Finmap.mem_insert.mpr (.inr (hinv k hk))
  | started j e hlook hwait hfit => exact Finmap.mem_insert.mpr (.inr (hinv k hk))
  | unstarted j e hlook => exact Finmap.mem_insert.mpr (.inr (hinv k hk))
  | released j =>
    obtain ⟨hne, hk⟩ := Finset.mem_erase.mp hk
    exact Finmap.mem_erase.mpr ⟨hne, hinv k hk⟩

/-- Only an accepted `admitJob` adds a tracked job that is not adopted, and it found room. -/
theorem Effect.keeps_queue {l l' : Ledger} {op : GateOp} (h : l.Effect op l')
    (hinv : (l.gate.jobs.keys \ l.adopted).card ≤ l.gate.queueMax.toNat) :
    (l'.gate.jobs.keys \ l'.adopted).card ≤ l'.gate.queueMax.toNat := by
  cases h with
  | unchanged => exact hinv
  | admitted j size hnew hroom =>
    have hsub : ((l.gate.put j ⟨size, false⟩).jobs.keys \ l.adopted) ⊆
        insert j l.gate.jobs.keys := by
      intro k hk
      have hk := (Finset.mem_sdiff.mp hk).1
      rw [Finmap.mem_keys, Gate.put_jobs, Finmap.mem_insert] at hk
      rwa [Finset.mem_insert, Finmap.mem_keys]
    have hcard := (Finset.card_le_card hsub).trans (Finset.card_insert_le _ _)
    exact hcard.trans hroom
  | adopted j size hnew =>
    refine (Finset.card_le_card ?_).trans hinv
    intro k hk
    simp only [Finset.mem_sdiff, Finmap.mem_keys, Gate.put_jobs, Finmap.mem_insert,
      Finset.mem_insert, not_or] at hk ⊢
    exact ⟨hk.1.resolve_left hk.2.1, hk.2.2⟩
  | started j e hlook hwait hfit =>
    refine (Finset.card_le_card ?_).trans hinv
    intro k hk
    simp only [Finset.mem_sdiff, Finmap.mem_keys, Gate.put_jobs, Finmap.mem_insert] at hk ⊢
    exact ⟨hk.1.elim (fun h => h ▸ Finmap.mem_of_lookup_eq_some hlook) id, hk.2⟩
  | unstarted j e hlook =>
    refine (Finset.card_le_card ?_).trans hinv
    intro k hk
    simp only [Finset.mem_sdiff, Finmap.mem_keys, Gate.put_jobs, Finmap.mem_insert] at hk ⊢
    exact ⟨hk.1.elim (fun h => h ▸ Finmap.mem_of_lookup_eq_some hlook) id, hk.2⟩
  | released j =>
    refine (Finset.card_le_card ?_).trans hinv
    intro k hk
    simp only [Finset.mem_sdiff, Finmap.mem_keys, Finmap.mem_erase, Finset.mem_erase, not_and]
      at hk ⊢
    exact ⟨hk.1.2, hk.2 hk.1.1⟩

theorem Inv.step {l : Ledger} (h : l.Inv) (op : GateOp) : (l.step op).Inv where
  tracked := (l.step_effect op).keeps_tracked h.tracked
  admitted_le d := by
    have hbudget := (l.step_effect op).budget_eq
    rw [hbudget]
    rcases (l.step_effect op).sums d with ⟨-, hle⟩ | ⟨_, _, -, -, -, heq⟩ | hle
    · exact hle.trans (h.admitted_le d)
    · exact heq.trans_le (h.admitted_le d)
    · exact ((l.step op).admittedSum_le_runningSum d).trans hle
  queue_le := (l.step_effect op).keeps_queue h.queue_le

theorem Inv.new (budget : JobSize) (queueMax : U32) : (Ledger.new budget queueMax).Inv where
  tracked j hj := absurd hj (Finset.notMem_empty j)
  admitted_le _ := Nat.zero_le _
  queue_le := Nat.zero_le _

theorem Inv.run {l : Ledger} (h : l.Inv) (ops : List GateOp) : (run Ledger.step l ops).Inv :=
  run_invariant_of_step (fun _ op hl => hl.step op) ops h

/-! ### Adoption before the starts -/

/-- An adoption that adds a job finds, in each dimension, either no admitted job holding any of
    it or room beside the running sum.  Startup adoption is the first case: it runs before
    anything has been admitted. -/
def AdoptsInOrder (l : Ledger) : GateOp → Prop
  | .adoptRunning j size => j ∉ l.gate.jobs →
      ∀ d, l.admittedSum d = 0 ∨ l.gate.runningSum d + size.dim d ≤ l.gate.budget.dim d
  | _ => True

/-- A dimension is over budget only while no admitted job holds any of it. -/
def Covered (l : Ledger) : Prop :=
  ∀ d, l.gate.runningSum d ≤ l.gate.budget.dim d ∨ l.admittedSum d = 0

theorem Covered.step {l : Ledger} (h : l.Covered) (op : GateOp) (hop : l.AdoptsInOrder op) :
    (l.step op).Covered := by
  intro d
  rw [(l.step_effect op).budget_eq]
  rcases (l.step_effect op).sums d with ⟨hrun, hadm⟩ | ⟨j, size, rfl, hnew, hrun, hadm⟩ | hle
  · rcases h d with hle | hzero
    · exact .inl (hrun.trans hle)
    · exact .inr (Nat.le_zero.mp (hzero ▸ hadm))
  · rcases hop hnew d with hzero | hroom
    · exact .inr (hadm.trans hzero)
    · exact .inl (hrun.trans_le hroom)
  · exact .inl hle

theorem Covered.run {l : Ledger} (h : l.Covered) {ops : List GateOp}
    (hops : Throughout Ledger.step AdoptsInOrder l ops) : (run Ledger.step l ops).Covered :=
  run_invariant (fun _ op hl hop => hl.step op hop) hops h

theorem Covered.new (budget : JobSize) (queueMax : U32) : (Ledger.new budget queueMax).Covered :=
  fun _ => .inl (Nat.zero_le _)

/-- While the adopted footprints fit the budget, so does everything that runs. -/
theorem Covered.runningSum_le {l : Ledger} (h : l.Covered) {d : Dim}
    (hadopted : l.adoptedSum d ≤ l.gate.budget.dim d) :
    l.gate.runningSum d ≤ l.gate.budget.dim d := by
  rcases h d with hle | hzero
  · exact hle
  · have := l.runningSum_le d
    omega

/-! ### What persists until it is undone -/

theorem step_tracked {l : Ledger} {j : JobId} {op : GateOp} (h : j ∈ l.gate.jobs)
    (hop : op ≠ .release j) : j ∈ (l.step op).gate.jobs := by
  have heff := l.step_effect op
  generalize l.step op = l' at heff
  cases heff with
  | unchanged => exact h
  | admitted | adopted | started | unstarted => exact Finmap.mem_insert.mpr (.inr h)
  | released k => exact Finmap.mem_erase.mpr ⟨fun hjk => hop (hjk ▸ rfl), h⟩

theorem step_isRunning {l : Ledger} {j : JobId} {op : GateOp} (h : l.gate.isRunning j = true)
    (hop : op ≠ .release j ∧ op ≠ .unstart j) : (l.step op).gate.isRunning j = true := by
  have hmem : j ∈ l.gate.jobs := by
    obtain ⟨e, he, -⟩ := (Option.any_eq_true _ _).mp h
    exact Finmap.mem_of_lookup_eq_some he
  have heff := l.step_effect op
  generalize l.step op = l' at heff
  unfold Gate.isRunning at h ⊢
  cases heff with
  | unchanged => exact h
  | admitted k size hnew _ =>
    have hne : j ≠ k := fun hjk => hnew (hjk ▸ hmem)
    rwa [Gate.put_jobs, Finmap.lookup_insert_of_ne _ hne]
  | adopted k size hnew =>
    have hne : j ≠ k := fun hjk => hnew (hjk ▸ hmem)
    rwa [Gate.put_jobs, Finmap.lookup_insert_of_ne _ hne]
  | started k e hlook hwait hfit =>
    by_cases hjk : j = k
    · subst hjk
      rw [Gate.put_jobs, Finmap.lookup_insert]
      rfl
    · rwa [Gate.put_jobs, Finmap.lookup_insert_of_ne _ hjk]
  | unstarted k e hlook =>
    have hne : j ≠ k := fun hjk => hop.2 (hjk ▸ rfl)
    rwa [Gate.put_jobs, Finmap.lookup_insert_of_ne _ hne]
  | released k =>
    have hne : j ≠ k := fun hjk => hop.1 (hjk ▸ rfl)
    rwa [Finmap.lookup_erase_ne hne]

theorem step_untracked {l : Ledger} {j : JobId} {op : GateOp} (h : j ∉ l.gate.jobs)
    (hop : ∀ size, op ≠ .admitJob j size ∧ op ≠ .adoptRunning j size) :
    j ∉ (l.step op).gate.jobs := by
  have heff := l.step_effect op
  generalize l.step op = l' at heff
  cases heff with
  | unchanged => exact h
  | admitted k size _ _ =>
    exact fun hj => (Finmap.mem_insert.mp hj).elim (fun hjk => (hop size).1 (hjk ▸ rfl)) h
  | adopted k size _ =>
    exact fun hj => (Finmap.mem_insert.mp hj).elim (fun hjk => (hop size).2 (hjk ▸ rfl)) h
  | started k e hlook _ _ =>
    exact fun hj => (Finmap.mem_insert.mp hj).elim
      (fun hjk => h (hjk ▸ Finmap.mem_of_lookup_eq_some hlook)) h
  | unstarted k e hlook =>
    exact fun hj => (Finmap.mem_insert.mp hj).elim
      (fun hjk => h (hjk ▸ Finmap.mem_of_lookup_eq_some hlook)) h
  | released k => exact fun hj => h (Finmap.mem_erase.mp hj).2

/-! ### At most once -/

/-- Admission holds no budget, and once a job is tracked every further `admitJob` of its id is
    refused until a `release` of it. -/
def AdmitsOnce (l : Ledger) : Prop :=
  ∀ j size,
    (∀ d, (l.step (.admitJob j size)).gate.runningSum d = l.gate.runningSum d) ∧
    (j ∈ (l.step (.admitJob j size)).gate.jobs →
      ∀ mid : List GateOp, (∀ op ∈ mid, op ≠ .release j) → ∀ size',
        (run step (l.step (.admitJob j size)) mid).gate.admitJob j size' = .error .duplicateJobId)

/-- A start moves what its job holds, and only that; once it reports success, every further
    `tryStart` of the job changes nothing until an `unstart` or a `release` of it. -/
def StartsOnce (l : Ledger) : Prop :=
  ∀ j,
    (∀ k d, k ≠ j → (l.gate.tryStart j).2.held k d = l.gate.held k d) ∧
    (∀ d, (l.gate.tryStart j).2.runningSum d + l.gate.held j d =
      l.gate.runningSum d + (l.gate.tryStart j).2.held j d) ∧
    ((l.gate.tryStart j).1 = some .started →
      ∀ mid : List GateOp, (∀ op ∈ mid, op ≠ .release j ∧ op ≠ .unstart j) →
        (run step (l.step (.tryStart j)) mid).gate.tryStart j =
          (some .started, (run step (l.step (.tryStart j)) mid).gate))

/-- A release gives back what its job holds, and only that; every further `release` of the id
    reports nothing and changes nothing until the id is admitted or adopted again. -/
def ReleasesOnce (l : Ledger) : Prop :=
  ∀ j,
    (∀ k d, k ≠ j → (l.gate.release j).2.held k d = l.gate.held k d) ∧
    (∀ d, (l.gate.release j).2.runningSum d + l.gate.held j d = l.gate.runningSum d) ∧
    ∀ mid : List GateOp,
      (∀ op ∈ mid, ∀ size, op ≠ .admitJob j size ∧ op ≠ .adoptRunning j size) →
        (run step (l.step (.release j)) mid).gate.release j =
          (none, (run step (l.step (.release j)) mid).gate)

theorem admitsOnce (l : Ledger) : l.AdmitsOnce := by
  intro j size
  refine ⟨fun d => ?_, fun hj mid hmid size' => ?_⟩
  · have heff := l.step_effect (.admitJob j size)
    generalize l.step (.admitJob j size) = l' at heff
    cases heff with
    | unchanged => rfl
    | admitted _ _ hnew _ =>
      unfold Gate.runningSum
      rw [Gate.put_jobs, Finmap.weight_insert _ hnew]
      exact Nat.zero_add _
  · apply Gate.admitJob_duplicate
    have hmid := throughout_of_forall step hmid (l.step (.admitJob j size))
    refine run_invariant (I := fun l : Ledger => j ∈ l.gate.jobs) ?_ hmid hj
    exact fun _ _ h hop => step_tracked h hop

theorem startsOnce (l : Ledger) : l.StartsOnce := by
  intro j
  have hcases := l.gate.tryStart_cases j
  refine ⟨fun k d hk => ?_, fun d => ?_, fun hstarted mid hmid => ?_⟩
  · rcases hcases with ⟨h, -⟩ | ⟨h, -⟩ | ⟨h, -⟩ | ⟨e, -, -, -, h⟩
    · rw [h]
    · rw [h]
    · rw [h]
    · rw [h, Gate.held_put, if_neg hk]
  · rcases hcases with ⟨h, -⟩ | ⟨h, -⟩ | ⟨h, -⟩ | ⟨e, -, -, -, h⟩
    · rw [h]
    · rw [h]
    · rw [h]
    · rw [h, Gate.runningSum_put, Gate.held_put, if_pos rfl]
  · have hrun : (l.step (.tryStart j)).gate.isRunning j = true := by
      show (l.gate.tryStart j).2.isRunning j = true
      rcases hcases with ⟨h, -⟩ | ⟨h, hrun⟩ | ⟨h, -⟩ | ⟨e, -, -, -, h⟩
      · rw [h] at hstarted
        cases hstarted
      · rwa [h]
      · rw [h] at hstarted
        cases hstarted
      · rw [h]
        simp [Gate.isRunning, Finmap.lookup_insert]
    apply Gate.tryStart_of_isRunning
    have hmid := throughout_of_forall step hmid (l.step (.tryStart j))
    refine run_invariant (I := fun l : Ledger => l.gate.isRunning j = true) ?_ hmid hrun
    exact fun _ _ h hop => step_isRunning h hop

theorem releasesOnce (l : Ledger) : l.ReleasesOnce := by
  intro j
  refine ⟨fun k d hk => ?_, fun d => l.gate.runningSum_release j d, fun mid hmid => ?_⟩
  · rw [Gate.held_release, if_neg hk]
  · apply Gate.release_of_notMem
    have hgone : j ∉ (l.step (.release j)).gate.jobs := Finmap.notMem_erase_self
    have hmid := throughout_of_forall step hmid (l.step (.release j))
    refine run_invariant (I := fun l : Ledger => j ∉ l.gate.jobs) ?_ hmid hgone
    exact fun _ _ h hop => step_untracked h hop

/-- No start overruns the budget: a `tryStart` that newly starts a job found its footprint
    beside the true running sum, in every dimension the job needs at all. -/
def StartsWithin (l : Ledger) : Prop :=
  ∀ j e, l.gate.jobs.lookup j = some e → e.running = false →
    (l.gate.tryStart j).2.isRunning j = true →
    ∀ d, 0 < e.size.dim d → l.gate.runningSum d + e.size.dim d ≤ l.gate.budget.dim d

theorem startsWithin (l : Ledger) : l.StartsWithin := by
  intro j e hlook hwait hrun d hpos
  have hidle : l.gate.isRunning j = false := by simp [Gate.isRunning, hlook, hwait]
  rcases l.gate.tryStart_cases j with ⟨h, -⟩ | ⟨h, -⟩ | ⟨h, -⟩ | ⟨e', hlook', -, hfit, -⟩
  · rw [h, hidle] at hrun
    cases hrun
  · rw [h, hidle] at hrun
    cases hrun
  · rw [h, hidle] at hrun
    cases hrun
  · obtain rfl : e = e' := Option.some.inj (hlook.symm.trans hlook')
    exact Gate.fits_true_sum hfit d hpos

/-! ### The whole run -/

@[simp] theorem run_budget (l : Ledger) (ops : List GateOp) :
    (run step l ops).gate.budget = l.gate.budget :=
  run_frame (f := fun l : Ledger => l.gate.budget) (fun l op => (l.step_effect op).budget_eq) l ops

@[simp] theorem run_queueMax (l : Ledger) (ops : List GateOp) :
    (run step l ops).gate.queueMax = l.gate.queueMax :=
  run_frame (f := fun l : Ledger => l.gate.queueMax)
    (fun l op => (l.step_effect op).queueMax_eq) l ops

/-- **Accounting is safe over whole runs.**  After any operations on a fresh gate: the admitted
    running jobs fit the budget and everything that runs fits the budget and the adopted
    footprints together; where adoptions came in order and the adopted footprints fit the
    budget, so does everything that runs; no start overruns; only adopted jobs exceed the queue
    ceiling; and a job's footprint is taken and given back at most once. -/
theorem gate_runs_safe (budget : JobSize) (queueMax : U32) (ops : List GateOp) :
    let l := run step (new budget queueMax) ops
    (∀ d, l.admittedSum d ≤ budget.dim d) ∧
    (∀ d, l.gate.runningSum d ≤ budget.dim d + l.adoptedSum d) ∧
    (Throughout step AdoptsInOrder (new budget queueMax) ops →
      ∀ d, l.adoptedSum d ≤ budget.dim d → l.gate.runningSum d ≤ budget.dim d) ∧
    l.StartsWithin ∧
    (l.gate.jobs.keys \ l.adopted).card ≤ queueMax.toNat ∧
    l.AdmitsOnce ∧ l.StartsOnce ∧ l.ReleasesOnce := by
  intro l
  have hinv : l.Inv := (Inv.new budget queueMax).run ops
  have hbudget : l.gate.budget = budget := run_budget _ ops
  have hqueue : l.gate.queueMax = queueMax := run_queueMax _ ops
  have hadmitted : ∀ d, l.admittedSum d ≤ budget.dim d := hbudget ▸ hinv.admitted_le
  refine ⟨hadmitted, fun d => ?_, fun hops d hle => ?_, l.startsWithin,
    hqueue ▸ hinv.queue_le, l.admitsOnce, l.startsOnce, l.releasesOnce⟩
  · exact (l.runningSum_le d).trans (Nat.add_le_add_right (hadmitted d) _)
  · have hcov : l.Covered := (Covered.new budget queueMax).run hops
    rw [← hbudget] at hle ⊢
    exact hcov.runningSum_le hle

/-- Adoption first, then a start beside it: everything that runs fits the budget. -/
theorem gate_runs_safe_adopted_first :
    let ops := [.adoptRunning "a" ⟨6, 6⟩, .admitJob "n" ⟨4, 4⟩, .tryStart "n"]
    Throughout step AdoptsInOrder (new ⟨10, 10⟩ 4) ops ∧
      (run step (new ⟨10, 10⟩ 4) ops).gate.runningSum .vcpu ≤ 10 := by
  intro ops
  have hops : Throughout step AdoptsInOrder (new ⟨10, 10⟩ 4) ops :=
    ⟨fun _ _ => .inl rfl, trivial, trivial, trivial⟩
  exact ⟨hops, (gate_runs_safe ⟨10, 10⟩ 4 ops).2.2.1 hops .vcpu (by decide)⟩

/-- Out of order the ceiling does not hold: an adoption beside a started job leaves the gate
    over budget although the adopted footprint alone fits. -/
theorem adoption_after_start_overruns :
    let l := run step (new ⟨10, 10⟩ 4)
      [.admitJob "n" ⟨10, 10⟩, .tryStart "n", .adoptRunning "a" ⟨10, 10⟩]
    l.adoptedSum .vcpu ≤ 10 ∧ l.adoptedSum .memory ≤ 10 ∧ ¬ l.gate.runningSum .vcpu ≤ 10 := by
  decide

end Ledger

end GhRunner.Daemon
