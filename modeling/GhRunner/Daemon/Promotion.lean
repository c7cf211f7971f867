import GhRunner.Lib.FirstFit
import GhRunner.Daemon.Reconcile

namespace GhRunner.Daemon

open FirstFit

/-!
# Promotion against the first-fit pass

What a tick starts, compared with one pass over the start queue that takes each job which fits into
what the jobs before it have left.

* `Gate.firstFit` — that pass;
* `Offered`, `offered_promote` — promotion keeps step with it, one entry of the queue at a time, and
  answers with every entry of a job that the pass takes;
* `promotesFairly_iff` — so it does what it should unless a job it starts was queued twice.
-/

namespace Gate

/-- The budget that is not used. -/
def free (g : Gate) : JobSize := g.budget.saturatingSub g.used

/-- The footprint of a job, nothing for one that is not tracked. -/
def sizeOf (g : Gate) (j : JobId) : JobSize := ((g.jobs.lookup j).map (·.size)).getD .ZERO

/-- A job fits what is left. -/
def Fits (g : Gate) (left : JobSize) (j : JobId) : Prop := (g.sizeOf j).fitsWithin left

instance (g : Gate) (left : JobSize) (j : JobId) : Decidable (g.Fits left j) :=
  inferInstanceAs (Decidable ((g.sizeOf j).fitsWithin left))

/-- What is left once a job has started. -/
def without (g : Gate) (left : JobSize) (j : JobId) : JobSize := left.saturatingSub (g.sizeOf j)

/-- The budget and the jobs after a pass over `js` in which each job starts if it fits into what
    the jobs that started before it have left. -/
def firstFit (g : Gate) (js : List JobId) : JobSize × List JobId :=
  pass g.Fits g.without g.free js

theorem fits_of_fits_without (g : Gate) (left : JobSize) (j k : JobId)
    (h : g.Fits (g.without left j) k) : g.Fits left k := by
  rw [Fits, JobSize.fitsWithin_iff] at h ⊢
  intro d
  have hd := h d
  rw [without, JobSize.dim_saturatingSub] at hd
  omega

theorem sizeOf_of_lookup {g : Gate} {j : JobId} {e : Entry} (h : g.jobs.lookup j = some e) :
    g.sizeOf j = e.size := by
  rw [sizeOf, h]
  rfl

/-- A start takes the job's footprint from what is free. -/
theorem free_put {g : Gate} {j : JobId} {e : Entry} (h : g.jobs.lookup j = some e)
    (hrun : e.running = false) :
    (g.put j { e with running := true }).free = g.free.saturatingSub e.size := by
  apply JobSize.ext_dim
  intro d
  have hsum := g.runningSum_put j { e with running := true } d
  have hheld : g.held j d = 0 := by
    rw [held, h]
    simp [Entry.held, hrun]
  have hnew : Entry.held { e with running := true } d = e.size.dim d := if_pos rfl
  have hbudget := g.budget.dim_le_maxNat d
  simp only [free, JobSize.dim_saturatingSub, dim_used, put_budget]
  omega

/-- Offering a waiting job starts it exactly where it fits. -/
theorem tryStart_of_waiting {g : Gate} {j : JobId} {e : Entry} (h : g.jobs.lookup j = some e)
    (hrun : e.running = false) :
    g.tryStart j =
      if e.size.fitsWithin g.free then (some .started, g.put j { e with running := true })
      else (some .deferred, g) := by
  have hwaits : g.isRunning j = false := by
    rw [isRunning_of_lookup h]
    exact hrun
  rcases g.tryStart_cases j with ⟨-, hnone⟩ | ⟨-, hyes⟩ | ⟨ht, -⟩ | ⟨e', he', -, hfits, ht⟩
  · rw [h] at hnone
    cases hnone
  · rw [hwaits] at hyes
    cases hyes
  · rw [ht, if_neg]
    intro hfits
    simp [tryStart, h, hrun, show e.size.fitsWithin (g.budget.saturatingSub g.used) from hfits]
      at ht
  · obtain rfl : e = e' := Option.some.inj (h.symm.trans he')
    have hfree : e.size.fitsWithin g.free := hfits
    rw [ht, if_pos hfree]

end Gate

/-! ### In step with the pass -/

/-- Promotion after the entries `js` of the queue. -/
structure Offered (gate : Gate) (queue : StartQueue) (js : List JobId)
    (acc : Gate × StartQueue × List JobId) : Prop where
  promoted : Promoted gate queue acc
  left : acc.1.free = (gate.firstFit js).1
  started : acc.2.2 = js.filter fun j => j ∈ (gate.firstFit js).2

/-- Every job of the queue is tracked and waits. -/
def Waiting (gate : Gate) (queue : StartQueue) : Prop :=
  ∀ j ∈ queue.waiting, ∃ size, gate.jobs.lookup j = some ⟨size, false⟩

theorem Offered.step {gate : Gate} {queue : StartQueue} {js : List JobId}
    {acc : Gate × StartQueue × List JobId} {j : JobId} (h : Offered gate queue js acc)
    (hj : ∃ size, gate.jobs.lookup j = some ⟨size, false⟩) :
    Offered gate queue (js ++ [j]) (promoteOne acc j) := by
  obtain ⟨size, hlookup⟩ := hj
  have hpass : gate.firstFit (js ++ [j]) = offer gate.Fits gate.without (gate.firstFit js) j :=
    pass_append_singleton _ _ _ _ _
  have htaken : j ∈ acc.2.2 ↔ j ∈ (gate.firstFit js).2 := by
    rw [h.started, List.mem_filter, decide_eq_true_iff, and_iff_right_iff_imp]
    exact fun hj => (pass_sublist _ _ _ _).subset hj
  by_cases hj : j ∈ (gate.firstFit js).2
  · -- a job that has started is answered as started again
    have hrunning : acc.1.isRunning j = true := by
      rw [Gate.isRunning, h.promoted.lookup j, if_pos (htaken.mpr hj), hlookup]
      rfl
    have hstep := acc.1.tryStart_of_isRunning hrunning
    have hsame : gate.firstFit (js ++ [j]) = gate.firstFit js := by
      rw [hpass, offer, if_neg]
      exact fun hnot => hnot.1 hj
    have hone : promoteOne acc j = (acc.1, acc.2.1.remove j, acc.2.2 ++ [j]) := by
      obtain ⟨gate', queue', started⟩ := acc
      simp only [promoteOne, hstep]
    refine ⟨h.promoted.step j, ?_, ?_⟩
    · rw [hone, hsame]
      exact h.left
    · rw [hone, hsame, List.filter_append, ← h.started]
      simp [hj]
  · have hold : acc.1.jobs.lookup j = some ⟨size, false⟩ := by
      rw [h.promoted.lookup j, if_neg (fun hacc => hj (htaken.mp hacc)), hlookup]
    have hstep := acc.1.tryStart_of_waiting hold rfl
    by_cases hfits : gate.Fits (gate.firstFit js).1 j
    · have hsize : size.fitsWithin acc.1.free := by
        rw [h.left]
        rwa [Gate.Fits, Gate.sizeOf_of_lookup hlookup] at hfits
      rw [if_pos hsize] at hstep
      have hnext : gate.firstFit (js ++ [j]) =
          (gate.without (gate.firstFit js).1 j, (gate.firstFit js).2 ++ [j]) := by
        rw [hpass, offer, if_pos ⟨hj, hfits⟩]
      have hone : promoteOne acc j =
          (acc.1.put j ⟨size, true⟩, acc.2.1.remove j, acc.2.2 ++ [j]) := by
        obtain ⟨gate', queue', started⟩ := acc
        simp only [promoteOne, hstep]
      refine ⟨h.promoted.step j, ?_, ?_⟩
      · rw [hone, hnext]
        show (acc.1.put j ⟨size, true⟩).free = _
        rw [Gate.free_put hold rfl, h.left, Gate.without, Gate.sizeOf_of_lookup hlookup]
      · have hsame : ∀ k ∈ js, k ∈ (gate.firstFit (js ++ [j])).2 ↔ k ∈ (gate.firstFit js).2 :=
          fun k hk => mem_pass_append_singleton gate.fits_of_fits_without hk
        have hkept : (js.filter fun k => k ∈ (gate.firstFit (js ++ [j])).2) = acc.2.2 := by
          rw [h.started]
          exact List.filter_congr fun k hk => decide_eq_decide.mpr (hsame k hk)
        rw [hone, List.filter_append, hkept]
        simp [hnext]
    · have hsize : ¬ size.fitsWithin acc.1.free := by
        rw [h.left]
        rwa [Gate.Fits, Gate.sizeOf_of_lookup hlookup] at hfits
      rw [if_neg hsize] at hstep
      have hsame : gate.firstFit (js ++ [j]) = gate.firstFit js := by
        rw [hpass, offer, if_neg]
        exact fun hnot => hfits hnot.2
      have hone : promoteOne acc j = acc := by
        obtain ⟨gate', queue', started⟩ := acc
        simp only [promoteOne, hstep]
      refine ⟨h.promoted.step j, ?_, ?_⟩
      · rw [hone, hsame]
        exact h.left
      · rw [hone, hsame, List.filter_append, ← h.started]
        simp [hj]

theorem offered_foldl {gate : Gate} {queue : StartQueue} (js : List JobId)
    (hjs : ∀ j ∈ js, ∃ size, gate.jobs.lookup j = some ⟨size, false⟩) :
    Offered gate queue js (js.foldl promoteOne (gate, queue, [])) := by
  induction js using List.reverseRecOn with
  | nil => exact ⟨⟨rfl, rfl, fun _ => by simp, by simp, fun _ h => absurd h (by simp)⟩, rfl, rfl⟩
  | append_singleton js j ih =>
    rw [List.foldl_concat]
    exact (ih fun k hk => hjs k (List.mem_append_left _ hk)).step
      (hjs j (List.mem_append_right _ (List.mem_singleton_self j)))

theorem offered_promote {gate : Gate} {queue : StartQueue} (h : Waiting gate queue) :
    Offered gate queue queue.waiting (promote gate queue) :=
  offered_foldl queue.waiting h

/-! ### What promotion should do -/

/-- Promotion starts the jobs of the first-fit pass, in the order of the queue and each once; the
    others stay in their order, and none of them would fit into what is left. -/
structure PromotesFairly (gate : Gate) (queue : StartQueue) : Prop where
  started : (promote gate queue).2.2 = (gate.firstFit queue.waiting).2
  left : (promote gate queue).2.1.waiting =
    queue.waiting.filter fun j => j ∉ (gate.firstFit queue.waiting).2
  conserving : ∀ j ∈ (promote gate queue).2.1.waiting, ¬ gate.Fits (promote gate queue).1.free j
  once : (promote gate queue).2.2.Nodup
  gone : ∀ j ∈ (promote gate queue).2.2, j ∉ (promote gate queue).2.1.waiting

/-- A job that fits is started once exactly where it is queued once. -/
theorem promotesFairly_iff (gate : Gate) (queue : StartQueue) (hwaiting : Waiting gate queue) :
    PromotesFairly gate queue ↔
      ∀ j ∈ (gate.firstFit queue.waiting).2, queue.waiting.count j = 1 := by
  have h := offered_promote hwaiting
  have hmem : ∀ j, j ∈ (promote gate queue).2.2 ↔ j ∈ (gate.firstFit queue.waiting).2 := by
    intro j
    rw [h.started, List.mem_filter, decide_eq_true_iff, and_iff_right_iff_imp]
    exact fun hj => (pass_sublist _ _ _ _).subset hj
  have hleft : (promote gate queue).2.1.waiting =
      queue.waiting.filter fun j => j ∉ (gate.firstFit queue.waiting).2 := by
    rw [h.promoted.waiting]
    simp only [hmem]
  constructor
  · intro hfair
    exact filter_eq_pass_iff.mp (h.started.symm.trans hfair.started)
  · intro honce
    have hstarted : (promote gate queue).2.2 = (gate.firstFit queue.waiting).2 :=
      h.started.trans (filter_eq_pass_iff.mpr honce)
    refine ⟨hstarted, hleft, ?_, hstarted ▸ nodup_pass _ _ _ _, ?_⟩
    · intro j hj
      rw [hleft, List.mem_filter, decide_eq_true_iff] at hj
      rw [h.left]
      exact not_fits_of_notMem gate.fits_of_fits_without hj.1 hj.2
    · intro j hj hwaits
      rw [hleft, List.mem_filter, decide_eq_true_iff] at hwaits
      exact hwaits.2 ((hmem j).mp hj)

/-! ### A box of four cores -/

/-- Three waiting jobs of which the second never fits beside the first. -/
def boxOfFour : Gate where
  budget := ⟨4, 8192⟩
  queueMax := 8
  jobs := ((Finmap.singleton "first" ⟨⟨2, 1024⟩, false⟩).insert "second" ⟨⟨3, 1024⟩, false⟩).insert
    "third" ⟨⟨2, 1024⟩, false⟩

theorem waiting_boxOfFour : Waiting boxOfFour ⟨["first", "second", "third", "first"]⟩ := by
  intro j hj
  simp only [List.mem_cons, List.not_mem_nil, or_false] at hj
  rcases hj with rfl | rfl | rfl | rfl
  · exact ⟨⟨2, 1024⟩, by decide⟩
  · exact ⟨⟨3, 1024⟩, by decide⟩
  · exact ⟨⟨2, 1024⟩, by decide⟩
  · exact ⟨⟨2, 1024⟩, by decide⟩

/-- The second job is passed over, and the third starts. -/
theorem promotes_past_second : PromotesFairly boxOfFour ⟨["first", "second", "third"]⟩ :=
  (promotesFairly_iff boxOfFour ⟨["first", "second", "third"]⟩
    fun j hj => waiting_boxOfFour j (List.mem_append_left ["first"] hj)).mpr (by decide)

/-- A job that is queued twice is started twice. -/
theorem promotes_first_twice :
    Waiting boxOfFour ⟨["first", "second", "third", "first"]⟩ ∧
      ¬ PromotesFairly boxOfFour ⟨["first", "second", "third", "first"]⟩ := by
  refine ⟨waiting_boxOfFour, fun h => ?_⟩
  have htwice : (promote boxOfFour ⟨["first", "second", "third", "first"]⟩).2.2 =
      ["first", "third", "first"] := by decide
  have honce := h.once
  rw [htwice] at honce
  exact absurd honce (by decide)

end GhRunner.Daemon
