import GhRunner.Daemon.Reaper

namespace GhRunner.Daemon

/-!
# What a reconciliation tick does

Spec lemmas of the reaper, so that later proofs never unfold it.

* `lookup_releaseMany` and its kin — releasing jobs, by what is left under each id;
* `reconcile_eq` — a tick releases one collection of jobs (`released`) and then promotes;
* `Promoted`, `promote_spec` — promotion by what it leaves behind: the started jobs are a
  sublist of the queue, they are marked running and everything else is as it was.
-/

/-! ### Releasing -/

namespace Records

@[simp] theorem releaseMany_zero (r : Records) : r.releaseMany 0 = r := rfl

@[simp] theorem releaseMany_cons (r : Records) (j : JobId) (js : Multiset JobId) :
    r.releaseMany (j ::ₘ js) = (r.releaseJob j).releaseMany js := Multiset.foldl_cons _ _ _ _

theorem releaseMany_add (r : Records) (js ks : Multiset JobId) :
    r.releaseMany (js + ks) = (r.releaseMany js).releaseMany ks := Multiset.foldl_add _ _ _ _

theorem lookup_releaseMany (r : Records) (js : Multiset JobId) (k : JobId) :
    (r.releaseMany js).gate.jobs.lookup k = if k ∈ js then none else r.gate.jobs.lookup k := by
  induction js using Multiset.induction generalizing r with
  | empty => simp
  | cons j js ih =>
    rw [releaseMany_cons, ih, releaseJob, Gate.release]
    by_cases hk : k = j
    · rw [hk, Finmap.lookup_erase, if_pos (Multiset.mem_cons_self j js), ite_self]
    · simp [hk, Finmap.lookup_erase_ne hk]

theorem existing_releaseMany (r : Records) (js : Multiset JobId) (k : JobId) :
    (r.releaseMany js).created.existing k = if k ∈ js then none else r.created.existing k := by
  induction js using Multiset.induction generalizing r with
  | empty => simp
  | cons j js ih =>
    rw [releaseMany_cons, ih, releaseJob, CreatedContainers.existing_forget]
    by_cases hk : k = j <;> simp [hk]

theorem state_releaseMany (r : Records) (js : Multiset JobId) (k : JobId) :
    (r.releaseMany js).registry.state k = if k ∈ js then none else r.registry.state k := by
  induction js using Multiset.induction generalizing r with
  | empty => simp
  | cons j js ih =>
    rw [releaseMany_cons, ih, releaseJob, JobRegistry.state_forget]
    by_cases hk : k = j <;> simp [hk]

theorem waiting_releaseMany (r : Records) (js : Multiset JobId) :
    (r.releaseMany js).queue.waiting = r.queue.waiting.filter fun k => k ∉ js := by
  induction js using Multiset.induction generalizing r with
  | empty => simp
  | cons j js ih =>
    rw [releaseMany_cons, ih, releaseJob, StartQueue.remove, List.filter_filter]
    apply List.filter_congr
    intro k _
    simp [Bool.and_comm]

@[simp] theorem budget_releaseMany (r : Records) (js : Multiset JobId) :
    (r.releaseMany js).gate.budget = r.gate.budget := by
  induction js using Multiset.induction generalizing r with
  | empty => rfl
  | cons j js ih => rw [releaseMany_cons, ih]; rfl

end Records

/-! ### One tick -/

/-- The first pass acts on the entry: past its deadline, or exited on its own. -/
def isOver (runningBefore : Finset JobId) (nowMs : ℤ) (entry : ContainerSnapshot) : Bool :=
  decide (entry.deadlineMs ≤ nowMs ∨ entry.running = false ∧ entry.jobId ∈ runningBefore)

/-- The jobs a tick releases: those of the entries it acts on, and the running ones the snapshot
    does not mention. -/
def released (r : Records) (snapshot : List ContainerSnapshot) (nowMs : ℤ) : Multiset JobId :=
  ↑((snapshot.filter (isOver r.gate.runningJobIds nowMs)).map (·.jobId)) +
    (r.gate.runningJobIds.filter fun j => j ∉ (snapshot.map (·.jobId)).toFinset).val

theorem foldl_reconcileEntry (runningBefore : Finset JobId) (nowMs : ℤ)
    (snapshot : List ContainerSnapshot) (r : Records) (remove : List String) :
    snapshot.foldl (reconcileEntry runningBefore nowMs) (r, remove) =
      (r.releaseMany ↑((snapshot.filter (isOver runningBefore nowMs)).map (·.jobId)),
        remove ++ (snapshot.filter (isOver runningBefore nowMs)).map
          (·.containerId)) := by
  induction snapshot generalizing r remove with
  | nil => simp
  | cons entry rest ih =>
    rw [List.foldl_cons]
    by_cases hover : isOver runningBefore nowMs entry = true
    · have hstep : reconcileEntry runningBefore nowMs (r, remove) entry =
          (r.releaseJob entry.jobId, remove ++ [entry.containerId]) :=
        if_pos (of_decide_eq_true hover)
      rw [hstep, ih, List.filter_cons_of_pos hover, List.map_cons, List.map_cons,
        ← Multiset.cons_coe, Records.releaseMany_cons, List.append_assoc, List.singleton_append]
    · have hstep : reconcileEntry runningBefore nowMs (r, remove) entry = (r, remove) :=
        if_neg fun h => hover (decide_eq_true h)
      rw [hstep, ih, List.filter_cons_of_neg hover]

/-- A tick releases one collection of jobs, and then promotes. -/
theorem reconcile_eq (r : Records) (snapshot : List ContainerSnapshot) (nowMs : ℤ) :
    reconcile r snapshot nowMs =
      let kept := r.releaseMany (released r snapshot nowMs)
      let promoted := promote kept.gate kept.queue
      ({ kept with gate := promoted.1, queue := promoted.2.1 },
        ⟨(snapshot.filter (isOver r.gate.runningJobIds nowMs)).map (·.containerId),
          promoted.2.2.filterMap fun jobId =>
            (kept.created.existing jobId).map fun containerId => ⟨jobId, containerId⟩⟩) := by
  have hpass := foldl_reconcileEntry r.gate.runningJobIds nowMs snapshot r []
  rw [List.nil_append] at hpass
  unfold reconcile released
  rw [Records.releaseMany_add]
  simp only [hpass]

/-! ### Promotion -/

/-- What promotion has left behind after starting `started`. -/
structure Promoted (gate : Gate) (queue : StartQueue) (acc : Gate × StartQueue × List JobId) :
    Prop where
  budget : acc.1.budget = gate.budget
  queueMax : acc.1.queueMax = gate.queueMax
  lookup : ∀ j, acc.1.jobs.lookup j =
    if j ∈ acc.2.2 then (gate.jobs.lookup j).map fun e => { e with running := true }
    else gate.jobs.lookup j
  waiting : acc.2.1.waiting = queue.waiting.filter fun j => j ∉ acc.2.2
  tracked : ∀ j ∈ acc.2.2, j ∈ gate.jobs

/-- Offering one job either leaves everything or starts it. -/
theorem promoteOne_cases (acc : Gate × StartQueue × List JobId) (j : JobId) :
    ((acc.1.tryStart j).1 ≠ some .started ∧ promoteOne acc j = acc) ∨
    ((acc.1.tryStart j).1 = some .started ∧
      promoteOne acc j = ((acc.1.tryStart j).2, acc.2.1.remove j, acc.2.2 ++ [j])) := by
  obtain ⟨gate, queue, started⟩ := acc
  rcases gate.tryStart_cases j with ⟨h, -⟩ | ⟨h, -⟩ | ⟨h, -⟩ | ⟨e, -, -, -, h⟩
  · exact .inl ⟨by simp [h], by simp [promoteOne, h]⟩
  · exact .inr ⟨by simp [h], by simp [promoteOne, h]⟩
  · exact .inl ⟨by simp [h], by simp [promoteOne, h]⟩
  · exact .inr ⟨by simp [h], by simp [promoteOne, h]⟩

/-- A job that starts is tracked, and the gate afterwards marks it running. -/
theorem Gate.tryStart_started {g : Gate} {j : JobId} (h : (g.tryStart j).1 = some .started) :
    j ∈ g.jobs ∧ (g.tryStart j).2.budget = g.budget ∧ (g.tryStart j).2.queueMax = g.queueMax ∧
      ∀ k, (g.tryStart j).2.jobs.lookup k =
        if k = j then (g.jobs.lookup j).map fun e => { e with running := true }
        else g.jobs.lookup k := by
  rcases g.tryStart_cases j with ⟨ht, -⟩ | ⟨ht, hrun⟩ | ⟨ht, -⟩ | ⟨e, he, -, -, ht⟩
  · rw [ht] at h
    cases h
  · obtain ⟨e, he, hrun⟩ := (Option.any_eq_true _ _).mp hrun
    rw [ht]
    refine ⟨Finmap.mem_of_lookup_eq_some he, rfl, rfl, fun k => ?_⟩
    by_cases hk : k = j
    · rw [if_pos hk, hk, he, Option.map_some, ← hrun]
    · rw [if_neg hk]
  · rw [ht] at h
    cases h
  · rw [ht]
    refine ⟨Finmap.mem_of_lookup_eq_some he, rfl, rfl, fun k => ?_⟩
    by_cases hk : k = j
    · rw [if_pos hk, hk, he, Gate.put_jobs, Finmap.lookup_insert, Option.map_some]
    · rw [if_neg hk, Gate.put_jobs, Finmap.lookup_insert_of_ne _ hk]

theorem Promoted.step {gate : Gate} {queue : StartQueue} {acc : Gate × StartQueue × List JobId}
    (h : Promoted gate queue acc) (j : JobId) : Promoted gate queue (promoteOne acc j) := by
  rcases promoteOne_cases acc j with ⟨-, hp⟩ | ⟨hstarted, hp⟩
  · rwa [hp]
  · obtain ⟨hmem, hbudget, hmax, hlook⟩ := Gate.tryStart_started hstarted
    have hgate : j ∈ gate.jobs := by
      rw [← Finmap.lookup_isSome] at hmem ⊢
      rw [h.lookup j] at hmem
      split at hmem <;> simpa using hmem
    rw [hp]
    refine ⟨hbudget.trans h.budget, hmax.trans h.queueMax, fun k => ?_, ?_, fun k hk => ?_⟩
    · show (acc.1.tryStart j).2.jobs.lookup k = _
      rw [hlook, h.lookup j, h.lookup k]
      by_cases hk : k = j
      · subst hk
        by_cases hacc : k ∈ acc.2.2
        · simp [hacc, Function.comp_def]
        · simp [hacc]
      · simp [hk]
    · show (acc.2.1.remove j).waiting = _
      rw [StartQueue.remove, h.waiting, List.filter_filter]
      apply List.filter_congr
      intro k _
      simp [and_comm]
    · rcases List.mem_append.mp hk with hk | hk
      · exact h.tracked k hk
      · rwa [List.mem_singleton.mp hk]

theorem promote_spec (gate : Gate) (queue : StartQueue) :
    Promoted gate queue (promote gate queue) :=
  Machine.run_invariant_of_step (fun _ j h => h.step j) queue.waiting
    ⟨rfl, rfl, fun _ => by simp, by simp, fun _ h => absurd h (by simp)⟩

/-- Promotion starts some of the offered jobs, in their order. -/
theorem foldl_promoteOne_sublist (js : List JobId) (acc : Gate × StartQueue × List JobId) :
    ∃ started, started.Sublist js ∧ (js.foldl promoteOne acc).2.2 = acc.2.2 ++ started := by
  induction js generalizing acc with
  | nil => exact ⟨[], List.Sublist.refl _, by simp⟩
  | cons j js ih =>
    obtain ⟨started, hsub, heq⟩ := ih (promoteOne acc j)
    rw [List.foldl_cons, heq]
    rcases promoteOne_cases acc j with ⟨-, hp⟩ | ⟨-, hp⟩
    · exact ⟨started, hsub.cons j, by rw [hp]⟩
    · exact ⟨j :: started, hsub.cons_cons j, by rw [hp, List.append_assoc, List.singleton_append]⟩

theorem promote_sublist (gate : Gate) (queue : StartQueue) :
    (promote gate queue).2.2.Sublist queue.waiting := by
  obtain ⟨started, hsub, heq⟩ := foldl_promoteOne_sublist queue.waiting (gate, queue, [])
  rw [promote, heq, List.nil_append]
  exact hsub

private theorem foldl_promoteOne_idle (js : List JobId) (acc : Gate × StartQueue × List JobId) :
    (js.foldl promoteOne acc).2.2 = acc.2.2 ↔
      ∀ j ∈ js, (acc.1.tryStart j).1 ≠ some .started := by
  induction js generalizing acc with
  | nil => simp
  | cons j js ih =>
    rw [List.foldl_cons, List.forall_mem_cons]
    rcases promoteOne_cases acc j with ⟨hno, hp⟩ | ⟨hyes, hp⟩
    · rw [hp, ih]
      exact ⟨fun h => ⟨hno, h⟩, fun h => h.2⟩
    · -- a started job stays on the list, whatever the rest of the fold does
      obtain ⟨started, -, heq⟩ := foldl_promoteOne_sublist js (promoteOne acc j)
      rw [heq, hp]
      simp [hyes]

/-- Promotion starts nothing exactly when no waiting job can start in the gate as it is. -/
theorem promote_idle_iff (gate : Gate) (queue : StartQueue) :
    (promote gate queue).2.2 = [] ↔
      ∀ j ∈ queue.waiting, (gate.tryStart j).1 ≠ some .started :=
  foldl_promoteOne_idle queue.waiting (gate, queue, [])

/-- Then it also leaves gate and queue as they were. -/
theorem promote_eq_of_idle {gate : Gate} {queue : StartQueue}
    (h : (promote gate queue).2.2 = []) : promote gate queue = (gate, queue, []) := by
  have hspec := promote_spec gate queue
  have hjobs : (promote gate queue).1.jobs = gate.jobs :=
    Finmap.ext_lookup fun j => by rw [hspec.lookup j, h, if_neg List.not_mem_nil]
  have hwaiting : (promote gate queue).2.1.waiting = queue.waiting := by
    rw [hspec.waiting, h]
    simp
  generalize hp : promote gate queue = p at *
  obtain ⟨⟨b, m, js⟩, ⟨w⟩, s⟩ := p
  obtain ⟨b', m', js'⟩ := gate
  obtain ⟨w'⟩ := queue
  obtain rfl : b = b' := hspec.budget
  obtain rfl : m = m' := hspec.queueMax
  obtain rfl : js = js' := hjobs
  obtain rfl : w = w' := hwaiting
  obtain rfl : s = [] := h
  rfl

/-! ### A tick, one job at a time -/

/-- No record mentions the job. -/
structure Records.Gone (r : Records) (j : JobId) : Prop where
  gate : j ∉ r.gate.jobs
  queue : j ∉ r.queue.waiting
  created : r.created.existing j = none
  registry : r.registry.state j = none

theorem Records.gone_releaseJob (r : Records) (j : JobId) : (r.releaseJob j).Gone j where
  gate := Finmap.notMem_erase_self
  queue := by simp [releaseJob, StartQueue.remove]
  created := by rw [releaseJob, CreatedContainers.existing_forget, if_pos rfl]
  registry := by rw [releaseJob, JobRegistry.state_forget, if_pos rfl]

/-- Every record says of the job what it said before. -/
structure Records.Same (r r' : Records) (j : JobId) : Prop where
  gate : r'.gate.jobs.lookup j = r.gate.jobs.lookup j
  queue : r'.queue.waiting.count j = r.queue.waiting.count j
  created : r'.created.existing j = r.created.existing j
  registry : r'.registry.state j = r.registry.state j

theorem Records.Same.refl (r : Records) (j : JobId) : r.Same r j := ⟨rfl, rfl, rfl, rfl⟩

theorem Records.same_releaseJob (r : Records) {j k : JobId} (hne : k ≠ j) :
    r.Same (r.releaseJob j) k where
  gate := Finmap.lookup_erase_ne hne
  queue := List.count_filter (by simpa using hne)
  created := (CreatedContainers.existing_forget _ _ _).trans (if_neg hne)
  registry := (JobRegistry.state_forget _ _ _).trans (if_neg hne)

/-- A waiting job was started: it left the queue and is marked running, and the other records say
    what they said before. -/
structure Records.Started (r r' : Records) (j : JobId) : Prop where
  waited : j ∈ r.queue.waiting
  lookup : ∃ e, r.gate.jobs.lookup j = some e ∧
    r'.gate.jobs.lookup j = some { e with running := true }
  queue : j ∉ r'.queue.waiting
  created : r'.created.existing j = r.created.existing j
  registry : r'.registry.state j = r.registry.state j

/-- A tick drops a job, starts it or leaves it alone; it drops exactly the released ones. -/
theorem reconcile_job (r : Records) (snapshot : List ContainerSnapshot) (nowMs : ℤ) (j : JobId) :
    (j ∈ released r snapshot nowMs ∧ (reconcile r snapshot nowMs).1.Gone j) ∨
    (j ∉ released r snapshot nowMs ∧
      (r.Started (reconcile r snapshot nowMs).1 j ∨ r.Same (reconcile r snapshot nowMs).1 j)) := by
  rw [reconcile_eq]
  set M := released r snapshot nowMs
  have hspec := promote_spec (r.releaseMany M).gate (r.releaseMany M).queue
  have hsub := promote_sublist (r.releaseMany M).gate (r.releaseMany M).queue
  have hlook := hspec.lookup j
  have hwaiting := hspec.waiting
  rw [Records.lookup_releaseMany] at hlook
  rw [Records.waiting_releaseMany] at hwaiting hsub
  have hcreated := r.existing_releaseMany M j
  have hregistry := r.state_releaseMany M j
  by_cases hj : j ∈ M
  · rw [if_pos hj] at hlook hcreated hregistry
    rw [Option.map_none, ite_self] at hlook
    refine .inl ⟨hj, Finmap.lookup_eq_none.mp hlook, ?_, hcreated, hregistry⟩
    show j ∉ (promote _ _).2.1.waiting
    rw [hwaiting]
    simp [hj]
  · rw [if_neg hj] at hlook hcreated hregistry
    refine .inr ⟨hj, ?_⟩
    by_cases hstarted : j ∈ (promote (r.releaseMany M).gate (r.releaseMany M).queue).2.2
    · left
      obtain ⟨e, he⟩ := Finmap.mem_iff.mp (hspec.tracked j hstarted)
      rw [Records.lookup_releaseMany, if_neg hj] at he
      rw [if_pos hstarted, he, Option.map_some] at hlook
      refine ⟨(List.mem_filter.mp (hsub.subset hstarted)).1, ⟨e, he, hlook⟩, ?_, hcreated, hregistry⟩
      show j ∉ (promote _ _).2.1.waiting
      rw [hwaiting]
      simp [hstarted]
    · right
      rw [if_neg hstarted] at hlook
      refine ⟨hlook, ?_, hcreated, hregistry⟩
      show (promote _ _).2.1.waiting.count j = _
      rw [hwaiting, List.count_filter (by simpa using hstarted), List.count_filter (by simpa using hj)]

theorem tracked_reconcile (r : Records) (snapshot : List ContainerSnapshot) (nowMs : ℤ) (j : JobId) :
    j ∈ (reconcile r snapshot nowMs).1.gate.jobs ↔
      j ∈ r.gate.jobs ∧ j ∉ released r snapshot nowMs := by
  have hspec := (promote_spec (r.releaseMany (released r snapshot nowMs)).gate
    (r.releaseMany (released r snapshot nowMs)).queue).lookup j
  rw [Records.lookup_releaseMany] at hspec
  rw [reconcile_eq, ← Finmap.lookup_isSome, ← Finmap.lookup_isSome]
  simp only [hspec]
  by_cases hj : j ∈ released r snapshot nowMs
  · simp [hj]
  · simp only [hj, if_false, not_false_eq_true, and_true]
    split
    · rw [Option.isSome_map]
    · rfl

theorem mem_released {r : Records} {snapshot : List ContainerSnapshot} {nowMs : ℤ} {j : JobId} :
    j ∈ released r snapshot nowMs ↔
      (∃ entry ∈ snapshot, isOver r.gate.runningJobIds nowMs entry = true ∧ entry.jobId = j) ∨
      r.gate.isRunning j = true ∧ ∀ entry ∈ snapshot, entry.jobId ≠ j := by
  rw [released, Multiset.mem_add, Multiset.mem_coe, Finset.mem_val, Finset.mem_filter,
    Gate.mem_runningJobIds]
  simp only [List.mem_map, List.mem_filter, and_assoc, List.mem_toFinset, not_exists, not_and, ne_eq]

end GhRunner.Daemon
