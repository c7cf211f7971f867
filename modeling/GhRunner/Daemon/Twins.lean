import GhRunner.Daemon.Adopt
import Mathlib.Data.List.Perm.Basic

namespace GhRunner.Daemon

/-!
# Several containers of one job

Nothing keeps a box from holding two containers that carry the same job id: a removal that failed,
a create that was redelivered.  Adoption and the reaper both decide job by job.

* `KeepsLive`, `keeps_live_iff` — when a tick gives away the budget of a job only if all its
  containers are on their way out;
* `Admissible`, `adoptOne_cases` — the containers adoption keeps at one moment;
* `SameOutcome`, `adopt_perm_iff` — when the order of the listing does not matter.
-/

/-! ### The tick -/

/-- A tick that releases a job it had marked running removes each of its containers that runs. -/
def KeepsLive (r : Records) (snapshot : List ContainerSnapshot) (nowMs : ℤ) : Prop :=
  ∀ j ∈ r.gate.runningJobIds, j ∉ (reconcile r snapshot nowMs).1.gate.jobs →
    ∀ entry ∈ snapshot, entry.jobId = j → entry.running = true →
      entry.deadlineMs ≤ nowMs ∧ entry.containerId ∈ (reconcile r snapshot nowMs).2.remove

instance (r : Records) (snapshot : List ContainerSnapshot) (nowMs : ℤ) :
    Decidable (KeepsLive r snapshot nowMs) := by
  unfold KeepsLive; infer_instance

theorem mem_remove_reconcile {r : Records} {snapshot : List ContainerSnapshot} {nowMs : ℤ}
    {entry : ContainerSnapshot} (hmem : entry ∈ snapshot)
    (hover : isOver r.gate.runningJobIds nowMs entry = true) :
    entry.containerId ∈ (reconcile r snapshot nowMs).2.remove := by
  rw [reconcile_eq]
  exact List.mem_map.mpr ⟨entry, List.mem_filter.mpr ⟨hmem, hover⟩, rfl⟩

/-- **A live container keeps its budget exactly when it has no dead twin.** The tick reads one
    finished or expired container as the end of its job, so a running job is released under a
    container that keeps running exactly when that container has such a twin. -/
theorem keeps_live_iff (r : Records) (snapshot : List ContainerSnapshot) (nowMs : ℤ) :
    KeepsLive r snapshot nowMs ↔
      ∀ entry ∈ snapshot, entry.jobId ∈ r.gate.runningJobIds → entry.running = true →
        nowMs < entry.deadlineMs →
        ∀ twin ∈ snapshot, twin.jobId = entry.jobId →
          twin.running = true ∧ nowMs < twin.deadlineMs := by
  constructor
  · intro hkeeps entry hentry hjob hrunning hlive twin htwin hsame
    by_contra hdead
    -- the twin alone has the job released
    have hover : isOver r.gate.runningJobIds nowMs twin = true := by
      apply decide_eq_true
      by_cases hpast : twin.deadlineMs ≤ nowMs
      · exact .inl hpast
      · refine .inr ⟨?_, by rwa [hsame]⟩
        rw [← Bool.not_eq_true]
        exact fun hrun => hdead ⟨hrun, not_le.mp hpast⟩
    have hreleased : entry.jobId ∉ (reconcile r snapshot nowMs).1.gate.jobs := by
      rw [tracked_reconcile]
      exact fun h => h.2 (mem_released.mpr (.inl ⟨twin, htwin, hover, hsame⟩))
    have hpast := (hkeeps entry.jobId hjob hreleased entry hentry rfl hrunning).1
    omega
  · intro htwins j hj hreleased entry hentry hjob hrunning
    subst hjob
    have hpast : entry.deadlineMs ≤ nowMs := by
      by_contra hlive
      have hlive := not_le.mp hlive
      apply hreleased
      rw [tracked_reconcile]
      have hrun := (Gate.mem_runningJobIds _ _).mp hj
      obtain ⟨e, he, -⟩ := (Option.any_eq_true _ _).mp hrun
      refine ⟨Finmap.mem_of_lookup_eq_some he, fun hrel => ?_⟩
      rcases mem_released.mp hrel with ⟨twin, htwin, hover, hsame⟩ | ⟨-, hunseen⟩
      · obtain ⟨htrun, htlive⟩ := htwins entry hentry hj hrunning hlive twin htwin hsame
        rcases of_decide_eq_true hover with hpast | ⟨hexited, -⟩
        · omega
        · rw [htrun] at hexited
          cases hexited
      · exact hunseen entry hentry rfl
    exact ⟨hpast, mem_remove_reconcile hentry (decide_eq_true (.inl hpast))⟩

/-- A job of four vCPUs, running, and a second one that waits for them. -/
def busyRecords : Records where
  gate := ⟨⟨4, 8192⟩, 10, (Finmap.insert "a" ⟨⟨4, 8192⟩, true⟩ ∅).insert "b" ⟨⟨4, 8192⟩, false⟩⟩
  registry := .new
  queue := ⟨["b"]⟩
  created := (CreatedContainers.new.record "a" "a1").record "b" "b1"

/-- The container of `a` runs on, and one of the same job id that has exited frees its budget for
    `b`. -/
theorem dead_twin_frees_live :
    let snapshot := [⟨"a", "a1", 100, true⟩, ⟨"a", "a2", 100, false⟩, ⟨"b", "b1", 100, false⟩]
    (reconcile busyRecords snapshot 1).2 = ⟨["a2"], [⟨"b", "b1"⟩]⟩ ∧
      ¬ KeepsLive busyRecords snapshot 1 := by
  decide

/-! ### Adoption, one container at a time -/

/-- Adoption would keep the container with the gate as it is: nothing tracks its job, and it is to
    be resumed, or to be queued and the gate takes it. -/
def Admissible (gate : Gate) (nowMs : ℤ) (c : AdoptedContainer) : Prop :=
  c.jobId ∉ gate.jobs ∧
    (actionFor c nowMs = .resume ∨
      actionFor c nowMs = .requeue ∧ c.size.fitsWithin gate.budget ∧
        gate.jobs.keys.card < gate.queueMax.toNat)

instance (gate : Gate) (nowMs : ℤ) (c : AdoptedContainer) :
    Decidable (Admissible gate nowMs c) := by
  unfold Admissible; infer_instance

/-- How often a container stands in the report, over its three lists. -/
def Adoption.places (a : Adoption) (c : AdoptedContainer) : ℕ :=
  a.resumed.count (armed c) + a.requeued.count (armed c) + a.remove.count c.containerId

/-- The same three sets, in whatever order. -/
structure SameOutcome (a b : Adoption) : Prop where
  resumed : a.resumed.toFinset = b.resumed.toFinset
  requeued : a.requeued.toFinset = b.requeued.toFinset
  remove : a.remove.toFinset = b.remove.toFinset

/-- What adoption can do with one container: resume it, queue it, or put it on the removal list
    and leave everything else alone. -/
theorem adoptOne_cases (nowMs : ℤ) (s : Adopting) (c : AdoptedContainer) :
    (Admissible s.gate nowMs c ∧ actionFor c nowMs = .resume ∧
      (adoptOne nowMs s c).gate = s.gate.put c.jobId ⟨c.size, true⟩ ∧
      (adoptOne nowMs s c).adoption =
        { s.adoption with resumed := s.adoption.resumed ++ [armed c] }) ∨
    (Admissible s.gate nowMs c ∧ actionFor c nowMs = .requeue ∧
      (adoptOne nowMs s c).gate = s.gate.put c.jobId ⟨c.size, false⟩ ∧
      (adoptOne nowMs s c).adoption =
        { s.adoption with requeued := s.adoption.requeued ++ [armed c] }) ∨
    (¬ Admissible s.gate nowMs c ∧ (adoptOne nowMs s c).gate = s.gate ∧
      (adoptOne nowMs s c).adoption =
        { s.adoption with remove := s.adoption.remove ++ [c.containerId] }) := by
  unfold adoptOne Admissible
  cases haction : actionFor c nowMs with
  | resume =>
    cases hadopt : s.gate.adoptRunning c.jobId c.size with
    | ok gate =>
      obtain ⟨hnew, rfl⟩ := Gate.adoptRunning_eq_ok_iff.mp hadopt
      exact .inl ⟨⟨hnew, .inl rfl⟩, rfl, by simp [resume, hadopt]⟩
    | error err =>
      refine .inr (.inr ⟨fun h => ?_, by simp [resume, hadopt]⟩)
      rw [Gate.adoptRunning_eq_ok_iff.mpr ⟨h.1, rfl⟩] at hadopt
      cases hadopt
  | requeue =>
    cases hadmit : s.gate.admitJob c.jobId c.size with
    | ok gate =>
      obtain ⟨hnew, hfit, hroom, rfl⟩ := Gate.admitJob_eq_ok_iff.mp hadmit
      exact .inr (.inl ⟨⟨hnew, .inr ⟨rfl, hfit, hroom⟩⟩, rfl, by simp [requeue, hadmit]⟩)
    | error err =>
      refine .inr (.inr ⟨?_, by simp [requeue, hadmit]⟩)
      rintro ⟨hnew, h | ⟨-, hfit, hroom⟩⟩
      · cases h
      · rw [Gate.admitJob_eq_ok_iff.mpr ⟨hnew, hfit, hroom, rfl⟩] at hadmit
        cases hadmit
  | remove => exact .inr (.inr ⟨by simp, rfl, rfl⟩)

/-- A kept container stands on one of the two lists of jobs, and its job is tracked from then on. -/
theorem adoptOne_of_admissible {nowMs : ℤ} {s : Adopting} {c : AdoptedContainer}
    (h : Admissible s.gate nowMs c) :
    ∃ running, (adoptOne nowMs s c).gate = s.gate.put c.jobId ⟨c.size, running⟩ ∧
      (armed c ∈ (adoptOne nowMs s c).adoption.resumed ∨
        armed c ∈ (adoptOne nowMs s c).adoption.requeued) := by
  rcases adoptOne_cases nowMs s c with ⟨-, -, hgate, hadopt⟩ | ⟨-, -, hgate, hadopt⟩ | ⟨hno, -⟩
  · exact ⟨true, hgate, .inl (by simp [hadopt])⟩
  · exact ⟨false, hgate, .inr (by simp [hadopt])⟩
  · exact absurd h hno

theorem adoptOne_of_not_admissible {nowMs : ℤ} {s : Adopting} {c : AdoptedContainer}
    (h : ¬ Admissible s.gate nowMs c) :
    (adoptOne nowMs s c).gate = s.gate ∧
      (adoptOne nowMs s c).adoption =
        { s.adoption with remove := s.adoption.remove ++ [c.containerId] } := by
  rcases adoptOne_cases nowMs s c with ⟨hyes, -⟩ | ⟨hyes, -⟩ | ⟨-, hgate, hadopt⟩
  · exact absurd hyes h
  · exact absurd hyes h
  · exact ⟨hgate, hadopt⟩

/-! ### The report of a whole pass -/

theorem places_adoptOne (nowMs : ℤ) (s : Adopting) (c d : AdoptedContainer)
    (hid : d.containerId = c.containerId → d = c) :
    (adoptOne nowMs s d).adoption.places c = s.adoption.places c + if d = c then 1 else 0 := by
  have harmed : (armed d == armed c) = decide (d = c) := by
    rw [beq_eq_decide, decide_eq_decide]
    exact ⟨fun h => hid (congrArg ArmedJob.containerId h), fun h => by rw [h]⟩
  have hremoved : (d.containerId == c.containerId) = decide (d = c) := by
    rw [beq_eq_decide, decide_eq_decide]
    exact ⟨hid, fun h => by rw [h]⟩
  unfold Adoption.places
  rcases adoptOne_cases nowMs s d with ⟨-, -, -, h⟩ | ⟨-, -, -, h⟩ | ⟨-, -, h⟩ <;>
    simp only [h, List.count_append, List.count_singleton, harmed, hremoved,
      decide_eq_true_eq] <;> omega

theorem places_foldl (nowMs : ℤ) (cs : List AdoptedContainer) (s : Adopting)
    (c : AdoptedContainer) (hid : ∀ d ∈ cs, d.containerId = c.containerId → d = c) :
    (cs.foldl (adoptOne nowMs) s).adoption.places c = s.adoption.places c + cs.count c := by
  induction cs generalizing s with
  | nil => rfl
  | cons d cs ih =>
    rw [List.foldl_cons, ih _ fun e he => hid e (List.mem_cons_of_mem d he),
      places_adoptOne nowMs s c d (hid d List.mem_cons_self), List.count_cons]
    simp only [beq_iff_eq]
    omega

/-- Every listed container stands in the report exactly once. -/
theorem places_adopt {gate : Gate} {queue : StartQueue} {created : CreatedContainers}
    {cs : List AdoptedContainer} {nowMs : ℤ} (hids : (cs.map (·.containerId)).Nodup)
    {c : AdoptedContainer} (hc : c ∈ cs) :
    (adopt gate queue created cs nowMs).adoption.places c = 1 := by
  rw [adopt, places_foldl nowMs cs _ c
    fun d hd h => List.inj_on_of_nodup_map hids hd hc h]
  rw [List.count_eq_one_of_mem (List.Nodup.of_map _ hids) hc]
  rfl

/-- The jobs on the two lists are tracked, and no job is there twice. -/
structure Adopting.Tracked (s : Adopting) : Prop where
  once : ((s.adoption.resumed ++ s.adoption.requeued).map (·.jobId)).Nodup
  tracked : ∀ a ∈ s.adoption.resumed ++ s.adoption.requeued, a.jobId ∈ s.gate.jobs

theorem Adopting.Tracked.adoptOne {s : Adopting} (h : s.Tracked) (nowMs : ℤ)
    (c : AdoptedContainer) : (adoptOne nowMs s c).Tracked := by
  have hfresh : c.jobId ∉ s.gate.jobs →
      c.jobId ∉ (s.adoption.resumed ++ s.adoption.requeued).map (·.jobId) := by
    intro hnew hmem
    obtain ⟨a, ha, hid⟩ := List.mem_map.mp hmem
    have := h.tracked a ha
    rw [hid] at this
    exact hnew this
  have honce := h.once
  rcases adoptOne_cases nowMs s c with
    ⟨hadm, -, hgate, hadopt⟩ | ⟨hadm, -, hgate, hadopt⟩ | ⟨-, hgate, hadopt⟩
  · have hnot := hfresh hadm.1
    constructor
    · rw [hadopt]
      show ((s.adoption.resumed ++ [armed c] ++ s.adoption.requeued).map (·.jobId)).Nodup
      rw [List.append_assoc, List.singleton_append,
        (List.perm_middle.map _).nodup_iff, List.map_cons, List.nodup_cons]
      exact ⟨hnot, honce⟩
    · intro a ha
      rw [hgate, Gate.put_jobs, Finmap.mem_insert]
      rw [hadopt] at ha
      simp only [List.mem_append, List.mem_singleton] at ha
      rcases ha with (ha | rfl) | ha
      · exact .inr (h.tracked a (List.mem_append_left _ ha))
      · exact .inl rfl
      · exact .inr (h.tracked a (List.mem_append_right _ ha))
  · have hnot := hfresh hadm.1
    constructor
    · rw [hadopt]
      show ((s.adoption.resumed ++ (s.adoption.requeued ++ [armed c])).map (·.jobId)).Nodup
      rw [← List.append_assoc, (List.perm_append_singleton _ _).map _ |>.nodup_iff, List.map_cons,
        List.nodup_cons]
      exact ⟨hnot, honce⟩
    · intro a ha
      rw [hgate, Gate.put_jobs, Finmap.mem_insert]
      rw [hadopt] at ha
      simp only [List.mem_append, List.mem_singleton] at ha
      rcases ha with ha | ha | rfl
      · exact .inr (h.tracked a (List.mem_append_left _ ha))
      · exact .inr (h.tracked a (List.mem_append_right _ ha))
      · exact .inl rfl
  · constructor
    · rwa [hadopt]
    · rw [hadopt, hgate]
      exact h.tracked

theorem tracked_adopt (gate : Gate) (queue : StartQueue) (created : CreatedContainers)
    (cs : List AdoptedContainer) (nowMs : ℤ) : (adopt gate queue created cs nowMs).Tracked :=
  Machine.run_invariant_of_step (fun _ c h => h.adoptOne nowMs c) cs
    ⟨List.nodup_nil, fun _ h => absurd h (by simp)⟩

/-! ### The order of the listing -/

/-- The containers adoption would keep if each came first. -/
def contenders (gate : Gate) (nowMs : ℤ) (cs : List AdoptedContainer) : List AdoptedContainer :=
  cs.filter fun c => Admissible gate nowMs c

/-- No two contenders claim one job, and if one of them is to be queued, the queue has room for
    all of them. -/
structure Roomy (gate : Gate) (nowMs : ℤ) (cs : List AdoptedContainer) : Prop where
  ids : ((contenders gate nowMs cs).map (·.jobId)).Nodup
  room : ∀ c ∈ contenders gate nowMs cs, actionFor c nowMs = .requeue →
    gate.jobs.keys.card + (contenders gate nowMs cs).length ≤ gate.queueMax.toNat

theorem mem_contenders {gate : Gate} {nowMs : ℤ} {cs : List AdoptedContainer}
    {c : AdoptedContainer} :
    c ∈ contenders gate nowMs cs ↔ c ∈ cs ∧ Admissible gate nowMs c := by
  rw [contenders, List.mem_filter, decide_eq_true_eq]

theorem contenders_cons_of_pos {gate : Gate} {nowMs : ℤ} {c : AdoptedContainer}
    {cs : List AdoptedContainer} (h : Admissible gate nowMs c) :
    contenders gate nowMs (c :: cs) = c :: contenders gate nowMs cs :=
  List.filter_cons_of_pos (decide_eq_true h)

theorem contenders_cons_of_neg {gate : Gate} {nowMs : ℤ} {c : AdoptedContainer}
    {cs : List AdoptedContainer} (h : ¬ Admissible gate nowMs c) :
    contenders gate nowMs (c :: cs) = contenders gate nowMs cs :=
  List.filter_cons_of_neg (by simpa using h)

/-- What tracking one more job takes away from the others: its job id, and a place in the queue. -/
theorem admissible_put {g : Gate} {nowMs : ℤ} {j : JobId} {e : Entry} {c : AdoptedContainer}
    (hnew : j ∉ g.jobs) :
    Admissible (g.put j e) nowMs c ↔ Admissible g nowMs c ∧ c.jobId ≠ j ∧
      (actionFor c nowMs = .requeue → g.jobs.keys.card + 1 < g.queueMax.toNat) := by
  have hcard := Finmap.card_keys_insert e hnew
  unfold Admissible
  rw [Gate.put_jobs, Finmap.mem_insert, hcard, Gate.put_budget, Gate.put_queueMax, not_or]
  constructor
  · rintro ⟨⟨hne, hc⟩, hresume | ⟨hrequeue, hfit, hroom⟩⟩
    · exact ⟨⟨hc, .inl hresume⟩, hne, by simp [hresume]⟩
    · exact ⟨⟨hc, .inr ⟨hrequeue, hfit, by omega⟩⟩, hne, fun _ => hroom⟩
  · rintro ⟨⟨hc, hresume | ⟨hrequeue, hfit, -⟩⟩, hne, hroom⟩
    · exact ⟨⟨hne, hc⟩, .inl hresume⟩
    · exact ⟨⟨hne, hc⟩, .inr ⟨hrequeue, hfit, hroom hrequeue⟩⟩

/-- The contenders stay the same when one of them comes in, as long as none shares its job and the
    queue keeps a place for those that need one. -/
theorem contenders_put {g : Gate} {nowMs : ℤ} {j : JobId} {e : Entry}
    {cs : List AdoptedContainer} (hnew : j ∉ g.jobs)
    (hne : ∀ c ∈ contenders g nowMs cs, c.jobId ≠ j)
    (hroom : ∀ c ∈ contenders g nowMs cs, actionFor c nowMs = .requeue →
      g.jobs.keys.card + 1 < g.queueMax.toNat) :
    contenders (g.put j e) nowMs cs = contenders g nowMs cs := by
  apply List.filter_congr
  intro c hc
  rw [decide_eq_decide, admissible_put hnew]
  refine ⟨fun h => h.1, fun h => ?_⟩
  have hmem := mem_contenders.mpr ⟨hc, h⟩
  exact ⟨h, hne c hmem, hroom c hmem⟩

/-- With room for all, adoption keeps exactly the contenders. -/
theorem foldl_adoptOne_of_roomy (nowMs : ℤ) (cs : List AdoptedContainer) (s : Adopting)
    (h : Roomy s.gate nowMs cs) :
    (cs.foldl (adoptOne nowMs) s).adoption =
      { resumed := s.adoption.resumed ++
          ((contenders s.gate nowMs cs).filter fun c => actionFor c nowMs = .resume).map armed
        requeued := s.adoption.requeued ++
          ((contenders s.gate nowMs cs).filter fun c => actionFor c nowMs = .requeue).map armed
        remove := s.adoption.remove ++
          (cs.filter fun c => ¬ Admissible s.gate nowMs c).map (·.containerId) } := by
  induction cs generalizing s with
  | nil => simp [contenders]
  | cons c cs ih =>
    rw [List.foldl_cons]
    by_cases hadm : Admissible s.gate nowMs c
    · obtain ⟨hids, hroom⟩ := h
      rw [contenders_cons_of_pos hadm] at hids hroom ⊢
      rw [List.map_cons, List.nodup_cons] at hids
      obtain ⟨hc, hids⟩ := hids
      have hne : ∀ d ∈ contenders s.gate nowMs cs, d.jobId ≠ c.jobId :=
        fun d hd heq => hc (List.mem_map.mpr ⟨d, hd, heq⟩)
      have hplace : ∀ d ∈ contenders s.gate nowMs cs, actionFor d nowMs = .requeue →
          s.gate.jobs.keys.card + 1 + (contenders s.gate nowMs cs).length ≤
            s.gate.queueMax.toNat := by
        intro d hd hrequeue
        have := hroom d (List.mem_cons_of_mem c hd) hrequeue
        rw [List.length_cons] at this
        omega
      have hrest : ∀ e : Entry, contenders (s.gate.put c.jobId e) nowMs cs =
          contenders s.gate nowMs cs := fun e => contenders_put hadm.1 hne fun d hd hrequeue => by
        have := hplace d hd hrequeue
        have := List.length_pos_of_mem hd
        omega
      have hroomy : ∀ e : Entry, Roomy (s.gate.put c.jobId e) nowMs cs := by
        refine fun e => ⟨by rwa [hrest e], fun d hd hrequeue => ?_⟩
        rw [hrest e] at hd ⊢
        rw [Gate.put_jobs, Finmap.card_keys_insert e hadm.1, Gate.put_queueMax]
        exact hplace d hd hrequeue
      have hothers : ∀ e : Entry, (cs.filter fun d => ¬ Admissible (s.gate.put c.jobId e) nowMs d) =
          cs.filter fun d => ¬ Admissible s.gate nowMs d := by
        intro e
        apply List.filter_congr
        intro d hd
        rw [decide_eq_decide, not_iff_not]
        have := congrArg (d ∈ ·) (hrest e)
        simpa only [mem_contenders, hd, true_and, eq_iff_iff] using this
      have hself : ((c :: cs).filter fun d => ¬ Admissible s.gate nowMs d) =
          cs.filter fun d => ¬ Admissible s.gate nowMs d := List.filter_cons_of_neg (by simpa using hadm)
      rw [hself]
      rcases adoptOne_cases nowMs s c with
        ⟨-, haction, hgate, hadopt⟩ | ⟨-, haction, hgate, hadopt⟩ | ⟨hno, -⟩
      · rw [ih _ (by rw [hgate]; exact hroomy _), hgate, hadopt, hrest, hothers]
        simp [haction]
      · rw [ih _ (by rw [hgate]; exact hroomy _), hgate, hadopt, hrest, hothers]
        simp [haction]
      · exact absurd hadm hno
    · obtain ⟨hgate, hadopt⟩ := adoptOne_of_not_admissible hadm
      have hroomy : Roomy s.gate nowMs cs := by
        obtain ⟨hids, hroom⟩ := h
        rw [contenders_cons_of_neg hadm] at hids hroom
        exact ⟨hids, hroom⟩
      rw [ih _ (by rwa [hgate]), hgate, hadopt, contenders_cons_of_neg hadm,
        List.filter_cons_of_pos (by simpa using hadm)]
      simp

theorem Roomy.perm {gate : Gate} {nowMs : ℤ} {cs cs' : List AdoptedContainer}
    (h : Roomy gate nowMs cs) (hperm : cs'.Perm cs) : Roomy gate nowMs cs' := by
  have hcont : (contenders gate nowMs cs').Perm (contenders gate nowMs cs) := hperm.filter _
  constructor
  · exact (hcont.map _).nodup_iff.mpr h.ids
  · intro c hc
    rw [hcont.length_eq]
    exact h.room c (hcont.mem_iff.mp hc)

/-- Then every order of the listing has the same outcome. -/
theorem sameOutcome_of_roomy {gate : Gate} {queue : StartQueue} {created : CreatedContainers}
    {cs cs' : List AdoptedContainer} {nowMs : ℤ} (h : Roomy gate nowMs cs) (hperm : cs'.Perm cs) :
    SameOutcome (adopt gate queue created cs' nowMs).adoption
      (adopt gate queue created cs nowMs).adoption := by
  have hcont : (contenders gate nowMs cs').Perm (contenders gate nowMs cs) := hperm.filter _
  unfold adopt
  rw [foldl_adoptOne_of_roomy nowMs cs _ h, foldl_adoptOne_of_roomy nowMs cs' _ (h.perm hperm)]
  exact ⟨List.toFinset_eq_of_perm _ _ (((hcont.filter _).map _).append_left _),
    List.toFinset_eq_of_perm _ _ (((hcont.filter _).map _).append_left _),
    List.toFinset_eq_of_perm _ _ (((hperm.filter _).map _).append_left _)⟩

/-- What stands in the report stays there. -/
structure Adoption.Extends (a b : Adoption) : Prop where
  resumed : a.resumed ⊆ b.resumed
  requeued : a.requeued ⊆ b.requeued
  remove : a.remove ⊆ b.remove

theorem extends_foldl (nowMs : ℤ) (cs : List AdoptedContainer) (s : Adopting) :
    s.adoption.Extends (cs.foldl (adoptOne nowMs) s).adoption := by
  refine Machine.run_invariant_of_step (I := fun t : Adopting => s.adoption.Extends t.adoption)
    (fun t c h => ?_) cs ⟨fun _ => id, fun _ => id, fun _ => id⟩
  rcases adoptOne_cases nowMs t c with ⟨-, -, -, hadopt⟩ | ⟨-, -, -, hadopt⟩ | ⟨-, -, hadopt⟩
  · rw [hadopt]
    exact ⟨List.subset_append_of_subset_left _ h.resumed, h.requeued, h.remove⟩
  · rw [hadopt]
    exact ⟨h.resumed, List.subset_append_of_subset_left _ h.requeued, h.remove⟩
  · rw [hadopt]
    exact ⟨h.resumed, h.requeued, List.subset_append_of_subset_left _ h.remove⟩

theorem card_le_foldl (nowMs : ℤ) (cs : List AdoptedContainer) (s : Adopting) :
    s.gate.jobs.keys.card ≤ (cs.foldl (adoptOne nowMs) s).gate.jobs.keys.card := by
  refine Machine.run_invariant_of_step
    (I := fun t : Adopting => s.gate.jobs.keys.card ≤ t.gate.jobs.keys.card) (fun t c h => ?_) cs le_rfl
  by_cases hadm : Admissible t.gate nowMs c
  · obtain ⟨running, hgate, -⟩ := adoptOne_of_admissible hadm
    rw [hgate, Gate.put_jobs, Finmap.card_keys_insert _ hadm.1]
    omega
  · rwa [(adoptOne_of_not_admissible hadm).1]

theorem queueMax_foldl (nowMs : ℤ) (cs : List AdoptedContainer) (s : Adopting) :
    (cs.foldl (adoptOne nowMs) s).gate.queueMax = s.gate.queueMax := by
  refine Machine.run_invariant_of_step (I := fun t : Adopting => t.gate.queueMax = s.gate.queueMax)
    (fun t c h => ?_) cs rfl
  by_cases hadm : Admissible t.gate nowMs c
  · obtain ⟨running, hgate, -⟩ := adoptOne_of_admissible hadm
    rwa [hgate]
  · rwa [(adoptOne_of_not_admissible hadm).1]

/-- Contenders that claim distinct jobs fill the queue, or all come in. -/
theorem card_foldl_adoptOne (nowMs : ℤ) (cs : List AdoptedContainer) (s : Adopting)
    (hids : ((contenders s.gate nowMs cs).map (·.jobId)).Nodup) :
    min s.gate.queueMax.toNat (s.gate.jobs.keys.card + (contenders s.gate nowMs cs).length) ≤
      (cs.foldl (adoptOne nowMs) s).gate.jobs.keys.card := by
  induction cs generalizing s with
  | nil => simp [contenders]
  | cons c cs ih =>
    rw [List.foldl_cons]
    by_cases hadm : Admissible s.gate nowMs c
    · rw [contenders_cons_of_pos hadm] at hids ⊢
      rw [List.map_cons, List.nodup_cons] at hids
      obtain ⟨running, hgate, -⟩ := adoptOne_of_admissible hadm
      have hcard : (adoptOne nowMs s c).gate.jobs.keys.card = s.gate.jobs.keys.card + 1 := by
        rw [hgate, Gate.put_jobs, Finmap.card_keys_insert _ hadm.1]
      by_cases hfull : s.gate.jobs.keys.card + 1 < s.gate.queueMax.toNat
      · have hrest : contenders (adoptOne nowMs s c).gate nowMs cs =
            contenders s.gate nowMs cs := by
          rw [hgate]
          exact contenders_put hadm.1 (fun d hd heq => hids.1 (List.mem_map.mpr ⟨d, hd, heq⟩))
            fun _ _ _ => hfull
        have h := ih (adoptOne nowMs s c) (by rw [hrest]; exact hids.2)
        rw [hrest, hcard, hgate, Gate.put_queueMax] at h
        rw [List.length_cons]
        omega
      · -- the queue is full with this one, and nothing leaves it
        have h := card_le_foldl nowMs cs (adoptOne nowMs s c)
        omega
    · rw [contenders_cons_of_neg hadm] at hids ⊢
      have hgate := (adoptOne_of_not_admissible hadm).1
      have h := ih (adoptOne nowMs s c) (by rwa [hgate])
      rwa [hgate] at h

section Order

variable {gate : Gate} {queue : StartQueue} {created : CreatedContainers} {nowMs : ℤ}
  {cs : List AdoptedContainer} {c : AdoptedContainer}

/-- A container that is kept is not removed. -/
theorem notMem_remove_of_kept (hids : (cs.map (·.containerId)).Nodup) (hc : c ∈ cs)
    (hkept : armed c ∈ (adopt gate queue created cs nowMs).adoption.resumed ∨
      armed c ∈ (adopt gate queue created cs nowMs).adoption.requeued) :
    c.containerId ∉ (adopt gate queue created cs nowMs).adoption.remove := by
  intro hremove
  have hplaces : (adopt gate queue created cs nowMs).adoption.places c = 1 := places_adopt hids hc
  have hremove := List.count_pos_iff.mpr hremove
  unfold Adoption.places at hplaces
  rcases hkept with hkept | hkept
  · have := List.count_pos_iff.mpr hkept
    omega
  · have := List.count_pos_iff.mpr hkept
    omega

/-- An admissible container that comes first is kept. -/
theorem kept_of_first (hadm : Admissible gate nowMs c) (cs : List AdoptedContainer) :
    armed c ∈ (adopt gate queue created (c :: cs) nowMs).adoption.resumed ∨
      armed c ∈ (adopt gate queue created (c :: cs) nowMs).adoption.requeued := by
  obtain ⟨-, -, hkept⟩ := adoptOne_of_admissible (s := ⟨gate, queue, created, ⟨[], [], []⟩⟩) hadm
  have hext := extends_foldl nowMs cs (adoptOne nowMs ⟨gate, queue, created, ⟨[], [], []⟩⟩ c)
  exact hkept.imp (hext.resumed ·) (hext.requeued ·)

/-- A container that is not admissible when it is reached is removed. -/
theorem mem_remove_of_not_admissible (before after : List AdoptedContainer)
    (hadm : ¬ Admissible (adopt gate queue created before nowMs).gate nowMs c) :
    c.containerId ∈ (adopt gate queue created (before ++ c :: after) nowMs).adoption.remove := by
  have hext := extends_foldl nowMs after
    (adoptOne nowMs (adopt gate queue created before nowMs) c)
  unfold adopt at hadm hext ⊢
  rw [List.foldl_append, List.foldl_cons]
  apply hext.remove
  rw [(adoptOne_of_not_admissible hadm).2]
  exact List.mem_append_right _ (List.mem_singleton_self _)

/-- If the order does not matter, a contender is not refused in any order. -/
theorem admissible_of_sameOutcome (hids : (cs.map (·.containerId)).Nodup)
    (hsame : ∀ cs', cs'.Perm cs → SameOutcome (adopt gate queue created cs' nowMs).adoption
      (adopt gate queue created cs nowMs).adoption)
    (hc : c ∈ contenders gate nowMs cs) {before after : List AdoptedContainer}
    (hperm : (before ++ c :: after).Perm cs) :
    Admissible (adopt gate queue created before nowMs).gate nowMs c := by
  obtain ⟨hmem, hadm⟩ := mem_contenders.mp hc
  by_contra hno
  -- first it is kept, and here it is removed
  have hfirst : (c :: cs.erase c).Perm cs := (List.perm_cons_erase hmem).symm
  have hkept := @kept_of_first gate queue created nowMs c hadm (cs.erase c)
  have hremove := mem_remove_of_not_admissible before after hno
  rw [← List.mem_toFinset, (hsame _ hperm).remove, ← (hsame _ hfirst).remove,
    List.mem_toFinset] at hremove
  exact notMem_remove_of_kept ((hfirst.map _).nodup_iff.mpr hids) List.mem_cons_self hkept hremove

theorem roomy_of_sameOutcome (hids : (cs.map (·.containerId)).Nodup)
    (hsame : ∀ cs', cs'.Perm cs → SameOutcome (adopt gate queue created cs' nowMs).adoption
      (adopt gate queue created cs nowMs).adoption) : Roomy gate nowMs cs := by
  have hjobs : ((contenders gate nowMs cs).map (·.jobId)).Nodup := by
    have hnodup : (contenders gate nowMs cs).Nodup := (List.Nodup.of_map _ hids).filter _
    rw [List.nodup_map_iff_inj_on hnodup]
    intro c hc d hd hjob
    by_contra hne
    -- `d` comes in first and takes the job id
    obtain ⟨hcmem, hcadm⟩ := mem_contenders.mp hc
    obtain ⟨hdmem, hdadm⟩ := mem_contenders.mp hd
    have hrest : (c :: ((cs.erase d).erase c)).Perm (cs.erase d) :=
      (List.perm_cons_erase ((List.mem_erase_of_ne hne).mpr hcmem)).symm
    have hperm : ([d] ++ c :: ((cs.erase d).erase c)).Perm cs :=
      (hrest.cons d).trans (List.perm_cons_erase hdmem).symm
    have hadm := admissible_of_sameOutcome hids hsame hc hperm
    obtain ⟨running, hgate, -⟩ :=
      adoptOne_of_admissible (s := ⟨gate, queue, created, ⟨[], [], []⟩⟩) hdadm
    apply hadm.1
    show c.jobId ∈ (adoptOne nowMs ⟨gate, queue, created, ⟨[], [], []⟩⟩ d).gate.jobs
    rw [hgate, hjob]
    exact Finmap.mem_insert.mpr (.inl rfl)
  refine ⟨hjobs, fun c hc hrequeue => ?_⟩
  obtain ⟨hmem, hadm⟩ := mem_contenders.mp hc
  by_contra hfull
  -- `c` comes last, when the others have filled the queue
  have hperm : (cs.erase c ++ [c]).Perm cs :=
    (List.perm_append_singleton _ _).trans (List.perm_cons_erase hmem).symm
  have hlast := admissible_of_sameOutcome hids hsame hc hperm
  have hcont : (c :: contenders gate nowMs (cs.erase c)).Perm (contenders gate nowMs cs) := by
    rw [← contenders_cons_of_pos hadm]
    exact (List.perm_cons_erase hmem).symm.filter _
  have hcount := card_foldl_adoptOne nowMs (cs.erase c) ⟨gate, queue, created, ⟨[], [], []⟩⟩
    (List.nodup_cons.mp ((hcont.map _).nodup_iff.mpr hjobs)).2
  have hlen := hcont.length_eq
  rw [List.length_cons] at hlen
  rcases hlast.2 with hresume | ⟨-, -, hroom⟩
  · rw [hresume] at hrequeue
    cases hrequeue
  · have hmax : (adopt gate queue created (cs.erase c) nowMs).gate.queueMax = gate.queueMax :=
      queueMax_foldl nowMs (cs.erase c) _
    rw [hmax] at hroom
    have hcount : min gate.queueMax.toNat
        (gate.jobs.keys.card + (contenders gate nowMs (cs.erase c)).length) ≤
        (adopt gate queue created (cs.erase c) nowMs).gate.jobs.keys.card := hcount
    omega

end Order

/-- **What the order of the listing decides.** Adoption puts each listed container in one place and
    keeps at most one for each job, whatever the order; and every order has the same outcome exactly
    when no two contenders claim one job and the queue has room for them all. -/
theorem adopt_perm_iff (gate : Gate) (queue : StartQueue) (created : CreatedContainers)
    (cs : List AdoptedContainer) (nowMs : ℤ) (hids : (cs.map (·.containerId)).Nodup) :
    (∀ c ∈ cs, (adopt gate queue created cs nowMs).adoption.places c = 1) ∧
    (((adopt gate queue created cs nowMs).adoption.resumed ++
      (adopt gate queue created cs nowMs).adoption.requeued).map (·.jobId)).Nodup ∧
    ((∀ cs', cs'.Perm cs → SameOutcome (adopt gate queue created cs' nowMs).adoption
        (adopt gate queue created cs nowMs).adoption) ↔ Roomy gate nowMs cs) :=
  ⟨fun _ hc => places_adopt hids hc, (tracked_adopt gate queue created cs nowMs).once,
    roomy_of_sameOutcome hids, fun h _ hperm => sameOutcome_of_roomy h hperm⟩

/-- An unexpired container of two vCPUs. -/
def listed (jobId containerId : String) (lifecycle : ContainerLifecycle) : AdoptedContainer :=
  ⟨jobId, containerId, 100, ⟨2, 4096⟩, lifecycle⟩

theorem adopt_perm_two_jobs :
    let cs := [listed "a" "a1" .running, listed "b" "b1" .created]
    (∀ c ∈ cs, (adopt (Gate.new ⟨4, 8192⟩ 2) .new .new cs 1).adoption.places c = 1) ∧
      SameOutcome (adopt (Gate.new ⟨4, 8192⟩ 2) .new .new cs.reverse 1).adoption
        (adopt (Gate.new ⟨4, 8192⟩ 2) .new .new cs 1).adoption := by
  intro cs
  have h := adopt_perm_iff (Gate.new ⟨4, 8192⟩ 2) .new .new cs 1 (by decide)
  exact ⟨h.1, h.2.2.mpr ⟨by decide, by decide⟩ cs.reverse (List.reverse_perm cs)⟩

/-- Two running containers of one job: the one listed first is resumed and the other removed. -/
theorem adopt_keeps_first_listed :
    let c := listed "a" "a1" .running
    let d := listed "a" "a2" .running
    [d, c].Perm [c, d] ∧
      (adopt (Gate.new ⟨4, 8192⟩ 2) .new .new [c, d] 1).adoption = ⟨[armed c], [], ["a2"]⟩ ∧
      (adopt (Gate.new ⟨4, 8192⟩ 2) .new .new [d, c] 1).adoption = ⟨[armed d], [], ["a1"]⟩ ∧
      ¬ SameOutcome (adopt (Gate.new ⟨4, 8192⟩ 2) .new .new [d, c] 1).adoption
        (adopt (Gate.new ⟨4, 8192⟩ 2) .new .new [c, d] 1).adoption := by
  refine ⟨by decide, by decide, by decide, fun h => absurd h.remove (by decide)⟩

end GhRunner.Daemon
