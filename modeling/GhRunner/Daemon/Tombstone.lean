import GhRunner.Daemon.System
import GhRunner.Daemon.Adopt

namespace GhRunner.Daemon

open Machine

/-!
# A reaped job stays reaped

What the tombstone of a reap protects while it lasts, and the two ways around it.

* `Reaped` — the job's tombstone is there, set or refreshed after a given instant;
* `dropsTombstone`, `Within` — the steps that take it away: a destroy's `forget` and a tick's
  release;
* `Startable` — a container a tick that has not begun may still come to start for a job;
* `reaped_stays_reaped` — the run theorem, from the mark through the return of the reap;
* `unresolved_reap_then_started` — a run around the tombstone.
-/

namespace Task

/-- A reap of the job that has set the tombstone. -/
def ofReap (j : JobId) : Task → Prop
  | .reapKnown k _ | .reapList k _ | .reapRemove k _ _ | .releaseGate k | .releaseQueue k
  | .releaseCreated k => k = j
  | _ => False

/-- The containers such a reap has not yet made sure are gone.  One that settled has removed every
    container the listing named. -/
def unremoved : Task → Set String
  | .reapRemove _ left true => {c | c ∈ left}
  | .releaseGate _ | .releaseQueue _ | .releaseCreated _ => ∅
  | _ => Set.univ

end Task

namespace System

/-! ### While the tombstone lasts -/

/-- The job's tombstone is there, set or refreshed at `since` or later. -/
structure Reaped (s : System) (j : JobId) (since : Instant) : Prop where
  tombstone : ∃ at_, s.records.registry.state j = some (.reaped at_) ∧ since ≤ at_
  past : since ≤ s.now

/-- The step drops what the registry holds for the job. -/
def dropsTombstone (s : System) (j : JobId) : Event → Bool
  | .run i _ =>
    (s.tasks.lookup i).any fun t => match t with | .forget job _ => decide (job = j) | _ => false
  | .tickReconcile nowMs =>
    match s.tick with
    | .listed snapshot => decide (j ∈ released s.records snapshot nowMs)
    | _ => false
  | .tickStart .noSuchContainer =>
    match s.tick with
    | .acting [] (request :: _) => !s.live request.containerId && decide (request.jobId = j)
    | _ => false
  | _ => false

/-- The tombstone has not outlived its time, and the step does not drop it. -/
def Within (j : JobId) (since : Instant) (s : System) (e : Event) : Prop :=
  s.now < since + TOMBSTONE_TTL ∧ s.dropsTombstone j e = false

instance (j : JobId) (since : Instant) (s : System) (e : Event) : Decidable (Within j since s e) :=
  inferInstanceAs (Decidable (_ ∧ _))

/-- What the tombstone is there for: a `begin_create` or `finish_create` of the job finds it. -/
def AnswersReaped (j : JobId) (s : System) : Event → Prop
  | .run i _ => ∀ t ∈ s.tasks.lookup i, match t with
    | .beginCreate job => job = j → (s.records.registry.beginCreate job s.now).1 = .alreadyReaped
    | .finishCreate job c =>
      job = j → (s.records.registry.finishCreate job c s.now).1 = .discardReaped
    | _ => True
  | _ => True

/-- The step starts a container of the job. -/
def startsContainer (s : System) (j : JobId) : Event → Bool
  | .tickStart .ok =>
    match s.tick with
    | .acting [] (request :: _) => s.live request.containerId && decide (request.jobId = j)
    | _ => false
  | _ => false

/-- A tombstone no older than its time survives every pruning. -/
theorem Reaped.prune {s : System} {j : JobId} {since : Instant} (h : s.Reaped j since)
    (hnow : s.now < since + TOMBSTONE_TTL) :
    ∃ at_, (s.records.registry.prune s.now).state j = some (.reaped at_) ∧ since ≤ at_ := by
  obtain ⟨at_, hstate, hat⟩ := h.tombstone
  refine ⟨at_, ?_, hat⟩
  have hage : s.now - at_ < TOMBSTONE_TTL :=
    (Nat.sub_le_sub_left hat s.now).trans_lt (Nat.sub_lt_left_of_lt_add h.past hnow)
  rw [JobRegistry.state_prune, hstate]
  simp [JobState.expired, hage]

theorem Reaped.answers {s : System} {j : JobId} {since : Instant} (h : s.Reaped j since)
    {e : Event} (hw : Within j since s e) : s.AnswersReaped j e := by
  cases e with
  | run i answer =>
    intro t ht
    cases t with
    | beginCreate job =>
      rintro rfl
      obtain ⟨at_, hstate, -⟩ := h.prune hw.1
      rcases s.records.registry.beginCreate_spec job s.now with
        ⟨_, -, hb⟩ | ⟨hother | ⟨c, hother⟩, -⟩ | ⟨hother, -⟩
      · rw [hb]
      all_goals
        rw [hstate] at hother
        cases hother
    | finishCreate job c =>
      rintro rfl
      obtain ⟨at_, hstate, -⟩ := h.tombstone
      exact (JobRegistry.finishCreate_discard_iff _ _ _ _).mpr ⟨at_, hstate⟩
    | _ => trivial
  | _ => trivial

/-- No move of a request takes an unexpired tombstone away, a `forget` of the job aside. -/
theorem Moves.keeps_reaped {s u : System} {answer : Answer} {t : Task} {next : Option Task}
    (hmove : Moves s answer t u next) {j : JobId} {since : Instant} (h : s.Reaped j since)
    (hnow : s.now < since + TOMBSTONE_TTL) (hforget : ∀ r, t ≠ .forget j r) :
    u.Reaped j since := by
  have hpruned := h.prune hnow
  obtain ⟨at_, hstate, hat⟩ := h.tombstone
  cases hmove with
  | claimed job hfree =>
    refine ⟨?_, h.past⟩
    obtain ⟨at', hstate', hat'⟩ := hpruned
    have hne : j ≠ job := by
      rintro rfl
      rw [hfree] at hstate'
      cases hstate'
    exact ⟨at', (JobRegistry.state_insert _ _ _ _).trans ((if_neg hne).trans hstate'), hat'⟩
  | notClaimed job => exact ⟨hpruned, h.past⟩
  | createFailed job =>
    refine ⟨⟨at_, ?_, hat⟩, h.past⟩
    show (s.records.registry.abandonCreate job).state j = _
    rw [JobRegistry.state_abandonCreate]
    split
    case isTrue hj => simp [← hj, hstate]
    case isFalse => exact hstate
  | kept job c hlive =>
    have hne : j ≠ job := by
      rintro rfl
      exact hlive at_ hstate
    exact ⟨⟨at_, (JobRegistry.state_finishCreate _ _ _ _ _).trans ((if_neg hne).trans hstate), hat⟩,
      h.past⟩
  | reaped job c _ =>
    by_cases hj : j = job
    · subst hj
      refine ⟨⟨s.now, ?_, h.past⟩, h.past⟩
      show (s.records.registry.finishCreate j c s.now).2.state j = _
      rw [JobRegistry.state_finishCreate, if_pos rfl, hstate]
    · exact ⟨⟨at_, (JobRegistry.state_finishCreate _ _ _ _ _).trans ((if_neg hj).trans hstate), hat⟩,
        h.past⟩
  | reapMarked job next _ =>
    by_cases hj : j = job
    · exact ⟨⟨s.now, (JobRegistry.state_reap _ _ _ _).trans (if_pos hj), h.past⟩, h.past⟩
    · obtain ⟨at', hstate', hat'⟩ := hpruned
      exact ⟨⟨at', (JobRegistry.state_reap _ _ _ _).trans ((if_neg hj).trans hstate'), hat'⟩,
        h.past⟩
  | forgotten job r =>
    have hne : j ≠ job := by
      rintro rfl
      exact hforget r rfl
    exact ⟨⟨at_, (JobRegistry.state_forget _ _ _).trans ((if_neg hne).trans hstate), hat⟩, h.past⟩
  | discarded job c => cases answer <;> exact ⟨⟨at_, hstate, hat⟩, h.past⟩
  | reapKnownRemoved job c => cases answer <;> exact ⟨⟨at_, hstate, hat⟩, h.past⟩
  | _ => exact ⟨⟨at_, hstate, hat⟩, h.past⟩

theorem Reaped.step {s : System} {j : JobId} {since : Instant} (h : s.Reaped j since) {e : Event}
    (hw : Within j since s e) : (s.step e).Reaped j since := by
  obtain ⟨hnow, hdrop⟩ := hw
  have heff := s.step_effect e
  generalize s.step e = s' at heff
  cases heff with
  | advanced d => exact ⟨h.tombstone, h.past.trans (Nat.le_add_right _ _)⟩
  | moved i answer t u next ht hmove =>
    have hforget : ∀ r, t ≠ .forget j r := by
      rintro r rfl
      simp [dropsTombstone, ht] at hdrop
    have hu := hmove.keeps_reaped h hnow hforget
    cases next <;> exact ⟨hu.tombstone, hu.past⟩
  | reconciled nowMs snapshot htick =>
    simp only [dropsTombstone, htick, decide_eq_false_iff_not] at hdrop
    have hstate : (reconcile s.records snapshot nowMs).1.registry.state j =
        s.records.registry.state j := by
      rcases reconcile_job s.records snapshot nowMs j with ⟨hj, -⟩ | ⟨-, hstarted | hsame⟩
      · exact absurd hj hdrop
      · exact hstarted.registry
      · exact hsame.registry
    exact ⟨hstate ▸ h.tombstone, h.past⟩
  | vanished request start htick hgone =>
    simp only [dropsTombstone, htick, hgone, Bool.not_false, Bool.true_and,
      decide_eq_false_iff_not] at hdrop
    have hsame := s.records.same_releaseJob (Ne.symm hdrop)
    exact ⟨by rw [hsame.registry]; exact h.tombstone, h.past⟩
  | _ => exact ⟨h.tombstone, h.past⟩

/-! ### What may still be started -/

/-- The job waits for a start: in the queue, in the tick's hand, or on its way back. -/
def Waits (s : System) (j : JobId) : Prop :=
  j ∈ s.records.queue.waiting ∨ (∃ request ∈ s.starts, request.jobId = j) ∨ s.Requeueing j

/-- A create is about to record the container for the job. -/
def Remembering (s : System) (j : JobId) (c : String) : Prop :=
  s.Pending fun t => t = .rememberCreated j c

/-- A tick that has not begun may come to start the container for the job. -/
def Startable (s : System) (j : JobId) (c : String) : Prop :=
  (s.Waits j ∧ s.records.created.existing j = some c) ∨ s.Remembering j c

/-- The container is recorded for the job, or about to be. -/
def Kept (s : System) (j : JobId) (c : String) : Prop :=
  s.records.created.existing j = some c ∨ s.Remembering j c

theorem Startable.kept {s : System} {j : JobId} {c : String} (h : s.Startable j c) : s.Kept j c :=
  h.imp_left And.right

theorem Kept.labelled {s : System} {j : JobId} {c : String} (h : s.Kept j c)
    (hl : s.AllLabelled) : s.Labelled c j := by
  rcases h with h | ⟨i, t, ht, rfl⟩
  · exact hl.recorded j c h
  · exact hl.tasks i _ ht j c (.inr (.inr (.inl rfl)))

/-- Only a `finish_create` that found no tombstone goes on to record the container. -/
theorem Moves.remembering {s u : System} {answer : Answer} {t : Task} {j : JobId} {c : String}
    (hmove : Moves s answer t u (some (.rememberCreated j c))) :
    ∀ at_, s.records.registry.state j ≠ some (.reaped at_) := by
  generalize hnext : some (Task.rememberCreated j c) = next at hmove
  cases hmove with
  | kept job d hlive =>
    obtain ⟨rfl, rfl⟩ := Task.rememberCreated.inj (Option.some.inj hnext)
    exact hlive
  | forgotten job r => cases r <;> cases hnext
  | reapMarked job n hn => rcases hn with rfl | ⟨d, rfl⟩ <;> cases hnext
  | _ => cases hnext

theorem Effect.remembering {s s' : System} {e : Event} (h : s.Effect e s') {j : JobId}
    {since : Instant} (hr : s.Reaped j since) {c : String} (hp : s'.Remembering j c) :
    s.Remembering j c := by
  obtain ⟨i, t, ht, rfl⟩ := hp
  rcases h.lookup ht with hold | ⟨-, hnew⟩ | ⟨_, _, _, -, -, hmove, -⟩
  · exact ⟨i, _, hold, rfl⟩
  · cases hnew
  · obtain ⟨at_, hstate, -⟩ := hr.tombstone
    exact absurd hstate (hmove.remembering at_)

/-- A waiting job with a record was so before, or was just recorded. -/
theorem Moves.startable {s u : System} {answer : Answer} {t : Task} {next : Option Task}
    (hmove : Moves s answer t u next) {j : JobId} {c : String} (hw : u.Waits j)
    (hc : u.records.created.existing j = some c) :
    (s.Waits j ∧ s.records.created.existing j = some c) ∨ t = .rememberCreated j c := by
  cases hmove with
  | remembered job d htracked =>
    have hrecord := (CreatedContainers.existing_record _ _ _ _).symm.trans hc
    by_cases hj : j = job
    · rw [if_pos hj] at hrecord
      obtain rfl := Option.some.inj hrecord
      exact .inr (hj ▸ rfl)
    · rw [if_neg hj] at hrecord
      refine .inl ⟨hw.imp_left fun hw => ?_, hrecord⟩
      rcases List.mem_append.mp hw with hw | hw
      · exact hw
      · exact absurd (List.mem_singleton.mp hw) hj
  | releasedQueue job => exact .inl ⟨hw.imp_left fun hw => (List.mem_filter.mp hw).1, hc⟩
  | releasedCreated job =>
    have hforget := (CreatedContainers.existing_forget _ _ _).symm.trans hc
    split at hforget
    · cases hforget
    · exact .inl ⟨hw, hforget⟩
  | discarded job d => cases answer <;> exact .inl ⟨hw, hc⟩
  | reapKnownRemoved job d => cases answer <;> exact .inl ⟨hw, hc⟩
  | _ => exact .inl ⟨hw, hc⟩

/-- Under the tombstone no step makes a container startable that was not. -/
theorem Effect.startable {s s' : System} {e : Event} (h : s.Effect e s') {j : JobId}
    {since : Instant} (hr : s.Reaped j since) {c : String} (hs : s'.Startable j c) :
    s.Startable j c := by
  rcases hs with ⟨hw, hc⟩ | hp
  case inr => exact .inr (h.remembering hr hp)
  have hstarts : (∃ request ∈ s'.starts, request.jobId = j) → s.Waits j := by
    rintro ⟨request, hmem, rfl⟩
    rcases h.mem_starts hmem with ⟨hold, -⟩ | ⟨hwaiting, -⟩
    · exact .inr (.inl ⟨request, hold, rfl⟩)
    · exact .inl hwaiting
  cases h with
  | moved i answer t u next ht hmove =>
    rw [advanceTo_records] at hc
    have hw' : u.Waits j := by
      rw [Waits, Requeueing, starts, advanceTo_records, advanceTo_tick] at hw
      exact hw
    rcases hmove.startable hw' hc with hold | rfl
    · exact .inl hold
    · exact .inr ⟨i, _, ht, rfl⟩
  | reconciled nowMs snapshot htick =>
    refine .inl ⟨?_, existing_reconcile hc⟩
    rcases hw with hwaiting | hw | ⟨start, hw⟩
    · rcases reconcile_job s.records snapshot nowMs j with ⟨-, hgone⟩ | ⟨-, hstarted | hsame⟩
      · exact absurd hwaiting hgone.queue
      · exact .inl hstarted.waited
      · rw [← List.count_pos_iff, hsame.queue, List.count_pos_iff] at hwaiting
        exact .inl hwaiting
    · exact hstarts hw
    · cases hw
  | vanished request start htick hgone =>
    have hforget := (CreatedContainers.existing_forget _ _ _).symm.trans hc
    split at hforget
    · cases hforget
    · refine .inl ⟨?_, hforget⟩
      rcases hw with hwaiting | hw | ⟨_, hw⟩
      · exact .inl (List.mem_filter.mp hwaiting).1
      · exact hstarts hw
      · cases hw
  | pushed job start htick =>
    refine .inl ⟨?_, hc⟩
    rcases hw with hwaiting | hw | ⟨_, hw⟩
    · rcases List.mem_append.mp hwaiting with hwaiting | hwaiting
      · exact .inl hwaiting
      · rw [List.mem_singleton.mp hwaiting]
        exact .inr (.inr ⟨start, htick⟩)
    · exact hstarts hw
    · cases hw
  | unstarted request start e htick hlook =>
    refine .inl ⟨?_, hc⟩
    rcases hw with hwaiting | hw | ⟨_, hw⟩
    · exact .inl hwaiting
    · exact hstarts hw
    · obtain ⟨rfl, -⟩ := TickPhase.requeueing.inj hw
      exact .inr (.inl ⟨request, by simp [starts, htick], rfl⟩)
  | _ =>
    refine .inl ⟨?_, hc⟩
    rcases hw with hwaiting | hw | ⟨start, hw⟩
    · exact .inl hwaiting
    · exact hstarts hw
    · first | exact .inr (.inr ⟨start, hw⟩) | cases hw

/-- Nor does any step make one kept. -/
theorem Effect.kept {s s' : System} {e : Event} (h : s.Effect e s') {j : JobId} {since : Instant}
    (hr : s.Reaped j since) {c : String} (hk : s'.Kept j c) : s.Kept j c := by
  rcases hk with hc | hp
  · exact h.existing hc
  · exact .inr (h.remembering hr hp)

/-! ### After the reap has returned -/

/-- Every container of the job a later tick could start is gone, and so is every one the tick in
    progress, if it is later than the `n`-th, is still to start. -/
structure Returned (s : System) (j : JobId) (since : Instant) (n : ℕ) : Prop where
  labelled : s.AllLabelled
  reaped : s.Reaped j since
  spent : ∀ c, s.Startable j c → s.live c = false
  starts : n < s.tickNo → ∀ request ∈ s.starts, request.jobId = j →
    s.live request.containerId = false

/-- A container that was gone stays gone. -/
theorem Effect.gone {s s' : System} {e : Event} (h : s.Effect e s') {c : String} {j : JobId}
    (hc : s.Labelled c j) (hgone : s.live c = false) : s'.live c = false := by
  by_contra hl
  rw [h.live hc (Bool.eq_true_of_not_eq_false hl)] at hgone
  cases hgone

theorem Returned.step {s : System} {j : JobId} {since : Instant} {n : ℕ}
    (h : s.Returned j since n) {e : Event} (hw : Within j since s e) :
    (s.step e).Returned j since n := by
  have heff := s.step_effect e
  refine ⟨h.labelled.step e, h.reaped.step hw, fun c hc => ?_, fun hn request hr hj => ?_⟩
  · have hold := heff.startable h.reaped hc
    exact heff.gone (hold.kept.labelled h.labelled) (h.spent c hold)
  · rcases heff.mem_starts hr with ⟨hold, htick⟩ | ⟨hwaiting, hexisting⟩
    · exact heff.gone (h.labelled.starts request hold) (h.starts (htick ▸ hn) request hold hj)
    · subst hj
      exact heff.gone (h.labelled.recorded _ _ hexisting) (h.spent _ (.inl ⟨.inl hwaiting, hexisting⟩))

theorem Returned.startsNothing {s : System} {j : JobId} {since : Instant} {n : ℕ}
    (h : s.Returned j since n) (hn : n < s.tickNo) (e : Event) : s.startsContainer j e = false := by
  by_contra hstart
  have hstart := Bool.eq_true_of_not_eq_false hstart
  unfold startsContainer at hstart
  split at hstart
  case h_1 =>
    split at hstart
    case h_1 request start htick =>
      obtain ⟨hlive, hj⟩ := (Bool.and_eq_true _ _).mp hstart
      have hmem : request ∈ s.starts := by simp [System.starts, htick]
      rw [h.starts hn request hmem (of_decide_eq_true hj)] at hlive
      cases hlive
    case h_2 => cases hstart
  case h_2 => cases hstart

/-! ### While the reap is in flight -/

/-- The reap `i` of the job stands after its mark; the kept containers that are still there are
    among those it has not removed. -/
structure Reaping (s : System) (i : ℕ) (j : JobId) (since : Instant) : Prop where
  labelled : s.AllLabelled
  reaped : s.Reaped j since
  task : ∃ t, s.tasks.lookup i = some t ∧ t.ofReap j ∧
    ∀ c, s.Kept j c → s.live c = true → c ∈ t.unremoved

/-- A reap moves on as a reap, and every container it crosses off is gone. -/
theorem Moves.unremoved {s u : System} {answer : Answer} {t n : Task} {j : JobId}
    (hmove : Moves s answer t u (some n)) (ht : t.ofReap j) :
    n.ofReap j ∧ ∀ c, s.Labelled c j → u.live c = true → c ∈ t.unremoved → c ∈ n.unremoved := by
  generalize hnext : some n = next at hmove
  cases hmove with
  | releasedGate job =>
    obtain rfl := Option.some.inj hnext
    exact ⟨ht, fun c _ _ h => h⟩
  | releasedQueue job =>
    obtain rfl := Option.some.inj hnext
    exact ⟨ht, fun c _ _ h => h⟩
  | reapKnownRemoved job d =>
    obtain rfl := Option.some.inj hnext
    exact ⟨ht, fun c _ _ _ => trivial⟩
  | reapListed job settled =>
    obtain rfl := Option.some.inj hnext
    refine ⟨ht, fun c hc hl _ => ?_⟩
    cases settled with
    | false => trivial
    | true =>
      obtain rfl : job = j := ht
      obtain ⟨⟨job', live⟩, hlook, hlive⟩ := (Option.any_eq_true _ _).mp hl
      obtain rfl : live = true := hlive
      rw [Labelled, hlook] at hc
      obtain rfl : job' = job := Option.some.inj hc
      exact Finset.mem_filter.mpr ⟨Finmap.mem_keys.mpr (Finmap.mem_of_lookup_eq_some hlook), hlook⟩
  | reapNotListed job settled =>
    obtain rfl := Option.some.inj hnext
    exact ⟨ht, fun c _ _ _ => trivial⟩
  | reapRemoved job left settled d =>
    obtain rfl := Option.some.inj hnext
    refine ⟨ht, fun c _ hl hc => ?_⟩
    cases settled with
    | false => trivial
    | true => exact Finset.mem_erase.mpr ⟨((live_removeContainer s c d).mp hl).2, hc⟩
  | reapNotRemoved job left settled d =>
    obtain rfl := Option.some.inj hnext
    exact ⟨ht, fun c _ _ _ => trivial⟩
  | reapSettled job =>
    obtain rfl := Option.some.inj hnext
    refine ⟨ht, fun c _ _ hc => ?_⟩
    exact absurd hc (Finset.notMem_empty c)
  | _ => first | exact absurd ht id | cases hnext

theorem Reaping.step {s : System} {i : ℕ} {j : JobId} {since : Instant}
    (h : s.Reaping i j since) {e : Event} (hw : Within j since s e)
    (hin : i ∈ (s.step e).tasks) : (s.step e).Reaping i j since := by
  obtain ⟨t, ht, hof, hleft⟩ := h.task
  obtain ⟨t', ht'⟩ := Finmap.mem_iff.mp hin
  have heff := s.step_effect e
  refine ⟨h.labelled.step e, h.reaped.step hw, t', ht', ?_⟩
  have hbefore : ∀ c, (s.step e).Kept j c → (s.step e).live c = true →
      s.Labelled c j ∧ c ∈ t.unremoved := by
    intro c hk hl
    have hk := heff.kept h.reaped hk
    have hc := hk.labelled h.labelled
    exact ⟨hc, hleft c hk (heff.live hc hl)⟩
  rcases heff.lookup ht' with hold | ⟨hi, -⟩ | ⟨answer, t₀, u, -, ht₀, hmove, hs⟩
  · obtain rfl : t = t' := Option.some.inj (ht.symm.trans hold)
    exact ⟨hof, fun c hk hl => (hbefore c hk hl).2⟩
  · exact absurd (Finmap.mem_of_lookup_eq_some ht) hi
  · obtain rfl : t = t₀ := Option.some.inj (ht.symm.trans ht₀)
    obtain ⟨hof', hcross⟩ := hmove.unremoved hof
    refine ⟨hof', fun c hk hl => ?_⟩
    obtain ⟨hc, hmem⟩ := hbefore c hk hl
    refine hcross c hc ?_ hmem
    rw [hs, System.live, advanceTo_docker] at hl
    exact hl

/-- A reap ends with its last release, or unresolved. -/
theorem Moves.reapEnds {s u : System} {answer : Answer} {t : Task} {j : JobId}
    (hmove : Moves s answer t u none) (ht : t.ofReap j) :
    t = .releaseCreated j ∨ t = .reapRemove j ∅ false := by
  generalize hnext : none = next at hmove
  cases hmove with
  | releasedCreated job => exact .inl (ht ▸ rfl)
  | reapUnresolved job => exact .inr (ht ▸ rfl)
  | _ => first | exact absurd ht id | cases hnext

/-- The reap has returned.  If it settled, nothing of the job is left to start; an unresolved one
    needs that said. -/
theorem Reaping.returned {s : System} {i : ℕ} {j : JobId} {since : Instant}
    (h : s.Reaping i j since) {e : Event} (hw : Within j since s e)
    (hout : i ∉ (s.step e).tasks)
    (hunresolved : s.tasks.lookup i = some (.reapRemove j ∅ false) →
      ∀ c, (s.step e).Startable j c → (s.step e).live c = false) :
    (s.step e).Returned j since (s.step e).tickNo := by
  obtain ⟨t, ht, hof, hleft⟩ := h.task
  refine ⟨h.labelled.step e, h.reaped.step hw, fun c hc => ?_, fun hn => absurd hn (lt_irrefl _)⟩
  have heff := s.step_effect e
  have hend : t = .releaseCreated j ∨ t = .reapRemove j ∅ false := by
    generalize s.step e = s' at heff hout
    have hi : i ∈ s.tasks := Finmap.mem_of_lookup_eq_some ht
    cases heff with
    | spawned _ k t' hk hnew => exact absurd (Finmap.mem_insert.mpr (.inr hi)) hout
    | moved k answer t₀ u next ht₀ hmove =>
      cases next with
      | some n =>
        refine absurd (Finmap.mem_insert.mpr (.inr ?_)) hout
        rwa [hmove.tasks_eq]
      | none =>
        by_cases hik : i = k
        · subst hik
          obtain rfl : t = t₀ := Option.some.inj (ht.symm.trans ht₀)
          exact hmove.reapEnds hof
        · refine absurd (Finmap.mem_erase.mpr ⟨hik, ?_⟩) hout
          rwa [hmove.tasks_eq]
    | _ => exact absurd hi hout
  rcases hend with rfl | rfl
  · by_contra hl
    have hk := heff.kept h.reaped hc.kept
    exact hleft c hk (heff.live (hk.labelled h.labelled) (Bool.eq_true_of_not_eq_false hl))
  · exact hunresolved ht c hc

/-! ### Whole runs -/

/-- A freshly started daemon refers to the containers of its records only. -/
theorem AllLabelled.start {r : Records} {docker : Finmap fun _ : String => Container}
    (h : ∀ j c, r.created.existing j = some c → (docker.lookup c).map (·.job) = some j) :
    (System.start r docker).AllLabelled where
  tasks i t ht := by
    rw [System.start, Finmap.lookup_empty] at ht
    cases ht
  recorded := h
  starts request hr := absurd hr List.not_mem_nil

/-- The reap's first section sets the tombstone. -/
theorem Reaping.mark {s : System} (h : s.AllLabelled) {i : ℕ} {j : JobId}
    (ht : s.tasks.lookup i = some (.reap j)) (answer : Answer) :
    (s.step (.run i answer)).now = s.now ∧ (s.step (.run i answer)).Reaping i j s.now := by
  have hstep : ∃ t, t.ofReap j ∧ t.unremoved = Set.univ ∧
      s.step (.run i answer) = (s.setRegistry (s.records.registry.reap j s.now).2).goto i t := by
    simp only [System.step, ht, runTask]
    cases s.records.registry.reap j s.now with
    | mk known registry =>
      cases known with
      | none => exact ⟨.reapList j true, rfl, rfl, rfl⟩
      | some c => exact ⟨.reapKnown j c, rfl, rfl, rfl⟩
  obtain ⟨t, hof, huniv, hs⟩ := hstep
  have hl := h.step (.run i answer)
  rw [hs] at hl ⊢
  refine ⟨rfl, hl, ⟨⟨s.now, ?_, le_rfl⟩, le_rfl⟩, t, Finmap.lookup_insert _, hof, fun c _ _ => ?_⟩
  · exact (JobRegistry.state_reap _ _ _ _).trans (if_pos rfl)
  · rw [huniv]
    trivial

/-- **A reaped job stays reaped.**  Take any run of the daemon in which the reap `i` of the job has
    just set its tombstone.  As long as the tombstone has not outlived its time and no step drops
    it, every `begin_create` and `finish_create` of the job finds it; and once the reap has
    returned, no tick that begins afterwards starts a container of the job, provided that, if the
    reap was unresolved, every container a later tick could start is gone. -/
theorem reaped_stays_reaped {r : Records} {docker : Finmap fun _ : String => Container}
    (hbox : ∀ j c, r.created.existing j = some c → (docker.lookup c).map (·.job) = some j)
    {before : List Event} {i : ℕ} {j : JobId}
    (hreap : (run step (start r docker) before).tasks.lookup i = some (.reap j))
    (answer : Answer) :
    let s := run step (start r docker) (before ++ [.run i answer])
    (∀ es, Throughout step (Within j s.now) s es → Throughout step (AnswersReaped j) s es) ∧
    ∀ during last after,
      Throughout step (fun u e => i ∈ (u.step e).tasks) s during →
      let u := run step s during
      let u' := u.step last
      i ∉ u'.tasks →
      Throughout step (Within j s.now) s (during ++ last :: after) →
      (u.tasks.lookup i = some (.reapRemove j ∅ false) →
        ∀ c, u'.Startable j c → u'.live c = false) →
      Throughout step (fun v e => u'.tickNo < v.tickNo → v.startsContainer j e = false) u' after := by
  have hlabelled := @run_invariant_of_step _ _ step _ (fun _ e h => h.step e) _ before
    (AllLabelled.start hbox)
  obtain ⟨hnow, hmark⟩ := Reaping.mark hlabelled hreap answer
  rw [run_append, run_cons, run_nil]
  generalize hs : step (run step (start r docker) before) (.run i answer) = s at hnow hmark
  rw [← hnow] at hmark
  dsimp only
  refine ⟨fun es hes => ?_, fun during last after hflight hout hes hunresolved => ?_⟩
  · exact throughout_of_invariant (I := fun s' => s'.Reaped j s.now) (fun _ _ h hw => h.step hw)
      (fun _ _ h hw => h.answers hw) hes hmark.reaped
  · obtain ⟨hduring, hlast, hafter⟩ := (throughout_append step _ s during (last :: after)).mp hes
    have hu : (run step s during).Reaping i j s.now :=
      run_invariant (I := fun u => u.Reaping i j s.now) (fun _ _ h hw => h.step hw.1 hw.2)
        ((throughout_and step).mpr ⟨hduring, hflight⟩) hmark
    have hreturned := hu.returned hlast hout hunresolved
    generalize hn : ((run step s during).step last).tickNo = n at hreturned ⊢
    exact throughout_of_invariant (I := fun v => v.Returned j s.now n) (fun _ _ h hw => h.step hw)
      (fun _ e h _ hlate => h.startsNothing hlate e) hafter hreturned

/-- A create of job `j` with container `c`, up to its place in the start queue. -/
def queuedCreate (i : ℕ) (j : JobId) (c : String) : List Event :=
  [.postJob i j ⟨1, 1⟩, .run i .ok, .run i .ok, .run i (.created c), .run i .ok, .run i .ok]

/-- A reap that settles, a redelivery, and a tick that could have started the container. -/
theorem reaped_stays_reaped_settled :
    let before := queuedCreate 0 "j" "c" ++ [.deleteJob 1 "j"]
    let s := run step (start (.fresh ⟨4, 4⟩ 10) ∅) (before ++ [.run 1 .ok])
    let during : List Event := [.run 1 .ok, .run 1 .ok, .run 1 .ok, .run 1 .ok, .run 1 .ok]
    let after : List Event := [.postJob 2 "j" ⟨1, 1⟩, .run 2 .ok, .run 2 .ok,
      .tickList [⟨"j", "c", 100, false⟩], .tickReconcile 1, .tickEnd]
    let u' := run step s (during ++ [.run 1 .ok])
    Throughout step (AnswersReaped "j") s (during ++ .run 1 .ok :: after) ∧
      Throughout step (fun v e => u'.tickNo < v.tickNo → v.startsContainer "j" e = false) u' after := by
  intro before s during after u'
  have hreap := @reaped_stays_reaped (.fresh ⟨4, 4⟩ 10) ∅ (fun _ _ h => by cases h) before 1 "j"
    (by decide) .ok
  exact ⟨hreap.1 _ (by decide),
    hreap.2 during (.run 1 .ok) after (by decide) (by decide) (by decide)
      fun h => absurd h (by decide)⟩

/-- A queued job is reaped while Docker refuses: neither the removal nor the listing works, the
    reap returns unresolved, and the next tick starts the container it left. -/
theorem unresolved_reap_then_started :
    let s := run step (start (.fresh ⟨4, 4⟩ 10) ∅)
      (queuedCreate 0 "j" "c" ++ [.deleteJob 1 "j", .run 1 .ok])
    let u' := run step s [.run 1 .fail, .run 1 .fail, .run 1 .ok]
    let tick : List Event := [.tickList [⟨"j", "c", 100, false⟩], .tickReconcile 1]
    (run step s [.run 1 .fail, .run 1 .fail]).tasks.lookup 1 = some (.reapRemove "j" ∅ false) ∧
      1 ∉ u'.tasks ∧ u'.now < s.now + TOMBSTONE_TTL ∧ u'.tickNo < (run step u' tick).tickNo ∧
      (run step u' tick).startsContainer "j" (.tickStart .ok) = true := by
  decide

end System

end GhRunner.Daemon
