import GhRunner.Execution.JobCancellation

namespace GhRunner.Execution.Cancellation

open Text GhRunner.Expressions

/-!
# What cancels a job's steps, and when

* `Sound` — what holds of the signals at every instant: `force` is cancelled for a reason, and the
  deadline lies a grace period after the request was first seen;
* `Later` — what no event takes back: tokens that are cancelled, the deadline once it is set;
* `Justified` — a step's own token is cancelled for its condition alone;
* `cancellation_bounded` — what holds after every run, whatever its order.
-/

/-! ### The signals -/

structure Sound (signal : JobCancellation) (observedAt : Option Instant) (now : Instant) :
    Prop where
  forced : signal.forceFired = true →
    signal.shutdown = true ∨ ∃ deadline ∈ signal.deadline, deadline ≤ now
  deadline : ∀ deadline ∈ signal.deadline, ∃ t ∈ observedAt, t + signal.grace ≤ deadline
  observed : ∀ t ∈ observedAt, signal.request = true ∧ t ≤ now
  pending : signal.watcher = .observed → observedAt.isSome = true
  sleeping : ∀ deadline, signal.watcher = .sleepingUntil deadline →
    signal.deadline = some deadline

variable {signal : JobCancellation} {observedAt : Option Instant} {now : Instant}

theorem force_eq_true : signal.force = true ↔ signal.forceFired = true ∨ signal.shutdown = true := by
  rw [JobCancellation.force, Bool.or_eq_true]

/-- `force` is cancelled only after shutdown or a full grace period. -/
theorem Sound.force (h : Sound signal observedAt now) (hforce : signal.force = true) :
    signal.shutdown = true ∨ ∃ t ∈ observedAt, ∃ deadline ∈ signal.deadline,
      t + signal.grace ≤ deadline ∧ deadline ≤ now := by
  rcases force_eq_true.mp hforce with hfired | hshutdown
  · refine (h.forced hfired).imp_right ?_
    rintro ⟨deadline, hset, hpast⟩
    obtain ⟨t, ht, hgrace⟩ := h.deadline deadline hset
    exact ⟨t, ht, deadline, hset, hgrace, hpast⟩
  · exact .inl hshutdown

theorem sound_withGrace (request shutdown : Bool) (grace now : Instant) :
    Sound (.withGrace request shutdown grace now)
      (if request || shutdown then some now else none) now := by
  refine ⟨nofun, ?_, ?_, nofun, nofun⟩ <;> cases h : request || shutdown <;>
    simp [JobCancellation.withGrace, h]

theorem Sound.withRequest (h : Sound signal observedAt now) :
    Sound { signal with request := true } observedAt now :=
  ⟨h.forced, h.deadline, fun t ht => ⟨rfl, (h.observed t ht).2⟩, h.pending, h.sleeping⟩

theorem Sound.withShutdown (h : Sound signal observedAt now) :
    Sound { signal with shutdown := true } observedAt now :=
  ⟨fun _ => .inl rfl, h.deadline, h.observed, h.pending, h.sleeping⟩

theorem Sound.tick (h : Sound signal observedAt now) (d : Instant) :
    Sound signal observedAt (now + d) := by
  refine ⟨fun hfired => (h.forced hfired).imp_right ?_, h.deadline, ?_, h.pending, h.sleeping⟩
  · rintro ⟨deadline, hset, hpast⟩
    exact ⟨deadline, hset, Nat.le_add_right_of_le hpast⟩
  · exact fun t ht => ⟨(h.observed t ht).1, Nat.le_add_right_of_le (h.observed t ht).2⟩

/-- The watcher may always end. -/
theorem Sound.finished (h : Sound signal observedAt now) :
    Sound { signal with watcher := .finished } observedAt now :=
  ⟨h.forced, h.deadline, h.observed, nofun, nofun⟩

/-- `force` may be cancelled once the deadline is over. -/
theorem Sound.fire (h : Sound signal observedAt now)
    (hdue : signal.shutdown = true ∨ ∃ deadline ∈ signal.deadline, deadline ≤ now) :
    Sound { signal with forceFired := true } observedAt now :=
  ⟨fun _ => hdue, h.deadline, h.observed, h.pending, h.sleeping⟩

theorem Sound.isForced (h : Sound signal observedAt now) :
    Sound (signal.isForced now).2 observedAt now := by
  unfold JobCancellation.isForced
  split
  · rename_i hdue
    apply h.fire
    simpa [Option.any_eq_true] using hdue
  · exact h

theorem Sound.watcherStopped (h : Sound signal observedAt now) :
    Sound signal.watcherStopped observedAt now := by
  unfold JobCancellation.watcherStopped
  split
  · split
    · exact h.withRequest.finished
    · exact h
  · split
    · exact h.finished
    · exact h
  · exact h

/-- The instant of the first observation is kept, or is now. -/
theorem Sound.watcherObserves (h : Sound signal observedAt now) :
    Sound signal.watcherObserves
      (if signal.watcherObserves.watcher = .observed then observedAt.or (some now)
        else observedAt) now := by
  unfold JobCancellation.watcherObserves
  split
  · rename_i hselecting
    split
    · rename_i hrequest
      rw [if_pos rfl]
      refine ⟨h.forced, fun deadline hset => ?_, fun t ht => ?_, fun _ => ?_, nofun⟩
      · obtain ⟨t, ht, hgrace⟩ := h.deadline deadline hset
        exact ⟨t, Option.or_eq_some_iff.mpr (.inl ht), hgrace⟩
      · rcases Option.or_eq_some_iff.mp ht with hseen | ⟨-, hnow⟩
        · exact h.observed t hseen
        · obtain rfl : now = t := Option.some.inj hnow
          exact ⟨hrequest, le_rfl⟩
      · rw [Option.isSome_or, Option.isSome_some, Bool.or_true]
    · rw [if_neg (by rw [hselecting]; simp)]
      exact h
  · split
    · rename_i hobserved
      obtain ⟨t, ht⟩ := Option.isSome_iff_exists.mp (h.pending hobserved)
      rw [ht, Option.some_or, ← ht]
      exact h
    · exact h

theorem Sound.watcherSetsDeadline (h : Sound signal observedAt now) :
    Sound (signal.watcherSetsDeadline now) observedAt now := by
  unfold JobCancellation.watcherSetsDeadline JobCancellation.getOrInit
  split
  · rename_i hobserved
    obtain ⟨t, ht⟩ := Option.isSome_iff_exists.mp (h.pending hobserved)
    cases hdeadline : signal.deadline with
    | some deadline =>
      refine ⟨h.forced, h.deadline, h.observed, nofun, fun d hd => ?_⟩
      rw [← Watcher.sleepingUntil.inj hd]
      exact hdeadline
    | none =>
      refine ⟨fun hfired => ?_, fun d hd => ⟨t, ht, ?_⟩, h.observed, nofun, fun d hd => ?_⟩
      · -- without a deadline only shutdown can have forced the job
        refine .inl ((h.forced hfired).resolve_right ?_)
        rintro ⟨d, hd, -⟩
        rw [hdeadline] at hd
        cases hd
      · obtain rfl : now + signal.grace = d := Option.some.inj hd
        exact Nat.add_le_add_right (h.observed t ht).2 _
      · rw [← Watcher.sleepingUntil.inj hd]
  · exact h

theorem Sound.watcherWakes (h : Sound signal observedAt now) :
    Sound (signal.watcherWakes now) observedAt now := by
  unfold JobCancellation.watcherWakes
  split
  · rename_i deadline hsleeping
    split
    · rename_i hpast
      exact (h.fire (.inr ⟨deadline, h.sleeping deadline hsleeping, hpast⟩)).finished
    · exact h
  · exact h

/-! ### What is not taken back -/

structure Later (signal signal' : JobCancellation) : Prop where
  grace : signal'.grace = signal.grace
  request : signal.request = true → signal'.request = true
  shutdown : signal.shutdown = true → signal'.shutdown = true
  forceFired : signal.forceFired = true → signal'.forceFired = true
  deadline : ∀ d ∈ signal.deadline, d ∈ signal'.deadline

theorem Later.refl (signal : JobCancellation) : Later signal signal :=
  ⟨rfl, id, id, id, fun _ => id⟩

variable {signal' signal'' : JobCancellation}

theorem Later.trans (h : Later signal signal') (h' : Later signal' signal'') :
    Later signal signal'' :=
  ⟨h'.grace.trans h.grace, h'.request ∘ h.request, h'.shutdown ∘ h.shutdown,
    h'.forceFired ∘ h.forceFired, fun d hd => h'.deadline d (h.deadline d hd)⟩

theorem Later.force (h : Later signal signal') (hforce : signal.force = true) :
    signal'.force = true :=
  force_eq_true.mpr ((force_eq_true.mp hforce).imp h.forceFired h.shutdown)

theorem later_isForced (signal : JobCancellation) (now : Instant) :
    Later signal (signal.isForced now).2 := by
  unfold JobCancellation.isForced
  split
  · exact ⟨rfl, id, id, fun _ => rfl, fun _ => id⟩
  · exact Later.refl _

theorem later_watcherStopped (signal : JobCancellation) : Later signal signal.watcherStopped := by
  unfold JobCancellation.watcherStopped
  split
  · split
    · exact ⟨rfl, fun _ => rfl, id, id, fun _ => id⟩
    · exact Later.refl _
  · split
    · exact ⟨rfl, id, id, id, fun _ => id⟩
    · exact Later.refl _
  · exact Later.refl _

theorem later_watcherObserves (signal : JobCancellation) :
    Later signal signal.watcherObserves := by
  unfold JobCancellation.watcherObserves
  split
  · split
    · exact ⟨rfl, id, id, id, fun _ => id⟩
    · exact Later.refl _
  · exact Later.refl _

theorem later_watcherSetsDeadline (signal : JobCancellation) (now : Instant) :
    Later signal (signal.watcherSetsDeadline now) := by
  unfold JobCancellation.watcherSetsDeadline JobCancellation.getOrInit
  split
  · cases hdeadline : signal.deadline with
    | some deadline => exact ⟨rfl, id, id, id, fun _ => id⟩
    | none => exact ⟨rfl, id, id, id, fun d hd => nomatch hdeadline ▸ hd⟩
  · exact Later.refl _

theorem later_watcherWakes (signal : JobCancellation) (now : Instant) :
    Later signal (signal.watcherWakes now) := by
  unfold JobCancellation.watcherWakes
  split
  · split
    · exact ⟨rfl, id, id, fun _ => rfl, fun _ => id⟩
    · exact Later.refl _
  · exact Later.refl _

/-! ### The tokens of the steps -/

/-- A step's own token is cancelled only for its condition, after the request. -/
structure Justified (platform : Platform) (request : Bool) (watch : StepCancellation) : Prop where
  observed : watch.watcher = .observed → request = true
  fired : watch.fired = true →
    request = true ∧ holds platform (withCancelledStatus watch.eval) watch.condition = false

/-- Two of the same step, with the same snapshot. -/
def SameStep (watch watch' : StepCancellation) : Prop :=
  watch'.eval = watch.eval ∧ watch'.condition = watch.condition

variable {platform : Platform} {request : Bool} {watch : StepCancellation}

theorem justified_watchStep (eval : EvalContext) (condition : Str) :
    Justified platform request (watchStep eval condition) := ⟨nofun, nofun⟩

theorem Justified.finished (h : Justified platform request watch) :
    Justified platform request { watch with watcher := .finished } := ⟨nofun, h.fired⟩

theorem Justified.watcherStopped (h : Justified platform request watch) (force : Bool) :
    Justified platform request (watch.watcherStopped force) := by
  unfold StepCancellation.watcherStopped
  split
  · split
    · exact h.finished
    · exact h
  · exact h

theorem Justified.watcherObserves (h : Justified platform request watch) :
    Justified platform request (watch.watcherObserves request) := by
  unfold StepCancellation.watcherObserves
  split
  · split
    · rename_i hrequest
      exact ⟨fun _ => hrequest, h.fired⟩
    · exact h
  · exact h

theorem Justified.watcherDecides (h : Justified platform request watch) :
    Justified platform request (watch.watcherDecides platform) := by
  unfold StepCancellation.watcherDecides
  split
  · rename_i hobserved
    split
    · exact h.finished
    · rename_i hfalse
      exact ⟨nofun, fun _ => ⟨h.observed hobserved, Bool.eq_false_iff.mpr hfalse⟩⟩
  · exact h

theorem Justified.drop (h : Justified platform request watch) :
    Justified platform request watch.drop := by
  obtain ⟨fired, eval, condition, watcher⟩ := watch
  cases watcher with
  | selecting => exact h.finished
  | observed | finished => exact h

theorem Justified.later {request' : Bool} (h : Justified platform request watch)
    (hlater : request = true → request' = true) : Justified platform request' watch :=
  ⟨hlater ∘ h.observed, fun hfired => ⟨hlater (h.fired hfired).1, (h.fired hfired).2⟩⟩

theorem sameStep_watcherStopped (watch : StepCancellation) (force : Bool) :
    SameStep watch (watch.watcherStopped force) := by
  obtain ⟨fired, eval, condition, watcher⟩ := watch
  cases watcher <;> cases fired <;> cases force <;> exact ⟨rfl, rfl⟩

theorem sameStep_watcherObserves (watch : StepCancellation) (request : Bool) :
    SameStep watch (watch.watcherObserves request) := by
  obtain ⟨fired, eval, condition, watcher⟩ := watch
  cases watcher <;> cases request <;> exact ⟨rfl, rfl⟩

theorem sameStep_watcherDecides (watch : StepCancellation) :
    SameStep watch (watch.watcherDecides platform) := by
  unfold StepCancellation.watcherDecides
  split
  · split <;> exact ⟨rfl, rfl⟩
  · exact ⟨rfl, rfl⟩

theorem sameStep_drop (watch : StepCancellation) : SameStep watch watch.drop := by
  obtain ⟨fired, eval, condition, watcher⟩ := watch
  cases watcher <;> exact ⟨rfl, rfl⟩

/-! ### The tasks of a job -/

/-- What holds after every event. -/
structure Sane (platform : Platform) (s : JobTasks) : Prop where
  signal : Sound s.signal s.observedAt s.now
  watches : ∀ watch ∈ s.watches, Justified platform s.signal.request watch

/-- What the events in between take back: nothing. -/
structure Follows (s s' : JobTasks) : Prop where
  signal : Later s.signal s'.signal
  observedAt : ∀ t ∈ s.observedAt, t ∈ s'.observedAt
  watches : ∀ n : ℕ, ∀ watch ∈ s.watches[n]?, ∃ watch' ∈ s'.watches[n]?, SameStep watch watch'

variable {s s' s'' : JobTasks}

theorem Follows.trans (h : Follows s s') (h' : Follows s' s'') : Follows s s'' where
  signal := h.signal.trans h'.signal
  observedAt := fun t ht => h'.observedAt t (h.observedAt t ht)
  watches := by
    intro n watch hwatch
    obtain ⟨watch', hwatch', heval, hcondition⟩ := h.watches n watch hwatch
    obtain ⟨watch'', hwatch'', heval', hcondition'⟩ := h'.watches n watch' hwatch'
    exact ⟨watch'', hwatch'', heval'.trans heval, hcondition'.trans hcondition⟩

/-- The signals move on, and no step's token with them. -/
theorem follows_of_watches_eq (hsignal : Later s.signal s'.signal)
    (hobserved : ∀ t ∈ s.observedAt, t ∈ s'.observedAt) (hwatches : s'.watches = s.watches) :
    Follows s s' :=
  ⟨hsignal, hobserved, fun _ watch hwatch => ⟨watch, hwatches ▸ hwatch, rfl, rfl⟩⟩

theorem Follows.refl (s : JobTasks) : Follows s s :=
  follows_of_watches_eq (Later.refl _) (fun _ => id) rfl

theorem mem_modify {f : StepCancellation → StepCancellation} {watches : List StepCancellation}
    {n : ℕ} (h : watch ∈ watches.modify n f) : ∃ old ∈ watches, watch = old ∨ watch = f old := by
  obtain ⟨m, hm⟩ := List.mem_iff_getElem?.mp h
  rw [List.getElem?_modify] at hm
  obtain ⟨old, hold, heq⟩ := Option.map_eq_some_iff.mp hm
  refine ⟨old, List.mem_of_getElem? hold, ?_⟩
  split at heq
  · exact .inr heq.symm
  · exact .inl heq.symm

theorem follows_modifyWatch (n : ℕ) {f : StepCancellation → StepCancellation}
    (hf : ∀ watch, SameStep watch (f watch)) : Follows s (s.modifyWatch n f) := by
  refine ⟨Later.refl _, fun _ => id, fun m watch hwatch => ?_⟩
  show ∃ watch' ∈ (s.watches.modify n f)[m]?, _
  rw [List.getElem?_modify, Option.mem_def.mp hwatch]
  by_cases hn : n = m
  · exact ⟨f watch, by simp [hn], hf watch⟩
  · exact ⟨watch, by simp [hn], rfl, rfl⟩

theorem Sane.modifyWatch (h : Sane platform s) (n : ℕ) {f : StepCancellation → StepCancellation}
    (hf : ∀ watch, Justified platform s.signal.request watch →
      Justified platform s.signal.request (f watch)) : Sane platform (s.modifyWatch n f) := by
  refine ⟨h.signal, fun watch hwatch => ?_⟩
  obtain ⟨old, hold, rfl | rfl⟩ := mem_modify hwatch
  · exact h.watches _ hold
  · exact hf old (h.watches old hold)

theorem Sane.withSignal (h : Sane platform s) (hsignal : Sound s'.signal s'.observedAt s'.now)
    (hlater : Later s.signal s'.signal) (hwatches : s'.watches = s.watches) :
    Sane platform s' :=
  ⟨hsignal, fun watch hwatch => (h.watches watch (hwatches ▸ hwatch)).later hlater.request⟩

theorem later_request (signal : JobCancellation) : Later signal { signal with request := true } :=
  ⟨rfl, fun _ => rfl, id, id, fun _ => id⟩

theorem later_shutdown (signal : JobCancellation) :
    Later signal { signal with shutdown := true } :=
  ⟨rfl, id, fun _ => rfl, id, fun _ => id⟩

theorem later_drop (signal : JobCancellation) : Later signal signal.drop :=
  ⟨rfl, id, id, id, fun _ => id⟩

theorem follows_step (e : Event) : Follows s (step platform s e) := by
  cases e with
  | request => exact follows_of_watches_eq (later_request _) (fun _ => id) rfl
  | shutdown => exact follows_of_watches_eq (later_shutdown _) (fun _ => id) rfl
  | tick d => exact follows_of_watches_eq (Later.refl _) (fun _ => id) rfl
  | watcherStopped => exact follows_of_watches_eq (later_watcherStopped _) (fun _ => id) rfl
  | watcherObserves =>
    refine follows_of_watches_eq (later_watcherObserves _) (fun t ht => ?_) rfl
    simp only [step]
    split
    · exact Option.or_eq_some_iff.mpr (.inl ht)
    · exact ht
  | watcherSetsDeadline =>
    exact follows_of_watches_eq (later_watcherSetsDeadline _ _) (fun _ => id) rfl
  | watcherWakes => exact follows_of_watches_eq (later_watcherWakes _ _) (fun _ => id) rfl
  | stepWatcherStopped n =>
    exact follows_modifyWatch n fun watch => sameStep_watcherStopped watch _
  | stepWatcherObserves n =>
    exact follows_modifyWatch n fun watch => sameStep_watcherObserves watch _
  | stepWatcherDecides n => exact follows_modifyWatch n sameStep_watcherDecides
  | check =>
    simp only [step]
    split
    · split <;> exact follows_of_watches_eq (later_isForced _ _) (fun _ => id) rfl
    · exact Follows.refl s
  | skip =>
    simp only [step]
    split
    · exact follows_of_watches_eq (Later.refl _) (fun _ => id) rfl
    · exact Follows.refl s
  | start eval condition =>
    simp only [step]
    split
    · refine ⟨Later.refl _, fun _ => id, fun n watch hwatch => ⟨watch, ?_, rfl, rfl⟩⟩
      show (s.watches ++ [watchStep eval condition])[n]? = some watch
      rw [List.getElem?_append_left (List.getElem?_eq_some_iff.mp hwatch).1]
      exact hwatch
    · exact Follows.refl s
  | innerCheck =>
    simp only [step]
    split
    · exact follows_of_watches_eq (later_isForced _ _) (fun _ => id) rfl
    · exact Follows.refl s
  | finish =>
    simp only [step]
    split
    · rename_i n _
      have hdrop : Follows s (s.modifyWatch n (·.drop)) := follows_modifyWatch n sameStep_drop
      exact ⟨hdrop.signal, hdrop.observedAt, hdrop.watches⟩
    · exact Follows.refl s
  | drop =>
    simp only [step]
    split
    · exact follows_of_watches_eq (later_drop _) (fun _ => id) rfl
    · exact Follows.refl s

theorem sane_step (h : Sane platform s) (e : Event) : Sane platform (step platform s e) := by
  cases e with
  | request => exact h.withSignal h.signal.withRequest (later_request _) rfl
  | shutdown => exact h.withSignal h.signal.withShutdown (later_shutdown _) rfl
  | tick d => exact h.withSignal (h.signal.tick d) (Later.refl _) rfl
  | watcherStopped => exact h.withSignal h.signal.watcherStopped (later_watcherStopped _) rfl
  | watcherObserves => exact h.withSignal h.signal.watcherObserves (later_watcherObserves _) rfl
  | watcherSetsDeadline =>
    exact h.withSignal h.signal.watcherSetsDeadline (later_watcherSetsDeadline _ _) rfl
  | watcherWakes => exact h.withSignal h.signal.watcherWakes (later_watcherWakes _ _) rfl
  | stepWatcherStopped n => exact h.modifyWatch n fun _ hwatch => hwatch.watcherStopped _
  | stepWatcherObserves n => exact h.modifyWatch n fun _ hwatch => hwatch.watcherObserves
  | stepWatcherDecides n => exact h.modifyWatch n fun _ hwatch => hwatch.watcherDecides
  | check =>
    simp only [step]
    split
    · split <;> exact h.withSignal h.signal.isForced (later_isForced _ _) rfl
    · exact h
  | skip =>
    simp only [step]
    split
    · exact h.withSignal h.signal (Later.refl _) rfl
    · exact h
  | start eval condition =>
    simp only [step]
    split
    · refine ⟨h.signal, fun watch hwatch => ?_⟩
      rcases List.mem_append.mp hwatch with hold | hnew
      · exact h.watches watch hold
      · rw [List.mem_singleton.mp hnew]
        exact justified_watchStep eval condition
    · exact h
  | innerCheck =>
    simp only [step]
    split
    · exact h.withSignal h.signal.isForced (later_isForced _ _) rfl
    · exact h
  | finish =>
    simp only [step]
    split
    · rename_i n _
      have hdrop : Sane platform (s.modifyWatch n (·.drop)) :=
        h.modifyWatch n fun _ hwatch => hwatch.drop
      exact ⟨hdrop.signal, hdrop.watches⟩
    · exact h
  | drop =>
    simp only [step]
    split
    · exact h.withSignal h.signal.finished (later_drop _) rfl
    · exact h

theorem sane_init (request shutdown : Bool) (grace now : Instant) :
    Sane platform (.init request shutdown grace now) :=
  ⟨sound_withGrace request shutdown grace now, nofun⟩

theorem sane_run (h : Sane platform s) (es : List Event) : Sane platform (run platform s es) :=
  Machine.run_invariant_of_step (I := Sane platform) (fun _ e h => sane_step h e) es h

theorem follows_run (s : JobTasks) (es : List Event) : Follows s (run platform s es) :=
  Machine.run_invariant_of_step (I := Follows s) (fun _ e h => h.trans (follows_step e)) es
    (Follows.refl s)

/-! ### Asking -/

/-- The events at which the job's task asks `isForced`. -/
def Asks (s : JobTasks) (e : Event) : Prop :=
  e = .check ∧ s.task = .between ∨ e = .innerCheck ∧ ∃ n, s.task = .running n

theorem isForced_fst (signal : JobCancellation) (now : Instant) :
    (signal.isForced now).1 = (signal.isForced now).2.force := by
  rw [JobCancellation.isForced]

theorem isForced_of_force (hforce : signal.force = true) : (signal.isForced now).1 = true := by
  rw [isForced_fst]
  exact (later_isForced signal now).force hforce

/-- The answer is latched, and the task stays where it asked. -/
theorem step_of_asks {e : Event} (h : Asks s e) (hforced : s.ask.1 = true) :
    step platform s e = s.ask.2 := by
  rcases h with ⟨rfl, hbetween⟩ | ⟨rfl, n, hrunning⟩
  · show (if s.task = .between then
        if s.ask.1 = true then s.ask.2 else { s.ask.2 with task := .admitted }
      else s) = _
    rw [if_pos hbetween, if_pos hforced]
  · simp only [step, hrunning]

/-- `force` is cancelled, and no step is about to start. -/
def Stopped (started : ℕ) (s : JobTasks) : Prop :=
  s.signal.force = true ∧ s.task ≠ .admitted ∧ s.watches.length = started

theorem stopped_step {started : ℕ} (h : Stopped started s) (e : Event) :
    Stopped started (step platform s e) := by
  obtain ⟨hforce, htask, hstarted⟩ := h
  refine ⟨(follows_step e).signal.force hforce, ?_⟩
  cases e with
  | check =>
    simp only [step, JobTasks.ask, isForced_of_force hforce, if_true]
    split <;> exact ⟨htask, hstarted⟩
  | skip => rw [step, if_neg htask]; exact ⟨htask, hstarted⟩
  | start eval condition => rw [step, if_neg htask]; exact ⟨htask, hstarted⟩
  | innerCheck =>
    simp only [step]
    split <;> exact ⟨htask, hstarted⟩
  | finish =>
    simp only [step]
    split
    · exact ⟨nofun, (List.length_modify _ _ _).trans hstarted⟩
    · exact ⟨htask, hstarted⟩
  | drop =>
    simp only [step]
    split
    · exact ⟨nofun, hstarted⟩
    · exact ⟨htask, hstarted⟩
  | stepWatcherStopped n | stepWatcherObserves n | stepWatcherDecides n =>
    exact ⟨htask, (List.length_modify _ _ _).trans hstarted⟩
  | request | shutdown | tick d | watcherStopped | watcherObserves | watcherSetsDeadline
  | watcherWakes => exact ⟨htask, hstarted⟩

theorem stopped_of_asks {e : Event} (h : Asks s e) (hforced : s.ask.1 = true) :
    Stopped s.watches.length (step platform s e) := by
  rw [step_of_asks h hforced]
  refine ⟨?_, ?_, rfl⟩
  · exact (isForced_fst _ _).symm.trans hforced
  · rcases h with ⟨-, hbetween⟩ | ⟨-, n, hrunning⟩
    · show s.task ≠ .admitted
      rw [hbetween]
      simp
    · show s.task ≠ .admitted
      rw [hrunning]
      simp

/-! ### What was asked for from outside -/

/-- What an event may do to the request and to shutdown. -/
structure Flags (e : Event) (signal signal' : JobCancellation) : Prop where
  shutdown : signal'.shutdown = true → signal.shutdown = true ∨ e = .shutdown
  request : signal'.request = true →
    signal.request = true ∨ signal.shutdown = true ∨ e = .request

theorem flags_of_eq (e : Event) (hshutdown : signal'.shutdown = signal.shutdown)
    (hrequest : signal'.request = signal.request) : Flags e signal signal' :=
  ⟨fun h => .inl (hshutdown ▸ h), fun h => .inl (hrequest ▸ h)⟩

/-- When the watcher passes `force` on to the request, there was a request or a shutdown. -/
theorem flags_watcherStopped (h : Sound signal observedAt now) :
    Flags .watcherStopped signal signal.watcherStopped := by
  unfold JobCancellation.watcherStopped
  split
  · split
    · rename_i hforce
      refine ⟨.inl, fun _ => ?_⟩
      rcases h.force hforce with hshutdown | ⟨t, ht, -⟩
      · exact .inr (.inl hshutdown)
      · exact .inl (h.observed t ht).1
    · exact flags_of_eq _ rfl rfl
  · split <;> exact flags_of_eq _ rfl rfl
  · exact flags_of_eq _ rfl rfl

theorem isForced_flags (e : Event) (signal : JobCancellation) (now : Instant) :
    Flags e signal (signal.isForced now).2 := by
  unfold JobCancellation.isForced
  split <;> exact flags_of_eq e rfl rfl

theorem flags_step (h : Sane platform s) (e : Event) :
    Flags e s.signal (step platform s e).signal := by
  cases e with
  | request => exact ⟨.inl, fun _ => .inr (.inr rfl)⟩
  | shutdown => exact ⟨fun _ => .inr rfl, .inl⟩
  | watcherStopped => exact flags_watcherStopped h.signal
  | watcherObserves =>
    show Flags _ _ s.signal.watcherObserves
    unfold JobCancellation.watcherObserves
    split
    · split <;> exact flags_of_eq _ rfl rfl
    · exact flags_of_eq _ rfl rfl
  | watcherSetsDeadline =>
    show Flags _ _ (s.signal.watcherSetsDeadline s.now)
    unfold JobCancellation.watcherSetsDeadline JobCancellation.getOrInit
    split
    · cases s.signal.deadline <;> exact flags_of_eq _ rfl rfl
    · exact flags_of_eq _ rfl rfl
  | watcherWakes =>
    show Flags _ _ (s.signal.watcherWakes s.now)
    unfold JobCancellation.watcherWakes
    split
    · split <;> exact flags_of_eq _ rfl rfl
    · exact flags_of_eq _ rfl rfl
  | check =>
    simp only [step]
    split
    · split <;> exact isForced_flags _ _ _
    · exact flags_of_eq _ rfl rfl
  | innerCheck =>
    simp only [step]
    split
    · exact isForced_flags _ _ _
    · exact flags_of_eq _ rfl rfl
  | skip | start eval condition | finish | drop =>
    simp only [step]
    split <;> exact flags_of_eq _ rfl rfl
  | tick d | stepWatcherStopped n | stepWatcherObserves n | stepWatcherDecides n =>
    exact flags_of_eq _ rfl rfl

/-- The tokens say of the events so far what they should. -/
structure Told (requested stopped : Bool) (past : List Event) (signal : JobCancellation) :
    Prop where
  shutdown : signal.shutdown = true ↔ stopped = true ∨ .shutdown ∈ past
  request : signal.request = true → signal.shutdown = true ∨ requested = true ∨ .request ∈ past
  requested : requested = true ∨ .request ∈ past → signal.request = true

theorem told_init (requested stopped : Bool) (grace now : Instant) :
    Told requested stopped [] (.withGrace requested stopped grace now) := by
  refine ⟨by simp [JobCancellation.withGrace], ?_, ?_⟩ <;>
    cases requested <;> cases stopped <;> simp [JobCancellation.withGrace]

theorem told_step {requested stopped : Bool} {past : List Event}
    (h : Told requested stopped past s.signal) (hsane : Sane platform s) (e : Event) :
    Told requested stopped (past ++ [e]) (step platform s e).signal := by
  have hflags : Flags e s.signal (step platform s e).signal := flags_step hsane e
  have hlater : Later s.signal (step platform s e).signal := (follows_step e).signal
  refine ⟨⟨fun hshutdown => ?_, fun hasked => ?_⟩, fun hrequest => ?_, fun hasked => ?_⟩
  · rcases hflags.shutdown hshutdown with hold | rfl
    · exact (h.shutdown.mp hold).imp_right (List.mem_append_left _)
    · exact .inr (by simp)
  · rw [List.mem_append, List.mem_singleton, ← or_assoc] at hasked
    rcases hasked with hold | rfl
    · exact hlater.shutdown (h.shutdown.mpr hold)
    · rfl
  · rcases hflags.request hrequest with hold | hshutdown | rfl
    · exact (h.request hold).imp hlater.shutdown (Or.imp_right (List.mem_append_left _))
    · exact .inl (hlater.shutdown hshutdown)
    · exact .inr (.inr (by simp))
  · rw [List.mem_append, List.mem_singleton, ← or_assoc] at hasked
    rcases hasked with hold | rfl
    · exact hlater.request (h.requested hold)
    · rfl

theorem told_run (platform : Platform) (requested stopped : Bool) (grace now : Instant)
    (es : List Event) :
    Told requested stopped es (run platform (.init requested stopped grace now) es).signal := by
  have hstep : ∀ past s e, Told requested stopped past s.signal ∧ Sane platform s → True →
      Told requested stopped (past ++ [e]) (step platform s e).signal ∧
        Sane platform (step platform s e) :=
    fun _ _ e h _ => ⟨told_step h.1 h.2 e, sane_step h.2 e⟩
  exact (Machine.run_history hstep (Machine.throughout_of_forall _ (fun _ _ => trivial) _)
    ⟨told_init requested stopped grace now, sane_init requested stopped grace now⟩).1

/-! ### Every run of a job -/

theorem status_of_told {requested stopped : Bool} {past : List Event}
    (h : Told requested stopped past signal) (prior : JobStatus) :
    (stopped = true ∨ .shutdown ∈ past → signal.status prior = .failure) ∧
      (¬ (stopped = true ∨ .shutdown ∈ past) → requested = true ∨ .request ∈ past →
        signal.status prior = .cancelled) ∧
      (¬ (stopped = true ∨ .shutdown ∈ past) → ¬ (requested = true ∨ .request ∈ past) →
        signal.status prior = prior) := by
  rw [← h.shutdown]
  refine ⟨fun hshutdown => if_pos hshutdown, fun hshutdown hrequest => ?_,
    fun hshutdown hrequest => ?_⟩
  · rw [JobCancellation.status, if_neg hshutdown, if_pos (h.requested hrequest)]
  · rw [JobCancellation.status, if_neg hshutdown, if_neg]
    exact fun hset => hrequest ((h.request hset).resolve_left hshutdown)

theorem sane_of_start (platform : Platform) (requested stopped : Bool) (grace now : Instant)
    (es : List Event) : Sane platform (run platform (.init requested stopped grace now) es) :=
  sane_run (sane_init requested stopped grace now) es

/-- The token of a step that was started with a snapshot is cancelled with `force`, or after the
    request when the condition is not true in the snapshot with the job cancelled. -/
theorem stepCancelled_run (hsane : Sane platform s) (hadmitted : s.task = .admitted)
    (eval : EvalContext) (condition : Str) (es : List Event) (s' : JobTasks)
    (hs' : s' = run platform (step platform s (.start eval condition)) es)
    (hcancelled : s'.stepCancelled s.watches.length = true) :
    s'.signal.force = true ∨ s'.signal.request = true ∧
      holds platform (withCancelledStatus eval) (watchStep eval condition).condition = false := by
  have hstart : (step platform s (.start eval condition)).watches =
      s.watches ++ [watchStep eval condition] := by
    rw [step, if_pos hadmitted]
  have hnew : watchStep eval condition ∈
      (step platform s (.start eval condition)).watches[s.watches.length]? := by
    rw [hstart, List.getElem?_concat_length]
    rfl
  have hfollows : Follows (step platform s (.start eval condition)) s' := hs' ▸ follows_run _ es
  obtain ⟨watch, hwatch, heval, hcondition⟩ := hfollows.watches _ _ hnew
  have hjustified : Justified platform s'.signal.request watch :=
    (hs' ▸ sane_run (sane_step hsane _) es : Sane platform s').watches watch
      (List.mem_of_getElem? hwatch)
  rw [JobTasks.stepCancelled, Option.mem_def.mp hwatch, Option.any_some, Bool.or_eq_true]
    at hcancelled
  rcases hcancelled with hfired | hforce
  · have hwhy := hjustified.fired hfired
    rw [heval, hcondition] at hwhy
    exact .inr hwhy
  · exact .inl hforce

/-- Whatever the order of the events `es` and of the events `fs` after them. -/
theorem cancellation_bounded (platform : Platform) (requested stopped : Bool)
    (grace now : Instant) (es fs : List Event) :
    let s := run platform (.init requested stopped grace now) es
    -- `force` waits for shutdown or for a full grace period since the first observation
    (s.signal.force = true → s.signal.shutdown = true ∨
      ∃ t ∈ s.observedAt, ∃ deadline ∈ s.signal.deadline,
        t + grace ≤ deadline ∧ deadline ≤ s.now) ∧
    -- and what it waits for does not move
    (∀ t ∈ s.observedAt, t ∈ (run platform s fs).observedAt) ∧
    (∀ deadline ∈ s.signal.deadline, deadline ∈ (run platform s fs).signal.deadline) ∧
    -- a step that starts is cancelled by `force`, or for its condition
    (∀ eval condition, s.task = .admitted →
      let s' := run platform (step platform s (.start eval condition)) fs
      s'.stepCancelled s.watches.length = true →
        s'.signal.force = true ∨ s'.signal.request = true ∧
          holds platform (withCancelledStatus eval)
            (watchStep eval condition).condition = false) ∧
    -- after `isForced` has answered true, `force` is cancelled and no step starts
    (∀ e, Asks s e → s.ask.1 = true →
      let s' := run platform (step platform s e) fs
      s'.signal.force = true ∧ s'.watches.length = s.watches.length) ∧
    -- the status is a failure after shutdown, else cancelled after a request, else the prior one
    (∀ prior, (stopped = true ∨ .shutdown ∈ es → s.signal.status prior = .failure) ∧
      (¬ (stopped = true ∨ .shutdown ∈ es) → requested = true ∨ .request ∈ es →
        s.signal.status prior = .cancelled) ∧
      (¬ (stopped = true ∨ .shutdown ∈ es) → ¬ (requested = true ∨ .request ∈ es) →
        s.signal.status prior = prior)) := by
  intro s
  have hsane : Sane platform s := sane_of_start platform requested stopped grace now es
  have hfollows : Follows s (run platform s fs) := follows_run s fs
  have hgrace : s.signal.grace = grace :=
    (follows_run (.init requested stopped grace now) es).signal.grace
  refine ⟨hgrace ▸ hsane.signal.force, hfollows.observedAt, hfollows.signal.deadline, ?_, ?_, ?_⟩
  · intro eval condition hadmitted s'
    exact stepCancelled_run hsane hadmitted eval condition fs s' rfl
  · intro e hasks hforced s'
    have hstopped : Stopped s.watches.length s' :=
      Machine.run_invariant_of_step (I := Stopped s.watches.length)
        (fun _ e h => stopped_step h e) fs (stopped_of_asks hasks hforced)
    exact ⟨hstopped.1, hstopped.2.2⟩
  · exact status_of_told (told_run platform requested stopped grace now es)

example : (run platform (.init false false cleanupGrace 0)
    [.request, .tick 5, .watcherObserves, .watcherSetsDeadline, .tick 300, .watcherWakes]).signal =
      ⟨300, true, false, true, some 305, .finished⟩ := rfl

end GhRunner.Execution.Cancellation
