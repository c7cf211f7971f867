import GhRunner.Lib.History
import GhRunner.Listener.Forwarder
import GhRunner.Wire.Reporting

namespace GhRunner.Listener

open Text Machine History

/-!
# The loss of the job's lock

The task that renews it (`spawn_renewal` of `crates/listener/src/helpers.rs`), its watchdog (`outage.rs`), and
what a loss makes of the conclusion (`outage_override.rs`).

* `OutageWatchdog`, `RenewalTask`, `applyOutageOverride` — as the source has them;
* `Trips`, `losses` — the first overdue error of a stretch without success, and what has lost the lock;
* `Follows`, `follows_step` — the task after any renewals;
* `lock_loss` — it cancels the job exactly when the lock is lost, for the first reason, which the reported
  conclusion gives.
-/

/-! ### The watchdog -/

structure OutageWatchdog where
  lastOk : ℕ
  threshold : ℕ
  /-- Until the next success. -/
  tripped : Bool
deriving DecidableEq, Repr

namespace OutageWatchdog

def new (now threshold : ℕ) : OutageWatchdog where
  lastOk := now
  threshold := threshold
  tripped := false

def recordOk (w : OutageWatchdog) (now : ℕ) : OutageWatchdog :=
  { w with lastOk := now, tripped := false }

/-- With whether it trips. -/
def recordErr (w : OutageWatchdog) (now : ℕ) : OutageWatchdog × Bool :=
  if w.tripped then (w, false)
  else if now - w.lastOk > w.threshold then ({ w with tripped := true }, true)
  else (w, false)

end OutageWatchdog

/-! ### The reason -/

inductive RenewalLoss
  | none
  | jobNotFound
  | timedOut
deriving DecidableEq, Repr

def RenewalLoss.raw : RenewalLoss → UInt8
  | .none => 0
  | .jobNotFound => 1
  | .timedOut => 2

def RenewalLoss.fromRaw : UInt8 → RenewalLoss
  | 1 => .jobNotFound
  | 2 => .timedOut
  | _ => .none

/-- An exchange that only replaces `None`. -/
def recordRenewalLossOnce (loss : UInt8) (reason : RenewalLoss) : UInt8 :=
  if loss = RenewalLoss.none.raw then reason.raw else loss

/-! ### The task -/

/-- What a renewal came to, and when. -/
inductive Renewal
  | renewed (now : ℕ) (lockedUntil : Str)
  /-- GitHub does not know the job any more. -/
  | notFound
  | error (now : ℕ)
deriving DecidableEq, Repr

structure RenewalTask where
  watchdog : OutageWatchdog
  renewalLoss : UInt8
  /-- The task has cancelled the job's token. -/
  jobCancelled : Bool
  /-- The `LockRenewed` events. -/
  sent : List Str
  running : Bool
deriving DecidableEq

namespace RenewalTask

def start (now threshold : ℕ) : RenewalTask where
  watchdog := .new now threshold
  renewalLoss := RenewalLoss.none.raw
  jobCancelled := false
  sent := []
  running := true

def cancelJob (s : RenewalTask) (reason : RenewalLoss) : RenewalTask :=
  { s with renewalLoss := recordRenewalLossOnce s.renewalLoss reason, jobCancelled := true }

/-- The loop is over after a renewal that was not found; after a trip it goes on. -/
def step (s : RenewalTask) (r : Renewal) : RenewalTask :=
  if s.running then
    match r with
    | .renewed now lockedUntil =>
      { s with sent := s.sent ++ [lockedUntil], watchdog := s.watchdog.recordOk now }
    | .notFound => { s.cancelJob .jobNotFound with running := false }
    | .error now =>
      let w := s.watchdog.recordErr now
      if w.2 then { s with watchdog := w.1 }.cancelJob .timedOut else { s with watchdog := w.1 }
  else s

end RenewalTask

/-! ### The reported conclusion -/

def lostConnectionMessage : Str :=
  ("Runner lost connection to GitHub for more than 5 minutes; " ++
    "job was cancelled (lost connection).").toList

def jobNotFoundMessage : Str :=
  "GitHub no longer recognizes this job; job was cancelled (job lock lost).".toList

def lockLossIssue (message : Str) : Wire.Annotation where
  level := .failure
  message := message
  title := none
  rawDetails := none
  path := none
  isInfrastructureIssue := false
  startLine := 0
  endLine := 0
  startColumn := 0
  endColumn := 0
  stepNumber := 0

/-- A success that was there before the job could be cancelled stays. -/
def applyOutageOverride (conclusion : Conclusion) (loss : RenewalLoss) :
    Conclusion × List Wire.Annotation :=
  if loss = .none then (conclusion, [])
  else if conclusion = .success then (conclusion, [])
  else
    match loss with
    | .jobNotFound => (.failure, [lockLossIssue jobNotFoundMessage])
    | .timedOut => (.failure, [lockLossIssue lostConnectionMessage])
    | .none => (conclusion, [])

/-! ### When the lock is lost -/

/-- The time of the last success, or of the start. -/
def lastSuccess (start : ℕ) (past : List Renewal) : ℕ :=
  past.foldl (fun last r =>
    match r with
    | .renewed now _ => now
    | .notFound | .error _ => last) start

/-- The times of the errors since then. -/
def stretch (past : List Renewal) : List ℕ :=
  past.foldl (fun errors r =>
    match r with
    | .renewed _ _ => []
    | .notFound => errors
    | .error now => errors ++ [now]) []

/-- Strictly more than the threshold after the last success. -/
def Overdue (start threshold : ℕ) (past : List Renewal) (now : ℕ) : Prop :=
  lastSuccess start past + threshold < now

instance (start threshold : ℕ) (past : List Renewal) (now : ℕ) :
    Decidable (Overdue start threshold past now) := inferInstanceAs (Decidable (_ < _))

/-- An error now is the first overdue one since the last success. -/
def Trips (start threshold : ℕ) (past : List Renewal) (now : ℕ) : Prop :=
  Overdue start threshold past now ∧
    ∀ earlier ∈ stretch past, ¬ Overdue start threshold past earlier

instance (start threshold : ℕ) (past : List Renewal) (now : ℕ) :
    Decidable (Trips start threshold past now) := inferInstanceAs (Decidable (_ ∧ _))

/-- Why a renewal loses the lock, if it does. -/
def lossOf (start threshold : ℕ) (past : List Renewal) : Renewal → List RenewalLoss
  | .renewed _ _ => []
  | .notFound => [.jobNotFound]
  | .error now => if Trips start threshold past now then [.timedOut] else []

def losses (start threshold : ℕ) (results : List Renewal) : List RenewalLoss :=
  emits (lossOf start threshold) results

@[simp] theorem lastSuccess_renewed (start : ℕ) (past : List Renewal) (now : ℕ) (lockedUntil : Str) :
    lastSuccess start (past ++ [.renewed now lockedUntil]) = now := by simp [lastSuccess]

@[simp] theorem lastSuccess_error (start : ℕ) (past : List Renewal) (now : ℕ) :
    lastSuccess start (past ++ [.error now]) = lastSuccess start past := by simp [lastSuccess]

@[simp] theorem stretch_renewed (past : List Renewal) (now : ℕ) (lockedUntil : Str) :
    stretch (past ++ [.renewed now lockedUntil]) = [] := by simp [stretch]

@[simp] theorem stretch_error (past : List Renewal) (now : ℕ) :
    stretch (past ++ [.error now]) = stretch past ++ [now] := by simp [stretch]

theorem losses_concat (start threshold : ℕ) (past : List Renewal) (r : Renewal) :
    losses start threshold (past ++ [r]) = losses start threshold past ++ lossOf start threshold past r :=
  emits_concat _ past r

/-- No loss is `None`. -/
theorem ne_none_of_mem_losses {start threshold : ℕ} {results : List Renewal} {loss : RenewalLoss}
    (h : loss ∈ losses start threshold results) : loss ≠ .none := by
  obtain ⟨past, r, -, -, hloss⟩ := mem_emits.mp h
  cases r with
  | renewed => simp [lossOf] at hloss
  | notFound =>
    obtain rfl := List.mem_singleton.mp hloss
    decide
  | error now =>
    rw [lossOf] at hloss
    split at hloss
    · obtain rfl := List.mem_singleton.mp hloss
      decide
    · cases hloss

/-! ### The task after any renewals -/

@[simp] theorem RenewalLoss.fromRaw_raw (loss : RenewalLoss) : fromRaw loss.raw = loss := by
  cases loss <;> rfl

theorem RenewalLoss.raw_eq_iff {loss : RenewalLoss} : loss.raw = RenewalLoss.none.raw ↔ loss = .none := by
  cases loss <;> decide

/-- The watchdog of a task that is running. -/
structure Watches (start threshold : ℕ) (past : List Renewal) (w : OutageWatchdog) : Prop where
  lastOk : w.lastOk = lastSuccess start past
  threshold_eq : w.threshold = threshold
  tripped : w.tripped = true ↔ ∃ now ∈ stretch past, Overdue start threshold past now

namespace Watches

variable {start threshold : ℕ} {past : List Renewal} {w : OutageWatchdog}

theorem recordOk (h : Watches start threshold past w) (now : ℕ) (lockedUntil : Str) :
    Watches start threshold (past ++ [.renewed now lockedUntil]) (w.recordOk now) where
  lastOk := by simp [OutageWatchdog.recordOk]
  threshold_eq := h.threshold_eq
  tripped := by simp [OutageWatchdog.recordOk]

theorem trips_iff (h : Watches start threshold past w) (now : ℕ) :
    (w.recordErr now).2 = true ↔ Trips start threshold past now := by
  have htripped := h.tripped
  have hover : Overdue start threshold past now ↔ now - w.lastOk > w.threshold := by
    rw [Overdue, h.lastOk, h.threshold_eq]
    omega
  rw [OutageWatchdog.recordErr, Trips, hover]
  split
  case isTrue hon =>
    -- latched: an earlier error of the stretch was overdue
    obtain ⟨earlier, hmem, hearlier⟩ := htripped.mp hon
    simp only [Bool.false_eq_true, false_iff]
    exact fun hall => hall.2 earlier hmem hearlier
  case isFalse hoff =>
    have hnone : ∀ earlier ∈ stretch past, ¬ Overdue start threshold past earlier :=
      fun earlier hmem hearlier => hoff (htripped.mpr ⟨earlier, hmem, hearlier⟩)
    split
    case isTrue hlong => exact ⟨fun _ => ⟨hlong, hnone⟩, fun _ => rfl⟩
    case isFalse hshort =>
      simp only [Bool.false_eq_true, false_iff]
      exact fun hall => hshort hall.1

theorem recordErr (h : Watches start threshold past w) (now : ℕ) :
    Watches start threshold (past ++ [.error now]) (w.recordErr now).1 := by
  have htripped := h.tripped
  have hover : ∀ t, Overdue start threshold (past ++ [.error now]) t ↔ Overdue start threshold past t :=
    fun t => by simp [Overdue]
  have hnow : Overdue start threshold past now ↔ now - w.lastOk > w.threshold := by
    rw [Overdue, h.lastOk, h.threshold_eq]
    omega
  rw [OutageWatchdog.recordErr]
  split
  case isTrue hon =>
    obtain ⟨earlier, hmem, hearlier⟩ := htripped.mp hon
    refine ⟨by simpa using h.lastOk, h.threshold_eq, iff_of_true hon ⟨earlier, ?_, (hover _).mpr hearlier⟩⟩
    simp [hmem]
  case isFalse hoff =>
    split
    case isTrue hlong =>
      refine ⟨by simpa using h.lastOk, h.threshold_eq,
        iff_of_true rfl ⟨now, by simp, (hover _).mpr (hnow.mpr hlong)⟩⟩
    case isFalse hshort =>
      refine ⟨by simpa using h.lastOk, h.threshold_eq, iff_of_false hoff ?_⟩
      rintro ⟨t, hmem, ht⟩
      rw [stretch_error, List.mem_append, List.mem_singleton] at hmem
      rw [hover] at ht
      rcases hmem with hmem | rfl
      · exact hoff (htripped.mpr ⟨t, hmem, ht⟩)
      · exact hshort (hnow.mp ht)

end Watches

/-- The task after these renewals. -/
structure Follows (start threshold : ℕ) (past : List Renewal) (s : RenewalTask) : Prop where
  running : s.running = true ↔ Renewal.notFound ∉ past
  watches : s.running = true → Watches start threshold past s.watchdog
  cancelled : s.jobCancelled = true ↔ losses start threshold past ≠ []
  loss : s.renewalLoss = ((losses start threshold past).head?.getD .none).raw

variable {start threshold : ℕ} {past : List Renewal}

/-- A later reason does not replace the first. -/
theorem recordRenewalLossOnce_head (reason : RenewalLoss) :
    recordRenewalLossOnce ((losses start threshold past).head?.getD .none).raw reason =
      ((losses start threshold past ++ [reason]).head?.getD .none).raw := by
  cases h : losses start threshold past with
  | nil => rfl
  | cons first rest =>
    have hmem : first ∈ losses start threshold past := by
      rw [h]
      exact List.mem_cons_self ..
    have hfirst := ne_none_of_mem_losses hmem
    rw [recordRenewalLossOnce]
    exact if_neg fun hraw => hfirst (RenewalLoss.raw_eq_iff.mp hraw)

theorem losses_ne_nil_of_notFound (h : Renewal.notFound ∈ past) : losses start threshold past ≠ [] := by
  obtain ⟨before, after, rfl⟩ := List.append_of_mem h
  have hmem : RenewalLoss.jobNotFound ∈ losses start threshold (before ++ .notFound :: after) :=
    mem_emits.mpr ⟨before, .notFound, after, rfl, List.mem_singleton_self _⟩
  exact List.ne_nil_of_mem hmem

theorem follows_start (start threshold : ℕ) :
    Follows start threshold [] (.start start threshold) where
  running := by simp [RenewalTask.start]
  watches _ := ⟨rfl, rfl, by simp [RenewalTask.start, OutageWatchdog.new, stretch]⟩
  cancelled := by simp [RenewalTask.start, losses]
  loss := rfl

theorem Follows.cancelJob {s : RenewalTask} (h : Follows start threshold past s) (reason : RenewalLoss) :
    (s.cancelJob reason).renewalLoss =
      ((losses start threshold past ++ [reason]).head?.getD .none).raw := by
  rw [RenewalTask.cancelJob, h.loss]
  exact recordRenewalLossOnce_head reason

theorem follows_step {s : RenewalTask} (h : Follows start threshold past s) (r : Renewal) :
    Follows start threshold (past ++ [r]) (s.step r) := by
  unfold RenewalTask.step
  split
  case isFalse hended =>
    -- the loop ended with a renewal that was not found, so the first loss is among those before
    have hmem : Renewal.notFound ∈ past := by
      by_contra hnone
      exact hended (h.running.mpr hnone)
    have hsome : losses start threshold past ≠ [] := losses_ne_nil_of_notFound hmem
    refine ⟨iff_of_false hended (by simp [hmem]), fun hrun => absurd hrun hended, ?_, ?_⟩
    · rw [h.cancelled, losses_concat]
      simp [hsome]
    · rw [h.loss, losses_concat, List.head?_append_of_ne_nil _ hsome]
  case isTrue hon =>
    have hnone := h.running.mp hon
    have hwatch := h.watches hon
    cases r with
    | renewed now lockedUntil =>
      refine ⟨by simp [hon, hnone], fun _ => hwatch.recordOk now lockedUntil, ?_, ?_⟩
      · simpa [losses_concat, lossOf] using h.cancelled
      · simpa [losses_concat, lossOf] using h.loss
    | notFound =>
      refine ⟨by simp, fun hrun => (by cases hrun), ?_, ?_⟩
      · simp [RenewalTask.cancelJob, losses_concat, lossOf]
      · rw [losses_concat]
        exact h.cancelJob .jobNotFound
    | error now =>
      -- the loop goes on after a trip, so only the loss and the token change
      have htrips := hwatch.trips_iff now
      dsimp only
      split
      case isTrue ht =>
        refine ⟨by simp [RenewalTask.cancelJob, hon, hnone], fun _ => hwatch.recordErr now, ?_, ?_⟩
        · simp [RenewalTask.cancelJob, losses_concat, lossOf, htrips.mp ht]
        · rw [losses_concat, lossOf, if_pos (htrips.mp ht)]
          exact h.cancelJob .timedOut
      case isFalse ht =>
        have hquiet : ¬ Trips start threshold past now := fun hall => ht (htrips.mpr hall)
        refine ⟨by simp [hon, hnone], fun _ => hwatch.recordErr now, ?_, ?_⟩
        · simpa [losses_concat, lossOf, hquiet] using h.cancelled
        · simpa [losses_concat, lossOf, hquiet] using h.loss

theorem follows_run (start threshold : ℕ) (results : List Renewal) :
    Follows start threshold results (run RenewalTask.step (.start start threshold) results) :=
  run_history (P := fun _ _ => True) (I := Follows start threshold) (fun _ _ r h _ => follows_step h r)
    (throughout_of_forall _ (fun _ _ => trivial) _) (follows_start start threshold)

theorem losing_of_mem {r : Renewal} {loss : RenewalLoss} (h : loss ∈ lossOf start threshold past r) :
    r = .notFound ∨ ∃ now, r = .error now ∧ Trips start threshold past now := by
  cases r with
  | renewed => cases h
  | notFound => exact .inl rfl
  | error now =>
    rw [lossOf] at h
    split at h
    case isTrue ht => exact .inr ⟨now, rfl, ht⟩
    case isFalse => cases h

theorem mem_lossOf_of_losing {r : Renewal}
    (h : r = .notFound ∨ ∃ now, r = .error now ∧ Trips start threshold past now) :
    ∃ loss, loss ∈ lossOf start threshold past r := by
  rcases h with rfl | ⟨now, rfl, ht⟩
  · exact ⟨.jobNotFound, List.mem_singleton_self _⟩
  · exact ⟨.timedOut, by simp [lossOf, ht]⟩

theorem applyOutageOverride_head (conclusion : Conclusion) :
    let loss := (losses start threshold past).head?.getD .none
    applyOutageOverride conclusion loss =
      if losses start threshold past ≠ [] ∧ conclusion ≠ .success then
        (.failure, [lockLossIssue
          (if loss = .jobNotFound then jobNotFoundMessage else lostConnectionMessage)])
      else (conclusion, []) := by
  cases h : losses start threshold past with
  | nil => simp [applyOutageOverride]
  | cons first rest =>
    have hmem : first ∈ losses start threshold past := by
      rw [h]
      exact List.mem_cons_self ..
    have hfirst := ne_none_of_mem_losses hmem
    by_cases hsuccess : conclusion = .success
    · simp [applyOutageOverride, hfirst, hsuccess]
    · cases first with
      | none => exact absurd rfl hfirst
      | jobNotFound => simp [applyOutageOverride, hsuccess]
      | timedOut => simp [applyOutageOverride, hsuccess]

/-! ### Once in each stretch -/

/-- What the watchdog answers to errors in a row. -/
def OutageWatchdog.answers (w : OutageWatchdog) : List ℕ → List Bool
  | [] => []
  | now :: later => (w.recordErr now).2 :: (w.recordErr now).1.answers later

theorem answers_of_tripped {w : OutageWatchdog} (h : w.tripped = true) (errors : List ℕ) :
    (w.answers errors).count true = 0 := by
  induction errors with
  | nil => rfl
  | cons now later ih =>
    have hsame : w.recordErr now = (w, false) := by rw [OutageWatchdog.recordErr, if_pos h]
    rw [OutageWatchdog.answers, hsame]
    simpa using ih

theorem count_answers {w : OutageWatchdog} (h : w.tripped = false) (errors : List ℕ) :
    (w.answers errors).count true = if ∃ now ∈ errors, w.lastOk + w.threshold < now then 1 else 0 := by
  induction errors with
  | nil => simp [OutageWatchdog.answers]
  | cons now later ih =>
    rw [OutageWatchdog.answers, OutageWatchdog.recordErr, if_neg (by simp [h])]
    split
    case isTrue hlong =>
      have hover : w.lastOk + w.threshold < now := by omega
      rw [if_pos ⟨now, List.mem_cons_self .., hover⟩, List.count_cons_self]
      exact congrArg (· + 1) (answers_of_tripped rfl later)
    case isFalse hshort =>
      have hover : ¬ w.lastOk + w.threshold < now := by omega
      simpa [hover] using ih

/-! ### The result -/

/-- After any results of renewals: the watchdog answers with a trip to the first error of a stretch that comes
    more than the threshold after the last success, and to no other; the job is cancelled if and only if a
    renewal has lost the lock; the reason is that of the first that has, and stays; and the reported
    conclusion differs from the engine's only where the lock is lost and that is no success. -/
theorem lock_loss (start threshold : ℕ) (results : List Renewal) (conclusion : Conclusion) :
    let after (past : List Renewal) := run RenewalTask.step (.start start threshold) past
    let lossAfter (past : List Renewal) := RenewalLoss.fromRaw (after past).renewalLoss
    (∀ past now rest, results = past ++ .error now :: rest → Renewal.notFound ∉ past →
      (((after past).watchdog.recordErr now).2 = true ↔ Trips start threshold past now)) ∧
    (∀ past errors rest, results = past ++ errors.map .error ++ rest → Renewal.notFound ∉ past →
      stretch past = [] →
      ((after past).watchdog.answers errors).count true =
        if ∃ now ∈ errors, Overdue start threshold past now then 1 else 0) ∧
    ((after results).jobCancelled = true ↔
      ∃ past r rest, results = past ++ r :: rest ∧
        (r = .notFound ∨ ∃ now, r = .error now ∧ Trips start threshold past now)) ∧
    lossAfter results = (losses start threshold results).head?.getD .none ∧
    (∀ past rest, results = past ++ rest → lossAfter past ≠ .none → lossAfter results = lossAfter past) ∧
    applyOutageOverride conclusion (lossAfter results) =
      if (after results).jobCancelled = true ∧ conclusion ≠ .success then
        (.failure, [lockLossIssue
          (if lossAfter results = .jobNotFound then jobNotFoundMessage else lostConnectionMessage)])
      else (conclusion, []) := by
  intro after lossAfter
  have hfollows (past : List Renewal) : Follows start threshold past (after past) :=
    follows_run start threshold past
  have hloss (past : List Renewal) : lossAfter past = (losses start threshold past).head?.getD .none := by
    show RenewalLoss.fromRaw (after past).renewalLoss = _
    rw [(hfollows past).loss, RenewalLoss.fromRaw_raw]
  refine ⟨fun past now rest _ hnone => ?_, fun past errors rest _ hnone hfresh => ?_, ?_, hloss results, ?_, ?_⟩
  · exact ((hfollows past).watches ((hfollows past).running.mpr hnone)).trips_iff now
  · have hwatch := (hfollows past).watches ((hfollows past).running.mpr hnone)
    have hoff : (after past).watchdog.tripped = false := by
      rw [Bool.eq_false_iff]
      intro hon
      obtain ⟨now, hmem, -⟩ := hwatch.tripped.mp hon
      rw [hfresh] at hmem
      cases hmem
    rw [count_answers hoff, hwatch.lastOk, hwatch.threshold_eq]
    rfl
  · rw [(hfollows results).cancelled]
    constructor
    · intro hsome
      obtain ⟨loss, hmem⟩ := List.exists_mem_of_ne_nil _ hsome
      obtain ⟨past, r, rest, hsplit, hof⟩ := mem_emits.mp hmem
      exact ⟨past, r, rest, hsplit, losing_of_mem hof⟩
    · rintro ⟨past, r, rest, hsplit, hlosing⟩
      obtain ⟨loss, hof⟩ := mem_lossOf_of_losing hlosing
      exact List.ne_nil_of_mem (mem_emits.mpr ⟨past, r, rest, hsplit, hof⟩)
  · rintro past rest rfl hsome
    rw [hloss] at hsome
    have hsome' : losses start threshold past ≠ [] := fun hnil => hsome (by rw [hnil]; rfl)
    have hmore : losses start threshold (past ++ rest) =
        losses start threshold past ++ emitsFrom (lossOf start threshold) past rest := emits_append _ past rest
    rw [hloss, hloss, hmore, List.head?_append_of_ne_nil _ hsome']
  · simp only [(hfollows results).cancelled, hloss]
    exact applyOutageOverride_head conclusion

end GhRunner.Listener
