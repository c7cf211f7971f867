import GhRunner.Lib.Machine
import GhRunner.Lib.Text
import Mathlib.Data.List.Nodup
import Mathlib.Data.List.Perm.Basic

namespace GhRunner.Wire

open Text Machine

/-!
# The live log

`crates/wire/src/reporting/live_log.rs`: the loop that buffers the lines of all steps and sends them
to the feed, one batch for a step at each flush.

* `SendState`, `sendStepLines`, `flush` — as the source has them, with every attempt noted;
* `Feed`, `FeedEvent`, `step` — the loop: a line, a tick, the end of the lines;
* `linesDelivered`, `Numbered` — what has arrived of a step, and how its batches count;
* `Sound`, `sound_step` — what holds of the loop in every state;
* `feed_holds` — the batches of a step are contiguous; the buffer is bounded exactly in the runs that
  `InTime` allows, and `late_lines` is one that it does not.
-/

/-- `FLUSH_LINE_THRESHOLD`. -/
def flushLineThreshold : ℕ := 100

/-- `MIN_ATTEMPTS_BEFORE_THRESHOLD`. -/
def minAttemptsBeforeThreshold : UInt32 := 5

structure LiveLogLine where
  stepId : Str
  line : Str
deriving DecidableEq

structure FeedLinesWrapper where
  count : ℕ
  value : List Str
  stepId : Str
  startLine : ℕ
deriving DecidableEq

structure SendState where
  lineCounts : Str → Option ℕ
  totalAttempts : UInt32
  failedAttempts : UInt32
  active : Bool

def shouldDisable (total failed : UInt32) : Bool :=
  minAttemptsBeforeThreshold ≤ total ∧ total / 2 < failed

namespace SendState

def new : SendState where
  lineCounts := fun _ => none
  totalAttempts := 0
  failedAttempts := 0
  active := true

def recordFailure (state : SendState) : SendState :=
  let failed := state.failedAttempts + 1
  { state with
    failedAttempts := failed
    active := state.active && !shouldDisable state.totalAttempts failed }

end SendState

/-- The lines of each step, in the order in which they came. -/
def addLine : List (Str × List Str) → LiveLogLine → List (Str × List Str)
  | [], line => [(line.stepId, [line.line])]
  | (stepId, lines) :: rest, line =>
    if stepId = line.stepId then (stepId, lines ++ [line.line]) :: rest
    else (stepId, lines) :: addLine rest line

def drainIntoGroups (buffer : List LiveLogLine) : List (Str × List Str) := buffer.foldl addLine []

/-- One attempt, and whether the sink took it. -/
structure Send where
  batch : FeedLinesWrapper
  accepted : Bool

def sendStepLines (state : SendState) (fails : Bool) (stepId : Str) (lines : List Str) :
    SendState × Send :=
  let startLine := (state.lineCounts stepId).getD 1
  let attempted := { state with totalAttempts := state.totalAttempts + 1 }
  let batch := ⟨lines.length, lines, stepId, startLine⟩
  if fails then (attempted.recordFailure, ⟨batch, false⟩)
  else
    let counts := Function.update state.lineCounts stepId (some (startLine + lines.length))
    ({ attempted with lineCounts := counts }, ⟨batch, true⟩)

/-- One group after another, until a failure disables the feed. -/
def sendGroups (state : SendState) (fails : ℕ → Bool) :
    List (Str × List Str) → SendState × List Send
  | [] => (state, [])
  | (stepId, lines) :: rest =>
    let sent := sendStepLines state (fails 0) stepId lines
    if sent.1.active then
      let more := sendGroups sent.1 (fun n => fails (n + 1)) rest
      (more.1, sent.2 :: more.2)
    else (sent.1, [sent.2])

/-- What a flush meets: the order of the hash map, and which of its sends fail. -/
structure Schedule where
  order : List (Str × List Str) → List (Str × List Str)
  perm : ∀ groups, (order groups).Perm groups
  fails : ℕ → Bool

structure Feed where
  buffer : List LiveLogLine
  state : SendState
  closed : Bool
  /-- Every attempt so far. -/
  sends : List Send
  /-- Every line so far, and how many came after the feed was disabled. -/
  received : List LiveLogLine
  late : ℕ

inductive FeedEvent
  | line (line : LiveLogLine) (schedule : Schedule)
  | tick (schedule : Schedule)
  | close (schedule : Schedule)

namespace Feed

def start : Feed where
  buffer := []
  state := .new
  closed := false
  sends := []
  received := []
  late := 0

def flush (feed : Feed) (schedule : Schedule) : Feed :=
  if feed.buffer = [] then feed
  else
    let sent := sendGroups feed.state schedule.fails (schedule.order (drainIntoGroups feed.buffer))
    { feed with buffer := [], state := sent.1, sends := feed.sends ++ sent.2 }

def push (feed : Feed) (line : LiveLogLine) : Feed :=
  { feed with
    buffer := feed.buffer ++ [line]
    received := feed.received ++ [line]
    late := if feed.state.active then feed.late else feed.late + 1 }

/-- `run_loop`: the receive branch, the timer branch and the end. -/
def step (feed : Feed) (e : FeedEvent) : Feed :=
  if feed.closed then feed
  else
    match e with
    | .line line schedule =>
      let pushed := feed.push line
      if pushed.state.active = true ∧ flushLineThreshold ≤ pushed.buffer.length then
        pushed.flush schedule
      else pushed
    | .tick schedule => if feed.state.active then feed.flush schedule else feed
    | .close schedule =>
      { (if feed.state.active then feed.flush schedule else feed) with closed := true }

end Feed

/-! ### Groups -/

def linesOf (stepId : Str) (lines : List LiveLogLine) : List Str :=
  (lines.filter fun line => line.stepId = stepId).map LiveLogLine.line

def groupLines (stepId : Str) (groups : List (Str × List Str)) : List Str :=
  (groups.filter fun group => group.1 = stepId).flatMap Prod.snd

theorem linesOf_append (stepId : Str) (lines more : List LiveLogLine) :
    linesOf stepId (lines ++ more) = linesOf stepId lines ++ linesOf stepId more := by
  rw [linesOf, List.filter_append, List.map_append]
  rfl

theorem groupLines_cons (stepId : Str) (group : Str × List Str) (groups : List (Str × List Str)) :
    groupLines stepId (group :: groups) =
      (if group.1 = stepId then group.2 else []) ++ groupLines stepId groups := by
  rw [groupLines, List.filter_cons]
  split <;> simp_all [groupLines]

theorem groupLines_of_notMem {stepId : Str} {groups : List (Str × List Str)}
    (h : stepId ∉ groups.map Prod.fst) : groupLines stepId groups = [] := by
  have hnone : (groups.filter fun group => group.1 = stepId) = [] := by
    rw [List.filter_eq_nil_iff]
    intro group hgroup
    simpa using fun heq => h (List.mem_map.mpr ⟨group, hgroup, heq⟩)
  rw [groupLines, hnone, List.flatMap_nil]

theorem mem_keys_addLine {groups : List (Str × List Str)} {line : LiveLogLine} {key : Str} :
    key ∈ (addLine groups line).map Prod.fst ↔ key ∈ groups.map Prod.fst ∨ key = line.stepId := by
  induction groups with
  | nil => simp [addLine]
  | cons group rest ih =>
    rw [addLine]
    split
    case isTrue heq =>
      rw [List.map_cons, List.map_cons, List.mem_cons, heq]
      tauto
    case isFalse =>
      rw [List.map_cons, List.map_cons, List.mem_cons, List.mem_cons, ih, or_assoc]

theorem nodup_keys_addLine {groups : List (Str × List Str)} (h : (groups.map Prod.fst).Nodup)
    (line : LiveLogLine) : ((addLine groups line).map Prod.fst).Nodup := by
  induction groups with
  | nil => simp [addLine]
  | cons group rest ih =>
    rw [List.map_cons, List.nodup_cons] at h
    rw [addLine]
    split
    case isTrue => exact List.nodup_cons.mpr h
    case isFalse hne =>
      rw [List.map_cons, List.nodup_cons, mem_keys_addLine, not_or]
      exact ⟨⟨h.1, hne⟩, ih h.2⟩

/-- The line goes to the end of its group. -/
theorem groupLines_addLine {groups : List (Str × List Str)} (h : (groups.map Prod.fst).Nodup)
    (line : LiveLogLine) (stepId : Str) : groupLines stepId (addLine groups line) =
      groupLines stepId groups ++ linesOf stepId [line] := by
  induction groups with
  | nil =>
    rw [addLine, groupLines_cons]
    by_cases heq : line.stepId = stepId <;> simp [groupLines, linesOf, heq]
  | cons group rest ih =>
    rw [List.map_cons, List.nodup_cons] at h
    rw [addLine]
    split
    case isTrue heq =>
      rw [groupLines_cons, groupLines_cons]
      by_cases hstep : group.1 = stepId
      · -- no other group has the key
        rw [hstep] at h
        rw [if_pos hstep, if_pos hstep, groupLines_of_notMem h.1]
        simp [linesOf, ← heq, hstep]
      · rw [if_neg hstep, if_neg hstep]
        simp [linesOf, ← heq, hstep]
    case isFalse => rw [groupLines_cons, groupLines_cons, ih h.2, List.append_assoc]

theorem nodup_keys_drainIntoGroups (buffer : List LiveLogLine) :
    ((drainIntoGroups buffer).map Prod.fst).Nodup := by
  have hfold : ∀ (lines : List LiveLogLine) (groups : List (Str × List Str)),
      (groups.map Prod.fst).Nodup → ((lines.foldl addLine groups).map Prod.fst).Nodup := by
    intro lines
    induction lines with
    | nil => exact fun _ h => h
    | cons line lines ih => exact fun groups h => ih _ (nodup_keys_addLine h line)
  exact hfold buffer [] List.nodup_nil

theorem groupLines_drainIntoGroups (buffer : List LiveLogLine) (stepId : Str) :
    groupLines stepId (drainIntoGroups buffer) = linesOf stepId buffer := by
  have hfold : ∀ (lines : List LiveLogLine) (groups : List (Str × List Str)),
      (groups.map Prod.fst).Nodup → groupLines stepId (lines.foldl addLine groups) =
        groupLines stepId groups ++ linesOf stepId lines := by
    intro lines
    induction lines with
    | nil => exact fun groups _ => (List.append_nil _).symm
    | cons line lines ih =>
      intro groups h
      rw [List.foldl_cons, ih _ (nodup_keys_addLine h line), groupLines_addLine h,
        List.append_assoc, ← linesOf_append]
      rfl
  exact hfold buffer [] List.nodup_nil

/-- In whatever order the groups are visited, a step has one. -/
theorem groupLines_perm {groups ordered : List (Str × List Str)}
    (hnodup : (groups.map Prod.fst).Nodup) (h : ordered.Perm groups) (stepId : Str) :
    groupLines stepId ordered = groupLines stepId groups := by
  induction h with
  | nil => rfl
  | cons group _ ih =>
    rw [List.map_cons, List.nodup_cons] at hnodup
    rw [groupLines_cons, groupLines_cons, ih hnodup.2]
  | swap a b rest =>
    rw [List.map_cons, List.map_cons, List.nodup_cons, List.mem_cons, not_or] at hnodup
    simp only [groupLines_cons]
    by_cases ha : a.1 = stepId
    · have hb : b.1 ≠ stepId := fun hb => hnodup.1.1 (ha.trans hb.symm)
      simp [ha, hb]
    · simp [ha]
  | trans h₁ h₂ ih₁ ih₂ =>
    rw [ih₁ ((h₂.map Prod.fst).nodup_iff.mpr hnodup), ih₂ hnodup]

/-! ### Batches -/

def delivered (sends : List Send) : List FeedLinesWrapper :=
  (sends.filter Send.accepted).map Send.batch

/-- What has arrived of a step. -/
def linesDelivered (stepId : Str) (batches : List FeedLinesWrapper) : List Str :=
  (batches.filter fun batch => batch.stepId = stepId).flatMap FeedLinesWrapper.value

/-- Each batch starts behind the lines of its step that were delivered before. -/
def Numbered (batches : List FeedLinesWrapper) : Prop :=
  ∀ before batch after, batches = before ++ batch :: after →
    batch.startLine = (linesDelivered batch.stepId before).length + 1 ∧
      batch.count = batch.value.length

/-- The counter of a step is the number of its next line. -/
def Counts (state : SendState) (batches : List FeedLinesWrapper) : Prop :=
  ∀ stepId, (state.lineCounts stepId).getD 1 = (linesDelivered stepId batches).length + 1

theorem delivered_append (sends more : List Send) :
    delivered (sends ++ more) = delivered sends ++ delivered more := by
  rw [delivered, List.filter_append, List.map_append]
  rfl

theorem linesDelivered_append (stepId : Str) (batches more : List FeedLinesWrapper) :
    linesDelivered stepId (batches ++ more) =
      linesDelivered stepId batches ++ linesDelivered stepId more := by
  rw [linesDelivered, List.filter_append, List.flatMap_append]
  rfl

theorem linesDelivered_singleton (stepId : Str) (batch : FeedLinesWrapper) :
    linesDelivered stepId [batch] = if batch.stepId = stepId then batch.value else [] := by
  rw [linesDelivered, List.filter_singleton]
  split <;> simp_all

theorem numbered_concat {batches : List FeedLinesWrapper} {batch : FeedLinesWrapper}
    (h : Numbered batches)
    (hstart : batch.startLine = (linesDelivered batch.stepId batches).length + 1)
    (hcount : batch.count = batch.value.length) : Numbered (batches ++ [batch]) := by
  intro before b after heq
  rcases List.eq_nil_or_concat after with rfl | ⟨front, last, rfl⟩
  · obtain ⟨rfl, hb⟩ := List.append_inj' heq rfl
    obtain rfl := (List.cons.inj hb).1
    exact ⟨hstart, hcount⟩
  · rw [List.concat_eq_append, ← List.cons_append, ← List.append_assoc] at heq
    exact h before b front (List.append_inj' heq rfl).1

/-- The numbers stay right over one attempt, taken or not. -/
theorem numbered_sendStepLines {state : SendState} {batches : List FeedLinesWrapper}
    (hnumbered : Numbered batches) (hcounts : Counts state batches) (fails : Bool) (stepId : Str)
    (lines : List Str) :
    Numbered (batches ++ delivered [(sendStepLines state fails stepId lines).2]) ∧
      Counts (sendStepLines state fails stepId lines).1
        (batches ++ delivered [(sendStepLines state fails stepId lines).2]) := by
  cases fails with
  | true =>
    have hnone : delivered [(sendStepLines state true stepId lines).2] = [] := rfl
    rw [hnone, List.append_nil]
    exact ⟨hnumbered, hcounts⟩
  | false =>
    refine ⟨numbered_concat hnumbered (hcounts stepId) rfl, fun other => ?_⟩
    show ((Function.update state.lineCounts stepId _) other).getD 1 = (linesDelivered other
      (batches ++ [_])).length + 1
    have hstep : (sendStepLines state false stepId lines).2.batch.stepId = stepId := rfl
    have hvalue : (sendStepLines state false stepId lines).2.batch.value = lines := rfl
    rw [linesDelivered_append, linesDelivered_singleton, List.length_append, hstep, hvalue]
    by_cases hother : other = stepId
    · subst hother
      rw [Function.update_self, if_pos rfl, Option.getD_some, hcounts other]
      omega
    · rw [Function.update_of_ne hother, if_neg (Ne.symm hother), hcounts other]
      rfl

theorem numbered_sendGroups {state : SendState} {batches : List FeedLinesWrapper}
    (hnumbered : Numbered batches) (hcounts : Counts state batches) (fails : ℕ → Bool)
    (groups : List (Str × List Str)) :
    Numbered (batches ++ delivered (sendGroups state fails groups).2) ∧
      Counts (sendGroups state fails groups).1
        (batches ++ delivered (sendGroups state fails groups).2) := by
  induction groups generalizing state batches fails with
  | nil =>
    rw [sendGroups, show delivered [] = [] from rfl, List.append_nil]
    exact ⟨hnumbered, hcounts⟩
  | cons group rest ih =>
    obtain ⟨hfirst, hnext⟩ :=
      numbered_sendStepLines hnumbered hcounts (fails 0) group.1 group.2
    rw [sendGroups]
    split
    case isTrue =>
      have hrest := ih hfirst hnext (fun n => fails (n + 1))
      rwa [List.append_assoc, ← delivered_append] at hrest
    case isFalse => exact ⟨hfirst, hnext⟩

/-- No line is delivered that is in no group. -/
theorem sublist_sendGroups (state : SendState) (fails : ℕ → Bool) (groups : List (Str × List Str))
    (stepId : Str) :
    (linesDelivered stepId (delivered (sendGroups state fails groups).2)).Sublist
      (groupLines stepId groups) := by
  induction groups generalizing state fails with
  | nil => exact List.Sublist.refl _
  | cons group rest ih =>
    have hone : (linesDelivered stepId
        (delivered [(sendStepLines state (fails 0) group.1 group.2).2])).Sublist
        (if group.1 = stepId then group.2 else []) := by
      cases fails 0 with
      | true => exact List.nil_sublist _
      | false =>
        show (linesDelivered stepId [_]).Sublist _
        rw [linesDelivered_singleton]
        exact List.Sublist.refl _
    rw [groupLines_cons, sendGroups]
    split
    case isTrue =>
      show (linesDelivered stepId (delivered ([_] ++ _))).Sublist _
      rw [delivered_append, linesDelivered_append]
      exact hone.append (ih _ _)
    case isFalse => exact hone.trans (List.sublist_append_left _ _)

/-- Where every send is taken the feed stays active and every line is delivered. -/
theorem sendGroups_accepted {state : SendState} {fails : ℕ → Bool}
    {groups : List (Str × List Str)} (hactive : state.active = true)
    (h : ∀ send ∈ (sendGroups state fails groups).2, send.accepted = true) :
    (sendGroups state fails groups).1.active = true ∧
      ∀ stepId, linesDelivered stepId (delivered (sendGroups state fails groups).2) =
        groupLines stepId groups := by
  induction groups generalizing state fails with
  | nil => exact ⟨hactive, fun _ => rfl⟩
  | cons group rest ih =>
    have hfirst : fails 0 = false := by
      by_contra hfails
      rw [Bool.not_eq_false] at hfails
      have hsend := h (sendStepLines state (fails 0) group.1 group.2).2 (by
        rw [sendGroups]
        split <;> exact List.mem_cons_self)
      rw [hfails] at hsend
      cases hsend
    have hstill : (sendStepLines state (fails 0) group.1 group.2).1.active = true := by
      rw [hfirst]
      exact hactive
    rw [sendGroups, if_pos hstill] at h ⊢
    obtain ⟨hend, hlines⟩ := ih hstill fun send hsend => h send (List.mem_cons_of_mem _ hsend)
    refine ⟨hend, fun stepId => ?_⟩
    show linesDelivered stepId (delivered ([_] ++ _)) = _
    rw [delivered_append, linesDelivered_append, hlines, groupLines_cons, hfirst]
    show linesDelivered stepId [_] ++ _ = _
    rw [linesDelivered_singleton]
    rfl

namespace Feed

/-! ### The loop -/

/-- What holds of the feed in every state: the batches count on, nothing arrives twice or out of
    order, and nothing is lost as long as every send is taken. -/
structure Contiguous (feed : Feed) : Prop where
  numbered : Numbered (delivered feed.sends)
  ordered : ∀ stepId, (linesDelivered stepId (delivered feed.sends)).Sublist
    (linesOf stepId feed.received)
  complete : (∀ send ∈ feed.sends, send.accepted = true) → ∀ stepId,
    linesDelivered stepId (delivered feed.sends) ++ linesOf stepId feed.buffer =
      linesOf stepId feed.received
  finished : (∀ send ∈ feed.sends, send.accepted = true) → feed.closed = true → feed.buffer = []

/-- The buffer is below the threshold plus one, also between a line and its flush. -/
def Bounded (feed : Feed) (e : FeedEvent) : Prop :=
  (feed.step e).buffer.length < flushLineThreshold + 1 ∧
    ∀ line schedule, e = .line line schedule → feed.closed = false →
      (feed.push line).buffer.length < flushLineThreshold + 1

def Holds (feed : Feed) (e : FeedEvent) : Prop := Contiguous (feed.step e) ∧ Bounded feed e

/-- No more lines come after the feed was disabled than the threshold. -/
def InTime (feed : Feed) (e : FeedEvent) : Prop :=
  ∀ line schedule, e = .line line schedule → feed.closed = false →
    feed.state.active = true ∨ feed.late < flushLineThreshold

/-- What has been said of the lines, whatever is in the buffer. -/
structure Kept (feed : Feed) : Prop where
  numbered : Numbered (delivered feed.sends)
  counts : Counts feed.state (delivered feed.sends)
  ordered : ∀ stepId, (linesDelivered stepId (delivered feed.sends) ++
    linesOf stepId feed.buffer).Sublist (linesOf stepId feed.received)
  complete : (∀ send ∈ feed.sends, send.accepted = true) → feed.state.active = true ∧
    ∀ stepId, linesDelivered stepId (delivered feed.sends) ++ linesOf stepId feed.buffer =
      linesOf stepId feed.received
  onTime : feed.state.active = true → feed.late = 0

structure Sound (feed : Feed) : Prop extends Kept feed where
  short : feed.state.active = true → feed.buffer.length < flushLineThreshold
  late : feed.state.active = false → feed.buffer.length = feed.late
  finished : feed.state.active = true → feed.closed = true → feed.buffer = []

variable {feed : Feed}

theorem Sound.contiguous (h : Sound feed) : Contiguous feed where
  numbered := h.numbered
  ordered stepId := (List.sublist_append_left _ _).trans (h.ordered stepId)
  complete hsends := (h.complete hsends).2
  finished hsends := h.finished (h.complete hsends).1

theorem sound_start : Sound start where
  numbered before batch after h := by
    cases before <;> cases h
  counts _ := rfl
  ordered _ := List.Sublist.refl _
  complete _ := ⟨rfl, fun _ => rfl⟩
  onTime _ := rfl
  short _ := by decide
  late := nofun
  finished _ := nofun

theorem kept_push (h : Sound feed) (line : LiveLogLine) : Kept (feed.push line) where
  numbered := h.numbered
  counts := h.counts
  ordered stepId := by
    show (_ ++ linesOf stepId (_ ++ _)).Sublist (linesOf stepId (_ ++ _))
    rw [linesOf_append, linesOf_append, ← List.append_assoc]
    exact (h.ordered stepId).append_right _
  complete hsends := by
    obtain ⟨hactive, hlines⟩ := h.complete hsends
    refine ⟨hactive, fun stepId => ?_⟩
    show _ ++ linesOf stepId (_ ++ _) = linesOf stepId (_ ++ _)
    rw [linesOf_append, linesOf_append, ← List.append_assoc]
    exact congrArg (· ++ _) (hlines stepId)
  onTime hactive := by
    have hon : feed.state.active = true := hactive
    show (if _ then _ else _) = _
    rw [if_pos hon]
    exact h.onTime hon

/-- Without a flush the buffer has not reached the threshold, or the feed is disabled. -/
theorem sound_push (h : Sound feed) (hopen : feed.closed = false) (line : LiveLogLine)
    (hshort : feed.state.active = true → feed.buffer.length + 1 < flushLineThreshold) :
    Sound (feed.push line) where
  toKept := kept_push h line
  short hactive := by
    show (_ ++ [_]).length < _
    rw [List.length_append, List.length_singleton]
    exact hshort hactive
  late hactive := by
    show (_ ++ [_]).length = if _ then _ else _
    rw [List.length_append, List.length_singleton, h.late hactive, if_neg]
    exact Bool.eq_false_iff.mp hactive
  finished _ hclosed := absurd (hopen.symm.trans hclosed) Bool.false_ne_true

/-- A flush empties the buffer; what it does not deliver is lost, and then a send has failed. -/
theorem sound_flush (h : Kept feed) (hactive : feed.state.active = true) (schedule : Schedule) :
    Sound (feed.flush schedule) ∧ (feed.flush schedule).buffer = [] := by
  rw [flush]
  split
  case isTrue hempty =>
    refine ⟨⟨h, fun _ => ?_, fun hoff => ?_, fun _ _ => hempty⟩, hempty⟩
    · rw [hempty]
      decide
    · exact absurd (hactive.symm.trans hoff) Bool.noConfusion
  case isFalse =>
    let groups := schedule.order (drainIntoGroups feed.buffer)
    have hgroups : ∀ stepId, groupLines stepId groups = linesOf stepId feed.buffer := by
      intro stepId
      rw [groupLines_perm (nodup_keys_drainIntoGroups _) (schedule.perm _),
        groupLines_drainIntoGroups]
    obtain ⟨hnumbered, hcounts⟩ := numbered_sendGroups h.numbered h.counts schedule.fails groups
    refine ⟨⟨⟨?_, ?_, fun stepId => ?_, fun hsends => ?_, fun _ => h.onTime hactive⟩,
      fun _ => Nat.zero_lt_succ _, fun _ => (h.onTime hactive).symm, fun _ _ => rfl⟩, rfl⟩
    · rw [delivered_append]
      exact hnumbered
    · rw [delivered_append]
      exact hcounts
    · rw [delivered_append, linesDelivered_append]
      show (_ ++ []).Sublist _
      rw [List.append_nil]
      have hsent := sublist_sendGroups feed.state schedule.fails groups stepId
      rw [hgroups] at hsent
      exact (hsent.append_left _).trans (h.ordered stepId)
    · have hbefore := h.complete fun send hsend => hsends send (List.mem_append_left _ hsend)
      obtain ⟨hend, hlines⟩ := sendGroups_accepted hactive fun send hsend =>
        hsends send (List.mem_append_right _ hsend)
      refine ⟨hend, fun stepId => ?_⟩
      rw [delivered_append, linesDelivered_append, hlines]
      show (_ ++ _) ++ [] = _
      rw [List.append_nil, hgroups]
      exact hbefore.2 stepId

theorem sound_close (h : Sound feed) (hempty : feed.state.active = true → feed.buffer = []) :
    Sound { feed with closed := true } where
  toKept := ⟨h.numbered, h.counts, h.ordered, h.complete, h.onTime⟩
  short := h.short
  late := h.late
  finished hactive _ := hempty hactive

theorem sound_step (feed : Feed) (e : FeedEvent) (h : Sound feed) : Sound (feed.step e) := by
  unfold step
  split
  case isTrue => exact h
  case isFalse hopen =>
    rw [Bool.not_eq_true] at hopen
    cases e with
    | line line schedule =>
      show Sound (if _ then _ else _)
      split
      case isTrue hfull => exact (sound_flush (kept_push h line) hfull.1 schedule).1
      case isFalse hfull =>
        refine sound_push h hopen line fun hactive => ?_
        rw [not_and, not_le] at hfull
        have hlength : (feed.buffer ++ [line]).length < flushLineThreshold := hfull hactive
        rwa [List.length_append, List.length_singleton] at hlength
    | tick schedule =>
      show Sound (if _ then _ else _)
      split
      case isTrue hactive => exact (sound_flush h.toKept hactive schedule).1
      case isFalse => exact h
    | close schedule =>
      by_cases hactive : feed.state.active = true
      · obtain ⟨hflush, hempty⟩ := sound_flush h.toKept hactive schedule
        show Sound { (if _ then _ else _ : Feed) with closed := true }
        rw [if_pos hactive]
        exact sound_close hflush fun _ => hempty
      · show Sound { (if _ then _ else _ : Feed) with closed := true }
        rw [if_neg hactive]
        exact sound_close h fun hon => absurd hon hactive

/-! ### The buffer -/

theorem length_push (feed : Feed) (line : LiveLogLine) :
    (feed.push line).buffer.length = feed.buffer.length + 1 := List.length_append

theorem length_flush_le (feed : Feed) (schedule : Schedule) :
    (feed.flush schedule).buffer.length ≤ feed.buffer.length := by
  unfold flush
  split
  · exact le_rfl
  · exact Nat.zero_le _

/-- Only a line makes the buffer longer. -/
theorem length_step_le (feed : Feed) (e : FeedEvent) :
    (feed.step e).buffer.length ≤ feed.buffer.length ∨
      ∃ line schedule, e = .line line schedule ∧ feed.closed = false ∧
        (feed.step e).buffer.length ≤ (feed.push line).buffer.length := by
  unfold step
  split
  case isTrue => exact .inl le_rfl
  case isFalse hopen =>
    rw [Bool.not_eq_true] at hopen
    cases e with
    | line line schedule =>
      refine .inr ⟨line, schedule, rfl, hopen, ?_⟩
      show (if _ then _ else _ : Feed).buffer.length ≤ _
      split
      · exact length_flush_le _ schedule
      · exact le_rfl
    | tick schedule =>
      left
      show (if _ then _ else _ : Feed).buffer.length ≤ _
      split
      · exact length_flush_le _ schedule
      · exact le_rfl
    | close schedule =>
      left
      show (if _ then _ else _ : Feed).buffer.length ≤ _
      split
      · exact length_flush_le _ schedule
      · exact le_rfl

/-- While the feed is active the buffer stays below the threshold; once it is disabled it holds every
    line that comes. -/
theorem bounded_of_inTime (h : Sound feed) (hlength : feed.buffer.length < flushLineThreshold + 1)
    {e : FeedEvent} (htime : InTime feed e) : Bounded feed e := by
  have hline : ∀ line schedule, e = .line line schedule → feed.closed = false →
      (feed.push line).buffer.length < flushLineThreshold + 1 := by
    intro line schedule he hopen
    rw [length_push]
    cases hactive : feed.state.active with
    | true => exact Nat.succ_lt_succ (h.short hactive)
    | false =>
      rw [h.late hactive]
      exact Nat.succ_lt_succ ((htime line schedule he hopen).resolve_left (by simp [hactive]))
  refine ⟨?_, hline⟩
  rcases length_step_le feed e with hle | ⟨line, schedule, he, hopen, hle⟩
  · exact hle.trans_lt hlength
  · exact hle.trans_lt (hline line schedule he hopen)

theorem inTime_of_bounded (h : Sound feed) {e : FeedEvent} (hbounded : Bounded feed e) :
    InTime feed e := by
  intro line schedule he hopen
  cases hactive : feed.state.active with
  | true => exact .inl rfl
  | false =>
    have hlength := hbounded.2 line schedule he hopen
    rw [length_push, h.late hactive] at hlength
    exact .inr (Nat.lt_of_succ_lt_succ hlength)

/-- The batches of each step are contiguous and in order in every run, and the buffer is bounded
    exactly in those in which few lines come after the feed was disabled. -/
theorem feed_holds (es : List FeedEvent) :
    Throughout step Holds start es ↔ Throughout step InTime start es := by
  constructor
  · intro hall
    exact throughout_of_invariant (fun feed e h _ => sound_step feed e h)
      (fun _ _ h hholds => inTime_of_bounded h hholds.2) hall sound_start
  · intro hall
    have hstep : ∀ feed e, Sound feed ∧ feed.buffer.length < flushLineThreshold + 1 →
        InTime feed e → Sound (feed.step e) ∧
          (feed.step e).buffer.length < flushLineThreshold + 1 := by
      rintro feed e ⟨h, hlength⟩ htime
      exact ⟨sound_step feed e h, (bounded_of_inTime h hlength htime).1⟩
    refine throughout_of_invariant hstep ?_ hall ⟨sound_start, by decide⟩
    rintro feed e ⟨h, hlength⟩ htime
    exact ⟨(sound_step feed e h).contiguous, bounded_of_inTime h hlength htime⟩

/-- Every send of the flush fails. -/
def broken : Schedule := ⟨id, fun _ => .refl _, fun _ => true⟩

/-- Five failed batches disable the feed, and a hundred and one lines come after that. -/
def lateRun : List FeedEvent :=
  (List.replicate 5 [.line ⟨['s'], ['a']⟩ broken, .tick broken]).flatten ++
    List.replicate 101 (.line ⟨['s'], ['b']⟩ broken)

theorem late_lines : ¬ Throughout step Holds start lateRun := by
  intro hall
  have hlast := ((throughout_append step _ _ _ [_]).mp
    (show Throughout step Holds start (lateRun.dropLast ++ [_]) from hall)).2.1.2.1
  revert hlast
  decide +kernel

end Feed

end GhRunner.Wire
