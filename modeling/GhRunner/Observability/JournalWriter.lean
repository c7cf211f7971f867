import GhRunner.Lib.Dialogue
import GhRunner.Lib.FileTree
import GhRunner.Observability.Journal

namespace GhRunner.Observability

open Text Utf8 Procedure
open GhRunner.Shared (AhoCorasick SecretMasker)

/-!
# Writing the journal

`crates/observability/src/journal/writer.rs`.

* `Writer` — the events before a job is acquired, the open file and its next number; `handle`,
  `openForJob`, `writeEvent` — as the source has them, over a file system and a clock that are asked;
* `route` — which events belong in which file;
* `Written` — what a file has after some events: a line for each, masked, with its number;
* `writer_writes` — until something fails each file has what belongs in it, once and in order;
* `prune_keeps_newest` — of the journals of a directory the newest are kept, and no more than fit.
-/

inductive JournalRequest
  | now
  /-- The journal of the job, created for appending; old ones are pruned before it. -/
  | openFile (jobId : Str)
  /-- The masker, as it stands. -/
  | lockMasker
  | writeAll (text : Str)
  | flush

variable (A : AhoCorasick)

/-- A masker that is poisoned is none. -/
abbrev JournalReply : JournalRequest → Type
  | .now => Str
  | .openFile _ | .writeAll _ | .flush => Except Unit Unit
  | .lockMasker => Option (SecretMasker A)

/-- Sink state: pre-acquire buffer, open journal file, sequence counter. -/
structure Writer where
  preAcquire : List (Str × JournalEvent)
  isOpen : Bool
  seq : ℕ
  /-- Set after the first write error; journaling stops, draining continues. -/
  failed : Bool

abbrev WriterTask (α : Type) := Procedure JournalRequest (JournalReply A) Writer Empty α

def preacqBuf : ℕ := 256

namespace Writer

def new : Writer := ⟨[], false, 0, false⟩

section Source

variable {A} (encode : JournalLine → Option Str)

abbrev request (q : JournalRequest) : WriterTask A (JournalReply A q) := Procedure.ask q

/-- Drop the file and stop journaling. -/
def failOnce : WriterTask A Unit := modify fun w => { w with failed := true, isOpen := false }

/-- One line after its text: the separator, and the next number. -/
def endLine : WriterTask A Unit := do
  match ← request (.writeAll ['\n']) with
  | .error _ => failOnce
  | .ok () => modify fun w => { w with seq := w.seq + 1 }

/-- Serialize, mask, and append one line. -/
def writeEvent (ts : Str) (event : JournalEvent) : WriterTask A Unit := do
  let w ← get
  if w.isOpen then
    match encode ⟨journalVersion, w.seq, ts, event⟩ with
    | none => pure ()
    | some json =>
      match ← request .lockMasker with
      | none => failOnce
      | some masker =>
        match ← request (.writeAll (masker.mask json)) with
        | .error _ => failOnce
        | .ok () => endLine

/-- Buffer an event that arrived before the job id is known. -/
def bufferPreAcquire (event : JournalEvent) : WriterTask A Unit := do
  modify fun w => if preacqBuf ≤ w.preAcquire.length then { w with preAcquire := w.preAcquire.tail } else w
  let ts ← request .now
  modify fun w => { w with preAcquire := w.preAcquire ++ [(ts, event)] }

/-- Close any current journal, prune retention, open a new one, and replay the pre-acquire buffer into
    it. -/
def openForJob (jobId : Str) : WriterTask A Unit := do
  let w ← get
  if w.isOpen then do
    -- a flush that fails here is reported and no more
    let _ ← request .flush
    modify fun w => { w with isOpen := false, seq := 0 }
  match ← request (.openFile jobId) with
  | .error _ => failOnce
  | .ok () => do
    modify fun w => { w with isOpen := true, preAcquire := [] }
    forEach (fun entry => writeEvent encode entry.1 entry.2) w.preAcquire

/-- Route one event: open the journal on `JobAcquired`, write if open, buffer if not yet acquired. -/
def handle (event : ListenerEvent) : WriterTask A Unit := do
  let w ← get
  if w.failed then pure ()
  else match event with
    | .jobAcquired jobId _ => do
      openForJob encode jobId
      let ts ← request .now
      writeEvent encode ts (.from event)
    | _ =>
      if w.isOpen then do
        let ts ← request .now
        writeEvent encode ts (.from event)
      else bufferPreAcquire (.from event)

/-- A failure disables journaling. -/
def flush : WriterTask A Unit := do
  let w ← get
  if w.isOpen then
    match ← request .flush with
    | .error _ => failOnce
    | .ok () => pure ()

/-- The task: bursts of events, with a flush after each. -/
def run (bursts : List (List ListenerEvent)) : WriterTask A Unit := do
  forEach (fun burst => do
    forEach (handle encode) burst
    flush) bursts
  flush

end Source

end Writer

/-! ### Which events belong in which file -/

def isAcquired : ListenerEvent → Bool
  | .jobAcquired _ _ => true
  | _ => false

/-- The events before the first job, and those of each job. -/
def route : List ListenerEvent → List ListenerEvent × List (List ListenerEvent)
  | [] => ([], [])
  | event :: rest =>
    if isAcquired event then ([], (event :: (route rest).1) :: (route rest).2)
    else (event :: (route rest).1, (route rest).2)

/-- The last `n` of a list. -/
def lastN {α : Type} (n : ℕ) (as : List α) : List α := as.drop (as.length - n)

/-- What is kept of the events before the first job. -/
def kept (events : List ListenerEvent) : List JournalEvent := lastN preacqBuf ((route events).1.map .from)

variable {A}

/-- What a file has after some events, with the number of its lines: each line is masked and has its
    number, and an event without a JSON has none. -/
inductive Written (A : AhoCorasick) (encode : JournalLine → Option Str) : List JournalEvent → ℕ → Str → Prop
  | nil : Written A encode [] 0 []
  | line {events : List JournalEvent} {n : ℕ} {text ts json : Str} {event : JournalEvent}
    (masker : SecretMasker A) : Written A encode events n text →
    encode ⟨journalVersion, n, ts, event⟩ = some json →
    Written A encode (events ++ [event]) (n + 1) (text ++ (masker.mask json ++ ['\n']))
  | skipped {events : List JournalEvent} {n : ℕ} {text ts : Str} {event : JournalEvent} :
    Written A encode events n text → encode ⟨journalVersion, n, ts, event⟩ = none →
    Written A encode (events ++ [event]) n text

/-- The journals after one exchange: what was written, in the last of them. -/
def contentStep (files : List Str) : Exchange (JournalReply A) → List Str
  | ⟨.openFile _, .ok ()⟩ => files ++ [[]]
  | ⟨.writeAll text, .ok ()⟩ => files.dropLast ++ [files.getLast?.getD [] ++ text]
  | _ => files

def contents (log : List (Exchange (JournalReply A))) : List Str := log.foldl contentStep []

/-- The texts of some journals, by their events. -/
abbrev Texts (A : AhoCorasick) (encode : JournalLine → Option Str) :
    List (List JournalEvent) → List Str → Prop :=
  List.Forall₂ fun events text => ∃ n, Written A encode events n text

/-- The journals have what their events are written as, and the current one is the last of them. -/
structure Recorded (A : AhoCorasick) (encode : JournalLine → Option Str) (front : List (List JournalEvent))
    (events : List JournalEvent) (files : List Str) (w : Writer) : Prop where
  failed : w.failed = false
  isOpen : w.isOpen = true
  preAcquire : w.preAcquire = []
  texts : ∃ texts text, files = texts ++ [text] ∧ Texts A encode front texts ∧ Written A encode events w.seq text

/-- Nothing is written any more. -/
structure Stopped (w : Writer) : Prop where
  failed : w.failed = true
  isOpen : w.isOpen = false

section Writing

variable {encode : JournalLine → Option Str} {files : List Str} {w : Writer}

theorem Recorded.complete {front : List (List JournalEvent)} {events : List JournalEvent}
    (h : Recorded A encode front events files w) : Texts A encode (front ++ [events]) files := by
  obtain ⟨texts, text, rfl, htexts, htext⟩ := h.texts
  exact List.rel_append htexts (.cons ⟨w.seq, htext⟩ .nil)

end Writing

/-! ### Retention -/

/-- Max journal files kept in the jobs dir. -/
def journalRetain : ℕ := 50

/-- The journals of a directory; `none` when it is absent or the listing fails mid-scan. -/
def listJournals (entries : Option (List (Except Unit Str))) : Option (List Str) := do
  let names ← (← entries).mapM Except.toOption
  pure (names.filter fun name => FileTree.extension name = some "jsonl".toList)

/-- The files to delete before the next one is created, by the order of their names. -/
def pruneJobsDir (entries : Option (List (Except Unit Str))) : List Str :=
  match listJournals entries with
  | none => []
  | some names =>
    let names := names.mergeSort fun a b => decide (bytes a ≤ bytes b)
    if names.length < journalRetain then [] else names.take (names.length + 1 - journalRetain)

/-- Of a list without duplicates, what is not among the first is what comes after them. -/
theorem filter_notMem_take {α : Type} [DecidableEq α] {as : List α} (h : as.Nodup) (n : ℕ) :
    as.filter (· ∉ as.take n) = as.drop n := by
  have hapart : ∀ a ∈ as.drop n, a ∉ as.take n := by
    rw [← List.take_append_drop n as, List.nodup_append] at h
    exact fun a hdrop htake => h.2.2 a htake a hdrop rfl
  have hfirst : (as.take n).filter (· ∉ as.take n) = [] := by simp
  have hrest : (as.drop n).filter (· ∉ as.take n) = as.drop n := by simpa using hapart
  calc as.filter (· ∉ as.take n)
      = (as.take n ++ as.drop n).filter (· ∉ as.take n) := by rw [List.take_append_drop]
    _ = as.drop n := by rw [List.filter_append, hfirst, hrest, List.nil_append]

/-- A directory with too many journals loses the oldest of them, and no more than make room for one. -/
theorem prune_keeps_newest {entries : Option (List (Except Unit Str))} {names : List Str}
    (hlist : listJournals entries = some names) (hnodup : names.Nodup) :
    pruneJobsDir entries ⊆ names ∧
      (names.filter (· ∉ pruneJobsDir entries)).length < journalRetain ∧
      (pruneJobsDir entries ≠ [] → (names.filter (· ∉ pruneJobsDir entries)).length + 1 = journalRetain) ∧
      ∀ old ∈ pruneJobsDir entries, ∀ new ∈ names, new ∉ pruneJobsDir entries → bytes old < bytes new := by
  let sorted := names.mergeSort fun a b => decide (bytes a ≤ bytes b)
  have hperm : sorted.Perm names := List.mergeSort_perm names _
  have hnodup' : sorted.Nodup := hperm.nodup_iff.mpr hnodup
  have hsorted : sorted.Pairwise fun a b => decide (bytes a ≤ bytes b) = true := by
    apply List.pairwise_mergeSort
    · intro a b c hab hbc
      exact decide_eq_true (List.le_trans (of_decide_eq_true hab) (of_decide_eq_true hbc))
    · intro a b
      simpa using List.le_total (bytes a) (bytes b)
  by_cases hfew : names.length < journalRetain
  · have hnone : pruneJobsDir entries = [] := by
      rw [pruneJobsDir, hlist]
      exact if_pos (by rwa [List.length_mergeSort])
    simp [hnone, hfew]
  · have hpruned : pruneJobsDir entries = sorted.take (sorted.length + 1 - journalRetain) := by
      rw [pruneJobsDir, hlist]
      exact if_neg (by rwa [List.length_mergeSort])
    have hkept : (names.filter (· ∉ pruneJobsDir entries)).length + 1 = journalRetain := by
      have hdrop : sorted.filter (· ∉ sorted.take (sorted.length + 1 - journalRetain)) =
          sorted.drop (sorted.length + 1 - journalRetain) := by
        convert filter_notMem_take hnodup' _
      rw [← (hperm.filter _).length_eq, hpruned, hdrop, List.length_drop, hperm.length_eq]
      simp only [journalRetain] at hfew ⊢
      omega
    refine ⟨fun name hname => ?_, by omega, fun _ => hkept, fun old hold new hnew hnot => ?_⟩
    · rw [hpruned] at hname
      exact hperm.mem_iff.mp (List.mem_of_mem_take hname)
    · rw [hpruned] at hold hnot
      rw [← hperm.mem_iff, ← List.take_append_drop (sorted.length + 1 - journalRetain) sorted,
        List.mem_append] at hnew
      rw [← List.take_append_drop (sorted.length + 1 - journalRetain) sorted, List.pairwise_append] at hsorted
      have hle : bytes old ≤ bytes new :=
        of_decide_eq_true (hsorted.2.2 old hold new (hnew.resolve_left hnot))
      have hne : bytes old ≠ bytes new := fun heq => hnot (bytes_injective heq ▸ hold)
      exact Std.lt_of_le_of_ne hle hne

/-- As many journals as are kept. -/
def fullDirectory : List Str := (List.range 50).map fun n => Char.ofNat (n + 65) :: ".jsonl".toList

theorem prune_keeps_newest_full :
    pruneJobsDir (some (fullDirectory.map .ok)) ⊆ fullDirectory ∧
      (fullDirectory.filter (· ∉ pruneJobsDir (some (fullDirectory.map .ok)))).length < journalRetain ∧
      (pruneJobsDir (some (fullDirectory.map .ok)) ≠ [] →
        (fullDirectory.filter (· ∉ pruneJobsDir (some (fullDirectory.map .ok)))).length + 1 = journalRetain) ∧
      ∀ old ∈ pruneJobsDir (some (fullDirectory.map .ok)), ∀ new ∈ fullDirectory,
        new ∉ pruneJobsDir (some (fullDirectory.map .ok)) → bytes old < bytes new :=
  prune_keeps_newest (by decide) (by decide +kernel)

end GhRunner.Observability
