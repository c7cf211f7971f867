import GhRunner.Lib.Lines
import GhRunner.Lib.LossyUtf8

namespace GhRunner.Shared

open Text Utf8 Lines

/-!
# The redacting log writer

`RedactingWriter` of `crates/shared/src/startup.rs`: bytes are kept back until their line is complete, and
each line is redacted on its way to the inner writer.

* `RedactingWriter.write`, `flush`, `drainCompleteLines` — the writer, over one that takes everything;
* `redaction` — a byte string redacted line by line;
* `Sound` — what was passed on and what is kept back are the bytes so far;
* `flush_writes` — however the bytes are cut into writes, their redaction is passed on.
-/

/-- The bytes that reached the inner writer, and those of the line that is not complete. -/
structure RedactingWriter where
  inner : List UInt8
  buffer : List UInt8
deriving DecidableEq

def newline : UInt8 := 10

namespace RedactingWriter

def new : RedactingWriter := ⟨[], []⟩

section Writer

variable (redact : Str → Str)

/-- A line, read as text, is redacted and passed on. -/
def writeRedacted (inner line : List UInt8) : List UInt8 :=
  inner ++ bytes (redact (fromUtf8Lossy line))

def drainCompleteLines (w : RedactingWriter) : RedactingWriter :=
  match _hpos : w.buffer.findIdx? (· == newline) with
  | none => w
  | some pos =>
    drainCompleteLines
      ⟨writeRedacted redact w.inner (w.buffer.take (pos + 1)), w.buffer.drop (pos + 1)⟩
termination_by w.buffer.length
decreasing_by
  obtain ⟨hlt, -⟩ := List.findIdx?_eq_some_iff_getElem.mp _hpos
  rw [List.length_drop]
  omega

def write (w : RedactingWriter) (buf : List UInt8) : RedactingWriter :=
  drainCompleteLines redact { w with buffer := w.buffer ++ buf }

def flush (w : RedactingWriter) : RedactingWriter :=
  let w := w.drainCompleteLines redact
  if w.buffer = [] then w else ⟨writeRedacted redact w.inner w.buffer, []⟩

/-! ### Line by line -/

/-- Each line of the bytes, with its end, redacted. -/
def redaction (content : List UInt8) : List UInt8 :=
  (splitInclusive newline content).flatMap fun line => bytes (redact (fromUtf8Lossy line))

theorem redaction_append {front : List UInt8} (h : Closed newline front) (rest : List UInt8) :
    redaction redact (front ++ rest) = redaction redact front ++ redaction redact rest := by
  rw [redaction, splitInclusive_append h, List.flatMap_append]
  rfl

theorem writeRedacted_line (inner : List UInt8) {line : List UInt8} (h : newline ∉ line) :
    writeRedacted redact inner (line ++ [newline]) = inner ++ redaction redact (line ++ [newline]) := by
  rw [redaction, splitInclusive_cons_line h, splitInclusive_nil, List.flatMap_singleton]
  rfl

/-- What was passed on is the redaction of complete lines, and what follows them is kept back. -/
def Sound (w : RedactingWriter) (written : List UInt8) : Prop :=
  ∃ lines, Closed newline lines ∧ written = lines ++ w.buffer ∧ w.inner = redaction redact lines

variable {redact} {w : RedactingWriter} {written : List UInt8}

theorem sound_new : Sound redact new [] := ⟨[], .inl rfl, rfl, rfl⟩

/-- The first line of a buffer, with its end. -/
theorem take_line {buffer : List UInt8} {pos : ℕ} (h : buffer.findIdx? (· == newline) = some pos) :
    newline ∉ buffer.take pos ∧ buffer.take (pos + 1) = buffer.take pos ++ [newline] := by
  obtain ⟨hlt, hat, hbefore⟩ := List.findIdx?_eq_some_iff_getElem.mp h
  constructor
  · intro hmem
    obtain ⟨n, hn, hget⟩ := List.getElem_of_mem hmem
    rw [List.length_take] at hn
    rw [List.getElem_take] at hget
    exact hbefore n (by omega) (beq_iff_eq.mpr hget)
  · rw [List.take_succ_eq_append_getElem hlt, eq_of_beq hat]

/-- Draining passes complete lines on until there is none. -/
theorem Sound.drainCompleteLines (h : w.Sound redact written) :
    (w.drainCompleteLines redact).Sound redact written ∧
      newline ∉ (w.drainCompleteLines redact).buffer := by
  fun_induction RedactingWriter.drainCompleteLines redact w with
  | case1 w hpos =>
    refine ⟨h, fun hmem => ?_⟩
    have hnone := List.findIdx?_eq_none_iff.mp hpos newline hmem
    simp at hnone
  | case2 w pos hpos ih =>
    obtain ⟨lines, hclosed, hwritten, hinner⟩ := h
    obtain ⟨hline, htake⟩ := take_line hpos
    refine ih ⟨lines ++ w.buffer.take (pos + 1), ?_, ?_, ?_⟩
    · rw [htake, ← List.append_assoc]
      exact closed_append_sep _
    · rw [List.append_assoc, List.take_append_drop]
      exact hwritten
    · rw [redaction_append redact hclosed, htake, ← writeRedacted_line redact _ hline, hinner]

theorem Sound.write (h : w.Sound redact written) (buf : List UInt8) :
    (w.write redact buf).Sound redact (written ++ buf) := by
  obtain ⟨lines, hclosed, hwritten, hinner⟩ := h
  have hmore : Sound redact { w with buffer := w.buffer ++ buf } (written ++ buf) :=
    ⟨lines, hclosed, by rw [hwritten, List.append_assoc], hinner⟩
  exact hmore.drainCompleteLines.1

theorem Sound.writes (h : w.Sound redact written) (bufs : List (List UInt8)) :
    (bufs.foldl (RedactingWriter.write redact) w).Sound redact (written ++ bufs.flatten) := by
  induction bufs generalizing w written with
  | nil => rwa [List.flatten_nil, List.append_nil]
  | cons buf bufs ih =>
    rw [List.flatten_cons, ← List.append_assoc]
    exact ih (h.write buf)

/-- The line that is not complete is passed on at the end. -/
theorem Sound.flush (h : w.Sound redact written) : w.flush redact = ⟨redaction redact written, []⟩ := by
  obtain ⟨⟨lines, hclosed, hwritten, hinner⟩, hopen⟩ := h.drainCompleteLines
  have hredaction : redaction redact written = (w.drainCompleteLines redact).inner ++
      redaction redact (w.drainCompleteLines redact).buffer := by
    rw [hwritten, redaction_append redact hclosed, hinner]
  unfold RedactingWriter.flush
  dsimp only
  rw [hredaction]
  split
  case isTrue hnil =>
    rw [hnil, redaction, splitInclusive_nil, List.flatMap_nil, List.append_nil, ← hnil]
  case isFalse hne =>
    rw [redaction, splitInclusive_of_notMem hopen hne, List.flatMap_singleton]
    rfl

end Writer

/-! ### Any cut into writes -/

/-- The lines are read as the whole is. -/
theorem flatMap_fromUtf8Lossy (content : List UInt8) :
    (splitInclusive newline content).flatMap fromUtf8Lossy = fromUtf8Lossy content := by
  induction content using line_induction newline with
  | hopen l h =>
    by_cases hl : l = []
    · rw [hl]
      rfl
    · rw [splitInclusive_of_notMem h hl, List.flatMap_singleton]
  | hline line rest h ih =>
    rw [splitInclusive_cons_line h, List.flatMap_cons, ih]
    exact (fromUtf8Lossy_append_of_lt line (by decide) rest).symm

theorem newline_notMem_bytes {s : Str} (h : '\n' ∉ s) : newline ∉ bytes s := by
  intro hmem
  obtain ⟨c, hc, hbyte⟩ := List.mem_flatMap.mp hmem
  exact h (encodeChar_eq_of_lt (d := '\n') hbyte (by decide) rfl ▸ hc)

/-- However a byte string is cut into writes, what the inner writer gets is its redaction line by line;
    the lines are all of its bytes, each read as part of the whole, and a secret that stands within a
    line is in the text of that line when it is redacted. -/
theorem flush_writes (redact : Str → Str) (bufs : List (List UInt8)) :
    (bufs.foldl (write redact) new).flush redact = ⟨redaction redact bufs.flatten, []⟩ ∧
    (splitInclusive newline bufs.flatten).flatten = bufs.flatten ∧
    (splitInclusive newline bufs.flatten).flatMap fromUtf8Lossy = fromUtf8Lossy bufs.flatten ∧
    ∀ secret, secret ≠ [] → '\n' ∉ secret → bytes secret <:+: bufs.flatten →
      ∃ line ∈ splitInclusive newline bufs.flatten, secret <:+: fromUtf8Lossy line := by
  refine ⟨(sound_new.writes bufs).flush, flatten_splitInclusive _, flatMap_fromUtf8Lossy _, ?_⟩
  intro secret hne hnewline hwithin
  have hbytes : bytes secret ≠ [] := fun hnil => hne (bytes_injective hnil)
  obtain ⟨line, hline, hin⟩ := infix_splitInclusive (newline_notMem_bytes hnewline) hbytes hwithin
  exact ⟨line, hline, infix_fromUtf8Lossy hin⟩

/-- A secret that is cut by a write. -/
example : (["ab\ncd".toList, "ef".toList].map bytes |>.foldl (write fun s => s.reverse) new).flush
    (fun s => s.reverse) = ⟨bytes "\nbafedc".toList, []⟩ := by decide +kernel

end RedactingWriter

end GhRunner.Shared
