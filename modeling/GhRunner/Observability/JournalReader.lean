import GhRunner.Docker.ActionArchive
import GhRunner.Lib.Saturating
import GhRunner.Observability.Journal

namespace GhRunner.Observability

open Text Utf8 Lines Saturating
open GhRunner.Docker (textLines)

/-!
# Reading the journal

`crates/observability/src/journal/reader.rs`.

* `JournalReader.poll` — the complete lines that were appended since the last call;
* `polls_read_once` — over any number of polls of a file that grows, each complete line is read once,
  in order, wherever a poll has met the file.
-/

/-- The byte of a line feed. -/
def newline : UInt8 := 10

/-! ### Following a file -/

section Source

/- The JSON of one line, as `serde_json` reads it. -/
variable (deserialize : Str → Option JournalLine)

/-- A line of another version is skipped, as one that is no event. -/
def parseLine (raw : Str) : Option JournalLine := (deserialize raw).filter (·.v = journalVersion)

def parseLines (raws : List Str) : List JournalLine := raws.filterMap (parseLine deserialize)

/-- The file is opened once; where it was read up to is a `u64`. -/
structure JournalReader where
  offset : BitVec 64

namespace JournalReader

def new : JournalReader := ⟨0⟩

/-- Parse the complete lines appended since the last call; a partial trailing line is read again.
    Without a content the file cannot be opened or read. -/
def poll (reader : JournalReader) : Option (List UInt8) → JournalReader × Option (List JournalLine)
  | none => (reader, none)
  | some content =>
    let buf := whole newline (content.drop reader.offset.toNat)
    if buf = [] then (reader, some [])
    else (⟨satAdd reader.offset (BitVec.ofNat 64 buf.length)⟩,
      some (parseLines deserialize (textLines (fromUtf8Lossy buf))))

/-- One poll after another, with all that was read. -/
def polls (reader : JournalReader) : List (Option (List UInt8)) → JournalReader × List JournalLine
  | [] => (reader, [])
  | content :: rest =>
    let (reader, read) := reader.poll deserialize content
    let (reader, more) := reader.polls rest
    (reader, read.getD [] ++ more)

end JournalReader

end Source

/-! ### Bytes, texts and lines -/

section Texts

variable {front : List UInt8}

theorem closed_fromUtf8Lossy (h : Closed newline front) : Closed '\n' (fromUtf8Lossy front) := by
  rcases h with rfl | h
  · exact .inl rfl
  · obtain ⟨before, rfl⟩ := List.getLast?_eq_some_iff.mp h
    refine .inr ?_
    rw [fromUtf8Lossy_append before (.inl (by decide)), fromUtf8Lossy_cons_of_lt (by decide)]
    exact List.getLast?_concat

/-- What ends in a line feed is read apart from what follows it. -/
theorem fromUtf8Lossy_closed (h : Closed newline front) (rest : List UInt8) :
    fromUtf8Lossy (front ++ rest) = fromUtf8Lossy front ++ fromUtf8Lossy rest := by
  rcases h with rfl | h
  · rfl
  · obtain ⟨before, rfl⟩ := List.getLast?_eq_some_iff.mp h
    rw [List.append_assoc]
    exact fromUtf8Lossy_append_of_lt before (by decide) rest

theorem textLines_append {text : Str} (h : Closed '\n' text) (rest : Str) :
    textLines (text ++ rest) = textLines text ++ textLines rest := by
  rw [textLines, lines_append h, List.map_append]
  rfl

end Texts

section Reading

variable {deserialize : Str → Option JournalLine}

/-- The events of the complete lines of a file. -/
def events (deserialize : Str → Option JournalLine) (content : List UInt8) : List JournalLine :=
  parseLines deserialize (textLines (fromUtf8Lossy (whole newline content)))

theorem events_append {front : List UInt8} (h : Closed newline front) (rest : List UInt8) :
    events deserialize (front ++ rest) = events deserialize front ++ events deserialize rest := by
  rw [events, whole_append h, fromUtf8Lossy_closed h, textLines_append (closed_fromUtf8Lossy h),
    parseLines, List.filterMap_append, events, whole_of_closed h]
  rfl

theorem events_whole (content : List UInt8) :
    events deserialize (whole newline content) = events deserialize content := by
  rw [events, whole_of_closed (closed_whole content)]
  rfl

/-- The reader stands behind the last complete line of what it has seen. -/
def Follows (reader : JournalReader) (content : List UInt8) : Prop :=
  reader.offset.toNat = (whole newline content).length

/-- One poll reads what has been added. -/
theorem poll_reads {reader : JournalReader} {seen content : List UInt8} (h : Follows reader seen)
    (hgrows : seen <+: content) (hlength : content.length ≤ maxNat 64) :
    Follows (reader.poll deserialize (some content)).1 content ∧
      events deserialize seen ++ (reader.poll deserialize (some content)).2.getD [] =
        events deserialize content := by
  have hfront : whole newline seen <+: content := (whole_starts seen).trans hgrows
  obtain ⟨rest, rfl⟩ := hfront
  have hclosed : Closed newline (whole newline seen) := closed_whole seen
  have hdrop : (whole newline seen ++ rest).drop reader.offset.toNat = rest := by
    rw [h, List.drop_left]
  have hwhole : whole newline (whole newline seen ++ rest) = whole newline seen ++ whole newline rest :=
    whole_append hclosed rest
  have hevents : events deserialize (whole newline seen ++ rest) =
      events deserialize seen ++ events deserialize rest := by
    rw [events_append hclosed, events_whole]
  simp only [JournalReader.poll, hdrop]
  split
  case isTrue hnone =>
    refine ⟨?_, ?_⟩
    · rw [Follows, hwhole, hnone, List.append_nil, h]
    · rw [hevents, show events deserialize rest = [] by rw [events, hnone]; rfl]
      rfl
  case isFalse =>
    refine ⟨?_, hevents.symm⟩
    -- the file has at most as many bytes as the offset can count
    have hle : (whole newline (whole newline seen ++ rest)).length ≤ maxNat 64 :=
      ((whole_starts _).length_le).trans hlength
    rw [hwhole, List.length_append] at hle
    have hbuf : (BitVec.ofNat 64 (whole newline rest).length).toNat = (whole newline rest).length := by
      have := maxNat_lt 64
      rw [BitVec.toNat_ofNat, Nat.mod_eq_of_lt (by omega)]
    show (satAdd reader.offset _).toNat = _
    rw [toNat_satAdd, hbuf, h, hwhole, List.length_append]
    exact min_eq_left hle

/-- The contents that polls meet are each an extension of the one before, and none has more bytes than
    an offset can count. -/
def Growing : List UInt8 → List (Option (List UInt8)) → Prop
  | _, [] => True
  | seen, none :: contents => Growing seen contents
  | seen, some content :: contents =>
    seen <+: content ∧ content.length ≤ maxNat 64 ∧ Growing content contents

/-- The content that was read last. -/
def lastRead : List UInt8 → List (Option (List UInt8)) → List UInt8
  | seen, [] => seen
  | seen, none :: contents => lastRead seen contents
  | _, some content :: contents => lastRead content contents

theorem polls_from {reader : JournalReader} {seen : List UInt8} (h : Follows reader seen)
    {contents : List (Option (List UInt8))} (hgrowing : Growing seen contents) :
    events deserialize seen ++ (reader.polls deserialize contents).2 =
      events deserialize (lastRead seen contents) := by
  induction contents generalizing reader seen with
  | nil => exact List.append_nil _
  | cons met contents ih =>
    cases met with
    | none => exact ih h hgrowing
    | some content =>
      obtain ⟨hgrows, hlength, hgrowing⟩ := hgrowing
      obtain ⟨hfollows, hread⟩ := @poll_reads deserialize _ _ _ h hgrows hlength
      rw [JournalReader.polls, ← List.append_assoc, hread]
      exact ih hfollows hgrowing

/-- However often a journal is polled while it grows, and wherever a write is torn when it is: all that
    was read so far is each complete line of the content that was read last, once and in order. -/
theorem polls_read_once {contents : List (Option (List UInt8))} (hgrowing : Growing [] contents) :
    (JournalReader.new.polls deserialize contents).2 = events deserialize (lastRead [] contents) := by
  have hfollows : Follows JournalReader.new [] := rfl
  exact polls_from hfollows hgrowing

/-- A line that the first poll meets torn is read by the next one that can read the file. -/
theorem polls_read_once_torn :
    (JournalReader.new.polls (fun raw => some ⟨1, 0, [], .sessionCreated raw⟩)
      [some [97, 10, 98], none, some [97, 10, 98, 99, 10]]).2 =
      events (fun raw => some ⟨1, 0, [], .sessionCreated raw⟩) [97, 10, 98, 99, 10] := by
  have hgrowing : Growing [] [some [97, 10, 98], none, some [97, 10, 98, 99, 10]] :=
    ⟨List.nil_prefix, by decide, by decide, by decide, trivial⟩
  exact polls_read_once hgrowing

end Reading

end GhRunner.Observability
