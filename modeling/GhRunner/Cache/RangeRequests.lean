import GhRunner.Cache.V1

namespace GhRunner.Cache

open Saturating

/-!
# Range requests of the two download handlers

A blob is downloaded whole or in one range of bytes (`crates/cache/src/blob/get.rs`, and `download`
in `v1/handlers.rs`).

* `parseRange` — the window that a `Range` header asks for, clamped to the blob;
* `CacheApp.buildGet`, `V1.streamDownload` — the two handlers;
* `Honest` — as many bytes are streamed as are advertised, and they are the ones asked for;
* `FromZero` — the headers that ask for the first byte, which an empty blob does not have.
-/

/-! ### The header -/

/-- `HeaderValue::to_str`: visible ASCII and tabs. -/
def toStr (value : Bytes) : Option Text.Str :=
  if value.all fun b => b = 9 ∨ 32 ≤ b ∧ b < 127 then some (value.map fun b => Char.ofNat b.toNat)
  else none

/-- The last byte of the window: that of the blob where the header leaves it open. -/
def rangeEnd (endStr : Text.Str) (last : U64) : Except RunnerError U64 :=
  if Text.trim endStr = [] then .ok last
  else
    match parseU64 (Text.trim endStr) with
    | .error e => .error (.cache ("bad range end: " ++ e))
    | .ok stop => .ok (minOf stop last)

/-- `bytes=a-b` as an inclusive window clamped to `total`. -/
def parseSpec (raw : Text.Str) (total : U64) : Except RunnerError (U64 × U64) :=
  match "bytes=".toList.isPrefixOf? raw with
  | none => .error (.cache ("unsupported range: " ++ String.ofList raw))
  | some spec =>
    if ',' ∈ spec then .error (.cache ("multi-range unsupported: " ++ String.ofList raw))
    else
      match Text.splitFirst ['-'] spec with
      | none => .error (.cache ("malformed range: " ++ String.ofList raw))
      | some (startStr, endStr) =>
        match parseU64 (Text.trim startStr) with
        | .error e => .error (.cache ("bad range start: " ++ e))
        | .ok start =>
          match rangeEnd endStr (satSub total 1) with
          | .error e => .error e
          | .ok stop =>
            if stop < start then
              .error (.cache ("range start " ++ toString start.toNat ++ " > end " ++
                toString stop.toNat))
            else .ok (start, stop)

/-- No header, or one that is no text, asks for the whole blob. -/
def parseRange (range : Option Bytes) (total : U64) : Except RunnerError (Option (U64 × U64)) :=
  match range.bind toStr with
  | none => .ok none
  | some raw => (parseSpec raw total).map some

/-! ### The handlers -/

inductive DownloadStatus
  /-- 200 -/
  | ok
  /-- 206 -/
  | partialContent
deriving DecidableEq

/-- What a GET answers, with the items that its body streams.  The headers that both answers have in
    any case are left out. -/
inductive DownloadReply
  /-- 403 -/
  | forbidden
  /-- 404 -/
  | notFound
  /-- 416; the v1 route sends the error along. -/
  | rangeNotSatisfiable (contentRange : String) (error : Option RunnerError)
  /-- 500 -/
  | internalError (e : RunnerError)
  | body (status : DownloadStatus) (contentLength : U64) (contentRange : Option String)
      (items : List (Except RunnerError Bytes))
deriving DecidableEq

def contentRangeText (start stop total : U64) : String :=
  "bytes " ++ toString start.toNat ++ "-" ++ toString stop.toNat ++ "/" ++ toString total.toNat

def unsatisfiedText (total : U64) : String := "bytes */" ++ toString total.toNat

/-- `end.checked_sub(start).and_then(|d| d.checked_add(1))` -/
def rangeLength (start stop : U64) : Option U64 :=
  if stop < start then none
  else if stop.toNat - start.toNat + 1 < 2 ^ 64 then some (stop - start + 1)
  else none

/-- Status, offset, length and `Content-Range` of a download. -/
def windowOf (total : U64) :
    Option (U64 × U64) → Except RunnerError (DownloadStatus × U64 × U64 × Option String)
  | some (start, stop) =>
    match rangeLength start stop with
    | none => .error (.cache "range length overflow")
    | some len => .ok (.partialContent, start, len, some (contentRangeText start stop total))
  | none => .ok (.ok, 0, total, none)

variable {Id : Type} [DecidableEq Id] (C : Codec Id)

namespace CacheApp

/-- The answer over `[offset, offset+len)`; no cold tier is attached to the store of a job. -/
def leasedBody (s : CacheApp Id) (m : Manifest Id)
    (window : DownloadStatus × U64 × U64 × Option String) : DownloadReply × CacheApp Id :=
  let (status, offset, len, contentRange) := window
  let (items, store) := s.store.readRange C.digest none m offset len
  (.body status len contentRange items, { s with store })

/-- A `Range` that cannot be satisfied is a 416, not an internal error. -/
def buildGet (s : CacheApp Id) (token : Token) (range : Option Bytes) : DownloadReply × CacheApp Id :=
  match s.registry.get token s.clock with
  | some (.download m) =>
    match parseRange range m.totalSize with
    | .error _ => (.rangeNotSatisfiable (unsatisfiedText m.totalSize) none, s)
    | .ok parsed =>
      match windowOf m.totalSize parsed with
      | .error e => (.internalError e, s)
      | .ok window => s.leasedBody C m window
  | _ => (.forbidden, s)

end CacheApp

namespace V1

/-- The window of a download, or why there is none. -/
def planRange (range : Option Bytes) (total : U64) :
    Except RunnerError (DownloadStatus × U64 × U64 × Option String) :=
  match parseRange range total with
  | .error e => .error e
  | .ok parsed => windowOf total parsed

def streamDownload (s : CacheApp Id) (token : Token) (range : Option Bytes) :
    DownloadReply × CacheApp Id :=
  match s.downloads.lookup token with
  | none => (.notFound, s)
  | some m =>
    match planRange range m.totalSize with
    | .error e => (.rangeNotSatisfiable (unsatisfiedText m.totalSize) (some e), s)
    | .ok window => s.leasedBody C m window

end V1

/-! ### What the header can ask for -/

theorem rangeEnd_eq_ok_iff {endStr : Text.Str} {last stop : U64} :
    rangeEnd endStr last = .ok stop ↔
      Text.trim endStr = [] ∧ last = stop ∨
      Text.trim endStr ≠ [] ∧ ∃ n, parseU64 (Text.trim endStr) = .ok n ∧ minOf n last = stop := by
  unfold rangeEnd
  split
  case isTrue h => simp [h]
  case isFalse h => cases parseU64 (Text.trim endStr) <;> simp [h]

theorem rangeEnd_le {endStr : Text.Str} {last stop : U64} (h : rangeEnd endStr last = .ok stop) :
    stop.toNat ≤ last.toNat := by
  rcases (rangeEnd_eq_ok_iff).mp h with ⟨-, rfl⟩ | ⟨-, n, -, rfl⟩
  · exact le_refl _
  · rw [toNat_minOf]
    exact min_le_right _ _

/-- The header's text is one range with these two ends. -/
def OneRange (raw startStr endStr : Text.Str) : Prop :=
  ∃ spec, "bytes=".toList.isPrefixOf? raw = some spec ∧ ',' ∉ spec ∧
    Text.splitFirst ['-'] spec = some (startStr, endStr)

theorem parseSpec_eq_ok_iff {raw : Text.Str} {total start stop : U64} :
    parseSpec raw total = .ok (start, stop) ↔
      ∃ startStr endStr, OneRange raw startStr endStr ∧
        parseU64 (Text.trim startStr) = .ok start ∧
        rangeEnd endStr (satSub total 1) = .ok stop ∧ start ≤ stop := by
  constructor
  · intro h
    unfold parseSpec at h
    split at h
    · cases h
    rename_i spec hspec
    split at h
    · cases h
    rename_i hcomma
    split at h
    · cases h
    rename_i startStr endStr hsplit
    split at h
    · cases h
    rename_i start' hstart
    split at h
    · cases h
    rename_i stop' hstop
    split at h
    · cases h
    rename_i hle
    obtain ⟨rfl, rfl⟩ := Prod.mk.inj (Except.ok.inj h)
    exact ⟨startStr, endStr, ⟨spec, hspec, hcomma, hsplit⟩, hstart, hstop,
      BitVec.not_lt.mp hle⟩
  · rintro ⟨startStr, endStr, ⟨spec, hspec, hcomma, hsplit⟩, hstart, hstop, hle⟩
    simp only [parseSpec, hspec, if_neg hcomma, hsplit, hstart, hstop,
      if_neg (BitVec.not_lt.mpr hle)]

theorem parseRange_eq_some_iff {range : Option Bytes} {total : U64} {window : U64 × U64} :
    parseRange range total = .ok (some window) ↔
      ∃ raw, range.bind toStr = some raw ∧ parseSpec raw total = .ok window := by
  unfold parseRange
  cases range.bind toStr with
  | none => simp
  | some raw =>
    simp only [Option.some.injEq, exists_eq_left']
    cases parseSpec raw total <;> simp [Except.map]

theorem parseRange_bounds {range : Option Bytes} {total start stop : U64}
    (h : parseRange range total = .ok (some (start, stop))) :
    start.toNat ≤ stop.toNat ∧ stop.toNat ≤ total.toNat - 1 := by
  obtain ⟨raw, -, hspec⟩ := (parseRange_eq_some_iff).mp h
  obtain ⟨startStr, endStr, -, -, hstop, hle⟩ := (parseSpec_eq_ok_iff).mp hspec
  have hlast := rangeEnd_le hstop
  rw [toNat_satSub] at hlast
  exact ⟨BitVec.le_def.mp hle, hlast⟩

/-- One range that starts with the first byte; what else it asks for is open or a number. -/
def FromZero (range : Option Bytes) : Prop :=
  ∃ raw startStr endStr, range.bind toStr = some raw ∧ OneRange raw startStr endStr ∧
    parseU64 (Text.trim startStr) = .ok 0 ∧
    (Text.trim endStr = [] ∨ ∃ n, parseU64 (Text.trim endStr) = .ok n)

theorem rangeEnd_zero {endStr : Text.Str} :
    rangeEnd endStr 0 = .ok 0 ↔
      Text.trim endStr = [] ∨ ∃ n, parseU64 (Text.trim endStr) = .ok n := by
  have hmin (n : U64) : minOf n 0#64 = 0#64 := by
    apply BitVec.eq_of_toNat_eq
    rw [toNat_minOf]
    exact Nat.min_zero _
  rw [rangeEnd_eq_ok_iff]
  by_cases htrim : Text.trim endStr = [] <;> simp [htrim, hmin]

/-- On an empty blob the window is the first byte or nothing. -/
theorem parseRange_zero_iff {range : Option Bytes} :
    (∃ window, parseRange range 0 = .ok (some window)) ↔ FromZero range := by
  have hlast : satSub (0 : U64) 1 = 0 := rfl
  constructor
  · rintro ⟨⟨start, stop⟩, h⟩
    have hbounds := parseRange_bounds h
    obtain ⟨raw, hraw, hspec⟩ := (parseRange_eq_some_iff).mp h
    obtain ⟨startStr, endStr, hone, hstart, hstop, -⟩ := (parseSpec_eq_ok_iff).mp hspec
    -- nothing lies before the first byte
    have hzero : (0 : U64).toNat = 0 := rfl
    obtain rfl : stop = 0 := BitVec.eq_of_toNat_eq (by omega)
    obtain rfl : start = 0 := BitVec.eq_of_toNat_eq (by omega)
    rw [hlast] at hstop
    exact ⟨raw, startStr, endStr, hraw, hone, hstart, (rangeEnd_zero).mp hstop⟩
  · rintro ⟨raw, startStr, endStr, hraw, hone, hstart, hend⟩
    refine ⟨(0, 0), (parseRange_eq_some_iff).mpr ⟨raw, hraw, (parseSpec_eq_ok_iff).mpr
      ⟨startStr, endStr, hone, hstart, ?_, BitVec.le_refl 0⟩⟩⟩
    rw [hlast]
    exact (rangeEnd_zero).mpr hend

/-! ### What the handlers answer -/

/-- The answer to a request for a blob of these bytes that a good token names: the whole blob, the
    range that the header names, or a refusal of the header. -/
def Honest (data : Bytes) (total : U64) (range : Option Bytes) : DownloadReply → Prop
  | .body status len contentRange items =>
    ∃ slices : List Bytes, items = slices.map .ok ∧ slices.flatten.length = len.toNat ∧
      ((status = .ok ∧ contentRange = none ∧ slices.flatten = data) ∨
        ∃ start stop : U64, start ≤ stop ∧ stop < total ∧
          status = .partialContent ∧ contentRange = some (contentRangeText start stop total) ∧
          len.toNat = stop.toNat - start.toNat + 1 ∧
          slices.flatten = data.extract start.toNat (stop.toNat + 1))
  | .rangeNotSatisfiable contentRange _ =>
    contentRange = unsatisfiedText total ∧ ∃ e, parseRange range total = .error e
  | _ => False

/-- What is promised of a `Range` header and a blob. -/
structure RangeHonest (s : CacheApp Id) (m : Manifest Id) (data : Bytes) (range : Option Bytes) :
    Prop where
  parsed : ∀ start stop, parseRange range m.totalSize = .ok (some (start, stop)) →
    start ≤ stop ∧ stop < m.totalSize
  blob : ∀ token, s.registry.get token s.clock = some (.download m) →
    Honest data m.totalSize range (s.buildGet C token range).1
  v1 : ∀ token, s.downloads.lookup token = some m →
    Honest data m.totalSize range (V1.streamDownload C s token range).1

theorem toNat_rangeLength {start stop len : U64} (h : rangeLength start stop = some len) :
    len.toNat = stop.toNat - start.toNat + 1 := by
  unfold rangeLength at h
  split at h
  · cases h
  rename_i hle
  split at h
  case isFalse => cases h
  case isTrue hfits =>
    obtain rfl := Option.some.inj h
    rw [BitVec.not_lt, BitVec.le_def] at hle
    have := stop.isLt
    bv_omega

/-- The length of a window inside a blob does not overflow. -/
theorem rangeLength_isSome {total start stop : U64} (hle : start ≤ stop) (hlt : stop < total) :
    ∃ len, rangeLength start stop = some len := by
  have := total.isLt
  rw [BitVec.le_def] at hle
  rw [BitVec.lt_def] at hlt
  refine ⟨stop - start + 1, ?_⟩
  rw [rangeLength, if_neg (by rw [BitVec.lt_def]; omega), if_pos (by omega)]

theorem length_extract {data : Bytes} {start stop : ℕ} (hle : start ≤ stop)
    (hlt : stop < data.length) : (data.extract start (stop + 1)).length = stop - start + 1 := by
  rw [List.extract_eq_take_drop, List.length_take, List.length_drop]
  omega

variable {C}

section Blob

variable {s : CacheApp Id} {m : Manifest Id} {parts : List Bytes} {range : Option Bytes}

variable (range) in
/-- A window that was parsed gives an answer, and the answer is honest. -/
theorem honest_window (hm : ManifestOf C.digest m parts)
    (hstocked : Stocked C.digest parts s.store.blobs) {parsed : Option (U64 × U64)}
    (hparsed : ∀ start stop, parsed = some (start, stop) → start ≤ stop ∧ stop < m.totalSize) :
    ∃ window, windowOf m.totalSize parsed = .ok window ∧
      Honest parts.flatten m.totalSize range (s.leasedBody C m window).1 := by
  have htotal := hm.totalSize
  cases parsed with
  | none =>
    obtain ⟨slices, hread, hflatten⟩ := readRange_spec none hstocked hm 0 m.totalSize
    have hwhole : slices.flatten = parts.flatten := by
      rw [hflatten, htotal]
      exact List.take_length
    refine ⟨_, rfl, slices, ?_, ?_, Or.inl ⟨rfl, rfl, hwhole⟩⟩
    · exact congrArg Prod.fst hread
    · rw [hwhole, htotal]
  | some window =>
    obtain ⟨start, stop⟩ := window
    obtain ⟨hle, hlt⟩ := hparsed start stop rfl
    obtain ⟨len, hlen⟩ := rangeLength_isSome hle hlt
    have hlength := toNat_rangeLength hlen
    obtain ⟨slices, hread, hflatten⟩ := readRange_spec none hstocked hm start len
    have hle' := BitVec.le_def.mp hle
    have hlt' := BitVec.lt_def.mp hlt
    have hslice : slices.flatten = parts.flatten.extract start.toNat (stop.toNat + 1) := by
      rw [hflatten, hlength, List.extract_eq_take_drop]
      congr 1
      omega
    refine ⟨(.partialContent, start, len, some (contentRangeText start stop m.totalSize)), ?_,
      slices, ?_, ?_, Or.inr ⟨start, stop, hle, hlt, rfl, rfl, hlength, hslice⟩⟩
    · simp only [windowOf, hlen]
    · exact congrArg Prod.fst hread
    · rw [hslice, length_extract hle' (by omega), hlength]

/-- Where no window passes the end, both handlers are honest. -/
theorem rangeHonest_of_parsed (hm : ManifestOf C.digest m parts)
    (hstocked : Stocked C.digest parts s.store.blobs)
    (hparsed : ∀ start stop, parseRange range m.totalSize = .ok (some (start, stop)) →
      start ≤ stop ∧ stop < m.totalSize) :
    RangeHonest C s m parts.flatten range := by
  refine ⟨hparsed, fun token htoken => ?_, fun token htoken => ?_⟩
  · simp only [CacheApp.buildGet, htoken]
    cases hrange : parseRange range m.totalSize with
    | error e => exact ⟨rfl, e, hrange⟩
    | ok parsed =>
      have hvalid : ∀ start stop, parsed = some (start, stop) → start ≤ stop ∧ stop < m.totalSize :=
        fun start stop h => hparsed start stop (h ▸ hrange)
      obtain ⟨window, hwindow, hhonest⟩ := honest_window range hm hstocked hvalid
      simp only [hwindow]
      exact hhonest
  · simp only [V1.streamDownload, htoken, V1.planRange]
    cases hrange : parseRange range m.totalSize with
    | error e => exact ⟨rfl, e, hrange⟩
    | ok parsed =>
      have hvalid : ∀ start stop, parsed = some (start, stop) → start ≤ stop ∧ stop < m.totalSize :=
        fun start stop h => hparsed start stop (h ▸ hrange)
      obtain ⟨window, hwindow, hhonest⟩ := honest_window range hm hstocked hvalid
      simp only [hwindow]
      exact hhonest

/-- **Which downloads are honest.**  For every blob whose chunks are in the store and every header:
    all of them, but those of an empty blob from its first byte on. -/
theorem rangeHonest_iff (hm : ManifestOf C.digest m parts)
    (hstocked : Stocked C.digest parts s.store.blobs) :
    RangeHonest C s m parts.flatten range ↔ ¬ (parts.flatten = [] ∧ FromZero range) := by
  constructor
  · rintro hhonest ⟨hempty, hzero⟩
    have htotal : m.totalSize = 0 := by
      apply BitVec.eq_of_toNat_eq
      rw [hm.totalSize, hempty]
      rfl
    obtain ⟨⟨start, stop⟩, hwindow⟩ := (parseRange_zero_iff).mpr hzero
    rw [← htotal] at hwindow
    have hlt := (hhonest.parsed start stop hwindow).2
    rw [htotal, BitVec.lt_def] at hlt
    exact Nat.not_lt_zero _ hlt
  · intro hnot
    refine rangeHonest_of_parsed hm hstocked fun start stop hwindow => ?_
    obtain ⟨hle, hlast⟩ := parseRange_bounds hwindow
    rw [BitVec.le_def, BitVec.lt_def]
    refine ⟨hle, ?_⟩
    -- only an empty blob has no byte before its end
    have hpos : m.totalSize.toNat ≠ 0 := by
      intro hzero
      have htotal : m.totalSize = 0 := BitVec.eq_of_toNat_eq hzero
      rw [htotal] at hwindow
      refine hnot ⟨List.eq_nil_of_length_eq_zero (hm.totalSize ▸ hzero), ?_⟩
      exact (parseRange_zero_iff).mp ⟨_, hwindow⟩
    omega

end Blob

/-- A store that serves one blob by a token of either protocol. -/
def servingBlob (blobs : Files Bytes) (m : Manifest Bytes) : CacheApp Bytes :=
  let s := CacheApp.start ⟨blobs, ∅⟩ .empty
  let s := { s with registry := (s.registry.mintDownload m downloadTtl s.clock).2 }
  (s.registerDownload m).2

/-- The header `bytes=0-`. -/
def fromZeroHeader : Option Bytes := some [98, 121, 116, 101, 115, 61, 48, 45]

/-- The two chunks of three bytes, and the header `bytes=0-`: both handlers stream all three. -/
theorem rangeHonest_iff_three_bytes :
    RangeHonest sampleCodec (servingBlob (Finmap.insert [1, 2] [1, 2] (Finmap.singleton [3] [3]))
      sampleManifest) sampleManifest [[1, 2], [3]].flatten fromZeroHeader := by
  have hm : ManifestOf sampleCodec.digest sampleManifest [[1, 2], [3]] :=
    ⟨by decide, by decide, by decide⟩
  have hstocked : Stocked sampleCodec.digest [[1, 2], [3]]
      (Finmap.insert [1, 2] [1, 2] (Finmap.singleton [3] [3])) := by
    unfold Stocked
    decide
  exact (rangeHonest_iff hm hstocked).mpr fun h => by cases h.1

/-- An empty blob from its first byte on: a byte is advertised, and none is streamed. -/
theorem empty_blob_advertises_a_byte :
    ¬ RangeHonest sampleCodec (servingBlob ∅ ⟨[], 0⟩) ⟨[], 0⟩ [] fromZeroHeader ∧
    parseRange fromZeroHeader 0 = .ok (some (0, 0)) ∧
    ((servingBlob ∅ ⟨[], 0⟩).buildGet sampleCodec 0 fromZeroHeader).1 =
      .body .partialContent 1 (some "bytes 0-0/0") [] ∧
    (V1.streamDownload sampleCodec (servingBlob ∅ ⟨[], 0⟩) 0 fromZeroHeader).1 =
      .body .partialContent 1 (some "bytes 0-0/0") [] := by
  have hwindow : parseRange fromZeroHeader 0 = .ok (some (0, 0)) := by decide
  refine ⟨fun hhonest => ?_, hwindow, by decide, by decide⟩
  exact absurd (hhonest.parsed 0 0 hwindow).2 (by decide)

end GhRunner.Cache
