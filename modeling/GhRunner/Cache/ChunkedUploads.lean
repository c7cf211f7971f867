import GhRunner.Cache.DeadKey
import GhRunner.Cache.V1
import GhRunner.Lib.Decimal

namespace GhRunner.Cache

/-!
# Uploads in chunks over the v1 routes

A client reserves an id, PATCHes the chunks of its archive to offsets of a file, and commits the size
(`crates/cache/src/v1/handlers.rs`).

* `writeAll` — the file once some chunks are written to it; `furthest` is its length, and where the
  chunks carry the bytes of some data, so does the file wherever a chunk went (`holds_writeAll`);
* `PatchRequest`, `received` — the PATCHes of an upload, and the chunks that were taken of them;
* `Reassembled` — a commit ingests the data that was sent, and refuses what is not all there;
* `reassembled_iff` — it does, but for a gap below the furthest end.
-/

/-! ### Chunks in a file -/

section File

/-- A chunk fills these offsets of its file. -/
def Fills (c : ℕ × Bytes) (i : ℕ) : Prop := c.1 ≤ i ∧ i < c.1 + c.2.length

def Covered (chunks : List (ℕ × Bytes)) (i : ℕ) : Prop := ∃ c ∈ chunks, Fills c i

instance (c : ℕ × Bytes) (i : ℕ) : Decidable (Fills c i) := inferInstanceAs (Decidable (_ ∧ _))

instance (chunks : List (ℕ × Bytes)) (i : ℕ) : Decidable (Covered chunks i) :=
  inferInstanceAs (Decidable (∃ c ∈ chunks, Fills c i))

/-- The chunk's bytes are those of the data at its offset. -/
def Carries (data : Bytes) (c : ℕ × Bytes) : Prop :=
  ∀ j b, c.2[j]? = some b → data[c.1 + j]? = some b

/-- The end of the chunk that reaches furthest; an empty one reaches nowhere. -/
def furthest : List (ℕ × Bytes) → ℕ
  | [] => 0
  | c :: rest => if c.2 = [] then furthest rest else max (c.1 + c.2.length) (furthest rest)

def writeAll (file : Bytes) (chunks : List (ℕ × Bytes)) : Bytes :=
  chunks.foldl (fun file c => writeAt file c.1 c.2) file

variable {file data body : Bytes} {chunks : List (ℕ × Bytes)} {offset i : ℕ}

theorem furthest_cons (c : ℕ × Bytes) (rest : List (ℕ × Bytes)) : furthest (c :: rest) =
    if c.2 = [] then furthest rest else max (c.1 + c.2.length) (furthest rest) := rfl

theorem length_writeAt (h : body ≠ []) :
    (writeAt file offset body).length = max file.length (offset + body.length) := by
  rw [writeAt, if_neg h]
  simp only [List.length_append, List.length_take, List.length_replicate, List.length_drop]
  omega

/-- What stands before the bytes that are written, zeros included. -/
theorem length_padded (file : Bytes) (offset : ℕ) :
    ((file ++ List.replicate (offset - file.length) 0).take offset).length = offset := by
  simp only [List.length_take, List.length_append, List.length_replicate]
  omega

theorem getElem?_writeAt_of_fills (h : Fills (offset, body) i) :
    (writeAt file offset body)[i]? = body[i - offset]? := by
  obtain ⟨hle, hlt⟩ := h
  have hle : offset ≤ i := hle
  have hlt : i < offset + body.length := hlt
  have hbody : body ≠ [] := by
    rintro rfl
    simp only [List.length_nil] at hlt
    omega
  have hpad := length_padded file offset
  rw [writeAt, if_neg hbody, List.append_assoc, List.getElem?_append_right (by omega), hpad,
    List.getElem?_append_left (by omega)]

theorem getElem?_writeAt_of_not_fills (h : ¬ Fills (offset, body) i) (hi : i < file.length) :
    (writeAt file offset body)[i]? = file[i]? := by
  unfold writeAt
  split
  · rfl
  have hpad := length_padded file offset
  by_cases hbefore : i < offset
  · rw [List.append_assoc, List.getElem?_append_left (by omega), List.getElem?_take_of_lt hbefore,
      List.getElem?_append_left hi]
  · have hafter : offset + body.length ≤ i := by
      by_contra hlt
      exact h ⟨not_lt.mp hbefore, not_le.mp hlt⟩
    rw [List.getElem?_append_right (by rw [List.length_append, hpad]; exact hafter),
      List.length_append, hpad, List.getElem?_drop]
    congr 1
    omega

theorem length_writeAll (file : Bytes) (chunks : List (ℕ × Bytes)) :
    (writeAll file chunks).length = max file.length (furthest chunks) := by
  induction chunks generalizing file with
  | nil => simp [writeAll, furthest]
  | cons c rest ih =>
    rw [writeAll, List.foldl_cons, ← writeAll, ih, furthest_cons]
    split
    case isTrue hempty => rw [writeAt, if_pos hempty]
    case isFalse hbody =>
      rw [length_writeAt hbody]
      omega

/-- The file and the data have the same byte here. -/
def Holds (data file : Bytes) (i : ℕ) : Prop := ∃ b, file[i]? = some b ∧ data[i]? = some b

/-- Where a chunk of the data is written the file holds the data, and it does where it did. -/
theorem holds_writeAt (hcarries : Carries data (offset, body))
    (h : Fills (offset, body) i ∨ Holds data file i) :
    Holds data (writeAt file offset body) i := by
  by_cases hfills : Fills (offset, body) i
  · obtain ⟨hle, hlt⟩ := hfills
    have hle : offset ≤ i := hle
    have hlt : i < offset + body.length := hlt
    have hj : i - offset < body.length := by omega
    obtain ⟨b, hb⟩ : ∃ b, body[i - offset]? = some b := ⟨_, List.getElem?_eq_getElem hj⟩
    refine ⟨b, ?_, ?_⟩
    · rw [getElem?_writeAt_of_fills ⟨hle, hlt⟩, hb]
    · have hdata := hcarries (i - offset) b hb
      rwa [show offset + (i - offset) = i by omega] at hdata
  · obtain ⟨b, hfile, hdata⟩ := h.resolve_left hfills
    obtain ⟨hi, -⟩ := List.getElem?_eq_some_iff.mp hfile
    exact ⟨b, by rw [getElem?_writeAt_of_not_fills hfills hi, hfile], hdata⟩

/-- In whatever order they are written, and however often: a covered offset holds the data. -/
theorem holds_writeAll (hcarries : ∀ c ∈ chunks, Carries data c)
    (h : Covered chunks i ∨ Holds data file i) : Holds data (writeAll file chunks) i := by
  induction chunks generalizing file with
  | nil =>
    rcases h with ⟨c, hc, -⟩ | h
    · cases hc
    · exact h
  | cons c rest ih =>
    rw [List.forall_mem_cons] at hcarries
    rw [writeAll, List.foldl_cons]
    apply ih hcarries.2
    -- a chunk that comes later writes the same byte again
    rcases h with ⟨c', hc', hfills⟩ | h
    · rcases List.mem_cons.mp hc' with rfl | hrest
      · exact Or.inr (holds_writeAt hcarries.1 (Or.inl hfills))
      · exact Or.inl ⟨c', hrest, hfills⟩
    · exact Or.inr (holds_writeAt hcarries.1 (Or.inr h))

theorem lt_furthest (h : Covered chunks i) : i < furthest chunks := by
  obtain ⟨c, hc, hle, hlt⟩ := h
  induction chunks with
  | nil => cases hc
  | cons c' rest ih =>
    rw [furthest_cons]
    rcases List.mem_cons.mp hc with rfl | hrest
    · have hbody : c.2 ≠ [] := by
        intro hempty
        rw [hempty, List.length_nil] at hlt
        omega
      rw [if_neg hbody]
      omega
    · have := ih hrest
      split <;> omega

theorem furthest_le {n : ℕ} (h : ∀ c ∈ chunks, c.2 ≠ [] → c.1 + c.2.length ≤ n) :
    furthest chunks ≤ n := by
  induction chunks with
  | nil => exact Nat.zero_le n
  | cons c rest ih =>
    rw [List.forall_mem_cons] at h
    have hrest := ih h.2
    rw [furthest_cons]
    split
    case isTrue => exact hrest
    case isFalse hbody => exact max_le (h.1 hbody) hrest

/-- Chunks of the data that cover it reach exactly to its end. -/
theorem furthest_eq_length (hcarries : ∀ c ∈ chunks, Carries data c)
    (hcovers : ∀ i < data.length, Covered chunks i) : furthest chunks = data.length := by
  apply le_antisymm
  · apply furthest_le
    intro c hc hbody
    have hpos := List.length_pos_of_ne_nil hbody
    -- the chunk's last byte is one of the data
    have hj : c.2.length - 1 < c.2.length := by omega
    have hlast := hcarries c hc (c.2.length - 1) _ (List.getElem?_eq_getElem hj)
    obtain ⟨hlt, -⟩ := List.getElem?_eq_some_iff.mp hlast
    omega
  · by_contra hlt
    have := lt_furthest (hcovers (furthest chunks) (not_le.mp hlt))
    omega

/-- Chunks of the data that cover it make it. -/
theorem writeAll_eq (hcarries : ∀ c ∈ chunks, Carries data c)
    (hcovers : ∀ i < data.length, Covered chunks i) : writeAll [] chunks = data := by
  have hlength : (writeAll [] chunks).length = data.length := by
    rw [length_writeAll, furthest_eq_length hcarries hcovers]
    exact Nat.max_eq_right (Nat.zero_le _)
  apply List.ext_getElem?
  intro i
  by_cases hi : i < data.length
  · have hheld : Covered chunks i ∨ Holds data [] i := Or.inl (hcovers i hi)
    obtain ⟨b, hfile, hdata⟩ := holds_writeAll hcarries hheld
    rw [hfile, hdata]
  · rw [List.getElem?_eq_none (by omega), List.getElem?_eq_none (by omega)]

end File

/-! ### The requests -/

/-- One PATCH of an upload; the offsets of a file are `u64`. -/
structure PatchRequest where
  contentRange : Option Text.Str
  body : Bytes
  in_file : ∀ start, contentRangeStart contentRange = some start →
    start.toNat + body.length < 2 ^ 64

/-- Where it writes what; nowhere, if its header is refused. -/
def PatchRequest.chunk (r : PatchRequest) : Option (ℕ × Bytes) :=
  (contentRangeStart r.contentRange).map fun start => (start.toNat, r.body)

def received (requests : List PatchRequest) : List (ℕ × Bytes) :=
  requests.filterMap PatchRequest.chunk

/-- Digits that stay below `2^64` are read as the number they stand for. -/
theorem parseDigits_eq {s : Text.Str} (hdigits : ∀ c ∈ s, c.isDigit = true) {n m : ℕ}
    (hm : s.foldl (fun n c => 10 * n + Binary64.digitValue c) n = m) (hlt : m < 2 ^ 64) :
    parseDigits s n = .ok (BitVec.ofNat 64 m) := by
  induction s generalizing n with
  | nil =>
    obtain rfl : n = m := hm
    rfl
  | cons c s ih =>
    rw [List.forall_mem_cons] at hdigits
    rw [List.foldl_cons] at hm
    have hgrows : ∀ (t : Text.Str) (k : ℕ),
        k ≤ t.foldl (fun n c => 10 * n + Binary64.digitValue c) k := by
      intro t
      induction t with
      | nil => exact le_refl
      | cons d t iht =>
        intro k
        rw [List.foldl_cons]
        have := iht (10 * k + Binary64.digitValue d)
        omega
    have hstep : n * 10 + (c.toNat - '0'.toNat) = 10 * n + Binary64.digitValue c := by
      rw [Nat.mul_comm]
      rfl
    have := hgrows s (10 * n + Binary64.digitValue c)
    rw [parseDigits, if_neg (by rw [hdigits.1]; decide), hstep, if_neg (by omega)]
    exact ih hdigits.2 hm

theorem parseU64_digits {n : ℕ} (h : n < 2 ^ 64) :
    parseU64 (Decimal.digits n) = .ok (BitVec.ofNat 64 n) := by
  have hdigits : ∀ c ∈ Decimal.digits n, c.isDigit = true := fun _ => Decimal.isDigit_of_mem_digits
  have hparse : parseDigits (Decimal.digits n) 0 = .ok (BitVec.ofNat 64 n) :=
    parseDigits_eq hdigits (Decimal.ofDigits_digits n) h
  have hplus : ∀ rest, Decimal.digits n ≠ '+' :: rest := by
    intro rest heq
    exact absurd (hdigits '+' (heq ▸ List.mem_cons_self)) (by decide)
  rw [← hparse]
  unfold parseU64
  split
  case h_1 hnil => exact absurd hnil (Decimal.digits_ne_nil n)
  case h_2 hsole => exact absurd hsole (hplus [])
  case h_3 rest _ hsigned => exact absurd hsigned (hplus rest)
  case h_4 => rfl

/-- The header `bytes START-END/TOTAL`; of what follows the dash nothing is read. -/
theorem contentRangeStart_bytes {start : ℕ} (h : start < 2 ^ 64) (rest : Text.Str) :
    contentRangeStart (some ("bytes ".toList ++ (Decimal.digits start ++ '-' :: rest))) =
      some (BitVec.ofNat 64 start) := by
  have hdash : '-' ∉ Decimal.digits start := fun hmem =>
    absurd (Decimal.isDigit_of_mem_digits hmem) (by decide)
  have hsplit : Text.splitFirst ['-'] (Decimal.digits start ++ '-' :: rest) =
      some (Decimal.digits start, rest) := Text.splitFirst_of_notMem hdash [] rest
  have hafter : "bytes ".toList.isPrefixOf? ("bytes ".toList ++ (Decimal.digits start ++ '-' :: rest)) =
      some (Decimal.digits start ++ '-' :: rest) :=
    List.isPrefixOf?_eq_some_iff_append_eq.mpr rfl
  simp only [contentRangeStart, Option.bind_eq_bind, Option.bind_some, hafter, hsplit,
    Decimal.trim_digits, parseU64_digits h, Except.toOption]

/-- A PATCH with the header that clients send. -/
def PatchRequest.bytes (start : ℕ) (rest : Text.Str) (body : Bytes)
    (h : start + body.length < 2 ^ 64) : PatchRequest where
  contentRange := some ("bytes ".toList ++ (Decimal.digits start ++ '-' :: rest))
  body := body
  in_file start' hstart := by
    rw [contentRangeStart_bytes (by omega)] at hstart
    obtain rfl := Option.some.inj hstart
    rwa [BitVec.toNat_ofNat, Nat.mod_eq_of_lt (by omega)]

theorem PatchRequest.chunk_bytes {start : ℕ} (rest : Text.Str) {body : Bytes}
    (h : start + body.length < 2 ^ 64) : (bytes start rest body h).chunk = some (start, body) := by
  rw [chunk, bytes, contentRangeStart_bytes (by omega), Option.map_some, BitVec.toNat_ofNat,
    Nat.mod_eq_of_lt (by omega)]

theorem furthest_received_lt (requests : List PatchRequest) :
    furthest (received requests) < 2 ^ 64 := by
  have hle : furthest (received requests) ≤ 2 ^ 64 - 1 := by
    apply furthest_le
    intro c hc _
    obtain ⟨r, -, hr⟩ := List.mem_filterMap.mp hc
    obtain ⟨start, hstart, rfl⟩ := Option.map_eq_some_iff.mp hr
    have hlt : start.toNat + r.body.length < 2 ^ 64 := r.in_file start hstart
    show start.toNat + r.body.length ≤ 2 ^ 64 - 1
    omega
  omega

/-! ### An upload -/

variable {Id : Type} [DecidableEq Id] (C : Codec Id) (job : CacheJob)

namespace V1

variable (s : CacheApp Id)

def patchAll (cacheId : U64) (requests : List PatchRequest) : CacheApp Id :=
  requests.foldl (fun s r => (uploadChunk s r.contentRange cacheId r.body).2) s

/-- A reservation, and the PATCHes for its id. -/
def upload (key version : String) (requests : List PatchRequest) : CacheApp Id :=
  patchAll (doReserve s key version).2 (doReserve s key version).1 requests

/-- What a commit of the upload answers and leaves. -/
def committed (key version : String) (requests : List PatchRequest) (size : U64) (now : DateTime) :
    V1Reply × CacheApp Id :=
  finalize C job (upload s key version requests) (doReserve s key version).1 size now

end V1

/-- What is promised of the commit of an upload. -/
structure Reassembled (s : CacheApp Id) (key version : String) (requests : List PatchRequest)
    (size : U64) (now : DateTime) : Prop where
  /-- Chunks of a file that cover it, committed with its size, are ingested as the file. -/
  exact : ∀ file : StagedFile, (∀ c ∈ received requests, Carries file.bytes c) →
    (∀ i < file.bytes.length, Covered (received requests) i) →
    size = BitVec.ofNat 64 file.bytes.length →
    (V1.committed C job s key version requests size now).1 = .okTrue ∧
    (V1.committed C job s key version requests size now).2.store =
      s.store.withFiles C file.bytes ∧
    (V1.committed C job s key version requests size now).2.index =
      s.index.insert C.entryJson.toLineSerde job.scopes.write version
        ⟨key, C.manifestId file.bytes, size, now⟩
  /-- Where anything but the bytes below the size was received, nothing is indexed. -/
  refused : ¬ (∀ i, Covered (received requests) i ↔ i < size.toNat) →
    (V1.committed C job s key version requests size now).1 = .rejected ∧
    (V1.committed C job s key version requests size now).2.index = s.index

section Upload

variable {s : CacheApp Id}

omit [DecidableEq Id] in
/-- One PATCH writes its chunk to the file of the reservation, and touches nothing else. -/
theorem uploadChunk_spec {cacheId : U64} {reservation : Reservation} {file : Bytes}
    (hreserved : s.reservations.lookup cacheId = some reservation)
    (hstaged : s.staged.lookup reservation.staging = some file) (r : PatchRequest) :
    ∃ staged, (V1.uploadChunk s r.contentRange cacheId r.body).2 = { s with staged } ∧
      staged.lookup reservation.staging =
        some ((r.chunk.toList).foldl (fun file c => writeAt file c.1 c.2) file) := by
  unfold V1.uploadChunk PatchRequest.chunk
  cases hstart : contentRangeStart r.contentRange with
  | none => exact ⟨s.staged, rfl, hstaged⟩
  | some start =>
    refine ⟨s.staged.insert reservation.staging (writeAt file start.toNat r.body), ?_,
      Finmap.lookup_insert _⟩
    simp only [V1.writeChunk, hreserved, hstaged, Option.getD_some]

omit [DecidableEq Id] in
theorem patchAll_spec {cacheId : U64} {reservation : Reservation} {file : Bytes}
    (hreserved : s.reservations.lookup cacheId = some reservation)
    (hstaged : s.staged.lookup reservation.staging = some file) (requests : List PatchRequest) :
    ∃ staged, V1.patchAll s cacheId requests = { s with staged } ∧
      staged.lookup reservation.staging = some (writeAll file (received requests)) := by
  induction requests generalizing s file with
  | nil => exact ⟨s.staged, rfl, hstaged⟩
  | cons r requests ih =>
    obtain ⟨staged, hchunk, hfile⟩ := uploadChunk_spec hreserved hstaged r
    obtain ⟨staged', hrest, hfile'⟩ := ih (s := { s with staged }) hreserved hfile
    refine ⟨staged', ?_, ?_⟩
    · rw [V1.patchAll, List.foldl_cons, hchunk]
      exact hrest
    · rw [hfile']
      unfold received
      rw [List.filterMap_cons]
      cases r.chunk <;> rfl

omit [DecidableEq Id] in
/-- After the PATCHes the staged file is what the chunks make of an empty one. -/
theorem upload_spec (s : CacheApp Id) (key version : String) (requests : List PatchRequest) :
    ∃ (s' : CacheApp Id) (staging : StagingPath), V1.upload s key version requests = s' ∧
      s'.store = s.store ∧ s'.index = s.index ∧
      s'.reservations.lookup s.nextId = some ⟨key, version, staging⟩ ∧
      s'.staged.lookup staging = some (writeAll [] (received requests)) := by
  have hreserved : (V1.doReserve s key version).2.reservations.lookup s.nextId =
      some ⟨key, version, .reserved s.nextId⟩ := Finmap.lookup_insert _
  have hstaged : (V1.doReserve s key version).2.staged.lookup (.reserved s.nextId) = some [] :=
    Finmap.lookup_insert _
  obtain ⟨staged, heq, hfile⟩ := patchAll_spec hreserved hstaged requests
  exact ⟨_, .reserved s.nextId, heq, rfl, rfl, hreserved, hfile⟩

variable {C job}

/-- A size that is not that of the staged file is refused. -/
theorem indexStaged_mismatch {staging : StagingPath} {bytes : Bytes}
    (hbytes : s.staged.lookup staging = some bytes) (hlen : bytes.length < 2 ^ 64)
    (hfits : ∀ p ∈ C.cut bytes, p.length < 2 ^ 32) {size : U64}
    (hsize : bytes.length ≠ size.toNat) (key version : String) (now : DateTime) :
    ∃ store staged, s.indexStaged C job staging key version size now =
      (.ok none, { s with store, staged }) := by
  rcases hingest : s.store.ingest C.digest (C.cut bytes) with ⟨result, store⟩
  have hm : (s.store.ingest C.digest (C.cut bytes)).1 = .ok (C.manifestOf bytes) :=
    (ingest_eq_ok_iff hlen).mpr ⟨hfits, rfl⟩
  rw [hingest] at hm
  obtain rfl : result = .ok (C.manifestOf bytes) := hm
  have htotal : (C.manifestOf bytes).totalSize ≠ size := by
    intro heq
    have : (BitVec.ofNat 64 bytes.length).toNat = size.toNat := congrArg BitVec.toNat heq
    rw [BitVec.toNat_ofNat, Nat.mod_eq_of_lt hlen] at this
    exact hsize this
  refine ⟨store, s.staged.erase staging, ?_⟩
  simp only [CacheApp.indexStaged, CacheApp.ingestStaged, hbytes, hingest, ne_eq, htotal,
    not_false_eq_true, if_true]

section Finalize

variable {cacheId size : U64} {now : DateTime} {s' : CacheApp Id}
  (hwrite : writeAllowed job.scopes.write job.trust job.protectedBranches = true)

include hwrite

theorem finalize_of_indexed {id : Id}
    (h : V1.doFinalize C job s cacheId size now = (.ok (some id), s')) :
    V1.finalize C job s cacheId size now = (.okTrue, s') := by
  rw [V1.finalize, if_neg (by rw [hwrite]; decide), h]

theorem finalize_of_refused (h : V1.doFinalize C job s cacheId size now = (.ok none, s')) :
    V1.finalize C job s cacheId size now = (.rejected, s') := by
  rw [V1.finalize, if_neg (by rw [hwrite]; decide), h]

end Finalize

/-- A commit of the file's size indexes the file, any other size is refused. -/
theorem committed_spec (hwrite : writeAllowed job.scopes.write job.trust job.protectedBranches = true)
    (hfits : ∀ bytes, ∀ p ∈ C.cut bytes, p.length < 2 ^ 32) (s : CacheApp Id) (key version : String)
    (requests : List PatchRequest) (size : U64) (now : DateTime) :
    let out := V1.committed C job s key version requests size now
    let bytes := writeAll [] (received requests)
    (furthest (received requests) = size.toNat → out.1 = .okTrue ∧
      out.2.store = s.store.withFiles C bytes ∧
      out.2.index = s.index.insert C.entryJson.toLineSerde job.scopes.write version
        ⟨key, C.manifestId bytes, size, now⟩) ∧
    (furthest (received requests) ≠ size.toNat → out.1 = .rejected ∧ out.2.index = s.index) := by
  intro out bytes
  have hlength : bytes.length = furthest (received requests) := by
    rw [length_writeAll]
    exact Nat.max_eq_right (Nat.zero_le _)
  have hlen : bytes.length < 2 ^ 64 := hlength ▸ furthest_received_lt requests
  obtain ⟨s', staging, hupload, hstore, hindex, hreserved, hstaged⟩ :=
    upload_spec s key version requests
  let taken : CacheApp Id := { s' with reservations := s'.reservations.erase s.nextId }
  have hfile : taken.staged.lookup staging = some bytes := hstaged
  -- the reservation that was made is the one that is found
  have hdone : V1.doFinalize C job s' s.nextId size now =
      taken.indexStaged C job staging key version size now := by
    unfold V1.doFinalize
    split
    case h_1 hnone => cases hreserved.symm.trans hnone
    case h_2 reservation hfound =>
      obtain rfl := Option.some.inj (hreserved.symm.trans hfound)
      rfl
  have hout : out = V1.finalize C job s' s.nextId size now := by
    show V1.finalize C job (V1.upload s key version requests) s.nextId size now = _
    rw [hupload]
  constructor
  · intro hsize
    have hsize : size = BitVec.ofNat 64 bytes.length := by
      apply BitVec.eq_of_toNat_eq
      rw [BitVec.toNat_ofNat, Nat.mod_eq_of_lt hlen, hlength, hsize]
    have hindexed : taken.indexStaged C job staging key version size now = _ :=
      hsize ▸ CacheApp.indexStaged_eq hfile hlen (hfits bytes) key version now
    rw [hout, finalize_of_indexed hwrite (hdone.trans hindexed), ← hstore, ← hindex]
    exact ⟨rfl, rfl, rfl⟩
  · intro hsize
    have hother : bytes.length ≠ size.toNat := hlength ▸ hsize
    obtain ⟨store, staged, hnone⟩ : ∃ store staged, taken.indexStaged C job staging key version size
        now = (.ok none, { taken with store, staged }) :=
      indexStaged_mismatch hfile hlen (hfits bytes) hother key version now
    rw [hout, finalize_of_refused hwrite (hdone.trans hnone), ← hindex]
    exact ⟨rfl, rfl⟩

/-- **When an upload in chunks is what it should be.**  Exactly when it is not the case that the
    chunks reach to the committed size and leave a gap below it: then the gap is ingested as zeros.
    In all other cases the order of the chunks, their repetitions and their overlaps do not matter. -/
theorem reassembled_iff
    (hwrite : writeAllowed job.scopes.write job.trust job.protectedBranches = true)
    (hfits : ∀ bytes, ∀ p ∈ C.cut bytes, p.length < 2 ^ 32) (s : CacheApp Id) (key version : String)
    (requests : List PatchRequest) (size : U64) (now : DateTime) :
    Reassembled C job s key version requests size now ↔
      (furthest (received requests) = size.toNat →
        ∀ i < size.toNat, Covered (received requests) i) := by
  obtain ⟨hexact, hrefused⟩ := committed_spec hwrite hfits s key version requests size now
  constructor
  · intro h hsize
    by_contra hgap
    have hreply := (h.refused fun hall => hgap fun i hi => (hall i).mpr hi).1
    rw [(hexact hsize).1] at hreply
    cases hreply
  · intro hcovered
    refine ⟨fun file hcarries hcovers hsize => ?_, fun hdiffers => ?_⟩
    · have hreaches : furthest (received requests) = size.toNat := by
        rw [furthest_eq_length hcarries hcovers, hsize, BitVec.toNat_ofNat,
          Nat.mod_eq_of_lt file.size_lt]
      have hall := hexact hreaches
      rwa [writeAll_eq hcarries hcovers] at hall
    · apply hrefused
      intro hsize
      -- what is covered ends with the furthest chunk
      exact hdiffers fun i => ⟨fun h => hsize ▸ lt_furthest h, hcovered hsize i⟩

end Upload

/-! ### Two uploads -/

theorem length_of_mem_cutPairs (bytes : Bytes) : ∀ p ∈ cutPairs bytes, p.length < 2 ^ 32 := by
  induction bytes using cutPairs.induct with
  | case1 => simp [cutPairs]
  | case2 b => simp [cutPairs]
  | case3 b c rest ih => simpa [cutPairs] using ih

/-- The second half of three bytes first, then the first, which overlaps it. -/
def overlappingPatches : List PatchRequest :=
  [.bytes 1 ['2', '/', '3'] [2, 3] (by decide), .bytes 0 ['1', '/', '3'] [1, 2] (by decide)]

theorem received_overlappingPatches : received overlappingPatches = [(1, [2, 3]), (0, [1, 2])] := by
  simp [received, overlappingPatches, PatchRequest.chunk_bytes]

theorem reassembled_iff_overlapping :
    Reassembled sampleCodec sampleJob (CacheApp.start ⟨∅, ∅⟩ .empty) "k" "v" overlappingPatches 3
      0 := by
  refine (reassembled_iff (by decide) length_of_mem_cutPairs _ "k" "v" _ 3 0).mpr fun _ => ?_
  rw [received_overlappingPatches]
  decide

/-- A chunk of one byte at the offset one. -/
def gappedPatches : List PatchRequest := [.bytes 1 ['1', '/', '2'] [7] (by decide)]

/-- Its byte before the chunk was never sent; the commit of two bytes ingests a zero there. -/
theorem gap_is_ingested :
    let s : CacheApp Bytes := CacheApp.start ⟨∅, ∅⟩ .empty
    ¬ Reassembled sampleCodec sampleJob s "k" "v" gappedPatches 2 0 ∧
    received gappedPatches = [(1, [7])] ∧
    (V1.committed sampleCodec sampleJob s "k" "v" gappedPatches 2 0).1 = .okTrue ∧
    (V1.committed sampleCodec sampleJob s "k" "v" gappedPatches 2 0).2.store =
      s.store.withFiles sampleCodec [0, 7] := by
  intro s
  have hreceived : received gappedPatches = [(1, [7])] := by
    simp [received, gappedPatches, PatchRequest.chunk_bytes]
  have hsize : furthest (received gappedPatches) = (2 : U64).toNat := by
    rw [hreceived]
    decide
  have hwrite : writeAllowed sampleJob.scopes.write sampleJob.trust sampleJob.protectedBranches =
      true := by decide
  have hfits : ∀ bytes, ∀ p ∈ sampleCodec.cut bytes, p.length < 2 ^ 32 := length_of_mem_cutPairs
  obtain ⟨hreply, hstore, -⟩ := (committed_spec hwrite hfits s "k" "v" gappedPatches 2 0).1 hsize
  rw [hreceived] at hstore
  refine ⟨fun h => ?_, hreceived, hreply, hstore⟩
  have hgap : ¬ ∀ i, Covered (received gappedPatches) i ↔ i < (2 : U64).toNat := by
    rw [hreceived]
    exact fun hall => absurd ((hall 0).mpr (by decide)) (by decide)
  rw [(h.refused hgap).1] at hreply
  cases hreply

end GhRunner.Cache
