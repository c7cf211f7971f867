import GhRunner.Cache.Store
import Mathlib.Logic.Equiv.List

namespace GhRunner.Cache

open Saturating Machine

/-!
# What is saved is what is read back

A staged file goes into an intact store as chunks and a manifest; ranged reads put the range
together from slices of the chunks.

* `CasStore.Intact.apply` — everything done to a store keeps it intact;
* `chunkAndStore_spec` — a save lists the chunks in order and leaves every one of them in the store;
* `delivers_buildPlan` — the steps of a read plan take the slices that put the range together, from
  any store that has the chunks;
* `ingest_read_range` — the round trip, from any history of the store.
-/

variable {Id : Type}

/-! ### What a manifest says of its chunks -/

/-- The reference a manifest holds for a chunk. -/
def refOf (D : Digest Id) (data : Bytes) : ChunkRef Id := ⟨D.hash data, BitVec.ofNat 32 data.length⟩

theorem toNat_len_refOf (D : Digest Id) {data : Bytes} (h : data.length < 2 ^ 32) :
    (refOf D data).len.toNat = data.length := by
  rw [refOf, BitVec.toNat_ofNat, Nat.mod_eq_of_lt h]

theorem size_map_refOf (D : Digest Id) {parts : List Bytes} (h : ∀ p ∈ parts, p.length < 2 ^ 32) :
    Manifest.size (parts.map (refOf D)) = parts.flatten.length := by
  induction parts with
  | nil => rfl
  | cons p ps ih =>
    rw [List.forall_mem_cons] at h
    rw [List.map_cons, Manifest.size_cons, toNat_len_refOf D h.1, ih h.2, List.flatten_cons,
      List.length_append]

variable [DecidableEq Id]

/-! ### Operations keep the store intact -/

theorem Files.Intact.chunkAndStore {D : Digest Id} (parts : List Bytes) {blobs : Files Id}
    (h : Files.Intact D blobs) (chunks : List (ChunkRef Id)) (total : U64) :
    Files.Intact D (chunkAndStore D parts blobs chunks total).2 := by
  induction parts generalizing blobs chunks total with
  | nil => exact h
  | cons data rest ih =>
    unfold Cache.chunkAndStore
    split
    case isTrue => exact ih (h.writeAtomic rfl) _ _
    case isFalse => exact h

theorem verifyBytes_eq_ok_iff {D : Digest Id} {bytes : Bytes} {id : Id} :
    verifyBytes D bytes id = .ok () ↔ D.hash bytes = id := by
  unfold verifyBytes
  split
  case isTrue h => simp [h]
  case isFalse h => simp [h]

theorem Files.Intact.restoreFromL2 {D : Digest Id} (l2 : Option (L2Tier Id)) {blobs : Files Id}
    (h : Files.Intact D blobs) (id : Id) : Files.Intact D (restoreFromL2 D l2 blobs id).2 := by
  unfold Cache.restoreFromL2
  split
  case h_1 => exact h
  case h_2 l2 =>
    split
    case h_1 => exact h
    case h_2 => exact h
    case h_3 bytes _ =>
      cases hverify : verifyBytes D bytes id with
      | error e => exact h
      | ok u => exact h.writeAtomic (verifyBytes_eq_ok_iff.mp hverify)

theorem Files.Intact.readSlice {D : Digest Id} (l2 : Option (L2Tier Id)) {blobs : Files Id}
    (h : Files.Intact D blobs) (step : ReadStep Id) :
    Files.Intact D (readSlice D l2 blobs step).2 := by
  obtain ⟨id, skip, take⟩ := step
  have hchunk : Files.Intact D (readChunkOrRestore D l2 blobs id).2 := by
    unfold readChunkOrRestore
    split
    case h_1 => exact h.restoreFromL2 l2 id
    case h_2 bytes _ =>
      cases verifyBytes D bytes id with
      | ok u => exact h
      | error e => exact (h.erase id).restoreFromL2 l2 id
  cases hread : readChunkOrRestore D l2 blobs id with
  | mk result blobs' =>
    rw [hread] at hchunk
    simp only [Cache.readSlice, hread]
    cases result <;> exact hchunk

theorem Files.Intact.readSteps {D : Digest Id} (l2 : Option (L2Tier Id))
    (steps : List (ReadStep Id)) {blobs : Files Id} (h : Files.Intact D blobs) :
    Files.Intact D (readSteps D l2 steps blobs).2 := by
  induction steps generalizing blobs with
  | nil => exact h
  | cons step rest ih => exact ih (h.readSlice l2 step)

theorem CasStore.Intact.apply {D : Digest Id} {s : CasStore Id} (h : s.Intact D)
    (J : Serde (Manifest Id)) (op : Op Id) : (s.apply D J op).Intact D := by
  cases op with
  | ingest parts => exact ⟨h.blobs.chunkAndStore parts _ _, h.manifests⟩
  | putManifest m => exact ⟨h.blobs, h.manifests.writeAtomic rfl⟩
  | readRange l2 m offset len => exact ⟨h.blobs.readSteps l2 _, h.manifests⟩
  | deleteChunk id => exact ⟨h.blobs.erase id, h.manifests⟩
  | deleteManifest id => exact ⟨h.blobs, h.manifests.erase id⟩

/-- No history of operations leaves a torn file. -/
theorem CasStore.intact_run (D : Digest Id) (J : Serde (Manifest Id)) (ops : List (Op Id)) :
    (run (CasStore.apply D J) CasStore.empty ops).Intact D :=
  run_invariant_of_step (I := CasStore.Intact D) (fun _ op h => h.apply J op) ops
    ⟨Files.Intact.empty D, Files.Intact.empty D⟩

/-! ### Saving -/

theorem mem_writeAtomic {files : Files Id} {id k : Id} {bytes : Bytes} :
    k ∈ (writeAtomic files id bytes).2 ↔ k = id ∨ k ∈ files := by
  unfold writeAtomic
  split
  case isTrue h =>
    constructor
    · exact .inr
    · rintro (rfl | hk)
      · exact h
      · exact hk
  case isFalse => exact Finmap.mem_insert

/-- In an intact directory a digest without collisions names one content. -/
theorem Files.Intact.lookup {D : Digest Id} (hinj : Function.Injective D.hash) {files : Files Id}
    (h : Files.Intact D files) {bytes : Bytes} (hmem : D.hash bytes ∈ files) :
    files.lookup (D.hash bytes) = some bytes := by
  obtain ⟨b, hb⟩ := Finmap.mem_iff.mp hmem
  rw [hb, hinj (h _ b hb)]

/-- A save succeeds when every chunk's length fits its field, and then the manifest lists the
    chunks in order, adds up their lengths, and every chunk is in the store. -/
theorem chunkAndStore_spec (D : Digest Id) (parts : List Bytes) (blobs : Files Id)
    (chunks : List (ChunkRef Id)) (total : U64) :
    (∃ e blobs', chunkAndStore D parts blobs chunks total = (.error e, blobs') ∧
      ¬ ∀ p ∈ parts, p.length < 2 ^ 32) ∨
    ∃ m blobs', chunkAndStore D parts blobs chunks total = (.ok m, blobs') ∧
      (∀ p ∈ parts, p.length < 2 ^ 32) ∧
      m.chunks = chunks ++ parts.map (refOf D) ∧
      m.totalSize.toNat = min (total.toNat + parts.flatten.length) (maxNat 64) ∧
      (∀ p ∈ parts, D.hash p ∈ blobs') ∧ ∀ k ∈ blobs, k ∈ blobs' := by
  induction parts generalizing blobs chunks total with
  | nil =>
    have := toNat_le_maxNat total
    exact .inr ⟨_, _, rfl, by simp, by simp, by simp; omega, by simp, fun k hk => hk⟩
  | cons data rest ih =>
    unfold chunkAndStore
    split
    case isFalse hlong =>
      exact .inl ⟨_, _, rfl, fun h => hlong (h data List.mem_cons_self)⟩
    case isTrue hfits =>
      simp only
      rcases ih (writeAtomic blobs (D.hash data) data).2
        (chunks ++ [⟨D.hash data, BitVec.ofNat 32 data.length⟩])
        (satAdd total (BitVec.setWidth 64 (BitVec.ofNat 32 data.length)))
        with ⟨e, blobs', heq, hlong⟩ | ⟨m, blobs', heq, hall, hchunks, htotal, hstored, hkept⟩
      · exact .inl ⟨e, blobs', heq, fun h => hlong (List.forall_mem_cons.mp h).2⟩
      · have hlen : (BitVec.setWidth 64 (BitVec.ofNat 32 data.length)).toNat = data.length := by
          exact (ChunkRef.toNat_len64 (refOf D data)).trans (toNat_len_refOf D hfits)
        refine .inr ⟨m, blobs', heq, List.forall_mem_cons.mpr ⟨hfits, hall⟩, ?_, ?_, ?_, ?_⟩
        · rw [hchunks, List.append_assoc]
          rfl
        · rw [htotal, toNat_satAdd, hlen, List.flatten_cons, List.length_append]
          omega
        · exact List.forall_mem_cons.mpr
            ⟨hkept _ (mem_writeAtomic.mpr (.inl rfl)), hstored⟩
        · exact fun k hk => hkept k (mem_writeAtomic.mpr (.inr hk))

/-! ### Reading -/

/-- A manifest stored under its digest loads. -/
theorem CasStore.getManifest_of_lookup {s : CasStore Id} {D : Digest Id} {J : Serde (Manifest Id)}
    {m : Manifest Id} (h : s.manifests.lookup (D.hash (J.toVec m)) = some (J.toVec m)) :
    s.getManifest D J (D.hash (J.toVec m)) = .ok m := by
  have hverify : verifyBytes D (J.toVec m) (D.hash (J.toVec m)) = .ok () :=
    verifyBytes_eq_ok_iff.mpr rfl
  simp only [getManifest, readVerified, h, hverify, Except.map, J.round_trip]

theorem sliceOf_eq (bytes : Bytes) (skip take : U64)
    (h : skip.toNat + take.toNat ≤ bytes.length) (hlen : bytes.length < 2 ^ 32) :
    sliceOf bytes skip take = .ok ((bytes.drop skip.toNat).take take.toNat) := by
  have hstop : (satAdd skip take).toNat = skip.toNat + take.toNat := by
    rw [toNat_satAdd]
    unfold maxNat
    omega
  have hrange : skip.toNat ≤ skip.toNat + take.toNat ∧
      skip.toNat + take.toNat ≤ bytes.length := ⟨Nat.le_add_right _ _, h⟩
  simp only [sliceOf, hstop, if_pos hrange, List.extract_eq_take_drop, Nat.add_sub_cancel_left]

/-- A chunk that is in an intact store is read from there. -/
theorem readSlice_of_lookup {D : Digest Id} (l2 : Option (L2Tier Id)) {blobs : Files Id}
    {data : Bytes} (hdata : blobs.lookup (D.hash data) = some data) (skip take : U64) :
    readSlice D l2 blobs (D.hash data, skip, take) = (sliceOf data skip take, blobs) := by
  have hverify : verifyBytes D data (D.hash data) = .ok () := verifyBytes_eq_ok_iff.mpr rfl
  simp only [readSlice, readChunkOrRestore, hdata, hverify]

/-- Every chunk's file is there and whole. -/
def Stocked (D : Digest Id) (parts : List Bytes) (blobs : Files Id) : Prop :=
  ∀ p ∈ parts, blobs.lookup (D.hash p) = some p

/-- Each step takes its slice from one of these chunks. -/
def Delivers (D : Digest Id) (parts : List Bytes) : List (ReadStep Id) → List Bytes → Prop :=
  List.Forall₂ fun step slice =>
    ∃ p ∈ parts, step.1 = D.hash p ∧ sliceOf p step.2.1 step.2.2 = .ok slice

/-- A step that takes its slice from a stored chunk delivers it and touches nothing. -/
theorem readSlice_of_stocked {D : Digest Id} (l2 : Option (L2Tier Id)) {parts : List Bytes}
    {blobs : Files Id} (hstocked : Stocked D parts blobs) {step : ReadStep Id} {slice : Bytes}
    (h : ∃ p ∈ parts, step.1 = D.hash p ∧ sliceOf p step.2.1 step.2.2 = .ok slice) :
    readSlice D l2 blobs step = (.ok slice, blobs) := by
  obtain ⟨id, skip, take⟩ := step
  obtain ⟨p, hp, rfl, hslice⟩ := h
  rw [readSlice_of_lookup l2 (hstocked p hp), hslice]

theorem Delivers.readSteps {D : Digest Id} {parts : List Bytes} {steps : List (ReadStep Id)}
    {slices : List Bytes} (h : Delivers D parts steps slices) (l2 : Option (L2Tier Id))
    {blobs : Files Id} (hstocked : Stocked D parts blobs) :
    readSteps D l2 steps blobs = (slices.map .ok, blobs) := by
  induction h with
  | nil => rfl
  | cons hstep _ ih =>
    rw [Cache.readSteps, readSlice_of_stocked l2 hstocked hstep]
    simp only [ih, List.map_cons]

omit [DecidableEq Id] in
/-- The steps of a plan over these chunks deliver the slices that put its range together. -/
theorem delivers_takeSteps (D : Digest Id) {all parts : List Bytes} (hall : ∀ p ∈ parts, p ∈ all)
    (hlen : ∀ p ∈ parts, p.length < 2 ^ 32) (remaining skip : U64)
    (hskip : ∀ p ∈ parts.head?, skip.toNat ≤ p.length) :
    Delivers D all (takeSteps (parts.map (refOf D)) remaining skip)
      (Pieces.cut parts skip.toNat remaining.toNat) := by
  induction parts generalizing remaining skip with
  | nil => exact .nil
  | cons p ps ih =>
    rw [List.forall_mem_cons] at hall hlen
    have hskip : skip.toNat ≤ p.length := hskip p rfl
    rw [List.map_cons, takeSteps, Pieces.cut]
    by_cases hzero : remaining = 0
    · rw [if_pos hzero, if_pos (by rw [hzero]; rfl)]
      exact .nil
    · have hpos : remaining.toNat ≠ 0 := fun h => hzero (BitVec.eq_of_toNat_eq h)
      have htake : (minOf (satSub (refOf D p).len64 skip) remaining).toNat =
          min (p.length - skip.toNat) remaining.toNat := by
        rw [toNat_minOf, toNat_satSub, ChunkRef.toNat_len64, toNat_len_refOf D hlen.1]
      rw [if_neg hzero, if_neg hpos]
      simp only
      generalize minOf (satSub (refOf D p).len64 skip) remaining = take at htake ⊢
      have hslice := sliceOf_eq p skip take (by omega) hlen.1
      rw [htake] at hslice
      have hrest := ih hall.2 hlen.2 (satSub remaining take) 0 fun _ _ => Nat.zero_le _
      rw [toNat_satSub, htake] at hrest
      exact .cons ⟨p, hall.1, rfl, hslice⟩ hrest

/-- The manifest that a save of these chunks returns. -/
structure ManifestOf (D : Digest Id) (m : Manifest Id) (parts : List Bytes) : Prop where
  chunks : m.chunks = parts.map (refOf D)
  totalSize : m.totalSize.toNat = parts.flatten.length
  fits : ∀ p ∈ parts, p.length < 2 ^ 32

omit [DecidableEq Id] in
/-- A read plan is the plan of the chunks from the one that holds the offset, and nothing at or
    past the end. -/
theorem delivers_buildPlan {D : Digest Id} {m : Manifest Id} {parts : List Bytes}
    (hm : ManifestOf D m parts) (offset len : U64) :
    ∃ slices, Delivers D parts (buildPlan m offset len) slices ∧
      slices.flatten = (parts.flatten.drop offset.toNat).take len.toNat := by
  by_cases hpast : m.totalSize ≤ offset
  · refine ⟨[], ?_, ?_⟩
    · have hnone : m.locate offset = none := if_pos hpast
      simp only [buildPlan, hnone]
      exact .nil
    · rw [List.drop_eq_nil_of_le (hm.totalSize ▸ BitVec.le_def.mp hpast)]
      simp
  · have hinside : offset.toNat < m.totalSize.toNat := by
      rw [BitVec.le_def] at hpast
      omega
    have hmax := toNat_le_maxNat m.totalSize
    obtain ⟨hchunks, htotal, hlen⟩ := hm
    obtain ⟨before, p, after, k, rfl, hsum, hk⟩ := Pieces.exists_piece (htotal ▸ hinside)
    have hlenBefore : ∀ q ∈ before, q.length < 2 ^ 32 := fun q hq => hlen q (by simp [hq])
    have hstart : offset.toNat = (0 : U64).toNat + Manifest.size (before.map (refOf D)) + k := by
      rw [size_map_refOf D hlenBefore, hsum]
      simp
    obtain ⟨intra, hintra, hlocate⟩ := Manifest.locateFrom_append
      (show offset.toNat < maxNat 64 by omega) (before.map (refOf D)) (refOf D p)
      (after.map (refOf D)) 0 (by rwa [toNat_len_refOf D (hlen p (by simp))]) hstart
    have hfound : m.locate offset = some (before.length, intra) := by
      rw [Manifest.locate, if_neg hpast, hchunks]
      simpa using hlocate
    have hrest : m.chunks.drop before.length = (p :: after).map (refOf D) := by
      rw [hchunks, List.map_append, List.drop_left' (by simp)]
    have hsub : ∀ q ∈ p :: after, q ∈ before ++ p :: after := fun q hq =>
      List.mem_append_right _ hq
    have hsteps := delivers_takeSteps D hsub (fun q hq => hlen q (hsub q hq))
      (minOf len (satSub m.totalSize offset)) intra (by rintro q ⟨⟩; omega)
    refine ⟨_, by simp only [buildPlan, hfound, hrest]; exact hsteps, ?_⟩
    rw [Pieces.flatten_cut _ _ _ (by rintro q ⟨⟩; omega), toNat_minOf, toNat_satSub, htotal, hsum,
      hintra, List.flatten_append, List.drop_append, List.length_append,
      List.drop_eq_nil_of_le (Nat.le_add_right _ _), List.nil_append, Nat.add_sub_cancel_left]
    rw [List.take_eq_take_min (i := len.toNat), List.length_drop, Nat.add_sub_add_left]

/-- The read delivers exactly these bytes, in some number of pieces, and leaves the store alone. -/
def CasStore.Reads (s : CasStore Id) (D : Digest Id) (l2 : Option (L2Tier Id)) (m : Manifest Id)
    (offset len : U64) (bytes : Bytes) : Prop :=
  ∃ slices : List Bytes,
    s.readRange D l2 m offset len = (slices.map .ok, s) ∧ slices.flatten = bytes

theorem readRange_spec {D : Digest Id} {s : CasStore Id} (l2 : Option (L2Tier Id))
    {m : Manifest Id} {parts : List Bytes} (hstocked : Stocked D parts s.blobs)
    (hm : ManifestOf D m parts) (offset len : U64) :
    s.Reads D l2 m offset len ((parts.flatten.drop offset.toNat).take len.toNat) := by
  obtain ⟨slices, hdelivers, hflatten⟩ := delivers_buildPlan hm offset len
  refine ⟨slices, ?_, hflatten⟩
  rw [CasStore.readRange, hdelivers.readSteps l2 hstocked]

/-- A file staged for saving; its size is a `u64`. -/
structure StagedFile where
  bytes : Bytes
  size_lt : bytes.length < 2 ^ 64

/-- **The round trip.**  Take a store after any history, and a staged file that the chunker cuts
    into `parts`.  The save succeeds exactly when every chunk's length fits its field.  Its manifest,
    stored, loads again; and reading any range of it, whatever the cold tier, delivers the bytes of
    the file from the offset to the offset plus the length or the end, all of the file for the whole
    range, and touches nothing. -/
theorem ingest_read_range {D : Digest Id} (hinj : Function.Injective D.hash)
    (J : Serde (Manifest Id)) (ops : List (Op Id)) (file : StagedFile) {parts : List Bytes}
    (hparts : parts.flatten = file.bytes) :
    let s := run (CasStore.apply D J) CasStore.empty ops
    ((∃ m, (s.ingest D parts).1 = .ok m) ↔ ∀ p ∈ parts, p.length < 2 ^ 32) ∧
    ∀ m, (s.ingest D parts).1 = .ok m →
      let (id, s') := (s.ingest D parts).2.putManifest D J m
      s'.getManifest D J id = .ok m ∧
      (∀ l2 offset len, s'.Reads D l2 m offset len
        (file.bytes.extract offset.toNat (min (offset.toNat + len.toNat) file.bytes.length))) ∧
      ∀ l2, s'.Reads D l2 m 0 m.totalSize file.bytes := by
  intro s
  have hs : s.Intact D := CasStore.intact_run D J ops
  rcases chunkAndStore_spec D parts s.blobs [] 0 with
    ⟨e, blobs, hsave, hlong⟩ | ⟨m', blobs, hsave, hlen, hchunks, htotal, hstored, -⟩
  · have hingest : s.ingest D parts = (.error e, { s with blobs }) := by rw [CasStore.ingest, hsave]
    rw [hingest]
    refine ⟨⟨fun ⟨_, h⟩ => ?_, fun h => absurd h hlong⟩, fun _ h => ?_⟩ <;> cases h
  · have hingest : s.ingest D parts = (.ok m', { s with blobs }) := by rw [CasStore.ingest, hsave]
    have hafter : Files.Intact D blobs := by
      have := hs.blobs.chunkAndStore parts [] 0
      rwa [hsave] at this
    rw [hingest]
    refine ⟨⟨fun _ => hlen, fun _ => ⟨m', rfl⟩⟩, fun m hm => ?_⟩
    obtain rfl : m' = m := Except.ok.inj hm
    have hsize : m'.totalSize.toNat = parts.flatten.length := by
      have := file.size_lt
      rw [htotal, hparts]
      unfold maxNat
      simp
      omega
    have hread : ∀ (manifests : Files Id) (l2 : Option (L2Tier Id)) (offset len : U64),
        (⟨blobs, manifests⟩ : CasStore Id).Reads D l2 m' offset len
          ((file.bytes.drop offset.toNat).take len.toNat) := by
      intro manifests l2 offset len
      rw [← hparts]
      exact readRange_spec l2 (fun p hp => hafter.lookup hinj (hstored p hp))
        ⟨by rw [hchunks, List.nil_append], hsize, hlen⟩ offset len
    refine ⟨?_, fun l2 offset len => ?_, fun l2 => ?_⟩
    · exact CasStore.getManifest_of_lookup
        ((hs.manifests.writeAtomic rfl).lookup hinj (mem_writeAtomic.mpr (.inl rfl)))
    · have hrange := hread (writeAtomic s.manifests (D.hash (J.toVec m')) (J.toVec m')).2 l2 offset len
      rwa [List.extract_eq_take_drop, ← Nat.sub_min_sub_right, Nat.add_sub_cancel_left,
        ← List.length_drop, ← List.take_eq_take_min]
    · have hfull := hread (writeAtomic s.manifests (D.hash (J.toVec m')) (J.toVec m')).2 l2 0
        m'.totalSize
      rwa [show (0 : U64).toNat = 0 from rfl, List.drop_zero, List.take_of_length_le (by rw [hsize, hparts])]
        at hfull

/-! ### A concrete digest and codec -/

/-- Lowercase hex, in ASCII. -/
def hexBytes (bytes : Bytes) : Bytes :=
  bytes.flatMap fun b => [b / 16, b % 16].map fun d => if d < 10 then 48 + d else 87 + d

/-- A digest without collisions: the content itself, written in hex. -/
def contentDigest : Digest Bytes where
  hash := id
  toHex bytes := String.ofList ((hexBytes bytes).map fun b => Char.ofNat b.toNat)

instance encodableUInt8 : Encodable UInt8 :=
  Encodable.ofLeftInverse UInt8.toFin UInt8.ofFin fun _ => rfl

instance encodableManifest : Encodable (Manifest Bytes) :=
  Encodable.ofLeftInverse (α := List (Bytes × ℕ) × ℕ)
    (fun m => (m.chunks.map fun c => (c.id, c.len.toNat), m.totalSize.toNat))
    (fun p => ⟨p.1.map fun c => ⟨c.1, BitVec.ofNat 32 c.2⟩, BitVec.ofNat 64 p.2⟩)
    (fun m => by simp [Function.comp_def])

/-- The ASCII bytes of a text. -/
def asciiBytes (text : String) : Bytes := text.toList.map fun c => UInt8.ofNat c.toNat

/-- The manifest of the bytes 1, 2, 3 in two chunks. -/
def sampleManifest : Manifest Bytes := ⟨[⟨[1, 2], 2⟩, ⟨[3], 1⟩], 3⟩

/-- The codec that writes it as its JSON. -/
def sampleJson : Serde (Manifest Bytes) :=
  (LineSerde.writing [(sampleManifest,
    asciiBytes ("\x7b\"chunks\":[\x7b\"id\":\"0102\",\"len\":2\x7d," ++
      "\x7b\"id\":\"03\",\"len\":1\x7d],\"total_size\":3\x7d"))]
    (by decide) (by decide)).toSerde

/-- Two chunks, the first of which another save already stored. -/
theorem ingest_read_range_two_chunks :
    let s := run (CasStore.apply contentDigest sampleJson) CasStore.empty [.ingest [[1, 2]]]
    ∃ m, (s.ingest contentDigest [[1, 2], [3]]).1 = .ok m ∧
      let (id, s') := (s.ingest contentDigest [[1, 2], [3]]).2.putManifest contentDigest sampleJson m
      s'.getManifest contentDigest sampleJson id = .ok m ∧
      ∀ l2, s'.Reads contentDigest l2 m 1 2 [2, 3] := by
  intro s
  obtain ⟨hsaved, hread⟩ := ingest_read_range (D := contentDigest) Function.injective_id sampleJson
    [.ingest [[1, 2]]] ⟨[1, 2, 3], by decide⟩
    (show [[1, 2], [3]].flatten = ([1, 2, 3] : Bytes) from rfl)
  obtain ⟨m, hm⟩ := hsaved.mpr (by decide)
  exact ⟨m, hm, (hread m hm).1, fun l2 => (hread m hm).2.1 l2 1 2⟩

end GhRunner.Cache
