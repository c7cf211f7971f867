import GhRunner.Cache.RoundTrip

namespace GhRunner.Cache

open Saturating Machine

/-!
# Saving into a store that a crash has torn

Chunk files are renamed into place without an fsync, so after a crash any of them may be missing
or hold other bytes; manifest files are synced first and can only be missing.  A save writes no
chunk whose file exists, and mirrors the files it finds to the cold tier
(`crates/cache/src/cas/chunk_io.rs`, `store.rs`).

* `StoreEvent` — what happens to a store over its life, crashes among it;
* `Torn`, `Good` — a file that does not, or does, hold the bytes it is named after;
* `mirrorChunks` — the mirroring that ends an ingest;
* `torn_chunkAndStore` — a save neither tears a file nor mends one;
* `save_heals_iff` — what is saved reads back, and the mirror spares the cold tier, exactly when no
  chunk of the file was torn before.
-/

variable {Id : Type} [DecidableEq Id]

/-! ### Crashes -/

/-- One thing that happens to a store: an operation, or a crash that leaves `blobs` for chunk files
    and of the manifest files those that are `kept`. -/
inductive StoreEvent (Id : Type)
  | op (op : Op Id)
  | crash (blobs : Files Id) (kept : Id → Bool)

def CasStore.event (D : Digest Id) (J : Serde (Manifest Id)) (s : CasStore Id) :
    StoreEvent Id → CasStore Id
  | .op op => s.apply D J op
  | .crash blobs kept => ⟨blobs, s.manifests.retain fun id _ => kept id⟩

theorem Files.Intact.retain {D : Digest Id} {files : Files Id} (h : Files.Intact D files)
    (keep : Id → Bool) : Files.Intact D (files.retain fun id _ => keep id) := by
  intro id bytes hid
  rw [Finmap.lookup_retain, Option.filter_eq_some_iff] at hid
  exact h id bytes hid.1

/-- Of the manifests a crash tears none. -/
theorem CasStore.manifests_intact_run (D : Digest Id) (J : Serde (Manifest Id))
    (events : List (StoreEvent Id)) :
    Files.Intact D (run (CasStore.event D J) CasStore.empty events).manifests := by
  refine run_invariant_of_step (I := fun s : CasStore Id => Files.Intact D s.manifests) ?_ events
    (Files.Intact.empty D)
  intro s e h
  cases e with
  | crash blobs kept => exact h.retain kept
  | op op =>
    cases op with
    | ingest parts => exact h
    | putManifest m => exact h.writeAtomic rfl
    | readRange l2 m offset len => exact h
    | deleteChunk id => exact h
    | deleteManifest id => exact h.erase id

/-! ### Torn files -/

/-- The file is there and holds other bytes than its name says. -/
def Torn (D : Digest Id) (files : Files Id) (id : Id) : Prop :=
  ∃ bytes, files.lookup id = some bytes ∧ D.hash bytes ≠ id

/-- The file is there and holds the bytes its name says. -/
def Good (D : Digest Id) (files : Files Id) (id : Id) : Prop :=
  ∃ bytes, files.lookup id = some bytes ∧ D.hash bytes = id

theorem torn_writeAtomic {D : Digest Id} {files : Files Id} {id : Id} {bytes : Bytes}
    (h : D.hash bytes = id) (k : Id) : Torn D (writeAtomic files id bytes).2 k ↔ Torn D files k := by
  unfold Torn
  rw [lookup_writeAtomic]
  split
  case isFalse => rfl
  case isTrue hk =>
    obtain ⟨rfl, hnew⟩ := hk
    constructor
    · rintro ⟨b, hb, hne⟩
      exact absurd (Option.some.inj hb ▸ h) hne
    · rintro ⟨b, hb, -⟩
      exact absurd (Finmap.mem_of_lookup_eq_some hb) hnew

/-- A save neither tears a file nor mends one. -/
theorem torn_chunkAndStore {D : Digest Id} (parts : List Bytes) (blobs : Files Id)
    (chunks : List (ChunkRef Id)) (total : U64) (k : Id) :
    Torn D (chunkAndStore D parts blobs chunks total).2 k ↔ Torn D blobs k := by
  induction parts generalizing blobs chunks total with
  | nil => rfl
  | cons data rest ih =>
    unfold chunkAndStore
    split
    case isTrue => exact (ih _ _ _).trans (torn_writeAtomic rfl k)
    case isFalse => rfl

/-- A file that is there and not torn holds the content of its name. -/
theorem lookup_of_not_torn {D : Digest Id} (hinj : Function.Injective D.hash)
    {files : Files Id} {bytes : Bytes} (hmem : D.hash bytes ∈ files)
    (h : ¬ Torn D files (D.hash bytes)) : files.lookup (D.hash bytes) = some bytes := by
  obtain ⟨b, hb⟩ := Finmap.mem_iff.mp hmem
  have hhash : D.hash b = D.hash bytes := by
    by_contra hne
    exact h ⟨b, hb, hne⟩
  rw [hb, hinj hhash]

/-! ### Reading without a cold tier -/

/-- A chunk is delivered without a cold tier only from a file that is not torn, which is left as it
    is. -/
theorem readChunkOrRestore_eq_ok {D : Digest Id} {blobs : Files Id} {id : Id} {bytes : Bytes}
    (h : (readChunkOrRestore D none blobs id).1 = .ok bytes) :
    blobs.lookup id = some bytes ∧ D.hash bytes = id ∧
      readChunkOrRestore D none blobs id = (.ok bytes, blobs) := by
  unfold readChunkOrRestore at h ⊢
  cases hb : blobs.lookup id with
  | none =>
    simp only [hb, restoreFromL2] at h
    cases h
  | some b =>
    simp only [hb] at h ⊢
    cases hverify : verifyBytes D b id with
    | error e =>
      simp only [hverify, restoreFromL2] at h
      cases h
    | ok u =>
      simp only [hverify] at h ⊢
      obtain rfl := Except.ok.inj h
      exact ⟨rfl, verifyBytes_eq_ok_iff.mp hverify, rfl⟩

/-- A stream without errors found every chunk of its plan in good order. -/
theorem good_of_readSteps {D : Digest Id} {steps : List (ReadStep Id)} {blobs : Files Id}
    {slices : List Bytes} (h : (readSteps D none steps blobs).1 = slices.map .ok) :
    ∀ step ∈ steps, Good D blobs step.1 := by
  induction steps generalizing slices with
  | nil => simp
  | cons step rest ih =>
    obtain ⟨id, skip, take⟩ := step
    rw [readSteps] at h
    simp only at h
    obtain ⟨slice, slices, rfl, hitem, hitems⟩ := List.map_eq_cons_iff.mp h.symm
    cases hread : (readChunkOrRestore D none blobs id).1 with
    | error e =>
      have heq : readSlice D none blobs (id, skip, take) =
          (.error e, (readChunkOrRestore D none blobs id).2) := by
        rw [readSlice, show readChunkOrRestore D none blobs id =
          (.error e, (readChunkOrRestore D none blobs id).2) from Prod.ext hread rfl]
      rw [heq] at hitem
      cases hitem
    | ok bytes =>
      obtain ⟨hlookup, hhash, hsame⟩ := readChunkOrRestore_eq_ok hread
      have heq : (readSlice D none blobs (id, skip, take)).2 = blobs := by
        rw [readSlice, hsame]
      rw [heq] at hitems
      exact List.forall_mem_cons.mpr ⟨⟨bytes, hlookup, hhash⟩, ih hitems.symm⟩

omit [DecidableEq Id] in
/-- Of chunks that are not empty, a plan for all of their bytes leaves none out. -/
theorem mem_takeSteps {D : Digest Id} {parts : List Bytes} (hne : ∀ p ∈ parts, p ≠ [])
    (hlen : ∀ p ∈ parts, p.length < 2 ^ 32) {remaining : U64}
    (hall : remaining.toNat = parts.flatten.length) :
    ∀ p ∈ parts, ∃ step ∈ takeSteps (parts.map (refOf D)) remaining 0, step.1 = D.hash p := by
  induction parts generalizing remaining with
  | nil => simp
  | cons p ps ih =>
    rw [List.forall_mem_cons] at hne hlen
    rw [List.flatten_cons, List.length_append] at hall
    have hpos := List.length_pos_of_ne_nil hne.1
    have hzero : remaining ≠ 0 := by
      rintro rfl
      rw [show (0 : U64).toNat = 0 from rfl] at hall
      omega
    have htake : (satSub remaining (minOf (satSub (refOf D p).len64 0) remaining)).toNat =
        ps.flatten.length := by
      rw [toNat_satSub, toNat_minOf, toNat_satSub, ChunkRef.toNat_len64,
        toNat_len_refOf D hlen.1, show (0 : U64).toNat = 0 from rfl]
      omega
    rw [List.map_cons, takeSteps, if_neg hzero]
    simp only
    rw [List.forall_mem_cons]
    refine ⟨⟨_, List.mem_cons_self, rfl⟩, fun q hq => ?_⟩
    obtain ⟨step, hstep, hid⟩ := ih hne.2 hlen.2 htake q hq
    exact ⟨step, List.mem_cons_of_mem _ hstep, hid⟩

/-- A manifest of these chunks reads in full, without a cold tier, only if all of them are good. -/
theorem good_of_items {D : Digest Id} {s : CasStore Id} {m : Manifest Id} {parts : List Bytes}
    (hne : ∀ p ∈ parts, p ≠ []) (hlen : ∀ p ∈ parts, p.length < 2 ^ 32)
    (hchunks : m.chunks = parts.map (refOf D)) (htotal : m.totalSize.toNat = parts.flatten.length)
    {slices : List Bytes} (h : (s.readRange D none m 0 m.totalSize).1 = slices.map .ok) :
    ∀ p ∈ parts, Good D s.blobs (D.hash p) := by
  have hsteps : (readSteps D none (buildPlan m 0 m.totalSize) s.blobs).1 = slices.map .ok := h
  cases parts with
  | nil => simp
  | cons p ps =>
    have hpos := List.length_pos_of_ne_nil (hne p List.mem_cons_self)
    have hlenHead := toNat_len_refOf D (hlen p List.mem_cons_self)
    have hfirst : (0 : U64).toNat = (0 : U64).toNat + Manifest.size ([] : List (ChunkRef Id)) + 0 :=
      rfl
    obtain ⟨intra, hintra, hlocate⟩ := Manifest.locateFrom_append (by decide) [] (refOf D p)
      (ps.map (refOf D)) 0 (by omega) hfirst
    obtain rfl : intra = 0 := BitVec.eq_of_toNat_eq hintra
    have hsize : 0 < m.totalSize.toNat := by
      rw [htotal, List.flatten_cons, List.length_append]
      omega
    have hfound : m.locate 0 = some (0, 0) := by
      rw [Manifest.locate, if_neg (by rw [BitVec.le_def]; simp; omega), hchunks]
      exact hlocate
    have hall : (minOf m.totalSize (satSub m.totalSize 0)).toNat = (p :: ps).flatten.length := by
      rw [toNat_minOf, toNat_satSub, htotal, show (0 : U64).toNat = 0 from rfl, Nat.sub_zero,
        Nat.min_self]
    intro q hq
    obtain ⟨step, hstep, hid⟩ := mem_takeSteps hne hlen hall q hq
    have hplan : step ∈ buildPlan m 0 m.totalSize := by
      simp only [buildPlan, hfound, List.drop_zero, hchunks]
      exact hstep
    exact hid ▸ good_of_readSteps hsteps step hplan

theorem good_of_reads {D : Digest Id} {s : CasStore Id} {m : Manifest Id} {parts : List Bytes}
    (hne : ∀ p ∈ parts, p ≠ []) (hlen : ∀ p ∈ parts, p.length < 2 ^ 32)
    (hchunks : m.chunks = parts.map (refOf D)) (htotal : m.totalSize.toNat = parts.flatten.length)
    {bytes : Bytes} (h : s.Reads D none m 0 m.totalSize bytes) :
    ∀ p ∈ parts, Good D s.blobs (D.hash p) := by
  obtain ⟨slices, hread, -⟩ := h
  exact good_of_items hne hlen hchunks htotal (congrArg Prod.fst hread)

/-! ### The mirror -/

/-- The loop of `mirror_chunks_to_l2`, at put number `n`; whether a put succeeds is for the cold
    tier to say, and the first that does not ends the loop. -/
def mirrorChunks (blobs : Files Id) (accepts : ℕ → Bool) :
    ℕ → List (ChunkRef Id) → Files Id → Files Id
  | _, [], cold => cold
  | n, chunk :: rest, cold =>
    match blobs.lookup chunk.id with
    | none => cold
    | some bytes =>
      if accepts n then mirrorChunks blobs accepts (n + 1) rest (cold.insert chunk.id bytes)
      else cold

/-- No object of the cold tier goes bad. -/
def Spares (D : Digest Id) (mirror : Files Id → Files Id) : Prop :=
  ∀ cold id, Good D cold id → Good D (mirror cold) id

theorem spares_mirrorChunks {D : Digest Id} {blobs : Files Id} (accepts : ℕ → Bool) (n : ℕ)
    {chunks : List (ChunkRef Id)} (h : ∀ c ∈ chunks, ¬ Torn D blobs c.id) :
    Spares D (mirrorChunks blobs accepts n chunks) := by
  intro cold id hgood
  induction chunks generalizing n cold with
  | nil => exact hgood
  | cons c rest ih =>
    rw [List.forall_mem_cons] at h
    unfold mirrorChunks
    split
    case h_1 => exact hgood
    case h_2 bytes hbytes =>
      split
      case isFalse => exact hgood
      case isTrue =>
        refine ih (n + 1) h.2 _ ?_
        by_cases hid : id = c.id
        · subst hid
          refine ⟨bytes, Finmap.lookup_insert _, ?_⟩
          by_contra hne
          exact h.1 ⟨bytes, hbytes, hne⟩
        · obtain ⟨b, hb, hhash⟩ := hgood
          exact ⟨b, by rw [Finmap.lookup_insert_of_ne _ hid, hb], hhash⟩

/-- A mirror that is let through copies every chunk file as it finds it. -/
theorem lookup_mirrorChunks {blobs : Files Id} (n : ℕ) {chunks : List (ChunkRef Id)}
    (h : ∀ c ∈ chunks, c.id ∈ blobs) (cold : Files Id) (id : Id) :
    (mirrorChunks blobs (fun _ => true) n chunks cold).lookup id =
      if id ∈ chunks.map (·.id) then blobs.lookup id else cold.lookup id := by
  induction chunks generalizing n cold with
  | nil => simp [mirrorChunks]
  | cons c rest ih =>
    rw [List.forall_mem_cons] at h
    obtain ⟨bytes, hbytes⟩ := Finmap.mem_iff.mp h.1
    simp only [mirrorChunks, hbytes, if_true]
    rw [ih (n + 1) h.2]
    by_cases hid : id = c.id
    · subst hid
      simp [hbytes]
    · simp [hid]

/-! ### What a save makes good -/

/-- How the chunker cuts a staged file: into chunks that are not empty. -/
structure Chunking (file : StagedFile) where
  parts : List Bytes
  flatten_eq : parts.flatten = file.bytes
  nonempty : ∀ p ∈ parts, p ≠ []

/-- **Saving does not heal.**  Take a store after any operations and crashes, and a file whose
    ingest succeeds.  Its manifest, stored, loads and reads in full, without a cold tier, as the
    bytes of the file exactly when no chunk of the file had a torn file in the store before; and
    exactly then the mirror, however many of its puts succeed, makes no object of the cold tier go
    bad. -/
theorem save_heals_iff {D : Digest Id} (hinj : Function.Injective D.hash) (J : Serde (Manifest Id))
    (events : List (StoreEvent Id)) (file : StagedFile) (cut : Chunking file) {m : Manifest Id} :
    let s := run (CasStore.event D J) CasStore.empty events
    (s.ingest D cut.parts).1 = .ok m →
      let ingested := (s.ingest D cut.parts).2
      let stored := ingested.putManifest D J m
      ((stored.2.getManifest D J stored.1 = .ok m ∧
          stored.2.Reads D none m 0 m.totalSize file.bytes) ↔
        ∀ p ∈ cut.parts, ¬ Torn D s.blobs (D.hash p)) ∧
      ((∀ accepts, Spares D (mirrorChunks ingested.blobs accepts 0 m.chunks)) ↔
        ∀ p ∈ cut.parts, ¬ Torn D s.blobs (D.hash p)) := by
  intro s hm
  have hmanifests : Files.Intact D s.manifests := CasStore.manifests_intact_run D J events
  rcases chunkAndStore_spec D cut.parts s.blobs [] 0 with
    ⟨e, blobs, hsave, -⟩ | ⟨m', blobs, hsave, hlen, hchunks, htotal, hstored, -⟩
  · rw [CasStore.ingest, hsave] at hm
    cases hm
  · have htorn : ∀ k, Torn D blobs k ↔ Torn D s.blobs k := by
      intro k
      have := torn_chunkAndStore (D := D) cut.parts s.blobs [] 0 k
      rwa [hsave] at this
    have hingest : s.ingest D cut.parts = (.ok m', { s with blobs }) := by
      rw [CasStore.ingest, hsave]
    rw [hingest] at hm ⊢
    obtain rfl : m' = m := Except.ok.inj hm
    rw [List.nil_append] at hchunks
    have hsize : m'.totalSize.toNat = cut.parts.flatten.length := by
      have := file.size_lt
      rw [htotal, cut.flatten_eq]
      unfold maxNat
      simp
      omega
    refine ⟨⟨fun h p hp htorn' => ?_, fun h => ⟨?_, ?_⟩⟩,
      fun h p hp htorn' => ?_, fun h accepts => ?_⟩
    · obtain ⟨b, hb, hhash⟩ := good_of_reads cut.nonempty hlen hchunks hsize h.2 p hp
      obtain ⟨b', hb', hhash'⟩ := (htorn _).mpr htorn'
      exact hhash' (Option.some.inj (hb.symm.trans hb') ▸ hhash)
    · exact CasStore.getManifest_of_lookup
        ((hmanifests.writeAtomic rfl).lookup hinj (mem_writeAtomic.mpr (.inl rfl)))
    · have hlookup : ∀ p ∈ cut.parts, blobs.lookup (D.hash p) = some p := fun p hp =>
        lookup_of_not_torn hinj (hstored p hp) fun ht => h p hp ((htorn _).mp ht)
      have hread := readRange_spec (D := D) (s := ⟨blobs, (writeAtomic s.manifests
        (D.hash (J.toVec m')) (J.toVec m')).2⟩) none hlookup ⟨hchunks, hsize, hlen⟩ 0 m'.totalSize
      rwa [show (0 : U64).toNat = 0 from rfl, List.drop_zero, List.take_of_length_le hsize.ge,
        cut.flatten_eq] at hread
    · have hpresent : ∀ c ∈ m'.chunks, c.id ∈ blobs := by
        rw [hchunks]
        rintro c hc
        obtain ⟨q, hq, rfl⟩ := List.mem_map.mp hc
        exact hstored q hq
      have hlisted : D.hash p ∈ m'.chunks.map (·.id) := by
        rw [hchunks, List.map_map]
        exact List.mem_map_of_mem hp
      obtain ⟨b, hb, hhash⟩ := h (fun _ => true) ((∅ : Files Id).insert (D.hash p) p) (D.hash p)
        ⟨p, Finmap.lookup_insert _, rfl⟩
      rw [lookup_mirrorChunks 0 hpresent, if_pos hlisted] at hb
      obtain ⟨b', hb', hhash'⟩ := (htorn _).mpr htorn'
      exact hhash' (Option.some.inj (hb.symm.trans hb') ▸ hhash)
    · refine spares_mirrorChunks accepts 0 ?_
      rw [hchunks]
      rintro c hc
      obtain ⟨q, hq, rfl⟩ := List.mem_map.mp hc
      exact fun ht => h q hq ((htorn _).mp ht)

/-- The bytes 1, 2, 3 in two chunks. -/
def sampleFile : StagedFile := ⟨[1, 2, 3], by decide⟩

def sampleChunking : Chunking sampleFile := ⟨[[1, 2], [3]], rfl, by decide⟩

/-- A save, and a crash that leaves `blobs` for chunk files. -/
def savedThenCrashed (blobs : Files Bytes) : List (StoreEvent Bytes) :=
  [.op (.ingest [[1, 2], [3]]), .crash blobs fun _ => true]

/-- The crash lost the first chunk: the next save of the file writes it again. -/
theorem save_heals_missing_chunk :
    let s := run (CasStore.event contentDigest sampleJson) CasStore.empty
      (savedThenCrashed ((∅ : Files Bytes).insert [3] [3]))
    (s.ingest contentDigest [[1, 2], [3]]).1 = .ok sampleManifest ∧
      let stored := (s.ingest contentDigest [[1, 2], [3]]).2.putManifest contentDigest sampleJson
        sampleManifest
      stored.2.Reads contentDigest none sampleManifest 0 3 [1, 2, 3] := by
  intro s
  have hm : (s.ingest contentDigest [[1, 2], [3]]).1 = .ok sampleManifest := by decide
  obtain ⟨hheals, -⟩ := save_heals_iff (D := contentDigest) Function.injective_id sampleJson
    (savedThenCrashed ((∅ : Files Bytes).insert [3] [3])) sampleFile sampleChunking hm
  refine ⟨hm, (hheals.mpr ?_).2⟩
  rintro p hp ⟨b, hb, hne⟩
  have hwhole : ∀ p ∈ [[1, 2], [3]], s.blobs.lookup p = none ∨ s.blobs.lookup p = some p := by
    decide
  rcases hwhole p hp with hnone | hsome
  · exact absurd (hnone.symm.trans hb) (by simp)
  · exact hne (Option.some.inj (hb.symm.trans hsome))

/-- The crash left the first chunk's file empty.  The next save of the file succeeds and its manifest
    loads, but reading it fails, and the mirror puts the empty bytes over the good copy of the chunk
    in the cold tier. -/
theorem save_adopts_torn_chunk :
    let s := run (CasStore.event contentDigest sampleJson) CasStore.empty
      (savedThenCrashed (((∅ : Files Bytes).insert [1, 2] []).insert [3] [3]))
    let ingested := (s.ingest contentDigest [[1, 2], [3]]).2
    let stored := ingested.putManifest contentDigest sampleJson sampleManifest
    let cold : Files Bytes := (∅ : Files Bytes).insert [1, 2] [1, 2]
    (s.ingest contentDigest [[1, 2], [3]]).1 = .ok sampleManifest ∧
      stored.2.getManifest contentDigest sampleJson stored.1 = .ok sampleManifest ∧
      ¬ stored.2.Reads contentDigest none sampleManifest 0 3 [1, 2, 3] ∧
      Good contentDigest cold [1, 2] ∧
      Torn contentDigest (mirrorChunks ingested.blobs (fun _ => true) 0 sampleManifest.chunks cold)
        [1, 2] := by
  intro s ingested stored
  have hblob : ingested.blobs.lookup [1, 2] = some [] := by decide
  refine ⟨by decide, by decide +kernel, fun hread => ?_, ⟨[1, 2], by decide, rfl⟩,
    ⟨[], by decide, by decide⟩⟩
  obtain ⟨b, hb, hhash⟩ := @good_of_reads _ _ contentDigest _ _ [[1, 2], [3]] (by decide)
    (by decide) rfl rfl _ hread [1, 2] (by decide)
  obtain rfl : [] = b := Option.some.inj (hblob.symm.trans hb)
  exact absurd hhash (by decide)

end GhRunner.Cache
