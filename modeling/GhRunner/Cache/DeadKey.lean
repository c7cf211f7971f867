import GhRunner.Cache.Twirp
import GhRunner.Cache.TornStore

namespace GhRunner.Cache

open Saturating Machine

/-!
# Can a key that is not found be saved?

A lookup asks the index, the manifest files and the chunk files; a create asks the index alone.  On any
store and any index that inserts, rewrites and crashes leave, a job misses a key, creates it, uploads,
finalizes, and looks it up again.

* `Serves` — the store has the manifest and the chunks of an entry, and they read as these bytes;
* `CacheApp.putAll` — an upload: PUTs on one URL, with time passing in between;
* `Restored` — the create is accepted, the finalize is, and the lookup then delivers the bytes;
* `serves_withFiles_iff` — what was saved is served unless a file of it was torn before;
* `restored_iff` — when the key can be saved: not while its scope has an entry for it, and not behind
  a torn line or over a torn file;
* `damaged_key_dead` — a key whose only entry lost a chunk can be neither restored nor saved.
-/

variable {Id : Type} [DecidableEq Id] (C : Codec Id) (job : CacheJob)

/-! ### What the store has of an upload -/

/-- The manifest of these bytes. -/
def Codec.manifestOf (bytes : Bytes) : Manifest Id :=
  ⟨(C.cut bytes).map (refOf C.digest), BitVec.ofNat 64 bytes.length⟩

/-- The digest its file is named by. -/
def Codec.manifestId (bytes : Bytes) : Id := C.digest.hash (C.manifestJson.toVec (C.manifestOf bytes))

/-- The store once the files of an upload have been written to it. -/
def CasStore.withFiles (s : CasStore Id) (bytes : Bytes) : CasStore Id :=
  ((s.ingest C.digest (C.cut bytes)).2.putManifest C.digest C.manifestJson (C.manifestOf bytes)).2

/-- The manifest loads, its chunk files are there, and reading it delivers these bytes. -/
def Serves (s : CasStore Id) (mid : Id) (bytes : Bytes) : Prop :=
  ∃ m, s.getManifest C.digest C.manifestJson mid = .ok m ∧ s.allChunksPresent m = true ∧
    ∃ slices : List Bytes,
      (s.readRange C.digest none m 0 m.totalSize).1 = slices.map .ok ∧ slices.flatten = bytes

variable {C job}

/-- A save succeeds exactly when every chunk's length fits its field, with the manifest of the
    bytes. -/
theorem ingest_eq_ok_iff {s : CasStore Id} {bytes : Bytes} (hlen : bytes.length < 2 ^ 64)
    {m : Manifest Id} : (s.ingest C.digest (C.cut bytes)).1 = .ok m ↔
      (∀ p ∈ C.cut bytes, p.length < 2 ^ 32) ∧ m = C.manifestOf bytes := by
  rcases chunkAndStore_spec C.digest (C.cut bytes) s.blobs [] 0 with
    ⟨e, blobs, heq, hlong⟩ | ⟨m', blobs, heq, hfits, hchunks, htotal, -, -⟩
  · rw [CasStore.ingest, heq]
    simp only [reduceCtorEq, false_iff]
    exact fun h => hlong h.1
  · have hm : m' = C.manifestOf bytes := by
      obtain ⟨chunks, total⟩ := m'
      rw [C.flatten_cut, show (0 : U64).toNat = 0 from rfl, Nat.zero_add] at htotal
      obtain rfl : chunks = _ := hchunks
      obtain rfl : total = BitVec.ofNat 64 bytes.length := by
        apply BitVec.eq_of_toNat_eq
        rw [BitVec.toNat_ofNat, htotal, Nat.mod_eq_of_lt hlen]
        unfold maxNat
        omega
      rfl
    rw [CasStore.ingest, heq, hm]
    show Except.ok (C.manifestOf bytes) = Except.ok m ↔ _
    rw [Except.ok.injEq]
    exact ⟨fun h => ⟨hfits, h.symm⟩, fun h => h.2.symm⟩

/-- What was saved is served exactly when neither its manifest nor a chunk of it had a torn file in the
    store before. -/
theorem serves_withFiles_iff (hinj : Function.Injective C.digest.hash) {s : CasStore Id}
    {bytes : Bytes} (hlen : bytes.length < 2 ^ 64)
    (hfits : ∀ p ∈ C.cut bytes, p.length < 2 ^ 32) :
    Serves C (s.withFiles C bytes) (C.manifestId bytes) bytes ↔
      (∀ p ∈ C.cut bytes, ¬ Torn C.digest s.blobs (C.digest.hash p)) ∧
        ¬ Torn C.digest s.manifests (C.manifestId bytes) := by
  rcases chunkAndStore_spec C.digest (C.cut bytes) s.blobs [] 0 with
    ⟨e, blobs, heq, hlong⟩ | ⟨m, blobs, heq, -, -, -, hstored, -⟩
  · exact absurd hfits hlong
  have htorn : ∀ k, Torn C.digest blobs k ↔ Torn C.digest s.blobs k := by
    intro k
    have := torn_chunkAndStore (D := C.digest) (C.cut bytes) s.blobs [] 0 k
    rwa [heq] at this
  have hstore : s.withFiles C bytes = ⟨blobs, (writeAtomic s.manifests (C.manifestId bytes)
      (C.manifestJson.toVec (C.manifestOf bytes))).2⟩ := by
    rw [CasStore.withFiles, CasStore.ingest, heq]
    rfl
  have hmanifest : ManifestOf C.digest (C.manifestOf bytes) (C.cut bytes) := by
    refine ⟨rfl, ?_, hfits⟩
    rw [Codec.manifestOf, BitVec.toNat_ofNat, Nat.mod_eq_of_lt hlen, C.flatten_cut]
  have hmem : C.manifestId bytes ∈ (s.withFiles C bytes).manifests := by
    rw [hstore]
    exact mem_writeAtomic.mpr (.inl rfl)
  have htornManifest : Torn C.digest (s.withFiles C bytes).manifests (C.manifestId bytes) ↔
      Torn C.digest s.manifests (C.manifestId bytes) := by
    rw [hstore]
    exact torn_writeAtomic rfl _
  constructor
  · rintro ⟨m', hm', -, slices, hitems, -⟩
    -- a torn manifest does not load, and one that is not torn is the one that was saved
    have hwhole : ¬ Torn C.digest s.manifests (C.manifestId bytes) := by
      rw [← htornManifest]
      rintro ⟨b, hb, hne⟩
      have hverify : verifyBytes C.digest b (C.manifestId bytes) =
          .error (.cache ("chunk digest mismatch: expected " ++
            C.digest.toHex (C.manifestId bytes))) := if_neg hne
      simp only [CasStore.getManifest, readVerified, hb, hverify, Except.map] at hm'
      cases hm'
    have hfile := lookup_of_not_torn hinj hmem (mt htornManifest.mp hwhole)
    rw [Codec.manifestId, CasStore.getManifest_of_lookup hfile] at hm'
    obtain rfl := Except.ok.inj hm'
    refine ⟨fun p hp ht => ?_, hwhole⟩
    obtain ⟨b, hb, hhash⟩ := good_of_items (C.nonempty_cut bytes) hfits rfl hmanifest.totalSize
      hitems p hp
    rw [hstore] at hb
    obtain ⟨b', hb', hhash'⟩ := (htorn _).mpr ht
    exact hhash' (Option.some.inj (hb.symm.trans hb') ▸ hhash)
  · rintro ⟨hchunks, hwhole⟩
    have hfile := lookup_of_not_torn hinj hmem (mt htornManifest.mp hwhole)
    have hstocked : Stocked C.digest (C.cut bytes) (s.withFiles C bytes).blobs := by
      intro p hp
      rw [hstore]
      exact lookup_of_not_torn hinj (hstored p hp) fun ht => hchunks p hp ((htorn _).mp ht)
    obtain ⟨slices, hread, hflatten⟩ := readRange_spec none hstocked hmanifest 0
      (C.manifestOf bytes).totalSize
    refine ⟨C.manifestOf bytes, CasStore.getManifest_of_lookup hfile, ?_, slices,
      congrArg Prod.fst hread, ?_⟩
    · rw [CasStore.allChunksPresent, List.all_eq_true]
      intro chunk hchunk
      obtain ⟨p, hp, rfl⟩ := List.mem_map.mp hchunk
      exact decide_eq_true (Finmap.mem_of_lookup_eq_some (hstocked p hp))
    · rw [hflatten, show (0 : U64).toNat = 0 from rfl, List.drop_zero, hmanifest.totalSize,
        List.take_length, C.flatten_cut]

/-! ### One save -/

namespace CacheApp

/-- PUTs on one URL, each with the time that passes after it. -/
def putAll (s : CacheApp Id) (url : Token) (puts : List (PutOp × ℕ)) : CacheApp Id :=
  puts.foldl (fun s put =>
    { (s.putEntry url put.1).2 with clock := (s.putEntry url put.1).2.clock + put.2 }) s

/-- What has been staged behind a URL. -/
def object (s : CacheApp Id) (url : Token) : Option Bytes :=
  match s.registry.get url s.clock with
  | some (.upload staging _ _ _) => s.staged.lookup staging
  | _ => none

omit [DecidableEq Id] in
theorem putAll_frame (s : CacheApp Id) (url : Token) (puts : List (PutOp × ℕ)) :
    ∃ staged blocks, s.putAll url puts =
      { s with staged, blocks, clock := s.clock + (puts.map (·.2)).sum } := by
  induction puts generalizing s with
  | nil => exact ⟨s.staged, s.blocks, rfl⟩
  | cons put puts ih =>
    have hput : ∃ staged blocks, (s.putEntry url put.1).2 = { s with staged, blocks } := by
      unfold putEntry
      split
      case h_1 staging _ _ _ _ =>
        obtain ⟨staged, blocks, -, heq⟩ := s.putStaged_cases staging put.1
        exact ⟨staged, blocks, heq⟩
      case h_2 => exact ⟨s.staged, s.blocks, rfl⟩
    obtain ⟨staged, blocks, heq⟩ := hput
    obtain ⟨staged', blocks', heq'⟩ := ih
      { (s.putEntry url put.1).2 with clock := (s.putEntry url put.1).2.clock + put.2 }
    refine ⟨staged', blocks', ?_⟩
    rw [putAll, List.foldl_cons, ← putAll, heq', heq, List.map_cons, List.sum_cons]
    simp only [Nat.add_assoc]

/-- A finalize of staged bytes whose chunks fit stores their files and appends their entry. -/
theorem indexStaged_eq {s : CacheApp Id} {staging : StagingPath} {bytes : Bytes}
    (hbytes : s.staged.lookup staging = some bytes) (hlen : bytes.length < 2 ^ 64)
    (hfits : ∀ p ∈ C.cut bytes, p.length < 2 ^ 32) (key version : String) (now : DateTime) :
    s.indexStaged C job staging key version (BitVec.ofNat 64 bytes.length) now =
      (.ok (some (C.manifestId bytes)), { s with
        store := s.store.withFiles C bytes
        staged := s.staged.erase staging
        index := s.index.insert C.entryJson.toLineSerde job.scopes.write version
          ⟨key, C.manifestId bytes, BitVec.ofNat 64 bytes.length, now⟩ }) := by
  rcases hingest : s.store.ingest C.digest (C.cut bytes) with ⟨result, store⟩
  have hm : (s.store.ingest C.digest (C.cut bytes)).1 = .ok (C.manifestOf bytes) :=
    (ingest_eq_ok_iff hlen).mpr ⟨hfits, rfl⟩
  rw [hingest] at hm
  obtain rfl : result = .ok (C.manifestOf bytes) := hm
  have hfiles : s.store.withFiles C bytes =
      (store.putManifest C.digest C.manifestJson (C.manifestOf bytes)).2 := by
    rw [CasStore.withFiles, hingest]
  have hsize : (C.manifestOf bytes).totalSize = BitVec.ofNat 64 bytes.length := rfl
  rw [hfiles]
  simp only [indexStaged, ingestStaged, hbytes, hingest, hsize, ne_eq, not_true_eq_false, if_false]
  rfl

/-- With a chunk that does not fit it fails. -/
theorem indexStaged_error {s : CacheApp Id} {staging : StagingPath} {bytes : Bytes}
    (hbytes : s.staged.lookup staging = some bytes) (hlen : bytes.length < 2 ^ 64)
    (hlong : ¬ ∀ p ∈ C.cut bytes, p.length < 2 ^ 32) (key version : String) (size : U64)
    (now : DateTime) :
    ∃ e, (s.indexStaged C job staging key version size now).1 = .error e := by
  cases hingest : s.store.ingest C.digest (C.cut bytes) with
  | mk result store =>
    cases result with
    | ok m =>
      have hm : (s.store.ingest C.digest (C.cut bytes)).1 = .ok m := by rw [hingest]
      exact absurd ((ingest_eq_ok_iff hlen).mp hm).1 hlong
    | error e =>
      refine ⟨e, ?_⟩
      unfold indexStaged ingestStaged
      simp only [hbytes, hingest]

/-- A lookup of an exact key delivers these bytes exactly when the index finds an entry that the store
    serves as them. -/
theorem lookup_delivers_iff (s : CacheApp Id) (version key : String) (bytes : Bytes) :
    (∃ token s', s.getCacheEntryDownloadUrl C job ⟨key, [], version⟩ = (.hit token key, s') ∧
      ∃ slices : List Bytes, (s'.getEntry C token).1 = some (slices.map .ok) ∧
        slices.flatten = bytes) ↔
    ∃ e, s.index.lookup C.entryJson.toLineSerde job.scopes.readLadder version key [] =
        some (key, e) ∧ Serves C s.store e.manifest bytes := by
  have hget : ∀ m, ({ s with registry := (s.registry.mintDownload m downloadTtl s.clock).2 }.getEntry
      C (s.registry.mintDownload m downloadTtl s.clock).1).1 =
        some (s.store.readRange C.digest none m 0 m.totalSize).1 := by
    intro m
    simp only [getEntry, s.registry.get_mintDownload m (show 0 < downloadTtl by decide) s.clock]
  constructor
  · rintro ⟨token, s', hhit, slices, hitems, hflatten⟩
    cases hresolve : s.resolveEntry C job version key [] with
    | none =>
      simp only [getCacheEntryDownloadUrl, hresolve] at hhit
      cases (Prod.mk.inj hhit).1
    | some found =>
      obtain ⟨matchedKey, m⟩ := found
      simp only [getCacheEntryDownloadUrl, hresolve] at hhit
      obtain ⟨hresponse, rfl⟩ := Prod.mk.inj hhit
      obtain ⟨-, htoken, hkey⟩ := DownloadResponse.mk.inj hresponse
      obtain rfl := Option.some.inj htoken
      obtain rfl := Option.some.inj hkey
      obtain ⟨e, hlookup, hm, hall⟩ := (s.resolveEntry_eq_some_iff C job).mp hresolve
      rw [hget] at hitems
      exact ⟨e, hlookup, m, hm, hall, slices, Option.some.inj hitems, hflatten⟩
  · rintro ⟨e, hlookup, m, hm, hall, slices, hitems, hflatten⟩
    have hresolve := (s.resolveEntry_eq_some_iff C job).mpr ⟨e, hlookup, hm, hall⟩
    refine ⟨(s.registry.mintDownload m downloadTtl s.clock).1,
      { s with registry := (s.registry.mintDownload m downloadTtl s.clock).2 }, ?_, slices, ?_,
      hflatten⟩
    · simp only [getCacheEntryDownloadUrl, hresolve]
    · rw [hget, hitems]

/-- A miss changes nothing. -/
theorem download_miss {s : CacheApp Id} {req : DownloadRequest}
    (h : (s.getCacheEntryDownloadUrl C job req).1 = .miss) :
    (s.getCacheEntryDownloadUrl C job req).2 = s := by
  unfold getCacheEntryDownloadUrl at h ⊢
  cases hresolve : s.resolveEntry C job req.version req.key req.restoreKeys with
  | none => rfl
  | some found =>
    obtain ⟨matchedKey, m⟩ := found
    simp only [hresolve] at h
    cases h

end CacheApp

omit [DecidableEq Id] in
/-- The only upload in the registry is the one that is taken. -/
theorem take_sole {token first : Token} {staging : StagingPath} {scope key version : String}
    {expiry now : Instant} (hlive : now < expiry) (minted : Token) :
    let r : BlobRegistry Id :=
      ⟨(∅ : Finmap fun _ : Token => BlobEntry Id).insert token
        ⟨.upload staging scope key version, expiry⟩, minted⟩
    r.takePendingUpload first scope key version now =
      (some (token, staging), { r with entries := r.entries.erase token }) := by
  intro r
  have hsole : ∀ t e, r.entries.lookup t = some e →
      t = token ∧ e = ⟨.upload staging scope key version, expiry⟩ := by
    intro t e ht
    by_cases htoken : t = token
    · subst htoken
      exact ⟨rfl, (Option.some.inj ((Finmap.lookup_insert _).symm.trans ht)).symm⟩
    · have hnone := (Finmap.lookup_insert_of_ne _ htoken).symm.trans ht
      rw [Finmap.lookup_empty] at hnone
      cases hnone
  rcases r.takePendingUpload_cases first scope key version now with
    ⟨hempty, -⟩ | ⟨t, -, path, expiry', hlookup, -, heq⟩
  · have hmem : token ∈ r.pending scope key version now :=
      BlobRegistry.mem_pending.mpr ⟨staging, expiry, Finmap.lookup_insert _, hlive⟩
    rw [hempty] at hmem
    exact absurd hmem (Finset.notMem_empty token)
  · obtain ⟨rfl, hentry⟩ := hsole t _ hlookup
    obtain ⟨rfl, -⟩ := BlobTarget.upload.inj (BlobEntry.mk.inj hentry).1
    exact heq

/-! ### The key, created and looked up again -/

/-- The create is accepted; the upload is finalized; and then the lookup is a hit that delivers these
    bytes. -/
def Restored (C : Codec Id) (job : CacheJob) (s : CacheApp Id) (version key : String)
    (puts : List (PutOp × ℕ)) (size : String) (first : Token) (now : DateTime) (bytes : Bytes) :
    Prop :=
  ∃ url s₁, s.createCacheEntry C job ⟨key, version⟩ = (.okUpload url, s₁) ∧
  ∃ entryId s₂, (s₁.putAll url puts).finalizeCacheEntryUpload C job ⟨key, size, version⟩ first now =
    (⟨true, some entryId⟩, s₂) ∧
  ∃ token s₃, s₂.getCacheEntryDownloadUrl C job ⟨key, [], version⟩ = (.hit token key, s₃) ∧
  ∃ slices : List Bytes, (s₃.getEntry C token).1 = some (slices.map .ok) ∧ slices.flatten = bytes

/-- Behind an accepted create and finalize, what the lookup finds decides. -/
theorem restored_iff_of_ok {s s₁ s₂ : CacheApp Id} {version key : String} {url : Token}
    (hcreate : s.createCacheEntry C job ⟨key, version⟩ = (.okUpload url, s₁))
    {puts : List (PutOp × ℕ)} {size : String} {first : Token} {now : DateTime} {mid : Id}
    (hfinalize : (s₁.putAll url puts).finalize C job ⟨key, size, version⟩ first now =
      (.ok (some mid), s₂)) (bytes : Bytes) :
    Restored C job s version key puts size first now bytes ↔
      ∃ e, s₂.index.lookup C.entryJson.toLineSerde job.scopes.readLadder version key [] =
          some (key, e) ∧ Serves C s₂.store e.manifest bytes := by
  have hdone : (s₁.putAll url puts).finalizeCacheEntryUpload C job ⟨key, size, version⟩ first now =
      (⟨true, some (C.entryIdFor mid)⟩, s₂) := by
    simp only [CacheApp.finalizeCacheEntryUpload, hfinalize]
  rw [← s₂.lookup_delivers_iff]
  constructor
  · rintro ⟨url', s₁', hcreate', entryId, s₂', hdone', hlookup⟩
    obtain ⟨hurl, rfl⟩ := Prod.mk.inj (hcreate.symm.trans hcreate')
    obtain rfl := Option.some.inj (CreateResponse.mk.inj hurl).2.1
    obtain ⟨-, rfl⟩ := Prod.mk.inj (hdone.symm.trans hdone')
    exact hlookup
  · exact fun hlookup => ⟨url, s₁, hcreate, C.entryIdFor mid, s₂, hdone, hlookup⟩

/-- Behind a finalize that fails nothing is restored. -/
theorem not_restored_of_error {s s₁ : CacheApp Id} {version key : String} {url : Token}
    (hcreate : s.createCacheEntry C job ⟨key, version⟩ = (.okUpload url, s₁))
    {puts : List (PutOp × ℕ)} {size : String} {first : Token} {now : DateTime} {e : RunnerError}
    (hfinalize : ((s₁.putAll url puts).finalize C job ⟨key, size, version⟩ first now).1 = .error e)
    (bytes : Bytes) : ¬ Restored C job s version key puts size first now bytes := by
  rintro ⟨url', s₁', hcreate', entryId, s₂, hdone, -⟩
  obtain ⟨hurl, rfl⟩ := Prod.mk.inj (hcreate.symm.trans hcreate')
  obtain rfl := Option.some.inj (CreateResponse.mk.inj hurl).2.1
  rcases hresult : (s₁.putAll url puts).finalize C job ⟨key, size, version⟩ first now with
    ⟨result, s₃⟩
  rw [hresult] at hfinalize
  obtain rfl : result = .error e := hfinalize
  simp only [CacheApp.finalizeCacheEntryUpload, hresult] at hdone
  cases (Prod.mk.inj hdone).1

/-- The finalize of a first upload takes it, and goes on to index what was put. -/
theorem finalize_first (C : Codec Id) (job : CacheJob) (store : CasStore Id) (index : CacheIndex)
    (version key : String) {puts : List (PutOp × ℕ)} (htime : (puts.map (·.2)).sum < uploadTtl)
    {bytes : Bytes} {size : String} {n : U64} (hsize : parseU64 size.toList = .ok n) (first : Token)
    (now : DateTime) :
    let s := ((CacheApp.start store index).mint job ⟨key, version⟩).2.putAll 0 puts
    s.object 0 = some bytes →
      ∃ s₀ : CacheApp Id, s₀.store = store ∧ s₀.index = index ∧
        s₀.staged.lookup (.upload 0) = some bytes ∧
        s.finalize C job ⟨key, size, version⟩ first now =
          s₀.indexStaged C job (.upload 0) key version n now := by
  intro s hobject
  obtain ⟨staged, blocks, heq⟩ := CacheApp.putAll_frame
    ((CacheApp.start store index).mint job ⟨key, version⟩).2 0 puts
  let elapsed : Instant := 0 + (puts.map (·.2)).sum
  let registry : BlobRegistry Id :=
    ⟨(∅ : Finmap fun _ : Token => BlobEntry Id).insert 0
      ⟨.upload (.upload 0) job.scopes.write key version, 0 + uploadTtl⟩, 1⟩
  have hs : s = ⟨store, index, registry, staged, blocks, 1, ∅, ∅, 0, 1, elapsed⟩ := heq
  have hlive : elapsed < 0 + uploadTtl := Nat.add_lt_add_left htime 0
  have hget : registry.get 0 elapsed = some (.upload (.upload 0) job.scopes.write key version) := by
    simp only [registry, BlobRegistry.get, Finmap.lookup_insert, if_neg (Nat.not_le.mpr hlive)]
  have hstaged : staged.lookup (.upload 0) = some bytes := by
    rw [hs] at hobject
    simpa only [CacheApp.object, hget] using hobject
  have htake : registry.takePendingUpload first job.scopes.write key version elapsed =
      (some (0, .upload 0), { registry with entries := registry.entries.erase 0 }) :=
    take_sole hlive 1
  refine ⟨⟨store, index, { registry with entries := registry.entries.erase 0 }, staged, blocks, 1, ∅,
    ∅, 0, 1, elapsed⟩, rfl, rfl, hstaged, ?_⟩
  rw [hs]
  simp only [CacheApp.finalize, hsize, htake]

/-- A log in which the next entry is read back. -/
def CacheIndex.Appendable (idx : CacheIndex) (k : LogKey) : Prop :=
  Cache.Terminated ((idx.logs.lookup k).getD [])

omit [DecidableEq Id] in
/-- Behind a terminated log without the key, the new entry is the one that is found. -/
theorem lookup_insert_own {idx : CacheIndex} {J : IndexSerde Id} (htailed : idx.Tailed J)
    {scope version : String} (happend : idx.Appendable (scope, version)) {entry : IndexEntry Id}
    (hnew : ∀ e ∈ idx.entries J.toLineSerde (scope, version), e.key ≠ entry.key)
    (ladder : List String) :
    (idx.insert J.toLineSerde scope version entry).lookup J.toLineSerde (scope :: ladder) version
      entry.key [] = some (entry.key, entry) := by
  apply CacheIndex.lookup_own
  have hold : (idx.entries J.toLineSerde (scope, version)).filter
      (fun e => decide (e.key = entry.key)) = [] := by
    rw [List.filter_eq_nil_iff]
    intro e he
    rw [decide_eq_true_eq]
    exact hnew e he
  rw [htailed.entries_insert, if_pos ⟨rfl, happend⟩, List.filter_append, hold, List.nil_append]
  simp

omit [DecidableEq Id] in
/-- Behind a torn line it is not found: lookups are as before. -/
theorem lookup_insert_torn {idx : CacheIndex} {J : IndexSerde Id} (htailed : idx.Tailed J)
    {scope version : String} (htorn : ¬ idx.Appendable (scope, version)) (entry : IndexEntry Id)
    (ladder : List String) (key : String) :
    (idx.insert J.toLineSerde scope version entry).lookup J.toLineSerde ladder version key [] =
      idx.lookup J.toLineSerde ladder version key [] := by
  apply CacheIndex.lookup_congr
  intro scope' _
  rw [htailed.entries_insert]
  have hno : ¬ ((scope', version) = (scope, version) ∧
      Cache.Terminated ((idx.logs.lookup (scope', version)).getD [])) := by
    rintro ⟨heq, hterm⟩
    exact htorn (heq ▸ hterm)
  rw [if_neg hno, List.append_nil]

/-- **When a missed key can be saved.**  A job that may write, and whose own scope is first on its
    ladder, misses a key on any store and on any index that inserts, rewrites and crashes can leave.
    It creates the key, puts an object in less time than the URL is good for, finalizes it with its
    size, and looks the key up again.  The create is accepted and the bytes are delivered exactly when
    its own scope has no entry for the key, every chunk fits its field, and
    * the log of its scope is terminated, and neither the manifest nor a chunk of the object has a
      torn file; or
    * the log ends in a torn line, and an entry of another scope, one that was found before without
      all of its files, is served as the same bytes once the object's files are there. -/
theorem restored_iff (C : Codec Id) (hinj : Function.Injective C.digest.hash) {job : CacheJob}
    {ladder : List String} (hladder : job.scopes.readLadder = job.scopes.write :: ladder)
    (hwrite : writeAllowed job.scopes.write job.trust job.protectedBranches = true)
    (store : CasStore Id) (history : List (IndexEvent Id)) (version key : String)
    {puts : List (PutOp × ℕ)} (htime : (puts.map (·.2)).sum < uploadTtl) {bytes : Bytes}
    (hlen : bytes.length < 2 ^ 64) {size : String}
    (hsize : parseU64 size.toList = .ok (BitVec.ofNat 64 bytes.length)) (first : Token)
    (now : DateTime) :
    let index := run (CacheIndex.event C.entryJson.toLineSerde) CacheIndex.empty history
    let missed := (CacheApp.start store index).getCacheEntryDownloadUrl C job ⟨key, [], version⟩
    missed.1 = .miss →
    (∀ url s, missed.2.createCacheEntry C job ⟨key, version⟩ = (.okUpload url, s) →
      (s.putAll url puts).object url = some bytes) →
    (Restored C job missed.2 version key puts size first now bytes ↔
      (∀ e ∈ index.entries C.entryJson.toLineSerde (job.scopes.write, version), e.key ≠ key) ∧
      (∀ p ∈ C.cut bytes, p.length < 2 ^ 32) ∧
      (index.Appendable (job.scopes.write, version) ∧
          (∀ p ∈ C.cut bytes, ¬ Torn C.digest store.blobs (C.digest.hash p)) ∧
          ¬ Torn C.digest store.manifests (C.manifestId bytes) ∨
        ¬ index.Appendable (job.scopes.write, version) ∧
          ∃ e, index.lookup C.entryJson.toLineSerde job.scopes.readLadder version key [] =
              some (key, e) ∧
            Serves C (store.withFiles C bytes) e.manifest bytes)) := by
  intro index missed hmiss hobject
  have htailed : index.Tailed C.entryJson := CacheIndex.tailed_run C.entryJson history
  have hmissed : missed.2 = CacheApp.start store index := CacheApp.download_miss hmiss
  rw [hmissed] at hobject ⊢
  have hexists : (CacheApp.start store index).entryExists C job ⟨key, version⟩ = false ↔
      ∀ e ∈ index.entries C.entryJson.toLineSerde (job.scopes.write, version), e.key ≠ key := by
    rw [CacheApp.entryExists, Option.isSome_eq_false_iff, Option.isNone_iff_eq_none]
    exact CacheIndex.lookup_eq_none_iff
  rw [← hexists]
  by_cases hfound : (CacheApp.start store index).entryExists C job ⟨key, version⟩ = true
  · -- the index has the key: the create is refused
    have hrefused : (CacheApp.start store index).createCacheEntry C job ⟨key, version⟩ =
        (.refused "cache entry already exists", CacheApp.start store index) := by
      rw [CacheApp.createCacheEntry, hwrite, if_neg (by decide), if_pos hfound]
    rw [hfound]
    simp only [Bool.true_eq_false, false_and, iff_false]
    rintro ⟨url, s₁, hcreate, -⟩
    rw [hrefused] at hcreate
    cases (Prod.mk.inj hcreate).1
  rw [Bool.not_eq_true] at hfound
  have hcreate : (CacheApp.start store index).createCacheEntry C job ⟨key, version⟩ =
      (CacheApp.start store index).mint job ⟨key, version⟩ := by
    rw [CacheApp.createCacheEntry, hwrite, if_neg (by decide), hfound, if_neg (by decide)]
  have hstaged : ∃ s₀ : CacheApp Id, s₀.store = store ∧ s₀.index = index ∧
      s₀.staged.lookup (.upload 0) = some bytes ∧
      (((CacheApp.start store index).mint job ⟨key, version⟩).2.putAll 0 puts).finalize C job
        ⟨key, size, version⟩ first now =
          s₀.indexStaged C job (.upload 0) key version (BitVec.ofNat 64 bytes.length) now :=
    finalize_first C job store index version key htime hsize first now (hobject 0 _ hcreate)
  obtain ⟨s₀, hstore, hindex, hbytes, hfinalize⟩ := hstaged
  by_cases hfits : ∀ p ∈ C.cut bytes, p.length < 2 ^ 32
  · -- the finalize is accepted, and what it leaves is looked up
    rw [CacheApp.indexStaged_eq hbytes hlen hfits, hstore, hindex] at hfinalize
    rw [restored_iff_of_ok hcreate hfinalize, hladder]
    have hnew := hexists.mp hfound
    let entry : IndexEntry Id := ⟨key, C.manifestId bytes, BitVec.ofNat 64 bytes.length, now⟩
    show (∃ e, (index.insert C.entryJson.toLineSerde job.scopes.write version entry).lookup
      C.entryJson.toLineSerde (job.scopes.write :: ladder) version key [] = some (key, e) ∧
        Serves C (store.withFiles C bytes) e.manifest bytes) ↔ _
    by_cases happend : index.Appendable (job.scopes.write, version)
    · have hown : (index.insert C.entryJson.toLineSerde job.scopes.write version entry).lookup
          C.entryJson.toLineSerde (job.scopes.write :: ladder) version key [] = some (key, entry) :=
        lookup_insert_own htailed happend hnew ladder
      rw [hown, ← serves_withFiles_iff hinj hlen hfits]
      constructor
      · rintro ⟨e, he, hserves⟩
        obtain ⟨-, rfl⟩ := Prod.mk.inj (Option.some.inj he)
        exact ⟨hfound, hfits, .inl ⟨happend, hserves⟩⟩
      · rintro ⟨-, -, ⟨-, hserves⟩ | ⟨htorn, -⟩⟩
        · exact ⟨entry, rfl, hserves⟩
        · exact absurd happend htorn
    · rw [lookup_insert_torn htailed happend entry (job.scopes.write :: ladder) key]
      constructor
      · exact fun h => ⟨hfound, hfits, .inr ⟨happend, h⟩⟩
      · rintro ⟨-, -, ⟨happend', -⟩ | ⟨-, h⟩⟩
        · exact absurd happend' happend
        · exact h
  · -- a chunk is too long: the finalize fails
    have herror : ∃ e, (s₀.indexStaged C job (.upload 0) key version
        (BitVec.ofNat 64 bytes.length) now).1 = .error e :=
      CacheApp.indexStaged_error hbytes hlen hfits key version _ now
    obtain ⟨e, herror⟩ := herror
    rw [← hfinalize] at herror
    exact ⟨fun h => absurd h (not_restored_of_error hcreate herror bytes),
      fun h => absurd h.2.1 hfits⟩

/-- On an empty cache a missed key can be saved. -/
theorem restored_on_empty :
    Restored sampleCodec sampleJob (CacheApp.start .empty .empty) "v" "old"
      [(.block (some "a") [1, 2], 10 ^ 9), (.block (some "b") [3], 10 ^ 9),
        (.blockList (.ok ["a", "b"]), 10 ^ 9)] "3" 0 0 [1, 2, 3] := by
  have hmiss : ((CacheApp.start .empty .empty).getCacheEntryDownloadUrl sampleCodec sampleJob
      ⟨"old", [], "v"⟩).1 = .miss := by decide
  rw [← CacheApp.download_miss hmiss]
  refine (restored_iff sampleCodec Function.injective_id rfl (by decide) .empty [] "v" "old"
    (by decide) (by decide) (show parseU64 "3".toList = .ok 3 by decide) 0 0 hmiss ?_).mpr
    ⟨?_, by decide, .inl ⟨.inl rfl, ?_, ?_⟩⟩
  · rw [run_nil, CacheApp.download_miss hmiss]
    intro url s hcreate
    have hminted : (CacheApp.start .empty .empty).createCacheEntry sampleCodec sampleJob
        ⟨"old", "v"⟩ = (CacheApp.start .empty .empty).mint sampleJob ⟨"old", "v"⟩ := by
      rw [CacheApp.createCacheEntry, if_neg (by decide), if_neg (by decide)]
    obtain ⟨hurl, rfl⟩ := Prod.mk.inj (hminted.symm.trans hcreate)
    obtain rfl := Option.some.inj (CreateResponse.mk.inj hurl).2.1
    decide
  · simp
  · rintro p - ⟨b, hb, -⟩
    exact absurd ((Finmap.lookup_empty _).symm.trans hb) nofun
  · rintro ⟨b, hb, -⟩
    exact absurd ((Finmap.lookup_empty _).symm.trans hb) nofun

/-- **A dead key.**  The entry's manifest is there and one of its two chunks is gone.  The lookup
    misses, and the create is refused because the entry exists. -/
theorem damaged_key_dead :
    let index := run (CacheIndex.event sampleIndex.toLineSerde) CacheIndex.empty
      [.insert "feature" "v" (sampleEntry "old" 0)]
    let store : CasStore Bytes := ⟨(∅ : Files Bytes).insert [1, 2] [1, 2],
      (∅ : Files Bytes).insert sampleMid (sampleJson.toVec sampleManifest)⟩
    let missed := (CacheApp.start store index).getCacheEntryDownloadUrl sampleCodec sampleJob
      ⟨"old", [], "v"⟩
    sampleJob.scopes.readLadder.head? = some sampleJob.scopes.write ∧
      writeAllowed sampleJob.scopes.write sampleJob.trust sampleJob.protectedBranches = true ∧
      missed.1 = .miss ∧
      (missed.2.createCacheEntry sampleCodec sampleJob ⟨"old", "v"⟩).1 =
        .refused "cache entry already exists" := by
  decide +kernel

end GhRunner.Cache
