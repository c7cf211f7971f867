import GhRunner.Lib.Text
import GhRunner.Cache.Lookup
import GhRunner.Cache.IndexCrash
import Mathlib.Data.Finset.Sort

namespace GhRunner.Cache

open Saturating

/-!
# The v2 cache service of one job

The three RPCs and the blob endpoint (`crates/cache/src/twirp/handlers/` and `crates/cache/src/blob/`).

* `BlobRegistry` — the live URLs: a token stands for an upload or for a manifest to serve, until it
  expires;
* `CacheApp` — what the handlers of one job share, `CacheJob` — what the job may read and write;
* `createCacheEntry`, `putEntry`, `finalizeCacheEntryUpload`, `getCacheEntryDownloadUrl`,
  `getEntry` — the handlers;
* `takePendingUpload_cases`, `indexStaged_cases` — what the two halves of a finalize can do.

Tokens and staging names are fresh random numbers; here they are counted.
-/

/-- `std::time::Instant`, in nanoseconds. -/
abbrev Instant := ℕ

abbrev Token := ℕ

/-- A path in the staging directory: a UUID, or the number of a reservation. -/
inductive StagingPath
  | upload (uuid : ℕ)
  | reserved (id : U64)
deriving DecidableEq, Repr

/-- What the handlers rely on: the digest, the chunker and the two JSON formats. -/
structure Codec (Id : Type) where
  digest : Digest Id
  cut : Bytes → List Bytes
  flatten_cut : ∀ bytes, (cut bytes).flatten = bytes
  nonempty_cut : ∀ bytes, ∀ p ∈ cut bytes, p ≠ []
  manifestJson : Serde (Manifest Id)
  entryJson : IndexSerde Id
  entryIdFor : Id → U64

variable {Id : Type}

/-! ### The token registry -/

inductive BlobTarget (Id : Type)
  | upload (staging : StagingPath) (scope key version : String)
  | download (manifest : Manifest Id)

/-- One live token: its target and the instant it stops resolving. -/
structure BlobEntry (Id : Type) where
  target : BlobTarget Id
  expiry : Instant

structure BlobRegistry (Id : Type) where
  entries : Finmap fun _ : Token => BlobEntry Id
  /-- Every token minted so far is smaller. -/
  minted : Token

/-- Whether the entry is a live upload for these coordinates. -/
def BlobEntry.pendingFor (scope key version : String) (now : Instant) (e : BlobEntry Id) : Bool :=
  match e.target with
  | .upload _ s k v => decide (now < e.expiry ∧ s = scope ∧ k = key ∧ v = version)
  | .download _ => false

theorem BlobEntry.pendingFor_eq_true_iff {scope key version : String} {now : Instant}
    {e : BlobEntry Id} : e.pendingFor scope key version now = true ↔
      now < e.expiry ∧ ∃ staging, e.target = .upload staging scope key version := by
  obtain ⟨target, expiry⟩ := e
  cases target with
  | upload staging s k v =>
    simp only [pendingFor, decide_eq_true_eq, BlobTarget.upload.injEq]
    exact ⟨fun h => ⟨h.1, staging, rfl, h.2⟩, fun ⟨hlt, _, _, hcoords⟩ => ⟨hlt, hcoords⟩⟩
  | download m => simp [pendingFor]

/-- Of the live tokens, the one that the iteration of the map meets first.  It can be any of them:
    it is `first` if that is one. -/
def meetFirst (first : Token) (live : Finset Token) : Option Token :=
  if first ∈ live then some first else (live.sort (· ≤ ·)).head?

theorem mem_of_meetFirst {first token : Token} {live : Finset Token}
    (h : meetFirst first live = some token) : token ∈ live := by
  unfold meetFirst at h
  split at h
  case isTrue hfirst => exact Option.some.inj h ▸ hfirst
  case isFalse => exact (Finset.mem_sort (· ≤ ·)).mp (List.mem_of_mem_head? h)

theorem meetFirst_eq_none_iff {first : Token} {live : Finset Token} :
    meetFirst first live = none ↔ live = ∅ := by
  unfold meetFirst
  split
  case isTrue hfirst =>
    simp only [reduceCtorEq, false_iff]
    rintro rfl
    exact absurd hfirst (Finset.notMem_empty _)
  case isFalse =>
    rw [List.head?_eq_none_iff, List.eq_nil_iff_forall_not_mem, Finset.eq_empty_iff_forall_notMem]
    simp only [Finset.mem_sort]

namespace BlobRegistry

def empty : BlobRegistry Id := ⟨∅, 0⟩

/-- Store the target under a fresh token, which is returned. -/
def insert (r : BlobRegistry Id) (target : BlobTarget Id) (ttl : ℕ) (now : Instant) :
    Token × BlobRegistry Id :=
  (r.minted, ⟨r.entries.insert r.minted ⟨target, now + ttl⟩, r.minted + 1⟩)

def mintUpload (r : BlobRegistry Id) (staging : StagingPath) (scope key version : String) (ttl : ℕ)
    (now : Instant) : Token × BlobRegistry Id :=
  r.insert (.upload staging scope key version) ttl now

def mintDownload (r : BlobRegistry Id) (manifest : Manifest Id) (ttl : ℕ) (now : Instant) :
    Token × BlobRegistry Id :=
  r.insert (.download manifest) ttl now

/-- The target of a token that is there and has not expired. -/
def get (r : BlobRegistry Id) (token : Token) (now : Instant) : Option (BlobTarget Id) :=
  match r.entries.lookup token with
  | none => none
  | some e => if e.expiry ≤ now then none else some e.target

/-- A download token is good as soon as it is minted. -/
theorem get_mintDownload (r : BlobRegistry Id) (m : Manifest Id) {ttl : ℕ} (h : 0 < ttl)
    (now : Instant) :
    (r.mintDownload m ttl now).2.get (r.mintDownload m ttl now).1 now = some (.download m) := by
  have hlive : ¬ now + ttl ≤ now := Nat.not_le.mpr (Nat.lt_add_of_pos_right h)
  simp only [get, mintDownload, insert, Finmap.lookup_insert, if_neg hlive]

def pending (r : BlobRegistry Id) (scope key version : String) (now : Instant) : Finset Token :=
  r.entries.keys.filter fun token =>
    (r.entries.lookup token).any (BlobEntry.pendingFor scope key version now) = true

/-- Remove a live upload for these coordinates, the first that the iteration meets, and return its
    token and staging path. -/
def takePendingUpload (r : BlobRegistry Id) (first : Token) (scope key version : String)
    (now : Instant) : Option (Token × StagingPath) × BlobRegistry Id :=
  match meetFirst first (r.pending scope key version now) with
  | none => (none, r)
  | some token =>
    match r.entries.lookup token with
    | some ⟨.upload staging _ _ _, _⟩ => (some (token, staging), { r with entries := r.entries.erase token })
    | _ => (none, { r with entries := r.entries.erase token })

theorem mem_pending {r : BlobRegistry Id} {scope key version : String} {now : Instant}
    {token : Token} : token ∈ r.pending scope key version now ↔
      ∃ staging expiry, r.entries.lookup token =
        some ⟨.upload staging scope key version, expiry⟩ ∧ now < expiry := by
  rw [pending, Finset.mem_filter, Finmap.mem_keys, Finmap.mem_iff]
  constructor
  · rintro ⟨⟨e, he⟩, hpending⟩
    rw [he, Option.any_some, BlobEntry.pendingFor_eq_true_iff] at hpending
    obtain ⟨hlive, staging, htarget⟩ := hpending
    exact ⟨staging, e.expiry, by rw [he, ← htarget], hlive⟩
  · rintro ⟨staging, expiry, he, hlive⟩
    refine ⟨⟨_, he⟩, ?_⟩
    rw [he, Option.any_some, BlobEntry.pendingFor_eq_true_iff]
    exact ⟨hlive, staging, rfl⟩

/-- What is taken is a live upload for these coordinates; nothing is taken only if there is none. -/
theorem takePendingUpload_cases (r : BlobRegistry Id) (first : Token) (scope key version : String)
    (now : Instant) :
    (r.pending scope key version now = ∅ ∧
      r.takePendingUpload first scope key version now = (none, r)) ∨
    ∃ token ∈ r.pending scope key version now, ∃ staging expiry,
      r.entries.lookup token = some ⟨.upload staging scope key version, expiry⟩ ∧ now < expiry ∧
      r.takePendingUpload first scope key version now =
        (some (token, staging), { r with entries := r.entries.erase token }) := by
  cases hmeet : meetFirst first (r.pending scope key version now) with
  | none =>
    refine .inl ⟨meetFirst_eq_none_iff.mp hmeet, ?_⟩
    simp only [takePendingUpload, hmeet]
  | some token =>
    have hmem := mem_of_meetFirst hmeet
    obtain ⟨staging, expiry, he, hlive⟩ := mem_pending.mp hmem
    refine .inr ⟨token, hmem, staging, expiry, he, hlive, ?_⟩
    simp only [takePendingUpload, hmeet, he]

end BlobRegistry

/-! ### The server of one job -/

/-- What the job may write and read. -/
structure CacheJob where
  scopes : CacheScopes
  trust : TrustLevel
  protectedBranches : List String

/-- One v1 upload that has not been finalized. -/
structure Reservation where
  key : String
  version : String
  staging : StagingPath

/-- What the handlers of one job share: the cache on disk, the registries of the two protocols, the
    staging directory and the clock. -/
structure CacheApp (Id : Type) where
  store : CasStore Id
  index : CacheIndex
  registry : BlobRegistry Id
  staged : Finmap fun _ : StagingPath => Bytes
  /-- The blocks of each staged object, by their ids. -/
  blocks : Finmap fun _ : StagingPath × String => Bytes
  /-- Every staging name drawn so far is smaller. -/
  uuids : ℕ
  reservations : Finmap fun _ : U64 => Reservation
  downloads : Finmap fun _ : Token => Manifest Id
  /-- Every v1 download token minted so far is smaller. -/
  downloadTokens : Token
  nextId : U64
  clock : Instant

/-- The server as it starts, on the cache that there is. -/
def CacheApp.start (store : CasStore Id) (index : CacheIndex) : CacheApp Id :=
  ⟨store, index, .empty, ∅, ∅, 0, ∅, ∅, 0, 1, 0⟩

def uploadTtl : ℕ := 3600 * 10 ^ 9

def downloadTtl : ℕ := 3600 * 10 ^ 9

variable [DecidableEq Id] (C : Codec Id) (job : CacheJob)

/-! ### Creating -/

structure CreateRequest where
  key : String
  version : String
deriving DecidableEq

/-- A URL is written as its token. -/
structure CreateResponse where
  ok : Bool
  signedUploadUrl : Option Token
  message : Option String
deriving DecidableEq

def CreateResponse.okUpload (url : Token) : CreateResponse := ⟨true, some url, none⟩

def CreateResponse.refused (message : String) : CreateResponse := ⟨false, none, some message⟩

namespace CacheApp

/-- Whether the job's own scope has an entry with exactly this version and key. -/
def entryExists (s : CacheApp Id) (req : CreateRequest) : Bool :=
  (s.index.lookup C.entryJson.toLineSerde [job.scopes.write] req.version req.key []).isSome

/-- Mint an upload token that stages to a fresh path. -/
def mint (s : CacheApp Id) (req : CreateRequest) : CreateResponse × CacheApp Id :=
  let (token, registry) := s.registry.mintUpload (.upload s.uuids) job.scopes.write req.key
    req.version uploadTtl s.clock
  (.okUpload token, { s with registry, uuids := s.uuids + 1 })

/-- Denied, duplicate, or a fresh URL. -/
def createCacheEntry (s : CacheApp Id) (req : CreateRequest) : CreateResponse × CacheApp Id :=
  if writeAllowed job.scopes.write job.trust job.protectedBranches = false then
    (.refused ("cache write denied: branch '" ++ job.scopes.write ++
      "' may not write a protected scope"), s)
  else if s.entryExists C job req then (.refused "cache entry already exists", s)
  else s.mint job req

end CacheApp

/-! ### Uploading -/

/-- What a PUT on a blob URL asks for, by its query, headers and body. -/
inductive PutOp
  | block (blockId : Option String) (body : Bytes)
  /-- The ids of the list, or why its XML is refused. -/
  | blockList (ids : Except RunnerError (List String))
  | blob (isBlockBlob : Bool) (body : Bytes)
  | unsupported (comp : String)

inductive PutStatus
  | created
  | forbidden
  | failed (e : RunnerError)
deriving DecidableEq

/-- The loop of `assemble`, `out` being what it has written. -/
def copyBlocks (blocks : Finmap fun _ : StagingPath × String => Bytes) (staging : StagingPath) :
    List String → Bytes → Except RunnerError Unit × Bytes
  | [], out => (.ok (), out)
  | id :: ids, out =>
    match blocks.lookup (staging, id) with
    | none => (.error .io, out)
    | some block => copyBlocks blocks staging ids (out ++ block)

namespace CacheApp

/-- The blocks are concatenated into the staged object, which a missing one leaves cut short, and
    then dropped. -/
def assemble (s : CacheApp Id) (staging : StagingPath) (ids : List String) :
    PutStatus × CacheApp Id :=
  let (result, out) := copyBlocks s.blocks staging ids []
  let staged := s.staged.insert staging out
  match result with
  | .error e => (.failed e, { s with staged })
  | .ok () => (.created, { s with staged, blocks := s.blocks.retain fun p _ => p.1 ≠ staging })

/-- The part of `put_dispatch` behind the token. -/
def putStaged (s : CacheApp Id) (staging : StagingPath) : PutOp → PutStatus × CacheApp Id
  | .block none _ => (.failed (.cache "put block missing blockid"), s)
  | .block (some id) body => (.created, { s with blocks := s.blocks.insert (staging, id) body })
  | .blockList (.error e) => (.failed e, s)
  | .blockList (.ok ids) => s.assemble staging ids
  | .unsupported comp => (.failed (.cache ("unsupported comp=" ++ comp)), s)
  | .blob true body => (.created, { s with staged := s.staged.insert staging body })
  | .blob false _ =>
    (.failed (.cache "PUT without comp requires x-ms-blob-type: BlockBlob"), s)

omit [DecidableEq Id] in
/-- A PUT touches the staged object and its blocks only. -/
theorem putStaged_cases (s : CacheApp Id) (staging : StagingPath) (op : PutOp) :
    ∃ staged blocks, (staged = s.staged ∨ ∃ out, staged = s.staged.insert staging out) ∧
      (s.putStaged staging op).2 = { s with staged, blocks } := by
  unfold putStaged
  split
  case h_4 ids =>
    unfold assemble
    rcases copyBlocks s.blocks staging ids [] with ⟨e | ⟨⟩, out⟩
    · exact ⟨_, _, .inr ⟨out, rfl⟩, rfl⟩
    · exact ⟨_, _, .inr ⟨out, rfl⟩, rfl⟩
  case h_6 body => exact ⟨_, _, .inr ⟨body, rfl⟩, rfl⟩
  all_goals exact ⟨_, _, .inl rfl, rfl⟩

/-- Resolve the token, then put the block, the block list or the blob. -/
def putEntry (s : CacheApp Id) (token : Token) (op : PutOp) : PutStatus × CacheApp Id :=
  match s.registry.get token s.clock with
  | some (.upload staging _ _ _) => s.putStaged staging op
  | _ => (.forbidden, s)

end CacheApp

/-! ### Finalizing -/

/-- The digits of `u64::from_str` still to come. -/
def parseDigits : List Char → ℕ → Except String U64
  | [], n => .ok (BitVec.ofNat 64 n)
  | c :: rest, n =>
    if c.isDigit = false then .error "invalid digit found in string"
    else if 2 ^ 64 ≤ n * 10 + (c.toNat - '0'.toNat) then
      .error "number too large to fit in target type"
    else parseDigits rest (n * 10 + (c.toNat - '0'.toNat))

/-- `str::parse::<u64>`. -/
def parseU64 (text : Text.Str) : Except String U64 :=
  match text with
  | [] => .error "cannot parse integer from empty string"
  | ['+'] => .error "invalid digit found in string"
  | '+' :: digits => parseDigits digits 0
  | digits => parseDigits digits 0

namespace CacheApp

/-- `CasStore::ingest` of a staged file, which is then removed. -/
def ingestStaged (s : CacheApp Id) (staging : StagingPath) :
    Except RunnerError (Manifest Id) × CacheApp Id :=
  match s.staged.lookup staging with
  | none => (.error .io, s)
  | some bytes =>
    match s.store.ingest C.digest (C.cut bytes) with
    | (.error e, store) => (.error e, { s with store })
    | (.ok m, store) => (.ok m, { s with store, staged := s.staged.erase staging })

/-- Store the manifest and append an entry for it in the job's own scope. -/
def storeAndInsert (s : CacheApp Id) (key version : String) (size : U64) (m : Manifest Id)
    (now : DateTime) : Id × CacheApp Id :=
  let (mid, store) := s.store.putManifest C.digest C.manifestJson m
  let entry : IndexEntry Id := ⟨key, mid, size, now⟩
  (mid, { s with
    store
    index := s.index.insert C.entryJson.toLineSerde job.scopes.write version entry })

/-- Ingest the staged bytes and index them: what both protocols finalize with.  A size that does not
    match is not indexed. -/
def indexStaged (s : CacheApp Id) (staging : StagingPath) (key version : String) (size : U64)
    (now : DateTime) : Except RunnerError (Option Id) × CacheApp Id :=
  match s.ingestStaged C staging with
  | (.error e, s) => (.error e, s)
  | (.ok m, s) =>
    if m.totalSize ≠ size then (.ok none, s)
    else
      let (mid, s) := s.storeAndInsert C job key version size m now
      (.ok (some mid), s)

/-- An ingest touches the store and the staging directory, and succeeds with the manifest that the
    store made of the staged bytes. -/
theorem ingestStaged_cases (s : CacheApp Id) (staging : StagingPath) :
    (∃ e store, s.ingestStaged C staging = (.error e, { s with store })) ∨
    ∃ bytes m store, s.staged.lookup staging = some bytes ∧
      s.store.ingest C.digest (C.cut bytes) = (.ok m, store) ∧
      s.ingestStaged C staging =
        (.ok m, { s with store, staged := s.staged.erase staging }) := by
  unfold ingestStaged
  cases hstaged : s.staged.lookup staging with
  | none => exact .inl ⟨.io, s.store, rfl⟩
  | some bytes =>
    rcases hingest : s.store.ingest C.digest (C.cut bytes) with ⟨e | m, store⟩
    · exact .inl ⟨e, store, by simp only [hingest]⟩
    · exact .inr ⟨bytes, m, store, rfl, hingest, by simp only [hingest]⟩

/-- Either nothing is indexed, or one entry is, in the job's own scope, for the manifest of the staged
    bytes, whose size is the one asked for. -/
theorem indexStaged_cases (s : CacheApp Id) (staging : StagingPath) (key version : String)
    (size : U64) (now : DateTime) :
    (∃ r store staged, (∀ mid, r ≠ .ok (some mid)) ∧
      s.indexStaged C job staging key version size now = (r, { s with store, staged })) ∨
    ∃ bytes m store, s.staged.lookup staging = some bytes ∧
      s.store.ingest C.digest (C.cut bytes) = (.ok m, store) ∧ m.totalSize = size ∧
      let mid := C.digest.hash (C.manifestJson.toVec m)
      s.indexStaged C job staging key version size now = (.ok (some mid), { s with
        store := (store.putManifest C.digest C.manifestJson m).2
        staged := s.staged.erase staging
        index := s.index.insert C.entryJson.toLineSerde job.scopes.write version
          ⟨key, mid, size, now⟩ }) := by
  unfold indexStaged
  rcases s.ingestStaged_cases C staging with
    ⟨e, store, heq⟩ | ⟨bytes, m, store, hstaged, hingest, heq⟩
  · exact .inl ⟨.error e, store, s.staged, fun _ => nofun, by rw [heq]⟩
  · by_cases hsize : m.totalSize = size
    · refine .inr ⟨bytes, m, store, hstaged, hingest, hsize, ?_⟩
      simp only [heq, ne_eq, hsize, not_true_eq_false, if_false]
      rfl
    · refine .inl ⟨.ok none, store, s.staged.erase staging, fun _ => nofun, ?_⟩
      simp only [heq, ne_eq, hsize, not_false_eq_true, if_true]

end CacheApp

namespace Twirp

structure FinalizeRequest where
  key : String
  sizeBytes : String
  version : String
deriving DecidableEq

structure FinalizeResponse where
  ok : Bool
  entryId : Option U64
deriving DecidableEq

def FinalizeResponse.failed : FinalizeResponse := ⟨false, none⟩

end Twirp

namespace CacheApp

/-- `Ok(None)` rejects.  Of several pending uploads for the coordinates, `first` says which one the
    registry meets first. -/
def finalize (s : CacheApp Id) (req : Twirp.FinalizeRequest) (first : Token) (now : DateTime) :
    Except RunnerError (Option Id) × CacheApp Id :=
  match parseU64 req.sizeBytes.toList with
  | .error e => (.error (.cache ("bad size_bytes: " ++ e)), s)
  | .ok size =>
    match s.registry.takePendingUpload first job.scopes.write req.key req.version s.clock with
    | (none, _) => (.ok none, s)
    | (some (_, staging), registry) =>
      { s with registry }.indexStaged C job staging req.key req.version size now

def finalizeCacheEntryUpload (s : CacheApp Id) (req : Twirp.FinalizeRequest) (first : Token)
    (now : DateTime) : Twirp.FinalizeResponse × CacheApp Id :=
  match s.finalize C job req first now with
  | (.ok (some mid), s) => (⟨true, some (C.entryIdFor mid)⟩, s)
  | (_, s) => (.failed, s)

theorem finalizeCacheEntryUpload_snd (s : CacheApp Id) (req : Twirp.FinalizeRequest) (first : Token)
    (now : DateTime) : (s.finalizeCacheEntryUpload C job req first now).2 =
      (s.finalize C job req first now).2 := by
  unfold finalizeCacheEntryUpload
  split
  case h_1 heq => rw [heq]
  case h_2 heq => rw [heq]

end CacheApp

/-! ### Downloading -/

structure DownloadRequest where
  key : String
  restoreKeys : List String
  version : String
deriving DecidableEq

/-- A URL is written as its token. -/
structure DownloadResponse where
  ok : Bool
  signedDownloadUrl : Option Token
  matchedKey : Option String
deriving DecidableEq

def DownloadResponse.hit (url : Token) (matchedKey : String) : DownloadResponse :=
  ⟨true, some url, some matchedKey⟩

def DownloadResponse.miss : DownloadResponse := ⟨false, none, none⟩

def CasStore.allChunksPresent (s : CasStore Id) (m : Manifest Id) : Bool :=
  m.chunks.all fun chunk => chunk.id ∈ s.blobs

namespace CacheApp

/-- The matched key and the manifest of what a lookup can serve: an entry whose manifest loads and
    whose chunks are all there. -/
def resolveEntry (s : CacheApp Id) (version key : String) (restoreKeys : List String) :
    Option (String × Manifest Id) :=
  match s.index.lookup C.entryJson.toLineSerde job.scopes.readLadder version key restoreKeys with
  | none => none
  | some (matchedKey, entry) =>
    match s.store.getManifest C.digest C.manifestJson entry.manifest with
    | .error _ => none
    | .ok m => if s.store.allChunksPresent m then some (matchedKey, m) else none

/-- What a lookup serves is an entry of a scope of the ladder, with its own key and manifest, and all
    of its chunk files are there. -/
theorem resolveEntry_eq_some_iff {s : CacheApp Id} {version key matchedKey : String}
    {restoreKeys : List String} {m : Manifest Id} :
    s.resolveEntry C job version key restoreKeys = some (matchedKey, m) ↔
      ∃ e, s.index.lookup C.entryJson.toLineSerde job.scopes.readLadder version key restoreKeys =
          some (matchedKey, e) ∧
        s.store.getManifest C.digest C.manifestJson e.manifest = .ok m ∧
        s.store.allChunksPresent m = true := by
  unfold resolveEntry
  rcases s.index.lookup C.entryJson.toLineSerde job.scopes.readLadder version key restoreKeys with
    _ | ⟨k, e⟩
  · simp
  · rcases hm : s.store.getManifest C.digest C.manifestJson e.manifest with err | m'
    · simp [hm]
    · by_cases hall : s.store.allChunksPresent m' = true
      · simp [hm, hall]
        grind
      · simp [hm, hall]
        grind

def getCacheEntryDownloadUrl (s : CacheApp Id) (req : DownloadRequest) :
    DownloadResponse × CacheApp Id :=
  match s.resolveEntry C job req.version req.key req.restoreKeys with
  | none => (.miss, s)
  | some (matchedKey, m) =>
    let (token, registry) := s.registry.mintDownload m downloadTtl s.clock
    (.hit token matchedKey, { s with registry })

/-- The items of the body of a GET without a range, if the token is good for one.  No cold tier is
    attached to the store of a job. -/
def getEntry (s : CacheApp Id) (token : Token) :
    Option (List (Except RunnerError Bytes)) × CacheApp Id :=
  match s.registry.get token s.clock with
  | some (.download m) =>
    let (items, store) := s.store.readRange C.digest none m 0 m.totalSize
    (some items, { s with store })
  | _ => (none, s)

end CacheApp

/-! ### A codec and a job to try the handlers with -/

/-- Chunks of two bytes. -/
def cutPairs : Bytes → List Bytes
  | [] => []
  | [b] => [[b]]
  | b :: c :: rest => [b, c] :: cutPairs rest

theorem flatten_cutPairs (bytes : Bytes) : (cutPairs bytes).flatten = bytes := by
  induction bytes using cutPairs.induct with
  | case1 => rfl
  | case2 b => rfl
  | case3 b c rest ih => rw [cutPairs, List.flatten_cons, ih]; rfl

theorem ne_nil_of_mem_cutPairs (bytes : Bytes) : ∀ p ∈ cutPairs bytes, p ≠ [] := by
  induction bytes using cutPairs.induct with
  | case1 => simp [cutPairs]
  | case2 b => simp [cutPairs]
  | case3 b c rest ih => simpa [cutPairs] using ih

def sampleCodec : Codec Bytes where
  digest := contentDigest
  cut := cutPairs
  flatten_cut := flatten_cutPairs
  nonempty_cut := ne_nil_of_mem_cutPairs
  manifestJson := sampleJson
  entryJson := sampleIndex
  entryIdFor id :=
    if id.length < 8 then 0
    else BitVec.ofNat 64 ((id.take 8).foldl (fun (n : ℕ) b => n * 256 + b.toNat) 0 % 2 ^ 53)

/-- A pull request from the branch `feature` of a repository that protects `main`. -/
def sampleJob : CacheJob where
  scopes := scopesForJob (some "feature") (some "main") ["main"]
  trust := classifyTrust "pull_request" "feature" ["main"]
  protectedBranches := ["main"]

end GhRunner.Cache
