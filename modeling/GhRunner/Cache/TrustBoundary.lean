import GhRunner.Cache.V1

namespace GhRunner.Cache

open Machine

/-!
# What an untrusted job can do to the cache

All requests of both protocols, in any order, with the rest of the machine working on the same cache.

* `Request`, `Reply`, `CacheApp.handle` — one request and its answer;
* `AppEvent`, `CacheApp.step` — a request, other jobs and the collector changing the cache, time
  passing;
* `Guarded` — the invariant: an upload is pending only in the job's own scope and only if the job may
  write it;
* `untrusted_confined` — an untrusted job adds entries to its own scope only, to a protected one
  never, and reads only from its ladder.
-/

/-! ### Requests -/

inductive Request
  | create (req : CreateRequest)
  | put (token : Token) (op : PutOp)
  | finalize (req : Twirp.FinalizeRequest) (first : Token) (now : DateTime)
  | downloadUrl (req : DownloadRequest)
  | get (token : Token)
  | v1Lookup (keys version : String)
  | v1Reserve (key version : String)
  | v1Upload (contentRange : Option Text.Str) (cacheId : U64) (body : Bytes)
  | v1Finalize (cacheId size : U64) (now : DateTime)

inductive Reply
  | create (response : CreateResponse)
  | put (status : PutStatus)
  | finalize (response : Twirp.FinalizeResponse)
  | download (response : DownloadResponse)
  | blob (items : Option (List (Except RunnerError Bytes)))
  | v1 (reply : V1Reply)

inductive AppEvent (Id : Type)
  | request (r : Request)
  /-- What other jobs, the collector and crashes leave of the cache. -/
  | others (store : CasStore Id) (index : CacheIndex)
  | tick (elapsed : ℕ)

variable {Id : Type} [DecidableEq Id] (C : Codec Id) (job : CacheJob)

namespace CacheApp

def handle (s : CacheApp Id) : Request → Reply × CacheApp Id
  | .create req => (s.createCacheEntry C job req).map .create id
  | .put token op => (s.putEntry token op).map .put id
  | .finalize req first now => (s.finalizeCacheEntryUpload C job req first now).map .finalize id
  | .downloadUrl req => (s.getCacheEntryDownloadUrl C job req).map .download id
  | .get token => (s.getEntry C token).map .blob id
  | .v1Lookup keys version => (V1.lookup C job s keys version).map .v1 id
  | .v1Reserve key version => (V1.reserve job s key version).map .v1 id
  | .v1Upload contentRange cacheId body => (V1.uploadChunk s contentRange cacheId body).map .v1 id
  | .v1Finalize cacheId size now => (V1.finalize C job s cacheId size now).map .v1 id

def step (s : CacheApp Id) : AppEvent Id → CacheApp Id
  | .request r => (s.handle C job r).2
  | .others store index => { s with store, index }
  | .tick elapsed => { s with clock := s.clock + elapsed }

end CacheApp

/-! ### What the two protocols can do to the index -/

/-- The index is as before, or the job may write its own scope and has one more entry in it. -/
def AddsOwn (before after : CacheIndex) : Prop :=
  after = before ∨
    writeAllowed job.scopes.write job.trust job.protectedBranches = true ∧
      ∃ version entry,
        after = before.insert C.entryJson.toLineSerde job.scopes.write version entry

/-- Every pending upload is for the job's own scope, and the job may write it. -/
def Guarded (s : CacheApp Id) : Prop :=
  ∀ token staging scope key version expiry,
    s.registry.entries.lookup token = some ⟨.upload staging scope key version, expiry⟩ →
      scope = job.scopes.write ∧
        writeAllowed job.scopes.write job.trust job.protectedBranches = true

variable {C job} {s : CacheApp Id}

namespace Guarded

omit [DecidableEq Id] in
theorem start (store : CasStore Id) (index : CacheIndex) :
    Guarded job (CacheApp.start store index) := by
  intro token staging scope key version expiry h
  rw [show (CacheApp.start store index).registry.entries = ∅ from rfl, Finmap.lookup_empty] at h
  cases h

omit [DecidableEq Id] in
/-- Only the registry matters. -/
theorem congr {s' : CacheApp Id} (h : Guarded job s) (heq : s'.registry = s.registry) :
    Guarded job s' := by
  unfold Guarded
  rw [heq]
  exact h

omit [DecidableEq Id] in
/-- A download token says nothing about uploads. -/
theorem mintDownload (h : Guarded job s) (m : Manifest Id) (ttl : ℕ) (now : Instant) :
    Guarded job { s with registry := (s.registry.mintDownload m ttl now).2 } := by
  intro token staging scope key version expiry hlookup
  by_cases htoken : token = s.registry.minted
  · subst htoken
    simp [BlobRegistry.mintDownload, BlobRegistry.insert] at hlookup
  · simp only [BlobRegistry.mintDownload, BlobRegistry.insert,
      Finmap.lookup_insert_of_ne _ htoken] at hlookup
    exact h _ _ _ _ _ _ hlookup

omit [DecidableEq Id] in
/-- A URL is minted for the job's own scope. -/
theorem mint (h : Guarded job s)
    (hwrite : writeAllowed job.scopes.write job.trust job.protectedBranches = true)
    (req : CreateRequest) : Guarded job (s.mint job req).2 := by
  intro token staging scope key version expiry hlookup
  by_cases htoken : token = s.registry.minted
  · subst htoken
    simp only [CacheApp.mint, BlobRegistry.mintUpload, BlobRegistry.insert, Finmap.lookup_insert,
      Option.some.injEq, BlobEntry.mk.injEq, BlobTarget.upload.injEq] at hlookup
    exact ⟨hlookup.1.2.1.symm, hwrite⟩
  · simp only [CacheApp.mint, BlobRegistry.mintUpload, BlobRegistry.insert,
      Finmap.lookup_insert_of_ne _ htoken] at hlookup
    exact h _ _ _ _ _ _ hlookup

omit [DecidableEq Id] in
theorem erase (h : Guarded job s) (token : Token) :
    Guarded job { s with registry.entries := s.registry.entries.erase token } := by
  intro t staging scope key version expiry hlookup
  by_cases htoken : t = token
  · subst htoken
    simp at hlookup
  · simp only [Finmap.lookup_erase_ne htoken] at hlookup
    exact h _ _ _ _ _ _ hlookup

end Guarded

/-! ### One request -/

namespace CacheApp

/-- What a request keeps, and what it may do. -/
def Respects (C : Codec Id) (job : CacheJob) (s s' : CacheApp Id) : Prop :=
  AddsOwn C job s.index s'.index ∧ Guarded job s'

omit [DecidableEq Id] in
theorem createCacheEntry_respects (h : Guarded job s) (req : CreateRequest) :
    Respects C job s (s.createCacheEntry C job req).2 := by
  unfold createCacheEntry
  split
  case isTrue => exact ⟨.inl rfl, h⟩
  case isFalse hwrite =>
    split
    case isTrue => exact ⟨.inl rfl, h⟩
    case isFalse => exact ⟨.inl rfl, h.mint (Bool.not_eq_false _ ▸ hwrite) req⟩

omit [DecidableEq Id] in
/-- An upload touches the staging directory only. -/
theorem putEntry_frame (s : CacheApp Id) (token : Token) (op : PutOp) :
    ∃ staged blocks, (s.putEntry token op).2 = { s with staged, blocks } := by
  unfold putEntry
  split
  case h_1 staging _ _ _ _ =>
    obtain ⟨staged, blocks, -, heq⟩ := s.putStaged_cases staging op
    exact ⟨staged, blocks, heq⟩
  case h_2 => exact ⟨_, _, rfl⟩

/-- What is indexed goes to the job's own scope. -/
theorem indexStaged_respects (h : Guarded job s)
    (hwrite : writeAllowed job.scopes.write job.trust job.protectedBranches = true)
    (staging : StagingPath) (key version : String) (size : U64) (now : DateTime) :
    Respects C job s (s.indexStaged C job staging key version size now).2 := by
  rcases s.indexStaged_cases C job staging key version size now with
    ⟨r, store, staged, -, heq⟩ | ⟨bytes, m, store, -, -, -, heq⟩
  · rw [heq]
    exact ⟨.inl rfl, h.congr rfl⟩
  · simp only at heq
    rw [heq]
    exact ⟨.inr ⟨hwrite, version, _, rfl⟩, h.congr rfl⟩

/-- A v2 finalize does not ask whether the job may write: that it finds a pending upload says so. -/
theorem finalizeCacheEntryUpload_respects (h : Guarded job s) (req : Twirp.FinalizeRequest)
    (first : Token) (now : DateTime) :
    Respects C job s (s.finalizeCacheEntryUpload C job req first now).2 := by
  rw [finalizeCacheEntryUpload_snd]
  unfold finalize
  split
  case h_1 => exact ⟨.inl rfl, h⟩
  case h_2 size _ =>
    rcases s.registry.takePendingUpload_cases first job.scopes.write req.key req.version s.clock with
      ⟨-, heq⟩ | ⟨token, -, staging, expiry, hlookup, -, heq⟩
    · simp only [heq]
      exact ⟨.inl rfl, h⟩
    · simp only [heq]
      obtain ⟨-, hwrite⟩ := h _ _ _ _ _ _ hlookup
      exact indexStaged_respects (h.erase token) hwrite staging req.key req.version size now

theorem getCacheEntryDownloadUrl_respects (h : Guarded job s) (req : DownloadRequest) :
    Respects C job s (s.getCacheEntryDownloadUrl C job req).2 := by
  unfold getCacheEntryDownloadUrl
  split
  case h_1 => exact ⟨.inl rfl, h⟩
  case h_2 matchedKey m _ => exact ⟨.inl rfl, h.mintDownload m downloadTtl s.clock⟩

theorem v1Finalize_respects (h : Guarded job s) (cacheId size : U64) (now : DateTime) :
    Respects C job s (V1.finalize C job s cacheId size now).2 := by
  unfold V1.finalize
  split
  case isTrue => exact ⟨.inl rfl, h⟩
  case isFalse hwrite =>
    have hstate : Respects C job s (V1.doFinalize C job s cacheId size now).2 := by
      unfold V1.doFinalize
      split
      case h_1 => exact ⟨.inl rfl, h⟩
      case h_2 reservation _ =>
        have herased : Guarded job { s with reservations := s.reservations.erase cacheId } := h.congr rfl
        exact indexStaged_respects herased (Bool.not_eq_false _ ▸ hwrite) reservation.staging
          reservation.key reservation.version size now
    split
    all_goals
      rename_i heq
      rw [heq] at hstate
      exact hstate

/-- One request of either protocol. -/
theorem handle_respects (h : Guarded job s) (r : Request) :
    Respects C job s (s.handle C job r).2 := by
  cases r with
  | create req => exact createCacheEntry_respects h req
  | put token op =>
    obtain ⟨staged, blocks, heq⟩ := s.putEntry_frame token op
    show Respects C job s (s.putEntry token op).2
    rw [heq]
    exact ⟨.inl rfl, h.congr rfl⟩
  | finalize req first now => exact finalizeCacheEntryUpload_respects h req first now
  | downloadUrl req => exact getCacheEntryDownloadUrl_respects h req
  | get token =>
    show Respects C job s (s.getEntry C token).2
    unfold getEntry
    split
    · exact ⟨.inl rfl, h.congr rfl⟩
    · exact ⟨.inl rfl, h⟩
  | v1Lookup keys version =>
    show Respects C job s (V1.lookup C job s keys version).2
    unfold V1.lookup
    split
    · exact ⟨.inl rfl, h⟩
    · split
      · exact ⟨.inl rfl, h⟩
      · exact ⟨.inl rfl, h.congr rfl⟩
  | v1Reserve key version =>
    show Respects C job s (V1.reserve job s key version).2
    unfold V1.reserve
    split
    · exact ⟨.inl rfl, h⟩
    · exact ⟨.inl rfl, h.congr rfl⟩
  | v1Upload contentRange cacheId body =>
    show Respects C job s (V1.uploadChunk s contentRange cacheId body).2
    unfold V1.uploadChunk V1.writeChunk
    split
    · exact ⟨.inl rfl, h⟩
    · split
      all_goals
        rename_i heq
        split at heq
        all_goals
          obtain ⟨-, rfl⟩ := Prod.mk.inj heq
          exact ⟨.inl rfl, h.congr rfl⟩
  | v1Finalize cacheId size now => exact v1Finalize_respects h cacheId size now

end CacheApp

/-! ### What a lookup hands out -/

/-- The manifest is that of an entry under the key in a scope of the job's ladder. -/
def OnLadder (C : Codec Id) (job : CacheJob) (s : CacheApp Id) (version matchedKey : String)
    (m : Manifest Id) : Prop :=
  ∃ scope ∈ job.scopes.readLadder,
    ∃ e ∈ s.index.entries C.entryJson.toLineSerde (scope, version), e.key = matchedKey ∧
      s.store.getManifest C.digest C.manifestJson e.manifest = .ok m

namespace CacheApp

theorem onLadder_of_resolveEntry {version key matchedKey : String} {restoreKeys : List String}
    {m : Manifest Id} (h : s.resolveEntry C job version key restoreKeys = some (matchedKey, m)) :
    OnLadder C job s version matchedKey m := by
  obtain ⟨e, hlookup, hm, -⟩ := (s.resolveEntry_eq_some_iff C job).mp h
  obtain ⟨rfl, scope, hscope, he⟩ := CacheIndex.mem_of_lookup hlookup
  exact ⟨scope, hscope, e, he, rfl, hm⟩

theorem getCacheEntryDownloadUrl_onLadder {req : DownloadRequest} {token : Token}
    (h : (s.getCacheEntryDownloadUrl C job req).1.signedDownloadUrl = some token) :
    let (response, s') := s.getCacheEntryDownloadUrl C job req
    ∃ matchedKey m, response.matchedKey = some matchedKey ∧
      s'.registry.get token s'.clock = some (.download m) ∧
      OnLadder C job s req.version matchedKey m := by
  unfold getCacheEntryDownloadUrl at h ⊢
  cases hresolve : s.resolveEntry C job req.version req.key req.restoreKeys with
  | none =>
    simp only [hresolve] at h
    cases h
  | some hit =>
    obtain ⟨matchedKey, m⟩ := hit
    simp only [hresolve] at h ⊢
    obtain rfl := Option.some.inj h
    exact ⟨matchedKey, m, rfl, s.registry.get_mintDownload m (by decide) s.clock,
      onLadder_of_resolveEntry hresolve⟩

theorem v1Lookup_onLadder {keys version cacheKey scope : String} {token : Token}
    (h : (V1.lookup C job s keys version).1 = .hit cacheKey scope token) :
    ∃ m, (V1.lookup C job s keys version).2.downloads.lookup token = some m ∧
      OnLadder C job s version cacheKey m := by
  unfold V1.lookup at h ⊢
  cases hkeys : splitKeys keys.toList with
  | nil =>
    simp only [hkeys] at h
    cases h
  | cons primary restore =>
    cases hresolve : s.resolveEntry C job version primary restore with
    | none =>
      simp only [hkeys, hresolve] at h
      cases h
    | some hit =>
      obtain ⟨matched, m⟩ := hit
      simp only [hkeys, hresolve] at h ⊢
      obtain ⟨rfl, -, rfl⟩ := V1Reply.hit.inj h
      exact ⟨m, Finmap.lookup_insert _, onLadder_of_resolveEntry hresolve⟩

end CacheApp

/-! ### The boundary -/

/-- One request of a job that stays within its bounds. -/
structure Confined (C : Codec Id) (job : CacheJob) (s : CacheApp Id) (r : Request) : Prop where
  /-- An entry is added to the job's own scope, or none is. -/
  own_scope : (s.handle C job r).2.index = s.index ∨ ∃ version entry,
    (s.handle C job r).2.index =
      s.index.insert C.entryJson.toLineSerde job.scopes.write version entry
  /-- No log of a protected scope is touched. -/
  protected_kept : ∀ k : LogKey, isProtected k.1 job.protectedBranches = true →
    (s.handle C job r).2.index.logs.lookup k = s.index.logs.lookup k
  /-- A v2 hit is for an entry of a scope of the ladder: its key, and its manifest to download. -/
  download_on_ladder : ∀ req token, r = .downloadUrl req →
    (s.getCacheEntryDownloadUrl C job req).1.signedDownloadUrl = some token →
    let (response, s') := s.getCacheEntryDownloadUrl C job req
    ∃ matchedKey m, response.matchedKey = some matchedKey ∧
      s'.registry.get token s'.clock = some (.download m) ∧
      OnLadder C job s req.version matchedKey m
  /-- And so is a v1 hit. -/
  lookup_on_ladder : ∀ keys version cacheKey scope token, r = .v1Lookup keys version →
    (V1.lookup C job s keys version).1 = .hit cacheKey scope token →
    ∃ m, (V1.lookup C job s keys version).2.downloads.lookup token = some m ∧
      OnLadder C job s version cacheKey m

theorem confined_of_guarded (htrust : job.trust = .untrusted) (h : Guarded job s) (r : Request) :
    Confined C job s r := by
  have hadds : AddsOwn C job s.index (s.handle C job r).2.index := (CacheApp.handle_respects h r).1
  refine ⟨hadds.imp_right (·.2), ?_, fun _ _ _ => CacheApp.getCacheEntryDownloadUrl_onLadder,
    fun _ _ _ _ _ _ => CacheApp.v1Lookup_onLadder⟩
  intro k hk
  rcases hadds with heq | ⟨hwrite, version, entry, heq⟩
  · rw [heq]
  · rw [htrust] at hwrite
    have hown := not_protected_of_writeAllowed hwrite
    -- the log that grows is in a scope that is not protected
    have hne : k ≠ (job.scopes.write, version) := by
      rintro rfl
      exact absurd (hk.symm.trans hown) (by decide)
    rw [heq, CacheIndex.insert, Finmap.lookup_insert_of_ne _ hne]

theorem Guarded.step (h : Guarded job s) (e : AppEvent Id) : Guarded job (s.step C job e) := by
  cases e with
  | request r => exact (CacheApp.handle_respects h r).2
  | others store index => exact h.congr rfl
  | tick elapsed => exact h.congr rfl

/-- **The trust boundary.**  Whatever the cache holds when the server of an untrusted job starts, and
    whatever other jobs and the collector make of it while the server runs: every request, of either
    protocol and in any order, leaves the logs of protected scopes alone, adds an entry to the job's
    own scope or to none, and hands out only what an entry of a scope on the job's ladder points at. -/
theorem untrusted_confined (C : Codec Id) {job : CacheJob} (htrust : job.trust = .untrusted)
    (store : CasStore Id) (index : CacheIndex) (es : List (AppEvent Id)) :
    Throughout (CacheApp.step C job) (fun s e => ∀ r, e = .request r → Confined C job s r)
      (CacheApp.start store index) es := by
  have hkeeps : ∀ s e, Guarded job s → True → Guarded job (CacheApp.step C job s e) :=
    fun s e h _ => h.step e
  refine throughout_of_invariant hkeeps (fun s e h _ r _ => confined_of_guarded htrust h r)
    (throughout_of_forall _ (fun _ _ => trivial) _) (Guarded.start store index)

/-- An upload through each protocol, and a lookup. -/
def sampleRequests : List (AppEvent Bytes) :=
  [.request (.create ⟨"old", "v"⟩), .request (.put 0 (.blob true [1, 2, 3])),
    .request (.finalize ⟨"old", "3", "v"⟩ 0 0), .request (.v1Reserve "new" "v"),
    .request (.v1Upload (some "bytes 0-2/*".toList) 1 [1, 2, 3]),
    .request (.v1Finalize 1 3 (10 * nanosPerDay)), .request (.downloadUrl ⟨"old", [], "v"⟩)]

/-- Both uploads of the pull request land in its own scope. -/
theorem sampleRequests_confined :
    sampleJob.trust = .untrusted ∧
    Throughout (CacheApp.step sampleCodec sampleJob)
      (fun s e => ∀ r, e = .request r → Confined sampleCodec sampleJob s r)
      (CacheApp.start .empty .empty) sampleRequests ∧
    (run (CacheApp.step sampleCodec sampleJob) (CacheApp.start .empty .empty)
      sampleRequests).index.entries sampleIndex.toLineSerde ("feature", "v") =
        [sampleEntry "old" 0, sampleEntry "new" (10 * nanosPerDay)] :=
  ⟨by decide, untrusted_confined sampleCodec (by decide) .empty .empty sampleRequests,
    by decide +kernel⟩

end GhRunner.Cache
