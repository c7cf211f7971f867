import GhRunner.Cache.Twirp

namespace GhRunner.Cache

open Saturating Machine

/-!
# Concurrent uploads

Any number of clients create, upload and finalize on one v2 cache server, their calls interleaved
between the steps that other calls can see.

* `UploadService` — the server, its calls in progress, the URLs it has handed out, and what has been
  put through each;
* `UploadEvent`, `UploadService.step` — the next step of a call: a create looks for a duplicate and
  then mints, a PUT resolves its token and then writes, a finalize takes a pending upload, ingests it,
  and then inserts the entry;
* `createCall_mint`, `putCall_stage`, `finalizeCall_insert` — a call that nothing comes between is
  what its handler does;
* `Exclusive` — nobody creates while an upload for the same coordinates is in progress, and a client
  finalizes its own upload, once what it put has arrived;
* `load_le_one`, `OwnUploads` — the invariants;
* `exclusive_uploads` — then there is one entry for each key, and it has the client's bytes;
* `shared_key_crossed` — and what happens when two clients save the same key.
-/

abbrev Client := ℕ

/-- A request the server is working on. -/
abbrev CallId := ℕ

/-- Where a finalize stands. -/
inductive UploadStage (Id : Type)
  /-- The pending upload is taken; its file is to be ingested. -/
  | taken (staging : StagingPath)
  /-- The size was right; the entry is to be inserted. -/
  | ingested (m : Manifest Id)
deriving DecidableEq

structure FinalizeCall (Id : Type) where
  client : Client
  req : CreateRequest
  size : U64
  token : Token
  stage : UploadStage Id
deriving DecidableEq

structure PutCall where
  token : Token
  staging : StagingPath
  op : PutOp

structure UploadService (Id : Type) where
  app : CacheApp Id
  /-- The creates that found no duplicate. -/
  creating : Finmap fun _ : CallId => Client × CreateRequest
  putting : Finmap fun _ : CallId => PutCall
  finalizing : Finmap fun _ : CallId => FinalizeCall Id
  /-- The URL each client was handed last for a key and version. -/
  urls : Client → CreateRequest → Option Token
  /-- The object that the PUTs through each URL have made. -/
  uploaded : Finmap fun _ : Token => Bytes

inductive UploadEvent
  | createCall (call : CallId) (client : Client) (req : CreateRequest)
  | mint (call : CallId)
  | putCall (call : CallId) (token : Token) (op : PutOp)
  | stage (call : CallId)
  /-- Of several pending uploads, `first` says which one the registry meets first. -/
  | finalizeCall (call : CallId) (client : Client) (req : Twirp.FinalizeRequest) (first : Token)
  | ingest (call : CallId)
  | insert (call : CallId) (now : DateTime)
  | tick (elapsed : ℕ)

/-- The create that a finalize belongs to. -/
def Twirp.FinalizeRequest.matching (req : Twirp.FinalizeRequest) : CreateRequest :=
  ⟨req.key, req.version⟩

variable {Id : Type} [DecidableEq Id] (C : Codec Id) (job : CacheJob)

namespace UploadService

def start (store : CasStore Id) (index : CacheIndex) : UploadService Id :=
  ⟨.start store index, ∅, ∅, ∅, fun _ _ => none, ∅⟩

def handOut (s : UploadService Id) (client : Client) (req : CreateRequest) (url : Option Token) :
    UploadService Id :=
  { s with urls := fun c r => if c = client ∧ r = req then url else s.urls c r }

/-- The object behind a token, after a PUT on it. -/
def record (s : UploadService Id) (token : Token) (staging : StagingPath) : UploadService Id :=
  match s.app.staged.lookup staging with
  | some bytes => { s with uploaded := s.uploaded.insert token bytes }
  | none => s

def createCall (s : UploadService Id) (call : CallId) (client : Client) (req : CreateRequest) :
    UploadService Id :=
  if call ∈ s.creating ∨
      writeAllowed job.scopes.write job.trust job.protectedBranches = false ∨
      s.app.entryExists C job req = true then s
  else { s with creating := s.creating.insert call (client, req) }

def mint (s : UploadService Id) (call : CallId) : UploadService Id :=
  match s.creating.lookup call with
  | none => s
  | some (client, req) =>
    { s with
      app := (s.app.mint job req).2
      creating := s.creating.erase call }.handOut client req
      (s.app.mint job req).1.signedUploadUrl

def putCall (s : UploadService Id) (call : CallId) (token : Token) (op : PutOp) :
    UploadService Id :=
  match s.app.registry.get token s.app.clock with
  | some (.upload staging _ _ _) =>
    if call ∈ s.putting then s
    else { s with putting := s.putting.insert call ⟨token, staging, op⟩ }
  | _ => s

def stage (s : UploadService Id) (call : CallId) : UploadService Id :=
  match s.putting.lookup call with
  | none => s
  | some put =>
    { s with
      app := (s.app.putStaged put.staging put.op).2
      putting := s.putting.erase call }.record put.token put.staging

def finalizeCall (s : UploadService Id) (call : CallId) (client : Client)
    (req : Twirp.FinalizeRequest) (first : Token) : UploadService Id :=
  match parseU64 req.sizeBytes.toList with
  | .error _ => s
  | .ok size =>
    if call ∈ s.finalizing then s
    else
      match s.app.registry.takePendingUpload first job.scopes.write req.key req.version
          s.app.clock with
      | (none, _) => s
      | (some (token, staging), registry) =>
        { s with
          app := { s.app with registry }
          finalizing := s.finalizing.insert call ⟨client, req.matching, size, token, .taken staging⟩ }

def ingest (s : UploadService Id) (call : CallId) : UploadService Id :=
  match s.finalizing.lookup call with
  | some ⟨client, req, size, token, .taken staging⟩ =>
    match s.app.ingestStaged C staging with
    | (.error _, app) => { s with app, finalizing := s.finalizing.erase call }
    | (.ok m, app) =>
      if m.totalSize ≠ size then { s with app, finalizing := s.finalizing.erase call }
      else
        { s with
          app
          finalizing := s.finalizing.insert call ⟨client, req, size, token, .ingested m⟩ }
  | _ => s

def insert (s : UploadService Id) (call : CallId) (now : DateTime) : UploadService Id :=
  match s.finalizing.lookup call with
  | some ⟨_, req, size, _, .ingested m⟩ =>
    { s with
      app := (s.app.storeAndInsert C job req.key req.version size m now).2
      finalizing := s.finalizing.erase call }
  | _ => s

def tick (s : UploadService Id) (elapsed : ℕ) : UploadService Id :=
  { s with app := { s.app with clock := s.app.clock + elapsed } }

def step (s : UploadService Id) : UploadEvent → UploadService Id
  | .createCall call client req => s.createCall C job call client req
  | .mint call => s.mint job call
  | .putCall call token op => s.putCall call token op
  | .stage call => s.stage call
  | .finalizeCall call client req first => s.finalizeCall job call client req first
  | .ingest call => s.ingest C call
  | .insert call now => s.insert C job call now
  | .tick elapsed => s.tick elapsed

/-! ### What each step can do -/

variable (s : UploadService Id)

omit [DecidableEq Id] in
theorem createCall_cases (call : CallId) (client : Client) (req : CreateRequest) :
    s.createCall C job call client req = s ∨
      call ∉ s.creating ∧ s.app.entryExists C job req = false ∧
        s.createCall C job call client req =
          { s with creating := s.creating.insert call (client, req) } := by
  unfold createCall
  split
  case isTrue => exact .inl rfl
  case isFalse h =>
    simp only [not_or, Bool.not_eq_true] at h
    exact .inr ⟨h.1, h.2.2, rfl⟩

omit [DecidableEq Id] in
theorem mint_cases (call : CallId) :
    s.mint job call = s ∨ ∃ client req, s.creating.lookup call = some (client, req) ∧
      s.mint job call = { s with
        app := (s.app.mint job req).2
        creating := s.creating.erase call }.handOut client req (some s.app.registry.minted) := by
  unfold mint
  split
  case h_1 => exact .inl rfl
  case h_2 client req hlookup => exact .inr ⟨client, req, hlookup, rfl⟩

omit [DecidableEq Id] in
theorem putCall_cases (call : CallId) (token : Token) (op : PutOp) :
    s.putCall call token op = s ∨
      ∃ staging scope key version expiry,
        s.app.registry.entries.lookup token = some ⟨.upload staging scope key version, expiry⟩ ∧
        call ∉ s.putting ∧
        s.putCall call token op =
          { s with putting := s.putting.insert call ⟨token, staging, op⟩ } := by
  unfold putCall
  split
  case h_2 => exact .inl rfl
  case h_1 staging scope key version hget =>
    split
    case isTrue => exact .inl rfl
    case isFalse hnew =>
      unfold BlobRegistry.get at hget
      split at hget
      case h_1 => cases hget
      case h_2 e he =>
        split at hget
        case isTrue => cases hget
        case isFalse =>
          have htarget := Option.some.inj hget
          exact .inr ⟨staging, scope, key, version, e.expiry, by rw [he, ← htarget], hnew, rfl⟩

omit [DecidableEq Id] in
theorem stage_cases (call : CallId) :
    s.stage call = s ∨ ∃ put, s.putting.lookup call = some put ∧
      s.stage call = { s with
        app := (s.app.putStaged put.staging put.op).2
        putting := s.putting.erase call }.record put.token put.staging := by
  unfold stage
  split
  case h_1 => exact .inl rfl
  case h_2 put hlookup => exact .inr ⟨put, hlookup, rfl⟩

omit [DecidableEq Id] in
theorem finalizeCall_cases (call : CallId) (client : Client) (req : Twirp.FinalizeRequest)
    (first : Token) :
    s.finalizeCall job call client req first = s ∨
      ∃ size token staging expiry, call ∉ s.finalizing ∧
        s.app.registry.entries.lookup token =
          some ⟨.upload staging job.scopes.write req.key req.version, expiry⟩ ∧
        s.app.clock < expiry ∧
        s.finalizeCall job call client req first = { s with
          app := { s.app with registry.entries := s.app.registry.entries.erase token }
          finalizing := s.finalizing.insert call
            ⟨client, req.matching, size, token, .taken staging⟩ } := by
  unfold finalizeCall
  split
  case h_1 => exact .inl rfl
  case h_2 size _ =>
    split
    case isTrue => exact .inl rfl
    case isFalse hnew =>
      rcases s.app.registry.takePendingUpload_cases first job.scopes.write req.key req.version
        s.app.clock with ⟨-, heq⟩ | ⟨token, -, staging, expiry, hlookup, hlive, heq⟩
      · rw [heq]
        exact .inl rfl
      · rw [heq]
        exact .inr ⟨size, token, staging, expiry, hnew, hlookup, hlive, rfl⟩

/-- A finalize ends here, or has the manifest that the store made of the staged bytes. -/
theorem ingest_cases (call : CallId) :
    s.ingest C call = s ∨
      ∃ client req size token staging,
        s.finalizing.lookup call = some ⟨client, req, size, token, .taken staging⟩ ∧
        ((∃ store staged, (staged = s.app.staged ∨ staged = s.app.staged.erase staging) ∧
          s.ingest C call =
            { s with app := { s.app with store, staged }, finalizing := s.finalizing.erase call }) ∨
        ∃ bytes m store, s.app.staged.lookup staging = some bytes ∧
          s.app.store.ingest C.digest (C.cut bytes) = (.ok m, store) ∧
          s.ingest C call = { s with
            app := { s.app with store, staged := s.app.staged.erase staging }
            finalizing := s.finalizing.insert call ⟨client, req, size, token, .ingested m⟩ }) := by
  rcases hlookup : s.finalizing.lookup call with _ | ⟨client, req, size, token, staging | m⟩
  · exact .inl (by simp only [ingest, hlookup])
  · refine .inr ⟨client, req, size, token, staging, rfl, ?_⟩
    rcases s.app.ingestStaged_cases C staging with
      ⟨e, store, heq⟩ | ⟨bytes, m, store, hstaged, hingest, heq⟩
    · exact .inl ⟨store, s.app.staged, .inl rfl, by simp only [ingest, hlookup, heq]⟩
    · by_cases hsize : m.totalSize = size
      · refine .inr ⟨bytes, m, store, hstaged, hingest, ?_⟩
        simp only [ingest, hlookup, heq, hsize, ne_eq, not_true_eq_false, if_false]
      · refine .inl ⟨store, s.app.staged.erase staging, .inr rfl, ?_⟩
        simp only [ingest, hlookup, heq, hsize, ne_eq, not_false_eq_true, if_true]
  · exact .inl (by simp only [ingest, hlookup])

theorem insert_cases (call : CallId) (now : DateTime) :
    s.insert C job call now = s ∨
      ∃ client req size token m,
        s.finalizing.lookup call = some ⟨client, req, size, token, .ingested m⟩ ∧
        s.insert C job call now = { s with
          app := (s.app.storeAndInsert C job req.key req.version size m now).2
          finalizing := s.finalizing.erase call } := by
  unfold insert
  split
  case h_2 => exact .inl rfl
  case h_1 client req size token m hlookup => exact .inr ⟨client, req, size, token, m, hlookup, rfl⟩

/-! ### Calls that nothing comes between -/

variable {C job} {s}

theorem createCall_mint {call : CallId} (h : call ∉ s.creating) (client : Client)
    (req : CreateRequest) :
    (run (step C job) s [.createCall call client req, .mint call]).app =
      (s.app.createCacheEntry C job req).2 := by
  simp only [run_cons, run_nil, step, createCall, CacheApp.createCacheEntry]
  by_cases hallowed : writeAllowed job.scopes.write job.trust job.protectedBranches = false
  · simp [hallowed, mint, Finmap.lookup_eq_none.mpr h]
  · by_cases hexists : s.app.entryExists C job req = true
    · simp [hallowed, hexists, mint, Finmap.lookup_eq_none.mpr h]
    · simp [hallowed, hexists, h, mint, handOut]

theorem putCall_stage {call : CallId} (h : call ∉ s.putting) (token : Token) (op : PutOp) :
    (run (step C job) s [.putCall call token op, .stage call]).app =
      (s.app.putEntry token op).2 := by
  simp only [run_cons, run_nil, step, putCall, CacheApp.putEntry]
  cases s.app.registry.get token s.app.clock with
  | none => simp only [stage, Finmap.lookup_eq_none.mpr h]
  | some target =>
    cases target with
    | download m => simp only [stage, Finmap.lookup_eq_none.mpr h]
    | upload staging scope key version =>
      simp only [if_neg h, stage, Finmap.lookup_insert, record]
      split
      · rfl
      · rfl

theorem finalizeCall_insert {call : CallId} (h : call ∉ s.finalizing) (client : Client)
    (req : Twirp.FinalizeRequest) (first : Token) (now : DateTime) :
    (run (step C job) s
      [.finalizeCall call client req first, .ingest call, .insert call now]).app =
      (s.app.finalizeCacheEntryUpload C job req first now).2 := by
  have hidle : (s.ingest C call).insert C job call now = s := by
    simp only [ingest, Finmap.lookup_eq_none.mpr h, insert]
  rw [CacheApp.finalizeCacheEntryUpload_snd]
  simp only [run_cons, run_nil, step, finalizeCall, CacheApp.finalize]
  cases parseU64 req.sizeBytes.toList with
  | error e => exact congrArg app hidle
  | ok size =>
    rcases htake : s.app.registry.takePendingUpload first job.scopes.write req.key req.version
      s.app.clock with ⟨_ | ⟨token, staging⟩, registry⟩
    · simp only [if_neg h]
      exact congrArg app hidle
    · simp only [if_neg h, ingest, Finmap.lookup_insert, CacheApp.indexStaged]
      generalize CacheApp.ingestStaged C _ staging = result
      rcases result with ⟨e | m, app'⟩
      · simp [insert]
      · by_cases hsize : m.totalSize = size
        · simp [hsize, insert, Twirp.FinalizeRequest.matching]
        · simp [hsize, insert]

end UploadService

/-! ### How many uploads there are for one key -/

/-- A log, and a key in it. -/
abbrev Coords := LogKey × String

def CreateRequest.coords (req : CreateRequest) : Coords := ((job.scopes.write, req.version), req.key)

/-- One for an upload that is live for these coordinates. -/
def BlobEntry.tally (c : Coords) (now : Instant) (e : BlobEntry Id) : ℕ :=
  if e.pendingFor c.1.1 c.2 c.1.2 now = true then 1 else 0

/-- One for a call that is for these coordinates. -/
def CreateRequest.tally (c : Coords) (req : CreateRequest) : ℕ := if req.coords job = c then 1 else 0

namespace UploadService

/-- The uploads being created, pending, and being finalized. -/
def inProgress (s : UploadService Id) (c : Coords) : ℕ :=
  s.creating.weight (fun _ p => p.2.tally job c) +
    s.app.registry.entries.weight (fun _ e => e.tally c s.app.clock) +
    s.finalizing.weight fun _ f => f.req.tally job c

def indexed (s : UploadService Id) (c : Coords) : ℕ :=
  (s.app.index.entries C.entryJson.toLineSerde c.1).countP fun e => e.key = c.2

def load (s : UploadService Id) (c : Coords) : ℕ := s.indexed C c + s.inProgress job c

/-- Nobody creates while an upload for the same coordinates is in progress.  What a finalize finds
    pending is the client's own upload, and no PUT through its URL is under way. -/
def Exclusive (s : UploadService Id) : UploadEvent → Prop
  | .createCall _ _ req => s.inProgress job (req.coords job) = 0
  | .finalizeCall _ client req _ =>
    ∀ token ∈ s.app.registry.pending job.scopes.write req.key req.version s.app.clock,
      s.urls client req.matching = some token ∧
        s.putting.weight (fun _ p => if p.token = token then 1 else 0) = 0
  | _ => True

instance decidableExclusive (s : UploadService Id) : (e : UploadEvent) → Decidable (s.Exclusive job e)
  | .createCall _ _ req => inferInstanceAs (Decidable (s.inProgress job (req.coords job) = 0))
  | .finalizeCall _ client req _ => inferInstanceAs (Decidable (∀ token ∈
      s.app.registry.pending job.scopes.write req.key req.version s.app.clock,
        s.urls client req.matching = some token ∧
          s.putting.weight (fun _ p => if p.token = token then 1 else 0) = 0))
  | .mint _ | .putCall _ _ _ | .stage _ | .ingest _ | .insert _ _ | .tick _ => .isTrue trivial

variable {C job} {s : UploadService Id}

omit [DecidableEq Id] in
theorem indexed_of_not_entryExists {req : CreateRequest}
    (h : s.app.entryExists C job req = false) : s.indexed C (req.coords job) = 0 := by
  rw [CacheApp.entryExists, Option.isSome_eq_false_iff, Option.isNone_iff_eq_none,
    CacheIndex.lookup_eq_none_iff] at h
  rw [indexed, List.countP_eq_zero]
  intro e he
  rw [decide_eq_true_eq]
  exact h e he

omit [DecidableEq Id] in
/-- The entry that a finalize inserts counts once at its own coordinates, if it is read at all. -/
theorem indexed_insert (job : CacheJob) (htailed : s.app.index.Tailed C.entryJson) (req : CreateRequest)
    (entry : IndexEntry Id) (hkey : entry.key = req.key) (c : Coords) :
    ((s.app.index.insert C.entryJson.toLineSerde job.scopes.write req.version entry).entries
      C.entryJson.toLineSerde c.1).countP (fun e => e.key = c.2) ≤
        s.indexed C c + req.tally job c := by
  rw [htailed.entries_insert, List.countP_append]
  apply Nat.add_le_add_left
  split
  case isFalse => exact Nat.zero_le _
  case isTrue hlog =>
    obtain ⟨log, key⟩ := c
    obtain ⟨rfl, -⟩ := hlog
    simp only [List.countP_singleton, hkey, decide_eq_true_eq, CreateRequest.tally,
      CreateRequest.coords, Prod.mk.injEq, true_and]
    exact le_refl _

omit [DecidableEq Id] in
/-- A freshly minted upload counts where its create did. -/
theorem tally_minted (req : CreateRequest) (staging : StagingPath) (now : Instant) (c : Coords) :
    (⟨.upload staging job.scopes.write req.key req.version, now + uploadTtl⟩ :
      BlobEntry Id).tally c now ≤ req.tally job c := by
  obtain ⟨⟨scope, version⟩, key⟩ := c
  unfold BlobEntry.tally
  split
  case isFalse => exact Nat.zero_le _
  case isTrue h =>
    obtain ⟨-, staging', htarget⟩ := BlobEntry.pendingFor_eq_true_iff.mp h
    obtain ⟨-, hscope, hkey, hversion⟩ := BlobTarget.upload.inj htarget
    have hcoords : req.coords job = ((scope, version), key) := by
      rw [CreateRequest.coords, hscope, hkey, hversion]
    rw [CreateRequest.tally, if_pos hcoords]

omit [DecidableEq Id] in
/-- A live upload counts where its finalize will. -/
theorem tally_taken (req : CreateRequest) (staging : StagingPath) {expiry now : Instant}
    (hlive : now < expiry) (c : Coords) :
    (⟨.upload staging job.scopes.write req.key req.version, expiry⟩ : BlobEntry Id).tally c now =
      req.tally job c := by
  obtain ⟨⟨scope, version⟩, key⟩ := c
  simp only [BlobEntry.tally, BlobEntry.pendingFor, hlive, true_and, decide_eq_true_eq,
    CreateRequest.tally, CreateRequest.coords, Prod.mk.injEq]
  congr 1
  apply propext
  grind

omit [DecidableEq Id] in
/-- An upload only gets older. -/
theorem tally_mono (e : BlobEntry Id) (c : Coords) (now : Instant) (elapsed : ℕ) :
    e.tally c (now + elapsed) ≤ e.tally c now := by
  unfold BlobEntry.tally
  split
  case isFalse => exact Nat.zero_le _
  case isTrue h =>
    obtain ⟨hlive, staging, htarget⟩ := BlobEntry.pendingFor_eq_true_iff.mp h
    have hnow : e.pendingFor c.1.1 c.2 c.1.2 now = true := BlobEntry.pendingFor_eq_true_iff.mpr
      ⟨Nat.lt_of_le_of_lt (Nat.le_add_right now elapsed) hlive, staging, htarget⟩
    rw [if_pos hnow]

omit [DecidableEq Id] in
theorem record_eq (s : UploadService Id) (token : Token) (staging : StagingPath) :
    ∃ uploaded, s.record token staging = { s with uploaded } ∧ ∀ t, uploaded.lookup t =
      if t = token then (s.app.staged.lookup staging).or (s.uploaded.lookup t)
      else s.uploaded.lookup t := by
  unfold record
  split
  case h_1 bytes hbytes =>
    refine ⟨_, rfl, fun t => ?_⟩
    by_cases ht : t = token
    · rw [if_pos ht, ht, Finmap.lookup_insert, hbytes, Option.some_or]
    · rw [if_neg ht, Finmap.lookup_insert_of_ne _ ht]
  case h_2 hnone =>
    refine ⟨s.uploaded, rfl, fun t => ?_⟩
    rw [hnone, Option.none_or, ite_self]

/-- What one step does to the uploads of each key. -/
theorem load_step (hfresh : s.app.registry.minted ∉ s.app.registry.entries)
    (htailed : s.app.index.Tailed C.entryJson) (h : ∀ c, s.load C job c ≤ 1) {e : UploadEvent}
    (hexclusive : s.Exclusive job e) (c : Coords) : (s.step C job e).load C job c ≤ 1 := by
  have hc := h c
  cases e with
  | createCall call client req =>
    rcases s.createCall_cases C job call client req with
      heq | ⟨hnew, hexists, heq⟩
    · rwa [step, heq]
    · rw [step, heq]
      simp only [load, inProgress, indexed, Finmap.weight_insert _ hnew] at hc ⊢
      by_cases hcoords : req.coords job = c
      · have hzero : s.inProgress job (req.coords job) = 0 := hexclusive
        have hnone := indexed_of_not_entryExists hexists
        rw [hcoords] at hzero hnone
        have hone : req.tally job c = 1 := if_pos hcoords
        simp only [inProgress, indexed] at hzero hnone
        omega
      · have hnone : req.tally job c = 0 := if_neg hcoords
        omega
  | mint call =>
    rcases s.mint_cases job call with heq | ⟨client, req, hlookup, heq⟩
    · rwa [step, heq]
    · rw [step, heq]
      have hcreating : s.creating.weight (fun _ p => p.2.tally job c) =
          req.tally job c + (s.creating.erase call).weight fun _ p => p.2.tally job c :=
        Finmap.weight_eq_add_erase _ hlookup
      have hminted : (⟨.upload (.upload s.app.uuids) job.scopes.write req.key req.version,
          s.app.clock + uploadTtl⟩ : BlobEntry Id).tally c s.app.clock ≤ req.tally job c :=
        tally_minted req _ _ c
      simp only [load, inProgress, indexed] at hc
      simp only [load, inProgress, indexed, handOut, CacheApp.mint, BlobRegistry.mintUpload,
        BlobRegistry.insert, Finmap.weight_insert _ hfresh]
      omega
  | putCall call token op =>
    rcases s.putCall_cases call token op with heq | ⟨_, _, _, _, _, -, -, heq⟩
    · rwa [step, heq]
    · rwa [step, heq]
  | stage call =>
    rcases s.stage_cases call with heq | ⟨put, -, heq⟩
    · rwa [step, heq]
    · obtain ⟨staged, blocks, -, hput⟩ := s.app.putStaged_cases put.staging put.op
      obtain ⟨uploaded, hrecord, -⟩ := record_eq { s with
        app := { s.app with staged, blocks }, putting := s.putting.erase call } put.token put.staging
      rw [step, heq, hput, hrecord]
      exact hc
  | finalizeCall call client req first =>
    rcases s.finalizeCall_cases job call client req first with
      heq | ⟨size, token, staging, expiry, hnew, hlookup, hlive, heq⟩
    · rwa [step, heq]
    · rw [step, heq]
      have hregistry := Finmap.weight_eq_add_erase
        (fun _ (e : BlobEntry Id) => e.tally c s.app.clock) hlookup
      have htaken : (⟨.upload staging job.scopes.write req.key req.version, expiry⟩ :
          BlobEntry Id).tally c s.app.clock = (⟨req.key, req.version⟩ : CreateRequest).tally job c :=
        tally_taken req.matching staging hlive c
      simp only [load, inProgress, indexed] at hc
      simp only [load, inProgress, indexed, Finmap.weight_insert _ hnew,
        Twirp.FinalizeRequest.matching]
      omega
  | ingest call =>
    rcases s.ingest_cases C call with
      heq | ⟨client, req, size, token, staging, hlookup, ⟨store, staged, -, heq⟩ |
        ⟨bytes, m, store, -, -, heq⟩⟩
    · rwa [step, heq]
    · rw [step, heq]
      have hless := Finmap.weight_erase_le
        (fun _ (f : FinalizeCall Id) => f.req.tally job c) call s.finalizing
      simp only [load, inProgress, indexed] at hc ⊢
      omega
    · rw [step, heq]
      have hsame := Finmap.weight_insert_add (fun _ (f : FinalizeCall Id) => f.req.tally job c)
        ⟨client, req, size, token, .ingested m⟩ hlookup
      simp only [load, inProgress, indexed] at hc hsame ⊢
      omega
  | insert call now =>
    rcases s.insert_cases C job call now with
      heq | ⟨client, req, size, token, m, hlookup, heq⟩
    · rwa [step, heq]
    · rw [step, heq]
      have hfinalizing : s.finalizing.weight (fun _ f => f.req.tally job c) =
          req.tally job c + (s.finalizing.erase call).weight fun _ f => f.req.tally job c :=
        Finmap.weight_eq_add_erase _ hlookup
      have hentries := indexed_insert job htailed req
        ⟨req.key, C.digest.hash (C.manifestJson.toVec m), size, now⟩ rfl c
      simp only [load, inProgress, indexed] at hc hentries
      simp only [load, inProgress, indexed, CacheApp.storeAndInsert, CasStore.putManifest]
      omega
  | tick elapsed =>
    have holder : Finmap.weight (fun _ e => BlobEntry.tally c (s.app.clock + elapsed) e)
        s.app.registry.entries ≤
        Finmap.weight (fun _ e => BlobEntry.tally c s.app.clock e) s.app.registry.entries :=
      Finmap.weight_mono fun _ e _ => tally_mono e c s.app.clock elapsed
    simp only [step, tick, load, inProgress, indexed] at hc ⊢
    omega

/-! ### Whose bytes a finalize has -/

/-- The manifest lists the chunks of these bytes, in order, and adds up their lengths. -/
structure Describes (C : Codec Id) (m : Manifest Id) (bytes : Bytes) : Prop where
  chunks : m.chunks = (C.cut bytes).map (refOf C.digest)
  totalSize : m.totalSize.toNat = min bytes.length (maxNat 64)

theorem describes_of_ingest {store store' : CasStore Id} {bytes : Bytes} {m : Manifest Id}
    (h : store.ingest C.digest (C.cut bytes) = (.ok m, store')) : Describes C m bytes := by
  rcases chunkAndStore_spec C.digest (C.cut bytes) store.blobs [] 0 with
    ⟨e, blobs, heq, -⟩ | ⟨m', blobs, heq, -, hchunks, htotal, -, -⟩
  · rw [CasStore.ingest, heq] at h
    cases (Prod.mk.inj h).1
  · rw [CasStore.ingest, heq] at h
    obtain rfl := Except.ok.inj (Prod.mk.inj h).1
    rw [C.flatten_cut, show (0 : U64).toNat = 0 from rfl, Nat.zero_add] at htotal
    exact ⟨hchunks, htotal⟩

/-- Every token stages to its own path, and what is there is what was put through its URL; a finalize
    holds the token that its own client was handed. -/
structure OwnUploads (C : Codec Id) (s : UploadService Id) : Prop where
  tailed : s.app.index.Tailed C.entryJson
  uuids : s.app.uuids = s.app.registry.minted
  fresh : ∀ t, s.app.registry.minted ≤ t → t ∉ s.app.registry.entries ∧
    s.app.staged.lookup (.upload t) = none ∧ s.uploaded.lookup t = none
  pending : ∀ t ∈ s.app.registry.entries,
    s.app.staged.lookup (.upload t) = s.uploaded.lookup t
  own_path : ∀ t staging scope key version expiry,
    s.app.registry.entries.lookup t = some ⟨.upload staging scope key version, expiry⟩ →
      staging = .upload t
  putting : ∀ call put, s.putting.lookup call = some put → put.staging = .upload put.token ∧
    put.token < s.app.registry.minted ∧
      ∀ call' f, s.finalizing.lookup call' = some f → f.token ≠ put.token
  finalizing : ∀ call f, s.finalizing.lookup call = some f →
    f.token < s.app.registry.minted ∧ f.token ∉ s.app.registry.entries ∧
      s.urls f.client f.req = some f.token
  taken : ∀ call f staging, s.finalizing.lookup call = some f → f.stage = .taken staging →
    staging = .upload f.token ∧ s.app.staged.lookup staging = s.uploaded.lookup f.token
  ingested : ∀ call f m, s.finalizing.lookup call = some f → f.stage = .ingested m →
    ∃ bytes, s.uploaded.lookup f.token = some bytes ∧ Describes C m bytes
  distinct : ∀ call call' f f', s.finalizing.lookup call = some f →
    s.finalizing.lookup call' = some f' → f.token = f'.token → call = call'

namespace OwnUploads

omit [DecidableEq Id] in
theorem start (store : CasStore Id) {index : CacheIndex} (h : index.Tailed C.entryJson) :
    OwnUploads C (start store index) := by
  refine ⟨h, rfl, fun t _ => ⟨Finmap.notMem_empty, rfl, rfl⟩, ?_, ?_, ?_, ?_, ?_, ?_, ?_⟩
  · exact fun t ht => absurd ht Finmap.notMem_empty
  all_goals
    intros
    contradiction

omit [DecidableEq Id] in
theorem createCall (h : OwnUploads C s) (call : CallId) (client : Client) (req : CreateRequest) :
    OwnUploads C (s.createCall C job call client req) := by
  rcases s.createCall_cases C job call client req with heq | ⟨-, -, heq⟩
  · rwa [heq]
  · rw [heq]
    exact ⟨h.tailed, h.uuids, h.fresh, h.pending, h.own_path, h.putting, h.finalizing, h.taken,
      h.ingested, h.distinct⟩

omit [DecidableEq Id] in
/-- An upload is not created and finalized at the same time. -/
theorem ne_of_load (hload : ∀ c, s.load C job c ≤ 1) {call call' : CallId} {client : Client}
    {req : CreateRequest} {f : FinalizeCall Id} (hcreating : s.creating.lookup call = some (client, req))
    (hfinalizing : s.finalizing.lookup call' = some f) : f.req ≠ req := by
  rintro rfl
  have hone : f.req.tally job (f.req.coords job) = 1 := if_pos rfl
  have hleft := Finmap.le_weight (fun _ (p : Client × CreateRequest) =>
    p.2.tally job (f.req.coords job)) hcreating
  have hright := Finmap.le_weight (fun _ (g : FinalizeCall Id) =>
    g.req.tally job (f.req.coords job)) hfinalizing
  have hc := hload (f.req.coords job)
  simp only [load, inProgress] at hc hleft hright
  omega

omit [DecidableEq Id] in
theorem mint (h : OwnUploads C s) (hload : ∀ c, s.load C job c ≤ 1) (call : CallId) :
    OwnUploads C (s.mint job call) := by
  rcases s.mint_cases job call with heq | ⟨client, req, hlookup, heq⟩
  · rwa [heq]
  rw [heq]
  obtain ⟨hnew, hstaged, huploaded⟩ := h.fresh s.app.registry.minted le_rfl
  refine ⟨h.tailed, congrArg (· + 1) h.uuids, ?_, ?_, ?_, ?_, ?_, h.taken, h.ingested, h.distinct⟩
  · intro t ht
    obtain ⟨hold, hboth⟩ := h.fresh t (Nat.le_of_succ_le ht)
    refine ⟨fun hmem => ?_, hboth⟩
    rcases Finmap.mem_insert.mp hmem with rfl | hmem
    · exact absurd ht (Nat.not_succ_le_self _)
    · exact hold hmem
  · intro t ht
    rcases Finmap.mem_insert.mp ht with rfl | ht
    · exact hstaged.trans huploaded.symm
    · exact h.pending t ht
  · intro t staging scope key version expiry ht
    by_cases hminted : t = s.app.registry.minted
    · subst hminted
      have hentry := (Finmap.lookup_insert s.app.registry.entries).symm.trans ht
      simp only [Option.some.injEq, BlobEntry.mk.injEq, BlobTarget.upload.injEq] at hentry
      rw [← hentry.1.1, h.uuids]
    · exact h.own_path t staging scope key version expiry
        ((Finmap.lookup_insert_of_ne _ hminted).symm.trans ht)
  · intro call put hput
    obtain ⟨hpath, hlt, hother⟩ := h.putting call put hput
    exact ⟨hpath, Nat.lt_succ_of_lt hlt, hother⟩
  · intro call' f hf
    obtain ⟨hlt, hnot, hurl⟩ := h.finalizing call' f hf
    refine ⟨Nat.lt_succ_of_lt hlt, fun hmem => ?_, ?_⟩
    · rcases Finmap.mem_insert.mp hmem with hsame | hmem
      · exact absurd hsame (Nat.ne_of_lt hlt)
      · exact hnot hmem
    · -- the URL that is handed out now is for other coordinates
      have hne : ¬ (f.client = client ∧ f.req = req) := fun hsame =>
        ne_of_load hload hlookup hf hsame.2
      exact (if_neg hne).trans hurl

omit [DecidableEq Id] in
theorem putCall (h : OwnUploads C s) (call : CallId) (token : Token) (op : PutOp) :
    OwnUploads C (s.putCall call token op) := by
  rcases s.putCall_cases call token op with
    heq | ⟨staging, scope, key, version, expiry, hlookup, -, heq⟩
  · rwa [heq]
  rw [heq]
  refine ⟨h.tailed, h.uuids, h.fresh, h.pending, h.own_path, ?_, h.finalizing, h.taken, h.ingested,
    h.distinct⟩
  have hmem : token ∈ s.app.registry.entries := Finmap.mem_of_lookup_eq_some hlookup
  intro call' put hput
  by_cases hcall : call' = call
  · subst hcall
    obtain rfl := Option.some.inj ((Finmap.lookup_insert s.putting).symm.trans hput)
    refine ⟨h.own_path token staging scope key version expiry hlookup, ?_, ?_⟩
    · by_contra hle
      exact (h.fresh token (Nat.le_of_not_lt hle)).1 hmem
    · rintro call'' f hf rfl
      exact (h.finalizing call'' f hf).2.1 hmem
  · exact h.putting call' put ((Finmap.lookup_insert_of_ne _ hcall).symm.trans hput)

omit [DecidableEq Id] in
theorem stage (h : OwnUploads C s) (call : CallId) : OwnUploads C (s.stage call) := by
  rcases s.stage_cases call with heq | ⟨put, hput, heq⟩
  · rwa [heq]
  obtain ⟨hpath, hlt, hother⟩ := h.putting call put hput
  obtain ⟨staged, blocks, hstaged, happ⟩ := s.app.putStaged_cases put.staging put.op
  obtain ⟨uploaded, hrecord, huploaded⟩ := record_eq { s with
    app := { s.app with staged, blocks }, putting := s.putting.erase call } put.token put.staging
  rw [heq, happ, hrecord]
  -- a PUT touches one object, and that is the one it is recorded for
  have helsewhere : ∀ t, t ≠ put.token → staged.lookup (.upload t) = s.app.staged.lookup (.upload t) ∧
      uploaded.lookup t = s.uploaded.lookup t := by
    intro t ht
    refine ⟨?_, (huploaded t).trans (if_neg ht)⟩
    rcases hstaged with rfl | ⟨out, rfl⟩
    · rfl
    · rw [hpath, Finmap.lookup_insert_of_ne _ (fun hsame => ht (StagingPath.upload.inj hsame))]
  refine ⟨h.tailed, h.uuids, ?_, ?_, h.own_path, ?_, h.finalizing, ?_, ?_, h.distinct⟩
  · intro t ht
    obtain ⟨hnot, hnone⟩ := h.fresh t ht
    obtain ⟨hs, hu⟩ := helsewhere t (Nat.ne_of_gt (Nat.lt_of_lt_of_le hlt ht))
    exact ⟨hnot, hs.trans hnone.1, hu.trans hnone.2⟩
  · intro t ht
    by_cases htoken : t = put.token
    · subst htoken
      have hbefore := h.pending put.token ht
      rw [huploaded, if_pos rfl, hpath]
      rcases hstaged with rfl | ⟨out, rfl⟩
      · show s.app.staged.lookup (.upload put.token) =
          (s.app.staged.lookup (.upload put.token)).or (s.uploaded.lookup put.token)
        rw [← hbefore, Option.or_self]
      · show (s.app.staged.insert put.staging out).lookup (.upload put.token) =
          ((s.app.staged.insert put.staging out).lookup (.upload put.token)).or
            (s.uploaded.lookup put.token)
        rw [hpath, Finmap.lookup_insert, Option.some_or]
    · obtain ⟨hs, hu⟩ := helsewhere t htoken
      exact hs.trans ((h.pending t ht).trans hu.symm)
  · intro call' put' hput'
    by_cases hcall : call' = call
    · subst hcall
      exact absurd ((Finmap.lookup_erase call' s.putting).symm.trans hput') nofun
    · exact h.putting call' put' ((Finmap.lookup_erase_ne hcall).symm.trans hput')
  · intro call' f staging hf hstage
    obtain ⟨rfl, hsame⟩ := h.taken call' f staging hf hstage
    obtain ⟨hs, hu⟩ := helsewhere f.token (hother call' f hf)
    exact ⟨rfl, hs.trans (hsame.trans hu.symm)⟩
  · intro call' f m hf hstage
    obtain ⟨bytes, hbytes, hm⟩ := h.ingested call' f m hf hstage
    exact ⟨bytes, (helsewhere f.token (hother call' f hf)).2.trans hbytes, hm⟩

omit [DecidableEq Id] in
theorem eraseToken (h : OwnUploads C s) (token : Token) :
    OwnUploads C { s with
      app := { s.app with registry.entries := s.app.registry.entries.erase token } } := by
  refine ⟨h.tailed, h.uuids, ?_, ?_, ?_, h.putting, ?_, h.taken, h.ingested, h.distinct⟩
  · intro t ht
    obtain ⟨hnot, hnone⟩ := h.fresh t ht
    exact ⟨fun hin => hnot (Finmap.mem_erase.mp hin).2, hnone⟩
  · exact fun t ht => h.pending t (Finmap.mem_erase.mp ht).2
  · intro t staging scope key version expiry ht
    by_cases htoken : t = token
    · subst htoken
      exact absurd ((Finmap.lookup_erase t s.app.registry.entries).symm.trans ht) nofun
    · exact h.own_path t staging scope key version expiry
        ((Finmap.lookup_erase_ne htoken).symm.trans ht)
  · intro call f hf
    obtain ⟨hlt, hnot, hurl⟩ := h.finalizing call f hf
    exact ⟨hlt, fun hin => hnot (Finmap.mem_erase.mp hin).2, hurl⟩

omit [DecidableEq Id] in
/-- A finalize ends; its staged file may be gone. -/
theorem eraseCall (h : OwnUploads C s) {call : CallId} {f₀ : FinalizeCall Id}
    (hcall : s.finalizing.lookup call = some f₀) (store : CasStore Id)
    {staged : Finmap fun _ : StagingPath => Bytes}
    (hstaged : ∀ t, t ≠ f₀.token →
      staged.lookup (.upload t) = s.app.staged.lookup (.upload t))
    (hnone : ∀ t, s.app.staged.lookup (.upload t) = none → staged.lookup (.upload t) = none) :
    OwnUploads C { s with
      app := { s.app with store, staged }, finalizing := s.finalizing.erase call } := by
  have hold : ∀ call' f, (s.finalizing.erase call).lookup call' = some f →
      call' ≠ call ∧ s.finalizing.lookup call' = some f := by
    intro call' f hf
    by_cases hsame : call' = call
    · subst hsame
      exact absurd ((Finmap.lookup_erase call' s.finalizing).symm.trans hf) nofun
    · exact ⟨hsame, (Finmap.lookup_erase_ne hsame).symm.trans hf⟩
  obtain ⟨-, hnot, -⟩ := h.finalizing call f₀ hcall
  refine ⟨h.tailed, h.uuids, ?_, ?_, h.own_path, ?_, ?_, ?_, ?_, ?_⟩
  · intro t ht
    obtain ⟨hin, hs, hu⟩ := h.fresh t ht
    exact ⟨hin, hnone t hs, hu⟩
  · intro t ht
    have hne : t ≠ f₀.token := fun hsame => hnot (hsame ▸ ht)
    exact (hstaged t hne).trans (h.pending t ht)
  · intro call' put hput
    obtain ⟨hpath, hlt, hother⟩ := h.putting call' put hput
    exact ⟨hpath, hlt, fun call'' f hf => hother call'' f (hold call'' f hf).2⟩
  · exact fun call' f hf => h.finalizing call' f (hold call' f hf).2
  · intro call' f staging hf hstage
    obtain ⟨hne, hf⟩ := hold call' f hf
    obtain ⟨rfl, hsame⟩ := h.taken call' f staging hf hstage
    have htoken : f.token ≠ f₀.token := fun heq => hne (h.distinct call' call f f₀ hf hcall heq)
    exact ⟨rfl, (hstaged f.token htoken).trans hsame⟩
  · exact fun call' f m hf => h.ingested call' f m (hold call' f hf).2
  · exact fun call' call'' f f' hf hf' =>
      h.distinct call' call'' f f' (hold call' f hf).2 (hold call'' f' hf').2

omit [DecidableEq Id] in
/-- A finalize starts or goes on: it holds a token that nobody else does. -/
theorem putFinalize (h : OwnUploads C s) {call : CallId} {f₀ : FinalizeCall Id}
    (hlt : f₀.token < s.app.registry.minted) (hnot : f₀.token ∉ s.app.registry.entries)
    (hurl : s.urls f₀.client f₀.req = some f₀.token)
    (hquiet : ∀ call' put, s.putting.lookup call' = some put → f₀.token ≠ put.token)
    (halone : ∀ call' f, s.finalizing.lookup call' = some f → f.token ≠ f₀.token)
    (htaken : ∀ staging, f₀.stage = .taken staging → staging = .upload f₀.token ∧
      s.app.staged.lookup staging = s.uploaded.lookup f₀.token)
    (hingested : ∀ m, f₀.stage = .ingested m →
      ∃ bytes, s.uploaded.lookup f₀.token = some bytes ∧ Describes C m bytes) :
    OwnUploads C { s with finalizing := s.finalizing.insert call f₀ } := by
  have hcases : ∀ call' f, (s.finalizing.insert call f₀).lookup call' = some f →
      (call' = call ∧ f = f₀) ∨ s.finalizing.lookup call' = some f := by
    intro call' f hf
    by_cases hcall : call' = call
    · subst hcall
      exact .inl ⟨rfl, (Option.some.inj ((Finmap.lookup_insert s.finalizing).symm.trans hf)).symm⟩
    · exact .inr ((Finmap.lookup_insert_of_ne _ hcall).symm.trans hf)
  refine ⟨h.tailed, h.uuids, h.fresh, h.pending, h.own_path, ?_, ?_, ?_, ?_, ?_⟩
  · intro call' put hput
    obtain ⟨hpath, hputLt, hother⟩ := h.putting call' put hput
    refine ⟨hpath, hputLt, fun call'' f hf => ?_⟩
    rcases hcases call'' f hf with ⟨-, rfl⟩ | hf
    · exact hquiet call' put hput
    · exact hother call'' f hf
  · intro call' f hf
    rcases hcases call' f hf with ⟨-, rfl⟩ | hf
    · exact ⟨hlt, hnot, hurl⟩
    · exact h.finalizing call' f hf
  · intro call' f staging hf
    rcases hcases call' f hf with ⟨-, rfl⟩ | hf
    · exact htaken staging
    · exact h.taken call' f staging hf
  · intro call' f m hf
    rcases hcases call' f hf with ⟨-, rfl⟩ | hf
    · exact hingested m
    · exact h.ingested call' f m hf
  · intro call' call'' f f' hf hf' hsame
    rcases hcases call' f hf with ⟨rfl, rfl⟩ | hold
    · rcases hcases call'' f' hf' with ⟨rfl, -⟩ | hold'
      · rfl
      · exact absurd hsame.symm (halone call'' f' hold')
    · rcases hcases call'' f' hf' with ⟨-, rfl⟩ | hold'
      · exact absurd hsame (halone call' f hold)
      · exact h.distinct call' call'' f f' hold hold' hsame

omit [DecidableEq Id] in
theorem finalizeCall (h : OwnUploads C s) (call : CallId) (client : Client)
    (req : Twirp.FinalizeRequest) (first : Token)
    (hexclusive : s.Exclusive job (.finalizeCall call client req first)) :
    OwnUploads C (s.finalizeCall job call client req first) := by
  rcases s.finalizeCall_cases job call client req first with
    heq | ⟨size, token, staging, expiry, -, hlookup, hlive, heq⟩
  · rwa [heq]
  rw [heq]
  have hmem : token ∈ s.app.registry.entries := Finmap.mem_of_lookup_eq_some hlookup
  obtain ⟨hurl, hquiet⟩ := hexclusive token
    (BlobRegistry.mem_pending.mpr ⟨staging, expiry, hlookup, hlive⟩)
  refine (h.eraseToken token).putFinalize ?_ (fun hin => (Finmap.mem_erase.mp hin).1 rfl) hurl ?_ ?_ ?_
    nofun
  · by_contra hle
    exact (h.fresh token (Nat.le_of_not_lt hle)).1 hmem
  · rintro call' put hput rfl
    have hone := Finmap.le_weight (fun _ (p : PutCall) => if p.token = put.token then 1 else 0) hput
    simp only [if_true] at hone
    omega
  · rintro call' f hf rfl
    exact (h.finalizing call' f hf).2.1 hmem
  · intro staging' hstage
    obtain rfl := UploadStage.taken.inj hstage
    obtain rfl := h.own_path token staging _ _ _ _ hlookup
    exact ⟨rfl, h.pending token hmem⟩

theorem ingest (h : OwnUploads C s) (call : CallId) : OwnUploads C (s.ingest C call) := by
  rcases s.ingest_cases C call with
    heq | ⟨client, req, size, token, staging, hcall, hend⟩
  · rwa [heq]
  obtain ⟨hpath, hobject⟩ := h.taken call _ staging hcall rfl
  have herase : ∀ t, t ≠ token → (s.app.staged.erase staging).lookup (.upload t) =
      s.app.staged.lookup (.upload t) := by
    intro t ht
    rw [hpath, Finmap.lookup_erase_ne fun hsame => ht (StagingPath.upload.inj hsame)]
  have hnone : ∀ t, s.app.staged.lookup (.upload t) = none →
      (s.app.staged.erase staging).lookup (.upload t) = none := by
    intro t ht
    by_cases hsame : StagingPath.upload t = staging
    · rw [hsame, Finmap.lookup_erase]
    · rwa [Finmap.lookup_erase_ne hsame]
  rcases hend with ⟨store, staged, hstaged, heq⟩ | ⟨bytes, m, store, hbytes, hingest, heq⟩
  · rw [heq]
    rcases hstaged with rfl | rfl
    · exact h.eraseCall hcall store (fun _ _ => rfl) fun _ ht => ht
    · exact h.eraseCall hcall store herase hnone
  · rw [heq, ← Finmap.insert_erase]
    obtain ⟨hlt, hnot, hurl⟩ := h.finalizing call _ hcall
    refine (h.eraseCall hcall store herase hnone).putFinalize hlt hnot hurl ?_ ?_ nofun ?_
    · intro call' put hput
      exact (h.putting call' put hput).2.2 call ⟨client, req, size, token, .taken staging⟩ hcall
    · intro call' f hf hsame
      by_cases hne : call' = call
      · subst hne
        exact absurd ((Finmap.lookup_erase call' s.finalizing).symm.trans hf) nofun
      · exact hne (h.distinct call' call f _ ((Finmap.lookup_erase_ne hne).symm.trans hf) hcall hsame)
    · intro m' hstage
      obtain rfl := UploadStage.ingested.inj hstage
      exact ⟨bytes, hobject.symm.trans hbytes, describes_of_ingest hingest⟩

theorem insert (h : OwnUploads C s) (call : CallId) (now : DateTime) :
    OwnUploads C (s.insert C job call now) := by
  rcases s.insert_cases C job call now with
    heq | ⟨client, req, size, token, m, hcall, heq⟩
  · rwa [heq]
  rw [heq]
  have hrest := h.eraseCall hcall (s.app.store.putManifest C.digest C.manifestJson m).2
    (fun _ _ => rfl) fun _ ht => ht
  exact ⟨CacheIndex.tailed_insert h.tailed _ _ _, hrest.uuids, hrest.fresh, hrest.pending,
    hrest.own_path, hrest.putting, hrest.finalizing, hrest.taken, hrest.ingested, hrest.distinct⟩

theorem step (h : OwnUploads C s) (hload : ∀ c, s.load C job c ≤ 1) {e : UploadEvent}
    (hexclusive : s.Exclusive job e) : OwnUploads C (s.step C job e) := by
  cases e with
  | createCall call client req => exact h.createCall call client req
  | mint call => exact h.mint hload call
  | putCall call token op => exact h.putCall call token op
  | stage call => exact h.stage call
  | finalizeCall call client req first => exact h.finalizeCall call client req first hexclusive
  | ingest call => exact h.ingest call
  | insert call now => exact h.insert call now
  | tick elapsed =>
    exact ⟨h.tailed, h.uuids, h.fresh, h.pending, h.own_path, h.putting, h.finalizing, h.taken,
      h.ingested, h.distinct⟩

end OwnUploads

/-! ### The protocol -/

/-- There is at most one entry for each scope, version and key. -/
def AtMostOne (C : Codec Id) (idx : CacheIndex) : Prop :=
  ∀ k key, ((idx.entries C.entryJson.toLineSerde k).filter fun e => e.key = key).length ≤ 1

/-- What a finalize inserts is an entry for the object that was put through the URL its client was
    handed for the key and version. -/
def IndexesOwn (C : Codec Id) (job : CacheJob) (s : UploadService Id) : UploadEvent → Prop
  | .insert call now => ∀ client req size token m,
    s.finalizing.lookup call = some ⟨client, req, size, token, .ingested m⟩ →
      ∃ url bytes, s.urls client req = some url ∧ s.uploaded.lookup url = some bytes ∧
        Describes C m bytes ∧
        (s.insert C job call now).app.index =
          s.app.index.insert C.entryJson.toLineSerde job.scopes.write req.version
            ⟨req.key, C.digest.hash (C.manifestJson.toVec m), size, now⟩
  | _ => True

omit [DecidableEq Id] in
theorem atMostOne_of_load (hload : ∀ c, s.load C job c ≤ 1) : AtMostOne C s.app.index := by
  intro k key
  have hc := hload (k, key)
  rw [← List.countP_eq_length_filter]
  simp only [load, indexed] at hc
  omega

theorem OwnUploads.indexesOwn (h : OwnUploads C s) (e : UploadEvent) : IndexesOwn C job s e := by
  cases e with
  | insert call now =>
    intro client req size token m hcall
    obtain ⟨-, -, hurl⟩ := h.finalizing call _ hcall
    obtain ⟨bytes, hbytes, hm⟩ := h.ingested call _ m hcall rfl
    refine ⟨token, bytes, hurl, hbytes, hm, ?_⟩
    simp only [UploadService.insert, hcall, CacheApp.storeAndInsert, CasStore.putManifest]
  | _ => trivial

omit [DecidableEq Id] in
theorem load_start (store : CasStore Id) {index : CacheIndex} (h : AtMostOne C index) (c : Coords) :
    (start store index).load C job c ≤ 1 := by
  have hidle : (start store index).inProgress job c = 0 := rfl
  rw [load, hidle, Nat.add_zero, indexed, List.countP_eq_length_filter]
  exact h c.1 c.2

/-- **Exclusive uploads.**  Start a server on any store, and on any index that inserts, rewrites and
    crashes can leave with at most one entry for each scope, version and key.  In every interleaving
    of calls in which nobody creates while an upload for the same key and version is in progress, and
    every finalize that finds an upload pending finds its own client's, with no PUT to it under way:
    after every step there is at most one entry for each scope, version and key, and what a finalize
    inserts is an entry for exactly the object that was put through the URL handed to its client. -/
theorem exclusive_uploads (C : Codec Id) (job : CacheJob) (store : CasStore Id)
    (history : List (IndexEvent Id)) (es : List UploadEvent) :
    let index := run (CacheIndex.event C.entryJson.toLineSerde) CacheIndex.empty history
    AtMostOne C index →
    Throughout (step C job) (Exclusive job) (start store index) es →
    Throughout (step C job)
      (fun s e => AtMostOne C (s.step C job e).app.index ∧ IndexesOwn C job s e)
      (start store index) es := by
  intro index hone hexclusive
  have hstep : ∀ s e, OwnUploads C s ∧ (∀ c, s.load C job c ≤ 1) → Exclusive job s e →
      OwnUploads C (s.step C job e) ∧ ∀ c, (s.step C job e).load C job c ≤ 1 := by
    rintro s e ⟨hown, hload⟩ hex
    exact ⟨hown.step hload hex, load_step (hown.fresh _ le_rfl).1 hown.tailed hload hex⟩
  refine throughout_of_invariant hstep ?_ hexclusive
    ⟨.start store (CacheIndex.tailed_run C.entryJson history), load_start store hone⟩
  intro s e hinv hex
  exact ⟨atMostOne_of_load (hstep s e hinv hex).2, hinv.1.indexesOwn e⟩

/-- A client saves three bytes under a key, from its create to its finalize. -/
def save (client : Client) (key : String) (token : Token) (bytes : Bytes) (now : DateTime) :
    List UploadEvent :=
  [.createCall client client ⟨key, "v"⟩, .mint client, .putCall client token (.blob true bytes),
    .stage client, .finalizeCall client client ⟨key, "3", "v"⟩ token, .ingest client,
    .insert client now]

/-- Two clients, one after the other. -/
theorem separate_saves_indexed :
    let start := start (CasStore.empty : CasStore Bytes) CacheIndex.empty
    let es := save 0 "old" 0 [1, 2, 3] 0 ++ save 1 "new" 1 [1, 2, 3] (10 * nanosPerDay)
    Throughout (step sampleCodec sampleJob)
      (fun s e => AtMostOne sampleCodec (s.step sampleCodec sampleJob e).app.index ∧
        IndexesOwn sampleCodec sampleJob s e) start es ∧
    (run (step sampleCodec sampleJob) start es).app.index.entries sampleIndex.toLineSerde
      ("feature", "v") = [sampleEntry "old" 0, sampleEntry "new" (10 * nanosPerDay)] := by
  intro start es
  refine ⟨exclusive_uploads sampleCodec sampleJob .empty [] es ?_ ?_, ?_⟩
  · intro k key
    rw [run_nil, CacheIndex.entries_empty]
    exact Nat.zero_le _
  · decide +kernel
  · decide +kernel

/-- Two clients create before either has finalized; the second has these three bytes, and its finalize
    finds the upload `first` before any other. -/
def crossedSaves (bytes : Bytes) (first : Token) : List UploadEvent :=
  [.createCall 0 0 ⟨"old", "v"⟩, .mint 0, .createCall 1 1 ⟨"old", "v"⟩, .mint 1,
    .putCall 0 0 (.blob true [1, 2, 3]), .stage 0, .putCall 1 1 (.blob true bytes), .stage 1,
    .finalizeCall 1 1 ⟨"old", "3", "v"⟩ first, .ingest 1]

/-- Both clients finalize their own uploads, and there are two entries for one key.  Or the second
    client's finalize finds the upload of the first, and inserts an entry for bytes that its client
    did not upload. -/
theorem shared_key_crossed :
    let start := start (CasStore.empty : CasStore Bytes) CacheIndex.empty
    let twice := run (step sampleCodec sampleJob) start (crossedSaves [1, 2, 3] 1 ++
      [.insert 1 0, .finalizeCall 0 0 ⟨"old", "3", "v"⟩ 0, .ingest 0, .insert 0 0])
    let swapped := run (step sampleCodec sampleJob) start (crossedSaves [4, 5, 6] 0)
    ¬ AtMostOne sampleCodec twice.app.index ∧
    (swapped.urls 1 ⟨"old", "v"⟩ = some 1 ∧ swapped.uploaded.lookup 1 = some [4, 5, 6] ∧
      (swapped.step sampleCodec sampleJob (.insert 1 0)).app.index.entries sampleIndex.toLineSerde
        ("feature", "v") = [sampleEntry "old" 0] ∧
      ¬ IndexesOwn sampleCodec sampleJob swapped (.insert 1 0)) := by
  intro start twice swapped
  have hurl : swapped.urls 1 ⟨"old", "v"⟩ = some 1 := by decide
  have hput : swapped.uploaded.lookup 1 = some [4, 5, 6] := by decide
  refine ⟨fun h => ?_, hurl, hput, by decide +kernel, fun h => ?_⟩
  · have hentries : twice.app.index.entries sampleIndex.toLineSerde ("feature", "v") =
        [sampleEntry "old" 0, sampleEntry "old" 0] := by decide +kernel
    have htwo := h ("feature", "v") "old"
    rw [show sampleCodec.entryJson = sampleIndex from rfl, hentries] at htwo
    exact absurd htwo (by decide)
  · have hcall : swapped.finalizing.lookup 1 =
        some ⟨1, ⟨"old", "v"⟩, 3, 0, .ingested sampleManifest⟩ := by decide
    obtain ⟨url, bytes, hhanded, hbytes, hm, -⟩ := h 1 ⟨"old", "v"⟩ 3 0 sampleManifest hcall
    obtain rfl := Option.some.inj (hurl.symm.trans hhanded)
    obtain rfl := Option.some.inj (hput.symm.trans hbytes)
    exact absurd hm.chunks (by decide)

end UploadService

end GhRunner.Cache
