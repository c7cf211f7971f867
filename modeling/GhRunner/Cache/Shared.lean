import GhRunner.Cache.GcPass
import Mathlib.Data.Multiset.AddSub

namespace GhRunner.Cache

open Saturating

/-!
# Finalizations and garbage collection on one cache

Any number of uploads being finalized and one collector work on the same files.

* `Finalization` — where one upload stands: between its chunk writes, before its manifest, before
  its line in the index (`finalize` in `crates/cache/src/twirp/handlers/finalize.rs`);
* `GcPhase` — where the collector stands in a pass (`CacheGc::run` in `crates/cache/src/cas/gc.rs`);
* `SharedCache` — the files, the uploads, the collector, and what was inserted and what the
  collector chose to drop so far;
* `CacheEvent`, `SharedCache.step` — one file operation of one of them.

Both may end early: an upload on a chunk that is too large or a size that does not match, a pass on
a manifest that does not load.
-/

/-- What the client asked to finalize, with the scope the job writes to. -/
structure FinalizeRequest where
  scope : String
  version : String
  key : String
  sizeBytes : U64
deriving DecidableEq

def FinalizeRequest.log (req : FinalizeRequest) : LogKey := (req.scope, req.version)

inductive Finalization (Id : Type)
  /-- `chunk_and_store` with the chunks still to come. -/
  | ingesting (req : FinalizeRequest) (todo : List Bytes) (chunks : List (ChunkRef Id))
      (total : U64)
  | puttingManifest (req : FinalizeRequest) (m : Manifest Id)
  | inserting (req : FinalizeRequest) (m : Manifest Id) (mid : Id)

inductive GcPhase (Id : Type)
  | idle
  /-- `index.records()`: of the logs there were when it began, those still to read, and those that
      have been read.  The directories are listed as it goes, so that it may find newer ones. -/
  | reading (cutoff : DateTime) (maxBytes : U64) (todo done : Finset LogKey)
      (records : List (IndexRecord Id))
  /-- `rewrite_groups` with the logs still to rewrite. -/
  | rewriting (retention : Retention Id) (todo : Finset LogKey)
  /-- The first loop of `sweep` with the live manifests still to load. -/
  | marking (retention : Retention Id) (todo : Finset Id) (liveChunks : Finset Id)
  | sweepingManifests (retention : Retention Id) (liveChunks : Finset Id) (todo : Finset Id)
  | sweepingChunks (retention : Retention Id) (liveChunks : Finset Id) (todo : Finset Id)

structure SharedCache (Id : Type) where
  store : CasStore Id
  index : CacheIndex
  uploads : Finmap fun _ : ℕ => Finalization Id
  gc : GcPhase Id
  /-- Every entry an upload has inserted. -/
  inserted : LogKey → Multiset (IndexEntry Id)
  /-- Every entry the collector has chosen to drop. -/
  dropped : LogKey → Multiset (IndexEntry Id)

inductive CacheEvent (Id : Type)
  /-- Upload `i`, staged and cut into `parts`, is to be finalized. -/
  | beginFinalize (i : ℕ) (req : FinalizeRequest) (parts : List Bytes)
  /-- The next file operation of upload `i`; `now` is what the clock says. -/
  | finalize (i : ℕ) (now : DateTime)
  | gcBegin (gc : CacheGc) (now : DateTime)
  | gcRead (k : LogKey)
  /-- The survivors are chosen. -/
  | gcChoose
  | gcRewrite (k : LogKey)
  | gcMark (mid : Id)
  | gcSweepManifest (mid : Id)
  | gcSweepChunk (c : Id) (leased : Bool)
  /-- The loop in progress has come to its end. -/
  | gcNext

variable {Id : Type} [DecidableEq Id]

namespace SharedCache

def empty : SharedCache Id := ⟨CasStore.empty, CacheIndex.empty, ∅, .idle, fun _ => 0, fun _ => 0⟩

def goto (s : SharedCache Id) (i : ℕ) (f : Finalization Id) : SharedCache Id :=
  { s with uploads := s.uploads.insert i f }

def done (s : SharedCache Id) (i : ℕ) : SharedCache Id := { s with uploads := s.uploads.erase i }

/-- The next step of upload `i`, standing at `f`. -/
def finalizeStep (D : Digest Id) (JM : Serde (Manifest Id)) (JE : LineSerde (IndexEntry Id))
    (s : SharedCache Id) (i : ℕ) (now : DateTime) : Finalization Id → SharedCache Id
  | .ingesting req (data :: rest) chunks total =>
    if data.length < 2 ^ 32 then
      let id := D.hash data
      let len := BitVec.ofNat 32 data.length
      { s with store := { s.store with blobs := (writeAtomic s.store.blobs id data).2 } }.goto i
        (.ingesting req rest (chunks ++ [(⟨id, len⟩ : ChunkRef Id)])
          (satAdd total (len.setWidth 64)))
    else s.done i
  | .ingesting req [] chunks total =>
    if total = req.sizeBytes then s.goto i (.puttingManifest req ⟨chunks, total⟩) else s.done i
  | .puttingManifest req m =>
    let (mid, store) := s.store.putManifest D JM m
    { s with store := store }.goto i (.inserting req m mid)
  | .inserting req _ mid =>
    let entry : IndexEntry Id := ⟨req.key, mid, req.sizeBytes, now⟩
    { s with
      index := s.index.insert JE req.scope req.version entry
      inserted := Function.update s.inserted req.log (entry ::ₘ s.inserted req.log) }.done i

/-- The survivors are chosen; what is not among them counts as dropped. -/
def choose (s : SharedCache Id) (records : List (IndexRecord Id)) (retention : Retention Id) :
    SharedCache Id :=
  { s with
    gc := .rewriting retention (records.map (·.log)).toFinset
    dropped := fun k => s.dropped k +
      (Multiset.ofList (entriesOf records k) - Multiset.ofList (retention.group k)) }

def step (D : Digest Id) (JM : Serde (Manifest Id)) (JE : LineSerde (IndexEntry Id))
    (s : SharedCache Id) : CacheEvent Id → SharedCache Id
  | .beginFinalize i req parts =>
    if i ∈ s.uploads then s else s.goto i (.ingesting req parts [] 0)
  | .finalize i now =>
    match s.uploads.lookup i with
    | some f => s.finalizeStep D JM JE i now f
    | none => s
  | .gcBegin gc now =>
    match s.gc, cutoffOf gc.ttlDays now with
    | .idle, .ok cutoff =>
      { s with
        gc := .reading cutoff gc.maxBytes (s.index.logs.keys.filter CacheIndex.Visible) ∅ [] }
    | _, _ => s
  | .gcRead k =>
    match s.gc with
    | .reading cutoff maxBytes todo done records =>
      if k ∈ s.index.logs ∧ CacheIndex.Visible k ∧ k ∉ done then
        { s with
          gc := .reading cutoff maxBytes (todo.erase k) (insert k done)
            (records ++ s.index.recordsOf JE k) }
      else s
    | _ => s
  | .gcChoose =>
    match s.gc with
    | .reading cutoff maxBytes todo _ records =>
      if todo = ∅ then s.choose records (planRetention records cutoff maxBytes) else s
    | _ => s
  | .gcRewrite k =>
    match s.gc with
    | .rewriting retention todo =>
      if k ∈ todo then
        { s with
          index := s.index.rewrite JE k (retention.group k)
          gc := .rewriting retention (todo.erase k) }
      else s
    | _ => s
  | .gcMark mid =>
    match s.gc with
    | .marking retention todo liveChunks =>
      if mid ∈ todo then
        match s.store.getManifest D JM mid with
        | .ok m =>
          { s with
            gc := .marking retention (todo.erase mid)
              (liveChunks ∪ (m.chunks.map (·.id)).toFinset) }
        | .error _ => { s with gc := .idle }
      else s
    | _ => s
  | .gcSweepManifest mid =>
    match s.gc with
    | .sweepingManifests retention liveChunks todo =>
      if mid ∈ todo then
        { s with
          store := if mid ∈ retention.liveManifests then s.store else s.store.deleteManifest mid
          gc := .sweepingManifests retention liveChunks (todo.erase mid) }
      else s
    | _ => s
  | .gcSweepChunk c leased =>
    match s.gc with
    | .sweepingChunks retention liveChunks todo =>
      if c ∈ todo then
        { s with
          store := if c ∈ liveChunks ∨ leased = true then s.store else s.store.deleteChunk c
          gc := .sweepingChunks retention liveChunks (todo.erase c) }
      else s
    | _ => s
  | .gcNext =>
    match s.gc with
    | .rewriting retention todo =>
      if todo = ∅ then { s with gc := .marking retention retention.liveManifests ∅ } else s
    | .marking retention todo liveChunks =>
      if todo = ∅ then
        { s with gc := .sweepingManifests retention liveChunks s.store.manifests.keys }
      else s
    | .sweepingManifests retention liveChunks todo =>
      if todo = ∅ then { s with gc := .sweepingChunks retention liveChunks s.store.blobs.keys }
      else s
    | .sweepingChunks _ _ todo => if todo = ∅ then { s with gc := .idle } else s
    | .idle | .reading _ _ _ _ _ => s

end SharedCache

end GhRunner.Cache
