import GhRunner.Cache.Index
import Mathlib.Data.List.Sort
import Mathlib.Data.Finset.Union

namespace GhRunner.Cache

open Saturating

/-!
# Garbage collection

One pass: entries past the TTL go, then the oldest until the rest fits the cap; the index is
rewritten; what no retained entry references and no lease holds is swept
(`crates/cache/src/cas/gc.rs`).

* `cutoffOf` — the TTL as an instant, when there is one;
* `planRetention`, `evictOverCap` — the choice of survivors;
* `rewriteGroups`, `sweep` — acting on it;
* `CacheGc.run` — the pass.  The order in which the directories list the logs is an argument; the
  hash sets of the source are gone through in some order, on which only the choice among several
  errors depends.
-/

variable {Id : Type} [DecidableEq Id]

/-- How many live restores read each chunk. -/
structure LeaseSet (Id : Type) where
  counts : Finmap fun _ : Id => ℕ

def LeaseSet.isLeased (leases : LeaseSet Id) (id : Id) : Bool :=
  (leases.counts.lookup id).any fun n => 0 < n

structure GcReport where
  entriesExpired : ℕ
  entriesEvicted : ℕ
  chunksDeleted : ℕ
  manifestsDeleted : ℕ
deriving DecidableEq, Repr

/-- How a pass ends short: with an error, or with a panic of the time arithmetic. -/
inductive GcFailure
  | error (e : RunnerError)
  | panicked (message : String)
deriving DecidableEq, Repr

structure CacheGc where
  ttlDays : U64
  maxBytes : U64

/-! ### The cutoff -/

def nanosPerDay : ℤ := 86400 * 1000000000

/-- `Duration::days` counts milliseconds in an `i64`. -/
def maxDurationDays : ℕ := 106751991167

/-- The earliest instant there is: the start of the year -262143. -/
def minUtc : DateTime := -8334601228800 * 1000000000

/-- `now - Duration::days(ttl_days)`. -/
def cutoffOf (ttlDays : U64) (now : DateTime) : Except GcFailure DateTime :=
  if 2 ^ 63 ≤ ttlDays.toNat then
    .error (.error (.cache "ttl_days overflow: out of range integral type conversion attempted"))
  else if maxDurationDays < ttlDays.toNat then .error (.panicked "TimeDelta::days out of bounds")
  else
    let cutoff := now - ttlDays.toNat * nanosPerDay
    if cutoff < minUtc then .error (.panicked "`DateTime - TimeDelta` overflowed") else .ok cutoff

/-! ### Choosing the survivors -/

/-- How many of the oldest records go, at `running` bytes in all. -/
def evictCount (maxBytes : U64) : List (IndexRecord Id) → U64 → ℕ
  | [], _ => 0
  | rec :: rest, running =>
    if maxBytes < running then evictCount maxBytes rest (satSub running rec.entry.sizeBytes) + 1
    else 0

/-- By age, stably. -/
def sortByCreated (records : List (IndexRecord Id)) : List (IndexRecord Id) :=
  records.insertionSort fun a b => a.entry.createdAt ≤ b.entry.createdAt

/-- The records left, and how many were dropped. -/
def evictOverCap (alive : List (IndexRecord Id)) (maxBytes : U64) : List (IndexRecord Id) × ℕ :=
  let running := (alive.map (·.entry.sizeBytes)).foldl satAdd 0
  if running ≤ maxBytes then (alive, 0)
  else
    let alive := sortByCreated alive
    let cut := evictCount maxBytes alive running
    (alive.drop cut, cut)

/-- The retained entries by scope and version. -/
structure Retention (Id : Type) where
  groups : Finmap fun _ : LogKey => List (IndexEntry Id)
  expired : ℕ
  evicted : ℕ

/-- `entry(..).or_default().push(..)` -/
def pushGroup (groups : Finmap fun _ : LogKey => List (IndexEntry Id)) (rec : IndexRecord Id) :
    Finmap fun _ : LogKey => List (IndexEntry Id) :=
  groups.insert rec.log ((groups.lookup rec.log).getD [] ++ [rec.entry])

def planRetention (records : List (IndexRecord Id)) (cutoff : DateTime) (maxBytes : U64) :
    Retention Id :=
  let alive := records.filter fun rec => ¬ rec.entry.createdAt < cutoff
  let expired := records.countP fun rec => rec.entry.createdAt < cutoff
  let (alive, evicted) := evictOverCap alive maxBytes
  ⟨alive.foldl pushGroup ∅, expired, evicted⟩

/-- The retained entries of one log. -/
def Retention.group (retention : Retention Id) (k : LogKey) : List (IndexEntry Id) :=
  (retention.groups.lookup k).getD []

/-- Every manifest a retained entry points at. -/
def Retention.liveManifests (retention : Retention Id) : Finset Id :=
  retention.groups.keys.biUnion fun k => ((retention.group k).map (·.manifest)).toFinset

/-! ### Acting on the choice -/

/-- Rewrite every log seen in `records` to its retained entries. -/
def rewriteGroups (J : LineSerde (IndexEntry Id)) (index : CacheIndex)
    (records : List (IndexRecord Id)) (retention : Retention Id) : CacheIndex :=
  (records.map (·.log)).dedup.foldl (fun index k => index.rewrite J k (retention.group k)) index

/-- The chunks of the live manifests; one that does not load ends the pass. -/
def markChunks (D : Digest Id) (J : Serde (Manifest Id)) (store : CasStore Id) :
    List Id → Finset Id → Except RunnerError (Finset Id)
  | [], liveChunks => .ok liveChunks
  | mid :: rest, liveChunks =>
    match store.getManifest D J mid with
    | .error e => .error e
    | .ok m => markChunks D J store rest (liveChunks ∪ (m.chunks.map (·.id)).toFinset)

/-- Delete every manifest that is not live and every chunk that is neither live nor leased; how
    many chunks and manifests went. -/
def sweepFiles (store : CasStore Id) (liveManifests liveChunks : Finset Id) (leases : LeaseSet Id) :
    (ℕ × ℕ) × CasStore Id :=
  let keepChunk (id : Id) : Bool := decide (id ∈ liveChunks) || leases.isLeased id
  (((store.blobs.keys.filter fun id => keepChunk id = false).card,
    (store.manifests.keys.filter fun id => id ∉ liveManifests).card),
    ⟨store.blobs.retain fun id _ => keepChunk id,
      store.manifests.retain fun id _ => decide (id ∈ liveManifests)⟩)

/-- `order` is the order in which the set of live manifests is gone through. -/
def sweep (D : Digest Id) (J : Serde (Manifest Id)) (store : CasStore Id) (order : List Id)
    (leases : LeaseSet Id) : Except RunnerError (ℕ × ℕ) × CasStore Id :=
  match markChunks D J store order ∅ with
  | .error e => (.error e, store)
  | .ok liveChunks =>
    let (counts, store) := sweepFiles store order.toFinset liveChunks leases
    (.ok counts, store)

/-- The cache as a whole: its store and its index. -/
structure CacheDir (Id : Type) where
  store : CasStore Id
  index : CacheIndex

/-- An order in which the live manifests are gone through. -/
structure MarkOrder (live : Finset Id) where
  order : List Id
  toFinset_eq : order.toFinset = live

/-- One GC pass at instant `now`. -/
def CacheGc.run (gc : CacheGc) (D : Digest Id) (JM : Serde (Manifest Id))
    (JE : LineSerde (IndexEntry Id)) (leases : LeaseSet Id) (now : DateTime) (cache : CacheDir Id)
    (listing : cache.index.Listing)
    (marking : (live : Finset Id) → MarkOrder live) : Except GcFailure GcReport × CacheDir Id :=
  match cutoffOf gc.ttlDays now with
  | .error failure => (.error failure, cache)
  | .ok cutoff =>
    let records := cache.index.records JE listing
    let retention := planRetention records cutoff gc.maxBytes
    let index := rewriteGroups JE cache.index records retention
    match sweep D JM cache.store (marking retention.liveManifests).order leases with
    | (.error e, store) => (.error (.error e), ⟨store, index⟩)
    | (.ok (chunksDeleted, manifestsDeleted), store) =>
      (.ok ⟨retention.expired, retention.evicted, chunksDeleted, manifestsDeleted⟩, ⟨store, index⟩)

end GhRunner.Cache
