import GhRunner.Lib.FiniteMap
import Mathlib.Logic.Encodable.Basic
import GhRunner.Lib.Machine
import GhRunner.Cache.Manifest

namespace GhRunner.Cache

open Saturating

/-!
# The content-addressed store

Chunks and manifests are files named by the digest of their contents
(`crates/cache/src/cas/store.rs`, `chunk_io.rs` and `chunker.rs`).

* `CasStore` — the two directories, as maps from digests to file contents.  A file may hold bytes
  that do not match its name (a torn write), so reading verifies;
* `chunkAndStore`, `ingest`, `putManifest`, `getManifest` — as in the source, over the chunks the
  chunker cut;
* `buildPlan`, `readRange` — a ranged read is a plan of steps, each reading one chunk from the
  store or, failing that, from the cold tier;
* `Op`, `CasStore.apply` — everything that is done to a store;
* `Intact` — no file is torn; every operation keeps it.
-/

inductive RunnerError
  | cache (message : String)
  | json
  | io
deriving DecidableEq, Repr

/-- What `serde_json` does for one type: it reads back what it wrote. -/
structure Serde (α : Type) where
  toVec : α → Bytes
  fromSlice : Bytes → Option α
  round_trip : ∀ a, fromSlice (toVec a) = some a

/-- `serde_json` for a type whose values are written one to a line: the text of an object, which
    has no newline in it and ends with a brace. -/
structure LineSerde (α : Type) extends Serde α where
  no_newline : ∀ a, (10 : UInt8) ∉ toVec a
  closed : ∀ a, (toVec a).getLast? = some 125

/-- A codec that writes the values of a table as their texts, and every other one as zeros and a
    brace. -/
def LineSerde.writing {α : Type} [Encodable α] [DecidableEq α] (table : List (α × Bytes))
    (htext : ∀ p ∈ table, p.2.head? = some 123 ∧ p.2.getLast? = some 125 ∧ 10 ∉ p.2)
    (hinj : ∀ p ∈ table, ∀ q ∈ table, p.2 = q.2 → p.1 = q.1) : LineSerde α where
  toVec a :=
    match table.find? fun p => p.1 = a with
    | some p => p.2
    | none => List.replicate (Encodable.encode a) 0 ++ [125]
  fromSlice bytes :=
    match table.find? fun p => p.2 = bytes with
    | some p => some p.1
    | none => Encodable.decode (bytes.length - 1)
  round_trip a := by
    cases ha : table.find? fun p => p.1 = a with
    | some p =>
      have hp := List.mem_of_find?_eq_some ha
      have hpa : p.1 = a := by simpa using List.find?_some ha
      cases hb : table.find? fun q => q.2 = p.2 with
      | some q =>
        have hq := List.mem_of_find?_eq_some hb
        have hqp : q.2 = p.2 := by simpa using List.find?_some hb
        simp only [hinj q hq p hp hqp, hpa]
      | none => simpa using List.find?_eq_none.mp hb p hp
    | none =>
      cases hb : table.find? fun q => q.2 = List.replicate (Encodable.encode a) 0 ++ [125] with
      | some q =>
        have hhead := (htext q (List.mem_of_find?_eq_some hb)).1
        have hq : q.2 = List.replicate (Encodable.encode a) 0 ++ [125] := by
          simpa using List.find?_some hb
        have hother : ∀ n : ℕ, (List.replicate n (0 : UInt8) ++ [125]).head? ≠ some 123 := by
          intro n
          cases n <;> simp [List.replicate_succ]
        exact absurd (hq ▸ hhead) (hother _)
      | none => simp
  no_newline a := by
    cases ha : table.find? fun p => p.1 = a with
    | some p => exact (htext p (List.mem_of_find?_eq_some ha)).2.2
    | none => simp
  closed a := by
    cases ha : table.find? fun p => p.1 = a with
    | some p => exact (htext p (List.mem_of_find?_eq_some ha)).2.1
    | none => simp

/-- The files of one directory, by the digest in their name. -/
abbrev Files (Id : Type) := Finmap fun _ : Id => Bytes

structure CasStore (Id : Type) where
  blobs : Files Id
  manifests : Files Id

/-- What the cold tier answers when asked for a chunk. -/
abbrev L2Tier (Id : Type) := Id → Except RunnerError (Option Bytes)

/-- Chunk id, bytes to skip within it, bytes to take. -/
abbrev ReadStep (Id : Type) := Id × U64 × U64

variable {Id : Type} [DecidableEq Id]

/-! ### Files -/

/-- `false` on a dedup hit. -/
def writeAtomic (files : Files Id) (id : Id) (bytes : Bytes) : Bool × Files Id :=
  if id ∈ files then (false, files) else (true, files.insert id bytes)

theorem lookup_writeAtomic (files : Files Id) (id : Id) (bytes : Bytes) (k : Id) :
    (writeAtomic files id bytes).2.lookup k =
      if k = id ∧ id ∉ files then some bytes else files.lookup k := by
  unfold writeAtomic
  split
  case isTrue h => rw [if_neg (fun hk => hk.2 h)]
  case isFalse h =>
    by_cases hk : k = id
    · rw [if_pos ⟨hk, h⟩, hk, Finmap.lookup_insert]
    · rw [if_neg (fun hk' => hk hk'.1), Finmap.lookup_insert_of_ne _ hk]

/-- A write leaves every file there is as it is. -/
theorem lookup_writeAtomic_of_some {files : Files Id} {k : Id} {b : Bytes}
    (h : files.lookup k = some b) (id : Id) (bytes : Bytes) :
    (writeAtomic files id bytes).2.lookup k = some b := by
  rw [lookup_writeAtomic, if_neg, h]
  rintro ⟨rfl, hnew⟩
  exact hnew (Finmap.mem_of_lookup_eq_some h)

def verifyBytes (D : Digest Id) (bytes : Bytes) (id : Id) : Except RunnerError Unit :=
  if D.hash bytes = id then .ok ()
  else .error (.cache ("chunk digest mismatch: expected " ++ D.toHex id))

/-- `read_verified`: a missing file is an IO error, a torn one a mismatch. -/
def readVerified (D : Digest Id) (files : Files Id) (id : Id) : Except RunnerError Bytes :=
  match files.lookup id with
  | none => .error .io
  | some bytes => (verifyBytes D bytes id).map fun _ => bytes

/-! ### Saving -/

/-- The loop of `chunk_and_store` over the chunks still to come. -/
def chunkAndStore (D : Digest Id) :
    List Bytes → Files Id → List (ChunkRef Id) → U64 → Except RunnerError (Manifest Id) × Files Id
  | [], blobs, chunks, total => (.ok ⟨chunks, total⟩, blobs)
  | data :: rest, blobs, chunks, total =>
    if data.length < 2 ^ 32 then
      let id := D.hash data
      let len := BitVec.ofNat 32 data.length
      chunkAndStore D rest (writeAtomic blobs id data).2 (chunks ++ [⟨id, len⟩])
        (satAdd total (len.setWidth 64))
    else
      (.error (.cache "chunk too large: out of range integral type conversion attempted"), blobs)

namespace CasStore

def empty : CasStore Id := ⟨∅, ∅⟩

/-- `parts` is what the chunker cuts the staged file into.  The mirroring to the cold tier is best
    effort and touches nothing here. -/
def ingest (s : CasStore Id) (D : Digest Id) (parts : List Bytes) :
    Except RunnerError (Manifest Id) × CasStore Id :=
  let (result, blobs) := chunkAndStore D parts s.blobs [] 0
  (result, { s with blobs })

def putManifest (s : CasStore Id) (D : Digest Id) (J : Serde (Manifest Id)) (m : Manifest Id) :
    Id × CasStore Id :=
  let json := J.toVec m
  let id := D.hash json
  (id, { s with manifests := (writeAtomic s.manifests id json).2 })

def getManifest (s : CasStore Id) (D : Digest Id) (J : Serde (Manifest Id)) (id : Id) :
    Except RunnerError (Manifest Id) :=
  match readVerified D s.manifests id with
  | .error e => .error e
  | .ok bytes =>
    match J.fromSlice bytes with
    | some m => .ok m
    | none => .error .json

def deleteChunk (s : CasStore Id) (id : Id) : CasStore Id := { s with blobs := s.blobs.erase id }

def deleteManifest (s : CasStore Id) (id : Id) : CasStore Id :=
  { s with manifests := s.manifests.erase id }

end CasStore

/-! ### Ranged reads -/

/-- The loop of `build_plan`: `remaining` bytes, the first `skip` bytes into the next chunk. -/
def takeSteps : List (ChunkRef Id) → U64 → U64 → List (ReadStep Id)
  | [], _, _ => []
  | chunk :: rest, remaining, skip =>
    if remaining = 0 then []
    else
      let take := minOf (satSub chunk.len64 skip) remaining
      (chunk.id, skip, take) :: takeSteps rest (satSub remaining take) 0

/-- The read plan covering `[offset, offset+len)`. -/
def buildPlan (m : Manifest Id) (offset len : U64) : List (ReadStep Id) :=
  match m.locate offset with
  | none => []
  | some (startIdx, intra) =>
    takeSteps (m.chunks.drop startIdx) (minOf len (satSub m.totalSize offset)) intra

/-- `[skip, skip+take)` of `bytes`; `usize` is 64 bits wide. -/
def sliceOf (bytes : Bytes) (skip take : U64) : Except RunnerError Bytes :=
  let start := skip.toNat
  let stop := (satAdd skip take).toNat
  if start ≤ stop ∧ stop ≤ bytes.length then .ok (bytes.extract start stop)
  else .error (.cache "chunk slice out of range")

/-- Pull a chunk from the cold tier, verifying before the write. -/
def restoreFromL2 (D : Digest Id) (l2 : Option (L2Tier Id)) (blobs : Files Id) (id : Id) :
    Except RunnerError Bytes × Files Id :=
  match l2 with
  | none => (.error (.cache ("missing chunk " ++ D.toHex id)), blobs)
  | some l2 =>
    match l2 id with
    | .error e => (.error e, blobs)
    | .ok none =>
      (.error (.cache ("missing chunk " ++ D.toHex id ++ " (absent from L1 and L2)")), blobs)
    | .ok (some bytes) =>
      match verifyBytes D bytes id with
      | .error e => (.error e, blobs)
      | .ok () => (.ok bytes, (writeAtomic blobs id bytes).2)

/-- A chunk that is missing or torn is restored from the cold tier; a torn one is removed first. -/
def readChunkOrRestore (D : Digest Id) (l2 : Option (L2Tier Id)) (blobs : Files Id) (id : Id) :
    Except RunnerError Bytes × Files Id :=
  match blobs.lookup id with
  | none => restoreFromL2 D l2 blobs id
  | some bytes =>
    match verifyBytes D bytes id with
    | .ok () => (.ok bytes, blobs)
    | .error _ => restoreFromL2 D l2 (blobs.erase id) id

def readSlice (D : Digest Id) (l2 : Option (L2Tier Id)) (blobs : Files Id) :
    ReadStep Id → Except RunnerError Bytes × Files Id
  | (id, skip, take) =>
    match readChunkOrRestore D l2 blobs id with
    | (.error e, blobs) => (.error e, blobs)
    | (.ok bytes, blobs) => (sliceOf bytes skip take, blobs)

/-- The stream's items, with the files as the last of them leaves them. -/
def readSteps (D : Digest Id) (l2 : Option (L2Tier Id)) :
    List (ReadStep Id) → Files Id → List (Except RunnerError Bytes) × Files Id
  | [], blobs => ([], blobs)
  | step :: rest, blobs =>
    let (item, blobs) := readSlice D l2 blobs step
    let (items, blobs) := readSteps D l2 rest blobs
    (item :: items, blobs)

namespace CasStore

def readRange (s : CasStore Id) (D : Digest Id) (l2 : Option (L2Tier Id)) (m : Manifest Id)
    (offset len : U64) : List (Except RunnerError Bytes) × CasStore Id :=
  let (items, blobs) := readSteps D l2 (buildPlan m offset len) s.blobs
  (items, { s with blobs })

end CasStore

/-! ### Histories of a store -/

/-- One thing done to a store. -/
inductive Op (Id : Type)
  | ingest (parts : List Bytes)
  | putManifest (m : Manifest Id)
  | readRange (l2 : Option (L2Tier Id)) (m : Manifest Id) (offset len : U64)
  | deleteChunk (id : Id)
  | deleteManifest (id : Id)

def CasStore.apply (D : Digest Id) (J : Serde (Manifest Id)) (s : CasStore Id) :
    Op Id → CasStore Id
  | .ingest parts => (s.ingest D parts).2
  | .putManifest m => (s.putManifest D J m).2
  | .readRange l2 m offset len => (s.readRange D l2 m offset len).2
  | .deleteChunk id => s.deleteChunk id
  | .deleteManifest id => s.deleteManifest id

/-- Every file holds the bytes its name is the digest of. -/
def Files.Intact (D : Digest Id) (files : Files Id) : Prop :=
  ∀ id bytes, files.lookup id = some bytes → D.hash bytes = id

structure CasStore.Intact (D : Digest Id) (s : CasStore Id) : Prop where
  blobs : Files.Intact D s.blobs
  manifests : Files.Intact D s.manifests

namespace Files

theorem Intact.empty (D : Digest Id) : Intact D ∅ := by
  intro id bytes h
  rw [Finmap.lookup_empty] at h
  cases h

theorem Intact.erase {D : Digest Id} {files : Files Id} (h : Intact D files) (id : Id) :
    Intact D (files.erase id) := by
  intro k bytes hk
  by_cases hid : k = id
  · rw [hid, Finmap.lookup_erase] at hk
    cases hk
  · rw [Finmap.lookup_erase_ne hid] at hk
    exact h k bytes hk

theorem Intact.writeAtomic {D : Digest Id} {files : Files Id} (h : Intact D files) {id : Id}
    {bytes : Bytes} (hid : D.hash bytes = id) : Intact D (writeAtomic files id bytes).2 := by
  intro k b hk
  rw [lookup_writeAtomic] at hk
  split at hk
  case isTrue hnew =>
    rw [← Option.some.inj hk, hid, hnew.1]
  case isFalse => exact h k b hk

end Files

end GhRunner.Cache
