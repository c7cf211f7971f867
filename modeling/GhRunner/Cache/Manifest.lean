import GhRunner.Lib.Saturating
import GhRunner.Lib.Pieces

namespace GhRunner.Cache

open Saturating

/-!
# Chunk ids, chunk references and the manifest

The manifest lists the chunks of one blob in assembly order; a ranged read finds its first chunk
through `locate` (`crates/cache/src/cas/manifest.rs`).

* `Digest` — BLAKE3 and the hex rendering of its digests; nothing else about a digest matters, so
  the type of digests is a parameter;
* `Manifest.locate` — the chunk that holds an offset;
* `locateFrom_append` — what it finds, in terms of the chunk lengths as plain numbers.
-/

abbrev U32 := BitVec 32

abbrev U64 := BitVec 64

abbrev Bytes := List UInt8

/-- A content digest: how it is computed and how it is written. -/
structure Digest (Id : Type) where
  hash : Bytes → Id
  toHex : Id → String

/-- One chunk by its digest and length. -/
structure ChunkRef (Id : Type) where
  id : Id
  len : U32
deriving DecidableEq

structure Manifest (Id : Type) where
  chunks : List (ChunkRef Id)
  totalSize : U64
deriving DecidableEq

variable {Id : Type}

/-- `u64::from` of a chunk length. -/
def ChunkRef.len64 (chunk : ChunkRef Id) : U64 := chunk.len.setWidth 64

@[simp] theorem ChunkRef.toNat_len64 (chunk : ChunkRef Id) :
    chunk.len64.toNat = chunk.len.toNat := by
  have := chunk.len.isLt
  rw [len64, BitVec.toNat_setWidth, Nat.mod_eq_of_lt (by omega)]

namespace Manifest

/-- The loop of `locate`, from chunk number `idx` at running offset `start`. -/
def locateFrom (offset : U64) : List (ChunkRef Id) → ℕ → U64 → Option (ℕ × U64)
  | [], _, _ => none
  | chunk :: rest, idx, start =>
    let stop := satAdd start chunk.len64
    if offset < stop then some (idx, offset - start) else locateFrom offset rest (idx + 1) stop

/-- Chunk index and intra-chunk offset holding byte `offset`. -/
def locate (m : Manifest Id) (offset : U64) : Option (ℕ × U64) :=
  if m.totalSize ≤ offset then none else locateFrom offset m.chunks 0 0

/-- The chunk lengths added up, without saturation. -/
def size (chunks : List (ChunkRef Id)) : ℕ := (chunks.map (·.len.toNat)).sum

@[simp] theorem size_nil : size ([] : List (ChunkRef Id)) = 0 := rfl

@[simp] theorem size_cons (chunk : ChunkRef Id) (chunks : List (ChunkRef Id)) :
    size (chunk :: chunks) = chunk.len.toNat + size chunks := List.sum_cons

/-- The offset lies `k` bytes into the chunk after `before`. -/
theorem locateFrom_append {offset : U64} (hoffset : offset.toNat < maxNat 64)
    (before : List (ChunkRef Id)) (chunk : ChunkRef Id) (after : List (ChunkRef Id)) (idx : ℕ)
    {start : U64} {k : ℕ} (hk : k < chunk.len.toNat)
    (hsum : offset.toNat = start.toNat + size before + k) :
    ∃ intra : U64, intra.toNat = k ∧
      locateFrom offset (before ++ chunk :: after) idx start = some (idx + before.length, intra) := by
  induction before generalizing idx start with
  | nil =>
    rw [size_nil] at hsum
    have hstop : offset < satAdd start chunk.len64 := by
      rw [BitVec.lt_def, toNat_satAdd, ChunkRef.toNat_len64]
      omega
    refine ⟨offset - start, ?_, if_pos hstop⟩
    rw [BitVec.toNat_sub_of_le (BitVec.le_def.mpr (by omega))]
    omega
  | cons b before ih =>
    rw [size_cons] at hsum
    have hstop : (satAdd start b.len64).toNat = start.toNat + b.len.toNat := by
      rw [toNat_satAdd, ChunkRef.toNat_len64]
      omega
    have hpast : ¬ offset < satAdd start b.len64 := by
      rw [BitVec.lt_def, hstop]
      omega
    have hrest : offset.toNat = (satAdd start b.len64).toNat + size before + k := by omega
    obtain ⟨intra, hintra, hfound⟩ := ih (idx + 1) hrest
    refine ⟨intra, hintra, ?_⟩
    rw [List.cons_append, locateFrom]
    simp only [if_neg hpast, hfound, List.length_cons]
    rw [Nat.add_assoc, Nat.add_comm 1]

end Manifest

end GhRunner.Cache
