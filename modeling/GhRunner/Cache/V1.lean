import GhRunner.Cache.Twirp

namespace GhRunner.Cache

open Saturating

/-!
# The v1 cache service of one job

The legacy REST routes, on the same store and index (`crates/cache/src/v1.rs`, `v1/handlers.rs`).

* `V1.lookup`, `V1.reserve`, `V1.uploadChunk`, `V1.finalize` — the handlers;
* `contentRangeStart`, `writeAt` — where a chunk goes, and what it does to the file.
-/

/-- What the routes answer, with the status it is sent with. -/
inductive V1Reply
  /-- 204 -/
  | noContent
  /-- 403 -/
  | forbidden
  /-- 400 -/
  | rejected
  /-- 500 -/
  | internalError (e : RunnerError)
  | okTrue
  | cacheId (id : U64)
  /-- The URL of the archive is written as its token. -/
  | hit (cacheKey scope : String) (archiveLocation : Token)
deriving DecidableEq

variable {Id : Type} [DecidableEq Id] (C : Codec Id) (job : CacheJob)

/-! ### Lookups -/

/-- The keys of a query: separated by commas, without the white space around them, the empty ones
    left out. -/
def splitKeys (keys : Text.Str) : List String :=
  ((keys.splitOn ',').map fun k => String.ofList (Text.trim k)).filter fun k => k ≠ ""

namespace CacheApp

/-- The manifest is registered under a fresh token. -/
def registerDownload (s : CacheApp Id) (m : Manifest Id) : Token × CacheApp Id :=
  (s.downloadTokens, { s with
    downloads := s.downloads.insert s.downloadTokens m
    downloadTokens := s.downloadTokens + 1 })

end CacheApp

/-! ### Uploads -/

/-- The start offset of a `Content-Range: bytes START-END/TOTAL`. -/
def contentRangeStart (contentRange : Option Text.Str) : Option U64 := do
  let range ← contentRange
  let afterBytes ← "bytes ".toList.isPrefixOf? range
  let (start, _) ← Text.splitFirst ['-'] afterBytes
  (parseU64 (Text.trim start)).toOption

/-- A file after `data` is written at an offset: what lies between its end and the offset reads as
    zeros. -/
def writeAt (file : Bytes) (offset : ℕ) (data : Bytes) : Bytes :=
  if data = [] then file
  else (file ++ List.replicate (offset - file.length) 0).take offset ++ data ++
    file.drop (offset + data.length)

namespace V1

variable (s : CacheApp Id)

/-- The first key is the primary one, the others are restore keys. -/
def lookup (keys version : String) : V1Reply × CacheApp Id :=
  match splitKeys keys.toList with
  | [] => (.noContent, s)
  | primary :: restore =>
    match s.resolveEntry C job version primary restore with
    | none => (.noContent, s)
    | some (matched, m) =>
      let (token, s) := s.registerDownload m
      (.hit matched job.scopes.write token, s)

/-- Create the staging file and record the reservation. -/
def doReserve (key version : String) : U64 × CacheApp Id :=
  (s.nextId, { s with
    nextId := s.nextId + 1
    staged := s.staged.insert (.reserved s.nextId) []
    reservations := s.reservations.insert s.nextId ⟨key, version, .reserved s.nextId⟩ })

def reserve (key version : String) : V1Reply × CacheApp Id :=
  if writeAllowed job.scopes.write job.trust job.protectedBranches = false then (.forbidden, s)
  else
    let (id, s) := doReserve s key version
    (.cacheId id, s)

/-- Write at the offset in the reservation's staging file, which is created if it is not there. -/
def writeChunk (cacheId offset : U64) (data : Bytes) : Except RunnerError Unit × CacheApp Id :=
  match s.reservations.lookup cacheId with
  | none =>
    (.error (.cache ("no reservation for cache id " ++ toString cacheId.toNat)), s)
  | some reservation =>
    let file := (s.staged.lookup reservation.staging).getD []
    (.ok (), { s with
      staged := s.staged.insert reservation.staging (writeAt file offset.toNat data) })

def uploadChunk (contentRange : Option Text.Str) (cacheId : U64) (body : Bytes) :
    V1Reply × CacheApp Id :=
  match contentRangeStart contentRange with
  | none => (.rejected, s)
  | some offset =>
    match writeChunk s cacheId offset body with
    | (.ok (), s) => (.okTrue, s)
    | (.error e, s) => (.internalError e, s)

/-- The reservation is consumed; `Ok(false)` rejects. -/
def doFinalize (cacheId size : U64) (now : DateTime) :
    Except RunnerError (Option Id) × CacheApp Id :=
  match s.reservations.lookup cacheId with
  | none => (.ok none, s)
  | some reservation =>
    { s with reservations := s.reservations.erase cacheId }.indexStaged C job reservation.staging
      reservation.key reservation.version size now

def finalize (cacheId size : U64) (now : DateTime) : V1Reply × CacheApp Id :=
  if writeAllowed job.scopes.write job.trust job.protectedBranches = false then (.forbidden, s)
  else
    match doFinalize C job s cacheId size now with
    | (.ok (some _), s) => (.okTrue, s)
    | (.ok none, s) => (.rejected, s)
    | (.error e, s) => (.internalError e, s)

end V1

end GhRunner.Cache
