import GhRunner.Cache.Store
import Mathlib.Algebra.BigOperators.Group.Finset.Basic
import Mathlib.Algebra.BigOperators.Group.List.Basic

namespace GhRunner.Cache

/-!
# The cache index

Append-only logs, one for each scope and version, of the entries that point at manifests
(`crates/cache/src/cas/index.rs`).

* `IndexEntry`, `IndexRecord` — one entry, and the same with its scope and version;
* `readEntries` — the entries of a log, past a torn last line and past lines that do not parse;
* `CacheIndex` — the log files, with `insert`, `rewrite` and `records`;
* `Listing` — an order in which the log files can be enumerated: a log under an empty scope or
  version is not found;
* `entries_insert`, `entries_rewrite` — what the writes do to the entries that are read back.
-/

/-- Nanoseconds since the epoch. -/
abbrev DateTime := ℤ

structure IndexEntry (Id : Type) where
  key : String
  manifest : Id
  sizeBytes : U64
  createdAt : DateTime
deriving DecidableEq

/-- The scope and the version a log is for. -/
abbrev LogKey := String × String

structure IndexRecord (Id : Type) where
  scope : String
  version : String
  entry : IndexEntry Id
deriving DecidableEq

def IndexRecord.log {Id : Type} (r : IndexRecord Id) : LogKey := (r.scope, r.version)

variable {Id : Type}

/-! ### Reading a log -/

/-- The terminated lines of a log, `line` being what has been read of the current one.  Bytes
    after the last newline are a torn tail. -/
def terminatedLines (line : Bytes) : Bytes → List Bytes
  | [] => []
  | b :: rest => if b = 10 then line :: terminatedLines [] rest else terminatedLines (line ++ [b]) rest

/-- A line may end in a carriage return before its newline. -/
def stripCr (line : Bytes) : Bytes := if line.getLast? = some 13 then line.dropLast else line

/-- An empty line is skipped, and so is one that does not parse. -/
def parseLine (J : LineSerde (IndexEntry Id)) (line : Bytes) : Option (IndexEntry Id) :=
  if stripCr line = [] then none else J.fromSlice (stripCr line)

def readEntries (J : LineSerde (IndexEntry Id)) (log : Bytes) : List (IndexEntry Id) :=
  (terminatedLines [] log).filterMap (parseLine J)

/-- One entry as it is written, with its newline. -/
def entryLine (J : LineSerde (IndexEntry Id)) (entry : IndexEntry Id) : Bytes :=
  J.toVec entry ++ [10]

/-- Nothing follows the last newline. -/
def Terminated (log : Bytes) : Prop := log = [] ∨ log.getLast? = some 10

theorem terminatedLines_append_newline (line xs ys : Bytes) :
    terminatedLines line (xs ++ 10 :: ys) =
      terminatedLines line (xs ++ [10]) ++ terminatedLines [] ys := by
  induction xs generalizing line with
  | nil => simp [terminatedLines]
  | cons b xs ih =>
    rw [List.cons_append, List.cons_append, terminatedLines, terminatedLines]
    split
    · rw [ih, List.cons_append]
    · exact ih _

theorem terminatedLines_line {xs : Bytes} (h : (10 : UInt8) ∉ xs) (line : Bytes) :
    terminatedLines line (xs ++ [10]) = [line ++ xs] := by
  induction xs generalizing line with
  | nil => simp [terminatedLines]
  | cons b xs ih =>
    rw [List.mem_cons, not_or] at h
    rw [List.cons_append, terminatedLines, if_neg (Ne.symm h.1), ih h.2, List.append_assoc,
      List.singleton_append]

@[simp] theorem readEntries_nil (J : LineSerde (IndexEntry Id)) : readEntries J [] = [] := rfl

theorem readEntries_append (J : LineSerde (IndexEntry Id)) {log : Bytes} (h : Terminated log)
    (rest : Bytes) : readEntries J (log ++ rest) = readEntries J log ++ readEntries J rest := by
  rcases h with rfl | h
  · rfl
  · obtain ⟨xs, rfl⟩ := List.getLast?_eq_some_iff.mp h
    rw [readEntries, List.append_assoc, List.singleton_append, terminatedLines_append_newline,
      List.filterMap_append, readEntries, readEntries]

@[simp] theorem readEntries_entryLine (J : LineSerde (IndexEntry Id)) (entry : IndexEntry Id) :
    readEntries J (entryLine J entry) = [entry] := by
  have hlast := J.closed entry
  have hstrip : stripCr (J.toVec entry) = J.toVec entry := by
    rw [stripCr, hlast, if_neg (by decide)]
  have hne : J.toVec entry ≠ [] := by
    intro h
    rw [h] at hlast
    cases hlast
  rw [readEntries, entryLine, terminatedLines_line (J.no_newline entry), List.nil_append]
  simp [parseLine, hstrip, hne, J.round_trip]

theorem terminated_append_entryLine (J : LineSerde (IndexEntry Id)) (log : Bytes)
    (entry : IndexEntry Id) : Terminated (log ++ entryLine J entry) := by
  refine .inr ?_
  rw [entryLine, ← List.append_assoc, List.getLast?_concat]

theorem terminated_flatMap (J : LineSerde (IndexEntry Id)) (entries : List (IndexEntry Id)) :
    Terminated (entries.flatMap (entryLine J)) := by
  induction entries using List.reverseRecOn with
  | nil => exact .inl rfl
  | append_singleton entries entry _ =>
    rw [List.flatMap_append, List.flatMap_singleton]
    exact terminated_append_entryLine J _ entry

/-- A log of whole lines reads back as the entries it was written from. -/
theorem readEntries_flatMap (J : LineSerde (IndexEntry Id)) (entries : List (IndexEntry Id)) :
    readEntries J (entries.flatMap (entryLine J)) = entries := by
  induction entries with
  | nil => rfl
  | cons entry entries ih =>
    have hline : Terminated (entryLine J entry) := terminated_append_entryLine J [] entry
    rw [List.flatMap_cons, readEntries_append J hline, readEntries_entryLine, ih,
      List.singleton_append]

/-! ### The log files -/

structure CacheIndex where
  logs : Finmap fun _ : LogKey => Bytes

namespace CacheIndex

def empty : CacheIndex := ⟨∅⟩

/-- What reading the log of a scope and version yields; a missing file yields nothing. -/
def entries (idx : CacheIndex) (J : LineSerde (IndexEntry Id)) (k : LogKey) :
    List (IndexEntry Id) :=
  readEntries J ((idx.logs.lookup k).getD [])

/-- Append one entry as a single line write. -/
def insert (idx : CacheIndex) (J : LineSerde (IndexEntry Id)) (scope version : String)
    (entry : IndexEntry Id) : CacheIndex :=
  ⟨idx.logs.insert (scope, version)
    ((idx.logs.lookup (scope, version)).getD [] ++ entryLine J entry)⟩

/-- Rewrite one log to exactly `entries`; none removes it. -/
def rewrite (idx : CacheIndex) (J : LineSerde (IndexEntry Id)) (k : LogKey)
    (entries : List (IndexEntry Id)) : CacheIndex :=
  if entries = [] then ⟨idx.logs.erase k⟩
  else ⟨idx.logs.insert k (entries.flatMap (entryLine J))⟩

/-- An empty scope leaves its logs among the scope directories, and an empty version gives its file
    a name without an extension: neither is enumerated. -/
def Visible (k : LogKey) : Prop := k.1 ≠ "" ∧ k.2 ≠ ""

instance (k : LogKey) : Decidable (Visible k) := inferInstanceAs (Decidable (_ ∧ _))

/-- An order in which the directories list the log files. -/
structure Listing (idx : CacheIndex) where
  order : List LogKey
  nodup : order.Nodup
  mem_iff : ∀ k, k ∈ order ↔ k ∈ idx.logs ∧ Visible k

/-- The records of one log. -/
def recordsOf (idx : CacheIndex) (J : LineSerde (IndexEntry Id)) (k : LogKey) :
    List (IndexRecord Id) :=
  (idx.entries J k).map fun entry => ⟨k.1, k.2, entry⟩

def records (idx : CacheIndex) (J : LineSerde (IndexEntry Id)) (listing : idx.Listing) :
    List (IndexRecord Id) :=
  listing.order.flatMap (idx.recordsOf J)

/-- No log has a torn tail. -/
def Terminated (idx : CacheIndex) : Prop := ∀ k, Cache.Terminated ((idx.logs.lookup k).getD [])

/-- The sizes of all entries added up. -/
def totalSize (idx : CacheIndex) (J : LineSerde (IndexEntry Id)) : ℕ :=
  ∑ k ∈ idx.logs.keys, ((idx.entries J k).map (·.sizeBytes.toNat)).sum

@[simp] theorem entries_empty (J : LineSerde (IndexEntry Id)) (k : LogKey) :
    empty.entries J k = [] := rfl

theorem entries_of_notMem {idx : CacheIndex} (J : LineSerde (IndexEntry Id)) {k : LogKey}
    (h : k ∉ idx.logs) : idx.entries J k = [] := by
  rw [entries, Finmap.lookup_eq_none.mpr h]
  rfl

theorem entries_insert {idx : CacheIndex} (h : idx.Terminated) (J : LineSerde (IndexEntry Id))
    (scope version : String) (entry : IndexEntry Id) (k : LogKey) :
    (idx.insert J scope version entry).entries J k =
      if k = (scope, version) then idx.entries J k ++ [entry] else idx.entries J k := by
  by_cases hk : k = (scope, version)
  · subst hk
    rw [if_pos rfl, entries, insert, Finmap.lookup_insert, Option.getD_some,
      readEntries_append J (h _), readEntries_entryLine]
    rfl
  · rw [if_neg hk, entries, insert, Finmap.lookup_insert_of_ne _ hk]
    rfl

theorem terminated_insert {idx : CacheIndex} (h : idx.Terminated) (J : LineSerde (IndexEntry Id))
    (scope version : String) (entry : IndexEntry Id) :
    (idx.insert J scope version entry).Terminated := by
  intro k
  by_cases hk : k = (scope, version)
  · subst hk
    rw [insert, Finmap.lookup_insert]
    exact terminated_append_entryLine J _ entry
  · rw [insert, Finmap.lookup_insert_of_ne _ hk]
    exact h k

theorem entries_rewrite (idx : CacheIndex) (J : LineSerde (IndexEntry Id)) (k : LogKey)
    (es : List (IndexEntry Id)) (j : LogKey) :
    (idx.rewrite J k es).entries J j = if j = k then es else idx.entries J j := by
  unfold rewrite
  by_cases hj : j = k
  · subst hj
    rw [if_pos rfl]
    split
    case isTrue hnil =>
      rw [entries, Finmap.lookup_erase, hnil]
      rfl
    case isFalse =>
      rw [entries, Finmap.lookup_insert]
      exact readEntries_flatMap J es
  · rw [if_neg hj]
    split
    · rw [entries, Finmap.lookup_erase_ne hj]
      rfl
    · rw [entries, Finmap.lookup_insert_of_ne _ hj]
      rfl

theorem terminated_rewrite {idx : CacheIndex} (h : idx.Terminated) (J : LineSerde (IndexEntry Id))
    (k : LogKey) (es : List (IndexEntry Id)) : (idx.rewrite J k es).Terminated := by
  intro j
  unfold rewrite
  by_cases hj : j = k
  · subst hj
    split
    · rw [Finmap.lookup_erase]
      exact .inl rfl
    · rw [Finmap.lookup_insert]
      exact terminated_flatMap J es
  · split
    · rw [Finmap.lookup_erase_ne hj]
      exact h j
    · rw [Finmap.lookup_insert_of_ne _ hj]
      exact h j

theorem filter_recordsOf (idx : CacheIndex) (J : LineSerde (IndexEntry Id)) (j k : LogKey) :
    ((idx.recordsOf J j).filter fun r => r.log = k).map (·.entry) =
      if j = k then idx.entries J j else [] := by
  rw [recordsOf, List.filter_map, List.map_map]
  by_cases hj : j = k
  · subst hj
    simp [Function.comp_def, IndexRecord.log]
  · simp [Function.comp_def, IndexRecord.log, hj]

/-- The records of a log, among all of them, are its entries. -/
theorem filter_records (idx : CacheIndex) (J : LineSerde (IndexEntry Id)) (listing : idx.Listing)
    (k : LogKey) :
    ((idx.records J listing).filter fun r => r.log = k).map (·.entry) =
      if Visible k then idx.entries J k else [] := by
  have hmany : ∀ order : List LogKey, order.Nodup →
      ((order.flatMap (idx.recordsOf J)).filter fun r => r.log = k).map (·.entry) =
        if k ∈ order then idx.entries J k else [] := by
    intro order horder
    induction order with
    | nil => rfl
    | cons j order ih =>
      obtain ⟨hj, horder⟩ := List.nodup_cons.mp horder
      rw [List.flatMap_cons, List.filter_append, List.map_append, filter_recordsOf, ih horder]
      by_cases hk : j = k
      · subst hk
        simp [hj]
      · simp [hk, Ne.symm hk]
  rw [records, hmany _ listing.nodup]
  simp only [listing.mem_iff]
  by_cases hmem : k ∈ idx.logs
  · simp [hmem]
  · simp [hmem, entries_of_notMem J hmem]

theorem mem_records_iff (idx : CacheIndex) (J : LineSerde (IndexEntry Id)) (listing : idx.Listing)
    {r : IndexRecord Id} :
    r ∈ idx.records J listing ↔ Visible r.log ∧ r.entry ∈ idx.entries J r.log := by
  have hfilter : r ∈ idx.records J listing ↔
      r.entry ∈ ((idx.records J listing).filter fun r' => r'.log = r.log).map (·.entry) := by
    constructor
    · intro hmem
      exact List.mem_map_of_mem (List.mem_filter.mpr ⟨hmem, by simp⟩)
    · intro hmem
      obtain ⟨r', hr', hentry⟩ := List.mem_map.mp hmem
      obtain ⟨hlisted, hlog⟩ := List.mem_filter.mp hr'
      obtain ⟨hscope, hversion⟩ := Prod.mk.inj (of_decide_eq_true hlog)
      have heq : r' = r := by
        cases r'
        cases r
        simp_all
      exact heq ▸ hlisted
  rw [hfilter, filter_records]
  split
  case isTrue hv => simp [hv]
  case isFalse hv => simp [hv]

end CacheIndex

end GhRunner.Cache
