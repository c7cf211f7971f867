import GhRunner.Cache.Index

namespace GhRunner.Cache

/-!
# Scopes, trust, and what a lookup finds

Which logs a job reads and writes, and how a key is resolved in them (`crates/cache/src/scope.rs`,
`trust.rs` and `CacheIndex::lookup` in `crates/cache/src/cas/index.rs`).

* `CacheScopes`, `scopesForJob` — the write scope and the read ladder;
* `TrustLevel`, `classifyTrust`, `writeAllowed` — which scopes a job may write;
* `newest`, `firstHit`, `CacheIndex.lookup` — the nearest scope that has the key, the newest entry
  in it;
* `mem_of_lookup`, `lookup_eq_none_iff`, `lookup_own` — a hit is an entry of a scope of the ladder, a
  miss on one scope means that the key is not in it, and the own scope comes first.
-/

/-! ### Scopes -/

/-- The scope a job writes, and the scopes it reads, most specific first. -/
structure CacheScopes where
  write : String
  readLadder : List String
deriving DecidableEq, Repr

def pushUnique (ladder : List String) (value : String) : List String :=
  if value ∈ ladder then ladder else ladder ++ [value]

/-- Own ref, base branch, protected branches, each once. -/
def scopesForJob (refName baseRef : Option String) (protectedBranches : List String) :
    CacheScopes where
  write := refName.getD ""
  readLadder :=
    (refName.toList ++ baseRef.toList ++ protectedBranches).foldl pushUnique []

/-! ### Trust -/

inductive TrustLevel
  | trusted
  | untrusted
deriving DecidableEq, Repr

def isProtected (branch : String) (protectedBranches : List String) : Bool :=
  protectedBranches.any fun p => p == branch

/-- Trusted is only a trusting event on a protected branch. -/
def classifyTrust (triggerEvent branch : String) (protectedBranches : List String) : TrustLevel :=
  if triggerEvent ∈ ["push", "schedule", "workflow_dispatch", "release", "merge_group"] ∧
      isProtected branch protectedBranches = true then .trusted
  else .untrusted

def writeAllowed (scope : String) (trust : TrustLevel) (protectedBranches : List String) : Bool :=
  !(isProtected scope protectedBranches && decide (trust = .untrusted))

theorem not_protected_of_writeAllowed {scope : String} {protectedBranches : List String}
    (h : writeAllowed scope .untrusted protectedBranches = true) :
    isProtected scope protectedBranches = false := by
  simpa [writeAllowed] using h

/-! ### Lookup -/

variable {Id : Type}

/-- The newest entry; of several as new, the last. -/
def newest : List (IndexEntry Id) → Option (IndexEntry Id)
  | [] => none
  | e :: es =>
    match newest es with
    | none => some e
    | some best => if best.createdAt < e.createdAt then some e else some best

theorem newest_eq_none_iff {es : List (IndexEntry Id)} : newest es = none ↔ es = [] := by
  cases es with
  | nil => simp [newest]
  | cons e es =>
    simp only [newest, reduceCtorEq, iff_false]
    split
    · simp
    · split <;> simp

theorem newest_mem {es : List (IndexEntry Id)} {e : IndexEntry Id} (h : newest es = some e) :
    e ∈ es := by
  induction es with
  | nil => cases h
  | cons head es ih =>
    unfold newest at h
    split at h
    case h_1 => exact Option.some.inj h ▸ List.mem_cons_self
    case h_2 best hbest =>
      split at h
      · exact Option.some.inj h ▸ List.mem_cons_self
      · exact List.mem_cons_of_mem _ (ih (hbest.trans h))

/-- The nearest scope with an entry of this kind, and the newest such entry in it. -/
def firstHit (kind : IndexEntry Id → Bool) (perScope : List (List (IndexEntry Id))) :
    Option (IndexEntry Id) :=
  perScope.findSome? fun entries => newest (entries.filter kind)

theorem mem_of_firstHit {kind : IndexEntry Id → Bool} {perScope : List (List (IndexEntry Id))}
    {e : IndexEntry Id} (h : firstHit kind perScope = some e) :
    ∃ entries ∈ perScope, e ∈ entries ∧ kind e = true := by
  obtain ⟨entries, hmem, hnewest⟩ := List.exists_of_findSome?_eq_some h
  exact ⟨entries, hmem, List.mem_filter.mp (newest_mem hnewest)⟩

theorem firstHit_cons_of_single {kind : IndexEntry Id → Bool} {entries : List (IndexEntry Id)}
    {e : IndexEntry Id} (h : entries.filter kind = [e]) (perScope : List (List (IndexEntry Id))) :
    firstHit kind (entries :: perScope) = some e := by
  rw [firstHit, List.findSome?_cons, h]
  rfl

namespace CacheIndex

/-- The exact key in the nearest scope that has it; failing that the restore keys in order, each as a
    prefix. -/
def lookup (idx : CacheIndex) (J : LineSerde (IndexEntry Id)) (ladder : List String)
    (version key : String) (restoreKeys : List String) : Option (String × IndexEntry Id) :=
  let perScope := ladder.map fun scope => idx.entries J (scope, version)
  let hit :=
    match firstHit (fun e => e.key = key) perScope with
    | some e => some e
    | none => (restoreKeys.filter fun k => k ≠ "").findSome? fun restoreKey : String =>
        firstHit (fun e => restoreKey.toList.isPrefixOf e.key.toList) perScope
  hit.map fun e => (e.key, e)

variable {idx : CacheIndex} {J : LineSerde (IndexEntry Id)} {ladder : List String}
  {version key : String} {restoreKeys : List String}

/-- What a lookup returns is an entry of a scope of the ladder, with its own key. -/
theorem mem_of_lookup {matched : String} {e : IndexEntry Id}
    (h : idx.lookup J ladder version key restoreKeys = some (matched, e)) :
    matched = e.key ∧ ∃ scope ∈ ladder, e ∈ idx.entries J (scope, version) := by
  unfold lookup at h
  obtain ⟨hit, hhit, heq⟩ := Option.map_eq_some_iff.mp h
  obtain ⟨rfl, rfl⟩ := Prod.mk.inj heq
  refine ⟨rfl, ?_⟩
  have hscopes : ∃ entries ∈ ladder.map fun scope => idx.entries J (scope, version),
      hit ∈ entries := by
    split at hhit
    case h_1 e he =>
      obtain rfl := Option.some.inj hhit
      obtain ⟨entries, hmem, hin, -⟩ := mem_of_firstHit he
      exact ⟨entries, hmem, hin⟩
    case h_2 =>
      obtain ⟨restoreKey, -, he⟩ := List.exists_of_findSome?_eq_some hhit
      obtain ⟨entries, hmem, hin, -⟩ := mem_of_firstHit he
      exact ⟨entries, hmem, hin⟩
  obtain ⟨entries, hmem, hin⟩ := hscopes
  obtain ⟨scope, hscope, rfl⟩ := List.mem_map.mp hmem
  exact ⟨scope, hscope, hin⟩

/-- In one scope and without restore keys, a lookup misses exactly when no entry has the key. -/
theorem lookup_eq_none_iff {scope : String} :
    idx.lookup J [scope] version key [] = none ↔
      ∀ e ∈ idx.entries J (scope, version), e.key ≠ key := by
  have hfirst : firstHit (fun e => e.key = key) [idx.entries J (scope, version)] =
      newest ((idx.entries J (scope, version)).filter fun e => e.key = key) := by
    rw [firstHit, List.findSome?_cons]
    split
    · next heq => exact heq.symm
    · next heq => rw [heq]; rfl
  have hfilter : newest ((idx.entries J (scope, version)).filter fun e => e.key = key) = none ↔
      ∀ e ∈ idx.entries J (scope, version), e.key ≠ key := by
    rw [newest_eq_none_iff, List.filter_eq_nil_iff]
    simp
  rw [lookup, Option.map_eq_none_iff, List.map_singleton, hfirst, ← hfilter]
  split
  case h_1 e he => simp [he]
  case h_2 he => simp [he]

/-- The own scope comes first: the one entry it has under the key is found. -/
theorem lookup_own {scope : String} {e : IndexEntry Id}
    (h : (idx.entries J (scope, version)).filter (fun e => e.key = key) = [e]) :
    idx.lookup J (scope :: ladder) version key restoreKeys = some (e.key, e) := by
  rw [lookup, List.map_cons, firstHit_cons_of_single h]
  rfl

/-- A lookup depends on what the scopes of its ladder hold for the version, and on nothing else. -/
theorem lookup_congr {idx' : CacheIndex}
    (h : ∀ scope ∈ ladder, idx'.entries J (scope, version) = idx.entries J (scope, version)) :
    idx'.lookup J ladder version key restoreKeys = idx.lookup J ladder version key restoreKeys := by
  rw [lookup, lookup, List.map_congr_left h]

end CacheIndex

end GhRunner.Cache
