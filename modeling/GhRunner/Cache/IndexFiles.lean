import GhRunner.Cache.IndexCrash
import GhRunner.Cache.Lookup
import GhRunner.Lib.Base64
import GhRunner.Lib.FileTree
import GhRunner.Lib.Utf8

namespace GhRunner.Cache

/-!
# The files of the cache index

Where the logs of the index stand on disk, and how they are found again
(`CacheIndex` and the walk of `crates/cache/src/cas/index.rs`).

* `versionFile` — the path of a log: scope and version in Base64, one path component each;
* `IndexFiles.insert`, `rewrite`, `lookup`, `records` — the operations on the tree of files;
* `Represents` — the files are those of a `CacheIndex`; every operation keeps it
  (`represents_insert`, `represents_rewrite`), no insertion fails, and the walk yields the records of
  the index in some order (`records_eq`);
* `enumeration_complete_iff` — the walk finds what lookups find exactly when no scope and no version
  is empty.
-/

open Text FileTree

variable {Id : Type}

/-- Which of the entries of the ladder's scopes a lookup takes. -/
def chooseHit (perScope : List (List (IndexEntry Id))) (key : String) (restoreKeys : List String) :
    Option (String × IndexEntry Id) :=
  let hit :=
    match firstHit (fun e => e.key = key) perScope with
    | some e => some e
    | none => (restoreKeys.filter fun k => k ≠ "").findSome? fun restoreKey : String =>
        firstHit (fun e => restoreKey.toList.isPrefixOf e.key.toList) perScope
  hit.map fun e => (e.key, e)

theorem CacheIndex.lookup_eq_chooseHit (idx : CacheIndex) (J : LineSerde (IndexEntry Id))
    (ladder : List String) (version key : String) (restoreKeys : List String) :
    idx.lookup J ladder version key restoreKeys =
      chooseHit (ladder.map fun scope => idx.entries J (scope, version)) key restoreKeys := rfl

namespace IndexFiles

/-! ### Paths -/

/-- A scope or a version as part of a path. -/
def segment (name : String) : Str := Base64.encode Base64.urlSafe (Utf8.bytes name.toList)

def decodeSegmentStr (text : Str) : Except RunnerError String :=
  match Base64.decode Base64.urlSafe text with
  -- the description of the fault that follows the colon is the library's
  | none => .error (.cache "bad index segment: ")
  | some bytes =>
    match Utf8.decode bytes with
    | none => .error (.cache "index segment not utf8: ")
    | some name => .ok (String.ofList name)

def indexDir : Path := ["index".toList]

def scopeDir (scope : String) : Path := join indexDir (segment scope)

def fileName (version : String) : Str := segment version ++ ".jsonl".toList

/-- The log of one scope and version. -/
def versionFile (k : LogKey) : Path := join (scopeDir k.1) (fileName k.2)

theorem segment_injective : Function.Injective segment := fun _ _ h =>
  String.toList_injective (Utf8.bytes_injective (Base64.encode_injective _ h))

@[simp] theorem segment_eq_nil_iff {name : String} : segment name = [] ↔ name = "" := by
  rw [segment, Base64.encode_eq_nil_iff]
  constructor
  · intro h
    exact String.toList_injective (Utf8.bytes_injective h)
  · rintro rfl
    rfl

/-- A segment neither ends a path component nor has an extension. -/
theorem segment_safe (name : String) : '/' ∉ segment name ∧ '.' ∉ segment name := by
  have hslash : '/' ∉ Base64.urlSafe.chars := by decide
  have hdot : '.' ∉ Base64.urlSafe.chars := by decide
  exact ⟨fun h => hslash (Base64.mem_encode _ h), fun h => hdot (Base64.mem_encode _ h)⟩

theorem decodeSegmentStr_segment (name : String) : decodeSegmentStr (segment name) = .ok name := by
  rw [decodeSegmentStr, segment, Base64.decode_encode]
  have hutf8 : Utf8.decode (Utf8.bytes name.toList) = some name.toList :=
    Utf8.decode_eq_some_iff.mpr rfl
  simp only [hutf8, String.ofList_toList]

theorem fileName_safe (version : String) : '/' ∉ fileName version := by
  rw [fileName, List.mem_append, not_or]
  exact ⟨(segment_safe version).1, by decide⟩

theorem fileName_ne_nil (version : String) : fileName version ≠ [] := by
  simp [fileName]

theorem scopeDir_eq (scope : String) :
    scopeDir scope = if scope = "" then indexDir else indexDir ++ [segment scope] := by
  rw [scopeDir, join, components_eq (segment_safe scope).1]
  simp only [segment_eq_nil_iff]
  split <;> simp

theorem versionFile_eq (k : LogKey) : versionFile k = scopeDir k.1 ++ [fileName k.2] := by
  rw [versionFile, join, components_eq (fileName_safe k.2), if_neg (fileName_ne_nil k.2)]

theorem scopeDir_injective : Function.Injective scopeDir := by
  intro scope scope' h
  rw [scopeDir_eq, scopeDir_eq] at h
  split at h <;> split at h
  · next hs hs' => rw [hs, hs']
  · simp [indexDir] at h
  · simp [indexDir] at h
  · exact segment_injective (by simpa [indexDir] using h)

theorem fileName_injective : Function.Injective fileName := fun _ _ h =>
  segment_injective (List.append_cancel_right h)

theorem versionFile_injective : Function.Injective versionFile := by
  intro k k' h
  rw [versionFile_eq, versionFile_eq] at h
  obtain ⟨hscope, hversion⟩ := List.append_inj' h rfl
  exact Prod.ext (scopeDir_injective hscope) (fileName_injective (List.singleton_inj.mp hversion))

/-- No directory of the index has the path of a log. -/
theorem versionFile_ne_scopeDir (k : LogKey) (scope : String) : versionFile k ≠ scopeDir scope := by
  intro h
  have hdot : '.' ∈ fileName k.2 := by simp [fileName]
  rw [versionFile_eq, scopeDir_eq, scopeDir_eq] at h
  split at h <;> split at h
  · simp [indexDir] at h
  · have hname : fileName k.2 = segment scope := by simpa [indexDir] using h
    exact (segment_safe scope).2 (hname ▸ hdot)
  · simp [indexDir] at h
  · have hlen := congrArg List.length h
    simp [indexDir] at hlen

theorem prefix_scopeDir {q : Path} {scope : String} (h : q <+: scopeDir scope) :
    q = [] ∨ q = indexDir ∨ q = scopeDir scope := by
  rw [scopeDir_eq] at h ⊢
  split at h
  case isTrue hs =>
    rw [if_pos hs]
    rcases List.prefix_concat_iff.mp (show q <+: [] ++ ["index".toList] from h) with h | h
    · exact .inr (.inl h)
    · exact .inl (List.prefix_nil.mp h)
  case isFalse hs =>
    rw [if_neg hs]
    rcases List.prefix_concat_iff.mp h with h | h
    · exact .inr (.inr h)
    · rcases List.prefix_concat_iff.mp (show q <+: [] ++ ["index".toList] from h) with h | h
      · exact .inr (.inl h)
      · exact .inl (List.prefix_nil.mp h)

theorem scopeDir_empty : scopeDir "" = indexDir := by
  rw [scopeDir_eq, if_pos rfl]

theorem scopeDir_ne_nil (scope : String) : scopeDir scope ≠ [] := by
  rw [scopeDir_eq]
  split <;> simp [indexDir]

theorem indexDir_above (scope : String) : indexDir <+: scopeDir scope := by
  rw [scopeDir_eq]
  split
  · exact List.prefix_refl _
  · exact List.prefix_append _ _

theorem versionFile_not_above (k : LogKey) (scope : String) :
    ¬ versionFile k <+: scopeDir scope := by
  intro h
  rcases prefix_scopeDir h with heq | heq | heq
  · rw [versionFile_eq] at heq
    simp at heq
  · exact versionFile_ne_scopeDir k "" (heq.trans scopeDir_empty.symm)
  · exact versionFile_ne_scopeDir k scope heq

/-! ### The operations -/

def mapIo {α : Type} (result : Except IoError α) : Except RunnerError α :=
  result.mapError fun _ => .io

/-- Open a log, its directories being made first, and store what is made of its content. -/
def writeLog (t : Tree) (path : Path) (f : Bytes → Bytes) : Except RunnerError Tree :=
  mapIo do
    let t ← t.createDirAll path.dropLast
    t.write path f

/-- Append one entry as a single line write. -/
def insert (J : LineSerde (IndexEntry Id)) (t : Tree) (scope version : String)
    (entry : IndexEntry Id) : Except RunnerError Tree :=
  writeLog t (versionFile (scope, version)) fun log => log ++ entryLine J entry

/-- Replace a log; none removes it.  The sibling file that is renamed over it is gone by then. -/
def rewrite (J : LineSerde (IndexEntry Id)) (t : Tree) (k : LogKey)
    (entries : List (IndexEntry Id)) : Except RunnerError Tree :=
  if entries = [] then
    match t.remove (versionFile k) with
    | .ok t => .ok t
    | .error .notFound => .ok t
    | .error _ => .error .io
  else writeLog t (versionFile k) fun _ => entries.flatMap (entryLine J)

/-- A missing file yields no entries. -/
def readFile (J : LineSerde (IndexEntry Id)) (t : Tree) (path : Path) :
    Except RunnerError (List (IndexEntry Id)) :=
  match t.read path with
  | .ok bytes => .ok (readEntries J bytes)
  | .error .notFound => .ok []
  | .error _ => .error .io

def lookup (J : LineSerde (IndexEntry Id)) (t : Tree) (ladder : List String)
    (version key : String) (restoreKeys : List String) :
    Except RunnerError (Option (String × IndexEntry Id)) := do
  let perScope ← ladder.mapM fun scope => readFile J t (versionFile (scope, version))
  return chooseHit perScope key restoreKeys

/-- The records of one file, if its name is that of a log. -/
def fileRecords (J : LineSerde (IndexEntry Id)) (t : Tree) (scopePath : Path) (scope : String)
    (name : Str) : Except RunnerError (List (IndexRecord Id)) :=
  if extension name = some "jsonl".toList then do
    let version ← decodeSegmentStr (fileStem name)
    let entries ← readFile J t (scopePath ++ [name])
    return entries.map fun entry => ⟨scope, version, entry⟩
  else return []

/-- Every entry under one scope directory. -/
def collectVersions (J : LineSerde (IndexEntry Id)) (t : Tree) (listing : t.Listing)
    (scopePath : Path) (scope : String) : Except RunnerError (List (IndexRecord Id)) :=
  List.flatten <$> (listing.order scopePath).mapM (fileRecords J t scopePath scope)

/-- Only directories are gone into. -/
def childRecords (J : LineSerde (IndexEntry Id)) (t : Tree) (listing : t.Listing) (name : Str) :
    Except RunnerError (List (IndexRecord Id)) :=
  if t.isDir (indexDir ++ [name]) then do
    let scope ← decodeSegmentStr name
    collectVersions J t listing (indexDir ++ [name]) scope
  else return []

def records (J : LineSerde (IndexEntry Id)) (t : Tree) (listing : t.Listing) :
    Except RunnerError (List (IndexRecord Id)) :=
  match t.nodes.lookup indexDir with
  | none => .ok []
  | some (.file _) => .error .io
  | some .dir => List.flatten <$> (listing.order indexDir).mapM (childRecords J t listing)

/-! ### The files of an index -/

/-- The tree holds the logs of the index, and beside them the directories they are in. -/
structure Represents (t : Tree) (idx : CacheIndex) : Prop where
  files : ∀ k, t.nodes.lookup (versionFile k) = (idx.logs.lookup k).map .file
  dirs : ∀ k ∈ idx.logs, t.nodes.lookup (scopeDir k.1) = some .dir
  root : ∀ scope, scopeDir scope ∈ t.nodes → t.nodes.lookup indexDir = some .dir
  known : ∀ p ∈ t.nodes, (∃ k, p = versionFile k) ∨
    (∃ scope, p = scopeDir scope) ∧ t.nodes.lookup p = some .dir

theorem represents_empty : Represents .empty .empty where
  files _ := rfl
  dirs _ hk := absurd hk Finmap.notMem_empty
  root _ hscope := absurd hscope Finmap.notMem_empty
  known _ hp := absurd hp Finmap.notMem_empty

section Represented

variable {t : Tree} {idx : CacheIndex} (h : Represents t idx) (J : LineSerde (IndexEntry Id))
include h

theorem Represents.readFile_eq (k : LogKey) : readFile J t (versionFile k) = .ok (idx.entries J k) := by
  rw [readFile, Tree.read, h.files k, CacheIndex.entries]
  cases idx.logs.lookup k <;> rfl

/-- No file stands where a directory of the index does. -/
theorem Represents.not_file {q : Path} {scope : String} (hq : q <+: scopeDir scope)
    (content : Bytes) : t.nodes.lookup q ≠ some (.file content) := by
  intro hfile
  rcases h.known q (Finmap.mem_iff.mpr ⟨_, hfile⟩) with ⟨k, rfl⟩ | ⟨-, hdir⟩
  · exact versionFile_not_above k scope hq
  · rw [hfile] at hdir
    cases hdir

theorem Represents.writeLog_spec (k : LogKey) (f : Bytes → Bytes) :
    ∃ t', writeLog t (versionFile k) f = .ok t' ∧
      Represents t' ⟨idx.logs.insert k (f ((idx.logs.lookup k).getD []))⟩ := by
  have hparent : (versionFile k).dropLast = scopeDir k.1 := by
    rw [versionFile_eq, List.dropLast_concat]
  obtain ⟨t₁, ht₁, hlookup₁⟩ := @Tree.createDirAll_spec t (scopeDir k.1)
    fun q hq content => h.not_file hq content
  have hdir₁ : ∀ q, q <+: scopeDir k.1 → q ≠ [] → t₁.nodes.lookup q = some .dir :=
    fun q hq hne => (hlookup₁ q).trans (if_pos ⟨hq, hne⟩)
  have hkeep₁ : ∀ q, t.nodes.lookup q = some .dir → t₁.nodes.lookup q = some .dir := by
    intro q hq
    rw [hlookup₁]
    split
    · rfl
    · exact hq
  have hfile₁ : ∀ j, t₁.nodes.lookup (versionFile j) = (idx.logs.lookup j).map .file := by
    intro j
    rw [hlookup₁, if_neg fun hj => versionFile_not_above j k.1 hj.1]
    exact h.files j
  have hisDir : t₁.isDir (versionFile k).dropLast = true := by
    rw [hparent, Tree.isDir, hdir₁ _ (List.prefix_refl _) (scopeDir_ne_nil k.1)]
    simp
  obtain ⟨t₂, ht₂, hlookup₂⟩ := Tree.write_spec (f := f) hisDir (hfile₁ k)
  have hdir₂ : ∀ scope, t₂.nodes.lookup (scopeDir scope) = t₁.nodes.lookup (scopeDir scope) := by
    intro scope
    rw [hlookup₂, if_neg (versionFile_ne_scopeDir k scope).symm]
  refine ⟨t₂, ?_, ?_, ?_, ?_, ?_⟩
  · rw [writeLog, hparent, ht₁]
    exact congrArg mapIo ht₂
  · intro j
    rw [hlookup₂]
    by_cases hj : j = k
    · subst hj
      rw [if_pos rfl, Finmap.lookup_insert]
      rfl
    · rw [if_neg fun heq => hj (versionFile_injective heq), Finmap.lookup_insert_of_ne _ hj]
      exact hfile₁ j
  · intro j hj
    rw [hdir₂]
    rcases Finmap.mem_insert.mp hj with rfl | hj
    · exact hdir₁ _ (List.prefix_refl _) (scopeDir_ne_nil _)
    · exact hkeep₁ _ (h.dirs j hj)
  · intro _ _
    rw [← scopeDir_empty, hdir₂, scopeDir_empty]
    exact hdir₁ _ (indexDir_above _) (by simp [indexDir])
  · intro q hq
    by_cases hk : q = versionFile k
    · exact .inl ⟨k, hk⟩
    have hq₁ : t₂.nodes.lookup q = t₁.nodes.lookup q := by rw [hlookup₂, if_neg hk]
    obtain ⟨node, hnode⟩ := Finmap.mem_iff.mp hq
    rw [hq₁] at hnode ⊢
    by_cases hmade : q <+: scopeDir k.1 ∧ q ≠ []
    · refine .inr ⟨?_, hdir₁ q hmade.1 hmade.2⟩
      rcases prefix_scopeDir hmade.1 with rfl | rfl | rfl
      · exact absurd rfl hmade.2
      · exact ⟨"", scopeDir_empty.symm⟩
      · exact ⟨k.1, rfl⟩
    · rw [hlookup₁, if_neg hmade] at hnode
      rcases h.known q (Finmap.mem_iff.mpr ⟨node, hnode⟩) with hlog | ⟨hscope, hdir⟩
      · exact .inl hlog
      · exact .inr ⟨hscope, hkeep₁ q hdir⟩

/-- An insertion does not fail, and the files hold what it makes of the index. -/
theorem Represents.insert (scope version : String) (entry : IndexEntry Id) :
    ∃ t', insert J t scope version entry = .ok t' ∧
      Represents t' (idx.insert J scope version entry) :=
  h.writeLog_spec (scope, version) fun log => log ++ entryLine J entry

theorem Represents.rewrite (k : LogKey) (entries : List (IndexEntry Id)) :
    ∃ t', rewrite J t k entries = .ok t' ∧ Represents t' (idx.rewrite J k entries) := by
  unfold IndexFiles.rewrite CacheIndex.rewrite
  by_cases hentries : entries = []
  case neg =>
    rw [if_neg hentries, if_neg hentries]
    exact h.writeLog_spec k fun _ => entries.flatMap (entryLine J)
  rw [if_pos hentries, if_pos hentries]
  cases hlog : idx.logs.lookup k with
  | none =>
    have hnone : t.nodes.lookup (versionFile k) = none := by rw [h.files k, hlog]; rfl
    refine ⟨t, by rw [Tree.remove, hnone], ?_⟩
    rwa [Finmap.erase_of_notMem (Finmap.lookup_eq_none.mp hlog)]
  | some log =>
    have hfile : t.nodes.lookup (versionFile k) = some (.file log) := by rw [h.files k, hlog]; rfl
    obtain ⟨t', ht', hlookup'⟩ := Tree.remove_spec hfile
    have hdir : ∀ scope, t'.nodes.lookup (scopeDir scope) = t.nodes.lookup (scopeDir scope) := by
      intro scope
      rw [hlookup', if_neg (versionFile_ne_scopeDir k scope).symm]
    refine ⟨t', by rw [ht'], ?_, ?_, ?_, ?_⟩
    · intro j
      rw [hlookup']
      by_cases hj : j = k
      · subst hj
        rw [if_pos rfl, Finmap.lookup_erase]
        rfl
      · rw [if_neg fun heq => hj (versionFile_injective heq), Finmap.lookup_erase_ne hj]
        exact h.files j
    · intro j hj
      rw [hdir]
      exact h.dirs j (Finmap.mem_erase.mp hj).2
    · intro scope hscope
      obtain ⟨node, hnode⟩ := Finmap.mem_iff.mp hscope
      rw [← scopeDir_empty, hdir, scopeDir_empty]
      exact h.root scope (Finmap.mem_iff.mpr ⟨node, (hdir scope) ▸ hnode⟩)
    · intro q hq
      obtain ⟨node, hnode⟩ := Finmap.mem_iff.mp hq
      rw [hlookup'] at hnode
      split at hnode
      case isTrue => cases hnode
      case isFalse hne =>
        rw [hlookup', if_neg hne]
        exact h.known q (Finmap.mem_iff.mpr ⟨node, hnode⟩)

end Represented

/-! ### The walk -/

theorem flatten_mapM {α β γ ε : Type} {l : List α} {f : α → Except ε (List γ)} {g : α → Option β}
    {r : β → List γ} (h : ∀ a ∈ l, f a = .ok ((g a).elim [] r)) :
    List.flatten <$> l.mapM f = .ok ((l.filterMap g).flatMap r) := by
  induction l with
  | nil => rfl
  | cons a l ih =>
    have hl := ih fun b hb => h b (List.mem_cons_of_mem a hb)
    cases hrest : l.mapM f with
    | error e =>
      rw [hrest] at hl
      cases hl
    | ok rest =>
      rw [hrest] at hl
      have hflat : rest.flatten = (l.filterMap g).flatMap r := Except.ok.inj hl
      rw [List.mapM_cons, h a List.mem_cons_self, hrest]
      cases ha : g a with
      | none =>
        rw [List.filterMap_cons_none ha, ← hflat]
        rfl
      | some b =>
        rw [List.filterMap_cons_some ha, List.flatMap_cons, ← hflat]
        rfl

theorem decodeSegmentStr_eq_ok_iff {text : Str} {name : String} :
    decodeSegmentStr text = .ok name ↔ text = segment name := by
  constructor
  · intro h
    unfold decodeSegmentStr at h
    split at h
    case h_1 => cases h
    case h_2 bytes hbytes =>
      split at h
      case h_1 => cases h
      case h_2 chars hchars =>
        obtain rfl := Except.ok.inj h
        rw [segment, String.toList_ofList, ← Utf8.decode_eq_some_iff.mp hchars,
          (Base64.decode_eq_some_iff _).mp hbytes]
  · rintro rfl
    exact decodeSegmentStr_segment name

theorem toOption_decodeSegmentStr {text : Str} {name : String} :
    (decodeSegmentStr text).toOption = some name ↔ text = segment name := by
  rw [← decodeSegmentStr_eq_ok_iff]
  cases decodeSegmentStr text <;> simp [Except.toOption]

/-- The scope whose directory a child of the index directory is. -/
def scopeOf (t : Tree) (name : Str) : Option String :=
  if t.isDir (indexDir ++ [name]) then (decodeSegmentStr name).toOption else none

/-- The version whose log a file with this name is. -/
def versionOf (name : Str) : Option String :=
  if extension name = some "jsonl".toList then (decodeSegmentStr (fileStem name)).toOption else none

theorem scopeOf_eq_some_iff {t : Tree} {name : Str} {scope : String} :
    scopeOf t name = some scope ↔ t.isDir (indexDir ++ [name]) ∧ name = segment scope := by
  rw [scopeOf]
  split
  case isTrue hdir => simp [hdir, toOption_decodeSegmentStr]
  case isFalse hdir => simp [hdir]

/-- A log under an empty version has a name without an extension. -/
theorem extension_fileName (version : String) :
    extension (fileName version) = if version = "" then none else some "jsonl".toList := by
  have hjsonl : '.' ∉ "jsonl".toList := by decide
  split
  case isTrue hv =>
    rw [fileName, hv, segment_eq_nil_iff.mpr rfl]
    exact extension_dot hjsonl
  case isFalse hv =>
    exact (extension_append (mt segment_eq_nil_iff.mp hv) (by decide) hjsonl).1

theorem fileStem_fileName {version : String} (h : version ≠ "") :
    fileStem (fileName version) = segment version :=
  (extension_append (mt segment_eq_nil_iff.mp h) (by decide) (by decide)).2

theorem versionOf_eq_some_iff {name : Str} {version : String} :
    versionOf name = some version ↔ version ≠ "" ∧ name = fileName version := by
  rw [versionOf]
  constructor
  · intro h
    split at h
    case isTrue hext =>
      rw [toOption_decodeSegmentStr] at h
      obtain ⟨hname, hstem⟩ := extension_eq_some hext
      rw [h] at hname hstem
      exact ⟨mt segment_eq_nil_iff.mpr hstem, hname⟩
    case isFalse => cases h
  · rintro ⟨hv, rfl⟩
    rw [extension_fileName, if_neg hv, if_pos rfl, fileStem_fileName hv, toOption_decodeSegmentStr]

section Walk

variable {t : Tree} {idx : CacheIndex} (h : Represents t idx) (J : LineSerde (IndexEntry Id))
  (listing : t.Listing)
include h

theorem Represents.mem_scopeDirs {name : Str} :
    name ∈ listing.order indexDir ∧ t.isDir (indexDir ++ [name]) ↔
      ∃ scope, scope ≠ "" ∧ name = segment scope ∧ t.nodes.lookup (scopeDir scope) = some .dir := by
  have hdir : t.isDir (indexDir ++ [name]) ↔ t.nodes.lookup (indexDir ++ [name]) = some .dir := by
    simp [Tree.isDir]
  rw [listing.mem_iff, hdir]
  constructor
  · rintro ⟨hmem, hlookup⟩
    rcases h.known _ hmem with ⟨k, hk⟩ | ⟨⟨scope, hscope⟩, -⟩
    · rw [hk, h.files k] at hlookup
      cases hlog : idx.logs.lookup k <;> rw [hlog] at hlookup <;> cases hlookup
    · refine ⟨scope, ?_, ?_, hscope ▸ hlookup⟩
      · rintro rfl
        rw [scopeDir_empty] at hscope
        simp at hscope
      · rw [scopeDir_eq] at hscope
        split at hscope
        · simp at hscope
        · simpa using hscope
  · rintro ⟨scope, hne, rfl, hlookup⟩
    rw [scopeDir_eq, if_neg hne] at hlookup
    exact ⟨Finmap.mem_iff.mpr ⟨_, hlookup⟩, hlookup⟩

theorem Represents.root_of_mem {p : Path} (hp : p ∈ t.nodes) : t.nodes.lookup indexDir = some .dir := by
  rcases h.known p hp with ⟨k, rfl⟩ | ⟨⟨scope, rfl⟩, -⟩
  · have hlog : k ∈ idx.logs := by
      rw [← Finmap.lookup_isSome, h.files, Option.isSome_map] at hp
      exact Finmap.lookup_isSome.mp hp
    exact h.root k.1 (Finmap.mem_iff.mpr ⟨_, h.dirs k hlog⟩)
  · exact h.root scope hp

/-- What is under the directory of a scope that is not empty are its logs. -/
theorem Represents.mem_scopeDir {scope : String} (hne : scope ≠ "") {name : Str} :
    name ∈ listing.order (scopeDir scope) ↔
      ∃ version, name = fileName version ∧ (scope, version) ∈ idx.logs := by
  have hlog : ∀ version, scopeDir scope ++ [fileName version] ∈ t.nodes ↔ (scope, version) ∈ idx.logs := by
    intro version
    rw [← versionFile_eq (scope, version), ← Finmap.lookup_isSome, ← Finmap.lookup_isSome,
      h.files, Option.isSome_map]
  rw [listing.mem_iff]
  constructor
  · intro hmem
    rcases h.known _ hmem with ⟨k, hk⟩ | ⟨⟨scope', hscope'⟩, -⟩
    · rw [versionFile_eq] at hk
      obtain ⟨hscope, hname⟩ := List.append_inj' hk rfl
      obtain rfl := List.singleton_inj.mp hname
      exact ⟨k.2, rfl, (hlog k.2).mp hmem⟩
    · have hlen := congrArg List.length hscope'
      rw [scopeDir_eq, scopeDir_eq, if_neg hne] at hlen
      split at hlen <;> simp [indexDir] at hlen
  · rintro ⟨version, rfl, hmem⟩
    exact (hlog version).mpr hmem

/-- The logs in the order in which the walk comes to them. -/
def walkOrder (t : Tree) (listing : t.Listing) : List LogKey :=
  ((listing.order indexDir).filterMap (scopeOf t)).flatMap fun scope =>
    ((listing.order (scopeDir scope)).filterMap versionOf).map fun version => (scope, version)

theorem Represents.mem_scopes {scope : String} :
    scope ∈ (listing.order indexDir).filterMap (scopeOf t) ↔
      scope ≠ "" ∧ t.nodes.lookup (scopeDir scope) = some .dir := by
  rw [List.mem_filterMap]
  constructor
  · rintro ⟨name, hmem, hscope⟩
    obtain ⟨hdir, rfl⟩ := scopeOf_eq_some_iff.mp hscope
    obtain ⟨scope', hne, heq, hlookup⟩ := (h.mem_scopeDirs listing).mp ⟨hmem, hdir⟩
    obtain rfl := segment_injective heq
    exact ⟨hne, hlookup⟩
  · intro hscope
    obtain ⟨hmem, hdir⟩ := (h.mem_scopeDirs listing).mpr ⟨scope, hscope.1, rfl, hscope.2⟩
    exact ⟨segment scope, hmem, scopeOf_eq_some_iff.mpr ⟨hdir, rfl⟩⟩

/-- The walk comes to the logs whose scope and version are not empty. -/
theorem Represents.mem_walkOrder (k : LogKey) :
    k ∈ walkOrder t listing ↔ k ∈ idx.logs ∧ CacheIndex.Visible k := by
  rw [walkOrder, List.mem_flatMap]
  constructor
  · rintro ⟨scope, hscope, hk⟩
    obtain ⟨version, hversion, rfl⟩ := List.mem_map.mp hk
    obtain ⟨hne, -⟩ := (h.mem_scopes listing).mp hscope
    obtain ⟨name, hname, hver⟩ := List.mem_filterMap.mp hversion
    obtain ⟨hv, rfl⟩ := versionOf_eq_some_iff.mp hver
    obtain ⟨version', heq, hlog⟩ := (h.mem_scopeDir listing hne).mp hname
    obtain rfl := fileName_injective heq
    exact ⟨hlog, hne, hv⟩
  · rintro ⟨hlog, hne, hv⟩
    refine ⟨k.1, (h.mem_scopes listing).mpr ⟨hne, h.dirs k hlog⟩, List.mem_map.mpr ⟨k.2, ?_, rfl⟩⟩
    exact List.mem_filterMap.mpr ⟨fileName k.2, (h.mem_scopeDir listing hne).mpr ⟨k.2, rfl, hlog⟩,
      versionOf_eq_some_iff.mpr ⟨hv, rfl⟩⟩

omit h in
theorem walkOrder_nodup : (walkOrder t listing).Nodup := by
  have hscopes : ((listing.order indexDir).filterMap (scopeOf t)).Nodup := by
    refine (listing.nodup indexDir).filterMap fun name name' scope hname hname' => ?_
    rw [(scopeOf_eq_some_iff.mp hname).2, (scopeOf_eq_some_iff.mp hname').2]
  have hversions : ∀ scope : String,
      ((listing.order (scopeDir scope)).filterMap versionOf).Nodup := by
    intro scope
    refine (listing.nodup (scopeDir scope)).filterMap fun name name' version hname hname' => ?_
    rw [(versionOf_eq_some_iff.mp hname).2, (versionOf_eq_some_iff.mp hname').2]
  rw [walkOrder, List.nodup_flatMap]
  refine ⟨fun scope _ => (hversions scope).map fun _ _ heq => (Prod.mk.inj heq).2, ?_⟩
  refine hscopes.imp fun {scope scope'} hne k hk hk' => hne ?_
  obtain ⟨_, -, rfl⟩ := List.mem_map.mp hk
  obtain ⟨_, -, heq⟩ := List.mem_map.mp hk'
  exact (Prod.mk.inj heq).1.symm

/-- The listing of the index that the walk follows. -/
def Represents.walkListing : idx.Listing where
  order := walkOrder t listing
  nodup := walkOrder_nodup listing
  mem_iff := h.mem_walkOrder listing

theorem Represents.fileRecords_eq {scope : String} (hne : scope ≠ "") {name : Str}
    (hname : name ∈ listing.order (scopeDir scope)) :
    fileRecords J t (scopeDir scope) scope name =
      .ok ((versionOf name).elim [] fun version => idx.recordsOf J (scope, version)) := by
  obtain ⟨version, rfl, -⟩ := (h.mem_scopeDir listing hne).mp hname
  rw [fileRecords, extension_fileName]
  by_cases hv : version = ""
  · subst hv
    rw [if_pos rfl, if_neg (by simp), versionOf, extension_fileName, if_pos rfl, if_neg (by simp)]
    rfl
  · rw [if_neg hv, if_pos rfl, fileStem_fileName hv, decodeSegmentStr_segment,
      versionOf_eq_some_iff.mpr ⟨hv, rfl⟩, ← versionFile_eq (scope, version), h.readFile_eq]
    rfl

theorem Represents.childRecords_eq {name : Str} (hname : name ∈ listing.order indexDir) :
    childRecords J t listing name = .ok ((scopeOf t name).elim [] fun scope =>
      ((listing.order (scopeDir scope)).filterMap versionOf).flatMap fun version =>
        idx.recordsOf J (scope, version)) := by
  unfold childRecords
  split
  case isTrue hdir =>
    obtain ⟨scope, hne, rfl, -⟩ := (h.mem_scopeDirs listing).mp ⟨hname, hdir⟩
    have hpath : indexDir ++ [segment scope] = scopeDir scope := by rw [scopeDir_eq, if_neg hne]
    rw [decodeSegmentStr_segment, scopeOf_eq_some_iff.mpr ⟨hdir, rfl⟩, hpath]
    exact flatten_mapM fun file hfile => h.fileRecords_eq J listing hne hfile
  case isFalse hdir =>
    rw [scopeOf, if_neg hdir]
    rfl

/-- **The walk yields the records of the index.**  On the files of an index it meets no error, and
    what it returns are the records of the index in the order of some listing. -/
theorem Represents.records_eq :
    records J t listing = .ok (idx.records J (h.walkListing listing)) := by
  have hwalk : List.flatten <$> (listing.order indexDir).mapM (childRecords J t listing) =
      .ok (idx.records J (h.walkListing listing)) := by
    rw [flatten_mapM fun name hname => h.childRecords_eq J listing hname]
    simp [CacheIndex.records, Represents.walkListing, walkOrder, List.flatMap_assoc, List.flatMap_map]
  unfold records
  split
  case h_1 hnone =>
    -- without its root the index has no directory at all, and so no child of one
    have hempty : listing.order indexDir = [] := by
      refine List.eq_nil_iff_forall_not_mem.mpr fun name hname => ?_
      have hroot := h.root_of_mem ((listing.mem_iff _ _).mp hname)
      rw [hnone] at hroot
      cases hroot
    rw [← hwalk, hempty]
    rfl
  case h_2 content hfile =>
    exact absurd hfile (h.not_file (indexDir_above "") content)
  case h_3 => exact hwalk

end Walk

/-! ### Enumeration against lookup -/

/-- Insert one record after the other. -/
def insertAll (J : LineSerde (IndexEntry Id)) (t : Tree) (recs : List (IndexRecord Id)) :
    Except RunnerError Tree :=
  recs.foldlM (fun t rec => insert J t rec.scope rec.version rec.entry) t

/-- The same on the index. -/
def indexOf (J : LineSerde (IndexEntry Id)) (recs : List (IndexRecord Id)) : CacheIndex :=
  recs.foldl (fun idx rec => idx.insert J rec.scope rec.version rec.entry) .empty

/-- The records of a scope and version are the entries that a lookup there chooses from. -/
def ListsCandidates (J : LineSerde (IndexEntry Id)) (t : Tree) (recs : List (IndexRecord Id)) : Prop :=
  ∀ k, readFile J t (versionFile k) =
    .ok ((recs.filter fun rec => rec.log = k).map (·.entry))

/-- Whatever a lookup finds is among the records, under a scope of its ladder. -/
def ListsHits (J : LineSerde (IndexEntry Id)) (t : Tree) (recs : List (IndexRecord Id)) : Prop :=
  ∀ ladder version key restoreKeys matched entry,
    lookup J t ladder version key restoreKeys = .ok (some (matched, entry)) →
      ∃ scope ∈ ladder, ⟨scope, version, entry⟩ ∈ recs

theorem Represents.insertAll {t : Tree} {idx : CacheIndex} (h : Represents t idx)
    (J : LineSerde (IndexEntry Id)) (recs : List (IndexRecord Id)) :
    ∃ t', insertAll J t recs = .ok t' ∧
      Represents t' (recs.foldl (fun idx rec => idx.insert J rec.scope rec.version rec.entry) idx) := by
  induction recs generalizing t idx with
  | nil => exact ⟨t, rfl, h⟩
  | cons rec recs ih =>
    obtain ⟨t₁, ht₁, h₁⟩ := h.insert J rec.scope rec.version rec.entry
    obtain ⟨t', ht', h'⟩ := ih h₁
    refine ⟨t', ?_, h'⟩
    rw [IndexFiles.insertAll, List.foldlM_cons, ht₁]
    exact ht'

theorem entries_indexOf (J : LineSerde (IndexEntry Id)) (recs : List (IndexRecord Id)) (k : LogKey) :
    (indexOf J recs).Terminated ∧
      (indexOf J recs).entries J k = (recs.filter fun rec => rec.log = k).map (·.entry) := by
  induction recs using List.reverseRecOn with
  | nil => exact ⟨fun _ => .inl rfl, rfl⟩
  | append_singleton recs rec ih =>
    have hstep : indexOf J (recs ++ [rec]) =
        (indexOf J recs).insert J rec.scope rec.version rec.entry := List.foldl_concat _ _ _ _
    rw [hstep]
    refine ⟨CacheIndex.terminated_insert ih.1 J _ _ _, ?_⟩
    rw [CacheIndex.entries_insert ih.1, List.filter_append, List.map_append, ← ih.2]
    by_cases hk : k = rec.log
    · simp [hk, IndexRecord.log]
    · have hlog : ¬ k = (rec.scope, rec.version) := hk
      simp [hlog, show ¬ rec.log = k from Ne.symm hk]

theorem Represents.lookup_eq {t : Tree} {idx : CacheIndex} (h : Represents t idx)
    (J : LineSerde (IndexEntry Id)) (ladder : List String) (version key : String)
    (restoreKeys : List String) :
    lookup J t ladder version key restoreKeys =
      .ok (idx.lookup J ladder version key restoreKeys) := by
  have hmapM : ladder.mapM (fun scope => readFile J t (versionFile (scope, version))) =
      .ok (ladder.map fun scope => idx.entries J (scope, version)) := by
    simp only [h.readFile_eq]
    exact List.mapM_pure
  rw [lookup, hmapM]
  rfl

/-- The walk lists what lookups choose from exactly when every log is visible to it. -/
theorem listsCandidates_iff {t : Tree} (J : LineSerde (IndexEntry Id)) (recs : List (IndexRecord Id))
    (h : Represents t (indexOf J recs)) (listing : t.Listing) :
    ListsCandidates J t ((indexOf J recs).records J (h.walkListing listing)) ↔
      ∀ rec ∈ recs, CacheIndex.Visible rec.log := by
  have hread : ListsCandidates J t ((indexOf J recs).records J (h.walkListing listing)) ↔
      ∀ k, (indexOf J recs).entries J k =
        if CacheIndex.Visible k then (indexOf J recs).entries J k else [] := by
    simp only [ListsCandidates, h.readFile_eq, CacheIndex.filter_records, Except.ok.injEq]
  rw [hread]
  constructor
  · intro hall rec hrec
    by_contra hv
    have hnil := hall rec.log
    rw [if_neg hv, (entries_indexOf J recs _).2, List.map_eq_nil_iff, List.filter_eq_nil_iff] at hnil
    exact hnil rec hrec (by simp)
  · intro hall k
    split
    case isTrue => rfl
    case isFalse hv =>
      rw [(entries_indexOf J recs k).2, List.map_eq_nil_iff, List.filter_eq_nil_iff]
      intro rec hrec hk
      exact hv (of_decide_eq_true hk ▸ hall rec hrec)

/-- And exactly then it lists whatever a lookup finds. -/
theorem listsHits_iff {t : Tree} (J : LineSerde (IndexEntry Id)) (recs : List (IndexRecord Id))
    (h : Represents t (indexOf J recs)) (listing : t.Listing) :
    ListsHits J t ((indexOf J recs).records J (h.walkListing listing)) ↔
      ∀ rec ∈ recs, CacheIndex.Visible rec.log := by
  constructor
  · intro hall rec hrec
    -- its own scope and key find an entry of the log it is in
    have hentry : rec.entry ∈ (indexOf J recs).entries J (rec.scope, rec.version) := by
      rw [(entries_indexOf J recs _).2]
      exact List.mem_map_of_mem (List.mem_filter.mpr ⟨hrec, by simp [IndexRecord.log]⟩)
    cases hlookup : (indexOf J recs).lookup J [rec.scope] rec.version rec.entry.key [] with
    | none => exact absurd rfl (CacheIndex.lookup_eq_none_iff.mp hlookup _ hentry)
    | some hit =>
      obtain ⟨scope, hscope, hmem⟩ := hall [rec.scope] rec.version rec.entry.key [] hit.1 hit.2
        (by rw [h.lookup_eq, hlookup])
      obtain rfl := List.mem_singleton.mp hscope
      exact ((CacheIndex.mem_records_iff _ J _).mp hmem).1
  · intro hall ladder version key restoreKeys matched entry hlookup
    rw [h.lookup_eq] at hlookup
    obtain ⟨-, scope, hscope, hmem⟩ := CacheIndex.mem_of_lookup (Except.ok.inj hlookup)
    refine ⟨scope, hscope, (CacheIndex.mem_records_iff _ J _).mpr ⟨?_, hmem⟩⟩
    show CacheIndex.Visible (scope, version)
    rw [(entries_indexOf J recs _).2] at hmem
    obtain ⟨rec, hrec, -⟩ := List.mem_map.mp hmem
    obtain ⟨hrec, hlog⟩ := List.mem_filter.mp hrec
    have hkey : rec.log = (scope, version) := of_decide_eq_true hlog
    rw [← hkey]
    exact hall rec hrec

/-- **Enumeration is complete for non-empty names.**  Whatever records are inserted, no insertion
    and no walk over the files fails, and what the walk returns is what lookups choose from, and has
    all they find, exactly when every record has a scope and a version that are not empty. -/
theorem enumeration_complete_iff (J : LineSerde (IndexEntry Id)) (recs : List (IndexRecord Id)) :
    ∃ t, insertAll J .empty recs = .ok t ∧ ∀ listing : t.Listing, ∃ listed,
      records J t listing = .ok listed ∧
      (ListsCandidates J t listed ↔ ∀ rec ∈ recs, rec.scope ≠ "" ∧ rec.version ≠ "") ∧
      (ListsHits J t listed ↔ ∀ rec ∈ recs, rec.scope ≠ "" ∧ rec.version ≠ "") := by
  obtain ⟨t, ht, h⟩ := represents_empty.insertAll J recs
  exact ⟨t, ht, fun listing => ⟨_, h.records_eq J listing, listsCandidates_iff J recs h listing,
    listsHits_iff J recs h listing⟩⟩

/-- What a job without a ref writes is found in its scope, and the walk does not list it. -/
theorem refless_not_listed :
    let scope := (scopesForJob none none ["main"]).write
    ∃ t, insertAll sampleIndex.toLineSerde .empty [⟨scope, "v", sampleEntry "old" 0⟩] = .ok t ∧
      lookup sampleIndex.toLineSerde t [scope] "v" "old" [] = .ok (some ("old", sampleEntry "old" 0)) ∧
      Nonempty t.Listing ∧
      ∀ listing : t.Listing, records sampleIndex.toLineSerde t listing = .ok [] := by
  intro scope
  let recs : List (IndexRecord Bytes) := [⟨scope, "v", sampleEntry "old" 0⟩]
  obtain ⟨t, ht, h⟩ := represents_empty.insertAll sampleIndex.toLineSerde recs
  have hentries : ∀ k, (indexOf sampleIndex.toLineSerde recs).entries sampleIndex.toLineSerde k =
      if ("", "v") = k then [sampleEntry "old" 0] else [] := by
    intro k
    rw [(entries_indexOf _ recs k).2, List.filter_singleton]
    by_cases hk : ("", "v") = k
    · simp [hk, IndexRecord.log, scope, scopesForJob]
    · simp [hk, IndexRecord.log, scope, scopesForJob]
  refine ⟨t, ht, ?_, t.exists_listing, fun listing => ?_⟩
  · have hown : ((indexOf sampleIndex.toLineSerde recs).entries sampleIndex.toLineSerde
        (scope, "v")).filter (fun e => e.key = "old") = [sampleEntry "old" 0] := by
      rw [hentries]
      rfl
    rw [h.lookup_eq]
    exact congrArg Except.ok (CacheIndex.lookup_own hown)
  · rw [h.records_eq]
    refine congrArg Except.ok (List.eq_nil_iff_forall_not_mem.mpr fun rec hrec => ?_)
    obtain ⟨hv, hmem⟩ := (CacheIndex.mem_records_iff _ _ _).mp hrec
    have hlog : ("", "v") = rec.log := by
      by_contra hne
      have hnil := hentries rec.log
      rw [if_neg hne] at hnil
      exact List.not_mem_nil (hnil ▸ hmem)
    exact hv.1 (hlog ▸ rfl)

end IndexFiles

end GhRunner.Cache
