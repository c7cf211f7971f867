import GhRunner.Expressions.GlobWalk

namespace GhRunner.Execution.TarExtraction

open Text GhRunner.Expressions.GlobWalk

/-!
# Extracting an action's archive

`extract_tarball` of `crates/execution/src/execution/actions/downloader.rs`, over a disk with links.

* `TarEntry` — what the `tar` crate says of an entry;
* `World`, `Io` — the nodes of the disk, and what the system answers;
* `createDirAll`, `writeFile`, `extractTarball` — as in the source, with what is left behind on a failure;
* `Item`, `archiveTree` — the archive's tree: the last entry of a path, and directories above it;
* `Compatible`, `fits_iff` — which entries can be extracted after which others.
-/

/-! ### Archives -/

inductive EntryType
  | regular
  | directory
  | symlink (target : PathBuf)
  | hardLink (target : PathBuf)

def EntryType.isDir : EntryType → Bool
  | .directory => true
  | _ => false

/-- The components of a path: a dot is one only at the front. -/
structure TarPath where
  components : PathBuf
  dot_first : .curDir ∉ components.drop 1

structure TarEntry where
  path : Except Str TarPath
  entryType : EntryType
  mode : Option ℕ
  content : Except Str (List UInt8)

inductive ExtractError
  | actionDownload (message : Str)
  | archiveContent (message : Str)
deriving DecidableEq, Repr

/-! ### The disk -/

inductive Inode
  | dir
  | file (content : List UInt8) (mode : Option ℕ)
  | symlink (target : PathBuf)

/-- The nodes of the disk, and how often it has been written to. -/
structure World where
  nodes : Place → Option Inode
  operations : ℕ

/-- What the system makes of the requests: whether a write fails and how much of it is done then, what it
    says where it refuses, and where a link in a directory leads. -/
structure Io where
  fault : ℕ → Option Str
  partly : ℕ → ℕ
  refuse : Place → Str
  follow : World → Place → PathBuf → Option Place

def World.set (w : World) (place : Place) (inode : Inode) : World :=
  ⟨Function.update w.nodes place (some inode), w.operations + 1⟩

def World.failed (w : World) : World := ⟨w.nodes, w.operations + 1⟩

section Disk

variable (io : Io)

def mkdir (place : Place) (w : World) : Except Str Unit × World :=
  match io.fault w.operations with
  | some err => (.error err, w.failed)
  | none => (.ok (), w.set place .dir)

/-- `std::fs::create_dir_all`, from a directory on; where it leads to. -/
def createDirAll : Place → List OsStr → World → Except Str Place × World
  | place, [], w => (.ok place, w)
  | place, name :: names, w =>
    match w.nodes (place ++ [name]) with
    | none =>
      match mkdir io (place ++ [name]) w with
      | (.error err, w) => (.error err, w)
      | (.ok (), w) => createDirAll (place ++ [name]) names w
    | some .dir => createDirAll (place ++ [name]) names w
    | some (.file _ _) => (.error (io.refuse (place ++ [name])), w)
    | some (.symlink target) =>
      match io.follow w place target with
      | none => (.error (io.refuse (place ++ [name])), w)
      | some there =>
        match w.nodes there with
        | some .dir => createDirAll there names w
        | _ => (.error (io.refuse (place ++ [name])), w)

/-- `std::fs::write` to a place that no link is at: some of the content, or all of it. -/
def store (place : Place) (content : List UInt8) (w : World) : Except Str Place × World :=
  let write (mode : Option ℕ) : Except Str Place × World :=
    match io.fault w.operations with
    | some err => (.error err, w.set place (.file (content.take (io.partly w.operations)) mode))
    | none => (.ok place, w.set place (.file content mode))
  match w.nodes place with
  | none => write none
  | some (.file _ mode) => write mode
  | some .dir => (.error (io.refuse place), w)
  | some (.symlink _) => (.error (io.refuse place), w)

/-- `std::fs::write` to a name in a directory; the place that was written. -/
def writeFile (parent : Place) (name : OsStr) (content : List UInt8) (w : World) :
    Except Str Place × World :=
  match w.nodes (parent ++ [name]) with
  | some (.symlink target) =>
    match io.follow w parent target with
    | none => (.error (io.refuse (parent ++ [name])), w)
    | some there => store io there content w
  | _ => store io (parent ++ [name]) content w

/-- `set_executable_if_needed`: a failure is of no consequence. -/
def setExecutableIfNeeded (mode : Option ℕ) (place : Place) (w : World) : World :=
  match mode, w.nodes place with
  | some mode, some (.file content _) =>
    if mode &&& 0o111 = 0 then w
    else if (io.fault w.operations).isSome then w.failed
    else w.set place (.file content (some mode))
  | _, _ => w

end Disk

/-! ### Extraction -/

section Extract

variable (io : Io)

def escapes (stripped : PathBuf) : Bool :=
  stripped.any fun component => component = .parentDir || component = .rootDir

def rejectTarSlip (path stripped : PathBuf) : Except ExtractError Unit :=
  if escapes stripped then
    .error (.actionDownload ("tar slip: entry \"".toList ++ display path ++ "\" escapes dest".toList))
  else .ok ()

/-- The names that are joined on to the destination. -/
def names (stripped : PathBuf) : List OsStr :=
  stripped.filterMap fun
    | .normal name => some name
    | _ => none

def mkdirError (err : Str) : ExtractError := .actionDownload ("mkdir: ".toList ++ err)

/-- Write a single tar entry to the names below `dest`; their parent is at `parent`. -/
def extractEntry (dest parent : Place) (target : List OsStr) (entry : TarEntry) (w : World) :
    Except ExtractError Unit × World :=
  if entry.entryType.isDir then
    match createDirAll io dest target w with
    | (.error err, w) => (.error (mkdirError err), w)
    | (.ok _, w) => (.ok (), w)
  else
    match entry.content with
    | .error err => (.error (.archiveContent ("read entry: ".toList ++ err)), w)
    | .ok content =>
      match writeFile io parent (target.getLastD []) content w with
      | (.error err, w) => (.error (.actionDownload ("write: ".toList ++ err)), w)
      | (.ok place, w) => (.ok (), setExecutableIfNeeded io entry.mode place w)

/-- One turn of the loop over the entries. -/
def extractNext (dest : Place) (entry : TarEntry) (w : World) : Except ExtractError Unit × World :=
  match entry.path with
  | .error err => (.error (.archiveContent ("entry path: ".toList ++ err)), w)
  | .ok path =>
    if path.components.length ≤ 1 then (.ok (), w)
    else
      -- without the prefix directory of the archive
      let stripped := path.components.drop 1
      match rejectTarSlip path.components stripped with
      | .error err => (.error err, w)
      | .ok () =>
        match createDirAll io dest (names stripped).dropLast w with
        | (.error err, w) => (.error (mkdirError err), w)
        | (.ok parent, w) => extractEntry io dest parent (names stripped) entry w

def extractEntries (dest : Place) :
    List (Except Str TarEntry) → World → Except ExtractError Unit × World
  | [], w => (.ok (), w)
  | .error err :: _, w => (.error (.archiveContent ("tar entry: ".toList ++ err)), w)
  | .ok entry :: entries, w =>
    match extractNext io dest entry w with
    | (.error err, w) => (.error err, w)
    | (.ok (), w) => extractEntries dest entries w

def extractTarball (archive : Except Str (List (Except Str TarEntry))) (dest : List OsStr) (w : World) :
    Except ExtractError Unit × World :=
  match createDirAll io [] dest w with
  | (.error err, w) =>
    (.error (.actionDownload ("mkdir ".toList ++ display (.rootDir :: dest.map .normal) ++ ": ".toList ++
      err)), w)
  | (.ok place, w) =>
    match archive with
    | .error err => (.error (.archiveContent ("tar entries: ".toList ++ err)), w)
    | .ok entries => extractEntries io place entries w

end Extract

/-! ### The archive's tree -/

inductive Shape
  | dir
  | file (content : List UInt8)
  | symlink (target : PathBuf)
  | hardLink (target : PathBuf)
deriving DecidableEq

/-- Every file is one of its own: nothing here makes a second name of one. -/
def Inode.shape : Inode → Shape
  | .dir => .dir
  | .file content _ => .file content
  | .symlink target => .symlink target

/-- An entry that can be read, without the first component of its path. -/
structure Item where
  names : List OsStr
  entryType : EntryType
  content : List UInt8
  names_ne_nil : names ≠ []

namespace Item

/-- What the archive says. -/
def shape (item : Item) : Shape :=
  match item.entryType with
  | .regular => .file item.content
  | .directory => .dir
  | .symlink target => .symlink target
  | .hardLink target => .hardLink target

/-- What `extract_entry` makes of it: links are files like any other entry that is no directory. -/
def stored (item : Item) : Shape := if item.entryType.isDir then .dir else .file item.content

def isLink (item : Item) : Bool :=
  match item.entryType with
  | .symlink _ | .hardLink _ => true
  | _ => false

end Item

/-- The last of the entries of a path wins, and above each entry there are directories. -/
def archiveTree (shape : Item → Shape) (items : List Item) (path : List OsStr) : Option Shape :=
  match items.reverse.find? fun item => item.names = path with
  | some item => some (shape item)
  | none => if items.any fun item => path.isPrefixOf item.names then some .dir else none

theorem names_ne_nil {path : TarPath} (hlong : ¬ path.components.length ≤ 1)
    (hinside : escapes (path.components.drop 1) = false) : names (path.components.drop 1) ≠ [] := by
  cases hstripped : path.components.drop 1 with
  | nil =>
    have hlen := congrArg List.length hstripped
    rw [List.length_drop, List.length_nil] at hlen
    omega
  | cons component rest =>
    have hdot := path.dot_first
    rw [hstripped] at hinside hdot
    cases component with
    | normal name => exact List.cons_ne_nil name _
    | rootDir => exact absurd hinside (by simp [escapes])
    | parentDir => exact absurd hinside (by simp [escapes])
    | curDir => exact absurd List.mem_cons_self hdot

/-- No item for an entry that is skipped; nothing at all for one that cannot be read, or escapes. -/
def TarEntry.item (entry : TarEntry) : Option (Option Item) :=
  match entry.path with
  | .error _ => none
  | .ok path =>
    if hlong : path.components.length ≤ 1 then some none
    else if hinside : escapes (path.components.drop 1) = true then none
    else
      have hne := names_ne_nil hlong (Bool.not_eq_true _ ▸ hinside)
      if entry.entryType.isDir then some (some ⟨names (path.components.drop 1), entry.entryType, [], hne⟩)
      else
        match entry.content with
        | .error _ => none
        | .ok content => some (some ⟨names (path.components.drop 1), entry.entryType, content, hne⟩)

def itemsOf : List (Except Str TarEntry) → Option (List Item)
  | [] => some []
  | .error _ :: _ => none
  | .ok entry :: entries => do
    let item ← entry.item
    let items ← itemsOf entries
    return item.toList ++ items

/-- The later item can be extracted over what the earlier one left: a file has nothing below it, and is
    only replaced by a file. -/
def Compatible (earlier later : Item) : Prop :=
  (earlier.entryType.isDir = false → earlier.names <+: later.names →
    earlier.names = later.names ∧ later.entryType.isDir = false) ∧
  (later.entryType.isDir = false → later.names <+: earlier.names →
    earlier.names = later.names ∧ earlier.entryType.isDir = false)

/-! ### Trees -/

section Trees

variable {shape : Item → Shape} {items : List Item} {item : Item} {path : List OsStr}

/-- A tree with one item more: it stands at its path, and directories above it where there is nothing. -/
def placed (shape : Item → Shape) (tree : List OsStr → Option Shape) (item : Item) (path : List OsStr) :
    Option Shape :=
  if item.names = path then some (shape item)
  else (tree path).or (if path.isPrefixOf item.names then some .dir else none)

theorem archiveTree_append (shape : Item → Shape) (items : List Item) (item : Item) (path : List OsStr) :
    archiveTree shape (items ++ [item]) path = placed shape (archiveTree shape items) item path := by
  rw [placed, archiveTree, archiveTree, List.reverse_append, List.reverse_singleton, List.singleton_append,
    List.find?_cons]
  by_cases hpath : item.names = path
  · simp [hpath]
  · rw [decide_eq_false hpath, if_neg hpath, List.any_append]
    cases items.reverse.find? fun item => item.names = path with
    | some found => rfl
    | none => cases items.any fun item => path.isPrefixOf item.names <;> simp

/-- What stands at a path is its last entry, or the directory above an entry. -/
theorem archiveTree_cases (shape : Item → Shape) (items : List Item) (path : List OsStr) :
    (∃ item ∈ items, item.names = path ∧ archiveTree shape items path = some (shape item)) ∨
      (∀ item ∈ items, item.names ≠ path) ∧
        ((∃ item ∈ items, path <+: item.names) ∧ archiveTree shape items path = some .dir ∨
          (∀ item ∈ items, ¬ path <+: item.names) ∧ archiveTree shape items path = none) := by
  unfold archiveTree
  cases hfound : items.reverse.find? fun item => item.names = path with
  | some found =>
    have hmem := List.mem_of_find?_eq_some hfound
    have hpath := List.find?_some hfound
    exact .inl ⟨found, List.mem_reverse.mp hmem, of_decide_eq_true hpath, rfl⟩
  | none =>
    right
    refine ⟨fun item hitem hpath => ?_, ?_⟩
    · exact List.find?_eq_none.mp hfound item (List.mem_reverse.mpr hitem) (decide_eq_true hpath)
    · by_cases habove : ∃ item ∈ items, path <+: item.names
      · refine .inl ⟨habove, if_pos ?_⟩
        obtain ⟨item, hitem, hinit⟩ := habove
        exact List.any_eq_true.mpr ⟨item, hitem, List.isPrefixOf_iff_prefix.mpr hinit⟩
      · have hnone : ∀ item ∈ items, ¬ path <+: item.names := fun item hitem h => habove ⟨item, hitem, h⟩
        refine .inr ⟨hnone, if_neg fun hany => ?_⟩
        obtain ⟨item, hitem, hinit⟩ := List.any_eq_true.mp hany
        exact hnone item hitem (List.isPrefixOf_iff_prefix.mp hinit)

instance : Std.Symm Compatible where
  symm _ _ h := ⟨fun hfile hinit => (h.2 hfile hinit).imp_left Eq.symm,
    fun hfile hinit => (h.1 hfile hinit).imp_left Eq.symm⟩

theorem Compatible.self (a : Item) : Compatible a a := ⟨fun hfile _ => ⟨rfl, hfile⟩, fun hfile _ => ⟨rfl, hfile⟩⟩

theorem compatible_of_mem (h : items.Pairwise Compatible) {a b : Item} (ha : a ∈ items) (hb : b ∈ items) :
    Compatible a b :=
  List.Pairwise.forall_of_forall (fun a _ => Compatible.self a) h ha hb

@[simp] theorem stored_eq_dir : item.stored = .dir ↔ item.entryType.isDir = true := by
  unfold Item.stored
  split
  case isTrue hdir => simp [hdir]
  case isFalse hfile => simp [hfile]

/-- An item can be extracted into a tree: no file is above it, a directory is not in place of a file, nor a
    file in place of a directory. -/
structure Fits (tree : List OsStr → Option Shape) (item : Item) : Prop where
  above : ∀ path, path ≠ [] → path <+: item.names → path ≠ item.names →
    tree path = none ∨ tree path = some .dir
  dir : item.entryType.isDir = true → tree item.names = none ∨ tree item.names = some .dir
  file : item.entryType.isDir = false → tree item.names ≠ some .dir

theorem Fits.congr {tree tree' : List OsStr → Option Shape} (heq : ∀ path, path ≠ [] → tree path = tree' path)
    (h : Fits tree item) : Fits tree' item where
  above path hne hinit hpath := heq path hne ▸ h.above path hne hinit hpath
  dir hdir := heq item.names item.names_ne_nil ▸ h.dir hdir
  file hfile := heq item.names item.names_ne_nil ▸ h.file hfile

/-- That is, it is compatible with what has been extracted. -/
theorem fits_iff (h : items.Pairwise Compatible) :
    Fits (archiveTree Item.stored items) item ↔ ∀ earlier ∈ items, Compatible earlier item := by
  constructor
  · intro hfits earlier hearlier
    refine ⟨fun hfile hinit => ?_, fun hfile hinit => ?_⟩
    · -- a file stands where the earlier item is
      obtain ⟨last, hlast, hnames, htree⟩ : ∃ last ∈ items, last.names = earlier.names ∧
          archiveTree Item.stored items earlier.names = some last.stored := by
        rcases archiveTree_cases Item.stored items earlier.names with hfound | ⟨hnone, -⟩
        · exact hfound
        · exact absurd rfl (hnone earlier hearlier)
      have hlastFile : last.entryType.isDir = false :=
        ((compatible_of_mem h hearlier hlast).1 hfile (hnames ▸ List.prefix_refl _)).2
      have hnotdir : ¬ (archiveTree Item.stored items earlier.names = none ∨
          archiveTree Item.stored items earlier.names = some .dir) := by
        rw [htree]
        simp [hlastFile]
      have hsame : earlier.names = item.names := by
        by_contra hne
        exact hnotdir (hfits.above earlier.names earlier.names_ne_nil hinit hne)
      refine ⟨hsame, ?_⟩
      by_contra hdir
      rw [hsame] at hnotdir
      exact hnotdir (hfits.dir (by simpa using hdir))
    · -- no directory stands where the item is to be
      have hnotdir := hfits.file hfile
      rcases archiveTree_cases Item.stored items item.names with
        ⟨last, hlast, hnames, htree⟩ | ⟨-, ⟨-, htree⟩ | ⟨hnone, -⟩⟩
      · rw [htree, ne_eq, Option.some.injEq, stored_eq_dir, Bool.not_eq_true] at hnotdir
        obtain ⟨hsame, hearlierFile⟩ :=
          (compatible_of_mem h hlast hearlier).1 hnotdir (hnames ▸ hinit)
        exact ⟨hsame.symm.trans hnames, hearlierFile⟩
      · exact absurd htree hnotdir
      · exact absurd hinit (hnone earlier hearlier)
  · intro hall
    refine ⟨fun path hne hinit hpath => ?_, fun hdir => ?_, fun hfile htree => ?_⟩
    · rcases archiveTree_cases Item.stored items path with
        ⟨last, hlast, rfl, htree⟩ | ⟨-, ⟨-, htree⟩ | ⟨-, htree⟩⟩
      · rw [htree, Option.some.injEq, stored_eq_dir]
        by_contra hnot
        have hlastFile : last.entryType.isDir = false := by simpa using hnot
        exact hpath ((hall last hlast).1 hlastFile hinit).1
      · exact .inr htree
      · exact .inl htree
    · rcases archiveTree_cases Item.stored items item.names with
        ⟨last, hlast, hnames, htree⟩ | ⟨-, ⟨-, htree⟩ | ⟨-, htree⟩⟩
      · rw [htree, Option.some.injEq, stored_eq_dir]
        by_contra hnot
        have hlastFile : last.entryType.isDir = false := by simpa using hnot
        have hsame := ((hall last hlast).1 hlastFile (hnames ▸ List.prefix_refl _)).2
        exact absurd hdir (by simp [hsame])
      · exact .inr htree
      · exact .inl htree
    · rcases archiveTree_cases Item.stored items item.names with
        ⟨last, hlast, hnames, htree'⟩ | ⟨hnames, ⟨⟨other, hother, hinit⟩, -⟩ | ⟨-, htree'⟩⟩
      · rw [htree, Option.some.injEq, eq_comm, stored_eq_dir] at htree'
        have hlastFile := ((hall last hlast).2 hfile (hnames ▸ List.prefix_refl _)).2
        exact absurd htree' (by simp [hlastFile])
      · exact hnames other hother ((hall other hother).2 hfile hinit).1
      · rw [htree] at htree'
        cases htree'

end Trees

end GhRunner.Execution.TarExtraction
