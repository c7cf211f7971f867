import GhRunner.Expressions.Value
import GhRunner.Lib.LossyUtf8
import GhRunner.Lib.StackWalk
import Mathlib.Data.List.Lex
import Mathlib.Data.List.Sort
import Mathlib.Logic.Function.Iterate
import Mathlib.Order.Defs.LinearOrder

namespace GhRunner.Expressions.GlobWalk

open Text Utf8 StackWalk Relation

/-!
# The walk of `hashFiles`

Search roots and the directory walk from each of them (`crates/expressions/src/functions/glob_walk.rs`,
`fold_digests` of `hash.rs`).

* `searchRoots` — the roots, without those inside of others;
* `Disk`, `metadata`, `symlinkMetadata` — what the system finds at a path, and how many links it follows;
* `walkStep`, `walk`, `walkRoots` — the loop over the stack, and one walk after the other;
* `searchRoots_antichain`, `searchRoots_covers`, `searchRoots_order` — the roots that are left;
* `walkStep_iterate`, `walkRoots_eq` — the loop handles what comes off the stack, item by item;
* `preorder_before` — a path comes before what is below it, and smaller names before larger ones.
-/

/-! ### Paths -/

/-- File names are bytes. -/
abbrev OsStr := List UInt8

inductive Component
  | rootDir
  | curDir
  | parentDir
  | normal (name : OsStr)
deriving DecidableEq, Repr

/-- Paths are compared by their components. -/
abbrev PathBuf := List Component

def startsWith (path base : PathBuf) : Bool := base.isPrefixOf path

def fileName (path : PathBuf) : Option OsStr :=
  match path.getLast? with
  | some (.normal name) => some name
  | _ => none

def Component.text : Component → OsStr
  | .rootDir => []
  | .curDir => bytes ".".toList
  | .parentDir => bytes "..".toList
  | .normal name => name

def display (path : PathBuf) : Str :=
  if path = [.rootDir] then "/".toList
  else fromUtf8Lossy (List.intercalate (bytes "/".toList) (path.map Component.text))

/-- Deduplicate search roots: drop exact repeats and any root nested inside another. -/
def searchRoots (roots : List PathBuf) : List PathBuf :=
  let unique := roots.foldl (fun unique root => if root ∈ unique then unique else unique ++ [root]) []
  unique.filter fun root => !unique.any fun other => other ≠ root && startsWith root other

/-! ### The disk -/

inductive Node
  | file
  | symlink (target : PathBuf)
  | dir (entries : List (OsStr × Node))

def Node.isDir : Node → Bool
  | .dir _ => true
  | _ => false

/-- The names down from the root directory. -/
abbrev Place := List OsStr

/-- What is found by going down the names. -/
def Node.find : Node → Place → Option Node
  | node, [] => some node
  | .dir entries, name :: names => (entries.lookup name).bind fun child => child.find names
  | _, _ :: _ => none

/-- The tree of directories, where relative paths start, and how many links a path may lead through. -/
structure Disk where
  tree : Node
  cwd : Place
  maxLinks : ℕ
  distinct : ∀ place entries, tree.find place = some (.dir entries) → (entries.map Prod.fst).Nodup

section Resolve

variable (disk : Disk)

/-- Down a path, links followed; the links that are left come with the place.  `jump` goes on behind a
    link. -/
def resolveFrom (budget : ℕ) (jump : Place → PathBuf → Option (Place × ℕ)) :
    Place → PathBuf → Option (Place × ℕ)
  | place, [] => some (place, budget)
  | _, .rootDir :: rest => resolveFrom budget jump [] rest
  | place, .curDir :: rest => resolveFrom budget jump place rest
  | place, .parentDir :: rest =>
    if (disk.tree.find place).any Node.isDir then resolveFrom budget jump place.dropLast rest else none
  | place, .normal name :: rest =>
    match disk.tree.find (place ++ [name]) with
    | none => none
    | some (.symlink target) => jump place (target ++ rest)
    | some _ => resolveFrom budget jump (place ++ [name]) rest

/-- The system gives up on a path with too many links. -/
def resolve : ℕ → Place → PathBuf → Option (Place × ℕ)
  | 0 => resolveFrom disk 0 fun _ _ => none
  | budget + 1 => resolveFrom disk (budget + 1) (resolve budget)

/-- `std::fs::metadata`: the last link is followed, too. -/
def metadata (path : PathBuf) : Option Node :=
  if path = [] then none
  else (resolve disk disk.maxLinks disk.cwd path).bind fun found => disk.tree.find found.1

/-- `std::fs::symlink_metadata`: the last component is looked up as it is. -/
def symlinkMetadata (path : PathBuf) : Option Node :=
  match fileName path with
  | some name =>
    (resolve disk disk.maxLinks disk.cwd path.dropLast).bind fun found =>
      disk.tree.find (found.1 ++ [name])
  | none => metadata disk path

end Resolve

/-- `std::fs::read_dir`, entry by entry: the names of a directory in any order, or an error. -/
structure ReadDir (disk : Disk) where
  read : PathBuf → Except Str (List OsStr)
  perm : ∀ path names entries, read path = .ok names → metadata disk path = some (.dir entries) →
    names.Perm (entries.map Prod.fst)

/-! ### The walk -/

section Walk

variable {disk : Disk} (readDir : ReadDir disk) (followSymlinks : Bool) {σ : Type}
  (visit : PathBuf → σ → Except RunnerError σ)

def readDirError (dir : PathBuf) (err : Str) : RunnerError :=
  .expression ("hashFiles read_dir ".toList ++ display dir ++ ": ".toList ++ err)

def readChildren (dir : PathBuf) : Except RunnerError (List PathBuf) :=
  match readDir.read dir with
  | .error err => .error (readDirError dir err)
  | .ok names => .ok (names.map fun name => dir ++ [.normal name])

/-- No name comes first; names are compared byte by byte. -/
def fileNameLe (a b : PathBuf) : Bool :=
  match fileName a, fileName b with
  | none, _ => true
  | some _, none => false
  | some a, some b => decide (a ≤ b)

def sortByFileName (children : List PathBuf) : List PathBuf :=
  children.insertionSort fun a b => fileNameLe a b = true

/-- The metadata that the walk asks for. -/
def metadataOf (disk : Disk) (path : PathBuf) : Option Node :=
  if followSymlinks then metadata disk path else symlinkMetadata disk path

inductive Loop (σ : Type)
  | running (stack : List PathBuf) (state : σ)
  | ended (result : Except RunnerError σ)

/-- One turn of the loop; the top of the stack is its last element. -/
def walkStep : Loop σ → Loop σ
  | .ended result => .ended result
  | .running stack state =>
    match stack.getLast? with
    | none => .ended (.ok state)
    | some item =>
      let stack := stack.dropLast
      match metadataOf followSymlinks disk item with
      | none => .running stack state
      | some node =>
        if !node.isDir then
          match visit item state with
          | .ok state => .running stack state
          | .error err => .ended (.error err)
        else
          match readChildren readDir item with
          -- `pop()` takes the tail, so push in descending order to visit ascending
          | .ok children => .running (stack ++ (sortByFileName children).reverse) state
          | .error err => .ended (.error err)

/-- No result yet, or that of the walk. -/
def walk (turns : ℕ) (root : PathBuf) (state : σ) : Option (Except RunnerError σ) :=
  match (walkStep readDir followSymlinks visit)^[turns] (.running [root] state) with
  | .running _ _ => none
  | .ended result => some result

/-- The loop of `fold_digests`. -/
def walkRoots (turns : ℕ) : List PathBuf → σ → Option (Except RunnerError σ)
  | [], state => some (.ok state)
  | root :: roots, state =>
    match walk readDir followSymlinks visit turns root state with
    | none => none
    | some (.error err) => some (.error err)
    | some (.ok state) => walkRoots turns roots state

end Walk

/-! ### Search roots -/

section SearchRoots

variable {roots : List PathBuf}

theorem startsWith_iff {path base : PathBuf} : startsWith path base = true ↔ base <+: path :=
  List.isPrefixOf_iff_prefix

/-- The first occurrences. -/
theorem foldl_unique (roots unique : List PathBuf) (h : unique.Nodup) :
    ∃ more, roots.foldl (fun unique root => if root ∈ unique then unique else unique ++ [root]) unique =
        unique ++ more ∧
      (unique ++ more).Nodup ∧ (∀ root, root ∈ unique ++ more ↔ root ∈ unique ∨ root ∈ roots) ∧
      more.Pairwise fun a b => roots.idxOf a < roots.idxOf b := by
  induction roots generalizing unique with
  | nil => exact ⟨[], by simp, by simpa using h, by simp, .nil⟩
  | cons root roots ih =>
    rw [List.foldl_cons]
    by_cases hroot : root ∈ unique
    · rw [if_pos hroot]
      obtain ⟨more, hmore, hnodup, hmem, horder⟩ := ih unique h
      refine ⟨more, hmore, hnodup, fun other => ?_, horder.imp_of_mem fun {a b} ha hb hlt => ?_⟩
      · rw [hmem, List.mem_cons]
        exact ⟨fun h => h.imp_right .inr, fun h => h.elim .inl fun h =>
          h.elim (fun heq => .inl (heq ▸ hroot)) .inr⟩
      · have hne (c : PathBuf) (hc : c ∈ more) : root ≠ c := fun heq =>
          (List.nodup_append.mp hnodup).2.2 root hroot c hc heq
        rw [List.idxOf_cons_ne _ (hne a ha), List.idxOf_cons_ne _ (hne b hb)]
        exact Nat.succ_lt_succ hlt
    · rw [if_neg hroot]
      have hstart : (unique ++ [root]).Nodup :=
        List.nodup_append.mpr ⟨h, by simp, fun a ha b hb => by
          obtain rfl := List.mem_singleton.mp hb
          exact fun heq => hroot (heq ▸ ha)⟩
      obtain ⟨more, hmore, hnodup, hmem, horder⟩ := ih (unique ++ [root]) hstart
      rw [List.append_assoc, List.singleton_append] at hmore hnodup hmem
      refine ⟨root :: more, hmore, hnodup, fun other => ?_, ?_⟩
      · rw [hmem, List.mem_append, List.mem_singleton, List.mem_cons, or_assoc]
      · have hne (c : PathBuf) (hc : c ∈ more) : root ≠ c := fun heq =>
          (List.nodup_cons.mp (List.nodup_append.mp hnodup).2.1).1 (heq ▸ hc)
        refine List.pairwise_cons.mpr ⟨fun c hc => ?_, horder.imp_of_mem fun {a b} ha hb hlt => ?_⟩
        · rw [List.idxOf_cons_self, List.idxOf_cons_ne _ (hne c hc)]
          exact Nat.succ_pos _
        · rw [List.idxOf_cons_ne _ (hne a ha), List.idxOf_cons_ne _ (hne b hb)]
          exact Nat.succ_lt_succ hlt

theorem mem_searchRoots {root : PathBuf} :
    root ∈ searchRoots roots ↔ root ∈ roots ∧ ∀ other ∈ roots, other <+: root → other = root := by
  obtain ⟨more, hmore, -, hmem, -⟩ := foldl_unique roots [] List.nodup_nil
  rw [searchRoots, hmore, List.mem_filter, hmem]
  simp only [List.not_mem_nil, false_or, Bool.not_eq_true', List.any_eq_false, hmem, ne_eq,
    Bool.and_eq_true, decide_eq_true_eq, startsWith_iff, not_and', not_not]

/-- No root is inside of another. -/
theorem searchRoots_antichain {a b : PathBuf} (ha : a ∈ searchRoots roots) (hb : b ∈ searchRoots roots)
    (h : a <+: b) : a = b :=
  (mem_searchRoots.mp hb).2 a (mem_searchRoots.mp ha).1 h

/-- Every root is inside of one that is left: of the shortest that it is inside of. -/
theorem searchRoots_covers {root : PathBuf} (h : root ∈ roots) : ∃ r ∈ searchRoots roots, r <+: root := by
  induction hn : root.length using Nat.strong_induction_on generalizing root with
  | _ n ih =>
    by_cases hkept : root ∈ searchRoots roots
    · exact ⟨root, hkept, List.prefix_refl root⟩
    · obtain ⟨other, hother, hin, hne⟩ : ∃ other ∈ roots, other <+: root ∧ other ≠ root := by
        by_contra hnone
        refine hkept (mem_searchRoots.mpr ⟨h, fun other hother hin => ?_⟩)
        by_contra hne
        exact hnone ⟨other, hother, hin, hne⟩
      have hlt : other.length < n := by
        have hle := hin.length_le
        have hlen : other.length ≠ root.length := fun heq => hne (hin.eq_of_length heq)
        omega
      obtain ⟨r, hr, hprefix⟩ := ih other.length hlt hother rfl
      exact ⟨r, hr, hprefix.trans hin⟩

theorem searchRoots_order (roots : List PathBuf) :
    (searchRoots roots).Pairwise fun a b => roots.idxOf a < roots.idxOf b := by
  obtain ⟨more, hmore, -, -, horder⟩ := foldl_unique roots [] List.nodup_nil
  rw [searchRoots, hmore]
  exact horder.sublist List.filter_sublist

end SearchRoots

/-! ### Directories -/

section Places

variable {disk : Disk}

theorem lookup_of_mem {entries : List (OsStr × Node)} {entry : OsStr × Node} (h : entry ∈ entries)
    (hnodup : (entries.map Prod.fst).Nodup) : entries.lookup entry.1 = some entry.2 := by
  induction entries with
  | nil => exact absurd h List.not_mem_nil
  | cons first entries ih =>
    obtain ⟨name, node⟩ := first
    rw [List.map_cons, List.nodup_cons] at hnodup
    rcases List.mem_cons.mp h with rfl | h
    · exact List.lookup_cons_self
    · have hmem : entry.1 ∈ entries.map Prod.fst := List.mem_map.mpr ⟨entry, h, rfl⟩
      have hne : entry.1 ≠ name := fun heq => hnodup.1 (heq ▸ hmem)
      rw [List.lookup_cons, beq_eq_false_iff_ne.mpr hne]
      exact ih h hnodup.2

theorem mem_of_lookup {entries : List (OsStr × Node)} {name : OsStr} {node : Node}
    (h : entries.lookup name = some node) :
    (name, node) ∈ entries := by
  obtain ⟨before, after, rfl, -⟩ := List.lookup_eq_some_iff.mp h
  simp

theorem Node.find_append (node : Node) (names more : Place) :
    node.find (names ++ more) = (node.find names).bind fun found => found.find more := by
  induction names generalizing node with
  | nil => rfl
  | cons name names ih =>
    cases node with
    | file => rfl
    | symlink target => rfl
    | dir entries =>
      rw [List.cons_append, Node.find, Node.find]
      cases entries.lookup name with
      | none => rfl
      | some child => exact ih child

theorem Node.find_child {node : Node} {place : Place} {entries : List (OsStr × Node)}
    (h : node.find place = some (.dir entries)) (name : OsStr) :
    node.find (place ++ [name]) = entries.lookup name := by
  rw [Node.find_append, h]
  show (entries.lookup name).bind some = _
  cases entries.lookup name <;> rfl

/-- Behind a link, one may be followed less. -/
def jump (disk : Disk) : ℕ → Place → PathBuf → Option (Place × ℕ)
  | 0 => fun _ _ => none
  | budget + 1 => resolve disk budget

theorem resolve_eq (budget : ℕ) : resolve disk budget = resolveFrom disk budget (jump disk budget) := by
  cases budget <;> rfl

theorem resolve_nil (budget : ℕ) (place : Place) : resolve disk budget place [] = some (place, budget) := by
  rw [resolve_eq]
  rfl

theorem resolveFrom_append {budget : ℕ}
    (hjump : ∀ place path rest, jump disk budget place (path ++ rest) =
      (jump disk budget place path).bind fun found => resolve disk found.2 found.1 rest)
    (place : Place) (path rest : PathBuf) :
    resolveFrom disk budget (jump disk budget) place (path ++ rest) =
      (resolveFrom disk budget (jump disk budget) place path).bind fun found =>
        resolve disk found.2 found.1 rest := by
  induction path generalizing place with
  | nil =>
    rw [List.nil_append, ← resolve_eq, resolve_nil]
    rfl
  | cons component path ih =>
    cases component with
    | rootDir => exact ih []
    | curDir => exact ih place
    | parentDir =>
      rw [List.cons_append, resolveFrom, resolveFrom]
      split
      · exact ih place.dropLast
      · rfl
    | normal name =>
      rw [List.cons_append, resolveFrom, resolveFrom]
      split
      · rfl
      · rw [← List.append_assoc]
        exact hjump _ _ _
      · exact ih _

/-- A path is resolved from where its front leads, with the links that are left. -/
theorem resolve_append (budget : ℕ) (place : Place) (path rest : PathBuf) :
    resolve disk budget place (path ++ rest) =
      (resolve disk budget place path).bind fun found => resolve disk found.2 found.1 rest := by
  induction budget generalizing place path rest with
  | zero =>
    rw [resolve_eq]
    exact resolveFrom_append (fun _ _ _ => rfl) place path rest
  | succ budget ih =>
    have hjump : ∀ place path rest, jump disk (budget + 1) place (path ++ rest) =
        (jump disk (budget + 1) place path).bind fun found => resolve disk found.2 found.1 rest := ih
    rw [resolve_eq]
    exact resolveFrom_append hjump place path rest

/-- Where a directory is that is found at a path, and how many links may still be followed. -/
theorem exists_place {followSymlinks : Bool} {path : PathBuf} {entries : List (OsStr × Node)}
    (h : metadataOf followSymlinks disk path = some (.dir entries)) :
    path ≠ [] ∧ ∃ place budget, resolve disk disk.maxLinks disk.cwd path = some (place, budget) ∧
      disk.tree.find place = some (.dir entries) := by
  have hmeta (h : metadata disk path = some (.dir entries)) :
      path ≠ [] ∧ ∃ place budget, resolve disk disk.maxLinks disk.cwd path = some (place, budget) ∧
        disk.tree.find place = some (.dir entries) := by
    unfold metadata at h
    split at h
    case isTrue => exact absurd h.symm (Option.some_ne_none _)
    case isFalse hne =>
      obtain ⟨⟨place, budget⟩, hfound, hnode⟩ := Option.bind_eq_some_iff.mp h
      exact ⟨hne, place, budget, hfound, hnode⟩
  unfold metadataOf at h
  split at h
  case isTrue => exact hmeta h
  case isFalse =>
    unfold symlinkMetadata at h
    split at h
    case h_2 => exact hmeta h
    case h_1 name hname =>
      obtain ⟨⟨place, budget⟩, hfound, hnode⟩ := Option.bind_eq_some_iff.mp h
      have hlast : path.getLast? = some (.normal name) := by
        unfold fileName at hname
        split at hname
        case h_1 last hlast => rw [hlast, Option.some.inj hname]
        case h_2 => exact absurd hname.symm (Option.some_ne_none _)
      obtain ⟨front, rfl⟩ := List.getLast?_eq_some_iff.mp hlast
      rw [List.dropLast_concat] at hfound
      refine ⟨by simp, place ++ [name], budget, ?_, hnode⟩
      rw [resolve_append, hfound]
      show resolve disk budget place [.normal name] = _
      rw [resolve_eq, resolveFrom, hnode]
      rfl

/-- With or without following the last link, a directory is the same one. -/
theorem metadata_of_metadataOf {followSymlinks : Bool} {path : PathBuf} {entries : List (OsStr × Node)}
    (h : metadataOf followSymlinks disk path = some (.dir entries)) :
    metadata disk path = some (.dir entries) := by
  obtain ⟨hne, place, budget, hfound, hnode⟩ := exists_place h
  rw [metadata, if_neg hne, hfound]
  exact hnode

@[simp] theorem fileName_child (path : PathBuf) (name : OsStr) :
    fileName (path ++ [.normal name]) = some name := by
  rw [fileName, List.getLast?_concat]

/-- What `lstat` finds in a directory are its entries. -/
theorem symlinkMetadata_child {path : PathBuf} {entries : List (OsStr × Node)}
    (h : symlinkMetadata disk path = some (.dir entries)) (name : OsStr) :
    symlinkMetadata disk (path ++ [.normal name]) = entries.lookup name := by
  obtain ⟨-, place, budget, hfound, hnode⟩ := exists_place (show metadataOf false disk path = _ from h)
  rw [symlinkMetadata, fileName_child, List.dropLast_concat]
  show (resolve disk disk.maxLinks disk.cwd path).bind _ = _
  rw [hfound]
  exact Node.find_child hnode name

theorem nodup_entries {followSymlinks : Bool} {path : PathBuf} {entries : List (OsStr × Node)}
    (h : metadataOf followSymlinks disk path = some (.dir entries)) : (entries.map Prod.fst).Nodup := by
  obtain ⟨-, place, budget, -, hnode⟩ := exists_place h
  exact disk.distinct place entries hnode

end Places

/-! ### The order of the names -/

section Sorting

instance : IsTrans PathBuf fun a b => fileNameLe a b = true where
  trans a b c hab hbc := by
    unfold fileNameLe at *
    cases ha : fileName a <;> cases hb : fileName b <;> cases hc : fileName c <;> simp_all
    exact List.le_trans hab hbc

instance : Std.Total fun a b : PathBuf => fileNameLe a b = true where
  total a b := by
    unfold fileNameLe
    cases fileName a <;> cases fileName b <;> simp
    exact List.le_total _ _

theorem fileNameLe_child {path : PathBuf} {a b : OsStr} :
    fileNameLe (path ++ [.normal a]) (path ++ [.normal b]) = true ↔ a ≤ b := by
  simp [fileNameLe]

/-- The paths of a directory's entries. -/
def childPaths (path : PathBuf) (names : List OsStr) : List PathBuf :=
  names.map fun name => path ++ [.normal name]

/-- In whatever order the names are read, the sorted paths are the same. -/
theorem sortByFileName_perm {path : PathBuf} {names names' : List OsStr} (h : names.Perm names') :
    sortByFileName (childPaths path names) = sortByFileName (childPaths path names') := by
  have hsorted (names : List OsStr) := List.pairwise_insertionSort (fun a b => fileNameLe a b = true)
    (childPaths path names)
  have hperm : (sortByFileName (childPaths path names)).Perm (sortByFileName (childPaths path names')) :=
    (List.perm_insertionSort _ _).trans ((h.map _).trans (List.perm_insertionSort _ _).symm)
  refine hperm.eq_of_pairwise (fun a b ha hb hab hba => ?_) (hsorted names) (hsorted names')
  obtain ⟨m, -, rfl⟩ := List.mem_map.mp ((List.mem_insertionSort _).mp ha)
  obtain ⟨n, -, rfl⟩ := List.mem_map.mp ((List.mem_insertionSort _).mp hb)
  rw [List.le_antisymm (fileNameLe_child.mp hab) (fileNameLe_child.mp hba)]

theorem mem_sortByFileName {path child : PathBuf} {names : List OsStr} :
    child ∈ sortByFileName (childPaths path names) ↔ ∃ name ∈ names, child = path ++ [.normal name] := by
  rw [sortByFileName, List.mem_insertionSort, childPaths, List.mem_map]
  exact exists_congr fun name => and_congr_right fun _ => eq_comm

/-- Of two sorted paths the first has the smaller name. -/
theorem sortByFileName_pairwise {path : PathBuf} {names : List OsStr} (h : names.Nodup) :
    (sortByFileName (childPaths path names)).Pairwise fun child child' =>
      ∃ a b, a < b ∧ child = path ++ [.normal a] ∧ child' = path ++ [.normal b] := by
  have hsorted := List.pairwise_insertionSort (fun a b => fileNameLe a b = true) (childPaths path names)
  have hnodup : (sortByFileName (childPaths path names)).Nodup := by
    refine (List.perm_insertionSort _ _).nodup_iff.mpr (h.map fun a b hab => ?_)
    have hlast := List.append_cancel_left hab
    exact Component.normal.inj (List.cons.inj hlast).1
  refine List.Pairwise.imp_of_mem ?_ (hsorted.and hnodup)
  rintro child child' hchild hchild' ⟨hle, hne⟩
  obtain ⟨a, -, rfl⟩ := mem_sortByFileName.mp hchild
  obtain ⟨b, -, rfl⟩ := mem_sortByFileName.mp hchild'
  have hlt : ¬ b ≤ a := fun hge => hne (by rw [List.le_antisymm (fileNameLe_child.mp hle) hge])
  exact ⟨a, b, List.not_le.mp hlt, rfl, rfl⟩

end Sorting

/-! ### The loop -/

section Turns

variable {disk : Disk} (readDir : ReadDir disk) (followSymlinks : Bool) {σ : Type}
  (visit : PathBuf → σ → Except RunnerError σ)

/-- The paths that take an item's place on the stack. -/
def below (disk : Disk) (path : PathBuf) : List PathBuf :=
  match metadataOf followSymlinks disk path with
  | some (.dir entries) => sortByFileName (childPaths path (entries.map Prod.fst))
  | _ => []

/-- What is done with one item. -/
def handle (item : PathBuf) (state : σ) : Except RunnerError σ :=
  match metadataOf followSymlinks disk item with
  | none => .ok state
  | some node =>
    if !node.isDir then visit item state
    else
      match readDir.read item with
      | .ok _ => .ok state
      | .error err => .error (readDirError item err)

theorem walkStep_push (stack : List PathBuf) (item : PathBuf) (state : σ) :
    walkStep readDir followSymlinks visit (.running (stack ++ [item]) state) =
      match handle readDir followSymlinks visit item state with
      | .ok state => .running (stack ++ (below followSymlinks disk item).reverse) state
      | .error err => .ended (.error err) := by
  simp only [walkStep, List.getLast?_concat, List.dropLast_concat, handle, below]
  cases hmeta : metadataOf followSymlinks disk item with
  | none => simp
  | some node =>
    cases node with
    | file => cases visit item state <;> simp [Node.isDir]
    | symlink target => cases visit item state <;> simp [Node.isDir]
    | dir entries =>
      cases hread : readDir.read item with
      | error err => simp [Node.isDir, readChildren, hread]
      | ok names =>
        have hperm := readDir.perm item names entries hread (metadata_of_metadataOf hmeta)
        have hsame : sortByFileName (names.map fun name => item ++ [.normal name]) =
            sortByFileName (childPaths item (entries.map Prod.fst)) := sortByFileName_perm hperm
        simp [Node.isDir, readChildren, hread, hsame]

theorem walkStep_iterate_ended (turns : ℕ) (result : Except RunnerError σ) :
    (walkStep readDir followSymlinks visit)^[turns] (.ended result) = .ended result := by
  induction turns with
  | zero => rfl
  | succ turns ih => exact ih

/-- The loop handles what comes off the stack, item by item. -/
theorem walkStep_iterate {stack items : List PathBuf} (h : Pops (below followSymlinks disk) stack items)
    {turns : ℕ} (hturns : items.length < turns) (state : σ) :
    (walkStep readDir followSymlinks visit)^[turns] (.running stack.reverse state) =
      .ended (items.foldlM (fun state item => handle readDir followSymlinks visit item state) state) := by
  induction h generalizing turns state with
  | done =>
    obtain ⟨turns, rfl⟩ := Nat.exists_eq_succ_of_ne_zero (Nat.ne_of_gt hturns)
    exact walkStep_iterate_ended readDir followSymlinks visit turns (.ok state)
  | @pop item stack items rest ih =>
    obtain ⟨turns, rfl⟩ := Nat.exists_eq_succ_of_ne_zero (Nat.ne_of_gt (Nat.zero_lt_of_lt hturns))
    rw [Function.iterate_succ_apply, List.reverse_cons, walkStep_push, List.foldlM_cons]
    cases handle readDir followSymlinks visit item state with
    | error err => exact walkStep_iterate_ended readDir followSymlinks visit turns (.error err)
    | ok state =>
      have hrest := ih (Nat.lt_of_succ_lt_succ hturns) state
      rw [List.reverse_append] at hrest
      exact hrest

theorem walk_eq {root : PathBuf} {items : List PathBuf} (h : Pops (below followSymlinks disk) [root] items)
    {turns : ℕ} (hturns : items.length < turns) (state : σ) :
    walk readDir followSymlinks visit turns root state =
      some (items.foldlM (fun state item => handle readDir followSymlinks visit item state) state) := by
  have hloop := walkStep_iterate readDir followSymlinks visit h hturns state
  rw [List.reverse_singleton] at hloop
  rw [walk, hloop]

/-- One walk after the other handles the items of one after those of the other. -/
theorem walkRoots_eq {order : PathBuf → List PathBuf} {roots : List PathBuf}
    (h : ∀ root ∈ roots, Pops (below followSymlinks disk) [root] (order root)) {turns : ℕ}
    (hturns : (roots.flatMap order).length < turns) (state : σ) :
    walkRoots readDir followSymlinks visit turns roots state =
      some ((roots.flatMap order).foldlM
        (fun state item => handle readDir followSymlinks visit item state) state) := by
  induction roots generalizing state with
  | nil => rfl
  | cons root roots ih =>
    obtain ⟨hroot, h⟩ := List.forall_mem_cons.mp h
    rw [List.flatMap_cons, List.length_append] at hturns
    have hwalk := walk_eq readDir followSymlinks visit hroot
      (Nat.lt_of_le_of_lt (Nat.le_add_right _ _) hturns) state
    rw [walkRoots, hwalk, List.flatMap_cons, List.foldlM_append]
    cases (order root).foldlM (fun state item => handle readDir followSymlinks visit item state) state with
    | error err => rfl
    | ok state => exact ih h (Nat.lt_of_le_of_lt (Nat.le_add_left _ _) hturns) state

end Turns

/-! ### Below a root -/

section Below

variable {disk : Disk} {followSymlinks : Bool} {root path : PathBuf}

theorem mem_below_iff {child : PathBuf} : child ∈ below followSymlinks disk path ↔
    ∃ entries, metadataOf followSymlinks disk path = some (.dir entries) ∧
      ∃ name ∈ entries.map Prod.fst, child = path ++ [.normal name] := by
  unfold below
  split
  case h_1 entries hdir =>
    rw [mem_sortByFileName]
    constructor
    · exact fun h => ⟨entries, hdir, h⟩
    · rintro ⟨entries', hdir', h⟩
      rw [hdir] at hdir'
      rwa [Node.dir.inj (Option.some.inj hdir')]
  case h_2 hnone =>
    refine iff_of_false List.not_mem_nil ?_
    rintro ⟨entries, hdir, -⟩
    exact hnone entries hdir

theorem below_pairwise (followSymlinks : Bool) (disk : Disk) (path : PathBuf) :
    (below followSymlinks disk path).Pairwise fun child child' =>
      ∃ a b, a < b ∧ child = path ++ [.normal a] ∧ child' = path ++ [.normal b] := by
  unfold below
  split
  case h_1 entries hdir => exact sortByFileName_pairwise (nodup_entries hdir)
  case h_2 => exact .nil

/-- What is below a path begins with it. -/
theorem prefix_of_below (h : Below (below followSymlinks disk) root path) : root <+: path := by
  induction h with
  | refl => exact List.prefix_refl root
  | tail _ hchild ih =>
    obtain ⟨-, -, name, -, rfl⟩ := mem_below_iff.mp hchild
    exact ih.trans (List.prefix_append _ _)

/-- The second path is below the first, or they part at two names, and the first has the smaller one. -/
def Before (p q : PathBuf) : Prop :=
  (p <+: q ∧ p ≠ q) ∨ ∃ stem a b, a < b ∧ stem ++ [.normal a] <+: p ∧ stem ++ [.normal b] <+: q

theorem before_irrefl (p : PathBuf) : ¬ Before p p := by
  rintro (⟨-, hne⟩ | ⟨stem, a, b, hlt, ha, hb⟩)
  · exact hne rfl
  · have hsame := List.prefix_of_prefix_length_le ha hb (by simp)
    have heq := hsame.eq_of_length (by simp)
    obtain rfl := Component.normal.inj (List.cons.inj (List.append_cancel_left heq)).1
    exact List.lt_irrefl a hlt

theorem preorder_before (followSymlinks : Bool) (disk : Disk) (depth : ℕ) (root : PathBuf) :
    (preorder (below followSymlinks disk) depth root).Pairwise Before := by
  apply pairwise_preorder
  · intro item child other hchild hother
    have hprefix := prefix_of_below hother
    obtain ⟨-, -, name, -, rfl⟩ := mem_below_iff.mp hchild
    refine .inl ⟨(List.prefix_append item _).trans hprefix, ?_⟩
    rintro rfl
    have hlen := hprefix.length_le
    rw [List.length_append, List.length_singleton] at hlen
    omega
  · intro item
    refine (below_pairwise followSymlinks disk item).imp ?_
    rintro child child' ⟨a, b, hlt, rfl, rfl⟩ other other' hother hother'
    exact .inr ⟨item, a, b, hlt, prefix_of_below hother, prefix_of_below hother'⟩

end Below

end GhRunner.Expressions.GlobWalk
