import GhRunner.Lib.Text
import Mathlib.Data.Finmap
import Mathlib.Data.List.Infix

/-!
# A tree of files and directories

What a program sees of a file system that it alone writes to.

* `Path`, `join` — the components of a path below the root; an empty name adds none;
* `Tree`, `createDirAll`, `write`, `remove`, `read` — the nodes and the operations on them;
* `Listing` — an order in which directories list their children;
* `createDirAll_spec` — where no file is in the way, directories are made and nothing else changes;
* `rsplitDot`, `extension`, `fileStem` — the parts of a file name.
-/

namespace FileTree

open Text

/-- The components below the root. -/
abbrev Path := List Str

/-- The components of a relative name; separators next to each other, or at the end, add none. -/
def components (name : Str) : Path := (name.splitOn '/').filter (· ≠ [])

def join (path : Path) (name : Str) : Path := path ++ components name

theorem components_eq {name : Str} (h : '/' ∉ name) :
    components name = if name = [] then [] else [name] := by
  have hsplit : name.splitOn '/' = [name] := by
    apply List.splitOnP_eq_singleton
    intro c hc
    exact beq_eq_false_iff_ne.mpr fun hslash => h (hslash ▸ hc)
  rw [components, hsplit, List.filter_singleton]
  by_cases hname : name = [] <;> simp [hname]

/-! ### Names -/

/-- A name cut at its last dot. -/
def rsplitDot : Str → Option (Str × Str)
  | [] => none
  | c :: rest =>
    match rsplitDot rest with
    | some (before, after) => some (c :: before, after)
    | none => if c = '.' then some ([], rest) else none

/-- What follows the last dot, unless nothing stands before it. -/
def extension (name : Str) : Option Str :=
  if name = "..".toList then none
  else
    match rsplitDot name with
    | some (before, after) => if before = [] then none else some after
    | none => none

/-- What stands before the last dot; the whole name if that is nothing. -/
def fileStem (name : Str) : Str :=
  if name = "..".toList then name
  else
    match rsplitDot name with
    | some (before, _) => if before = [] then name else before
    | none => name

theorem rsplitDot_cons (c : Char) (rest : Str) : rsplitDot (c :: rest) =
    match rsplitDot rest with
    | some (before, after) => some (c :: before, after)
    | none => if c = '.' then some ([], rest) else none := rfl

theorem rsplitDot_eq_none_iff {name : Str} : rsplitDot name = none ↔ '.' ∉ name := by
  induction name with
  | nil => simp [rsplitDot]
  | cons c rest ih =>
    rw [rsplitDot_cons, List.mem_cons, not_or, ← ih]
    split
    case h_1 before after h => simp [h]
    case h_2 h =>
      rw [h, and_iff_left rfl]
      split <;> simp_all [eq_comm]

theorem rsplitDot_append {before after : Str} (h : '.' ∉ after) :
    rsplitDot (before ++ '.' :: after) = some (before, after) := by
  induction before with
  | nil => rw [List.nil_append, rsplitDot_cons, rsplitDot_eq_none_iff.mpr h, if_pos rfl]
  | cons c before ih => rw [List.cons_append, rsplitDot_cons, ih]

theorem rsplitDot_eq_some {name before after : Str} (h : rsplitDot name = some (before, after)) :
    name = before ++ '.' :: after := by
  induction name generalizing before with
  | nil => cases h
  | cons c rest ih =>
    rw [rsplitDot_cons] at h
    split at h
    case h_1 before' after' hrest =>
      obtain ⟨rfl, rfl⟩ := Prod.mk.inj (Option.some.inj h)
      rw [ih hrest, List.cons_append]
    case h_2 =>
      split at h
      case isTrue hdot =>
        obtain ⟨rfl, rfl⟩ := Prod.mk.inj (Option.some.inj h)
        rw [hdot, List.nil_append]
      case isFalse => cases h

/-- The names with an extension are those with a dot that something stands before. -/
theorem extension_eq_some {name after : Str} (h : extension name = some after) :
    name = fileStem name ++ '.' :: after ∧ fileStem name ≠ [] := by
  unfold extension at h
  split at h
  case isTrue => cases h
  case isFalse hdots =>
    split at h
    case h_1 before after' hsplit =>
      split at h
      case isTrue => cases h
      case isFalse hbefore =>
        obtain rfl := Option.some.inj h
        have hstem : fileStem name = before := by
          rw [fileStem, if_neg hdots, hsplit]
          exact if_neg hbefore
        rw [hstem]
        exact ⟨rsplitDot_eq_some hsplit, hbefore⟩
    case h_2 => cases h

theorem extension_append {before after : Str} (hbefore : before ≠ []) (hafter : after ≠ [])
    (h : '.' ∉ after) :
    extension (before ++ '.' :: after) = some after ∧ fileStem (before ++ '.' :: after) = before := by
  have hdots : before ++ '.' :: after ≠ "..".toList := by
    intro heq
    have hlen := congrArg List.length heq
    have := List.length_pos_of_ne_nil hbefore
    have := List.length_pos_of_ne_nil hafter
    simp only [List.length_append, List.length_cons] at hlen
    have htwo : "..".toList.length = 2 := rfl
    omega
  rw [extension, fileStem, if_neg hdots, if_neg hdots, rsplitDot_append h]
  exact ⟨if_neg hbefore, if_neg hbefore⟩

/-- A name that begins with its only dot has no extension. -/
theorem extension_dot {after : Str} (h : '.' ∉ after) : extension ('.' :: after) = none := by
  unfold extension
  split
  · rfl
  · have hsplit := @rsplitDot_append [] after h
    rw [List.nil_append] at hsplit
    rw [hsplit]
    rfl

/-! ### Trees -/

inductive Node
  | file (content : List UInt8)
  | dir
deriving DecidableEq

inductive IoError
  | notFound
  | isADirectory
  | notADirectory
deriving DecidableEq, Repr

structure Tree where
  nodes : Finmap fun _ : Path => Node

namespace Tree

def empty : Tree := ⟨∅⟩

/-- The root is a directory. -/
def isDir (t : Tree) (p : Path) : Bool := p = [] || t.nodes.lookup p = some .dir

def mkdir (t : Tree) (p : Path) : Except IoError Tree :=
  if p = [] then .ok t
  else
    match t.nodes.lookup p with
    | none => .ok ⟨t.nodes.insert p .dir⟩
    | some .dir => .ok t
    | some (.file _) => .error .notADirectory

/-- Every directory on the way that is missing. -/
def createDirAll (t : Tree) (p : Path) : Except IoError Tree := p.inits.foldlM mkdir t

/-- Open for writing, a missing file being created empty, and store what is made of the content. -/
def write (t : Tree) (p : Path) (f : List UInt8 → List UInt8) : Except IoError Tree :=
  if t.isDir p.dropLast then
    match t.nodes.lookup p with
    | none => .ok ⟨t.nodes.insert p (.file (f []))⟩
    | some (.file content) => .ok ⟨t.nodes.insert p (.file (f content))⟩
    | some .dir => .error .isADirectory
  else .error .notFound

def remove (t : Tree) (p : Path) : Except IoError Tree :=
  match t.nodes.lookup p with
  | none => .error .notFound
  | some (.file _) => .ok ⟨t.nodes.erase p⟩
  | some .dir => .error .isADirectory

def read (t : Tree) (p : Path) : Except IoError (List UInt8) :=
  match t.nodes.lookup p with
  | none => .error .notFound
  | some (.file content) => .ok content
  | some .dir => .error .isADirectory

/-- An order in which directories list their children. -/
structure Listing (t : Tree) where
  order : Path → List Str
  nodup : ∀ p, (order p).Nodup
  mem_iff : ∀ p name, name ∈ order p ↔ p ++ [name] ∈ t.nodes

theorem exists_listing (t : Tree) : Nonempty t.Listing := by
  let children (p : Path) := t.nodes.keys.filter fun q => q ≠ [] ∧ q.dropLast = p
  have hlast : ∀ p, ∀ q ∈ children p, p ++ [q.getLastD []] = q := by
    intro p q hq
    obtain ⟨-, hne, rfl⟩ := Finset.mem_filter.mp hq
    rw [List.getLastD_eq_getLast?, List.getLast?_eq_some_getLast hne, Option.getD_some,
      List.dropLast_append_getLast hne]
  refine ⟨fun p => (children p).toList.map (·.getLastD []), fun p => ?_, fun p name => ?_⟩
  · refine (Finset.nodup_toList _).map_on fun q hq q' hq' heq => ?_
    rw [← hlast p q (Finset.mem_toList.mp hq), heq, hlast p q' (Finset.mem_toList.mp hq')]
  · rw [List.mem_map]
    constructor
    · rintro ⟨q, hq, rfl⟩
      have hq := Finset.mem_toList.mp hq
      rw [hlast p q hq]
      exact Finmap.mem_keys.mp (Finset.mem_filter.mp hq).1
    · intro hmem
      refine ⟨p ++ [name], ?_, by simp [List.getLastD_eq_getLast?]⟩
      rw [Finset.mem_toList, Finset.mem_filter, Finmap.mem_keys]
      exact ⟨hmem, by simp, List.dropLast_concat⟩

/-! ### What the operations do -/

variable {t : Tree} {p : Path}

theorem mkdir_spec (h : ∀ content, t.nodes.lookup p ≠ some (.file content)) :
    ∃ t', t.mkdir p = .ok t' ∧
      ∀ q, t'.nodes.lookup q = if q = p ∧ q ≠ [] then some .dir else t.nodes.lookup q := by
  unfold mkdir
  by_cases hroot : p = []
  · subst hroot
    exact ⟨t, if_pos rfl, fun q => (if_neg fun hq => hq.2 hq.1).symm⟩
  rw [if_neg hroot]
  cases hnode : t.nodes.lookup p with
  | none =>
    refine ⟨_, rfl, fun q => ?_⟩
    by_cases hq : q = p
    · subst hq
      rw [Finmap.lookup_insert, if_pos ⟨rfl, hroot⟩]
    · rw [Finmap.lookup_insert_of_ne _ hq, if_neg fun h => hq h.1]
  | some node =>
    cases node with
    | file content => exact absurd hnode (h content)
    | dir =>
      refine ⟨t, rfl, fun q => ?_⟩
      split
      case isTrue hq => rw [hq.1, hnode]
      case isFalse => rfl

/-- Where no file is in the way, the directories are made and nothing else changes. -/
theorem createDirAll_spec
    (h : ∀ q, q <+: p → ∀ content, t.nodes.lookup q ≠ some (.file content)) :
    ∃ t', t.createDirAll p = .ok t' ∧
      ∀ q, t'.nodes.lookup q = if q <+: p ∧ q ≠ [] then some .dir else t.nodes.lookup q := by
  induction p using List.reverseRecOn with
  | nil =>
    refine ⟨t, ?_, fun q => (if_neg fun hq => hq.2 (List.prefix_nil.mp hq.1)).symm⟩
    rfl
  | append_singleton p name ih =>
    have hstarts : p <+: p ++ [name] := List.prefix_append p [name]
    obtain ⟨t', ht', hlookup'⟩ := ih fun q hq => h q (hq.trans hstarts)
    have hfree : ∀ content, t'.nodes.lookup (p ++ [name]) ≠ some (.file content) := by
      intro content
      rw [hlookup', if_neg]
      · exact h _ (List.prefix_refl _) content
      · rintro ⟨hle, -⟩
        have := hle.length_le
        rw [List.length_append, List.length_singleton] at this
        omega
    obtain ⟨t'', ht'', hlookup''⟩ := mkdir_spec hfree
    refine ⟨t'', ?_, fun q => ?_⟩
    · rw [createDirAll] at ht' ⊢
      rw [List.inits_append, List.foldlM_append, ht']
      exact (bind_pure _).trans ht''
    · rw [hlookup'', hlookup']
      -- a prefix of the longer path is the path itself or a prefix of the shorter one
      by_cases hq : q = p ++ [name]
      · simp [hq]
      · simp [hq, List.prefix_concat_iff]

/-- Where the directory is there and the path is none, the file is written and nothing else
    changes. -/
theorem write_spec {f : List UInt8 → List UInt8} {old : Option (List UInt8)}
    (hparent : t.isDir p.dropLast = true) (h : t.nodes.lookup p = old.map .file) :
    ∃ t', t.write p f = .ok t' ∧
      ∀ q, t'.nodes.lookup q = if q = p then some (.file (f (old.getD []))) else t.nodes.lookup q := by
  have hset : ∀ content q, (t.nodes.insert p (.file content)).lookup q =
      if q = p then some (.file content) else t.nodes.lookup q := by
    intro content q
    by_cases hq : q = p
    · subst hq
      rw [Finmap.lookup_insert, if_pos rfl]
    · rw [Finmap.lookup_insert_of_ne _ hq, if_neg hq]
  rw [write, if_pos hparent, h]
  cases old with
  | none => exact ⟨_, rfl, hset _⟩
  | some content => exact ⟨_, rfl, hset _⟩

theorem remove_spec {content : List UInt8} (h : t.nodes.lookup p = some (.file content)) :
    ∃ t', t.remove p = .ok t' ∧
      ∀ q, t'.nodes.lookup q = if q = p then none else t.nodes.lookup q := by
  refine ⟨⟨t.nodes.erase p⟩, by rw [remove, h], fun q => ?_⟩
  by_cases hq : q = p
  · subst hq
    rw [if_pos rfl, Finmap.lookup_erase]
  · rw [if_neg hq, Finmap.lookup_erase_ne hq]

end Tree

end FileTree
