import GhRunner.Expressions.GlobWalk

namespace GhRunner.Expressions.GlobWalk

open StackWalk

/-!
# The files of `hashFiles`

Without following links, what the walk finds below its roots are finite trees.

* `symlinkMetadata_find` — what `lstat` finds in a tree;
* `exists_within_path`, `below_iff` — the walk gets as deep as the tree, and everywhere in it;
* `EntryUnder`, `nodup_items` — what is no directory, and no item comes twice;
* `hashFiles_visits` — what is below the roots is visited once, in order.
-/

/-! ### Trees -/

section Tree

variable {disk : Disk} {root path : PathBuf} {node : Node}

/-- A walk that follows no link gets no deeper than the tree. -/
theorem exists_within_node (h : symlinkMetadata disk path = some node) :
    ∃ depth, Within (below false disk) depth path := by
  induction hn : sizeOf node using Nat.strong_induction_on generalizing node path with
  | _ n ih =>
    have hall : ∀ child ∈ below false disk path, ∃ depth, Within (below false disk) depth child := by
      intro child hchild
      obtain ⟨entries, hdir, name, hname, rfl⟩ := mem_below_iff.mp hchild
      obtain ⟨⟨name, found⟩, hentry, rfl⟩ := List.mem_map.mp hname
      have hdir' : symlinkMetadata disk path = some (.dir entries) := hdir
      have hfound := symlinkMetadata_child hdir' name
      rw [lookup_of_mem hentry (nodup_entries hdir)] at hfound
      refine ih (sizeOf found) ?_ hfound rfl
      obtain rfl := Option.some.inj (h.symm.trans hdir')
      have hlt := List.sizeOf_lt_of_mem hentry
      rw [← hn, Node.dir.sizeOf_spec]
      rw [Prod.mk.sizeOf_spec] at hlt
      omega
    obtain ⟨depth, hdepth⟩ := exists_within hall
    exact ⟨depth + 1, hdepth⟩

theorem exists_within_path (disk : Disk) (path : PathBuf) :
    ∃ depth, Within (below false disk) depth path := by
  cases h : symlinkMetadata disk path with
  | some node => exact exists_within_node h
  | none =>
    refine ⟨0, List.eq_nil_iff_forall_not_mem.mpr fun child hchild => ?_⟩
    obtain ⟨entries, hdir, -⟩ := mem_below_iff.mp hchild
    exact absurd (h.symm.trans hdir).symm (Option.some_ne_none _)

theorem symlinkMetadata_find {names : Place} {found : Node} (h : symlinkMetadata disk root = some node)
    (hfound : node.find names = some found) :
    symlinkMetadata disk (root ++ names.map .normal) = some found := by
  induction names generalizing root node with
  | nil =>
    rw [List.map_nil, List.append_nil, h]
    exact hfound
  | cons name names ih =>
    cases node with
    | file => exact absurd hfound.symm (Option.some_ne_none _)
    | symlink target => exact absurd hfound.symm (Option.some_ne_none _)
    | dir entries =>
      obtain ⟨child, hlookup, hfound⟩ := Option.bind_eq_some_iff.mp hfound
      have hrest := ih ((symlinkMetadata_child h name).trans hlookup) hfound
      rwa [List.append_assoc] at hrest

/-- What is below a root is what is found in its tree. -/
theorem below_iff (h : symlinkMetadata disk root = some node) : Below (below false disk) root path ↔
    ∃ names found, path = root ++ names.map .normal ∧ node.find names = some found := by
  constructor
  · intro hbelow
    induction hbelow with
    | refl => exact ⟨[], node, by simp, rfl⟩
    | tail _ hchild ih =>
      obtain ⟨names, found, rfl, hfound⟩ := ih
      have hmeta := symlinkMetadata_find h hfound
      obtain ⟨entries, hdir, name, hname, rfl⟩ := mem_below_iff.mp hchild
      obtain ⟨⟨name, child⟩, hentry, rfl⟩ := List.mem_map.mp hname
      have hdir' : symlinkMetadata disk (root ++ names.map .normal) = some (.dir entries) := hdir
      have hlookup := lookup_of_mem hentry (nodup_entries hdir)
      refine ⟨names ++ [name], child, by simp, ?_⟩
      obtain rfl := Option.some.inj (hmeta.symm.trans hdir')
      rw [Node.find_child hfound, hlookup]
  · rintro ⟨names, found, rfl, hfound⟩
    induction names generalizing root node with
    | nil =>
      rw [List.map_nil, List.append_nil]
      exact .refl
    | cons name names ih =>
      cases node with
      | file => exact absurd hfound.symm (Option.some_ne_none _)
      | symlink target => exact absurd hfound.symm (Option.some_ne_none _)
      | dir entries =>
        obtain ⟨child, hlookup, hfound⟩ := Option.bind_eq_some_iff.mp hfound
        have hchild := (symlinkMetadata_child h name).trans hlookup
        have hrest := ih hchild hfound
        rw [List.append_assoc] at hrest
        refine .head (mem_below_iff.mpr ⟨entries, h, name, ?_, rfl⟩) hrest
        exact List.mem_map_of_mem (mem_of_lookup hlookup)

end Tree

/-! ### The entries below the roots -/

section Entries

variable {disk : Disk} {roots : List PathBuf}

/-- What the walk gives to `visit`. -/
def isEntry (disk : Disk) (path : PathBuf) : Bool :=
  (symlinkMetadata disk path).any fun node => !node.isDir

/-- No directory, and found by going down names from the root. -/
def EntryUnder (disk : Disk) (root path : PathBuf) : Prop :=
  ∃ node names found, symlinkMetadata disk root = some node ∧ node.find names = some found ∧
    found.isDir = false ∧ path = root ++ names.map .normal

theorem isEntry_iff {root path : PathBuf} :
    Below (below false disk) root path ∧ isEntry disk path = true ↔ EntryUnder disk root path := by
  cases hroot : symlinkMetadata disk root with
  | none =>
    constructor
    · rintro ⟨hbelow, hentry⟩
      rcases hbelow.cases_head with rfl | ⟨child, hchild, -⟩
      · rw [isEntry, hroot] at hentry
        exact absurd hentry Bool.false_ne_true
      · obtain ⟨entries, hdir, -⟩ := mem_below_iff.mp hchild
        exact absurd (hroot.symm.trans hdir).symm (Option.some_ne_none _)
    · rintro ⟨node, -, -, hnode, -⟩
      exact absurd (hroot.symm.trans hnode).symm (Option.some_ne_none _)
  | some node =>
    have hmeta {names : Place} {found : Node} (hfound : node.find names = some found) :
        symlinkMetadata disk (root ++ names.map .normal) = some found :=
      symlinkMetadata_find hroot hfound
    rw [below_iff hroot]
    constructor
    · rintro ⟨⟨names, found, rfl, hfound⟩, hentry⟩
      rw [isEntry, hmeta hfound] at hentry
      exact ⟨node, names, found, hroot, hfound, by simpa using hentry, rfl⟩
    · rintro ⟨node', names, found, hnode, hfound, hdir, rfl⟩
      obtain rfl := Option.some.inj (hroot.symm.trans hnode)
      refine ⟨⟨names, found, rfl, hfound⟩, ?_⟩
      rw [isEntry, hmeta hfound]
      simpa using hdir

theorem nodup_items (roots : List PathBuf) (depth : ℕ) :
    ((searchRoots roots).flatMap (preorder (below false disk) depth)).Nodup := by
  refine List.pairwise_flatMap.mpr ⟨fun root _ => ?_, ?_⟩
  · refine (preorder_before false disk depth root).imp ?_
    rintro path other hbefore rfl
    exact before_irrefl path hbefore
  · refine (searchRoots_order roots).imp_of_mem ?_
    rintro a b ha hb hlt path hpath other hother rfl
    -- two roots above one path would be inside of each other
    have hprefix := prefix_of_below (below_of_mem_preorder hpath)
    have hprefix' := prefix_of_below (below_of_mem_preorder hother)
    rcases List.prefix_or_prefix_of_prefix hprefix hprefix' with hin | hin
    · rw [searchRoots_antichain ha hb hin] at hlt
      exact Nat.lt_irrefl _ hlt
    · rw [searchRoots_antichain hb ha hin] at hlt
      exact Nat.lt_irrefl _ hlt

/-- Where every directory can be read, the walk comes down to the entries. -/
theorem foldlM_handle {readDir : ReadDir disk} {σ : Type} (visit : PathBuf → σ → Except RunnerError σ)
    (hread : ∀ path, ∃ names, readDir.read path = .ok names) (items : List PathBuf) (state : σ) :
    items.foldlM (fun state item => handle readDir false visit item state) state =
      (items.filter (isEntry disk)).foldlM (fun state path => visit path state) state := by
  induction items generalizing state with
  | nil => rfl
  | cons item items ih =>
    have hmeta : metadataOf false disk item = symlinkMetadata disk item := rfl
    rw [List.foldlM_cons, List.filter_cons, handle, hmeta, isEntry]
    cases symlinkMetadata disk item with
    | none => exact ih state
    | some node =>
      cases hdir : node.isDir with
      | true =>
        obtain ⟨names, hnames⟩ := hread item
        simp only [hdir, hnames, Option.any_some, Bool.not_true, Bool.false_eq_true, if_false]
        exact ih state
      | false =>
        simp only [hdir, Option.any_some, Bool.not_false, if_true, List.foldlM_cons]
        exact bind_congr ih

end Entries

/-- The roots that are left are inside of no other and have the rest inside of them, in the order in which
    they come first; and without following links, what is no directory below one of them is visited once,
    in preorder, names byte by byte. -/
theorem hashFiles_visits (disk : Disk) (roots : List PathBuf) :
    ((∀ a ∈ searchRoots roots, ∀ b ∈ searchRoots roots, a <+: b → a = b) ∧
      (∀ root ∈ roots, ∃ r ∈ searchRoots roots, r <+: root) ∧
      (∀ root ∈ searchRoots roots, root ∈ roots) ∧
      (searchRoots roots).Pairwise fun a b => roots.idxOf a < roots.idxOf b) ∧
    ∃ depth,
      let items := (searchRoots roots).flatMap (preorder (below false disk) depth)
      let entries := items.filter (isEntry disk)
      (∀ (readDir : ReadDir disk) {σ : Type} (visit : PathBuf → σ → Except RunnerError σ) (state : σ) turns,
        items.length < turns →
          walkRoots readDir false visit turns (searchRoots roots) state =
              some (items.foldlM (fun state item => handle readDir false visit item state) state) ∧
            ((∀ path, ∃ names, readDir.read path = .ok names) →
              walkRoots readDir false visit turns (searchRoots roots) state =
                some (entries.foldlM (fun state path => visit path state) state))) ∧
        entries.Nodup ∧ (∀ path, path ∈ entries ↔ ∃ root ∈ searchRoots roots, EntryUnder disk root path) ∧
        ∀ root ∈ searchRoots roots, (preorder (below false disk) depth root).Pairwise Before := by
  refine ⟨⟨fun a ha b hb => searchRoots_antichain ha hb, fun root => searchRoots_covers,
    fun root hroot => (mem_searchRoots.mp hroot).1, searchRoots_order roots⟩, ?_⟩
  obtain ⟨depth, hdepth⟩ := exists_within fun root (_ : root ∈ searchRoots roots) =>
    exists_within_path disk root
  refine ⟨depth, fun readDir σ visit state turns hturns => ?_, ?_, fun path => ?_, fun root _ => ?_⟩
  · have hpops : ∀ root ∈ searchRoots roots,
        Pops (below false disk) [root] (preorder (below false disk) depth root) := by
      intro root hroot
      have hpops := pops_preorder (hdepth root hroot) .done
      rwa [List.append_nil] at hpops
    have hwalk := walkRoots_eq readDir false visit hpops hturns state
    exact ⟨hwalk, fun hread => by rw [hwalk, foldlM_handle visit hread]⟩
  · exact (nodup_items roots depth).filter _
  · rw [List.mem_filter, List.mem_flatMap]
    constructor
    · rintro ⟨⟨root, hroot, hpath⟩, hentry⟩
      exact ⟨root, hroot, isEntry_iff.mp ⟨below_of_mem_preorder hpath, hentry⟩⟩
    · rintro ⟨root, hroot, hunder⟩
      obtain ⟨hbelow, hentry⟩ := isEntry_iff.mpr hunder
      exact ⟨⟨root, hroot, (mem_preorder_iff (hdepth root hroot)).mpr hbelow⟩, hentry⟩
  · exact preorder_before false disk depth root

end GhRunner.Expressions.GlobWalk
