import GhRunner.Execution.TarExtraction

namespace GhRunner.Execution.TarExtraction

open Text Utf8 GhRunner.Expressions.GlobWalk

/-!
# What is left of an archive

The loop of `extract_tarball` makes no links, so that none is ever in the path of a later entry; but an entry
that is a link is written as a file.

* `Inside` — the invariant: no links below the destination, and nothing done elsewhere;
* `createDirAll_spec`, `writeFile_spec`, `extractNext_spec` — what one request, and one entry, does;
* `extractEntries_spec`, `extractEntries_leading` — the loop over the entries, which follows no link;
* `extraction_faithful_iff` — it leaves the archive's tree unless a link is the last entry of its path.
-/

/-! ### Directories on the disk -/

section Directories

variable {io : Io} {base : Place} {start w : World} {path : List OsStr} {inode : Inode}

/-- What is below a place. -/
def tree (w : World) (base : Place) (path : List OsStr) : Option Shape :=
  (w.nodes (base ++ path)).map Inode.shape

/-- No link is below the place, and elsewhere all is as it was. -/
structure Inside (base : Place) (start w : World) : Prop where
  noLinks : ∀ path, path ≠ [] → ∀ target, w.nodes (base ++ path) ≠ some (.symlink target)
  elsewhere : ∀ place, ¬ (base <+: place ∧ base ≠ place) → w.nodes place = start.nodes place

theorem nodes_set (w : World) (base : Place) (path p : List OsStr) (inode : Inode) :
    (w.set (base ++ path) inode).nodes (base ++ p) =
      if path = p then some inode else w.nodes (base ++ p) := by
  show Function.update w.nodes (base ++ path) (some inode) (base ++ p) = _
  rw [Function.update_apply]
  by_cases hpath : path = p
  · rw [if_pos hpath, if_pos (by rw [hpath])]
  · rw [if_neg hpath, if_neg fun heq => hpath (List.append_cancel_left heq).symm]

theorem tree_set (w : World) (base : Place) (path p : List OsStr) (inode : Inode) :
    tree (w.set (base ++ path) inode) base p = if path = p then some inode.shape else tree w base p := by
  rw [tree, nodes_set]
  split <;> rfl

theorem Inside.set (h : Inside base start w) (hne : path ≠ []) (hlink : ∀ target, inode ≠ .symlink target) :
    Inside base start (w.set (base ++ path) inode) := by
  refine ⟨fun p hp target => ?_, fun place hplace => ?_⟩
  · rw [nodes_set]
    split
    · exact fun heq => hlink target (Option.some.inj heq)
    · exact h.noLinks p hp target
  · rw [← h.elsewhere place hplace]
    refine Function.update_of_ne ?_ _ _
    rintro rfl
    exact hplace ⟨List.prefix_append base path, by simpa using hne⟩

theorem Inside.failed (h : Inside base start w) : Inside base start w.failed := ⟨h.noLinks, h.elsewhere⟩

theorem createDirAll_append (place : Place) (xs ys : List OsStr) (w : World) :
    createDirAll io place (xs ++ ys) w =
      match createDirAll io place xs w with
      | (.ok there, w) => createDirAll io there ys w
      | (.error err, w) => (.error err, w) := by
  induction xs generalizing place w with
  | nil => rfl
  | cons name xs ih =>
    rw [List.cons_append, createDirAll, createDirAll]
    cases w.nodes (place ++ [name]) with
    | none =>
      dsimp only
      rcases mkdir io (place ++ [name]) w with ⟨_ | _, w'⟩
      · rfl
      · exact ih _ _
    | some inode =>
      cases inode with
      | dir => exact ih _ _
      | file content mode => rfl
      | symlink target =>
        dsimp only
        cases io.follow w place target with
        | none => rfl
        | some there =>
          dsimp only
          cases w.nodes there with
          | none => rfl
          | some inode' =>
            cases inode' with
            | dir => exact ih _ _
            | file content mode => rfl
            | symlink target => rfl

/-- What comes of making a directory below a place where no links are: a file is in the way, or the
    directory is there, and those above it. -/
structure Makes (io : Io) (base : Place) (start w : World) (path : List OsStr)
    (r : Except Str Place × World) : Prop where
  inside : Inside base start r.2
  place : ∀ there, r.1 = .ok there → there = base ++ path
  free : ∀ there, r.1 = .ok there → ∀ p, p ≠ [] → p <+: path →
    tree w base p = none ∨ tree w base p = some .dir
  made : ∀ there, r.1 = .ok there → ∀ p, p ≠ [] →
    tree r.2 base p = (tree w base p).or (if p.isPrefixOf path then some .dir else none)
  goes : (∀ n, io.fault n = none) →
    (∀ p, p ≠ [] → p <+: path → tree w base p = none ∨ tree w base p = some .dir) →
      ∃ there, r.1 = .ok there

theorem prefix_concat_of_ne {p : List OsStr} {name : OsStr} (hne : path ++ [name] ≠ p) :
    p.isPrefixOf (path ++ [name]) = p.isPrefixOf path := by
  rw [Bool.eq_iff_iff, List.isPrefixOf_iff_prefix, List.isPrefixOf_iff_prefix, List.prefix_concat_iff]
  exact or_iff_right hne.symm

/-- Nothing goes wrong without a reason. -/
theorem Makes.refused {w' : World} {err : Str} (hinside : Inside base start w')
    (hreason : ¬ ((∀ n, io.fault n = none) ∧
      ∀ p, p ≠ [] → p <+: path → tree w base p = none ∨ tree w base p = some .dir)) :
    Makes io base start w path (.error err, w') := by
  refine ⟨hinside, fun there h => ?_, fun there h => ?_, fun there h => ?_, fun hfault hfree => ?_⟩
  · cases h
  · cases h
  · cases h
  · exact absurd ⟨hfault, hfree⟩ hreason

/-- One directory further down, that was there or is new. -/
theorem Makes.extend {w' w'' : World} {name : OsStr} (h : Makes io base start w path (.ok (base ++ path), w'))
    (hinside : Inside base start w'')
    (hfree : tree w base (path ++ [name]) = none ∨ tree w base (path ++ [name]) = some .dir)
    (htree : ∀ p, tree w'' base p = if path ++ [name] = p then some .dir else tree w' base p) :
    Makes io base start w (path ++ [name]) (.ok (base ++ (path ++ [name])), w'') := by
  refine ⟨hinside, fun there hthere => (Except.ok.inj hthere).symm, fun there _ p hp hinit => ?_,
    fun there _ p hp => ?_, fun _ _ => ⟨_, rfl⟩⟩
  · rcases List.prefix_concat_iff.mp hinit with rfl | hinit
    · exact hfree
    · exact h.free _ rfl p hp hinit
  · rw [htree]
    by_cases hpath : path ++ [name] = p
    · have hself : p.isPrefixOf (path ++ [name]) = true := by
        rw [hpath, List.isPrefixOf_iff_prefix]
      rw [if_pos hpath, hself, if_pos rfl, ← hpath]
      rcases hfree with hnone | hdir
      · rw [hnone, Option.none_or]
      · rw [hdir, Option.some_or]
    · rw [if_neg hpath, h.made _ rfl p hp, prefix_concat_of_ne hpath]

theorem createDirAll_spec (io : Io) (h : Inside base start w) (path : List OsStr) :
    Makes io base start w path (createDirAll io base path w) := by
  induction path using List.reverseRecOn with
  | nil =>
    refine ⟨h, fun there hthere => ?_, fun there _ p hp hinit => ?_, fun there _ p hp => ?_,
      fun _ _ => ⟨base, rfl⟩⟩
    · rw [List.append_nil]
      exact (Except.ok.inj hthere).symm
    · exact absurd (List.prefix_nil.mp hinit) hp
    · have hnot : p.isPrefixOf ([] : List OsStr) = false := by
        rw [← Bool.not_eq_true, List.isPrefixOf_iff_prefix, List.prefix_nil]
        exact hp
      rw [hnot]
      exact (Option.or_none).symm
  | append_singleton path name ih =>
    rw [createDirAll_append]
    rcases hfront : createDirAll io base path w with ⟨err | there, w'⟩
    · -- the directory above cannot be made
      rw [hfront] at ih
      refine .refused ih.inside fun ⟨hfault, hfree⟩ => ?_
      have habove : ∀ p, p ≠ [] → p <+: path → tree w base p = none ∨ tree w base p = some .dir :=
        fun p hp hinit => hfree p hp (hinit.trans (List.prefix_append path [name]))
      obtain ⟨there, hthere⟩ := ih.goes hfault habove
      cases hthere
    · rw [hfront] at ih
      obtain rfl := ih.place there rfl
      have hsame : tree w' base (path ++ [name]) = tree w base (path ++ [name]) := by
        have hnot : (path ++ [name]).isPrefixOf path = false := by
          rw [← Bool.not_eq_true, List.isPrefixOf_iff_prefix]
          intro hinit
          have hlen := hinit.length_le
          rw [List.length_append, List.length_singleton] at hlen
          omega
        rw [ih.made _ rfl _ (by simp), hnot]
        exact Option.or_none
      dsimp only
      rw [createDirAll, List.append_assoc]
      cases hnode : w'.nodes (base ++ (path ++ [name])) with
      | none =>
        have hfree : tree w base (path ++ [name]) = none := by
          rw [← hsame, tree, hnode]
          rfl
        dsimp only
        rw [mkdir]
        cases hfault : io.fault w'.operations with
        | some err =>
          refine .refused ih.inside.failed fun ⟨hall, _⟩ => ?_
          rw [hall] at hfault
          cases hfault
        | none =>
          have hinside : Inside base start (w'.set (base ++ (path ++ [name])) .dir) :=
            ih.inside.set (by simp) fun _ h => by cases h
          exact ih.extend hinside (.inl hfree) fun p => tree_set _ _ _ _ _
      | some inode =>
        cases inode with
        | dir =>
          have hdir : tree w' base (path ++ [name]) = some .dir := by
            rw [tree, hnode]
            rfl
          refine ih.extend ih.inside (.inr (hsame.symm.trans hdir)) fun p => ?_
          split
          case isTrue hpath => rw [← hpath, hdir]
          case isFalse => rfl
        | file content mode =>
          have hfile : tree w base (path ++ [name]) = some (.file content) := by
            rw [← hsame, tree, hnode]
            rfl
          refine .refused ih.inside fun ⟨_, hfree⟩ => ?_
          have hfree := hfree (path ++ [name]) (by simp) (List.prefix_refl _)
          rw [hfile] at hfree
          simp at hfree
        | symlink target => exact absurd hnode (ih.inside.noLinks _ (by simp) target)

end Directories

/-! ### Entries on the disk -/

section Entries

variable {io : Io} {base : Place} {start w : World} {path : List OsStr} {content : List UInt8}

theorem append_getLastD (base : Place) (hne : path ≠ []) : base ++ path.dropLast ++ [path.getLastD []] = base ++ path := by
  rw [List.append_assoc, List.getLastD_eq_getLast?, List.getLast?_eq_some_getLast hne, Option.getD_some,
    List.dropLast_append_getLast hne]

/-- What comes of writing a file below a place where no links are: a directory is in its place, or the file is
    there. -/
structure Writes (io : Io) (base : Place) (start w : World) (path : List OsStr) (content : List UInt8)
    (r : Except Str Place × World) : Prop where
  inside : Inside base start r.2
  place : ∀ there, r.1 = .ok there → there = base ++ path
  free : ∀ there, r.1 = .ok there → tree w base path ≠ some .dir
  written : ∀ there, r.1 = .ok there →
    ∀ p, tree r.2 base p = if path = p then some (.file content) else tree w base p
  goes : (∀ n, io.fault n = none) → tree w base path ≠ some .dir → ∃ there, r.1 = .ok there

/-- Nothing goes wrong without a reason. -/
theorem Writes.refused {w' : World} {err : Str} (hinside : Inside base start w')
    (hreason : ¬ ((∀ n, io.fault n = none) ∧ tree w base path ≠ some .dir)) :
    Writes io base start w path content (.error err, w') := by
  refine ⟨hinside, fun there h => ?_, fun there h => ?_, fun there h => ?_, fun hfault hfree => ?_⟩
  · cases h
  · cases h
  · cases h
  · exact absurd ⟨hfault, hfree⟩ hreason

theorem store_spec (io : Io) (h : Inside base start w) (hne : path ≠ []) (content : List UInt8) :
    Writes io base start w path content (store io (base ++ path) content w) := by
  have hfile (mode : Option ℕ) (content : List UInt8) :
      Inside base start (w.set (base ++ path) (.file content mode)) := h.set hne fun _ h => by cases h
  have hdone (mode : Option ℕ) (hnode : tree w base path ≠ some .dir) :
      Writes io base start w path content (.ok (base ++ path), w.set (base ++ path) (.file content mode)) :=
    ⟨hfile mode _, fun there h => (Except.ok.inj h).symm, fun _ _ => hnode, fun _ _ p => tree_set _ _ _ _ _,
      fun _ _ => ⟨_, rfl⟩⟩
  have hfault {err : Str} (herr : io.fault w.operations = some err) :
      ¬ ((∀ n, io.fault n = none) ∧ tree w base path ≠ some .dir) := by
    rintro ⟨hall, -⟩
    rw [hall] at herr
    cases herr
  rw [store]
  cases hnode : w.nodes (base ++ path) with
  | none =>
    have hfree : tree w base path ≠ some .dir := by
      rw [tree, hnode]
      simp
    dsimp only
    split
    case h_1 err herr => exact .refused (hfile none _) (hfault herr)
    case h_2 => exact hdone none hfree
  | some inode =>
    cases inode with
    | dir =>
      have hdir : tree w base path = some .dir := by
        rw [tree, hnode]
        rfl
      exact .refused h fun hboth => hboth.2 hdir
    | file old mode =>
      have hfree : tree w base path ≠ some .dir := by
        rw [tree, hnode]
        simp [Inode.shape]
      dsimp only
      split
      case h_1 err herr => exact .refused (hfile mode _) (hfault herr)
      case h_2 => exact hdone mode hfree
    | symlink target => exact absurd hnode (h.noLinks path hne target)

theorem writeFile_spec (io : Io) (h : Inside base start w) (hne : path ≠ []) (content : List UInt8) :
    Writes io base start w path content
      (writeFile io (base ++ path.dropLast) (path.getLastD []) content w) := by
  rw [writeFile, append_getLastD base hne]
  split
  case h_1 target hnode => exact absurd hnode (h.noLinks path hne target)
  case h_2 => exact store_spec io h hne content

theorem setExecutableIfNeeded_spec (io : Io) (h : Inside base start w) (hne : path ≠ []) (mode : Option ℕ) :
    Inside base start (setExecutableIfNeeded io mode (base ++ path) w) ∧
      ∀ p, tree (setExecutableIfNeeded io mode (base ++ path) w) base p = tree w base p := by
  unfold setExecutableIfNeeded
  split
  case h_2 => exact ⟨h, fun _ => rfl⟩
  case h_1 mode content old hnode =>
    split
    case isTrue => exact ⟨h, fun _ => rfl⟩
    case isFalse =>
      split
      case isTrue => exact ⟨h.failed, fun _ => rfl⟩
      case isFalse =>
        refine ⟨h.set hne fun _ h => (by cases h), fun p => ?_⟩
        rw [tree_set]
        split
        case isTrue hpath =>
          rw [← hpath, tree, hnode]
          rfl
        case isFalse => rfl

variable {entry : TarEntry} {item : Item}

theorem item_eq_some (h : entry.item = some (some item)) :
    ∃ tarPath, entry.path = .ok tarPath ∧ ¬ tarPath.components.length ≤ 1 ∧
      escapes (tarPath.components.drop 1) = false ∧ item.names = names (tarPath.components.drop 1) ∧
      item.entryType = entry.entryType ∧
      (entry.entryType.isDir = true ∨ entry.entryType.isDir = false ∧ entry.content = .ok item.content) := by
  unfold TarEntry.item at h
  split at h
  case h_1 => cases h
  case h_2 tarPath hpath =>
    split at h
    case isTrue => cases h
    case isFalse hlong =>
      split at h
      case isTrue => cases h
      case isFalse hinside =>
        refine ⟨tarPath, hpath, hlong, by simpa using hinside, ?_⟩
        split at h
        case isTrue hdir =>
          obtain rfl := Option.some.inj (Option.some.inj h)
          exact ⟨rfl, rfl, .inl hdir⟩
        case isFalse hfile =>
          split at h
          case h_1 => cases h
          case h_2 content hcontent =>
            obtain rfl := Option.some.inj (Option.some.inj h)
            exact ⟨rfl, rfl, .inr ⟨by simpa using hfile, hcontent⟩⟩

theorem isPrefixOf_dropLast {p : List OsStr} (hne : path ≠ []) (hp : path ≠ p) :
    p.isPrefixOf path.dropLast = p.isPrefixOf path := by
  have hconcat : path.dropLast ++ [path.getLast hne] ≠ p →
      p.isPrefixOf (path.dropLast ++ [path.getLast hne]) = p.isPrefixOf path.dropLast := prefix_concat_of_ne
  rw [List.dropLast_append_getLast hne] at hconcat
  exact (hconcat hp).symm

/-- Nothing but directories above and there is as good as nothing. -/
theorem or_dir_cases {found : Option Shape} {b : Bool} (h : found = none ∨ found = some .dir) :
    found.or (if b then some .dir else none) = none ∨ found.or (if b then some .dir else none) = some .dir := by
  rcases h with rfl | rfl
  · cases b
    · exact .inl rfl
    · exact .inr rfl
  · exact .inr rfl

/-- What comes of one entry. -/
structure Extracts (io : Io) (base : Place) (start w : World) (item : Item)
    (r : Except ExtractError Unit × World) : Prop where
  inside : Inside base start r.2
  fits : r.1 = .ok () → Fits (tree w base) item
  placed : r.1 = .ok () → ∀ p, p ≠ [] → tree r.2 base p = placed Item.stored (tree w base) item p
  goes : (∀ n, io.fault n = none) → Fits (tree w base) item → r.1 = .ok ()

section Parent

variable {w' : World}

theorem dropLast_of_ne {p : List OsStr} (hinit : p <+: path) (hne : path ≠ []) (hp : p ≠ path) :
    p <+: path.dropLast := by
  rw [← List.isPrefixOf_iff_prefix, isPrefixOf_dropLast hne hp.symm, List.isPrefixOf_iff_prefix]
  exact hinit

theorem ne_of_dropLast {p : List OsStr} (hinit : p <+: path.dropLast) (hne : path ≠ []) : p ≠ path := by
  rintro rfl
  have hlen := hinit.length_le
  have hpos := List.length_pos_of_ne_nil hne
  rw [List.length_dropLast] at hlen
  omega

/-- The directory above changes nothing at the path itself. -/
theorem Makes.parent_self {there : Place} (h : Makes io base start w path.dropLast (.ok there, w'))
    (hne : path ≠ []) : tree w' base path = tree w base path := by
  have hnot : path.isPrefixOf path.dropLast = false := by
    rw [← Bool.not_eq_true, List.isPrefixOf_iff_prefix]
    exact fun hinit => ne_of_dropLast hinit hne rfl
  rw [h.made _ rfl _ hne, hnot]
  exact Option.or_none

theorem Makes.parent_ne {there : Place} (h : Makes io base start w path.dropLast (.ok there, w'))
    (hne : path ≠ []) {p : List OsStr} (hp : p ≠ []) (hpath : path ≠ p) :
    tree w' base p = (tree w base p).or (if p.isPrefixOf path then some .dir else none) := by
  rw [h.made _ rfl p hp, isPrefixOf_dropLast hne hpath]

theorem Makes.parent_above {there : Place} (h : Makes io base start w path.dropLast (.ok there, w'))
    (hne : path ≠ []) (p : List OsStr) (hp : p ≠ []) (hinit : p <+: path) (hpath : p ≠ path) :
    tree w base p = none ∨ tree w base p = some .dir :=
  h.free _ rfl p hp (dropLast_of_ne hinit hne hpath)

theorem extractEntry_dir_spec {parent : Place}
    (hparent : Makes io base start w item.names.dropLast (.ok parent, w'))
    (htype : item.entryType = entry.entryType) (hdir : entry.entryType.isDir = true) :
    Extracts io base start w item (extractEntry io base parent item.names entry w') := by
  have hne := item.names_ne_nil
  have hsame := hparent.parent_self hne
  have hitemDir : item.entryType.isDir = true := htype ▸ hdir
  have hmake := createDirAll_spec io hparent.inside item.names
  rw [extractEntry, if_pos hdir]
  rcases hmade : createDirAll io base item.names w' with ⟨err | there, w''⟩
  · -- a file is in the way
    rw [hmade] at hmake
    refine ⟨hmake.inside, fun h => (by cases h), fun h => (by cases h), fun hfault hfits => ?_⟩
    obtain ⟨there, hthere⟩ := hmake.goes hfault fun p hp hinit => by
      by_cases hpne : item.names = p
      · rw [← hpne, hsame]
        exact hfits.dir hitemDir
      · rw [hparent.parent_ne hne hp hpne]
        exact or_dir_cases (hfits.above p hp hinit (Ne.symm hpne))
    cases hthere
  · rw [hmade] at hmake
    have hfree := hmake.free _ rfl _ hne (List.prefix_refl _)
    refine ⟨hmake.inside, fun _ => ⟨hparent.parent_above hne, fun _ => hsame ▸ hfree, fun hfile => ?_⟩,
      fun _ p hp => ?_, fun _ _ => rfl⟩
    · rw [hitemDir] at hfile
      cases hfile
    · rw [hmake.made _ rfl p hp, placed]
      by_cases hpne : item.names = p
      · have hself : p.isPrefixOf item.names = true := by rw [hpne, List.isPrefixOf_iff_prefix]
        rw [if_pos hpne, hself, if_pos rfl, Item.stored, if_pos hitemDir, ← hpne]
        rcases hfree with hnone | hdir
        · rw [hnone, Option.none_or]
        · rw [hdir, Option.some_or]
      · rw [if_neg hpne, hparent.parent_ne hne hp hpne, Option.or_assoc, Option.or_self]

theorem extractEntry_file_spec
    (hparent : Makes io base start w item.names.dropLast (.ok (base ++ item.names.dropLast), w'))
    (htype : item.entryType = entry.entryType) (hfile : entry.entryType.isDir = false)
    (hcontent : entry.content = .ok item.content) :
    Extracts io base start w item
      (extractEntry io base (base ++ item.names.dropLast) item.names entry w') := by
  have hne := item.names_ne_nil
  have hsame := hparent.parent_self hne
  have hitemFile : item.entryType.isDir = false := htype ▸ hfile
  have hstored : item.stored = .file item.content := by simp [Item.stored, hitemFile]
  have hwritten := writeFile_spec io hparent.inside hne item.content
  rw [extractEntry, if_neg (ne_true_of_eq_false hfile), hcontent]
  dsimp only
  rcases hwrite : writeFile io (base ++ item.names.dropLast) (item.names.getLastD []) item.content w'
    with ⟨err | there, w''⟩
  · -- a directory is in place of the file
    rw [hwrite] at hwritten
    refine ⟨hwritten.inside, fun h => (by cases h), fun h => (by cases h), fun hfault hfits => ?_⟩
    obtain ⟨there, hthere⟩ := hwritten.goes hfault (hsame ▸ hfits.file hitemFile)
    cases hthere
  · rw [hwrite] at hwritten
    obtain rfl := hwritten.place there rfl
    obtain ⟨hinside, hmode⟩ := setExecutableIfNeeded_spec io hwritten.inside hne entry.mode
    refine ⟨hinside, fun _ => ⟨hparent.parent_above hne, fun hdir => ?_, fun _ => hsame ▸ hwritten.free _ rfl⟩,
      fun _ p hp => ?_, fun _ _ => rfl⟩
    · rw [hitemFile] at hdir
      cases hdir
    · rw [hmode, hwritten.written _ rfl, placed, hstored]
      split
      case isTrue => rfl
      case isFalse hpne => exact hparent.parent_ne hne hp hpne

end Parent

theorem extractNext_spec (io : Io) (h : Inside base start w) (hitem : entry.item = some (some item)) :
    Extracts io base start w item (extractNext io base entry w) := by
  obtain ⟨tarPath, hpath, hlong, hescapes, hnames, htype, hcontent⟩ := item_eq_some hitem
  have hne := item.names_ne_nil
  rw [extractNext, hpath]
  dsimp only
  rw [if_neg hlong, rejectTarSlip, hescapes, if_neg Bool.false_ne_true]
  dsimp only
  rw [← hnames]
  have hparent := createDirAll_spec io h item.names.dropLast
  rcases hmade : createDirAll io base item.names.dropLast w with ⟨err | parent, w'⟩
  · rw [hmade] at hparent
    refine ⟨hparent.inside, fun h => (by cases h), fun h => (by cases h), fun hfault hfits => ?_⟩
    obtain ⟨there, hthere⟩ := hparent.goes hfault fun p hp hinit =>
      hfits.above p hp (hinit.trans (List.dropLast_prefix _)) (ne_of_dropLast hinit hne)
    cases hthere
  · rw [hmade] at hparent
    obtain rfl := hparent.place parent rfl
    rcases hcontent with hdir | ⟨hfile, hcontent⟩
    · exact extractEntry_dir_spec hparent htype hdir
    · exact extractEntry_file_spec hparent htype hfile hcontent

theorem extractNext_skip (h : entry.item = some none) (w : World) : extractNext io base entry w = (.ok (), w) := by
  unfold TarEntry.item at h
  rw [extractNext]
  split at h
  case h_1 => cases h
  case h_2 tarPath hpath =>
    split at h
    case isTrue hshort => exact if_pos hshort
    case isFalse =>
      exfalso
      split at h
      case isTrue => cases h
      case isFalse =>
        split at h
        case isTrue => cases h
        case isFalse => split at h <;> cases h

/-- What cannot be read, or escapes, is not extracted. -/
theorem extractNext_fails (io : Io) (h : Inside base start w) (hitem : entry.item = none) :
    Inside base start (extractNext io base entry w).2 ∧ ∃ err, (extractNext io base entry w).1 = .error err := by
  unfold TarEntry.item at hitem
  rw [extractNext]
  split at hitem
  case h_1 err hpath =>
    exact ⟨h, _, rfl⟩
  case h_2 tarPath hpath =>
    split at hitem
    case isTrue => cases hitem
    case isFalse hlong =>
      dsimp only
      rw [if_neg hlong, rejectTarSlip]
      split at hitem
      case isTrue hescapes =>
        rw [if_pos hescapes]
        exact ⟨h, _, rfl⟩
      case isFalse hinside =>
        rw [if_neg hinside]
        split at hitem
        case isTrue => cases hitem
        case isFalse hfile =>
          split at hitem
          case h_2 => cases hitem
          case h_1 err hcontent =>
            have hparent := createDirAll_spec io h (names (tarPath.components.drop 1)).dropLast
            dsimp only
            rcases hmade : createDirAll io base (names (tarPath.components.drop 1)).dropLast w with
              ⟨err' | parent, w'⟩
            · rw [hmade] at hparent
              exact ⟨hparent.inside, _, rfl⟩
            · rw [hmade] at hparent
              dsimp only
              rw [extractEntry, if_neg hfile, hcontent]
              exact ⟨hparent.inside, _, rfl⟩

/-- The loop over the entries that are left, after those that have been extracted. -/
theorem extractEntries_spec {entries : List (Except Str TarEntry)} {done : List Item}
    (h : Inside base start w) (hdone : done.Pairwise Compatible)
    (htree : ∀ p, p ≠ [] → tree w base p = archiveTree Item.stored done p) :
    Inside base start (extractEntries io base entries w).2 ∧
      ((extractEntries io base entries w).1 = .ok () → ∃ items, itemsOf entries = some items ∧
        (done ++ items).Pairwise Compatible ∧ ∀ p, p ≠ [] →
          tree (extractEntries io base entries w).2 base p = archiveTree Item.stored (done ++ items) p) ∧
      ((∀ n, io.fault n = none) → ∀ items, itemsOf entries = some items →
        (done ++ items).Pairwise Compatible → (extractEntries io base entries w).1 = .ok ()) := by
  induction entries generalizing w done with
  | nil =>
    refine ⟨h, fun _ => ⟨[], rfl, ?_, ?_⟩, fun _ _ _ _ => rfl⟩
    · rwa [List.append_nil]
    · rwa [List.append_nil]
  | cons first entries ih =>
    cases first with
    | error err => exact ⟨h, fun h => (by cases h), fun _ items hitems => (by cases hitems)⟩
    | ok entry =>
      rw [extractEntries]
      cases hitem : entry.item with
      | none =>
        obtain ⟨hinside, err, herr⟩ := extractNext_fails io h hitem
        rcases hnext : extractNext io base entry w with ⟨result, w'⟩
        rw [hnext] at hinside herr
        obtain rfl : result = .error err := herr
        refine ⟨hinside, fun h => (by cases h), fun _ items hitems => ?_⟩
        rw [itemsOf, hitem] at hitems
        cases hitems
      | some kept =>
        have hitems : itemsOf (.ok entry :: entries) = (itemsOf entries).map (kept.toList ++ ·) := by
          rw [itemsOf, hitem]
          cases itemsOf entries <;> rfl
        cases kept with
        | none =>
          rw [extractNext_skip hitem, hitems]
          have hsame : (itemsOf entries).map ((none : Option Item).toList ++ ·) = itemsOf entries := by
            cases itemsOf entries <;> rfl
          rw [hsame]
          exact ih h hdone htree
        | some item =>
          have hspec := extractNext_spec io h hitem
          rcases hnext : extractNext io base entry w with ⟨err | ⟨⟩, w'⟩
          · rw [hnext] at hspec
            refine ⟨hspec.inside, fun h => (by cases h), fun hfault items hitems' hcompatible => ?_⟩
            rw [hitems] at hitems'
            obtain ⟨rest, -, rfl⟩ := Option.map_eq_some_iff.mp hitems'
            have hfits := (fits_iff hdone).mpr fun earlier hearlier =>
              (List.pairwise_append.mp hcompatible).2.2 earlier hearlier item List.mem_cons_self
            have hok := hspec.goes hfault (hfits.congr fun p hp => (htree p hp).symm)
            cases hok
          · rw [hnext] at hspec
            have hfits := (hspec.fits rfl).congr htree
            have hcompatible : (done ++ [item]).Pairwise Compatible := List.pairwise_append.mpr
              ⟨hdone, List.pairwise_singleton _ _, fun earlier hearlier later hlater =>
                List.mem_singleton.mp hlater ▸ (fits_iff hdone).mp hfits earlier hearlier⟩
            have htree' : ∀ p, p ≠ [] → tree w' base p = archiveTree Item.stored (done ++ [item]) p := by
              intro p hp
              rw [hspec.placed rfl p hp, archiveTree_append, placed, placed, htree p hp]
            obtain ⟨hinside, hok, hgoes⟩ := ih hspec.inside hcompatible htree'
            refine ⟨hinside, fun hresult => ?_, fun hfault items hitems' hall => ?_⟩
            · obtain ⟨rest, hrest, hpairwise, htrees⟩ := hok hresult
              rw [List.append_assoc] at hpairwise htrees
              refine ⟨[item] ++ rest, ?_, hpairwise, htrees⟩
              rw [hitems, hrest]
              rfl
            · rw [hitems] at hitems'
              obtain ⟨rest, hrest, rfl⟩ := Option.map_eq_some_iff.mp hitems'
              refine hgoes hfault rest hrest ?_
              rw [List.append_assoc]
              exact hall

/-! ### Links that are not followed -/

/-- The same system, but that links lead elsewhere. -/
def leading (io : Io) (follow : World → Place → PathBuf → Option Place) : Io := { io with follow }

variable (follow : World → Place → PathBuf → Option Place)

theorem createDirAll_leading (h : Inside base start w) (path : List OsStr) :
    createDirAll (leading io follow) base path w = createDirAll io base path w := by
  induction path using List.reverseRecOn with
  | nil => rfl
  | append_singleton path name ih =>
    have hspec := createDirAll_spec io h path
    rw [createDirAll_append, createDirAll_append, ih]
    rcases hfront : createDirAll io base path w with ⟨err | there, w'⟩
    · rfl
    · rw [hfront] at hspec
      obtain rfl := hspec.place there rfl
      dsimp only
      conv_lhs => rw [createDirAll, List.append_assoc]
      conv_rhs => rw [createDirAll, List.append_assoc]
      cases hnode : w'.nodes (base ++ (path ++ [name])) with
      | none =>
        dsimp only [mkdir, leading]
        cases io.fault w'.operations <;> rfl
      | some inode =>
        cases inode with
        | dir => rfl
        | file content mode => rfl
        | symlink target => exact absurd hnode (hspec.inside.noLinks _ (by simp) target)

theorem writeFile_leading (h : Inside base start w) (hne : path ≠ []) (content : List UInt8) :
    writeFile (leading io follow) (base ++ path.dropLast) (path.getLastD []) content w =
      writeFile io (base ++ path.dropLast) (path.getLastD []) content w := by
  rw [writeFile, writeFile, append_getLastD base hne]
  cases hnode : w.nodes (base ++ path) with
  | none => rfl
  | some inode =>
    cases inode with
    | dir => rfl
    | file old mode => rfl
    | symlink target => exact absurd hnode (h.noLinks path hne target)

theorem extractNext_inside (io : Io) (h : Inside base start w) (entry : TarEntry) :
    Inside base start (extractNext io base entry w).2 := by
  cases hitem : entry.item with
  | none => exact (extractNext_fails io h hitem).1
  | some kept =>
    cases kept with
    | none =>
      rw [extractNext_skip hitem]
      exact h
    | some item => exact (extractNext_spec io h hitem).inside

theorem extractNext_leading (h : Inside base start w) (entry : TarEntry) :
    extractNext (leading io follow) base entry w = extractNext io base entry w := by
  rw [extractNext, extractNext]
  cases entry.path with
  | error err => rfl
  | ok tarPath =>
    dsimp only
    split
    case isTrue => rfl
    case isFalse hlong =>
      rw [rejectTarSlip]
      by_cases hinside : escapes (tarPath.components.drop 1) = true
      · rw [if_pos hinside]
      · rw [if_neg hinside]
        have hne := names_ne_nil hlong (by simpa using hinside)
        have hparent := createDirAll_spec io h (names (tarPath.components.drop 1)).dropLast
        dsimp only
        rw [createDirAll_leading follow h]
        rcases hmade : createDirAll io base (names (tarPath.components.drop 1)).dropLast w with
          ⟨err | parent, w'⟩
        · rfl
        · rw [hmade] at hparent
          obtain rfl := hparent.place parent rfl
          dsimp only
          rw [extractEntry, extractEntry, createDirAll_leading follow hparent.inside]
          cases entry.content with
          | error err => rfl
          | ok content =>
            dsimp only
            rw [writeFile_leading follow hparent.inside hne]
            rfl

theorem extractEntries_leading (h : Inside base start w) (entries : List (Except Str TarEntry)) :
    extractEntries (leading io follow) base entries w = extractEntries io base entries w := by
  induction entries generalizing w with
  | nil => rfl
  | cons first entries ih =>
    cases first with
    | error err => rfl
    | ok entry =>
      have hinside := extractNext_inside io h entry
      rw [extractEntries, extractEntries, extractNext_leading follow h]
      rcases hnext : extractNext io base entry w with ⟨err | ⟨⟩, w'⟩
      · rfl
      · rw [hnext] at hinside
        exact ih hinside

end Entries

/-! ### Faithful extraction -/

/-- Some entry is the last of its path, and a link. -/
def LastLink (items : List Item) : Prop :=
  ∃ before link after, items = before ++ link :: after ∧ link.isLink = true ∧
    ∀ later ∈ after, later.names ≠ link.names

/-- The archive's tree is what is at the place. -/
def Faithful (archive : Except Str (List (Except Str TarEntry))) (w : World) (place : Place) : Prop :=
  ∃ entries items, archive = .ok entries ∧ itemsOf entries = some items ∧
    ∀ path, path ≠ [] → tree w place path = archiveTree Item.shape items path

/-- What is to come of an archive: nothing is done outside the destination, at `place`, and no link is followed
    once that is made; and unless it fails, its tree is there. -/
structure Extracted (io : Io) (archive : Except Str (List (Except Str TarEntry))) (dest : List OsStr)
    (w : World) (place : Place) (made : World) : Prop where
  elsewhere : ∀ p, ¬ (place <+: p ∧ place ≠ p) →
    (extractTarball io archive dest w).2.nodes p = made.nodes p
  follows : ∀ entries follow, archive = .ok entries →
    extractEntries (leading io follow) place entries made = extractTarball io archive dest w
  faithful : (extractTarball io archive dest w).1 = .ok () →
    Faithful archive (extractTarball io archive dest w).2 place

section Faithful

variable {io : Io} {archive : Except Str (List (Except Str TarEntry))} {dest : List OsStr} {place : Place}
  {w made : World} {items : List Item}

theorem archiveTree_last (shape : Item → Shape) (before : List Item) {last : Item} {after : List Item}
    (h : ∀ later ∈ after, later.names ≠ last.names) :
    archiveTree shape (before ++ last :: after) last.names = some (shape last) := by
  have hfound : (before ++ last :: after).reverse.find? (fun item => item.names = last.names) = some last := by
    refine List.find?_eq_some_iff_append.mpr ⟨decide_eq_true rfl, after.reverse, before.reverse, ?_, ?_⟩
    · simp
    · intro later hlater
      simpa using h later (List.mem_reverse.mp hlater)
  rw [archiveTree, hfound]

theorem shape_eq_stored {item : Item} : item.shape = item.stored ↔ item.isLink = false := by
  cases htype : item.entryType <;> simp [Item.shape, Item.stored, Item.isLink, EntryType.isDir, htype]

theorem archiveTree_eq_of_not_lastLink (h : ¬ LastLink items) (path : List OsStr) :
    archiveTree Item.stored items path = archiveTree Item.shape items path := by
  rw [archiveTree, archiveTree]
  cases hfound : items.reverse.find? fun item => item.names = path with
  | none => rfl
  | some last =>
    obtain ⟨hlast, after, before, hitems, hafter⟩ := List.find?_eq_some_iff_append.mp hfound
    have hfile : last.isLink = false := by
      by_contra hlink
      refine h ⟨before.reverse, last, after.reverse, ?_, by simpa using hlink, fun later hlater => ?_⟩
      · rw [← List.reverse_reverse items, hitems]
        simp
      · rw [of_decide_eq_true hlast]
        simpa using hafter later (List.mem_reverse.mp hlater)
    exact congrArg some (shape_eq_stored.mpr hfile).symm

theorem extractTarball_ok (hmade : createDirAll io [] dest w = (.ok place, made))
    (entries : List (Except Str TarEntry)) :
    extractTarball io (.ok entries) dest w = extractEntries io place entries made := by
  rw [extractTarball, hmade]

theorem inside_of_empty (h : ∀ path, path ≠ [] → made.nodes (place ++ path) = none) :
    Inside place made made ∧
      ∀ path, path ≠ [] → tree made place path = archiveTree Item.stored [] path := by
  refine ⟨⟨fun path hne target => ?_, fun _ _ => rfl⟩, fun path hne => ?_⟩
  · rw [h path hne]
    exact Option.some_ne_none _ ∘ Eq.symm
  · rw [tree, h path hne]
    rfl

/-- Whatever the archive: nothing is done elsewhere, no link is followed, and if it is extracted, then to its
    tree with files for links. -/
theorem extractTarball_spec (hmade : createDirAll io [] dest w = (.ok place, made))
    (hempty : ∀ path, path ≠ [] → made.nodes (place ++ path) = none) (entries : List (Except Str TarEntry)) :
    let r := extractTarball io (.ok entries) dest w
    Inside place made r.2 ∧
      (r.1 = .ok () → ∃ items, itemsOf entries = some items ∧ items.Pairwise Compatible ∧
        ∀ path, path ≠ [] → tree r.2 place path = archiveTree Item.stored items path) ∧
      ((∀ n, io.fault n = none) → ∀ items, itemsOf entries = some items → items.Pairwise Compatible →
        r.1 = .ok ()) := by
  obtain ⟨hinside, htree⟩ := inside_of_empty hempty
  rw [extractTarball_ok hmade]
  exact extractEntries_spec hinside List.Pairwise.nil htree

/-- A system on which nothing fails, and no link leads anywhere. -/
def faultless : Io := ⟨fun _ => none, fun _ => 0, fun _ => [], fun _ _ _ => none⟩

def emptyWorld : World := ⟨fun _ => none, 0⟩

/-- The extraction is confined, and faithful exactly when there is no link that is the last entry of its path,
    in an archive that can be extracted. -/
theorem extraction_faithful_iff (archive : Except Str (List (Except Str TarEntry))) :
    (∀ io dest w place made, createDirAll io [] dest w = (.ok place, made) →
      (∀ path, path ≠ [] → made.nodes (place ++ path) = none) → Extracted io archive dest w place made) ↔
    ¬ ∃ entries items, archive = .ok entries ∧ itemsOf entries = some items ∧ items.Pairwise Compatible ∧
      LastLink items := by
  constructor
  · rintro hall ⟨entries, items, rfl, hitems, hcompatible, hlast⟩
    have hmade : createDirAll faultless [] [[]] emptyWorld = (.ok [[]], emptyWorld.set [[]] .dir) := rfl
    have hempty : ∀ path, path ≠ [] → (emptyWorld.set [[]] .dir).nodes ([[]] ++ path) = none := by
      intro path hne
      refine (Function.update_of_ne ?_ _ _).trans rfl
      simpa using hne
    have hspec := extractTarball_spec hmade hempty entries
    have hok := hspec.2.2 (fun _ => rfl) items hitems hcompatible
    obtain ⟨items', hitems', -, htree⟩ := hspec.2.1 hok
    obtain ⟨entries', items'', hentries, hitems'', htree'⟩ := (hall _ _ _ _ _ hmade hempty).faithful hok
    obtain rfl := Except.ok.inj hentries
    obtain rfl := Option.some.inj (hitems.symm.trans hitems')
    obtain rfl := Option.some.inj (hitems.symm.trans hitems'')
    -- the link is a file, and not what the archive says
    obtain ⟨before, link, after, rfl, hlink, hafter⟩ := hlast
    have hstored := htree link.names link.names_ne_nil
    rw [htree' link.names link.names_ne_nil, archiveTree_last _ _ hafter, archiveTree_last _ _ hafter,
      Option.some.injEq, shape_eq_stored, hlink] at hstored
    cases hstored
  · intro hnot io dest w place made hmade hempty
    cases archive with
    | error err =>
      have hfails : extractTarball io (.error err) dest w =
          (.error (.archiveContent ("tar entries: ".toList ++ err)), made) := by
        rw [extractTarball, hmade]
      rw [← Prod.eta (extractTarball io (.error err) dest w)] at hfails
      obtain ⟨herr, hmade'⟩ := Prod.mk.inj hfails
      refine ⟨fun p _ => by rw [hmade'], fun _ _ h => (by cases h), fun hok => ?_⟩
      rw [herr] at hok
      cases hok
    | ok entries =>
      obtain ⟨hinside, hok, -⟩ := extractTarball_spec hmade hempty entries
      refine ⟨hinside.elsewhere, ?_, fun hresult => ?_⟩
      · rintro _ follow ⟨⟩
        rw [extractTarball_ok hmade]
        exact extractEntries_leading follow (inside_of_empty hempty).1 entries
      · obtain ⟨items, hitems, hcompatible, htree⟩ := hok hresult
        refine ⟨entries, items, rfl, hitems, fun path hne => ?_⟩
        rw [htree path hne]
        exact archiveTree_eq_of_not_lastLink
          (fun hlast => hnot ⟨entries, items, rfl, hitems, hcompatible, hlast⟩) path

/-- An action with a file `a`, and a link `l` to it. -/
def linkedArchive : List (Except Str TarEntry) :=
  [.ok ⟨.ok ⟨[.normal (bytes "repo".toList), .normal (bytes "a".toList)], by decide⟩, .regular, some 0o644,
    .ok (bytes "text".toList)⟩,
  .ok ⟨.ok ⟨[.normal (bytes "repo".toList), .normal (bytes "l".toList)], by decide⟩,
    .symlink [.normal (bytes "a".toList)], some 0o777, .ok []⟩]

/-- The link is extracted to a file without content. -/
theorem link_is_emptied :
    let cache := bytes "cache".toList
    let r := extractTarball faultless (.ok linkedArchive) [cache] emptyWorld
    r.1 = .ok () ∧ tree r.2 [cache] [bytes "l".toList] = some (.file []) ∧
      ¬ Faithful (.ok linkedArchive) r.2 [cache] := by
  intro cache r
  have hfile : tree r.2 [cache] [bytes "l".toList] = some (.file []) := by decide
  refine ⟨by decide, hfile, ?_⟩
  rintro ⟨entries, items, ⟨⟩, hitems, htree⟩
  have hl := htree [bytes "l".toList] (by simp)
  have hshape : ((itemsOf linkedArchive).bind fun items => archiveTree Item.shape items [bytes "l".toList]) =
      some (.symlink [.normal (bytes "a".toList)]) := by decide
  rw [hitems, Option.bind_some, ← hl, hfile] at hshape
  cases hshape

end Faithful

end GhRunner.Execution.TarExtraction
