import GhRunner.Expressions.GlobWalk

namespace GhRunner.Expressions.GlobWalk

open Text Utf8 StackWalk Relation

/-!
# Links that lead back

With `--follow-symbolic-links`, `walk` classifies by `metadata` and descends into whatever is a directory
(`crates/expressions/src/functions/glob_walk.rs`).  It keeps no record of the directories it is in; only the
system ends a walk around a cycle, when a path has led through too many links.

* `directory`, `Leads` — the directory at a path, and the directories that are entries of one;
* `Expands`, `BeneathItself` — the loop lists a directory, which is one of those above it;
* `resolve_budget_le`, `exists_within_links` — no path leads through more links than the system allows;
* `walk_expands_iff` — no directory is listed beneath itself where no entries lead back.
-/

/-- The directory at a path, links followed, and how many links may still be followed from there. -/
def directory (disk : Disk) (path : PathBuf) : Option (Place × ℕ) :=
  if path = [] then none
  else (resolve disk disk.maxLinks disk.cwd path).filter fun found =>
    (disk.tree.find found.1).any Node.isDir

/-- The loop takes the directory off the stack, and lists it. -/
def Expands {disk : Disk} (readDir : ReadDir disk) {σ : Type} (visit : PathBuf → σ → Except RunnerError σ)
    (root : PathBuf) (state : σ) (path : PathBuf) : Prop :=
  (∃ turns stack state', (walkStep readDir true visit)^[turns] (.running [root] state) =
    .running (stack ++ [path]) state') ∧ (directory disk path).isSome

/-- The same directory is at a path above, from the root on. -/
def BeneathItself (disk : Disk) (root path : PathBuf) : Prop :=
  ∃ above place budget budget', root <+: above ∧ above <+: path ∧ above ≠ path ∧
    directory disk above = some (place, budget) ∧ directory disk path = some (place, budget')

/-- One of the entries of the first directory is the second, or a link to it. -/
def Leads (disk : Disk) (d e : Place × ℕ) : Prop :=
  ∃ entries, disk.tree.find d.1 = some (.dir entries) ∧ ∃ name ∈ entries.map Prod.fst,
    resolve disk d.2 d.1 [.normal name] = some e ∧ (disk.tree.find e.1).any Node.isDir = true

/-- No directory that entries lead to from the root leads back to itself. -/
def NoReturn (disk : Disk) (root : PathBuf) : Prop :=
  ∀ start, directory disk root = some start → ∀ place budget budget',
    ReflTransGen (Leads disk) start (place, budget) →
      ¬ TransGen (Leads disk) (place, budget) (place, budget')

section Directories

variable {disk : Disk} {root path : PathBuf} {d e : Place × ℕ} {entries : List (OsStr × Node)}

theorem any_isDir_iff {found : Option Node} :
    found.any Node.isDir = true ↔ ∃ entries, found = some (.dir entries) := by
  rcases found with _ | _ | _ | entries <;> simp [Node.isDir]

theorem directory_eq_some : directory disk path = some d ↔ path ≠ [] ∧
    resolve disk disk.maxLinks disk.cwd path = some d ∧
      ∃ entries, disk.tree.find d.1 = some (.dir entries) := by
  rw [← any_isDir_iff, directory]
  split
  case isTrue hnil => exact iff_of_false (Option.some_ne_none d ∘ Eq.symm) fun h => h.1 hnil
  case isFalse hne => rw [Option.filter_eq_some_iff, and_iff_right hne]

/-- What `metadata` says of a directory. -/
theorem metadata_of_directory (h : directory disk path = some d) :
    metadata disk path = disk.tree.find d.1 := by
  obtain ⟨hne, hfound, -⟩ := directory_eq_some.mp h
  rw [metadata, if_neg hne, hfound]
  rfl

theorem exists_directory (h : metadata disk path = some (.dir entries)) :
    ∃ d, directory disk path = some d ∧ disk.tree.find d.1 = some (.dir entries) := by
  obtain ⟨hne, place, budget, hfound, hnode⟩ := exists_place (show metadataOf true disk path = _ from h)
  exact ⟨(place, budget), directory_eq_some.mpr ⟨hne, hfound, entries, hnode⟩, hnode⟩

theorem mem_below_directory {child : PathBuf} (h : child ∈ below true disk path) :
    ∃ d entries, directory disk path = some d ∧ disk.tree.find d.1 = some (.dir entries) ∧
      ∃ name ∈ entries.map Prod.fst, child = path ++ [.normal name] := by
  obtain ⟨entries, hdir, hname⟩ := mem_below_iff.mp h
  obtain ⟨d, hd, hnode⟩ := exists_directory hdir
  exact ⟨d, entries, hd, hnode, hname⟩

/-- An entry is resolved from its directory. -/
theorem directory_child (h : directory disk path = some d) {name : OsStr} :
    directory disk (path ++ [.normal name]) = some e ↔
      resolve disk d.2 d.1 [.normal name] = some e ∧ (disk.tree.find e.1).any Node.isDir = true := by
  obtain ⟨-, hfound, -⟩ := directory_eq_some.mp h
  rw [directory_eq_some, resolve_append, hfound, any_isDir_iff]
  exact and_iff_right (by simp)

theorem leads_of_child {child : PathBuf} (hchild : child ∈ below true disk path)
    (hd : directory disk path = some d) (he : directory disk child = some e) : Leads disk d e := by
  obtain ⟨d', entries, hd', hnode, name, hname, rfl⟩ := mem_below_directory hchild
  obtain rfl := Option.some.inj (hd.symm.trans hd')
  exact ⟨entries, hnode, name, hname, (directory_child hd).mp he⟩

theorem exists_child (hd : directory disk path = some d) (h : Leads disk d e) :
    ∃ child ∈ below true disk path, directory disk child = some e := by
  obtain ⟨entries, hnode, name, hname, he⟩ := h
  have hmeta : metadataOf true disk path = some (.dir entries) := (metadata_of_directory hd).trans hnode
  exact ⟨path ++ [.normal name], mem_below_iff.mpr ⟨entries, hmeta, name, hname, rfl⟩,
    (directory_child hd).mpr he⟩

/-- The directories on the way down to one. -/
theorem exists_directory_above (h : Below (below true disk) root path) (hd : directory disk path = some d) :
    ∃ start, directory disk root = some start ∧ ReflTransGen (Leads disk) start d := by
  induction h generalizing d with
  | refl => exact ⟨d, hd, .refl⟩
  | tail _ hchild ih =>
    obtain ⟨d', -, hd', -⟩ := mem_below_directory hchild
    obtain ⟨start, hstart, hleads⟩ := ih hd'
    exact ⟨start, hstart, hleads.tail (leads_of_child hchild hd' hd)⟩

theorem transGen_of_below (h : Below (below true disk) root path) (hne : root ≠ path)
    (hd : directory disk root = some d) (he : directory disk path = some e) :
    TransGen (Leads disk) d e := by
  obtain ⟨child, hchild, hbelow⟩ := h.cases_head.resolve_left hne
  obtain ⟨d', hd', hleads⟩ := exists_directory_above hbelow he
  exact .head' (leads_of_child hchild hd hd') hleads

theorem exists_path (hd : directory disk root = some d) (h : ReflTransGen (Leads disk) d e) :
    ∃ path, Below (below true disk) root path ∧ directory disk path = some e := by
  induction h with
  | refl => exact ⟨root, .refl, hd⟩
  | tail _ hleads ih =>
    obtain ⟨path, hbelow, hpath⟩ := ih
    obtain ⟨child, hchild, he⟩ := exists_child hpath hleads
    exact ⟨child, hbelow.tail hchild, he⟩

/-- A path on the way down to another is below what that is below, and above it. -/
theorem below_between {above : PathBuf} (h : Below (below true disk) root path) (hroot : root <+: above)
    (habove : above <+: path) :
    Below (below true disk) root above ∧ Below (below true disk) above path := by
  induction h with
  | refl =>
    obtain rfl := hroot.eq_of_length (Nat.le_antisymm hroot.length_le habove.length_le)
    exact ⟨.refl, .refl⟩
  | @tail path child hpath hchild ih =>
    obtain ⟨-, -, -, -, name, -, rfl⟩ := mem_below_directory hchild
    rcases List.prefix_concat_iff.mp habove with rfl | hin
    · exact ⟨hpath.tail hchild, .refl⟩
    · obtain ⟨hup, hdown⟩ := ih hin
      exact ⟨hup, hdown.tail hchild⟩

end Directories

/-! ### The links on a path -/

section Links

variable {disk : Disk}

theorem resolveFrom_budget_le {budget : ℕ}
    (hjump : ∀ place path found, jump disk budget place path = some found → found.2 < budget)
    {place : Place} {path : PathBuf} {found : Place × ℕ}
    (h : resolveFrom disk budget (jump disk budget) place path = some found) : found.2 ≤ budget := by
  induction path generalizing place with
  | nil =>
    obtain rfl := Option.some.inj h
    exact Nat.le_refl budget
  | cons component path ih =>
    cases component with
    | rootDir => exact ih h
    | curDir => exact ih h
    | parentDir =>
      rw [resolveFrom] at h
      split at h
      · exact ih h
      · exact absurd h.symm (Option.some_ne_none _)
    | normal name =>
      rw [resolveFrom] at h
      split at h
      · exact absurd h.symm (Option.some_ne_none _)
      · exact Nat.le_of_lt (hjump _ _ _ h)
      · exact ih h

theorem resolve_budget_le {budget : ℕ} {place : Place} {path : PathBuf} {found : Place × ℕ}
    (h : resolve disk budget place path = some found) : found.2 ≤ budget := by
  induction budget generalizing place path found with
  | zero => exact resolveFrom_budget_le (fun _ _ _ h => absurd h.symm (Option.some_ne_none _)) h
  | succ budget ih =>
    refine resolveFrom_budget_le (fun place path found h => ?_) h
    exact Nat.lt_succ_of_le (ih h)

/-- An entry that is a directory lies deeper, or takes a link. -/
theorem leads_smaller {d e : Place × ℕ} {node : Node} (h : Leads disk d e)
    (hnode : disk.tree.find d.1 = some node) :
    e.2 < d.2 ∨ e.2 = d.2 ∧ ∃ child, disk.tree.find e.1 = some child ∧ sizeOf child < sizeOf node := by
  obtain ⟨place, budget⟩ := d
  obtain ⟨entries, hdir, name, -, hfound, -⟩ := h
  rw [resolve_eq, resolveFrom] at hfound
  split at hfound
  case h_1 => exact absurd hfound.symm (Option.some_ne_none _)
  case h_2 =>
    left
    cases budget with
    | zero => exact absurd hfound.symm (Option.some_ne_none _)
    | succ budget => exact Nat.lt_succ_of_le (resolve_budget_le hfound)
  case h_3 child _ hchild =>
    obtain rfl := Option.some.inj hfound
    refine .inr ⟨rfl, child, hchild, ?_⟩
    obtain rfl := Option.some.inj (hnode.symm.trans hdir)
    have hlookup : entries.lookup name = some child := (Node.find_child hdir name).symm.trans hchild
    have hlt := List.sizeOf_lt_of_mem (mem_of_lookup hlookup)
    rw [Prod.mk.sizeOf_spec] at hlt
    rw [Node.dir.sizeOf_spec]
    omega

theorem within_of_no_directory {path : PathBuf} (h : directory disk path = none) :
    Within (below true disk) 0 path := by
  refine List.eq_nil_iff_forall_not_mem.mpr fun child hchild => ?_
  obtain ⟨d, -, hd, -⟩ := mem_below_directory hchild
  exact absurd (h.symm.trans hd).symm (Option.some_ne_none _)

/-- By the links that are left, and then by what is in the directory. -/
theorem exists_within_links (disk : Disk) (path : PathBuf) : ∃ depth, Within (below true disk) depth path := by
  cases hd : directory disk path with
  | none => exact ⟨0, within_of_no_directory hd⟩
  | some d =>
    obtain ⟨-, -, entries, hnode⟩ := directory_eq_some.mp hd
    generalize Node.dir entries = node at hnode
    induction hb : d.2 using Nat.strong_induction_on generalizing path d node with
    | _ budget ihb =>
      induction hn : sizeOf node using Nat.strong_induction_on generalizing path d node with
      | _ n ihn =>
        have hall : ∀ child ∈ below true disk path, ∃ depth, Within (below true disk) depth child := by
          intro child hchild
          cases he : directory disk child with
          | none => exact ⟨0, within_of_no_directory he⟩
          | some e =>
            have hsmaller := leads_smaller (leads_of_child hchild hd he) hnode
            obtain ⟨-, -, entries', hnode'⟩ := directory_eq_some.mp he
            rcases hsmaller with hlt | ⟨heq, child', hchild', hlt⟩
            · exact ihb e.2 (hb ▸ hlt) child e he _ hnode' rfl
            · exact ihn (sizeOf child') (hn ▸ hlt) child e he child' hchild' (heq.trans hb) rfl
        obtain ⟨depth, hdepth⟩ := exists_within hall
        exact ⟨depth + 1, hdepth⟩

end Links

/-! ### What the loop lists -/

section Runs

variable {disk : Disk} (readDir : ReadDir disk) {σ : Type} (visit : PathBuf → σ → Except RunnerError σ)
  {root path : PathBuf} {state : σ}

/-- After a turn the stack has what was on it, and what is below something that was. -/
theorem mem_walkStep {stack stack' : List PathBuf} {state' : σ}
    (h : walkStep readDir true visit (.running stack state) = .running stack' state') :
    ∀ item ∈ stack', item ∈ stack ∨ ∃ top ∈ stack, item ∈ below true disk top := by
  intro item hitem
  rcases List.eq_nil_or_concat stack with rfl | ⟨front, top, rfl⟩
  · cases h
  · rw [List.concat_eq_append] at h ⊢
    rw [walkStep_push] at h
    split at h
    case h_2 => cases h
    case h_1 =>
      obtain ⟨rfl, -⟩ := Loop.running.inj h
      rcases List.mem_append.mp hitem with hfront | hbelow
      · exact .inl (List.mem_append_left _ hfront)
      · exact .inr ⟨top, by simp, List.mem_reverse.mp hbelow⟩

/-- What is on the stack is below the root. -/
theorem below_of_running {turns : ℕ} {stack : List PathBuf} {state' : σ}
    (h : (walkStep readDir true visit)^[turns] (.running [root] state) = .running stack state') :
    ∀ item ∈ stack, Below (below true disk) root item := by
  induction turns generalizing stack state' with
  | zero =>
    obtain ⟨rfl, -⟩ := Loop.running.inj h
    intro item hitem
    obtain rfl := List.mem_singleton.mp hitem
    exact .refl
  | succ turns ih =>
    rw [Function.iterate_succ_apply'] at h
    cases hbefore : (walkStep readDir true visit)^[turns] (.running [root] state) with
    | ended result =>
      rw [hbefore] at h
      cases h
    | running stack' state'' =>
      rw [hbefore] at h
      intro item hitem
      rcases mem_walkStep readDir visit h item hitem with hmem | ⟨top, htop, hbelow⟩
      · exact ih hbefore item hmem
      · exact (ih hbefore top htop).tail hbelow

theorem handle_ok {readDir : ReadDir disk} (hread : ∀ path, ∃ names, readDir.read path = .ok names)
    (item : PathBuf) : handle readDir true (fun _ state => .ok state) item () = .ok () := by
  unfold handle
  obtain ⟨names, hnames⟩ := hread item
  rw [hnames]
  cases metadataOf true disk item with
  | none => rfl
  | some node => cases h : node.isDir <;> simp [h]

/-- Where nothing fails, what comes off the stack is on top of it at some time. -/
theorem exists_on_top {readDir : ReadDir disk} (hread : ∀ path, ∃ names, readDir.read path = .ok names)
    {stack items : List PathBuf} (h : Pops (below true disk) stack items) (hpath : path ∈ items) :
    ∃ turns rest, (walkStep readDir true fun _ state => .ok state)^[turns] (.running stack.reverse ()) =
      .running (rest ++ [path]) () := by
  induction h with
  | done => exact absurd hpath List.not_mem_nil
  | @pop item stack items _ ih =>
    rcases List.mem_cons.mp hpath with rfl | hpath
    · exact ⟨0, stack.reverse, by rw [List.reverse_cons]; rfl⟩
    · obtain ⟨turns, rest, hrest⟩ := ih hpath
      refine ⟨turns + 1, rest, ?_⟩
      rw [Function.iterate_succ_apply, List.reverse_cons, walkStep_push, handle_ok hread]
      rwa [List.reverse_append] at hrest

/-- Every directory can be read. -/
def readAll (disk : Disk) : ReadDir disk where
  read path :=
    match metadata disk path with
    | some (.dir entries) => .ok (entries.map Prod.fst)
    | _ => .ok []
  perm path names entries hread hdir := by
    rw [hdir] at hread
    rw [Except.ok.inj hread]

theorem readAll_ok (disk : Disk) (path : PathBuf) : ∃ names, (readAll disk).read path = .ok names := by
  unfold readAll
  dsimp only
  split <;> exact ⟨_, rfl⟩

end Runs

/-- A walk that follows links ends.  It lists no directory beneath itself, whatever is read and visited, if
    and only if the entries of no directory that it gets to lead back to it. -/
theorem walk_expands_iff (disk : Disk) (root : PathBuf) :
    (∀ (readDir : ReadDir disk) {σ : Type} (visit : PathBuf → σ → Except RunnerError σ) (state : σ),
      ∃ turns result, walk readDir true visit turns root state = some result) ∧
    ((∀ (readDir : ReadDir disk) {σ : Type} (visit : PathBuf → σ → Except RunnerError σ) (state : σ) path,
        Expands readDir visit root state path → ¬ BeneathItself disk root path) ↔
      NoReturn disk root) := by
  obtain ⟨depth, hdepth⟩ := exists_within_links disk root
  have hpops := pops_preorder hdepth .done
  rw [List.append_nil] at hpops
  refine ⟨fun readDir σ visit state => ?_, fun h start hstart place budget budget' hleads hback => ?_,
    fun h readDir σ visit state path hexpands => ?_⟩
  · exact ⟨_, _, walk_eq readDir true visit hpops (Nat.lt_succ_self _) state⟩
  · -- down to the directory, and around once
    obtain ⟨above, habove, hdirectory⟩ := exists_path hstart hleads
    obtain ⟨next, hnext, hrest⟩ := TransGen.head'_iff.mp hback
    obtain ⟨child, hchild, hdir⟩ := exists_child hdirectory hnext
    obtain ⟨path, hpath, hdirectory'⟩ := exists_path hdir hrest
    have hbelow : Below (below true disk) root path := (habove.tail hchild).trans hpath
    have hprefix : above <+: path := prefix_of_below (ReflTransGen.head hchild hpath)
    have hne : above ≠ path := by
      rintro rfl
      obtain ⟨-, -, -, -, name, -, rfl⟩ := mem_below_directory hchild
      have hlen := (prefix_of_below hpath).length_le
      rw [List.length_append, List.length_singleton] at hlen
      omega
    have hmem := (mem_preorder_iff hdepth).mpr hbelow
    obtain ⟨turns, rest, htop⟩ := exists_on_top (readAll_ok disk) hpops hmem
    refine h (readAll disk) (fun _ state => .ok state) () path ⟨⟨turns, rest, (), htop⟩, ?_⟩
      ⟨above, place, budget, budget', prefix_of_below habove, hprefix, hne, hdirectory, hdirectory'⟩
    rw [hdirectory']
    rfl
  · obtain ⟨⟨turns, stack, state', hrun⟩, -⟩ := hexpands
    rintro ⟨above, place, budget, budget', hroot, habove, hne, hdirectory, hdirectory'⟩
    have hbelow := below_of_running readDir visit hrun path (by simp)
    obtain ⟨hup, hdown⟩ := below_between hbelow hroot habove
    obtain ⟨start, hstart, hleads⟩ := exists_directory_above hup hdirectory
    exact h start hstart place budget budget' hleads (transGen_of_below hdown hne hdirectory hdirectory')

/-- A workspace with a file and a link to itself, on a system that follows 40 links. -/
def loopDisk : Disk where
  tree := .dir [(bytes "w".toList, .dir [(bytes "f".toList, .file),
    (bytes "l".toList, .symlink [.rootDir, .normal (bytes "w".toList)])])]
  cwd := []
  maxLinks := 40
  distinct := by
    intro place entries h
    rcases place with _ | ⟨name, names⟩
    · obtain rfl := Node.dir.inj (Option.some.inj h)
      decide
    obtain ⟨child, hlookup, h⟩ := Option.bind_eq_some_iff.mp h
    obtain ⟨-, rfl⟩ := Prod.mk.inj (List.mem_singleton.mp (mem_of_lookup hlookup))
    rcases names with _ | ⟨name, names⟩
    · obtain rfl := Node.dir.inj (Option.some.inj h)
      decide
    obtain ⟨child, hlookup, h⟩ := Option.bind_eq_some_iff.mp h
    rcases List.mem_cons.mp (mem_of_lookup hlookup) with hfile | hlink
    · obtain ⟨-, rfl⟩ := Prod.mk.inj hfile
      cases names <;> cases h
    · obtain ⟨-, rfl⟩ := Prod.mk.inj (List.mem_singleton.mp hlink)
      cases names <;> cases h

/-- The directory is listed beneath itself, and the file visited once for each number of links up to 40. -/
theorem walk_around_the_loop :
    let root : PathBuf := [.rootDir, .normal (bytes "w".toList)]
    let link := root ++ [.normal (bytes "l".toList)]
    (Expands (readAll loopDisk) (fun _ state => .ok state) root () link ∧ BeneathItself loopDisk root link) ∧
      walk (readAll loopDisk) true (fun _ files => .ok (files + 1)) 200 root 0 = some (.ok 41) := by
  intro root link
  have hroot : below true loopDisk root = [root ++ [.normal (bytes "f".toList)], link] := by
    decide
  have hfile : below true loopDisk (root ++ [.normal (bytes "f".toList)]) = [] := by decide
  have hhandle (path : PathBuf) : handle (readAll loopDisk) true (fun _ state => .ok state) path () =
      .ok () := handle_ok (readAll_ok loopDisk) path
  refine ⟨⟨⟨⟨2, [], (), ?_⟩, by decide⟩, root, [bytes "w".toList], 40, 39, ?_, ?_, ?_, ?_, ?_⟩, ?_⟩
  · rw [Function.iterate_succ_apply, ← List.nil_append [root], walkStep_push, hhandle, hroot]
    show (walkStep (readAll loopDisk) true fun _ state => .ok state)
      (.running ([link] ++ [root ++ [.normal (bytes "f".toList)]]) ()) = _
    rw [walkStep_push, hhandle, hfile]
    rfl
  · decide
  · decide
  · decide
  · decide
  · decide +kernel
  · decide +kernel

end GhRunner.Expressions.GlobWalk
