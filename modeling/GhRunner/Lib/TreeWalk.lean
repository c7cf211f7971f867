import GhRunner.Lib.Utf8

/-!
# Walks over directory trees

* `Node`, `At` — directories with named entries, and what is found by going down names;
* `visits`, `mem_visits_iff` — what is below a directory, depth first and in the order of the names;
* `pruned` — a walk that leaves some of it out and does not descend everywhere;
* `pruned_eq_filter` — where it does not descend only below what is left out anyway, it leaves out
  nothing else.
-/

namespace TreeWalk

open Text Utf8

inductive Node (α : Type*)
  | leaf (a : α)
  | dir (entries : List (Str × Node α))

variable {α β γ : Type*}

/-- Entries in the order of the bytes of their names. -/
def inOrder (entries : List (Str × β)) : List (Str × β) :=
  entries.mergeSort fun a b => decide (bytes a.1 ≤ bytes b.1)

theorem inOrder_map (f : β → γ) (entries : List (Str × β)) :
    inOrder (entries.map fun e => (e.1, f e.2)) = (inOrder entries).map fun e => (e.1, f e.2) :=
  (List.map_mergeSort (f := fun e : Str × β => (e.1, f e.2)) fun _ _ _ _ => rfl).symm

/-- The node is found by going down these names. -/
inductive At : Node α → List Str → Node α → Prop
  | here (node : Node α) : At node [] node
  | down {entries : List (Str × Node α)} {name : Str} {node node' : Node α} {path : List Str}
    (hmem : (name, node) ∈ entries) (hnode : At node path node') : At (.dir entries) (name :: path) node'

mutual

/-- The nodes below one at this path. -/
def visits (path : List Str) : Node α → List (List Str × Node α)
  | .leaf _ => []
  | .dir entries => (inOrder (visitsIn path entries)).flatMap fun part => part.2

def visitsIn (path : List Str) : List (Str × Node α) → List (Str × List (List Str × Node α))
  | [] => []
  | (name, node) :: entries =>
    (name, (path ++ [name], node) :: visits (path ++ [name]) node) :: visitsIn path entries

end

section Pruned

variable (keep descend : List Str → Bool)

mutual

/-- The nodes that are kept, of those that are reached. -/
def pruned (path : List Str) : Node α → List (List Str × Node α)
  | .leaf _ => []
  | .dir entries => (inOrder (prunedIn path entries)).flatMap fun part => part.2

def prunedIn (path : List Str) : List (Str × Node α) → List (Str × List (List Str × Node α))
  | [] => []
  | (name, node) :: entries =>
    (name, (if keep (path ++ [name]) then [(path ++ [name], node)] else []) ++
      if descend (path ++ [name]) then pruned (path ++ [name]) node else []) :: prunedIn path entries

end

end Pruned

theorem visitsIn_eq (path : List Str) (entries : List (Str × Node α)) :
    visitsIn path entries = entries.map fun e =>
      (e.1, (path ++ [e.1], e.2) :: visits (path ++ [e.1]) e.2) := by
  induction entries with
  | nil => rw [visitsIn, List.map_nil]
  | cons e entries ih => rw [visitsIn, List.map_cons, ih]

section Visits

variable {names : List Str} {found : Node α}

theorem mem_visits_dir_iff {path : List Str} {entries : List (Str × Node α)} :
    (names, found) ∈ visits path (.dir entries) ↔
      ∃ e ∈ entries, (names, found) = (path ++ [e.1], e.2) ∨
        (names, found) ∈ visits (path ++ [e.1]) e.2 := by
  rw [visits, List.mem_flatMap]
  constructor
  · rintro ⟨part, hpart, hin⟩
    rw [visitsIn_eq] at hpart
    obtain ⟨e, he, rfl⟩ := List.mem_map.mp (List.mem_mergeSort.mp hpart)
    exact ⟨e, he, List.mem_cons.mp hin⟩
  · rintro ⟨e, he, hin⟩
    have hpart : (e.1, (path ++ [e.1], e.2) :: visits (path ++ [e.1]) e.2) ∈ visitsIn path entries := by
      rw [visitsIn_eq]
      exact List.mem_map.mpr ⟨e, he, rfl⟩
    exact ⟨_, List.mem_mergeSort.mpr hpart, List.mem_cons.mpr hin⟩

mutual

theorem at_of_mem_visits (path : List Str) : ∀ tree : Node α, (names, found) ∈ visits path tree →
    ∃ below, below ≠ [] ∧ names = path ++ below ∧ At tree below found
  | .leaf a, h => by
    rw [visits] at h
    exact absurd h List.not_mem_nil
  | .dir entries, h => by
    obtain ⟨e, he, hin⟩ := mem_visits_dir_iff.mp h
    obtain ⟨below, hbelow, hat⟩ := at_of_mem_visitsIn path entries e he hin
    exact ⟨e.1 :: below, List.cons_ne_nil _ _, hbelow, .down he hat⟩

theorem at_of_mem_visitsIn (path : List Str) : ∀ entries : List (Str × Node α), ∀ e ∈ entries,
    (names, found) = (path ++ [e.1], e.2) ∨ (names, found) ∈ visits (path ++ [e.1]) e.2 →
    ∃ below, names = path ++ e.1 :: below ∧ At e.2 below found
  | [], e, he, _ => absurd he List.not_mem_nil
  | (name, node) :: entries, e, he, hin => by
    rcases List.mem_cons.mp he with rfl | he
    · rcases hin with heq | hin
      · obtain ⟨rfl, rfl⟩ := Prod.mk.inj heq
        exact ⟨[], rfl, .here _⟩
      · obtain ⟨below, -, rfl, hat⟩ := at_of_mem_visits (path ++ [name]) node hin
        exact ⟨below, List.append_assoc _ _ _, hat⟩
    · exact at_of_mem_visitsIn path entries e he hin

end

theorem mem_visits_of_at {tree : Node α} (h : At tree names found) (hne : names ≠ [])
    (path : List Str) : (path ++ names, found) ∈ visits path tree := by
  induction h generalizing path with
  | here node => exact absurd rfl hne
  | @down entries name node node' names hmem hnode ih =>
    refine mem_visits_dir_iff.mpr ⟨(name, node), hmem, ?_⟩
    by_cases hnames : names = []
    · subst hnames
      cases hnode
      exact Or.inl rfl
    · have hin := ih hnames (path ++ [name])
      rw [List.append_assoc] at hin
      exact Or.inr hin

/-- The walk from the root meets what is in the tree. -/
theorem mem_visits_iff {tree : Node α} :
    (names, found) ∈ visits [] tree ↔ names ≠ [] ∧ At tree names found := by
  constructor
  · intro h
    obtain ⟨below, hne, rfl, hat⟩ := at_of_mem_visits [] tree h
    exact ⟨hne, hat⟩
  · exact fun h => mem_visits_of_at h.2 h.1 []

end Visits

section Pruned

variable {keep descend : List Str → Bool}

mutual

theorem pruned_eq_filter
    (hkeep : ∀ path below, path ≠ [] → below ≠ [] → descend path = false →
      keep (path ++ below) = false) (path : List Str) : ∀ tree : Node α,
    pruned keep descend path tree = (visits path tree).filter fun visit => keep visit.1
  | .leaf a => by
    rw [pruned, visits, List.filter_nil]
  | .dir entries => by
    let kept (part : List (List Str × Node α)) := part.filter fun visit => keep visit.1
    rw [pruned, visits, prunedIn_eq_filter hkeep path entries, List.filter_flatMap]
    show (inOrder ((visitsIn path entries).map fun e => (e.1, kept e.2))).flatMap _ = _
    rw [inOrder_map kept, List.flatMap_map]

theorem prunedIn_eq_filter
    (hkeep : ∀ path below, path ≠ [] → below ≠ [] → descend path = false →
      keep (path ++ below) = false) (path : List Str) : ∀ entries : List (Str × Node α),
    prunedIn keep descend path entries =
      (visitsIn path entries).map fun part => (part.1, part.2.filter fun visit => keep visit.1)
  | [] => by
    rw [prunedIn, visitsIn, List.map_nil]
  | (name, node) :: entries => by
    have hbelow : (if descend (path ++ [name]) then pruned keep descend (path ++ [name]) node else []) =
        (visits (path ++ [name]) node).filter fun visit => keep visit.1 := by
      rw [pruned_eq_filter hkeep (path ++ [name]) node]
      split
      case isTrue => rfl
      case isFalse hdescend =>
        refine (List.filter_eq_nil_iff.mpr fun visit hvisit => ?_).symm
        obtain ⟨below, hne, hnames, -⟩ := at_of_mem_visits (path ++ [name]) node hvisit
        rw [hnames, hkeep (path ++ [name]) below (by simp) hne (by simpa using hdescend)]
        exact Bool.false_ne_true
    rw [prunedIn, visitsIn, List.map_cons, prunedIn_eq_filter hkeep path entries, hbelow, List.filter_cons]
    split <;> rfl

end

end Pruned

end TreeWalk
