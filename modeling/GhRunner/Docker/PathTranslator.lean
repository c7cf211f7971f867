import GhRunner.Lib.Paths
import Mathlib.Data.List.Sort

namespace GhRunner.Docker

open Text Paths

/-!
# Host paths and container paths

`crates/execution/src/docker/path_translator.rs`.

* `PathTranslator`, `new`, `addMapping`, `toContainer`, `toHost` — as the source has them;
* `translate_first` — a path is moved by the first mapping it stands below;
* `sorted_addMapping` — after a mapping was added the longest hosts stand first;
* `RoundTrips` — a path goes below the target of its longest host, and back;
* `roundTrips_iff` — the translators of which this holds, and `nested_temp` — one of which it does
  not.
-/

structure PathTranslator where
  mappings : List (Str × Str)

namespace PathTranslator

/-- The standard mapping. -/
def new (hostWorkspace hostTemp : Str) : PathTranslator where
  mappings :=
    [(hostWorkspace, "/github/workspace".toList), (hostTemp, "/github/runner_temp".toList)]

/-- Where a path stands below a directory, moved below another. -/
def move (path : Str) (mapping : Str × Str) : Option Str :=
  (stripPrefix path mapping.1).map fun relative =>
    if relative = [] then mapping.2 else join mapping.2 relative

/-- The first mapping that applies. -/
def translate (path : Str) (mappings : List (Str × Str)) : Str :=
  (mappings.findSome? (move path)).getD path

def toContainer (translator : PathTranslator) (hostPath : Str) : Str :=
  translate hostPath translator.mappings

def toHost (translator : PathTranslator) (containerPath : Str) : Str :=
  translate containerPath (translator.mappings.map Prod.swap)

/-- The longest hosts first; the sort is stable. -/
def addMapping (translator : PathTranslator) (host container : Str) : PathTranslator where
  mappings := ((translator.mappings.filter fun entry => components entry.1 ≠ components host) ++
    [(host, container)]).insertionSort fun a b =>
      (components b.1).length ≤ (components a.1).length

/-! ### One translation -/

theorem move_isSome {path : Str} {mapping : Str × Str} :
    (move path mapping).isSome ↔ components mapping.1 <+: components path := by
  rw [move, Option.isSome_map]
  exact stripPrefix_isSome

/-- Only the components of the directory change. -/
theorem components_of_move {path moved : Str} {mapping : Str × Str}
    (hsource : components mapping.1 ≠ [] ∨ leading path = []) (h : move path mapping = some moved) :
    (∃ rest, components path = components mapping.1 ++ rest ∧
      components moved = components mapping.2 ++ rest) ∧
    (leading mapping.2 = [] → leading moved = []) := by
  obtain ⟨relative, hrelative, hmoved⟩ := Option.map_eq_some_iff.mp h
  obtain ⟨hpath, hlead⟩ := components_of_stripPrefix hsource hrelative
  split at hmoved
  case isTrue hnil =>
    subst hmoved hnil
    exact ⟨⟨[], hpath, (List.append_nil _).symm⟩, id⟩
  case isFalse =>
    subst hmoved
    refine ⟨⟨components relative, hpath, components_join _ hlead⟩, fun htarget => ?_⟩
    rw [leading_join _ (not_isAbsolute_of_leading hlead)]
    split
    · exact hlead
    · exact htarget

/-- The first directory that a path stands below decides. -/
theorem translate_first {path : Str} {before : List (Str × Str)} {mapping : Str × Str}
    (hbefore : ∀ entry ∈ before, ¬ components entry.1 <+: components path)
    (h : components mapping.1 <+: components path) (after : List (Str × Str)) :
    move path mapping = some (translate path (before ++ mapping :: after)) := by
  obtain ⟨moved, hmoved⟩ := Option.isSome_iff_exists.mp (move_isSome.mpr h)
  have hfirst : (before ++ mapping :: after).findSome? (move path) = some moved := by
    refine List.findSome?_eq_some_iff.mpr ⟨before, mapping, after, rfl, hmoved, ?_⟩
    intro entry hentry
    rw [← Option.not_isSome_iff_eq_none, move_isSome]
    exact hbefore entry hentry
  rw [translate, hfirst, hmoved]
  rfl

theorem translate_outside {path : Str} {mappings : List (Str × Str)}
    (h : ∀ entry ∈ mappings, ¬ components entry.1 <+: components path) :
    translate path mappings = path := by
  have hnone : mappings.findSome? (move path) = none := by
    rw [List.findSome?_eq_none_iff]
    intro entry hentry
    rw [← Option.not_isSome_iff_eq_none, move_isSome]
    exact h entry hentry
  rw [translate, hnone]
  rfl

/-! ### There and back -/

/-- Neither target is inside of the other. -/
def Apart (a b : Str × Str) : Prop :=
  ¬ components a.2 <+: components b.2 ∧ ¬ components b.2 <+: components a.2

instance (a b : Str × Str) : Decidable (Apart a b) := inferInstanceAs (Decidable (_ ∧ _))

/-- Of the hosts that contain the path none is longer. -/
def Longest (translator : PathTranslator) (path : Str) (mapping : Str × Str) : Prop :=
  mapping ∈ translator.mappings ∧ components mapping.1 <+: components path ∧
    ∀ entry ∈ translator.mappings, components entry.1 <+: components path →
      (components entry.1).length ≤ (components mapping.1).length

/-- Paths are the same if their components are. -/
structure RoundTrips (translator : PathTranslator) : Prop where
  back : ∀ path, isAbsolute path = true → .parentDir ∉ components path →
    (∃ entry ∈ translator.mappings, components entry.1 <+: components path) →
    ∃ mapping, Longest translator path mapping ∧
      components mapping.2 <+: components (translator.toContainer path) ∧
      components (translator.toHost (translator.toContainer path)) = components path
  outsideHosts : ∀ path,
    (∀ entry ∈ translator.mappings, ¬ components entry.1 <+: components path) →
    translator.toContainer path = path
  outsideTargets : ∀ path,
    (∀ entry ∈ translator.mappings, ¬ components entry.2 <+: components path) →
    translator.toHost path = path

/-- Below the first host a path goes below its target, and nothing else takes it back. -/
theorem toHost_toContainer {translator : PathTranslator} {before after : List (Str × Str)}
    {mapping : Str × Str} {path : Str} (hsplit : translator.mappings = before ++ mapping :: after)
    (htargets : translator.mappings.Pairwise Apart) (hhost : isAbsolute mapping.1 = true)
    (hbefore : ∀ entry ∈ before, ¬ components entry.1 <+: components path)
    (h : components mapping.1 <+: components path) :
    components mapping.2 <+: components (translator.toContainer path) ∧
      components (translator.toHost (translator.toContainer path)) = components path := by
  have hthere := translate_first hbefore h after
  rw [← hsplit] at hthere
  obtain ⟨⟨rest, hpath, hmoved⟩, hlead⟩ := components_of_move (.inl (components_ne_nil hhost)) hthere
  have hbelow : components mapping.2 <+: components (translator.toContainer path) :=
    ⟨rest, hmoved.symm⟩
  refine ⟨hbelow, ?_⟩
  -- the targets before this one are apart from it, so the path is below none of them
  have hapart : ∀ entry ∈ before.map Prod.swap,
      ¬ components entry.1 <+: components (translator.toContainer path) := by
    intro entry hentry hunder
    obtain ⟨earlier, hearlier, rfl⟩ := List.mem_map.mp hentry
    rw [hsplit, List.pairwise_append] at htargets
    have hpair := htargets.2.2 earlier hearlier mapping List.mem_cons_self
    rcases List.prefix_or_prefix_of_prefix hunder hbelow with hle | hle
    · exact hpair.1 hle
    · exact hpair.2 hle
  have hback : move _ mapping.swap = some _ :=
    translate_first hapart hbelow (after.map Prod.swap)
  have hmappings : translator.mappings.map Prod.swap =
      before.map Prod.swap ++ mapping.swap :: after.map Prod.swap := by
    rw [hsplit, List.map_append, List.map_cons]
  rw [← hmappings] at hback
  have hsource : components mapping.swap.1 ≠ [] ∨ leading (translator.toContainer path) = [] := by
    by_cases hnil : components mapping.2 = []
    · exact .inr (hlead (leading_of_components hnil))
    · exact .inl hnil
  obtain ⟨⟨rest', hthere', hback'⟩, -⟩ := components_of_move hsource hback
  have hrest : rest' = rest := List.append_cancel_left (hthere'.symm.trans hmoved)
  exact hback'.trans (by rw [hrest, hpath]; rfl)

/-- It is enough that the first host that contains a path is a longest. -/
theorem roundTrips_of_first {translator : PathTranslator}
    (hhosts : ∀ entry ∈ translator.mappings, isAbsolute entry.1 = true)
    (htargets : translator.mappings.Pairwise Apart)
    (hfirst : ∀ path before mapping after, .parentDir ∉ components path →
      translator.mappings = before ++ mapping :: after →
      (∀ entry ∈ before, ¬ components entry.1 <+: components path) →
      components mapping.1 <+: components path → Longest translator path mapping) :
    RoundTrips translator where
  back := by
    intro path _ hup hunder
    obtain ⟨entry, hentry, hbelow⟩ := hunder
    obtain ⟨moved, hmoved⟩ := Option.isSome_iff_exists.mp
      (List.findSome?_isSome_iff.mpr ⟨entry, hentry, move_isSome.mpr hbelow⟩)
    obtain ⟨before, mapping, after, hsplit, hmove, hnone⟩ := List.findSome?_eq_some_iff.mp hmoved
    have hbefore : ∀ entry ∈ before, ¬ components entry.1 <+: components path := by
      intro entry hentry
      rw [← move_isSome, hnone entry hentry]
      exact Bool.false_ne_true
    have hmapping := move_isSome.mp (Option.isSome_of_eq_some hmove)
    have hhost := hhosts mapping (hsplit ▸ List.mem_append_right _ List.mem_cons_self)
    exact ⟨mapping, hfirst path before mapping after hup hsplit hbefore hmapping,
      toHost_toContainer hsplit htargets hhost hbefore hmapping⟩
  outsideHosts := fun _ h => translate_outside h
  outsideTargets := by
    intro path h
    apply translate_outside
    intro entry hentry
    obtain ⟨mapping, hmapping, rfl⟩ := List.mem_map.mp hentry
    exact h mapping hmapping

/-! ### The order of the mappings -/

theorem sorted_addMapping (translator : PathTranslator) (host container : Str) :
    (translator.addMapping host container).mappings.Pairwise fun a b =>
      (components b.1).length ≤ (components a.1).length := by
  have htotal : Std.Total fun a b : Str × Str =>
      (components b.1).length ≤ (components a.1).length := ⟨fun a b => Nat.le_total _ _⟩
  have htrans : IsTrans (Str × Str) fun a b =>
      (components b.1).length ≤ (components a.1).length := ⟨fun a b c hab hbc => hbc.trans hab⟩
  exact List.pairwise_insertionSort _ _

/-- In a sorted list the first is a longest. -/
theorem longest_of_sorted {translator : PathTranslator} {path : Str}
    {before after : List (Str × Str)} {mapping : Str × Str}
    (hsorted : translator.mappings.Pairwise fun a b =>
      (components b.1).length ≤ (components a.1).length)
    (hsplit : translator.mappings = before ++ mapping :: after)
    (hbefore : ∀ entry ∈ before, ¬ components entry.1 <+: components path)
    (h : components mapping.1 <+: components path) : Longest translator path mapping := by
  refine ⟨hsplit ▸ List.mem_append_right _ List.mem_cons_self, h, ?_⟩
  intro entry hentry hbelow
  rw [hsplit] at hentry hsorted
  rcases List.mem_append.mp hentry with hmem | hmem
  · exact absurd hbelow (hbefore entry hmem)
  · rcases List.mem_cons.mp hmem with rfl | hmem
    · exact le_rfl
    · exact (List.pairwise_cons.mp (List.pairwise_append.mp hsorted).2.1).1 entry hmem

/-- The temporary directory is inside of the workspace. -/
def Shadowed (hostWorkspace hostTemp : Str) : Prop :=
  components hostWorkspace <+: components hostTemp ∧
    components hostWorkspace ≠ components hostTemp ∧ .parentDir ∉ components hostTemp

instance (hostWorkspace hostTemp : Str) : Decidable (Shadowed hostWorkspace hostTemp) :=
  inferInstanceAs (Decidable (_ ∧ _))

/-- Before any mapping is added the workspace stands first. -/
theorem longest_new {hostWorkspace hostTemp path : Str} {before after : List (Str × Str)}
    {mapping : Str × Str} (hshadow : ¬ Shadowed hostWorkspace hostTemp)
    (hup : .parentDir ∉ components path)
    (hsplit : (new hostWorkspace hostTemp).mappings = before ++ mapping :: after)
    (hbefore : ∀ entry ∈ before, ¬ components entry.1 <+: components path)
    (h : components mapping.1 <+: components path) :
    Longest (new hostWorkspace hostTemp) path mapping := by
  by_cases hlength : (components hostTemp).length ≤ (components hostWorkspace).length
  · -- here the two mappings are sorted
    refine longest_of_sorted ?_ hsplit hbefore h
    exact List.pairwise_pair.mpr hlength
  · refine ⟨hsplit ▸ List.mem_append_right _ List.mem_cons_self, h, ?_⟩
    have hnot : ¬ (components hostWorkspace <+: components path ∧
        components hostTemp <+: components path) := by
      rintro ⟨hworkspace, htemp⟩
      apply hshadow
      refine ⟨List.prefix_of_prefix_length_le hworkspace htemp (by omega), ?_, ?_⟩
      · intro heq
        exact hlength (by rw [heq])
      · exact fun hmem => hup (htemp.subset hmem)
    have hmem : mapping ∈ (new hostWorkspace hostTemp).mappings :=
      hsplit ▸ List.mem_append_right _ List.mem_cons_self
    intro entry hentry hbelow
    -- a path is below at most one of them
    simp only [new, List.mem_cons, List.not_mem_nil, or_false] at hentry hmem
    rcases hentry with rfl | rfl <;> rcases hmem with rfl | rfl
    · exact le_rfl
    · exact absurd ⟨hbelow, h⟩ hnot
    · exact absurd ⟨h, hbelow⟩ hnot
    · exact le_rfl

/-- In the order of `new` what belongs to the temporary directory goes below the workspace. -/
theorem not_roundTrips_new {hostWorkspace hostTemp : Str}
    (hhosts : ∀ entry ∈ (new hostWorkspace hostTemp).mappings, isAbsolute entry.1 = true)
    (htargets : (new hostWorkspace hostTemp).mappings.Pairwise Apart)
    (hshadow : Shadowed hostWorkspace hostTemp) : ¬ RoundTrips (new hostWorkspace hostTemp) := by
  intro htrips
  obtain ⟨hinside, hne, hup⟩ := hshadow
  have htemp := hhosts (hostTemp, "/github/runner_temp".toList)
    (List.mem_cons_of_mem _ List.mem_cons_self)
  obtain ⟨mapping, ⟨hmem, -, hlongest⟩, hbelow, -⟩ := htrips.back hostTemp htemp hup
    ⟨_, List.mem_cons_self, hinside⟩
  -- the workspace is shorter, so the temporary directory is the longest host
  have hmapping : mapping = (hostTemp, "/github/runner_temp".toList) := by
    simp only [new, List.mem_cons, List.not_mem_nil, or_false] at hmem
    refine hmem.resolve_left ?_
    rintro rfl
    have hlength := hlongest _ (List.mem_cons_of_mem _ List.mem_cons_self) (List.prefix_refl _)
    exact hne (hinside.eq_of_length_le hlength)
  subst hmapping
  have hthere : components "/github/workspace".toList <+: _ :=
    (toHost_toContainer (List.nil_append _).symm htargets (hhosts _ List.mem_cons_self)
      (by simp) hinside).1
  have hpair := (List.pairwise_cons.mp htargets).1 _ List.mem_cons_self
  rcases List.prefix_or_prefix_of_prefix hthere hbelow with hle | hle
  · exact hpair.1 hle
  · exact hpair.2 hle

/-- The standard mapping, and mappings added to it. -/
def mapped (hostWorkspace hostTemp : Str) (added : List (Str × Str)) : PathTranslator :=
  added.foldl (fun translator mapping => translator.addMapping mapping.1 mapping.2)
    (new hostWorkspace hostTemp)

/-- Translation is a round trip unless the temporary directory is inside of the workspace and no
    mapping was ever added. -/
theorem roundTrips_iff (hostWorkspace hostTemp : Str) (added : List (Str × Str))
    (hhosts : ∀ entry ∈ (mapped hostWorkspace hostTemp added).mappings, isAbsolute entry.1 = true)
    (htargets : (mapped hostWorkspace hostTemp added).mappings.Pairwise Apart) :
    RoundTrips (mapped hostWorkspace hostTemp added) ↔
      ¬ (added = [] ∧ Shadowed hostWorkspace hostTemp) := by
  constructor
  · rintro htrips ⟨rfl, hshadow⟩
    exact not_roundTrips_new hhosts htargets hshadow htrips
  · intro hcond
    refine roundTrips_of_first hhosts htargets ?_
    intro path before mapping after hup hsplit hbefore hmapping
    rcases List.eq_nil_or_concat added with rfl | ⟨earlier, last, rfl⟩
    · exact longest_new (fun hshadow => hcond ⟨rfl, hshadow⟩) hup hsplit hbefore hmapping
    · refine longest_of_sorted ?_ hsplit hbefore hmapping
      rw [mapped, List.concat_eq_append, List.foldl_append]
      exact sorted_addMapping _ _ _

/-- A workspace with a directory for its commands inside. -/
theorem roundTrips_commands :
    (∀ entry ∈ (mapped "/w".toList "/t".toList [("/w/c".toList, "/github/c".toList)]).mappings,
      isAbsolute entry.1 = true) ∧
    RoundTrips (mapped "/w".toList "/t".toList [("/w/c".toList, "/github/c".toList)]) := by
  have hhosts : ∀ entry ∈
      (mapped "/w".toList "/t".toList [("/w/c".toList, "/github/c".toList)]).mappings,
      isAbsolute entry.1 = true := by decide
  have htargets :
      (mapped "/w".toList "/t".toList [("/w/c".toList, "/github/c".toList)]).mappings.Pairwise
        Apart := by decide +kernel
  refine ⟨hhosts, (roundTrips_iff _ _ _ hhosts htargets).mpr ?_⟩
  exact fun h => List.cons_ne_nil _ _ h.1

/-- The temporary directory inside of the workspace: its paths go below the workspace's target. -/
theorem nested_temp :
    (∀ entry ∈ (mapped "/w".toList "/w/t".toList []).mappings, isAbsolute entry.1 = true) ∧
    (mapped "/w".toList "/w/t".toList []).mappings.Pairwise Apart ∧
    (mapped "/w".toList "/w/t".toList []).toContainer "/w/t/a".toList =
      "/github/workspace/t/a".toList ∧
    ¬ RoundTrips (mapped "/w".toList "/w/t".toList []) := by
  have hfixed : (∀ entry ∈ (mapped "/w".toList "/w/t".toList []).mappings,
        isAbsolute entry.1 = true) ∧
      (mapped "/w".toList "/w/t".toList []).mappings.Pairwise Apart ∧
      (mapped "/w".toList "/w/t".toList []).toContainer "/w/t/a".toList =
        "/github/workspace/t/a".toList ∧
      Shadowed "/w".toList "/w/t".toList := by decide
  obtain ⟨hhosts, htargets, hthere, hshadow⟩ := hfixed
  exact ⟨hhosts, htargets, hthere, not_roundTrips_new hhosts htargets hshadow⟩

end PathTranslator

end GhRunner.Docker
