import GhRunner.Lib.Lines
import GhRunner.Lib.Text

/-!
# Unix paths

A path is a text; what counts are its components.

* `Component`, `components` — what stands between the separators: an empty part is none, and a dot is
  one only at the front;
* `join` — a path below a directory, or in its place if the path starts at the root;
* `place`, `Inside` — where the components lead, by the names alone;
* `inside_join` — a path that neither starts at the root nor goes up stays inside;
* `IsName`, `inside_join_names` — the entries of a directory are not inside of each other;
* `exists_not_inside` — no path is inside of every directory;
* `stripPrefix`, `components_of_stripPrefix`, `components_join` — what is left of a path below a
  directory, and what is joined on to another.
-/

namespace Paths

open Text

inductive Component
  | rootDir
  | curDir
  | parentDir
  | normal (name : Str)
deriving DecidableEq, Repr

/-- What a part between two separators stands for. -/
def component (part : Str) : Option Component :=
  if part = [] ∨ part = ".".toList then none
  else if part = "..".toList then some .parentDir
  else some (.normal part)

def isAbsolute (path : Str) : Bool := path.head? = some '/'

/-- The components that only stand at the front. -/
def leading (path : Str) : List Component :=
  if isAbsolute path then [.rootDir]
  else if (path.splitOn '/').head? = some ".".toList then [.curDir]
  else []

/-- The components after those. -/
def body (path : Str) : List Component := (path.splitOn '/').filterMap component

def components (path : Str) : List Component := leading path ++ body path

def join (base path : Str) : Str :=
  if isAbsolute path then path
  else if base = [] ∨ base.getLast? = some '/' then base ++ path
  else base ++ '/' :: path

/-! ### Where a path leads -/

/-- A place is the names down to it, the innermost first.  Nothing is above the root; above the
    start of a relative path the steps up are kept. -/
def follow : List Component → Component → List Component
  | _, .rootDir => [.rootDir]
  | place, .curDir => place
  | place, .normal name => .normal name :: place
  | .normal _ :: place, .parentDir => place
  | .rootDir :: place, .parentDir => .rootDir :: place
  | place, .parentDir => .parentDir :: place

def place (path : Str) : List Component := (components path).foldl follow []

/-- The path leads to the directory or to something below it. -/
def Inside (base path : Str) : Prop := place base <:+ place path

instance (base path : Str) : Decidable (Inside base path) :=
  inferInstanceAs (Decidable (_ <:+ _))

/-! ### Components -/

theorem component_ne_rootDir (part : Str) : component part ≠ some .rootDir := by
  unfold component
  split
  · exact Option.some_ne_none _ ∘ Eq.symm
  · split <;> exact fun h => Component.noConfusion (Option.some.inj h)

theorem component_ne_curDir (part : Str) : component part ≠ some .curDir := by
  unfold component
  split
  · exact Option.some_ne_none _ ∘ Eq.symm
  · split <;> exact fun h => Component.noConfusion (Option.some.inj h)

theorem component_eq_parentDir {part : Str} :
    component part = some .parentDir ↔ part = "..".toList := by
  unfold component
  constructor
  · intro h
    split at h
    · cases h
    · split at h
      case isTrue hpart => exact hpart
      case isFalse => cases h
  · rintro rfl
    rfl

theorem component_eq_normal {part name : Str} (h : component part = some (.normal name)) :
    part = name := by
  unfold component at h
  split at h
  · cases h
  · split at h
    · cases h
    · exact Component.normal.inj (Option.some.inj h)

theorem rootDir_mem_components {path : Str} :
    .rootDir ∈ components path ↔ isAbsolute path = true := by
  have hbody : .rootDir ∉ body path := fun h => by
    obtain ⟨part, -, hpart⟩ := List.mem_filterMap.mp h
    exact component_ne_rootDir part hpart
  rw [components, List.mem_append, or_iff_left hbody, leading]
  split
  case isTrue habs => simp [habs]
  case isFalse habs => split <;> simp [habs]

theorem parentDir_mem_components {path : Str} :
    .parentDir ∈ components path ↔ "..".toList ∈ path.splitOn '/' := by
  have hleading : .parentDir ∉ leading path := by
    unfold leading
    split
    · simp
    · split <;> simp
  rw [components, List.mem_append, or_iff_right hleading, body, List.mem_filterMap]
  constructor
  · rintro ⟨part, hmem, hpart⟩
    rwa [← component_eq_parentDir.mp hpart]
  · intro hmem
    exact ⟨_, hmem, component_eq_parentDir.mpr rfl⟩

/-- The names of a path stand in it. -/
theorem sublist_of_mem_splitOn {part path : Str} (h : part ∈ path.splitOn '/') :
    part.Sublist path := by
  have hsub : part.Sublist (List.intercalate ['/'] (path.splitOn '/')) := by
    generalize path.splitOn '/' = parts at h
    induction parts with
    | nil => cases h
    | cons first rest ih =>
      cases rest with
      | nil =>
        rw [List.mem_singleton.mp h]
        simp
      | cons second rest =>
        rw [List.intercalate_cons_cons]
        rcases List.mem_cons.mp h with rfl | h
        · rw [List.append_assoc]
          exact List.sublist_append_left _ _
        · exact (ih h).trans (List.sublist_append_right _ _)
  rwa [List.intercalate_splitOn] at hsub

theorem length_le_of_mem_splitOn {part path : Str} (h : part ∈ path.splitOn '/') :
    part.length ≤ path.length := (sublist_of_mem_splitOn h).length_le

/-! ### Joining -/

theorem body_append (before after : Str) :
    body (before ++ '/' :: after) = body before ++ body after := by
  rw [body, List.splitOn_append_cons_self, List.filterMap_append]
  rfl

theorem leading_append (before after : Str) :
    leading (before ++ '/' :: after) = if before = [] then [.rootDir] else leading before := by
  have hfirst : ((before ++ '/' :: after).splitOn '/').head? = (before.splitOn '/').head? := by
    rw [List.splitOn_append_cons_self]
    exact List.head?_append_of_ne_nil _ (List.splitOn_ne_nil _ _)
  cases before with
  | nil => rfl
  | cons c before =>
    rw [if_neg (List.cons_ne_nil c before), leading, hfirst]
    rfl

/-- What is joined on leads on from the directory. -/
theorem place_join (base : Str) {path : Str} (h : isAbsolute path = false) :
    place (join base path) = (body path).foldl follow (place base) := by
  rw [join, if_neg (by simp [h])]
  split
  case isTrue hbase =>
    rcases hbase with rfl | hslash
    · -- below the empty path the path is as it stands, but for a dot at its front
      rw [List.nil_append, place, components, List.foldl_append, leading, if_neg (by simp [h])]
      split <;> rfl
    · obtain ⟨front, rfl⟩ := List.getLast?_eq_some_iff.mp hslash
      have hempty : body (front ++ ['/']) = body front := by
        rw [body_append, show body [] = [] from rfl, List.append_nil]
      rw [List.append_assoc, List.singleton_append, place, place, components, components,
        leading_append, leading_append, body_append, hempty, List.foldl_append, List.foldl_append,
        List.foldl_append]
  case isFalse hbase =>
    rw [not_or] at hbase
    rw [place, place, components, components, leading_append, if_neg hbase.1, body_append,
      List.foldl_append, List.foldl_append, List.foldl_append]

/-- Names only lead further down. -/
theorem suffix_foldl_follow {names : List Component} (h : ∀ c ∈ names, ∃ name, c = .normal name)
    (start : List Component) : start <:+ names.foldl follow start := by
  induction names generalizing start with
  | nil => exact List.suffix_refl start
  | cons c names ih =>
    obtain ⟨name, rfl⟩ := h c List.mem_cons_self
    have hrest := ih (fun d hd => h d (List.mem_cons_of_mem _ hd)) (.normal name :: start)
    exact (List.suffix_cons _ _).trans hrest

theorem inside_refl (base : Str) : Inside base base := List.suffix_refl _

/-- A path that neither starts at the root nor goes up stays inside. -/
theorem inside_join (base : Str) {path : Str} (habs : .rootDir ∉ components path)
    (hup : .parentDir ∉ components path) : Inside base (join base path) := by
  rw [rootDir_mem_components, Bool.not_eq_true] at habs
  rw [Inside, place_join base habs]
  apply suffix_foldl_follow
  intro c hc
  obtain ⟨part, -, hpart⟩ := List.mem_filterMap.mp hc
  cases c with
  | rootDir => exact absurd hpart (component_ne_rootDir part)
  | curDir => exact absurd hpart (component_ne_curDir part)
  | parentDir => exact absurd (List.mem_append_right _ hc) hup
  | normal name => exact ⟨name, rfl⟩

theorem join_of_isAbsolute (base : Str) {path : Str} (h : isAbsolute path = true) :
    join base path = path := if_pos h

theorem mem_of_mem_follow {c d : Component} {start : List Component} (h : c ∈ follow start d) :
    c ∈ start ∨ c = d := by
  unfold follow at h
  split at h
  case h_1 => exact .inr (List.mem_singleton.mp h)
  case h_2 => exact .inl h
  case h_3 => exact (List.mem_cons.mp h).symm
  case h_4 => exact .inl (List.mem_cons_of_mem _ h)
  case h_5 => exact .inl h
  case h_6 => exact (List.mem_cons.mp h).symm

theorem mem_components_of_mem_place {path : Str} {c : Component} (h : c ∈ place path) :
    c ∈ components path := by
  have key : ∀ (steps start : List Component), c ∈ steps.foldl follow start →
      c ∈ start ∨ c ∈ steps := by
    intro steps
    induction steps with
    | nil => exact fun start h => .inl h
    | cons d steps ih =>
      intro start h
      rcases ih _ h with h | h
      · rcases mem_of_mem_follow h with h | rfl
        · exact .inl h
        · exact .inr List.mem_cons_self
      · exact .inr (List.mem_cons_of_mem _ h)
  exact (key _ _ h).resolve_left List.not_mem_nil

/-! ### Names -/

/-- The name of an entry of a directory. -/
structure IsName (name : Str) : Prop where
  slash : '/' ∉ name
  empty : name ≠ []
  dot : name ≠ ".".toList
  up : name ≠ "..".toList

theorem IsName.not_isAbsolute {name : Str} (h : IsName name) : isAbsolute name = false := by
  cases name with
  | nil => rfl
  | cons c rest =>
    have hc : c ≠ '/' := fun heq => h.slash (heq ▸ List.mem_cons_self)
    simpa [isAbsolute] using hc

theorem IsName.body_eq {name : Str} (h : IsName name) : body name = [.normal name] := by
  rw [body, List.splitOn_eq_singleton h.slash, List.filterMap_cons, component,
    if_neg (not_or.mpr ⟨h.empty, h.dot⟩), if_neg h.up]
  rfl

/-- Names that lead inside of each other below one directory are the same. -/
theorem inside_join_names (base : Str) {name other : Str} (hname : IsName name)
    (hother : IsName other) : Inside (join base name) (join base other) ↔ name = other := by
  rw [Inside, place_join base hname.not_isAbsolute, place_join base hother.not_isAbsolute,
    hname.body_eq, hother.body_eq]
  show .normal name :: place base <:+ .normal other :: place base ↔ name = other
  constructor
  · intro h
    exact Component.normal.inj (List.cons.inj (h.eq_of_length rfl)).1
  · rintro rfl
    exact List.suffix_refl _

/-- No path is inside of every directory. -/
theorem exists_not_inside (path : Str) : ∃ base, ¬ Inside base path := by
  let name := List.replicate (path.length + 1) 'a'
  have hbase : Component.normal name ∈ place ('/' :: name) := by
    have hname : IsName name := by
      refine ⟨fun h => ?_, List.cons_ne_nil _ _, fun h => ?_, fun h => ?_⟩
      · cases List.eq_of_mem_replicate h
      · cases List.eq_of_mem_replicate (h ▸ List.mem_cons_self : '.' ∈ name)
      · cases List.eq_of_mem_replicate (h ▸ List.mem_cons_self : '.' ∈ name)
    have hbody : body ('/' :: name) = [.normal name] := by
      show body ([] ++ '/' :: name) = _
      rw [body_append, hname.body_eq]
      rfl
    show Component.normal name ∈ (leading ('/' :: name) ++ body ('/' :: name)).foldl follow []
    rw [hbody]
    exact List.mem_cons_self
  refine ⟨'/' :: name, fun hinside => ?_⟩
  have hmem := mem_components_of_mem_place (hinside.subset hbase)
  have hshort : name.length ≤ path.length := by
    rcases List.mem_append.mp hmem with hfront | hbody
    · unfold leading at hfront
      split at hfront
      · simp at hfront
      · split at hfront <;> simp at hfront
    · obtain ⟨part, hpart, hname⟩ := List.mem_filterMap.mp hbody
      rw [← component_eq_normal hname]
      exact length_le_of_mem_splitOn hpart
  rw [List.length_replicate] at hshort
  omega

/-! ### Prefixes -/

/-- The parts after the first components. -/
def dropNames : ℕ → List Str → List Str
  | 0, parts => parts
  | _ + 1, [] => []
  | n + 1, part :: rest =>
    if (component part).isSome then dropNames n rest else dropNames (n + 1) rest

/-- The parts from the first component to the last. -/
def trimParts (parts : List Str) : List Str :=
  (parts.dropWhile fun part => (component part).isNone).rdropWhile fun part => (component part).isNone

/-- The path without what follows its last component. -/
def trimEnd (path : Str) : Str :=
  let parts := (path.splitOn '/').rdropWhile fun part => (component part).isNone
  if parts = [] then path.take (leading path).length else List.intercalate ['/'] parts

/-- What is left of a path below a base, if it stands below it. -/
def stripPrefix (path base : Str) : Option Str :=
  if components base <+: components path then
    if components base = [] then some (trimEnd path)
    else some (List.intercalate ['/'] (trimParts (dropNames (body base).length (path.splitOn '/'))))
  else none

theorem filterMap_dropNames (n : ℕ) (parts : List Str) :
    (dropNames n parts).filterMap component = (parts.filterMap component).drop n := by
  induction parts generalizing n with
  | nil => cases n <;> simp [dropNames]
  | cons part rest ih =>
    cases n with
    | zero => rfl
    | succ n =>
      rw [dropNames]
      cases hpart : component part with
      | none => simp [hpart, ih]
      | some c => simp [hpart, ih]

theorem dropNames_suffix (n : ℕ) (parts : List Str) : dropNames n parts <:+ parts := by
  induction parts generalizing n with
  | nil => cases n <;> exact List.suffix_refl _
  | cons part rest ih =>
    cases n with
    | zero => exact List.suffix_refl _
    | succ n =>
      rw [dropNames]
      split <;> exact (ih _).trans (List.suffix_cons _ _)

theorem filterMap_trimParts (parts : List Str) :
    (trimParts parts).filterMap component = parts.filterMap component := by
  have hfront : ∀ l : List Str,
      (l.dropWhile fun part => (component part).isNone).filterMap component =
        l.filterMap component := by
    intro l
    induction l with
    | nil => rfl
    | cons part rest ih =>
      cases hpart : component part with
      | none => simpa [hpart] using ih
      | some c => simp [hpart]
  rw [trimParts, List.rdropWhile, List.filterMap_reverse, hfront, List.filterMap_reverse,
    List.reverse_reverse, hfront]

theorem component_head_trimParts {parts : List Str} {part : Str}
    (h : (trimParts parts).head? = some part) : (component part).isSome := by
  obtain ⟨rest, hrest⟩ := List.head?_eq_some_iff.mp h
  obtain ⟨more, hmore⟩ := List.rdropWhile_prefix (fun part => (component part).isNone)
    (parts.dropWhile fun part => (component part).isNone)
  rw [show List.rdropWhile _ _ = trimParts parts from rfl, hrest, List.cons_append] at hmore
  have hfirst : (parts.dropWhile fun part => (component part).isNone) ≠ [] := by simp [← hmore]
  have hnot := List.head_dropWhile_not (fun part => (component part).isNone) hfirst
  simp only [← hmore, List.head_cons] at hnot
  simpa [Option.isSome_iff_ne_none] using hnot

theorem not_isAbsolute_of_leading {path : Str} (h : leading path = []) :
    isAbsolute path = false := by
  unfold leading at h
  split at h
  case isTrue => cases h
  case isFalse habs => simpa using habs

/-- Parts of which the first is a component make a path without a front. -/
theorem leading_intercalate {parts : List Str} (hslash : ∀ part ∈ parts, '/' ∉ part)
    (hhead : ∀ part, parts.head? = some part → (component part).isSome) :
    leading (List.intercalate ['/'] parts) = [] ∧
      body (List.intercalate ['/'] parts) = parts.filterMap component := by
  cases parts with
  | nil => exact ⟨rfl, rfl⟩
  | cons part rest =>
    have hsplit : (List.intercalate ['/'] (part :: rest)).splitOn '/' = part :: rest :=
      List.splitOn_intercalate '/' hslash (List.cons_ne_nil _ _)
    have hpart := hhead part rfl
    have hne : part ≠ [] ∧ part ≠ ".".toList := by
      constructor <;> rintro rfl <;> exact absurd hpart (by decide)
    have habs : isAbsolute (List.intercalate ['/'] (part :: rest)) = false := by
      cases part with
      | nil => exact absurd rfl hne.1
      | cons c part =>
        have hc : c ≠ '/' := fun heq => hslash _ List.mem_cons_self (heq ▸ List.mem_cons_self)
        have hfirst : (List.intercalate ['/'] ((c :: part) :: rest)).head? = some c := by
          cases rest with
          | nil => simp
          | cons next rest => rw [List.intercalate_cons_cons]; rfl
        simpa [isAbsolute, hfirst] using hc
    rw [leading, habs, body, hsplit, if_neg (by simp), List.head?_cons,
      if_neg fun h => hne.2 (Option.some.inj h)]
    exact ⟨rfl, rfl⟩

/-- Components that stand in front never stand behind. -/
theorem notMem_body_of_mem_leading {path other : Str} {c : Component} (h : c ∈ leading path) :
    c ∉ body other := by
  intro hbody
  obtain ⟨part, -, hpart⟩ := List.mem_filterMap.mp hbody
  unfold leading at h
  split at h
  · rw [List.mem_singleton.mp h] at hpart
    exact component_ne_rootDir part hpart
  · split at h
    · rw [List.mem_singleton.mp h] at hpart
      exact component_ne_curDir part hpart
    · exact List.not_mem_nil h

theorem leading_length_le (path : Str) : (leading path).length ≤ 1 := by
  unfold leading
  split
  · exact le_rfl
  · split <;> simp

theorem components_ne_nil {path : Str} (h : isAbsolute path = true) : components path ≠ [] :=
  List.ne_nil_of_mem (rootDir_mem_components.mpr h)

theorem leading_of_components {path : Str} (h : components path = []) : leading path = [] :=
  (List.append_eq_nil_iff.mp h).1

/-- A base that has components has the leading ones of what is below it. -/
theorem body_prefix_of_components_prefix {path base : Str}
    (h : components base <+: components path) (hbase : components base ≠ []) :
    leading base = leading path ∧ body base <+: body path := by
  obtain ⟨rest, hrest⟩ := h
  rw [components, components, List.append_assoc] at hrest
  rcases hlead : leading base with _ | ⟨c, more⟩ <;> rcases hlead' : leading path with _ | ⟨d, more'⟩
  · rw [hlead, hlead'] at hrest
    exact ⟨rfl, rest, hrest⟩
  · -- the first component of the base would be a leading one
    exfalso
    rw [components, hlead, List.nil_append] at hbase
    obtain ⟨e, tail, htail⟩ := List.exists_cons_of_ne_nil hbase
    rw [hlead, hlead', htail] at hrest
    obtain ⟨rfl, -⟩ := List.cons.inj hrest
    have hfront : e ∈ leading path := hlead' ▸ List.mem_cons_self
    exact notMem_body_of_mem_leading hfront (htail ▸ List.mem_cons_self)
  · exfalso
    rw [hlead, hlead', List.cons_append, List.nil_append] at hrest
    have hfront : c ∈ leading base := hlead ▸ List.mem_cons_self
    exact notMem_body_of_mem_leading hfront (hrest ▸ List.mem_cons_self)
  · have hmore : more = [] := List.eq_nil_of_length_eq_zero (by
      have := leading_length_le base
      rw [hlead, List.length_cons] at this
      omega)
    have hmore' : more' = [] := List.eq_nil_of_length_eq_zero (by
      have := leading_length_le path
      rw [hlead', List.length_cons] at this
      omega)
    subst hmore hmore'
    rw [hlead, hlead'] at hrest
    obtain ⟨rfl, htail⟩ := List.cons.inj hrest
    exact ⟨rfl, rest, htail⟩

theorem stripPrefix_isSome {path base : Str} :
    (stripPrefix path base).isSome ↔ components base <+: components path := by
  unfold stripPrefix
  split
  case isTrue hbelow => split <;> simpa
  case isFalse hbelow => simpa

theorem dropNames_subset (n : ℕ) (parts : List Str) : dropNames n parts ⊆ parts := by
  induction parts generalizing n with
  | nil => cases n <;> exact List.Subset.refl _
  | cons part rest ih =>
    cases n with
    | zero => exact List.Subset.refl _
    | succ n =>
      rw [dropNames]
      split
      · exact List.subset_cons_of_subset _ (ih n)
      · exact List.subset_cons_of_subset _ (ih (n + 1))

/-- What is left of a path is made of its names. -/
theorem mem_of_mem_stripPrefix {path base rest : Str} (h : stripPrefix path base = some rest)
    {c : Char} (hc : c ∈ rest) : c = '/' ∨ c ∈ path := by
  have hparts : ∀ parts, parts ⊆ path.splitOn '/' → c ∈ List.intercalate ['/'] parts →
      c = '/' ∨ c ∈ path := by
    intro parts hsub hmem
    rcases Lines.mem_intercalate hmem with hsep | ⟨part, hpart, hin⟩
    · exact Or.inl hsep
    · exact Or.inr ((sublist_of_mem_splitOn (hsub hpart)).subset hin)
  unfold stripPrefix at h
  split at h
  case isFalse => cases h
  case isTrue =>
    split at h
    · obtain rfl := Option.some.inj h
      unfold trimEnd at hc
      dsimp only at hc
      split at hc
      · exact Or.inr (List.mem_of_mem_take hc)
      · exact hparts _ (List.rdropWhile_prefix _ _).subset hc
    · obtain rfl := Option.some.inj h
      refine hparts _ (fun part hpart => ?_) hc
      have hkept := (List.rdropWhile_prefix _ _).subset hpart
      exact dropNames_subset _ _ ((List.dropWhile_suffix _).subset hkept)

/-- Without components at the front nothing but the end of a path is cut off. -/
theorem trimEnd_of_leading {path : Str} (h : leading path = []) :
    trimEnd path = List.intercalate ['/'] (trimParts (path.splitOn '/')) := by
  have hfront : (path.splitOn '/').dropWhile (fun part => (component part).isNone) =
      path.splitOn '/' ∨ path = [] := by
    obtain ⟨part, rest, hsplit⟩ := List.exists_cons_of_ne_nil (List.splitOn_ne_nil '/' path)
    by_cases hpart : component part = none
    · -- a first part that is no component makes the path start at the root or with a dot
      right
      have habs := not_isAbsolute_of_leading h
      rw [leading, if_neg (by simp [habs]), hsplit, List.head?_cons] at h
      have hdot : part ≠ ".".toList := fun heq => by simp [heq] at h
      have hempty : part = [] := by
        unfold component at hpart
        split at hpart
        case isTrue hor => exact hor.resolve_right hdot
        case isFalse => split at hpart <;> cases hpart
      subst hempty
      have hpath : path = List.intercalate ['/'] (path.splitOn '/') :=
        (List.intercalate_splitOn _).symm
      rw [hpath, hsplit] at habs ⊢
      cases rest with
      | nil => rfl
      | cons next rest => rw [List.intercalate_cons_cons] at habs; cases habs
    · left
      rw [hsplit, List.dropWhile_cons_of_neg (by simpa using hpart)]
  rcases hfront with hfront | rfl
  · rw [trimEnd, trimParts, hfront, h]
    split
    case isTrue hnil => simp [hnil]
    case isFalse => rfl
  · rfl

/-- What is left has the components after those of the base, and no front of its own. -/
theorem components_of_stripPrefix {path base rest : Str}
    (hbase : components base ≠ [] ∨ leading path = []) (h : stripPrefix path base = some rest) :
    components path = components base ++ components rest ∧ leading rest = [] := by
  have hbelow := stripPrefix_isSome.mp (Option.isSome_of_eq_some h)
  have hrest : rest =
      List.intercalate ['/'] (trimParts (dropNames (body base).length (path.splitOn '/'))) := by
    unfold stripPrefix at h
    rw [if_pos hbelow] at h
    split at h
    case isTrue hnil =>
      rw [← Option.some.inj h, trimEnd_of_leading (hbase.resolve_left (not_not_intro hnil)),
        (List.append_eq_nil_iff.mp hnil).2, List.length_nil, dropNames]
    case isFalse => exact (Option.some.inj h).symm
  have hslash : ∀ part ∈ trimParts (dropNames (body base).length (path.splitOn '/')),
      '/' ∉ part := by
    intro part hpart
    have hmem := (dropNames_suffix _ _).subset
      ((List.dropWhile_suffix _).subset ((List.rdropWhile_prefix _ _).subset hpart))
    exact Lines.notMem_of_mem_splitOn hmem
  obtain ⟨hlead, hbody⟩ := leading_intercalate hslash fun _ => component_head_trimParts
  rw [filterMap_trimParts, filterMap_dropNames, ← hrest] at hbody
  rw [← hrest] at hlead
  obtain ⟨hleading, tail, htail⟩ : leading base = leading path ∧ body base <+: body path := by
    by_cases hnil : components base = []
    · have hparts := List.append_eq_nil_iff.mp hnil
      rw [hparts.1, hparts.2, hbase.resolve_left (not_not_intro hnil)]
      exact ⟨rfl, List.nil_prefix⟩
    · exact body_prefix_of_components_prefix hbelow hnil
  refine ⟨?_, hlead⟩
  rw [show (path.splitOn '/').filterMap component = body path from rfl, ← htail,
    List.drop_left] at hbody
  rw [components, components, components, hlead, hbody, ← hleading, ← htail, List.nil_append,
    List.append_assoc]

/-- The front is that of the directory, if there is one. -/
theorem leading_join (base : Str) {path : Str} (h : isAbsolute path = false) :
    leading (join base path) = if base = [] then leading path else leading base := by
  rw [join, if_neg (by simp [h])]
  split
  case isTrue hbase =>
    rcases hbase with rfl | hslash
    · rfl
    · obtain ⟨front, rfl⟩ := List.getLast?_eq_some_iff.mp hslash
      have hne : front ++ ['/'] ≠ [] := by simp
      rw [if_neg hne, List.append_assoc, List.singleton_append, leading_append, leading_append]
  case isFalse hbase =>
    rw [not_or] at hbase
    rw [leading_append, if_neg hbase.1, if_neg hbase.1]

/-- Below a directory a path without a front has the components of both. -/
theorem components_join (base : Str) {path : Str} (h : leading path = []) :
    components (join base path) = components base ++ components path := by
  have hbody : components path = body path := by rw [components, h, List.nil_append]
  rw [join, if_neg (by simp [not_isAbsolute_of_leading h])]
  split
  case isTrue hbase =>
    rcases hbase with rfl | hslash
    · rfl
    · obtain ⟨front, rfl⟩ := List.getLast?_eq_some_iff.mp hslash
      rw [List.append_assoc, List.singleton_append, components, components, leading_append,
        leading_append, body_append, body_append, hbody, show body [] = [] from rfl,
        List.append_nil, List.append_assoc]
  case isFalse hbase =>
    rw [not_or] at hbase
    rw [components, leading_append, if_neg hbase.1, body_append, hbody, components,
      List.append_assoc]

end Paths
