import GhRunner.Lib.Paths
import GhRunner.Execution.ActionRef

namespace GhRunner.Execution

open Text Paths GhRunner.Expressions

/-!
# Where an action's manifest is read

The directory a `uses:` leads to (`crates/execution/src/execution/actions/resolver.rs`,
`action_exec.rs`, `action_support.rs`).

* `localDir`, `resolveActionDir` — the reference below the workspace, or below the action's cache
  directory;
* `resolveActionDirectory` — the directory a reference is resolved to;
* `Contained` — that directory is inside the one it was to be in;
* `AbsoluteRemainder` — what follows `./` starts at the root;
* `contained_iff` — the references that leave their root are exactly these.

Fetching an action into the cache is an argument.
-/

/-- Nothing unless the reference is local, or if it goes up. -/
def ActionRef.localDir (ref : ActionRef) (base : Str) : Option Str :=
  match ref.localPath with
  | none => none
  | some path =>
    if "./".toList <+: path then
      let rel := path.drop 2
      if .parentDir ∈ components rel then none else some (join base rel)
    else none

def resolveActionDir (cacheDir : Str) (subpath : Option Str) : Str :=
  match subpath with
  | some p => if p = [] then cacheDir else join cacheDir p
  | none => cacheDir

section Resolve

variable (workspace : Str) (ensureAction : ActionRef → Except RunnerError Str)

/-- The directory a reference is looked up in. -/
def actionRoot (ref : ActionRef) : Except RunnerError Str :=
  match ref.kind with
  | .local => .ok workspace
  | .remote => ensureAction ref

def resolveLocalAction (ref : ActionRef) (uses : Str) : Except RunnerError Str :=
  match ref.localDir workspace with
  | some dir => .ok dir
  | none =>
    .error (.actionResolution ("invalid local action ref '".toList ++ uses ++ "'".toList))

def resolveRemoteAction (ref : ActionRef) : Except RunnerError Str :=
  match ensureAction ref with
  | .ok cacheDir => .ok (resolveActionDir cacheDir ref.subpath)
  | .error e => .error e

/-- The directory of the manifest. -/
def resolveActionDirectory (uses : Str) : Except RunnerError Str :=
  match parseActionRef uses with
  | .error e => .error e
  | .ok ref =>
    match ref.kind with
    | .local => resolveLocalAction workspace ref uses
    | .remote => resolveRemoteAction ensureAction ref

/-- A reference that is accepted leads to a directory inside the one it is looked up in, or to
    none. -/
def Contained (uses : Str) : Prop :=
  ∀ ref dir, parseActionRef uses = .ok ref →
    resolveActionDirectory workspace ensureAction uses = .ok dir →
    ∃ root, actionRoot workspace ensureAction ref = .ok root ∧ Inside root dir

end Resolve

/-- What follows the `./` of a local reference. -/
def localRemainder (uses : Str) : Str :=
  (if uses.getLast? = some '@' then uses.dropLast else uses).drop 2

/-- A local reference whose remainder starts at the root and never goes up. -/
def AbsoluteRemainder (uses : Str) : Prop :=
  "./".toList <+: uses ∧ isAbsolute (localRemainder uses) = true ∧
    .parentDir ∉ components (localRemainder uses)

/-! ### The two guards -/

/-- The guard of a remote reference looks for both of the components that would leave the cache. -/
theorem subpathEscapes_iff {subpath : Str} :
    subpathEscapes subpath = true ↔
      .rootDir ∈ components subpath ∨ .parentDir ∈ components subpath := by
  rw [subpathEscapes, Bool.or_eq_true, rootDir_mem_components, parentDir_mem_components,
    List.any_eq_true]
  apply or_congr
  · exact decide_eq_true_iff.trans decide_eq_true_iff.symm
  · constructor
    · rintro ⟨part, hmem, hpart⟩
      rwa [← of_decide_eq_true hpart]
    · intro hmem
      exact ⟨_, hmem, decide_eq_true rfl⟩

/-- The guard of a local one looks for the way up alone. -/
theorem localDir_localActionRef {uses : Str} (h : "./".toList <+: uses) (base : Str) :
    (localActionRef uses).localDir base =
      if .parentDir ∈ components (localRemainder uses) then none
      else some (join base (localRemainder uses)) := by
  have hstarts : "./".toList <+:
      if uses.getLast? = some '@' then uses.dropLast else uses := by
    split
    case isFalse => exact h
    case isTrue hat =>
      obtain ⟨rest, rfl⟩ := h
      cases rest with
      | nil => simp at hat
      | cons c rest => exact ⟨(c :: rest).dropLast, by rw [List.dropLast_append_cons]⟩
  show (if _ then _ else _) = _
  rw [if_pos hstarts]
  rfl

theorem parseSubpath_ok {parts : List Str} {uses : Str} {subpath : Option Str}
    (h : parseSubpath parts uses = .ok subpath) :
    ∀ p ∈ subpath, .rootDir ∉ components p ∧ .parentDir ∉ components p := by
  unfold parseSubpath at h
  split at h
  case isTrue =>
    cases h
    exact fun _ hp => absurd hp (Option.not_mem_none _)
  case isFalse =>
    dsimp only at h
    split at h
    case isTrue => cases h
    case isFalse hescapes =>
      cases h
      intro p hp
      obtain rfl := Option.some.inj hp
      rw [subpathEscapes_iff, not_or] at hescapes
      exact hescapes

theorem parseActionRef_of_dotSlash {uses : Str} (h : "./".toList <+: uses) :
    parseActionRef uses = .ok (localActionRef uses) := if_pos h

/-- What a reference without `./` is accepted as. -/
theorem parseActionRef_remote {uses : Str} {ref : ActionRef} (hlocal : ¬ "./".toList <+: uses)
    (h : parseActionRef uses = .ok ref) :
    ref.kind = .remote ∧ ∀ p ∈ ref.subpath, .rootDir ∉ components p ∧ .parentDir ∉ components p := by
  unfold parseActionRef at h
  rw [if_neg hlocal] at h
  split at h
  · cases h
  · split at h
    · cases h
    · dsimp only at h
      split at h
      · cases h
      · split at h
        · cases h
        · rename_i hsubpath
          cases h
          exact ⟨rfl, parseSubpath_ok hsubpath⟩

/-! ### What stays inside -/

section Inside

variable {workspace : Str} {ensureAction : ActionRef → Except RunnerError Str}

theorem inside_resolveActionDir (cacheDir : Str) {subpath : Option Str}
    (h : ∀ p ∈ subpath, .rootDir ∉ components p ∧ .parentDir ∉ components p) :
    Inside cacheDir (resolveActionDir cacheDir subpath) := by
  unfold resolveActionDir
  split
  case h_1 p =>
    split
    · exact inside_refl cacheDir
    · exact inside_join cacheDir (h p rfl).1 (h p rfl).2
  case h_2 => exact inside_refl cacheDir

theorem contained_remote {uses : Str} (h : ¬ "./".toList <+: uses) :
    Contained workspace ensureAction uses := by
  intro ref dir href hdir
  obtain ⟨hkind, hsubpath⟩ := parseActionRef_remote h href
  simp only [resolveActionDirectory, href, hkind, resolveRemoteAction] at hdir
  split at hdir
  case h_2 => cases hdir
  case h_1 cacheDir hcache =>
    cases hdir
    refine ⟨cacheDir, ?_, inside_resolveActionDir cacheDir hsubpath⟩
    rw [actionRoot, hkind]
    exact hcache

/-- A local reference is resolved to its remainder below the workspace, unless it goes up. -/
theorem resolveActionDirectory_local {uses : Str} (h : "./".toList <+: uses) :
    resolveActionDirectory workspace ensureAction uses =
      if .parentDir ∈ components (localRemainder uses) then
        .error (.actionResolution ("invalid local action ref '".toList ++ uses ++ "'".toList))
      else .ok (join workspace (localRemainder uses)) := by
  rw [resolveActionDirectory, parseActionRef_of_dotSlash h]
  show resolveLocalAction workspace (localActionRef uses) uses = _
  rw [resolveLocalAction, localDir_localActionRef h]
  by_cases hup : .parentDir ∈ components (localRemainder uses)
  · rw [if_pos hup, if_pos hup]
  · rw [if_neg hup, if_neg hup]

theorem contained_local {uses : Str} (hstarts : "./".toList <+: uses)
    (habs : isAbsolute (localRemainder uses) = false) : Contained workspace ensureAction uses := by
  intro ref dir href hdir
  rw [parseActionRef_of_dotSlash hstarts] at href
  obtain rfl := Except.ok.inj href
  rw [resolveActionDirectory_local hstarts] at hdir
  split at hdir
  case isTrue => cases hdir
  case isFalse hup =>
    obtain rfl := Except.ok.inj hdir
    refine ⟨workspace, rfl, inside_join workspace ?_ hup⟩
    rw [rootDir_mem_components, habs]
    exact Bool.false_ne_true

/-- A workspace is found that an absolute remainder leaves. -/
theorem not_contained {uses : Str} (h : AbsoluteRemainder uses)
    (ensureAction : ActionRef → Except RunnerError Str) :
    ∃ workspace, ¬ Contained workspace ensureAction uses := by
  obtain ⟨hstarts, habs, hup⟩ := h
  obtain ⟨workspace, houtside⟩ := exists_not_inside (localRemainder uses)
  refine ⟨workspace, fun hcontained => houtside ?_⟩
  have hdir : resolveActionDirectory workspace ensureAction uses = .ok (localRemainder uses) := by
    rw [resolveActionDirectory_local hstarts, if_neg hup, join_of_isAbsolute workspace habs]
  obtain ⟨root, hroot, hinside⟩ := hcontained _ _ (parseActionRef_of_dotSlash hstarts) hdir
  obtain rfl := Except.ok.inj hroot
  exact hinside

end Inside

/-- The references that stay inside, in every workspace and cache, are the ones without an absolute
    remainder after `./`. -/
theorem contained_iff (uses : Str) :
    (∀ workspace ensureAction, Contained workspace ensureAction uses) ↔
      ¬ AbsoluteRemainder uses := by
  constructor
  · intro hall habs
    obtain ⟨workspace, hnot⟩ := not_contained habs fun _ => .ok []
    exact hnot (hall workspace _)
  · intro hnot workspace ensureAction
    by_cases hstarts : "./".toList <+: uses
    · by_cases habs : isAbsolute (localRemainder uses) = true
      · -- both guards hold: what is left of the condition is that the reference goes up
        have hup : .parentDir ∈ components (localRemainder uses) :=
          not_not.mp fun hup => hnot ⟨hstarts, habs, hup⟩
        intro ref dir _ hdir
        rw [resolveActionDirectory_local hstarts, if_pos hup] at hdir
        cases hdir
      · exact contained_local hstarts (Bool.not_eq_true _ ▸ habs)
    · exact contained_remote hstarts

/-- `uses: .//etc` is read from `/etc`. -/
theorem doubled_slash_leaves_workspace :
    resolveActionDirectory "/home/runner/work".toList (fun _ => .ok []) ".//etc".toList =
        .ok "/etc".toList ∧
      ¬ Contained "/home/runner/work".toList (fun _ => .ok []) ".//etc".toList := by
  have hdir : resolveActionDirectory "/home/runner/work".toList (fun _ => .ok [])
      ".//etc".toList = .ok "/etc".toList := by
    rw [resolveActionDirectory_local (by decide)]
    rfl
  refine ⟨hdir, fun hcontained => ?_⟩
  obtain ⟨root, hroot, hinside⟩ := hcontained _ _ (parseActionRef_of_dotSlash (by decide)) hdir
  obtain rfl := Except.ok.inj hroot
  exact absurd hinside (by decide)

end GhRunner.Execution
