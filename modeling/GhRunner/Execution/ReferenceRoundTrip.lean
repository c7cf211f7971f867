import GhRunner.Execution.ActionPaths

namespace GhRunner.Execution

open Text

/-!
# References split and put together again

A nested `uses:` is parsed, split into the fields of a synthetic step and rebuilt for the resolver.

* `splitReference`, `rebuilt` — the fields of the step, and the text they are put together to;
* `parseActionRef_of_parts`, `parts_of_parseActionRef` — what a remote reference is made of;
* `rebuilt_remote` — a remote reference is rebuilt as it was written;
* `resolved_self` — what `$/path` comes to below its parent;
* `references_survive` — the references that parse to the same again, and `doubled_at` — one that
  does not.
-/

/-- The reference of the synthetic step. -/
def splitReference (ref : ActionRef) : ActionStepDefinitionReference :=
  ⟨some "repository".toList, none, some (nestedRefParts ref).1, (nestedRefParts ref).2, none, none⟩

def rebuilt (ref : ActionRef) : Str := buildUsesRef (splitReference ref)

theorem rebuilt_eq (ref : ActionRef) :
    rebuilt ref =
      if (nestedRefParts ref).2.getD [] = [] then (nestedRefParts ref).1
      else (nestedRefParts ref).1 ++ '@' :: (nestedRefParts ref).2.getD [] := by
  have hkind : (some "repository".toList).map asciiLower ≠ some "containerregistry".toList := by
    decide
  have hself : (none : Option Str) ≠ some "self".toList := nofun
  unfold rebuilt buildUsesRef splitReference
  dsimp only
  rw [if_neg hkind, if_neg hself]
  rfl

/-! ### The parts of a remote reference -/

/-- The subpath of a reference with these parts after the repository. -/
def subpathOf (rest : List Str) : Option Str :=
  if rest = [] then none else some (List.intercalate ['/'] rest)

structure RemoteParts (owner repo gitRef : Str) : Prop where
  owner : isValidRepoComponent owner = true
  repo : isValidRepoComponent repo = true
  gitRef : isValidGitRef gitRef = true

theorem notMem_of_isValidRepoComponent {value : Str} (h : isValidRepoComponent value = true) :
    '/' ∉ value ∧ '@' ∉ value ∧ value ≠ [] := by
  unfold isValidRepoComponent at h
  obtain ⟨hname, hsafe⟩ := Bool.and_eq_true_iff.mp h
  rw [List.all_eq_true] at hsafe
  refine ⟨fun hmem => ?_, fun hmem => ?_, ?_⟩
  · exact absurd (hsafe _ hmem) (by decide)
  · exact absurd (hsafe _ hmem) (by decide)
  · rintro rfl
    exact absurd hname (by decide)

theorem ne_nil_of_isValidGitRef {value : Str} (h : isValidGitRef value = true) : value ≠ [] := by
  rintro rfl
  exact absurd h (by decide)

theorem parseSubpath_cons (owner repo : Str) (rest : List Str) (uses : Str) :
    parseSubpath (owner :: repo :: rest) uses =
      if rest ≠ [] ∧ subpathEscapes (List.intercalate ['/'] rest) = true then
        .error (invalidRef uses "subpath escapes the action directory")
      else .ok (subpathOf rest) := by
  unfold parseSubpath subpathOf
  cases rest with
  | nil => rfl
  | cons part rest =>
    rw [if_neg (by simp), if_neg (List.cons_ne_nil _ _)]
    show (if subpathEscapes (List.intercalate ['/'] (part :: rest)) = true then _ else _) = _
    simp

/-- What comes of a reference that is cut into these parts. -/
theorem parseActionRef_of_parts {pathPart owner repo gitRef : Str} {rest : List Str}
    (hparts : pathPart.splitOn '/' = owner :: repo :: rest) (hat : '@' ∉ pathPart)
    (hvalid : RemoteParts owner repo gitRef) :
    parseActionRef (pathPart ++ '@' :: gitRef) =
      if rest ≠ [] ∧ subpathEscapes (List.intercalate ['/'] rest) = true then
        .error (invalidRef (pathPart ++ '@' :: gitRef) "subpath escapes the action directory")
      else .ok ⟨.remote, owner, repo, gitRef, subpathOf rest, none⟩ := by
  have hsplit : splitFirst ['@'] (pathPart ++ '@' :: gitRef) = some (pathPart, gitRef) :=
    splitFirst_of_notMem hat [] gitRef
  have hlocal : ¬ "./".toList <+: pathPart ++ '@' :: gitRef := by
    rintro ⟨tail, htail⟩
    rw [show "./".toList = ['.', '/'] by decide] at htail
    -- the first part would be a dot, which is no owner
    obtain ⟨more, rfl⟩ : ∃ more, pathPart = ['.'] ++ '/' :: more := by
      rcases pathPart with _ | ⟨c, _ | ⟨d, more⟩⟩
      · exact absurd (List.cons.inj htail).1 (by decide)
      · exact absurd (List.cons.inj (List.cons.inj htail).2).1 (by decide)
      · simp only [List.cons_append, List.cons.injEq] at htail
        obtain ⟨rfl, rfl, -⟩ := htail
        exact ⟨more, rfl⟩
    rw [List.splitOn_append_cons_self, List.splitOn_eq_singleton (by decide)] at hparts
    obtain rfl : ['.'] = owner := (List.cons.inj hparts).1
    exact absurd hvalid.owner (by decide)
  unfold parseActionRef
  rw [if_neg hlocal, hsplit]
  dsimp only
  rw [if_neg (by simp [hvalid.gitRef]), hparts]
  have hnames : ¬ (isValidRepoComponent (((owner :: repo :: rest)[0]?).getD []) = false ∨
      isValidRepoComponent (((owner :: repo :: rest)[1]?).getD []) = false) := by
    simp [hvalid.owner, hvalid.repo]
  rw [if_neg hnames, parseSubpath_cons]
  by_cases hescapes : rest ≠ [] ∧ subpathEscapes (List.intercalate ['/'] rest) = true
  · rw [if_pos hescapes, if_pos hescapes]
  · rw [if_neg hescapes, if_neg hescapes]
    rfl

/-- A remote reference that is accepted is made of such parts. -/
theorem parts_of_parseActionRef {uses : Str} {ref : ActionRef} (hlocal : ¬ "./".toList <+: uses)
    (h : parseActionRef uses = .ok ref) :
    ∃ pathPart owner repo gitRef rest, uses = pathPart ++ '@' :: gitRef ∧
      pathPart.splitOn '/' = owner :: repo :: rest ∧ RemoteParts owner repo gitRef ∧
      ref = ⟨.remote, owner, repo, gitRef, subpathOf rest, none⟩ := by
  unfold parseActionRef at h
  rw [if_neg hlocal] at h
  split at h
  · cases h
  · rename_i pathPart gitRef hsplit
    split at h
    · cases h
    · rename_i hgitRef
      dsimp only at h
      split at h
      · cases h
      · rename_i hnames
        rw [not_or, Bool.not_eq_false, Bool.not_eq_false] at hnames
        -- without a second part the repository would be empty
        obtain ⟨owner, repo, rest, hparts⟩ : ∃ owner repo rest,
            pathPart.splitOn '/' = owner :: repo :: rest := by
          rcases hparts : pathPart.splitOn '/' with _ | ⟨owner, _ | ⟨repo, rest⟩⟩
          · exact absurd hparts (List.splitOn_ne_nil _ _)
          · rw [hparts] at hnames
            exact absurd hnames.2 (show ¬ isValidRepoComponent [] = true by decide)
          · exact ⟨owner, repo, rest, rfl⟩
        rw [hparts] at hnames h
        have hvalid : RemoteParts owner repo gitRef :=
          ⟨hnames.1, hnames.2, Bool.not_eq_false _ ▸ hgitRef⟩
        refine ⟨pathPart, owner, repo, gitRef, rest, splitFirst_eq_some hsplit, hparts, hvalid, ?_⟩
        rw [parseSubpath_cons] at h
        split at h
        · cases h
        · rename_i hescapes
          split at hescapes
          · cases hescapes
          · cases hescapes
            cases h
            rfl

/-! ### Rebuilding -/

theorem rebuilt_local (uses : Str) :
    rebuilt (localActionRef uses) = if uses.getLast? = some '@' then uses.dropLast else uses :=
  rebuilt_eq _

/-- The fields of a remote reference are put together to what they were cut from. -/
theorem rebuilt_remote {pathPart owner repo gitRef : Str} {rest : List Str}
    (hparts : pathPart.splitOn '/' = owner :: repo :: rest)
    (hvalid : RemoteParts owner repo gitRef) :
    rebuilt ⟨.remote, owner, repo, gitRef, subpathOf rest, none⟩ = pathPart ++ '@' :: gitRef := by
  have hpath : (nestedRefParts ⟨.remote, owner, repo, gitRef, subpathOf rest, none⟩).1 =
      pathPart := by
    have hjoin : List.intercalate ['/'] (pathPart.splitOn '/') = pathPart :=
      List.intercalate_splitOn '/'
    rw [hparts, List.intercalate_cons_cons] at hjoin
    rw [← hjoin]
    unfold nestedRefParts subpathOf
    cases rest with
    | nil => simp
    | cons part rest =>
      rw [if_neg (List.cons_ne_nil _ _), List.intercalate_cons_cons]
      simp
  rw [rebuilt_eq, hpath]
  exact if_neg (ne_nil_of_isValidGitRef hvalid.gitRef)

/-- A local reference with two `@` behind it. -/
def Doubled (uses : Str) : Prop := "./".toList <+: uses ∧ ['@', '@'] <:+ uses

instance decidableDoubled (uses : Str) : Decidable (Doubled uses) :=
  inferInstanceAs (Decidable (_ ∧ _))

/-- One `@` is cut off each time. -/
theorem rebuilt_local_iff {uses : Str} (h : "./".toList <+: uses) :
    parseActionRef (rebuilt (localActionRef uses)) = .ok (localActionRef uses) ↔
      ¬ Doubled uses := by
  have hrebuilt := rebuilt_local uses
  by_cases hat : uses.getLast? = some '@'
  · obtain ⟨path, rfl⟩ := List.getLast?_eq_some_iff.mp hat
    rw [if_pos hat, List.dropLast_concat] at hrebuilt
    have hstarts : "./".toList <+: path := by
      obtain ⟨tail, htail⟩ := h
      rcases List.eq_nil_or_concat tail with rfl | ⟨more, c, rfl⟩
      · rw [List.append_nil] at htail
        exact absurd (congrArg List.getLast? htail) (by simp)
      · rw [List.concat_eq_append, ← List.append_assoc] at htail
        exact ⟨more, (List.append_inj' htail rfl).1⟩
    rw [hrebuilt, parseActionRef_of_dotSlash hstarts, Except.ok.injEq]
    have hdoubled : Doubled (path ++ ['@']) ↔ path.getLast? = some '@' := by
      rw [Doubled, and_iff_right h, List.getLast?_eq_some_iff]
      constructor
      · rintro ⟨front, hfront⟩
        refine ⟨front, ?_⟩
        rw [show ['@', '@'] = ['@'] ++ ['@'] from rfl, ← List.append_assoc] at hfront
        exact ((List.append_inj' hfront rfl).1).symm
      · rintro ⟨front, rfl⟩
        exact ⟨front, by simp⟩
    rw [hdoubled]
    unfold localActionRef
    rw [if_pos hat, List.dropLast_concat]
    constructor
    · intro heq hlast
      obtain ⟨front, rfl⟩ := List.getLast?_eq_some_iff.mp hlast
      simp at heq
    · intro hlast
      rw [if_neg hlast]
  · rw [if_neg hat] at hrebuilt
    rw [hrebuilt, parseActionRef_of_dotSlash h]
    refine iff_of_true rfl ?_
    rintro ⟨-, front, rfl⟩
    exact hat (by simp)

/-! ### Below the parent -/

/-- The path of a self-repository reference. -/
def selfPath (uses : Str) : Str := ((uses.drop 2).dropWhile (· = '/')).rdropWhile (· = '/')

theorem resolveSelfReference_ok {uses repository gitRef result : Str}
    (h : resolveSelfReference uses (some (repository, gitRef)) = .ok (some result)) :
    '@' ∉ selfPath uses ∧ result =
      if selfPath uses = [] then repository ++ '@' :: gitRef
      else repository ++ '/' :: selfPath uses ++ '@' :: gitRef := by
  unfold resolveSelfReference at h
  split at h
  · dsimp only at h
    split at h
    · cases h
    · rename_i hat
      split at h
      · cases h
      · rename_i hparent
        obtain ⟨hparent, -⟩ := Option.filter_eq_some_iff.mp hparent
        cases hparent
        obtain rfl := Option.some.inj (Except.ok.inj h)
        exact ⟨fun hmem => hat ((List.rdropWhile_prefix _ _).subset hmem), rfl⟩
  · cases h

/-- The reference names its parent, with the path as its subpath, or is refused as escaping. -/
theorem resolved_self {uses owner repo gitRef result : Str} (hvalid : RemoteParts owner repo gitRef)
    (h : resolveSelfReference uses (some (owner ++ '/' :: repo, gitRef)) = .ok (some result)) :
    parseActionRef result =
      if selfPath uses ≠ [] ∧ subpathEscapes (selfPath uses) = true then
        .error (invalidRef result "subpath escapes the action directory")
      else
        .ok ⟨.remote, owner, repo, gitRef,
          if selfPath uses = [] then none else some (selfPath uses), none⟩ := by
  obtain ⟨hat, rfl⟩ := resolveSelfReference_ok h
  obtain ⟨howner, howner', -⟩ := notMem_of_isValidRepoComponent hvalid.owner
  obtain ⟨hrepo, hrepo', -⟩ := notMem_of_isValidRepoComponent hvalid.repo
  by_cases hpath : selfPath uses = []
  · rw [if_pos hpath]
    have hparts : (owner ++ '/' :: repo).splitOn '/' = [owner, repo] := by
      rw [List.splitOn_append_cons_self, List.splitOn_eq_singleton howner,
        List.splitOn_eq_singleton hrepo]
      rfl
    rw [parseActionRef_of_parts hparts (by simp [howner', hrepo']) hvalid]
    simp [hpath, subpathOf]
  · rw [if_neg hpath]
    have hparts : (owner ++ '/' :: repo ++ '/' :: selfPath uses).splitOn '/' =
        owner :: repo :: (selfPath uses).splitOn '/' := by
      rw [List.splitOn_append_cons_self, List.splitOn_append_cons_self,
        List.splitOn_eq_singleton howner, List.splitOn_eq_singleton hrepo]
      rfl
    have hne := List.splitOn_ne_nil '/' (selfPath uses)
    rw [parseActionRef_of_parts hparts (by simp [howner', hrepo', hat]) hvalid]
    simp only [List.intercalate_splitOn, subpathOf, hne, hpath, ne_eq, not_false_eq_true, true_and,
      if_false]

/-! ### Every reference -/

/-- **References survive** being split and rebuilt unless they are doubled, and a self-reference
    names its parent. -/
theorem references_survive (uses : Str) :
    (∀ ref, parseActionRef uses = .ok ref →
      (parseActionRef (rebuilt ref) = .ok ref ↔ ¬ Doubled uses)) ∧
    ∀ owner repo gitRef result, RemoteParts owner repo gitRef →
      resolveSelfReference uses (some (owner ++ '/' :: repo, gitRef)) = .ok (some result) →
      parseActionRef result =
        if selfPath uses ≠ [] ∧ subpathEscapes (selfPath uses) = true then
          .error (invalidRef result "subpath escapes the action directory")
        else
          .ok ⟨.remote, owner, repo, gitRef,
            if selfPath uses = [] then none else some (selfPath uses), none⟩ := by
  refine ⟨fun ref h => ?_, fun _ _ _ _ hvalid hself => resolved_self hvalid hself⟩
  by_cases hlocal : "./".toList <+: uses
  · rw [parseActionRef_of_dotSlash hlocal] at h
    obtain rfl := Except.ok.inj h
    exact rebuilt_local_iff hlocal
  · obtain ⟨pathPart, owner, repo, gitRef, rest, rfl, hparts, hvalid, rfl⟩ :=
      parts_of_parseActionRef hlocal h
    rw [rebuilt_remote hparts hvalid]
    exact iff_of_true h fun hdoubled => hlocal hdoubled.1

theorem references_survive_sample :
    parseActionRef (rebuilt ⟨.remote, "octo".toList, "tool".toList, "v1".toList,
      some "sub/dir".toList, none⟩) =
      .ok ⟨.remote, "octo".toList, "tool".toList, "v1".toList, some "sub/dir".toList, none⟩ ∧
    parseActionRef "octo/tool/lib@v1".toList =
      .ok ⟨.remote, "octo".toList, "tool".toList, "v1".toList, some "lib".toList, none⟩ := by
  have hself := (references_survive "$/lib/".toList).2 "octo".toList "tool".toList "v1".toList
    "octo/tool/lib@v1".toList ⟨by decide, by decide, by decide⟩ (by decide)
  have hpath : selfPath "$/lib/".toList = "lib".toList := by decide
  rw [hpath] at hself
  exact ⟨((references_survive "octo/tool/sub/dir@v1".toList).1 _ (by decide)).mpr (by decide), hself⟩

/-- The second `@` is cut off when the rebuilt reference is parsed. -/
theorem doubled_at :
    parseActionRef "./tool@@".toList = .ok (localActionRef "./tool@@".toList) ∧
      (localActionRef "./tool@@".toList).localPath = some "./tool@".toList ∧
      parseActionRef (rebuilt (localActionRef "./tool@@".toList)) =
        .ok (localActionRef "./tool".toList) ∧
      localActionRef "./tool".toList ≠ localActionRef "./tool@@".toList := by
  decide

end GhRunner.Execution
