import GhRunner.Expressions.Value

namespace GhRunner.Execution

open Text GhRunner.Expressions

/-!
# Action references

What a `uses:` names (`crates/execution/src/execution/actions/resolver.rs`, `action_exec.rs`,
`composite_uses.rs`).

* `parseActionRef` — `owner/repo[/path]@ref` or `./path`;
* `resolveSelfReference` — `$/path`, relative to the enclosing action;
* `nestedRefParts`, `buildUsesRef` — splitting a reference into the fields of a step and putting it
  together again.
-/

inductive ActionRefKind
  | remote | local
deriving DecidableEq, Repr

structure ActionRef where
  kind : ActionRefKind
  owner : Str
  repo : Str
  gitRef : Str
  subpath : Option Str
  localPath : Option Str
deriving DecidableEq, Repr

structure ActionStepDefinitionReference where
  refType : Option Str
  image : Option Str
  name : Option Str
  gitRef : Option Str
  repositoryType : Option Str
  path : Option Str
deriving DecidableEq, Repr

/-! ### Parsing -/

/-- An ASCII letter or digit, or one of the characters given. -/
def safeChar (also : Str) (c : Char) : Bool := (c.isAlphanum : Bool) || decide (c ∈ also)

def isValidRepoComponent (value : Str) : Bool :=
  decide (value ∉ ["".toList, ".".toList, "..".toList]) && value.all (safeChar "-_.".toList)

def isValidGitRef (value : Str) : Bool :=
  decide (value ≠ []) &&
    (value.splitOn '/').all (fun part => decide (part ∉ ["".toList, ".".toList, "..".toList])) &&
    value.all (safeChar "-_./".toList)

/-- A component of the path is `..`, or it starts at the root. -/
def subpathEscapes (subpath : Str) : Bool :=
  subpath.head? = some '/' || (subpath.splitOn '/').any (fun part => part = "..".toList)

def invalidRef (uses : Str) (why : String) : RunnerError :=
  .actionResolution ("invalid action ref '".toList ++ uses ++ "': ".toList ++ why.toList)

def parseSubpath (parts : List Str) (uses : Str) : Except RunnerError (Option Str) :=
  if parts.length ≤ 2 then .ok none
  else
    let joined := List.intercalate ['/'] (parts.drop 2)
    if subpathEscapes joined then
      .error (invalidRef uses "subpath escapes the action directory")
    else .ok (some joined)

def localActionRef (uses : Str) : ActionRef where
  kind := .local
  owner := []
  repo := []
  gitRef := []
  subpath := none
  localPath := some (if uses.getLast? = some '@' then uses.dropLast else uses)

def parseActionRef (uses : Str) : Except RunnerError ActionRef :=
  if "./".toList <+: uses then .ok (localActionRef uses)
  else
    match splitFirst ['@'] uses with
    | none => .error (invalidRef uses "missing @ref")
    | some (pathPart, gitRef) =>
      if isValidGitRef gitRef = false then .error (invalidRef uses "invalid git ref")
      else
        let parts := pathPart.splitOn '/'
        let owner := (parts[0]?).getD []
        let repo := (parts[1]?).getD []
        if isValidRepoComponent owner = false ∨ isValidRepoComponent repo = false then
          .error (invalidRef uses "invalid owner or repo")
        else
          match parseSubpath parts uses with
          | .error e => .error e
          | .ok subpath => .ok ⟨.remote, owner, repo, gitRef, subpath, none⟩

/-- `parent` is the repository and the ref of the enclosing action.  Nothing when `uses` is no
    self-repository reference. -/
def resolveSelfReference (uses : Str) (parent : Option (Str × Str)) :
    Except RunnerError (Option Str) :=
  if "$/".toList <+: uses then
    let path := (uses.drop 2).dropWhile (· = '/')
    if '@' ∈ path then
      .error (.actionResolution
        ("Self-repository references do not support an '@ref' suffix. Actual '".toList ++ uses ++
          "'".toList))
    else
      match parent.filter fun p => p.1 ≠ [] && p.2 ≠ [] with
      | none => .error (.actionResolution
          ("Unable to resolve self-reference '$/'. This can occur when the server does not " ++
            "support this syntax, the feature flag is disabled, or the workflow context " ++
            "(repository/SHA) is unavailable.").toList)
      | some (repo, gitRef) =>
        let path := path.rdropWhile (· = '/')
        .ok (some (if path = [] then repo ++ '@' :: gitRef else repo ++ '/' :: path ++ '@' :: gitRef))
  else .ok none

/-! ### Splitting and rebuilding -/

/-- The name and the git ref under which a nested reference is resolved again. -/
def nestedRefParts (ref : ActionRef) : Str × Option Str :=
  match ref.kind with
  | .local => (ref.localPath.getD [], none)
  | .remote =>
    let name := ref.owner ++ '/' :: ref.repo
    (match ref.subpath with
      | some subpath => name ++ '/' :: subpath
      | none => name, some ref.gitRef)

def asciiLower (s : Str) : Str := s.map Char.toLower

def buildUsesRef (reference : ActionStepDefinitionReference) : Str :=
  if reference.refType.map asciiLower = some "containerregistry".toList then
    let image := reference.image.getD []
    if "docker://".toList <+: image then image else "docker://".toList ++ image
  else if reference.repositoryType = some "self".toList then reference.path.getD []
  else
    let uses := (reference.name.or reference.image).getD []
    let withPath :=
      match reference.path with
      | some path => if path = [] then uses else uses ++ '/' :: path
      | none => uses
    let gitRef := reference.gitRef.getD []
    if gitRef = [] then withPath else withPath ++ '@' :: gitRef

end GhRunner.Execution
