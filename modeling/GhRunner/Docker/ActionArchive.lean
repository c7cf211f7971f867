import GhRunner.Docker.IgnorePattern
import GhRunner.Lib.LastMatch
import GhRunner.Lib.Lines
import GhRunner.Lib.LossyUtf8
import GhRunner.Lib.TreeWalk

namespace GhRunner.Docker

open Text Utf8 TreeWalk

/-!
# The build context of a Docker action

Which entries of a directory are archived as the context of an image build
(`crates/execution/src/docker/action_archive.rs`).

* `DockerIgnore.read` — the patterns of an ignore file;
* `DockerIgnore.ignored`, `mayReincludeDescendant` — what they say of a path and of what is below it;
* `archiveContext` — the walk over the directory, which does not descend everywhere;
* `ignored_below` — where it does not descend, all is ignored;
* `archiveContext_exact` — the archive is what the patterns keep, and the two files that control it.
-/

/-! ### Reading an ignore file -/

/-- `str::lines`. -/
def textLines (text : Str) : List Str :=
  (Lines.lines '\n' text).map fun line =>
    if line.2 && line.1.getLast? = some '\r' then line.1.dropLast else line.1

/-- One part of a pattern after the others. -/
def cleanPart (rooted : Bool) (parts : List Str) (part : Str) : List Str :=
  if part = "..".toList ∧ parts.getLast?.any (· ≠ "..".toList) then parts.dropLast
  else if part = "..".toList ∧ !rooted then parts ++ [part]
  else if part = [] ∨ part = ".".toList ∨ part = "..".toList then parts
  else parts ++ [part]

def cleanPattern (pattern : Str) : Str :=
  let parts := (pattern.splitOn '/').foldl (cleanPart (pattern.head? = some '/')) []
  if parts = [] then ".".toList else List.intercalate ['/'] parts

/-- A line is a comment or blank, or a pattern and whether it includes again. -/
def readLine (line : Str) : Except ContextError (Option (Str × Bool)) :=
  let value := trim line
  if line.head? = some '#' ∨ value = [] then .ok none
  else
    let exclusion := value.head? = some '!'
    let value := if exclusion then trim value.tail else value
    if value = [] then .error .illegalExclusion
    else
      let value := cleanPattern value
      .ok (if value = ".".toList then none else some (value, exclusion))

structure DockerIgnore where
  patterns : List Pattern

namespace DockerIgnore

variable (regexes : Regexes)

/-- The pattern of a line is compiled and added. -/
def readPattern (patterns : List Pattern) (line : Str) : Except ContextError (List Pattern) := do
  match ← readLine line with
  | none => return patterns
  | some (value, exclusion) =>
    let pattern ← Pattern.compile regexes value exclusion
    return patterns ++ [pattern]

def read (file : Option (List UInt8)) : Except ContextError DockerIgnore :=
  match file with
  | none => .ok ⟨[]⟩
  | some content =>
    let content := (([0xef, 0xbb, 0xbf] : List UInt8).isPrefixOf? content).getD content
    ((textLines (fromUtf8Lossy content)).foldlM (readPattern regexes) []).map DockerIgnore.mk

end DockerIgnore

/-! ### What the patterns say -/

/-- The path before each of its slashes. -/
def parentPaths : Str → List Str
  | [] => []
  | c :: rest => (if c = '/' then [[]] else []) ++ (parentPaths rest).map (c :: ·)

/-- The pattern matches the path or a directory above it. -/
def Pattern.covers (p : Pattern) (path : Str) : Bool := p.hits path || (parentPaths path).any p.hits

namespace DockerIgnore

variable (ignore : DockerIgnore)

def ignored (path : Str) : Bool :=
  LastMatch.hidden Pattern.exclusion Pattern.covers ignore.patterns path

def mayReincludeDescendant (directory : Str) : Bool :=
  ignore.patterns.any fun pattern => pattern.exclusion && pattern.mayMatchDescendant directory

end DockerIgnore

/-! ### The walk -/

/-- A file, or a link and the file that it leads to. -/
inductive ContextLeaf
  | file (content : List UInt8)
  | symlink (target : Str) (content : Option (List UInt8))
deriving DecidableEq, Repr

/-- What is read under a name in the context, if it is a file. -/
def fileAt (entries : List (Str × Node ContextLeaf)) (name : Str) : Option (List UInt8) :=
  match entries.lookup name with
  | some (.leaf (.file content)) => some content
  | some (.leaf (.symlink _ content)) => content
  | _ => none

/-- The ignore file of the Dockerfile, or the one of the directory. -/
def ignorePath (entries : List (Str × Node ContextLeaf)) (dockerfile : Str) : Option Str :=
  let specific := dockerfile ++ ".dockerignore".toList
  if (fileAt entries specific).isSome then some specific
  else if (fileAt entries ".dockerignore".toList).isSome then some ".dockerignore".toList
  else none

def slashPath (path : List Str) : Str := List.intercalate ['/'] path

section Archive

variable (dockerfile : Str) (ignoreFile : Option Str)

/-- The two entries that are always there. -/
def control (path : List Str) : Bool := slashPath path = dockerfile || ignoreFile.any fun name => path = [name]

/-- The entries that are appended, each under its path; a directory stands for itself alone. -/
def appendDirectory (ignore : DockerIgnore) (entries : List (Str × Node ContextLeaf)) :
    List (List Str × Node ContextLeaf) :=
  pruned (fun path => control dockerfile ignoreFile path || !ignore.ignored (slashPath path))
    (fun path => !ignore.ignored (slashPath path) || ignore.mayReincludeDescendant (slashPath path))
    [] (.dir entries)

end Archive

def archiveContext (regexes : Regexes) (entries : List (Str × Node ContextLeaf)) (dockerfile : Str) :
    Except ContextError (List (List Str × Node ContextLeaf)) :=
  let ignoreFile := ignorePath entries dockerfile
  (DockerIgnore.read regexes (ignoreFile.bind (fileAt entries))).map fun ignore =>
    appendDirectory dockerfile ignoreFile ignore entries

/-! ### What is below a directory -/

theorem parentPaths_append (directory below : Str) :
    parentPaths (directory ++ '/' :: below) =
      parentPaths directory ++ directory :: (parentPaths below).map (directory ++ '/' :: ·) := by
  induction directory with
  | nil => rfl
  | cons c directory ih =>
    rw [List.cons_append, parentPaths, parentPaths, ih, List.map_append, List.map_cons, List.map_map,
      List.append_assoc]
    rfl

/-- A pattern that covers a directory covers what is below it. -/
theorem Pattern.covers_below {p : Pattern} {directory : Str} (h : p.covers directory = true)
    (below : Str) : p.covers (directory ++ '/' :: below) = true := by
  rw [Pattern.covers, parentPaths_append, List.any_append, List.any_cons]
  rw [Pattern.covers] at h
  rcases Bool.or_eq_true_iff.mp h with hhits | hparents
  · simp [hhits]
  · simp [hparents]

/-- A pattern that covers something below a directory covers the directory, or matches below it. -/
theorem Pattern.covers_cases {p : Pattern} {directory below : Str}
    (h : p.covers (directory ++ '/' :: below) = true) :
    p.covers directory = true ∨ ∃ below', p.hits (directory ++ '/' :: below') = true := by
  rw [Pattern.covers, parentPaths_append, List.any_append, List.any_cons] at h
  rcases Bool.or_eq_true_iff.mp h with hhits | hparents
  · exact Or.inr ⟨below, hhits⟩
  · rcases Bool.or_eq_true_iff.mp hparents with hparents | hbelow
    · exact Or.inl (by rw [Pattern.covers, hparents, Bool.or_true])
    · rcases Bool.or_eq_true_iff.mp hbelow with hself | hbelow
      · exact Or.inl (by rw [Pattern.covers, hself, Bool.true_or])
      · obtain ⟨path, hpath, hhits⟩ := List.any_eq_true.mp hbelow
        obtain ⟨below', -, rfl⟩ := List.mem_map.mp hpath
        exact Or.inr ⟨below', hhits⟩

section Exact

variable {regexes : Regexes} {ignore : DockerIgnore}

/-- The patterns are compiled from patterns of the file. -/
def DockerIgnore.IsCompiled (regexes : Regexes) (patterns : List Pattern) : Prop :=
  ∀ p ∈ patterns, ∃ value exclusion, Pattern.compile regexes value exclusion = .ok p

theorem DockerIgnore.readPattern_isCompiled {patterns patterns' : List Pattern} {line : Str}
    (hpatterns : IsCompiled regexes patterns) (h : readPattern regexes patterns line = .ok patterns') :
    IsCompiled regexes patterns' := by
  obtain ⟨parsed, -, h⟩ := Descent.bind_eq_ok.mp h
  cases parsed with
  | none =>
    cases h
    exact hpatterns
  | some parsed =>
    obtain ⟨pattern, hcompile, h⟩ := Descent.bind_eq_ok.mp h
    cases h
    intro p hp
    rcases List.mem_append.mp hp with hp | hp
    · exact hpatterns p hp
    · rw [List.mem_singleton.mp hp]
      exact ⟨_, _, hcompile⟩

theorem DockerIgnore.isCompiled_of_read {file : Option (List UInt8)}
    (h : DockerIgnore.read regexes file = .ok ignore) : IsCompiled regexes ignore.patterns := by
  have hfold : ∀ (lines : List Str) (patterns patterns' : List Pattern),
      IsCompiled regexes patterns →
      lines.foldlM (readPattern regexes) patterns = .ok patterns' → IsCompiled regexes patterns' := by
    intro lines
    induction lines with
    | nil =>
      intro patterns patterns' hpatterns h
      cases h
      exact hpatterns
    | cons line lines ih =>
      intro patterns patterns' hpatterns h
      rw [List.foldlM_cons] at h
      obtain ⟨patterns₁, hline, h⟩ := Descent.bind_eq_ok.mp h
      exact ih patterns₁ patterns' (readPattern_isCompiled hpatterns hline) h
  cases file with
  | none =>
    cases h
    intro p hp
    cases hp
  | some content =>
    obtain ⟨patterns, hpatterns, rfl⟩ := Descent.map_eq_ok.mp h
    exact hfold _ [] patterns (fun p hp => by cases hp) hpatterns

/-- Below a directory that is ignored, and below which no pattern could include again, all is
    ignored. -/
theorem ignored_below (hregexes : regexes.ReadsLiterals)
    (hcompiled : DockerIgnore.IsCompiled regexes ignore.patterns) {directory : Str}
    (hignored : ignore.ignored directory = true)
    (hpruned : ignore.mayReincludeDescendant directory = false) (below : Str) :
    ignore.ignored (directory ++ '/' :: below) = true := by
  refine LastMatch.hidden_mono (fun p _ h => Pattern.covers_below h below) ?_ hignored
  intro p hp hexclusion hcovers
  rcases Pattern.covers_cases hcovers with h | ⟨below', hhits⟩
  · exact h
  · -- such a pattern could have matched below the directory
    obtain ⟨value, exclusion, hcompile⟩ := hcompiled p hp
    have hmay := mayMatchDescendant_of_hits hregexes hcompile hhits
    have hnone := List.any_eq_false.mp hpruned p hp
    simp [hexclusion, hmay] at hnone

theorem slashPath_append {path below : List Str} (hpath : path ≠ []) (hbelow : below ≠ []) :
    slashPath (path ++ below) = slashPath path ++ '/' :: slashPath below := by
  unfold slashPath
  induction path with
  | nil => exact absurd rfl hpath
  | cons name path ih =>
    cases path with
    | nil =>
      rw [List.singleton_append, List.intercalate_cons_of_ne_nil hbelow, List.intercalate_singleton,
        List.append_assoc]
      rfl
    | cons name' path =>
      rw [List.cons_append, List.intercalate_cons_of_ne_nil (by simp), ih (List.cons_ne_nil _ _),
        List.intercalate_cons_of_ne_nil (List.cons_ne_nil _ _)]
      simp only [List.append_assoc]

/-- An entry is kept if the last pattern that covers it includes again, or none covers it. -/
def Kept (ignore : DockerIgnore) (path : Str) : Prop :=
  ∀ p, LastMatch.decisive Pattern.covers ignore.patterns path = some p → p.exclusion = true

theorem ignored_eq_false_iff (path : Str) : ignore.ignored path = false ↔ Kept ignore path := by
  rw [DockerIgnore.ignored, LastMatch.hidden_eq, Kept]
  cases LastMatch.decisive Pattern.covers ignore.patterns path with
  | none => simp
  | some p => simp

variable {dockerfile : Str} {ignoreFile : Option Str}

/-- The Dockerfile and the ignore file are entries of the context itself. -/
theorem control_iff (hname : '/' ∉ dockerfile) {path : List Str} (hpath : path ≠ []) :
    control dockerfile ignoreFile path = true ↔ path = [dockerfile] ∨ ∃ name ∈ ignoreFile, path = [name] := by
  have hdockerfile : slashPath path = dockerfile ↔ path = [dockerfile] := by
    constructor
    · rintro rfl
      obtain ⟨name, rest, rfl⟩ := List.exists_cons_of_ne_nil hpath
      cases rest with
      | nil => rw [slashPath, List.intercalate_singleton]
      | cons name' rest =>
        refine absurd ?_ hname
        rw [← List.singleton_append, slashPath_append (List.cons_ne_nil _ _) (List.cons_ne_nil _ _)]
        exact List.mem_append_right _ List.mem_cons_self
    · rintro rfl
      exact List.intercalate_singleton
  rw [control, Bool.or_eq_true, decide_eq_true_eq, hdockerfile]
  cases ignoreFile <;> simp

theorem control_below (hname : '/' ∉ dockerfile) {path below : List Str} (hpath : path ≠ [])
    (hbelow : below ≠ []) : control dockerfile ignoreFile (path ++ below) = false := by
  have hlength : ∀ name, path ++ below ≠ [name] := by
    intro name heq
    have hlength := congrArg List.length heq
    rw [List.length_append, List.length_singleton] at hlength
    have hpos := List.length_pos_of_ne_nil hpath
    have hpos' := List.length_pos_of_ne_nil hbelow
    omega
  apply Bool.eq_false_iff.mpr
  rw [ne_eq, control_iff hname (by simp [hpath])]
  rintro (heq | ⟨name, -, heq⟩)
  · exact hlength _ heq
  · exact hlength _ heq

/-- The walk over the directory loses nothing where it does not descend. -/
theorem appendDirectory_eq (hregexes : regexes.ReadsLiterals)
    (hcompiled : DockerIgnore.IsCompiled regexes ignore.patterns) (hname : '/' ∉ dockerfile)
    (entries : List (Str × Node ContextLeaf)) :
    appendDirectory dockerfile ignoreFile ignore entries =
      (visits [] (.dir entries)).filter fun visit =>
        control dockerfile ignoreFile visit.1 || !ignore.ignored (slashPath visit.1) := by
  refine pruned_eq_filter (fun path below hpath hbelow hdescend => ?_) [] (.dir entries)
  rw [Bool.or_eq_false_iff, Bool.not_eq_false'] at hdescend
  rw [control_below hname hpath hbelow, slashPath_append hpath hbelow,
    ignored_below hregexes hcompiled hdescend.1 hdescend.2]
  rfl

end Exact

/-- An entry of the context is appended, in the order of a full walk and once, if and only if it is the
    Dockerfile, the ignore file, or kept by the last pattern that covers it. -/
theorem archiveContext_exact {regexes : Regexes} (hregexes : regexes.ReadsLiterals)
    {entries : List (Str × Node ContextLeaf)} {dockerfile : Str} (hname : '/' ∉ dockerfile)
    {archived : List (List Str × Node ContextLeaf)}
    (h : archiveContext regexes entries dockerfile = .ok archived) :
    ∃ ignore,
      DockerIgnore.read regexes ((ignorePath entries dockerfile).bind (fileAt entries)) = .ok ignore ∧
      archived.Sublist (visits [] (.dir entries)) ∧
      ∀ path node, (path, node) ∈ archived ↔
        (path ≠ [] ∧ At (.dir entries) path node) ∧
        (path = [dockerfile] ∨ (∃ name ∈ ignorePath entries dockerfile, path = [name]) ∨
          Kept ignore (slashPath path)) := by
  obtain ⟨ignore, hread, rfl⟩ := Descent.map_eq_ok.mp h
  refine ⟨ignore, hread, ?_⟩
  rw [appendDirectory_eq hregexes (DockerIgnore.isCompiled_of_read hread) hname]
  refine ⟨List.filter_sublist, fun path node => ?_⟩
  rw [List.mem_filter, mem_visits_iff]
  refine and_congr_right fun hpath => ?_
  rw [Bool.or_eq_true, control_iff hname hpath.1, Bool.not_eq_true', ignored_eq_false_iff, or_assoc]

/-! ### A context with a secret and a file that is included again -/

/-- `regex::escape` of a character. -/
def escapeCharacter (c : Char) : Str :=
  if c ∈ "\\.+*?()|[]\x7b\x7d^$#&-~".toList then ['\\', c] else [c]

/-- One expression is known: texts below `secret/`, without a slash after it, that end in `.txt`. -/
def secretRegexes : Regexes where
  escape := escapeCharacter
  new text :=
    if text = "^secret/[^/]*\\.txt$".toList then
      some fun path => path.take 7 = "secret/".toList ∧ '/' ∉ path.drop 7 ∧
        ".txt".toList.isSuffixOf (path.drop 7)
    else none

theorem literals_of_escaped {literals front rest rest' : Str} (hfront : '\\' ∉ front)
    (h : literals.flatMap escapeCharacter ++ rest = front ++ '[' :: rest') : literals <+: front := by
  induction literals generalizing front with
  | nil => exact List.nil_prefix
  | cons c literals ih =>
    rw [List.flatMap_cons, List.append_assoc] at h
    unfold escapeCharacter at h
    split at h
    case isTrue =>
      -- what is escaped begins with a backslash
      cases front with
      | nil => exact absurd (List.cons.inj h).1 (by decide)
      | cons d front =>
        rw [← (List.cons.inj h).1] at hfront
        exact absurd List.mem_cons_self hfront
    case isFalse hplain =>
      cases front with
      | nil =>
        rw [(List.cons.inj h).1] at hplain
        exact absurd (by decide) hplain
      | cons d front =>
        obtain ⟨rfl, hrest⟩ := List.cons.inj h
        exact (List.prefix_cons_inj c).mpr (ih (fun hmem => hfront (List.mem_cons_of_mem c hmem)) hrest)

theorem secretRegexes_readsLiterals : secretRegexes.ReadsLiterals := by
  intro literals pieces isMatch path hnew hmatch
  change (if regexText secretRegexes (literals.map .literal ++ pieces) = "^secret/[^/]*\\.txt$".toList
    then _ else none) = some isMatch at hnew
  split at hnew
  case isFalse => cases hnew
  case isTrue htext =>
    cases hnew
    have htail : literals.flatMap escapeCharacter ++
        (pieces.flatMap (Piece.text secretRegexes) ++ ['$']) =
          "secret/".toList ++ '[' :: "^/]*\\.txt$".toList := by
      rw [regexText, List.flatMap_append, List.flatMap_map] at htext
      exact (List.append_assoc _ _ _).symm.trans (congrArg List.tail htext)
    have hfront : literals <+: "secret/".toList := literals_of_escaped (by decide) htail
    have hpath : path.take 7 = "secret/".toList := (of_decide_eq_true hmatch).1
    exact hfront.trans (hpath ▸ List.take_prefix 7 path)

def secretContext : List (Str × Node ContextLeaf) :=
  [(".dockerignore".toList, .leaf (.file (bytes "secret\n!secret/*.txt\n".toList))),
    ("Dockerfile".toList, .leaf (.file [])),
    ("secret".toList, .dir [("a.txt".toList, .leaf (.file [])), ("b".toList, .leaf (.file []))])]

theorem archiveContext_exact_secret :
    ∃ archived ignore, archiveContext secretRegexes secretContext "Dockerfile".toList = .ok archived ∧
      ∀ path node, (path, node) ∈ archived ↔
        (path ≠ [] ∧ At (.dir secretContext) path node) ∧
        (path = ["Dockerfile".toList] ∨
          (∃ name ∈ ignorePath secretContext "Dockerfile".toList, path = [name]) ∨
          Kept ignore (slashPath path)) := by
  have hok : (archiveContext secretRegexes secretContext "Dockerfile".toList).isOk = true := by
    decide +kernel
  cases harchive : archiveContext secretRegexes secretContext "Dockerfile".toList with
  | error e =>
    rw [harchive] at hok
    cases hok
  | ok archived =>
    obtain ⟨ignore, -, -, h⟩ :=
      archiveContext_exact secretRegexes_readsLiterals (by decide) harchive
    exact ⟨archived, ignore, rfl, h⟩

end GhRunner.Docker
