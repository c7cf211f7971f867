import GhRunner.Lib.Lines
import GhRunner.Lib.FiniteMap
import GhRunner.Execution.ActionRef

namespace GhRunner.Execution

open Text Lines

/-!
# File commands

The files a step writes its environment, outputs, state and search path to
(`crates/execution/src/execution/file_commands.rs`).

* `parseKvFile` — the `NAME=VALUE` and heredoc entries of a file, up to the first malformed one;
* `parsePathFile`, `stripBlockedEnv`, `process` — what a finished step's files come to;
* `readPairs_append` — what is read of lines behind complete entries does not depend on them;
* `parse_kv_append` — parsing is a homomorphism over appends;
* `Heredoc`, `heredocs_round_trip` — what is written as heredocs is read back, whatever the values
  look like.
-/

/-! ### Entries -/

/-- A map that answers by name; its order is not observed. -/
abbrev Pairs := Finmap fun _ : Str => Str

/-- A parsed file of entries: the pairs read before the first error, and its message. -/
structure KvFile where
  pairs : Pairs
  error : Option Str
deriving DecidableEq

/-- The lines of a heredoc value up to the one that equals the delimiter, and the lines after it. -/
def heredocLines (delimiter : Str) : List (Line Char) → Except Str (List Str × List (Line Char))
  | [] => .error ("Invalid value. Matching delimiter not found '".toList ++ delimiter ++ "'".toList)
  | (next, ended) :: rest =>
    if next = delimiter then .ok ([], rest)
    else if ended = false then .error "Invalid value. EOF marker missing new line.".toList
    else
      match heredocLines delimiter rest with
      | .error message => .error message
      | .ok (value, rest) => .ok (next :: value, rest)

/-- Read a heredoc value. -/
def parseHeredoc (line key delimiter : Str) (rest : List (Line Char)) :
    Except Str ((Str × Str) × List (Line Char)) :=
  if key = [] ∨ delimiter = [] then
    .error ("Invalid format '".toList ++ line ++
      "'. Name must not be empty and delimiter must not be empty".toList)
  else
    match heredocLines delimiter rest with
    | .error message => .error message
    | .ok (value, rest) => .ok ((key, ['\n'].intercalate value), rest)

def parsePlain (line : Str) (rest : List (Line Char)) :
    Option (Str × Str) → Except Str ((Str × Str) × List (Line Char))
  | none => .error ("Invalid format '".toList ++ line ++ "'".toList)
  | some (key, value) =>
    if key = [] then
      .error ("Invalid format '".toList ++ line ++ "'. Name must not be empty".toList)
    else .ok ((key, value), rest)

/-- The entry starting at `line`; whichever of `=` and `<<` comes first decides between the plain
    and the heredoc form.  Both names are prefixes of the line, so that the shorter one is the one
    of fewer characters as well as of fewer bytes. -/
def parseEntry (line : Str) (rest : List (Line Char)) :
    Except Str ((Str × Str) × List (Line Char)) :=
  let plain := splitFirst ['='] line
  match splitFirst ['<', '<'] line with
  | some (key, delimiter) =>
    if plain.all fun p => key.length < p.1.length then parseHeredoc line key delimiter rest
    else parsePlain line rest plain
  | none => parsePlain line rest plain

/-- The loop over the lines; every round takes at least one. -/
def readPairs : ℕ → List (Line Char) → Pairs → KvFile
  | 0, _, pairs => ⟨pairs, none⟩
  | _ + 1, [], pairs => ⟨pairs, none⟩
  | fuel + 1, (line, _) :: rest, pairs =>
    if line = [] then readPairs fuel rest pairs
    else
      match parseEntry line rest with
      | .error message => ⟨pairs, some message⟩
      | .ok ((key, value), rest) => readPairs fuel rest (pairs.insert key value)

/-- Lines end at LF only. -/
def parseKvFile (content : Str) : KvFile :=
  readPairs (lines '\n' content).length (lines '\n' content) ∅

/-! ### What a finished step's files come to -/

/-- Strip what the runner refuses to propagate, and say how many entries that were. -/
def stripBlockedEnv (env : Pairs) : Pairs × ℕ :=
  let kept := env.retain fun key _ => asciiLower key ≠ "node_options".toList
  (kept, env.keys.card - kept.keys.card)

/-- The lines of a file of directories, without carriage returns at their ends and without the empty
    ones. -/
def parsePathFile (content : Str) : List Str :=
  ((lines '\n' content).map fun l => l.1.rdropWhile (· = '\r')).filter (· ≠ [])

/-- One file command that could not be processed. -/
structure FileCommandFailure where
  command : Str
  message : Str
deriving DecidableEq, Repr

structure FileCommandResults where
  envVars : Pairs
  outputs : Pairs
  pathAdditions : List Str
  state : Pairs
  failures : List FileCommandFailure
  blockedEnv : ℕ

/-- One file of entries as it was read, with the failure it is reported as: the pairs before an error
    are kept. -/
def parseKvCommand (command : Str) : Except Str Str → Pairs × List FileCommandFailure
  | .error message => (∅, [⟨command, message⟩])
  | .ok content =>
    let file := parseKvFile content
    (file.pairs, (file.error.map fun message => ⟨command, message⟩).toList)

def parsePathCommand : Except Str Str → List Str × List FileCommandFailure
  | .error message => ([], [⟨"path".toList, message⟩])
  | .ok content => (parsePathFile content, [])

/-- The files as they were read; one that is malformed or could not be read costs no other. -/
def process (path env state output : Except Str Str) : FileCommandResults :=
  let (pathAdditions, pathFailures) := parsePathCommand path
  let (envVars, envFailures) := parseKvCommand "env".toList env
  let (kept, blocked) := stripBlockedEnv envVars
  let (stateVars, stateFailures) := parseKvCommand "state".toList state
  let (outputs, outputFailures) := parseKvCommand "output".toList output
  { envVars := kept
    outputs := outputs
    pathAdditions := pathAdditions
    state := stateVars
    failures := pathFailures ++ (envFailures ++ (stateFailures ++ outputFailures))
    blockedEnv := blocked }

/-! ### What an entry takes -/

section Entry

variable {delimiter line key value : Str} {ls rest : List (Line Char)}

/-- A heredoc takes its delimiter line and what stands before it, whatever follows. -/
theorem heredocLines_append {body : List Str} (h : heredocLines delimiter ls = .ok (body, rest))
    (more : List (Line Char)) :
    heredocLines delimiter (ls ++ more) = .ok (body, rest ++ more) ∧ rest.length < ls.length := by
  induction ls generalizing body with
  | nil => cases h
  | cons l ls ih =>
    obtain ⟨next, ended⟩ := l
    rw [heredocLines] at h
    rw [List.cons_append, heredocLines, List.length_cons]
    split at h
    case isTrue hnext =>
      obtain ⟨rfl, rfl⟩ := Prod.mk.inj (Except.ok.inj h)
      rw [if_pos hnext]
      exact ⟨rfl, Nat.lt_succ_self _⟩
    case isFalse hnext =>
      rw [if_neg hnext]
      split at h
      case isTrue => cases h
      case isFalse hended =>
        rw [if_neg hended]
        cases hrest : heredocLines delimiter ls with
        | error message =>
          rw [hrest] at h
          cases h
        | ok read =>
          obtain ⟨body', rest'⟩ := read
          rw [hrest] at h
          obtain ⟨rfl, rfl⟩ := Prod.mk.inj (Except.ok.inj h)
          obtain ⟨hmore, hlen⟩ := ih hrest
          rw [hmore]
          exact ⟨rfl, by omega⟩

theorem parsePlain_append {plain : Option (Str × Str)} {entry : Str × Str}
    (h : parsePlain line ls plain = .ok (entry, rest)) (more : List (Line Char)) :
    parsePlain line (ls ++ more) plain = .ok (entry, rest ++ more) ∧ rest = ls := by
  unfold parsePlain at h ⊢
  split at h
  case h_1 => cases h
  case h_2 =>
    split at h
    case isTrue => cases h
    case isFalse hkey =>
      obtain ⟨rfl, rfl⟩ := Prod.mk.inj (Except.ok.inj h)
      exact ⟨if_neg hkey, rfl⟩

theorem parseHeredoc_append {entry : Str × Str}
    (h : parseHeredoc line key delimiter ls = .ok (entry, rest)) (more : List (Line Char)) :
    parseHeredoc line key delimiter (ls ++ more) = .ok (entry, rest ++ more) ∧
      rest.length < ls.length := by
  unfold parseHeredoc at h ⊢
  split at h
  case isTrue => cases h
  case isFalse hempty =>
    rw [if_neg hempty]
    cases hread : heredocLines delimiter ls with
    | error message =>
      rw [hread] at h
      cases h
    | ok read =>
      obtain ⟨body, rest'⟩ := read
      rw [hread] at h
      obtain ⟨rfl, rfl⟩ := Prod.mk.inj (Except.ok.inj h)
      obtain ⟨hmore, hlen⟩ := heredocLines_append hread more
      rw [hmore]
      exact ⟨rfl, hlen⟩

/-- An entry that is read is read the same whatever follows it. -/
theorem parseEntry_append {entry : Str × Str} (h : parseEntry line ls = .ok (entry, rest))
    (more : List (Line Char)) :
    parseEntry line (ls ++ more) = .ok (entry, rest ++ more) ∧ rest.length ≤ ls.length := by
  unfold parseEntry at h ⊢
  dsimp only at h ⊢
  split at h
  case h_1 key delimiter hsplit =>
    split at h
    case isTrue hfirst =>
      obtain ⟨hmore, hlen⟩ := parseHeredoc_append h more
      rw [if_pos hfirst]
      exact ⟨hmore, hlen.le⟩
    case isFalse hfirst =>
      obtain ⟨hmore, rfl⟩ := parsePlain_append h more
      rw [if_neg hfirst]
      exact ⟨hmore, le_rfl⟩
  case h_2 hsplit =>
    obtain ⟨hmore, rfl⟩ := parsePlain_append h more
    exact ⟨hmore, le_rfl⟩

end Entry

/-! ### What a file of entries comes to -/

section Pairs

variable {ls : List (Line Char)} {pairs : Pairs}

theorem readPairs_fuel {fuel fuel' : ℕ} (hfuel : ls.length ≤ fuel) (hfuel' : ls.length ≤ fuel') :
    readPairs fuel ls pairs = readPairs fuel' ls pairs := by
  induction fuel generalizing fuel' ls pairs with
  | zero =>
    rw [List.eq_nil_of_length_eq_zero (Nat.le_zero.mp hfuel)]
    cases fuel' <;> rfl
  | succ fuel ih =>
    cases ls with
    | nil => cases fuel' <;> rfl
    | cons l ls =>
      rw [List.length_cons] at hfuel hfuel'
      obtain ⟨fuel', rfl⟩ : ∃ k, fuel' = k + 1 := ⟨fuel' - 1, by omega⟩
      rw [readPairs, readPairs]
      split
      case isTrue => exact ih (by omega) (by omega)
      case isFalse =>
        cases hentry : parseEntry l.1 ls with
        | error message => rfl
        | ok read =>
          have hlen := (parseEntry_append hentry []).2
          exact ih (by omega) (by omega)

/-- What was read before is only overridden, and changes no error. -/
theorem readPairs_union (fuel : ℕ) (ls : List (Line Char)) (pairs earlier : Pairs) :
    readPairs fuel ls (pairs ∪ earlier) =
      ⟨(readPairs fuel ls pairs).pairs ∪ earlier, (readPairs fuel ls pairs).error⟩ := by
  induction fuel generalizing ls pairs with
  | zero => rfl
  | succ fuel ih =>
    cases ls with
    | nil => rfl
    | cons l ls =>
      rw [readPairs, readPairs]
      split
      case isTrue => exact ih ls pairs
      case isFalse =>
        cases hentry : parseEntry l.1 ls with
        | error message => rfl
        | ok read =>
          show readPairs fuel read.2 ((pairs ∪ earlier).insert read.1.1 read.1.2) = _
          rw [Finmap.insert_union]
          exact ih read.2 _

/-- What is read of lines behind complete entries does not depend on them. -/
theorem readPairs_append {fuel : ℕ} (hfuel : ls.length ≤ fuel)
    (hok : (readPairs fuel ls pairs).error = none) (more : List (Line Char)) :
    readPairs (fuel + more.length) (ls ++ more) pairs =
      readPairs more.length more (readPairs fuel ls pairs).pairs := by
  induction fuel generalizing ls pairs with
  | zero =>
    rw [List.eq_nil_of_length_eq_zero (Nat.le_zero.mp hfuel)]
    exact readPairs_fuel (by simp) (by simp)
  | succ fuel ih =>
    cases ls with
    | nil => exact readPairs_fuel (by simp) (by simp)
    | cons l ls =>
      rw [List.length_cons] at hfuel
      rw [readPairs] at hok
      rw [Nat.add_right_comm, List.cons_append, readPairs, readPairs]
      split at hok
      case isTrue hempty =>
        rw [if_pos hempty, if_pos hempty]
        exact ih (by omega) hok
      case isFalse hempty =>
        rw [if_neg hempty, if_neg hempty]
        cases hentry : parseEntry l.1 ls with
        | error message =>
          rw [hentry] at hok
          cases hok
        | ok read =>
          obtain ⟨⟨key, value⟩, rest⟩ := read
          rw [hentry] at hok
          obtain ⟨hmore, hlen⟩ := parseEntry_append hentry more
          rw [hmore]
          exact ih (by omega) hok

theorem parseKvFile_eq (content : Str) {fuel : ℕ} (hfuel : (lines '\n' content).length ≤ fuel) :
    parseKvFile content = readPairs fuel (lines '\n' content) ∅ := readPairs_fuel le_rfl hfuel

/-- Behind complete entries, a file of entries is read as it is alone. -/
theorem parseKvFile_append {a b : Str} (ha : Closed '\n' a) (hok : (parseKvFile a).error = none) :
    parseKvFile (a ++ b) =
      ⟨(parseKvFile b).pairs ∪ (parseKvFile a).pairs, (parseKvFile b).error⟩ := by
  have hlines := lines_append ha b
  have hfuel : (lines '\n' (a ++ b)).length ≤ (lines '\n' a).length + (lines '\n' b).length := by
    rw [hlines, List.length_append]
  rw [parseKvFile_eq _ hfuel, hlines, readPairs_append le_rfl hok]
  have hunion := readPairs_union (lines '\n' b).length (lines '\n' b) ∅ (parseKvFile a).pairs
  rwa [Finmap.empty_union] at hunion

/-- **File commands are a homomorphism over appends.** Behind a content that is empty or ends in a
    line feed, and that parses without error, any other content is parsed as it is alone: each name
    has the value it was given last, and the error is the one of the second content. -/
theorem parse_kv_append (a b : Str) (ha : a = [] ∨ a.getLast? = some '\n')
    (hok : (parseKvFile a).error = none) :
    (∀ key, (parseKvFile (a ++ b)).pairs.lookup key =
      ((parseKvFile b).pairs.lookup key).or ((parseKvFile a).pairs.lookup key)) ∧
      (parseKvFile (a ++ b)).error = (parseKvFile b).error := by
  rw [parseKvFile_append ha hok]
  exact ⟨fun key => Finmap.lookup_union key _ _, rfl⟩

/-- A plain entry, and behind it the same name as a heredoc that is never closed. -/
theorem parse_kv_append_open_heredoc :
    (parseKvFile ("A=1\n".toList ++ "B=2\nA<<E\n".toList)).pairs.lookup ['A'] = some ['1'] ∧
      (parseKvFile ("A=1\n".toList ++ "B=2\nA<<E\n".toList)).error =
        some "Invalid value. Matching delimiter not found 'E'".toList := by
  obtain ⟨hpairs, herror⟩ :=
    parse_kv_append "A=1\n".toList "B=2\nA<<E\n".toList (by decide) (by decide)
  rw [hpairs, herror]
  decide

end Pairs

/-! ### Heredocs -/

/-- A name, a value and a delimiter that is no line of the value. -/
structure Heredoc where
  key : Str
  value : Str
  delimiter : Str
  key_ne : key ≠ []
  key_plain : '=' ∉ key ∧ '<' ∉ key ∧ '\n' ∉ key
  delimiter_ne : delimiter ≠ []
  delimiter_line : '\n' ∉ delimiter
  delimiter_fresh : delimiter ∉ value.splitOn '\n'

namespace Heredoc

variable (h : Heredoc)

/-- The line that opens it. -/
def opening : Str := h.key ++ (['<', '<'] ++ h.delimiter)

def text : Str := h.opening ++ '\n' :: (h.value ++ '\n' :: (h.delimiter ++ ['\n']))

/-- The lines below the opening one. -/
def body : List (Line Char) := (h.value.splitOn '\n').map (fun l => (l, true)) ++ [(h.delimiter, true)]

theorem lines_text : lines '\n' h.text = (h.opening, true) :: h.body := by
  have hopening : '\n' ∉ h.opening := by
    simp only [opening, List.mem_append, not_or]
    exact ⟨h.key_plain.2.2, by decide, h.delimiter_line⟩
  have hpieces : ∀ l ∈ h.value.splitOn '\n', '\n' ∉ l := fun l hl => notMem_of_mem_splitOn hl
  rw [text, lines_cons_line hopening]
  have hvalue : ['\n'].intercalate (h.value.splitOn '\n') = h.value := List.intercalate_splitOn _
  nth_rewrite 1 [← hvalue]
  rw [lines_join hpieces (List.splitOn_ne_nil _ _), lines_cons_line h.delimiter_line]
  rfl

/-- The heredoc form is recognised, whatever signs the delimiter begins with. -/
theorem parseEntry_opening (rest : List (Line Char)) :
    parseEntry h.opening rest = parseHeredoc h.opening h.key h.delimiter rest := by
  have hsplit : splitFirst ['<', '<'] h.opening = some (h.key, h.delimiter) :=
    splitFirst_of_notMem h.key_plain.2.1 ['<'] h.delimiter
  have hplain : ((splitFirst ['='] h.opening).all fun p => h.key.length < p.1.length) = true := by
    cases hp : splitFirst ['='] h.opening with
    | none => rfl
    | some p =>
      rw [Option.all_some, decide_eq_true_eq]
      by_contra hlt
      -- an equals sign that stood no later than the key's end would be one of its characters
      have hopening : h.opening = p.1 ++ (['='] ++ p.2) := splitFirst_eq_some hp
      have hkey : (p.1 ++ ['=']) <+: h.key ++ ['<'] := by
        have hsign : (p.1 ++ ['=']) <+: h.opening := ⟨p.2, by rw [hopening, List.append_assoc]⟩
        have hname : h.key ++ ['<'] <+: h.opening := ⟨'<' :: h.delimiter, by simp [opening]⟩
        exact List.prefix_of_prefix_length_le hsign hname (by simp; omega)
      have hmem : '=' ∈ h.key ++ ['<'] := hkey.subset (by simp)
      rcases List.mem_append.mp hmem with hmem | hmem
      · exact h.key_plain.1 hmem
      · exact absurd hmem (by decide)
  unfold parseEntry
  dsimp only
  rw [hsplit]
  exact if_pos hplain

theorem heredocLines_body {delimiter : Str} {ls : List Str} (hls : delimiter ∉ ls) :
    heredocLines delimiter (ls.map (fun l => (l, true)) ++ [(delimiter, true)]) = .ok (ls, []) := by
  induction ls with
  | nil => exact if_pos rfl
  | cons l ls ih =>
    rw [List.mem_cons, not_or] at hls
    rw [List.map_cons, List.cons_append, heredocLines, if_neg (Ne.symm hls.1),
      if_neg (by decide), ih hls.2]

/-- A heredoc alone is read as its name and its value. -/
theorem parseKvFile_text : parseKvFile h.text = ⟨Finmap.insert h.key h.value ∅, none⟩ := by
  have hentry : parseEntry h.opening h.body = .ok ((h.key, h.value), []) := by
    rw [parseEntry_opening, parseHeredoc, if_neg (by simp [h.key_ne, h.delimiter_ne]), body,
      heredocLines_body h.delimiter_fresh]
    show Except.ok ((h.key, _), _) = _
    rw [List.intercalate_splitOn]
  have hne : h.opening ≠ [] := by simp [opening]
  rw [parseKvFile, lines_text, List.length_cons, readPairs, if_neg hne, hentry]
  cases h.body.length <;> rfl

end Heredoc

/-- The last value given to each name. -/
def lastWins (entries : List Heredoc) : Pairs :=
  entries.foldl (fun pairs h => pairs.insert h.key h.value) ∅

theorem foldl_insert_union (entries : List Heredoc) (pairs : Pairs) :
    entries.foldl (fun pairs h => pairs.insert h.key h.value) pairs = lastWins entries ∪ pairs := by
  induction entries using List.reverseRecOn with
  | nil => exact Finmap.empty_union.symm
  | append_singleton entries h ih =>
    rw [lastWins, List.foldl_concat, List.foldl_concat, ih, Finmap.insert_union]
    rfl

/-- **Heredocs round-trip.** Parsing heredocs, one after another, succeeds and yields exactly the last
    value written under each name: nothing that a value contains can add, drop or rename one. -/
theorem heredocs_round_trip (entries : List Heredoc) :
    parseKvFile (entries.flatMap Heredoc.text) = ⟨lastWins entries, none⟩ := by
  induction entries with
  | nil => rfl
  | cons h entries ih =>
    have hclosed : Closed '\n' h.text := by
      have htext : h.text = (h.opening ++ '\n' :: (h.value ++ '\n' :: h.delimiter)) ++ ['\n'] := by
        simp [Heredoc.text]
      rw [htext]
      exact closed_append_sep _
    rw [List.flatMap_cons, parseKvFile_append hclosed (by rw [h.parseKvFile_text]), ih,
      h.parseKvFile_text]
    exact congrArg (KvFile.mk · none) (foldl_insert_union entries _).symm

end GhRunner.Execution
