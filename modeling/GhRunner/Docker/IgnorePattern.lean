import GhRunner.Lib.Descent
import GhRunner.Lib.Text
import Mathlib.Data.List.DropRight

namespace GhRunner.Docker

open Text

/-!
# Patterns of a Docker ignore file

How a pattern is compiled, and what it matches (`crates/execution/src/docker/action_archive.rs`).

* `Piece`, `append` — the compiler: what each part of a pattern adds to a regular expression;
* `Regexes` — the library for these, and `ReadsLiterals`, what is relied on;
* `Pattern.compile`, `Pattern.hits` — a pattern and the paths it matches;
* `Pattern.mayMatchDescendant` — whether it could match below a directory;
* `mayMatchDescendant_of_hits` — where it does match there, it could.
-/

inductive ContextError
  | illegalExclusion
  | badPattern
  | regex
deriving DecidableEq, Repr

/-! ### The compiler -/

/-- A character of a class, and whether it was escaped. -/
abbrev ClassCharacter := Char × Bool

structure ClassRange where
  low : ClassCharacter
  high : Option ClassCharacter
deriving DecidableEq, Repr

/-- What is pushed to the regular expression at a time. -/
inductive Piece
  | literal (character : Char)
  | star
  | question
  | directories
  | everything
  | characters (negated : Bool) (ranges : List ClassRange)
deriving DecidableEq, Repr

/-- `PatternCompiler`, without the characters that are left. -/
structure Compiled where
  regex : List Piece
  wildcard : Bool
  starts : Bool
  ends : Bool
  position : ℕ
deriving DecidableEq, Repr

def Compiled.push (s : Compiled) (piece : Piece) : Compiled := { s with regex := s.regex ++ [piece] }

def classCharacter : Str → Except ContextError (ClassCharacter × Str)
  | [] => .error .badPattern
  | c :: chars =>
    if c = '-' ∨ c = ']' then .error .badPattern
    else if c = '\\' then
      match chars with
      | [] => .error .badPattern
      | escaped :: chars => .ok ((escaped, true), chars)
    else .ok ((c, false), chars)

theorem classCharacter_length {chars rest : Str} {c : ClassCharacter}
    (h : classCharacter chars = .ok (c, rest)) : rest.length < chars.length := by
  unfold classCharacter at h
  split at h
  · cases h
  · split at h
    · cases h
    · split at h
      · split at h
        · cases h
        · cases h
          simp only [List.length_cons]
          omega
      · cases h
        simp only [List.length_cons]
        omega

/-- The ranges up to the closing bracket; one that comes first does not close. -/
def classRanges (chars : Str) (ranges : List ClassRange) :
    Except ContextError (List ClassRange × Str) :=
  if chars.head? = some ']' ∧ ranges ≠ [] then .ok (ranges, chars.tail)
  else
    match _hlow : classCharacter chars with
    | .error e => .error e
    | .ok (low, rest) =>
      if rest.head? = some '-' then
        match _hhigh : classCharacter rest.tail with
        | .error e => .error e
        | .ok (high, rest) => classRanges rest (ranges ++ [⟨low, some high⟩])
      else classRanges rest (ranges ++ [⟨low, none⟩])
termination_by chars.length
decreasing_by
  · have hlow := classCharacter_length _hlow
    have hhigh := classCharacter_length _hhigh
    rw [List.length_tail] at hhigh
    omega
  · exact classCharacter_length _hlow

theorem classRanges_length (chars : Str) (ranges : List ClassRange) {ranges' : List ClassRange}
    {rest : Str} (h : classRanges chars ranges = .ok (ranges', rest)) :
    rest.length ≤ chars.length := by
  fun_induction classRanges chars ranges with
  | case1 chars ranges hclose =>
    cases h
    rw [List.length_tail]
    omega
  | case2 => cases h
  | case3 => cases h
  | case4 chars ranges _ low rest₁ hlow _ high rest₂ hhigh ih =>
    have := ih h
    have hlow := classCharacter_length hlow
    have hhigh := classCharacter_length hhigh
    rw [List.length_tail] at hhigh
    omega
  | case5 chars ranges _ low rest₁ hlow _ ih =>
    have := ih h
    have hlow := classCharacter_length hlow
    omega

def appendClass (chars : Str) (s : Compiled) : Except ContextError (Compiled × Str) :=
  let negated := chars.head? = some '^'
  (classRanges (if negated then chars.tail else chars) []).map fun parsed =>
    ({ s.push (.characters negated parsed.1) with wildcard := true, ends := false }, parsed.2)

def appendEscape : Str → Compiled → Except ContextError (Compiled × Str)
  | [], _ => .error .badPattern
  | next :: chars, s => .ok ({ s.push (.literal next) with wildcard := true, ends := false }, chars)

/-- What two stars are, at the end of a pattern and before it. -/
def Compiled.doubleStar (s : Compiled) (last : Bool) : Compiled :=
  if last then
    if s.wildcard then s.push .everything else { s with starts := true }
  else { s.push .directories with wildcard := true }

/-- After the second star. -/
def appendDoubleStar (chars : Str) (s : Compiled) : Compiled × Str :=
  let chars := if chars.head? = some '/' then chars.tail else chars
  ({ s.doubleStar (chars = []) with ends := s.position = 0 }, chars)

def append (character : Char) (chars : Str) (s : Compiled) : Except ContextError (Compiled × Str) :=
  if character = '*' then
    if chars.head? = some '*' then .ok (appendDoubleStar chars.tail s)
    else .ok ({ s.push .star with wildcard := true, ends := false }, chars)
  else if character = '?' then .ok ({ s.push .question with wildcard := true, ends := false }, chars)
  else if character = '\\' then appendEscape chars s
  else if character = '[' then appendClass chars s
  else .ok (s.push (.literal character), chars)

theorem append_length {character : Char} {chars rest : Str} {s s' : Compiled}
    (h : append character chars s = .ok (s', rest)) : rest.length ≤ chars.length := by
  unfold append at h
  split_ifs at h
  · have hrest := congrArg (fun parsed : Compiled × Str => parsed.2.length) (Except.ok.inj h)
    simp only [appendDoubleStar] at hrest
    rw [← hrest]
    split
    · rw [List.length_tail, List.length_tail]
      omega
    · rw [List.length_tail]
      omega
  · cases h
    rfl
  · cases h
    rfl
  · cases chars with
    | nil => cases h
    | cons next chars =>
      cases h
      simp
  · unfold appendClass at h
    cases hranges : classRanges (if chars.head? = some '^' then chars.tail else chars) [] with
    | error e =>
      simp only [hranges] at h
      cases h
    | ok parsed =>
      simp only [hranges] at h
      cases h
      have hlength := classRanges_length _ _ hranges
      split at hlength
      · rw [List.length_tail] at hlength
        omega
      · exact hlength
  · cases h
    rfl

/-- The loop of `PatternCompiler::compile`. -/
def compileLoop (chars : Str) (s : Compiled) : Except ContextError Compiled :=
  match chars with
  | [] => .ok s
  | character :: chars =>
    match _h : append character chars s with
    | .error e => .error e
    | .ok (s, rest) => compileLoop rest { s with position := s.position + 1 }
termination_by chars.length
decreasing_by
  have := append_length _h
  simp only [List.length_cons]
  omega

def compile (pattern : Str) : Except ContextError Compiled :=
  compileLoop pattern ⟨[], false, false, false, 0⟩

/-! ### The regular expression -/

/-- `regex::escape` of a character, and `Regex::new`: whether a text is matched, if the expression is
    one. -/
structure Regexes where
  escape : Char → Str
  new : Str → Option (Str → Bool)

section Text

variable (regexes : Regexes)

/-- `append_class_character`. -/
def classCharacterText (character : ClassCharacter) : Str :=
  if character.2 then regexes.escape character.1
  else if character.1 ∈ ['[', ']', '\\', '&', '~', '^'] then ['\\', character.1]
  else [character.1]

def ClassRange.text (range : ClassRange) : Str :=
  classCharacterText regexes range.low ++
    range.high.elim [] fun high => '-' :: classCharacterText regexes high

def Piece.text : Piece → Str
  | .literal character => regexes.escape character
  | .star => "[^/]*".toList
  | .question => "[^/]".toList
  | .directories => "(.*/)?".toList
  | .everything => ".*".toList
  | .characters negated ranges =>
    '[' :: (if negated then ['^'] else []) ++ ranges.flatMap (ClassRange.text regexes) ++ [']']

def regexText (pieces : List Piece) : Str := '^' :: pieces.flatMap (Piece.text regexes) ++ ['$']

/-- An expression that is anchored at both ends and begins with characters that stand for themselves,
    none of them repeated, only matches texts that begin with these. -/
def Regexes.ReadsLiterals : Prop :=
  ∀ (literals : Str) (pieces : List Piece) (isMatch : Str → Bool) (path : Str),
    regexes.new (regexText regexes (literals.map .literal ++ pieces)) = some isMatch →
    isMatch path = true → literals <+: path

end Text

/-! ### Patterns -/

inductive PatternMatch
  | exact (pattern : Str)
  | starts (front : Str)
  | ends (back : Str)
  | regex (isMatch : Str → Bool)

def compileMatch (regexes : Regexes) (pattern : Str) : Except ContextError PatternMatch :=
  (compile pattern).bind fun compiled =>
    if compiled.ends then
      .ok (.ends (if "**".toList.isPrefixOf pattern then pattern.drop 2 else pattern))
    else if compiled.starts then
      .ok (.starts (if "**".toList.isSuffixOf pattern then pattern.take (pattern.length - 2)
        else pattern))
    else if !compiled.wildcard then .ok (.exact pattern)
    else
      (regexes.new (regexText regexes compiled.regex)).elim (.error .regex) fun isMatch =>
        .ok (.regex isMatch)

/-- The characters before the first wildcard, without the backslashes before them. -/
def leadingLiterals : Str → Str
  | [] => []
  | character :: chars =>
    if character = '*' ∨ character = '?' ∨ character = '[' then []
    else if character = '\\' then
      match chars with
      | [] => []
      | escaped :: chars => escaped :: leadingLiterals chars
    else character :: leadingLiterals chars

def literalPrefix (pattern : Str) : Str := (leadingLiterals pattern).rdropWhile (· = '/')

structure Pattern where
  exclusion : Bool
  literalPrefix : Str
  matcher : PatternMatch

namespace Pattern

def compile (regexes : Regexes) (pattern : Str) (exclusion : Bool) : Except ContextError Pattern :=
  (compileMatch regexes pattern).map fun matcher => ⟨exclusion, Docker.literalPrefix pattern, matcher⟩

/-- `matches`. -/
def hits (p : Pattern) (path : Str) : Bool :=
  match p.matcher with
  | .exact pattern => path = pattern
  | .starts front => front.isPrefixOf path
  | .ends back => back.isSuffixOf path || (back.head? = some '/' && path = back.tail)
  | .regex isMatch => isMatch path

def mayMatchDescendant (p : Pattern) (directory : Str) : Bool :=
  p.literalPrefix = [] || p.literalPrefix = directory ||
    (directory.isPrefixOf? p.literalPrefix).any (fun remainder => remainder.head? = some '/') ||
    p.literalPrefix.isPrefixOf directory

end Pattern

/-! ### What the compiler keeps of a pattern -/

section Compiler

variable {chars rest : Str} {character : Char} {s s' : Compiled}

/-- The characters at which the literals of a pattern end. -/
def Special (character : Char) : Prop := character = '*' ∨ character = '?' ∨ character = '['

theorem leadingLiterals_special (h : Special character) :
    leadingLiterals (character :: chars) = [] := by
  rw [leadingLiterals.eq_def]
  exact if_pos h

theorem leadingLiterals_escape (escaped : Char) :
    leadingLiterals ('\\' :: escaped :: chars) = escaped :: leadingLiterals chars := by
  rw [leadingLiterals.eq_def]
  rfl

theorem leadingLiterals_plain (h : ¬ Special character)
    (hescape : character ≠ '\\') :
    leadingLiterals (character :: chars) = character :: leadingLiterals chars := by
  rw [leadingLiterals.eq_def]
  exact (if_neg h).trans (if_neg hescape)

/-- What is known of a turn at one of these, which leaves these characters. -/
structure Extends (character : Char) (rest : Str) (s s' : Compiled) : Prop where
  regex : ∃ pieces, s'.regex = s.regex ++ pieces
  wildcard : s.wildcard = true → s'.wildcard = true
  ends : s'.ends = true → s.position = 0 ∧ character = '*'
  starts : s'.starts = true → s.starts = true ∨ rest = [] ∧ s'.wildcard = false
  position : s'.position = s.position

theorem appendDoubleStar_extends (chars : Str) (s : Compiled) :
    Extends '*' (appendDoubleStar chars s).2 s (appendDoubleStar chars s).1 := by
  have hstar : ∀ last : Bool, (∃ pieces, (s.doubleStar last).regex = s.regex ++ pieces) ∧
      (s.wildcard = true → (s.doubleStar last).wildcard = true) ∧
      ((s.doubleStar last).starts = true →
        s.starts = true ∨ last = true ∧ (s.doubleStar last).wildcard = false) ∧
      (s.doubleStar last).position = s.position := by
    intro last
    unfold Compiled.doubleStar
    split_ifs with hlast hwildcard
    · exact ⟨⟨_, rfl⟩, id, Or.inl, rfl⟩
    · exact ⟨⟨[], (List.append_nil _).symm⟩, id, fun _ => Or.inr ⟨hlast, by simpa using hwildcard⟩, rfl⟩
    · exact ⟨⟨_, rfl⟩, fun _ => rfl, Or.inl, rfl⟩
  obtain ⟨hregex, hwildcard, hstarts, hposition⟩ := hstar _
  refine ⟨hregex, hwildcard, fun h => ⟨of_decide_eq_true h, rfl⟩, fun h => ?_, hposition⟩
  exact (hstarts h).imp_right fun hend => ⟨of_decide_eq_true hend.1, hend.2⟩

/-- A turn ends the literals, or takes one of them with or without a backslash. -/
theorem append_cases (h : append character chars s = .ok (s', rest)) :
    (Special character ∧ Extends character rest s s') ∨
    (∃ next, character = '\\' ∧ chars = next :: rest ∧
      s' = { s.push (.literal next) with wildcard := true, ends := false }) ∨
    (¬ Special character ∧ character ≠ '\\' ∧ chars = rest ∧ s' = s.push (.literal character)) := by
  unfold append at h
  split_ifs at h with hstar hdouble hquestion hescape hclass
  · have hextends := appendDoubleStar_extends chars.tail s
    rw [Except.ok.inj h] at hextends
    exact Or.inl ⟨Or.inl hstar, hstar ▸ hextends⟩
  · cases h
    exact Or.inl ⟨Or.inl hstar, ⟨_, rfl⟩, fun _ => rfl, fun h => (Bool.false_ne_true h).elim, Or.inl, rfl⟩
  · cases h
    exact Or.inl ⟨Or.inr (Or.inl hquestion), ⟨_, rfl⟩, fun _ => rfl,
      fun h => (Bool.false_ne_true h).elim, Or.inl, rfl⟩
  · cases chars with
    | nil => cases h
    | cons next chars =>
      cases h
      exact Or.inr (Or.inl ⟨next, hescape, rfl, rfl⟩)
  · obtain ⟨parsed, -, heq⟩ := Descent.map_eq_ok.mp h
    cases heq
    exact Or.inl ⟨Or.inr (Or.inr hclass), ⟨_, rfl⟩, fun _ => rfl,
      fun h => (Bool.false_ne_true h).elim, Or.inl, rfl⟩
  · cases h
    exact Or.inr (Or.inr ⟨by simp [Special, hstar, hquestion, hclass], hescape, rfl, rfl⟩)

theorem compileLoop_wildcard (h : compileLoop chars s = .ok s') (hs : s.wildcard = true) :
    s'.wildcard = true := by
  fun_induction compileLoop chars s with
  | case1 s =>
    cases h
    exact hs
  | case2 => cases h
  | case3 s character chars s₁ rest hturn ih =>
    refine ih h ?_
    show s₁.wildcard = true
    rcases append_cases hturn with ⟨-, hextends⟩ | ⟨_, -, -, rfl⟩ | ⟨-, -, -, rfl⟩
    · exact hextends.wildcard hs
    · rfl
    · exact hs

/-- Two stars only stand for all that follows where nothing is a wildcard. -/
theorem compileLoop_starts (h : compileLoop chars s = .ok s') (hs : s.starts = false)
    (hstarts : s'.starts = true) : s'.wildcard = false := by
  fun_induction compileLoop chars s with
  | case1 s =>
    cases h
    rw [hs] at hstarts
    cases hstarts
  | case2 => cases h
  | case3 s character chars s₁ rest hturn ih =>
    cases hs₁ : s₁.starts with
    | false => exact ih h hs₁
    | true =>
      rcases append_cases hturn with ⟨-, hextends⟩ | ⟨next, -, -, rfl⟩ | ⟨-, -, -, rfl⟩
      · rcases hextends.starts hs₁ with hold | ⟨rfl, hwildcard⟩
        · rw [hs] at hold
          cases hold
        · -- nothing is left after these stars
          rw [compileLoop] at h
          cases h
          exact hwildcard
      · change s.starts = true at hs₁
        rw [hs] at hs₁
        cases hs₁
      · change s.starts = true at hs₁
        rw [hs] at hs₁
        cases hs₁

/-- The expression begins with what was pushed before and the literals. -/
theorem compileLoop_regex (h : compileLoop chars s = .ok s') :
    ∃ pieces, s'.regex = s.regex ++ (leadingLiterals chars).map .literal ++ pieces := by
  fun_induction compileLoop chars s with
  | case1 s =>
    cases h
    exact ⟨[], by simp [leadingLiterals]⟩
  | case2 => cases h
  | case3 s character chars s₁ rest hturn ih =>
    obtain ⟨pieces, hpieces⟩ := ih h
    rw [hpieces]
    show ∃ pieces', s₁.regex ++ _ ++ pieces = _
    rcases append_cases hturn with ⟨hspecial, hextends⟩ | ⟨next, rfl, rfl, rfl⟩ | ⟨hplain, hescape, rfl, rfl⟩
    · -- the literals end here
      obtain ⟨pieces', hpush⟩ := hextends.regex
      rw [leadingLiterals_special hspecial, hpush]
      exact ⟨pieces' ++ ((leadingLiterals rest).map .literal ++ pieces), by simp⟩
    · rw [leadingLiterals_escape]
      exact ⟨pieces, by simp [Compiled.push]⟩
    · rw [leadingLiterals_plain hplain hescape]
      exact ⟨pieces, by simp [Compiled.push]⟩

/-- Without a wildcard and without a backslash the literals are the pattern up to a double star. -/
theorem compileLoop_plain (h : compileLoop chars s = .ok s') (hwildcard : s'.wildcard = false) :
    leadingLiterals chars <+: chars ∧ '*' ∉ leadingLiterals chars := by
  fun_induction compileLoop chars s with
  | case1 s => exact ⟨List.prefix_rfl, List.not_mem_nil⟩
  | case2 => cases h
  | case3 s character chars s₁ rest hturn ih =>
    rcases append_cases hturn with ⟨hspecial, -⟩ | ⟨next, -, -, rfl⟩ | ⟨hplain, hescape, rfl, rfl⟩
    · rw [leadingLiterals_special hspecial]
      exact ⟨List.nil_prefix, List.not_mem_nil⟩
    · -- a backslash makes a wildcard of the pattern
      rw [compileLoop_wildcard h rfl] at hwildcard
      cases hwildcard
    · obtain ⟨hfront, hstar⟩ := ih h
      rw [leadingLiterals_plain hplain hescape]
      refine ⟨(List.prefix_cons_inj _).mpr hfront, fun hmem => ?_⟩
      rcases List.mem_cons.mp hmem with rfl | hmem
      · exact hplain (Or.inl rfl)
      · exact hstar hmem

theorem compileLoop_ends (h : compileLoop chars s = .ok s') (hends : s'.ends = true) :
    s.ends = true ∨ s.position = 0 ∧ chars.head? = some '*' := by
  fun_induction compileLoop chars s with
  | case1 s =>
    cases h
    exact Or.inl hends
  | case2 => cases h
  | case3 s character chars s₁ rest hturn ih =>
    have hs₁ : s₁.ends = true := by
      rcases ih h with hs₁ | ⟨hposition, -⟩
      · exact hs₁
      · exact absurd hposition (Nat.succ_ne_zero _)
    rcases append_cases hturn with ⟨-, hextends⟩ | ⟨next, -, -, rfl⟩ | ⟨-, -, -, rfl⟩
    · obtain ⟨hposition, rfl⟩ := hextends.ends hs₁
      exact Or.inr ⟨hposition, rfl⟩
    · cases hs₁
    · exact Or.inl hs₁

theorem compile_plain {pattern : Str} (h : compile pattern = .ok s) (hwildcard : s.wildcard = false) :
    leadingLiterals pattern <+: pattern ∧ '*' ∉ leadingLiterals pattern := compileLoop_plain h hwildcard

/-- A pattern for the end of a path has no literals before its stars. -/
theorem compile_ends {pattern : Str} (h : compile pattern = .ok s) (hends : s.ends = true) :
    leadingLiterals pattern = [] := by
  rcases compileLoop_ends h hends with hs | ⟨-, hhead⟩
  · cases hs
  · cases pattern with
    | nil => rfl
    | cons c chars =>
      apply leadingLiterals_special
      exact Or.inl (Option.some.inj hhead)

end Compiler

section Descendants

variable {regexes : Regexes} {pattern path : Str} {exclusion : Bool} {p : Pattern}

/-- What has no star in it is left over where two stars are taken off the end. -/
theorem front_of_starts {front : Str} (hfront : front <+: pattern) (hstar : '*' ∉ front) :
    front <+: if "**".toList.isSuffixOf pattern then pattern.take (pattern.length - 2) else pattern := by
  split
  case isTrue hstars =>
    obtain ⟨before, rfl⟩ := List.isSuffixOf_iff_suffix.mp hstars
    have htake : (before ++ "**".toList).take ((before ++ "**".toList).length - 2) = before := by
      rw [List.length_append]
      exact List.take_left' (by simp)
    rw [htake]
    rcases List.prefix_or_prefix_of_prefix hfront (List.prefix_append before _) with h | ⟨after, rfl⟩
    · exact h
    · have hafter : after <+: "**".toList := (List.prefix_append_right_inj before).mp hfront
      cases after with
      | nil => simp
      | cons c after =>
        have hc : c = '*' := (List.cons_prefix_cons.mp hafter).1
        exact absurd (List.mem_append_right before (hc ▸ List.mem_cons_self)) hstar
  case isFalse => exact hfront

/-- What matches begins with the literals. -/
theorem literals_of_hits (hregexes : regexes.ReadsLiterals)
    (hcompile : Pattern.compile regexes pattern exclusion = .ok p) (h : p.hits path = true) :
    leadingLiterals pattern <+: path := by
  obtain ⟨matcher, hmatcher, rfl⟩ := Descent.map_eq_ok.mp hcompile
  obtain ⟨compiled, hcompiled, hmatch⟩ := Descent.bind_eq_ok.mp hmatcher
  split at hmatch
  case isTrue hends =>
    rw [compile_ends hcompiled hends]
    exact List.nil_prefix
  case isFalse =>
    split at hmatch
    case isTrue hstarts =>
      obtain ⟨hfront, hstar⟩ := compile_plain hcompiled (compileLoop_starts hcompiled rfl hstarts)
      rw [← Except.ok.inj hmatch] at h
      exact (front_of_starts hfront hstar).trans (List.isPrefixOf_iff_prefix.mp h)
    case isFalse =>
      split at hmatch
      case isTrue hwildcard =>
        rw [← Except.ok.inj hmatch] at h
        have hpath : path = pattern := of_decide_eq_true h
        rw [hpath]
        exact (compile_plain hcompiled (by simpa using hwildcard)).1
      case isFalse =>
        cases hnew : regexes.new (regexText regexes compiled.regex) with
        | none =>
          rw [hnew] at hmatch
          cases hmatch
        | some isMatch =>
          rw [hnew] at hmatch
          cases hmatch
          obtain ⟨pieces, hpieces⟩ := compileLoop_regex hcompiled
          rw [hpieces] at hnew
          exact hregexes _ pieces isMatch path hnew h

/-- Where a pattern matches below a directory, its literals do not rule that out. -/
theorem mayMatchDescendant_of_hits {directory below : Str} (hregexes : regexes.ReadsLiterals)
    (hcompile : Pattern.compile regexes pattern exclusion = .ok p)
    (h : p.hits (directory ++ '/' :: below) = true) : p.mayMatchDescendant directory = true := by
  have hliterals := literals_of_hits hregexes hcompile h
  obtain ⟨matcher, -, rfl⟩ := Descent.map_eq_ok.mp hcompile
  -- the slashes at the end of the literals are dropped
  have hfront : literalPrefix pattern <+: directory ++ '/' :: below :=
    (List.rdropWhile_prefix _ _).trans hliterals
  unfold Pattern.mayMatchDescendant
  simp only [Bool.or_eq_true]
  rcases Nat.lt_or_ge directory.length (literalPrefix pattern).length with hlt | hle
  · have hdirectory : directory ++ ['/'] <+: literalPrefix pattern := by
      have hslash : directory ++ ['/'] <+: directory ++ '/' :: below := ⟨below, by simp⟩
      apply List.prefix_of_prefix_length_le hslash hfront
      rw [List.length_append, List.length_singleton]
      omega
    obtain ⟨rest, hrest⟩ := hdirectory
    refine Or.inl (Or.inr ?_)
    have hstrip : directory.isPrefixOf? (literalPrefix pattern) = some ('/' :: rest) := by
      apply List.isPrefixOf?_eq_some_iff_append_eq.mpr
      rw [← hrest, List.append_assoc, List.singleton_append]
    rw [hstrip]
    rfl
  · exact Or.inr (List.isPrefixOf_iff_prefix.mpr
      (List.prefix_of_prefix_length_le hfront (List.prefix_append directory _) hle))

end Descendants

end GhRunner.Docker
