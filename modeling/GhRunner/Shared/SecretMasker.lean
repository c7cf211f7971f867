import GhRunner.Lib.Base64
import GhRunner.Lib.Spans
import GhRunner.Lib.Utf8

namespace GhRunner.Shared

/-!
# The secret masker

How secrets are registered and how a line is masked (`crates/shared/src/secret_masker.rs`).

* `addPattern`, `insertPattern` — a value with its escaped and encoded forms, and the patterns kept
  longest first;
* `AhoCorasick` — what is relied on of the matching library;
* `SecretMasker`, `addSecret`, `addSecrets`, `addMask`, `mask` — the masker;
* `mem_addPattern`, `mem_insertSecretPatterns`, `mem_insertMaskPatterns` — which patterns a
  registration adds, whatever is there already;
* `LongestFirst` — the order the patterns are kept in, which every registration keeps.
-/

open Text Utf8 Spans

/-! ### Encoded forms -/

/-- Ordinary secrets and encoded forms shorter than this many bytes are not registered. -/
def minSecretLen : ℕ := 4

def hexNibble (nibble : ℕ) (upper : Bool) : Char :=
  if upper then (Nat.digitChar nibble).toUpper else Nat.digitChar nibble

def hexByte (b : UInt8) (upper : Bool) : Str :=
  [hexNibble (b.toNat / 16) upper, hexNibble (b.toNat % 16) upper]

def hexEncode (bs : List UInt8) (upper : Bool) : Str := bs.flatMap fun b => hexByte b upper

/-- Letters, digits and four signs of ASCII. -/
def isUnreserved (b : UInt8) : Bool :=
  let c := Char.ofNat b.toNat
  c.isAlphanum || c = '-' || c = '.' || c = '_' || c = '~'

def percentEncode (bs : List UInt8) (upper : Bool) : Str :=
  bs.flatMap fun b => if isUnreserved b then [Char.ofNat b.toNat] else '%' :: hexByte b upper

/-- `str::replace` of a character. -/
def replaceChar (c : Char) (replacement s : Str) : Str :=
  s.flatMap fun d => if d = c then replacement else [d]

def jsonEscape (value : Str) : Str :=
  replaceChar '\t' "\\t".toList <| replaceChar '\r' "\\r".toList <|
    replaceChar '\n' "\\n".toList <| replaceChar '"' "\\\"".toList <|
      replaceChar '\\' "\\\\".toList value

def variants (value : Str) : List Str :=
  let bs := bytes value
  [Base64.encodePadded Base64.standard bs, Base64.encode Base64.standard bs,
    hexEncode bs false, hexEncode bs true, percentEncode bs true, percentEncode bs false]

/-! ### Patterns -/

/-- Keep the patterns longest first; a duplicate is ignored. -/
def insertPattern (patterns : List Str) (pattern : Str) : List Str :=
  if pattern ∈ patterns then patterns
  else
    patterns.takeWhile (fun p => utf8Len pattern ≤ utf8Len p) ++
      pattern :: patterns.dropWhile (fun p => utf8Len pattern ≤ utf8Len p)

def insertVariant (patterns : List Str) (variant : Str) : List Str :=
  if minSecretLen ≤ utf8Len variant then insertPattern patterns variant else patterns

def addPattern (patterns : List Str) (value : Str) : List Str :=
  let patterns := insertPattern patterns value
  let patterns :=
    if jsonEscape value ≠ value then insertPattern patterns (jsonEscape value) else patterns
  (variants value).foldl insertVariant patterns

/-- The pieces between line feeds and carriage returns, trimmed. -/
def trimmedLines (value : Str) : List Str :=
  (value.splitOnP fun c => c = '\n' || c = '\r').map trim

/-- A line of a secret, unless it is too short. -/
def addLongPattern (patterns : List Str) (line : Str) : List Str :=
  if minSecretLen ≤ utf8Len line then addPattern patterns line else patterns

def insertSecretPatterns (patterns : List Str) (value : Str) : List Str :=
  if utf8Len (trim value) < minSecretLen then patterns
  else (trimmedLines (trim value)).foldl addLongPattern (addPattern patterns (trim value))

/-- A line of a mask, unless it is empty. -/
def addMaskLine (patterns : List Str) (line : Str) : List Str :=
  if line ≠ [] then addPattern patterns line else patterns

def insertMaskPatterns (patterns : List Str) (value : Str) : List Str :=
  (trimmedLines value).foldl addMaskLine (addPattern patterns value)

/-! ### The masker -/

/-- What is relied on of the matching library: an automaton that was built reports, for every text,
    the spans of bytes on which a pattern stands, in some order. -/
structure AhoCorasick where
  Automaton : Type
  build : List Str → Option Automaton
  findOverlapping : Automaton → Str → List Span
  reports : ∀ patterns automaton, build patterns = some automaton → ∀ input s,
    s ∈ findOverlapping automaton input ↔ ∃ p ∈ patterns, Occurs (bytes p) (bytes input) s

structure SecretMasker (A : AhoCorasick) where
  patterns : List Str
  automaton : Option A.Automaton

/-- What is put in the place of a secret. -/
def stars : Str := "***".toList

/-- The input from `cursor` on, with stars in the place of each span. -/
def render (input : Str) (cursor : ℕ) : List Span → Str
  | [] => (getFrom input cursor).getD []
  | s :: spans => (getRange input cursor s.1).getD [] ++ stars ++ render input s.2 spans

/-- `str::replace` of a pattern that is not empty; `skip` characters of a match are left. -/
def replaceFrom (pattern : Str) (skip : ℕ) : Str → Str
  | [] => []
  | c :: rest =>
    match skip with
    | skip + 1 => replaceFrom pattern skip rest
    | 0 =>
      if pattern.isPrefixOf (c :: rest) then stars ++ replaceFrom pattern (pattern.length - 1) rest
      else c :: replaceFrom pattern 0 rest

namespace SecretMasker

variable {A : AhoCorasick}

def new : SecretMasker A := ⟨[], none⟩

/-- The patterns with the automaton built for them. -/
def rebuildAutomaton (patterns : List Str) : SecretMasker A := ⟨patterns, A.build patterns⟩

def addSecret (m : SecretMasker A) (value : Str) : SecretMasker A :=
  rebuildAutomaton (insertSecretPatterns m.patterns value)

def addSecrets (m : SecretMasker A) (values : List Str) : SecretMasker A :=
  rebuildAutomaton (values.foldl insertSecretPatterns m.patterns)

/-- White space alone registers nothing. -/
def addMask (m : SecretMasker A) (value : Str) : SecretMasker A :=
  if trim value = [] then m else rebuildAutomaton (insertMaskPatterns m.patterns value)

def maskWithAutomaton (automaton : A.Automaton) (input : Str) : Str :=
  let spans := A.findOverlapping automaton input
  if spans = [] then input else render input 0 (merge (sortSpans spans))

/-- Longest first. -/
def maskWithReplaceLoop (m : SecretMasker A) (input : Str) : Str :=
  m.patterns.foldl (fun result pattern => replaceFrom pattern 0 result) input

def mask (m : SecretMasker A) (input : Str) : Str :=
  if m.patterns = [] then input
  else
    match m.automaton with
    | some automaton => maskWithAutomaton automaton input
    | none => m.maskWithReplaceLoop input

end SecretMasker

/-! ### Which patterns a registration adds -/

/-- The forms in which `add_pattern` registers a value. -/
def formsOf (value : Str) : List Str :=
  value :: (if jsonEscape value ≠ value then [jsonEscape value] else []) ++
    (variants value).filter fun v => minSecretLen ≤ utf8Len v

def secretForms (value : Str) : List Str :=
  if utf8Len (trim value) < minSecretLen then []
  else formsOf (trim value) ++
    ((trimmedLines (trim value)).filter fun line => minSecretLen ≤ utf8Len line).flatMap formsOf

def maskForms (value : Str) : List Str :=
  if trim value = [] then []
  else formsOf value ++ ((trimmedLines value).filter fun line => line ≠ []).flatMap formsOf

section Members

variable {patterns : List Str} {p : Str}

theorem mem_insertPattern {pattern : Str} :
    p ∈ insertPattern patterns pattern ↔ p ∈ patterns ∨ p = pattern := by
  unfold insertPattern
  split
  case isTrue hmem =>
    constructor
    · exact .inl
    · rintro (h | rfl)
      · exact h
      · exact hmem
  case isFalse =>
    have hsplit : p ∈ patterns ↔
        p ∈ patterns.takeWhile (fun q => decide (utf8Len pattern ≤ utf8Len q)) ∨
          p ∈ patterns.dropWhile (fun q => decide (utf8Len pattern ≤ utf8Len q)) := by
      rw [← List.mem_append, List.takeWhile_append_dropWhile]
    rw [List.mem_append, List.mem_cons, hsplit]
    tauto

/-- What each step of a loop adds, the loop adds for every element. -/
theorem mem_foldl_add {ι : Type} {f : List Str → ι → List Str} {added : ι → List Str}
    (h : ∀ patterns x, p ∈ f patterns x ↔ p ∈ patterns ∨ p ∈ added x) (xs : List ι) :
    p ∈ xs.foldl f patterns ↔ p ∈ patterns ∨ p ∈ xs.flatMap added := by
  induction xs generalizing patterns with
  | nil => simp
  | cons x xs ih => rw [List.foldl_cons, ih, h, List.flatMap_cons, List.mem_append, or_assoc]

theorem flatMap_ite {ι : Type} {P : ι → Prop} [DecidablePred P] (xs : List ι) (f : ι → List Str) :
    xs.flatMap (fun x => if P x then f x else []) = (xs.filter fun x => P x).flatMap f := by
  induction xs with
  | nil => rfl
  | cons x xs ih =>
    rw [List.flatMap_cons, ih, List.filter_cons]
    by_cases hx : P x <;> simp [hx]

theorem mem_insertVariant {v : Str} :
    p ∈ insertVariant patterns v ↔
      p ∈ patterns ∨ p ∈ if minSecretLen ≤ utf8Len v then [v] else [] := by
  unfold insertVariant
  split
  · rw [mem_insertPattern, List.mem_singleton]
  · simp

theorem mem_addPattern {value : Str} :
    p ∈ addPattern patterns value ↔ p ∈ patterns ∨ p ∈ formsOf value := by
  show p ∈ (variants value).foldl insertVariant
    (if jsonEscape value ≠ value then
      insertPattern (insertPattern patterns value) (jsonEscape value)
    else insertPattern patterns value) ↔ _
  rw [mem_foldl_add (f := insertVariant) (fun _ _ => mem_insertVariant), flatMap_ite, formsOf,
    List.flatMap_singleton', List.cons_append, List.mem_cons, List.mem_append, ← or_assoc, ← or_assoc]
  refine or_congr_left ?_
  split
  case isTrue => rw [mem_insertPattern, mem_insertPattern, List.mem_singleton]
  case isFalse => simp [mem_insertPattern]

theorem mem_addLongPattern {line : Str} :
    p ∈ addLongPattern patterns line ↔
      p ∈ patterns ∨ p ∈ if minSecretLen ≤ utf8Len line then formsOf line else [] := by
  unfold addLongPattern
  split
  · exact mem_addPattern
  · simp

theorem mem_addMaskLine {line : Str} :
    p ∈ addMaskLine patterns line ↔ p ∈ patterns ∨ p ∈ if line ≠ [] then formsOf line else [] := by
  unfold addMaskLine
  split
  · exact mem_addPattern
  · simp

theorem mem_insertSecretPatterns {value : Str} :
    p ∈ insertSecretPatterns patterns value ↔ p ∈ patterns ∨ p ∈ secretForms value := by
  unfold insertSecretPatterns secretForms
  split
  · simp
  · rw [mem_foldl_add (f := addLongPattern) (fun _ _ => mem_addLongPattern), flatMap_ite, mem_addPattern, List.mem_append,
      or_assoc]

theorem mem_insertMaskPatterns {value : Str} :
    p ∈ (if trim value = [] then patterns else insertMaskPatterns patterns value) ↔
      p ∈ patterns ∨ p ∈ maskForms value := by
  unfold insertMaskPatterns maskForms
  split
  · simp
  · rw [mem_foldl_add (f := addMaskLine) (fun _ _ => mem_addMaskLine), flatMap_ite, mem_addPattern, List.mem_append,
      or_assoc]

end Members

/-! ### The order of the patterns -/

/-- Longest first, and no pattern twice. -/
structure LongestFirst (patterns : List Str) : Prop where
  sorted : patterns.Pairwise fun p q => utf8Len q ≤ utf8Len p
  nodup : patterns.Nodup

theorem longestFirst_nil : LongestFirst [] := ⟨.nil, .nil⟩

/-- In patterns sorted longest first, those from the first shorter one on are all shorter. -/
theorem lt_of_mem_dropWhile {patterns : List Str} {n : ℕ}
    (h : patterns.Pairwise fun p q => utf8Len q ≤ utf8Len p) :
    ∀ p ∈ patterns.dropWhile (fun p => n ≤ utf8Len p), utf8Len p < n := by
  induction patterns with
  | nil => simp
  | cons q patterns ih =>
    obtain ⟨hq, hpatterns⟩ := List.pairwise_cons.mp h
    by_cases hn : n ≤ utf8Len q
    · rw [List.dropWhile_cons_of_pos (by simpa using hn)]
      exact ih hpatterns
    · rw [List.dropWhile_cons_of_neg (by simpa using hn)]
      intro p hp
      rcases List.mem_cons.mp hp with rfl | hp
      · omega
      · have := hq p hp
        omega

theorem LongestFirst.insertPattern {patterns : List Str} (h : LongestFirst patterns) (pattern : Str) :
    LongestFirst (insertPattern patterns pattern) := by
  unfold Shared.insertPattern
  split
  case isTrue => exact h
  case isFalse hnew =>
    let long (p : Str) : Bool := utf8Len pattern ≤ utf8Len p
    have hsplit : patterns.takeWhile long ++ patterns.dropWhile long = patterns :=
      List.takeWhile_append_dropWhile
    have hlong : ∀ p ∈ patterns.takeWhile long, utf8Len pattern ≤ utf8Len p := by
      intro p hp
      have hp : long p = true := List.mem_takeWhile_imp hp
      exact of_decide_eq_true hp
    have hshort := lt_of_mem_dropWhile (n := utf8Len pattern) h.sorted
    have hsorted := h.sorted
    have hnodup := h.nodup
    rw [← hsplit] at hsorted hnodup hnew
    obtain ⟨hbefore, hafter, hacross⟩ := List.pairwise_append.mp hsorted
    constructor
    · refine List.pairwise_append.mpr ⟨hbefore, List.pairwise_cons.mpr ⟨?_, hafter⟩, ?_⟩
      · exact fun p hp => (hshort p hp).le
      · intro p hp q hq
        rcases List.mem_cons.mp hq with rfl | hq
        · exact hlong p hp
        · exact hacross p hp q hq
    · exact (List.perm_middle.nodup_iff).mpr (List.nodup_cons.mpr ⟨hnew, hnodup⟩)

theorem LongestFirst.insertVariant {patterns : List Str} (h : LongestFirst patterns) (variant : Str) :
    LongestFirst (insertVariant patterns variant) := by
  unfold Shared.insertVariant
  split
  · exact h.insertPattern variant
  · exact h

theorem LongestFirst.foldl {ι : Type} {f : List Str → ι → List Str}
    (hf : ∀ {patterns}, LongestFirst patterns → ∀ x, LongestFirst (f patterns x)) (xs : List ι)
    {patterns : List Str} (h : LongestFirst patterns) : LongestFirst (xs.foldl f patterns) := by
  induction xs generalizing patterns with
  | nil => exact h
  | cons x xs ih => exact ih (hf h x)

theorem LongestFirst.addPattern {patterns : List Str} (h : LongestFirst patterns) (value : Str) :
    LongestFirst (addPattern patterns value) := by
  refine LongestFirst.foldl LongestFirst.insertVariant (variants value) ?_
  split
  · exact (h.insertPattern value).insertPattern (jsonEscape value)
  · exact h.insertPattern value

theorem LongestFirst.insertSecretPatterns {patterns : List Str} (h : LongestFirst patterns)
    (value : Str) : LongestFirst (insertSecretPatterns patterns value) := by
  unfold Shared.insertSecretPatterns
  split
  · exact h
  · refine LongestFirst.foldl (fun {_} hps line => ?_) _ (h.addPattern (trim value))
    unfold addLongPattern
    split
    · exact hps.addPattern line
    · exact hps

theorem LongestFirst.insertMaskPatterns {patterns : List Str} (h : LongestFirst patterns)
    (value : Str) : LongestFirst (insertMaskPatterns patterns value) := by
  refine LongestFirst.foldl (fun {_} hps line => ?_) (trimmedLines value) (h.addPattern value)
  unfold addMaskLine
  split
  · exact hps.addPattern line
  · exact hps

end GhRunner.Shared
