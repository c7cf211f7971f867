import GhRunner.Lib.Utf8
import GhRunner.Expressions.Number
import GhRunner.Expressions.Parser

namespace GhRunner.Expressions

open Text

/-!
# The expression lexer

`crates/expressions/src/lexer.rs`.  The source goes over bytes; no byte of a character beyond ASCII
is one it looks for, so that the text is read here by its characters.

* `LexError` — the errors, with what their texts need;
* `lexString`, `lexNumber`, `lexOperator`, `lexToken` — one token and what is left;
* `lexLoop`, `lex` — all of them;
* `parse` — lexer and parser together;
* `tokensFrom`, `tokensFrom_cons_eq_ok` — the loop once its rounds suffice, token by token.
-/

/-- The errors; a number is known by how many bytes are left where it begins. -/
inductive LexError
  | unterminated
  | invalidNumber (left : ℕ) (reason : Str)
  | unexpected (c : Char)
deriving DecidableEq, Repr

/-- The text of an error in an input of so many bytes; an unexpected character is its first byte. -/
def LexError.message (length : ℕ) : LexError → Str
  | .unterminated => "unterminated string literal".toList
  | .invalidNumber left reason =>
    "invalid number at byte ".toList ++ (toString (length - left)).toList ++ ": ".toList ++ reason
  | .unexpected c =>
    "unexpected character: '".toList ++
      ((String.utf8EncodeChar c).head?.map fun byte => Char.ofNat byte.toNat).toList ++ "'".toList

def isAsciiWhitespace (c : Char) : Bool := c ∈ [' ', '\t', '\n', '\x0C', '\r']

def isIdentStart (c : Char) : Bool := c.isAlpha || c = '_'

def isIdentContinue (c : Char) : Bool := c.isAlphanum || c = '_' || c = '-'

/-- The tokens behind which a point begins a number. -/
def Token.beforeNumber : Token → Bool
  | .comma | .lParen | .lBracket | .eq | .neq | .lt | .le | .gt | .ge | .and | .or | .not => true
  | _ => false

def isNumberStart (c : Char) (previous : Option Token) : Bool :=
  c.isDigit || c ∈ ['+', '-'] || c = '.' && previous.all Token.beforeNumber

/-- The characters that end a number. -/
def endsNumber (c : Char) : Bool :=
  isAsciiWhitespace c || c ∈ ['[', ']', '(', ')', ',', '!', '<', '>', '=', '&', '|']

def keywordOrIdent (word : Str) : Token :=
  if word = "true".toList then .boolLit true
  else if word = "false".toList then .boolLit false
  else if word = "null".toList then .null
  else if word = "NaN".toList then .numberLit nanBits
  else if word = "Infinity".toList then .numberLit infinityBits
  else .ident word

/-- The rest of a string literal, behind its opening quote. -/
def lexString : Str → Except LexError (Str × Str)
  | [] => .error .unterminated
  | c :: rest =>
    if c = '\'' then
      match rest with
      | [] => .ok ([], [])
      | c' :: rest' =>
        if c' = '\'' then (lexString rest').map fun read => ('\'' :: read.1, read.2)
        else .ok ([], c' :: rest')
    else (lexString rest).map fun read => (c :: read.1, read.2)

def lexNumber (input : Str) : Except LexError (Token × Str) :=
  match parseNumberChecked (input.takeWhile fun c => !endsNumber c) with
  | .ok n => .ok (.numberLit n, input.dropWhile fun c => !endsNumber c)
  | .error reason => .error (.invalidNumber (Utf8.utf8Len input) reason)

/-- An identifier is never a keyword behind a point. -/
def lexIdent (previous : Option Token) (input : Str) : Token × Str :=
  let word := input.takeWhile isIdentContinue
  (if previous = some .dot then .ident word else keywordOrIdent word,
    input.dropWhile isIdentContinue)

/-- The operators of two characters. -/
def doubleOperator : Char → Char → Option Token
  | '=', '=' => some .eq
  | '!', '=' => some .neq
  | '<', '=' => some .le
  | '>', '=' => some .ge
  | '&', '&' => some .and
  | '|', '|' => some .or
  | _, _ => none

def singleOperator : Char → Option Token
  | '!' => some .not
  | '<' => some .lt
  | '>' => some .gt
  | '.' => some .dot
  | '(' => some .lParen
  | ')' => some .rParen
  | '[' => some .lBracket
  | ']' => some .rBracket
  | ',' => some .comma
  | '*' => some .star
  | _ => none

def lexOperator (c : Char) (rest : Str) : Except LexError (Token × Str) :=
  match rest.head?.bind (doubleOperator c), singleOperator c with
  | some tok, _ => .ok (tok, rest.drop 1)
  | none, some tok => .ok (tok, rest)
  | none, none => .error (.unexpected c)

/-- The token that begins with a character that is no white space. -/
def lexToken (previous : Option Token) (c : Char) (rest : Str) : Except LexError (Token × Str) :=
  if c = '\'' then (lexString rest).map fun read => (.stringLit read.1, read.2)
  else if isNumberStart c previous then lexNumber (c :: rest)
  else if isIdentStart c then .ok (lexIdent previous (c :: rest))
  else lexOperator c rest

/-- The loop; every round takes at least one character. -/
def lexLoop : ℕ → Option Token → Str → Except LexError (List Token)
  | 0, _, _ => .ok []
  | _ + 1, _, [] => .ok []
  | fuel + 1, previous, c :: rest =>
    if isAsciiWhitespace c then lexLoop fuel previous rest
    else
      match lexToken previous c rest with
      | .error e => .error e
      | .ok (tok, rest) => (lexLoop fuel (some tok) rest).map (tok :: ·)

/-- Tokenize an expression. -/
def lex (input : Str) : Except RunnerError (List Token) :=
  match lexLoop input.length none input with
  | .ok tokens => .ok tokens
  | .error e => .error (.expression (e.message (Utf8.utf8Len input)))

/-- Parse an expression, given how a token prints in an error. -/
def parse (debug : Token → Str) (input : Str) : Except RunnerError Expr :=
  match lex input with
  | .error e => .error e
  | .ok tokens =>
    match parseTokens tokens with
    | .error e => .error (.expression (e.message debug))
    | .ok expr => .ok expr

/-! ### The loop -/

section Loop

variable {previous : Option Token} {c : Char} {rest rest' : Str} {tok : Token}

theorem map_eq_ok {ε α β : Type} {f : α → β} {x : Except ε α} {b : β} :
    x.map f = .ok b ↔ ∃ a, x = .ok a ∧ f a = b := by
  cases x with
  | error e => simp [Except.map]
  | ok a => simp [Except.map]

theorem lexString_length {s : Str} (h : lexString rest = .ok (s, rest')) :
    rest'.length < rest.length := by
  fun_induction lexString rest generalizing s with
  | case1 => cases h
  | case2 =>
    obtain ⟨-, rfl⟩ := Prod.mk.inj (Except.ok.inj h)
    exact Nat.lt_succ_self _
  | case3 rest ih =>
    obtain ⟨read, hread, heq⟩ := map_eq_ok.mp h
    obtain ⟨-, rfl⟩ := Prod.mk.inj heq
    have := ih hread
    simp only [List.length_cons]
    omega
  | case4 =>
    obtain ⟨-, rfl⟩ := Prod.mk.inj (Except.ok.inj h)
    exact Nat.lt_succ_self _
  | case5 c rest hc ih =>
    obtain ⟨read, hread, heq⟩ := map_eq_ok.mp h
    obtain ⟨-, rfl⟩ := Prod.mk.inj heq
    have := ih hread
    simp only [List.length_cons]
    omega

theorem lexNumber_eq_ok {input : Str} :
    lexNumber input = .ok (tok, rest') ↔
      ∃ n, parseNumberChecked (input.takeWhile fun c => !endsNumber c) = .ok n ∧
        tok = .numberLit n ∧ rest' = input.dropWhile fun c => !endsNumber c := by
  unfold lexNumber
  cases parseNumberChecked (input.takeWhile fun c => !endsNumber c) with
  | error reason => simp
  | ok n => simp [eq_comm]

theorem lexOperator_eq_ok :
    lexOperator c rest = .ok (tok, rest') ↔
      (∃ c', rest = c' :: rest' ∧ doubleOperator c c' = some tok) ∨
      (rest.head?.bind (doubleOperator c) = none ∧ singleOperator c = some tok ∧ rest' = rest) := by
  unfold lexOperator
  cases hdouble : rest.head?.bind (doubleOperator c) with
  | some tok' =>
    obtain ⟨c', hhead, hop⟩ := Option.bind_eq_some_iff.mp hdouble
    obtain ⟨more, rfl⟩ := List.head?_eq_some_iff.mp hhead
    simp [hop, eq_comm, and_comm]
  | none =>
    have hno : ¬ ∃ c', rest = c' :: rest' ∧ doubleOperator c c' = some tok := by
      rintro ⟨c', rfl, hop⟩
      rw [List.head?_cons, Option.bind_some, hop] at hdouble
      cases hdouble
    rw [or_iff_right hno]
    cases singleOperator c with
    | some tok' => simp [eq_comm]
    | none => simp

theorem isIdentContinue_of_start (h : isIdentStart c = true) : isIdentContinue c = true := by
  unfold isIdentStart at h
  unfold isIdentContinue
  rw [Bool.or_eq_true] at h ⊢
  rw [Bool.or_eq_true]
  rcases h with h | h
  · exact .inl (.inl (by simp [Char.isAlphanum, h]))
  · exact .inl (.inr h)

/-- What ends a number is no part of a word and begins no number. -/
theorem not_part_of_endsNumber (previous : Option Token) (h : endsNumber c = true) :
    isIdentContinue c = false ∧ isNumberStart c previous = false := by
  have hmem : c ∈ [' ', '\t', '\n', '\x0C', '\r', '[', ']', '(', ')', ',', '!', '<', '>', '=', '&',
      '|'] := by simpa [endsNumber, isAsciiWhitespace, or_assoc] using h
  simp only [List.mem_cons, List.not_mem_nil, or_false] at hmem
  rcases hmem with rfl | rfl | rfl | rfl | rfl | rfl | rfl | rfl | rfl | rfl | rfl | rfl | rfl |
    rfl | rfl | rfl <;> exact ⟨rfl, rfl⟩

theorem not_endsNumber_of_start (h : isNumberStart c previous = true) : endsNumber c = false := by
  rw [← Bool.not_eq_true]
  intro hends
  rw [(not_part_of_endsNumber previous hends).2] at h
  cases h

theorem not_endsNumber_of_isIdentContinue (h : isIdentContinue c = true) :
    endsNumber c = false := by
  rw [← Bool.not_eq_true]
  intro hends
  rw [(not_part_of_endsNumber none hends).1] at h
  cases h

/-- A token takes its first character at least. -/
theorem lexToken_length (h : lexToken previous c rest = .ok (tok, rest')) :
    rest'.length ≤ rest.length := by
  unfold lexToken at h
  split at h
  case isTrue =>
    obtain ⟨read, hread, heq⟩ := map_eq_ok.mp h
    obtain ⟨-, rfl⟩ := Prod.mk.inj heq
    exact (lexString_length hread).le
  case isFalse =>
    split at h
    case isTrue hstart =>
      obtain ⟨n, -, -, rfl⟩ := lexNumber_eq_ok.mp h
      rw [List.dropWhile_cons_of_pos (by simp [not_endsNumber_of_start hstart])]
      exact List.length_dropWhile_le _ _
    case isFalse =>
      split at h
      case isTrue hstart =>
        obtain ⟨-, rfl⟩ := Prod.mk.inj (Except.ok.inj h)
        rw [List.dropWhile_cons_of_pos (isIdentContinue_of_start hstart)]
        exact List.length_dropWhile_le _ _
      case isFalse =>
        rcases lexOperator_eq_ok.mp h with ⟨c', rfl, -⟩ | ⟨-, -, rfl⟩
        · exact Nat.le_succ _
        · exact le_rfl

theorem lexLoop_fuel {fuel fuel' : ℕ} {input : Str} (hfuel : input.length ≤ fuel)
    (hfuel' : input.length ≤ fuel') :
    lexLoop fuel previous input = lexLoop fuel' previous input := by
  induction fuel generalizing fuel' previous input with
  | zero =>
    rw [List.eq_nil_of_length_eq_zero (Nat.le_zero.mp hfuel)]
    cases fuel' <;> rfl
  | succ fuel ih =>
    cases input with
    | nil => cases fuel' <;> rfl
    | cons c rest =>
      rw [List.length_cons] at hfuel hfuel'
      obtain ⟨fuel', rfl⟩ : ∃ k, fuel' = k + 1 := ⟨fuel' - 1, by omega⟩
      rw [lexLoop, lexLoop]
      split
      case isTrue => exact ih (by omega) (by omega)
      case isFalse =>
        cases htok : lexToken previous c rest with
        | error e => rfl
        | ok read =>
          have := lexToken_length htok
          show (lexLoop fuel _ read.2).map _ = (lexLoop fuel' _ read.2).map _
          have hlen : read.2.length ≤ fuel := by omega
          rw [ih hlen (by omega : read.2.length ≤ fuel')]

/-- All the tokens of an input behind the given token. -/
def tokensFrom (previous : Option Token) (input : Str) : Except LexError (List Token) :=
  lexLoop input.length previous input

theorem tokensFrom_space (h : isAsciiWhitespace c = true) :
    tokensFrom previous (c :: rest) = tokensFrom previous rest := if_pos h

theorem tokensFrom_token (hc : isAsciiWhitespace c = false)
    (h : lexToken previous c rest = .ok (tok, rest')) :
    tokensFrom previous (c :: rest) = (tokensFrom (some tok) rest').map (tok :: ·) := by
  rw [tokensFrom, List.length_cons, lexLoop, if_neg (by simp [hc]), h]
  show (lexLoop rest.length _ _).map _ = _
  rw [lexLoop_fuel (lexToken_length h) le_rfl, tokensFrom]

theorem tokensFrom_error {e : LexError} (hc : isAsciiWhitespace c = false)
    (h : lexToken previous c rest = .error e) : tokensFrom previous (c :: rest) = .error e := by
  rw [tokensFrom, List.length_cons, lexLoop, if_neg (by simp [hc]), h]

/-- An input that is read is empty, or goes on behind white space or behind its first token. -/
theorem tokensFrom_cons_eq_ok {tokens : List Token} :
    tokensFrom previous (c :: rest) = .ok tokens ↔
      (isAsciiWhitespace c = true ∧ tokensFrom previous rest = .ok tokens) ∨
      (isAsciiWhitespace c = false ∧ ∃ tok rest' more, lexToken previous c rest = .ok (tok, rest') ∧
        tokensFrom (some tok) rest' = .ok more ∧ tokens = tok :: more) := by
  cases hc : isAsciiWhitespace c with
  | true => simp [tokensFrom_space hc]
  | false =>
    cases htok : lexToken previous c rest with
    | error e => simp [tokensFrom_error hc htok]
    | ok read =>
      obtain ⟨tok, rest'⟩ := read
      rw [tokensFrom_token hc htok, map_eq_ok]
      simp [eq_comm]

theorem lex_eq_ok {input : Str} {tokens : List Token} :
    lex input = .ok tokens ↔ tokensFrom none input = .ok tokens := by
  unfold lex tokensFrom
  cases lexLoop input.length none input with
  | error e => simp
  | ok tokens' => simp

end Loop

end GhRunner.Expressions
