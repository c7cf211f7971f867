import GhRunner.Expressions.Display

namespace GhRunner.Expressions

open Text Binary64

/-!
# The tokens of a printed expression

What `lex` reads of the text that `to_expression` prints.  A number swallows what is printed behind
it up to the next sign that ends one, so that the tokens of a tree come with the number text that
is still open at its end.

* `formatNumber_cases` — a printed number is a word, or a text that no sign ends;
* `read_word`, `read_operator`, `read_string`, `read_number` — one token at the front of an input;
* `Chunk`, `lexed` — the tokens of a tree and the number left open;
* `lexes_toExpression` — they are what is read, whatever may follow.
-/

/-! ### The text of a number -/

/-- The text begins a number wherever it stands, and nothing in it ends one. -/
structure NumberText (text : Str) : Prop where
  begins : ∃ c rest, text = c :: rest ∧ (c.isDigit = true ∨ c = '-')
  goesOn : ∀ c ∈ text, endsNumber c = false

theorem not_endsNumber_of_isDigit {c : Char} (h : c.isDigit = true) : endsNumber c = false :=
  have hstart : isNumberStart c none = true := by
    rw [isNumberStart, h]
    rfl
  not_endsNumber_of_start hstart

theorem formatExponent_goesOn (exponent : ℤ) :
    ∀ c ∈ formatExponent exponent, endsNumber c = false := by
  intro c hc
  rcases List.mem_cons.mp hc with rfl | hc
  · split <;> rfl
  · exact not_endsNumber_of_isDigit (isDigit_of_mem_fixedDigits hc)

theorem replicate_goesOn (k : ℕ) : ∀ c ∈ List.replicate k '0', endsNumber c = false := by
  intro c hc
  rw [List.eq_of_mem_replicate hc]
  rfl

/-- The digits begin with a digit, and all that follows is part of a number. -/
theorem formatMagnitude_eq_cons (n : F64) : ∃ c rest, formatMagnitude n = c :: rest ∧
    c.isDigit = true ∧ ∀ d ∈ rest, endsNumber d = false := by
  have hfirst : (scientificDigits n).1.isDigit = true := isDigit_digitChar _
  have hmore : ∀ c ∈ (scientificDigits n).2.1, endsNumber c = false := fun c hc =>
    not_endsNumber_of_isDigit (isDigit_of_mem_fixedDigits hc)
  unfold formatMagnitude
  generalize scientificDigits n = parts at hfirst hmore ⊢
  obtain ⟨first, more, exponent⟩ := parts
  have hfraction : ∀ c ∈ more.rdropWhile (· = '0'), endsNumber c = false := fun c hc =>
    hmore c ((List.rdropWhile_prefix _ _).subset hc)
  dsimp only at hfirst ⊢
  generalize more.rdropWhile (· = '0') = fraction at hfraction
  split
  case isTrue =>
    refine ⟨first, _, rfl, hfirst, ?_⟩
    rw [List.forall_mem_append, List.forall_mem_cons]
    refine ⟨?_, rfl, formatExponent_goesOn exponent⟩
    split
    · exact fun c hc => absurd hc List.not_mem_nil
    · exact List.forall_mem_cons.mpr ⟨rfl, hfraction⟩
  case isFalse =>
    split
    case isTrue =>
      refine ⟨'0', _, rfl, rfl, ?_⟩
      rw [List.forall_mem_cons, List.forall_mem_append, List.forall_mem_cons]
      exact ⟨rfl, replicate_goesOn _, not_endsNumber_of_isDigit hfirst, hfraction⟩
    case isFalse hpoint =>
      split
      case isTrue =>
        refine ⟨first, fraction ++ _, rfl, hfirst, ?_⟩
        rw [List.forall_mem_append]
        exact ⟨hfraction, replicate_goesOn _⟩
      case isFalse =>
        obtain ⟨k, hk⟩ : ∃ k, (exponent + 1).toNat = k + 1 := ⟨exponent.toNat, by omega⟩
        rw [hk]
        refine ⟨first, fraction.take k ++ '.' :: fraction.drop k, rfl, hfirst, ?_⟩
        rw [List.forall_mem_append, List.forall_mem_cons]
        exact ⟨fun c hc => hfraction c (List.mem_of_mem_take hc), rfl,
          fun c hc => hfraction c (List.mem_of_mem_drop hc)⟩

theorem formatNumber_cases (n : F64) :
    formatNumber n = "NaN".toList ∨ formatNumber n = "Infinity".toList ∨
      NumberText (formatNumber n) := by
  unfold formatNumber
  split
  case isTrue => exact .inl rfl
  case isFalse =>
    split
    case isTrue =>
      cases n.msb with
      | false => exact .inr (.inl rfl)
      | true => exact .inr (.inr ⟨⟨'-', _, rfl, .inr rfl⟩, by decide⟩)
    case isFalse =>
      obtain ⟨c, rest, hcons, hc, hrest⟩ := formatMagnitude_eq_cons n
      have hall : ∀ d ∈ formatMagnitude n, endsNumber d = false := by
        rw [hcons, List.forall_mem_cons]
        exact ⟨not_endsNumber_of_isDigit hc, hrest⟩
      right; right
      cases n.msb with
      | false => exact ⟨⟨c, rest, hcons, .inl hc⟩, hall⟩
      | true => exact ⟨⟨'-', _, rfl, .inr rfl⟩, List.forall_mem_cons.mpr ⟨rfl, hall⟩⟩

/-! ### One token -/

section Tokens

variable {previous : Option Token} {c d : Char} {rest rest' name : Str} {tok : Token}

/-- The tokens of an input behind the given one, if it has any. -/
def read (previous : Option Token) (input : Str) : Option (List Token) :=
  (tokensFrom previous input).toOption

theorem read_token (hc : isAsciiWhitespace c = false)
    (h : lexToken previous c rest = .ok (tok, rest')) :
    read previous (c :: rest) = (read (some tok) rest').map (tok :: ·) := by
  rw [read, tokensFrom_token hc h, read]
  cases tokensFrom (some tok) rest' <;> rfl

theorem read_space (h : isAsciiWhitespace c = true) :
    read previous (c :: rest) = read previous rest := by
  rw [read, tokensFrom_space h, read]

theorem not_space_of_isIdentStart (h : isIdentStart c = true) : isAsciiWhitespace c = false := by
  rw [← Bool.not_eq_true]
  intro hspace
  have hmem := of_decide_eq_true hspace
  simp only [List.mem_cons, List.not_mem_nil, or_false] at hmem
  rcases hmem with rfl | rfl | rfl | rfl | rfl <;> cases h

theorem not_isNumberStart_of_isIdentStart (h : isIdentStart c = true) :
    isNumberStart c previous = false := by
  have hdigit : c.isDigit = false := by
    rw [← Bool.not_eq_true]
    intro hdigit
    rcases Bool.or_eq_true_iff.mp h with h | h
    · have := isAlpha_bounds h
      have : '0'.toNat ≤ c.toNat ∧ c.toNat ≤ '9'.toNat := Char.isDigit_iff_toNat.mp hdigit
      have : '9'.toNat = 57 := rfl
      omega
    · obtain rfl := of_decide_eq_true h
      cases hdigit
  have hsign : c ∉ ['+', '-'] := by
    intro hmem
    rw [List.mem_pair] at hmem
    rcases hmem with rfl | rfl <;> cases h
  have hpoint : c ≠ '.' := by
    rintro rfl
    cases h
  rw [isNumberStart, hdigit, decide_eq_false hsign, decide_eq_false hpoint]
  rfl

/-- The token of a word. -/
def wordToken (previous : Option Token) (word : Str) : Token :=
  if previous = some .dot then .ident word else keywordOrIdent word

theorem read_word (hname : isKeyword name = true)
    (hrest : ∀ c, rest.head? = some c → isIdentContinue c = false) :
    read previous (name ++ rest) =
      (read (some (wordToken previous name)) rest).map (wordToken previous name :: ·) := by
  obtain ⟨first, more, rfl⟩ : ∃ first more, name = first :: more := by
    cases name with
    | nil => cases hname
    | cons first more => exact ⟨first, more, rfl⟩
  obtain ⟨hfirst, hmore⟩ := Bool.and_eq_true_iff.mp hname
  change isIdentStart first = true at hfirst
  have hword : ∀ c ∈ first :: more, isIdentContinue c = true :=
    List.forall_mem_cons.mpr ⟨isIdentContinue_of_start hfirst, List.all_eq_true.mp hmore⟩
  have hlex : lexToken previous first (more ++ rest) =
      .ok (wordToken previous (first :: more), rest) := by
    have hquote : first ≠ '\'' := by
      rintro rfl
      cases hfirst
    have hstop : rest.takeWhile isIdentContinue = [] ∧ rest.dropWhile isIdentContinue = rest := by
      cases rest with
      | nil => exact ⟨rfl, rfl⟩
      | cons c rest =>
        have hc := Bool.eq_false_iff.mp (hrest c rfl)
        exact ⟨List.takeWhile_cons_of_neg hc, List.dropWhile_cons_of_neg hc⟩
    rw [lexToken, if_neg hquote, not_isNumberStart_of_isIdentStart hfirst,
      if_neg Bool.false_ne_true, if_pos hfirst, lexIdent, ← List.cons_append,
      List.takeWhile_append_of_pos hword, List.dropWhile_append_of_pos hword, hstop.1, hstop.2,
      List.append_nil]
    rfl
  exact read_token (not_space_of_isIdentStart hfirst) hlex

theorem lexToken_operator (hquote : c ≠ '\'') (hnumber : isNumberStart c previous = false)
    (hident : isIdentStart c = false) : lexToken previous c rest = lexOperator c rest := by
  rw [lexToken, if_neg hquote, hnumber, hident]
  rfl

theorem read_operator (hop : singleOperator c = some tok)
    (hdot : c = '.' → previous.all Token.beforeNumber = false)
    (hnext : rest.head?.bind (doubleOperator c) = none) :
    read previous (c :: rest) = (read (some tok) rest).map (tok :: ·) := by
  have hlex : lexToken previous c rest = lexOperator c rest := by
    unfold singleOperator at hop
    split at hop
    case h_4 =>
      refine lexToken_operator (by decide) ?_ rfl
      rw [isNumberStart, hdot rfl]
      rfl
    all_goals first | exact lexToken_operator (by decide) rfl rfl | cases hop
  have hspace : isAsciiWhitespace c = false := by
    unfold singleOperator at hop
    split at hop
    all_goals first | rfl | cases hop
  exact read_token hspace (hlex.trans (lexOperator_eq_ok.mpr (.inr ⟨hnext, hop, rfl⟩)))

theorem read_double (hop : doubleOperator c d = some tok) :
    read previous (c :: d :: rest) = (read (some tok) rest).map (tok :: ·) := by
  have hlex : lexToken previous c (d :: rest) = lexOperator c (d :: rest) := by
    unfold doubleOperator at hop
    split at hop
    all_goals first | exact lexToken_operator (by decide) rfl rfl | cases hop
  have hspace : isAsciiWhitespace c = false := by
    unfold doubleOperator at hop
    split at hop
    all_goals first | rfl | cases hop
  exact read_token hspace (hlex.trans (lexOperator_eq_ok.mpr (.inl ⟨d, rfl, hop⟩)))

theorem lexString_escapeQuotes (hrest : rest.head? ≠ some '\'') (s : Str) :
    lexString (escapeQuotes s ++ '\'' :: rest) = .ok (s, rest) := by
  induction s with
  | nil =>
    cases rest with
    | nil => rfl
    | cons c rest =>
      show lexString ('\'' :: c :: rest) = _
      rw [lexString, if_pos rfl]
      exact if_neg fun hc => hrest (by rw [hc]; rfl)
  | cons c s ih =>
    rw [escapeQuotes, List.flatMap_cons]
    split
    case isTrue hc =>
      show lexString ('\'' :: '\'' :: (escapeQuotes s ++ '\'' :: rest)) = _
      rw [lexString, if_pos rfl]
      show (lexString (escapeQuotes s ++ '\'' :: rest)).map _ = _
      rw [ih, hc]
      rfl
    case isFalse hc =>
      show lexString (c :: (escapeQuotes s ++ '\'' :: rest)) = _
      rw [lexString.eq_def]
      show (if c = '\'' then _ else _) = _
      rw [if_neg hc, ih]
      rfl

theorem read_string (hrest : rest.head? ≠ some '\'') (s : Str) :
    read previous ('\'' :: (escapeQuotes s ++ '\'' :: rest)) =
      (read (some (.stringLit s)) rest).map (.stringLit s :: ·) := by
  refine read_token rfl ?_
  rw [lexToken, if_pos rfl, lexString_escapeQuotes hrest]
  rfl

theorem lexToken_number {text : Str} (h : NumberText text) : ∃ first more, text = first :: more ∧
    isAsciiWhitespace first = false ∧ ∀ previous rest,
      lexToken previous first (more ++ rest) = lexNumber (text ++ rest) := by
  obtain ⟨first, more, rfl, hfirst⟩ := h.begins
  have hends := h.goesOn first (List.mem_cons_self ..)
  have hspace : isAsciiWhitespace first = false := (Bool.or_eq_false_iff.mp hends).1
  refine ⟨first, more, rfl, hspace, fun previous rest => ?_⟩
  have hquote : first ≠ '\'' := by
    rintro rfl
    rcases hfirst with hfirst | hfirst <;> cases hfirst
  have hstart : isNumberStart first previous = true := by
    rcases hfirst with hfirst | rfl
    · rw [isNumberStart, hfirst]
      rfl
    · rfl
  rw [lexToken, if_neg hquote, if_pos hstart]
  rfl

theorem read_number {text : Str} (h : NumberText text)
    (hrest : ∀ c, rest.head? = some c → endsNumber c = true) :
    read previous (text ++ rest) = (parseNumberChecked text).toOption.bind fun n =>
      (read (some (.numberLit n)) rest).map (.numberLit n :: ·) := by
  obtain ⟨first, more, hcons, hspace, hlex⟩ := lexToken_number h
  have hall : ∀ c ∈ text, (!endsNumber c) = true := fun c hc => by rw [h.goesOn c hc]; rfl
  have hstop : rest.takeWhile (fun c => !endsNumber c) = [] ∧
      rest.dropWhile (fun c => !endsNumber c) = rest := by
    cases rest with
    | nil => exact ⟨rfl, rfl⟩
    | cons c rest => simp [hrest c rfl]
  have htake : (text ++ rest).takeWhile (fun c => !endsNumber c) = text := by
    rw [List.takeWhile_append_of_pos hall, hstop.1, List.append_nil]
  have hdrop : (text ++ rest).dropWhile (fun c => !endsNumber c) = rest := by
    rw [List.dropWhile_append_of_pos hall, hstop.2]
  rw [hcons, List.cons_append, ← hcons]
  cases hparse : parseNumberChecked text with
  | ok n =>
    have hnumber : lexToken previous first (more ++ rest) = .ok (.numberLit n, rest) := by
      rw [hlex, lexNumber_eq_ok, htake, hdrop]
      exact ⟨n, hparse, rfl, rfl⟩
    exact read_token hspace hnumber
  | error reason =>
    have hnumber : ∃ e, lexToken previous first (more ++ rest) = .error e := by
      rw [hlex, lexNumber, htake, hparse]
      exact ⟨_, rfl⟩
    obtain ⟨e, hnumber⟩ := hnumber
    rw [read, tokensFrom_error hspace hnumber]
    rfl

end Tokens

/-! ### Chunks -/

/-- Tokens, and the text of a number that is still open behind them. -/
abbrev Chunk := List Token × Str

namespace Chunk

/-- The tokens once the number is ended, if it is one. -/
def closed (p : Chunk) : Option (List Token) :=
  if p.2 = [] then some p.1
  else (parseNumberChecked p.2).toOption.map fun n => p.1 ++ [.numberLit n]

/-- With an access behind it, whose text an open number takes. -/
def accessed (tail : Str) (toks : List Token) (p : Chunk) : Chunk :=
  if p.2 = [] then (p.1 ++ toks, []) else (p.1, p.2 ++ tail)

/-- No token and no number begins at its end that a point or a bracket would change. -/
def Complete (p : Chunk) : Prop :=
  (p.2 = [] ∧ ∃ tok, p.1.getLast? = some tok ∧ tok.beforeNumber = false) ∨ NumberText p.2

end Chunk

/-- The sign of an operator. -/
def operatorToken : BinaryOperator → Token
  | .or => .or
  | .and => .and
  | .eq => .eq
  | .neq => .neq
  | .lt => .lt
  | .le => .le
  | .gt => .gt
  | .ge => .ge

def literalChunk : ExprValue → Chunk
  | .number n =>
    if formatNumber n = "NaN".toList then ([.numberLit nanBits], [])
    else if formatNumber n = "Infinity".toList then ([.numberLit infinityBits], [])
    else ([], formatNumber n)
  | .string s => ([.stringLit s], [])
  | .bool b => ([.boolLit b], [])
  | _ => ([.null], [])

mutual

/-- What is read of a printed tree; nothing, where a number is left that is none. -/
def lexed : Expr → Option Chunk
  | .literal value => some (literalChunk value)
  | .context name => some ([.ident name], [])
  | .propertyAccess object property =>
    (lexed object).map (Chunk.accessed ('.' :: property) [.dot, .ident property])
  | .indexAccess object index =>
    match keywordIndex index with
    | some key => (lexed object).map (Chunk.accessed ('.' :: key) [.dot, .ident key])
    | none => do
      let ts ← (lexed object).bind Chunk.closed
      let us ← (lexed index).bind Chunk.closed
      some (ts ++ .lBracket :: (us ++ [.rBracket]), [])
  | .wildcardAccess object => (lexed object).map (Chunk.accessed ['.', '*'] [.dot, .star])
  | .functionCall name args => do
    let tss ← lexedArgs args
    some (.ident name :: .lParen :: ([Token.comma].intercalate tss ++ [.rParen]), [])
  | .unaryOp .not operand => (lexed operand).map fun p => (.not :: p.1, p.2)
  | .binaryOp op left right => do
    let ts ← (lexed left).bind Chunk.closed
    let us ← (lexed right).bind Chunk.closed
    some (.lParen :: (ts ++ operatorToken op :: (us ++ [.rParen])), [])

def lexedArgs : List Expr → Option (List (List Token))
  | [] => some []
  | arg :: rest => do
    let ts ← (lexed arg).bind Chunk.closed
    let tss ← lexedArgs rest
    some (ts :: tss)

end

/-- What may stand behind a tree. -/
def Follows (rest : Str) : Prop :=
  ∀ c, rest.head? = some c → c ∈ [' ', '.', '[', ']', ')', ',']

/-- The same without the point, so that a number ends. -/
def Closes (rest : Str) : Prop := ∀ c, rest.head? = some c → c ∈ [' ', '[', ']', ')', ',']

/-- The text is read as the chunk, wherever an expression may stand. -/
structure Lexes (s : Str) (r : Option Chunk) : Prop where
  reads : ∀ previous rest, previous ≠ some .dot → Follows rest →
    read previous (s ++ rest) = r.bind fun p =>
      (read (p.1.getLast?.or previous) (p.2 ++ rest)).map (p.1 ++ ·)
  complete : ∀ p, r = some p → p.Complete

section Chunks

variable {s tail rest : Str} {r : Option Chunk} {previous : Option Token}

theorem Closes.follows (h : Closes rest) : Follows rest := by
  intro c hc
  have := h c hc
  simp only [List.mem_cons] at this ⊢
  tauto

theorem Closes.endsNumber (h : Closes rest) : ∀ c, rest.head? = some c → endsNumber c = true := by
  intro c hc
  have hmem := h c hc
  simp only [List.mem_cons, List.not_mem_nil, or_false] at hmem
  rcases hmem with rfl | rfl | rfl | rfl | rfl <;> rfl

theorem Follows.not_identContinue (h : Follows rest) :
    ∀ c, rest.head? = some c → isIdentContinue c = false := by
  intro c hc
  have hmem := h c hc
  simp only [List.mem_cons, List.not_mem_nil, or_false] at hmem
  rcases hmem with rfl | rfl | rfl | rfl | rfl | rfl <;> rfl

theorem closes_cons {c : Char} (hc : c ∈ [' ', '[', ']', ')', ',']) (rest : Str) :
    Closes (c :: rest) := by
  intro d hd
  obtain rfl := Option.some.inj hd
  exact hc

/-- Where a number has to end, the chunk is closed. -/
theorem Lexes.closed (h : Lexes s r) (hprev : previous ≠ some .dot) (hrest : Closes rest) :
    read previous (s ++ rest) = (r.bind Chunk.closed).bind fun ts =>
      (read ts.getLast? rest).map (ts ++ ·) := by
  rw [h.reads previous rest hprev hrest.follows]
  cases r with
  | none => rfl
  | some p =>
    show (read (p.1.getLast?.or previous) (p.2 ++ rest)).map _ = p.closed.bind _
    unfold Chunk.closed
    rcases h.complete p rfl with ⟨hopen, tok, hlast, -⟩ | hnumber
    · rw [hopen, if_pos rfl, hlast, Option.some_or]
      show _ = (read p.1.getLast? rest).map _
      rw [hlast]
      rfl
    · obtain ⟨c, more, hcons, -⟩ := hnumber.begins
      have hne : p.2 ≠ [] := hcons ▸ List.cons_ne_nil _ _
      rw [if_neg hne, read_number hnumber hrest.endsNumber]
      cases (parseNumberChecked p.2).toOption with
      | none => rfl
      | some n =>
        show ((read _ rest).map _).map _ = (read (p.1 ++ [Token.numberLit n]).getLast? rest).map _
        rw [List.getLast?_concat, Option.map_map]
        exact congrArg (Option.map · _) (funext fun ts => List.append_cons ..)

theorem NumberText.ne_nil {text : Str} (h : NumberText text) : text ≠ [] := by
  obtain ⟨c, more, hcons, -⟩ := h.begins
  exact hcons ▸ List.cons_ne_nil _ _

/-- An access is read behind what is complete, or taken by an open number. -/
theorem Lexes.accessed (h : Lexes s r) {toks : List Token} {tok : Token}
    (hlast : toks.getLast? = some tok) (htok : tok.beforeNumber = false)
    (hpoint : tail.head? = some '.') (hends : ∀ c ∈ tail, endsNumber c = false)
    (hread : ∀ previous rest, previous.all Token.beforeNumber = false → Follows rest →
      read previous (tail ++ rest) = (read (some tok) rest).map (toks ++ ·)) :
    Lexes (s ++ tail) (r.map (Chunk.accessed tail toks)) := by
  have hfollows (rest : Str) : Follows (tail ++ rest) := by
    intro c hc
    rw [List.head?_append, hpoint] at hc
    obtain rfl := Option.some.inj hc
    decide
  have hlast' (ts : List Token) : (ts ++ toks).getLast? = some tok := by
    rw [List.getLast?_append, hlast]
    rfl
  constructor
  · intro previous rest hprev hrest
    rw [List.append_assoc, h.reads previous _ hprev (hfollows rest)]
    cases r with
    | none => rfl
    | some p =>
      show (read (p.1.getLast?.or previous) (p.2 ++ (tail ++ rest))).map _ =
        (read ((p.accessed tail toks).1.getLast?.or previous)
          ((p.accessed tail toks).2 ++ rest)).map _
      unfold Chunk.accessed
      rcases h.complete p rfl with ⟨hopen, tok', hlast'', htok'⟩ | hnumber
      · have hbefore : (some tok').all Token.beforeNumber = false := htok'
        rw [hopen, if_pos rfl, hlast'', Option.some_or, List.nil_append,
          hread _ _ hbefore hrest, hlast', Option.some_or, Option.map_map]
        exact congrArg (Option.map · _) (funext fun ts => (List.append_assoc ..).symm)
      · rw [if_neg hnumber.ne_nil, List.append_assoc]
  · intro p hp
    obtain ⟨q, hq, rfl⟩ := Option.map_eq_some_iff.mp hp
    unfold Chunk.accessed
    rcases h.complete q hq with ⟨hopen, -⟩ | hnumber
    · rw [if_pos hopen]
      exact .inl ⟨rfl, tok, hlast' _, htok⟩
    · rw [if_neg hnumber.ne_nil]
      obtain ⟨c, more, hcons, hc⟩ := hnumber.begins
      refine .inr ⟨⟨c, more ++ tail, by rw [hcons]; rfl, hc⟩, ?_⟩
      rw [List.forall_mem_append]
      exact ⟨hnumber.goesOn, hends⟩

theorem isIdentContinue_of_isKeyword {name : Str} (h : isKeyword name = true) :
    ∀ c ∈ name, isIdentContinue c = true := by
  cases name with
  | nil => exact fun c hc => absurd hc List.not_mem_nil
  | cons first more =>
    obtain ⟨hfirst, hmore⟩ := Bool.and_eq_true_iff.mp h
    exact List.forall_mem_cons.mpr ⟨isIdentContinue_of_start hfirst, List.all_eq_true.mp hmore⟩

theorem Lexes.property (h : Lexes s r) {key : Str} (hkey : isKeyword key = true) :
    Lexes (s ++ '.' :: key) (r.map (Chunk.accessed ('.' :: key) [.dot, .ident key])) := by
  have hlast : [Token.dot, .ident key].getLast? = some (.ident key) := rfl
  refine h.accessed hlast rfl rfl ?_ fun previous rest hprev hrest => ?_
  · exact List.forall_mem_cons.mpr ⟨rfl, fun c hc =>
      not_endsNumber_of_isIdentContinue (isIdentContinue_of_isKeyword hkey c hc)⟩
  · have hnext : (key ++ rest).head?.bind (doubleOperator '.') = none := by
      cases (key ++ rest).head? <;> rfl
    rw [List.cons_append, read_operator rfl (fun _ => hprev) hnext,
      read_word hkey hrest.not_identContinue, Option.map_map]
    rfl

theorem Lexes.wildcard (h : Lexes s r) :
    Lexes (s ++ ['.', '*']) (r.map (Chunk.accessed ['.', '*'] [.dot, .star])) := by
  have hlast : [Token.dot, .star].getLast? = some .star := rfl
  refine h.accessed hlast rfl rfl (by decide) fun previous rest hprev hrest => ?_
  have hnext : rest.head?.bind (doubleOperator '*') = none := by
    cases rest.head? <;> rfl
  show read previous ('.' :: '*' :: rest) = _
  rw [read_operator rfl (fun _ => hprev) rfl, read_operator rfl (by decide) hnext, Option.map_map]
  rfl

/-- Tokens that leave no number open. -/
theorem lexes_of_tokens {ts : List Token} {tok : Token} (hlast : ts.getLast? = some tok)
    (htok : tok.beforeNumber = false)
    (hread : ∀ previous rest, previous ≠ some .dot → Follows rest →
      read previous (s ++ rest) = (read (some tok) rest).map (ts ++ ·)) :
    Lexes s (some (ts, [])) := by
  constructor
  · intro previous rest hprev hrest
    show _ = (read (ts.getLast?.or previous) rest).map _
    rw [hread previous rest hprev hrest, hlast]
    rfl
  · intro p hp
    obtain rfl := Option.some.inj hp
    exact .inl ⟨rfl, tok, hlast, htok⟩

theorem lexes_word {name : Str} {tok : Token} (hname : isKeyword name = true)
    (htok : keywordOrIdent name = tok) (hbefore : tok.beforeNumber = false) :
    Lexes name (some ([tok], [])) := by
  refine lexes_of_tokens rfl hbefore fun previous rest hprev hrest => ?_
  have hword : wordToken previous name = tok := (if_neg hprev).trans htok
  rw [read_word hname hrest.not_identContinue, hword]
  rfl

theorem lexes_literal {value : ExprValue}
    (hvalue : ∀ vs es, value ≠ .array vs ∧ value ≠ .object es) :
    Lexes (literal value) (some (literalChunk value)) := by
  cases value with
  | null => exact lexes_word (by decide) rfl rfl
  | bool b =>
    cases b with
    | false => exact lexes_word (by decide) rfl rfl
    | true => exact lexes_word (by decide) rfl rfl
  | number n =>
    show Lexes (formatNumber n) (some (if _ then _ else if _ then _ else _))
    split
    case isTrue hnan =>
      rw [hnan]
      exact lexes_word (by decide) rfl rfl
    case isFalse hnan =>
      split
      case isTrue hinf =>
        rw [hinf]
        exact lexes_word (by decide) rfl rfl
      case isFalse hinf =>
        have htext := (formatNumber_cases n).resolve_left hnan |>.resolve_left hinf
        constructor
        · intro previous rest _ _
          show _ = (read previous (formatNumber n ++ rest)).map _
          exact Option.map_id'.symm
        · intro p hp
          obtain rfl := Option.some.inj hp
          exact .inr htext
  | string text =>
    refine lexes_of_tokens rfl rfl fun previous rest _ hrest => ?_
    have hquote : rest.head? ≠ some '\'' := fun hc => absurd (hrest _ hc) (by decide)
    show read previous ('\'' :: ((escapeQuotes text ++ ['\'']) ++ rest)) = _
    rw [List.append_assoc]
    exact read_string hquote text
  | array values => exact absurd rfl (hvalue values []).1
  | object entries => exact absurd rfl (hvalue [] entries).2

/-- The text begins with a sign that does not make a negation an inequality. -/
def Opens (s : Str) : Prop := ∃ c rest, s = c :: rest ∧ c ≠ '='

theorem Opens.append (h : Opens s) (t : Str) : Opens (s ++ t) := by
  obtain ⟨c, rest, rfl, hc⟩ := h
  exact ⟨c, rest ++ t, rfl, hc⟩

theorem Lexes.not (h : Lexes s r) (hopens : Opens s) :
    Lexes ('!' :: s) (r.map fun p => (.not :: p.1, p.2)) := by
  constructor
  · intro previous rest hprev hrest
    have hnext : (s ++ rest).head?.bind (doubleOperator '!') = none := by
      obtain ⟨c, more, rfl, hc⟩ := hopens
      show doubleOperator '!' c = none
      unfold doubleOperator
      split
      all_goals first | rfl | exact absurd rfl hc | next hd => exact absurd hd (by decide)
    have hdot : '!' = '.' → previous.all Token.beforeNumber = false := fun hc =>
      absurd hc (by decide)
    rw [List.cons_append, read_operator rfl hdot hnext, h.reads _ _ (by simp) hrest]
    cases r with
    | none => rfl
    | some p =>
      show ((read (p.1.getLast?.or (some .not)) _).map _).map _ =
        (read ((Token.not :: p.1).getLast?.or previous) _).map _
      have hlast : (Token.not :: p.1).getLast?.or previous = p.1.getLast?.or (some .not) := by
        rw [List.getLast?_cons]
        cases p.1.getLast? <;> rfl
      rw [Option.map_map, hlast]
      rfl
  · intro p hp
    obtain ⟨q, hq, rfl⟩ := Option.map_eq_some_iff.mp hp
    rcases h.complete q hq with ⟨hopen, tok, hlast, htok⟩ | hnumber
    · refine .inl ⟨hopen, tok, ?_, htok⟩
      rw [List.getLast?_cons, hlast]
      rfl
    · exact .inr hnumber

/-- The signs of one character that no second one makes another sign. -/
theorem read_single {c : Char} {tok : Token} (hop : singleOperator c = some tok)
    (hc : c ∈ ['(', ')', '[', ']', ',', '*']) (rest : Str) :
    read previous (c :: rest) = (read (some tok) rest).map (tok :: ·) := by
  have hnext : rest.head?.bind (doubleOperator c) = none := by
    simp only [List.mem_cons, List.not_mem_nil, or_false] at hc
    cases rest.head? with
    | none => rfl
    | some d => rcases hc with rfl | rfl | rfl | rfl | rfl | rfl <;> rfl
  refine read_operator hop (fun hdot => ?_) hnext
  rw [hdot] at hc
  exact absurd hc (by decide)

theorem read_binary (op : BinaryOperator) (rest : Str) :
    read previous (' ' :: (operator op ++ ' ' :: rest)) =
      (read (some (operatorToken op)) rest).map (operatorToken op :: ·) := by
  have hspace (tok : Token) : read (some tok) (' ' :: rest) = read (some tok) rest := read_space rfl
  rw [read_space rfl]
  cases op with
  | lt =>
    show read previous ('<' :: ' ' :: rest) = _
    rw [read_operator rfl (fun hc => absurd hc (by decide)) rfl, hspace]
    rfl
  | gt =>
    show read previous ('>' :: ' ' :: rest) = _
    rw [read_operator rfl (fun hc => absurd hc (by decide)) rfl, hspace]
    rfl
  | _ => exact (read_double rfl).trans (congrArg (Option.map _) (hspace _))

theorem Lexes.index {s' : Str} {r' : Option Chunk} (h : Lexes s r) (h' : Lexes s' r') :
    Lexes (s ++ '[' :: (s' ++ [']'])) (do
      let ts ← r.bind Chunk.closed
      let us ← r'.bind Chunk.closed
      some (ts ++ .lBracket :: (us ++ [.rBracket]), [])) := by
  have hlast (ts us : List Token) :
      (ts ++ Token.lBracket :: (us ++ [.rBracket])).getLast? = some .rBracket := by
    have hend : ts ++ Token.lBracket :: (us ++ [.rBracket]) =
        ts ++ Token.lBracket :: us ++ [.rBracket] := by simp
    rw [hend, List.getLast?_concat]
  constructor
  · intro previous rest hprev hrest
    have hsplit : s ++ '[' :: (s' ++ [']']) ++ rest = s ++ '[' :: (s' ++ ']' :: rest) := by simp
    rw [hsplit, h.closed hprev (closes_cons (by decide) _)]
    cases r.bind Chunk.closed with
    | none => rfl
    | some ts =>
      show (read _ ('[' :: _)).map _ = _
      rw [read_single rfl (by decide), h'.closed (by simp) (closes_cons (by decide) _)]
      cases r'.bind Chunk.closed with
      | none => rfl
      | some us =>
        show (((read _ (']' :: rest)).map _).map _).map _ =
          (read ((_ : List Token).getLast?.or _) _).map _
        rw [read_single rfl (by decide), hlast, Option.map_map, Option.map_map, Option.map_map]
        refine congrArg (Option.map · _) (funext fun more => ?_)
        simp
  · intro p hp
    obtain ⟨ts, -, hp⟩ := Option.bind_eq_some_iff.mp hp
    obtain ⟨us, -, hp⟩ := Option.bind_eq_some_iff.mp hp
    obtain rfl := Option.some.inj hp
    exact .inl ⟨rfl, .rBracket, hlast ts us, rfl⟩

theorem Lexes.binary {s' : Str} {r' : Option Chunk} (h : Lexes s r) (h' : Lexes s' r')
    (op : BinaryOperator) :
    Lexes ('(' :: (s ++ ' ' :: (operator op ++ ' ' :: (s' ++ [')'])))) (do
      let ts ← r.bind Chunk.closed
      let us ← r'.bind Chunk.closed
      some (.lParen :: (ts ++ operatorToken op :: (us ++ [.rParen])), [])) := by
  have hlast (ts us : List Token) :
      (Token.lParen :: (ts ++ operatorToken op :: (us ++ [.rParen]))).getLast? = some .rParen := by
    have hend : Token.lParen :: (ts ++ operatorToken op :: (us ++ [.rParen])) =
        Token.lParen :: (ts ++ operatorToken op :: us) ++ [.rParen] := by simp
    rw [hend, List.getLast?_concat]
  have hop : some (operatorToken op) ≠ some .dot := by cases op <;> simp [operatorToken]
  constructor
  · intro previous rest hprev hrest
    have hsplit : '(' :: (s ++ ' ' :: (operator op ++ ' ' :: (s' ++ [')']))) ++ rest =
        '(' :: (s ++ ' ' :: (operator op ++ ' ' :: (s' ++ ')' :: rest))) := by simp
    rw [hsplit, read_single rfl (by decide), h.closed (by simp) (closes_cons (by decide) _)]
    cases r.bind Chunk.closed with
    | none => rfl
    | some ts =>
      show ((read _ (' ' :: _)).map _).map _ = _
      rw [read_binary, h'.closed hop (closes_cons (by decide) _)]
      cases r'.bind Chunk.closed with
      | none => rfl
      | some us =>
        show ((((read _ (')' :: rest)).map _).map _).map _).map _ =
          (read ((_ : List Token).getLast?.or _) _).map _
        rw [read_single rfl (by decide), hlast, Option.map_map, Option.map_map, Option.map_map,
          Option.map_map]
        refine congrArg (Option.map · _) (funext fun more => ?_)
        simp
  · intro p hp
    obtain ⟨ts, -, hp⟩ := Option.bind_eq_some_iff.mp hp
    obtain ⟨us, -, hp⟩ := Option.bind_eq_some_iff.mp hp
    obtain rfl := Option.some.inj hp
    exact .inl ⟨rfl, .rParen, hlast ts us, rfl⟩


/-- The arguments of a call, up to the bracket behind them. -/
theorem read_args {args : List Expr} (h : ∀ arg ∈ args, Lexes (toExpression arg) (lexed arg))
    (hprev : previous ≠ some .dot) (rest : Str) :
    read previous ([',', ' '].intercalate (toExpressions args) ++ ')' :: rest) =
      (lexedArgs args).bind fun tss =>
        (read (some .rParen) rest).map ([Token.comma].intercalate tss ++ .rParen :: ·) := by
  induction args generalizing previous with
  | nil => exact read_single rfl (by decide) rest
  | cons arg args ih =>
    have harg := h arg (List.mem_cons_self ..)
    cases args with
    | nil =>
      rw [toExpressions, toExpressions, List.intercalate_singleton,
        harg.closed hprev (closes_cons (by decide) _), lexedArgs]
      cases (lexed arg).bind Chunk.closed with
      | none => rfl
      | some ts =>
        show (read _ (')' :: rest)).map _ = (read _ rest).map _
        rw [read_single rfl (by decide), List.intercalate_singleton, Option.map_map]
        rfl
    | cons arg' args =>
      have hcomma : some Token.comma ≠ some .dot := by simp
      have htail := ih (fun a ha => h a (List.mem_cons_of_mem _ ha)) hcomma
      have hsplit : [',', ' '].intercalate (toExpressions (arg :: arg' :: args)) ++ ')' :: rest =
          toExpression arg ++ (',' :: ' ' ::
            ([',', ' '].intercalate (toExpressions (arg' :: args)) ++ ')' :: rest)) := by
        rw [toExpressions, toExpressions, List.intercalate_cons_cons, List.append_assoc,
          List.append_assoc]
        rfl
      rw [hsplit, harg.closed hprev (closes_cons (by decide) _), lexedArgs]
      cases (lexed arg).bind Chunk.closed with
      | none => rfl
      | some ts =>
        show (read _ (',' :: _)).map _ = _
        rw [read_single rfl (by decide), read_space rfl, htail]
        cases htss : lexedArgs (arg' :: args) with
        | none => rfl
        | some tss =>
          obtain ⟨us, -, htss⟩ := Option.bind_eq_some_iff.mp htss
          obtain ⟨uss, -, htss⟩ := Option.bind_eq_some_iff.mp htss
          obtain rfl := Option.some.inj htss
          show (((read _ rest).map _).map _).map _ =
            (read _ rest).map ([Token.comma].intercalate (ts :: us :: uss) ++ .rParen :: ·)
          rw [Option.map_map, Option.map_map, List.intercalate_cons_cons]
          refine congrArg (Option.map · _) (funext fun more => ?_)
          simp

theorem lexes_call {name : Str} {args : List Expr} (hname : isKeyword name = true)
    (hident : keywordOrIdent name = .ident name)
    (h : ∀ arg ∈ args, Lexes (toExpression arg) (lexed arg)) :
    Lexes (toExpression (.functionCall name args)) (lexed (.functionCall name args)) := by
  have hlast (tss : List (List Token)) : (Token.ident name :: .lParen ::
      ([Token.comma].intercalate tss ++ [.rParen])).getLast? = some .rParen := by
    have hend : Token.ident name :: .lParen :: ([Token.comma].intercalate tss ++ [.rParen]) =
        Token.ident name :: .lParen :: [Token.comma].intercalate tss ++ [.rParen] := rfl
    rw [hend, List.getLast?_concat]
  constructor
  · intro previous rest hprev hrest
    have hsplit : toExpression (.functionCall name args) ++ rest =
        name ++ '(' :: ([',', ' '].intercalate (toExpressions args) ++ ')' :: rest) := by
      simp [toExpression]
    have hword : wordToken previous name = .ident name := (if_neg hprev).trans hident
    have hparen : ∀ c, ('(' :: ([',', ' '].intercalate (toExpressions args) ++ ')' :: rest)).head? =
        some c → isIdentContinue c = false := by
      intro c hc
      obtain rfl := Option.some.inj hc
      rfl
    rw [hsplit, read_word hname hparen, hword, read_single rfl (by decide), read_args h (by simp),
      lexed]
    cases lexedArgs args with
    | none => rfl
    | some tss =>
      show (((read _ rest).map _).map _).map _ = (read ((_ : List Token).getLast?.or _) _).map _
      rw [hlast, Option.map_map, Option.map_map]
      refine congrArg (Option.map · _) (funext fun more => ?_)
      simp
  · intro p hp
    obtain ⟨tss, -, hp⟩ := Option.bind_eq_some_iff.mp hp
    obtain rfl := Option.some.inj hp
    exact .inl ⟨rfl, .rParen, hlast tss, rfl⟩

/-! ### Trees that are written -/

/-- The node has names and a value that a token can have. -/
def writtenNode : Expr → Bool
  | .literal (.array _) | .literal (.object _) => false
  | .context name | .functionCall name _ => isKeyword name && keywordOrIdent name = .ident name
  | .propertyAccess _ property => isKeyword property
  | _ => true

/-- Every name and every value of the tree can be read from a text. -/
def Written (e : Expr) : Prop := e.all writtenNode = true

theorem opens_of_isKeyword {name : Str} (h : isKeyword name = true) : Opens name := by
  cases name with
  | nil => cases h
  | cons c rest =>
    refine ⟨c, rest, rfl, ?_⟩
    rintro rfl
    cases h

theorem opens_formatNumber (n : F64) : Opens (formatNumber n) := by
  rcases formatNumber_cases n with h | h | h
  · rw [h]
    exact opens_of_isKeyword (by decide)
  · rw [h]
    exact opens_of_isKeyword (by decide)
  · obtain ⟨c, rest, hcons, hc⟩ := h.begins
    refine ⟨c, rest, hcons, ?_⟩
    rintro rfl
    rcases hc with hc | hc <;> cases hc

theorem opens_toExpression {e : Expr} (h : Written e) : Opens (toExpression e) := by
  unfold Written at h
  induction e using Expr.induct with
  | literal value =>
    cases value with
    | null => exact opens_of_isKeyword (by decide)
    | bool b => cases b <;> exact opens_of_isKeyword (by decide)
    | number n => exact opens_formatNumber n
    | string text => exact ⟨'\'', _, rfl, by decide⟩
    | array values => cases h
    | object entries => cases h
  | context name => exact opens_of_isKeyword (Bool.and_eq_true_iff.mp h).1
  | propertyAccess object property ih => exact (ih (Bool.and_eq_true_iff.mp h).2).append _
  | indexAccess object index ihObject ihIndex =>
    have hobject := ihObject (Bool.and_eq_true_iff.mp (Bool.and_eq_true_iff.mp h).2).1
    rw [toExpression]
    split
    · exact hobject.append _
    · exact hobject.append _
  | wildcardAccess object ih => exact (ih (Bool.and_eq_true_iff.mp h).2).append _
  | functionCall name args ih =>
    have hname := (Bool.and_eq_true_iff.mp (Bool.and_eq_true_iff.mp h).1).1
    exact (opens_of_isKeyword hname).append _
  | unaryOp op operand ih => exact ⟨'!', _, rfl, by decide⟩
  | binaryOp op left right ihLeft ihRight => exact ⟨'(', _, rfl, by decide⟩

/-- **What is read of a printed tree**, whatever may follow it. -/
theorem lexes_toExpression {e : Expr} (h : Written e) : Lexes (toExpression e) (lexed e) := by
  unfold Written at h
  induction e using Expr.induct with
  | literal value =>
    refine lexes_literal fun vs es => ⟨?_, ?_⟩
    · rintro rfl
      cases h
    · rintro rfl
      cases h
  | context name =>
    obtain ⟨hname, hident⟩ := Bool.and_eq_true_iff.mp h
    exact lexes_word hname (of_decide_eq_true hident) rfl
  | propertyAccess object property ih =>
    obtain ⟨hkey, hobject⟩ := Bool.and_eq_true_iff.mp h
    exact (ih hobject).property hkey
  | indexAccess object index ihObject ihIndex =>
    obtain ⟨-, h⟩ := Bool.and_eq_true_iff.mp h
    obtain ⟨hobject, hindex⟩ := Bool.and_eq_true_iff.mp h
    cases hkey : keywordIndex index with
    | some key =>
      rw [toExpression, lexed, hkey]
      exact (ihObject hobject).property (keywordIndex_eq_some hkey).2
    | none =>
      rw [toExpression, lexed, hkey]
      exact (ihObject hobject).index (ihIndex hindex)
  | wildcardAccess object ih => exact (ih (Bool.and_eq_true_iff.mp h).2).wildcard
  | functionCall name args ih =>
    obtain ⟨hnode, hargs⟩ := Bool.and_eq_true_iff.mp h
    obtain ⟨hname, hident⟩ := Bool.and_eq_true_iff.mp hnode
    exact lexes_call hname (of_decide_eq_true hident) fun arg harg =>
      ih arg harg (Expr.allArgs_eq_true_iff.mp hargs arg harg)
  | unaryOp op operand ih =>
    obtain ⟨-, hoperand⟩ := Bool.and_eq_true_iff.mp h
    exact (ih hoperand).not (opens_toExpression hoperand)
  | binaryOp op left right ihLeft ihRight =>
    obtain ⟨-, h⟩ := Bool.and_eq_true_iff.mp h
    obtain ⟨hleft, hright⟩ := Bool.and_eq_true_iff.mp h
    exact (ihLeft hleft).binary (ihRight hright) op

theorem read_toExpression {e : Expr} (h : Written e) :
    read none (toExpression e) = (lexed e).bind Chunk.closed := by
  have hstart : (none : Option Token) ≠ some .dot := by simp
  have hend : Closes [] := fun c hc => by cases hc
  have hread := (lexes_toExpression h).closed hstart hend
  rw [List.append_nil] at hread
  rw [hread]
  cases (lexed e).bind Chunk.closed with
  | none => rfl
  | some ts => exact congrArg some (List.append_nil ts)

end Chunks

end GhRunner.Expressions
