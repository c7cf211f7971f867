import GhRunner.Expressions.Value
import GhRunner.Lib.Descent

namespace GhRunner.Expressions

open Text Descent

/-!
# The expression parser

Precedence climbing over the tokens of an expression (`crates/expressions/src/parser/precedence.rs`,
`primary.rs`, `parse.rs` and the tokens of `lexer.rs`).  A parser is the function of the tokens that
are left, where the source moves a position over all of them.

* `Token`, `SyntaxError` — the tokens, and every error with the token it names;
* `BinaryLevel`, `parseLevel` — the four levels of binary operators, one loop each: `parseOr`,
  `parseAnd`, `parseEquality`, `parseComparison`;
* `parseUnary`, `parsePostfix`, `parsePrimary` — the rest of the grammar; what is nested in brackets
  is read by a parser given as an argument;
* `parseTokens` — the whole list.
-/

/-- Two numbers count as equal here when their bits are; no comparison of the parser is of
    numbers. -/
inductive Token
  | ident (name : Str)
  | stringLit (s : Str)
  | numberLit (n : F64)
  | boolLit (b : Bool)
  | null
  | dot
  | lBracket
  | rBracket
  | lParen
  | rParen
  | comma
  | star
  | eq
  | neq
  | lt
  | le
  | gt
  | ge
  | and
  | or
  | not
deriving DecidableEq, Repr

/-- A refusal, with what stood where something else was due: `none` past the end. -/
inductive SyntaxError
  | unexpectedToken (got : Option Token)
  | expectedToken (expected : Token) (got : Option Token)
  | expectedProperty (got : Option Token)
  | literalIndexed
  | trailing (position : ℕ)
  /-- The recursion of the model has run out, which it never does on a whole token list. -/
  | exhausted
deriving DecidableEq, Repr

/-- The text of an error, given how a token prints. -/
def SyntaxError.message (debug : Token → Str) : SyntaxError → Str
  | .unexpectedToken got => "unexpected token: ".toList ++ debugOption got
  | .expectedToken expected got =>
    "expected ".toList ++ debug expected ++ ", got ".toList ++ debugOption got
  | .expectedProperty got => "expected property name or *, got ".toList ++ debugOption got
  | .literalIndexed => "literal cannot be indexed directly".toList
  | .trailing position => "unexpected token at position ".toList ++ (toString position).toList
  | .exhausted => []
where
  debugOption : Option Token → Str
    | none => "None".toList
    | some tok => "Some(".toList ++ debug tok ++ ")".toList

/-- A parser of expression tokens. -/
abbrev TokenParser (α : Type) := Parser Token SyntaxError α

/-- What is left behind the given token. -/
def expectToken (expected : Token) : List Token → Except SyntaxError (List Token)
  | [] => .error (.expectedToken expected none)
  | tok :: rest =>
    if tok = expected then .ok rest else .error (.expectedToken expected (some tok))

theorem expectToken_eq_ok {expected : Token} {ts rest : List Token} :
    expectToken expected ts = .ok rest ↔ ts = expected :: rest := by
  unfold expectToken
  split
  case h_1 => simp
  case h_2 tok rest' =>
    split
    case isTrue htok => simp [htok]
    case isFalse htok => simp [htok]

theorem expectToken_ne_exhausted {expected : Token} {ts : List Token} :
    expectToken expected ts ≠ .error .exhausted := by
  unfold expectToken
  split
  case h_1 => simp
  case h_2 => split <;> simp

/-! ### Binary operators -/

/-- The levels of binary operators, from the loosest. -/
inductive BinaryLevel
  | or
  | and
  | equality
  | comparison
deriving DecidableEq, Repr

def peekEqualityOp : Token → Option BinaryOperator
  | .eq => some .eq
  | .neq => some .neq
  | _ => none

def peekComparisonOp : Token → Option BinaryOperator
  | .lt => some .lt
  | .le => some .le
  | .gt => some .gt
  | .ge => some .ge
  | _ => none

/-- The operators of a level. -/
def BinaryLevel.operator : BinaryLevel → Token → Option BinaryOperator
  | .or, tok => if tok = .or then some .or else none
  | .and, tok => if tok = .and then some .and else none
  | .equality, tok => peekEqualityOp tok
  | .comparison, tok => peekComparisonOp tok

/-- One round of a level's loop: an operator, and its right operand. -/
def binaryStep (level : BinaryLevel) (operand : TokenParser Expr) : Step Token SyntaxError Expr
  | _, [] => none
  | left, tok :: rest =>
    match level.operator tok with
    | none => none
    | some op => some (operand rest >>= fun right => .ok (.binaryOp op left right.1, right.2))

/-- A first operand, and then operators and operands to the left of what is read so far. -/
def parseLevel (level : BinaryLevel) (operand : TokenParser Expr) : TokenParser Expr := fun ts =>
  operand ts >>= fun left => iterate (binaryStep level operand) .exhausted left.1 left.2

def parseComparison (unary : TokenParser Expr) : TokenParser Expr := parseLevel .comparison unary

def parseEquality (unary : TokenParser Expr) : TokenParser Expr :=
  parseLevel .equality (parseComparison unary)

def parseAnd (unary : TokenParser Expr) : TokenParser Expr := parseLevel .and (parseEquality unary)

def parseOr (unary : TokenParser Expr) : TokenParser Expr := parseLevel .or (parseAnd unary)

/-! ### Primaries, calls and access -/

/-- One more argument behind a comma. -/
def argStep (nested : TokenParser Expr) : Step Token SyntaxError (List Expr)
  | args, .comma :: rest => some (nested rest >>= fun arg => .ok (args ++ [arg.1], arg.2))
  | _, _ => none

def parseArgs (nested : TokenParser Expr) : TokenParser (List Expr)
  | .rParen :: rest => .ok ([], .rParen :: rest)
  | ts => nested ts >>= fun arg => iterate (argStep nested) .exhausted [arg.1] arg.2

def parseIdentExpr (nested : TokenParser Expr) (name : Str) : TokenParser Expr
  | .lParen :: rest =>
    parseArgs nested rest >>= fun args =>
      expectToken .rParen args.2 >>= fun rest => .ok (.functionCall name args.1, rest)
  | ts => .ok (.context name, ts)

def parsePrimary (nested : TokenParser Expr) : TokenParser Expr
  | .stringLit s :: rest => .ok (.literal (.string s), rest)
  | .numberLit n :: rest => .ok (.literal (.number n), rest)
  | .boolLit b :: rest => .ok (.literal (.bool b), rest)
  | .null :: rest => .ok (.literal .null, rest)
  | .lParen :: rest =>
    nested rest >>= fun inner => expectToken .rParen inner.2 >>= fun rest => .ok (inner.1, rest)
  | .ident name :: rest => parseIdentExpr nested name rest
  | ts => .error (.unexpectedToken ts.head?)

def parseDotAccess (object : Expr) : TokenParser Expr
  | .star :: rest => .ok (.wildcardAccess object, rest)
  | .ident name :: rest => .ok (.propertyAccess object name, rest)
  | ts => .error (.expectedProperty ts.head?)

/-- One round of the loop over property and index access. -/
def postfixStep (nested : TokenParser Expr) : Step Token SyntaxError Expr
  | object, .dot :: rest => some (parseDotAccess object rest)
  | object, .lBracket :: .star :: rest =>
    some (expectToken .rBracket rest >>= fun rest => .ok (.wildcardAccess object, rest))
  | object, .lBracket :: rest =>
    some (nested rest >>= fun index =>
      expectToken .rBracket index.2 >>= fun rest => .ok (.indexAccess object index.1, rest))
  | _, _ => none

/-- The token is a literal. -/
def Token.isLiteral : Token → Bool
  | .null | .boolLit _ | .numberLit _ | .stringLit _ => true
  | _ => false

/-- The token opens a property or index access. -/
def Token.opensAccess (tok : Token) : Bool := tok = .dot || tok = .lBracket

def parsePostfix (nested : TokenParser Expr) : TokenParser Expr := fun ts =>
  parsePrimary nested ts >>= fun expr =>
    if ts.head?.any Token.isLiteral && expr.2.head?.any Token.opensAccess then
      .error .literalIndexed
    else iterate (postfixStep nested) .exhausted expr.1 expr.2

/-- Every round of the recursion takes a token, and what is nested in brackets goes one round
    deeper. -/
def parseUnary : ℕ → TokenParser Expr
  | 0, _ => .error .exhausted
  | fuel + 1, .not :: rest =>
    parseUnary fuel rest >>= fun operand => .ok (.unaryOp .not operand.1, operand.2)
  | fuel + 1, ts => parsePostfix (parseOr (parseUnary fuel)) ts

theorem parseUnary_not (fuel : ℕ) (rest : List Token) :
    parseUnary (fuel + 1) (.not :: rest) =
      parseUnary fuel rest >>= fun operand => .ok (.unaryOp .not operand.1, operand.2) := rfl

theorem parseUnary_of_head {fuel : ℕ} {ts : List Token} (h : ts.head? ≠ some .not) :
    parseUnary (fuel + 1) ts = parsePostfix (parseOr (parseUnary fuel)) ts := by
  rcases ts with _ | ⟨tok, rest⟩
  · rfl
  · cases tok <;> first | rfl | exact absurd rfl h

/-- What `parse` does with the tokens of its input. -/
def parseTokens (tokens : List Token) : Except SyntaxError Expr :=
  parseOr (parseUnary (tokens.length + 1)) tokens >>= fun expr =>
    if expr.2 = [] then .ok expr.1 else .error (.trailing (tokens.length - expr.2.length))

end GhRunner.Expressions
