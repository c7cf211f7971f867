import GhRunner.Expressions.Functions
import GhRunner.Expressions.Lexer

namespace GhRunner.Expressions

open Text Traced

/-!
# The evaluator

Trees against a snapshot, and what is not evaluated on the way
(`crates/expressions/src/evaluator.rs`, `validation.rs`).

* `validate` — the names and the calls of a whole tree, before it is evaluated;
* `evalCase`, `evalFormat`, `collectArgs` — the calls that need not evaluate every argument;
* `evalExpr`, `evaluate` — a tree, and an expression;
* `Platform.engine` — the expression engine that the runner's contexts are evaluated with.

What is evaluated is given as the results of the arguments; the ones that are not looked at are not
evaluated.
-/

section Evaluator

variable (platform : Platform) (ctx : SharedContext)

/-! ### Validation -/

mutual

/-- Check all names and call arities, including unselected branches. -/
def validate : Expr → Except RunnerError Unit
  | .literal _ => .ok ()
  | .context name =>
    if ctx.contexts.keys.any fun key => eqIgnoreAsciiCase key name then .ok ()
    else .error (.expression ("unknown named value: ".toList ++ name))
  | .propertyAccess object _ => validate object
  | .wildcardAccess object => validate object
  | .indexAccess object index => do
    validate object
    validate index
  | .functionCall name args => do
    validateArity name args.length
    validateArgs args
  | .unaryOp _ operand => validate operand
  | .binaryOp _ left right => do
    validate left
    validate right

def validateArgs : List Expr → Except RunnerError Unit
  | [] => .ok ()
  | arg :: args => do
    validate arg
    validateArgs args

end

/-! ### Calls -/

abbrev EvalResult := Except RunnerError SharedValue

/-- Case-insensitive context lookup. -/
def resolveContext (name : Str) : SharedValue :=
  ((ctx.contexts.entries.find? fun entry => eqIgnoreAsciiCase entry.1 name).map (·.2)).getD .null

/-- The function pays no attention to its second argument, given the first. -/
def unusedSecond (builtin : Option Builtin) (first : SharedValue) : Bool :=
  match builtin with
  | some .contains =>
    match first with
    | .array _ _ values => values.isEmpty
    | .object _ _ => true
    | _ => false
  | some .startsWith | some .endsWith => !first.isPrimitive
  | some .join =>
    match first with
    | .array _ _ values => values.length ≤ 1
    | _ => true
  | _ => false

/-- The values of the arguments; an unused one is not evaluated. -/
def collectArgs (builtin : Option Builtin) :
    List SharedValue → List EvalResult → Except RunnerError (List SharedValue)
  | evaluated, [] => .ok evaluated
  | evaluated, result :: results => do
    let value ←
      if evaluated.length = 1 ∧ evaluated.head?.any (unusedSecond builtin) then .ok .null
      else result
    collectArgs builtin (evaluated ++ [value]) results

/-- The pairs of a predicate and a result, and what is left when none holds. -/
def evalCaseLoop (last : EvalResult) : List EvalResult → EvalResult
  | predicate :: result :: rest => do
    match ← predicate with
    | .bool false => evalCaseLoop last rest
    | .bool true => result
    | _ => .error casePredicateError
  | _ => last

def evalCase (results : List EvalResult) : EvalResult :=
  if results.length % 2 = 0 then
    .error (.expression "case requires an odd number of arguments".toList)
  else
    evalCaseLoop (results.getLast?.getD (.error (.expression "case missing default".toList))) results

def evalFormat : List EvalResult → EvalResult
  | [] => .error (.expression "format missing template".toList)
  | template :: results => do
    let template ← template
    (render (fun index =>
      results[index]?.getD (.error (.expression "format missing argument".toList)))
      template.coerceToString results.length).result.map .string

/-- A call, of which the results of the arguments are given. -/
def evalCall (ref : List ℕ → Ref) (name : Str) (results : List EvalResult) : EvalResult :=
  match Builtin.ofName name with
  | some .case => evalCase results
  | some .format => evalFormat results
  | builtin => do
    let evaluated ← collectArgs builtin [] results
    callFunction platform ctx ref name evaluated

/-! ### Operators -/

def ordered (left right : SharedValue) (order : Ordering) : Bool :=
  match left, right with
  | .string a, .string b => ordinalCompare platform.toUppercase a b = order
  | .null, .null => false
  | left, right => Binary64.partialCmp left.coerceToNumber right.coerceToNumber = some order

def evalComparison (op : BinaryOperator) (left right : SharedValue) : EvalResult :=
  match op with
  | .eq => .ok (.bool (left.looseEq platform.toUppercase right))
  | .neq => .ok (.bool (!left.looseEq platform.toUppercase right))
  | .lt => .ok (.bool (ordered platform left right .lt))
  | .le =>
    .ok (.bool (left.looseEq platform.toUppercase right || ordered platform left right .lt))
  | .gt => .ok (.bool (ordered platform left right .gt))
  | .ge =>
    .ok (.bool (left.looseEq platform.toUppercase right || ordered platform left right .gt))
  | .and | .or => .error (.expression "unexpected && or || in comparison".toList)

def evalUnary : UnaryOperator → SharedValue → SharedValue
  | .not, operand => .bool (!operand.isTruthy)

/-- An operator, of which the left operand's value and the right operand's result are given. -/
def evalBinary (op : BinaryOperator) (left : SharedValue) (right : EvalResult) : EvalResult :=
  match op with
  | .and => if left.isTruthy then right else .ok left
  | .or => if left.isTruthy then .ok left else right
  | op => do
    let right ← right
    evalComparison platform op left right

/-! ### Trees -/

mutual

/-- A tree; `node` is the way to it from the root, the last step first. -/
def evalExpr (node : List ℕ) : Expr → EvalResult
  | .literal value => .ok (.ofExprValue (.fresh node) [] value)
  | .context name => .ok (resolveContext ctx name)
  | .propertyAccess object property => do
    let obj ← evalExpr (0 :: node) object
    .ok (access platform.toUppercase (.fresh node []) obj (some (.string property)))
  | .indexAccess object index => do
    let obj ← evalExpr (0 :: node) object
    if obj.isPrimitive then .ok .null
    else do
      let idx ← evalExpr (1 :: node) index
      .ok (access platform.toUppercase (.fresh node []) obj (some idx))
  | .wildcardAccess object => do
    let obj ← evalExpr (0 :: node) object
    .ok (access platform.toUppercase (.fresh node []) obj none)
  | .functionCall name args => evalCall platform ctx (.fresh node) name (evalArgs node 0 args)
  | .unaryOp op operand => do
    let value ← evalExpr (0 :: node) operand
    .ok (evalUnary op value)
  | .binaryOp op left right => do
    let leftVal ← evalExpr (0 :: node) left
    evalBinary platform op leftVal (evalExpr (1 :: node) right)

/-- The results of the arguments from the given one on. -/
def evalArgs (node : List ℕ) (index : ℕ) : List Expr → List EvalResult
  | [] => []
  | arg :: args => evalExpr (index :: node) arg :: evalArgs node (index + 1) args

end

/-- Evaluate an expression string against a context. -/
def evaluate (input : Str) : EvalResult := do
  let expr ← parse platform.debug input
  validate ctx expr
  evalExpr platform ctx [] expr

end Evaluator

/-- The snapshot with its arrays and objects as built where they stand. -/
def EvalContext.shared (ctx : EvalContext) : SharedContext where
  contexts :=
    ⟨ctx.contexts.entries.map fun entry =>
      ⟨entry.1, .ofExprValue (.given entry.1) [] entry.2⟩, by
        rw [List.NodupKeys, List.keys, List.map_map]
        exact ctx.contexts.nodupKeys⟩
  jobStatus := ctx.jobStatus
  workspace := ctx.workspace

def Platform.engine (platform : Platform) : Engine where
  parse := parse platform.debug
  evaluate input ctx := (evaluate platform ctx.shared input).map SharedValue.toExprValue
  formatNumber := formatNumber

end GhRunner.Expressions
