import GhRunner.Expressions.Lexer

namespace GhRunner.Expressions

open Text

/-!
# Expressions as they are shown

`to_expression` of `crates/expressions/src/display.rs`: a tree as the text of an expression.

* `literal`, `operator`, `isKeyword`, `toExpression` — the printer;
* `canon` — `a['k']` and `a.k` made one, where `k` is a keyword;
* `Expr.all` — a condition on every node of a tree, with the two of the round trip: `Recovered` for
  its numbers, `Reached` for the objects of its accesses;
* `canon_canon`, `reached_canon` — what `canon` keeps.
-/

/-- Coerce to string following GitHub's rules. -/
def coerceToString : ExprValue → Str
  | .bool b => if b then "true".toList else "false".toList
  | .number n => formatNumber n
  | .string s => s
  | .null => []
  | .array _ => "Array".toList
  | .object _ => "Object".toList

/-- Every quote doubled. -/
def escapeQuotes (text : Str) : Str :=
  text.flatMap fun c => if c = '\'' then ['\'', '\''] else [c]

def literal : ExprValue → Str
  | .string text => '\'' :: (escapeQuotes text ++ ['\''])
  | .null => "null".toList
  | value => coerceToString value

def operator : BinaryOperator → Str
  | .or => "||".toList
  | .and => "&&".toList
  | .eq => "==".toList
  | .neq => "!=".toList
  | .lt => "<".toList
  | .le => "<=".toList
  | .gt => ">".toList
  | .ge => ">=".toList

/-- Upstream's `ExpressionUtility.IsLegalKeyword`. -/
def isKeyword : Str → Bool
  | [] => false
  | first :: rest => (first.isAlpha || first = '_') &&
      rest.all fun c => c.isAlphanum || c = '_' || c = '-'

/-- The key of an index that is shown behind a point. -/
def keywordIndex : Expr → Option Str
  | .literal (.string key) => if isKeyword key then some key else none
  | _ => none

mutual

/-- Upstream's `ExpressionNode.ConvertToExpression`. -/
def toExpression : Expr → Str
  | .literal value => literal value
  | .context name => name
  | .propertyAccess object property => toExpression object ++ '.' :: property
  | .indexAccess object index =>
    match keywordIndex index with
    | some key => toExpression object ++ '.' :: key
    | none => toExpression object ++ '[' :: (toExpression index ++ [']'])
  | .wildcardAccess object => toExpression object ++ ['.', '*']
  | .functionCall name args =>
    name ++ '(' :: ([',', ' '].intercalate (toExpressions args) ++ [')'])
  | .unaryOp .not operand => '!' :: toExpression operand
  | .binaryOp op left right =>
    '(' :: (toExpression left ++ ' ' :: (operator op ++ ' ' :: (toExpression right ++ [')'])))

def toExpressions : List Expr → List Str
  | [] => []
  | arg :: rest => toExpression arg :: toExpressions rest

end

/-! ### Trees -/

/-- Induction over a tree, a call having the case of its arguments. -/
@[elab_as_elim]
theorem Expr.induct {P : Expr → Prop} (literal : ∀ value, P (.literal value))
    (context : ∀ name, P (.context name))
    (propertyAccess : ∀ object property, P object → P (.propertyAccess object property))
    (indexAccess : ∀ object index, P object → P index → P (.indexAccess object index))
    (wildcardAccess : ∀ object, P object → P (.wildcardAccess object))
    (functionCall : ∀ name args, (∀ arg ∈ args, P arg) → P (.functionCall name args))
    (unaryOp : ∀ op operand, P operand → P (.unaryOp op operand))
    (binaryOp : ∀ op left right, P left → P right → P (.binaryOp op left right)) (e : Expr) : P e :=
  @Expr.rec P (fun args => ∀ arg ∈ args, P arg) literal context propertyAccess indexAccess
    wildcardAccess functionCall unaryOp binaryOp (fun _ h => absurd h List.not_mem_nil)
    (fun _ _ hhead htail => List.forall_mem_cons.mpr ⟨hhead, htail⟩) e

mutual

/-- The condition holds of every node of the tree. -/
def Expr.all (p : Expr → Bool) : Expr → Bool
  | .literal value => p (.literal value)
  | .context name => p (.context name)
  | .propertyAccess object property => p (.propertyAccess object property) && object.all p
  | .indexAccess object index => p (.indexAccess object index) && (object.all p && index.all p)
  | .wildcardAccess object => p (.wildcardAccess object) && object.all p
  | .functionCall name args => p (.functionCall name args) && Expr.allArgs p args
  | .unaryOp op operand => p (.unaryOp op operand) && operand.all p
  | .binaryOp op left right => p (.binaryOp op left right) && (left.all p && right.all p)

def Expr.allArgs (p : Expr → Bool) : List Expr → Bool
  | [] => true
  | arg :: rest => arg.all p && Expr.allArgs p rest

end

theorem Expr.allArgs_eq_true_iff {p : Expr → Bool} {args : List Expr} :
    Expr.allArgs p args = true ↔ ∀ arg ∈ args, arg.all p = true := by
  induction args with
  | nil => simp [Expr.allArgs]
  | cons arg rest ih => simp [Expr.allArgs, ih]

/-- The fifteen digits of the number are read as the number. -/
def recoveredNode : Expr → Bool
  | .literal (.number n) => parseNumber (formatNumber n) = n
  | _ => true

/-- Every number of the tree is recovered from its fifteen digits. -/
def Recovered (e : Expr) : Prop := e.all recoveredNode = true

/-- Neither a negation nor a literal. -/
def Expr.selfContained : Expr → Bool
  | .literal _ | .unaryOp .. => false
  | _ => true

/-- The node does not reach into a negation or a literal. -/
def reachedNode : Expr → Bool
  | .propertyAccess object _ | .indexAccess object _ | .wildcardAccess object =>
    object.selfContained
  | _ => true

/-- No access of the tree is applied directly to a negation or to a literal. -/
def Reached (e : Expr) : Prop := e.all reachedNode = true

instance (e : Expr) : Decidable (Recovered e) := inferInstanceAs (Decidable (_ = _))

instance (e : Expr) : Decidable (Reached e) := inferInstanceAs (Decidable (_ = _))

/-! ### One form for the two accesses -/

mutual

/-- The tree with every `a['k']` as `a.k`, where `k` is a keyword. -/
def canon : Expr → Expr
  | .literal value => .literal value
  | .context name => .context name
  | .propertyAccess object property => .propertyAccess (canon object) property
  | .indexAccess object index =>
    match keywordIndex index with
    | some key => .propertyAccess (canon object) key
    | none => .indexAccess (canon object) (canon index)
  | .wildcardAccess object => .wildcardAccess (canon object)
  | .functionCall name args => .functionCall name (canonArgs args)
  | .unaryOp op operand => .unaryOp op (canon operand)
  | .binaryOp op left right => .binaryOp op (canon left) (canon right)

def canonArgs : List Expr → List Expr
  | [] => []
  | arg :: rest => canon arg :: canonArgs rest

end

theorem canonArgs_eq_map (args : List Expr) : canonArgs args = args.map canon := by
  induction args with
  | nil => rfl
  | cons arg rest ih => rw [canonArgs, ih, List.map_cons]

theorem keywordIndex_eq_some {index : Expr} {key : Str} (h : keywordIndex index = some key) :
    index = .literal (.string key) ∧ isKeyword key = true := by
  unfold keywordIndex at h
  split at h
  case h_1 key' =>
    split at h
    case isTrue hkey =>
      obtain rfl := Option.some.inj h
      exact ⟨rfl, hkey⟩
    case isFalse => cases h
  case h_2 => cases h

theorem keywordIndex_canon (e : Expr) : keywordIndex (canon e) = keywordIndex e := by
  cases e with
  | indexAccess object index =>
    show keywordIndex (match keywordIndex index with
      | some key => _
      | none => _) = none
    split <;> rfl
  | _ => rfl

theorem canon_canon (e : Expr) : canon (canon e) = canon e := by
  induction e using Expr.induct with
  | literal value => rfl
  | context name => rfl
  | propertyAccess object property ih => rw [canon, canon, ih]
  | indexAccess object index ihObject ihIndex =>
    rw [canon]
    split
    case h_1 key _ => rw [canon, ihObject]
    case h_2 hindex => rw [canon, keywordIndex_canon, hindex, ihObject, ihIndex]
  | wildcardAccess object ih => rw [canon, canon, ih]
  | functionCall name args ih =>
    rw [canon, canon, canonArgs_eq_map, canonArgs_eq_map, List.map_map]
    exact congrArg _ (List.map_congr_left ih)
  | unaryOp op operand ih => rw [canon, canon, ih]
  | binaryOp op left right ihLeft ihRight => rw [canon, canon, ihLeft, ihRight]

theorem selfContained_canon (e : Expr) : (canon e).selfContained = e.selfContained := by
  cases e with
  | indexAccess object index =>
    show (match keywordIndex index with
      | some key => _
      | none => _ : Expr).selfContained = true
    split <;> rfl
  | _ => rfl

theorem reached_canon (e : Expr) : Reached (canon e) ↔ Reached e := by
  suffices h : (canon e).all reachedNode = e.all reachedNode by rw [Reached, Reached, h]
  induction e using Expr.induct with
  | literal value => rfl
  | context name => rfl
  | propertyAccess object property ih =>
    rw [canon, Expr.all, Expr.all, ih, reachedNode, reachedNode, selfContained_canon]
  | indexAccess object index ihObject ihIndex =>
    rw [canon]
    split
    case h_1 key hindex =>
      obtain ⟨rfl, -⟩ := keywordIndex_eq_some hindex
      rw [Expr.all, Expr.all, ihObject, reachedNode, reachedNode, selfContained_canon, Expr.all]
      exact congrArg _ (Bool.and_true _).symm
    case h_2 =>
      rw [Expr.all, Expr.all, ihObject, ihIndex, reachedNode, reachedNode, selfContained_canon]
  | wildcardAccess object ih =>
    rw [canon, Expr.all, Expr.all, ih, reachedNode, reachedNode, selfContained_canon]
  | functionCall name args ih =>
    have hargs : Expr.allArgs reachedNode (canonArgs args) = Expr.allArgs reachedNode args := by
      rw [Bool.eq_iff_iff, Expr.allArgs_eq_true_iff, Expr.allArgs_eq_true_iff, canonArgs_eq_map,
        List.forall_mem_map]
      exact forall₂_congr fun arg harg => by rw [ih arg harg]
    rw [canon, Expr.all, Expr.all, hargs]
    rfl
  | unaryOp op operand ih =>
    rw [canon, Expr.all, Expr.all, ih]
    rfl
  | binaryOp op left right ihLeft ihRight =>
    rw [canon, Expr.all, Expr.all, ihLeft, ihRight]
    rfl

end GhRunner.Expressions
