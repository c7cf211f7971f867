import GhRunner.Lib.Text
import GhRunner.Lib.Traced
import Mathlib.Data.List.AList

namespace GhRunner.Expressions

open Text

/-!
# Expression values and the engine

The values of the expression language and what an evaluation may read
(`crates/expressions/src/types.rs`, `object.rs`, `evaluator.rs` and `parser/ast.rs`).

* `HashMap` — a hash map: its entries in the order in which it happens to be gone through;
* `ExprValue`, `EvalContext` — the values, and the contexts they are looked up in;
* `Expr` — the syntax tree;
* `Engine` — the lexer, the parser and the evaluator, of which nothing is assumed;
* `Evaluation` — a computation that may fail, with every expression it evaluated.
-/

inductive RunnerError
  | expression (message : Str)
  | actionResolution (message : Str)
  | other (message : Str)
deriving DecidableEq, Repr

/-- The entries stand in the order in which the map is gone through. -/
abbrev HashMap (V : Type) := AList fun _ : Str => V

/-- An `f64` by its bits. -/
abbrev F64 := BitVec 64

inductive ExprValue
  | null
  | bool (b : Bool)
  | number (n : F64)
  | string (s : Str)
  | array (values : List ExprValue)
  /-- The entries in the order in which they were inserted. -/
  | object (entries : List (Str × ExprValue))

/-- An entry of the same name is replaced where it stands; a new one goes to the end. -/
def objectInsert (key : Str) (value : ExprValue) :
    List (Str × ExprValue) → List (Str × ExprValue)
  | [] => [(key, value)]
  | (k, v) :: rest =>
    if k = key then (k, value) :: rest else (k, v) :: objectInsert key value rest

def objectGet (key : Str) (entries : List (Str × ExprValue)) : Option ExprValue :=
  (entries.find? fun entry => entry.1 = key).map (·.2)

/-- Current job status for status functions. -/
inductive JobStatus
  | success
  | failure
  | cancelled
deriving DecidableEq, Repr

/-- Context available during expression evaluation. -/
structure EvalContext where
  contexts : HashMap ExprValue
  jobStatus : JobStatus
  workspace : Option Str

inductive BinaryOperator
  | or | and | eq | neq | lt | le | gt | ge
deriving DecidableEq, Repr

inductive UnaryOperator
  | not
deriving DecidableEq, Repr

inductive Expr
  | literal (value : ExprValue)
  | context (name : Str)
  | propertyAccess (object : Expr) (property : Str)
  | indexAccess (object index : Expr)
  | wildcardAccess (object : Expr)
  | functionCall (name : Str) (args : List Expr)
  | unaryOp (op : UnaryOperator) (operand : Expr)
  | binaryOp (op : BinaryOperator) (left right : Expr)

/-- The expression engine: any parser, any evaluator and any way to print a number. -/
structure Engine where
  parse : Str → Except RunnerError Expr
  evaluate : Str → EvalContext → Except RunnerError ExprValue
  formatNumber : F64 → Str

def Engine.coerceToString (engine : Engine) : ExprValue → Str
  | .bool b => if b then "true".toList else "false".toList
  | .number n => engine.formatNumber n
  | .string s => s
  | .null => []
  | .array _ => "Array".toList
  | .object _ => "Object".toList

/-- What a computation returns or fails with, and every expression it evaluated. -/
abbrev Evaluation (α : Type) := Traced RunnerError Str α

end GhRunner.Expressions
