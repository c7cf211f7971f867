import GhRunner.Expressions.Evaluator

namespace GhRunner.Expressions

open Text Traced

/-!
# Lazy and strict evaluation

What the evaluator does not evaluate makes no difference to the value, where there would be one.

* `strictExpr` — every operand and every argument first, then the operator or the function;
* `evalCase_ok`, `evalFormat_ok`, `callFunction_collectArgs` — the calls, when all the arguments have
  values;
* `lazy_conservative` — a value of the strict evaluation is the value of the evaluation.
-/

section Strict

variable (platform : Platform) (ctx : SharedContext)

/-- An operator on the values of both operands. -/
def strictBinary (op : BinaryOperator) (left right : SharedValue) : EvalResult :=
  match op with
  | .and => .ok (if left.isTruthy then right else left)
  | .or => .ok (if left.isTruthy then left else right)
  | op => evalComparison platform op left right

mutual

/-- A tree, nothing of which is left out. -/
def strictExpr (node : List ℕ) : Expr → EvalResult
  | .literal value => .ok (.ofExprValue (.fresh node) [] value)
  | .context name => .ok (resolveContext ctx name)
  | .propertyAccess object property => do
    let obj ← strictExpr (0 :: node) object
    .ok (access platform.toUppercase (.fresh node []) obj (some (.string property)))
  | .indexAccess object index => do
    let obj ← strictExpr (0 :: node) object
    let idx ← strictExpr (1 :: node) index
    .ok (access platform.toUppercase (.fresh node []) obj (some idx))
  | .wildcardAccess object => do
    let obj ← strictExpr (0 :: node) object
    .ok (access platform.toUppercase (.fresh node []) obj none)
  | .functionCall name args => do
    let values ← strictArgs node 0 args
    callFunction platform ctx (.fresh node) name values
  | .unaryOp op operand => do
    let value ← strictExpr (0 :: node) operand
    .ok (evalUnary op value)
  | .binaryOp op left right => do
    let leftVal ← strictExpr (0 :: node) left
    let rightVal ← strictExpr (1 :: node) right
    strictBinary platform op leftVal rightVal

def strictArgs (node : List ℕ) (index : ℕ) : List Expr → Except RunnerError (List SharedValue)
  | [] => .ok []
  | arg :: args => do
    let value ← strictExpr (index :: node) arg
    let values ← strictArgs node (index + 1) args
    .ok (value :: values)

end

end Strict

variable {platform : Platform} {ctx : SharedContext} {ref : List ℕ → Ref} {name : Str}
  {values : List SharedValue} {value : SharedValue}

/-! ### Case -/

theorem evalCaseLoop_ok (last : EvalResult) (values : List SharedValue) :
    evalCaseLoop last (values.map .ok) = fnCaseLoop last values := by
  fun_induction fnCaseLoop last values with
  | case1 result rest => rfl
  | case2 result rest ih => exact ih
  | case3 predicate result rest htrue hfalse =>
    cases predicate with
    | bool b =>
      cases b
      · exact absurd rfl hfalse
      · exact absurd rfl htrue
    | _ => rfl
  | case4 values hpairs =>
    match values, hpairs with
    | [], _ => rfl
    | [_], _ => rfl
    | _ :: _ :: _, hpairs => exact absurd rfl (hpairs _ _ _)

theorem evalCase_ok (hodd : values.length % 2 ≠ 0) : evalCase (values.map .ok) = fnCase values := by
  rw [evalCase, List.length_map, if_neg hodd, evalCaseLoop_ok, fnCase, List.getLast?_map]
  cases values.getLast? <;> rfl

/-! ### Format -/

/-- Only the arguments that are counted are asked for. -/
theorem renderSegments_congr {argument argument' : ℕ → EvalResult} (cache : List (Option Str))
    (h : ∀ index < cache.length, argument index = argument' index) (segments : List Segment)
    (result : Str) :
    renderSegments argument cache segments result =
      renderSegments argument' cache segments result := by
  induction segments generalizing cache result with
  | nil => rfl
  | cons segment segments ih =>
    cases segment with
    | text text => exact ih cache h _
    | argument index invalidSpecifier =>
      rw [renderSegments, renderSegments]
      cases hcached : cache[index]? with
      | none => rfl
      | some cached =>
        have hindex : index < cache.length := (List.getElem?_eq_some_iff.mp hcached).1
        have hrest (value result : Str) :
            renderSegments argument (cache.set index (some value)) segments result =
              renderSegments argument' (cache.set index (some value)) segments result :=
          ih _ (by simpa using h) _
        simp only [h index hindex, hrest]

theorem render_congr {argument argument' : ℕ → EvalResult} {count : ℕ}
    (h : ∀ index < count, argument index = argument' index) (template : Str) :
    render argument template count = render argument' template count := by
  have hrender (segments : List Segment) :
      renderSegments argument (List.replicate count none) segments [] =
        renderSegments argument' (List.replicate count none) segments [] :=
    renderSegments_congr _ (by simpa using h) segments []
  simp only [render, hrender]

theorem evalFormat_ok (hsome : values ≠ []) : evalFormat (values.map .ok) = fnFormat values := by
  cases values with
  | nil => exact absurd rfl hsome
  | cons template args =>
    show (render _ template.coerceToString _).result.map _ = _
    rw [List.length_map, fnFormat]
    congr 2
    apply render_congr
    intro index hindex
    rw [List.getElem?_map, List.getElem?_eq_getElem hindex]
    rfl

/-! ### The unused second argument -/

theorem callFunction_unused {first second : SharedValue} (rest : List SharedValue)
    (h : unusedSecond (Builtin.ofName name) first = true) :
    callFunction platform ctx ref name (first :: .null :: rest) =
      callFunction platform ctx ref name (first :: second :: rest) := by
  unfold callFunction
  congr 1
  funext _
  cases hname : Builtin.ofName name with
  | none => rfl
  | some builtin =>
    rw [hname] at h
    cases builtin with
    | contains =>
      cases rest with
      | nil =>
        cases first with
        | array ref filtered values =>
          obtain rfl : values = [] := List.isEmpty_iff.mp h
          rfl
        | object ref entries => rfl
        | _ => cases h
      | cons third rest => rfl
    | startsWith =>
      cases rest with
      | nil =>
        have hfirst : first.isPrimitive = false := by simpa [unusedSecond] using h
        show fnStartsWith platform [first, .null] = fnStartsWith platform [first, second]
        simp only [fnStartsWith, hfirst, Bool.false_and]
      | cons third rest => rfl
    | endsWith =>
      cases rest with
      | nil =>
        have hfirst : first.isPrimitive = false := by simpa [unusedSecond] using h
        show fnEndsWith platform [first, .null] = fnEndsWith platform [first, second]
        simp only [fnEndsWith, hfirst, Bool.false_and]
      | cons third rest => rfl
    | join =>
      cases rest with
      | nil =>
        cases first with
        | array ref filtered values =>
          -- nothing is joined, so the separator does not show
          have hshort : values.length ≤ 1 := of_decide_eq_true h
          match values, hshort with
          | [], _ => rfl
          | [value], _ => rfl
        | _ => rfl
      | cons third rest => rfl
    | _ => cases h

theorem collectArgs_more (builtin : Option Builtin) {evaluated : List SharedValue}
    (h : 2 ≤ evaluated.length) (values : List SharedValue) :
    collectArgs builtin evaluated (values.map .ok) = .ok (evaluated ++ values) := by
  induction values generalizing evaluated with
  | nil => rw [List.append_nil]; rfl
  | cons value values ih =>
    rw [List.map_cons, collectArgs, if_neg (by omega)]
    show collectArgs builtin (evaluated ++ [value]) (values.map .ok) = _
    rw [ih (by rw [List.length_append]; omega), List.append_assoc]
    rfl

variable (platform ctx ref name) in
/-- A call is the same whether its unused second argument is evaluated or not. -/
theorem callFunction_collectArgs (values : List SharedValue) :
    (collectArgs (Builtin.ofName name) [] (values.map .ok) >>=
        callFunction platform ctx ref name) =
      callFunction platform ctx ref name values := by
  match values with
  | [] => rfl
  | [first] => rfl
  | first :: second :: rest =>
    show collectArgs _ [first] (.ok second :: rest.map .ok) >>= _ = _
    rw [collectArgs]
    by_cases h : unusedSecond (Builtin.ofName name) first = true
    · rw [if_pos ⟨rfl, h⟩]
      show collectArgs _ ([first] ++ [.null]) (rest.map .ok) >>= _ = _
      rw [collectArgs_more _ (le_refl 2)]
      exact callFunction_unused rest h
    · rw [if_neg (fun hboth => h hboth.2)]
      show collectArgs _ ([first] ++ [second]) (rest.map .ok) >>= _ = _
      rw [collectArgs_more _ (le_refl 2)]
      rfl

/-! ### Calls -/

/-- A call of values whose arguments are all evaluated is the call whose arguments need not be. -/
theorem evalCall_ok (hcall : callFunction platform ctx ref name values = .ok value) :
    evalCall platform ctx ref name (values.map .ok) = .ok value := by
  obtain ⟨⟨⟩, hvalid, hbody⟩ := Descent.bind_eq_ok.mp hcall
  obtain ⟨builtin, hname, hmin, -, hodd⟩ := validateArity_eq_ok_iff.mp hvalid
  have hlazy := callFunction_collectArgs platform ctx ref name values
  rw [hcall, hname] at hlazy
  rw [hname] at hbody
  unfold evalCall
  rw [hname]
  cases builtin with
  | case => exact (evalCase_ok fun heven => hodd ⟨rfl, heven⟩).trans hbody
  | format =>
    have hsome : values ≠ [] := by
      rintro rfl
      exact absurd hmin (by decide)
    exact (evalFormat_ok hsome).trans hbody
  | _ => exact hlazy

/-! ### Trees -/

theorem evalBinary_ok {op : BinaryOperator} {left right : SharedValue}
    (h : strictBinary platform op left right = .ok value) :
    evalBinary platform op left (.ok right) = .ok value := by
  cases op with
  | and =>
    show (if left.isTruthy then _ else _) = _
    rw [← h]
    show _ = Except.ok (if left.isTruthy then right else left)
    split <;> rfl
  | or =>
    show (if left.isTruthy then _ else _) = _
    rw [← h]
    show _ = Except.ok (if left.isTruthy then left else right)
    split <;> rfl
  | _ => exact h

theorem isPrimitive_access {obj idx : SharedValue} (ref : Ref) (h : obj.isPrimitive = true) :
    access platform.toUppercase ref obj (some idx) = .null := by
  cases obj <;> first | rfl | cases h

mutual

theorem evalExpr_of_strictExpr {node : List ℕ} : ∀ {e : Expr} {value : SharedValue},
    strictExpr platform ctx node e = .ok value → evalExpr platform ctx node e = .ok value
  | .literal _, _, h => h
  | .context _, _, h => h
  | .propertyAccess object property, value, h => by
    obtain ⟨obj, hobj, hvalue⟩ := Descent.bind_eq_ok.mp h
    exact Descent.bind_eq_ok.mpr ⟨obj, evalExpr_of_strictExpr hobj, hvalue⟩
  | .indexAccess object index, value, h => by
    obtain ⟨obj, hobj, hrest⟩ := Descent.bind_eq_ok.mp h
    obtain ⟨idx, hidx, hvalue⟩ := Descent.bind_eq_ok.mp hrest
    refine Descent.bind_eq_ok.mpr ⟨obj, evalExpr_of_strictExpr hobj, ?_⟩
    split
    case isTrue hprimitive => rw [← hvalue, isPrimitive_access _ hprimitive]
    case isFalse => exact Descent.bind_eq_ok.mpr ⟨idx, evalExpr_of_strictExpr hidx, hvalue⟩
  | .wildcardAccess object, value, h => by
    obtain ⟨obj, hobj, hvalue⟩ := Descent.bind_eq_ok.mp h
    exact Descent.bind_eq_ok.mpr ⟨obj, evalExpr_of_strictExpr hobj, hvalue⟩
  | .functionCall name args, value, h => by
    obtain ⟨values, hvalues, hcall⟩ := Descent.bind_eq_ok.mp h
    rw [evalExpr, evalArgs_of_strictArgs hvalues]
    exact evalCall_ok hcall
  | .unaryOp op operand, value, h => by
    obtain ⟨inner, hinner, hvalue⟩ := Descent.bind_eq_ok.mp h
    exact Descent.bind_eq_ok.mpr ⟨inner, evalExpr_of_strictExpr hinner, hvalue⟩
  | .binaryOp op left right, value, h => by
    obtain ⟨leftVal, hleft, hrest⟩ := Descent.bind_eq_ok.mp h
    obtain ⟨rightVal, hright, hvalue⟩ := Descent.bind_eq_ok.mp hrest
    refine Descent.bind_eq_ok.mpr ⟨leftVal, evalExpr_of_strictExpr hleft, ?_⟩
    rw [evalExpr_of_strictExpr hright]
    exact evalBinary_ok hvalue

theorem evalArgs_of_strictArgs {node : List ℕ} : ∀ {index : ℕ} {args : List Expr}
    {values : List SharedValue}, strictArgs platform ctx node index args = .ok values →
      evalArgs platform ctx node index args = values.map .ok
  | _, [], _, h => by
    cases h
    rfl
  | index, arg :: args, _, h => by
    obtain ⟨value, hvalue, hrest⟩ := Descent.bind_eq_ok.mp h
    obtain ⟨values, hvalues, heq⟩ := Descent.bind_eq_ok.mp hrest
    cases heq
    rw [evalArgs, evalExpr_of_strictExpr hvalue, evalArgs_of_strictArgs hvalues]
    rfl

end

/-- Laziness may turn an error into a value, but no value into another. -/
theorem lazy_conservative (platform : Platform) (ctx : SharedContext) (e : Expr)
    (value : SharedValue) (h : strictExpr platform ctx [] e = .ok value) :
    evalExpr platform ctx [] e = .ok value :=
  evalExpr_of_strictExpr h

/-- ASCII letters only, and no JSON but the number one. -/
def plainPlatform : Platform where
  toUppercase c := [c.toUpper]
  fromStr _ := .ok (.number SharedValue.oneBits)
  hashFiles _ _ := .ok []
  debug _ := []

/-- What is looked for in an object is not evaluated. -/
theorem lazy_conservative_object :
    evalExpr plainPlatform
      ⟨AList.insert "inputs".toList (.object (.given "inputs".toList []) []) ∅, .success, none⟩ []
      (.functionCall "contains".toList
        [.context "inputs".toList,
          .functionCall "fromJSON".toList [.literal (.string "1".toList)]]) =
      .ok (.bool false) :=
  lazy_conservative _ _ _ _ rfl

end GhRunner.Expressions
