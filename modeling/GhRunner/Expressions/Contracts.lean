import GhRunner.Expressions.Display
import GhRunner.Expressions.Strictness
import GhRunner.Lib.Raises

namespace GhRunner.Expressions

open Text Traced

/-!
# Names and argument counts

`validate` and the evaluator keep their own tables of names and counts. What the first accepts, the
second does not refuse for its names or its counts, whichever parts of the tree it comes to.

* `ContractError` — an unknown name, or a wrong number of arguments, by the text of the error;
* `EvaluationError` — what is left for the evaluation of a tree that was accepted;
* `evaluates_callFunction`, `evaluates_evalCall` — one call with an accepted number of arguments;
* `evaluates_evalExpr` — a whole tree;
* `validated_meets_contracts` — every part of an accepted tree.
-/

/-! ### The errors -/

def contractTexts : List Str :=
  ["case expects an odd number of arguments".toList,
    "case requires an odd number of arguments".toList, "case missing predicate".toList,
    "case missing result".toList, "case missing default".toList, "format missing template".toList,
    "format missing argument".toList, "format requires an argument".toList,
    "format argument out of range".toList, "hashFiles expects at least 1 argument".toList,
    "join expects 1-2 arguments".toList, "join expects at least 1 argument".toList]

/-- An unknown name, or a wrong number of arguments. -/
inductive ContractError : RunnerError → Prop
  | namedValue (name : Str) :
    ContractError (.expression ("unknown named value: ".toList ++ name))
  | function (name : Str) : ContractError (unknownFunction name)
  | arity (name : Str) (min max count : ℕ) :
    ContractError (.expression (name ++ " expects ".toList ++ decimalText min ++ "..=".toList ++
      decimalText max ++ " arguments, got ".toList ++ decimalText count))
  | count (name expected : String) (count : ℕ) : ContractError (wrongCount name expected count)
  | text {text : Str} (htext : text ∈ contractTexts) : ContractError (.expression text)

/-- What can be wrong with a format string. -/
inductive FormatFault
  | emptyIndex
  | largeIndex
  | indexRange
  | openSpecifier
  | openPlaceholder
  | closingBrace
  | index
  | specifier
deriving DecidableEq, Repr

namespace FormatFault

def message : FormatFault → Str
  | emptyIndex => "invalid argument index: cannot parse integer from empty string".toList
  | largeIndex => "invalid argument index: number too large to fit in target type".toList
  | indexRange => "argument index out of range".toList
  | openSpecifier => "unclosed format specifier".toList
  | openPlaceholder => "unclosed or invalid placeholder".toList
  | closingBrace => "unmatched closing brace".toList
  | index => "index out of range".toList
  | specifier => "unsupported format specifier".toList

def all : List FormatFault :=
  [emptyIndex, largeIndex, indexRange, openSpecifier, openPlaceholder, closingBrace, index, specifier]

theorem mem_all (fault : FormatFault) : fault ∈ all := by
  cases fault <;> decide

end FormatFault

/-- The error is one of the JSON parser or of hashing files. -/
def Platform.Raises (platform : Platform) (err : RunnerError) : Prop :=
  (∃ s, platform.fromStr s = .error err) ∨
    ∃ workspace patterns, platform.hashFiles workspace patterns = .error err

/-- What the evaluation of an accepted tree may still end in. -/
inductive EvaluationError (platform : Platform) : RunnerError → Prop
  | predicate : EvaluationError platform casePredicateError
  | format (fault : FormatFault) : EvaluationError platform (invalidFormat fault.message)
  | workspace : EvaluationError platform
      (.expression "hashFiles is unavailable outside a job workspace".toList)
  | emptyJson :
    EvaluationError platform (.expression "fromJSON: empty string is not valid JSON".toList)
  | outside {err : RunnerError} (h : platform.Raises err) : EvaluationError platform err

theorem contractError_text {text : Str} (h : ContractError (.expression text)) :
    "unknown named value: ".toList <+: text ∨ "unknown function: ".toList <+: text ∨
      " expects ".toList <:+: text ∨ text ∈ contractTexts := by
  generalize herr : RunnerError.expression text = err at h
  cases h with
  | namedValue name =>
    obtain rfl := RunnerError.expression.inj herr
    exact .inl (List.prefix_append _ _)
  | function name =>
    obtain rfl := RunnerError.expression.inj herr
    exact .inr (.inl (List.prefix_append _ _))
  | arity name min max count =>
    obtain rfl := RunnerError.expression.inj herr
    refine .inr (.inr (.inl ?_))
    simp only [List.append_assoc]
    exact (List.prefix_append _ _).isInfix.trans (List.suffix_append _ _).isInfix
  | count name expected count =>
    obtain rfl := RunnerError.expression.inj herr
    refine .inr (.inr (.inl ?_))
    simp only [List.append_assoc]
    exact (List.prefix_append _ _).isInfix.trans (List.suffix_append _ _).isInfix
  | text htext =>
    obtain rfl := RunnerError.expression.inj herr
    exact .inr (.inr (.inr htext))

/-- The texts of the errors that are the evaluator's own. -/
def evaluationTexts : List Str :=
  "case predicate must evaluate to a boolean".toList ::
    "hashFiles is unavailable outside a job workspace".toList ::
    "fromJSON: empty string is not valid JSON".toList ::
    FormatFault.all.map fun fault => "format: ".toList ++ fault.message

theorem evaluationTexts_apart : ∀ text ∈ evaluationTexts,
    ¬ ("unknown named value: ".toList <+: text ∨ "unknown function: ".toList <+: text ∨
      " expects ".toList <:+: text ∨ text ∈ contractTexts) := by
  unfold evaluationTexts FormatFault.all contractTexts
  simp only [List.map_cons, List.map_nil]
  unfold FormatFault.message
  -- without this the kernel reads every text out of its bytes
  repeat rw [String.toList_ofList]
  decide +kernel

/-- What is left for the evaluation of an accepted tree is none of the errors of its names and
    counts. -/
theorem raises_of_contractError {platform : Platform} {err : RunnerError}
    (h : EvaluationError platform err) (hcontract : ContractError err) : platform.Raises err := by
  have hnone (text : Str) (htext : text ∈ evaluationTexts)
      (herr : ContractError (.expression text)) : platform.Raises err :=
    absurd (contractError_text herr) (evaluationTexts_apart text htext)
  have hfault (fault : FormatFault) : "format: ".toList ++ fault.message ∈ evaluationTexts :=
    .tail _ (.tail _ (.tail _ (List.mem_map.mpr ⟨fault, fault.mem_all, rfl⟩)))
  cases h with
  | predicate => exact hnone _ (.head _) hcontract
  | format fault => exact hnone _ (hfault fault) hcontract
  | workspace => exact hnone _ (.tail _ (.head _)) hcontract
  | emptyJson => exact hnone _ (.tail _ (.tail _ (.head _))) hcontract
  | outside hraises => exact hraises

variable {platform : Platform} {ctx : SharedContext}

/-- The computation ends in a value, or in an error that names and counts have no part in. -/
abbrev Evaluates (platform : Platform) {α : Type} (x : Except RunnerError α) : Prop :=
  RaisesOnly (EvaluationError platform) x

theorem evaluates_invalidFormat {α : Type} (fault : FormatFault) :
    Evaluates platform (.error (invalidFormat fault.message) : Except RunnerError α) :=
  RaisesOnly.error (.format fault)

/-! ### Format strings -/

theorem evaluates_formatIndex (digits : Str) : Evaluates platform (formatIndex digits) := by
  unfold formatIndex
  apply RaisesOnly.ite
  · exact fun _ => evaluates_invalidFormat .emptyIndex
  · intro _
    apply RaisesOnly.ite
    · exact fun _ => evaluates_invalidFormat .largeIndex
    · exact fun _ => RaisesOnly.ok _

theorem evaluates_formatEnd (chars : Str) : Evaluates platform (formatEnd chars) := by
  unfold formatEnd
  split
  · exact RaisesOnly.ok _
  · split
    · exact RaisesOnly.ok _
    · exact evaluates_invalidFormat .openSpecifier
  · exact evaluates_invalidFormat .openPlaceholder

theorem evaluates_formatArgument (count : ℕ) (chars : Str) :
    Evaluates platform (formatArgument count chars) := by
  apply RaisesOnly.bind (evaluates_formatIndex _)
  intro index _
  apply RaisesOnly.ite
  · exact fun _ => evaluates_invalidFormat .indexRange
  · intro _
    apply RaisesOnly.bind (evaluates_formatEnd _)
    exact fun _ _ => RaisesOnly.ok _

theorem evaluates_parseFormatLoop (count fuel : ℕ) (text chars : Str) :
    Evaluates platform (parseFormatLoop count fuel text chars) := by
  induction fuel generalizing text chars with
  | zero => exact RaisesOnly.ok _
  | succ fuel ih =>
    cases chars with
    | nil => exact RaisesOnly.ok _
    | cons ch rest =>
      rw [parseFormatLoop]
      apply RaisesOnly.ite
      · exact fun _ => ih _ _
      · intro _
        apply RaisesOnly.ite
        · exact fun _ => ih _ _
        · intro _
          apply RaisesOnly.ite
          · exact fun _ => evaluates_invalidFormat .closingBrace
          · intro _
            apply RaisesOnly.bind (evaluates_formatArgument count rest)
            intro argument _
            apply RaisesOnly.bind (ih _ _)
            exact fun _ _ => RaisesOnly.ok _

/-- Only the arguments that are counted are asked for. -/
theorem evaluates_renderSegments {argument : ℕ → EvalResult} (cache : List (Option Str))
    (h : ∀ index < cache.length, Evaluates platform (argument index)) (segments : List Segment)
    (result : Str) : Evaluates platform (renderSegments argument cache segments result).result := by
  induction segments generalizing cache result with
  | nil => exact RaisesOnly.ok _
  | cons segment segments ih =>
    cases segment with
    | text text => exact ih cache h _
    | argument index invalidSpecifier =>
      rw [renderSegments]
      cases hcached : cache[index]? with
      | none => exact evaluates_invalidFormat .index
      | some cached =>
        apply RaisesOnly.traced
        · cases cached with
          | none => exact (h index (List.getElem?_eq_some_iff.mp hcached).1).map
          | some value => exact RaisesOnly.ok _
        · intro value _
          split
          · exact evaluates_invalidFormat .specifier
          · exact ih _ (by simpa using h) _

theorem evaluates_render {argument : ℕ → EvalResult} {count : ℕ}
    (h : ∀ index < count, Evaluates platform (argument index)) (template : Str) :
    Evaluates platform (render argument template count).result := by
  unfold render
  apply RaisesOnly.traced
  · exact evaluates_parseFormatLoop count _ [] template
  · intro segments _
    exact evaluates_renderSegments _ (by simpa using h) segments []

/-! ### Functions of values -/

theorem evaluates_fnCaseLoop {last : EvalResult} (h : Evaluates platform last)
    (values : List SharedValue) : Evaluates platform (fnCaseLoop last values) := by
  fun_induction fnCaseLoop last values with
  | case1 result rest => exact RaisesOnly.ok _
  | case2 result rest ih => exact ih
  | case3 predicate result rest _ _ => exact RaisesOnly.error .predicate
  | case4 values _ => exact h

theorem evaluates_fnHashFiles {args : List SharedValue} (h : args ≠ []) :
    Evaluates platform (fnHashFiles platform ctx args) := by
  rw [fnHashFiles, if_neg h]
  cases ctx.workspace with
  | none => exact RaisesOnly.error .workspace
  | some workspace =>
    apply RaisesOnly.map
    exact fun err herr => .outside (.inr ⟨_, _, herr⟩)

theorem evaluates_fnFromJson (ref : List ℕ → Ref) (value : SharedValue) :
    Evaluates platform (fnFromJson platform ref [value]) := by
  apply RaisesOnly.ite
  · exact fun _ => RaisesOnly.error .emptyJson
  · intro _
    apply RaisesOnly.map
    exact fun err herr => .outside (.inl ⟨_, herr⟩)

theorem evaluates_fnFormat {args : List SharedValue} (h : args ≠ []) :
    Evaluates platform (fnFormat args) := by
  cases args with
  | nil => exact absurd rfl h
  | cons template args =>
    apply RaisesOnly.map
    apply evaluates_render
    intro index hindex
    rw [List.getElem?_eq_getElem hindex]
    exact RaisesOnly.ok _

theorem evaluates_fnCase {args : List SharedValue} (h : args ≠ []) :
    Evaluates platform (fnCase args) := by
  apply evaluates_fnCaseLoop
  rw [List.getLast?_eq_some_getLast h]
  exact RaisesOnly.ok _

theorem evaluates_fnJoin {args : List SharedValue} (hmin : 1 ≤ args.length)
    (hmax : args.length ≤ 2) : Evaluates platform (fnJoin args) := by
  cases args with
  | nil => exact absurd hmin (by decide)
  | cons first rest =>
    have hrest : ¬ 1 < rest.length := by
      rw [List.length_cons] at hmax
      omega
    unfold fnJoin
    apply RaisesOnly.ite
    · exact fun hmore => absurd hmore hrest
    · intro _
      cases first with
      | _ => exact RaisesOnly.ok _

/-- A function of an accepted number of values. -/
theorem evaluates_callFunction (ref : List ℕ → Ref) {name : Str} {args : List SharedValue}
    (h : validateArity name args.length = .ok ()) :
    Evaluates platform (callFunction platform ctx ref name args) := by
  obtain ⟨builtin, hname, hmin, hmax, -⟩ := validateArity_eq_ok_iff.mp h
  unfold callFunction
  rw [h, hname]
  show Evaluates platform (match some builtin with | _ => _)
  have hsome (hpos : 1 ≤ builtin.arity.1) : args ≠ [] := by
    rintro rfl
    exact absurd (hpos.trans hmin) (by decide)
  have hone (hle : builtin.arity = (1, 1)) : ∃ value, args = [value] := by
    rw [hle] at hmin hmax
    exact List.length_eq_one_iff.mp (le_antisymm hmax hmin)
  have htwo (hle : builtin.arity = (2, 2)) : ∃ first second, args = [first, second] := by
    rw [hle] at hmin hmax
    exact List.length_eq_two.mp (le_antisymm hmax hmin)
  cases builtin with
  | success => exact RaisesOnly.ok _
  | failure => exact RaisesOnly.ok _
  | always => exact RaisesOnly.ok _
  | cancelled => exact RaisesOnly.ok _
  | contains =>
    obtain ⟨search, item, rfl⟩ := htwo rfl
    cases search with
    | array ref filtered values => exact RaisesOnly.ok _
    | object ref entries => exact RaisesOnly.ok _
    | _ => exact RaisesOnly.ite (fun _ => RaisesOnly.ok _) fun _ => RaisesOnly.ok _
  | startsWith =>
    obtain ⟨a, b, rfl⟩ := htwo rfl
    exact RaisesOnly.ok _
  | endsWith =>
    obtain ⟨a, b, rfl⟩ := htwo rfl
    exact RaisesOnly.ok _
  | format => exact evaluates_fnFormat (hsome (by decide))
  | case => exact evaluates_fnCase (hsome (by decide))
  | join => exact evaluates_fnJoin hmin hmax
  | toJson =>
    obtain ⟨value, rfl⟩ := hone rfl
    exact RaisesOnly.ok _
  | fromJson =>
    obtain ⟨value, rfl⟩ := hone rfl
    exact evaluates_fnFromJson ref value
  | hashFiles => exact evaluates_fnHashFiles (hsome (by decide))

/-! ### Calls -/

theorem evaluates_collectArgs {builtin : Option Builtin} {results : List EvalResult}
    (h : ∀ result ∈ results, Evaluates platform result) (evaluated : List SharedValue) :
    Evaluates platform (collectArgs builtin evaluated results) := by
  induction results generalizing evaluated with
  | nil => exact RaisesOnly.ok _
  | cons result results ih =>
    rw [List.forall_mem_cons] at h
    rw [collectArgs]
    apply RaisesOnly.ite
    · exact fun _ => (RaisesOnly.ok _).bind fun _ _ => ih h.2 _
    · exact fun _ => h.1.bind fun _ _ => ih h.2 _

theorem length_collectArgs {builtin : Option Builtin} {results : List EvalResult}
    {evaluated values : List SharedValue}
    (h : collectArgs builtin evaluated results = .ok values) :
    values.length = evaluated.length + results.length := by
  induction results generalizing evaluated with
  | nil =>
    obtain rfl := Except.ok.inj h
    rfl
  | cons result results ih =>
    obtain ⟨value, hrest⟩ : ∃ value,
        collectArgs builtin (evaluated ++ [value]) results = .ok values := by
      rw [collectArgs] at h
      split at h
      · exact ⟨_, h⟩
      · obtain ⟨value, -, hrest⟩ := Descent.bind_eq_ok.mp h
        exact ⟨value, hrest⟩
    have hlength := ih hrest
    simp only [List.length_append, List.length_cons, List.length_nil] at hlength ⊢
    omega

theorem evaluates_evalCaseLoop {last : EvalResult} {results : List EvalResult}
    (hlast : Evaluates platform last) (h : ∀ result ∈ results, Evaluates platform result) :
    Evaluates platform (evalCaseLoop last results) := by
  match results, h with
  | [], _ => exact hlast
  | [_], _ => exact hlast
  | predicate :: result :: rest, h =>
    simp only [List.forall_mem_cons] at h
    obtain ⟨hpredicate, hresult, hrest⟩ := h
    rw [evalCaseLoop]
    apply RaisesOnly.bind hpredicate
    intro value _
    split
    · exact evaluates_evalCaseLoop hlast hrest
    · exact hresult
    · exact RaisesOnly.error .predicate

/-- A call of an accepted number of arguments, of which the results are given. -/
theorem evaluates_evalCall (ref : List ℕ → Ref) {name : Str} {results : List EvalResult}
    (harity : validateArity name results.length = .ok ())
    (h : ∀ result ∈ results, Evaluates platform result) :
    Evaluates platform (evalCall platform ctx ref name results) := by
  obtain ⟨builtin, hname, hmin, -, hodd⟩ := validateArity_eq_ok_iff.mp harity
  have hsome (hpos : 1 ≤ builtin.arity.1) : results ≠ [] := by
    rintro rfl
    exact absurd (hpos.trans hmin) (by decide)
  have hvalues : Evaluates platform (collectArgs (some builtin) [] results >>=
      callFunction platform ctx ref name) := by
    apply RaisesOnly.bind (evaluates_collectArgs h [])
    intro values hvalues
    apply evaluates_callFunction
    rw [length_collectArgs hvalues, List.length_nil, Nat.zero_add, harity]
  unfold evalCall
  rw [hname]
  cases builtin with
  | case =>
    show Evaluates platform (evalCase results)
    unfold evalCase
    apply RaisesOnly.ite
    · exact fun heven => absurd ⟨rfl, heven⟩ hodd
    · intro _
      apply evaluates_evalCaseLoop _ h
      rw [List.getLast?_eq_some_getLast (hsome (by decide))]
      exact h _ (List.getLast_mem _)
  | format =>
    show Evaluates platform (evalFormat results)
    cases results with
    | nil => exact absurd rfl (hsome (by decide))
    | cons template results =>
      rw [List.forall_mem_cons] at h
      apply RaisesOnly.bind h.1
      intro value _
      apply RaisesOnly.map
      apply evaluates_render
      intro index hindex
      rw [List.getElem?_eq_getElem hindex]
      exact h.2 _ (List.getElem_mem hindex)
  | _ => exact hvalues

/-! ### Trees -/

namespace Expr

/-- The trees right below the root. -/
def children : Expr → List Expr
  | .literal _ | .context _ => []
  | .propertyAccess object _ | .wildcardAccess object => [object]
  | .indexAccess object index => [object, index]
  | .functionCall _ args => args
  | .unaryOp _ operand => [operand]
  | .binaryOp _ left right => [left, right]

/-- The tree itself, and everything below its root. -/
def Part : Expr → Expr → Prop := Relation.ReflTransGen fun sub e => sub ∈ e.children

end Expr

theorem validateArgs_eq_ok_iff {args : List Expr} :
    validateArgs ctx args = .ok () ↔ ∀ arg ∈ args, validate ctx arg = .ok () := by
  induction args with
  | nil => simp [validateArgs]
  | cons arg args ih =>
    rw [List.forall_mem_cons, ← ih, validateArgs]
    exact Descent.bind_eq_ok.trans ⟨fun ⟨_, hhead, htail⟩ => ⟨hhead, htail⟩,
      fun ⟨hhead, htail⟩ => ⟨(), hhead, htail⟩⟩

/-- What is accepted is accepted in its parts. -/
theorem validate_children {e : Expr} (h : validate ctx e = .ok ()) :
    ∀ sub ∈ e.children, validate ctx sub = .ok () := by
  cases e with
  | literal value => exact List.forall_mem_nil _
  | context name => exact List.forall_mem_nil _
  | propertyAccess object property => exact List.forall_mem_singleton.mpr h
  | indexAccess object index =>
    obtain ⟨_, hobject, hindex⟩ := Descent.bind_eq_ok.mp h
    exact List.forall_mem_cons.mpr ⟨hobject, List.forall_mem_singleton.mpr hindex⟩
  | wildcardAccess object => exact List.forall_mem_singleton.mpr h
  | functionCall name args =>
    obtain ⟨_, -, hargs⟩ := Descent.bind_eq_ok.mp h
    exact validateArgs_eq_ok_iff.mp hargs
  | unaryOp op operand => exact List.forall_mem_singleton.mpr h
  | binaryOp op left right =>
    obtain ⟨_, hleft, hright⟩ := Descent.bind_eq_ok.mp h
    exact List.forall_mem_cons.mpr ⟨hleft, List.forall_mem_singleton.mpr hright⟩

theorem validate_part {e sub : Expr} (hsub : sub.Part e) (h : validate ctx e = .ok ()) :
    validate ctx sub = .ok () := by
  induction hsub with
  | refl => exact h
  | tail _ hchild ih => exact ih (validate_children h _ hchild)

theorem length_evalArgs (node : List ℕ) (index : ℕ) (args : List Expr) :
    (evalArgs platform ctx node index args).length = args.length := by
  induction args generalizing index with
  | nil => rfl
  | cons arg args ih => rw [evalArgs, List.length_cons, List.length_cons, ih]

theorem mem_evalArgs {node : List ℕ} {index : ℕ} {args : List Expr} {result : EvalResult}
    (h : result ∈ evalArgs platform ctx node index args) :
    ∃ arg ∈ args, ∃ node', result = evalExpr platform ctx node' arg := by
  induction args generalizing index with
  | nil => exact absurd h List.not_mem_nil
  | cons arg args ih =>
    rcases List.mem_cons.mp h with rfl | h
    · exact ⟨arg, List.mem_cons_self, _, rfl⟩
    · obtain ⟨arg', harg', hnode⟩ := ih h
      exact ⟨arg', List.mem_cons_of_mem _ harg', hnode⟩

theorem evaluates_evalBinary (op : BinaryOperator) (left : SharedValue) {right : EvalResult}
    (h : Evaluates platform right) : Evaluates platform (evalBinary platform op left right) := by
  cases op with
  | and => exact RaisesOnly.ite (fun _ => h) fun _ => RaisesOnly.ok _
  | or => exact RaisesOnly.ite (fun _ => RaisesOnly.ok _) fun _ => h
  | _ => exact h.bind fun _ _ => RaisesOnly.ok _

/-- Induction over the tree: a call comes to some of its arguments, an operator to one or both of its
    operands, and each of these was accepted with the tree. -/
theorem evaluates_evalExpr {e : Expr} (h : validate ctx e = .ok ()) (node : List ℕ) :
    Evaluates platform (evalExpr platform ctx node e) := by
  induction e using Expr.induct generalizing node with
  | literal value => exact RaisesOnly.ok _
  | context name => exact RaisesOnly.ok _
  | propertyAccess object property ih => exact (ih h _).bind fun _ _ => RaisesOnly.ok _
  | indexAccess object index ihobject ihindex =>
    have hparts := validate_children h
    apply (ihobject (hparts object (by simp [Expr.children])) _).bind
    intro obj _
    apply RaisesOnly.ite
    · exact fun _ => RaisesOnly.ok _
    · intro _
      apply (ihindex (hparts index (by simp [Expr.children])) _).bind
      exact fun _ _ => RaisesOnly.ok _
  | wildcardAccess object ih => exact (ih h _).bind fun _ _ => RaisesOnly.ok _
  | functionCall name args ih =>
    obtain ⟨⟨⟩, harity, hargs⟩ := Descent.bind_eq_ok.mp h
    apply evaluates_evalCall
    · rw [length_evalArgs, harity]
    · intro result hresult
      obtain ⟨arg, harg, node', rfl⟩ := mem_evalArgs hresult
      exact ih arg harg (validateArgs_eq_ok_iff.mp hargs arg harg) node'
  | unaryOp op operand ih => exact (ih h _).bind fun _ _ => RaisesOnly.ok _
  | binaryOp op left right ihleft ihright =>
    have hparts := validate_children h
    apply (ihleft (hparts left (by simp [Expr.children])) _).bind
    intro leftVal _
    exact evaluates_evalBinary op leftVal (ihright (hparts right (by simp [Expr.children])) _)

/-- A name that was accepted stands for an entry of the snapshot. -/
theorem resolveContext_of_validate {name : Str} (h : validate ctx (.context name) = .ok ()) :
    ∃ entry ∈ ctx.contexts.entries, eqIgnoreAsciiCase entry.1 name = true ∧
      resolveContext ctx name = entry.2 := by
  rw [validate] at h
  split at h
  case isFalse => cases h
  case isTrue hkey =>
    obtain ⟨key, hkey, heq⟩ := List.any_eq_true.mp hkey
    obtain ⟨entry, hentry, rfl⟩ := List.mem_map.mp hkey
    cases hfound : ctx.contexts.entries.find? fun entry => eqIgnoreAsciiCase entry.1 name with
    | none => exact absurd heq (List.find?_eq_none.mp hfound entry hentry)
    | some found =>
      refine ⟨found, List.mem_of_find?_eq_some hfound, ?_, ?_⟩
      · have hsome := List.find?_some hfound
        exact hsome
      · rw [resolveContext, hfound]
        rfl

/-- In a tree that was accepted for the snapshot, every name stands for one of its entries, and no
    part, evaluated or not, could end in the error of an unknown name or of a wrong number of
    arguments, unless the JSON parser or hashing files says the same. -/
theorem validated_meets_contracts (platform : Platform) (ctx : SharedContext) (e : Expr)
    (h : validate ctx e = .ok ()) (sub : Expr) (hsub : sub.Part e) (node : List ℕ) :
    (∀ name, sub = .context name → ∃ entry ∈ ctx.contexts.entries,
      eqIgnoreAsciiCase entry.1 name = true ∧
        evalExpr platform ctx node sub = .ok entry.2) ∧
      ∀ err, evalExpr platform ctx node sub = .error err → ContractError err →
        platform.Raises err := by
  have hsub := validate_part hsub h
  refine ⟨?_, ?_⟩
  · rintro name rfl
    obtain ⟨entry, hentry, hname, hvalue⟩ := resolveContext_of_validate hsub
    exact ⟨entry, hentry, hname, congrArg Except.ok hvalue⟩
  · intro err herr hcontract
    exact raises_of_contractError (evaluates_evalExpr hsub node err herr) hcontract

def inputsContext : SharedContext :=
  ⟨AList.insert "inputs".toList (.bool true) ∅, .success, none⟩

/-- The name stands in a branch that is not selected, in a spelling of its own. -/
theorem validated_meets_contracts_case :
    (∀ name, Expr.context "INPUTS".toList = .context name →
      ∃ entry ∈ inputsContext.contexts.entries, eqIgnoreAsciiCase entry.1 name = true ∧
        evalExpr plainPlatform inputsContext [2] (.context "INPUTS".toList) = .ok entry.2) ∧
      ∀ err, evalExpr plainPlatform inputsContext [2] (.context "INPUTS".toList) = .error err →
        ContractError err → plainPlatform.Raises err :=
  validated_meets_contracts plainPlatform inputsContext
    (.functionCall "Case".toList
      [.literal (.bool true), .literal .null, .context "INPUTS".toList]) rfl
    (.context "INPUTS".toList) (.single (by simp [Expr.children])) [2]

end GhRunner.Expressions
