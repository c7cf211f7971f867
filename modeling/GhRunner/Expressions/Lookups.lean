import GhRunner.Expressions.Evaluator
import GhRunner.Expressions.JsonRoundTrip
import GhRunner.Expressions.Unparse

namespace GhRunner.Expressions

open Text

/-!
# What an expression sees of a snapshot

The evaluator goes through the map of the contexts for each name (`resolve_context` of
`crates/expressions/src/evaluator.rs`), and through nothing else of the snapshot but the job's status and the
workspace.

* `SharedContext.Alike`, `evaluate_congr` — snapshots that answer alike evaluate alike;
* `resolveContext_shared` — where no name is in upper case, the order of the contexts does not matter;
* `evaluate_toJson` — `toJSON` of a name writes the value of its context.
-/

/-! ### Snapshots that answer alike -/

/-- The same value under each name, and the same status and workspace. -/
structure SharedContext.Alike (c₁ c₂ : SharedContext) : Prop where
  resolve : ∀ name, resolveContext c₁ name = resolveContext c₂ name
  named : ∀ name, (c₁.contexts.keys.any fun key => eqIgnoreAsciiCase key name) =
    c₂.contexts.keys.any fun key => eqIgnoreAsciiCase key name
  jobStatus : c₁.jobStatus = c₂.jobStatus
  workspace : c₁.workspace = c₂.workspace

section Alike

variable {platform : Platform} {c₁ c₂ : SharedContext}

mutual

theorem validate_congr (h : c₁.Alike c₂) : ∀ e : Expr, validate c₁ e = validate c₂ e
  | .literal _ => rfl
  | .context name => by rw [validate, validate, h.named]
  | .propertyAccess object _ => by rw [validate, validate, validate_congr h object]
  | .wildcardAccess object => by rw [validate, validate, validate_congr h object]
  | .indexAccess object index => by
    rw [validate, validate, validate_congr h object, validate_congr h index]
  | .functionCall name args => by rw [validate, validate, validateArgs_congr h args]
  | .unaryOp _ operand => by rw [validate, validate, validate_congr h operand]
  | .binaryOp _ left right => by
    rw [validate, validate, validate_congr h left, validate_congr h right]

theorem validateArgs_congr (h : c₁.Alike c₂) : ∀ args : List Expr, validateArgs c₁ args = validateArgs c₂ args
  | [] => rfl
  | arg :: args => by rw [validateArgs, validateArgs, validate_congr h arg, validateArgs_congr h args]

end

theorem callFunction_congr (h : c₁.Alike c₂) (ref : List ℕ → Ref) (name : Str) (args : List SharedValue) :
    callFunction platform c₁ ref name args = callFunction platform c₂ ref name args := by
  unfold callFunction fnHashFiles
  rw [h.jobStatus, h.workspace]

theorem evalCall_congr (h : c₁.Alike c₂) (ref : List ℕ → Ref) (name : Str) (results : List EvalResult) :
    evalCall platform c₁ ref name results = evalCall platform c₂ ref name results := by
  unfold evalCall
  split
  case h_1 => rfl
  case h_2 => rfl
  case h_3 =>
    congr 1
    funext evaluated
    exact callFunction_congr h ref name evaluated

mutual

theorem evalExpr_congr (h : c₁.Alike c₂) (node : List ℕ) :
    ∀ e : Expr, evalExpr platform c₁ node e = evalExpr platform c₂ node e
  | .literal _ => rfl
  | .context name => by rw [evalExpr, evalExpr, h.resolve]
  | .propertyAccess object _ => by rw [evalExpr, evalExpr, evalExpr_congr h _ object]
  | .indexAccess object index => by
    rw [evalExpr, evalExpr, evalExpr_congr h _ object, evalExpr_congr h _ index]
  | .wildcardAccess object => by rw [evalExpr, evalExpr, evalExpr_congr h _ object]
  | .functionCall name args => by rw [evalExpr, evalExpr, evalArgs_congr h node 0 args, evalCall_congr h]
  | .unaryOp _ operand => by rw [evalExpr, evalExpr, evalExpr_congr h _ operand]
  | .binaryOp _ left right => by
    rw [evalExpr, evalExpr, evalExpr_congr h _ left, evalExpr_congr h _ right]

theorem evalArgs_congr (h : c₁.Alike c₂) (node : List ℕ) (index : ℕ) :
    ∀ args : List Expr, evalArgs platform c₁ node index args = evalArgs platform c₂ node index args
  | [] => rfl
  | arg :: args => by
    rw [evalArgs, evalArgs, evalExpr_congr h _ arg, evalArgs_congr h node (index + 1) args]

end

theorem evaluate_congr (h : c₁.Alike c₂) (input : Str) :
    evaluate platform c₁ input = evaluate platform c₂ input := by
  unfold evaluate
  congr 1
  funext e
  rw [validate_congr h, evalExpr_congr h]

end Alike

/-! ### The map of the contexts -/

/-- No name has a letter in upper case. -/
def EvalContext.Lowered (ctx : EvalContext) : Prop := ∀ key ∈ ctx.contexts.keys, key.map Char.toLower = key

theorem find_eq_lookup {V : Type} (m : HashMap V) {key : Str} {p : (Σ _ : Str, V) → Bool}
    (hp : ∀ entry ∈ m.entries, p entry = true ↔ entry.1 = key) :
    (m.entries.find? p).map (·.2) = m.lookup key := by
  ext value
  rw [Option.map_eq_some_iff]
  constructor
  · rintro ⟨entry, hfind, rfl⟩
    have hmem := List.mem_of_find?_eq_some hfind
    have hkey := (hp entry hmem).mp (List.find?_some hfind)
    rw [← hkey]
    exact Option.mem_def.mp (AList.mem_lookup_iff.mpr hmem)
  · intro hlookup
    have hmem : (⟨key, value⟩ : Σ _ : Str, V) ∈ m.entries := AList.mem_lookup_iff.mp hlookup
    cases hfind : m.entries.find? p with
    | none => exact absurd ((hp _ hmem).mpr rfl) (by simpa using List.find?_eq_none.mp hfind _ hmem)
    | some entry =>
      refine ⟨entry, rfl, ?_⟩
      have hkey := (hp entry (List.mem_of_find?_eq_some hfind)).mp (List.find?_some hfind)
      have hother : entry.2 ∈ m.lookup key := by
        rw [← hkey]
        exact AList.mem_lookup_iff.mpr (List.mem_of_find?_eq_some hfind)
      rw [Option.mem_def, hlookup] at hother
      exact (Option.some.inj hother).symm

variable {ctx : EvalContext}

/-- A name is resolved in any order of the contexts alike. -/
theorem resolveContext_shared (h : ctx.Lowered) (name : Str) :
    resolveContext ctx.shared name =
      ((ctx.contexts.lookup (name.map Char.toLower)).map
        (SharedValue.ofExprValue (.given (name.map Char.toLower)) [])).getD .null := by
  -- a name that is in lower case throughout is matched by itself alone
  have hiff : ∀ entry ∈ ctx.contexts.entries,
      eqIgnoreAsciiCase entry.1 name = true ↔ entry.1 = name.map Char.toLower := by
    intro entry hmem
    rw [eqIgnoreAsciiCase, decide_eq_true_eq, h entry.1 (List.mem_map_of_mem hmem)]
  rw [← find_eq_lookup ctx.contexts hiff, resolveContext, EvalContext.shared, List.find?_map]
  cases hfind : ctx.contexts.entries.find? fun entry => eqIgnoreAsciiCase entry.1 name with
  | none => simp [Function.comp_def, hfind]
  | some entry =>
    have hfound : eqIgnoreAsciiCase entry.1 name = true := by simpa using List.find?_some hfind
    have hkey := (hiff entry (List.mem_of_find?_eq_some hfind)).mp hfound
    simp [Function.comp_def, hfind, hkey]

theorem keys_shared (ctx : EvalContext) : ctx.shared.contexts.keys = ctx.contexts.keys := by
  unfold EvalContext.shared AList.keys List.keys
  rw [List.map_map]
  rfl

theorem named_shared (h : ctx.Lowered) (name : Str) :
    (ctx.shared.contexts.keys.any fun key => eqIgnoreAsciiCase key name) =
      (ctx.contexts.lookup (name.map Char.toLower)).isSome := by
  rw [Bool.eq_iff_iff, List.any_eq_true, keys_shared, AList.lookup_isSome, AList.mem_keys]
  constructor
  · rintro ⟨key, hmem, hsame⟩
    rw [eqIgnoreAsciiCase, decide_eq_true_eq, h key hmem] at hsame
    rwa [← hsame]
  · intro hmem
    refine ⟨_, hmem, ?_⟩
    rw [eqIgnoreAsciiCase, decide_eq_true_eq, h _ hmem]

/-- The order in which the contexts are gone through does not matter. -/
theorem alike_shared {c₁ c₂ : EvalContext} (h₁ : c₁.Lowered) (h₂ : c₂.Lowered)
    (hlookup : ∀ name, c₁.contexts.lookup name = c₂.contexts.lookup name)
    (hstatus : c₁.jobStatus = c₂.jobStatus) (hworkspace : c₁.workspace = c₂.workspace) :
    c₁.shared.Alike c₂.shared where
  resolve name := by rw [resolveContext_shared h₁, resolveContext_shared h₂, hlookup]
  named name := by rw [named_shared h₁, named_shared h₂, hlookup]
  jobStatus := hstatus
  workspace := hworkspace

/-! ### A context as JSON -/

def toJsonOf (name : Str) : Str := "toJSON(".toList ++ name ++ ")".toList

theorem parse_toJsonOf {debug : Token → Str} {name : Str}
    (h : tokensFrom none (toJsonOf name) =
      .ok [.ident "toJSON".toList, .lParen, .ident name, .rParen]) :
    parse debug (toJsonOf name) = .ok (.functionCall "toJSON".toList [.context name]) := by
  have hname : Derives (.binary .or) [.ident name] (.context name) :=
    derives_or (.postfixed (.access .name))
  exact parse_eq_ok_iff.mpr ⟨_, h, derives_or (.postfixed (.access (.call (.one hname))))⟩

theorem evaluate_toJson {platform : Platform} (h : ctx.Lowered) {name : Str} {value : ExprValue}
    (hlower : name.map Char.toLower = name)
    (htokens : tokensFrom none (toJsonOf name) =
      .ok [.ident "toJSON".toList, .lParen, .ident name, .rParen])
    (hlookup : ctx.contexts.lookup name = some value) :
    evaluate platform ctx.shared (toJsonOf name) =
      .ok (.string (writeJson 0 (SharedValue.ofExprValue (.given name) [] value))) := by
  have hvalue : resolveContext ctx.shared name = SharedValue.ofExprValue (.given name) [] value := by
    rw [resolveContext_shared h, hlower, hlookup]
    rfl
  have hnamed : (ctx.shared.contexts.keys.any fun key => eqIgnoreAsciiCase key name) = true := by
    rw [named_shared h, hlower, hlookup]
    rfl
  have hvalid : validate ctx.shared (.functionCall "toJSON".toList [.context name]) = .ok () := by
    rw [validate, validateArgs, validate, if_pos hnamed]
    rfl
  rw [evaluate, parse_toJsonOf htokens]
  show (do
    validate ctx.shared (.functionCall "toJSON".toList [.context name])
    evalExpr platform ctx.shared [] (.functionCall "toJSON".toList [.context name])) = _
  rw [hvalid]
  show evalCall platform ctx.shared (.fresh []) "toJSON".toList [.ok (resolveContext ctx.shared name)] = _
  rw [hvalue]
  rfl

/-- Values that go through JSON are told apart by their texts. -/
theorem toExprValue_eq_of_writeJson {limit : ℕ} {v₁ v₂ : SharedValue} (h₁ : v₁.Exchangeable limit)
    (h₂ : v₂.Exchangeable limit) (h : writeJson 0 v₁ = writeJson 0 v₂) :
    v₁.toExprValue = v₂.toExprValue := by
  have hjson : v₁.toJson = v₂.toJson := by
    have hread := parse_writeJson h₁
    rw [h, parse_writeJson h₂] at hread
    exact (Option.some.inj hread).symm
  rw [← jsonToExprValue_toJson v₁ h₁, ← jsonToExprValue_toJson v₂ h₂, hjson]

end GhRunner.Expressions
