import GhRunner.Execution.ActionRef
import GhRunner.Expressions.Template
import Mathlib.Data.Finmap

namespace GhRunner.Execution

open Text Traced GhRunner.Expressions

/-!
# The execution context and what expressions see of it

`crates/execution/src/execution/context.rs`, `context_eval.rs`, `context_scopes.rs`,
`action_metadata.rs` and `composite_expr.rs`.

* `HashOrder` — the order in which a map that was put together is gone through: any order;
* `ExecutionContext`, `evalContext` — the job's state and its snapshot for the evaluator;
* `ActionMetadata`, `setReference` — which action the `github` context names;
* `CompositeField`, `validateTemplate` — which contexts and functions a field of an action's manifest
  may use;
* `interpolateWith`, `interpolateCompositeExpr` — rendering a string, without and with that check.
-/

/-! ### Hash maps -/

structure HashOrder where
  arrange : {V : Type} → HashMap V → HashMap V
  perm : ∀ {V : Type} (m : HashMap V), (arrange m).entries.Perm m.entries

/-- `extend`, and `collect` from the empty map: later entries replace earlier ones of their key. -/
def extend {V : Type} (m : HashMap V) (entries : List (Str × V)) : HashMap V :=
  entries.foldl (fun m entry => m.insert entry.1 entry.2) m

def HashOrder.collect (order : HashOrder) {V : Type} (entries : List (Str × V)) : HashMap V :=
  order.arrange (extend ∅ entries)

/-- The entries of a map as pairs. -/
def pairs {V : Type} (m : HashMap V) : List (Str × V) := m.entries.map fun e => (e.1, e.2)

section HashMap

variable {V : Type} {m : HashMap V} {entries : List (Str × V)} {key : Str} {value : V}

theorem mem_pairs : (key, value) ∈ pairs m ↔ m.lookup key = some value := by
  rw [← Option.mem_def, AList.mem_lookup_iff, pairs, List.mem_map]
  constructor
  · rintro ⟨⟨k, v⟩, he, heq⟩
    obtain ⟨rfl, rfl⟩ := Prod.mk.inj heq
    exact he
  · exact fun he => ⟨⟨key, value⟩, he, rfl⟩

theorem nodup_pairs (m : HashMap V) : ((pairs m).map Prod.fst).Nodup := by
  rw [pairs, List.map_map]
  exact m.nodupKeys

theorem lookup_extend (h : (entries.map Prod.fst).Nodup) :
    (extend m entries).lookup key = some value ↔
      (key, value) ∈ entries ∨ key ∉ entries.map Prod.fst ∧ m.lookup key = some value := by
  induction entries generalizing m with
  | nil => simp [extend]
  | cons e entries ih =>
    obtain ⟨hnew, h⟩ := List.nodup_cons.mp h
    have hstep : extend m (e :: entries) = extend (m.insert e.1 e.2) entries := rfl
    rw [hstep, ih h, List.mem_cons, List.map_cons, List.mem_cons]
    by_cases hk : key = e.1
    · subst hk
      have hnone : (e.1, value) ∉ entries := fun he =>
        hnew (List.mem_map.mpr ⟨_, he, rfl⟩)
      simp [hnone, hnew, AList.lookup_insert, Prod.ext_iff, eq_comm]
    · simp [hk, AList.lookup_insert_ne hk, Prod.ext_iff]

theorem lookup_extend_cases (h : (extend m entries).lookup key = some value) :
    (key, value) ∈ entries ∨ m.lookup key = some value := by
  induction entries generalizing m with
  | nil => exact Or.inr h
  | cons entry entries ih =>
    rcases ih (m := m.insert entry.1 entry.2) h with hmem | hold
    · exact Or.inl (List.mem_cons_of_mem _ hmem)
    · by_cases hkey : key = entry.1
      · subst hkey
        rw [AList.lookup_insert] at hold
        obtain rfl := Option.some.inj hold
        exact Or.inl List.mem_cons_self
      · rw [AList.lookup_insert_ne hkey] at hold
        exact Or.inr hold

/-- Entries of other keys change nothing. -/
theorem lookup_extend_of_notMem (h : key ∉ entries.map Prod.fst) :
    (extend m entries).lookup key = m.lookup key := by
  induction entries generalizing m with
  | nil => rfl
  | cons entry entries ih =>
    rw [List.map_cons, List.mem_cons, not_or] at h
    have hstep : extend m (entry :: entries) = extend (m.insert entry.1 entry.2) entries := rfl
    rw [hstep, ih h.2, AList.lookup_insert_ne h.1]

/-- What is found under a key depends on what was there under it, and that only where no entry has
    it. -/
theorem lookup_extend_or (m : HashMap V) (entries : List (Str × V)) (key : Str) :
    (extend m entries).lookup key = ((extend ∅ entries).lookup key).or (m.lookup key) := by
  induction entries using List.reverseRecOn with
  | nil =>
    show m.lookup key = ((∅ : HashMap V).lookup key).or (m.lookup key)
    rw [AList.lookup_empty, Option.none_or]
  | append_singleton entries entry ih =>
    have hstep : ∀ m : HashMap V,
        extend m (entries ++ [entry]) = (extend m entries).insert entry.1 entry.2 :=
      fun m => List.foldl_concat _ _ _ _
    rw [hstep, hstep]
    by_cases hkey : key = entry.1
    · subst hkey
      rw [AList.lookup_insert, AList.lookup_insert, Option.some_or]
    · rw [AList.lookup_insert_ne hkey, AList.lookup_insert_ne hkey, ih]

theorem lookup_extend_eq_none :
    (extend ∅ entries).lookup key = none ↔ key ∉ entries.map Prod.fst := by
  constructor
  · intro hnone hmem
    induction entries using List.reverseRecOn with
    | nil => cases hmem
    | append_singleton entries entry ih =>
      have hstep : extend (∅ : HashMap V) (entries ++ [entry]) =
          (extend ∅ entries).insert entry.1 entry.2 := List.foldl_concat _ _ _ _
      rw [hstep] at hnone
      by_cases hkey : key = entry.1
      · subst hkey
        rw [AList.lookup_insert] at hnone
        cases hnone
      · rw [AList.lookup_insert_ne hkey] at hnone
        rw [List.map_append, List.mem_append] at hmem
        refine ih hnone (hmem.resolve_right fun hlast => hkey ?_)
        exact List.mem_singleton.mp hlast
  · intro hnew
    rw [lookup_extend_of_notMem hnew, AList.lookup_empty]

theorem lookup_extend_pairs (m m' : HashMap V) (key : Str) :
    (extend m (pairs m')).lookup key = (m'.lookup key).or (m.lookup key) := by
  rw [lookup_extend_or]
  congr 1
  ext value
  rw [lookup_extend (nodup_pairs m'), mem_pairs, AList.lookup_empty]
  simp

theorem HashOrder.lookup_collect (order : HashOrder) (h : (entries.map Prod.fst).Nodup) :
    (order.collect entries).lookup key = some value ↔ (key, value) ∈ entries := by
  rw [collect, AList.perm_lookup (order.perm _), lookup_extend h]
  simp

/-- Maps that answer alike are the same map, whatever their order. -/
theorem toFinmap_eq {m' : HashMap V}
    (h : ∀ key value, m.lookup key = some value ↔ m'.lookup key = some value) :
    m.toFinmap = m'.toFinmap :=
  Finmap.ext_lookup fun key => Option.ext fun value => by
    rw [Finmap.lookup_toFinmap, Finmap.lookup_toFinmap]
    exact h key value

end HashMap

/-! ### The job's state -/

/-- How a job container names the host's paths. -/
structure JobContainer where
  translateValue : Str → Str
  translateEnv : Str → Str → Str

/-- Of the contexts that nothing here changes, `steps`, `runner` and `job` are given as they are
    built for the scope at hand. -/
structure ExecutionContext where
  env : HashMap Str
  stepEnvOverlays : List (HashMap Str)
  scopePath : List Str
  scopedInputs : Finmap fun _ : List Str => HashMap Str
  scopedStatus : Finmap fun _ : List Str => JobStatus
  scopedActionPaths : Finmap fun _ : List Str => Str
  github : List (Str × ExprValue)
  steps : ExprValue
  runnerContext : List (Str × ExprValue)
  job : ExprValue
  /-- As a cancellation in progress has it. -/
  jobStatus : JobStatus
  secrets : HashMap Str
  vars : HashMap Str
  incomingContexts : HashMap ExprValue
  workspace : Option Str
  container : Option JobContainer
  selfRepositoryEnabled : Bool
  workflowIdentity : Option (Str × Str)

def jobStatusStr : JobStatus → Str
  | .success => "success".toList
  | .failure => "failure".toList
  | .cancelled => "cancelled".toList

namespace ExecutionContext

/-- Get a string value from the github context. -/
def githubContext (ctx : ExecutionContext) (key : Str) : Option Str :=
  match objectGet key ctx.github with
  | some (.string s) => some s
  | _ => none

def setGithubContextValue (ctx : ExecutionContext) (key : Str) (value : ExprValue) :
    ExecutionContext :=
  { ctx with github := objectInsert key value ctx.github }

def setGithubContext (ctx : ExecutionContext) (key value : Str) : ExecutionContext :=
  ctx.setGithubContextValue key (.string value)

/-- The current composite action path and status over the github context. -/
def scopedGithubContext (ctx : ExecutionContext) : List (Str × ExprValue) :=
  let github :=
    match ctx.scopedActionPaths.lookup ctx.scopePath with
    | some path => objectInsert "action_path".toList (.string path) ctx.github
    | none => ctx.github
  match ctx.scopedStatus.lookup ctx.scopePath with
  | some status => objectInsert "action_status".toList (.string (jobStatusStr status)) github
  | none => github

def githubExpressionContext (ctx : ExecutionContext) : ExprValue :=
  match ctx.container with
  | none => .object ctx.scopedGithubContext
  | some container => .object (ctx.scopedGithubContext.map fun entry =>
      match entry with
      | (key, .string value) =>
        if key ∈ ["workspace".toList, "action_path".toList] then
          (key, .string (container.translateValue value))
        else (key, .string value)
      | entry => entry)

/-- Persistent job env with the active step overlays applied. -/
def visibleEnv (ctx : ExecutionContext) : HashMap Str :=
  ctx.stepEnvOverlays.foldl (fun env overlay => extend env (pairs overlay)) ctx.env

def stringObject (order : HashOrder) (values : HashMap Str) : ExprValue :=
  .object ((pairs (order.arrange values)).map fun entry => (entry.1, .string entry.2))

def envExpressionContext (order : HashOrder) (ctx : ExecutionContext) : ExprValue :=
  stringObject order (order.collect ((pairs ctx.visibleEnv).map fun entry =>
    match ctx.container with
    | none => entry
    | some container => (entry.1, container.translateEnv entry.1 entry.2)))

def scopedJobStatus (ctx : ExecutionContext) : JobStatus :=
  if ctx.jobStatus = .cancelled then .cancelled
  else (ctx.scopedStatus.lookup ctx.scopePath).getD ctx.jobStatus

/-- The snapshot an expression is evaluated against. -/
def evalContext (order : HashOrder) (ctx : ExecutionContext) : EvalContext :=
  let contexts :=
    match ctx.scopedInputs.lookup ctx.scopePath with
    | some inputs => ctx.incomingContexts.insert "inputs".toList (stringObject order inputs)
    | none => ctx.incomingContexts
  { contexts := extend contexts
      [("github".toList, ctx.githubExpressionContext),
        ("env".toList, ctx.envExpressionContext order),
        ("steps".toList, ctx.steps),
        ("runner".toList, .object ctx.runnerContext),
        ("secrets".toList, stringObject order ctx.secrets),
        ("vars".toList, stringObject order ctx.vars),
        ("job".toList, ctx.job)]
    jobStatus := ctx.scopedJobStatus
    workspace := ctx.workspace }

def pushStepEnv (ctx : ExecutionContext) (env : HashMap Str) : ExecutionContext :=
  { ctx with stepEnvOverlays := ctx.stepEnvOverlays ++ [env] }

/-- Resolve a self-repository reference against the enclosing remote action, else the workflow's own
    repository. -/
def resolveSelfUses (ctx : ExecutionContext) (uses : Str) : Except RunnerError (Option Str) :=
  if ctx.selfRepositoryEnabled = false then resolveSelfReference uses none
  else
    let enclosing :=
      match ctx.githubContext "action_repository".toList, ctx.githubContext "action_ref".toList with
      | some repository, some gitRef =>
        if repository ≠ [] ∧ gitRef ≠ [] then some (repository, gitRef) else none
      | _, _ => none
    resolveSelfReference uses (enclosing.or ctx.workflowIdentity)

/-! ### The action the github context names -/

/-- The values retained while an embedded action runs; an absent one is kept as null. -/
def captureMetadata (ctx : ExecutionContext) : List (Str × ExprValue) :=
  ["action".toList, "action_repository".toList, "action_ref".toList].map fun key =>
    (key, (objectGet key ctx.github).getD .null)

def restoreMetadata (ctx : ExecutionContext) (metadata : List (Str × ExprValue)) :
    ExecutionContext :=
  metadata.foldl (fun ctx entry => ctx.setGithubContextValue entry.1 entry.2) ctx

def clearRepository (ctx : ExecutionContext) : ExecutionContext :=
  (ctx.setGithubContext "action_repository".toList []).setGithubContext "action_ref".toList []

/-- Repository identity excludes the action subpath and is empty for a local action. -/
def setReference (ctx : ExecutionContext) (reference : ActionStepDefinitionReference) :
    ExecutionContext :=
  let ctx := ctx.clearRepository
  if reference.refType = some "script".toList then ctx
  else
    match parseActionRef (buildUsesRef reference) with
    | .error _ => ctx
    | .ok action =>
      match action.kind with
      | .local => ctx
      | .remote =>
        (ctx.setGithubContext "action_repository".toList
          (action.owner ++ '/' :: action.repo)).setGithubContext "action_ref".toList action.gitRef

end ExecutionContext

/-! ### What a field of an action's manifest may use -/

inductive CompositeField
  | step
  | env
  | ifField
  | output
  | inputDefault
deriving DecidableEq, Repr

/-- The roots a field may name. -/
def CompositeField.roots : CompositeField → List Str
  | .inputDefault => ["github", "strategy", "matrix", "job", "runner"].map String.toList
  | .step | .env | .ifField | .output =>
    ["github", "inputs", "strategy", "matrix", "steps", "job", "runner", "env"].map String.toList

def validateRoot (name : Str) (field : CompositeField) : Except RunnerError Unit :=
  if asciiLower name ∈ field.roots then .ok ()
  else .error (.expression
    ("context '".toList ++ asciiLower name ++ "' is unavailable in composite metadata".toList))

def validateFunction (name : Str) (field : CompositeField) : Except RunnerError Unit :=
  let lower := asciiLower name
  let allowed :=
    if lower ∈ ["always", "failure", "cancelled", "success"].map String.toList then field = .ifField
    else if lower = "hashfiles".toList then field ≠ .output
    else True
  if allowed then .ok ()
  else .error (.expression
    ("function '".toList ++ name ++ "' is unavailable in this composite field".toList))

def validateActionPath (object : Expr) (property : Str) (field : CompositeField) :
    Except RunnerError Unit :=
  match object with
  | .context name =>
    if field ≠ .env ∧ asciiLower property = "action_path".toList ∧
        asciiLower name = "github".toList then
      .error (.expression "github.action_path is available only in composite step env".toList)
    else .ok ()
  | _ => .ok ()

mutual

def validateAst (field : CompositeField) : Expr → Except RunnerError Unit
  | .literal _ => .ok ()
  | .context name => validateRoot name field
  | .propertyAccess object property => do
    validateActionPath object property field
    validateAst field object
  | .indexAccess object index => do
    match index with
    | .literal (.string property) => validateActionPath object property field
    | _ => .ok ()
    validateAst field object
    validateAst field index
  | .wildcardAccess object => validateAst field object
  | .functionCall name args => do
    validateFunction name field
    validateArgs field args
  | .unaryOp _ operand => validateAst field operand
  | .binaryOp _ left right => do
    validateAst field left
    validateAst field right

def validateArgs (field : CompositeField) : List Expr → Except RunnerError Unit
  | [] => .ok ()
  | arg :: args => do
    validateAst field arg
    validateArgs field args

end

variable (engine : Engine)

def validateExpression (expression : Str) (field : CompositeField) : Except RunnerError Unit := do
  let ast ← engine.parse expression
  validateAst field ast

/-- The loop of `validate_template`, which scans as interpolation does. -/
def validateTemplate (field : CompositeField) : Template → Except RunnerError Unit
  | .text _ => .ok ()
  | .hole _ inner rest => do
    validateExpression engine (trim inner) field
    validateTemplate field rest
  | .unclosed _ _ => .error unclosedError

/-! ### Rendering -/

/-- A string against a snapshot; one without placeholders is returned as it is. -/
def interpolateWith (evalCtx : EvalContext) (input : Str) : Evaluation Str :=
  if openDelim <:+: input then interpolate engine evalCtx input else pure input

/-- A string of an action's manifest, once its expressions are seen to be permitted. -/
def interpolateCompositeExpr (text : Str) (evalCtx : EvalContext) (field : CompositeField) :
    Evaluation Str :=
  if openDelim <:+: text then do
    lift (validateTemplate engine field (scan text))
    interpolate engine evalCtx text
  else pure text

/-- The live job context with this action's inputs for the workflow's. -/
def compositeEvalContext (order : HashOrder) (ctx : ExecutionContext) (inputs : HashMap Str)
    (env : Option (HashMap Str)) : EvalContext :=
  let snapshot := ctx.evalContext order
  let contexts :=
    snapshot.contexts.insert "inputs".toList (ExecutionContext.stringObject order inputs)
  { snapshot with
    contexts :=
      match env with
      | some env => contexts.insert "env".toList (ExecutionContext.stringObject order env)
      | none => contexts }

variable {engine}

theorem interpolateWith_of_no_delim {evalCtx : EvalContext} {input : Str}
    (h : ¬ openDelim <:+: input) : interpolateWith engine evalCtx input = pure input := if_neg h

/-- Only a text without placeholders is rendered without evaluating anything. -/
theorem not_infix_of_interpolateWith {evalCtx : EvalContext} {input text : Str}
    (h : interpolateWith engine evalCtx input = pure text) : ¬ openDelim <:+: input := by
  unfold interpolateWith at h
  split at h
  case isTrue => exact not_infix_of_interpolate h
  case isFalse hno => exact hno

theorem interpolateWith_eq_ok {evalCtx : EvalContext} {input text : Str}
    (h : (interpolateWith engine evalCtx input).result = .ok text) :
    text = (scan input).fill (valueText engine evalCtx) := by
  unfold interpolateWith at h
  split at h
  case isTrue => exact (interpolateFrom_eq_ok h).1
  case isFalse hno =>
    rw [scan_of_no_delim hno]
    exact (Except.ok.inj h).symm

/-- What was rendered is the template filled in, and its expressions were evaluated, in order, and
    nothing else. -/
theorem interpolateCompositeExpr_eq_ok {evalCtx : EvalContext} {field : CompositeField}
    {input text : Str} (h : (interpolateCompositeExpr engine input evalCtx field).result = .ok text) :
    text = (scan input).fill (valueText engine evalCtx) ∧
      (interpolateCompositeExpr engine input evalCtx field).trace = (scan input).exprs := by
  unfold interpolateCompositeExpr at h ⊢
  split at h
  case isTrue hin =>
    rw [if_pos hin]
    obtain ⟨-, -, hok, htrace⟩ := bind_eq_ok h
    obtain ⟨htext, hexprs⟩ := interpolateFrom_eq_ok hok
    refine ⟨htext, ?_⟩
    rw [htrace, trace_lift, List.nil_append]
    exact hexprs
  case isFalse hno =>
    rw [if_neg hno, scan_of_no_delim hno]
    exact ⟨(Except.ok.inj h).symm, rfl⟩

end GhRunner.Execution
