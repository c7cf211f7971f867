import GhRunner.Execution.Context

namespace GhRunner.Execution

open Text Traced GhRunner.Expressions

/-!
# A composite action's nested `uses:` step

The step's templates are rendered in the enclosing action, packed into a synthetic step, and that
step goes the way of any other (`crates/execution/src/execution/composite_uses.rs`, `step_env.rs`,
`action_exec.rs`, `action_support.rs`; `crates/shared/src/job_message/template_token.rs`).

* `TemplateToken`, `ActionStep`, `CompositeStep`, `ActionDefinition` — what goes in;
* `buildNestedStep`, `renderNestedEnv`, `attachRenderedEnv` — the synthetic step;
* `resolveStepEnv`, `collectStepInputs` — how the ordinary path reads a step's tokens;
* `executeAction`, `runNestedUsesStep` — up to the call of the action's handler;
* `buildCompositeInputs`, `buildNodeInputs` — what the handler adds for the inputs not supplied.

Finding the action's manifest, on disk or over the network, is an argument.
-/

/-! ### Tokens and steps -/

structure TemplateToken where
  tokenType : ℤ
  lit : Option Str := none
  expr : Option Str := none
  boolVal : Option Bool := none
  numVal : Option F64 := none
  d : Option (List (TemplateToken × TemplateToken)) := none

namespace TemplateToken

/-- Extract the literal string value (for type 0 tokens). -/
def toStringValue (token : TemplateToken) : Option Str :=
  if token.tokenType = 0 then token.lit else none

/-- The entries of a mapping whose keys are literal. -/
def literalEntries (token : TemplateToken) : List (Str × TemplateToken) :=
  (token.d.getD []).filterMap fun entry => entry.1.toStringValue.map fun key => (key, entry.2)

def toMap (order : HashOrder) (token : TemplateToken) : HashMap TemplateToken :=
  order.collect token.literalEntries

end TemplateToken

/-- A type-0 literal string template token. -/
def literalToken (s : Str) : TemplateToken := { tokenType := 0, lit := some s }

/-- A mapping of literals. -/
def mappingToken (entries : List (Str × Str)) : TemplateToken :=
  { tokenType := 2, d := some (entries.map fun e => (literalToken e.1, literalToken e.2)) }

structure ActionStep where
  id : Str
  stepType : Option Str
  contextName : Option Str
  condition : Option Str
  continueOnError : Option TemplateToken
  reference : ActionStepDefinitionReference
  inputs : TemplateToken
  environment : Option TemplateToken

structure CompositeStep where
  id : Option Str
  env : HashMap Str
  condition : Option Str
  uses : Option Str
  continueOnError : Option TemplateToken
  withInputs : HashMap Str

structure ActionInput where
  default : Option Str

inductive RunsUsing
  | node (major : ℕ)
  | composite
  | docker

structure ActionDefinition where
  inputs : HashMap ActionInput
  runsUsing : RunsUsing

variable (order : HashOrder) (engine : Engine)

/-! ### The synthetic step -/

/-- One template of the step's `with:` or `env:`. -/
def renderEntry (evalCtx : EvalContext) (field : CompositeField) (entry : Str × Str) :
    Evaluation (Str × Str) := do
  let rendered ← interpolateCompositeExpr engine entry.2 evalCtx field
  pure (entry.1, rendered)

def buildInputsToken (templates : HashMap Str) (inputs : HashMap Str) (ctx : ExecutionContext) :
    Evaluation TemplateToken := do
  let entries ← inOrder
    (renderEntry engine (compositeEvalContext order ctx inputs none) .step) (pairs templates)
  pure (mappingToken entries)

/-- The reference of the synthetic step, which the resolver parses again. -/
def nestedReference (ctx : ExecutionContext) (uses : Str) :
    Except RunnerError ActionStepDefinitionReference := do
  let resolvedSelf ← ctx.resolveSelfUses uses
  let uses := resolvedSelf.getD uses
  let (name, gitRef) ←
    if "docker://".toList <+: uses then pure (uses, none)
    else nestedRefParts <$> parseActionRef uses
  pure ⟨some "repository".toList, none, some name, gitRef, none, none⟩

/-- The context while the inputs are rendered: it names the nested action. -/
def inputsContext (ctx : ExecutionContext) (reference : ActionStepDefinitionReference) :
    ExecutionContext := ctx.setReference reference

/-- The context afterwards. -/
def restoredContext (ctx : ExecutionContext) (reference : ActionStepDefinitionReference) :
    ExecutionContext := (inputsContext ctx reference).restoreMetadata ctx.captureMetadata

/-- The synthetic step, and the context it leaves. -/
def buildNestedStep (step : CompositeStep) (idx : ℕ) (uses : Str) (inputs : HashMap Str)
    (ctx : ExecutionContext) : Evaluation (ActionStep × ExecutionContext) := do
  let reference ← lift (nestedReference ctx uses)
  let inputsToken ← buildInputsToken order engine step.withInputs inputs
    (inputsContext ctx reference)
  pure
    ({ id := step.id.getD ("__composite_uses_" ++ toString idx).toList
       stepType := some "action".toList
       contextName := step.id
       condition := step.condition
       continueOnError := step.continueOnError
       reference := reference
       inputs := inputsToken
       environment := none },
      restoredContext ctx reference)

def renderNestedEnv (step : CompositeStep) (inputs : HashMap Str) (ctx : ExecutionContext) :
    Evaluation (HashMap Str) := do
  let entries ← inOrder
    (renderEntry engine (compositeEvalContext order ctx inputs none) .env) (pairs step.env)
  pure (order.collect entries)

def attachRenderedEnv (step : ActionStep) (env : HashMap Str) : ActionStep :=
  { step with environment := some (mappingToken (pairs env)) }

/-! ### The ordinary path -/

/-- Render a scalar template token to its final string. -/
def envTokenToString (evalCtx : EvalContext) (token : TemplateToken) : Evaluation Str :=
  if token.tokenType = 0 then interpolateWith engine evalCtx (token.lit.getD [])
  else if token.tokenType = 3 then do
    let value ← evaluateTraced engine evalCtx (token.expr.getD [])
    pure (engine.coerceToString value)
  else if token.tokenType = 5 then
    pure (engine.coerceToString (.bool (token.boolVal.getD false)))
  else if token.tokenType = 6 then
    pure (engine.coerceToString (.number (token.numVal.getD 0)))
  else pure []

def resolveEntry (evalCtx : EvalContext) (entry : Str × TemplateToken) : Evaluation (Str × Str) := do
  let value ← envTokenToString engine evalCtx entry.2
  pure (entry.1, value)

/-- Step-level environment from the `environment` token. -/
def resolveStepEnv (step : ActionStep) (evalCtx : EvalContext) : Evaluation (HashMap Str) :=
  match step.environment with
  | none => pure ∅
  | some token => do
    let entries ← inOrder (resolveEntry engine evalCtx) token.literalEntries
    pure (order.collect entries)

/-- A supplied input: a literal is final. -/
def inputEntry (evalCtx : EvalContext) (entry : Str × TemplateToken) : Evaluation (Str × Str) :=
  if entry.2.tokenType = 0 then pure (entry.1, entry.2.lit.getD [])
  else resolveEntry engine evalCtx entry

def collectStepInputs (step : ActionStep) (evalCtx : EvalContext) : Evaluation (HashMap Str) := do
  let entries ← inOrder (inputEntry engine evalCtx) (pairs (step.inputs.toMap order))
  pure (order.collect entries)

/-! ### Inputs that were not supplied -/

/-- A declared input: as supplied, else its default, else empty. -/
def declaredInput (evalCtx : EvalContext) (userInputs : HashMap Str) (entry : Str × ActionInput) :
    Evaluation (Str × Str) :=
  match userInputs.lookup entry.1, entry.2.default with
  | some value, _ => pure (entry.1, value)
  | none, some default => do
    let value ← interpolateCompositeExpr engine default evalCtx .inputDefault
    pure (entry.1, value)
  | none, none => pure (entry.1, [])

/-- What a composite or a container action gets; inputs that were not declared are passed on. -/
def buildCompositeInputs (step : ActionStep) (manifest : ActionDefinition)
    (ctx : ExecutionContext) : Evaluation (HashMap Str) := do
  let userInputs ← collectStepInputs order engine step (ctx.evalContext order)
  let declared ← inOrder (declaredInput engine (ctx.evalContext order) userInputs)
    (pairs manifest.inputs)
  pure (order.collect
    (declared ++ (pairs userInputs).filter fun e => e.1 ∉ declared.map Prod.fst))

/-- The inputs a Node action's manifest has a default for and that were not supplied. -/
def missingInputs (manifest : ActionDefinition) (stepInputs : HashMap Str) : List (Str × Str) :=
  (pairs manifest.inputs).filterMap fun entry =>
    if (stepInputs.lookup entry.1).isSome then none
    else entry.2.default.map fun default => (entry.1, default)

/-- What a Node action gets: the inputs of `build_node_env`. -/
def buildNodeInputs (step : ActionStep) (manifest : ActionDefinition) (ctx : ExecutionContext) :
    Evaluation (HashMap Str) := do
  let stepInputs ← collectStepInputs order engine step (ctx.evalContext order)
  let defaults ← inOrder
    (fun entry => do
      let value ← interpolateWith engine (ctx.evalContext order) entry.2
      pure (entry.1, value)) (missingInputs manifest stepInputs)
  pure (order.collect (pairs stepInputs ++ defaults))

/-! ### Running the step -/

/-- What an action's handler is called with. -/
structure HandlerCall where
  step : ActionStep
  manifest : ActionDefinition
  stepEnv : HashMap Str
  ctx : ExecutionContext

def HandlerCall.inputs (call : HandlerCall) : Evaluation (HashMap Str) :=
  match call.manifest.runsUsing with
  | .node _ => buildNodeInputs order engine call.step call.manifest call.ctx
  | .composite | .docker => buildCompositeInputs order engine call.step call.manifest call.ctx

variable (resolveAction : ActionStepDefinitionReference → Except RunnerError ActionDefinition)

/-- `execute_action` and `dispatch_action`, up to the handler. -/
def executeAction (step : ActionStep) (ctx : ExecutionContext) : Evaluation HandlerCall := do
  let manifest ← lift (resolveAction step.reference)
  let stepEnv ← resolveStepEnv order engine step (ctx.evalContext order)
  pure ⟨step, manifest, stepEnv, (ctx.pushStepEnv stepEnv).setReference step.reference⟩

/-- Nothing runs for a step without `uses:`. -/
def runNestedUsesStep (step : CompositeStep) (idx : ℕ) (inputs : HashMap Str)
    (ctx : ExecutionContext) : Evaluation (Option HandlerCall) :=
  match step.uses with
  | none => pure none
  | some uses => do
    let (synthetic, ctx) ← buildNestedStep order engine step idx uses inputs ctx
    let stepEnv ← renderNestedEnv order engine step inputs ctx
    let call ← executeAction order engine resolveAction (attachRenderedEnv synthetic stepEnv) ctx
    pure (some call)

end GhRunner.Execution
