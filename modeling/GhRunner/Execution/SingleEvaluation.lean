import GhRunner.Lib.KeyedMerge
import GhRunner.Execution.NestedUses

namespace GhRunner.Execution

open Text Traced KeyedMerge GhRunner.Expressions

/-!
# What a nested action receives

A nested step's `with:` and `env:` are templates of the action's author; what they are filled with
is data.

* `receivesOnce` — the intended behaviour: every template is rendered once, in the enclosing
  action, and what comes out is final;
* `receivesOnce_spec` — that is, every template filled in, with no expression evaluated but its own;
* `lookup_buildCompositeInputs`, `lookup_buildNodeInputs` — what the handlers add to the inputs
  supplied;
* `nested_evaluated_once_iff` — the code does the same exactly where no `env:` value, once filled in,
  contains a placeholder; inputs are always final;
* `nested_env_evaluates_data` — a run in which data is evaluated.
-/

variable (order : HashOrder) (engine : Engine)
  (resolveAction : ActionStepDefinitionReference → Except RunnerError ActionDefinition)

/-- The step's environment and the inputs supplied to it, as the handler finds them. -/
structure Received where
  env : Finmap fun _ : Str => Str
  inputs : Finmap fun _ : Str => Str

def HandlerCall.received (call : HandlerCall) : Evaluation Received := do
  let inputs ← collectStepInputs order engine call.step (call.ctx.evalContext order)
  pure ⟨call.stepEnv.toFinmap, inputs.toFinmap⟩

/-- What the nested action receives; nothing when there is none. -/
def nestedReceives (step : CompositeStep) (idx : ℕ) (inputs : HashMap Str)
    (ctx : ExecutionContext) : Evaluation (Option Received) := do
  match ← runNestedUsesStep order engine resolveAction step idx inputs ctx with
  | none => pure none
  | some call => do
    let received ← call.received order engine
    pure (some received)

/-- What the `with:` templates are evaluated against. -/
def withContext (inputs : HashMap Str) (ctx : ExecutionContext)
    (reference : ActionStepDefinitionReference) : EvalContext :=
  compositeEvalContext order (inputsContext ctx reference) inputs none

/-- What the `env:` templates are evaluated against. -/
def envContext (inputs : HashMap Str) (ctx : ExecutionContext)
    (reference : ActionStepDefinitionReference) : EvalContext :=
  compositeEvalContext order (restoredContext ctx reference) inputs none

/-- Every template is rendered once. -/
def receivesOnce (step : CompositeStep) (inputs : HashMap Str) (ctx : ExecutionContext) :
    Evaluation (Option Received) :=
  match step.uses with
  | none => pure none
  | some uses => do
    let reference ← lift (nestedReference ctx uses)
    let withEntries ← inOrder (renderEntry engine (withContext order inputs ctx reference) .step)
      (pairs step.withInputs)
    let envEntries ← inOrder (renderEntry engine (envContext order inputs ctx reference) .env)
      (pairs step.env)
    let _ ← lift (resolveAction reference)
    pure (some ⟨(order.collect envEntries).toFinmap, (order.collect withEntries).toFinmap⟩)

/-- The text a template stands for. -/
def filled (evalCtx : EvalContext) (template : Str) : Str :=
  (scan template).fill (valueText engine evalCtx)

variable {order engine resolveAction}

/-! ### Rendering templates -/

theorem renderEntry_eq_ok {evalCtx : EvalContext} {field : CompositeField} {entry b : Str × Str}
    (h : (renderEntry engine evalCtx field entry).result = .ok b) :
    b = (entry.1, filled engine evalCtx entry.2) ∧
      (renderEntry engine evalCtx field entry).trace = (scan entry.2).exprs := by
  obtain ⟨text, htext, hpure, htrace⟩ := bind_eq_ok h
  obtain ⟨rfl, hexprs⟩ := interpolateCompositeExpr_eq_ok htext
  refine ⟨(Except.ok.inj hpure).symm, ?_⟩
  rw [renderEntry, htrace, hexprs, trace_pure, List.append_nil]

theorem inOrder_renderEntry {evalCtx : EvalContext} {field : CompositeField}
    {entries bs : List (Str × Str)}
    (h : (inOrder (renderEntry engine evalCtx field) entries).result = .ok bs) :
    bs = entries.map (fun e => (e.1, filled engine evalCtx e.2)) ∧
      (inOrder (renderEntry engine evalCtx field) entries).trace =
        entries.flatMap fun e => (scan e.2).exprs := by
  obtain ⟨hall, htrace⟩ := inOrder_eq_ok h
  have hbs : bs = entries.map fun e => (e.1, filled engine evalCtx e.2) := by
    clear h htrace
    induction hall with
    | nil => rfl
    | cons hb _ ih => rw [List.map_cons, ih, (renderEntry_eq_ok hb).1]
  refine ⟨hbs, ?_⟩
  rw [htrace]
  refine List.flatMap_congr fun e he => ?_
  obtain ⟨b, -, hb⟩ := exists_ok_of_mem hall he
  exact (renderEntry_eq_ok hb).2

/-- Rendering keeps the keys. -/
theorem nodup_filled (m : HashMap Str) (evalCtx : EvalContext) :
    (((pairs m).map fun e => (e.1, filled engine evalCtx e.2)).map Prod.fst).Nodup := by
  rw [List.map_map]
  exact nodup_pairs m

theorem lookup_filled (m : HashMap Str) (evalCtx : EvalContext) (key : Str) :
    (order.collect ((pairs m).map fun e => (e.1, filled engine evalCtx e.2))).lookup key =
      (m.lookup key).map (filled engine evalCtx) := by
  ext value
  rw [order.lookup_collect (nodup_filled m evalCtx), List.mem_map, Option.map_eq_some_iff]
  constructor
  · rintro ⟨⟨k, template⟩, he, heq⟩
    obtain ⟨rfl, rfl⟩ := Prod.mk.inj heq
    exact ⟨template, mem_pairs.mp he, rfl⟩
  · rintro ⟨template, he, rfl⟩
    exact ⟨(key, template), mem_pairs.mpr he, rfl⟩

/-! ### Literals on the ordinary path -/

theorem literalEntries_mappingToken (entries : List (Str × Str)) :
    (mappingToken entries).literalEntries = entries.map fun e => (e.1, literalToken e.2) := by
  simp only [TemplateToken.literalEntries, mappingToken, Option.getD_some, List.filterMap_map]
  exact List.filterMap_eq_map (f := fun e : Str × Str => (e.1, literalToken e.2)) ▸ rfl

/-- Literal inputs are final: nothing is evaluated and each is received as it stands. -/
theorem collectStepInputs_literal {step : ActionStep} {entries : List (Str × Str)}
    (hstep : step.inputs = mappingToken entries) (hnodup : (entries.map Prod.fst).Nodup)
    (evalCtx : EvalContext) :
    ∃ inputs, collectStepInputs order engine step evalCtx = pure inputs ∧
      ∀ key value, inputs.lookup key = some value ↔ (key, value) ∈ entries := by
  have hkeys : ((entries.map fun e => (e.1, literalToken e.2)).map Prod.fst).Nodup := by
    rwa [List.map_map]
  have hmem : ∀ key token, (key, token) ∈ pairs (step.inputs.toMap order) ↔
      ∃ value, (key, value) ∈ entries ∧ literalToken value = token := by
    intro key token
    rw [mem_pairs, TemplateToken.toMap, hstep, literalEntries_mappingToken,
      order.lookup_collect hkeys, List.mem_map]
    constructor
    · rintro ⟨⟨k, value⟩, he, heq⟩
      obtain ⟨rfl, rfl⟩ := Prod.mk.inj heq
      exact ⟨value, he, rfl⟩
    · rintro ⟨value, he, rfl⟩
      exact ⟨(key, value), he, rfl⟩
  have hfinal : ∀ e ∈ pairs (step.inputs.toMap order),
      inputEntry engine evalCtx e = pure (e.1, e.2.lit.getD []) := by
    rintro ⟨key, token⟩ he
    obtain ⟨value, -, rfl⟩ := (hmem key token).mp he
    exact if_pos rfl
  refine ⟨_, by rw [collectStepInputs, inOrder_pure hfinal, pure_bind], fun key value => ?_⟩
  rw [order.lookup_collect (by rw [List.map_map]; exact nodup_pairs _), List.mem_map]
  constructor
  · rintro ⟨⟨k, token⟩, he, heq⟩
    obtain ⟨rfl, rfl⟩ := Prod.mk.inj heq
    obtain ⟨value, hvalue, rfl⟩ := (hmem k token).mp he
    exact hvalue
  · exact fun he => ⟨(key, literalToken value), (hmem _ _).mpr ⟨value, he, rfl⟩, rfl⟩

/-- The environment's values are rendered a second time. -/
theorem resolveStepEnv_attach (step : ActionStep) (env : HashMap Str) (evalCtx : EvalContext) :
    resolveStepEnv order engine (attachRenderedEnv step env) evalCtx =
      (do
        let entries ← inOrder
          (fun e => resolveEntry engine evalCtx (e.1, literalToken e.2)) (pairs env)
        pure (order.collect entries)) := by
  have hinOrder : ∀ entries : List (Str × Str),
      inOrder (resolveEntry engine evalCtx) (entries.map fun e => (e.1, literalToken e.2)) =
        inOrder (fun e => resolveEntry engine evalCtx (e.1, literalToken e.2)) entries := by
    intro entries
    induction entries with
    | nil => rfl
    | cons e entries ih => rw [List.map_cons, inOrder, inOrder, ih]
  show (do
    let entries ← inOrder (resolveEntry engine evalCtx) (mappingToken (pairs env)).literalEntries
    pure (order.collect entries)) = _
  rw [literalEntries_mappingToken, hinOrder]

/-- The second rendering does nothing where no value contains a placeholder. -/
theorem inOrder_again {evalCtx : EvalContext} {entries : List (Str × Str)}
    (h : ∀ e ∈ entries, ¬ openDelim <:+: e.2) :
    inOrder (fun e => resolveEntry engine evalCtx (e.1, literalToken e.2)) entries =
      pure entries := by
  have hentry : ∀ e ∈ entries,
      resolveEntry engine evalCtx (e.1, literalToken e.2) = pure (id e) := by
    intro e he
    show (interpolateWith engine evalCtx e.2 >>= fun value => pure (e.1, value)) = _
    rw [interpolateWith_of_no_delim (h e he), pure_bind]
    rfl
  rw [inOrder_pure hentry, List.map_id]

/-- And only there. -/
theorem not_infix_of_inOrder_again {evalCtx : EvalContext} {entries bs : List (Str × Str)}
    (h : inOrder (fun e => resolveEntry engine evalCtx (e.1, literalToken e.2)) entries = pure bs) :
    ∀ e ∈ entries, ¬ openDelim <:+: e.2 := by
  intro e he
  obtain ⟨b, -, hb⟩ := eq_pure_of_inOrder h e he
  have hb : (interpolateWith engine evalCtx e.2 >>= fun value => pure (e.1, value)) = pure b := hb
  obtain ⟨text, htext, -⟩ := eq_pure_of_bind hb
  exact not_infix_of_interpolateWith htext

/-! ### Once and twice -/

/-- From the call of the handler on, the values are those rendered before exactly where none of them
    contains a placeholder. -/
theorem received_eq_iff {synthetic : ActionStep} {manifest : ActionDefinition}
    {ws : List (Str × Str)} (hinputs : synthetic.inputs = mappingToken ws)
    (hnodup : (ws.map Prod.fst).Nodup) (env : HashMap Str) (ctx : ExecutionContext)
    (hresolve : resolveAction synthetic.reference = .ok manifest) :
    (executeAction order engine resolveAction (attachRenderedEnv synthetic env) ctx >>=
        fun call => call.received order engine) =
        pure ⟨env.toFinmap, (order.collect ws).toFinmap⟩ ↔
      ∀ e ∈ pairs env, ¬ openDelim <:+: e.2 := by
  rw [executeAction, show (attachRenderedEnv synthetic env).reference = synthetic.reference from rfl,
    hresolve, lift_ok, pure_bind, resolveStepEnv_attach]
  simp only [bind_assoc, pure_bind]
  constructor
  · intro h
    obtain ⟨again, hagain, -⟩ := eq_pure_of_bind h
    exact not_infix_of_inOrder_again hagain
  · intro h
    rw [inOrder_again h, pure_bind]
    have hstep : (attachRenderedEnv synthetic env).inputs = mappingToken ws := hinputs
    obtain ⟨inputs, hcollect, hlookup⟩ := @collectStepInputs_literal order engine _ _ hstep hnodup
      (((ctx.pushStepEnv (order.collect (pairs env))).setReference
        synthetic.reference).evalContext order)
    rw [HandlerCall.received]
    refine (congrArg (· >>= _) hcollect).trans ?_
    rw [pure_bind]
    congr 2
    · exact toFinmap_eq fun key value => by
        rw [order.lookup_collect (nodup_pairs env), mem_pairs]
    · exact toFinmap_eq fun key value => by
        rw [hlookup, order.lookup_collect hnodup]

/-- The run, one stage after the other. -/
theorem nestedReceives_eq {step : CompositeStep} {uses : Str} (huses : step.uses = some uses)
    (idx : ℕ) (inputs : HashMap Str) (ctx : ExecutionContext) :
    nestedReceives order engine resolveAction step idx inputs ctx =
      (do
        let reference ← lift (nestedReference ctx uses)
        let withEntries ← inOrder
          (renderEntry engine (withContext order inputs ctx reference) .step) (pairs step.withInputs)
        let envEntries ← inOrder
          (renderEntry engine (envContext order inputs ctx reference) .env) (pairs step.env)
        let call ← executeAction order engine resolveAction
          (attachRenderedEnv
            { id := step.id.getD ("__composite_uses_" ++ toString idx).toList
              stepType := some "action".toList
              contextName := step.id
              condition := step.condition
              continueOnError := step.continueOnError
              reference := reference
              inputs := mappingToken withEntries
              environment := none } (order.collect envEntries))
          (restoredContext ctx reference)
        let received ← call.received order engine
        pure (some received)) := by
  rw [nestedReceives, runNestedUsesStep, huses]
  simp only [buildNestedStep, buildInputsToken, renderNestedEnv, bind_assoc, pure_bind]
  rfl

/-- The two agree exactly when no rendered environment value contains a placeholder, if the step
    gets as far as its action. -/
theorem nestedReceives_eq_once_iff {step : CompositeStep} {uses : Str}
    (huses : step.uses = some uses) (idx : ℕ) (inputs : HashMap Str) (ctx : ExecutionContext) :
    nestedReceives order engine resolveAction step idx inputs ctx =
        receivesOnce order engine resolveAction step inputs ctx ↔
      ∀ reference, nestedReference ctx uses = .ok reference →
      ∀ ws, (inOrder (renderEntry engine (withContext order inputs ctx reference) .step)
        (pairs step.withInputs)).result = .ok ws →
      ∀ es, (inOrder (renderEntry engine (envContext order inputs ctx reference) .env)
        (pairs step.env)).result = .ok es →
      ∀ manifest, resolveAction reference = .ok manifest →
      ∀ e ∈ pairs (order.collect es), ¬ openDelim <:+: e.2 := by
  rw [nestedReceives_eq huses, receivesOnce, huses]
  dsimp only
  rw [bind_left_inj]
  refine forall₂_congr fun reference _ => ?_
  rw [bind_left_inj]
  refine forall₂_congr fun ws hws => ?_
  rw [bind_left_inj]
  refine forall₂_congr fun es _ => ?_
  have hnodup : (ws.map Prod.fst).Nodup := by
    rw [(inOrder_renderEntry hws).1]
    exact nodup_filled _ _
  cases hresolve : resolveAction reference with
  | error e =>
    refine iff_of_true ?_ (fun manifest h => by cases h)
    rw [executeAction, show (attachRenderedEnv _ _).reference = reference from rfl, hresolve,
      bind_assoc, bind_of_error (result_lift _), bind_of_error (result_lift _)]
  | ok manifest =>
    have hsome : ∀ (x : Evaluation Received) (r : Received),
        (x >>= fun received => pure (some received)) = pure (some r) ↔ x = pure r := by
      intro x r
      constructor
      · intro h
        obtain ⟨received, hx, hr⟩ := eq_pure_of_bind h
        rw [hx, Option.some.inj (Except.ok.inj (congrArg Traced.result hr))]
      · intro h
        rw [h, pure_bind]
    rw [lift_ok, pure_bind, ← bind_assoc, hsome, received_eq_iff rfl hnodup _ _ hresolve]
    exact ⟨fun h _ _ => h, fun h => h manifest rfl⟩

/-- What is received when every template is rendered once: each filled in, with nothing evaluated
    but the expressions of the templates. -/
theorem receivesOnce_spec {step : CompositeStep} {inputs : HashMap Str} {ctx : ExecutionContext}
    {received : Received}
    (h : (receivesOnce order engine resolveAction step inputs ctx).result = .ok (some received)) :
    ∃ uses reference, step.uses = some uses ∧ nestedReference ctx uses = .ok reference ∧
      (∀ key, received.inputs.lookup key =
        (step.withInputs.lookup key).map (filled engine (withContext order inputs ctx reference))) ∧
      (∀ key, received.env.lookup key =
        (step.env.lookup key).map (filled engine (envContext order inputs ctx reference))) ∧
      (receivesOnce order engine resolveAction step inputs ctx).trace =
        (pairs step.withInputs).flatMap (fun e => (scan e.2).exprs) ++
          (pairs step.env).flatMap fun e => (scan e.2).exprs := by
  unfold receivesOnce at h ⊢
  cases huses : step.uses with
  | none =>
    rw [huses] at h
    cases h
  | some uses =>
    rw [huses] at h
    dsimp only at h ⊢
    obtain ⟨reference, href, h, htrace⟩ := bind_eq_ok h
    obtain ⟨ws, hws, h, htrace₁⟩ := bind_eq_ok h
    obtain ⟨es, hes, h, htrace₂⟩ := bind_eq_ok h
    obtain ⟨manifest, -, h, htrace₃⟩ := bind_eq_ok h
    obtain rfl := Option.some.inj (Except.ok.inj h)
    obtain ⟨rfl, hwtrace⟩ := inOrder_renderEntry hws
    obtain ⟨rfl, hetrace⟩ := inOrder_renderEntry hes
    refine ⟨uses, reference, rfl, href, fun key => ?_, fun key => ?_, ?_⟩
    · rw [Finmap.lookup_toFinmap, lookup_filled]
    · rw [Finmap.lookup_toFinmap, lookup_filled]
    · rw [htrace, htrace₁, htrace₂, htrace₃, hwtrace, hetrace]
      simp

/-! ### Inputs that were not supplied -/

/-- The manifest's default of an input, filled in. -/
def defaultOf (engine : Engine) (evalCtx : EvalContext) (manifest : ActionDefinition) (name : Str) :
    Option Str :=
  (manifest.inputs.lookup name).bind fun input => input.default.map (filled engine evalCtx)

/-- In a composite action an input without a default is empty. -/
def compositeDefaultOf (engine : Engine) (evalCtx : EvalContext) (manifest : ActionDefinition)
    (name : Str) : Option Str :=
  (manifest.inputs.lookup name).map fun input =>
    (input.default.map (filled engine evalCtx)).getD []

theorem declaredInput_eq_ok {evalCtx : EvalContext} {supplied : HashMap Str}
    {entry : Str × ActionInput} {b : Str × Str}
    (h : (declaredInput engine evalCtx supplied entry).result = .ok b) :
    b = (entry.1, (supplied.lookup entry.1).getD
      ((entry.2.default.map (filled engine evalCtx)).getD [])) := by
  unfold declaredInput at h
  split at h
  case h_1 value _ hvalue =>
    obtain rfl := Except.ok.inj h
    rw [hvalue, Option.getD_some]
  case h_2 default hnone hdefault =>
    obtain ⟨text, htext, hpure, -⟩ := bind_eq_ok h
    obtain rfl := Except.ok.inj hpure
    obtain ⟨rfl, -⟩ := interpolateCompositeExpr_eq_ok htext
    rw [hnone, hdefault]
    rfl
  case h_3 hnone hdefault =>
    obtain rfl := Except.ok.inj h
    rw [hnone, hdefault]
    rfl

/-- What a handler makes of the supplied inputs: they stay as they are, and the default of an input
    that was not supplied is filled in. -/
structure Completes (engine : Engine) (evalCtx : EvalContext) (manifest : ActionDefinition)
    (supplied all : HashMap Str) : Prop where
  kept : ∀ key value, supplied.lookup key = some value → all.lookup key = some value
  defaults : ∀ key input default, manifest.inputs.lookup key = some input →
    input.default = some default → supplied.lookup key = none →
    all.lookup key = some (filled engine evalCtx default)

/-- Each name has what was supplied for exactly that name, or else its default. -/
theorem lookup_buildCompositeInputs {step : ActionStep} {manifest : ActionDefinition}
    {ctx : ExecutionContext} {all : HashMap Str}
    (h : (buildCompositeInputs order engine step manifest ctx).result = .ok all) :
    ∃ supplied, (collectStepInputs order engine step (ctx.evalContext order)).result = .ok supplied ∧
      ∀ key, all.lookup key =
        carried supplied.lookup (compositeDefaultOf engine (ctx.evalContext order) manifest) key := by
  obtain ⟨supplied, hsupplied, h, -⟩ := bind_eq_ok h
  obtain ⟨declared, hdeclared, h, -⟩ := bind_eq_ok h
  obtain rfl := Except.ok.inj h
  obtain ⟨hall, -⟩ := inOrder_eq_ok hdeclared
  have hkeys : declared.map Prod.fst = (pairs manifest.inputs).map Prod.fst :=
    map_eq_of_forall₂ hall fun _ _ hb => by rw [declaredInput_eq_ok hb]
  set rest := (pairs supplied).filter fun e => e.1 ∉ declared.map Prod.fst with hrest
  have hnodup : ((declared ++ rest).map Prod.fst).Nodup := by
    rw [List.map_append, List.nodup_append]
    refine ⟨hkeys ▸ nodup_pairs _,
      (nodup_pairs supplied).sublist (List.filter_sublist.map Prod.fst), ?_⟩
    rintro k hk _ hk' rfl
    obtain ⟨e, he, rfl⟩ := List.mem_map.mp hk'
    exact absurd hk (by simpa using (List.mem_filter.mp he).2)
  refine ⟨supplied, hsupplied, fun key => ?_⟩
  cases hinput : manifest.inputs.lookup key with
  | some input =>
    -- a declared input is in the first part
    obtain ⟨b, hb, hentry⟩ := exists_ok_of_mem hall (mem_pairs.mpr hinput)
    rw [declaredInput_eq_ok hentry] at hb
    rw [(order.lookup_collect hnodup).mpr (List.mem_append_left _ hb), carried, compositeDefaultOf,
      hinput, Option.map_some]
    cases supplied.lookup key <;> rfl
  | none =>
    have hnew : key ∉ declared.map Prod.fst := by
      rw [hkeys]
      intro hmem
      obtain ⟨⟨k, input⟩, he, rfl⟩ := List.mem_map.mp hmem
      rw [mem_pairs.mp he] at hinput
      cases hinput
    rw [carried, compositeDefaultOf, hinput, Option.map_none, Option.or_none]
    ext value
    rw [order.lookup_collect hnodup, List.mem_append, hrest, List.mem_filter, mem_pairs]
    constructor
    · rintro (hmem | ⟨hvalue, -⟩)
      · exact absurd (List.mem_map_of_mem hmem) hnew
      · exact hvalue
    · exact fun hvalue => Or.inr ⟨hvalue, by simpa using hnew⟩

theorem buildCompositeInputs_eq_ok {step : ActionStep} {manifest : ActionDefinition}
    {ctx : ExecutionContext} {all : HashMap Str}
    (h : (buildCompositeInputs order engine step manifest ctx).result = .ok all) :
    ∃ supplied, (collectStepInputs order engine step (ctx.evalContext order)).result = .ok supplied ∧
      Completes engine (ctx.evalContext order) manifest supplied all := by
  obtain ⟨supplied, hsupplied, hall⟩ := lookup_buildCompositeInputs h
  refine ⟨supplied, hsupplied, fun key value hvalue => ?_, fun key input default hinput hd hnone => ?_⟩
  · rw [hall]
    exact carried_of_first hvalue
  · rw [hall]
    apply carried_of_second hnone
    rw [compositeDefaultOf, hinput, Option.map_some, hd]
    rfl

theorem mem_missingInputs {manifest : ActionDefinition} {stepInputs : HashMap Str}
    {key default : Str} :
    (key, default) ∈ missingInputs manifest stepInputs ↔
      ∃ input, manifest.inputs.lookup key = some input ∧ input.default = some default ∧
        stepInputs.lookup key = none := by
  rw [missingInputs, List.mem_filterMap]
  constructor
  · rintro ⟨⟨k, input⟩, he, heq⟩
    split at heq
    case isTrue => cases heq
    case isFalse hnone =>
      obtain ⟨d, hd, hpair⟩ := Option.map_eq_some_iff.mp heq
      obtain ⟨rfl, rfl⟩ := Prod.mk.inj hpair
      exact ⟨input, mem_pairs.mp he, hd, by simpa using hnone⟩
  · rintro ⟨input, hinput, hd, hnone⟩
    refine ⟨(key, input), mem_pairs.mpr hinput, ?_⟩
    simp [hnone, hd]

theorem nodup_missingInputs (manifest : ActionDefinition) (stepInputs : HashMap Str) :
    ((missingInputs manifest stepInputs).map Prod.fst).Nodup := by
  refine (nodup_pairs manifest.inputs).sublist ?_
  unfold missingInputs
  induction pairs manifest.inputs with
  | nil => exact .slnil
  | cons entry entries ih =>
    rw [List.filterMap_cons]
    split
    case h_1 => exact ih.cons _
    case h_2 b heq =>
      split at heq
      case isTrue => cases heq
      case isFalse =>
        obtain ⟨d, -, rfl⟩ := Option.map_eq_some_iff.mp heq
        exact ih.cons_cons _

/-- Each name has what was supplied for exactly that name, or else its default if it has one. -/
theorem lookup_buildNodeInputs {step : ActionStep} {manifest : ActionDefinition}
    {ctx : ExecutionContext} {all : HashMap Str}
    (h : (buildNodeInputs order engine step manifest ctx).result = .ok all) :
    ∃ supplied, (collectStepInputs order engine step (ctx.evalContext order)).result = .ok supplied ∧
      ∀ key, all.lookup key =
        carried supplied.lookup (defaultOf engine (ctx.evalContext order) manifest) key := by
  obtain ⟨supplied, hsupplied, h, -⟩ := bind_eq_ok h
  obtain ⟨defaults, hdefaults, h, -⟩ := bind_eq_ok h
  obtain rfl := Except.ok.inj h
  obtain ⟨hall, -⟩ := inOrder_eq_ok hdefaults
  have hentry : ∀ (e b : Str × Str),
      (interpolateWith engine (ctx.evalContext order) e.2 >>= fun value =>
        (pure (e.1, value) : Evaluation _)).result = .ok b →
      b = (e.1, filled engine (ctx.evalContext order) e.2) := by
    intro e b hb
    obtain ⟨text, htext, hpure, -⟩ := bind_eq_ok hb
    rw [← Except.ok.inj hpure, interpolateWith_eq_ok htext]
    rfl
  have hkeys : defaults.map Prod.fst = (missingInputs manifest supplied).map Prod.fst :=
    map_eq_of_forall₂ hall fun e b hb => by rw [hentry e b hb]
  have hnodup : ((pairs supplied ++ defaults).map Prod.fst).Nodup := by
    rw [List.map_append, List.nodup_append]
    refine ⟨nodup_pairs _, hkeys ▸ nodup_missingInputs _ _, ?_⟩
    rintro k hk _ hk' rfl
    obtain ⟨⟨_, value⟩, he, rfl⟩ := List.mem_map.mp hk
    rw [hkeys] at hk'
    obtain ⟨⟨_, d⟩, hmissing, rfl⟩ := List.mem_map.mp hk'
    obtain ⟨-, -, -, hnone⟩ := mem_missingInputs.mp hmissing
    exact absurd (hnone.symm.trans (mem_pairs.mp he)) (Option.some_ne_none _).symm
  refine ⟨supplied, hsupplied, fun key => ?_⟩
  ext value
  rw [order.lookup_collect hnodup, List.mem_append, mem_pairs]
  constructor
  · rintro (hvalue | hmem)
    · exact carried_of_first hvalue
    · obtain ⟨⟨k, text⟩, he, hok⟩ := exists_ok_of_mem_right hall hmem
      obtain ⟨rfl, rfl⟩ := Prod.mk.inj (hentry _ _ hok)
      obtain ⟨input, hinput, hd, hnone⟩ := mem_missingInputs.mp he
      apply carried_of_second hnone
      rw [defaultOf, hinput, Option.bind_some, hd, Option.map_some]
  · intro hvalue
    rcases carried_cases hvalue with hfirst | ⟨hnone, hdefault⟩
    · exact Or.inl hfirst
    · obtain ⟨input, hinput, hmap⟩ := Option.bind_eq_some_iff.mp hdefault
      obtain ⟨text, hd, rfl⟩ := Option.map_eq_some_iff.mp hmap
      obtain ⟨b, hb, hok⟩ := exists_ok_of_mem hall
        (mem_missingInputs.mpr ⟨input, hinput, hd, hnone⟩)
      exact Or.inr (hentry _ _ hok ▸ hb)

theorem buildNodeInputs_eq_ok {step : ActionStep} {manifest : ActionDefinition}
    {ctx : ExecutionContext} {all : HashMap Str}
    (h : (buildNodeInputs order engine step manifest ctx).result = .ok all) :
    ∃ supplied, (collectStepInputs order engine step (ctx.evalContext order)).result = .ok supplied ∧
      Completes engine (ctx.evalContext order) manifest supplied all := by
  obtain ⟨supplied, hsupplied, hall⟩ := lookup_buildNodeInputs h
  refine ⟨supplied, hsupplied, fun key value hvalue => ?_, fun key input default hinput hd hnone => ?_⟩
  · rw [hall]
    exact carried_of_first hvalue
  · rw [hall]
    apply carried_of_second hnone
    rw [defaultOf, hinput, Option.bind_some, hd, Option.map_some]

/-- Whatever kind of action it is, its handler completes the supplied inputs. -/
theorem HandlerCall.inputs_eq_ok {call : HandlerCall} {all : HashMap Str}
    (h : (call.inputs order engine).result = .ok all) :
    ∃ supplied,
      (collectStepInputs order engine call.step (call.ctx.evalContext order)).result = .ok supplied ∧
      Completes engine (call.ctx.evalContext order) call.manifest supplied all := by
  unfold HandlerCall.inputs at h
  split at h
  case h_1 => exact buildNodeInputs_eq_ok h
  case h_2 => exact buildCompositeInputs_eq_ok h
  case h_3 => exact buildCompositeInputs_eq_ok h

/-! ### The nested step -/

variable (order engine resolveAction)

/-- **Data is not evaluated, except through the environment.**  For every nested step and every
    context, in the innermost action as in the outermost: what the action receives, and what is
    evaluated for it, is what rendering every template once gives, if and only if no `env:` template,
    once filled in with data, reads as a template again.  The handler then keeps the inputs supplied
    and fills in the defaults of the others. -/
theorem nested_evaluated_once_iff (step : CompositeStep) (idx : ℕ) (inputs : HashMap Str)
    (ctx : ExecutionContext) :
    (nestedReceives order engine resolveAction step idx inputs ctx =
        receivesOnce order engine resolveAction step inputs ctx ↔
      ∀ uses reference received, step.uses = some uses → nestedReference ctx uses = .ok reference →
        (receivesOnce order engine resolveAction step inputs ctx).result = .ok (some received) →
        ∀ key template, step.env.lookup key = some template →
          ¬ openDelim <:+: filled engine (envContext order inputs ctx reference) template) ∧
    (∀ received,
      (receivesOnce order engine resolveAction step inputs ctx).result = .ok (some received) →
      ∃ uses reference, step.uses = some uses ∧ nestedReference ctx uses = .ok reference ∧
        (∀ key, received.inputs.lookup key =
          (step.withInputs.lookup key).map (filled engine (withContext order inputs ctx reference))) ∧
        (∀ key, received.env.lookup key =
          (step.env.lookup key).map (filled engine (envContext order inputs ctx reference))) ∧
        (receivesOnce order engine resolveAction step inputs ctx).trace =
          (pairs step.withInputs).flatMap (fun e => (scan e.2).exprs) ++
            (pairs step.env).flatMap fun e => (scan e.2).exprs) ∧
    ∀ call all,
      (runNestedUsesStep order engine resolveAction step idx inputs ctx).result = .ok (some call) →
      (call.inputs order engine).result = .ok all →
      ∃ supplied,
        (collectStepInputs order engine call.step (call.ctx.evalContext order)).result =
          .ok supplied ∧
        Completes engine (call.ctx.evalContext order) call.manifest supplied all := by
  refine ⟨?_, fun _ h => receivesOnce_spec h, fun _ _ _ h => HandlerCall.inputs_eq_ok h⟩
  cases huses : step.uses with
  | none =>
    refine iff_of_true ?_ (fun _ _ _ h => by cases h)
    rw [nestedReceives, runNestedUsesStep, receivesOnce, huses]
    exact pure_bind _ _
  | some uses =>
    rw [nestedReceives_eq_once_iff huses]
    constructor
    · rintro h uses' reference received huses' href hreceived key template htemplate
      obtain rfl := Option.some.inj huses'
      rw [receivesOnce, huses] at hreceived
      obtain ⟨reference', href', hreceived, -⟩ := bind_eq_ok hreceived
      obtain rfl : reference' = reference := Except.ok.inj (href'.symm.trans href)
      obtain ⟨ws, hws, hreceived, -⟩ := bind_eq_ok hreceived
      obtain ⟨es, hes, hreceived, -⟩ := bind_eq_ok hreceived
      obtain ⟨manifest, hmanifest, -, -⟩ := bind_eq_ok hreceived
      refine h reference' href ws hws es hes manifest hmanifest (key, _) ?_
      rw [mem_pairs, (inOrder_renderEntry hes).1, lookup_filled, htemplate]
      rfl
    · rintro h reference href ws hws es hes manifest hmanifest ⟨key, value⟩ he
      have hreceived : (receivesOnce order engine resolveAction step inputs ctx).result =
          .ok (some ⟨(order.collect es).toFinmap, (order.collect ws).toFinmap⟩) := by
        rw [receivesOnce, huses]
        exact result_bind_eq_ok_iff.mpr ⟨reference, href, result_bind_eq_ok_iff.mpr ⟨ws, hws,
          result_bind_eq_ok_iff.mpr ⟨es, hes, result_bind_eq_ok_iff.mpr ⟨manifest, hmanifest, rfl⟩⟩⟩⟩
      rw [mem_pairs, (inOrder_renderEntry hes).1, lookup_filled, Option.map_eq_some_iff] at he
      obtain ⟨template, htemplate, rfl⟩ := he
      exact h uses reference _ rfl href hreceived key template htemplate

/-! ### Data that names a secret -/

/-- An engine for `context.property` alone, which it evaluates as the language does. -/
def propertyEngine : Engine where
  parse expr :=
    match splitFirst ['.'] expr with
    | none => .ok (.context expr)
    | some (object, property) => .ok (.propertyAccess (.context object) property)
  evaluate expr ctx :=
    match splitFirst ['.'] expr with
    | none => .ok ((ctx.contexts.lookup expr).getD .null)
    | some (object, property) =>
      match ctx.contexts.lookup object with
      | some (.object entries) => .ok ((objectGet property entries).getD .null)
      | _ => .ok .null
  formatNumber _ := []

def plainOrder : HashOrder := ⟨id, fun _ => .refl _⟩

/-- A job with one secret. -/
def secretContext : ExecutionContext where
  env := ∅
  stepEnvOverlays := []
  scopePath := []
  scopedInputs := ∅
  scopedStatus := ∅
  scopedActionPaths := ∅
  github := []
  steps := .object []
  runnerContext := []
  job := .object []
  jobStatus := .success
  secrets := AList.singleton "TOKEN".toList "hunter2".toList
  vars := ∅
  incomingContexts := ∅
  workspace := none
  container := none
  selfRepositoryEnabled := false
  workflowIdentity := none

/-- A step that hands the action's input `title` on as an environment value. -/
def titleStep : CompositeStep where
  id := none
  env := AList.singleton "TITLE".toList "$\x7b\x7b inputs.title \x7d\x7d".toList
  condition := none
  uses := some "./inner".toList
  continueOnError := none
  withInputs := ∅

/-- A title that is written like an expression is evaluated: the nested action gets the secret. -/
theorem nested_env_evaluates_data :
    let title : Str := "$\x7b\x7b secrets.TOKEN \x7d\x7d".toList
    let inputs : HashMap Str := AList.singleton "title".toList title
    let resolveAction := fun _ => .ok ⟨∅, .node 20⟩
    let received := nestedReceives plainOrder propertyEngine resolveAction titleStep 0 inputs
      secretContext
    let once := receivesOnce plainOrder propertyEngine resolveAction titleStep inputs secretContext
    (received.result.map fun r => r.map fun r => r.env.lookup "TITLE".toList) =
        .ok (some (some "hunter2".toList)) ∧
      received.trace = ["inputs.title".toList, "secrets.TOKEN".toList] ∧
      (once.result.map fun r => r.map fun r => r.env.lookup "TITLE".toList) =
        .ok (some (some title)) ∧
      once.trace = ["inputs.title".toList] := by
  decide +kernel

end GhRunner.Execution
