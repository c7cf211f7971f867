import GhRunner.Expressions.Strictness
import GhRunner.Execution.SingleEvaluation

namespace GhRunner.Execution

open Text Traced KeyedMerge GhRunner.Expressions

/-!
# An action's inputs by name

What an action finds under the name of an input, when the names supplied and the names declared may
differ in case (`crates/execution/src/execution/action_support.rs`, `handlers/node.rs`,
`composite_expr.rs`).

* `inputEnvKey`, `buildActionEnv`, `buildNodeEnv` — the variables of a Node action;
* `nodeReadings` — what is found in them, in whatever order the manifest is gone through;
* `compositeReadings` — what `inputs[name]` is in a composite action, in whatever order the map is;
* `inputs_merged_iff` — when that is the supplied value under the name in any ASCII case, or else the
  default;
* `supplied_in_other_case` — an input that is not.
-/

/-! ### A Node action's variables -/

section Variables

variable (toUppercase : Char → List Char)

def splitWhitespace (s : Str) : List Str := (s.splitOnP isWhitespace).filter fun word => word ≠ []

/-- Each run of white space is one underscore; hyphens stay. -/
def inputEnvKey (name : Str) : Str :=
  "INPUT_".toList ++ (List.intercalate ['_'] (splitWhitespace name)).flatMap toUppercase

/-- The variables of the declared inputs; a later one replaces an earlier one of its name. -/
def inputVariables (manifest : ActionDefinition) (stepInputs : HashMap Str) : List (Str × Str) :=
  (pairs manifest.inputs).filterMap fun entry =>
    ((stepInputs.lookup entry.1).or entry.2.default).map fun value =>
      (inputEnvKey toUppercase entry.1, value)

def buildActionEnv (manifest : ActionDefinition) (stepInputs : HashMap Str) (actionPath : Str)
    (state : HashMap Str) : HashMap Str :=
  extend
    (extend (AList.singleton "GITHUB_ACTION_PATH".toList actionPath)
      (inputVariables toUppercase manifest stepInputs))
    ((pairs state).map fun entry => ("STATE_".toList ++ entry.1, entry.2))

/-- What the process gets besides: the step's environment, where the action is, its saved state and
    the runner's directories. -/
structure ActionProcess where
  base : HashMap Str
  actionPath : Str
  state : HashMap Str
  workspace : Str
  temp : Str
  toolCache : Str

def applyRunnerPaths (env : HashMap Str) (process : ActionProcess) : HashMap Str :=
  extend env
    [("GITHUB_WORKSPACE".toList, process.workspace), ("RUNNER_TEMP".toList, process.temp),
      ("RUNNER_TOOL_CACHE".toList, process.toolCache)]

def buildResolvedActionEnv (manifest : ActionDefinition) (stepInputs : HashMap Str)
    (process : ActionProcess) : HashMap Str :=
  applyRunnerPaths (extend process.base
    (pairs (buildActionEnv toUppercase manifest stepInputs process.actionPath process.state))) process

end Variables

section Readings

variable (order : HashOrder) (platform : Platform) (step : ActionStep) (manifest : ActionDefinition)
  (ctx : ExecutionContext)

def buildNodeEnv (process : ActionProcess) : Evaluation (HashMap Str) := do
  let stepInputs ← buildNodeInputs order platform.engine step manifest ctx
  pure (buildResolvedActionEnv platform.toUppercase manifest stepInputs process)

/-- What a Node action finds under the names of inputs. -/
def nodeReadings (process : ActionProcess) : Set (Str → Option Str) :=
  { reading | ∃ inputs env, inputs.entries.Perm manifest.inputs.entries ∧
      (buildNodeEnv order platform step { manifest with inputs := inputs } ctx process).result =
        .ok env ∧
      reading = fun name => env.lookup (inputEnvKey platform.toUppercase name) }

/-- The string that `inputs[name]` is in a composite action. -/
def compositeReading (inputs : HashMap Str) (name : Str) : Option Str :=
  match evalExpr platform (compositeEvalContext order ctx inputs none).shared []
      (.indexAccess (.context "inputs".toList) (.literal (.string name))) with
  | .ok (.string value) => some value
  | _ => none

def compositeReadings (inputs : HashMap Str) : Set (Str → Option Str) :=
  { reading | ∃ order, reading = compositeReading order platform ctx inputs }

end Readings

/-! ### Names in another case -/

section Names

/-- The same but for the case of ASCII letters. -/
def SameName (name name' : Str) : Prop := asciiLower name = asciiLower name'

variable {toUppercase : Char → List Char}
  (hascii : ∀ c, c.isAlpha = true → toUppercase c = [c.toUpper])

include hascii

theorem inputEnvKey_asciiLower (name : Str) :
    inputEnvKey toUppercase (asciiLower name) = inputEnvKey toUppercase name := by
  have hblank : isWhitespace ∘ Char.toLower = isWhitespace := funext isWhitespace_toLower
  have hwords : splitWhitespace (asciiLower name) = (splitWhitespace name).map asciiLower := by
    rw [splitWhitespace, splitWhitespace, asciiLower, splitOnP_map, hblank, List.filter_map]
    congr 1
    refine List.filter_congr fun word _ => ?_
    simp
  have hjoined : List.intercalate ['_'] ((splitWhitespace name).map asciiLower) =
      asciiLower (List.intercalate ['_'] (splitWhitespace name)) :=
    (map_intercalate Char.toLower ['_'] _).symm
  rw [inputEnvKey, hwords, hjoined, asciiLower, List.flatMap_map, inputEnvKey]
  simp only [casing_toLower hascii]

theorem inputEnvKey_of_sameName {name name' : Str} (h : SameName name name') :
    inputEnvKey toUppercase name = inputEnvKey toUppercase name' := by
  rw [← inputEnvKey_asciiLower hascii name, h, inputEnvKey_asciiLower hascii]

theorem ordinalUpperChar_of_isAlpha {c : Char} (h : c.isAlpha = true) :
    ordinalUpperChar toUppercase c = c.toUpper := by
  have hbound := isAlpha_bounds h
  have hplain : ¬ (c = '\u0131' ∨ c = '\u017f') := by
    rintro (rfl | rfl)
    · exact absurd hbound (by decide)
    · exact absurd hbound (by decide)
  rw [ordinalUpperChar, if_neg hplain, hascii c h]

theorem ordinalUpper_of_sameName {name name' : Str} (h : SameName name name') :
    ordinalUpper toUppercase name = ordinalUpper toUppercase name' := by
  have hlower : ∀ s, ordinalUpper toUppercase (asciiLower s) = ordinalUpper toUppercase s := by
    intro s
    rw [ordinalUpper, asciiLower, List.map_map]
    congr 1
    refine List.map_congr_left fun c _ => ?_
    -- the two characters that are left alone are not of ASCII
    cases hc : c.isUpper with
    | true =>
      obtain ⟨halpha, hlower, hupper, -, -⟩ := of_isUpper hc
      rw [Function.comp_apply, ordinalUpperChar_of_isAlpha hascii hlower,
        ordinalUpperChar_of_isAlpha hascii halpha, hupper]
    | false => rw [Function.comp_apply, toLower_of_not_isUpper hc]
  rw [← hlower name, h, hlower name']

end Names

/-! ### Maps gone through in another order -/

section Orders

variable {V : Type}

/-- The entry of the name first. -/
def front (name : Str) (m : HashMap V) : HashMap V :=
  match m.lookup name with
  | some value => m.insert name value
  | none => m

theorem front_perm (name : Str) (m : HashMap V) : (front name m).entries.Perm m.entries := by
  unfold front
  split
  case h_1 value hvalue =>
    refine List.lookup_ext (AList.nodupKeys _) m.nodupKeys fun key value' => ?_
    show (m.insert name value).lookup key = some value' ↔ m.lookup key = some value'
    by_cases hkey : key = name
    · subst hkey
      rw [AList.lookup_insert, hvalue]
    · rw [AList.lookup_insert_ne hkey]
  case h_2 => exact List.Perm.refl _

theorem pairs_front {name : Str} {m : HashMap V} {value : V} (h : m.lookup name = some value) :
    ∃ rest, pairs (front name m) = (name, value) :: rest := by
  refine ⟨(m.entries.kerase name).map fun e => (e.1, e.2), ?_⟩
  simp only [front, h]
  rfl

def frontOrder (name : Str) : HashOrder := ⟨front name, front_perm name⟩

/-- The entry of the name last. -/
def back (name : Str) (m : HashMap V) : HashMap V :=
  ⟨(front name m).entries.reverse, by
    rw [List.NodupKeys, List.keys, List.map_reverse, List.nodup_reverse]
    exact (front name m).nodupKeys⟩

theorem back_perm (name : Str) (m : HashMap V) : (back name m).entries.Perm m.entries :=
  (List.reverse_perm _).trans (front_perm name m)

theorem pairs_back {name : Str} {m : HashMap V} {value : V} (h : m.lookup name = some value) :
    ∃ rest, pairs (back name m) = rest ++ [(name, value)] := by
  obtain ⟨rest, hrest⟩ := pairs_front h
  refine ⟨rest.reverse, ?_⟩
  rw [← List.reverse_cons, ← hrest]
  exact List.map_reverse

end Orders

/-! ### What a Node action finds -/

section Node

variable {order : HashOrder} {engine : Engine} {platform : Platform} {step : ActionStep}
  {manifest : ActionDefinition} {ctx : ExecutionContext} {supplied stepInputs : HashMap Str}
  {toUppercase : Char → List Char}

theorem inputEnvKey_ne {name other : Str} (h : other.head? ≠ some 'I') :
    inputEnvKey toUppercase name ≠ other := by
  rintro rfl
  exact h rfl

/-- The variable of an input is the last one of that name, or what the process has besides. -/
theorem lookup_buildResolvedActionEnv (process : ActionProcess) (name : Str) :
    (buildResolvedActionEnv toUppercase manifest stepInputs process).lookup
        (inputEnvKey toUppercase name) =
      ((extend ∅ (inputVariables toUppercase manifest stepInputs)).lookup
        (inputEnvKey toUppercase name)).or
        (process.base.lookup (inputEnvKey toUppercase name)) := by
  have hpaths : inputEnvKey toUppercase name ∉ [("GITHUB_WORKSPACE".toList, process.workspace),
      ("RUNNER_TEMP".toList, process.temp),
      ("RUNNER_TOOL_CACHE".toList, process.toolCache)].map Prod.fst := by
    simp only [List.map_cons, List.map_nil, List.mem_cons, List.not_mem_nil, or_false, not_or]
    exact ⟨inputEnvKey_ne (by decide), inputEnvKey_ne (by decide), inputEnvKey_ne (by decide)⟩
  have hstate : inputEnvKey toUppercase name ∉
      ((pairs process.state).map fun entry => ("STATE_".toList ++ entry.1, entry.2)).map
        Prod.fst := by
    rw [List.map_map]
    intro hmem
    obtain ⟨entry, -, heq⟩ := List.mem_map.mp hmem
    exact inputEnvKey_ne (by simp) heq.symm
  have hpath : (AList.singleton "GITHUB_ACTION_PATH".toList process.actionPath : HashMap Str).lookup
      (inputEnvKey toUppercase name) = none := by
    rw [AList.lookup_eq_none, AList.mem_keys, AList.keys_singleton, List.mem_singleton]
    exact inputEnvKey_ne (by decide)
  rw [buildResolvedActionEnv, applyRunnerPaths, lookup_extend_of_notMem hpaths, lookup_extend_pairs,
    buildActionEnv, lookup_extend_of_notMem hstate, lookup_extend_or, hpath, Option.or_none]

/-- There is a variable for each declared input that has a value. -/
theorem mem_inputVariables (engine : Engine) (evalCtx : EvalContext) (manifest : ActionDefinition)
    (hall : ∀ name, stepInputs.lookup name =
      carried supplied.lookup (defaultOf engine evalCtx manifest) name) {key value : Str} :
    (key, value) ∈ inputVariables toUppercase manifest stepInputs ↔
      ∃ name, name ∈ manifest.inputs ∧
        carried supplied.lookup (defaultOf engine evalCtx manifest) name = some value ∧
        inputEnvKey toUppercase name = key := by
  -- the raw default is never used, since the inputs have it already, filled in
  have hvalue : ∀ name input, manifest.inputs.lookup name = some input →
      (stepInputs.lookup name).or input.default = stepInputs.lookup name := by
    intro name input hinput
    cases hstep : stepInputs.lookup name with
    | some _ => rfl
    | none =>
      rw [hall, carried, Option.or_eq_none_iff, defaultOf, hinput, Option.bind_some,
        Option.map_eq_none_iff] at hstep
      exact hstep.2
  rw [inputVariables, List.mem_filterMap]
  constructor
  · rintro ⟨⟨name, input⟩, hentry, heq⟩
    obtain ⟨v, hv, hpair⟩ := Option.map_eq_some_iff.mp heq
    obtain ⟨rfl, rfl⟩ := Prod.mk.inj hpair
    rw [hvalue name input (mem_pairs.mp hentry), hall] at hv
    refine ⟨name, ?_, hv, rfl⟩
    rw [← AList.lookup_isSome, mem_pairs.mp hentry]
    rfl
  · rintro ⟨name, hname, hv, rfl⟩
    obtain ⟨input, hinput⟩ := Option.isSome_iff_exists.mp (AList.lookup_isSome.mpr hname)
    refine ⟨(name, input), mem_pairs.mpr hinput, ?_⟩
    rw [hvalue name input hinput, hall, hv]
    rfl

theorem defaultOf_perm {inputs : HashMap ActionInput}
    (hperm : inputs.entries.Perm manifest.inputs.entries) (evalCtx : EvalContext) :
    defaultOf engine evalCtx { manifest with inputs := inputs } =
      defaultOf engine evalCtx manifest := by
  funext name
  rw [defaultOf, defaultOf, AList.perm_lookup hperm]

/-- Whether the inputs can be built does not depend on the order either. -/
theorem exists_buildNodeInputs_perm {inputs : HashMap ActionInput}
    (hperm : inputs.entries.Perm manifest.inputs.entries)
    (h : ∃ all, (buildNodeInputs order engine step manifest ctx).result = .ok all) :
    ∃ all, (buildNodeInputs order engine step { manifest with inputs := inputs } ctx).result =
      .ok all := by
  obtain ⟨all, hall⟩ := h
  obtain ⟨supplied, hsupplied, hall⟩ := result_bind_eq_ok_iff.mp hall
  obtain ⟨defaults, hdefaults, -⟩ := result_bind_eq_ok_iff.mp hall
  have hsame : (missingInputs { manifest with inputs := inputs } supplied).Perm
      (missingInputs manifest supplied) := (hperm.map _).filterMap _
  obtain ⟨defaults', hdefaults'⟩ := exists_inOrder_iff.mpr fun entry hentry =>
    exists_inOrder_iff.mp ⟨defaults, hdefaults⟩ entry (hsame.mem_iff.mp hentry)
  exact ⟨_, result_bind_eq_ok_iff.mpr
    ⟨supplied, hsupplied, result_bind_eq_ok_iff.mpr ⟨defaults', hdefaults', rfl⟩⟩⟩

/-- One way to go through the manifest: the variables, and where they come from. -/
theorem nodeReadings_spec
    (hsupplied : (collectStepInputs order platform.engine step (ctx.evalContext order)).result =
      .ok supplied)
    {process : ActionProcess} {reading : Str → Option Str}
    (hreading : reading ∈ nodeReadings order platform step manifest ctx process) :
    ∃ vars : List (Str × Str),
      (∀ key value, (key, value) ∈ vars ↔ ∃ name, name ∈ manifest.inputs ∧
        carried supplied.lookup (defaultOf platform.engine (ctx.evalContext order) manifest) name =
          some value ∧ inputEnvKey platform.toUppercase name = key) ∧
      ∀ name, reading name = ((extend ∅ vars).lookup (inputEnvKey platform.toUppercase name)).or
        (process.base.lookup (inputEnvKey platform.toUppercase name)) := by
  obtain ⟨inputs, env, hperm, henv, rfl⟩ := hreading
  obtain ⟨stepInputs, hinputs, hpure⟩ := result_bind_eq_ok_iff.mp henv
  obtain rfl := Except.ok.inj hpure
  obtain ⟨supplied', hsupplied', hall⟩ := lookup_buildNodeInputs hinputs
  obtain rfl : supplied = supplied' := Except.ok.inj (hsupplied.symm.trans hsupplied')
  refine ⟨_, fun key value => ?_, fun name => lookup_buildResolvedActionEnv process name⟩
  rw [← defaultOf_perm hperm]
  rw [mem_inputVariables platform.engine _ { manifest with inputs := inputs } hall]
  simp only [AList.mem_of_perm hperm]

theorem picks_node
    (hsupplied : (collectStepInputs order platform.engine step (ctx.evalContext order)).result =
      .ok supplied)
    (hbuilt : ∃ all, (buildNodeInputs order platform.engine step manifest ctx).result = .ok all) :
    Picks supplied.lookup (defaultOf platform.engine (ctx.evalContext order) manifest)
      (inputEnvKey platform.toUppercase) (fun name => name ∈ manifest.inputs)
      (fun process name => process.base.lookup (inputEnvKey platform.toUppercase name))
      (nodeReadings order platform step manifest ctx) where
  picks process reading hreading name := by
    obtain ⟨vars, hvars, hread⟩ := nodeReadings_spec hsupplied hreading
    cases hlookup : (extend ∅ vars).lookup (inputEnvKey platform.toUppercase name) with
    | some value =>
      have hmem : (inputEnvKey platform.toUppercase name, value) ∈ vars :=
        (lookup_extend_cases hlookup).resolve_right fun hnone => by
          rw [AList.lookup_empty] at hnone
          cases hnone
      obtain ⟨name', hdeclared, hvalue, hkey⟩ := (hvars _ _).mp hmem
      refine Or.inl ⟨name', value, hdeclared, hvalue, hkey, ?_⟩
      rw [hread, hlookup, Option.some_or]
    | none =>
      refine Or.inr ⟨fun name' value hdeclared hvalue hkey => ?_, ?_⟩
      · exact lookup_extend_eq_none.mp hlookup
          (List.mem_map.mpr ⟨_, (hvars _ _).mpr ⟨name', hdeclared, hvalue, hkey⟩, rfl⟩)
      · rw [hread, hlookup, Option.none_or]
  any process name value hdeclared hvalue := by
    -- the manifest is gone through with this input last
    obtain ⟨input, hinput⟩ := Option.isSome_iff_exists.mp (AList.lookup_isSome.mpr hdeclared)
    obtain ⟨rest, hrest⟩ := pairs_back hinput
    obtain ⟨stepInputs, hinputs⟩ := exists_buildNodeInputs_perm (back_perm name manifest.inputs) hbuilt
    obtain ⟨supplied', hsupplied', hall⟩ := lookup_buildNodeInputs hinputs
    obtain rfl : supplied = supplied' := Except.ok.inj (hsupplied.symm.trans hsupplied')
    refine ⟨_, ⟨_, _, back_perm name manifest.inputs,
      result_bind_eq_ok_iff.mpr ⟨stepInputs, hinputs, rfl⟩, rfl⟩, fun name' hkey => ?_⟩
    have hlast : ∃ front, inputVariables platform.toUppercase
        { manifest with inputs := back name manifest.inputs } stepInputs =
          front ++ [(inputEnvKey platform.toUppercase name, value)] := by
      rw [inputVariables, hrest, List.filterMap_append]
      refine ⟨_, congrArg (_ ++ ·) ?_⟩
      rw [List.filterMap_cons, List.filterMap_nil, hall, defaultOf_perm (back_perm _ _), hvalue]
      rfl
    obtain ⟨before, hbefore⟩ := hlast
    have hfound : (extend (∅ : HashMap Str) (before ++
        [(inputEnvKey platform.toUppercase name, value)])).lookup
          (inputEnvKey platform.toUppercase name) = some value := by
      rw [extend, List.foldl_concat, AList.lookup_insert]
    show (buildResolvedActionEnv platform.toUppercase
      { manifest with inputs := back name manifest.inputs } stepInputs process).lookup
        (inputEnvKey platform.toUppercase name') = some value
    rw [lookup_buildResolvedActionEnv, hbefore, hkey, hfound, Option.some_or]
  nonempty process := by
    obtain ⟨stepInputs, hinputs⟩ := hbuilt
    exact ⟨_, _, _, List.Perm.refl _, result_bind_eq_ok_iff.mpr ⟨stepInputs, hinputs, rfl⟩, rfl⟩

end Node

/-! ### What a composite action finds -/

section Composite

variable {order : HashOrder} {platform : Platform} {ctx : ExecutionContext}

theorem ofExprEntries_strings (ref : List ℕ → Ref) (position : List ℕ) (index : ℕ)
    (entries : List (Str × Str)) :
    SharedValue.ofExprEntries ref position index
        (entries.map fun entry => (entry.1, ExprValue.string entry.2)) =
      entries.map fun entry => (entry.1, SharedValue.string entry.2) := by
  induction entries generalizing index with
  | nil => rfl
  | cons entry entries ih =>
    rw [List.map_cons, List.map_cons, SharedValue.ofExprEntries, ih]
    rfl

/-- The first entry whose name the expression language takes for the one asked for. -/
theorem compositeReading_eq (inputs : HashMap Str) (name : Str) :
    compositeReading order platform ctx inputs name =
      ((pairs (order.arrange inputs)).find? fun entry =>
        ordinalCompare platform.toUppercase entry.1 name = .eq).map (·.2) := by
  have hcontext : resolveContext (compositeEvalContext order ctx inputs none).shared
      "inputs".toList = .object (.given "inputs".toList []) ((pairs (order.arrange inputs)).map
        fun entry => (entry.1, .string entry.2)) := by
    rw [← ofExprEntries_strings (.given "inputs".toList) [] 0]
    rfl
  have heval : evalExpr platform (compositeEvalContext order ctx inputs none).shared []
      (.indexAccess (.context "inputs".toList) (.literal (.string name))) =
      .ok ((((pairs (order.arrange inputs)).find? fun entry =>
        ordinalCompare platform.toUppercase entry.1 name = .eq).map
          fun entry => SharedValue.string entry.2).getD .null) := by
    rw [evalExpr, evalExpr, evalExpr, hcontext]
    show Except.ok ((((pairs (order.arrange inputs)).map
      fun entry => (entry.1, SharedValue.string entry.2)).find? fun entry =>
        ordinalCompare platform.toUppercase entry.1 name = .eq).map (·.2) |>.getD .null) = _
    rw [List.find?_map, Option.map_map]
    rfl
  rw [compositeReading, heval]
  cases (pairs (order.arrange inputs)).find? fun entry =>
    ordinalCompare platform.toUppercase entry.1 name = .eq <;> rfl

theorem ordinalCompare_eq_iff {toUppercase : Char → List Char} {a b : Str} :
    ordinalCompare toUppercase a b = .eq ↔ ordinalUpper toUppercase a = ordinalUpper toUppercase b :=
  Std.compare_eq_iff_eq

theorem picks_composite (platform : Platform) (ctx : ExecutionContext) {supplied all : HashMap Str} {default : Str → Option Str}
    (hall : ∀ name, all.lookup name = carried supplied.lookup default name) :
    Picks supplied.lookup default (ordinalUpper platform.toUppercase) (fun _ => True)
      (fun (_ : Unit) _ => none) (fun _ => compositeReadings platform ctx all) where
  picks _ reading hreading name := by
    obtain ⟨order, rfl⟩ := hreading
    rw [compositeReading_eq]
    have hmem : ∀ name value, (name, value) ∈ pairs (order.arrange all) ↔
        carried supplied.lookup default name = some value := by
      intro name value
      rw [mem_pairs, AList.perm_lookup (order.perm all), hall]
    cases hfind : (pairs (order.arrange all)).find? fun entry =>
        ordinalCompare platform.toUppercase entry.1 name = .eq with
    | some entry =>
      obtain ⟨name', value⟩ := entry
      have hkey : ordinalCompare platform.toUppercase name' name = .eq := by
        simpa using List.find?_some hfind
      exact Or.inl ⟨name', value, trivial, (hmem _ _).mp (List.mem_of_find?_eq_some hfind),
        ordinalCompare_eq_iff.mp hkey, rfl⟩
    | none =>
      refine Or.inr ⟨fun name' value _ hvalue hkey => ?_, rfl⟩
      have hnot := List.find?_eq_none.mp hfind _ ((hmem _ _).mpr hvalue)
      exact hnot (decide_eq_true (ordinalCompare_eq_iff.mpr hkey))
  any _ name value _ hvalue := by
    refine ⟨_, ⟨frontOrder name, rfl⟩, fun name' hkey => ?_⟩
    rw [← hall] at hvalue
    obtain ⟨rest, hrest⟩ := pairs_front hvalue
    have hfirst : pairs ((frontOrder name).arrange all) = (name, value) :: rest := hrest
    have hsame : ordinalCompare platform.toUppercase name name' = .eq :=
      ordinalCompare_eq_iff.mpr hkey.symm
    rw [compositeReading_eq, hfirst]
    simp [hsame]
  nonempty _ := ⟨_, frontOrder [], rfl⟩

end Composite

/-! ### When the inputs are merged by name -/

/-- For every manifest and every `with:` mapping, once they are evaluated.  A Node action finds the
    supplied value under the name in any ASCII case, or else the default, whatever its process has
    besides and in whatever order the manifest is gone through, exactly when names of one variable
    carry one value and each supplied name has the variable of a declared input with a value; in a
    composite action, exactly when names that the expression language takes for one carry one
    value.  The value a name carries is the one supplied for exactly that name, or else its
    default. -/
theorem inputs_merged_iff (platform : Platform)
    (hascii : ∀ c, c.isAlpha = true → platform.toUppercase c = [c.toUpper]) (order : HashOrder)
    (step : ActionStep) (manifest : ActionDefinition) (ctx : ExecutionContext)
    (supplied : HashMap Str)
    (hsupplied : (collectStepInputs order platform.engine step (ctx.evalContext order)).result =
      .ok supplied) :
    ((∃ all, (buildNodeInputs order platform.engine step manifest ctx).result = .ok all) →
      ((∀ process, Merges supplied.lookup
          (defaultOf platform.engine (ctx.evalContext order) manifest) SameName
          (nodeReadings order platform step manifest ctx process)) ↔
        OneValue supplied.lookup (defaultOf platform.engine (ctx.evalContext order) manifest)
            (inputEnvKey platform.toUppercase) ∧
          Covers supplied.lookup (defaultOf platform.engine (ctx.evalContext order) manifest)
            (inputEnvKey platform.toUppercase) fun name => name ∈ manifest.inputs)) ∧
    ∀ all, (buildCompositeInputs order platform.engine step manifest ctx).result = .ok all →
      (Merges supplied.lookup
          (compositeDefaultOf platform.engine (ctx.evalContext order) manifest) SameName
          (compositeReadings platform ctx all) ↔
        OneValue supplied.lookup
          (compositeDefaultOf platform.engine (ctx.evalContext order) manifest)
          (ordinalUpper platform.toUppercase)) := by
  constructor
  · intro hbuilt
    refine (picks_node hsupplied hbuilt).merges_iff (inputEnvKey_of_sameName hascii) (fun _ => rfl)
      (fun name value hvalue => ?_) ⟨⟨∅, [], ∅, [], [], []⟩, fun _ => AList.lookup_empty _⟩
    obtain ⟨input, hinput, -⟩ := Option.bind_eq_some_iff.mp hvalue
    exact AList.lookup_isSome.mp (hinput ▸ rfl)
  · intro all hbuilt
    obtain ⟨supplied', hsupplied', hall⟩ := lookup_buildCompositeInputs hbuilt
    obtain rfl : supplied = supplied' := Except.ok.inj (hsupplied.symm.trans hsupplied')
    have hiff := (picks_composite platform ctx hall).merges_iff
      (ordinalUpper_of_sameName hascii) (fun _ => rfl) (fun _ _ _ => trivial) ⟨(), fun _ => rfl⟩
    -- what is supplied stands in the map itself
    have hcovers : Covers supplied.lookup
        (compositeDefaultOf platform.engine (ctx.evalContext order) manifest)
        (ordinalUpper platform.toUppercase) fun _ => True :=
      fun name value hvalue => ⟨name, value, trivial, carried_of_first hvalue, rfl⟩
    constructor
    · exact fun h => (hiff.mp fun _ => h).1
    · exact fun h => hiff.mpr ⟨h, hcovers⟩ ()

/-! ### An input in another case -/

def tokenStep : ActionStep where
  id := []
  stepType := none
  contextName := none
  condition := none
  continueOnError := none
  reference := ⟨some "repository".toList, none, some "./inner".toList, none, none, none⟩
  inputs := mappingToken [("Token".toList, "supplied".toList)]
  environment := none

def tokenManifest : ActionDefinition where
  inputs := AList.singleton "token".toList ⟨some "default".toList⟩
  runsUsing := .node 20

def bareProcess : ActionProcess := ⟨∅, [], ∅, [], [], []⟩

theorem inputs_merged_iff_token :
    ¬ ∀ process, Merges (AList.singleton "Token".toList "supplied".toList : HashMap Str).lookup
      (defaultOf plainPlatform.engine (secretContext.evalContext plainOrder) tokenManifest) SameName
      (nodeReadings plainOrder plainPlatform tokenStep tokenManifest secretContext process) := by
  intro h
  have hiff := (inputs_merged_iff plainPlatform (fun _ _ => rfl) plainOrder tokenStep tokenManifest
    secretContext (AList.singleton "Token".toList "supplied".toList) rfl).1 ⟨_, rfl⟩
  have hsame : "supplied".toList = "default".toList :=
    (hiff.mp h).1 "Token".toList "token".toList _ _ (by decide) (by decide)
      (by decide)
  exact absurd hsame (by decide)

/-- The value supplied as `Token` for the input `token`: a Node action finds the default, and a
    composite one either, depending on the order of the map. -/
theorem supplied_in_other_case :
    (buildNodeEnv plainOrder plainPlatform tokenStep tokenManifest secretContext
        bareProcess).result.map (fun env => env.lookup "INPUT_TOKEN".toList) =
        .ok (some "default".toList) ∧
      (buildCompositeInputs plainOrder plainPlatform.engine tokenStep tokenManifest
        secretContext).result.map (fun inputs =>
          (compositeReading (frontOrder "token".toList) plainPlatform secretContext inputs
              "token".toList,
            compositeReading (frontOrder "Token".toList) plainPlatform secretContext inputs
              "token".toList)) =
        .ok (some "default".toList, some "supplied".toList) := by
  decide

end GhRunner.Execution
