import GhRunner.Expressions.Value

namespace GhRunner.Expressions

open Text Traced

/-!
# Expression templates

Texts with `${{ expression }}` placeholders (`crates/expressions/src/template.rs`).

* `expressionEnd` — the closing delimiter, outside quoted literals;
* `Template`, `scan` — a text cut at its placeholders, from left to right;
* `interpolate` — each expression is evaluated and replaced by its value as a string;
* `Template.fill` — the text with every expression replaced, all else as it stands;
* `interpolate_eq_ok` — interpolation is this filling, and evaluates the expressions of the template
  and no others.
-/

/-- The two delimiters. -/
def openDelim : Str := ['$', '\x7b', '\x7b']

def closeDelim : Str := ['\x7d', '\x7d']

/-- Locate a closing expression delimiter outside single-quoted literals.  The index counts
    characters; the source counts bytes and cuts at the same place. -/
def expressionEndFrom (quoted : Bool) : Str → Option ℕ
  | [] => none
  | c :: rest =>
    if c = '\'' then
      if quoted then
        match rest with
        | [] => none
        | c' :: rest' =>
          if c' = '\'' then (expressionEndFrom true rest').map (· + 2)
          else (expressionEndFrom false (c' :: rest')).map (· + 1)
      else (expressionEndFrom true rest).map (· + 1)
    else if quoted = false ∧ closeDelim <+: c :: rest then some 0
    else (expressionEndFrom quoted rest).map (· + 1)

def expressionEnd (input : Str) : Option ℕ := expressionEndFrom false input

/-- A text as its scanner sees it. -/
inductive Template
  /-- No placeholder is left. -/
  | text (s : Str)
  /-- A placeholder, with what stands before it and what follows. -/
  | hole (before inner : Str) (rest : Template)
  /-- A placeholder without an end. -/
  | unclosed (before after : Str)
deriving DecidableEq, Repr

/-- The loop over `rest`; every round takes at least the three characters of the delimiter. -/
def scanWith : ℕ → Str → Template
  | 0, rest => .text rest
  | fuel + 1, rest =>
    match splitFirst openDelim rest with
    | none => .text rest
    | some (before, afterOpen) =>
      match expressionEnd afterOpen with
      | none => .unclosed before afterOpen
      | some stop => .hole before (afterOpen.take stop) (scanWith fuel (afterOpen.drop (stop + 2)))

def scan (input : Str) : Template := scanWith input.length input

namespace Template

/-- The text it was scanned from. -/
def source : Template → Str
  | .text s => s
  | .hole before inner rest => before ++ (openDelim ++ (inner ++ (closeDelim ++ rest.source)))
  | .unclosed before after => before ++ (openDelim ++ after)

/-- The expressions, from left to right. -/
def exprs : Template → List Str
  | .text _ => []
  | .hole _ inner rest => trim inner :: rest.exprs
  | .unclosed _ _ => []

/-- No placeholder begins in what is taken for text. -/
def Leftmost : Template → Prop
  | .text s => ¬ openDelim <:+: s
  | .hole before _ rest => ¬ openDelim <:+: before ∧ rest.Leftmost
  | .unclosed before _ => ¬ openDelim <:+: before

/-- Every expression replaced by its value, and everything else as it stands. -/
def fill (value : Str → Str) : Template → Str
  | .text s => s
  | .hole before inner rest => before ++ (value (trim inner) ++ rest.fill value)
  | .unclosed before _ => before

end Template

/-! ### The scanner -/

/-- What is located is a closing delimiter. -/
theorem expressionEndFrom_eq_some {quoted : Bool} {input : Str} {stop : ℕ}
    (h : expressionEndFrom quoted input = some stop) : closeDelim <+: input.drop stop := by
  fun_induction expressionEndFrom quoted input generalizing stop with
  | case1 => cases h
  | case2 => cases h
  | case3 _ ih =>
    obtain ⟨stop, hstop, rfl⟩ := Option.map_eq_some_iff.mp h
    exact ih hstop
  | case4 _ _ _ ih =>
    obtain ⟨stop, hstop, rfl⟩ := Option.map_eq_some_iff.mp h
    exact ih hstop
  | case5 _ _ _ ih =>
    obtain ⟨stop, hstop, rfl⟩ := Option.map_eq_some_iff.mp h
    exact ih hstop
  | case6 _ _ _ _ hclose =>
    obtain rfl := Option.some.inj h
    exact hclose.2
  | case7 _ _ _ _ _ ih =>
    obtain ⟨stop, hstop, rfl⟩ := Option.map_eq_some_iff.mp h
    exact ih hstop

theorem source_scanWith (fuel : ℕ) (input : Str) : (scanWith fuel input).source = input := by
  induction fuel generalizing input with
  | zero => rfl
  | succ fuel ih =>
    unfold scanWith
    cases hsplit : splitFirst openDelim input with
    | none => rfl
    | some cut =>
      obtain ⟨before, afterOpen⟩ := cut
      rw [splitFirst_eq_some hsplit]
      dsimp only
      cases hstop : expressionEnd afterOpen with
      | none => rfl
      | some stop =>
        have hclose := List.prefix_iff_eq_append.mp (expressionEndFrom_eq_some hstop)
        have hdrop : closeDelim ++ afterOpen.drop (stop + 2) = afterOpen.drop stop := by
          rw [← hclose, List.drop_drop]
          rfl
        show before ++ (openDelim ++ (afterOpen.take stop ++ (closeDelim ++ _))) = _
        rw [ih, hdrop, List.take_append_drop]

/-- Scanning loses nothing. -/
theorem source_scan (input : Str) : (scan input).source = input := source_scanWith _ _

theorem leftmost_scanWith {fuel : ℕ} {input : Str} (h : input.length ≤ fuel) :
    (scanWith fuel input).Leftmost := by
  induction fuel generalizing input with
  | zero =>
    rw [List.eq_nil_of_length_eq_zero (Nat.le_zero.mp h)]
    exact fun hin => absurd (List.infix_nil.mp hin) (List.cons_ne_nil _ _)
  | succ fuel ih =>
    unfold scanWith
    cases hsplit : splitFirst openDelim input with
    | none => exact splitFirst_eq_none_iff.mp hsplit
    | some cut =>
      obtain ⟨before, afterOpen⟩ := cut
      have hbefore := not_infix_before (List.cons_ne_nil _ _) hsplit
      dsimp only
      cases hstop : expressionEnd afterOpen with
      | none => exact hbefore
      | some stop =>
        refine ⟨hbefore, ih ?_⟩
        have hlen := length_splitFirst hsplit
        simp only [openDelim, List.length_cons, List.length_nil] at hlen
        rw [List.length_drop]
        omega

/-- Scanning misses no placeholder. -/
theorem leftmost_scan (input : Str) : (scan input).Leftmost := leftmost_scanWith le_rfl

theorem scan_of_no_delim {input : Str} (h : ¬ openDelim <:+: input) : scan input = .text input := by
  unfold scan
  cases hlen : input.length with
  | zero => rfl
  | succ n => rw [scanWith, splitFirst_eq_none_iff.mpr h]

/-! ### Interpolation -/

def unclosedError : RunnerError := .expression "unclosed $\x7b\x7b expression".toList

def evaluateTraced (engine : Engine) (ctx : EvalContext) (expr : Str) : Evaluation ExprValue :=
  ⟨engine.evaluate expr ctx, [expr]⟩

/-- The loop of `interpolate`. -/
def interpolateFrom (engine : Engine) (ctx : EvalContext) : Template → Evaluation Str
  | .text s => pure s
  | .hole before inner rest => do
    let value ← evaluateTraced engine ctx (trim inner)
    let tail ← interpolateFrom engine ctx rest
    pure (before ++ (engine.coerceToString value ++ tail))
  | .unclosed _ _ => lift (.error unclosedError)

/-- Process a string containing placeholders. -/
def interpolate (engine : Engine) (ctx : EvalContext) (input : Str) : Evaluation Str :=
  interpolateFrom engine ctx (scan input)

/-- What stands for an expression once it is evaluated. -/
def valueText (engine : Engine) (ctx : EvalContext) (expr : Str) : Str :=
  match engine.evaluate expr ctx with
  | .ok value => engine.coerceToString value
  | .error _ => []

variable {engine : Engine} {ctx : EvalContext}

/-- What was interpolated is the template filled in, and its expressions were evaluated, in order,
    and nothing else. -/
theorem interpolateFrom_eq_ok {template : Template} {text : Str}
    (h : (interpolateFrom engine ctx template).result = .ok text) :
    text = template.fill (valueText engine ctx) ∧
      (interpolateFrom engine ctx template).trace = template.exprs := by
  induction template generalizing text with
  | text s =>
    obtain rfl : s = text := Except.ok.inj h
    exact ⟨rfl, rfl⟩
  | hole before inner rest ih =>
    obtain ⟨value, hvalue, htail, htrace⟩ := bind_eq_ok h
    obtain ⟨tail, hrest, hpure, htrace'⟩ := bind_eq_ok htail
    obtain ⟨rfl, hexprs⟩ := ih hrest
    have htext : valueText engine ctx (trim inner) = engine.coerceToString value := by
      rw [valueText, show engine.evaluate (trim inner) ctx = .ok value from hvalue]
    constructor
    · rw [← Except.ok.inj hpure, Template.fill, htext]
    · rw [interpolateFrom, htrace, htrace', trace_pure, List.append_nil, hexprs]
      rfl
  | unclosed before after => cases h

/-- Only a text without placeholders is interpolated without evaluating anything. -/
theorem not_infix_of_interpolate {input text : Str}
    (h : interpolate engine ctx input = pure text) : ¬ openDelim <:+: input := by
  have hsource := source_scan input
  have hleft := leftmost_scan input
  unfold interpolate at h
  cases hscan : scan input with
  | text s =>
    rw [hscan] at hsource hleft
    obtain rfl : s = input := hsource
    exact hleft
  | hole before inner rest =>
    have htrace := (interpolateFrom_eq_ok (congrArg Traced.result h)).2
    rw [h, hscan] at htrace
    cases htrace
  | unclosed before after =>
    rw [hscan] at h
    cases congrArg Traced.result h

end GhRunner.Expressions
