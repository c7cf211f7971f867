import GhRunner.Lib.Decimal
import GhRunner.Expressions.Evaluator

namespace GhRunner.Expressions

open Text Traced Decimal

/-!
# What a format string comes to

Templates written for given texts and arguments, and what rendering asks for
(`crates/expressions/src/functions/format.rs`, `eval_format` in `evaluator.rs`).

* `Piece`, `formatTemplate` — texts and arguments, and the template that stands for them;
* `fill` — what the template is to come to;
* `parseFormat_formatTemplate` — the template is scanned back into what it was written for;
* `trace_renderSegments`, `renderSegments_upto` — which arguments rendering asks for, and how far a
  specifier lets it come;
* `format_renders` — `format` on templates written so, and on every other one.
-/

/-! ### Templates -/

/-- A part of a template: a text, or an argument by its index. -/
inductive Piece
  | text (s : Str)
  | index (i : ℕ)
deriving DecidableEq, Repr

def isBrace (c : Char) : Bool := c = '\x7b' || c = '\x7d'

/-- Every brace doubled. -/
def doubleBraces (s : Str) : Str := s.flatMap fun c => if isBrace c then [c, c] else [c]

def Piece.template : Piece → Str
  | .text s => doubleBraces s
  | .index i => '\x7b' :: (digits i ++ ['\x7d'])

def formatTemplate (pieces : List Piece) : Str := pieces.flatMap Piece.template

/-- The arguments that are referred to. -/
def indices : List Piece → List ℕ
  | [] => []
  | .text _ :: pieces => indices pieces
  | .index i :: pieces => i :: indices pieces

/-- The texts and the arguments as strings, behind each other; the first argument that fails fails. -/
def fill (argument : ℕ → EvalResult) : List Piece → Except RunnerError Str
  | [] => .ok []
  | .text s :: pieces => do
    let rest ← fill argument pieces
    .ok (s ++ rest)
  | .index i :: pieces => do
    let value ← argument i
    let rest ← fill argument pieces
    .ok (value.coerceToString ++ rest)

/-! ### Scanning -/

/-- The segments of the template: neighbouring texts make one, behind what has been read of it. -/
def segmentsOf (text : Str) : List Piece → List Segment
  | [] => [.text text]
  | .text s :: pieces => segmentsOf (text ++ s) pieces
  | .index i :: pieces => .text text :: .argument i false :: segmentsOf [] pieces

theorem formatIndex_digits {i : ℕ} (h : i < 256) : formatIndex (digits i) = .ok i := by
  unfold formatIndex
  rw [if_neg (digits_ne_nil i), ofDigits_digits, if_neg (Nat.not_le.mpr h)]

theorem formatArgument_digits {count i : ℕ} (hindex : i < count) (hcount : count ≤ 256)
    (rest : Str) : formatArgument count (digits i ++ '\x7d' :: rest) = .ok (.argument i false, rest) := by
  have hfront : ∀ c ∈ digits i, c.isDigit = true := fun c hc => isDigit_of_mem_digits hc
  have hstop : ∀ c ∈ ('\x7d' :: rest).head?, c.isDigit = false := by
    intro c hc
    obtain rfl := Option.some.inj hc
    rfl
  unfold formatArgument
  rw [takeWhile_append_of_stop hfront hstop, dropWhile_append_of_stop hfront hstop,
    formatIndex_digits (Nat.lt_of_lt_of_le hindex hcount)]
  show (if count ≤ i then _ else _) = _
  rw [if_neg (Nat.not_le.mpr hindex)]
  rfl

/-- A text with its braces doubled is read as the text. -/
theorem parseFormatLoop_text {count : ℕ} (s : Str) {fuel : ℕ} {text rest : Str}
    (hfuel : (doubleBraces s ++ rest).length < fuel) :
    parseFormatLoop count fuel text (doubleBraces s ++ rest) =
      parseFormatLoop count fuel (text ++ s) rest := by
  induction s generalizing fuel text with
  | nil => rw [List.append_nil]; rfl
  | cons c s ih =>
    obtain ⟨fuel, rfl⟩ : ∃ k, fuel = k + 1 := ⟨fuel - 1, by omega⟩
    have hsplit : text ++ c :: s = text ++ [c] ++ s := by simp
    by_cases hc : isBrace c = true
    · -- the brace and its double
      have hdouble : doubleBraces (c :: s) ++ rest = c :: c :: (doubleBraces s ++ rest) := by
        simp [doubleBraces, hc]
      rw [hdouble, List.length_cons, List.length_cons] at hfuel
      have hbrace : ¬ (c ≠ '\x7b' ∧ c ≠ '\x7d') := by
        simpa [isBrace, or_iff_not_imp_left] using hc
      rw [hdouble, parseFormatLoop, if_neg hbrace, List.head?_cons, if_pos rfl, List.tail_cons,
        hsplit, ih (by omega)]
      exact parseFormatLoop_fuel (by simp at hfuel ⊢; omega) (by simp at hfuel ⊢; omega)
    · have hsingle : doubleBraces (c :: s) ++ rest = c :: (doubleBraces s ++ rest) := by
        simp [doubleBraces, hc]
      rw [hsingle, List.length_cons] at hfuel
      have hbrace : c ≠ '\x7b' ∧ c ≠ '\x7d' := by simpa [isBrace] using hc
      rw [hsingle, parseFormatLoop, if_pos hbrace, hsplit, ih (by omega)]
      exact parseFormatLoop_fuel (by simp at hfuel ⊢; omega) (by simp at hfuel ⊢; omega)

theorem parseFormatLoop_formatTemplate {count : ℕ} (hcount : count ≤ 256) {pieces : List Piece}
    (hindices : ∀ i ∈ indices pieces, i < count) {fuel : ℕ} {text : Str}
    (hfuel : (formatTemplate pieces).length < fuel) :
    parseFormatLoop count fuel text (formatTemplate pieces) = .ok (segmentsOf text pieces) := by
  induction pieces generalizing fuel text with
  | nil =>
    obtain ⟨fuel, rfl⟩ : ∃ k, fuel = k + 1 := ⟨fuel - 1, by omega⟩
    rfl
  | cons piece pieces ih =>
    cases piece with
    | text s =>
      have hcons : formatTemplate (.text s :: pieces) = doubleBraces s ++ formatTemplate pieces := rfl
      rw [hcons] at hfuel ⊢
      rw [parseFormatLoop_text s hfuel]
      rw [List.length_append] at hfuel
      exact ih hindices (by omega)
    | index i =>
      obtain ⟨hi, hrest⟩ := List.forall_mem_cons.mp hindices
      obtain ⟨fuel, rfl⟩ : ∃ k, fuel = k + 1 := ⟨fuel - 1, by omega⟩
      have hcons : formatTemplate (.index i :: pieces) =
          '\x7b' :: (digits i ++ '\x7d' :: formatTemplate pieces) := by
        simp [formatTemplate, Piece.template]
      rw [hcons] at hfuel ⊢
      -- a numeral does not begin with a brace
      have hhead : (digits i ++ '\x7d' :: formatTemplate pieces).head? ≠ some '\x7b' := by
        intro hbrace
        obtain ⟨d, ds, hdigits⟩ := List.exists_cons_of_ne_nil (digits_ne_nil i)
        rw [hdigits] at hbrace
        have hd := isDigit_of_mem_digits (n := i) (c := d) (hdigits ▸ List.mem_cons_self)
        rw [Option.some.inj hbrace] at hd
        cases hd
      rw [parseFormatLoop, if_neg (by decide), if_neg hhead, if_neg (by decide),
        formatArgument_digits hi hcount]
      show (parseFormatLoop count fuel [] (formatTemplate pieces) >>= _) = _
      rw [ih hrest (by simp at hfuel; omega)]
      rfl

theorem parseFormat_formatTemplate {count : ℕ} (hcount : count ≤ 256) {pieces : List Piece}
    (hindices : ∀ i ∈ indices pieces, i < count) :
    parseFormat (formatTemplate pieces) count = .ok (segmentsOf [] pieces) :=
  parseFormatLoop_formatTemplate hcount hindices (Nat.lt_succ_self _)

/-! ### Rendering -/

section Rendering

variable {argument : ℕ → EvalResult} {cache : List (Option Str)} {segments : List Segment}
  {result : Str}

/-- What is left to render once the argument's value is known. -/
def renderAfter (argument : ℕ → EvalResult) (cache : List (Option Str)) (index : ℕ)
    (specifier : Bool) (segments : List Segment) (result value : Str) : Traced RunnerError ℕ Str :=
  if specifier then lift (.error (invalidFormat "unsupported format specifier".toList))
  else renderSegments argument (cache.set index (some value)) segments (result ++ value)

section Argument

variable {index : ℕ} {specifier : Bool}

theorem renderSegments_known {value : Str} (h : cache[index]? = some (some value)) :
    renderSegments argument cache (.argument index specifier :: segments) result =
      renderAfter argument cache index specifier segments result value := by
  rw [renderSegments, h]
  rfl

theorem renderSegments_asked {value : Str} (h : cache[index]? = some none)
    (hvalue : (argument index).map SharedValue.coerceToString = .ok value) :
    renderSegments argument cache (.argument index specifier :: segments) result =
      ⟨(renderAfter argument cache index specifier segments result value).result,
        index :: (renderAfter argument cache index specifier segments result value).trace⟩ := by
  rw [renderSegments, h]
  exact bind_of_ok (x := ⟨_, [index]⟩) hvalue _

theorem renderSegments_failed {e : RunnerError} (h : cache[index]? = some none)
    (hvalue : (argument index).map SharedValue.coerceToString = .error e) :
    renderSegments argument cache (.argument index specifier :: segments) result =
      ⟨.error e, [index]⟩ := by
  rw [renderSegments, h]
  exact bind_of_error (x := ⟨_, [index]⟩) hvalue _

theorem renderSegments_missing (h : cache[index]? = none) :
    renderSegments argument cache (.argument index specifier :: segments) result =
      lift (.error (invalidFormat "index out of range".toList)) := by
  rw [renderSegments, h]

end Argument

/-- What is in the cache are the values of the arguments. -/
def Cached (argument : ℕ → EvalResult) (cache : List (Option Str)) : Prop :=
  ∀ i s, cache[i]? = some (some s) → (argument i).map SharedValue.coerceToString = .ok s

theorem cached_replicate (count : ℕ) : Cached argument (List.replicate count none) := by
  intro i s h
  rw [List.getElem?_replicate] at h
  split at h
  · cases h
  · cases h

theorem Cached.set (h : Cached argument cache) {i : ℕ} {value : Str}
    (hvalue : (argument i).map SharedValue.coerceToString = .ok value) :
    Cached argument (cache.set i (some value)) := by
  intro j s hj
  rw [List.getElem?_set] at hj
  split at hj
  case isTrue heq =>
    subst heq
    split at hj
    case isTrue => rw [hvalue, Option.some.inj (Option.some.inj hj)]
    case isFalse => cases hj
  case isFalse => exact h j s hj

/-- Rendering the segments of a template gives what the template is to come to. -/
theorem result_renderSegments (hcache : Cached argument cache) {pieces : List Piece}
    (hindices : ∀ i ∈ indices pieces, i < cache.length) (text : Str) :
    (renderSegments argument cache (segmentsOf text pieces) result).result =
      (fill argument pieces).map fun rest => result ++ (text ++ rest) := by
  induction pieces generalizing cache text result with
  | nil =>
    show Except.ok (result ++ text) = Except.ok (result ++ (text ++ []))
    rw [List.append_nil]
  | cons piece pieces ih =>
    cases piece with
    | text s =>
      show (renderSegments argument cache (segmentsOf (text ++ s) pieces) result).result = _
      rw [ih hcache hindices, fill]
      cases fill argument pieces with
      | error e => rfl
      | ok rest =>
        show Except.ok (result ++ (text ++ s ++ rest)) = Except.ok (result ++ (text ++ (s ++ rest)))
        rw [List.append_assoc]
    | index i =>
      obtain ⟨hi, hrest⟩ := List.forall_mem_cons.mp hindices
      -- what follows once the value is there, from the cache or not
      have hafter (value : SharedValue) (hvalue : argument i = .ok value) :
          (renderAfter argument cache i false (segmentsOf [] pieces) (result ++ text)
              value.coerceToString).result =
            (fill argument (.index i :: pieces)).map fun rest => result ++ (text ++ rest) := by
        have hset : Cached argument (cache.set i (some value.coerceToString)) :=
          hcache.set (by rw [hvalue]; rfl)
        show (renderSegments argument _ (segmentsOf [] pieces) _).result = _
        rw [ih hset (by simpa using hrest), fill, hvalue]
        cases fill argument pieces with
        | error e => rfl
        | ok rest =>
          show Except.ok _ = Except.ok (result ++ (text ++ (value.coerceToString ++ rest)))
          simp
      show (renderSegments argument cache (.argument i false :: segmentsOf [] pieces)
        (result ++ text)).result = _
      have hlookup : cache[i]? = some cache[i] := List.getElem?_eq_getElem hi
      cases hargument : argument i with
      | error e =>
        have hnone : cache[i]? = some none := by
          cases hcached : cache[i] with
          | some s =>
            have hs := hcache i s (hlookup.trans (congrArg some hcached))
            rw [hargument] at hs
            cases hs
          | none => rw [hlookup, hcached]
        rw [renderSegments_failed hnone (by rw [hargument]; rfl), fill, hargument]
        rfl
      | ok value =>
        cases hcached : cache[i] with
        | some s =>
          have hs := hcache i s (hlookup.trans (congrArg some hcached))
          rw [hargument] at hs
          obtain rfl : value.coerceToString = s := Except.ok.inj hs
          rw [renderSegments_known (hlookup.trans (congrArg some hcached))]
          exact hafter value hargument
        | none =>
          rw [renderSegments_asked (hlookup.trans (congrArg some hcached)) (by rw [hargument]; rfl)]
          exact hafter value hargument

/-- Each argument is asked for at most once, and only when it is referred to and not yet known. -/
theorem trace_renderSegments (cache : List (Option Str)) (segments : List Segment) (result : Str) :
    (renderSegments argument cache segments result).trace.Nodup ∧
      ∀ i ∈ (renderSegments argument cache segments result).trace,
        cache[i]? = some none ∧ ∃ specifier, Segment.argument i specifier ∈ segments := by
  induction segments generalizing cache result with
  | nil => exact ⟨List.nodup_nil, fun _ h => nomatch h⟩
  | cons segment segments ih =>
    have hmore {i : ℕ} : (∃ specifier, Segment.argument i specifier ∈ segments) →
        ∃ specifier, Segment.argument i specifier ∈ segment :: segments :=
      fun ⟨specifier, h⟩ => ⟨specifier, List.mem_cons_of_mem _ h⟩
    cases segment with
    | text text =>
      obtain ⟨hnodup, hasked⟩ := ih cache (result ++ text)
      exact ⟨hnodup, fun i hi => ⟨(hasked i hi).1, hmore (hasked i hi).2⟩⟩
    | argument index specifier =>
      -- with the value known, the argument itself is not asked for again
      have hafter (value : Str) (hin : index < cache.length) :
          (renderAfter argument cache index specifier segments result value).trace.Nodup ∧
            ∀ i ∈ (renderAfter argument cache index specifier segments result value).trace,
              i ≠ index ∧ cache[i]? = some none ∧
                ∃ specifier, Segment.argument i specifier ∈ segments := by
        cases specifier with
        | true => exact ⟨List.nodup_nil, fun _ h => nomatch h⟩
        | false =>
          obtain ⟨hnodup, hasked⟩ := ih (cache.set index (some value)) (result ++ value)
          refine ⟨hnodup, fun i hi => ?_⟩
          obtain ⟨hset, hmem⟩ := hasked i hi
          have hne : i ≠ index := by
            rintro rfl
            rw [List.getElem?_set_self hin] at hset
            cases hset
          rw [List.getElem?_set_ne hne.symm] at hset
          exact ⟨hne, hset, hmem⟩
      cases hcached : cache[index]? with
      | none =>
        rw [renderSegments_missing hcached]
        exact ⟨List.nodup_nil, fun _ h => nomatch h⟩
      | some cached =>
        have hin : index < cache.length := (List.getElem?_eq_some_iff.mp hcached).1
        cases cached with
        | some value =>
          obtain ⟨hnodup, hasked⟩ := hafter value hin
          rw [renderSegments_known hcached]
          exact ⟨hnodup, fun i hi => ⟨(hasked i hi).2.1, hmore (hasked i hi).2.2⟩⟩
        | none =>
          have hself : cache[index]? = some none ∧
              ∃ specifier', Segment.argument index specifier' ∈
                Segment.argument index specifier :: segments :=
            ⟨hcached, specifier, List.mem_cons_self⟩
          cases hargument : (argument index).map SharedValue.coerceToString with
          | error e =>
            rw [renderSegments_failed hcached hargument]
            exact ⟨List.nodup_singleton _, fun i hi => List.mem_singleton.mp hi ▸ hself⟩
          | ok value =>
            obtain ⟨hnodup, hasked⟩ := hafter value hin
            rw [renderSegments_asked hcached hargument]
            refine ⟨List.nodup_cons.mpr ⟨fun h => (hasked index h).1 rfl, hnodup⟩, fun i hi => ?_⟩
            rcases List.mem_cons.mp hi with rfl | hi
            · exact hself
            · exact ⟨(hasked i hi).2.1, hmore (hasked i hi).2.2⟩

variable (argument) in
/-- A specifier ends the rendering with an error: nothing that stands behind it is looked at. -/
theorem renderSegments_upto (cache : List (Option Str)) (before : List Segment) (i : ℕ)
    (after : List Segment) (result : Str) :
    renderSegments argument cache (before ++ .argument i true :: after) result =
        renderSegments argument cache (before ++ [.argument i true]) result ∧
      ∃ e, (renderSegments argument cache (before ++ [.argument i true]) result).result =
        .error e := by
  induction before generalizing cache result with
  | nil =>
    refine ⟨rfl, ?_⟩
    rw [List.nil_append]
    cases hcached : cache[i]? with
    | none => exact ⟨_, congrArg Traced.result (renderSegments_missing hcached)⟩
    | some cached =>
      cases cached with
      | some value => exact ⟨_, congrArg Traced.result (renderSegments_known hcached)⟩
      | none =>
        cases hargument : (argument i).map SharedValue.coerceToString with
        | error e => exact ⟨e, congrArg Traced.result (renderSegments_failed hcached hargument)⟩
        | ok value => exact ⟨_, congrArg Traced.result (renderSegments_asked hcached hargument)⟩
  | cons segment before ih =>
    cases segment with
    | text text => exact ih cache (result ++ text)
    | argument index specifier =>
      have hafter (value : Str) :
          renderAfter argument cache index specifier (before ++ .argument i true :: after) result
              value =
            renderAfter argument cache index specifier (before ++ [.argument i true]) result value ∧
          ∃ e, (renderAfter argument cache index specifier (before ++ [.argument i true]) result
            value).result = .error e := by
        cases specifier with
        | true => exact ⟨rfl, _, rfl⟩
        | false => exact ih _ _
      rw [List.cons_append, List.cons_append]
      cases hcached : cache[index]? with
      | none =>
        rw [renderSegments_missing hcached, renderSegments_missing hcached]
        exact ⟨rfl, _, rfl⟩
      | some cached =>
        cases cached with
        | some value =>
          rw [renderSegments_known hcached, renderSegments_known hcached]
          exact hafter value
        | none =>
          cases hargument : (argument index).map SharedValue.coerceToString with
          | error e =>
            rw [renderSegments_failed hcached hargument, renderSegments_failed hcached hargument]
            exact ⟨rfl, e, rfl⟩
          | ok value =>
            rw [renderSegments_asked hcached hargument, renderSegments_asked hcached hargument,
              (hafter value).1]
            exact ⟨rfl, (hafter value).2⟩

end Rendering

/-! ### Calls -/

/-- The argument of a call of `format` that a placeholder names, behind the template. -/
def placeholderResult (results : List EvalResult) (index : ℕ) : EvalResult :=
  results[index]?.getD (.error (.expression "format missing argument".toList))

/-- The rendering of a template, with the arguments that it evaluates. -/
def renderCall (template : Str) (results : List EvalResult) : Traced RunnerError ℕ Str :=
  render (placeholderResult results) template results.length

theorem indices_of_segmentsOf {text : Str} {pieces : List Piece} {i : ℕ} {specifier : Bool}
    (h : Segment.argument i specifier ∈ segmentsOf text pieces) : i ∈ indices pieces := by
  induction pieces generalizing text with
  | nil => cases List.mem_singleton.mp h
  | cons piece pieces ih =>
    cases piece with
    | text s => exact ih h
    | index j =>
      rcases List.mem_cons.mp h with h | h
      · cases h
      · rcases List.mem_cons.mp h with h | h
        · obtain ⟨rfl, -⟩ := Segment.argument.inj h
          exact List.mem_cons_self
        · exact List.mem_cons_of_mem _ (ih h)

theorem count_le_of_arity {count : ℕ}
    (h : validateArity "format".toList (count + 1) = .ok ()) : count ≤ 254 := by
  have hname : Builtin.ofName "format".toList = some .format := by decide
  obtain ⟨builtin, hbuiltin, -, hmax, -⟩ := validateArity_eq_ok_iff.mp h
  obtain rfl : .format = builtin := Option.some.inj (hname.symm.trans hbuiltin)
  exact Nat.le_of_succ_le_succ hmax

/-- **`format`.**  In a call with as many arguments as `format` takes, the template written for texts
    and arguments comes to the texts and the coerced arguments behind each other, and evaluates no
    argument that it does not name.  No template evaluates an argument twice; one that cannot be
    scanned evaluates none; and a specifier fails where it stands, with nothing evaluated that is
    named only behind it. -/
theorem format_renders (results : List EvalResult) :
    (∀ value : SharedValue, evalFormat (.ok value :: results) =
      (renderCall value.coerceToString results).result.map .string) ∧
    (∀ pieces, validateArity "format".toList (results.length + 1) = .ok () →
      (∀ i ∈ indices pieces, i < results.length) →
      (renderCall (formatTemplate pieces) results).result = fill (placeholderResult results) pieces ∧
        ∀ i ∈ (renderCall (formatTemplate pieces) results).trace, i ∈ indices pieces) ∧
    ∀ template,
      (renderCall template results).trace.Nodup ∧
      (∀ e, parseFormat template results.length = .error e →
        renderCall template results = ⟨.error e, []⟩) ∧
      ∀ segments, parseFormat template results.length = .ok segments →
        (∀ i ∈ (renderCall template results).trace, ∃ specifier, .argument i specifier ∈ segments) ∧
        ∀ before i after, segments = before ++ .argument i true :: after →
          (∃ e, (renderCall template results).result = .error e) ∧
          ∀ j ∈ (renderCall template results).trace,
            ∃ specifier, .argument j specifier ∈ before ++ [.argument i true] := by
  -- scanning comes first; what it finds is rendered with nothing known
  have hscanned {template : Str} {segments : List Segment}
      (h : parseFormat template results.length = .ok segments) : renderCall template results =
        renderSegments (placeholderResult results) (List.replicate results.length none) segments [] := by
    rw [renderCall, render, h, lift_ok, pure_bind]
  have hrefused {template : Str} {e : RunnerError}
      (h : parseFormat template results.length = .error e) :
      renderCall template results = ⟨.error e, []⟩ := by
    rw [renderCall, render, h]
    exact bind_of_error (result_lift _) _
  refine ⟨fun value => rfl, fun pieces harity hindices => ?_, fun template => ⟨?_, ?_, ?_⟩⟩
  · have hcount := count_le_of_arity harity
    rw [hscanned (parseFormat_formatTemplate (by omega) hindices)]
    constructor
    · rw [result_renderSegments (cached_replicate _) (by simpa using hindices)]
      cases fill (placeholderResult results) pieces <;> rfl
    · intro i hi
      obtain ⟨-, specifier, hmem⟩ := (trace_renderSegments _ _ _).2 i hi
      exact indices_of_segmentsOf hmem
  · cases hparse : parseFormat template results.length with
    | error e =>
      rw [hrefused hparse]
      exact List.nodup_nil
    | ok segments =>
      rw [hscanned hparse]
      exact (trace_renderSegments _ _ _).1
  · exact fun e => hrefused
  · intro segments hparse
    rw [hscanned hparse]
    refine ⟨fun i hi => ((trace_renderSegments _ _ _).2 i hi).2, ?_⟩
    rintro before i after rfl
    obtain ⟨hupto, hfails⟩ := renderSegments_upto (placeholderResult results)
      (List.replicate results.length none) before i after []
    rw [hupto]
    exact ⟨hfails, fun j hj => ((trace_renderSegments _ _ _).2 j hj).2⟩

/-- Braces next to a placeholder. -/
theorem format_renders_braces :
    (renderCall "\x7b\x7b\x7b0\x7d\x7d\x7d".toList [.ok (.string "a".toList)]).result =
      .ok "\x7ba\x7d".toList :=
  ((format_renders [.ok (.string "a".toList)]).2.1
    [.text "\x7b".toList, .index 0, .text "\x7d".toList] (by decide) (by decide)).1

/-- The argument is evaluated before its specifier is refused. -/
theorem specifier_refused_late :
    renderCall "\x7b0:x\x7d".toList [.ok (.string "a".toList)] =
      ⟨.error (invalidFormat "unsupported format specifier".toList), [0]⟩ := rfl

end GhRunner.Expressions
