import GhRunner.Execution.JobCancellation
import GhRunner.Execution.SingleEvaluation
import GhRunner.Expressions.Strictness

namespace GhRunner.Execution.StatusConditions

open Text GhRunner.Expressions

/-!
# Status conditions without an evaluation

`literal_status_condition` of `crates/execution/src/execution/context.rs` answers the four status functions
from the status of the job, with no snapshot and no parser; the whole way round is `evaluate_expression`
on the condition as it was given.  The first trims with the white space of Unicode, the second skips that
of ASCII.

* `JobState`, `step` — the context of a job with its cancellation, and what touches the statuses of scopes;
* `tokensFrom_blank`, `tokensFrom_foreign` — white space before a token, of either kind;
* `literal_agrees_iff` — where the two ways agree.
-/

/-! ### The job -/

/-- The context, with the status as it was recorded, and the job's cancellation. -/
structure JobState where
  ctx : ExecutionContext
  cancellation : Option Cancellation.JobCancellation

namespace JobState

variable (s : JobState)

/-- `job_status`: live cancellation and shutdown over the recorded status. -/
def jobStatus : JobStatus :=
  match s.cancellation with
  | some cancel => cancel.status s.ctx.jobStatus
  | none => s.ctx.jobStatus

/-- The context as it answers now. -/
def live : ExecutionContext := { s.ctx with jobStatus := s.jobStatus }

def literalStatusCondition (cond : Str) : Option Bool :=
  if trim cond = "success()".toList then some (s.jobStatus = .success)
  else if trim cond = "always()".toList then some true
  else if trim cond = "failure()".toList then some (s.jobStatus = .failure)
  else if trim cond = "cancelled()".toList then some (s.jobStatus = .cancelled)
  else none

def evaluateExpression (platform : Platform) (order : HashOrder) (cond : Str) : EvalResult :=
  evaluate platform (s.live.evalContext order).shared cond

end JobState

/-- What enters and leaves the scopes of a job and sets their statuses; anything else leaves those. -/
inductive Move
  | enterStepScope (wireId : Str) (inputs : HashMap Str) (actionDir : Str)
  | setScopeStatus (status : JobStatus)
  | restoreStepScope (path : List Str)
  | other (next : JobState)

def step (s : JobState) : Move → JobState
  | .enterStepScope wireId inputs actionDir =>
    let path := s.ctx.scopePath ++ [wireId]
    { s with
      ctx.scopePath := path
      ctx.scopedInputs := s.ctx.scopedInputs.insert path inputs
      ctx.scopedStatus := s.ctx.scopedStatus.insert path .success
      ctx.scopedActionPaths := s.ctx.scopedActionPaths.insert path actionDir }
  | .setScopeStatus status =>
    if s.ctx.scopePath = [] then { s with ctx.jobStatus := status }
    else { s with ctx.scopedStatus := s.ctx.scopedStatus.insert s.ctx.scopePath status }
  | .restoreStepScope path => { s with ctx.scopePath := path }
  | .other next => { next with ctx.scopedStatus := s.ctx.scopedStatus }

/-- A job begins without scopes. -/
def stateAfter (start : JobState) (moves : List Move) : JobState :=
  Machine.run step { start with ctx.scopedStatus := ∅ } moves

/-! ### The job's own scope has no status -/

theorem scopedStatus_step {s : JobState} (h : s.ctx.scopedStatus.lookup [] = none) (move : Move) :
    (step s move).ctx.scopedStatus.lookup [] = none := by
  cases move with
  | enterStepScope wireId inputs actionDir =>
    have hne : ([] : List Str) ≠ s.ctx.scopePath ++ [wireId] := by simp
    exact (Finmap.lookup_insert_of_ne _ hne).trans h
  | setScopeStatus status =>
    unfold step
    dsimp only
    split
    case isTrue => exact h
    case isFalse hne => exact (Finmap.lookup_insert_of_ne _ (Ne.symm hne)).trans h
  | restoreStepScope path => exact h
  | other next => exact h

theorem scopedStatus_stateAfter (start : JobState) (moves : List Move) :
    (stateAfter start moves).ctx.scopedStatus.lookup [] = none := by
  have hrun (s : JobState) (h : s.ctx.scopedStatus.lookup [] = none) :
      (Machine.run step s moves).ctx.scopedStatus.lookup [] = none := by
    induction moves generalizing s with
    | nil => exact h
    | cons move rest ih => exact ih _ (scopedStatus_step h move)
  exact hrun _ rfl

/-- At job scope the snapshot has the status that the shortcut looks at. -/
theorem jobStatus_evalContext {s : JobState} (hscope : s.ctx.scopePath = [])
    (hstatus : s.ctx.scopedStatus.lookup [] = none) (order : HashOrder) :
    (s.live.evalContext order).jobStatus = s.jobStatus := by
  show s.live.scopedJobStatus = s.jobStatus
  unfold ExecutionContext.scopedJobStatus
  show (if s.jobStatus = .cancelled then _ else (s.ctx.scopedStatus.lookup s.ctx.scopePath).getD s.jobStatus)
    = _
  rw [hscope, hstatus]
  split
  case isTrue h => exact h.symm
  case isFalse => rfl

/-! ### White space in front of a token -/

section Lexer

variable {previous : Option Token}

/-- No letter, digit or mark of the grammar is white space. -/
theorem lexToken_foreign {c : Char} (hwhite : isWhitespace c = true) (hascii : isAsciiWhitespace c = false)
    (rest : Str) : lexToken previous c rest = .error (.unexpected c) := by
  have hne (d : Char) (hd : isWhitespace d = false) : c ≠ d := fun h => by
    rw [h, hd] at hwhite
    cases hwhite
  have halpha : c.isAlpha = false := by
    rw [← Bool.not_eq_true]
    intro h
    have hbounds := isAlpha_bounds h
    simp only [isWhitespace, Bool.or_eq_true, Bool.and_eq_true, decide_eq_true_eq, beq_iff_eq] at hwhite
    omega
  have hdigit : c.isDigit = false := by
    rw [← Bool.not_eq_true]
    intro h
    have hbounds : 48 ≤ c.toNat ∧ c.toNat ≤ 57 := by
      obtain ⟨hlo, hhi⟩ := Bool.and_eq_true_iff.mp h
      exact ⟨UInt32.le_iff_toNat_le.mp (of_decide_eq_true hlo),
        UInt32.le_iff_toNat_le.mp (of_decide_eq_true hhi)⟩
    simp only [isWhitespace, Bool.or_eq_true, Bool.and_eq_true, decide_eq_true_eq, beq_iff_eq] at hwhite
    omega
  have hnumber : isNumberStart c previous = false := by
    simp [isNumberStart, hdigit, hne '+' rfl, hne '-' rfl, hne '.' rfl]
  have hident : isIdentStart c = false := by
    simp [isIdentStart, halpha, hne '_' rfl]
  have hsingle : singleOperator c = none := by
    unfold singleOperator
    split <;> first | rfl | exact absurd rfl (hne _ rfl)
  have hdouble (d : Char) : doubleOperator c d = none := by
    unfold doubleOperator
    split <;> first | rfl | exact absurd rfl (hne _ rfl)
  have hhead : rest.head?.bind (doubleOperator c) = none := by
    cases rest with
    | nil => rfl
    | cons d rest => exact hdouble d
  rw [lexToken, if_neg (hne '\'' rfl), hnumber, if_neg Bool.false_ne_true, hident,
    if_neg Bool.false_ne_true, lexOperator, hhead, hsingle]

/-- White space of ASCII is skipped. -/
theorem tokensFrom_blank {blanks : Str} (h : ∀ c ∈ blanks, isAsciiWhitespace c = true) (rest : Str) :
    tokensFrom previous (blanks ++ rest) = tokensFrom previous rest := by
  induction blanks with
  | nil => rfl
  | cons c blanks ih =>
    rw [List.cons_append, tokensFrom_space (h c List.mem_cons_self)]
    exact ih fun d hd => h d (List.mem_cons_of_mem _ hd)

/-- Other white space is unexpected. -/
theorem tokensFrom_foreign {blanks : Str} (hwhite : ∀ c ∈ blanks, isWhitespace c = true)
    (h : ¬∀ c ∈ blanks, isAsciiWhitespace c = true) (rest : Str) :
    ∃ e, tokensFrom previous (blanks ++ rest) = .error e := by
  induction blanks with
  | nil => exact absurd (List.forall_mem_nil _) h
  | cons c blanks ih =>
    rw [List.cons_append]
    cases hc : isAsciiWhitespace c with
    | true =>
      rw [tokensFrom_space hc]
      refine ih (fun d hd => hwhite d (List.mem_cons_of_mem _ hd)) fun hall => h ?_
      exact List.forall_mem_cons.mpr ⟨hc, hall⟩
    | false => exact ⟨_, tokensFrom_error hc (lexToken_foreign (hwhite c List.mem_cons_self) hc _)⟩

/-! ### The four functions -/

/-- The names of the status functions. -/
def statusNames : List Str :=
  ["success".toList, "always".toList, "failure".toList, "cancelled".toList]

/-- A call without arguments is lexed as such, and what follows it after it. -/
theorem tokensFrom_call {name : Str} (hname : name ∈ statusNames) (rest : Str) :
    tokensFrom none (name ++ ('(' :: ')' :: rest)) =
      (tokensFrom (some .rParen) rest).map ([.ident name, .lParen, .rParen] ++ ·) := by
  have hparens (previous : Option Token) : tokensFrom previous ('(' :: ')' :: rest) =
      (tokensFrom (some .rParen) rest).map ([.lParen, .rParen] ++ ·) := by
    have hopens : lexToken previous '(' (')' :: rest) = .ok (.lParen, ')' :: rest) := rfl
    have hcloses : lexToken (some .lParen) ')' rest = .ok (.rParen, rest) := by
      cases rest <;> rfl
    rw [tokensFrom_token rfl hopens, tokensFrom_token rfl hcloses]
    cases tokensFrom (some .rParen) rest <;> rfl
  have hident (c : Char) (more : Str) (hc : isAsciiWhitespace c = false)
      (h : lexToken none c (more ++ '(' :: ')' :: rest) = .ok (.ident (c :: more), '(' :: ')' :: rest)) :
      tokensFrom none (c :: more ++ '(' :: ')' :: rest) =
        (tokensFrom (some .rParen) rest).map ([.ident (c :: more), .lParen, .rParen] ++ ·) := by
    rw [List.cons_append, tokensFrom_token hc h, hparens]
    cases tokensFrom (some .rParen) rest <;> rfl
  simp only [statusNames, List.mem_cons, List.not_mem_nil, or_false] at hname
  obtain rfl | rfl | rfl | rfl := hname <;> exact hident _ _ rfl rfl

end Lexer

/-! ### Both ways -/

section Agreement

variable (platform : Platform) (evalCtx : EvalContext)

/-- The text with the white space that trimming takes. -/
theorem exists_trim (cond : Str) : ∃ before after, cond = before ++ (trim cond ++ after) ∧
    (∀ c ∈ before, isWhitespace c = true) ∧ ∀ c ∈ after, isWhitespace c = true := by
  refine ⟨cond.takeWhile isWhitespace, (cond.dropWhile isWhitespace).rtakeWhile isWhitespace, ?_,
    fun c hc => List.mem_takeWhile_imp hc, fun c hc => ?_⟩
  · rw [trim, List.rdropWhile_append_rtakeWhile, List.takeWhile_append_dropWhile]
  · exact List.mem_rtakeWhile_imp hc

/-- What does not lex is not evaluated. -/
theorem evaluate_of_tokensFrom_error {cond : Str} {e : LexError} (h : tokensFrom none cond = .error e) :
    ∃ error, evaluate platform evalCtx.shared cond = .error error := by
  have hloop : lexLoop cond.length none cond = .error e := h
  have hlex : lex cond = .error (.expression (e.message (Utf8.utf8Len cond))) := by rw [lex, hloop]
  refine ⟨.expression (e.message (Utf8.utf8Len cond)), ?_⟩
  rw [evaluate, parse, hlex]
  rfl

/-- The evaluation looks at the tokens only. -/
theorem evaluate_congr {cond cond' : Str} {tokens : List Token} (h : tokensFrom none cond = .ok tokens)
    (h' : tokensFrom none cond' = .ok tokens) :
    evaluate platform evalCtx.shared cond = evaluate platform evalCtx.shared cond' := by
  rw [evaluate, evaluate, parse, parse, lex_eq_ok.mpr h, lex_eq_ok.mpr h']

/-- What a status function says of a status. -/
def statusHolds (name : Str) (status : JobStatus) : Bool :=
  if name = "success".toList then status = .success
  else if name = "always".toList then true
  else if name = "failure".toList then status = .failure
  else status = .cancelled

theorem evaluate_call {name : Str} (hname : name ∈ statusNames) :
    evaluate platform evalCtx.shared (name ++ ['(', ')']) =
      .ok (.bool (statusHolds name evalCtx.jobStatus)) := by
  simp only [statusNames, List.mem_cons, List.not_mem_nil, or_false] at hname
  obtain rfl | rfl | rfl | rfl := hname <;> rfl

theorem literalStatusCondition_eq_some {s : JobState} {cond : Str} {b : Bool}
    (h : s.literalStatusCondition cond = some b) :
    ∃ name ∈ statusNames, trim cond = name ++ ['(', ')'] ∧ statusHolds name s.jobStatus = b := by
  unfold JobState.literalStatusCondition at h
  split at h
  case isTrue htrim =>
    exact ⟨"success".toList, by decide, htrim, Option.some.inj h⟩
  case isFalse =>
    split at h
    case isTrue htrim => exact ⟨"always".toList, by decide, htrim, Option.some.inj h⟩
    case isFalse =>
      split at h
      case isTrue htrim => exact ⟨"failure".toList, by decide, htrim, Option.some.inj h⟩
      case isFalse =>
        split at h
        case isTrue htrim => exact ⟨"cancelled".toList, by decide, htrim, Option.some.inj h⟩
        case isFalse => cases h

/-- A call in white space is evaluated like the call, if the white space is that of ASCII. -/
theorem evaluate_padded {name cond : Str} (hname : name ∈ statusNames)
    (htrim : trim cond = name ++ ['(', ')']) :
    (∃ value, evaluate platform evalCtx.shared cond = .ok value ∧
        value.isTruthy = statusHolds name evalCtx.jobStatus) ∧
      (∀ c ∈ cond, isWhitespace c = true → isAsciiWhitespace c = true) ∨
    (∃ error, evaluate platform evalCtx.shared cond = .error error) ∧
      ¬∀ c ∈ cond, isWhitespace c = true → isAsciiWhitespace c = true := by
  obtain ⟨before, after, hcond, hbefore, hafter⟩ := exists_trim cond
  rw [htrim, List.append_assoc] at hcond
  have hinner : tokensFrom none (name ++ (['(', ')'] ++ after)) =
      (tokensFrom (some .rParen) after).map ([.ident name, .lParen, .rParen] ++ ·) :=
    tokensFrom_call hname after
  by_cases hb : ∀ c ∈ before, isAsciiWhitespace c = true
  · by_cases ha : ∀ c ∈ after, isAsciiWhitespace c = true
    · left
      constructor
      · have hend : tokensFrom (some .rParen) after = .ok [] := by
          have h : tokensFrom (some .rParen) (after ++ []) = tokensFrom (some .rParen) [] :=
            tokensFrom_blank ha []
          rwa [List.append_nil] at h
        have htokens : tokensFrom none cond = .ok [.ident name, .lParen, .rParen] := by
          rw [hcond, tokensFrom_blank hb, hinner, hend]
          rfl
        have hcall : tokensFrom none (name ++ ['(', ')']) = .ok [.ident name, .lParen, .rParen] :=
          tokensFrom_call hname []
        refine ⟨_, (evaluate_congr platform evalCtx htokens hcall).trans
          (evaluate_call platform evalCtx hname), ?_⟩
        rfl
      · -- nothing within the call is white space
        have hname' : ∀ c ∈ name ++ ['(', ')'], isWhitespace c = false := by
          simp only [statusNames, List.mem_cons, List.not_mem_nil, or_false] at hname
          obtain rfl | rfl | rfl | rfl := hname <;> decide
        intro c hc hwhite
        rw [hcond, List.mem_append, ← List.append_assoc, List.mem_append] at hc
        obtain hc | hc | hc := hc
        · exact hb c hc
        · rw [hname' c hc] at hwhite
          cases hwhite
        · exact ha c hc
    · right
      constructor
      · obtain ⟨e, he⟩ : ∃ e, tokensFrom (some .rParen) (after ++ []) = .error e :=
          tokensFrom_foreign hafter ha []
        rw [List.append_nil] at he
        refine evaluate_of_tokensFrom_error platform evalCtx (e := e) ?_
        rw [hcond, tokensFrom_blank hb, hinner, he]
        rfl
      · refine fun h => ha fun c hc => h c ?_ (hafter c hc)
        rw [hcond]
        simp [hc]
  · right
    constructor
    · obtain ⟨e, he⟩ : ∃ e, tokensFrom none (before ++ (name ++ (['(', ')'] ++ after))) = .error e :=
        tokensFrom_foreign hbefore hb _
      exact evaluate_of_tokensFrom_error platform evalCtx (hcond ▸ he)
    · refine fun h => hb fun c hc => h c ?_ (hbefore c hc)
      rw [hcond]
      simp [hc]

end Agreement

/-- Where the shortcut answers at job scope, the evaluation of the condition comes to the same if and only
    if all white space in the condition is that of ASCII. -/
theorem literal_agrees_iff (platform : Platform) (order : HashOrder) (start : JobState)
    (moves : List Move) (cond : Str) (b : Bool)
    (hscope : (stateAfter start moves).ctx.scopePath = [])
    (hliteral : (stateAfter start moves).literalStatusCondition cond = some b) :
    (∃ value, (stateAfter start moves).evaluateExpression platform order cond = .ok value ∧
        value.isTruthy = b) ↔
      ∀ c ∈ cond, isWhitespace c = true → isAsciiWhitespace c = true := by
  obtain ⟨name, hname, htrim, hholds⟩ := literalStatusCondition_eq_some hliteral
  have hstatus := jobStatus_evalContext hscope (scopedStatus_stateAfter start moves) order
  unfold JobState.evaluateExpression
  obtain ⟨⟨value, hvalue, htruthy⟩, hascii⟩ | ⟨⟨error, herror⟩, hforeign⟩ :=
    evaluate_padded platform ((stateAfter start moves).live.evalContext order) hname htrim
  · refine ⟨fun _ => hascii, fun _ => ⟨value, hvalue, htruthy.trans ?_⟩⟩
    rw [hstatus, hholds]
  · refine ⟨?_, fun h => absurd h hforeign⟩
    rintro ⟨value, hvalue, -⟩
    rw [herror] at hvalue
    cases hvalue

/-- A job at its start, that nothing has cancelled. -/
def startedJob : JobState := ⟨secretContext, none⟩

theorem literal_agrees_padded :
    startedJob.literalStatusCondition " success()\n".toList = some true ∧
      ∃ value, startedJob.evaluateExpression plainPlatform plainOrder " success()\n".toList = .ok value ∧
        value.isTruthy = true := by
  have hliteral : startedJob.literalStatusCondition " success()\n".toList = some true := by decide
  exact ⟨hliteral, (literal_agrees_iff plainPlatform plainOrder startedJob [] " success()\n".toList true rfl
    hliteral).mpr (by decide)⟩

/-- A no-break space in front of `success()` is trimmed, but it is no expression. -/
theorem foreign_padding_fails :
    startedJob.literalStatusCondition ('\u00A0' :: "success()".toList) = some true ∧
      startedJob.evaluateExpression plainPlatform plainOrder ('\u00A0' :: "success()".toList) =
        .error (.expression ("unexpected character: '".toList ++ ['\u00C2', '\''])) := by
  exact ⟨by decide, by rfl⟩

end GhRunner.Execution.StatusConditions
