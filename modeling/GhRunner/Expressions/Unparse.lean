import GhRunner.Expressions.Grammar
import GhRunner.Expressions.Printed

namespace GhRunner.Expressions

open Text

/-!
# Printed expressions read back

When `parse` gives back the tree that `to_expression` printed.

* `Spelled`, `written_of_parse` — a tree that was parsed is written: its names and values come from
  tokens;
* `rederived` — the printed tokens of a tree without accesses to negations and literals derive it;
* `brackets`, `reached_of_derives` — brackets around negations and literals are never printed, and
  no derivation without them reaches into one;
* `unparse_exact` — so the tree is given back exactly when it has no such access.
-/

/-! ### Trees that were parsed -/

/-- A word behind a point is any name; elsewhere it is no keyword. -/
def spelledToken (previous : Option Token) : Token → Prop
  | .ident name =>
    isKeyword name = true ∧ (previous = some .dot ∨ keywordOrIdent name = .ident name)
  | _ => True

/-- The tokens are as the lexer makes them behind the given one. -/
def Spelled : Option Token → List Token → Prop
  | _, [] => True
  | previous, tok :: rest => spelledToken previous tok ∧ Spelled (some tok) rest

section Spelled

variable {previous : Option Token} {c : Char} {rest rest' s : Str} {tok : Token}
  {ts us : List Token}

theorem spelled_append :
    Spelled previous (ts ++ us) ↔ Spelled previous ts ∧ Spelled (ts.getLast?.or previous) us := by
  induction ts generalizing previous with
  | nil => exact (and_iff_right trivial).symm
  | cons tok ts ih =>
    have hlast : (tok :: ts).getLast?.or previous = ts.getLast?.or (some tok) := by
      rw [List.getLast?_cons]
      cases ts.getLast? <;> rfl
    rw [List.cons_append, Spelled, Spelled, ih, hlast, and_assoc]

theorem isKeyword_takeWhile (h : isIdentStart c = true) (rest : Str) :
    isKeyword ((c :: rest).takeWhile isIdentContinue) = true := by
  rw [List.takeWhile_cons_of_pos (isIdentContinue_of_start h)]
  have hrest : ∀ d ∈ rest.takeWhile isIdentContinue, isIdentContinue d = true := fun d hd =>
    List.mem_takeWhile_imp hd
  exact Bool.and_eq_true_iff.mpr ⟨h, List.all_eq_true.mpr hrest⟩

theorem keywordOrIdent_cases (word : Str) :
    keywordOrIdent word = .ident word ∨ ∀ name, keywordOrIdent word ≠ .ident name := by
  unfold keywordOrIdent
  repeat' split
  all_goals first | exact .inl rfl | exact .inr fun name h => by cases h

theorem spelledToken_of_lexToken (h : lexToken previous c rest = .ok (tok, rest')) :
    spelledToken previous tok := by
  unfold lexToken at h
  split at h
  case isTrue =>
    obtain ⟨read, -, heq⟩ := map_eq_ok.mp h
    obtain ⟨rfl, -⟩ := Prod.mk.inj heq
    trivial
  case isFalse =>
    split at h
    case isTrue =>
      obtain ⟨n, -, rfl, -⟩ := lexNumber_eq_ok.mp h
      trivial
    case isFalse =>
      split at h
      case isTrue hstart =>
        obtain ⟨htok, -⟩ := Prod.mk.inj (Except.ok.inj h)
        have hword := isKeyword_takeWhile hstart rest
        generalize (c :: rest).takeWhile isIdentContinue = word at htok hword
        split at htok
        case isTrue hdot =>
          subst htok
          exact ⟨hword, .inl hdot⟩
        case isFalse =>
          rcases keywordOrIdent_cases word with hident | hother
          · rw [hident] at htok
            subst htok
            exact ⟨hword, .inr hident⟩
          · rw [htok] at hother
            cases tok <;> first | trivial | exact absurd rfl (hother _)
      case isFalse =>
        rcases lexOperator_eq_ok.mp h with ⟨d, -, hop⟩ | ⟨-, hop, -⟩
        · unfold doubleOperator at hop
          split at hop
          all_goals first | (cases hop; trivial) | cases hop
        · unfold singleOperator at hop
          split at hop
          all_goals first | (cases hop; trivial) | cases hop

theorem spelled_of_tokensFrom (h : tokensFrom previous s = .ok ts) : Spelled previous ts := by
  induction hlen : s.length using Nat.strong_induction_on generalizing previous s ts with
  | _ len ih =>
  subst hlen
  cases s with
  | nil =>
    obtain rfl := Except.ok.inj h
    trivial
  | cons c rest =>
    rcases tokensFrom_cons_eq_ok.mp h with ⟨-, hrest⟩ | ⟨-, tok, rest', more, htok, hrest, rfl⟩
    · exact ih rest.length (Nat.lt_succ_self _) hrest rfl
    · have hlt := Nat.lt_succ_of_le (lexToken_length htok)
      exact ⟨spelledToken_of_lexToken htok, ih rest'.length hlt hrest rfl⟩

theorem ne_dot_of_operator {level : BinaryLevel} {op : BinaryOperator}
    (h : level.operator tok = some op) : tok ≠ .dot := by
  rintro rfl
  cases level <;> simp [BinaryLevel.operator, peekEqualityOp, peekComparisonOp] at h

theorem written_literal {value : ExprValue} (h : literalValue tok = some value) :
    Written (.literal value) := by
  unfold literalValue at h
  split at h
  all_goals first | (cases h; rfl) | cases h

theorem written_name {name : Str} (hprev : previous ≠ some .dot)
    (h : spelledToken previous (.ident name)) :
    isKeyword name = true ∧ keywordOrIdent name = .ident name :=
  ⟨h.1, h.2.resolve_left hprev⟩

end Spelled

mutual

/-- What is derived from such tokens is written, where no point stands before them. -/
theorem written_of_derives {sym : Symbol} {ts : List Token} {e : Expr} (h : Derives sym ts e)
    {previous : Option Token} (hprev : previous ≠ some .dot) (hts : Spelled previous ts) :
    Written e := by
  match h with
  | .operand h => exact written_of_derives h hprev hts
  | @Derives.binary _ _ _ tok _ _ _ hl hop hr =>
    obtain ⟨hleft, -, hright⟩ := spelled_append.mp hts
    have htok : some tok ≠ some .dot := fun hdot => ne_dot_of_operator hop (Option.some.inj hdot)
    exact Bool.and_eq_true_iff.mpr ⟨rfl, Bool.and_eq_true_iff.mpr
      ⟨written_of_derives hl hprev hleft, written_of_derives hr htok hright⟩⟩
  | .not h => exact Bool.and_eq_true_iff.mpr ⟨rfl, written_of_derives h (by simp) hts.2⟩
  | .postfixed h => exact written_of_derives h hprev hts
  | .literal h => exact written_literal h
  | .access h => exact written_of_derives h hprev hts
  | .group h => exact written_of_derives h (by simp) (spelled_append.mp hts.2).1
  | .call h =>
    obtain ⟨hname, hident⟩ := written_name hprev hts.1
    have hargs := written_of_derivesArgs h (by simp) (spelled_append.mp hts.2.2).1
    exact Bool.and_eq_true_iff.mpr ⟨Bool.and_eq_true_iff.mpr ⟨hname, decide_eq_true hident⟩,
      Expr.allArgs_eq_true_iff.mpr hargs⟩
  | .name =>
    obtain ⟨hname, hident⟩ := written_name hprev hts.1
    exact Bool.and_eq_true_iff.mpr ⟨hname, decide_eq_true hident⟩
  | .property h =>
    obtain ⟨hobject, -, hproperty, -⟩ := spelled_append.mp hts
    exact Bool.and_eq_true_iff.mpr ⟨hproperty.1, written_of_derives h hprev hobject⟩
  | .dotStar h =>
    exact Bool.and_eq_true_iff.mpr ⟨rfl, written_of_derives h hprev (spelled_append.mp hts).1⟩
  | .bracketStar h =>
    exact Bool.and_eq_true_iff.mpr ⟨rfl, written_of_derives h hprev (spelled_append.mp hts).1⟩
  | .index h hi =>
    obtain ⟨hobject, -, hindex⟩ := spelled_append.mp hts
    exact Bool.and_eq_true_iff.mpr ⟨rfl, Bool.and_eq_true_iff.mpr
      ⟨written_of_derives h hprev hobject,
        written_of_derives hi (by simp) (spelled_append.mp hindex).1⟩⟩

theorem written_of_derivesArgs {ts : List Token} {es : List Expr} (h : DerivesArgs ts es)
    {previous : Option Token} (hprev : previous ≠ some .dot) (hts : Spelled previous ts) :
    ∀ e ∈ es, Written e := by
  match h with
  | .none => exact fun e he => absurd he List.not_mem_nil
  | .one h =>
    intro e he
    rw [List.mem_singleton.mp he]
    exact written_of_derives h hprev hts
  | .more h hne he =>
    obtain ⟨hleft, -, hright⟩ := spelled_append.mp hts
    rw [List.forall_mem_append]
    refine ⟨written_of_derivesArgs h hprev hleft, fun e heq => ?_⟩
    rw [List.mem_singleton.mp heq]
    exact written_of_derives he (by simp) hright

end

variable {debug : Token → Str}

theorem parse_eq_ok_iff {s : Str} {e : Expr} :
    parse debug s = .ok e ↔ ∃ ts, tokensFrom none s = .ok ts ∧ Derives (.binary .or) ts e := by
  unfold parse
  cases hlex : lex s with
  | error err =>
    refine iff_of_false (by simp) ?_
    rintro ⟨ts, hts, -⟩
    rw [lex_eq_ok.mpr hts] at hlex
    cases hlex
  | ok ts =>
    have hts := lex_eq_ok.mp hlex
    have hiff : (∃ ts', tokensFrom none s = .ok ts' ∧ Derives (.binary .or) ts' e) ↔
        parseTokens ts = .ok e := by
      rw [hts, parseTokens_eq_ok_iff]
      simp
    rw [hiff]
    cases hparse : parseTokens ts with
    | error err => simp [hparse]
    | ok e' => simp [hparse]

/-- Every tree that was parsed is written. -/
theorem written_of_parse {s : Str} {e : Expr} (h : parse debug s = .ok e) : Written e := by
  obtain ⟨ts, hts, hderives⟩ := parse_eq_ok_iff.mp h
  exact written_of_derives hderives (by simp) (spelled_of_tokensFrom hts)

theorem parse_toExpression {e e' : Expr} (h : Written e) :
    parse debug (toExpression e) = .ok e' ↔
      ∃ ts, (lexed e).bind Chunk.closed = some ts ∧ Derives (.binary .or) ts e' := by
  rw [parse_eq_ok_iff, ← read_toExpression h, read]
  cases tokensFrom none (toExpression e) with
  | error err => simp [Except.toOption]
  | ok ts => simp [Except.toOption]

/-! ### What the printed tokens derive -/

theorem derives_or {ts : List Token} {e : Expr} (h : Derives .unary ts e) :
    Derives (.binary .or) ts e :=
  .operand (.operand (.operand (.operand h)))

theorem derives_operator (op : BinaryOperator) {ts us : List Token} {l r : Expr}
    (hl : Derives .unary ts l) (hr : Derives .unary us r) :
    Derives (.binary .or) (ts ++ operatorToken op :: us) (.binaryOp op l r) := by
  have comparison {vs : List Token} {e : Expr} (h : Derives .unary vs e) :
      Derives (.binary .comparison) vs e := .operand h
  have equality {vs : List Token} {e : Expr} (h : Derives .unary vs e) :
      Derives (.binary .equality) vs e := .operand (comparison h)
  have and {vs : List Token} {e : Expr} (h : Derives .unary vs e) :
      Derives (.binary .and) vs e := .operand (equality h)
  cases op with
  | or => exact .binary (derives_or hl) rfl (and hr)
  | and => exact .operand (.binary (and hl) rfl (equality hr))
  | eq => exact .operand (.operand (.binary (equality hl) rfl (comparison hr)))
  | neq => exact .operand (.operand (.binary (equality hl) rfl (comparison hr)))
  | _ => exact .operand (.operand (.operand (.binary (comparison hl) rfl hr)))

theorem derivesArgs_append {ts us : List Token} {es fs : List Expr} (hts : DerivesArgs ts es)
    (hes : es ≠ []) (hus : DerivesArgs us fs) (hfs : fs ≠ []) :
    DerivesArgs (ts ++ .comma :: us) (es ++ fs) := by
  match hus with
  | .none => exact absurd rfl hfs
  | .one h => exact .more hts hes h
  | .more h hne he =>
    have hfirst := derivesArgs_append hts hes h hne
    have hmore := DerivesArgs.more hfirst (by simp [hes]) he
    simpa using hmore

theorem derivesArgs_intercalate {tss : List (List Token)} {es : List Expr}
    (h : List.Forall₂ (Derives (.binary .or)) tss es) :
    DerivesArgs ([Token.comma].intercalate tss) es := by
  induction h with
  | nil => exact .none
  | @cons ts e tss es hhead htail ih =>
    cases htail with
    | nil =>
      rw [List.intercalate_singleton]
      exact .one hhead
    | cons hsecond hrest =>
      rw [List.intercalate_cons_cons, List.append_assoc]
      exact derivesArgs_append (.one hhead) (List.cons_ne_nil _ _) ih (List.cons_ne_nil _ _)

theorem closed_not {p : Chunk} {ts : List Token} (h : p.closed = some ts) :
    Chunk.closed (.not :: p.1, p.2) = some (.not :: ts) := by
  unfold Chunk.closed at h ⊢
  split at h
  case isTrue hopen =>
    rw [if_pos hopen]
    exact congrArg (fun ts => some (Token.not :: ts)) (Option.some.inj h)
  case isFalse hopen =>
    obtain ⟨n, hn, rfl⟩ := Option.map_eq_some_iff.mp h
    rw [if_neg hopen, hn]
    rfl

/-- A number that is recovered is the token that is read of it. -/
theorem closed_number {n : F64} (h : parseNumber (formatNumber n) = n) :
    (literalChunk (.number n)).closed = some [.numberLit n] := by
  show Chunk.closed (if _ then _ else if _ then _ else _) = _
  split
  case isTrue hnan =>
    rw [hnan] at h
    have hn : n = nanBits := h.symm.trans (by decide +kernel)
    rw [hn]
    rfl
  case isFalse hnan =>
    split
    case isTrue hinf =>
      rw [hinf] at h
      have hn : n = infinityBits := h.symm.trans (by decide +kernel)
      rw [hn]
      rfl
    case isFalse hinf =>
      have htext := (formatNumber_cases n).resolve_left hnan |>.resolve_left hinf
      unfold Chunk.closed
      rw [if_neg htext.ne_nil]
      unfold parseNumber at h
      split at h
      case h_1 n' hparse =>
        rw [h] at hparse
        rw [hparse]
        rfl
      case h_2 =>
        -- what is no number is read as NaN, which prints as a word
        exact absurd (by rw [← h]; decide +kernel) hnan

/-- What a tree prints derives it, with the one form for the two accesses; what is neither a
    negation nor a literal is derived as the object of an access, and leaves no number open. -/
def Rederived (e : Expr) : Prop :=
  ∃ ts, (lexed e).bind Chunk.closed = some ts ∧ Derives .unary ts (canon e) ∧
    (e.selfContained = true → lexed e = some (ts, []) ∧ Derives .access ts (canon e))

theorem rederived_of_access {e : Expr} (ts : List Token) (hlexed : lexed e = some (ts, []))
    (h : Derives .access ts (canon e)) : Rederived e :=
  ⟨ts, by rw [hlexed]; rfl, .postfixed (.access h), fun _ => ⟨hlexed, h⟩⟩

theorem Rederived.object {e : Expr} (h : Rederived e) (hself : e.selfContained = true) :
    ∃ ts, lexed e = some (ts, []) ∧ Derives .access ts (canon e) := by
  obtain ⟨ts, -, -, haccess⟩ := h
  exact ⟨ts, haccess hself⟩

theorem rederived_literal {value : ExprValue} (hwritten : Written (.literal value))
    (hrecovered : Recovered (.literal value)) : Rederived (.literal value) := by
  have hclosed : ∃ tok,
      (literalChunk value).closed = some [tok] ∧ literalValue tok = some value := by
    cases value with
    | number n => exact ⟨.numberLit n, closed_number (of_decide_eq_true hrecovered), rfl⟩
    | null => exact ⟨.null, rfl, rfl⟩
    | bool b => exact ⟨.boolLit b, rfl, rfl⟩
    | string text => exact ⟨.stringLit text, rfl, rfl⟩
    | array values => cases hwritten
    | object entries => cases hwritten
  obtain ⟨tok, hclosed, htok⟩ := hclosed
  exact ⟨[tok], hclosed, .postfixed (.literal htok), fun hself => by cases hself⟩

theorem rederived_property {object : Expr} {key : Str} (h : Rederived object)
    (hself : object.selfContained = true) : ∃ ts,
      (lexed object).map (Chunk.accessed ('.' :: key) [.dot, .ident key]) = some (ts, []) ∧
      Derives .access ts (.propertyAccess (canon object) key) := by
  obtain ⟨ts, hlexed, hderives⟩ := h.object hself
  exact ⟨ts ++ [Token.dot, Token.ident key], by rw [hlexed]; rfl, .property hderives⟩

theorem rederived_args {args : List Expr} (h : ∀ arg ∈ args, Rederived arg) : ∃ tss,
    lexedArgs args = some tss ∧ List.Forall₂ (Derives (.binary .or)) tss (canonArgs args) := by
  induction args with
  | nil => exact ⟨[], rfl, .nil⟩
  | cons arg args ih =>
    rw [List.forall_mem_cons] at h
    obtain ⟨ts, hclosed, hderives, -⟩ := h.1
    obtain ⟨tss, htss, hall⟩ := ih h.2
    refine ⟨ts :: tss, ?_, .cons (derives_or hderives) hall⟩
    rw [lexedArgs, hclosed, htss]
    rfl

/-- By induction on the tree, whose accesses reach no negation and no literal. -/
theorem rederived {e : Expr} (hwritten : Written e) (hrecovered : Recovered e)
    (hreached : Reached e) : Rederived e := by
  unfold Written at hwritten
  unfold Recovered at hrecovered
  unfold Reached at hreached
  induction e using Expr.induct with
  | literal value => exact rederived_literal hwritten hrecovered
  | context name => exact rederived_of_access _ rfl .name
  | propertyAccess object property ih =>
    obtain ⟨-, hwritten⟩ := Bool.and_eq_true_iff.mp hwritten
    obtain ⟨-, hrecovered⟩ := Bool.and_eq_true_iff.mp hrecovered
    obtain ⟨hself, hreached⟩ := Bool.and_eq_true_iff.mp hreached
    obtain ⟨ts, hlexed, hderives⟩ := rederived_property (ih hwritten hrecovered hreached) hself
    exact rederived_of_access ts hlexed hderives
  | indexAccess object index ihObject ihIndex =>
    simp only [Expr.all, Bool.and_eq_true] at hwritten hrecovered hreached
    have hobject := ihObject hwritten.2.1 hrecovered.2.1 hreached.2.1
    cases hkey : keywordIndex index with
    | some key =>
      obtain ⟨ts, hlexed, hderives⟩ := rederived_property hobject hreached.1
      refine rederived_of_access ts ?_ ?_
      · rw [lexed, hkey]
        exact hlexed
      · rw [canon, hkey]
        exact hderives
    | none =>
      obtain ⟨ts, hlexed, hderives⟩ := hobject.object hreached.1
      obtain ⟨us, hclosed, hindex, -⟩ := ihIndex hwritten.2.2 hrecovered.2.2 hreached.2.2
      refine rederived_of_access (ts ++ Token.lBracket :: (us ++ [Token.rBracket])) ?_ ?_
      · rw [lexed, hkey, hlexed, hclosed]
        rfl
      · rw [canon, hkey]
        exact .index hderives (derives_or hindex)
  | wildcardAccess object ih =>
    simp only [Expr.all, Bool.and_eq_true] at hwritten hrecovered hreached
    obtain ⟨ts, hlexed, hderives⟩ := (ih hwritten.2 hrecovered.2 hreached.2).object hreached.1
    refine rederived_of_access (ts ++ [Token.dot, Token.star]) ?_ (.dotStar hderives)
    rw [lexed, hlexed]
    rfl
  | functionCall name args ih =>
    simp only [Expr.all, Bool.and_eq_true, Expr.allArgs_eq_true_iff] at hwritten hrecovered hreached
    obtain ⟨tss, htss, hall⟩ := rederived_args fun arg harg =>
      ih arg harg (hwritten.2 arg harg) (hrecovered.2 arg harg) (hreached.2 arg harg)
    refine rederived_of_access _ ?_ (.call (derivesArgs_intercalate hall))
    rw [lexed, htss]
    rfl
  | unaryOp op operand ih =>
    simp only [Expr.all, Bool.and_eq_true] at hwritten hrecovered hreached
    obtain ⟨ts, hclosed, hderives, -⟩ := ih hwritten.2 hrecovered.2 hreached.2
    obtain ⟨p, hp, hclosed⟩ := Option.bind_eq_some_iff.mp hclosed
    refine ⟨.not :: ts, ?_, .not hderives, fun hself => by cases hself⟩
    rw [lexed, hp]
    exact closed_not hclosed
  | binaryOp op left right ihLeft ihRight =>
    simp only [Expr.all, Bool.and_eq_true] at hwritten hrecovered hreached
    obtain ⟨ts, hts, hleft, -⟩ := ihLeft hwritten.2.1 hrecovered.2.1 hreached.2.1
    obtain ⟨us, hus, hright, -⟩ := ihRight hwritten.2.2 hrecovered.2.2 hreached.2.2
    have hgroup := Derives.group (derives_operator op hleft hright)
    refine rederived_of_access _ ?_ hgroup
    rw [lexed, hts, hus]
    simp

/-! ### What any derivation of the printed tokens is -/

/-- Whether a name stood last, and the open brackets, innermost first.  A bracket of a group asks
    for an operator directly within it; the others have what they ask for. -/
abbrev Brackets := Bool × List Bool

def isOperator : Token → Bool
  | .or | .and | .eq | .neq | .lt | .le | .gt | .ge => true
  | _ => false

/-- One token; `none` at a group without an operator. -/
def bracketStep : Brackets → Token → Option Brackets
  | (called, stack), .lParen => some (false, called :: stack)
  | (_, stack), .lBracket => some (false, true :: stack)
  | (_, true :: stack), .rParen | (_, true :: stack), .rBracket => some (false, stack)
  | _, .rParen | _, .rBracket => none
  | (_, stack), .ident _ => some (true, stack)
  | (_, stack), tok => some (false, if isOperator tok then true :: stack.tail else stack)

def brackets (state : Brackets) (ts : List Token) : Option Brackets := ts.foldlM bracketStep state

section Scan

variable {ts us : List Token} {stack : List Bool} {state state' : Brackets}

theorem brackets_append (state : Brackets) (ts us : List Token) :
    brackets state (ts ++ us) = (brackets state ts).bind fun state => brackets state us :=
  List.foldlM_append ..

theorem brackets_cons (state : Brackets) (tok : Token) (ts : List Token) :
    brackets state (tok :: ts) = (bracketStep state tok).bind fun state => brackets state ts :=
  List.foldlM_cons ..

/-- Nothing is opened that is not closed, and no operator stands outside of all brackets. -/
def Enclosed (ts : List Token) : Prop :=
  ∀ stack, ∃ called, brackets (false, stack) ts = some (called, stack)

theorem enclosed_nil : Enclosed [] := fun _ => ⟨false, rfl⟩

/-- One more token that is neither a bracket nor an operator. -/
theorem Enclosed.concat {tok : Token} (h : Enclosed ts) (called : Bool)
    (htok : ∀ state, bracketStep state tok = some (called, state.2)) : Enclosed (ts ++ [tok]) := by
  intro stack
  obtain ⟨called', hts⟩ := h stack
  refine ⟨called, ?_⟩
  rw [brackets_append, hts, Option.bind_some, brackets_cons, htok]
  rfl

theorem Enclosed.append (h : Enclosed ts) {tok : Token}
    (htok : ∀ state, bracketStep state tok = some (false, state.2)) (h' : Enclosed us) :
    Enclosed (ts ++ tok :: us) := by
  intro stack
  obtain ⟨called, hts⟩ := h stack
  obtain ⟨called', hus⟩ := h' stack
  refine ⟨called', ?_⟩
  rw [brackets_append, hts, Option.bind_some, brackets_cons, htok, Option.bind_some, hus]

theorem enclosed_closed {r : Option Chunk} (h : ∀ p, r = some p → Enclosed p.1)
    (hts : r.bind Chunk.closed = some ts) : Enclosed ts := by
  obtain ⟨p, hp, hclosed⟩ := Option.bind_eq_some_iff.mp hts
  have henclosed := h p hp
  unfold Chunk.closed at hclosed
  split at hclosed
  case isTrue =>
    obtain rfl := Option.some.inj hclosed
    exact henclosed
  case isFalse =>
    obtain ⟨n, -, rfl⟩ := Option.map_eq_some_iff.mp hclosed
    exact henclosed.concat false fun _ => rfl

theorem enclosed_accessed {tail : Str} {toks : List Token} {p : Chunk} (h : Enclosed p.1)
    (htoks : Enclosed (p.1 ++ toks)) : Enclosed (p.accessed tail toks).1 := by
  unfold Chunk.accessed
  split
  · exact htoks
  · exact h

theorem enclosed_property {r : Option Chunk} (h : ∀ p, r = some p → Enclosed p.1) {key : Str}
    {p : Chunk} (hp : r.map (Chunk.accessed ('.' :: key) [.dot, .ident key]) = some p) : Enclosed p.1 := by
  obtain ⟨q, hq, rfl⟩ := Option.map_eq_some_iff.mp hp
  have hident : Enclosed [Token.ident key] := enclosed_nil.concat true fun _ => rfl
  exact enclosed_accessed (h q hq) ((h q hq).append (fun _ => rfl) hident)

/-- The operator within the brackets of a group is what the group asks for. -/
theorem enclosed_group {op : BinaryOperator} (h : Enclosed ts) (h' : Enclosed us) :
    Enclosed (.lParen :: (ts ++ operatorToken op :: (us ++ [.rParen]))) := by
  intro stack
  obtain ⟨called, hts⟩ := h (false :: stack)
  obtain ⟨called', hus⟩ := h' (true :: stack)
  have hop :
      bracketStep (called, false :: stack) (operatorToken op) = some (false, true :: stack) := by
    cases op <;> rfl
  refine ⟨false, ?_⟩
  show brackets (false, false :: stack) _ = _
  rw [brackets_append, hts, Option.bind_some, brackets_cons, hop, Option.bind_some,
    brackets_append, hus]
  rfl

theorem enclosed_index (h : Enclosed ts) (h' : Enclosed us) :
    Enclosed (ts ++ Token.lBracket :: (us ++ [Token.rBracket])) := by
  intro stack
  obtain ⟨called, hts⟩ := h stack
  obtain ⟨called', hus⟩ := h' (true :: stack)
  refine ⟨false, ?_⟩
  rw [brackets_append, hts, Option.bind_some, brackets_cons]
  show brackets (false, true :: stack) _ = _
  rw [brackets_append, hus]
  rfl

theorem enclosed_args {args : List Expr}
    (h : ∀ arg ∈ args, ∀ p, lexed arg = some p → Enclosed p.1) {tss : List (List Token)}
    (htss : lexedArgs args = some tss) : Enclosed ([Token.comma].intercalate tss) := by
  induction args generalizing tss with
  | nil =>
    obtain rfl := Option.some.inj htss
    exact enclosed_nil
  | cons arg args ih =>
    rw [List.forall_mem_cons] at h
    obtain ⟨ts, hts, htss⟩ := Option.bind_eq_some_iff.mp htss
    obtain ⟨uss, huss, htss⟩ := Option.bind_eq_some_iff.mp htss
    obtain rfl := Option.some.inj htss
    have hhead := enclosed_closed h.1 hts
    have htail := ih h.2 huss
    cases uss with
    | nil =>
      rw [List.intercalate_singleton]
      exact hhead
    | cons us uss =>
      rw [List.intercalate_cons_cons, List.append_assoc]
      exact hhead.append (fun _ => rfl) htail

/-- Printed trees are enclosed: every operator is printed in brackets of its own. -/
theorem enclosed_lexed (e : Expr) : ∀ p, lexed e = some p → Enclosed p.1 := by
  induction e using Expr.induct with
  | literal value =>
    intro p hp
    obtain rfl := Option.some.inj hp
    have hone {tok : Token} (htok : ∀ state, bracketStep state tok = some (false, state.2)) :
        Enclosed [tok] := enclosed_nil.concat false htok
    cases value with
    | number n =>
      show Enclosed (if _ then _ else if _ then _ else _ : Chunk).1
      split
      case isTrue => exact hone fun _ => rfl
      case isFalse =>
        split
        case isTrue => exact hone fun _ => rfl
        case isFalse => exact enclosed_nil
    | _ => exact hone fun _ => rfl
  | context name =>
    intro p hp
    obtain rfl := Option.some.inj hp
    exact enclosed_nil.concat true fun _ => rfl
  | propertyAccess object property ih => exact fun p hp => enclosed_property ih hp
  | indexAccess object index ihObject ihIndex =>
    intro p hp
    rw [lexed] at hp
    split at hp
    case h_1 key _ => exact enclosed_property ihObject hp
    case h_2 =>
      obtain ⟨ts, hts, hp⟩ := Option.bind_eq_some_iff.mp hp
      obtain ⟨us, hus, hp⟩ := Option.bind_eq_some_iff.mp hp
      obtain rfl := Option.some.inj hp
      exact enclosed_index (enclosed_closed ihObject hts) (enclosed_closed ihIndex hus)
  | wildcardAccess object ih =>
    intro p hp
    obtain ⟨q, hq, rfl⟩ := Option.map_eq_some_iff.mp hp
    have hstar : Enclosed [Token.star] := enclosed_nil.concat false fun _ => rfl
    exact enclosed_accessed (ih q hq) ((ih q hq).append (fun _ => rfl) hstar)
  | functionCall name args ih =>
    intro p hp
    obtain ⟨tss, htss, hp⟩ := Option.bind_eq_some_iff.mp hp
    obtain rfl := Option.some.inj hp
    intro stack
    obtain ⟨called, hargs⟩ := enclosed_args ih htss (true :: stack)
    refine ⟨false, ?_⟩
    show brackets (false, true :: stack) _ = _
    rw [brackets_append, hargs]
    rfl
  | unaryOp op operand ih =>
    intro p hp
    obtain ⟨q, hq, rfl⟩ := Option.map_eq_some_iff.mp hp
    exact enclosed_nil.append (fun _ => rfl) (ih q hq)
  | binaryOp op left right ihLeft ihRight =>
    intro p hp
    obtain ⟨ts, hts, hp⟩ := Option.bind_eq_some_iff.mp hp
    obtain ⟨us, hus, hp⟩ := Option.bind_eq_some_iff.mp hp
    obtain rfl := Option.some.inj hp
    exact enclosed_group (enclosed_closed ihLeft hts) (enclosed_closed ihRight hus)

theorem brackets_split {tok : Token} (h : brackets state (ts ++ tok :: us) = some state') :
    ∃ middle next, brackets state ts = some middle ∧ bracketStep middle tok = some next ∧
      brackets next us = some state' := by
  rw [brackets_append] at h
  obtain ⟨middle, hmiddle, h⟩ := Option.bind_eq_some_iff.mp h
  rw [brackets_cons] at h
  obtain ⟨next, hnext, h⟩ := Option.bind_eq_some_iff.mp h
  exact ⟨middle, next, hmiddle, hnext, h⟩

/-- What the brackets are behind a derivation: only the operators of a binary one show, and a group
    is never around a negation or a literal. -/
def Outcome : Symbol → Expr → List Bool → List Bool → Prop
  | .binary _, e, before, after =>
    after = before ∨ after = true :: before.tail ∧ e.selfContained = true
  | .access, e, before, after => after = before ∧ e.selfContained = true
  | _, _, before, after => after = before

theorem bracketStep_operator {level : BinaryLevel} {tok : Token} {op : BinaryOperator}
    (h : level.operator tok = some op) (state : Brackets) :
    bracketStep state tok = some (false, true :: state.2.tail) := by
  cases level with
  | or =>
    simp only [BinaryLevel.operator] at h
    split at h
    case isTrue htok =>
      rw [htok]
      rfl
    case isFalse => cases h
  | and =>
    simp only [BinaryLevel.operator] at h
    split at h
    case isTrue htok =>
      rw [htok]
      rfl
    case isFalse => cases h
  | equality => cases tok <;> first | rfl | cases h
  | comparison => cases tok <;> first | rfl | cases h

theorem Outcome.operand {level : BinaryLevel} {e : Expr} {before after : List Bool}
    (h : Outcome level.operand e before after) : Outcome (.binary level) e before after := by
  cases level with
  | comparison => exact .inl h
  | _ => exact h

theorem Outcome.tail {level : BinaryLevel} {e : Expr} {before after : List Bool}
    (h : Outcome (.binary level) e before after) : after.tail = before.tail := by
  rcases h with rfl | ⟨rfl, -⟩ <;> rfl

/-- Within brackets that ask for nothing. -/
theorem Outcome.satisfied {level : BinaryLevel} {e : Expr} {after : List Bool}
    (h : Outcome (.binary level) e (true :: stack) after) : after = true :: stack := by
  rcases h with rfl | ⟨rfl, -⟩ <;> rfl

/-- A group that is closed has had its operator. -/
theorem bracketStep_rParen (h : bracketStep state .rParen = some state') :
    ∃ stack, state.2 = true :: stack ∧ state' = (false, stack) := by
  obtain ⟨called, stack⟩ := state
  match stack with
  | true :: stack => exact ⟨stack, rfl, (Option.some.inj h).symm⟩
  | false :: stack => cases h
  | [] => cases h

end Scan

mutual

theorem reached_of_derives {sym : Symbol} {ts : List Token} {e : Expr} (h : Derives sym ts e)
    {stack : List Bool} {state : Brackets} (hbrackets : brackets (false, stack) ts = some state) :
    Reached e ∧ Outcome sym e stack state.2 := by
  match h with
  | @Derives.operand level ts e h =>
    obtain ⟨hreached, houtcome⟩ := reached_of_derives h hbrackets
    refine ⟨hreached, ?_⟩
    cases level with
    | comparison => exact .inl houtcome
    | _ => exact houtcome
  | @Derives.binary level ts us tok op l r hl hop hr =>
    obtain ⟨middle, next, hmiddle, hnext, hbrackets⟩ := brackets_split hbrackets
    obtain ⟨hleft, hafter⟩ := reached_of_derives hl hmiddle
    rw [bracketStep_operator hop] at hnext
    obtain rfl := Option.some.inj hnext
    obtain ⟨hright, hafter'⟩ := reached_of_derives hr hbrackets
    have hnode := Bool.and_eq_true_iff.mpr ⟨hleft, hright⟩
    refine ⟨Bool.and_eq_true_iff.mpr ⟨rfl, hnode⟩, .inr ⟨?_, rfl⟩⟩
    rw [hafter'.operand.satisfied, hafter.tail]
  | .not h =>
    obtain ⟨hreached, houtcome⟩ := reached_of_derives h hbrackets
    exact ⟨Bool.and_eq_true_iff.mpr ⟨rfl, hreached⟩, houtcome⟩
  | .postfixed h => exact reached_of_derives h hbrackets
  | @Derives.literal tok value h =>
    refine ⟨rfl, ?_⟩
    unfold literalValue at h
    split at h
    all_goals first | (cases hbrackets; rfl) | cases h
  | .access h =>
    obtain ⟨hreached, houtcome⟩ := reached_of_derives h hbrackets
    exact ⟨hreached, houtcome.1⟩
  | @Derives.group ts e h =>
    have hbrackets : brackets (false, false :: stack) (ts ++ [.rParen]) = some state := hbrackets
    obtain ⟨middle, next, hmiddle, hnext, hbrackets⟩ := brackets_split hbrackets
    obtain rfl := Option.some.inj hbrackets
    obtain ⟨hreached, houtcome⟩ := reached_of_derives h hmiddle
    obtain ⟨stack', hstack, rfl⟩ := bracketStep_rParen hnext
    -- the brackets of a group are closed behind an operator only
    rcases houtcome with hsame | ⟨hafter, hself⟩
    · rw [hsame] at hstack
      cases hstack
    · rw [hafter] at hstack
      exact ⟨hreached, (List.cons.inj hstack).2.symm, hself⟩
  | @Derives.call ts name args h =>
    have hbrackets : brackets (false, true :: stack) (ts ++ [.rParen]) = some state := hbrackets
    obtain ⟨middle, next, hmiddle, hnext, hbrackets⟩ := brackets_split hbrackets
    obtain rfl := Option.some.inj hbrackets
    obtain ⟨hreached, hafter⟩ := reached_of_derivesArgs h hmiddle
    obtain ⟨stack', hstack, rfl⟩ := bracketStep_rParen hnext
    rw [hafter] at hstack
    exact ⟨Bool.and_eq_true_iff.mpr ⟨rfl, Expr.allArgs_eq_true_iff.mpr hreached⟩,
      (List.cons.inj hstack).2.symm, rfl⟩
  | .name =>
    obtain rfl := Option.some.inj hbrackets
    exact ⟨rfl, rfl, rfl⟩
  | .property h =>
    obtain ⟨middle, next, hmiddle, hnext, hbrackets⟩ := brackets_split hbrackets
    obtain ⟨hreached, hafter, hself⟩ := reached_of_derives h hmiddle
    obtain rfl := Option.some.inj hnext
    obtain rfl := Option.some.inj hbrackets
    exact ⟨Bool.and_eq_true_iff.mpr ⟨hself, hreached⟩, hafter, rfl⟩
  | .dotStar h =>
    obtain ⟨middle, next, hmiddle, hnext, hbrackets⟩ := brackets_split hbrackets
    obtain ⟨hreached, hafter, hself⟩ := reached_of_derives h hmiddle
    obtain rfl := Option.some.inj hnext
    obtain rfl := Option.some.inj hbrackets
    exact ⟨Bool.and_eq_true_iff.mpr ⟨hself, hreached⟩, hafter, rfl⟩
  | .bracketStar h =>
    obtain ⟨middle, next, hmiddle, hnext, hbrackets⟩ := brackets_split hbrackets
    obtain ⟨hreached, hafter, hself⟩ := reached_of_derives h hmiddle
    obtain rfl := Option.some.inj hnext
    obtain rfl := Option.some.inj hbrackets
    exact ⟨Bool.and_eq_true_iff.mpr ⟨hself, hreached⟩, hafter, rfl⟩
  | .index h hi =>
    obtain ⟨middle, next, hmiddle, hnext, hbrackets⟩ := brackets_split hbrackets
    obtain ⟨hreached, hafter, hself⟩ := reached_of_derives h hmiddle
    obtain rfl := Option.some.inj hnext
    obtain ⟨middle', next', hmiddle', hnext', hbrackets⟩ := brackets_split hbrackets
    obtain ⟨hindex, houtcome⟩ := reached_of_derives hi hmiddle'
    obtain ⟨called, stack'⟩ := middle'
    obtain rfl : stack' = true :: middle.2 := houtcome.satisfied
    obtain rfl := Option.some.inj hnext'
    obtain rfl := Option.some.inj hbrackets
    have hnode := Bool.and_eq_true_iff.mpr ⟨hreached, hindex⟩
    exact ⟨Bool.and_eq_true_iff.mpr ⟨hself, hnode⟩, hafter, rfl⟩

theorem reached_of_derivesArgs {ts : List Token} {es : List Expr} (h : DerivesArgs ts es)
    {stack : List Bool} {state : Brackets}
    (hbrackets : brackets (false, true :: stack) ts = some state) :
    (∀ e ∈ es, Reached e) ∧ state.2 = true :: stack := by
  match h with
  | .none =>
    obtain rfl := Option.some.inj hbrackets
    exact ⟨fun e he => absurd he List.not_mem_nil, rfl⟩
  | .one h =>
    obtain ⟨hreached, houtcome⟩ := reached_of_derives h hbrackets
    exact ⟨List.forall_mem_singleton.mpr hreached, houtcome.satisfied⟩
  | .more h hne he =>
    obtain ⟨middle, next, hmiddle, hnext, hbrackets⟩ := brackets_split hbrackets
    obtain ⟨hreached, hafter⟩ := reached_of_derivesArgs h hmiddle
    obtain rfl := Option.some.inj hnext
    have hbrackets : brackets (false, middle.2) _ = some state := hbrackets
    rw [hafter] at hbrackets
    obtain ⟨hlast, houtcome⟩ := reached_of_derives he hbrackets
    refine ⟨?_, houtcome.satisfied⟩
    rw [List.forall_mem_append]
    exact ⟨hreached, List.forall_mem_singleton.mpr hlast⟩

end

/-! ### The round trip -/

/-- **Printing keeps the tree exactly where no access reaches into a negation or a literal.** -/
theorem unparse_exact {s : Str} {e : Expr} (hparse : parse debug s = .ok e)
    (hrecovered : Recovered e) :
    (∃ e', parse debug (toExpression e) = .ok e' ∧ canon e' = canon e) ↔ Reached e := by
  have hwritten := written_of_parse hparse
  constructor
  · rintro ⟨e', hparse', hcanon⟩
    obtain ⟨ts, hts, hderives⟩ := (parse_toExpression hwritten).mp hparse'
    obtain ⟨called, hbrackets⟩ := enclosed_closed (enclosed_lexed e) hts []
    have hreached := (reached_of_derives hderives hbrackets).1
    rw [← reached_canon, hcanon, reached_canon] at hreached
    exact hreached
  · intro hreached
    obtain ⟨ts, hts, hderives, -⟩ := rederived hwritten hrecovered hreached
    exact ⟨canon e, (parse_toExpression hwritten).mpr ⟨ts, hts, derives_or hderives⟩, canon_canon e⟩

/-- A tree with every kind of node that prints in more than one piece. -/
def nestedTree : Expr :=
  .binaryOp .and
    (.unaryOp .not (.indexAccess (.functionCall "f".toList
      [.indexAccess (.context "a".toList) (.literal (.string "k".toList)),
        .literal (.string "it's".toList)]) (.context "x".toList)))
    (.binaryOp .or (.propertyAccess (.context "b".toList) "true".toList)
      (.literal (.number 0x3FF8000000000000)))

theorem unparse_exact_nested :
    ∃ e', parse (fun _ => []) (toExpression nestedTree) = .ok e' ∧ canon e' = canon nestedTree := by
  have hparse : parse (fun _ => []) "!f(a['k'], 'it''s')[x] && (b.true || 1.50)".toList =
      .ok nestedTree := by
    refine parse_eq_ok_iff.mpr ⟨[.not, .ident "f".toList, .lParen, .ident "a".toList, .lBracket,
      .stringLit "k".toList, .rBracket, .comma, .stringLit "it's".toList, .rParen, .lBracket,
      .ident "x".toList, .rBracket, .and, .lParen, .ident "b".toList, .dot, .ident "true".toList,
      .or, .numberLit 0x3FF8000000000000, .rParen], by decide +kernel, ?_⟩
    exact parseTokens_eq_ok_iff.mp rfl
  exact (unparse_exact hparse (by decide)).mpr (by decide)

/-- The negation of `(!a).b` is printed without its brackets, and takes the access into it. -/
theorem negation_swallows_access :
    ¬ ∀ (s : Str) (e : Expr), parse (fun _ => []) s = .ok e → Recovered e →
      ∃ e', parse (fun _ => []) (toExpression e) = .ok e' ∧ canon e' = canon e := by
  intro h
  have hparse : parse (fun _ => []) "(!a).b".toList =
      .ok (.propertyAccess (.unaryOp .not (.context "a".toList)) "b".toList) := by
    refine parse_eq_ok_iff.mpr ⟨[.lParen, .not, .ident "a".toList, .rParen, .dot,
      .ident "b".toList], by decide, ?_⟩
    exact derives_or (.postfixed (.access (.property (.group (derives_or (.not
      (.postfixed (.access .name))))))))
  have hprinted : parse (fun _ => []) "!a.b".toList =
      .ok (.unaryOp .not (.propertyAccess (.context "a".toList) "b".toList)) := by
    refine parse_eq_ok_iff.mpr ⟨[.not, .ident "a".toList, .dot, .ident "b".toList],
      by decide, ?_⟩
    exact derives_or (.not (.postfixed (.access (.property .name))))
  obtain ⟨e', hparse', hcanon⟩ := h _ _ hparse (by decide)
  obtain rfl := Except.ok.inj (hprinted.symm.trans hparse')
  cases hcanon

end GhRunner.Expressions
