import GhRunner.Expressions.Parser

namespace GhRunner.Expressions

open Text Descent

/-!
# The grammar of expressions, and that the parser accepts exactly it

* `Derives`, `DerivesArgs` — the grammar with the tree of each derivation: the operators of one level
  and the accesses to one object group to the left;
* `reads_parseUnary` — soundness, by induction on the depth of the recursion;
* `Completes`, `completes_of_derives` — completeness, by induction on the derivation: on the tokens
  of a derivation, followed by whatever cannot continue it, a parser comes to the loop of its level
  with the tree of the derivation;
* `parse_exact` — both, and the uniqueness of the tree.
-/

/-- What a token list can be derived as. -/
inductive Symbol
  | binary (level : BinaryLevel)
  | unary
  | postfixed
  /-- A group, a call or a name, with the accesses behind it. -/
  | access
deriving DecidableEq, Repr

/-- What the operators of a level stand between. -/
def BinaryLevel.operand : BinaryLevel → Symbol
  | .or => .binary .and
  | .and => .binary .equality
  | .equality => .binary .comparison
  | .comparison => .unary

def literalValue : Token → Option ExprValue
  | .null => some .null
  | .boolLit b => some (.bool b)
  | .numberLit n => some (.number n)
  | .stringLit s => some (.string s)
  | _ => none

mutual

/-- The token list is derivable as the symbol, with this tree. -/
inductive Derives : Symbol → List Token → Expr → Prop
  | operand {level : BinaryLevel} {ts : List Token} {e : Expr}
      (h : Derives level.operand ts e) : Derives (.binary level) ts e
  | binary {level : BinaryLevel} {ts us : List Token} {tok : Token} {op : BinaryOperator}
      {l r : Expr} (hl : Derives (.binary level) ts l) (hop : level.operator tok = some op)
      (hr : Derives level.operand us r) :
      Derives (.binary level) (ts ++ tok :: us) (.binaryOp op l r)
  | not {ts : List Token} {e : Expr} (h : Derives .unary ts e) :
      Derives .unary (.not :: ts) (.unaryOp .not e)
  | postfixed {ts : List Token} {e : Expr} (h : Derives .postfixed ts e) : Derives .unary ts e
  | literal {tok : Token} {value : ExprValue} (h : literalValue tok = some value) :
      Derives .postfixed [tok] (.literal value)
  | access {ts : List Token} {e : Expr} (h : Derives .access ts e) : Derives .postfixed ts e
  | group {ts : List Token} {e : Expr} (h : Derives (.binary .or) ts e) :
      Derives .access (.lParen :: (ts ++ [.rParen])) e
  | call {ts : List Token} {name : Str} {args : List Expr} (h : DerivesArgs ts args) :
      Derives .access (.ident name :: .lParen :: (ts ++ [.rParen])) (.functionCall name args)
  | name {name : Str} : Derives .access [.ident name] (.context name)
  | property {ts : List Token} {e : Expr} {name : Str} (h : Derives .access ts e) :
      Derives .access (ts ++ [.dot, .ident name]) (.propertyAccess e name)
  | dotStar {ts : List Token} {e : Expr} (h : Derives .access ts e) :
      Derives .access (ts ++ [.dot, .star]) (.wildcardAccess e)
  | bracketStar {ts : List Token} {e : Expr} (h : Derives .access ts e) :
      Derives .access (ts ++ [.lBracket, .star, .rBracket]) (.wildcardAccess e)
  | index {ts us : List Token} {e i : Expr} (h : Derives .access ts e)
      (hi : Derives (.binary .or) us i) :
      Derives .access (ts ++ .lBracket :: (us ++ [.rBracket])) (.indexAccess e i)

/-- The token list is derivable as the arguments of a call. -/
inductive DerivesArgs : List Token → List Expr → Prop
  | none : DerivesArgs [] []
  | one {ts : List Token} {e : Expr} (h : Derives (.binary .or) ts e) : DerivesArgs ts [e]
  | more {ts us : List Token} {es : List Expr} {e : Expr} (h : DerivesArgs ts es) (hne : es ≠ [])
      (he : Derives (.binary .or) us e) : DerivesArgs (ts ++ .comma :: us) (es ++ [e])

end

/-! ### Soundness -/

section Reads

variable {level : BinaryLevel} {operand nested : TokenParser Expr}

theorem binaryStep_eq_ok {l e : Expr} {ts rest : List Token} :
    binaryStep level operand l ts = some (.ok (e, rest)) ↔
      ∃ tok us op r, ts = tok :: us ∧ level.operator tok = some op ∧
        operand us = .ok (r, rest) ∧ e = .binaryOp op l r := by
  unfold binaryStep
  split
  case h_1 => simp
  case h_2 tok us =>
    split
    case h_1 hop => simp [hop]
    case h_2 op hop =>
      rw [Option.some_inj, bind_eq_ok]
      constructor
      · rintro ⟨⟨r, rest'⟩, hr, heq⟩
        obtain ⟨rfl, rfl⟩ := Prod.mk.inj (Except.ok.inj heq)
        exact ⟨tok, us, op, r, rfl, hop, hr, rfl⟩
      · rintro ⟨tok', us', op', r, heq, hop', hr, rfl⟩
        obtain ⟨rfl, rfl⟩ := List.cons.inj heq
        obtain rfl := Option.some.inj (hop.symm.trans hop')
        exact ⟨(r, rest), hr, rfl⟩

theorem consuming_binaryStep {D : List Token → Expr → Prop} (h : Reads D operand) :
    Consuming (binaryStep level operand) := by
  intro l ts e rest hstep
  obtain ⟨tok, us, op, r, rfl, -, hr, -⟩ := (binaryStep_eq_ok).mp hstep
  have := h.length_le hr
  rw [List.length_cons]
  omega

theorem reads_parseLevel (h : Reads (Derives level.operand) operand) :
    Reads (Derives (.binary level)) (parseLevel level operand) := by
  intro ts e rest hp
  obtain ⟨⟨l, us⟩, hl, hloop⟩ := bind_eq_ok.mp hp
  obtain ⟨pre, rfl, hpre⟩ := h hl
  have hround : ∀ pre a ts a' rest, Derives (.binary level) pre a →
      binaryStep level operand a ts = some (.ok (a', rest)) →
      ∃ mid, ts = mid ++ rest ∧ Derives (.binary level) (pre ++ mid) a' := by
    intro pre a ts a' rest ha hstep
    obtain ⟨tok, us, op, r, rfl, hop, hr, rfl⟩ := (binaryStep_eq_ok).mp hstep
    obtain ⟨mid, rfl, hmid⟩ := h hr
    exact ⟨tok :: mid, rfl, .binary ha hop hmid⟩
  obtain ⟨mid, rfl, hmid⟩ := Reads.iterate hround (.operand hpre) hloop
  exact ⟨pre ++ mid, (List.append_assoc ..).symm, hmid⟩

theorem reads_parseOr (h : Reads (Derives .unary) operand) :
    Reads (Derives (.binary .or)) (parseOr operand) :=
  have hcomparison : Reads (Derives (.binary .comparison)) (parseComparison operand) :=
    reads_parseLevel h
  have hequality : Reads (Derives (.binary .equality)) (parseEquality operand) :=
    reads_parseLevel hcomparison
  have hand : Reads (Derives (.binary .and)) (parseAnd operand) := reads_parseLevel hequality
  reads_parseLevel hand

theorem argStep_eq_ok {as es : List Expr} {ts rest : List Token} :
    argStep nested as ts = some (.ok (es, rest)) ↔
      ∃ us e, ts = .comma :: us ∧ nested us = .ok (e, rest) ∧ es = as ++ [e] := by
  unfold argStep
  split
  case h_1 us =>
    rw [Option.some_inj, bind_eq_ok]
    constructor
    · rintro ⟨⟨e, rest'⟩, he, heq⟩
      obtain ⟨rfl, rfl⟩ := Prod.mk.inj (Except.ok.inj heq)
      exact ⟨us, e, rfl, he, rfl⟩
    · rintro ⟨us', e, heq, he, rfl⟩
      obtain ⟨-, rfl⟩ := List.cons.inj heq
      exact ⟨(e, rest), he, rfl⟩
  case h_2 hno =>
    simp only [reduceCtorEq, false_iff]
    rintro ⟨us, e, rfl, -⟩
    exact hno us rfl

theorem consuming_argStep {D : List Token → Expr → Prop} (h : Reads D nested) :
    Consuming (argStep nested) := by
  intro as ts es rest hstep
  obtain ⟨us, e, rfl, he, -⟩ := (argStep_eq_ok).mp hstep
  have := h.length_le he
  rw [List.length_cons]
  omega

theorem reads_parseArgs (h : Reads (Derives (.binary .or)) nested) :
    Reads DerivesArgs (parseArgs nested) := by
  intro ts es rest hp
  unfold parseArgs at hp
  split at hp
  case h_1 us =>
    obtain ⟨rfl, rfl⟩ := Prod.mk.inj (Except.ok.inj hp)
    exact ⟨[], rfl, .none⟩
  case h_2 =>
    obtain ⟨⟨e, us⟩, he, hloop⟩ := bind_eq_ok.mp hp
    obtain ⟨pre, rfl, hpre⟩ := h he
    have hround : ∀ pre a ts a' rest, (DerivesArgs pre a ∧ a ≠ []) →
        argStep nested a ts = some (.ok (a', rest)) →
        ∃ mid, ts = mid ++ rest ∧ DerivesArgs (pre ++ mid) a' ∧ a' ≠ [] := by
      intro pre a ts a' rest ha hstep
      obtain ⟨us, e, rfl, he, rfl⟩ := (argStep_eq_ok).mp hstep
      obtain ⟨mid, rfl, hmid⟩ := h he
      exact ⟨.comma :: mid, rfl, .more ha.1 ha.2 hmid, by simp⟩
    obtain ⟨mid, rfl, hmid⟩ := Reads.iterate hround ⟨.one hpre, by simp⟩ hloop
    exact ⟨pre ++ mid, (List.append_assoc ..).symm, hmid.1⟩

theorem parseDotAccess_eq_ok {object e : Expr} {ts rest : List Token} :
    parseDotAccess object ts = .ok (e, rest) ↔
      (∃ name, ts = .ident name :: rest ∧ e = .propertyAccess object name) ∨
      ts = .star :: rest ∧ e = .wildcardAccess object := by
  unfold parseDotAccess
  split
  case h_1 => simp [eq_comm, and_comm]
  case h_2 => simp [eq_comm, and_comm]
  case h_3 hstar hident =>
    simp only [reduceCtorEq, false_iff]
    rintro (⟨name, rfl, -⟩ | ⟨rfl, -⟩)
    · exact hident name rest rfl
    · exact hstar rest rfl

/-- The four accesses one round of the loop can read. -/
theorem postfixStep_eq_ok {object e : Expr} {ts rest : List Token} :
    postfixStep nested object ts = some (.ok (e, rest)) ↔
      (∃ name, ts = .dot :: .ident name :: rest ∧ e = .propertyAccess object name) ∨
      (ts = .dot :: .star :: rest ∧ e = .wildcardAccess object) ∨
      (ts = .lBracket :: .star :: .rBracket :: rest ∧ e = .wildcardAccess object) ∨
      ∃ us i, ts = .lBracket :: us ∧ us.head? ≠ some .star ∧
        nested us = .ok (i, .rBracket :: rest) ∧ e = .indexAccess object i := by
  unfold postfixStep
  split
  case h_1 us => simp [parseDotAccess_eq_ok]
  case h_2 us =>
    rw [Option.some_inj, bind_eq_ok]
    constructor
    · rintro ⟨us', hclose, heq⟩
      obtain ⟨rfl, rfl⟩ := Prod.mk.inj (Except.ok.inj heq)
      obtain rfl := expectToken_eq_ok.mp hclose
      exact .inr (.inr (.inl ⟨rfl, rfl⟩))
    · rintro (⟨name, heq, -⟩ | ⟨heq, -⟩ | ⟨heq, rfl⟩ | ⟨us', i, heq, hhead, -⟩)
      · cases heq
      · cases heq
      · cases heq
        exact ⟨rest, expectToken_eq_ok.mpr rfl, rfl⟩
      · cases heq
        exact absurd rfl hhead
  case h_3 us hstar =>
    have hhead : us.head? ≠ some Token.star := by
      intro hhead
      obtain ⟨us', rfl⟩ := List.head?_eq_some_iff.mp hhead
      exact hstar us' rfl
    rw [Option.some_inj, bind_eq_ok]
    constructor
    · rintro ⟨⟨i, us'⟩, hi, hrest⟩
      obtain ⟨us'', hclose, heq⟩ := bind_eq_ok.mp hrest
      obtain ⟨rfl, rfl⟩ := Prod.mk.inj (Except.ok.inj heq)
      obtain rfl : us' = Token.rBracket :: us'' := expectToken_eq_ok.mp hclose
      exact .inr (.inr (.inr ⟨us, i, rfl, hhead, hi, rfl⟩))
    · rintro (⟨name, heq, -⟩ | ⟨heq, -⟩ | ⟨heq, -⟩ | ⟨us', i, heq, -, hi, rfl⟩)
      · cases heq
      · cases heq
      · obtain ⟨-, rfl⟩ := List.cons.inj heq
        exact absurd rfl hhead
      · obtain ⟨-, rfl⟩ := List.cons.inj heq
        exact ⟨_, hi, bind_eq_ok.mpr ⟨rest, expectToken_eq_ok.mpr rfl, rfl⟩⟩
  case h_4 hdot hstar hbracket =>
    simp only [reduceCtorEq, false_iff]
    rintro (⟨name, rfl, -⟩ | ⟨rfl, -⟩ | ⟨rfl, -⟩ | ⟨us, i, rfl, -⟩)
    · exact hdot _ rfl
    · exact hdot _ rfl
    · exact hstar _ rfl
    · exact hbracket us rfl

theorem postfixStep_of_not_access {object : Expr} {ts : List Token}
    (h : ts.head?.any Token.opensAccess = false) : postfixStep nested object ts = none := by
  unfold postfixStep
  split
  case h_4 => rfl
  all_goals simp [Token.opensAccess] at h

theorem consuming_postfixStep {D : List Token → Expr → Prop} (h : Reads D nested) :
    Consuming (postfixStep nested) := by
  intro object ts e rest hstep
  rcases (postfixStep_eq_ok).mp hstep with
    ⟨name, rfl, -⟩ | ⟨rfl, -⟩ | ⟨rfl, -⟩ | ⟨us, i, rfl, -, hi, -⟩
  · simp only [List.length_cons]
    omega
  · simp only [List.length_cons]
    omega
  · simp only [List.length_cons]
    omega
  · have := h.length_le hi
    simp only [List.length_cons] at this ⊢
    omega

/-- One round of the access loop reads one access. -/
theorem reads_postfixStep (h : Reads (Derives (.binary .or)) nested) {pre ts rest : List Token}
    {object e : Expr} (hobject : Derives .access pre object)
    (hstep : postfixStep nested object ts = some (.ok (e, rest))) :
    ∃ mid, ts = mid ++ rest ∧ Derives .access (pre ++ mid) e := by
  rcases (postfixStep_eq_ok).mp hstep with
    ⟨name, rfl, rfl⟩ | ⟨rfl, rfl⟩ | ⟨rfl, rfl⟩ | ⟨us, i, rfl, -, hi, rfl⟩
  · exact ⟨[.dot, .ident name], rfl, .property hobject⟩
  · exact ⟨[.dot, .star], rfl, .dotStar hobject⟩
  · exact ⟨[.lBracket, .star, .rBracket], rfl, .bracketStar hobject⟩
  · obtain ⟨mid, rfl, hmid⟩ := h hi
    exact ⟨.lBracket :: (mid ++ [Token.rBracket]), by simp, .index hobject hmid⟩

theorem reads_parseIdentExpr (h : Reads (Derives (.binary .or)) nested) {name : Str}
    {ts rest : List Token} {e : Expr} (hp : parseIdentExpr nested name ts = .ok (e, rest)) :
    ∃ mid, ts = mid ++ rest ∧ Derives .access (.ident name :: mid) e := by
  unfold parseIdentExpr at hp
  split at hp
  case h_1 us =>
    obtain ⟨⟨args, us'⟩, hargs, hrest⟩ := bind_eq_ok.mp hp
    obtain ⟨us'', hclose, heq⟩ := bind_eq_ok.mp hrest
    obtain ⟨rfl, rfl⟩ := Prod.mk.inj (Except.ok.inj heq)
    obtain rfl : us' = Token.rParen :: us'' := expectToken_eq_ok.mp hclose
    obtain ⟨pre, rfl, hpre⟩ := reads_parseArgs h hargs
    exact ⟨.lParen :: (pre ++ [Token.rParen]), by simp, .call hpre⟩
  case h_2 =>
    obtain ⟨rfl, rfl⟩ := Prod.mk.inj (Except.ok.inj hp)
    exact ⟨[], rfl, .name⟩

/-- A primary is a literal, or something an access may follow. -/
theorem reads_parsePrimary (h : Reads (Derives (.binary .or)) nested) {ts rest : List Token}
    {e : Expr} (hp : parsePrimary nested ts = .ok (e, rest)) :
    (∃ tok value, ts = tok :: rest ∧ literalValue tok = some value ∧ e = .literal value) ∨
    ∃ tok us, ts = tok :: (us ++ rest) ∧ tok.isLiteral = false ∧ Derives .access (tok :: us) e := by
  unfold parsePrimary at hp
  split at hp
  case h_5 us =>
    obtain ⟨⟨e', us'⟩, he, hrest⟩ := bind_eq_ok.mp hp
    obtain ⟨us'', hclose, heq⟩ := bind_eq_ok.mp hrest
    obtain ⟨rfl, rfl⟩ := Prod.mk.inj (Except.ok.inj heq)
    obtain rfl : us' = Token.rParen :: us'' := expectToken_eq_ok.mp hclose
    obtain ⟨pre, rfl, hpre⟩ := h he
    exact .inr ⟨.lParen, pre ++ [Token.rParen], by simp, rfl, .group hpre⟩
  case h_6 name us =>
    obtain ⟨mid, rfl, hmid⟩ := reads_parseIdentExpr h hp
    exact .inr ⟨.ident name, mid, rfl, rfl, hmid⟩
  case h_7 => cases hp
  all_goals
    obtain ⟨rfl, rfl⟩ := Prod.mk.inj (Except.ok.inj hp)
    exact .inl ⟨_, _, rfl, rfl, rfl⟩

theorem literalValue_isSome {tok : Token} : (literalValue tok).isSome = tok.isLiteral := by
  cases tok <;> rfl

theorem reads_parsePostfix (h : Reads (Derives (.binary .or)) nested) :
    Reads (Derives .postfixed) (parsePostfix nested) := by
  intro ts e rest hp
  obtain ⟨⟨e₀, us⟩, hprimary, hrest⟩ := bind_eq_ok.mp hp
  split at hrest
  case isTrue => cases hrest
  case isFalse hdirect =>
    rcases reads_parsePrimary h hprimary with ⟨tok, value, rfl, hlit, rfl⟩ | ⟨tok, vs, rfl, -, hvs⟩
    · -- a literal, and nothing that would index it
      have hstop : us.head?.any Token.opensAccess = false := by
        have hliteral : tok.isLiteral = true := by rw [← literalValue_isSome, hlit]; rfl
        simpa [hliteral] using hdirect
      rw [iterate_of_none (postfixStep_of_not_access hstop)] at hrest
      obtain ⟨rfl, rfl⟩ := Prod.mk.inj (Except.ok.inj hrest)
      exact ⟨[tok], rfl, .literal hlit⟩
    · have hround : ∀ pre a ts a' rest, Derives .access pre a →
          postfixStep nested a ts = some (.ok (a', rest)) →
          ∃ mid, ts = mid ++ rest ∧ Derives .access (pre ++ mid) a' :=
        fun _ _ _ _ _ ha hstep => reads_postfixStep h ha hstep
      obtain ⟨mid, rfl, hmid⟩ := Reads.iterate hround hvs hrest
      exact ⟨tok :: vs ++ mid, by simp, .access hmid⟩

end Reads

theorem reads_parseUnary (fuel : ℕ) : Reads (Derives .unary) (parseUnary fuel) := by
  induction fuel with
  | zero =>
    intro ts e rest hp
    cases hp
  | succ fuel ih =>
    intro ts e rest hp
    by_cases hnot : ts.head? = some .not
    · obtain ⟨us, rfl⟩ := List.head?_eq_some_iff.mp hnot
      rw [parseUnary_not] at hp
      obtain ⟨⟨e', us'⟩, he, heq⟩ := bind_eq_ok.mp hp
      obtain ⟨rfl, rfl⟩ := Prod.mk.inj (Except.ok.inj heq)
      obtain ⟨pre, rfl, hpre⟩ := ih he
      exact ⟨.not :: pre, rfl, .not hpre⟩
    · rw [parseUnary_of_head hnot] at hp
      obtain ⟨pre, rfl, hpre⟩ := reads_parsePostfix (reads_parseOr ih) hp
      exact ⟨pre, rfl, .postfixed hpre⟩

/-! ### What a derivation begins with, and what may follow it -/

/-- The token opens a group, a call or a name. -/
def Token.opensObject : Token → Bool
  | .lParen | .ident _ => true
  | _ => false

/-- The tokens a derivation of the symbol can begin with. -/
def Symbol.begins : Symbol → Token → Bool
  | .access, tok => tok.opensObject
  | .postfixed, tok => tok.opensObject || tok.isLiteral
  | .unary, tok | .binary _, tok => tok = .not || (tok.opensObject || tok.isLiteral)

theorem begins_binary (level : BinaryLevel) (tok : Token) :
    Symbol.begins (.binary level) tok = Symbol.begins level.operand tok := by
  cases level <;> rfl

theorem Derives.begins {s : Symbol} {ts : List Token} {e : Expr} (h : Derives s ts e) :
    ∃ tok us, ts = tok :: us ∧ s.begins tok = true := by
  match h with
  | .operand h =>
    obtain ⟨tok, us, rfl, htok⟩ := h.begins
    exact ⟨tok, us, rfl, by rwa [begins_binary]⟩
  | .binary hl _ _ =>
    obtain ⟨tok, us, rfl, htok⟩ := hl.begins
    exact ⟨tok, _, rfl, htok⟩
  | .not _ => exact ⟨.not, _, rfl, rfl⟩
  | .postfixed h =>
    obtain ⟨tok, us, rfl, htok⟩ := h.begins
    exact ⟨tok, us, rfl, Bool.or_eq_true_iff.mpr (.inr htok)⟩
  | @Derives.literal tok _ h =>
    refine ⟨tok, [], rfl, Bool.or_eq_true_iff.mpr (.inr ?_)⟩
    rw [← literalValue_isSome, h]
    rfl
  | .access h =>
    obtain ⟨tok, us, rfl, htok⟩ := h.begins
    exact ⟨tok, us, rfl, Bool.or_eq_true_iff.mpr (.inl htok)⟩
  | .group _ => exact ⟨.lParen, _, rfl, rfl⟩
  | .call _ => exact ⟨.ident _, _, rfl, rfl⟩
  | .name => exact ⟨.ident _, _, rfl, rfl⟩
  | .property h | .dotStar h | .bracketStar h | .index h _ =>
    obtain ⟨tok, us, rfl, htok⟩ := h.begins
    exact ⟨tok, _, rfl, htok⟩

def BinaryLevel.rank : BinaryLevel → ℕ
  | .or => 0
  | .and => 1
  | .equality => 2
  | .comparison => 3

/-- The next token continues nothing that binds at the rank or tighter. -/
def Follow (rank : ℕ) (rest : List Token) : Prop :=
  ∀ tok ∈ rest.head?, tok.opensAccess = false ∧ tok ≠ .lParen ∧
    ∀ (level : BinaryLevel) (op : BinaryOperator), level.operator tok = some op → level.rank < rank

theorem Follow.mono {rank rank' : ℕ} {rest : List Token} (h : Follow rank rest)
    (hle : rank ≤ rank') : Follow rank' rest := fun tok htok =>
  ⟨(h tok htok).1, (h tok htok).2.1, fun level op hop =>
    lt_of_lt_of_le ((h tok htok).2.2 level op hop) hle⟩

theorem Follow.not_access {rank : ℕ} {rest : List Token} (h : Follow rank rest) :
    rest.head?.any Token.opensAccess = false := by
  rcases rest with _ | ⟨tok, rest⟩
  · rfl
  · exact (h tok rfl).1

theorem Follow.head_ne {rank : ℕ} {rest : List Token} (h : Follow rank rest) :
    rest.head? ≠ some .lParen := fun hhead => (h .lParen hhead).2.1 rfl

theorem Follow.binaryStep {level : BinaryLevel} {rest : List Token} (h : Follow level.rank rest)
    (operand : TokenParser Expr) (l : Expr) : binaryStep level operand l rest = none := by
  rcases rest with _ | ⟨tok, rest⟩
  · rfl
  · have hop : level.operator tok = none := by
      apply Option.eq_none_iff_forall_not_mem.mpr
      intro op hop
      exact lt_irrefl _ ((h tok rfl).2.2 level op hop)
    simp only [GhRunner.Expressions.binaryStep, hop]

theorem follow_nil (rank : ℕ) : Follow rank [] := fun tok htok => by cases htok

/-- An operator ends what binds tighter than it. -/
theorem follow_operator {level : BinaryLevel} {tok : Token} {op : BinaryOperator}
    (h : level.operator tok = some op) (rest : List Token) :
    Follow (level.rank + 1) (tok :: rest) := by
  intro tok' htok
  obtain rfl := Option.some.inj htok
  refine ⟨?_, ?_, fun level' op' h' => ?_⟩
  · cases level <;> cases tok <;> first | rfl | cases h
  · rintro rfl
    cases level <;> cases h
  · cases level <;> cases tok <;> first | cases h; done | (cases level' <;> first | decide | cases h')

/-- A closing bracket or a comma ends everything. -/
theorem follow_closing {tok : Token} (h : tok ∈ [Token.rParen, .rBracket, .comma])
    (rest : List Token) : Follow 0 (tok :: rest) := by
  intro tok' htok
  obtain rfl := Option.some.inj htok
  simp only [List.mem_cons, List.not_mem_nil, or_false] at h
  rcases h with rfl | rfl | rfl
  all_goals
    refine ⟨rfl, by decide, fun level op hop => ?_⟩
    cases level <;> cases hop

/-! ### Completeness -/

/-- The parser of what stands between the operators of a level. -/
def operandParser (unary : TokenParser Expr) : BinaryLevel → TokenParser Expr
  | .or => parseAnd unary
  | .and => parseEquality unary
  | .equality => parseComparison unary
  | .comparison => unary

/-- What the parser makes of the tokens of a derivation.  At a level of operators, and behind an
    object, it comes to the loop with the tree of the derivation: the loop decides what follows. -/
def Completes : Symbol → List Token → Expr → Prop
  | .binary level, ts, e => ∀ fuel rest, ts.length < fuel → Follow (level.rank + 1) rest →
    parseLevel level (operandParser (parseUnary fuel) level) (ts ++ rest) =
      iterate (binaryStep level (operandParser (parseUnary fuel) level)) .exhausted e rest
  | .unary, ts, e => ∀ fuel rest, ts.length < fuel → Follow 4 rest →
    parseUnary fuel (ts ++ rest) = .ok (e, rest)
  | .postfixed, ts, e => ∀ fuel rest, ts.length ≤ fuel → Follow 4 rest →
    parsePostfix (parseOr (parseUnary fuel)) (ts ++ rest) = .ok (e, rest)
  | .access, ts, e => ∀ fuel rest, ts.length ≤ fuel → rest.head? ≠ some .lParen →
    parsePostfix (parseOr (parseUnary fuel)) (ts ++ rest) =
      iterate (postfixStep (parseOr (parseUnary fuel))) .exhausted e rest

def CompletesArgs (ts : List Token) (es : List Expr) : Prop :=
  ∀ fuel rest, ts.length < fuel → Follow 0 rest → es ≠ [] →
    parseArgs (parseOr (parseUnary fuel)) (ts ++ rest) =
      iterate (argStep (parseOr (parseUnary fuel))) .exhausted es rest

section Completes

variable {level : BinaryLevel} {ts us rest : List Token} {e l r i : Expr} {fuel : ℕ}

theorem Completes.whole (h : Completes (.binary level) ts e) (hfuel : ts.length < fuel)
    (hrest : Follow level.rank rest) :
    parseLevel level (operandParser (parseUnary fuel) level) (ts ++ rest) = .ok (e, rest) := by
  rw [h fuel rest hfuel (hrest.mono (Nat.le_succ _)), iterate_of_none (hrest.binaryStep _ _)]

/-- In brackets. -/
theorem Completes.nested (h : Completes (.binary .or) ts e) (hfuel : ts.length < fuel)
    (hrest : Follow 0 rest) : parseOr (parseUnary fuel) (ts ++ rest) = .ok (e, rest) :=
  h.whole hfuel hrest

theorem Completes.between (h : Completes level.operand ts e) (hfuel : ts.length < fuel)
    (hrest : Follow (level.rank + 1) rest) :
    operandParser (parseUnary fuel) level (ts ++ rest) = .ok (e, rest) := by
  cases level with
  | or => exact @Completes.whole .and _ _ _ _ h hfuel hrest
  | and => exact @Completes.whole .equality _ _ _ _ h hfuel hrest
  | equality => exact @Completes.whole .comparison _ _ _ _ h hfuel hrest
  | comparison => exact h fuel rest hfuel hrest

theorem reads_operandParser (fuel : ℕ) (level : BinaryLevel) :
    Reads (Derives level.operand) (operandParser (parseUnary fuel) level) := by
  have hunary := reads_parseUnary fuel
  have hcomparison : Reads (Derives (.binary .comparison)) (parseComparison (parseUnary fuel)) :=
    reads_parseLevel hunary
  have hequality : Reads (Derives (.binary .equality)) (parseEquality (parseUnary fuel)) :=
    reads_parseLevel hcomparison
  cases level with
  | or => exact reads_parseLevel hequality
  | and => exact hequality
  | equality => exact hcomparison
  | comparison => exact hunary

theorem Completes.operand (h : Completes level.operand ts e) : Completes (.binary level) ts e := by
  intro fuel rest hfuel hrest
  unfold parseLevel
  rw [h.between hfuel hrest]
  rfl

theorem Completes.binary {tok : Token} {op : BinaryOperator} (hl : Completes (.binary level) ts l)
    (hop : level.operator tok = some op) (hr : Completes level.operand us r) :
    Completes (.binary level) (ts ++ tok :: us) (.binaryOp op l r) := by
  intro fuel rest hfuel hrest
  rw [List.length_append, List.length_cons] at hfuel
  rw [List.append_assoc, List.cons_append,
    hl fuel _ (by omega) (follow_operator hop _)]
  apply iterate_of_ok (consuming_binaryStep (reads_operandParser fuel level))
  exact (binaryStep_eq_ok).mpr ⟨tok, us ++ rest, op, r, rfl, hop, hr.between (by omega) hrest, rfl⟩

theorem Completes.not (h : Completes .unary ts e) :
    Completes .unary (.not :: ts) (.unaryOp .not e) := by
  intro fuel rest hfuel hrest
  obtain ⟨fuel, rfl⟩ : ∃ k, fuel = k + 1 := ⟨fuel - 1, by omega⟩
  rw [List.length_cons] at hfuel
  rw [List.cons_append, parseUnary_not, h fuel rest (by omega) hrest]
  rfl

theorem Completes.postfixed (h : Completes .postfixed ts e) (hd : Derives .postfixed ts e) :
    Completes .unary ts e := by
  intro fuel rest hfuel hrest
  obtain ⟨fuel, rfl⟩ : ∃ k, fuel = k + 1 := ⟨fuel - 1, by omega⟩
  obtain ⟨tok, us, rfl, htok⟩ := hd.begins
  have hhead : (tok :: us ++ rest).head? ≠ some .not := by
    intro hhead
    obtain rfl := Option.some.inj hhead
    cases htok
  rw [parseUnary_of_head hhead]
  exact h fuel rest (by omega) hrest

theorem Completes.literal {tok : Token} {value : ExprValue} (h : literalValue tok = some value) :
    Completes .postfixed [tok] (.literal value) := by
  intro fuel rest _ hrest
  have hprimary : parsePrimary (parseOr (parseUnary fuel)) ([tok] ++ rest) =
      .ok (.literal value, rest) := by
    cases tok <;> first | cases h; done | (cases h; rfl)
  unfold parsePostfix
  rw [hprimary]
  show (if _ then _ else _) = _
  rw [hrest.not_access, Bool.and_false, if_neg Bool.false_ne_true,
    iterate_of_none (postfixStep_of_not_access hrest.not_access)]

theorem Completes.access (h : Completes .access ts e) : Completes .postfixed ts e := by
  intro fuel rest hfuel hrest
  rw [h fuel rest hfuel hrest.head_ne,
    iterate_of_none (postfixStep_of_not_access hrest.not_access)]

/-- A primary that is no literal comes to the loop over accesses. -/
theorem parsePostfix_of_primary {nested : TokenParser Expr} {tok : Token}
    (hprimary : parsePrimary nested (tok :: ts) = .ok (e, rest)) (htok : tok.isLiteral = false) :
    parsePostfix nested (tok :: ts) = iterate (postfixStep nested) .exhausted e rest := by
  unfold parsePostfix
  rw [hprimary]
  show (if _ then _ else _) = _
  rw [List.head?_cons, Option.any_some, htok, Bool.false_and, if_neg Bool.false_ne_true]

theorem Completes.group (h : Completes (.binary .or) ts e) :
    Completes .access (.lParen :: (ts ++ [.rParen])) e := by
  intro fuel rest hfuel _
  rw [List.length_cons, List.length_append, List.length_singleton] at hfuel
  apply parsePostfix_of_primary _ rfl
  show parseOr _ (ts ++ [Token.rParen] ++ rest) >>= _ = _
  rw [List.append_assoc, List.singleton_append,
    h.nested (by omega) (follow_closing (by simp) rest)]
  exact bind_eq_ok.mpr ⟨_, rfl, bind_eq_ok.mpr ⟨rest, expectToken_eq_ok.mpr rfl, rfl⟩⟩

theorem CompletesArgs.parse {es : List Expr} (h : CompletesArgs ts es) (hd : DerivesArgs ts es)
    (hfuel : ts.length < fuel) (rest : List Token) :
    parseArgs (parseOr (parseUnary fuel)) (ts ++ .rParen :: rest) = .ok (es, .rParen :: rest) := by
  by_cases hne : es = []
  · subst hne
    have hts : ts = [] := by
      generalize hes : ([] : List Expr) = es at hd
      cases hd with
      | none => rfl
      | one h => cases hes
      | more h hne he => simp at hes
    subst hts
    rfl
  · rw [h fuel _ hfuel (follow_closing (by simp) rest) hne]
    exact iterate_of_none rfl

theorem Completes.call {name : Str} {args : List Expr} (h : CompletesArgs ts args)
    (hd : DerivesArgs ts args) :
    Completes .access (.ident name :: .lParen :: (ts ++ [.rParen])) (.functionCall name args) := by
  intro fuel rest hfuel _
  simp only [List.length_cons, List.length_append] at hfuel
  apply parsePostfix_of_primary _ rfl
  show parseArgs _ (ts ++ [Token.rParen] ++ rest) >>= _ = _
  rw [List.append_assoc, List.singleton_append, h.parse hd (by omega) rest]
  exact bind_eq_ok.mpr ⟨_, rfl, bind_eq_ok.mpr ⟨rest, expectToken_eq_ok.mpr rfl, rfl⟩⟩

theorem Completes.name {name : Str} : Completes .access [.ident name] (.context name) := by
  intro fuel rest _ hrest
  apply parsePostfix_of_primary _ rfl
  show parseIdentExpr _ name rest = _
  unfold parseIdentExpr
  split
  case h_1 => exact absurd rfl hrest
  case h_2 => rfl

/-- One more access behind an object. -/
theorem Completes.accessBy {mid : List Token} {e' : Expr} (h : Completes .access ts e)
    (hmid : (mid ++ rest).head? ≠ some .lParen) (hfuel : (ts ++ mid).length ≤ fuel)
    (hstep : postfixStep (parseOr (parseUnary fuel)) e (mid ++ rest) = some (.ok (e', rest))) :
    parsePostfix (parseOr (parseUnary fuel)) (ts ++ mid ++ rest) =
      iterate (postfixStep (parseOr (parseUnary fuel))) .exhausted e' rest := by
  rw [List.length_append] at hfuel
  rw [List.append_assoc, h fuel _ (by omega) hmid]
  exact iterate_of_ok (consuming_postfixStep (reads_parseOr (reads_parseUnary fuel))) hstep

theorem Completes.index (h : Completes .access ts e) (hi : Completes (.binary .or) us i)
    (hd : Derives (.binary .or) us i) :
    Completes .access (ts ++ .lBracket :: (us ++ [.rBracket])) (.indexAccess e i) := by
  intro fuel rest hfuel _
  refine h.accessBy (by simp) hfuel (postfixStep_eq_ok.mpr (.inr (.inr (.inr ?_))))
  simp only [List.length_append, List.length_cons] at hfuel
  refine ⟨us ++ Token.rBracket :: rest, i, by simp, ?_, ?_, rfl⟩
  · obtain ⟨tok, vs, rfl, htok⟩ := hd.begins
    intro hstar
    obtain rfl := Option.some.inj hstar
    cases htok
  · exact hi.nested (by omega) (follow_closing (by simp) rest)

theorem CompletesArgs.one (h : Completes (.binary .or) ts e) (hd : Derives (.binary .or) ts e) :
    CompletesArgs ts [e] := by
  intro fuel rest hfuel hrest _
  have hparse := h.nested hfuel hrest
  obtain ⟨tok, us, rfl, htok⟩ := hd.begins
  unfold parseArgs
  split
  case h_1 heq =>
    obtain ⟨rfl, -⟩ := List.cons.inj heq
    cases htok
  case h_2 => rw [hparse]; rfl

theorem CompletesArgs.more {es : List Expr} (h : CompletesArgs ts es) (hne : es ≠ [])
    (he : Completes (.binary .or) us e) : CompletesArgs (ts ++ .comma :: us) (es ++ [e]) := by
  intro fuel rest hfuel hrest _
  rw [List.length_append, List.length_cons] at hfuel
  rw [List.append_assoc, List.cons_append,
    h fuel _ (by omega) (follow_closing (by simp) _) hne]
  apply iterate_of_ok (consuming_argStep (reads_parseOr (reads_parseUnary fuel)))
  exact (argStep_eq_ok).mpr ⟨us ++ rest, e, rfl, he.nested (by omega) hrest, rfl⟩

end Completes

mutual

theorem completes_of_derives {s : Symbol} {ts : List Token} {e : Expr} (h : Derives s ts e) :
    Completes s ts e := by
  match h with
  | .operand h => exact (completes_of_derives h).operand
  | .binary hl hop hr => exact (completes_of_derives hl).binary hop (completes_of_derives hr)
  | .not h => exact (completes_of_derives h).not
  | .postfixed h => exact (completes_of_derives h).postfixed h
  | .literal h => exact .literal h
  | .access h => exact (completes_of_derives h).access
  | .group h => exact (completes_of_derives h).group
  | .call h => exact .call (completesArgs_of_derivesArgs h) h
  | .name => exact .name
  | .property h =>
    exact fun fuel rest hfuel _ => (completes_of_derives h).accessBy (by simp) hfuel
      (postfixStep_eq_ok.mpr (.inl ⟨_, rfl, rfl⟩))
  | .dotStar h =>
    exact fun fuel rest hfuel _ => (completes_of_derives h).accessBy (by simp) hfuel
      (postfixStep_eq_ok.mpr (.inr (.inl ⟨rfl, rfl⟩)))
  | .bracketStar h =>
    exact fun fuel rest hfuel _ => (completes_of_derives h).accessBy (by simp) hfuel
      (postfixStep_eq_ok.mpr (.inr (.inr (.inl ⟨rfl, rfl⟩))))
  | .index h hi => exact (completes_of_derives h).index (completes_of_derives hi) hi

theorem completesArgs_of_derivesArgs {ts : List Token} {es : List Expr} (h : DerivesArgs ts es) :
    CompletesArgs ts es := by
  match h with
  | .none => exact fun _ _ _ _ hne => absurd rfl hne
  | .one h => exact .one (completes_of_derives h) h
  | .more h hne he => exact (completesArgs_of_derivesArgs h).more hne (completes_of_derives he)

end

/-! ### The recursion lasts -/

/-- On fewer than `n` tokens the parser does not run out of the model's fuel. -/
def Lasts {α : Type} (n : ℕ) (p : TokenParser α) : Prop :=
  ∀ ⦃ts⦄, ts.length < n → p ts ≠ .error .exhausted

section Lasts

variable {n : ℕ} {nested operand : TokenParser Expr}

theorem lasts_parseLevel {level : BinaryLevel} {D : List Token → Expr → Prop}
    (hreads : Reads D operand) (h : Lasts n operand) : Lasts n (parseLevel level operand) := by
  intro ts hts hp
  rcases bind_eq_error.mp hp with hp | ⟨⟨l, us⟩, hl, hloop⟩
  · exact h hts hp
  · have hlen := hreads.length_le hl
    refine iterate_ne_exhausted (consuming_binaryStep hreads) (fun a vs hvs hstep => ?_)
      (le_refl us.length) hloop
    unfold binaryStep at hstep
    split at hstep
    case h_1 => cases hstep
    case h_2 tok vs =>
      rw [List.length_cons] at hvs
      split at hstep
      case h_1 => cases hstep
      case h_2 =>
        rcases bind_eq_error.mp (Option.some.inj hstep) with hr | ⟨r, -, hr⟩
        · exact h (by omega) hr
        · cases hr

theorem lasts_parseOr (hreads : Reads (Derives .unary) operand) (h : Lasts n operand) :
    Lasts n (parseOr operand) := by
  have hcomparison : Reads (Derives (.binary .comparison)) (parseComparison operand) :=
    reads_parseLevel hreads
  have hequality : Reads (Derives (.binary .equality)) (parseEquality operand) :=
    reads_parseLevel hcomparison
  have hand : Reads (Derives (.binary .and)) (parseAnd operand) := reads_parseLevel hequality
  exact lasts_parseLevel hand (lasts_parseLevel hequality
    (lasts_parseLevel hcomparison (lasts_parseLevel hreads h)))

theorem lasts_postfixStep (h : Lasts n nested) {object : Expr} {ts : List Token} (hts : ts.length ≤ n) :
    postfixStep nested object ts ≠ some (.error .exhausted) := by
  intro hstep
  unfold postfixStep at hstep
  split at hstep
  case h_1 us =>
    have hp := Option.some.inj hstep
    unfold parseDotAccess at hp
    split at hp <;> cases hp
  case h_2 us =>
    rcases bind_eq_error.mp (Option.some.inj hstep) with hp | ⟨rest, -, hp⟩
    · exact expectToken_ne_exhausted hp
    · cases hp
  case h_3 us _ =>
    rw [List.length_cons] at hts
    rcases bind_eq_error.mp (Option.some.inj hstep) with hp | ⟨index, -, hp⟩
    · exact h (by omega) hp
    · rcases bind_eq_error.mp hp with hp | ⟨rest, -, hp⟩
      · exact expectToken_ne_exhausted hp
      · cases hp
  case h_4 => cases hstep

variable (hreads : Reads (Derives (.binary .or)) nested) (h : Lasts n nested)

include hreads h

theorem lasts_parseArgs : Lasts n (parseArgs nested) := by
  intro ts hts hp
  unfold parseArgs at hp
  split at hp
  case h_1 => cases hp
  case h_2 =>
    rcases bind_eq_error.mp hp with hp | ⟨⟨e, us⟩, he, hloop⟩
    · exact h hts hp
    · have hlen := hreads.length_le he
      refine iterate_ne_exhausted (consuming_argStep hreads) (fun a vs hvs hstep => ?_)
        (le_refl us.length) hloop
      unfold argStep at hstep
      split at hstep
      case h_1 vs =>
        rw [List.length_cons] at hvs
        rcases bind_eq_error.mp (Option.some.inj hstep) with hr | ⟨r, -, hr⟩
        · exact h (by omega) hr
        · cases hr
      case h_2 => cases hstep

theorem lasts_parsePrimary {ts : List Token} (hts : ts.length ≤ n) :
    parsePrimary nested ts ≠ .error .exhausted := by
  intro hp
  unfold parsePrimary at hp
  split at hp
  case h_5 us =>
    rw [List.length_cons] at hts
    rcases bind_eq_error.mp hp with hp | ⟨inner, -, hp⟩
    · exact h (by omega) hp
    · rcases bind_eq_error.mp hp with hp | ⟨rest, -, hp⟩
      · exact expectToken_ne_exhausted hp
      · cases hp
  case h_6 name us =>
    unfold parseIdentExpr at hp
    split at hp
    case h_1 vs =>
      simp only [List.length_cons] at hts
      rcases bind_eq_error.mp hp with hp | ⟨args, -, hp⟩
      · exact lasts_parseArgs hreads h (by omega) hp
      · rcases bind_eq_error.mp hp with hp | ⟨rest, -, hp⟩
        · exact expectToken_ne_exhausted hp
        · cases hp
    case h_2 => cases hp
  all_goals cases hp

theorem lasts_parsePostfix {ts : List Token} (hts : ts.length ≤ n) :
    parsePostfix nested ts ≠ .error .exhausted := by
  intro hp
  rcases bind_eq_error.mp hp with hp | ⟨⟨e, us⟩, hprimary, hp⟩
  · exact lasts_parsePrimary hreads h hts hp
  · have hlen : us.length ≤ ts.length := by
      rcases reads_parsePrimary hreads hprimary with ⟨tok, value, rfl, -⟩ | ⟨tok, vs, rfl, -⟩
      · exact Nat.le_succ _
      · simp only [List.length_cons, List.length_append]
        omega
    split at hp
    case isTrue => cases hp
    case isFalse =>
      exact iterate_ne_exhausted (consuming_postfixStep hreads)
        (fun _ _ hvs => lasts_postfixStep h hvs) (hlen.trans hts) hp

end Lasts

theorem lasts_parseUnary (fuel : ℕ) : Lasts fuel (parseUnary fuel) := by
  induction fuel with
  | zero => exact fun _ hts => absurd hts (Nat.not_lt_zero _)
  | succ fuel ih =>
    intro ts hts hp
    by_cases hnot : ts.head? = some .not
    · obtain ⟨us, rfl⟩ := List.head?_eq_some_iff.mp hnot
      rw [List.length_cons] at hts
      rw [parseUnary_not] at hp
      rcases bind_eq_error.mp hp with hp | ⟨e, -, hp⟩
      · exact ih (by omega) hp
      · cases hp
    · rw [parseUnary_of_head hnot] at hp
      have hreads := reads_parseUnary fuel
      exact lasts_parsePostfix (reads_parseOr hreads) (lasts_parseOr hreads ih) (by omega) hp

/-! ### The whole list -/

theorem parseTokens_eq_ok_iff {ts : List Token} {e : Expr} :
    parseTokens ts = .ok e ↔ Derives (.binary .or) ts e := by
  constructor
  · intro hp
    obtain ⟨⟨e', rest⟩, hor, hp⟩ := bind_eq_ok.mp hp
    split at hp
    case isTrue hrest =>
      obtain rfl := Except.ok.inj hp
      obtain rfl : rest = [] := hrest
      obtain ⟨pre, rfl, hpre⟩ := reads_parseOr (reads_parseUnary _) hor
      rwa [List.append_nil]
    case isFalse => cases hp
  · intro h
    have hor := (completes_of_derives h).nested (Nat.lt_succ_self _) (follow_nil 0)
    rw [List.append_nil] at hor
    exact bind_eq_ok.mpr ⟨(e, []), hor, rfl⟩

/-- **The parser accepts exactly its grammar.** It succeeds on the lists the grammar derives, with
    the tree of the derivation, which is the only one; on every other list it fails with an error of
    the source. -/
theorem parse_exact (ts : List Token) :
    (∀ e, parseTokens ts = .ok e ↔ Derives (.binary .or) ts e) ∧
      (∀ e e', Derives (.binary .or) ts e → Derives (.binary .or) ts e' → e = e') ∧
      parseTokens ts ≠ .error .exhausted := by
  refine ⟨fun e => parseTokens_eq_ok_iff, fun e e' h h' => ?_, fun hp => ?_⟩
  · exact Except.ok.inj ((parseTokens_eq_ok_iff.mpr h).symm.trans (parseTokens_eq_ok_iff.mpr h'))
  · have hunary := reads_parseUnary (ts.length + 1)
    rcases bind_eq_error.mp hp with hp | ⟨⟨e, rest⟩, -, hp⟩
    · exact lasts_parseOr hunary (lasts_parseUnary _) (Nat.lt_succ_self _) hp
    · split at hp <;> cases hp

end GhRunner.Expressions
