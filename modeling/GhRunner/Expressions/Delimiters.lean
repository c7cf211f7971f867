import GhRunner.Expressions.Lexer
import GhRunner.Expressions.Template

namespace GhRunner.Expressions

open Text Traced Utf8

/-!
# The scanner for closing delimiters agrees with the lexer

`expression_end` and `interpolate` of `crates/expressions/src/template.rs` against `lex`.

* `expressionEndBytes` — the loop over bytes, which finds the same place as the one over characters;
* `expressionEnd_of_lex` — behind an expression that lexes, the closing delimiter found is the one
  that follows it;
* `lex_trim` — white space at the ends of an expression that lexes changes no token;
* `lexingEngine`, `assembled` — the engine with this lexer, and what a template put together of
  texts and expressions has to come to;
* `delimiters_agree` — the scanner behind an expression, and whole templates.
-/

/-! ### Over bytes -/

/-- The loop of the source, over bytes. -/
def expressionEndBytes (quoted : Bool) : List UInt8 → Option ℕ
  | [] => none
  | b :: rest =>
    if b = 0x27 then
      if quoted then
        match rest with
        | [] => none
        | b' :: rest' =>
          if b' = 0x27 then (expressionEndBytes true rest').map (· + 2)
          else (expressionEndBytes false (b' :: rest')).map (· + 1)
      else (expressionEndBytes true rest).map (· + 1)
    else if quoted = false ∧ [0x7d, 0x7d] <+: b :: rest then some 0
    else (expressionEndBytes quoted rest).map (· + 1)

theorem expressionEndBytes_append {piece : List UInt8}
    (hpiece : ∀ b ∈ piece, b ≠ 0x27 ∧ b ≠ 0x7d) (quoted : Bool) (rest : List UInt8) :
    expressionEndBytes quoted (piece ++ rest) =
      (expressionEndBytes quoted rest).map (· + piece.length) := by
  induction piece with
  | nil => exact Option.map_id'.symm
  | cons b piece ih =>
    obtain ⟨hquote, hbrace⟩ := hpiece b (List.mem_cons_self ..)
    have hclose : ¬ (quoted = false ∧ [0x7d, 0x7d] <+: b :: (piece ++ rest)) := fun h =>
      hbrace (List.cons_prefix_cons.mp h.2).1.symm
    rw [List.cons_append, expressionEndBytes.eq_def]
    show (if b = 0x27 then _ else if quoted = false ∧ [0x7d, 0x7d] <+: b :: (piece ++ rest) then _
      else _) = _
    rw [if_neg hquote, if_neg hclose, ih fun b hb => hpiece b (List.mem_cons_of_mem _ hb),
      Option.map_map]
    rfl

theorem map_utf8Len_take (c : Char) (rest : Str) (found : Option ℕ) :
    (found.map fun stop => utf8Len (rest.take stop)).map (· + c.utf8Size) =
      (found.map (· + 1)).map fun stop => utf8Len ((c :: rest).take stop) := by
  rw [Option.map_map, Option.map_map]
  refine congrArg (Option.map · found) (funext fun stop => ?_)
  show _ = utf8Len (c :: rest.take stop)
  rw [utf8Len_cons, Nat.add_comm]
  rfl

theorem expressionEndBytes_bytes (quoted : Bool) (s : Str) :
    expressionEndBytes quoted (bytes s) =
      (expressionEndFrom quoted s).map fun stop => utf8Len (s.take stop) := by
  fun_induction expressionEndFrom quoted s with
  | case1 => rfl
  | case2 => rfl
  | case3 rest ih =>
    have hpair (x : Option ℕ) : x.map (· + 2) = (x.map (· + 1)).map (· + 1) :=
      (Option.map_map ..).symm
    show (expressionEndBytes true (bytes rest)).map (· + 2) = _
    rw [hpair, hpair, ← map_utf8Len_take, ← map_utf8Len_take, ← ih]
    rfl
  | case4 c rest hc ih =>
    have hone := map_utf8Len_take '\'' (c :: rest) (expressionEndFrom false (c :: rest))
    obtain ⟨b, more, hcons⟩ := List.exists_cons_of_ne_nil (l := String.utf8EncodeChar c)
      String.utf8EncodeChar_ne_nil
    have hb : b ≠ 0x27 := by
      rintro rfl
      refine hc (encodeChar_eq_of_lt (b := 0x27) (hcons ▸ List.mem_cons_self ..) ?_ ?_) <;> decide
    rw [← hone, ← ih, bytes_cons, bytes_cons, hcons]
    show (if b = 0x27 then _ else _) = _
    exact if_neg hb
  | case5 quoted rest hquoted ih =>
    obtain rfl := Bool.not_eq_true quoted ▸ hquoted
    rw [← map_utf8Len_take, ← ih]
    show expressionEndBytes false (0x27 :: bytes rest) = _
    rw [expressionEndBytes.eq_def]
    rfl
  | case6 quoted c rest hc hclose =>
    obtain ⟨rfl, after, hafter⟩ := hclose
    rw [← hafter, bytes_append]
    rfl
  | case7 quoted c rest hc hclose ih =>
    rw [← map_utf8Len_take, ← ih, bytes_cons, ← String.length_utf8EncodeChar]
    by_cases hbrace : c = '\x7d'
    · subst hbrace
      have hbytes : ¬ (quoted = false ∧ [0x7d, 0x7d] <+: 0x7d :: bytes rest) := fun h =>
        hclose ⟨h.1, bytes_prefix_iff.mp h.2⟩
      show expressionEndBytes quoted (0x7d :: bytes rest) = _
      rw [expressionEndBytes.eq_def]
      exact if_neg hbytes
    · refine expressionEndBytes_append (fun b hb => ⟨?_, ?_⟩) _ _
      · rintro rfl
        exact hc (encodeChar_eq_of_lt hb (by decide) (by decide))
      · rintro rfl
        exact hbrace (encodeChar_eq_of_lt hb (by decide) (by decide))

/-! ### Past a token -/

section Scanner

variable {previous : Option Token} {c : Char} {rest rest' more : Str} {tok : Token}

/-- The character is neither a quote nor a brace. -/
def Plain (c : Char) : Prop := c ≠ '\'' ∧ c ≠ '\x7d'

theorem expressionEndFrom_plain (hc : Plain c) (rest : Str) :
    expressionEndFrom false (c :: rest) = (expressionEndFrom false rest).map (· + 1) := by
  have hclose : ¬ closeDelim <+: c :: rest := fun h =>
    hc.2 (List.cons_prefix_cons.mp h).1.symm
  rw [expressionEndFrom.eq_def]
  show (if c = '\'' then _ else if false = false ∧ closeDelim <+: c :: rest then _ else _) = _
  rw [if_neg hc.1, if_neg fun h => hclose h.2]

theorem expressionEndFrom_quote (rest : Str) :
    expressionEndFrom false ('\'' :: rest) = (expressionEndFrom true rest).map (· + 1) := by
  rw [expressionEndFrom.eq_def]
  rfl

theorem expressionEndFrom_quoted (hc : c ≠ '\'') (rest : Str) :
    expressionEndFrom true (c :: rest) = (expressionEndFrom true rest).map (· + 1) := by
  rw [expressionEndFrom.eq_def]
  show (if c = '\'' then _ else if true = false ∧ closeDelim <+: c :: rest then _ else _) = _
  rw [if_neg hc, if_neg (by simp)]

theorem expressionEndFrom_append {piece : Str} (hpiece : ∀ c ∈ piece, Plain c) (rest : Str) :
    expressionEndFrom false (piece ++ rest) =
      (expressionEndFrom false rest).map (· + piece.length) := by
  induction piece with
  | nil => exact Option.map_id'.symm
  | cons c piece ih =>
    rw [List.cons_append, expressionEndFrom_plain (hpiece c (List.mem_cons_self ..)),
      ih fun c hc => hpiece c (List.mem_cons_of_mem _ hc), Option.map_map]
    rfl

/-- Within quotes both scanners go on to the same quote. -/
theorem expressionEndFrom_string {s : Str} (hmore : more.head? ≠ some '\'')
    (h : lexString rest = .ok (s, rest')) :
    ∃ piece, rest = piece ++ rest' ∧ expressionEndFrom true (rest ++ more) =
      (expressionEndFrom false (rest' ++ more)).map (· + piece.length) := by
  fun_induction lexString rest generalizing s with
  | case1 => cases h
  | case2 =>
    obtain ⟨-, rfl⟩ := Prod.mk.inj (Except.ok.inj h)
    refine ⟨['\''], rfl, ?_⟩
    cases more with
    | nil => rfl
    | cons m more =>
      have hm : m ≠ '\'' := fun hm => hmore (by rw [hm]; rfl)
      show expressionEndFrom true ('\'' :: m :: more) = _
      rw [expressionEndFrom, if_pos rfl, if_pos rfl]
      exact if_neg hm
  | case3 rest ih =>
    obtain ⟨read, hread, heq⟩ := map_eq_ok.mp h
    obtain ⟨-, rfl⟩ := Prod.mk.inj heq
    obtain ⟨piece, hpiece, hend⟩ := ih hread
    refine ⟨'\'' :: '\'' :: piece, by rw [hpiece]; rfl, ?_⟩
    show expressionEndFrom true ('\'' :: '\'' :: (rest ++ more)) = _
    rw [expressionEndFrom, if_pos rfl, if_pos rfl]
    show (expressionEndFrom true (rest ++ more)).map (· + 2) = _
    rw [hend, Option.map_map]
    rfl
  | case4 c rest hc =>
    obtain ⟨-, rfl⟩ := Prod.mk.inj (Except.ok.inj h)
    refine ⟨['\''], rfl, ?_⟩
    show expressionEndFrom true ('\'' :: c :: (rest ++ more)) = _
    rw [expressionEndFrom, if_pos rfl, if_pos rfl]
    exact if_neg hc
  | case5 c rest hc ih =>
    obtain ⟨read, hread, heq⟩ := map_eq_ok.mp h
    obtain ⟨-, rfl⟩ := Prod.mk.inj heq
    obtain ⟨piece, hpiece, hend⟩ := ih hread
    refine ⟨c :: piece, by rw [hpiece]; rfl, ?_⟩
    rw [List.cons_append, expressionEndFrom_quoted hc, hend, Option.map_map]
    rfl

theorem plain_of_space (h : isAsciiWhitespace c = true) : Plain c := by
  constructor <;> rintro rfl <;> cases h

theorem plain_of_isIdentContinue (h : isIdentContinue c = true) : Plain c := by
  constructor <;> rintro rfl <;> cases h

theorem plain_of_doubleOperator {c' : Char} (h : doubleOperator c c' = some tok) :
    Plain c ∧ Plain c' := by
  unfold doubleOperator at h
  split at h
  all_goals first | cases h; exact ⟨⟨by decide, by decide⟩, ⟨by decide, by decide⟩⟩ | cases h

theorem plain_of_singleOperator (h : singleOperator c = some tok) : Plain c := by
  unfold singleOperator at h
  split at h
  all_goals first | cases h; exact ⟨by decide, by decide⟩ | cases h

/-- Both scanners take the same token. -/
theorem expressionEndFrom_token (hmore : more.head? ≠ some '\'')
    (h : lexToken previous c rest = .ok (tok, rest')) :
    ∃ piece, c :: rest = piece ++ rest' ∧ expressionEndFrom false (c :: rest ++ more) =
      (expressionEndFrom false (rest' ++ more)).map (· + piece.length) := by
  -- all tokens but strings are made of plain characters
  have hplain : ∀ piece, c :: rest = piece ++ rest' → (∀ c ∈ piece, Plain c) →
      ∃ piece, c :: rest = piece ++ rest' ∧ expressionEndFrom false (c :: rest ++ more) =
        (expressionEndFrom false (rest' ++ more)).map (· + piece.length) := by
    intro piece heq hpiece
    refine ⟨piece, heq, ?_⟩
    rw [heq, List.append_assoc]
    exact expressionEndFrom_append hpiece _
  unfold lexToken at h
  split at h
  case isTrue hquote =>
    obtain ⟨⟨s, rest''⟩, hread, heq⟩ := map_eq_ok.mp h
    obtain ⟨-, rfl⟩ := Prod.mk.inj heq
    obtain ⟨piece, hpiece, hend⟩ := expressionEndFrom_string hmore hread
    refine ⟨c :: piece, by rw [hpiece]; rfl, ?_⟩
    rw [List.cons_append, hquote, expressionEndFrom_quote, hend, Option.map_map]
    rfl
  case isFalse =>
    split at h
    case isTrue =>
      obtain ⟨n, hn, -, rfl⟩ := lexNumber_eq_ok.mp h
      refine hplain _ List.takeWhile_append_dropWhile.symm fun d hd => ⟨?_, ?_⟩
      · rintro rfl
        exact notMem_of_parseNumberChecked (.inl rfl) hn hd
      · rintro rfl
        exact notMem_of_parseNumberChecked (.inr (.inr rfl)) hn hd
    case isFalse =>
      split at h
      case isTrue =>
        obtain ⟨-, rfl⟩ := Prod.mk.inj (Except.ok.inj h)
        exact hplain _ List.takeWhile_append_dropWhile.symm fun d hd =>
          plain_of_isIdentContinue (List.mem_takeWhile_imp hd)
      case isFalse =>
        rcases lexOperator_eq_ok.mp h with ⟨c', rfl, hop⟩ | ⟨-, hop, rfl⟩
        · obtain ⟨hc, hc'⟩ := plain_of_doubleOperator hop
          exact hplain [c, c'] rfl (by simp [hc, hc'])
        · exact hplain [c] rfl (by simp [plain_of_singleOperator hop])

/-- Behind what lexes, the first closing delimiter outside quotes is the one that follows. -/
theorem expressionEndFrom_of_tokensFrom {input : Str} {tokens : List Token}
    (hmore : closeDelim <+: more) (h : tokensFrom previous input = .ok tokens) :
    expressionEndFrom false (input ++ more) = some input.length := by
  have hquote : more.head? ≠ some '\'' := by
    obtain ⟨after, rfl⟩ := hmore
    show some '\x7d' ≠ some '\''
    decide
  induction hlen : input.length using Nat.strong_induction_on
    generalizing previous input tokens with
  | _ len ih =>
  subst hlen
  cases input with
  | nil =>
    obtain ⟨after, rfl⟩ := hmore
    rfl
  | cons c rest =>
    rcases tokensFrom_cons_eq_ok.mp h with ⟨hspace, hrest⟩ | ⟨-, tok, rest', tail, htok, hrest, -⟩
    · rw [List.cons_append, expressionEndFrom_plain (plain_of_space hspace),
        ih rest.length (Nat.lt_succ_self _) hrest rfl]
      rfl
    · obtain ⟨piece, hpiece, hend⟩ := expressionEndFrom_token hquote htok
      have hlt := lexToken_length htok
      have hsum : (c :: rest).length = rest'.length + piece.length := by
        rw [hpiece, List.length_append, Nat.add_comm]
      rw [hend, ih rest'.length (Nat.lt_succ_of_le hlt) hrest rfl, hsum]
      rfl

end Scanner

/-- The closing delimiter is found behind every expression that lexes, whatever follows. -/
theorem expressionEnd_of_lex {e : Str} {tokens : List Token} (h : lex e = .ok tokens) (t : Str) :
    expressionEnd (e ++ (closeDelim ++ t)) = some e.length :=
  expressionEndFrom_of_tokensFrom (List.prefix_append _ _) (lex_eq_ok.mp h)

/-! ### White space -/

section Blank
variable {previous : Option Token} {c d : Char} {rest rest' s : Str} {tok : Token}
  {tokens : List Token}

/-- The character shows and is one of ASCII. -/
def Visible (c : Char) : Prop := 0x20 < c.toNat ∧ c.toNat < 0x7f

instance : DecidablePred Visible := fun _ => inferInstanceAs (Decidable (_ ∧ _))

theorem not_visible_of_blank (hc : isWhitespace c = true) : ¬ Visible c := by
  simp only [isWhitespace, Bool.or_eq_true, Bool.and_eq_true, decide_eq_true_eq, beq_iff_eq] at hc
  unfold Visible
  omega

theorem visible_of_isIdentContinue (h : isIdentContinue c = true) : Visible c := by
  unfold isIdentContinue at h
  rw [Bool.or_eq_true, Bool.or_eq_true, decide_eq_true_eq, decide_eq_true_eq] at h
  rcases h with (h | rfl) | rfl
  · unfold Visible
    rcases Bool.or_eq_true_iff.mp h with halpha | hdigit
    · have := isAlpha_bounds halpha
      omega
    · have : '0'.toNat ≤ c.toNat ∧ c.toNat ≤ '9'.toNat := Char.isDigit_iff_toNat.mp hdigit
      have : '0'.toNat = 48 := rfl
      have : '9'.toNat = 57 := rfl
      omega
  all_goals decide

theorem visible_of_isNumberStart (h : isNumberStart c previous = true) : Visible c := by
  unfold isNumberStart at h
  rw [Bool.or_eq_true, Bool.or_eq_true, Bool.and_eq_true, decide_eq_true_eq, decide_eq_true_eq] at h
  rcases h with (h | h) | ⟨rfl, -⟩
  · exact visible_of_isIdentContinue (by simp [isIdentContinue, Char.isAlphanum, h])
  · rw [List.mem_pair] at h
    rcases h with rfl | rfl <;> decide
  · decide

theorem visible_of_doubleOperator (h : doubleOperator c d = some tok) : Visible c ∧ Visible d := by
  unfold doubleOperator at h
  split at h
  all_goals first | cases h; exact ⟨by decide, by decide⟩ | cases h

theorem visible_of_singleOperator (h : singleOperator c = some tok) : Visible c := by
  unfold singleOperator at h
  split at h
  all_goals first | cases h; decide | cases h

/-- A token begins with a character that shows. -/
theorem visible_of_lexToken (h : lexToken previous c rest = .ok (tok, rest')) : Visible c := by
  unfold lexToken at h
  split at h
  case isTrue hquote =>
    rw [hquote]
    decide
  case isFalse =>
    split at h
    case isTrue hstart => exact visible_of_isNumberStart hstart
    case isFalse =>
      split at h
      case isTrue hstart => exact visible_of_isIdentContinue (isIdentContinue_of_start hstart)
      case isFalse =>
        rcases lexOperator_eq_ok.mp h with ⟨c', -, hop⟩ | ⟨-, hop, -⟩
        · exact (visible_of_doubleOperator hop).1
        · exact visible_of_singleOperator hop

/-- White space that is read is skipped. -/
theorem tokensFrom_blank_cons (hc : isWhitespace c = true)
    (h : tokensFrom previous (c :: rest) = .ok tokens) : tokensFrom previous rest = .ok tokens := by
  rcases tokensFrom_cons_eq_ok.mp h with ⟨-, hrest⟩ | ⟨-, tok, rest', more, htok, -⟩
  · exact hrest
  · exact absurd (visible_of_lexToken htok) (not_visible_of_blank hc)

theorem tokensFrom_dropWhile (h : tokensFrom previous s = .ok tokens) :
    tokensFrom previous (s.dropWhile isWhitespace) = .ok tokens := by
  induction s with
  | nil => exact h
  | cons c rest ih =>
    rw [List.dropWhile_cons]
    split
    case isTrue hc => exact ih (tokensFrom_blank_cons hc h)
    case isFalse => exact h

theorem lexString_append_blank (hc : c ≠ '\'') {s : Str}
    (h : lexString (rest ++ [c]) = .ok (s, rest')) :
    ∃ left, lexString rest = .ok (s, left) ∧ rest' = left ++ [c] := by
  fun_induction lexString rest generalizing s with
  | case1 =>
    rw [List.nil_append, lexString, if_neg hc] at h
    cases h
  | case2 =>
    rw [List.cons_append, List.nil_append, lexString, if_pos rfl] at h
    obtain ⟨rfl, rfl⟩ := Prod.mk.inj (Except.ok.inj ((if_neg hc).symm.trans h))
    exact ⟨[], rfl, rfl⟩
  | case3 rest ih =>
    obtain ⟨read, hread, heq⟩ := map_eq_ok.mp h
    obtain ⟨rfl, rfl⟩ := Prod.mk.inj heq
    obtain ⟨left, hleft, hrest⟩ := ih hread
    exact ⟨left, map_eq_ok.mpr ⟨_, hleft, rfl⟩, hrest⟩
  | case4 d rest hd =>
    rw [List.cons_append, List.cons_append, lexString, if_pos rfl] at h
    obtain ⟨rfl, rfl⟩ := Prod.mk.inj (Except.ok.inj ((if_neg hd).symm.trans h))
    exact ⟨d :: rest, rfl, rfl⟩
  | case5 d rest hd ih =>
    rw [List.cons_append, lexString.eq_def] at h
    obtain ⟨read, hread, heq⟩ := map_eq_ok.mp ((if_neg hd).symm.trans h)
    obtain ⟨rfl, rfl⟩ := Prod.mk.inj heq
    obtain ⟨left, hleft, hrest⟩ := ih hread
    exact ⟨left, map_eq_ok.mpr ⟨_, hleft, rfl⟩, hrest⟩

/-- A character behind a text is left behind what is taken of it, unless all is taken. -/
theorem takeWhile_concat (p : Char → Bool) (c : Char) (s : Str) :
    ((s ++ [c]).takeWhile p = s.takeWhile p ∧ (s ++ [c]).dropWhile p = s.dropWhile p ++ [c]) ∨
    (p c = true ∧ (s ++ [c]).takeWhile p = s.takeWhile p ++ [c] ∧ s.dropWhile p = [] ∧
      (s ++ [c]).dropWhile p = []) := by
  induction s with
  | nil => cases hc : p c <;> simp [hc]
  | cons d s ih =>
    cases hd : p d with
    | false => exact .inl (by simp [hd])
    | true =>
      simp only [List.cons_append, List.takeWhile_cons_of_pos hd, List.dropWhile_cons_of_pos hd]
      rcases ih with ⟨htake, hdrop⟩ | ⟨hc, htake, hdrop⟩
      · exact .inl ⟨congrArg (d :: ·) htake, hdrop⟩
      · exact .inr ⟨hc, congrArg (d :: ·) htake, hdrop⟩

/-- White space behind a token is left, unless a number has taken it. -/
theorem lexToken_append_blank (hc : isWhitespace c = true)
    (h : lexToken previous d (rest ++ [c]) = .ok (tok, rest')) :
    ∃ left, lexToken previous d rest = .ok (tok, left) ∧
      (rest' = left ++ [c] ∨ left = [] ∧ rest' = []) := by
  have hnot := not_visible_of_blank hc
  unfold lexToken at h ⊢
  split at h
  case isTrue hquote =>
    obtain ⟨⟨read, r⟩, hread, heq⟩ := map_eq_ok.mp h
    obtain ⟨rfl, rfl⟩ := Prod.mk.inj heq
    have hne : c ≠ '\'' := fun hc' => hnot (hc' ▸ by decide)
    obtain ⟨left, hleft, hrest⟩ := lexString_append_blank hne hread
    exact ⟨left, (if_pos hquote).trans (map_eq_ok.mpr ⟨_, hleft, rfl⟩), .inl hrest⟩
  case isFalse hquote =>
    rw [if_neg hquote]
    split at h
    case isTrue hstart =>
      rw [if_pos hstart]
      obtain ⟨n, hn, rfl, rfl⟩ := lexNumber_eq_ok.mp h
      rw [← List.cons_append] at hn ⊢
      rcases takeWhile_concat (fun c => !endsNumber c) c (d :: rest) with
        ⟨htake, hdrop⟩ | ⟨-, htake, hdrop, hdrop'⟩
      · refine ⟨_, lexNumber_eq_ok.mpr ⟨n, ?_, rfl, rfl⟩, .inl hdrop⟩
        rw [← hn, htake]
      · refine ⟨_, lexNumber_eq_ok.mpr ⟨n, ?_, rfl, rfl⟩, .inr ⟨hdrop, hdrop'⟩⟩
        rw [← hn, htake, parseNumberChecked_append_blank hc]
    case isFalse hstart =>
      rw [if_neg hstart]
      split at h
      case isTrue hident =>
        rw [if_pos hident]
        obtain ⟨rfl, rfl⟩ := Prod.mk.inj (Except.ok.inj h)
        rcases takeWhile_concat isIdentContinue c (d :: rest) with ⟨htake, hdrop⟩ | ⟨hcont, -⟩
        · rw [← List.cons_append, htake, hdrop]
          exact ⟨_, rfl, .inl rfl⟩
        · exact absurd (visible_of_isIdentContinue hcont) hnot
      case isFalse hident =>
        rw [if_neg hident]
        rcases lexOperator_eq_ok.mp h with ⟨d', hcons, hop⟩ | ⟨hnone, hop, rfl⟩
        · cases rest with
          | nil =>
            obtain ⟨rfl, -⟩ := List.cons.inj hcons
            exact absurd (visible_of_doubleOperator hop).2 hnot
          | cons d'' rest =>
            obtain ⟨rfl, rfl⟩ := List.cons.inj hcons
            exact ⟨rest, lexOperator_eq_ok.mpr (.inl ⟨_, rfl, hop⟩), .inl rfl⟩
        · refine ⟨rest, lexOperator_eq_ok.mpr (.inr ⟨?_, hop, rfl⟩), .inl rfl⟩
          cases rest with
          | nil => rfl
          | cons d'' rest => exact hnone

/-- White space behind an input changes no token. -/
theorem tokensFrom_append_blank (hc : isWhitespace c = true)
    (h : tokensFrom previous (s ++ [c]) = .ok tokens) : tokensFrom previous s = .ok tokens := by
  induction hlen : s.length using Nat.strong_induction_on generalizing previous s tokens with
  | _ len ih =>
  subst hlen
  cases s with
  | nil => exact tokensFrom_blank_cons hc h
  | cons d rest =>
    rcases tokensFrom_cons_eq_ok.mp h with
      ⟨hspace, hrest⟩ | ⟨hspace, tok, rest', more, htok, hrest, htokens⟩
    · exact tokensFrom_cons_eq_ok.mpr (.inl ⟨hspace, ih rest.length (Nat.lt_succ_self _) hrest rfl⟩)
    · obtain ⟨left, hleft, hcases⟩ := lexToken_append_blank hc htok
      refine tokensFrom_cons_eq_ok.mpr (.inr ⟨hspace, tok, left, more, hleft, ?_, htokens⟩)
      rcases hcases with rfl | ⟨rfl, rfl⟩
      · exact ih left.length (Nat.lt_succ_of_le (lexToken_length hleft)) hrest rfl
      · exact hrest

theorem tokensFrom_rdropWhile (h : tokensFrom previous s = .ok tokens) :
    tokensFrom previous (s.rdropWhile isWhitespace) = .ok tokens := by
  induction s using List.reverseRecOn with
  | nil => exact h
  | append_singleton s c ih =>
    by_cases hc : isWhitespace c = true
    · rw [List.rdropWhile_concat_pos _ _ _ hc]
      exact ih (tokensFrom_append_blank hc h)
    · rw [List.rdropWhile_concat_neg _ _ _ hc]
      exact h

/-- White space at the ends changes no token. -/
theorem lex_trim (h : lex s = .ok tokens) : lex (trim s) = .ok tokens :=
  lex_eq_ok.mpr (tokensFrom_rdropWhile (tokensFrom_dropWhile (lex_eq_ok.mp h)))

end Blank

/-! ### Templates -/

/-- The engine with this lexer and parser, and any way to evaluate a tree. -/
def lexingEngine (debug : Token → Str) (run : Expr → EvalContext → Except RunnerError ExprValue) :
    Engine where
  parse := parse debug
  evaluate input ctx := do run (← parse debug input) ctx
  formatNumber := formatNumber

/-- A text, then each expression with the text behind it. -/
def templateOf (text : Str) : List (Str × Str) → Str
  | [] => text
  | (expr, next) :: rest => text ++ (openDelim ++ (expr ++ (closeDelim ++ templateOf next rest)))

/-- The texts with the values between them, or the error of the first expression that fails. -/
def assembled (engine : Engine) (ctx : EvalContext) (text : Str) :
    List (Str × Str) → Except RunnerError Str
  | [] => .ok text
  | (expr, next) :: rest => do
    let value ← engine.evaluate expr ctx
    let tail ← assembled engine ctx next rest
    return text ++ (engine.coerceToString value ++ tail)

/-- The texts and the expressions as the scanner has to find them. -/
def scanned (text : Str) : List (Str × Str) → Template
  | [] => .text text
  | (expr, next) :: rest => .hole text expr (scanned next rest)

/-- What may stand between the texts and in the placeholders. -/
def WellFormed (text : Str) (items : List (Str × Str)) : Prop :=
  ¬ openDelim <:+: text ∧
    ∀ item ∈ items, (∃ tokens, lex item.1 = .ok tokens) ∧ ¬ openDelim <:+: item.2

section Templates

variable {text : Str} {items : List (Str × Str)}

theorem scanWith_templateOf {fuel : ℕ} (h : WellFormed text items)
    (hfuel : (templateOf text items).length ≤ fuel) :
    scanWith fuel (templateOf text items) = scanned text items := by
  induction items generalizing text fuel with
  | nil =>
    cases fuel with
    | zero => rfl
    | succ fuel =>
      show scanWith (fuel + 1) text = .text text
      rw [scanWith, splitFirst_eq_none_iff.mpr h.1]
  | cons item rest ih =>
    obtain ⟨expr, next⟩ := item
    obtain ⟨⟨tokens, hlex⟩, hnext⟩ := h.2 _ (List.mem_cons_self ..)
    have hlen : (templateOf text ((expr, next) :: rest)).length =
        text.length + (3 + (expr.length + (2 + (templateOf next rest).length))) := by
      simp only [templateOf, openDelim, closeDelim, List.length_append, List.length_cons,
        List.length_nil]
    obtain ⟨fuel, rfl⟩ : ∃ k, fuel = k + 1 := ⟨fuel - 1, by omega⟩
    have hsplit : splitFirst openDelim (templateOf text ((expr, next) :: rest)) =
        some (text, expr ++ (closeDelim ++ templateOf next rest)) :=
      splitFirst_of_not_infix (by decide) h.1 _
    have hdrop : (expr ++ (closeDelim ++ templateOf next rest)).drop (expr.length + 2) =
        templateOf next rest := by
      rw [← List.drop_drop, List.drop_left]
      rfl
    have hlong : (templateOf next rest).length ≤ fuel := by omega
    rw [scanWith, hsplit]
    dsimp only
    rw [expressionEnd_of_lex hlex]
    show Template.hole text _ (scanWith fuel _) = _
    rw [List.take_left, hdrop, ih ⟨hnext, fun item hitem => h.2 item (List.mem_cons_of_mem _ hitem)⟩
      hlong]
    rfl

variable {debug : Token → Str} {run : Expr → EvalContext → Except RunnerError ExprValue}
  {ctx : EvalContext}

theorem evaluate_trim {expr : Str} {tokens : List Token} (h : lex expr = .ok tokens) :
    (lexingEngine debug run).evaluate (trim expr) ctx =
      (lexingEngine debug run).evaluate expr ctx := by
  show (parse debug (trim expr) >>= fun tree => run tree ctx) = parse debug expr >>= _
  rw [parse, parse, h, lex_trim h]

theorem interpolateFrom_scanned (h : WellFormed text items) :
    (interpolateFrom (lexingEngine debug run) ctx (scanned text items)).result =
      assembled (lexingEngine debug run) ctx text items := by
  induction items generalizing text with
  | nil => rfl
  | cons item rest ih =>
    obtain ⟨expr, next⟩ := item
    obtain ⟨⟨tokens, hlex⟩, hnext⟩ := h.2 _ (List.mem_cons_self ..)
    have hrest := ih ⟨hnext, fun item hitem => h.2 item (List.mem_cons_of_mem _ hitem)⟩
    rw [assembled, ← evaluate_trim hlex, ← hrest, scanned, interpolateFrom, result_bind]
    refine bind_congr fun value => ?_
    rw [result_bind]
    rfl

/-- Behind an expression that lexes, the scanner finds, byte for byte, the delimiter that follows it;
    and a template of texts and such expressions comes to the texts and the values, or to the error
    of the first expression that fails. -/
theorem delimiters_agree (debug : Token → Str)
    (run : Expr → EvalContext → Except RunnerError ExprValue) (ctx : EvalContext) :
    (∀ e tokens t, lex e = .ok tokens →
      expressionEndBytes false (bytes (e ++ (closeDelim ++ t))) = some (utf8Len e)) ∧
    ∀ text items, WellFormed text items →
      (interpolate (lexingEngine debug run) ctx (templateOf text items)).result =
        assembled (lexingEngine debug run) ctx text items := by
  constructor
  · intro e tokens t h
    have hend : expressionEndFrom false (e ++ (closeDelim ++ t)) = some e.length :=
      expressionEnd_of_lex h t
    rw [expressionEndBytes_bytes, hend, Option.map_some, List.take_left]
  · intro text items h
    rw [interpolate, scan, scanWith_templateOf h le_rfl, interpolateFrom_scanned h]

end Templates

/-- The braces and the quotes in a literal hide no delimiter. -/
def bracedExpr : Str := " format('\x7b\x7b\x7b0\x7d\x7d\x7d', 'it''s') ".toList

theorem delimiters_agree_braces :
    expressionEndBytes false (bytes (bracedExpr ++ (closeDelim ++ "\x7d".toList))) = some 28 ∧
    (interpolate (lexingEngine (fun _ => []) fun _ _ => .ok (.string "\x7ba\x7d".toList))
        ⟨∅, .success, none⟩ (templateOf "value=".toList [(bracedExpr, "\x7d".toList)])).result =
      .ok "value=\x7ba\x7d\x7d".toList := by
  have h := delimiters_agree (fun _ => []) (fun _ _ => .ok (.string "\x7ba\x7d".toList))
    ⟨∅, .success, none⟩
  have hlex : lex bracedExpr = .ok [.ident "format".toList, .lParen,
      .stringLit "\x7b\x7b\x7b0\x7d\x7d\x7d".toList, .comma, .stringLit "it's".toList,
      .rParen] := by decide +kernel
  constructor
  · exact (h.1 _ _ "\x7d".toList hlex).trans (by decide +kernel)
  · have hwell : WellFormed "value=".toList [(bracedExpr, "\x7d".toList)] := by
      refine ⟨by decide, fun item hitem => ?_⟩
      obtain rfl := List.mem_singleton.mp hitem
      exact ⟨⟨_, hlex⟩, by decide⟩
    exact (h.2 _ _ hwell).trans (by decide +kernel)

end GhRunner.Expressions
