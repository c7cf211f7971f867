import GhRunner.Expressions.Functions
import GhRunner.Shared.Masking

namespace GhRunner.Execution

open Text Utf8 Spans GhRunner.Shared GhRunner.Expressions

/-!
# Secrets inside JSON strings

The masker registers a secret as it is escaped inside a JSON string with five replacements of its own
(`add_pattern` of `crates/shared/src/secret_masker.rs`); `toJSON` leaves the escaping to `serde_json`
(`write_json` of `crates/expressions/src/functions/json_convert.rs`), which has escapes for the other
control characters too.

* `escapedText` — a text inside the JSON string that `toJSON` writes;
* `SharesEscape` — the characters on which both agree;
* `hidden_of_mem` — a text that is a pattern is masked, by the automaton or by the replacement loop;
* `backslash_mem_mask` — a backslash that no pattern accounts for is left;
* `escaped_secret_hidden` — which escaped secrets are masked.
-/

/-- A text as `toJSON` writes it between the quotes. -/
def escapedText (s : Str) : Str := s.flatMap escapeJsonChar

/-- No control character, or one that the masker replaces. -/
def SharesEscape (c : Char) : Prop := 32 ≤ c.toNat ∨ c = '\n' ∨ c = '\r' ∨ c = '\t'

instance (c : Char) : Decidable (SharesEscape c) := inferInstanceAs (Decidable (_ ∨ _))

/-- Nothing but stars is left of the text. -/
def Hidden {A : AhoCorasick} (m : SecretMasker A) (text : Str) : Prop := ∀ c ∈ m.mask text, c = '*'

/-! ### The two ways of escaping -/

/-- What the five replacements make of one character. -/
def replaceAllChar (c : Char) : Str :=
  if c = '\\' then "\\\\".toList
  else if c = '"' then "\\\"".toList
  else if c = '\n' then "\\n".toList
  else if c = '\r' then "\\r".toList
  else if c = '\t' then "\\t".toList
  else [c]

/-- No replacement touches what an earlier one put in. -/
theorem jsonEscape_eq_flatMap (s : Str) : jsonEscape s = s.flatMap replaceAllChar := by
  unfold jsonEscape replaceChar
  rw [List.flatMap_assoc, List.flatMap_assoc, List.flatMap_assoc, List.flatMap_assoc]
  refine List.flatMap_congr fun c _ => ?_
  unfold replaceAllChar
  by_cases hbackslash : c = '\\'
  · subst hbackslash
    decide
  by_cases hquote : c = '"'
  · subst hquote
    decide
  by_cases hnewline : c = '\n'
  · subst hnewline
    decide
  by_cases hreturn : c = '\r'
  · subst hreturn
    decide
  by_cases htab : c = '\t'
  · subst htab
    decide
  simp [hbackslash, hquote, hnewline, hreturn, htab]

theorem escapeJsonChar_eq {c : Char} (h : SharesEscape c) : escapeJsonChar c = replaceAllChar c := by
  unfold escapeJsonChar replaceAllChar
  obtain h | rfl | rfl | rfl := h
  · have hne (d : Char) (hd : d.toNat < 32) : c ≠ d := by
      rintro rfl
      omega
    have hlow : ¬ c.toNat < 32 := by omega
    simp only [if_neg (hne '\x08' (by decide)), if_neg (hne '\x0C' (by decide)),
      if_neg (hne '\n' (by decide)), if_neg (hne '\r' (by decide)), if_neg (hne '\t' (by decide)),
      if_neg hlow]
    by_cases hquote : c = '"'
    · rw [if_pos hquote, if_neg (by rw [hquote]; decide), if_pos hquote]
    · rw [if_neg hquote, if_neg hquote]
  all_goals decide

theorem escapedText_eq_jsonEscape {s : Str} (h : ∀ c ∈ s, SharesEscape c) :
    escapedText s = jsonEscape s := by
  rw [jsonEscape_eq_flatMap]
  exact List.flatMap_congr fun c hc => escapeJsonChar_eq (h c hc)

/-- The escaped text is a form of the secret. -/
theorem escapedText_mem_formsOf {s : Str} (h : ∀ c ∈ s, SharesEscape c) : escapedText s ∈ formsOf s := by
  rw [escapedText_eq_jsonEscape h]
  unfold formsOf
  by_cases hsame : jsonEscape s = s
  · rw [hsame]
    exact List.mem_append_left _ List.mem_cons_self
  · rw [if_pos hsame]
    simp

/-! ### A pattern by itself -/

section Pattern

variable {A : AhoCorasick} {m : SecretMasker A} {p : Str}

theorem mem_replaceFrom {c : Char} {skip : ℕ} {s : Str} (h : c ∈ replaceFrom p skip s) :
    c ∈ s ∨ c = '*' := by
  induction s generalizing skip with
  | nil => exact .inl h
  | cons d rest ih =>
    cases skip with
    | succ skip => exact (ih h).imp_left (List.mem_cons_of_mem d)
    | zero =>
      unfold replaceFrom at h
      dsimp only at h
      split at h
      · rcases List.mem_append.mp h with h | h
        · right
          simpa [stars] using h
        · exact (ih h).imp_left (List.mem_cons_of_mem d)
      · rcases List.mem_cons.mp h with rfl | h
        · exact .inl List.mem_cons_self
        · exact (ih h).imp_left (List.mem_cons_of_mem d)

theorem mem_replaceAll {patterns : List Str} {c : Char} {s : Str}
    (h : c ∈ patterns.foldl (fun result p => replaceFrom p 0 result) s) : c ∈ s ∨ c = '*' := by
  induction patterns generalizing s with
  | nil => exact .inl h
  | cons q patterns ih =>
    rcases ih h with h | h
    · exact mem_replaceFrom h
    · exact .inr h

theorem replaceFrom_self (hp : p ≠ []) : replaceFrom p 0 p = stars := by
  have hrest (skip : ℕ) (s : Str) (h : s.length ≤ skip) : replaceFrom p skip s = [] := by
    induction s generalizing skip with
    | nil => rfl
    | cons c rest ih =>
      obtain ⟨skip, rfl⟩ : ∃ k, skip = k + 1 := ⟨skip - 1, by simp at h; omega⟩
      exact ih skip (by simpa using h)
  obtain ⟨c, rest, hc⟩ := List.exists_cons_of_ne_nil hp
  have hself : (p.isPrefixOf (c :: rest)) = true := by
    rw [← hc]
    exact List.isPrefixOf_iff_prefix.mpr (List.prefix_refl p)
  have hlength : rest.length ≤ p.length - 1 := by
    rw [hc]
    simp
  show replaceFrom p 0 p = _
  conv_lhs => arg 3; rw [hc]
  rw [replaceFrom, if_pos hself, hrest _ _ hlength, List.append_nil]

/-- The loop meets longer patterns first, which have no room in this one. -/
theorem replaceAll_self {patterns : List Str} (hsorted : patterns.Pairwise fun p q => utf8Len q ≤ utf8Len p)
    (hp : p ∈ patterns) (hne : p ≠ []) {c : Char}
    (hc : c ∈ patterns.foldl (fun result q => replaceFrom q 0 result) p) : c = '*' := by
  induction patterns with
  | nil => exact absurd hp List.not_mem_nil
  | cons q patterns ih =>
    obtain ⟨hq, hsorted⟩ := List.pairwise_cons.mp hsorted
    rw [List.foldl_cons] at hc
    by_cases hqp : q = p
    · rw [hqp, replaceFrom_self hne] at hc
      rcases mem_replaceAll hc with hc | hc
      · simpa [stars] using hc
      · exact hc
    · have hp : p ∈ patterns := (List.mem_cons.mp hp).resolve_left (Ne.symm hqp)
      have hroom : ¬ q <:+: p := by
        rintro ⟨a, b, hab⟩
        have hlen := congrArg utf8Len hab
        have := hq p hp
        rw [utf8Len_append, utf8Len_append] at hlen
        have ha : a = [] := utf8Len_eq_zero_iff.mp (by omega)
        have hb : b = [] := utf8Len_eq_zero_iff.mp (by omega)
        rw [ha, hb, List.nil_append, List.append_nil] at hab
        exact hqp hab
      rw [replaceFrom_eq_self hroom] at hc
      exact ih hsorted hp hc

/-- A text that is a pattern is masked as a whole. -/
theorem hidden_of_mem (hm : m.Sound) (hp : p ∈ m.patterns) : Hidden m p := by
  have hne := hm.nonempty p hp
  have hpatterns : m.patterns ≠ [] := List.ne_nil_of_mem hp
  intro c hc
  cases hautomaton : m.automaton with
  | some automaton =>
    have hpath : m.UsesAutomaton := fun _ => by rw [hautomaton]; rfl
    have hbytes : bytes p ≠ [] := fun hnil => hne (bytes_injective hnil)
    have hcovered : ∀ j, 0 ≤ j → j < 0 + (bytes p).length →
        coveredBy (m.patterns.map bytes) (bytes p) j = true := fun j _ hj =>
      coveredBy_iff.mpr ⟨bytes p, List.mem_map_of_mem hp, 0, Nat.zero_le j, hj, List.prefix_refl _⟩
    have hmask : bytes (m.mask p) = bytes stars := by
      rw [SecretMasker.bytes_mask hm hpath, redact]
      have hall : redactFrom (bytes stars) (coveredBy (m.patterns.map bytes) (bytes p)) false 0
          (bytes p ++ []) = _ := redactFrom_append_covered hbytes hcovered []
      rw [List.append_nil] at hall
      rw [hall]
      exact List.append_nil _
    rw [bytes_injective hmask] at hc
    simpa [stars] using hc
  | none =>
    have hmask : m.mask p = m.patterns.foldl (fun result q => replaceFrom q 0 result) p := by
      unfold SecretMasker.mask
      rw [if_neg hpatterns, hautomaton]
      rfl
    rw [hmask] at hc
    exact replaceAll_self hm.longestFirst.sorted hp hne hc

end Pattern

/-! ### A backslash that stays -/

section Backslash

variable {A : AhoCorasick} {m : SecretMasker A} {p : Str}

/-- A replacement without backslashes leaves those there are. -/
theorem backslash_mem_replaceFrom (hne : p ≠ []) (hp : '\\' ∉ p) {skip : ℕ} {s : Str}
    (hskip : '\\' ∉ s.take skip) (h : '\\' ∈ s) : '\\' ∈ replaceFrom p skip s := by
  induction s generalizing skip with
  | nil => exact absurd h List.not_mem_nil
  | cons d rest ih =>
    cases skip with
    | succ skip =>
      rw [List.take_succ_cons, List.mem_cons, not_or] at hskip
      exact ih hskip.2 ((List.mem_cons.mp h).resolve_left hskip.1)
    | zero =>
      rw [replaceFrom]
      split
      case isTrue hbegins =>
        -- none of the characters that are taken out is one
        obtain ⟨e, more, rfl⟩ := List.exists_cons_of_ne_nil hne
        obtain ⟨rfl, hmore⟩ := List.cons_prefix_cons.mp (List.isPrefixOf_iff_prefix.mp hbegins)
        rw [List.mem_cons, not_or] at hp
        have htaken : rest.take ((e :: more).length - 1) = more :=
          (List.prefix_iff_eq_take.mp hmore).symm
        refine List.mem_append_right _ (ih ?_ ((List.mem_cons.mp h).resolve_left hp.1))
        rw [htaken]
        exact hp.2
      case isFalse =>
        rcases List.mem_cons.mp h with rfl | h
        · exact List.mem_cons_self
        · exact List.mem_cons_of_mem d (ih (by simp) h)

/-- Each pattern with a backslash has a character that the text has not. -/
def BackslashesForeign (patterns : List Str) (s : Str) : Prop :=
  ∀ p ∈ patterns, '\\' ∈ p → ∃ d ∈ p, d ∉ s ∧ d ≠ '*'

theorem backslash_mem_replaceAll {patterns : List Str} {input s : Str} (hne : ∀ p ∈ patterns, p ≠ [])
    (h : BackslashesForeign patterns input) (hs : ∀ d ∈ s, d ∈ input ∨ d = '*') (hmem : '\\' ∈ s) :
    '\\' ∈ patterns.foldl (fun result p => replaceFrom p 0 result) s := by
  induction patterns generalizing s with
  | nil => exact hmem
  | cons p patterns ih =>
    obtain ⟨hp, hne⟩ := List.forall_mem_cons.mp hne
    obtain ⟨hforeign, hrest⟩ := List.forall_mem_cons.mp h
    rw [List.foldl_cons]
    refine ih hne hrest (fun d hd => (mem_replaceFrom hd).elim (hs d) .inr) ?_
    by_cases hbackslash : '\\' ∈ p
    · obtain ⟨d, hd, hforeign, hstar⟩ := hforeign hbackslash
      have hnot : ¬ p <:+: s := fun hin => ((hs d (hin.subset hd)).elim hforeign hstar)
      rw [replaceFrom_eq_self hnot]
      exact hmem
    · exact backslash_mem_replaceFrom hp hbackslash (by simp) hmem

/-- The byte of a backslash is in no other character. -/
theorem backslash_mem_of_byte {s : Str} (h : (92 : UInt8) ∈ bytes s) : '\\' ∈ s := by
  obtain ⟨c, hc, hbyte⟩ := List.mem_flatMap.mp h
  rwa [← encodeChar_eq_of_lt (d := '\\') hbyte (by decide) (by decide)]

theorem backslash_mem_mask (hm : m.Sound) {input : Str} (h : BackslashesForeign m.patterns input)
    (hmem : '\\' ∈ input) : '\\' ∈ m.mask input := by
  by_cases hnone : m.patterns = []
  · unfold SecretMasker.mask
    rwa [if_pos hnone]
  cases hautomaton : m.automaton with
  | some automaton =>
    have hpath : m.UsesAutomaton := fun _ => by rw [hautomaton]; rfl
    apply backslash_mem_of_byte
    rw [SecretMasker.bytes_mask hm hpath]
    have hbyte : (92 : UInt8) ∈ bytes input := List.mem_flatMap.mpr ⟨'\\', hmem, by decide⟩
    obtain ⟨i, hi⟩ := List.mem_iff_getElem?.mp hbyte
    refine mem_redactFrom hi ?_
    -- a pattern that stands there has the backslash, and what the text has not
    rw [Nat.zero_add, ← Bool.not_eq_true, coveredBy_iff]
    rintro ⟨q, hq, a, ha, hlt, hbegins⟩
    obtain ⟨p, hp, rfl⟩ := List.mem_map.mp hq
    have hat : (bytes p)[i - a]? = some 92 := by
      obtain ⟨tail, htail⟩ := hbegins
      have hget := congrArg (fun l : List UInt8 => l[i - a]?) htail
      rw [List.getElem?_append_left (by omega), List.getElem?_drop, Nat.add_sub_cancel' ha, hi] at hget
      exact hget
    obtain ⟨d, hd, hforeign, -⟩ := h p hp (backslash_mem_of_byte (List.mem_of_getElem? hat))
    have hin : p <:+: input := SecretMasker.within_of_bytes (hm.nonempty p hp)
      (hbegins.isInfix.trans (List.drop_suffix a _).isInfix)
    exact hforeign (hin.subset hd)
  | none =>
    have hmask : m.mask input = m.patterns.foldl (fun result q => replaceFrom q 0 result) input := by
      unfold SecretMasker.mask
      rw [if_neg hnone, hautomaton]
      rfl
    rw [hmask]
    exact backslash_mem_replaceAll hm.nonempty h (fun d hd => .inl hd) hmem

end Backslash

/-! ### The forms of a secret -/

section Forms

variable {s : Str}

theorem escapeJsonChar_low {c : Char} (h : ¬ SharesEscape c) : '\\' ∈ escapeJsonChar c := by
  unfold SharesEscape at h
  rw [not_or] at h
  have hlow : c.toNat < 32 := by omega
  -- each of its escapes begins with one
  unfold escapeJsonChar
  rw [if_pos hlow]
  repeat' split
  all_goals exact List.mem_cons_self

/-- No control character is left between the quotes. -/
theorem low_notMem_escapedText {d : Char} (hd : d.toNat < 32) : d ∉ escapedText s := by
  have hdigit : ∀ n < 16, 32 ≤ (hexDigit n).toNat := by decide
  have hne (text : String) (h : ∀ e ∈ text.toList, 32 ≤ e.toNat) : d ∉ text.toList := fun hmem => by
    have := h d hmem
    omega
  intro h
  obtain ⟨c, -, hc⟩ := List.mem_flatMap.mp h
  unfold escapeJsonChar at hc
  split at hc
  · exact hne "\\\"" (by decide) hc
  split at hc
  · exact hne "\\\\" (by decide) hc
  split at hc
  · exact hne "\\b" (by decide) hc
  split at hc
  · exact hne "\\f" (by decide) hc
  split at hc
  · exact hne "\\n" (by decide) hc
  split at hc
  · exact hne "\\r" (by decide) hc
  split at hc
  · exact hne "\\t" (by decide) hc
  split at hc
  case isTrue hlow =>
    rcases List.mem_append.mp hc with hc | hc
    · exact hne "\\u00" (by decide) hc
    · have hhigh := hdigit (c.toNat / 16) (by omega)
      have hrest := hdigit (c.toNat % 16) (by omega)
      simp only [List.mem_cons, List.not_mem_nil, or_false] at hc
      rcases hc with rfl | rfl <;> omega
  case isFalse hlow =>
    rw [List.mem_singleton.mp hc] at hd
    exact hlow hd

/-- A character that is replaced by nothing else stays. -/
theorem mem_jsonEscape {c : Char} (hc : c ∈ s) (h : ¬ SharesEscape c) : c ∈ jsonEscape s := by
  rw [jsonEscape_eq_flatMap]
  have hkept : replaceAllChar c = [c] := by
    have hne (d : Char) (hd : SharesEscape d) : c ≠ d := fun heq => h (heq ▸ hd)
    unfold replaceAllChar
    rw [if_neg (hne '\\' (by decide)), if_neg (hne '"' (by decide)), if_neg (hne '\n' (by decide)),
      if_neg (hne '\r' (by decide)), if_neg (hne '\t' (by decide))]
  exact List.mem_flatMap.mpr ⟨c, hc, by rw [hkept]; exact List.mem_cons_self⟩

/-- What needs no escaping has no backslash. -/
theorem backslash_notMem_of_jsonEscape (h : jsonEscape s = s) : '\\' ∉ s := by
  have hlength (c : Char) : 1 ≤ (replaceAllChar c).length := by
    unfold replaceAllChar
    repeat' split
    all_goals simp
  have hle (s : Str) : s.length ≤ (s.flatMap replaceAllChar).length := by
    induction s with
    | nil => exact Nat.zero_le _
    | cons c s ih =>
      have := hlength c
      rw [List.flatMap_cons, List.length_append, List.length_cons]
      omega
  intro hmem
  obtain ⟨a, b, rfl⟩ := List.append_of_mem hmem
  rw [jsonEscape_eq_flatMap] at h
  have hlen := congrArg List.length h
  rw [List.flatMap_append, List.flatMap_cons] at hlen
  have hdouble : (replaceAllChar '\\').length = 2 := by decide
  have ha := hle a
  have hb := hle b
  simp only [List.length_append, List.length_cons] at hlen
  omega

theorem backslash_notMem_hexByte (b : UInt8) (upper : Bool) : '\\' ∉ hexByte b upper := by
  have hnibble : ∀ n < 16, hexNibble n upper ≠ '\\' := by
    cases upper <;> decide
  have := b.toNat_lt
  intro h
  simp only [hexByte, List.mem_cons, List.not_mem_nil, or_false] at h
  rcases h with h | h
  · exact hnibble _ (by omega) h.symm
  · exact hnibble _ (by omega) h.symm

theorem backslash_notMem_variants {v : Str} (h : v ∈ variants s) : '\\' ∉ v := by
  have hbase64 (bs : List UInt8) : '\\' ∉ Base64.encode Base64.standard bs := fun hmem =>
    absurd (Base64.mem_encode Base64.standard hmem) (by decide)
  have hhex (bs : List UInt8) (upper : Bool) : '\\' ∉ hexEncode bs upper := fun hmem => by
    obtain ⟨b, -, hb⟩ := List.mem_flatMap.mp hmem
    exact backslash_notMem_hexByte b upper hb
  have hpercent (bs : List UInt8) (upper : Bool) : '\\' ∉ percentEncode bs upper := fun hmem => by
    obtain ⟨b, -, hb⟩ := List.mem_flatMap.mp hmem
    split at hb
    case isTrue hunreserved =>
      unfold isUnreserved at hunreserved
      rw [← List.mem_singleton.mp hb] at hunreserved
      exact absurd hunreserved (by decide)
    case isFalse =>
      rcases List.mem_cons.mp hb with hb | hb
      · exact absurd hb (by decide)
      · exact backslash_notMem_hexByte b upper hb
  simp only [variants, List.mem_cons, List.not_mem_nil, or_false] at h
  obtain rfl | rfl | rfl | rfl | rfl | rfl := h
  · intro hmem
    rcases List.mem_append.mp hmem with hmem | hmem
    · exact hbase64 _ hmem
    · exact absurd (List.eq_of_mem_replicate hmem) (by decide)
  · exact hbase64 _
  · exact hhex _ _
  · exact hhex _ _
  · exact hpercent _ _
  · exact hpercent _ _

/-- The forms with a backslash keep a control character of their own, or else the value is escaped. -/
theorem backslashesForeign_formsOf {input : Str} (hinput : ∀ d ∈ input, 32 ≤ d.toNat)
    (h : (∃ c ∈ s, ¬ SharesEscape c) ∨ jsonEscape s = s) : BackslashesForeign (formsOf s) input := by
  intro p hp hbackslash
  have hforeign {c : Char} (hc : ¬ SharesEscape c) (hmem : c ∈ p) : ∃ d ∈ p, d ∉ input ∧ d ≠ '*' := by
    refine ⟨c, hmem, fun hin => hc (.inl (hinput c hin)), ?_⟩
    rintro rfl
    exact hc (by decide)
  have hraw : p = s ∨ p = jsonEscape s := by
    rcases List.mem_append.mp hp with hp | hp
    · rcases List.mem_cons.mp hp with rfl | hp
      · exact .inl rfl
      · split at hp
        · exact .inr (List.mem_singleton.mp hp)
        · exact absurd hp List.not_mem_nil
    · exact absurd hbackslash (backslash_notMem_variants (List.mem_filter.mp hp).1)
  obtain ⟨c, hc, hlow⟩ | hplain := h
  · rcases hraw with rfl | rfl
    · exact hforeign hlow hc
    · exact hforeign hlow (mem_jsonEscape hc hlow)
  · refine absurd hbackslash ?_
    rcases hraw with rfl | rfl
    · exact backslash_notMem_of_jsonEscape hplain
    · rw [hplain]
      exact backslash_notMem_of_jsonEscape hplain

end Forms

/-- A registered secret whose control characters are among those that the masker replaces is masked as
    `toJSON` escapes it; with another control character it is not, as long as each line without one needs
    no escaping. -/
theorem escaped_secret_hidden {A : AhoCorasick} (secret : Str)
    (hlong : minSecretLen ≤ utf8Len (trim secret)) :
    let masked := ∀ calls : List Call, .secret secret ∈ calls.flatMap Call.registrations →
      Hidden (SecretMasker.after calls : SecretMasker A) (escapedText (trim secret))
    ((∀ c ∈ trim secret, SharesEscape c) → masked) ∧
      ((∀ line ∈ trimmedLines (trim secret), (∀ c ∈ line, SharesEscape c) → jsonEscape line = line) →
        masked → ∀ c ∈ trim secret, SharesEscape c) := by
  intro masked
  have hforms : secretForms secret = formsOf (trim secret) ++
      ((trimmedLines (trim secret)).filter fun line => minSecretLen ≤ utf8Len line).flatMap formsOf :=
    if_neg (by omega)
  constructor
  · intro hshares calls hregistered
    refine hidden_of_mem (SecretMasker.sound_after calls) ?_
    refine (SecretMasker.mem_after calls).mpr ⟨_, hregistered, ?_⟩
    show _ ∈ secretForms secret
    rw [hforms]
    exact List.mem_append_left _ (escapedText_mem_formsOf hshares)
  · intro hlines hmasked c hc
    by_contra hlow
    have hinput : ∀ d ∈ escapedText (trim secret), 32 ≤ d.toNat := fun d hd => by
      by_contra hd'
      exact low_notMem_escapedText (by omega) hd
    have hforeign : BackslashesForeign (SecretMasker.after [.addSecret secret] : SecretMasker A).patterns
        (escapedText (trim secret)) := by
      intro p hp
      obtain ⟨r, hr, hp⟩ := (SecretMasker.mem_after _).mp hp
      obtain rfl : r = .secret secret := by simpa [Call.registrations] using hr
      have hp : p ∈ secretForms secret := hp
      rw [hforms] at hp
      rcases List.mem_append.mp hp with hp | hp
      · exact backslashesForeign_formsOf hinput (.inl ⟨c, hc, hlow⟩) p hp
      · obtain ⟨line, hline, hp⟩ := List.mem_flatMap.mp hp
        refine backslashesForeign_formsOf hinput ?_ p hp
        by_cases hshares : ∀ c ∈ line, SharesEscape c
        · exact .inr (hlines line (List.mem_filter.mp hline).1 hshares)
        · exact .inl (by simpa using hshares)
    have hbackslash : '\\' ∈ escapedText (trim secret) :=
      List.mem_flatMap.mpr ⟨c, hc, escapeJsonChar_low hlow⟩
    have hleft := backslash_mem_mask (SecretMasker.sound_after [.addSecret secret]) hforeign hbackslash
    exact absurd (hmasked [.addSecret secret] (by simp [Call.registrations]) _ hleft) (by decide)

/-- A secret with a quote is masked where `toJSON` prints it. -/
theorem escaped_secret_hidden_quote :
    Hidden (SecretMasker.after [.addSecret "ab\"cd".toList] : SecretMasker scanning)
      (escapedText (trim "ab\"cd".toList)) :=
  (escaped_secret_hidden "ab\"cd".toList (by decide)).1 (by decide)
    [.addSecret "ab\"cd".toList] (by simp [Call.registrations])

/-- The control character is printed as `\u0001`, and the line is left as it is. -/
theorem control_secret_printed :
    let m : SecretMasker scanning := SecretMasker.after [.addSecret "ab\x01cd".toList]
    escapedText (trim "ab\x01cd".toList) = "ab\\u0001cd".toList ∧
      m.mask "ab\\u0001cd".toList = "ab\\u0001cd".toList := by
  decide

end GhRunner.Execution
