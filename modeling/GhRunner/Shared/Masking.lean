import GhRunner.Shared.SecretMasker
import GhRunner.Lib.Machine

namespace GhRunner.Shared

/-!
# Masking is complete and exact

What a masker has after any registrations, and what it makes of a line.

* `Call`, `SecretMasker.call` — the registrations;
* `Sound`, `sound_run` — the patterns are sorted and not empty, and the automaton is theirs;
* `mem_run` — the patterns are the forms of what was registered, in whatever order and batches;
* `bytes_mask` — masking redacts the bytes that the patterns cover;
* `mask_eq_self_iff` — masking changes exactly the lines in which a pattern stands, by the automaton
  or by the replacement loop;
* `masking_complete` — with what follows from it.
-/

open Text Utf8 Spans Machine

/-! ### Registrations -/

inductive Call
  | addSecret (value : Str)
  | addSecrets (values : List Str)
  | addMask (value : Str)
deriving DecidableEq

/-- A value, and how it was registered. -/
inductive Registration
  | secret (value : Str)
  | mask (value : Str)
deriving DecidableEq

def Call.registrations : Call → List Registration
  | .addSecret value => [.secret value]
  | .addSecrets values => values.map .secret
  | .addMask value => [.mask value]

def Registration.forms : Registration → List Str
  | .secret value => secretForms value
  | .mask value => maskForms value

namespace SecretMasker

variable {A : AhoCorasick}

def call (m : SecretMasker A) : Call → SecretMasker A
  | .addSecret value => m.addSecret value
  | .addSecrets values => m.addSecrets values
  | .addMask value => m.addMask value

/-- The masker after some registrations. -/
def after (calls : List Call) : SecretMasker A := run call new calls

/-- The replacement loop is not fallen back to. -/
def UsesAutomaton (m : SecretMasker A) : Prop := m.patterns ≠ [] → m.automaton.isSome

/-- What masking relies on: the patterns are in order and none is empty, and the automaton is the
    one built for them. -/
structure Sound (m : SecretMasker A) : Prop where
  longestFirst : LongestFirst m.patterns
  nonempty : ∀ p ∈ m.patterns, p ≠ []
  built : m.patterns ≠ [] → m.automaton = A.build m.patterns

end SecretMasker

/-! ### Forms are not empty -/

theorem replaceChar_ne_nil {c : Char} {replacement s : Str} (hr : replacement ≠ []) (h : s ≠ []) :
    replaceChar c replacement s ≠ [] := by
  obtain ⟨d, s, rfl⟩ := List.exists_cons_of_ne_nil h
  rw [replaceChar, List.flatMap_cons]
  split
  · exact List.append_ne_nil_of_left_ne_nil hr _
  · exact List.append_ne_nil_of_left_ne_nil (List.cons_ne_nil d []) _

theorem jsonEscape_ne_nil {value : Str} (h : value ≠ []) : jsonEscape value ≠ [] := by
  unfold jsonEscape
  iterate 5 apply replaceChar_ne_nil (by decide)
  exact h

theorem ne_nil_of_long {s : Str} (h : minSecretLen ≤ utf8Len s) : s ≠ [] := by
  rintro rfl
  exact absurd h (by decide)

theorem formsOf_ne_nil {value : Str} (h : value ≠ []) : ∀ p ∈ formsOf value, p ≠ [] := by
  intro p hp
  unfold formsOf at hp
  rcases List.mem_append.mp hp with hp | hp
  · rcases List.mem_cons.mp hp with rfl | hp
    · exact h
    · split at hp
      · obtain rfl := List.mem_singleton.mp hp
        exact jsonEscape_ne_nil h
      · exact absurd hp List.not_mem_nil
  · exact ne_nil_of_long (of_decide_eq_true (List.mem_filter.mp hp).2)

theorem Registration.forms_ne_nil (r : Registration) : ∀ p ∈ r.forms, p ≠ [] := by
  intro p hp
  cases r with
  | secret value =>
    simp only [Registration.forms, secretForms] at hp
    split at hp
    case isTrue => exact absurd hp List.not_mem_nil
    case isFalse hlong =>
      rcases List.mem_append.mp hp with hp | hp
      · exact formsOf_ne_nil (ne_nil_of_long (by omega)) p hp
      · obtain ⟨line, hline, hp⟩ := List.mem_flatMap.mp hp
        exact formsOf_ne_nil (ne_nil_of_long (of_decide_eq_true (List.mem_filter.mp hline).2)) p hp
  | mask value =>
    simp only [Registration.forms, maskForms] at hp
    split at hp
    case isTrue => exact absurd hp List.not_mem_nil
    case isFalse hblank =>
      have hvalue : value ≠ [] := by
        rintro rfl
        exact hblank rfl
      rcases List.mem_append.mp hp with hp | hp
      · exact formsOf_ne_nil hvalue p hp
      · obtain ⟨line, hline, hp⟩ := List.mem_flatMap.mp hp
        exact formsOf_ne_nil (of_decide_eq_true (List.mem_filter.mp hline).2) p hp

/-! ### The replacement loop -/

section ReplaceLoop

variable {pattern s : Str}

/-- Where the pattern stands, it makes way for three stars and has none itself. -/
theorem count_lt_of_begins (hp : pattern ≠ []) (hstar : '*' ∉ pattern) {c : Char} {rest : Str}
    (h : pattern <+: c :: rest)
    (hrest : '*' ∉ rest.take (pattern.length - 1) →
      rest.count '*' ≤ (replaceFrom pattern (pattern.length - 1) rest).count '*') :
    (c :: rest).count '*' < (replaceFrom pattern 0 (c :: rest)).count '*' := by
  obtain ⟨d, more, rfl⟩ := List.exists_cons_of_ne_nil hp
  obtain ⟨tail, htail⟩ := h
  rw [List.mem_cons, not_or] at hstar
  obtain ⟨rfl, hmore⟩ := List.cons.inj htail
  have htake : rest.take ((d :: more).length - 1) = more := by
    rw [← hmore, List.length_cons, Nat.add_sub_cancel]
    exact List.take_left
  rw [replaceFrom, if_pos (List.isPrefixOf_iff_prefix.mpr ⟨tail, htail⟩), List.count_append,
    List.count_cons_of_ne (Ne.symm hstar.1)]
  have hthree : stars.count '*' = 3 := by decide
  have hle := hrest (by rw [htake]; exact hstar.2)
  omega

/-- What is left out has no star. -/
theorem count_le_replaceFrom (hp : pattern ≠ []) (hstar : '*' ∉ pattern) (skip : ℕ)
    (hskip : '*' ∉ s.take skip) : s.count '*' ≤ (replaceFrom pattern skip s).count '*' := by
  induction s generalizing skip with
  | nil => exact Nat.zero_le _
  | cons c rest ih =>
    cases skip with
    | succ skip =>
      rw [List.take_succ_cons, List.mem_cons, not_or] at hskip
      rw [replaceFrom, List.count_cons_of_ne (Ne.symm hskip.1)]
      exact ih skip hskip.2
    | zero =>
      by_cases hpattern : pattern <+: c :: rest
      · exact (count_lt_of_begins hp hstar hpattern (ih _)).le
      · rw [replaceFrom, if_neg fun h => hpattern (List.isPrefixOf_iff_prefix.mp h),
          List.count_cons, List.count_cons]
        exact Nat.add_le_add_right (ih 0 List.not_mem_nil) _

theorem count_lt_replaceFrom (hp : pattern ≠ []) (hstar : '*' ∉ pattern) (h : pattern <:+: s) :
    s.count '*' < (replaceFrom pattern 0 s).count '*' := by
  induction s with
  | nil => exact absurd (List.infix_nil.mp h) hp
  | cons c rest ih =>
    by_cases hpattern : pattern <+: c :: rest
    · exact count_lt_of_begins hp hstar hpattern (count_le_replaceFrom hp hstar _)
    · rw [replaceFrom, if_neg fun h => hpattern (List.isPrefixOf_iff_prefix.mp h),
        List.count_cons, List.count_cons]
      exact Nat.add_lt_add_right (ih ((List.infix_cons_iff.mp h).resolve_left hpattern)) _

theorem replaceFrom_eq_self (h : ¬ pattern <:+: s) : replaceFrom pattern 0 s = s := by
  induction s with
  | nil => rfl
  | cons c rest ih =>
    rw [List.infix_cons_iff, not_or] at h
    rw [replaceFrom, if_neg fun hpattern => h.1 (List.isPrefixOf_iff_prefix.mp hpattern), ih h.2]

theorem count_le_replaceAll {patterns : List Str} (hp : ∀ p ∈ patterns, p ≠ [])
    (hstar : ∀ p ∈ patterns, '*' ∉ p) (s : Str) :
    s.count '*' ≤ (patterns.foldl (fun result p => replaceFrom p 0 result) s).count '*' := by
  induction patterns generalizing s with
  | nil => exact le_rfl
  | cons p patterns ih =>
    rw [List.forall_mem_cons] at hp hstar
    exact (count_le_replaceFrom hp.1 hstar.1 0 List.not_mem_nil).trans (ih hp.2 hstar.2 _)

/-- The loop leaves a text alone only where no pattern stands in it. -/
theorem replaceAll_eq_self_iff {patterns : List Str} (hp : ∀ p ∈ patterns, p ≠ [])
    (hstar : ∀ p ∈ patterns, '*' ∉ p) :
    patterns.foldl (fun result p => replaceFrom p 0 result) s = s ↔
      ∀ p ∈ patterns, ¬ p <:+: s := by
  induction patterns with
  | nil => simp
  | cons p patterns ih =>
    rw [List.forall_mem_cons] at hp hstar
    rw [List.foldl_cons, List.forall_mem_cons]
    constructor
    · intro h
      have hfirst : ¬ p <:+: s := by
        intro hin
        have hlt := count_lt_replaceFrom hp.1 hstar.1 hin
        have hle := count_le_replaceAll hp.2 hstar.2 (replaceFrom p 0 s)
        rw [h] at hle
        omega
      rw [replaceFrom_eq_self hfirst] at h
      exact ⟨hfirst, (ih hp.2 hstar.2).mp h⟩
    · rintro ⟨hfirst, hrest⟩
      rw [replaceFrom_eq_self hfirst]
      exact (ih hp.2 hstar.2).mpr hrest

end ReplaceLoop

/-! ### The masker after any registrations -/

namespace SecretMasker

variable {A : AhoCorasick}

theorem mem_call (m : SecretMasker A) (c : Call) {p : Str} :
    p ∈ (m.call c).patterns ↔ p ∈ m.patterns ∨ p ∈ c.registrations.flatMap Registration.forms := by
  cases c with
  | addSecret value =>
    rw [Call.registrations, List.flatMap_singleton]
    exact mem_insertSecretPatterns
  | addSecrets values =>
    rw [Call.registrations, List.flatMap_map]
    exact mem_foldl_add (f := insertSecretPatterns) (fun _ _ => mem_insertSecretPatterns) values
  | addMask value =>
    rw [Call.registrations, List.flatMap_singleton]
    refine Iff.trans ?_ (@mem_insertMaskPatterns m.patterns p value)
    rw [call, addMask]
    split <;> rfl

/-- The patterns are the forms of all that was registered. -/
theorem mem_after (calls : List Call) {p : Str} :
    p ∈ (after calls : SecretMasker A).patterns ↔
      ∃ r ∈ calls.flatMap Call.registrations, p ∈ r.forms := by
  induction calls using List.reverseRecOn with
  | nil => simp [after, new]
  | append_singleton calls c ih =>
    have hstep : (after (calls ++ [c]) : SecretMasker A) = (after calls).call c := run_append _ _ _ _
    rw [hstep, mem_call, ih, List.flatMap_append, List.flatMap_singleton]
    simp only [List.mem_append, List.mem_flatMap, or_and_right, exists_or]

theorem longestFirst_call {m : SecretMasker A} (h : LongestFirst m.patterns) (c : Call) :
    LongestFirst (m.call c).patterns := by
  cases c with
  | addSecret value => exact h.insertSecretPatterns value
  | addSecrets values => exact LongestFirst.foldl LongestFirst.insertSecretPatterns values h
  | addMask value =>
    rw [call, addMask]
    split
    · exact h
    · exact h.insertMaskPatterns value

theorem built_call {m : SecretMasker A} (h : m.patterns ≠ [] → m.automaton = A.build m.patterns)
    (c : Call) : (m.call c).patterns ≠ [] → (m.call c).automaton = A.build (m.call c).patterns := by
  cases c with
  | addSecret value => exact fun _ => rfl
  | addSecrets values => exact fun _ => rfl
  | addMask value =>
    rw [call, addMask]
    split
    · exact h
    · exact fun _ => rfl

theorem sound_after (calls : List Call) : (after calls : SecretMasker A).Sound := by
  have hrun : LongestFirst (after calls : SecretMasker A).patterns ∧
      ((after calls : SecretMasker A).patterns ≠ [] →
        (after calls : SecretMasker A).automaton = A.build (after calls : SecretMasker A).patterns) := by
    induction calls using List.reverseRecOn with
    | nil => exact ⟨longestFirst_nil, fun hne => absurd rfl hne⟩
    | append_singleton calls c ih =>
      have hstep : (after (calls ++ [c]) : SecretMasker A) = (after calls).call c :=
        run_append _ _ _ _
      rw [hstep]
      exact ⟨longestFirst_call ih.1 c, built_call ih.2 c⟩
  refine ⟨hrun.1, fun p hp => ?_, hrun.2⟩
  obtain ⟨r, -, hr⟩ := (mem_after calls).mp hp
  exact r.forms_ne_nil p hr

/-! ### Masking -/

/-- Where a pattern stands among the bytes, a character begins and another, or the end, follows. -/
theorem boundary_of_occurs {p input : Str} (hp : p ≠ []) {s : Span}
    (h : Occurs (bytes p) (bytes input) s) : Boundary input s.1 ∧ Boundary input s.2 := by
  obtain ⟨hend, hle, ys, hys⟩ := h
  have hsplit : bytes input = (bytes input).take s.1 ++ (bytes p ++ ys) := by
    rw [hys, List.take_append_drop]
  obtain ⟨a, b, rfl, ha, -⟩ := bytes_split hp hsplit
  have hstart : utf8Len a = s.1 := by
    rw [utf8Len, ha, List.length_take]
    omega
  refine ⟨⟨a, p ++ b, rfl, hstart⟩, a ++ p, b, (List.append_assoc _ _ _).symm, ?_⟩
  rw [utf8Len_append, hstart, hend]
  rfl

/-- With spans that begin and end at characters, what is rendered is what is filled. -/
theorem bytes_render {input : Str} {spans : List Span} {cursor : ℕ}
    (hcursor : Boundary input cursor) (hle : ∀ s ∈ spans, cursor ≤ s.1)
    (hvalid : ∀ s ∈ spans, s.1 < s.2) (hseparated : spans.Pairwise Before)
    (h : ∀ s ∈ spans, Boundary input s.1 ∧ Boundary input s.2) :
    bytes (render input cursor spans) = fill (bytes stars) (bytes input) cursor spans := by
  induction spans generalizing cursor with
  | nil =>
    obtain ⟨t, ht, hbytes⟩ := getFrom_boundary hcursor
    rw [render, ht, fill]
    exact hbytes
  | cons s spans ih =>
    obtain ⟨⟨hstart, hend⟩, h⟩ := List.forall_mem_cons.mp h
    obtain ⟨hbefore, hseparated⟩ := List.pairwise_cons.mp hseparated
    obtain ⟨t, ht, hbytes⟩ := getRange_boundary hcursor hstart (hle s List.mem_cons_self)
    have hrest := ih hend (fun u hu => (hbefore u hu).le)
      (List.forall_mem_cons.mp hvalid).2 hseparated h
    rw [render, ht, fill, bytes_append, bytes_append, hrest]
    exact congrArg (fun l => l ++ bytes stars ++ _) hbytes

/-- Masking is redacting the bytes that the patterns cover. -/
theorem bytes_mask {m : SecretMasker A} (hm : m.Sound) (hpath : m.UsesAutomaton) (input : Str) :
    bytes (m.mask input) =
      redact (bytes stars) (coveredBy (m.patterns.map bytes) (bytes input)) (bytes input) := by
  unfold mask
  by_cases hnone : m.patterns = []
  · rw [if_pos hnone, hnone]
    exact (redact_eq_self fun _ _ => rfl).symm
  rw [if_neg hnone]
  obtain ⟨automaton, hautomaton⟩ := Option.isSome_iff_exists.mp (hpath hnone)
  have hreports := A.reports m.patterns automaton ((hm.built hnone).symm.trans hautomaton) input
  let spans := sortSpans (A.findOverlapping automaton input)
  have hspans : ∀ s, s ∈ spans ↔ ∃ q ∈ m.patterns.map bytes, Occurs q (bytes input) s := by
    intro s
    rw [mem_sortSpans, hreports]
    simp
  have hcovered := coveredBy_iff_covers hspans
  have hoccurs : ∀ s ∈ spans, ∃ p ∈ m.patterns, p ≠ [] ∧ Occurs (bytes p) (bytes input) s := by
    intro s hs
    obtain ⟨p, hp, hs⟩ := (hreports s).mp (mem_sortSpans.mp hs)
    exact ⟨p, hp, hm.nonempty p hp, hs⟩
  have hbounds : ∀ s ∈ spans, s.1 < s.2 ∧ s.2 ≤ (bytes input).length := by
    intro s hs
    obtain ⟨p, -, hp, hs⟩ := hoccurs s hs
    exact ⟨hs.lt fun hnil => hp (bytes_injective hnil), hs.2.1⟩
  have hends : ∀ s ∈ spans, Boundary input s.1 ∧ Boundary input s.2 := by
    intro s hs
    obtain ⟨p, -, hp, hs⟩ := hoccurs s hs
    exact boundary_of_occurs hp hs
  have hvalid : ∀ s ∈ spans, s.1 < s.2 := fun s hs => (hbounds s hs).1
  have hsorted : spans.Pairwise fun s t => s.1 ≤ t.1 := sortSpans_starts _
  rw [hautomaton]
  show bytes (maskWithAutomaton automaton input) = _
  rw [← fill_merge hvalid hsorted (fun s hs => (hbounds s hs).2) hcovered, maskWithAutomaton]
  by_cases hempty : A.findOverlapping automaton input = []
  · have hspans : spans = [] := congrArg sortSpans hempty
    rw [if_pos hempty, hspans]
    rfl
  · rw [if_neg hempty]
    exact bytes_render (boundary_zero input) (fun _ _ => Nat.zero_le _) (valid_merge hvalid hsorted)
      (separated_merge hvalid hsorted) (merge_ends hends)

/-- Texts and their bytes stand in each other alike. -/
theorem bytes_within {p s : Str} (h : p <:+: s) : bytes p <:+: bytes s := by
  obtain ⟨a, b, rfl⟩ := h
  exact ⟨bytes a, bytes b, by rw [bytes_append, bytes_append]⟩

theorem within_of_bytes {p s : Str} (hp : p ≠ []) (h : bytes p <:+: bytes s) : p <:+: s := by
  obtain ⟨xs, ys, heq⟩ := h
  obtain ⟨a, b, rfl, -, -⟩ := bytes_split hp (heq.symm.trans (List.append_assoc xs (bytes p) ys))
  exact ⟨a, b, List.append_assoc a p b⟩

/-- A star is one byte, which no other character has. -/
theorem notMem_stars {p : Str} (h : '*' ∉ p) : ∀ b ∈ bytes p, b ∉ bytes stars := by
  intro b hb hstar
  have hb42 : b = 42 := by
    have hstars : bytes stars = [42, 42, 42] := by decide
    rw [hstars] at hstar
    simpa using hstar
  subst hb42
  obtain ⟨xs, ys, heq⟩ := List.append_of_mem hb
  have hone : bytes ['*'] <:+: bytes p := ⟨xs, ys, by rw [heq]; simp [bytes]; rfl⟩
  exact h ((within_of_bytes (List.cons_ne_nil _ _) hone).subset List.mem_cons_self)

/-- No pattern without a star is left in a masked line. -/
theorem not_infix_mask {m : SecretMasker A} (hm : m.Sound) (hpath : m.UsesAutomaton) {p : Str}
    (hp : p ∈ m.patterns) (hstar : '*' ∉ p) (input : Str) : ¬ p <:+: m.mask input := by
  intro h
  have hbytes := bytes_within h
  rw [bytes_mask hm hpath] at hbytes
  have hne : bytes p ≠ [] := fun hnil => hm.nonempty p hp (bytes_injective hnil)
  exact not_infix_redact_coveredBy (by decide) (List.mem_map_of_mem hp) hne (notMem_stars hstar) hbytes

/-- A line without a pattern is left as it is. -/
theorem mask_eq_self {m : SecretMasker A} (hm : m.Sound) (hpath : m.UsesAutomaton) {input : Str}
    (h : ∀ p ∈ m.patterns, ¬ p <:+: input) : m.mask input = input := by
  apply bytes_injective
  have hbytes : ∀ q ∈ m.patterns.map bytes, ¬ q <:+: bytes input := by
    intro q hq hin
    obtain ⟨p, hp, rfl⟩ := List.mem_map.mp hq
    exact h p hp (within_of_bytes (hm.nonempty p hp) hin)
  rw [bytes_mask hm hpath, redact_eq_self fun i _ => coveredBy_eq_false hbytes i]

/-- Masking changes exactly the lines in which a pattern stands, whichever way it goes. -/
theorem mask_eq_self_iff {m : SecretMasker A} (hm : m.Sound) (hstar : ∀ p ∈ m.patterns, '*' ∉ p)
    {input : Str} : m.mask input = input ↔ ∀ p ∈ m.patterns, ¬ p <:+: input := by
  cases hautomaton : m.automaton with
  | some automaton =>
    have hpath : m.UsesAutomaton := fun _ => by rw [hautomaton]; rfl
    refine ⟨fun h p hp hin => ?_, mask_eq_self hm hpath⟩
    rw [← h] at hin
    exact not_infix_mask hm hpath hp (hstar p hp) input hin
  | none =>
    have hloop : m.mask input = m.maskWithReplaceLoop input := by
      unfold mask
      split
      case isTrue hnone =>
        rw [maskWithReplaceLoop, hnone]
        rfl
      case isFalse => rw [hautomaton]
    rw [hloop]
    exact replaceAll_eq_self_iff hm.nonempty hstar

/-- Maskers with the same patterns mask alike. -/
theorem mask_congr {m m' : SecretMasker A} (hm : m.Sound) (hpath : m.UsesAutomaton)
    (hm' : m'.Sound) (hpath' : m'.UsesAutomaton) (h : ∀ p, p ∈ m.patterns ↔ p ∈ m'.patterns)
    (input : Str) : m.mask input = m'.mask input := by
  apply bytes_injective
  have hmap : ∀ q, q ∈ m.patterns.map bytes ↔ q ∈ m'.patterns.map bytes := by
    intro q
    simp only [List.mem_map, h]
  rw [bytes_mask hm hpath, bytes_mask hm' hpath', coveredBy_congr hmap]

/-- **Masking is complete and exact.**  After any registrations, as long as the automaton is used:
    the patterns are the forms of what was registered; each run of bytes that patterns cover becomes
    three stars and every other byte stays; where no pattern has a star, none is left and masking
    again changes nothing; and registering the same values in another order, or in other batches,
    masks every line alike. -/
theorem masking_complete (calls : List Call)
    (hpath : (after calls : SecretMasker A).UsesAutomaton) :
    let m : SecretMasker A := after calls
    (∀ p, p ∈ m.patterns ↔ ∃ r ∈ calls.flatMap Call.registrations, p ∈ r.forms) ∧
    (∀ input, bytes (m.mask input) =
      redact (bytes stars) (coveredBy (m.patterns.map bytes) (bytes input)) (bytes input)) ∧
    ((∀ p ∈ m.patterns, '*' ∉ p) → ∀ input,
      (∀ p ∈ m.patterns, ¬ p <:+: m.mask input) ∧ m.mask (m.mask input) = m.mask input) ∧
    ∀ calls', (after calls' : SecretMasker A).UsesAutomaton →
      (∀ r, r ∈ calls'.flatMap Call.registrations ↔ r ∈ calls.flatMap Call.registrations) →
      ∀ input, (after calls' : SecretMasker A).mask input = m.mask input := by
  intro m
  have hm : m.Sound := sound_after calls
  refine ⟨fun p => mem_after calls, bytes_mask hm hpath, fun hstar input => ?_, ?_⟩
  · have hgone : ∀ p ∈ m.patterns, ¬ p <:+: m.mask input :=
      fun p hp => not_infix_mask hm hpath hp (hstar p hp) input
    exact ⟨hgone, mask_eq_self hm hpath hgone⟩
  · intro calls' hpath' hsame input
    refine mask_congr (sound_after calls') hpath' hm hpath (fun p => ?_) input
    rw [mem_after calls', mem_after calls]
    simp only [hsame]

end SecretMasker

/-! ### A concrete line -/

/-- A library that tries every pattern at every offset. -/
def scanning : AhoCorasick where
  Automaton := List Str
  build := some
  findOverlapping patterns input := patterns.flatMap fun p =>
    ((List.range ((bytes input).length + 1)).filter fun a =>
      (bytes p).isPrefixOf ((bytes input).drop a)).map fun a => (a, a + (bytes p).length)
  reports patterns automaton hbuild input s := by
    obtain rfl := Option.some.inj hbuild
    rw [List.mem_flatMap]
    refine exists_congr fun p => and_congr_right fun _ => ?_
    rw [List.mem_map]
    constructor
    · rintro ⟨a, ha, rfl⟩
      obtain ⟨hrange, hbegins⟩ := List.mem_filter.mp ha
      exact occurs_of_begins (by simpa [Nat.lt_succ_iff] using hrange)
        (List.isPrefixOf_iff_prefix.mp hbegins)
    · rintro ⟨hend, hle, hbegins⟩
      refine ⟨s.1, List.mem_filter.mpr ⟨?_, List.isPrefixOf_iff_prefix.mpr hbegins⟩,
        Prod.ext rfl hend.symm⟩
      rw [List.mem_range]
      omega

/-- Two secrets that overlap in a line are masked as one. -/
theorem overlap_masked :
    let calls : List Call := [.addSecret "abcdef12".toList, .addSecret "xabc".toList]
    (SecretMasker.after calls : SecretMasker scanning).UsesAutomaton ∧
      bytes ((SecretMasker.after calls : SecretMasker scanning).mask "xabcdef12y".toList) =
        bytes "***y".toList := by
  intro calls
  have hpath : (SecretMasker.after calls : SecretMasker scanning).UsesAutomaton := fun _ => rfl
  exact ⟨hpath, ((SecretMasker.masking_complete calls hpath).2.1 _).trans (by decide +kernel)⟩

end GhRunner.Shared
