import Mathlib.Data.List.Sort
import Mathlib.Data.List.Infix
import Mathlib.Order.Basic

/-!
# Spans of a list

Stretches of a list given by their offsets, and a list with some of its elements struck out.

* `Span`, `Covers`, `sortSpans` — from an offset to another, what a list of spans covers, and the
  order by offsets;
* `absorb`, `merge` — sorted spans merged in one pass, each into the last one it meets;
* `covers_merge`, `separated_merge` — the same is covered, and no two merged spans meet;
* `fill` — a mark in the place of each span;
* `redact` — the same by elements: a mark for each run of covered ones, the others as they are;
* `fill_merge` — filling the merged spans is redacting what the spans cover;
* `not_infix_redact` — what has nothing of the mark and is covered wherever it stands is not in the
  redacted list;
* `Occurs`, `coveredBy` — where patterns stand in a list, and what they cover.
-/

namespace Spans

/-- From the first offset up to the second. -/
abbrev Span := ℕ × ℕ

def Covers (spans : List Span) (i : ℕ) : Prop := ∃ s ∈ spans, s.1 ≤ i ∧ i < s.2

/-- The second span begins beyond the end of the first. -/
def Before (s t : Span) : Prop := s.2 < t.1

/-! ### Sorting -/

/-- By start, then by end. -/
def SpanLe (s t : Span) : Prop := s.1 < t.1 ∨ s.1 = t.1 ∧ s.2 ≤ t.2

instance decidableSpanLe : DecidableRel SpanLe := fun _ _ => inferInstanceAs (Decidable (_ ∨ _))

instance totalSpanLe : Std.Total SpanLe where
  total s t := by
    unfold SpanLe
    omega

instance transSpanLe : IsTrans Span SpanLe where
  trans s t u hst htu := by
    unfold SpanLe at *
    omega

def sortSpans (spans : List Span) : List Span := spans.insertionSort SpanLe

theorem mem_sortSpans {spans : List Span} {s : Span} : s ∈ sortSpans spans ↔ s ∈ spans :=
  (List.perm_insertionSort SpanLe spans).mem_iff

theorem sortSpans_starts (spans : List Span) :
    (sortSpans spans).Pairwise fun s t => s.1 ≤ t.1 := by
  refine (List.pairwise_insertionSort SpanLe spans).imp fun {s t} h => ?_
  unfold SpanLe at h
  omega

/-! ### Merging -/

/-- One more span; the last one merged stands first. -/
def absorb (merged : List Span) (s : Span) : List Span :=
  match merged with
  | [] => [s]
  | last :: rest =>
    if s.1 ≤ last.2 then (last.1, if last.2 < s.2 then s.2 else last.2) :: rest
    else s :: last :: rest

theorem absorb_cons (last : Span) (rest : List Span) (s : Span) :
    absorb (last :: rest) s =
      if s.1 ≤ last.2 then (last.1, if last.2 < s.2 then s.2 else last.2) :: rest
      else s :: last :: rest := rfl

/-- Spans sorted by their starts, merged. -/
def merge (spans : List Span) : List Span := (spans.foldl absorb []).reverse

/-- Merged spans, the last one first, none of which begins beyond `start`. -/
structure Merged (merged : List Span) (start : ℕ) : Prop where
  nonempty : ∀ s ∈ merged, s.1 < s.2
  separated : merged.Pairwise fun t s => Before s t
  start_le : ∀ s ∈ merged, s.1 ≤ start

theorem merged_nil (start : ℕ) : Merged [] start where
  nonempty _ h := absurd h List.not_mem_nil
  separated := .nil
  start_le _ h := absurd h List.not_mem_nil

theorem Merged.mono {merged : List Span} {start start' : ℕ} (h : Merged merged start)
    (hle : start ≤ start') : Merged merged start' where
  nonempty := h.nonempty
  separated := h.separated
  start_le s hs := (h.start_le s hs).trans hle

theorem Merged.absorb {merged : List Span} {s : Span} (h : Merged merged s.1) (hs : s.1 < s.2) :
    Merged (absorb merged s) s.1 := by
  cases merged with
  | nil =>
    exact ⟨by simpa [Spans.absorb] using hs, List.pairwise_singleton _ _, by simp [Spans.absorb]⟩
  | cons last rest =>
    obtain ⟨hbefore, hrest⟩ := List.pairwise_cons.mp h.separated
    have hlast := h.nonempty last List.mem_cons_self
    rw [absorb_cons]
    split
    case isTrue hmeet =>
      refine ⟨fun t ht => ?_, List.pairwise_cons.mpr ⟨hbefore, hrest⟩, fun t ht => ?_⟩
      · rcases List.mem_cons.mp ht with rfl | ht
        · show last.1 < if last.2 < s.2 then s.2 else last.2
          split <;> omega
        · exact h.nonempty t (List.mem_cons_of_mem _ ht)
      · rcases List.mem_cons.mp ht with rfl | ht
        · exact h.start_le last List.mem_cons_self
        · exact h.start_le t (List.mem_cons_of_mem _ ht)
    case isFalse hapart =>
      refine ⟨List.forall_mem_cons.mpr ⟨hs, h.nonempty⟩, List.pairwise_cons.mpr ⟨?_, h.separated⟩,
        List.forall_mem_cons.mpr ⟨le_rfl, h.start_le⟩⟩
      intro t ht
      show t.2 < s.1
      rcases List.mem_cons.mp ht with rfl | ht
      · omega
      · have : t.2 < last.1 := hbefore t ht
        omega

theorem covers_cons {s : Span} {spans : List Span} {i : ℕ} :
    Covers (s :: spans) i ↔ (s.1 ≤ i ∧ i < s.2) ∨ Covers spans i := by
  simp [Covers]

theorem covers_absorb {merged : List Span} {s : Span} (h : Merged merged s.1) (i : ℕ) :
    Covers (absorb merged s) i ↔ Covers merged i ∨ (s.1 ≤ i ∧ i < s.2) := by
  cases merged with
  | nil => simp [absorb, Covers]
  | cons last rest =>
    have hle : last.1 ≤ s.1 := h.start_le last List.mem_cons_self
    rw [absorb_cons]
    split
    case isTrue hmeet =>
      rw [covers_cons, covers_cons]
      have hunion : (last.1 ≤ i ∧ i < if last.2 < s.2 then s.2 else last.2) ↔
          (last.1 ≤ i ∧ i < last.2) ∨ (s.1 ≤ i ∧ i < s.2) := by
        split <;> omega
      rw [hunion, or_right_comm]
    case isFalse => rw [covers_cons, or_comm]

/-- The ends of merged spans are ends of the spans that went into them. -/
theorem absorb_ends {P : ℕ → Prop} {merged : List Span} {s : Span}
    (h : ∀ t ∈ merged, P t.1 ∧ P t.2) (hs : P s.1 ∧ P s.2) :
    ∀ t ∈ absorb merged s, P t.1 ∧ P t.2 := by
  cases merged with
  | nil => simpa [absorb] using hs
  | cons last rest =>
    rw [absorb_cons]
    obtain ⟨hlast, hrest⟩ := List.forall_mem_cons.mp h
    split
    · refine List.forall_mem_cons.mpr ⟨⟨hlast.1, ?_⟩, hrest⟩
      show P (if last.2 < s.2 then s.2 else last.2)
      split
      · exact hs.2
      · exact hlast.2
    · exact List.forall_mem_cons.mpr ⟨hs, h⟩

section Merge

variable {spans : List Span}

theorem foldl_absorb (hvalid : ∀ s ∈ spans, s.1 < s.2)
    (hsorted : spans.Pairwise fun s t => s.1 ≤ t.1) {merged : List Span}
    (h : ∀ s ∈ spans, Merged merged s.1) (hmerged : ∃ start, Merged merged start) :
    (∃ start, Merged (spans.foldl absorb merged) start) ∧
      ∀ i, Covers (spans.foldl absorb merged) i ↔ Covers merged i ∨ Covers spans i := by
  induction spans generalizing merged with
  | nil => exact ⟨hmerged, fun i => by simp [Covers]⟩
  | cons s spans ih =>
    obtain ⟨hs, hvalid⟩ := List.forall_mem_cons.mp hvalid
    obtain ⟨hle, hsorted⟩ := List.pairwise_cons.mp hsorted
    have hhead := h s List.mem_cons_self
    have habsorb := hhead.absorb hs
    obtain ⟨hresult, hcovers⟩ := ih hvalid hsorted (fun t ht => habsorb.mono (hle t ht)) ⟨_, habsorb⟩
    refine ⟨hresult, fun i => ?_⟩
    rw [List.foldl_cons, hcovers, covers_absorb hhead, covers_cons, or_assoc]

variable (hvalid : ∀ s ∈ spans, s.1 < s.2) (hsorted : spans.Pairwise fun s t => s.1 ≤ t.1)
include hvalid hsorted

theorem covers_merge (i : ℕ) : Covers (merge spans) i ↔ Covers spans i := by
  have h := (foldl_absorb hvalid hsorted (fun s _ => merged_nil s.1) ⟨0, merged_nil 0⟩).2 i
  have hreverse : Covers (merge spans) i ↔ Covers (spans.foldl absorb []) i := by
    simp [Covers, merge]
  rw [hreverse, h]
  simp [Covers]

/-- No two merged spans overlap or touch. -/
theorem separated_merge : (merge spans).Pairwise Before := by
  obtain ⟨start, h⟩ :=
    (foldl_absorb hvalid hsorted (fun s _ => merged_nil s.1) ⟨0, merged_nil 0⟩).1
  exact List.pairwise_reverse.mpr h.separated

theorem valid_merge : ∀ s ∈ merge spans, s.1 < s.2 := by
  obtain ⟨start, h⟩ :=
    (foldl_absorb hvalid hsorted (fun s _ => merged_nil s.1) ⟨0, merged_nil 0⟩).1
  exact fun s hs => h.nonempty s (List.mem_reverse.mp hs)

end Merge

theorem merge_ends {P : ℕ → Prop} {spans : List Span} (h : ∀ s ∈ spans, P s.1 ∧ P s.2) :
    ∀ s ∈ merge spans, P s.1 ∧ P s.2 := by
  have hfold : ∀ merged : List Span, (∀ t ∈ merged, P t.1 ∧ P t.2) →
      ∀ t ∈ spans.foldl absorb merged, P t.1 ∧ P t.2 := by
    induction spans with
    | nil => exact fun merged hmerged => hmerged
    | cons s spans ih =>
      obtain ⟨hs, h⟩ := List.forall_mem_cons.mp h
      exact fun merged hmerged => ih h _ (absorb_ends hmerged hs)
  exact fun s hs => hfold [] (fun _ ht => absurd ht List.not_mem_nil) s (List.mem_reverse.mp hs)

/-! ### Filling and redacting -/

variable {α : Type*} (mark : List α)

/-- The list from `cursor` on, with a mark in the place of each span. -/
def fill (xs : List α) (cursor : ℕ) : List Span → List α
  | [] => xs.drop cursor
  | s :: spans => (xs.take s.1).drop cursor ++ mark ++ fill xs s.2 spans

/-- From index `i` on, a mark for each run of covered elements; `run` says that one is under way. -/
def redactFrom (covered : ℕ → Bool) (run : Bool) (i : ℕ) : List α → List α
  | [] => []
  | x :: xs =>
    if covered i then (if run then [] else mark) ++ redactFrom covered true (i + 1) xs
    else x :: redactFrom covered false (i + 1) xs

/-- Each run of covered elements is replaced by one mark, and every other element kept. -/
def redact (covered : ℕ → Bool) (xs : List α) : List α := redactFrom mark covered false 0 xs

variable {mark} {covered : ℕ → Bool}

/-- Elements that are not covered stay, and the run that was under way is over. -/
theorem redactFrom_append_uncovered {us : List α} {i : ℕ}
    (h : ∀ j, i ≤ j → j < i + us.length → covered j = false) {run : Bool}
    (hrun : run = true → us ≠ []) (xs : List α) :
    redactFrom mark covered run i (us ++ xs) =
      us ++ redactFrom mark covered false (i + us.length) xs := by
  induction us generalizing i run with
  | nil =>
    cases run with
    | false => rfl
    | true => exact absurd rfl (hrun rfl)
  | cons u us ih =>
    rw [List.length_cons] at h
    have htail := @ih (i + 1) (fun j hj hlt => h j (by omega) (by omega)) false Bool.noConfusion
    rw [List.cons_append, redactFrom, h i le_rfl (by omega), if_neg Bool.false_ne_true, htail,
      List.cons_append, List.length_cons, show i + 1 + us.length = i + (us.length + 1) by omega]

theorem redactFrom_uncovered {us : List α} {i : ℕ}
    (h : ∀ j, i ≤ j → j < i + us.length → covered j = false) (run : Bool) :
    redactFrom mark covered run i us = us := by
  by_cases hus : us = []
  · subst hus
    rfl
  · have happend : redactFrom mark covered run i (us ++ []) = us ++ redactFrom mark covered false _ [] :=
      redactFrom_append_uncovered h (fun _ => hus) []
    rwa [List.append_nil, redactFrom, List.append_nil] at happend

theorem redactFrom_append_run {us : List α} {i : ℕ}
    (h : ∀ j, i ≤ j → j < i + us.length → covered j = true) (xs : List α) :
    redactFrom mark covered true i (us ++ xs) =
      redactFrom mark covered true (i + us.length) xs := by
  induction us generalizing i with
  | nil => rfl
  | cons u us ih =>
    rw [List.length_cons] at h
    have htail := @ih (i + 1) fun j hj hlt => h j (by omega) (by omega)
    rw [List.cons_append, redactFrom, h i le_rfl (by omega), if_pos rfl, if_pos rfl,
      List.nil_append, htail, List.length_cons,
      show i + 1 + us.length = i + (us.length + 1) by omega]

/-- A stretch of covered elements becomes one mark. -/
theorem redactFrom_append_covered {us : List α} (hus : us ≠ []) {i : ℕ}
    (h : ∀ j, i ≤ j → j < i + us.length → covered j = true) (xs : List α) :
    redactFrom mark covered false i (us ++ xs) =
      mark ++ redactFrom mark covered true (i + us.length) xs := by
  obtain ⟨u, us, rfl⟩ := List.exists_cons_of_ne_nil hus
  rw [List.length_cons] at h
  have htail : ∀ j, i + 1 ≤ j → j < i + 1 + us.length → covered j = true :=
    fun j hj hlt => h j (by omega) (by omega)
  rw [List.cons_append, redactFrom, h i le_rfl (by omega), if_pos rfl, if_neg Bool.false_ne_true,
    redactFrom_append_run htail, List.length_cons,
    show i + 1 + us.length = i + (us.length + 1) by omega]

theorem drop_eq_append {xs : List α} {i j : ℕ} (h : i ≤ j) :
    xs.drop i = (xs.take j).drop i ++ xs.drop j := by
  rw [List.drop_take, ← List.drop_drop.trans (congrArg (xs.drop ·) (Nat.add_sub_cancel' h)),
    List.take_append_drop]

theorem fill_eq_redactFrom {xs : List α} {spans : List Span} {cursor : ℕ} {run : Bool}
    (hvalid : ∀ s ∈ spans, s.1 < s.2) (hseparated : spans.Pairwise Before)
    (hle : ∀ s ∈ spans, s.2 ≤ xs.length) (hcursor : ∀ s ∈ spans, cursor ≤ s.1)
    (hrun : run = true → ∀ s ∈ spans, cursor < s.1)
    (hcovered : ∀ i, cursor ≤ i → (covered i = true ↔ Covers spans i)) :
    fill mark xs cursor spans = redactFrom mark covered run cursor (xs.drop cursor) := by
  induction spans generalizing cursor run with
  | nil =>
    rw [fill, redactFrom_uncovered]
    intro j hj _
    have := hcovered j hj
    simpa [Covers] using this
  | cons s spans ih =>
    obtain ⟨hs, hvalid⟩ := List.forall_mem_cons.mp hvalid
    obtain ⟨hbefore, hseparated⟩ := List.pairwise_cons.mp hseparated
    obtain ⟨hend, hle⟩ := List.forall_mem_cons.mp hle
    obtain ⟨hstart, -⟩ := List.forall_mem_cons.mp hcursor
    have hkept : ((xs.take s.1).drop cursor).length = s.1 - cursor := by
      rw [List.length_drop, List.length_take]
      omega
    have hgone : ((xs.take s.2).drop s.1).length = s.2 - s.1 := by
      rw [List.length_drop, List.length_take]
      omega
    have hnone : ∀ j, cursor ≤ j → j < s.1 → covered j = false := by
      intro j hj hlt
      rw [← Bool.not_eq_true, hcovered j hj, covers_cons]
      rintro (h | ⟨t, ht, h⟩)
      · omega
      · have : s.2 < t.1 := hbefore t ht
        omega
    have hall : ∀ j, s.1 ≤ j → j < s.2 → covered j = true := fun j hj hlt =>
      (hcovered j (by omega)).mpr (covers_cons.mpr (.inl ⟨hj, hlt⟩))
    have hrest : fill mark xs s.2 spans = redactFrom mark covered true s.2 (xs.drop s.2) := by
      refine ih hvalid hseparated hle (fun t ht => (hbefore t ht).le) (fun _ t ht => hbefore t ht) ?_
      intro i hi
      rw [hcovered i (by omega), covers_cons, or_iff_right (by omega)]
    have hne : (xs.take s.2).drop s.1 ≠ [] := by
      apply List.ne_nil_of_length_pos
      omega
    -- what stands before the span, the span itself, and what follows it
    have hsplit : xs.drop cursor =
        (xs.take s.1).drop cursor ++ ((xs.take s.2).drop s.1 ++ xs.drop s.2) := by
      rw [← drop_eq_append hs.le, ← drop_eq_append hstart]
    rw [fill, hsplit, redactFrom_append_uncovered, hkept,
      show cursor + (s.1 - cursor) = s.1 by omega, redactFrom_append_covered hne, hgone,
      show s.1 + (s.2 - s.1) = s.2 by omega, hrest, List.append_assoc]
    · intro j hj hlt
      exact hall j hj (by omega)
    · intro j hj hlt
      exact hnone j hj (by omega)
    · intro htrue
      have := hrun htrue s List.mem_cons_self
      apply List.ne_nil_of_length_pos
      omega

/-- **Filling is redacting.**  With sorted spans within the list, one pass that merges them and marks
    each merged span redacts what the spans cover. -/
theorem fill_merge {xs : List α} {spans : List Span} (hvalid : ∀ s ∈ spans, s.1 < s.2)
    (hsorted : spans.Pairwise fun s t => s.1 ≤ t.1) (hle : ∀ s ∈ spans, s.2 ≤ xs.length)
    (hcovered : ∀ i, covered i = true ↔ Covers spans i) :
    fill mark xs 0 (merge spans) = redact mark covered xs := by
  refine fill_eq_redactFrom (valid_merge hvalid hsorted) (separated_merge hvalid hsorted) ?_
    (fun _ _ => Nat.zero_le _) Bool.noConfusion ?_
  · have hbound := @merge_ends (fun n => n ≤ xs.length) spans
      fun s hs => ⟨(hvalid s hs).le.trans (hle s hs), hle s hs⟩
    exact fun s hs => (hbound s hs).2
  · intro i _
    rw [hcovered, covers_merge hvalid hsorted]

/-! ### Nothing is left -/

theorem infix_of_infix_append {p us xs : List α} (hp : p ≠ []) (h : ∀ x ∈ p, x ∉ us)
    (hin : p <:+: us ++ xs) : p <:+: xs := by
  induction us with
  | nil => exact hin
  | cons u us ih =>
    rcases List.infix_cons_iff.mp hin with hbegins | hin
    · obtain ⟨x, p, rfl⟩ := List.exists_cons_of_ne_nil hp
      obtain ⟨rfl, -⟩ := List.cons_prefix_cons.mp hbegins
      exact absurd List.mem_cons_self (h x List.mem_cons_self)
    · exact ih (fun x hx hmem => h x hx (List.mem_cons_of_mem _ hmem)) hin

/-- What has nothing of the mark and begins a redacted list begins the list, and is not covered. -/
theorem prefix_of_prefix_redactFrom (hmark : mark ≠ []) {p xs : List α} (h : ∀ x ∈ p, x ∉ mark)
    {i : ℕ} (hbegins : p <+: redactFrom mark covered false i xs) :
    p <+: xs ∧ ∀ j, i ≤ j → j < i + p.length → covered j = false := by
  induction p generalizing xs i with
  | nil => exact ⟨List.nil_prefix, fun j hj hlt => absurd hlt (by simpa using hj)⟩
  | cons x p ih =>
    obtain ⟨hx, hp⟩ := List.forall_mem_cons.mp h
    cases xs with
    | nil => simp [redactFrom] at hbegins
    | cons y xs =>
      rw [redactFrom] at hbegins
      split at hbegins
      case isTrue =>
        obtain ⟨m, mark, rfl⟩ := List.exists_cons_of_ne_nil hmark
        rw [if_neg Bool.false_ne_true, List.cons_append] at hbegins
        exact absurd ((List.cons_prefix_cons.mp hbegins).1 ▸ List.mem_cons_self) hx
      case isFalse hcov =>
        obtain ⟨rfl, hrest⟩ := List.cons_prefix_cons.mp hbegins
        obtain ⟨htail, hnone⟩ := ih hp hrest
        refine ⟨List.cons_prefix_cons.mpr ⟨rfl, htail⟩, fun j hj hlt => ?_⟩
        rw [List.length_cons] at hlt
        by_cases hji : j = i
        · subst hji
          exact Bool.not_eq_true _ ▸ hcov
        · exact hnone j (by omega) (by omega)

/-- What has nothing of the mark and stands in a redacted list stands in the list, at a place where
    nothing is covered. -/
theorem infix_of_infix_redactFrom (hmark : mark ≠ []) {p xs : List α} (hp : p ≠ [])
    (h : ∀ x ∈ p, x ∉ mark) {run : Bool} {i : ℕ}
    (hin : p <:+: redactFrom mark covered run i xs) :
    ∃ a, p <+: xs.drop a ∧ ∀ j, i + a ≤ j → j < i + a + p.length → covered j = false := by
  induction xs generalizing run i with
  | nil => exact absurd (List.infix_nil.mp hin) hp
  | cons x xs ih =>
    have hlater : ∀ run, p <:+: redactFrom mark covered run (i + 1) xs →
        ∃ a, p <+: (x :: xs).drop a ∧
          ∀ j, i + a ≤ j → j < i + a + p.length → covered j = false := by
      intro run hin
      obtain ⟨a, hbegins, hnone⟩ := ih hin
      exact ⟨a + 1, hbegins, fun j hj hlt => hnone j (by omega) (by omega)⟩
    by_cases hcov : covered i = true
    · rw [redactFrom, if_pos hcov] at hin
      refine hlater true (infix_of_infix_append hp (fun y hy => ?_) hin)
      split
      · exact List.not_mem_nil
      · exact h y hy
    · have hstart : redactFrom mark covered run i (x :: xs) =
          redactFrom mark covered false i (x :: xs) := by
        rw [redactFrom, redactFrom, if_neg hcov, if_neg hcov]
      rw [hstart] at hin
      by_cases hbegins : p <+: redactFrom mark covered false i (x :: xs)
      · exact ⟨0, prefix_of_prefix_redactFrom hmark h hbegins⟩
      · rw [redactFrom, if_neg hcov] at hin hbegins
        exact hlater false ((List.infix_cons_iff.mp hin).resolve_left hbegins)

/-- **Nothing is left.**  A pattern that has nothing of the mark, and of which something is covered
    wherever it stands, does not stand in the redacted list. -/
theorem not_infix_redact (hmark : mark ≠ []) {p xs : List α} (h : ∀ x ∈ p, x ∉ mark) (hp : p ≠ [])
    (hcovered : ∀ a, p <+: xs.drop a → ∃ j, a ≤ j ∧ j < a + p.length ∧ covered j = true) :
    ¬ p <:+: redact mark covered xs := by
  intro hin
  obtain ⟨a, hbegins, hnone⟩ := infix_of_infix_redactFrom hmark hp h hin
  obtain ⟨j, hj, hlt, hcov⟩ := hcovered a hbegins
  rw [hnone j (by omega) (by omega)] at hcov
  cases hcov

/-- Where nothing is covered, nothing changes. -/
theorem redact_eq_self {xs : List α} (h : ∀ j < xs.length, covered j = false) :
    redact mark covered xs = xs :=
  redactFrom_uncovered (fun j _ hlt => h j (by omega)) false

/-- An element that is not covered is kept. -/
theorem mem_redactFrom {xs : List α} {x : α} {i k : ℕ} {run : Bool} (hx : xs[k]? = some x)
    (h : covered (i + k) = false) : x ∈ redactFrom mark covered run i xs := by
  induction xs generalizing i k run with
  | nil => cases hx
  | cons y xs ih =>
    rw [redactFrom]
    cases k with
    | zero =>
      rw [Nat.add_zero] at h
      rw [h, if_neg Bool.false_ne_true, Option.some.inj hx]
      exact List.mem_cons_self
    | succ k =>
      have hrest {run : Bool} : x ∈ redactFrom mark covered run (i + 1) xs :=
        ih hx (by rwa [Nat.add_right_comm])
      split
      · exact List.mem_append_right _ hrest
      · exact List.mem_cons_of_mem y hrest

/-! ### Patterns -/

/-- The pattern stands in the list exactly on this span. -/
def Occurs (p xs : List α) (s : Span) : Prop :=
  s.2 = s.1 + p.length ∧ s.2 ≤ xs.length ∧ p <+: xs.drop s.1

theorem occurs_of_begins {p xs : List α} {a : ℕ} (ha : a ≤ xs.length) (h : p <+: xs.drop a) :
    Occurs p xs (a, a + p.length) := by
  have hle := h.length_le
  rw [List.length_drop] at hle
  refine ⟨rfl, ?_, h⟩
  show a + p.length ≤ xs.length
  omega

theorem Occurs.lt {p xs : List α} (hp : p ≠ []) {s : Span} (h : Occurs p xs s) : s.1 < s.2 := by
  have hpos := List.length_pos_of_ne_nil hp
  have := h.1
  omega

section Patterns

variable [DecidableEq α]

/-- Some pattern stands in the list on a span that covers the index. -/
def coveredBy (patterns : List (List α)) (xs : List α) (i : ℕ) : Bool :=
  patterns.any fun p => (List.range (i + 1)).any fun a =>
    decide (i < a + p.length) && p.isPrefixOf (xs.drop a)

variable {patterns : List (List α)} {xs : List α}

theorem coveredBy_iff {i : ℕ} :
    coveredBy patterns xs i = true ↔
      ∃ p ∈ patterns, ∃ a ≤ i, i < a + p.length ∧ p <+: xs.drop a := by
  simp [coveredBy, Nat.lt_succ_iff]

theorem coveredBy_iff_covers {spans : List Span}
    (h : ∀ s, s ∈ spans ↔ ∃ p ∈ patterns, Occurs p xs s) (i : ℕ) :
    coveredBy patterns xs i = true ↔ Covers spans i := by
  rw [coveredBy_iff]
  constructor
  · rintro ⟨p, hp, a, ha, hlt, hbegins⟩
    have hle : a ≤ xs.length := by
      have hlen := hbegins.length_le
      rw [List.length_drop] at hlen
      omega
    exact ⟨(a, a + p.length), (h _).mpr ⟨p, hp, occurs_of_begins hle hbegins⟩, ha, hlt⟩
  · rintro ⟨s, hs, hle, hlt⟩
    obtain ⟨p, hp, hend, -, hbegins⟩ := (h s).mp hs
    exact ⟨p, hp, s.1, hle, hend ▸ hlt, hbegins⟩

/-- The patterns that have nothing of the mark are gone once what they cover is redacted. -/
theorem not_infix_redact_coveredBy {mark : List α} (hmark : mark ≠ []) {p : List α}
    (hp : p ∈ patterns) (hne : p ≠ []) (h : ∀ x ∈ p, x ∉ mark) :
    ¬ p <:+: redact mark (coveredBy patterns xs) xs := by
  refine not_infix_redact hmark h hne fun a hbegins => ?_
  have hpos := List.length_pos_of_ne_nil hne
  exact ⟨a, le_rfl, by omega, coveredBy_iff.mpr ⟨p, hp, a, le_rfl, by omega, hbegins⟩⟩

/-- Where no pattern stands, nothing is covered. -/
theorem coveredBy_eq_false (h : ∀ p ∈ patterns, ¬ p <:+: xs) (i : ℕ) :
    coveredBy patterns xs i = false := by
  rw [← Bool.not_eq_true, coveredBy_iff]
  rintro ⟨p, hp, a, -, -, hbegins⟩
  exact h p hp (hbegins.isInfix.trans (List.drop_suffix a xs).isInfix)

theorem coveredBy_congr {patterns' : List (List α)} (h : ∀ p, p ∈ patterns ↔ p ∈ patterns') :
    coveredBy patterns xs = coveredBy patterns' xs := by
  funext i
  rw [Bool.eq_iff_iff, coveredBy_iff, coveredBy_iff]
  simp only [h]

end Patterns

end Spans
