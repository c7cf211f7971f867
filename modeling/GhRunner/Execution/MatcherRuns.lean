import GhRunner.Execution.ProblemMatcher
import GhRunner.Lib.Machine

namespace GhRunner.Execution

open Text

/-!
# What a reported diagnostic was read from

A matcher keeps one result for each pattern but the last.  A line goes on from the result of a pattern
when it matches the next one, and starts anew when it matches the first; a result of the first pattern
and one that the last pattern is waiting for are dropped by the next line that does not match.  One in
between is left in place by a line that the pattern before it is not tried on.

* `captured` — the fields of consecutive lines that match consecutive patterns;
* `Reported` — a diagnostic and the lines it was read from;
* `matchActive_spec` — where each result that is kept after a line comes from;
* `Underway`, `inv_run` — a result of the line just before was read from the lines up to it;
* `multiline_reports_sound` — so was every diagnostic, when no line goes on from an older result;
* `neverSkips_of_short` — with at most three patterns none does.
-/

/-! ### Lines and what they captured -/

section Captured

variable (crates : MatcherCrates)

/-- The fields captured by lines that match the patterns one by one. -/
def captured : MatchResult → List PatternDefinition → List Str → Option MatchResult
  | result, [], [] => some result
  | result, pattern :: patterns, line :: lines =>
    (crates.captures pattern.regex line).bind fun captures =>
      captured (applyCaptures result pattern.captures captures) patterns lines
  | _, _, _ => none

/-- Further lines that matched a looping last pattern. -/
def Loops (d : MatcherDefinition) (lines : List Str) : Prop :=
  lines = [] ∨ ∃ pattern, d.patterns.getLast? = some pattern ∧ pattern.loopPattern = true ∧
    ∀ line ∈ lines, (crates.captures pattern.regex line).isSome

/-- The diagnostic was read from the last of the lines: some consecutive ones matched the patterns but
    the last in order, the others after them the last pattern, and the fields are those of the first
    and of the very last line. -/
def Reported (d : MatcherDefinition) (lines : List Str) (result : MatchResult) : Prop :=
  ∃ earlier first looped final previous pattern captures,
    lines = earlier ++ (first ++ (looped ++ [final])) ∧
      captured crates .empty d.patterns.dropLast first = some previous ∧
      Loops crates d looped ∧
      d.patterns.getLast? = some pattern ∧
      crates.captures pattern.regex final = some captures ∧
      result = applyDefaults (applyCaptures previous pattern.captures captures) d

/-- What is kept under an index was read from the last of the lines. -/
def Underway (d : MatcherDefinition) (lines : List Str) (index : ℕ) (result : MatchResult) : Prop :=
  ∃ earlier first looped,
    lines = earlier ++ (first ++ looped) ∧
      captured crates .empty (d.patterns.take (index + 1)) first = some result ∧
      (looped = [] ∨ index + 2 = d.patterns.length ∧ Loops crates d looped)

variable {crates} {d : MatcherDefinition} {line : Str} {lines : List Str} {index : ℕ}
  {pattern : PatternDefinition} {captures : ℕ → Option Str} {previous result : MatchResult}

theorem captured_concat {patterns : List PatternDefinition} {start : MatchResult}
    (h : captured crates start patterns lines = some previous)
    (hline : crates.captures pattern.regex line = some captures) :
    captured crates start (patterns ++ [pattern]) (lines ++ [line]) =
      some (applyCaptures previous pattern.captures captures) := by
  induction patterns generalizing start lines with
  | nil =>
    cases lines with
    | nil =>
      cases h
      simp [captured, hline]
    | cons _ _ => cases h
  | cons p ps ih =>
    cases lines with
    | nil => cases h
    | cons l ls =>
      obtain ⟨c, hc, hrest⟩ := Option.bind_eq_some_iff.mp h
      rw [List.cons_append, List.cons_append, captured, hc, Option.bind_some]
      exact ih hrest

/-- As many lines as patterns. -/
theorem length_of_captured {patterns : List PatternDefinition} {start : MatchResult}
    (h : captured crates start patterns lines = some result) : lines.length = patterns.length := by
  induction patterns generalizing start lines with
  | nil =>
    cases lines with
    | nil => rfl
    | cons _ _ => cases h
  | cons p ps ih =>
    cases lines with
    | nil => cases h
    | cons l ls =>
      obtain ⟨c, -, hrest⟩ := Option.bind_eq_some_iff.mp h
      rw [List.length_cons, List.length_cons, ih hrest]

theorem Loops.concat (h : Loops crates d lines) (hlast : d.patterns.getLast? = some pattern)
    (hloop : pattern.loopPattern = true) (hline : (crates.captures pattern.regex line).isSome) :
    Loops crates d (lines ++ [line]) := by
  refine .inr ⟨pattern, hlast, hloop, fun l hl => ?_⟩
  rcases List.mem_append.mp hl with hl | hl
  · rcases h with rfl | ⟨pattern', hlast', -, hall⟩
    · cases hl
    · rw [Option.some.inj (hlast.symm.trans hlast')]
      exact hall l hl
  · rwa [List.mem_singleton.mp hl]

/-- A line that matches the first pattern starts a run. -/
theorem underway_first (hpattern : d.patterns[0]? = some pattern)
    (hline : crates.captures pattern.regex line = some captures) :
    Underway crates d (lines ++ [line]) 0 (applyCaptures .empty pattern.captures captures) := by
  refine ⟨lines, [line], [], by simp, ?_, .inl rfl⟩
  cases hps : d.patterns with
  | nil => simp [hps] at hpattern
  | cons p ps =>
    rw [hps] at hpattern
    obtain rfl : p = pattern := by simpa using hpattern
    simp [captured, hline]

/-- A line that matches the next pattern extends it. -/
theorem Underway.next (h : Underway crates d lines index previous)
    (hnext : index + 2 < d.patterns.length) (hpattern : d.patterns[index + 1]? = some pattern)
    (hline : crates.captures pattern.regex line = some captures) :
    Underway crates d (lines ++ [line]) (index + 1)
      (applyCaptures previous pattern.captures captures) := by
  obtain ⟨earlier, first, looped, rfl, hfirst, hlooped⟩ := h
  have hnone : looped = [] := hlooped.resolve_right fun hlooped => by omega
  subst hnone
  refine ⟨earlier, first ++ [line], [], by simp, ?_, .inl rfl⟩
  have htake : d.patterns.take (index + 1 + 1) = d.patterns.take (index + 1) ++ [pattern] := by
    rw [List.take_add_one, hpattern]
    rfl
  rw [htake]
  exact captured_concat hfirst hline

/-- One that matches a looping last pattern is a further one. -/
theorem Underway.loop (h : Underway crates d lines index result)
    (hindex : index + 2 = d.patterns.length) (hlast : d.patterns.getLast? = some pattern)
    (hloop : pattern.loopPattern = true) (hline : (crates.captures pattern.regex line).isSome) :
    Underway crates d (lines ++ [line]) index result := by
  obtain ⟨earlier, first, looped, rfl, hfirst, hlooped⟩ := h
  have hloops : Loops crates d looped := hlooped.elim .inl And.right
  exact ⟨earlier, first, looped ++ [line], by simp, hfirst,
    .inr ⟨hindex, hloops.concat hlast hloop hline⟩⟩

/-- One that matches the last pattern completes the run. -/
theorem Underway.reported (h : Underway crates d lines index previous)
    (hindex : index + 2 = d.patterns.length) (hlast : d.patterns.getLast? = some pattern)
    (hline : crates.captures pattern.regex line = some captures) :
    Reported crates d (lines ++ [line])
      (applyDefaults (applyCaptures previous pattern.captures captures) d) := by
  obtain ⟨earlier, first, looped, rfl, hfirst, hlooped⟩ := h
  have htake : d.patterns.take (index + 1) = d.patterns.dropLast := by
    rw [List.dropLast_eq_take]
    congr 1
    omega
  rw [htake] at hfirst
  exact ⟨earlier, first, looped, line, previous, pattern, captures, by simp, hfirst,
    hlooped.elim .inl And.right, hlast, hline, rfl⟩

end Captured

/-! ### One line and one matcher -/

namespace ActiveMatcher

variable (crates : MatcherCrates)

/-- The line matches the pattern of the index, and the pattern before it has its result. -/
def Extends (active : ActiveMatcher) (line : Str) (index : ℕ) : Prop :=
  (active.previousResult index).isSome ∧ ∃ pattern, active.patterns[index]? = some pattern ∧
    (crates.captures pattern.regex line).isSome

/-- The result the line leaves under the index by matching its pattern. -/
def Written (active : ActiveMatcher) (line : Str) (index : ℕ) (result : MatchResult) : Prop :=
  ∃ previous pattern captures, active.previousResult index = some previous ∧
    active.patterns[index]? = some pattern ∧ crates.captures pattern.regex line = some captures ∧
    result = applyCaptures previous pattern.captures captures

/-- Where a result that is kept after the line comes from: the line wrote it, it waits for more of a
    looping last pattern, or its own pattern was not tried. -/
def After (active : ActiveMatcher) (line : Str) (index : ℕ) (result : MatchResult) : Prop :=
  index + 1 < active.patterns.length ∧
    (active.Written crates line index result ∨
      active.slot index = some result ∧
        ((0 < index ∧ index + 2 < active.patterns.length ∧ active.previousResult index = none) ∨
          index + 2 = active.patterns.length ∧ ∃ pattern, active.patterns.getLast? = some pattern ∧
            pattern.loopPattern = true ∧ (crates.captures pattern.regex line).isSome))

/-- What the line is reported as. -/
def Reports (active : ActiveMatcher) (line : Str) (result : MatchResult) : Prop :=
  ∃ previous pattern captures,
    active.previousResult (active.patterns.length - 1) = some previous ∧
      active.patterns.getLast? = some pattern ∧
      crates.captures pattern.regex line = some captures ∧
      result = applyDefaults (applyCaptures previous pattern.captures captures)
        active.definition.value

variable {crates} {active active' : ActiveMatcher} {line : Str} {index last j : ℕ}
  {state : Option MatchResult} {result : MatchResult} {found : Option MatchResult}

/-! #### Slots -/

@[simp] theorem store_definition : (active.store index state).definition = active.definition := rfl

@[simp] theorem reset_definition : active.reset.definition = active.definition := rfl

@[simp] theorem store_patterns : (active.store index state).patterns = active.patterns := rfl

@[simp] theorem reset_patterns : active.reset.patterns = active.patterns := rfl

theorem slot_store_ne (h : j ≠ index) : (active.store index state).slot j = active.slot j := by
  rw [slot, store, List.getElem?_set_ne (Ne.symm h)]
  rfl

theorem slot_store_self (h : (active.store index state).slot index = some result) :
    state = some result := by
  rw [slot, store, List.getElem?_set_self'] at h
  cases hget : active.states[index]? with
  | none =>
    rw [hget] at h
    cases h
  | some kept =>
    rw [hget] at h
    exact h

@[simp] theorem slot_reset (j : ℕ) : active.reset.slot j = none := by
  rw [slot, reset, List.getElem?_map]
  cases active.states[j]? <;> rfl

theorem clearFailedState_definition :
    (active.clearFailedState index last).definition = active.definition := by
  unfold clearFailedState
  split
  · split <;> rfl
  · rfl

theorem finishMatch_definition (loopPattern : Bool) :
    (active.finishMatch last loopPattern).definition = active.definition := by
  unfold finishMatch
  split <;> rfl

/-- After a report nothing is kept but what a looping last pattern goes on from. -/
theorem finishMatch_slots {loopPattern : Bool}
    (h : (active.finishMatch last loopPattern).slot j = some result) :
    loopPattern = true ∧ j + 1 = last ∧ active.slot j = some result := by
  unfold finishMatch at h
  split at h
  case isTrue hloop =>
    by_cases hj : j = last - 1
    · subst hj
      exact ⟨hloop.1, by omega, slot_store_self h⟩
    · rw [slot_store_ne hj, slot_reset] at h
      cases h
  case isFalse =>
    rw [slot_reset] at h
    cases h

/-! #### Attempts -/

/-- Trying a pattern but the last changes no other slot; what it leaves in its own was written, unless
    the pattern was not tried. -/
theorem attemptPattern_of_ne (hne : index ≠ last) (hlt : index < active.patterns.length)
    (h : active.attemptPattern crates index last line = (active', found)) :
    found = none ∧ active'.definition = active.definition ∧
      (∀ j ≠ index, active'.slot j = active.slot j) ∧
      ∀ result, active'.slot index = some result → active.Written crates line index result ∨
        active.previousResult index = none ∧ active.slot index = some result := by
  unfold attemptPattern at h
  have hpattern : active.patterns[index]? = some active.patterns[index] := List.getElem?_eq_getElem hlt
  rw [hpattern] at h
  cases hprevious : active.previousResult index with
  | none =>
    rw [hprevious] at h
    obtain ⟨rfl, rfl⟩ := Prod.mk.inj h
    exact ⟨rfl, rfl, fun _ _ => rfl, fun result hresult => .inr ⟨rfl, hresult⟩⟩
  | some previous =>
    rw [hprevious] at h
    dsimp only at h
    cases hcaptures : crates.captures active.patterns[index].regex line with
    | none =>
      rw [hcaptures] at h
      obtain ⟨rfl, rfl⟩ := Prod.mk.inj h
      rw [clearFailedState, if_neg hne]
      refine ⟨rfl, rfl, fun _ hj => slot_store_ne hj, fun result hresult => ?_⟩
      exact absurd (slot_store_self hresult) (by simp)
    | some captures =>
      rw [hcaptures] at h
      dsimp only at h
      rw [if_pos hne] at h
      obtain ⟨rfl, rfl⟩ := Prod.mk.inj h
      refine ⟨rfl, rfl, fun _ hj => slot_store_ne hj, fun result hresult => .inl ?_⟩
      exact ⟨previous, _, captures, hprevious, hpattern, hcaptures,
        (Option.some.inj (slot_store_self hresult)).symm⟩

/-- The patterns before the last, the last one first: each reads the slot before its own, which the
    later patterns did not touch. -/
theorem attempts_slots {count : ℕ} (hcount : count ≤ last) (hlast : last < active.patterns.length)
    (h : active.attempts crates last line count = (active', found)) :
    found = none ∧ active'.definition = active.definition ∧
      (∀ j, count ≤ j → active'.slot j = active.slot j) ∧
      ∀ j < count, ∀ result, active'.slot j = some result → active.Written crates line j result ∨
        active.previousResult j = none ∧ active.slot j = some result := by
  induction count generalizing active with
  | zero =>
    obtain ⟨rfl, rfl⟩ := Prod.mk.inj h
    exact ⟨rfl, rfl, fun _ _ => rfl, fun _ hj => absurd hj (Nat.not_lt_zero _)⟩
  | succ index ih =>
    rw [attempts] at h
    rcases hattempt : active.attemptPattern crates index last line with ⟨tried, attempt⟩
    obtain ⟨rfl, hdef, hother, hown⟩ :=
      attemptPattern_of_ne (by omega) (by omega) hattempt
    rw [hattempt] at h
    dsimp only at h
    have hpatterns : tried.patterns = active.patterns := by rw [patterns, hdef, patterns]
    obtain ⟨hfound, hdef', hsame, hbelow⟩ := ih (by omega) (hpatterns ▸ hlast) h
    refine ⟨hfound, hdef'.trans hdef, fun j hj => ?_, fun j hj result hresult => ?_⟩
    · rw [hsame j (by omega), hother j (by omega)]
    rcases Nat.lt_succ_iff_lt_or_eq.mp hj with hj | rfl
    · have hprevious : tried.previousResult j = active.previousResult j := by
        cases j with
        | zero => rfl
        | succ j => exact hother j (by omega)
      rcases hbelow j hj result hresult with hwritten | ⟨hnone, hkept⟩
      · unfold Written at hwritten
        rw [hprevious, hpatterns] at hwritten
        exact .inl hwritten
      · exact .inr ⟨hprevious ▸ hnone, hother j (by omega) ▸ hkept⟩
    · rw [hsame j le_rfl] at hresult
      exact hown result hresult

/-- The attempt at the last pattern: it reports, or it leaves every slot but the one it waited on, which
    it empties. -/
theorem attemptPattern_last (hlast : active.patterns.length = last + 1)
    (h : active.attemptPattern crates last last line = (active', found)) :
    active'.definition = active.definition ∧
      match found with
      | some result => active.Reports crates line result ∧
          ∀ j kept, active'.slot j = some kept → active.slot j = some kept ∧ j + 1 = last ∧
            ∃ pattern, active.patterns.getLast? = some pattern ∧ pattern.loopPattern = true ∧
              (crates.captures pattern.regex line).isSome
      | none => ∀ j, (active'.slot j = active.slot j ∨ j + 1 = last) ∧
          (j + 1 = last → active'.slot j = none) := by
  unfold attemptPattern at h
  have hlt : last < active.patterns.length := by omega
  have hpattern : active.patterns[last]? = some active.patterns[last] := List.getElem?_eq_getElem hlt
  have hgetLast : active.patterns.getLast? = some active.patterns[last] := by
    rw [List.getLast?_eq_getElem?, hlast]
    exact hpattern
  rw [hpattern] at h
  cases hprevious : active.previousResult last with
  | none =>
    rw [hprevious] at h
    obtain ⟨rfl, rfl⟩ := Prod.mk.inj h
    refine ⟨rfl, fun j => ⟨.inl rfl, ?_⟩⟩
    rintro rfl
    exact hprevious
  | some previous =>
    rw [hprevious] at h
    dsimp only at h
    cases hcaptures : crates.captures active.patterns[last].regex line with
    | none =>
      rw [hcaptures] at h
      obtain ⟨rfl, rfl⟩ := Prod.mk.inj h
      refine ⟨clearFailedState_definition, fun j => ?_⟩
      rw [clearFailedState, if_pos rfl]
      split
      case isTrue h0 => exact ⟨.inl rfl, fun hj => by omega⟩
      case isFalse h0 =>
        by_cases hj : j = last - 1
        · subst hj
          refine ⟨.inr (by omega), fun _ => ?_⟩
          exact Option.eq_none_iff_forall_ne_some.mpr fun kept hkept =>
            absurd (slot_store_self hkept) (by simp)
        · exact ⟨.inl (slot_store_ne hj), fun hj' => by omega⟩
    | some captures =>
      rw [hcaptures] at h
      dsimp only at h
      rw [if_neg (not_not.mpr rfl)] at h
      obtain ⟨rfl, rfl⟩ := Prod.mk.inj h
      refine ⟨finishMatch_definition _, ⟨previous, _, captures, ?_, hgetLast, hcaptures, rfl⟩,
        fun j kept hkept => ?_⟩
      · rw [hlast, Nat.add_sub_cancel]
        exact hprevious
      · obtain ⟨hloop, hj, hkept⟩ := finishMatch_slots hkept
        exact ⟨hkept, hj, _, hgetLast, hloop, by rw [hcaptures]; rfl⟩

/-- One line: what is kept comes from what was kept or was written, and what is reported goes on from
    what was kept. -/
theorem matchActive_spec (hkept : ∀ j kept, active.slot j = some kept → j + 1 < active.patterns.length)
    (h : active.matchActive crates line = (active', found)) :
    active'.definition = active.definition ∧
      (∀ j kept, active'.slot j = some kept → active.After crates line j kept) ∧
      ∀ result ∈ found, active.Reports crates line result := by
  unfold matchActive at h
  cases hlast : active.patterns.length with
  | zero =>
    rw [hlast] at h
    obtain ⟨rfl, rfl⟩ := Prod.mk.inj h
    exact ⟨rfl, fun j kept hj => absurd (hkept j kept hj) (by omega), by simp⟩
  | succ last =>
    rw [hlast, Nat.add_sub_cancel, attempts] at h
    rcases hattempt : active.attemptPattern crates last last line with ⟨tried, attempt⟩
    obtain ⟨hdef, hattempt'⟩ := attemptPattern_last hlast hattempt
    rw [hattempt] at h
    cases attempt with
    | some result =>
      obtain ⟨rfl, rfl⟩ := Prod.mk.inj h
      refine ⟨hdef, fun j kept hj => ?_, fun r hr => Option.some.inj hr ▸ hattempt'.1⟩
      obtain ⟨hslot, hj', hloop⟩ := hattempt'.2 j kept hj
      exact ⟨by omega, .inr ⟨hslot, .inr ⟨by omega, hloop⟩⟩⟩
    | none =>
      have hpatterns : tried.patterns = active.patterns := by rw [patterns, hdef, patterns]
      obtain ⟨rfl, hdef', hsame, hbelow⟩ := attempts_slots le_rfl (by rw [hpatterns]; omega) h
      refine ⟨hdef'.trans hdef, fun j kept hj => ?_, by simp⟩
      have htried : ∀ j kept, tried.slot j = some kept → active.slot j = some kept ∧ j + 1 ≠ last := by
        intro j kept hj
        have hne : j + 1 ≠ last := fun hj' => by
          rw [(hattempt' j).2 hj'] at hj
          cases hj
        exact ⟨(hattempt' j).1.resolve_right hne ▸ hj, hne⟩
      -- the slots below the last pattern's own are read by the attempts as the line found them
      by_cases hlt : j < last
      · have hprevious : tried.previousResult j = active.previousResult j := by
          cases j with
          | zero => rfl
          | succ j => exact (hattempt' j).1.resolve_right (by omega)
        rcases hbelow j hlt kept hj with hwritten | ⟨hnone, hstale⟩
        · unfold Written at hwritten
          rw [hprevious, hpatterns] at hwritten
          exact ⟨by omega, .inl hwritten⟩
        · obtain ⟨hslot, hne⟩ := htried j kept hstale
          rw [hprevious] at hnone
          have hpos : 0 < j := by
            rcases Nat.eq_zero_or_pos j with rfl | hpos
            · cases hnone
            · exact hpos
          exact ⟨by omega, .inr ⟨hslot, .inl ⟨hpos, by omega, hnone⟩⟩⟩
      · rw [hsame j (by omega)] at hj
        have := hkept j kept (htried j kept hj).1
        omega

/-- A matcher that was emptied keeps and reports no more than it would have. -/
theorem After.of_reset (h : active.reset.After crates line index result) :
    active.After crates line index result := by
  obtain ⟨hlt, hwritten | ⟨hslot, -⟩⟩ := h
  · refine ⟨hlt, .inl ?_⟩
    cases index with
    | zero => exact hwritten
    | succ index =>
      obtain ⟨previous, -, -, hprevious, -⟩ := hwritten
      exact absurd ((slot_reset index).symm.trans hprevious) (by simp)
  · rw [slot_reset] at hslot
    cases hslot

theorem Reports.of_reset (h : active.reset.Reports crates line result) :
    active.Reports crates line result := by
  obtain ⟨previous, pattern, captures, hprevious, hrest⟩ := h
  refine ⟨previous, pattern, captures, ?_, hrest⟩
  rw [reset_patterns] at hprevious
  cases hlast : active.patterns.length - 1 with
  | zero =>
    rw [hlast] at hprevious
    exact hprevious
  | succ last =>
    rw [hlast] at hprevious
    exact absurd ((slot_reset last).symm.trans hprevious) (by simp)

end ActiveMatcher

/-! ### One line and every matcher -/

namespace MatcherState

open ActiveMatcher

variable {crates : MatcherCrates} {state state' : MatcherState} {registry : MatcherRegistry}
  {owner line : Str} {active active' : ActiveMatcher} {found : Option MatchResult}

/-- Whatever is kept is kept before the last pattern's own slot. -/
def Kept (active : ActiveMatcher) : Prop :=
  ∀ j kept, active.slot j = some kept → j + 1 < active.patterns.length

theorem kept_reset (active : ActiveMatcher) : Kept active.reset := fun j kept h => by
  rw [slot_reset] at h
  cases h

/-- A matcher that is under way after a synchronisation was so before, or is new and empty; either way
    its definition is registered. -/
theorem lookup_sync (h : (state.sync registry).lookup owner = some active) :
    active.definition ∈ registry.definitions ∧ active.definition.value.ownerKey = owner ∧
      (state.lookup owner = some active ∨ ∀ j, active.slot j = none) := by
  have hfold : ∀ (ds : List (Arc MatcherDefinition)) (kept : MatcherState),
      (ds.foldl (fun state d => if d.value.ownerKey ∈ state then state
        else state.insert d.value.ownerKey ⟨d, d.value.patterns.map fun _ => none⟩) kept).lookup
          owner = some active →
        kept.lookup owner = some active ∨ active.definition ∈ ds ∧
          active.definition.value.ownerKey = owner ∧ ∀ j, active.slot j = none := by
    intro ds
    induction ds with
    | nil => exact fun kept h => .inl h
    | cons d ds ih =>
      intro kept h
      rw [List.foldl_cons] at h
      rcases ih _ h with hkept | ⟨hmem, hempty⟩
      · split at hkept
        case isTrue => exact .inl hkept
        case isFalse =>
          by_cases ho : owner = d.value.ownerKey
          · subst ho
            rw [Finmap.lookup_insert] at hkept
            cases hkept
            refine .inr ⟨List.mem_cons_self, rfl, fun j => ?_⟩
            rw [slot, List.getElem?_map]
            cases d.value.patterns[j]? <;> rfl
          · rw [Finmap.lookup_insert_of_ne _ ho] at hkept
            exact .inl hkept
      · exact .inr ⟨List.mem_cons_of_mem _ hmem, hempty⟩
  rcases hfold registry.definitions _ h with hkept | ⟨hmem, howner, hempty⟩
  · rw [Finmap.lookup_retain, Option.filter_eq_some_iff] at hkept
    obtain ⟨d, hd, hsame⟩ := List.any_eq_true.mp hkept.2
    rw [Bool.and_eq_true, decide_eq_true_iff, decide_eq_true_iff] at hsame
    exact ⟨hsame.2 ▸ hd, hsame.2 ▸ hsame.1, .inl hkept.1⟩
  · exact ⟨hmem, howner, .inr hempty⟩

theorem lookup_resetExcept_ne {except : Str} (h : owner ≠ except) :
    (state.resetExcept except).lookup owner = (state.lookup owner).map ActiveMatcher.reset := by
  rw [resetExcept, Finmap.lookup_mapValues]
  congr 1
  funext active
  exact if_pos h

theorem lookup_resetExcept_self :
    (state.resetExcept owner).lookup owner = state.lookup owner := by
  rw [resetExcept, Finmap.lookup_mapValues]
  simp

/-- The matchers of the owners are gone through once: what one keeps afterwards comes from what it kept
    when the line came, and so does a report. -/
structure Visited (crates : MatcherCrates) (line : Str) (visited : List Str)
    (state state' : MatcherState) (found : Option MatchResult) : Prop where
  kept : ∀ owner active', state'.lookup owner = some active' →
    ∃ active, state.lookup owner = some active ∧ active'.definition = active.definition ∧
      ∀ j kept, active'.slot j = some kept →
        if owner ∈ visited then active.After crates line j kept else active.slot j = some kept
  found : ∀ result ∈ found, ∃ owner ∈ visited, ∃ active, state.lookup owner = some active ∧
    active.Reports crates line result

/-- One matcher was tried, any other was left as it was or emptied. -/
def Tried (crates : MatcherCrates) (line : Str) (tried : Str) (state state' : MatcherState) : Prop :=
  ∀ owner active', state'.lookup owner = some active' →
    ∃ active, state.lookup owner = some active ∧ active'.definition = active.definition ∧
      if owner = tried then ∀ j kept, active'.slot j = some kept → active.After crates line j kept
      else active' = active ∨ active' = active.reset

theorem Tried.visited {tried : Str} {visited : List Str} {between : MatcherState}
    (htried : Tried crates line tried state between) (hnew : tried ∉ visited)
    (h : Visited crates line visited between state' found) :
    Visited crates line (tried :: visited) state state' found := by
  constructor
  · intro o active' hactive'
    obtain ⟨a, ha, hdef', hslots⟩ := h.kept o active' hactive'
    obtain ⟨active, hactive, hdef, hone⟩ := htried o a ha
    refine ⟨active, hactive, hdef'.trans hdef, fun j kept hj => ?_⟩
    have hslot := hslots j kept hj
    by_cases ho : o = tried
    · subst ho
      rw [if_neg hnew] at hslot
      rw [if_pos rfl] at hone
      rw [if_pos List.mem_cons_self]
      exact hone j kept hslot
    · rw [if_neg ho] at hone
      by_cases hv : o ∈ visited
      · rw [if_pos hv] at hslot
        rw [if_pos (List.mem_cons_of_mem _ hv)]
        rcases hone with rfl | rfl
        · exact hslot
        · exact hslot.of_reset
      · rw [if_neg hv] at hslot
        rw [if_neg (by simp [ho, hv])]
        rcases hone with rfl | rfl
        · exact hslot
        · rw [slot_reset] at hslot
          cases hslot
  · intro result hresult
    obtain ⟨o, ho, a, ha, hreports⟩ := h.found result hresult
    obtain ⟨active, hactive, -, hone⟩ := htried o a ha
    have hne : o ≠ tried := fun heq => hnew (heq ▸ ho)
    rw [if_neg hne] at hone
    refine ⟨o, List.mem_cons_of_mem _ ho, active, hactive, ?_⟩
    rcases hone with rfl | rfl
    · exact hreports
    · exact hreports.of_reset

theorem tried_insert {tried : Str} (hlookup : state.lookup tried = some active)
    (hdef : active'.definition = active.definition)
    (hafter : ∀ j kept, active'.slot j = some kept → active.After crates line j kept) :
    Tried crates line tried state (state.insert tried active') := by
  intro o a ha
  by_cases ho : o = tried
  · subst ho
    rw [Finmap.lookup_insert] at ha
    obtain rfl := Option.some.inj ha
    exact ⟨active, hlookup, hdef, by rwa [if_pos rfl]⟩
  · rw [Finmap.lookup_insert_of_ne _ ho] at ha
    exact ⟨a, ha, rfl, by rw [if_neg ho]; exact .inl rfl⟩

theorem Tried.resetExcept {tried : Str} {between : MatcherState}
    (h : Tried crates line tried state between) :
    Tried crates line tried state (between.resetExcept tried) := by
  intro o a ha
  by_cases ho : o = tried
  · subst ho
    rw [lookup_resetExcept_self] at ha
    exact h o a ha
  · rw [lookup_resetExcept_ne ho] at ha
    obtain ⟨b, hb, rfl⟩ := Option.map_eq_some_iff.mp ha
    obtain ⟨active, hactive, hdef, hone⟩ := h o b hb
    rw [if_neg ho] at hone
    refine ⟨active, hactive, hdef, ?_⟩
    rw [if_neg ho]
    rcases hone with rfl | rfl
    · exact .inr rfl
    · exact .inr (by simp [ActiveMatcher.reset])

theorem Tried.kept {tried : Str} (h : Tried crates line tried state state')
    (hkept : ∀ owner active, state.lookup owner = some active → Kept active) :
    ∀ owner active, state'.lookup owner = some active → Kept active := by
  intro o a ha j kept hj
  obtain ⟨active, hactive, hdef, hone⟩ := h o a ha
  rw [ActiveMatcher.patterns, hdef, ← ActiveMatcher.patterns]
  split at hone
  case isTrue => exact (hone j kept hj).1
  case isFalse =>
    rcases hone with rfl | rfl
    · exact hkept o a hactive j kept hj
    · exact kept_reset active j kept hj

theorem visit_spec {ds : List (Arc MatcherDefinition)} (hnodup : (owners ds).Nodup)
    (hkept : ∀ owner active, state.lookup owner = some active → Kept active)
    (h : state.visit crates line ds = (state', found)) :
    Visited crates line (owners ds) state state' found := by
  induction ds generalizing state with
  | nil =>
    obtain ⟨rfl, rfl⟩ := Prod.mk.inj h
    exact ⟨fun o active hactive => ⟨active, hactive, rfl, fun j kept hj => by simpa [owners]⟩,
      by simp⟩
  | cons d ds ih =>
    obtain ⟨hnew, hnodup⟩ := List.nodup_cons.mp hnodup
    show Visited crates line (d.value.ownerKey :: owners ds) state state' found
    rw [visit] at h
    dsimp only at h
    cases hlookup : state.lookup d.value.ownerKey with
    | none =>
      rw [hlookup] at h
      refine Tried.visited (fun o a ha => ⟨a, ha, rfl, ?_⟩) hnew (ih hnodup hkept h)
      have hne : o ≠ d.value.ownerKey := by
        rintro rfl
        rw [hlookup] at ha
        cases ha
      rw [if_neg hne]
      exact .inl rfl
    | some active =>
      rw [hlookup] at h
      dsimp only at h
      rcases hmatch : active.matchActive crates line with ⟨tried, attempt⟩
      obtain ⟨hdef, hafter, hreports⟩ := matchActive_spec (hkept _ _ hlookup) hmatch
      have htried : Tried crates line _ _ _ := tried_insert hlookup hdef hafter
      rw [hmatch] at h
      cases attempt with
      | none => exact htried.visited hnew (ih hnodup (htried.kept hkept) h)
      | some result =>
        dsimp only at h
        have hreset := htried.resetExcept
        split at h
        case isTrue =>
          -- a report ends the line: the matchers that were not reached are empty
          obtain ⟨rfl, rfl⟩ := Prod.mk.inj h
          refine ⟨fun o a ha => ?_, fun r hr => ⟨_, List.mem_cons_self, active, hlookup, ?_⟩⟩
          · obtain ⟨before, hbefore, hdef', hone⟩ := hreset o a ha
            refine ⟨before, hbefore, hdef', fun j kept hj => ?_⟩
            split at hone
            case isTrue ho =>
              rw [ho, if_pos List.mem_cons_self]
              exact hone j kept hj
            case isFalse ho =>
              rw [lookup_resetExcept_ne ho] at ha
              obtain ⟨b, -, rfl⟩ := Option.map_eq_some_iff.mp ha
              rw [slot_reset] at hj
              cases hj
          · exact Option.some.inj hr ▸ hreports result rfl
        case isFalse => exact hreset.visited hnew (ih hnodup (hreset.kept hkept) h)

end MatcherState

/-! ### Runs -/

/-- A line of a process stream, with the definitions that are registered when it comes. -/
structure OutputLine where
  registry : MatcherRegistry
  text : Str

/-- What the patterns are tried on. -/
def OutputLine.read (e : OutputLine) : Str := stripAnsi .text e.text

section Runs

open ActiveMatcher MatcherState

variable (crates : MatcherCrates)

/-- The state of the stream after a line. -/
def afterLine (state : MatcherState) (e : OutputLine) : MatcherState :=
  (state.matchLine crates e.registry e.text).1

/-- The line matched the pattern of the index, going on from the result before it. -/
def WroteBy (state : MatcherState) (e : OutputLine) (owner : Str) (d : Arc MatcherDefinition)
    (index : ℕ) : Prop :=
  ∃ active, (state.sync e.registry).lookup owner = some active ∧ active.definition = d ∧
    active.Extends crates e.read index

/-- The second line goes on from a result between the first pattern's and the one that the last pattern
    waits for, only where the line just before it wrote that result. -/
def GoesOnFromLineBefore (state : MatcherState) (e₁ e₂ : OutputLine) : Prop :=
  ∀ owner active, ((afterLine crates state e₁).sync e₂.registry).lookup owner = some active →
    ∀ index, 0 < index → index + 2 < active.patterns.length →
      active.Extends crates e₂.read (index + 1) →
        WroteBy crates state e₁ owner active.definition index

/-- The results of the first pattern, those the last pattern waits for and those the last line wrote
    were read from the last of the lines. -/
def Inv (state : MatcherState) (lines : List Str)
    (wrote : Str → Arc MatcherDefinition → ℕ → Prop) : Prop :=
  ∀ owner active, state.lookup owner = some active → ∀ j kept, active.slot j = some kept →
    j + 1 < active.patterns.length ∧
      (j = 0 ∨ j + 2 = active.patterns.length ∨ wrote owner active.definition j →
        Underway crates active.definition.value lines j kept)

variable {crates} {state : MatcherState} {lines : List Str} {e : OutputLine}
  {wrote : Str → Arc MatcherDefinition → ℕ → Prop} {registry : MatcherRegistry}

theorem Inv.sync (h : Inv crates state lines wrote) (registry : MatcherRegistry) :
    Inv crates (state.sync registry) lines wrote := by
  intro owner active hactive j kept hj
  obtain ⟨-, -, hbefore | hempty⟩ := lookup_sync hactive
  · exact h owner active hbefore j kept hj
  · rw [hempty j] at hj
    cases hj

theorem Inv.kept (h : Inv crates state lines wrote) :
    ∀ owner active, state.lookup owner = some active → Kept active :=
  fun owner active hactive j kept hj => (h owner active hactive j kept hj).1

variable {owner : Str} {active : ActiveMatcher} {j : ℕ} {kept result : MatchResult}

/-- What a line leaves under an index was read from the lines up to it, when it goes on from no older
    result. -/
theorem underway_after (h : Inv crates state lines wrote) (hactive : state.lookup owner = some active)
    (hgoes : ∀ index, 0 < index → index + 2 < active.patterns.length →
      active.Extends crates e.read (index + 1) → wrote owner active.definition index)
    (hafter : active.After crates e.read j kept)
    (hwrote : j = 0 ∨ j + 2 = active.patterns.length ∨ active.Extends crates e.read j) :
    Underway crates active.definition.value (lines ++ [e.read]) j kept := by
  obtain ⟨hlt, hwritten | ⟨hslot, ⟨hpos, hmiddle, hnone⟩ | ⟨hindex, pattern, hlast, hloop, hline⟩⟩⟩ :=
    hafter
  · obtain ⟨previous, pattern, captures, hprevious, hpattern, hcaptures, rfl⟩ := hwritten
    cases j with
    | zero =>
      obtain rfl := Option.some.inj hprevious
      exact underway_first hpattern hcaptures
    | succ i =>
      have hextends : active.Extends crates e.read (i + 1) :=
        ⟨by rw [hprevious]; rfl, pattern, hpattern, by rw [hcaptures]; rfl⟩
      have hwrote' : i = 0 ∨ i + 2 = active.patterns.length ∨ wrote owner active.definition i := by
        rcases Nat.eq_zero_or_pos i with hi | hi
        · exact .inl hi
        · exact .inr (.inr (hgoes i hi (by omega) hextends))
      exact ((h owner active hactive i previous hprevious).2 hwrote').next hlt hpattern hcaptures
  · -- a result whose own pattern was not tried is neither the first nor one that was just written
    rcases hwrote with rfl | hindex | ⟨hsome, -⟩
    · exact absurd hpos (Nat.lt_irrefl 0)
    · exact absurd hmiddle (by omega)
    · rw [hnone] at hsome
      cases hsome
  · exact ((h owner active hactive j kept hslot).2 (.inr (.inl hindex))).loop hindex hlast hloop hline

/-- A report completes a run of lines that ends with this one. -/
theorem reported_after (h : Inv crates state lines wrote) (hactive : state.lookup owner = some active)
    (hreports : active.Reports crates e.read result) :
    Reported crates active.definition.value (lines ++ [e.read]) result := by
  obtain ⟨previous, pattern, captures, hprevious, hlast, hcaptures, rfl⟩ := hreports
  have hpos : 0 < active.patterns.length := by
    rw [List.length_pos_iff]
    rintro hnil
    rw [hnil] at hlast
    cases hlast
  cases hn : active.patterns.length - 1 with
  | zero =>
    rw [hn] at hprevious
    obtain rfl := Option.some.inj hprevious
    have hone : active.definition.value.patterns.dropLast = [] := by
      rw [List.dropLast_eq_take]
      show List.take (active.patterns.length - 1) _ = []
      rw [hn]
      rfl
    exact ⟨lines, [], [], e.read, _, pattern, captures, by simp, by rw [hone]; rfl, .inl rfl, hlast,
      hcaptures, rfl⟩
  | succ i =>
    rw [hn] at hprevious
    have hindex : i + 2 = active.patterns.length := by omega
    exact ((h owner active hactive i previous hprevious).2 (.inr (.inl hindex))).reported hindex hlast
      hcaptures

/-- One line keeps the invariant, and what it reports was read from the lines up to it. -/
theorem inv_afterLine (h : Inv crates state lines wrote)
    (hgoes : ∀ owner active, (state.sync e.registry).lookup owner = some active →
      ∀ index, 0 < index → index + 2 < active.patterns.length →
        active.Extends crates e.read (index + 1) → wrote owner active.definition index) :
    Inv crates (afterLine crates state e) (lines ++ [e.read]) (WroteBy crates state e) ∧
      ∀ result, (state.matchLine crates e.registry e.text).2 = some result →
        ∃ d ∈ e.registry.definitions, Reported crates d.value (lines ++ [e.read]) result := by
  have hsync := h.sync e.registry
  unfold afterLine matchLine
  dsimp only
  split
  case isTrue hnone =>
    refine ⟨fun owner active hactive => ?_, by simp⟩
    have hmem := (lookup_sync hactive).1
    rw [hnone] at hmem
    cases hmem
  case isFalse =>
    split
    case isTrue =>
      refine ⟨fun owner active hactive j kept hj => ?_, by simp⟩
      rw [MatcherState.reset, Finmap.lookup_mapValues] at hactive
      obtain ⟨before, -, rfl⟩ := Option.map_eq_some_iff.mp hactive
      rw [slot_reset] at hj
      cases hj
    case isFalse =>
      rcases hvisit : (state.sync e.registry).visit crates (stripAnsi .text e.text)
        e.registry.definitions with ⟨after, found⟩
      obtain ⟨hkept, hfound⟩ := visit_spec e.registry.nodup hsync.kept hvisit
      refine ⟨fun owner active' hactive' j kept hj => ?_, fun result hresult => ?_⟩
      · obtain ⟨active, hactive, hdef, hslots⟩ := hkept owner active' hactive'
        obtain ⟨hmem, howner, -⟩ := lookup_sync hactive
        have hafter := hslots j kept hj
        have howned : owner ∈ owners e.registry.definitions := List.mem_map.mpr ⟨_, hmem, howner⟩
        rw [if_pos howned] at hafter
        have hpatterns : active'.patterns = active.patterns := by
          rw [ActiveMatcher.patterns, hdef, ActiveMatcher.patterns]
        rw [hpatterns, hdef]
        refine ⟨hafter.1, fun hwrote => underway_after hsync hactive (hgoes owner active hactive)
          hafter (hwrote.imp_right (Or.imp_right ?_))⟩
        rintro ⟨active'', hactive'', -, hextends⟩
        rw [hactive] at hactive''
        exact Option.some.inj hactive'' ▸ hextends
      · obtain ⟨owner, -, active, hactive, hreports⟩ := hfound result hresult
        exact ⟨active.definition, (lookup_sync hactive).1, reported_after hsync hactive hreports⟩

/-! #### From the first line on -/

variable (crates) in
/-- The state of a stream that has gone through the lines. -/
def stateAfter (events : List OutputLine) : MatcherState := Machine.run (afterLine crates) ∅ events

variable (crates) in
/-- No line goes on from an older result than its own line before. -/
def NeverSkips (events : List OutputLine) : Prop :=
  ∀ before e₁ e₂ after, events = before ++ e₁ :: e₂ :: after →
    GoesOnFromLineBefore crates (stateAfter crates before) e₁ e₂

variable (crates) in
/-- What the last of the lines wrote. -/
def WrittenLast (events : List OutputLine) (owner : Str) (d : Arc MatcherDefinition) (index : ℕ) :
    Prop :=
  ∃ before e, events = before ++ [e] ∧ WroteBy crates (stateAfter crates before) e owner d index

variable {events : List OutputLine}

theorem stateAfter_concat (events : List OutputLine) (e : OutputLine) :
    stateAfter crates (events ++ [e]) = afterLine crates (stateAfter crates events) e := by
  rw [stateAfter, Machine.run_append]
  rfl

theorem NeverSkips.of_append {more : List OutputLine} (h : NeverSkips crates (events ++ more)) :
    NeverSkips crates events := fun before e₁ e₂ after heq =>
  h before e₁ e₂ (after ++ more) (by rw [heq]; simp)

/-- A line goes on only from what the line just before it wrote. -/
theorem NeverSkips.last (h : NeverSkips crates (events ++ [e])) (owner : Str) (active : ActiveMatcher)
    (hactive : ((stateAfter crates events).sync e.registry).lookup owner = some active) (index : ℕ)
    (hpos : 0 < index) (hmiddle : index + 2 < active.patterns.length)
    (hextends : active.Extends crates e.read (index + 1)) :
    WrittenLast crates events owner active.definition index := by
  rcases List.eq_nil_or_concat' events with rfl | ⟨before, e₁, rfl⟩
  · obtain ⟨-, -, hbefore | hempty⟩ := lookup_sync hactive
    · cases hbefore
    · have hsome : (active.slot index).isSome := hextends.1
      rw [hempty index] at hsome
      cases hsome
  · rw [stateAfter_concat] at hactive
    exact ⟨before, e₁, rfl, h before e₁ e [] (by simp) owner active hactive index hpos hmiddle hextends⟩

theorem inv_run (h : NeverSkips crates events) :
    Inv crates (stateAfter crates events) (events.map OutputLine.read) (WrittenLast crates events) := by
  induction events using List.reverseRecOn with
  | nil => exact fun owner active hactive => by cases hactive
  | append_singleton events e ih =>
    have hstep := (inv_afterLine (ih h.of_append) h.last).1
    rw [← stateAfter_concat, ← List.map_singleton, ← List.map_append] at hstep
    intro owner active hactive j kept hj
    obtain ⟨hlt, hunderway⟩ := hstep owner active hactive j kept hj
    refine ⟨hlt, fun hwrote => hunderway (hwrote.imp_right (Or.imp_right ?_))⟩
    rintro ⟨before, e', heq, hwrote⟩
    obtain ⟨rfl, he⟩ := List.append_inj' heq rfl
    exact (List.singleton_inj.mp he) ▸ hwrote

/-- Every diagnostic of a stream was read from consecutive lines that match the patterns in order, and
    has the fields captured there, when no line goes on from an older result. -/
theorem multiline_reports_sound (crates : MatcherCrates) (events : List OutputLine)
    (h : NeverSkips crates events) :
    ∀ before e after, events = before ++ e :: after → ∀ result,
      ((stateAfter crates before).matchLine crates e.registry e.text).2 = some result →
        ∃ d ∈ e.registry.definitions,
          Reported crates d.value ((before ++ [e]).map OutputLine.read) result := by
  intro before e after heq result hresult
  have hstarts : NeverSkips crates (before ++ [e]) := by
    have hsplit : NeverSkips crates ((before ++ [e]) ++ after) := by
      rw [List.append_assoc, List.singleton_append, ← heq]
      exact h
    exact hsplit.of_append
  obtain ⟨d, hd, hreported⟩ :=
    (inv_afterLine (inv_run hstarts.of_append) hstarts.last).2 result hresult
  exact ⟨d, hd, by rwa [List.map_append]⟩

/-- Regular expressions that match the very line they spell, and one document. -/
def literalCrates (document : RawMatcher) : MatcherCrates where
  builds _ := true
  capturesLen _ := 1
  captures regex line := if regex = line then some fun _ => some line else none
  matcherFile _ := .ok (some [document])
  removalFile _ := .ok none

/-- A matcher of single letters; the last is its message. -/
def lettersMatcher (letters : Str) (last : Char) : RawMatcher where
  owner := some "letters".toList
  severity := none
  fromPath := none
  pattern := some (letters.map (fun c => ⟨some [c], ⟨none, none, none, none, none, none, none⟩, false⟩) ++
    [⟨some [last], ⟨none, none, none, none, none, some 0, none⟩, false⟩])

/-- What is registered when the document was read. -/
def lettersRegistry (letters : Str) (last : Char) : MatcherRegistry :=
  match MatcherRegistry.empty.addJson (literalCrates (lettersMatcher letters last)) [] with
  | .ok registry => registry
  | .error _ => .empty

def lettersOutput (letters : Str) (last : Char) (output : Str) : List OutputLine :=
  output.map fun c => ⟨lettersRegistry letters last, [c]⟩

/-- A result in the middle that no line has cleared is gone on from by a later line: of the output
    `a b c x c d` the matcher of `a b c d` reports the last line. -/
theorem stale_result_reported :
    ¬ ∀ crates events before e after, events = before ++ e :: after → ∀ result,
      ((stateAfter crates before).matchLine crates e.registry e.text).2 = some result →
        ∃ d ∈ e.registry.definitions,
          Reported crates d.value ((before ++ [e]).map OutputLine.read) result := by
  intro h
  let letters : Str := ['a', 'b', 'c']
  let result : MatchResult := { MatchResult.empty with message := some ['d'] }
  obtain ⟨d, hd, earlier, first, looped, final, previous, pattern, captures, hlines, hfirst, hloops,
    hlast, -, -⟩ := h (literalCrates (lettersMatcher letters 'd'))
      (lettersOutput letters 'd' ['a', 'b', 'c', 'x', 'c', 'd'])
      (lettersOutput letters 'd' ['a', 'b', 'c', 'x', 'c'])
      ⟨lettersRegistry letters 'd', ['d']⟩ [] rfl result (by decide)
  have hpatterns : ∀ d ∈ (lettersRegistry letters 'd').definitions, d.value.patterns.length = 4 ∧
      d.value.patterns.getLast?.all (fun pattern => !pattern.loopPattern) ∧
      captured (literalCrates (lettersMatcher letters 'd')) .empty d.value.patterns.dropLast
        [['c'], ['x'], ['c']] = none := by decide
  obtain ⟨hfour, hplain, hnone⟩ := hpatterns d hd
  have hlooped : looped = [] := by
    rcases hloops with hloops | ⟨p, hp, hloop, -⟩
    · exact hloops
    · rw [hp] at hplain
      simp [hloop] at hplain
  subst hlooped
  have hlen : first.length = 3 := by
    rw [length_of_captured hfirst, List.length_dropLast, hfour]
  have hearlier : earlier.length = 2 := by
    have hsum := congrArg List.length hlines
    rw [List.length_append, List.length_append, hlen] at hsum
    simp [lettersOutput] at hsum
    omega
  -- the three lines before the last one are `c x c`
  have hread : first = [['c'], ['x'], ['c']] := by
    have hdrop := congrArg (fun lines => (lines.drop earlier.length).take first.length) hlines
    rw [List.drop_left, List.take_left, hearlier, hlen] at hdrop
    exact hdrop.symm
  rw [hread, hnone] at hfirst
  cases hfirst

/-- A matcher of at most three patterns keeps no result but the first pattern's and the one that its
    last pattern waits for. -/
theorem neverSkips_of_short
    (h : ∀ e ∈ events, ∀ d ∈ e.registry.definitions, d.value.patterns.length ≤ 3) :
    NeverSkips crates events := by
  intro before e₁ e₂ after heq owner active hactive index hpos hmiddle
  have hshort := h e₂ (by rw [heq]; simp) _ (lookup_sync hactive).1
  have : active.patterns.length ≤ 3 := hshort
  omega

theorem multiline_reports_sound_abc :
    ∃ d ∈ (lettersRegistry ['a', 'b'] 'c').definitions,
      Reported (literalCrates (lettersMatcher ['a', 'b'] 'c')) d.value [['x'], ['a'], ['b'], ['c']]
        { MatchResult.empty with message := some ['c'] } :=
  multiline_reports_sound _ (lettersOutput ['a', 'b'] 'c' ['x', 'a', 'b', 'c'])
    (neverSkips_of_short (by decide)) (lettersOutput ['a', 'b'] 'c' ['x', 'a', 'b'])
    ⟨lettersRegistry ['a', 'b'] 'c', ['c']⟩ [] rfl _ (by decide)

end Runs

end GhRunner.Execution
