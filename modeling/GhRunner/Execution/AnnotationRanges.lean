import GhRunner.Execution.CommandParser

namespace GhRunner.Execution

open Text

/-!
# The ranges of annotations

What the repairs of `normalized_range` (`crates/execution/src/execution/command_parser.rs`) come to, one after
the other: the lines and the columns are each the interval that is left of two ends, and the columns go unless
they are within one line.

* `spread` — the interval between two ends, either of which may be missing;
* `rangeOf_eq` — the repairs, as two intervals;
* `Range.WellFormed` — what a range is that can be reported;
* `normalizedRange_wellFormed` — the range is one, made of the numbers given, and as given if that was one
  and its columns are not beside a line that is written in two ways.
-/

/-! ### Two intervals -/

/-- The interval between two ends; one that is missing is the other, and backwards there is none. -/
def spread : Option ℤ → Option ℤ → Option (ℤ × ℤ)
  | none, none => none
  | some first, none => some (first, first)
  | none, some last => some (last, last)
  | some first, some last => if last < first then none else some (first, last)

/-- Whether columns may stand beside the lines: there is a line, and two are the same text. -/
def OnOneLine (startLineRaw endLineRaw : Option Str) : Prop :=
  ((startLineRaw.bind parseI32).isSome ∨ (endLineRaw.bind parseI32).isSome) ∧
    ((startLineRaw.bind parseI32).isNone ∨ (endLineRaw.bind parseI32).isNone ∨ startLineRaw = endLineRaw)

instance (startLineRaw endLineRaw : Option Str) : Decidable (OnOneLine startLineRaw endLineRaw) :=
  inferInstanceAs (Decidable (_ ∧ _))

/-- A start that is missing is the end. -/
def filledStart (first last : Option ℤ) : Option ℤ := if last.isSome ∧ first.isNone then last else first

/-- What becomes of two ends that are not thrown out for another reason. -/
def repaired (first last : Option ℤ) : Option ℤ × Option ℤ :=
  let kept := if backwards (filledStart first last) last then (none, none) else (filledStart first last, last)
  (kept.1, kept.2.or kept.1)

theorem repaired_eq (first last : Option ℤ) :
    repaired first last = ((spread first last).map Prod.fst, (spread first last).map Prod.snd) := by
  cases first with
  | none =>
    cases last with
    | none => rfl
    | some last => simp [repaired, filledStart, spread, backwards]
  | some first =>
    cases last with
    | none => rfl
    | some last => by_cases h : last < first <;> simp [repaired, filledStart, spread, backwards, h]

theorem isNone_filledStart (first last : Option ℤ) : (filledStart first last).isNone = (first.isNone && last.isNone) := by
  cases first <;> cases last <;> rfl

section Repairs

variable {startLineRaw endLineRaw colRaw endColumnRaw : Option Str}

theorem rangeOf_of_onOneLine (h : OnOneLine startLineRaw endLineRaw) :
    rangeOf startLineRaw endLineRaw colRaw endColumnRaw =
      let lines := repaired (startLineRaw.bind parseI32) (endLineRaw.bind parseI32)
      let columns := repaired (colRaw.bind parseI32) (endColumnRaw.bind parseI32)
      ⟨lines.1, columns.1, lines.2, columns.2⟩ := by
  obtain ⟨hline, htext⟩ := h
  have hthere : ¬ (filledStart (startLineRaw.bind parseI32) (endLineRaw.bind parseI32)).isNone = true := by
    rw [isNone_filledStart]
    simpa [Option.isSome_iff_ne_none, imp_iff_not_or] using hline
  have hsame : ¬ ((endLineRaw.bind parseI32).isSome = true ∧
      (if (startLineRaw.bind parseI32).isSome then startLineRaw else endLineRaw) ≠ endLineRaw ∧
        (filledStart (colRaw.bind parseI32) (endColumnRaw.bind parseI32)).isSome = true) := by
    rintro ⟨hend, hne, -⟩
    split at hne
    case isFalse => exact hne rfl
    case isTrue hstart =>
      rcases htext with hnone | hnone | htext
      · exact absurd hstart (by simpa using hnone)
      · exact absurd hend (by simpa using hnone)
      · exact hne htext
  rw [rangeOf]
  dsimp only
  rw [← filledStart, ← filledStart, if_neg hthere]
  dsimp only
  rw [if_neg hsame]
  rfl

/-- The columns of no line, and of lines that are not one as they are written. -/
theorem rangeOf_of_not_onOneLine (h : ¬ OnOneLine startLineRaw endLineRaw) :
    rangeOf startLineRaw endLineRaw colRaw endColumnRaw =
      let lines := repaired (startLineRaw.bind parseI32) (endLineRaw.bind parseI32)
      ⟨lines.1, none, lines.2, none⟩ := by
  rw [rangeOf]
  dsimp only
  rw [← filledStart, ← filledStart]
  by_cases hthere : (filledStart (startLineRaw.bind parseI32) (endLineRaw.bind parseI32)).isNone = true
  · rw [if_pos hthere]
    dsimp only
    rw [ite_self]
    rfl
  · rw [if_neg hthere]
    dsimp only
    have hline : (startLineRaw.bind parseI32).isSome = true ∨ (endLineRaw.bind parseI32).isSome = true := by
      rw [isNone_filledStart] at hthere
      simpa [Option.isSome_iff_ne_none, imp_iff_not_or] using hthere
    have hstart : (startLineRaw.bind parseI32).isSome = true := by
      by_contra hnone
      exact h ⟨hline, .inl (by simpa using hnone)⟩
    have hend : (endLineRaw.bind parseI32).isSome = true := by
      by_contra hnone
      exact h ⟨hline, .inr (.inl (by simpa using hnone))⟩
    have htext : startLineRaw ≠ endLineRaw := fun htext => h ⟨hline, .inr (.inr htext)⟩
    have hcleared : (if (endLineRaw.bind parseI32).isSome = true ∧
        (if (startLineRaw.bind parseI32).isSome then startLineRaw else endLineRaw) ≠ endLineRaw ∧
          (filledStart (colRaw.bind parseI32) (endColumnRaw.bind parseI32)).isSome = true then (none, none)
        else (filledStart (colRaw.bind parseI32) (endColumnRaw.bind parseI32), endColumnRaw.bind parseI32)) =
          ((none, none) : Option ℤ × Option ℤ) := by
      by_cases hcol : (filledStart (colRaw.bind parseI32) (endColumnRaw.bind parseI32)).isSome = true
      · exact if_pos ⟨hend, by rwa [if_pos hstart], hcol⟩
      · have hnone := Option.not_isSome_iff_eq_none.mp hcol
        have hboth := isNone_filledStart (colRaw.bind parseI32) (endColumnRaw.bind parseI32)
        rw [hnone, Option.isNone_none, eq_comm, Bool.and_eq_true] at hboth
        rw [if_neg fun hall => hcol hall.2.2, hnone, Option.isNone_iff_eq_none.mp hboth.2]
    rw [hcleared]
    rfl

/-- The eight repairs, each on the values that the ones before it have left. -/
theorem rangeOf_eq (startLineRaw endLineRaw colRaw endColumnRaw : Option Str) :
    rangeOf startLineRaw endLineRaw colRaw endColumnRaw =
      let lines := spread (startLineRaw.bind parseI32) (endLineRaw.bind parseI32)
      let columns :=
        if OnOneLine startLineRaw endLineRaw then spread (colRaw.bind parseI32) (endColumnRaw.bind parseI32)
        else none
      ⟨lines.map Prod.fst, columns.map Prod.fst, lines.map Prod.snd, columns.map Prod.snd⟩ := by
  dsimp only
  split
  case isTrue h => rw [rangeOf_of_onOneLine h, repaired_eq, repaired_eq]
  case isFalse h =>
    rw [rangeOf_of_not_onOneLine h, repaired_eq]
    rfl

end Repairs

/-! ### Well-formed ranges -/

/-- A range that can be reported. -/
structure Range.WellFormed (range : Range) : Prop where
  endLine : range.endLine.isSome = range.line.isSome
  endColumn : range.endColumn.isSome = range.col.isSome
  lines : ∀ first ∈ range.line, ∀ last ∈ range.endLine, first ≤ last
  columns : ∀ first ∈ range.col, ∀ last ∈ range.endColumn, first ≤ last
  oneLine : range.col.isSome = true → range.line.isSome = true ∧ range.endLine = range.line

/-- The numbers as they are given. -/
def givenRange (startLineRaw endLineRaw colRaw endColumnRaw : Option Str) : Range :=
  { line := startLineRaw.bind parseI32
    col := colRaw.bind parseI32
    endLine := endLineRaw.bind parseI32
    endColumn := endColumnRaw.bind parseI32 }

section Spread

variable {first last : Option ℤ} {x y : ℤ}

theorem of_spread_eq_some (h : spread first last = some (x, y)) :
    x ≤ y ∧ (first = some x ∨ last = some x) ∧ (first = some y ∨ last = some y) := by
  cases first with
  | none =>
    cases last with
    | none => cases h
    | some last =>
      obtain ⟨rfl, rfl⟩ := Prod.mk.inj (Option.some.inj h)
      exact ⟨le_rfl, .inr rfl, .inr rfl⟩
  | some first =>
    cases last with
    | none =>
      obtain ⟨rfl, rfl⟩ := Prod.mk.inj (Option.some.inj h)
      exact ⟨le_rfl, .inl rfl, .inl rfl⟩
    | some last =>
      rw [spread] at h
      split at h
      case isTrue => cases h
      case isFalse hle =>
        obtain ⟨rfl, rfl⟩ := Prod.mk.inj (Option.some.inj h)
        exact ⟨not_lt.mp hle, .inl rfl, .inr rfl⟩

theorem mem_of_spread {n : ℤ} (h : n ∈ (spread first last).map Prod.fst ∨ n ∈ (spread first last).map Prod.snd) :
    n ∈ first ∨ n ∈ last := by
  cases hspread : spread first last with
  | none => simp [hspread] at h
  | some ends =>
    obtain ⟨-, hx, hy⟩ := of_spread_eq_some (x := ends.1) (y := ends.2) hspread
    rw [hspread] at h
    rcases h with h | h
    · exact Option.some.inj h ▸ hx
    · exact Option.some.inj h ▸ hy

theorem spread_of_le (hboth : last.isSome = first.isSome) (hle : ∀ x ∈ first, ∀ y ∈ last, x ≤ y) :
    (spread first last).map Prod.fst = first ∧ (spread first last).map Prod.snd = last := by
  cases first with
  | none =>
    cases last with
    | none => exact ⟨rfl, rfl⟩
    | some last => cases hboth
  | some first =>
    cases last with
    | none => cases hboth
    | some last =>
      rw [spread, if_neg (not_lt.mpr (hle first rfl last rfl))]
      exact ⟨rfl, rfl⟩

/-- Two ends of one text have one number between them. -/
theorem spread_self : spread first first = first.map fun n => (n, n) := by
  cases first with
  | none => rfl
  | some first => exact if_neg (lt_irrefl first)

end Spread

section Range

variable (startLineRaw endLineRaw colRaw endColumnRaw : Option Str)

/-- The lines on which columns stand are one. -/
theorem spread_of_onOneLine {startLineRaw endLineRaw : Option Str} (h : OnOneLine startLineRaw endLineRaw) :
    ∃ n, spread (startLineRaw.bind parseI32) (endLineRaw.bind parseI32) = some (n, n) := by
  obtain ⟨hline, hone⟩ := h
  cases hfirst : startLineRaw.bind parseI32 with
  | none =>
    cases hlast : endLineRaw.bind parseI32 with
    | none =>
      rw [hfirst, hlast] at hline
      simp at hline
    | some last => exact ⟨last, rfl⟩
  | some first =>
    cases hlast : endLineRaw.bind parseI32 with
    | none => exact ⟨first, rfl⟩
    | some last =>
      rw [hfirst, hlast] at hone
      have htext : startLineRaw = endLineRaw := by simpa using hone
      rw [← htext, hfirst] at hlast
      rw [← Option.some.inj hlast]
      exact ⟨first, spread_self⟩

theorem rangeOf_wellFormed : (rangeOf startLineRaw endLineRaw colRaw endColumnRaw).WellFormed := by
  rw [rangeOf_eq]
  refine ⟨?_, ?_, ?_, ?_, ?_⟩
  · dsimp only
    rw [Option.isSome_map, Option.isSome_map]
  · dsimp only
    rw [Option.isSome_map, Option.isSome_map]
  · intro first hfirst last hlast
    obtain ⟨ends, hspread, rfl⟩ := Option.map_eq_some_iff.mp hfirst
    obtain ⟨ends', hspread', rfl⟩ := Option.map_eq_some_iff.mp hlast
    obtain rfl := Option.some.inj (hspread.symm.trans hspread')
    exact (of_spread_eq_some hspread).1
  · intro first hfirst last hlast
    obtain ⟨ends, hspread, rfl⟩ := Option.map_eq_some_iff.mp hfirst
    obtain ⟨ends', hspread', rfl⟩ := Option.map_eq_some_iff.mp hlast
    obtain rfl := Option.some.inj (hspread.symm.trans hspread')
    split at hspread
    case isTrue => exact (of_spread_eq_some hspread).1
    case isFalse => cases hspread
  · intro hcol
    dsimp only at hcol ⊢
    split at hcol
    case isFalse => cases hcol
    case isTrue hone =>
      obtain ⟨n, hn⟩ := spread_of_onOneLine hone
      rw [hn]
      exact ⟨rfl, rfl⟩

theorem mem_of_rangeOf {n : ℤ} :
    let range := rangeOf startLineRaw endLineRaw colRaw endColumnRaw
    let given := givenRange startLineRaw endLineRaw colRaw endColumnRaw
    (n ∈ range.line ∨ n ∈ range.endLine → n ∈ given.line ∨ n ∈ given.endLine) ∧
      (n ∈ range.col ∨ n ∈ range.endColumn → n ∈ given.col ∨ n ∈ given.endColumn) := by
  dsimp only
  rw [rangeOf_eq]
  refine ⟨mem_of_spread, fun h => ?_⟩
  dsimp only at h
  split at h
  case isTrue => exact mem_of_spread h
  case isFalse => simp at h

/-- What is well formed stays as it is, but that columns are dropped beside a line in two spellings. -/
theorem rangeOf_eq_given_iff (h : (givenRange startLineRaw endLineRaw colRaw endColumnRaw).WellFormed) :
    rangeOf startLineRaw endLineRaw colRaw endColumnRaw = givenRange startLineRaw endLineRaw colRaw endColumnRaw ↔
      colRaw.bind parseI32 = none ∨ startLineRaw = endLineRaw := by
  obtain ⟨hendLine, hendColumn, hlines, hcolumns, honeLine⟩ := h
  obtain ⟨hline, hlast⟩ := spread_of_le hendLine hlines
  obtain ⟨hcol, hlastCol⟩ := spread_of_le hendColumn hcolumns
  dsimp only [givenRange] at hline hlast hcol hlastCol hendLine hendColumn honeLine
  rw [rangeOf_eq, givenRange, Range.mk.injEq, hline, hlast]
  constructor
  · rintro ⟨-, hkept, -, -⟩
    cases hsome : colRaw.bind parseI32 with
    | none => exact .inl rfl
    | some first =>
      right
      rw [hsome] at hkept honeLine
      split at hkept
      case isFalse => cases hkept
      case isTrue hone =>
        rcases hone.2 with hnone | hnone | htext
        · have hthere := (honeLine rfl).1
          rw [Option.isNone_iff_eq_none.mp hnone] at hthere
          cases hthere
        · have hthere := hendLine.trans (honeLine rfl).1
          rw [Option.isNone_iff_eq_none.mp hnone] at hthere
          cases hthere
        · exact htext
  · intro hkept
    have hspread : (if OnOneLine startLineRaw endLineRaw then
        spread (colRaw.bind parseI32) (endColumnRaw.bind parseI32) else none) =
          spread (colRaw.bind parseI32) (endColumnRaw.bind parseI32) := by
      split
      case isTrue => rfl
      case isFalse hone =>
        have hnone : colRaw.bind parseI32 = none := by
          rcases hkept with hnone | htext
          · exact hnone
          · by_contra hsome
            have hthere := (honeLine (Option.isSome_iff_ne_none.mpr hsome)).1
            exact hone ⟨.inl hthere, .inr (.inr htext)⟩
        rw [hnone, Option.isSome_none, Option.isSome_eq_false_iff, Option.isNone_iff_eq_none] at hendColumn
        rw [hnone, hendColumn]
        rfl
    rw [hspread]
    exact ⟨rfl, hcol, rfl, hlastCol⟩

end Range

/-- The range of an annotation, whatever its properties. -/
theorem normalizedRange_wellFormed (props : Pairs) :
    let range := normalizedRange props
    let given := givenRange (props.lookup "line".toList) (props.lookup "endLine".toList)
      (props.lookup "col".toList) (props.lookup "endColumn".toList)
    range.WellFormed ∧
      (∀ n, (n ∈ range.line ∨ n ∈ range.endLine → n ∈ given.line ∨ n ∈ given.endLine) ∧
        (n ∈ range.col ∨ n ∈ range.endColumn → n ∈ given.col ∨ n ∈ given.endColumn)) ∧
      (given.WellFormed → (range = given ↔
        given.col = none ∨ props.lookup "line".toList = props.lookup "endLine".toList)) :=
  ⟨rangeOf_wellFormed _ _ _ _, fun _ => mem_of_rangeOf _ _ _ _, rangeOf_eq_given_iff _ _ _ _⟩

/-- The properties of an annotation on one line, which is spelled in two ways. -/
def respelledLine : Pairs :=
  parseProps "line=5,endLine=05,col=1,endColumn=2".toList

/-- They are a range, and its columns are dropped. -/
theorem respelledLine_not_kept :
    let given := givenRange (respelledLine.lookup "line".toList) (respelledLine.lookup "endLine".toList)
      (respelledLine.lookup "col".toList) (respelledLine.lookup "endColumn".toList)
    given = ⟨some 5, some 1, some 5, some 2⟩ ∧ given.WellFormed ∧
      normalizedRange respelledLine = ⟨some 5, none, some 5, none⟩ := by
  intro given
  have hgiven : given = ⟨some 5, some 1, some 5, some 2⟩ := by decide
  refine ⟨hgiven, ?_, by decide⟩
  rw [hgiven]
  refine ⟨rfl, rfl, ?_, ?_, fun _ => ⟨rfl, rfl⟩⟩
  · rintro _ ⟨⟩ _ ⟨⟩
    exact le_rfl
  · rintro _ ⟨⟩ _ ⟨⟩
    decide

end GhRunner.Execution
