import Mathlib.Data.Set.Basic

/-!
# Merging named values under keys

Two sources give values to names, the first before the second; the result is read by name, but names
that have one key are read as one.  How the result was made may leave several readings.

* `carried` — the value a name has, in the first source or else in the second;
* `Merges` — every reading gives a name the first source's value under any name that is the same, or
  else the second's, and there is one reading;
* `Picks` — a reading of a name is a value that some name of its key carries, any one of them;
* `OneValue`, `Covers` — names of one key do not carry two values, and what the first source gives
  can be read at all;
* `Picks.merges_iff` — that is when the result merges the sources.
-/

namespace KeyedMerge

variable {N V K F : Type*}

section Sources

variable (first second : N → Option V)

def carried (name : N) : Option V := (first name).or (second name)

/-- `same` says which names a value is to be found under. -/
structure Merges (same : N → N → Prop) (readings : Set (N → Option V)) : Prop where
  supplied : ∀ reading ∈ readings, ∀ name name' value, same name' name → first name' = some value →
    reading name = some value
  default : ∀ reading ∈ readings, ∀ name name' value, same name' name →
    (∀ other, same other name → first other = none) → second name' = some value →
    reading name = some value
  unique : ∀ reading ∈ readings, ∀ reading' ∈ readings, reading = reading'

variable (key : N → K)

def OneValue : Prop :=
  ∀ name name' value value', carried first second name = some value →
    carried first second name' = some value' → key name = key name' → value = value'

variable (Reaches : N → Prop)

def Covers : Prop :=
  ∀ name value, first name = some value →
    ∃ name' value', Reaches name' ∧ carried first second name' = some value' ∧ key name' = key name

/-- Of the names that reach the result, a reading picks one; where there is none, there is what was
    there before. -/
structure Picks (before : F → N → Option V) (readings : F → Set (N → Option V)) : Prop where
  picks : ∀ f, ∀ reading ∈ readings f, ∀ name,
    (∃ name' value, Reaches name' ∧ carried first second name' = some value ∧ key name' = key name ∧
      reading name = some value) ∨
    (∀ name' value, Reaches name' → carried first second name' = some value →
      key name' ≠ key name) ∧ reading name = before f name
  any : ∀ f name value, Reaches name → carried first second name = some value →
    ∃ reading ∈ readings f, ∀ name', key name' = key name → reading name' = some value
  nonempty : ∀ f, (readings f).Nonempty

end Sources

variable {first second : N → Option V} {same : N → N → Prop} {key : N → K} {Reaches : N → Prop}
  {before : F → N → Option V} {readings : F → Set (N → Option V)}

theorem carried_of_first {name : N} {value : V} (h : first name = some value) :
    carried first second name = some value := by
  rw [carried, h, Option.some_or]

theorem carried_of_second {name : N} {value : V} (hfirst : first name = none)
    (h : second name = some value) : carried first second name = some value := by
  rw [carried, hfirst, Option.none_or, h]

theorem carried_cases {name : N} {value : V} (h : carried first second name = some value) :
    first name = some value ∨ first name = none ∧ second name = some value := by
  cases hfirst : first name with
  | some v =>
    rw [carried, hfirst, Option.some_or] at h
    exact Or.inl h
  | none =>
    rw [carried, hfirst, Option.none_or] at h
    exact Or.inr ⟨rfl, h⟩

namespace Picks

variable (h : Picks first second key Reaches before readings)

include h

/-- With one value for each key, a name whose key is reached reads as the value of any name of the
    key. -/
theorem reading_eq (hone : OneValue first second key) {f : F} {reading : N → Option V}
    (hreading : reading ∈ readings f) {name name' other : N} {value value' : V}
    (hreaches : Reaches other) (hother : carried first second other = some value')
    (hkey : key other = key name) (hname' : carried first second name' = some value)
    (hkey' : key name' = key name) : reading name = some value := by
  rcases h.picks f reading hreading name with ⟨picked, u, -, hpicked, hpkey, hread⟩ | ⟨hnone, -⟩
  · rw [hread, hone _ _ _ _ hpicked hname' (hpkey.trans hkey'.symm)]
  · exact absurd hkey (hnone other value' hreaches hother)

theorem merges (hsame : ∀ {name name'}, same name name' → key name = key name')
    (hsecond : ∀ name value, second name = some value → Reaches name)
    (hone : OneValue first second key) (hcovers : Covers first second key Reaches) (f : F) :
    Merges first second same (readings f) where
  supplied reading hreading name name' value hname hvalue := by
    obtain ⟨other, value', hreaches, hother, hkey⟩ := hcovers name' value hvalue
    exact h.reading_eq hone hreading hreaches hother (hkey.trans (hsame hname))
      (carried_of_first hvalue) (hsame hname)
  default reading hreading name name' value hname hnone hvalue := by
    have hcarried : carried first second name' = some value :=
      carried_of_second (hnone name' hname) hvalue
    exact h.reading_eq hone hreading (hsecond name' value hvalue) hcarried (hsame hname) hcarried
      (hsame hname)
  unique reading hreading reading' hreading' := by
    funext name
    rcases h.picks f reading hreading name with ⟨picked, u, hreaches, hpicked, hkey, hread⟩ |
      ⟨hnone, hread⟩
    · rw [hread, h.reading_eq hone hreading' hreaches hpicked hkey hpicked hkey]
    · rcases h.picks f reading' hreading' name with ⟨picked, u, hreaches, hpicked, hkey, -⟩ |
        ⟨-, hread'⟩
      · exact absurd hkey (hnone picked u hreaches hpicked)
      · rw [hread, hread']

/-- The result merges the sources, whatever was there before, when names of one key carry one value
    and the first source can be read; and else it does not. -/
theorem merges_iff (hsame : ∀ {name name'}, same name name' → key name = key name')
    (hrefl : ∀ name, same name name) (hsecond : ∀ name value, second name = some value → Reaches name)
    (hclear : ∃ f, ∀ name, before f name = none) :
    (∀ f, Merges first second same (readings f)) ↔
      OneValue first second key ∧ Covers first second key Reaches := by
  constructor
  · intro hmerges
    obtain ⟨f, hbefore⟩ := hclear
    obtain ⟨reading, hreading⟩ := h.nonempty f
    -- what was there before does not show, so something reaches each supplied name
    have hcovers : Covers first second key Reaches := by
      intro name value hvalue
      have hread := (hmerges f).supplied reading hreading name name value (hrefl name) hvalue
      rcases h.picks f reading hreading name with ⟨picked, u, hreaches, hpicked, hkey, -⟩ | ⟨-, hnone⟩
      · exact ⟨picked, u, hreaches, hpicked, hkey⟩
      · rw [hnone, hbefore] at hread
        cases hread
    -- each carried value is read under its own name
    have hown : ∀ name value, carried first second name = some value →
        reading name = some value := by
      intro name value hname
      rcases carried_cases hname with hfirst | ⟨-, hsec⟩
      · exact (hmerges f).supplied reading hreading name name value (hrefl name) hfirst
      · obtain ⟨chosen, hchosen, hread⟩ := h.any f name value (hsecond name value hsec) hname
        rw [(hmerges f).unique reading hreading chosen hchosen]
        exact hread name rfl
    refine ⟨fun name name' value value' hname hname' hkey => ?_, hcovers⟩
    -- and what reaches the key of both is read under both names
    obtain ⟨other, u, hreaches, hother, hokey⟩ : ∃ other u, Reaches other ∧
        carried first second other = some u ∧ key other = key name := by
      rcases carried_cases hname with hfirst | ⟨-, hsec⟩
      · exact hcovers name value hfirst
      · exact ⟨name, value, hsecond name value hsec, hname, rfl⟩
    obtain ⟨chosen, hchosen, hread⟩ := h.any f other u hreaches hother
    have heq := (hmerges f).unique reading hreading chosen hchosen
    have hleft := hown name value hname
    have hright := hown name' value' hname'
    rw [heq, hread _ hokey.symm] at hleft
    rw [heq, hread _ (hkey.symm.trans hokey.symm)] at hright
    rw [← Option.some.inj hleft, Option.some.inj hright]
  · rintro ⟨hone, hcovers⟩ f
    exact h.merges hsame hsecond hone hcovers f

end Picks

end KeyedMerge
