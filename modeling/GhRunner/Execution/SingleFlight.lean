import GhRunner.Lib.Machine

set_option linter.unusedSectionVars false

namespace GhRunner.Execution.SingleFlight

open Machine

/-!
# One download at a time

`crates/execution/src/execution/actions/prefetch.rs`, `ensure_resolved` and `ensure` of any number of
callers for one cache key.

* `Fetcher`, `FetchEvent`, `step` — the map's entry for the key, the cells made for it, and where
  each caller stands;
* `InUse` — the map holds the cell, a caller waits on it or downloads through it, or it has a value;
* `Orderly` — a cell is only made where none is in use;
* `Sound`, `sound_step` — then one cell is in use at any time;
* `single_flight` — one download at a time and none after a success, and `evicted_live` — an eviction
  that hits the cell of another caller.
-/

variable {C : Type} [DecidableEq C]

/-- The archive is requested in the task of the caller, and unpacked on a thread of its own. -/
inductive Stage
  | requesting
  | unpacking
deriving DecidableEq

inductive Phase
  | idle
  | waiting (cell : ℕ)
  | fetching (cell : ℕ) (stage : Stage)
  | failed
deriving DecidableEq

namespace Phase

/-- The cell the caller has a hold of. -/
def cell : Phase → Option ℕ
  | waiting c => some c
  | fetching c _ => some c
  | _ => none

/-- The cell the caller downloads through. -/
def fetches : Phase → Option ℕ
  | fetching c _ => some c
  | _ => none

end Phase

/-- Whether it has a value, and who holds its one permit. -/
structure Cell (C : Type) where
  filled : Bool
  holder : Option C

namespace Cell

def empty : Cell C := ⟨false, none⟩

end Cell

structure Fetcher (C : Type) where
  entry : Option ℕ
  made : ℕ
  cells : ℕ → Cell C
  phase : C → Phase
  /-- Archives that are still unpacked after their callers have gone. -/
  leftover : ℕ

inductive FetchEvent (C : Type)
  | enter (caller : C)
  | join (caller : C)
  | attempt (caller : C) (cached : Bool)
  | unpack (caller : C)
  | succeed (caller : C)
  | fail (caller : C)
  | cancel (caller : C)
  | abandon (caller : C)
  | evict (caller : C)
  | leftoverEnds

namespace Fetcher

def start : Fetcher C where
  entry := none
  made := 0
  cells := fun _ => .empty
  phase := fun _ => .idle
  leftover := 0

def setPhase (s : Fetcher C) (caller : C) (phase : Phase) : Fetcher C :=
  { s with phase := Function.update s.phase caller phase }

def setCell (s : Fetcher C) (c : ℕ) (cell : Cell C) : Fetcher C :=
  { s with cells := Function.update s.cells c cell }

/-- `cell_for`: the entry of the key, which is made where there is none. -/
def cellFor (s : Fetcher C) (caller : C) : Fetcher C :=
  match s.entry with
  | some c => s.setPhase caller (.waiting c)
  | none => { (s.setCell s.made .empty).setPhase caller (.waiting s.made) with
      entry := some s.made, made := s.made + 1 }

/-- The caller stops, and what it does to its cell.  The permit goes back; what is being unpacked
    goes on. -/
def stop (s : Fetcher C) (caller : C) (phase : Phase) : Fetcher C :=
  match s.phase caller with
  | .waiting _ => s.setPhase caller phase
  | .fetching c .requesting => (s.setCell c .empty).setPhase caller phase
  | .fetching c .unpacking => { (s.setCell c .empty).setPhase caller phase with
      leftover := s.leftover + 1 }
  | _ => s

def step (s : Fetcher C) : FetchEvent C → Fetcher C
  | .enter caller => if s.phase caller = .idle then s.cellFor caller else s
  | .join caller =>
    match s.phase caller with
    | .waiting c => if (s.cells c).filled then s.setPhase caller .idle else s
    | _ => s
  -- `get_or_try_init` with the permit: the tree may be there already
  | .attempt caller cached =>
    match s.phase caller with
    | .waiting c =>
      if (s.cells c).filled = false ∧ (s.cells c).holder = none then
        if cached then (s.setCell c ⟨true, none⟩).setPhase caller .idle
        else (s.setCell c ⟨false, some caller⟩).setPhase caller (.fetching c .requesting)
      else s
    | _ => s
  | .unpack caller =>
    match s.phase caller with
    | .fetching c .requesting => s.setPhase caller (.fetching c .unpacking)
    | _ => s
  | .succeed caller =>
    match s.phase caller with
    | .fetching c .unpacking => (s.setCell c ⟨true, none⟩).setPhase caller .idle
    | _ => s
  | .fail caller =>
    match s.phase caller with
    | .fetching c _ => (s.setCell c .empty).setPhase caller .failed
    | _ => s
  -- the caller sees its token, or its task is aborted
  | .cancel caller => s.stop caller .failed
  | .abandon caller => s.stop caller .idle
  -- `evict`: whichever cell the map holds by now
  | .evict caller =>
    if s.phase caller = .failed then { s.setPhase caller .idle with entry := none } else s
  | .leftoverEnds => { s with leftover := s.leftover - 1 }

variable {s t : Fetcher C} {caller : C} {c : ℕ}

@[simp] theorem setPhase_entry (phase : Phase) : (s.setPhase caller phase).entry = s.entry := rfl

@[simp] theorem setPhase_made (phase : Phase) : (s.setPhase caller phase).made = s.made := rfl

@[simp] theorem setPhase_cells (phase : Phase) : (s.setPhase caller phase).cells = s.cells := rfl

@[simp] theorem setPhase_leftover (phase : Phase) :
    (s.setPhase caller phase).leftover = s.leftover := rfl

@[simp] theorem setPhase_phase (phase : Phase) :
    (s.setPhase caller phase).phase = Function.update s.phase caller phase := rfl

@[simp] theorem setCell_entry (cell : Cell C) : (s.setCell c cell).entry = s.entry := rfl

@[simp] theorem setCell_made (cell : Cell C) : (s.setCell c cell).made = s.made := rfl

@[simp] theorem setCell_cells (cell : Cell C) :
    (s.setCell c cell).cells = Function.update s.cells c cell := rfl

@[simp] theorem setCell_leftover (cell : Cell C) : (s.setCell c cell).leftover = s.leftover := rfl

@[simp] theorem setCell_phase (cell : Cell C) : (s.setCell c cell).phase = s.phase := rfl

/-! ### The cells in use -/

/-- The map holds the cell, a caller has a hold of it, or it has a value. -/
def InUse (s : Fetcher C) (c : ℕ) : Prop :=
  s.entry = some c ∨ (∃ caller, (s.phase caller).cell = some c) ∨ (s.cells c).filled = true

/-- A cell is only made where none is in use, and no caller goes while its archive is unpacked. -/
def Orderly (s : Fetcher C) (e : FetchEvent C) : Prop :=
  (∀ caller, e = .enter caller → s.phase caller = .idle → s.entry = none → ∀ c, ¬ InUse s c) ∧
  ∀ caller c, e = .cancel caller ∨ e = .abandon caller → s.phase caller ≠ .fetching c .unpacking

/-- At most one download is running. -/
def AtMostOne (s : Fetcher C) : Prop :=
  (∀ caller other c d, (s.phase caller).fetches = some c → (s.phase other).fetches = some d →
    caller = other) ∧ s.leftover = 0

/-- No attempt begins after one has succeeded. -/
def NoneAfterSuccess (s : Fetcher C) (e : FetchEvent C) : Prop :=
  ∀ caller cached c, e = .attempt caller cached → s.phase caller = .waiting c →
    (s.cells c).filled = false → (s.cells c).holder = none → ∀ d, (s.cells d).filled = false

/-- One cell is in use, and the caller that downloads through a cell has its permit. -/
structure Sound (s : Fetcher C) : Prop where
  single : ∀ c d, InUse s c → InUse s d → c = d
  bounded : ∀ c, InUse s c → c < s.made
  held : ∀ c caller, (s.cells c).holder = some caller ↔ (s.phase caller).fetches = some c
  busy : ∀ c caller, (s.cells c).holder = some caller → (s.cells c).filled = false
  leftover : s.leftover = 0

theorem sound_start : Sound (start : Fetcher C) where
  single c d h := by
    rcases h with h | ⟨caller, h⟩ | h <;> cases h
  bounded c h := by
    rcases h with h | ⟨caller, h⟩ | h <;> cases h
  held c caller := iff_of_false nofun nofun
  busy c caller := nofun
  leftover := rfl

theorem cell_of_fetches {phase : Phase} (h : phase.fetches = some c) : phase.cell = some c := by
  cases phase <;> first | exact h | cases h

/-- A caller moves, and with it the cell it has a hold of. -/
theorem Sound.move (h : Sound s) (hc : InUse s c) (hentry : t.entry = s.entry)
    (hmade : t.made = s.made) (hleftover : t.leftover = s.leftover)
    (hothers : ∀ other, other ≠ caller → t.phase other = s.phase other)
    (hcells : ∀ d, d ≠ c → t.cells d = s.cells d)
    (hfrom : ∀ d, (s.phase caller).cell = some d → d = c)
    (hto : ∀ d, (t.phase caller).cell = some d → d = c)
    (hheld : ∀ other, (t.cells c).holder = some other ↔ (t.phase other).fetches = some c)
    (hbusy : (t.cells c).holder = none ∨ (t.cells c).filled = false) : Sound t := by
  have hmono : ∀ d, InUse t d → InUse s d := by
    rintro d (hd | ⟨other, hd⟩ | hd)
    · exact .inl (hentry ▸ hd)
    · by_cases hother : other = caller
      · subst hother
        rwa [hto d hd]
      · exact .inr (.inl ⟨other, hothers other hother ▸ hd⟩)
    · by_cases heq : d = c
      · rwa [heq]
      · exact .inr (.inr (hcells d heq ▸ hd))
  refine ⟨fun d e hd he => h.single d e (hmono d hd) (hmono e he),
    fun d hd => hmade ▸ h.bounded d (hmono d hd), fun d other => ?_, fun d other hd => ?_,
    hleftover.trans h.leftover⟩
  · by_cases heq : d = c
    · subst heq
      exact hheld other
    · rw [hcells d heq, h.held]
      by_cases hother : other = caller
      · -- the caller has a hold of no other cell, before and after
        subst hother
        constructor
        · exact fun hd => absurd (hfrom d (cell_of_fetches hd)) heq
        · exact fun hd => absurd (hto d (cell_of_fetches hd)) heq
      · rw [hothers other hother]
  · by_cases heq : d = c
    · subst heq
      exact hbusy.resolve_left (by simp [hd])
    · rw [hcells d heq] at hd ⊢
      exact h.busy d other hd

/-- A caller that moves without taking or giving back a permit. -/
theorem Sound.wait (h : Sound s) (hc : InUse s c) {phase : Phase}
    (hfrom : ∀ d, (s.phase caller).cell = some d → d = c) (hto : ∀ d, phase.cell = some d → d = c)
    (hfetches : phase.fetches = (s.phase caller).fetches) : Sound (s.setPhase caller phase) := by
  refine h.move hc rfl rfl rfl (fun other hother => Function.update_of_ne hother ..)
    (fun _ _ => rfl) hfrom (by simpa using hto) (fun other => ?_) ?_
  · rw [setPhase_cells, h.held, setPhase_phase]
    by_cases hother : other = caller
    · rw [hother, Function.update_self, hfetches]
    · rw [Function.update_of_ne hother]
  · cases hholder : (s.cells c).holder with
    | none => exact .inl hholder
    | some other => exact .inr (h.busy c other hholder)

/-- A caller that takes the permit, or gives it back. -/
theorem Sound.through (h : Sound s) {phase : Phase} {cell : Cell C}
    (hphase : (s.phase caller).cell = some c) (hto : ∀ d, phase.cell = some d → d = c)
    (hholder : ∀ other, (s.cells c).holder = some other → other = caller)
    (hcell : cell.holder = if phase.fetches = some c then some caller else none)
    (hfilled : cell.holder = none ∨ cell.filled = false) :
    Sound ((s.setCell c cell).setPhase caller phase) := by
  refine h.move (.inr (.inl ⟨caller, hphase⟩)) rfl rfl rfl
    (fun other hother => Function.update_of_ne hother ..)
    (fun d hd => Function.update_of_ne hd ..) ?_ (by simpa using hto) (fun other => ?_)
    (by simpa using hfilled)
  · intro d hd
    rw [hphase] at hd
    exact (Option.some.inj hd).symm
  · simp only [setPhase_cells, setCell_cells, setPhase_phase, setCell_phase, Function.update_self]
    rw [hcell]
    by_cases hother : other = caller
    · subst hother
      rw [Function.update_self]
      split <;> simp_all
    · -- nobody else has the permit
      rw [Function.update_of_ne hother, ← h.held]
      refine iff_of_false ?_ fun hd => hother (hholder other hd)
      split
      · exact fun heq => hother (Option.some.inj heq).symm
      · exact nofun

theorem Sound.holder_of_fetching (h : Sound s) {stage : Stage}
    (hphase : s.phase caller = .fetching c stage) (other : C)
    (hother : (s.cells c).holder = some other) : other = caller := by
  have hmine : (s.cells c).holder = some caller := (h.held c caller).mpr (by rw [hphase]; rfl)
  rw [hmine] at hother
  exact (Option.some.inj hother).symm

/-- A fresh cell where none is in use. -/
theorem Sound.fresh (h : Sound s) (hidle : s.phase caller = .idle) (hnone : s.entry = none)
    (hunused : ∀ c, ¬ InUse s c) : Sound (s.cellFor caller) := by
  have huse : ∀ c, InUse (s.cellFor caller) c → c = s.made := by
    intro c hc
    rw [cellFor, hnone] at hc
    rcases hc with hc | ⟨other, hc⟩ | hc
    · exact (Option.some.inj hc).symm
    · by_cases hother : other = caller
      · subst hother
        simp only [setPhase_phase, Function.update_self] at hc
        exact (Option.some.inj hc).symm
      · simp only [setPhase_phase, setCell_phase, Function.update_of_ne hother] at hc
        exact absurd (.inr (.inl ⟨other, hc⟩)) (hunused c)
    · by_contra hne
      simp only [setPhase_cells, setCell_cells, Function.update_of_ne hne] at hc
      exact hunused c (.inr (.inr hc))
  have hheld : ∀ c other, (s.cells c).holder ≠ some other := by
    intro c other hholder
    exact hunused c (.inr (.inl ⟨other, cell_of_fetches ((h.held c other).mp hholder)⟩))
  refine ⟨fun c d hc hd => (huse c hc).trans (huse d hd).symm, fun c hc => ?_, fun c other => ?_,
    fun c other => ?_, ?_⟩
  · rw [huse c hc, cellFor, hnone]
    exact Nat.lt_succ_self _
  · rw [cellFor, hnone]
    refine iff_of_false ?_ ?_
    · simp only [setPhase_cells, setCell_cells]
      by_cases hc : c = s.made
      · rw [hc, Function.update_self]
        exact nofun
      · rw [Function.update_of_ne hc]
        exact hheld c other
    · simp only [setPhase_phase, setCell_phase]
      by_cases hother : other = caller
      · rw [hother, Function.update_self]
        exact nofun
      · rw [Function.update_of_ne hother, ← h.held]
        exact hheld c other
  · rw [cellFor, hnone]
    simp only [setPhase_cells, setCell_cells]
    by_cases hc : c = s.made
    · rw [hc, Function.update_self]
      exact nofun
    · rw [Function.update_of_ne hc]
      exact fun hholder => absurd hholder (hheld c other)
  · rw [cellFor, hnone]
    exact h.leftover

theorem sound_stop (h : Sound s) {phase : Phase} (hphase : phase.cell = none)
    (hunpacking : ∀ c, s.phase caller ≠ .fetching c .unpacking) : Sound (s.stop caller phase) := by
  have hto : ∀ c d, phase.cell = some d → d = c := by
    intro c d hd
    rw [hphase] at hd
    cases hd
  have hfetches : phase.fetches = none := by
    cases phase <;> first | rfl | cases hphase
  unfold stop
  split
  case h_1 c hwaiting =>
    have hcell : (s.phase caller).cell = some c := by rw [hwaiting]; rfl
    refine h.wait (.inr (.inl ⟨caller, hcell⟩)) ?_ (hto c) (by rw [hfetches, hwaiting]; rfl)
    intro d hd
    exact Option.some.inj (hd.symm.trans hcell)
  case h_2 c hfetching =>
    exact h.through (by rw [hfetching]; rfl) (hto c) (h.holder_of_fetching hfetching)
      (by rw [hfetches]; rfl) (.inl rfl)
  case h_3 c hfetching => exact absurd hfetching (hunpacking c)
  case h_4 => exact h

theorem sound_step (s : Fetcher C) (e : FetchEvent C) (h : Sound s) (hok : Orderly s e) :
    Sound (s.step e) := by
  cases e with
  | enter caller =>
    rw [step]
    split
    case isTrue hidle =>
      cases hentry : s.entry with
      | none => exact h.fresh hidle hentry (hok.1 caller rfl hidle hentry)
      | some c =>
        rw [cellFor, hentry]
        refine h.wait (c := c) (.inl hentry) ?_ (fun d hd => (Option.some.inj hd).symm) ?_
        · rw [hidle]
          exact nofun
        · rw [hidle]
          rfl
    case isFalse => exact h
  | join caller =>
    rw [step]
    split
    case h_1 c hwaiting =>
      split
      · have hcell : (s.phase caller).cell = some c := by rw [hwaiting]; rfl
        refine h.wait (c := c) (.inr (.inl ⟨caller, hcell⟩)) ?_ nofun (by rw [hwaiting]; rfl)
        exact fun d hd => Option.some.inj (hd.symm.trans hcell)
      · exact h
    case h_2 => exact h
  | attempt caller cached =>
    rw [step]
    split
    case h_1 c hwaiting =>
      have hcell : (s.phase caller).cell = some c := by rw [hwaiting]; rfl
      split
      case isTrue hfree =>
        have hholder : ∀ other, (s.cells c).holder = some other → other = caller := by
          rw [hfree.2]
          exact nofun
        split
        · exact h.through hcell nofun hholder rfl (.inl rfl)
        · refine h.through hcell ?_ hholder (if_pos rfl).symm (.inr rfl)
          exact fun d hd => (Option.some.inj hd).symm
      case isFalse => exact h
    case h_2 => exact h
  | unpack caller =>
    rw [step]
    split
    case h_1 c hfetching =>
      have hcell : (s.phase caller).cell = some c := by rw [hfetching]; rfl
      refine h.wait (c := c) (.inr (.inl ⟨caller, hcell⟩)) ?_ ?_ (by rw [hfetching]; rfl)
      · exact fun d hd => Option.some.inj (hd.symm.trans hcell)
      · exact fun d hd => (Option.some.inj hd).symm
    case h_2 => exact h
  | succeed caller =>
    rw [step]
    split
    case h_1 c hfetching =>
      exact h.through (by rw [hfetching]; rfl) nofun (h.holder_of_fetching hfetching) rfl (.inl rfl)
    case h_2 => exact h
  | fail caller =>
    rw [step]
    split
    case h_1 c stage hfetching =>
      exact h.through (by rw [hfetching]; rfl) nofun (h.holder_of_fetching hfetching) rfl (.inl rfl)
    case h_2 => exact h
  | cancel caller => exact sound_stop h rfl fun c => hok.2 caller c (.inl rfl)
  | abandon caller => exact sound_stop h rfl fun c => hok.2 caller c (.inr rfl)
  | evict caller =>
    rw [step]
    split
    case isTrue hfailed =>
      have hphase : ∀ other, (Function.update s.phase caller .idle other).cell =
          (s.phase other).cell ∧ (Function.update s.phase caller .idle other).fetches =
          (s.phase other).fetches := by
        intro other
        by_cases hother : other = caller
        · rw [hother, Function.update_self, hfailed]
          exact ⟨rfl, rfl⟩
        · rw [Function.update_of_ne hother]
          exact ⟨rfl, rfl⟩
      have hmono : ∀ c, InUse { s.setPhase caller .idle with entry := none } c → InUse s c := by
        rintro c (hc | ⟨other, hc⟩ | hc)
        · cases hc
        · exact .inr (.inl ⟨other, (hphase other).1 ▸ hc⟩)
        · exact .inr (.inr hc)
      refine ⟨fun c d hc hd => h.single c d (hmono c hc) (hmono d hd),
        fun c hc => h.bounded c (hmono c hc), fun c other => ?_, h.busy, h.leftover⟩
      exact (h.held c other).trans (by rw [← (hphase other).2]; rfl)
    case isFalse => exact h
  | leftoverEnds =>
    exact ⟨h.single, h.bounded, h.held, h.busy, by rw [step, h.leftover]⟩

/-! ### Runs -/

theorem Sound.atMostOne (h : Sound s) : AtMostOne s := by
  refine ⟨fun caller other c d hcaller hother => ?_, h.leftover⟩
  have hcells : c = d := h.single c d (.inr (.inl ⟨caller, cell_of_fetches hcaller⟩))
    (.inr (.inl ⟨other, cell_of_fetches hother⟩))
  rw [← h.held] at hcaller hother
  rw [← hcells, hcaller] at hother
  exact Option.some.inj hother

/-- The cell of an attempt is the one in use, and it has no value. -/
theorem Sound.noneAfterSuccess (h : Sound s) (e : FetchEvent C) : NoneAfterSuccess s e := by
  intro caller cached c _ hwaiting hempty _ d
  by_contra hfilled
  rw [Bool.not_eq_false] at hfilled
  have hcell : InUse s c := .inr (.inl ⟨caller, by rw [hwaiting]; rfl⟩)
  rw [h.single c d hcell (.inr (.inr hfilled)), hfilled] at hempty
  cases hempty

/-- In an orderly run at most one download is running at any time, and no attempt begins after one
    has succeeded. -/
theorem single_flight (es : List (FetchEvent C)) (hes : Throughout step Orderly start es) :
    AtMostOne (run step (start : Fetcher C) es) ∧
      Throughout step NoneAfterSuccess (start : Fetcher C) es :=
  ⟨(run_invariant sound_step hes sound_start).atMostOne,
    throughout_of_invariant sound_step (fun _ e h _ => h.noneAfterSuccess e) hes sound_start⟩

/-- Only who comes or goes can be out of order. -/
theorem orderly_of_stays {e : FetchEvent C} (henter : ∀ caller, e ≠ .enter caller)
    (hcancel : ∀ caller, e ≠ .cancel caller) (habandon : ∀ caller, e ≠ .abandon caller) :
    Orderly s e := by
  refine ⟨fun caller he => absurd he (henter caller), fun caller c he => ?_⟩
  rcases he with he | he
  · exact absurd he (hcancel caller)
  · exact absurd he (habandon caller)

/-- The first attempt fails, a caller that waits makes the second, and the entry is gone before it
    is done. -/
def retried : List (FetchEvent ℕ) :=
  [.enter 0, .attempt 0 false, .enter 1, .fail 0, .attempt 1 false, .evict 0]

theorem single_flight_retried :
    AtMostOne (run step (start : Fetcher ℕ) retried) ∧
      Throughout step NoneAfterSuccess (start : Fetcher ℕ) retried := by
  refine single_flight retried ⟨⟨fun _ _ _ _ c hc => ?_, fun _ _ he => ?_⟩,
    orderly_of_stays nofun nofun nofun, ⟨fun _ _ _ hnone => ?_, fun _ _ he => ?_⟩,
    orderly_of_stays nofun nofun nofun, orderly_of_stays nofun nofun nofun,
    orderly_of_stays nofun nofun nofun, trivial⟩
  · -- nothing is in use at the start
    rcases hc with hc | ⟨_, hc⟩ | hc <;> cases hc
  · rcases he with he | he <;> cases he
  · -- the second caller finds the cell of the first
    cases hnone
  · rcases he with he | he <;> cases he

/-- A third caller gets a cell of its own: two downloads are running; or the second has succeeded and
    one begins. -/
theorem evicted_live :
    ¬ AtMostOne (run step (start : Fetcher ℕ) (retried ++ [.enter 2, .attempt 2 false])) ∧
      ¬ Throughout step NoneAfterSuccess (start : Fetcher ℕ)
        (retried ++ [.unpack 1, .succeed 1, .enter 2, .attempt 2 false]) := by
  constructor
  · intro h
    have hsame : 1 = 2 := h.1 1 2 0 1 rfl rfl
    cases hsame
  · intro h
    rw [throughout_iff] at h
    have hempty := h (retried ++ [.unpack 1, .succeed 1, .enter 2]) (.attempt 2 false) [] rfl
      2 false 1 rfl rfl rfl rfl 0
    cases hempty

end Fetcher

end GhRunner.Execution.SingleFlight
