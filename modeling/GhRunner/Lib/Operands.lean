import Mathlib.Data.List.Basic

/-!
# Words that may take the next word

A loop takes words off a list.  At each turn it takes one word, and perhaps the one after it; which it
does, it decides from the word and from its state.

* `Turn` — what the loop does with a word: it is done with it, or it asks for the next one, and there
  may be none;
* `run`, `reads` — the loop, and what it takes at each turn until it stops;
* `flat` — words, each with the word that belongs to it, written one after another;
* `Fits`, `reads_flat` — where the words that ask are the words that something belongs to, the loop
  takes each word with what belongs to it;
* `run_flat_induct`, `run_flat_error` — what is preserved item by item, and where a failure comes from;
* `run_map` — loops that do the same to two representations of their state.
-/

namespace Operands

variable {α ε σ τ : Type*}

/-- What is done with a word. -/
inductive Turn (α ε σ : Type*)
  | done (result : Except ε σ)
  | next (take : Option α → Except ε σ)

namespace Turn

/-- The next word is asked for. -/
def asks : Turn α ε σ → Bool
  | .done _ => false
  | .next _ => true

/-- The turn, with what there is to take. -/
def on : Turn α ε σ → Option α → Except ε σ
  | .done result, _ => result
  | .next take, operand => take operand

def map (f : σ → τ) : Turn α ε σ → Turn α ε τ
  | .done result => .done (result.map f)
  | .next take => .next fun operand => (take operand).map f

theorem map_map {υ : Type*} (f : σ → τ) (g : τ → υ) (turn : Turn α ε σ) :
    (turn.map f).map g = turn.map fun s => g (f s) := by
  cases turn with
  | done result => cases result <;> rfl
  | next take =>
    refine congrArg Turn.next (funext fun operand => ?_)
    show ((take operand).map f).map g = _
    cases take operand <;> rfl

end Turn

section Loop

variable (step : α → σ → Turn α ε σ)

def run : List α → σ → Except ε σ
  | [], s => .ok s
  | word :: rest, s =>
    match step word s, rest with
    | .done result, rest => result.bind fun s' => run rest s'
    | .next take, [] => take none
    | .next take, operand :: rest => (take (some operand)).bind fun s' => run rest s'

/-- The words taken, each with the one it asked for.  A word whose turn fails is the last. -/
def reads : List α → σ → List (α × Option α)
  | [], _ => []
  | word :: rest, s =>
    match step word s, rest with
    | .done (.ok s'), rest => (word, none) :: reads rest s'
    | .done (.error _), _ => [(word, none)]
    | .next _, [] => [(word, none)]
    | .next take, operand :: rest =>
      match take (some operand) with
      | .ok s' => (word, some operand) :: reads rest s'
      | .error _ => [(word, some operand)]

end Loop

/-- Each word, and after it what belongs to it. -/
def flat (items : List (α × Option α)) : List α := items.flatMap fun item => item.1 :: item.2.toList

@[simp] theorem flat_nil : flat ([] : List (α × Option α)) = [] := rfl

@[simp] theorem flat_singleton (item : α × Option α) : flat [item] = item.1 :: item.2.toList :=
  List.flatMap_singleton _ _

@[simp] theorem flat_append (items items' : List (α × Option α)) :
    flat (items ++ items') = flat items ++ flat items' := List.flatMap_append

section Loop

variable {step : α → σ → Turn α ε σ}

/-- The words that ask are those that something belongs to. -/
def Fits (step : α → σ → Turn α ε σ) (item : α × Option α) : Prop :=
  ∀ s, (step item.1 s).asks = item.2.isSome

/-- One turn of the loop. -/
theorem run_cons (word : α) (rest : List α) (s : σ) :
    run step (word :: rest) s = match step word s, rest with
      | .done result, rest => result.bind fun s' => run step rest s'
      | .next take, [] => take none
      | .next take, operand :: rest => (take (some operand)).bind fun s' => run step rest s' := by
  rw [run.eq_def]

theorem run_done {word : α} {s : σ} {result : Except ε σ} (h : step word s = .done result)
    (rest : List α) : run step (word :: rest) s = result.bind (run step rest) := by
  rw [run_cons, h]

theorem run_next {word : α} {s : σ} {take : Option α → Except ε σ} (h : step word s = .next take)
    (operand : α) (rest : List α) :
    run step (word :: operand :: rest) s = (take (some operand)).bind (run step rest) := by
  rw [run_cons, h]

theorem run_last {word : α} {s : σ} {take : Option α → Except ε σ} (h : step word s = .next take) :
    run step [word] s = take none := by
  rw [run_cons, h]

/-- One item at the front is one turn. -/
theorem run_flat_cons {item : α × Option α} (h : Fits step item) (items : List (α × Option α)) (s : σ) :
    run step (flat (item :: items)) s = ((step item.1 s).on item.2).bind (run step (flat items)) := by
  obtain ⟨word, operand⟩ := item
  have hasks := h s
  cases hturn : step word s with
  | done result =>
    rw [hturn] at hasks
    cases operand with
    | none => exact run_done hturn (flat items)
    | some _ => cases hasks
  | next take =>
    rw [hturn] at hasks
    cases operand with
    | none => cases hasks
    | some operand => exact run_next hturn operand (flat items)

theorem reads_flat_cons {item : α × Option α} (h : Fits step item) (items : List (α × Option α))
    (s : σ) :
    reads step (flat (item :: items)) s = item :: match (step item.1 s).on item.2 with
      | .ok s' => reads step (flat items) s'
      | .error _ => [] := by
  obtain ⟨word, operand⟩ := item
  have hasks := h s
  cases hturn : step word s with
  | done result =>
    rw [hturn] at hasks
    cases operand with
    | none =>
      show reads step (word :: flat items) s = _
      rw [reads.eq_def]
      cases result <;> simp only [hturn, Turn.on]
    | some _ => cases hasks
  | next take =>
    rw [hturn] at hasks
    cases operand with
    | none => cases hasks
    | some operand =>
      show reads step (word :: operand :: flat items) s = _
      rw [reads.eq_def]
      simp only [hturn, Turn.on]
      cases take (some operand) <;> rfl

variable {items : List (α × Option α)}

/-- What it takes are the items, up to one that fails. -/
theorem reads_flat (h : ∀ item ∈ items, Fits step item) (s : σ) :
    reads step (flat items) s <+: items ∧
      ∀ s', run step (flat items) s = .ok s' → reads step (flat items) s = items := by
  induction items generalizing s with
  | nil => exact ⟨List.prefix_rfl, fun _ _ => rfl⟩
  | cons item items ih =>
    have hitem := h item List.mem_cons_self
    rw [run_flat_cons hitem, reads_flat_cons hitem]
    cases hturn : (step item.1 s).on item.2 with
    | error e => exact ⟨(List.prefix_cons_inj _).mpr (List.nil_prefix), fun s' hrun => by cases hrun⟩
    | ok s₁ =>
      obtain ⟨hfront, hall⟩ := ih (fun item' hmem => h item' (List.mem_cons_of_mem _ hmem)) s₁
      exact ⟨(List.prefix_cons_inj _).mpr hfront, fun s' hrun => congrArg _ (hall s' hrun)⟩

/-- What holds of the items taken so far and is preserved by the next one, holds at the end. -/
theorem run_flat_induct {ι : Type*} {words : ι → α × Option α} {items : List ι}
    (P : List ι → σ → Prop) (h : ∀ item ∈ items, Fits step (words item))
    (hstep : ∀ front item s s', item ∈ items → P front s →
      (step (words item).1 s).on (words item).2 = .ok s' → P (front ++ [item]) s')
    {s s' : σ} (hs : P [] s) (hrun : run step (flat (items.map words)) s = .ok s') : P items s' := by
  have hgen : ∀ rest front s, (∀ item ∈ rest, item ∈ items) → P front s →
      run step (flat (rest.map words)) s = .ok s' → P (front ++ rest) s' := by
    intro rest
    induction rest with
    | nil =>
      intro front s _ hs hrun
      cases hrun
      rwa [List.append_nil]
    | cons item rest ih =>
      intro front s hmem hs hrun
      have hitem := hmem item List.mem_cons_self
      rw [List.map_cons, run_flat_cons (h item hitem)] at hrun
      cases hturn : (step (words item).1 s).on (words item).2 with
      | error e =>
        rw [hturn] at hrun
        cases hrun
      | ok s₁ =>
        rw [hturn] at hrun
        rw [List.append_cons]
        exact ih (front ++ [item]) s₁ (fun item' h' => hmem item' (List.mem_cons_of_mem _ h'))
          (hstep front item s s₁ hitem hs hturn) hrun
  exact hgen items [] s (fun _ h => h) hs hrun

/-- Where the loop fails, one of its turns does. -/
theorem run_flat_error (h : ∀ item ∈ items, Fits step item) {s : σ} {e : ε}
    (hrun : run step (flat items) s = .error e) :
    ∃ item ∈ items, ∃ s', (step item.1 s').on item.2 = .error e := by
  induction items generalizing s with
  | nil => cases hrun
  | cons item items ih =>
    rw [run_flat_cons (h item List.mem_cons_self)] at hrun
    cases hturn : (step item.1 s).on item.2 with
    | error e' =>
      rw [hturn] at hrun
      cases hrun
      exact ⟨item, List.mem_cons_self, s, hturn⟩
    | ok s₁ =>
      rw [hturn] at hrun
      obtain ⟨item', hmem, s', herror⟩ :=
        ih (fun item' hmem => h item' (List.mem_cons_of_mem _ hmem)) hrun
      exact ⟨item', List.mem_cons_of_mem _ hmem, s', herror⟩

end Loop

/-- A loop over one representation of its state is the loop over another. -/
theorem run_map {step : α → σ → Turn α ε σ} {step' : α → τ → Turn α ε τ} (f : σ → τ)
    (hstep : ∀ word s, step' word (f s) = (step word s).map f) (words : List α) (s : σ) :
    run step' words (f s) = (run step words s).map f := by
  fun_induction run step words s with
  | case1 s => rfl
  | case2 word s result rest hturn ih =>
    have hturn' : step' word (f s) = .done (result.map f) := by rw [hstep, hturn, Turn.map]
    rw [run_done hturn']
    cases result with
    | error => rfl
    | ok s₁ => exact ih s₁
  | case3 word s take hturn =>
    have hturn' : step' word (f s) = .next fun operand => (take operand).map f := by
      rw [hstep, hturn, Turn.map]
    rw [run_last hturn']
  | case4 word s take operand rest hturn ih =>
    have hturn' : step' word (f s) = .next fun operand => (take operand).map f := by
      rw [hstep, hturn, Turn.map]
    rw [run_next hturn']
    cases take (some operand) with
    | error => rfl
    | ok s₁ => exact ih s₁

end Operands
