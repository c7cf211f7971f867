import Mathlib.Data.Set.Function
import Mathlib.Data.Set.Prod
import Mathlib.Data.List.Basic

/-!
# Codes that show their own end

A code writes values as lists.  It is self-delimiting on a set of values when what is written after
one of them cannot change where its code ends.

* `SelfDelimitingOn` — the notion, and `injOn` — such a code is injective;
* `terminated`, `fixedLength`, `counted` — a list with an end mark that is not in it, a code of one
  length, and a list after its own measure;
* `comp`, `image`, `pair` — codes from codes;
* `flatMap_injOn` — lists of values, written one after another.
-/

namespace Codes

variable {α β γ : Type*}

def SelfDelimitingOn (s : Set α) (code : α → List β) : Prop :=
  ∀ ⦃a⦄, a ∈ s → ∀ ⦃b⦄, b ∈ s → ∀ ⦃xs ys⦄, code a ++ xs = code b ++ ys → a = b ∧ xs = ys

namespace SelfDelimitingOn

variable {s : Set α} {code : α → List β}

theorem injOn (h : SelfDelimitingOn s code) : Set.InjOn code s := by
  intro a ha b hb heq
  exact (h ha hb (congrArg (· ++ []) heq)).1

theorem comp {t : Set γ} {f : γ → α} (h : SelfDelimitingOn s code) (hf : Set.InjOn f t)
    (hmaps : Set.MapsTo f t s) : SelfDelimitingOn t fun c => code (f c) := by
  intro c hc d hd xs ys heq
  obtain ⟨hfc, hrest⟩ := h (hmaps hc) (hmaps hd) heq
  exact ⟨hf hc hd hfc, hrest⟩

/-- The codes themselves, as they stand. -/
theorem image (h : SelfDelimitingOn s code) : SelfDelimitingOn (code '' s) id := by
  rintro _ ⟨a, ha, rfl⟩ _ ⟨b, hb, rfl⟩ xs ys heq
  obtain ⟨rfl, hrest⟩ := h ha hb heq
  exact ⟨rfl, hrest⟩

theorem pair {t : Set γ} {code' : γ → List β} (h : SelfDelimitingOn s code)
    (h' : SelfDelimitingOn t code') :
    SelfDelimitingOn (s ×ˢ t) fun p => code p.1 ++ code' p.2 := by
  rintro ⟨a, c⟩ ⟨ha, hc⟩ ⟨b, d⟩ ⟨hb, hd⟩ xs ys heq
  simp only [List.append_assoc] at heq
  obtain ⟨hfirst, hrest⟩ := h ha hb heq
  obtain ⟨hsecond, hrest⟩ := h' hc hd hrest
  exact ⟨Prod.ext hfirst hsecond, hrest⟩

/-- Where no code is empty, values written one after another can be read back. -/
theorem flatMap_injOn (h : SelfDelimitingOn s code) (hne : ∀ a ∈ s, code a ≠ []) {l l' : List α}
    (hl : ∀ a ∈ l, a ∈ s) (hl' : ∀ a ∈ l', a ∈ s) (heq : l.flatMap code = l'.flatMap code) :
    l = l' := by
  induction l generalizing l' with
  | nil =>
    cases l' with
    | nil => rfl
    | cons b l' =>
      rw [List.flatMap_nil, List.flatMap_cons] at heq
      exact absurd (List.append_eq_nil_iff.mp heq.symm).1 (hne b (hl' b List.mem_cons_self))
  | cons a l ih =>
    cases l' with
    | nil =>
      rw [List.flatMap_nil, List.flatMap_cons] at heq
      exact absurd (List.append_eq_nil_iff.mp heq).1 (hne a (hl a List.mem_cons_self))
    | cons b l' =>
      rw [List.flatMap_cons, List.flatMap_cons] at heq
      obtain ⟨rfl, hrest⟩ := h (hl a List.mem_cons_self) (hl' b List.mem_cons_self) heq
      rw [ih (fun c hc => hl c (List.mem_cons_of_mem _ hc))
        (fun c hc => hl' c (List.mem_cons_of_mem _ hc)) hrest]

end SelfDelimitingOn

/-! ### Codes to begin with -/

theorem terminated (mark : β) : SelfDelimitingOn {l : List β | mark ∉ l} fun l => l ++ [mark] := by
  intro a ha b hb xs ys heq
  simp only [List.append_assoc, List.singleton_append] at heq
  induction a generalizing b with
  | nil =>
    cases b with
    | nil => exact ⟨rfl, (List.cons.inj heq).2⟩
    | cons x b =>
      have hx : mark = x := (List.cons.inj heq).1
      exact absurd (hx ▸ List.mem_cons_self) hb
  | cons x a ih =>
    cases b with
    | nil =>
      have hx : x = mark := (List.cons.inj heq).1
      exact absurd (hx ▸ List.mem_cons_self) ha
    | cons y b =>
      obtain ⟨rfl, htail⟩ := List.cons.inj heq
      obtain ⟨rfl, hrest⟩ := ih (fun hmem => ha (List.mem_cons_of_mem _ hmem))
        (fun hmem => hb (List.mem_cons_of_mem _ hmem)) htail
      exact ⟨rfl, hrest⟩

theorem fixedLength {s : Set α} {code : α → List β} {n : ℕ} (hlen : ∀ a ∈ s, (code a).length = n)
    (hinj : Set.InjOn code s) : SelfDelimitingOn s code := by
  intro a ha b hb xs ys heq
  obtain ⟨hcode, hrest⟩ := List.append_inj heq ((hlen a ha).trans (hlen b hb).symm)
  exact ⟨hinj ha hb hcode, hrest⟩

/-- A list after its measure, where each element adds to it. -/
theorem counted {size : List β → ℕ} (happend : ∀ l l', size (l ++ l') = size l + size l')
    (hpos : ∀ l, size l = 0 → l = []) {number : ℕ → List β}
    (hnumber : SelfDelimitingOn Set.univ number) :
    SelfDelimitingOn Set.univ fun l : List β => number (size l) ++ l := by
  intro a _ b _ xs ys heq
  simp only [List.append_assoc] at heq
  obtain ⟨hsize, hrest⟩ := hnumber (Set.mem_univ _) (Set.mem_univ _) heq
  -- one of the two is the front of the other, and nothing is left between them
  rcases List.append_eq_append_iff.mp hrest with ⟨between, rfl, rfl⟩ | ⟨between, rfl, rfl⟩
  · rw [happend] at hsize
    obtain rfl := hpos between (by omega)
    exact ⟨(List.append_nil a).symm, rfl⟩
  · rw [happend] at hsize
    obtain rfl := hpos between (by omega)
    exact ⟨List.append_nil b, rfl⟩

end Codes
