import Mathlib.Data.List.Basic
import Mathlib.Logic.Relation

/-!
# Walks with a stack

A walk takes an item off a stack and puts the item's children in its place, the first of them on top.

* `Pops` — the items that come off a stack, in order;
* `preorder` — an item, and then what is below each of its children, down to a depth;
* `Within` — there is nothing below the item any deeper than that;
* `pops_preorder` — what comes off for an item is its preorder;
* `mem_preorder_iff`, `pairwise_preorder` — it has what is below the item, in the order of the children.
-/

namespace StackWalk

open Relation

variable {ι : Type*} (children : ι → List ι)

/-- The items that come off the stack; its top is the head. -/
inductive Pops : List ι → List ι → Prop
  | done : Pops [] []
  | pop {item : ι} {stack items : List ι} (rest : Pops (children item ++ stack) items) :
      Pops (item :: stack) (item :: items)

def preorder : ℕ → ι → List ι
  | 0, item => [item]
  | depth + 1, item => item :: (children item).flatMap (preorder depth)

def Within : ℕ → ι → Prop
  | 0, item => children item = []
  | depth + 1, item => ∀ child ∈ children item, Within depth child

/-- Down from an item to a child of it, and on. -/
def Below : ι → ι → Prop := ReflTransGen fun item child => child ∈ children item

variable {children}

theorem Within.mono {depth depth' : ℕ} {item : ι} (hle : depth ≤ depth') (h : Within children depth item) :
    Within children depth' item := by
  induction depth' generalizing depth item with
  | zero =>
    obtain rfl := Nat.le_zero.mp hle
    exact h
  | succ depth' ih =>
    intro child hchild
    cases depth with
    | zero =>
      have hnone : children item = [] := h
      rw [hnone] at hchild
      exact absurd hchild List.not_mem_nil
    | succ depth => exact ih (Nat.le_of_succ_le_succ hle) (h child hchild)

/-- One depth for several items. -/
theorem exists_within {items : List ι} (h : ∀ item ∈ items, ∃ depth, Within children depth item) :
    ∃ depth, ∀ item ∈ items, Within children depth item := by
  induction items with
  | nil => exact ⟨0, by simp⟩
  | cons item items ih =>
    obtain ⟨⟨first, hfirst⟩, hrest⟩ := List.forall_mem_cons.mp h
    obtain ⟨depth, hdepth⟩ := ih hrest
    refine ⟨max first depth, List.forall_mem_cons.mpr ⟨?_, fun other hother => ?_⟩⟩
    · exact hfirst.mono (Nat.le_max_left first depth)
    · exact (hdepth other hother).mono (Nat.le_max_right first depth)

theorem pops_append {depth : ℕ}
    (hone : ∀ item stack items, Within children depth item → Pops children stack items →
      Pops children (item :: stack) (preorder children depth item ++ items))
    {roots stack items : List ι} (hroots : ∀ root ∈ roots, Within children depth root)
    (h : Pops children stack items) :
    Pops children (roots ++ stack) (roots.flatMap (preorder children depth) ++ items) := by
  induction roots with
  | nil => exact h
  | cons root roots ih =>
    obtain ⟨hroot, hroots⟩ := List.forall_mem_cons.mp hroots
    rw [List.flatMap_cons, List.append_assoc]
    exact hone root _ _ hroot (ih hroots)

theorem pops_preorder {depth : ℕ} {item : ι} (hitem : Within children depth item) {stack items : List ι}
    (h : Pops children stack items) :
    Pops children (item :: stack) (preorder children depth item ++ items) := by
  induction depth generalizing item stack items with
  | zero =>
    have hnone : children item = [] := hitem
    refine .pop ?_
    rwa [hnone]
  | succ depth ih => exact .pop (pops_append (fun _ _ _ hone hrest => ih hone hrest) hitem h)

theorem below_of_mem_preorder {depth : ℕ} {item other : ι} (h : other ∈ preorder children depth item) :
    Below children item other := by
  induction depth generalizing item with
  | zero =>
    obtain rfl := List.mem_singleton.mp h
    exact .refl
  | succ depth ih =>
    rcases List.mem_cons.mp h with rfl | h
    · exact .refl
    · obtain ⟨child, hchild, h⟩ := List.mem_flatMap.mp h
      exact .head hchild (ih h)

theorem mem_preorder_iff {depth : ℕ} {item other : ι} (hitem : Within children depth item) :
    other ∈ preorder children depth item ↔ Below children item other := by
  refine ⟨below_of_mem_preorder, fun h => ?_⟩
  induction depth generalizing item with
  | zero =>
    have hnone : children item = [] := hitem
    rcases h.cases_head with rfl | ⟨child, hchild, -⟩
    · exact List.mem_singleton_self item
    · rw [hnone] at hchild
      exact absurd hchild List.not_mem_nil
  | succ depth ih =>
    rcases h.cases_head with rfl | ⟨child, hchild, h⟩
    · exact List.mem_cons_self
    · exact List.mem_cons_of_mem _ (List.mem_flatMap.mpr ⟨child, hchild, ih (hitem child hchild) h⟩)

/-- What holds between an item and what is below it, and between what is below two children, the first of
    them earlier, holds along the order. -/
theorem pairwise_preorder {R : ι → ι → Prop}
    (hdown : ∀ item child other, child ∈ children item → Below children child other → R item other)
    (hacross : ∀ item, (children item).Pairwise fun child child' =>
      ∀ other other', Below children child other → Below children child' other' → R other other')
    (depth : ℕ) (item : ι) : (preorder children depth item).Pairwise R := by
  induction depth generalizing item with
  | zero => exact List.pairwise_singleton R item
  | succ depth ih =>
    refine List.pairwise_cons.mpr ⟨fun other hother => ?_, ?_⟩
    · obtain ⟨child, hchild, hother⟩ := List.mem_flatMap.mp hother
      exact hdown item child other hchild (below_of_mem_preorder hother)
    · refine List.pairwise_flatMap.mpr ⟨fun child _ => ih child, (hacross item).imp ?_⟩
      intro child child' h other hother other' hother'
      exact h other other' (below_of_mem_preorder hother) (below_of_mem_preorder hother')

end StackWalk
