import Mathlib.Data.Finmap
import Mathlib.Algebra.BigOperators.Group.Multiset.Basic
import Mathlib.Algebra.Order.BigOperators.Group.Multiset
import Mathlib.Algebra.Order.Ring.Nat

/-!
# Weighted sums and in-place updates on finite maps

Mathlib's `Finmap` is the map with unique keys and no order.  This file adds what an
accounting argument over such a map needs:

* `weight f m` — the sum of `f key value` over the entries, with the rules
  `weight_insert`, `weight_eq_add_erase` and `weight_congr`;
* `modify k f m` — replace the value under `k` in place, as a mutable borrow does;
* `retain p m` — drop the entries that fail `p`;
* `mapValues f m` — change every value.
-/

namespace Finmap

variable {α : Type*} {β : Type*}

/-- The sum of `f key value` over the entries of `m`. -/
def weight (f : α → β → ℕ) (m : Finmap fun _ : α => β) : ℕ :=
  (m.entries.map fun s => f s.1 s.2).sum

theorem weight_add (f g : α → β → ℕ) (m : Finmap fun _ : α => β) :
    weight (fun k v => f k v + g k v) m = weight f m + weight g m :=
  Multiset.sum_map_add

section DecEq

variable [DecidableEq α]

theorem weight_insert (f : α → β → ℕ) {k : α} {m : Finmap fun _ : α => β} (h : k ∉ m) (v : β) :
    weight f (m.insert k v) = f k v + weight f m := by
  rw [weight, entries_insert_of_notMem h, Multiset.map_cons, Multiset.sum_cons, weight]

theorem card_keys_insert {k : α} {m : Finmap fun _ : α => β} (v : β) (h : k ∉ m) :
    (m.insert k v).keys.card = m.keys.card + 1 := by
  have hkeys : (m.insert k v).keys = m.keys.cons k (by rwa [mem_keys]) := by
    ext j
    rw [mem_keys, mem_insert, Finset.mem_cons, mem_keys]
  rw [hkeys, Finset.card_cons]

/-- Inserting a key after erasing it is inserting it. -/
theorem insert_erase (k : α) (v : β) (m : Finmap fun _ : α => β) :
    (m.erase k).insert k v = m.insert k v := by
  apply ext_lookup
  intro x
  by_cases hx : x = k
  · subst hx
    rw [lookup_insert, lookup_insert]
  · rw [lookup_insert_of_ne _ hx, lookup_insert_of_ne _ hx, lookup_erase_ne hx]

/-- Inserting back the value a key already has changes nothing. -/
theorem insert_lookup_self {k : α} {v : β} {m : Finmap fun _ : α => β} (h : m.lookup k = some v) :
    m.insert k v = m := by
  apply ext_lookup
  intro x
  by_cases hx : x = k
  · subst hx
    rw [lookup_insert, h]
  · rw [lookup_insert_of_ne _ hx]

theorem erase_of_notMem {k : α} {m : Finmap fun _ : α => β} (h : k ∉ m) : m.erase k = m := by
  apply ext_lookup
  intro x
  by_cases hx : x = k
  · subst hx
    rw [lookup_erase, lookup_eq_none.mpr h]
  · rw [lookup_erase_ne hx]

/-- Split off one entry from a weighted sum. -/
theorem weight_eq_add_erase (f : α → β → ℕ) {k : α} {v : β} {m : Finmap fun _ : α => β}
    (h : m.lookup k = some v) : weight f m = f k v + weight f (m.erase k) := by
  have hm : (m.erase k).insert k v = m := by rw [insert_erase, insert_lookup_self h]
  calc weight f m = weight f ((m.erase k).insert k v) := by rw [hm]
    _ = f k v + weight f (m.erase k) := weight_insert f notMem_erase_self v

/-- Overwriting one entry moves a weighted sum by the difference of the two values. -/
theorem weight_insert_add (f : α → β → ℕ) {k : α} {v : β} (v' : β) {m : Finmap fun _ : α => β}
    (h : m.lookup k = some v) : weight f (m.insert k v') + f k v = weight f m + f k v' := by
  rw [weight_eq_add_erase f h, ← insert_erase, weight_insert f notMem_erase_self]
  omega

theorem le_weight (f : α → β → ℕ) {k : α} {v : β} {m : Finmap fun _ : α => β}
    (h : m.lookup k = some v) : f k v ≤ weight f m := by
  rw [weight_eq_add_erase f h]
  omega

theorem mem_entries_iff {k : α} {v : β} {m : Finmap fun _ : α => β} :
    (⟨k, v⟩ : Sigma fun _ : α => β) ∈ m.entries ↔ m.lookup k = some v := by
  induction m using Finmap.induction_on with
  | H a =>
    rw [lookup_toFinmap, AList.toFinmap_entries, Multiset.mem_coe]
    exact ⟨AList.mem_lookup_iff.mpr, AList.mem_lookup_iff.mp⟩

/-- A weighted sum depends only on the weights of the entries that are there. -/
theorem weight_congr {f g : α → β → ℕ} {m : Finmap fun _ : α => β}
    (h : ∀ k v, m.lookup k = some v → f k v = g k v) : weight f m = weight g m := by
  unfold weight
  congr 1
  apply Multiset.map_congr rfl
  rintro ⟨k, v⟩ hmem
  exact h k v (mem_entries_iff.mp hmem)

theorem weight_eq_zero {f : α → β → ℕ} {m : Finmap fun _ : α => β}
    (h : ∀ k v, m.lookup k = some v → f k v = 0) : weight f m = 0 := by
  refine Multiset.sum_eq_zero fun n hn => ?_
  obtain ⟨⟨k, v⟩, hmem, rfl⟩ := Multiset.mem_map.mp hn
  exact h k v (mem_entries_iff.mp hmem)

theorem weight_mono {f g : α → β → ℕ} {m : Finmap fun _ : α => β}
    (h : ∀ k v, m.lookup k = some v → f k v ≤ g k v) : weight f m ≤ weight g m := by
  unfold weight
  apply Multiset.sum_map_le_sum_map
  rintro ⟨k, v⟩ hmem
  exact h k v (mem_entries_iff.mp hmem)

theorem weight_erase_le (f : α → β → ℕ) (k : α) (m : Finmap fun _ : α => β) :
    weight f (m.erase k) ≤ weight f m := by
  by_cases hk : k ∈ m
  · obtain ⟨v, hv⟩ := mem_iff.mp hk
    rw [weight_eq_add_erase f hv]
    omega
  · rw [erase_of_notMem hk]

/-- Where the first map answers, the second is not asked. -/
theorem lookup_union (k : α) (m m' : Finmap fun _ : α => β) :
    (m ∪ m').lookup k = (m.lookup k).or (m'.lookup k) := by
  by_cases hk : k ∈ m
  · obtain ⟨v, hv⟩ := mem_iff.mp hk
    rw [lookup_union_left hk, hv]
    rfl
  · rw [lookup_union_right hk, lookup_eq_none.mpr hk]
    rfl

/-- Replace the value under `k`, if there is one. -/
def modify (k : α) (f : β → β) (m : Finmap fun _ : α => β) : Finmap fun _ : α => β :=
  match m.lookup k with
  | some v => m.insert k (f v)
  | none => m

theorem lookup_modify (k x : α) (f : β → β) (m : Finmap fun _ : α => β) :
    (m.modify k f).lookup x = if x = k then (m.lookup k).map f else m.lookup x := by
  unfold modify
  by_cases hx : x = k
  · subst hx
    cases h : m.lookup x with
    | none => simp [h]
    | some v => simp [lookup_insert]
  · cases h : m.lookup k with
    | none => simp [hx]
    | some v => simp [hx, lookup_insert_of_ne _ hx]

/-- Keep the entries that satisfy `p`. -/
def retain (p : α → β → Bool) (m : Finmap fun _ : α => β) : Finmap fun _ : α => β :=
  ⟨m.entries.filter fun s => p s.1 s.2, by
    have hle : (m.entries.filter fun s => p s.1 s.2) ≤ m.entries := Multiset.filter_le _ _
    have hkeys : m.entries.keys.Nodup := Multiset.nodup_keys.mpr m.nodupKeys
    exact Multiset.nodup_keys.mp (Multiset.nodup_of_le (Multiset.map_le_map hle) hkeys)⟩

theorem lookup_retain (p : α → β → Bool) (m : Finmap fun _ : α => β) (k : α) :
    (m.retain p).lookup k = (m.lookup k).filter (p k) := by
  apply Option.ext
  intro v
  have hmem : (⟨k, v⟩ : Sigma fun _ : α => β) ∈ (m.retain p).entries ↔
      (⟨k, v⟩ : Sigma fun _ : α => β) ∈ m.entries ∧ p k v := Multiset.mem_filter
  rw [← mem_entries_iff, hmem, mem_entries_iff, Option.filter_eq_some_iff]

/-- Every value as `f` has it. -/
def mapValues (f : α → β → β) (m : Finmap fun _ : α => β) : Finmap fun _ : α => β :=
  ⟨m.entries.map fun s => ⟨s.1, f s.1 s.2⟩, by
    have hkeys : (m.entries.map fun s => (⟨s.1, f s.1 s.2⟩ : Sigma fun _ : α => β)).keys =
        m.entries.keys := by
      rw [Multiset.keys, Multiset.keys, Multiset.map_map]
      rfl
    rw [← Multiset.nodup_keys, hkeys]
    exact Multiset.nodup_keys.mpr m.nodupKeys⟩

theorem lookup_mapValues (f : α → β → β) (m : Finmap fun _ : α => β) (k : α) :
    (m.mapValues f).lookup k = (m.lookup k).map (f k) := by
  apply Option.ext
  intro v
  rw [← mem_entries_iff, Option.map_eq_some_iff]
  constructor
  · intro h
    obtain ⟨⟨k', w⟩, hw, heq⟩ := Multiset.mem_map.mp h
    cases heq
    exact ⟨w, mem_entries_iff.mp hw, rfl⟩
  · rintro ⟨w, hw, rfl⟩
    exact Multiset.mem_map.mpr ⟨⟨k, w⟩, mem_entries_iff.mpr hw, rfl⟩

end DecEq

end Finmap
