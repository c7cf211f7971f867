import GhRunner.Cache.Twirp

namespace GhRunner.Cache

/-!
# Committing block lists

"Put Block List" with blocks that are missing or cannot be read to their end
(`crates/cache/src/blob/block_list.rs`).

* `CacheApp.commit` — the commit, where the reading of some of the blocks breaks off;
* `copyUntil_spec` — what is in the staged object afterwards;
* `AtomicCommit` — all or nothing, also when the commit is sent again;
* `atomicCommit_iff` — when it is: the object is emptied before the first block is looked for, and the
  blocks are gone when the commit is sent again.
-/

/-- Where the reading of a listed block breaks off, if it does: after how many bytes. -/
abbrev Faults := ℕ → Option ℕ

/-- The loop of `assemble`, `out` being what it has written; the faults are those of the blocks still
    to come. -/
def copyUntil (blocks : Finmap fun _ : StagingPath × String => Bytes) (staging : StagingPath) :
    Faults → List String → Bytes → Except RunnerError Unit × Bytes
  | _, [], out => (.ok (), out)
  | faults, id :: ids, out =>
    match blocks.lookup (staging, id) with
    | none => (.error .io, out)
    | some block =>
      match faults 0 with
      | some n => (.error .io, out ++ block.take n)
      | none => copyUntil blocks staging (fun i => faults (i + 1)) ids (out ++ block)

namespace CacheApp

variable {Id : Type}

/-- The commit of the list in the body, or the error of its XML. -/
def commit (s : CacheApp Id) (staging : StagingPath) (faults : Faults) :
    Except RunnerError (List String) → PutStatus × CacheApp Id
  | .error e => (.failed e, s)
  | .ok ids =>
    let (result, out) := copyUntil s.blocks staging faults ids []
    let staged := s.staged.insert staging out
    match result with
    | .error e => (.failed e, { s with staged })
    | .ok () => (.created, { s with staged, blocks := s.blocks.retain fun p _ => p.1 ≠ staging })

end CacheApp

/-! ### What the loop writes -/

section Copy

variable (blocks : Finmap fun _ : StagingPath × String => Bytes) (staging : StagingPath)

/-- The block at the place `i` of the list is missing, or its reading breaks off; `front` is what is
    read of it. -/
def BrokenAt (faults : Faults) (ids : List String) (i : ℕ) (front : Bytes) : Prop :=
  ∃ id, ids[i]? = some id ∧ (blocks.lookup (staging, id) = none ∧ front = [] ∨
    ∃ block n, blocks.lookup (staging, id) = some block ∧ faults i = some n ∧ front = block.take n)

/-- Every block of the list is there and can be read. -/
def Whole (faults : Faults) (ids : List String) : Prop :=
  ∀ i front, ¬ BrokenAt blocks staging faults ids i front

/-- The block at the place `i` is the first that is not. -/
def FirstBroken (faults : Faults) (ids : List String) (i : ℕ) (front : Bytes) : Prop :=
  BrokenAt blocks staging faults ids i front ∧
    ∀ j < i, ∀ front', ¬ BrokenAt blocks staging faults ids j front'

/-- The blocks of the list that are there, one behind the other. -/
def concatenation (ids : List String) : Bytes :=
  (ids.filterMap fun id => blocks.lookup (staging, id)).flatten

variable {blocks staging}

theorem concatenation_cons {id : String} {block : Bytes}
    (h : blocks.lookup (staging, id) = some block) (ids : List String) :
    concatenation blocks staging (id :: ids) = block ++ concatenation blocks staging ids := by
  rw [concatenation, List.filterMap_cons, h]
  rfl

/-- The first block has been copied: what is broken is broken in the rest. -/
theorem brokenAt_cons {faults : Faults} {id : String} {ids : List String} {block : Bytes} {i : ℕ}
    {front : Bytes} (hblock : blocks.lookup (staging, id) = some block) (hfault : faults 0 = none)
    (h : BrokenAt blocks staging faults (id :: ids) i front) :
    ∃ j, i = j + 1 ∧ BrokenAt blocks staging (fun i => faults (i + 1)) ids j front := by
  cases i with
  | succ i => exact ⟨i, rfl, h⟩
  | zero =>
    obtain ⟨id', hid, hbroken⟩ := h
    obtain rfl : id = id' := Option.some.inj hid
    rcases hbroken with ⟨hnone, -⟩ | ⟨block', n, -, hn, -⟩
    · rw [hblock] at hnone
      cases hnone
    · rw [hfault] at hn
      cases hn

theorem BrokenAt.front_eq {faults : Faults} {ids : List String} {i : ℕ} {front front' : Bytes}
    (h : BrokenAt blocks staging faults ids i front)
    (h' : BrokenAt blocks staging faults ids i front') : front = front' := by
  obtain ⟨id, hid, hbroken⟩ := h
  obtain ⟨id', hid', hbroken'⟩ := h'
  obtain rfl : id = id' := Option.some.inj (hid.symm.trans hid')
  rcases hbroken with ⟨hnone, rfl⟩ | ⟨block, n, hblock, hn, rfl⟩ <;>
    rcases hbroken' with ⟨hnone', rfl⟩ | ⟨block', n', hblock', hn', rfl⟩
  · rfl
  · rw [hnone] at hblock'
    cases hblock'
  · rw [hblock] at hnone'
    cases hnone'
  · rw [Option.some.inj (hblock.symm.trans hblock'), Option.some.inj (hn.symm.trans hn')]

theorem FirstBroken.unique {faults : Faults} {ids : List String} {i i' : ℕ} {front front' : Bytes}
    (h : FirstBroken blocks staging faults ids i front)
    (h' : FirstBroken blocks staging faults ids i' front') : i = i' ∧ front = front' := by
  rcases lt_trichotomy i i' with hlt | rfl | hgt
  · exact absurd h.1 (h'.2 i hlt front)
  · exact ⟨rfl, h.1.front_eq h'.1⟩
  · exact absurd h'.1 (h.2 i' hgt front')

variable (blocks staging) in
/-- Either every block is copied, or those before the first broken one and what is read of that. -/
theorem copyUntil_spec (faults : Faults) (ids : List String) (out : Bytes) :
    (Whole blocks staging faults ids ∧
      copyUntil blocks staging faults ids out = (.ok (), out ++ concatenation blocks staging ids)) ∨
    ∃ i front, FirstBroken blocks staging faults ids i front ∧
      copyUntil blocks staging faults ids out =
        (.error .io, out ++ (concatenation blocks staging (ids.take i) ++ front)) := by
  induction ids generalizing faults out with
  | nil =>
    left
    refine ⟨?_, by rw [copyUntil, concatenation]; simp⟩
    rintro i front ⟨id, hid, -⟩
    simp at hid
  | cons id ids ih =>
    rw [copyUntil]
    cases hblock : blocks.lookup (staging, id) with
    | none =>
      right
      refine ⟨0, [], ⟨⟨id, rfl, .inl ⟨hblock, rfl⟩⟩, fun j hj => absurd hj (Nat.not_lt_zero j)⟩, ?_⟩
      rw [List.take_zero, concatenation]
      simp
    | some block =>
      cases hfault : faults 0 with
      | some n =>
        right
        refine ⟨0, block.take n, ⟨⟨id, rfl, .inr ⟨block, n, hblock, hfault, rfl⟩⟩,
          fun j hj => absurd hj (Nat.not_lt_zero j)⟩, ?_⟩
        rw [List.take_zero, concatenation]
        simp
      | none =>
        rcases ih (fun i => faults (i + 1)) (out ++ block) with
          ⟨hwhole, hcopy⟩ | ⟨i, front, hfirst, hcopy⟩
        · left
          refine ⟨fun i front hbroken => ?_, ?_⟩
          · obtain ⟨j, -, hj⟩ := brokenAt_cons hblock hfault hbroken
            exact hwhole j front hj
          · rw [concatenation_cons hblock, ← List.append_assoc]
            exact hcopy
        · right
          refine ⟨i + 1, front, ⟨hfirst.1, fun j hj front' hbroken => ?_⟩, ?_⟩
          · obtain ⟨k, rfl, hk⟩ := brokenAt_cons hblock hfault hbroken
            exact hfirst.2 k (by omega) front' hk
          · rw [List.take_succ_cons, concatenation_cons hblock, List.append_assoc,
              ← List.append_assoc]
            exact hcopy

end Copy

/-! ### Commits -/

section Commit

variable {Id : Type} (s : CacheApp Id) (staging : StagingPath) (faults : Faults)
  (list : Except RunnerError (List String))

/-- A commit that succeeds leaves the listed blocks in the staged object; one that fails leaves the
    object as it was; and so does every commit of the list after one that succeeded. -/
structure AtomicCommit : Prop where
  created : (s.commit staging faults list).1 = .created → ∃ (ids : List String) (parts : List Bytes), list = .ok ids ∧
    (ids.map fun id => s.blocks.lookup (staging, id)) = parts.map some ∧
    (s.commit staging faults list).2.staged.lookup staging = some parts.flatten
  failed : ∀ e, (s.commit staging faults list).1 = .failed e →
    (s.commit staging faults list).2.staged.lookup staging = s.staged.lookup staging
  retried : (s.commit staging faults list).1 = .created → ∀ faults',
    ((s.commit staging faults list).2.commit staging faults' list).2.staged.lookup staging =
      (s.commit staging faults list).2.staged.lookup staging

/-- Where a block is broken, the object already is what is copied before the fault; and where none is,
    there is nothing in the blocks. -/
def Unharmed : Prop :=
  ∀ ids, list = .ok ids →
    (∀ i front, FirstBroken s.blocks staging faults ids i front →
      s.staged.lookup staging = some (concatenation s.blocks staging (ids.take i) ++ front)) ∧
    (Whole s.blocks staging faults ids → concatenation s.blocks staging ids = [])

variable {s staging faults list}

theorem map_lookup_of_whole {blocks : Finmap fun _ : StagingPath × String => Bytes}
    {ids : List String} (h : Whole blocks staging faults ids) :
    (ids.map fun id => blocks.lookup (staging, id)) =
      (ids.filterMap fun id => blocks.lookup (staging, id)).map some := by
  have hall : ∀ id ∈ ids, blocks.lookup (staging, id) ≠ none := by
    intro id hid hnone
    obtain ⟨i, hi⟩ := List.mem_iff_getElem?.mp hid
    exact h i [] ⟨id, hi, .inl ⟨hnone, rfl⟩⟩
  clear h
  induction ids with
  | nil => rfl
  | cons id ids ih =>
    rw [List.forall_mem_cons] at hall
    obtain ⟨block, hblock⟩ := Option.ne_none_iff_exists'.mp hall.1
    rw [List.map_cons, List.filterMap_cons, hblock, ih hall.2]
    rfl

/-- The blocks are gone, so that the object is emptied, by an empty list as by a missing block. -/
theorem commit_dropped {app : CacheApp Id}
    (hdropped : ∀ id, app.blocks.lookup (staging, id) = none) (faults' : Faults) (ids : List String) :
    (app.commit staging faults' (.ok ids)).2.staged.lookup staging = some [] := by
  cases ids with
  | nil => exact Finmap.lookup_insert _
  | cons id ids =>
    have hcopy : copyUntil app.blocks staging faults' (id :: ids) [] = (.error .io, []) := by
      rw [copyUntil, hdropped]
    rw [CacheApp.commit, hcopy]
    exact Finmap.lookup_insert _

/-- **Put Block List** is all or nothing only where there is nothing to lose: the object is emptied
    before the first block is looked for, and a commit that is sent again finds no blocks. -/
theorem atomicCommit_iff (s : CacheApp Id) (staging : StagingPath) (faults : Faults)
    (list : Except RunnerError (List String)) :
    AtomicCommit s staging faults list ↔ Unharmed s staging faults list := by
  cases list with
  | error e =>
    refine iff_of_true ⟨fun h => ?_, fun _ _ => rfl, fun h => ?_⟩ fun ids h => ?_
    · cases h
    · cases h
    · cases h
  | ok ids =>
    rcases copyUntil_spec s.blocks staging faults ids [] with
      ⟨hwhole, hcopy⟩ | ⟨i, front, hfirst, hcopy⟩
    · have hcommit : s.commit staging faults (.ok ids) = (.created, { s with
          staged := s.staged.insert staging (concatenation s.blocks staging ids)
          blocks := s.blocks.retain fun p _ => p.1 ≠ staging }) := by
        rw [CacheApp.commit, hcopy]
        rfl
      have hstaged : (s.commit staging faults (.ok ids)).2.staged.lookup staging =
          some (concatenation s.blocks staging ids) := by
        rw [hcommit]
        exact Finmap.lookup_insert _
      have hagain (faults' : Faults) :
          ((s.commit staging faults (.ok ids)).2.commit staging faults' (.ok ids)).2.staged.lookup
            staging = some [] := by
        apply commit_dropped
        intro id
        rw [hcommit]
        show (s.blocks.retain _).lookup (staging, id) = none
        rw [Finmap.lookup_retain, Option.filter_eq_none_iff]
        simp
      constructor
      · rintro ⟨-, -, hretried⟩ ids' ⟨⟩
        have hempty := hretried (by rw [hcommit]) (fun _ => none)
        rw [hagain, hstaged] at hempty
        refine ⟨fun i front hfirst => absurd hfirst.1 (hwhole i front), fun _ => ?_⟩
        exact (Option.some.inj hempty).symm
      · intro hunharmed
        have hempty := (hunharmed ids rfl).2 hwhole
        refine ⟨fun _ => ?_, fun e he => ?_, fun _ faults' => ?_⟩
        · exact ⟨ids, _, rfl, map_lookup_of_whole hwhole, hstaged⟩
        · rw [hcommit] at he
          cases he
        · rw [hagain, hstaged, hempty]
    · have hcommit : s.commit staging faults (.ok ids) = (.failed .io, { s with
          staged := s.staged.insert staging (concatenation s.blocks staging (ids.take i) ++ front) }) := by
        rw [CacheApp.commit, hcopy]
        rfl
      have hstaged : (s.commit staging faults (.ok ids)).2.staged.lookup staging =
          some (concatenation s.blocks staging (ids.take i) ++ front) := by
        rw [hcommit]
        exact Finmap.lookup_insert _
      constructor
      · rintro ⟨-, hfailed, -⟩ ids' ⟨⟩
        have hsame := hfailed .io (by rw [hcommit])
        rw [hstaged] at hsame
        refine ⟨fun i' front' hfirst' => ?_, fun hwhole => absurd hfirst.1 (hwhole i front)⟩
        obtain ⟨rfl, rfl⟩ := hfirst.unique hfirst'
        exact hsame.symm
      · intro hunharmed
        have hsame := (hunharmed ids rfl).1 i front hfirst
        refine ⟨fun h => ?_, fun e _ => by rw [hstaged, hsame], fun h => ?_⟩
        · rw [hcommit] at h
          cases h
        · rw [hcommit] at h
          cases h

end Commit

/-- A fresh server with one block of an upload. -/
def oneBlock : CacheApp Bytes :=
  ((CacheApp.start ⟨∅, ∅⟩ .empty).putStaged (.upload 0) (.block (some "a") [1, 2])).2

def oneBlockDone : CacheApp Bytes :=
  (oneBlock.commit (.upload 0) (fun _ => none) (.ok ["a"])).2

def oneBlockBlob : CacheApp Bytes := (oneBlock.putStaged (.upload 0) (.blob true [7])).2

/-- The commit succeeds; sent again, it fails and leaves nothing of the object.  A list that has a
    block too many leaves the first block of what was another object. -/
theorem committed_again_is_emptied :
    ¬ AtomicCommit oneBlock (.upload 0) (fun _ => none) (.ok ["a"]) ∧
    (oneBlock.commit (.upload 0) (fun _ => none) (.ok ["a"])).1 = .created ∧
    oneBlockDone.staged.lookup (.upload 0) = some [1, 2] ∧
    (oneBlockDone.commit (.upload 0) (fun _ => none) (.ok ["a"])).1 = .failed .io ∧
    (oneBlockDone.commit (.upload 0) (fun _ => none) (.ok ["a"])).2.staged.lookup (.upload 0) =
      some [] ∧
    oneBlockBlob.staged.lookup (.upload 0) = some [7] ∧
    (oneBlockBlob.commit (.upload 0) (fun _ => none) (.ok ["a", "b"])).1 = .failed .io ∧
    (oneBlockBlob.commit (.upload 0) (fun _ => none) (.ok ["a", "b"])).2.staged.lookup (.upload 0) =
      some [1, 2] := by
  have hcreated : (oneBlock.commit (.upload 0) (fun _ => none) (.ok ["a"])).1 = .created := by decide
  have hdone : oneBlockDone.staged.lookup (.upload 0) = some [1, 2] := by decide
  have hagain : (oneBlockDone.commit (.upload 0) (fun _ => none) (.ok ["a"])).2.staged.lookup
      (.upload 0) = some [] := by decide
  refine ⟨fun hatomic => ?_, hcreated, hdone, by decide, hagain, by decide, by decide, by decide⟩
  have hsame := hatomic.retried hcreated fun _ => none
  rw [← oneBlockDone, hdone, hagain] at hsame
  cases hsame

end GhRunner.Cache
