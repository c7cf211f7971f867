import GhRunner.Lib.Machine
import Mathlib.Data.Fintype.Basic

set_option linter.unusedSectionVars false

namespace GhRunner.Execution

open Machine

/-!
# Extractions into the action cache

Any number of extractions of one action, each staged privately and then renamed onto the directory
that all jobs read (`crates/execution/src/execution/actions/downloader.rs`).

* `Dir`, `Node`, `CacheWorld` — the directory trees, the one that `dest` names, and the calls;
* `Extraction` — where a call of `download_and_extract_action` stands, one file-system step after the
  other;
* `CacheEvent`, `step` — the next step of a call, entries that a removal deletes, calls that die;
* `isActionCached`, `Complete`, `Whole` — what readers rely on;
* `Spares` — no removal begins on a tree with a watermark;
* `Sound` — the invariant; `always_whole` — then readers can rely on it;
* `rival_removed` — and what happens otherwise.
-/

/-- A directory tree: its files, and whether the watermark is among them. -/
structure Dir (E : Type) where
  files : List E
  completed : Bool
deriving DecidableEq, Repr

def Dir.isEmpty {E : Type} [DecidableEq E] (dir : Dir E) : Bool := dir.files = [] && !dir.completed

/-- Without one of its files, or without the watermark. -/
def Dir.unlink {E : Type} [DecidableEq E] (dir : Dir E) : Option E → Dir E
  | some file => { dir with files := dir.files.erase file }
  | none => { dir with completed := false }

/-- Which directory it is: the one that was there first, or the one that an extraction staged. -/
inductive Node (I : Type)
  | first
  | staged (i : I)
deriving DecidableEq, Repr

inductive FetchError
  | download
  | extract
  | watermark
  | rename
  | retry
deriving DecidableEq, Repr

/-- Where `is_action_cached` is asked: before the download, after a rename that failed, and once
    more before the removal. -/
inductive Check
  | fast
  | lost
  | last
deriving DecidableEq, Repr

inductive Extraction (I E : Type)
  /-- Looks whether the watermark exists. -/
  | asking (check : Check)
  /-- It does; looks whether `dest` is a directory. -/
  | marked (check : Check)
  | fetching
  | extracting (rest : List E)
  | marking
  | committing
  /-- Looks whether `dest` exists. -/
  | probing
  /-- `remove_dir_all` is to open `dest`. -/
  | opening
  /-- It deletes the entries of the directory it has opened. -/
  | removing (node : Node I)
  | retrying
  | cleaning (result : Except FetchError Unit)
  | returned (result : Except FetchError Unit)
  | dead
deriving DecidableEq

structure CacheWorld (I E : Type) where
  dest : Option (Node I)
  nodes : Node I → Dir E
  calls : I → Extraction I E

inductive CacheEvent (I E : Type)
  /-- The next step of a call; `fails` if the operation does, or the removal gives up. -/
  | next (i : I) (fails : Bool)
  /-- A removal deletes a file, or the watermark. -/
  | unlink (i : I) (file : Option E)
  | die (i : I)

namespace CacheWorld

variable {I E : Type} [DecidableEq I] [DecidableEq E] (archive : I → List E)

/-- Whatever is in `dest` at first. -/
def start (dest : Option (Dir E)) : CacheWorld I E where
  dest := dest.map fun _ => .first
  nodes := fun _ => dest.getD ⟨[], false⟩
  calls := fun _ => .asking .fast

def setCall (s : CacheWorld I E) (i : I) (call : Extraction I E) : CacheWorld I E :=
  { s with calls := Function.update s.calls i call }

def setNode (s : CacheWorld I E) (node : Node I) (dir : Dir E) : CacheWorld I E :=
  { s with nodes := Function.update s.nodes node dir }

/-- A directory can be renamed onto `dest`: there is none, or an empty one. -/
def vacant (s : CacheWorld I E) : Bool := s.dest.all fun node => (s.nodes node).isEmpty

def watermarkExists (s : CacheWorld I E) : Bool := s.dest.any fun node => (s.nodes node).completed

/-- The answer of `is_action_cached`. -/
def answered (s : CacheWorld I E) (i : I) (cached : Bool) : Check → CacheWorld I E
  | .fast => s.setCall i (if cached then .returned (.ok ()) else .fetching)
  | .lost => s.setCall i (if cached then .cleaning (.ok ()) else .probing)
  | .last => s.setCall i (if cached then .cleaning (.ok ()) else .opening)

/-- The commit point of an extraction. -/
def rename (s : CacheWorld I E) (i : I) (fails : Bool) (refused : Extraction I E) :
    CacheWorld I E :=
  if !fails && s.vacant then { s with dest := some (.staged i) }.setCall i (.returned (.ok ()))
  else s.setCall i refused

/-- Remove the directory at `dest`, if it is empty. -/
def rmdir (s : CacheWorld I E) : CacheWorld I E := if s.vacant then { s with dest := none } else s

def next (s : CacheWorld I E) (i : I) (fails : Bool) : CacheWorld I E :=
  match s.calls i with
  | .asking check =>
    if s.watermarkExists then s.setCall i (.marked check) else s.answered i false check
  | .marked check => s.answered i s.dest.isSome check
  | .fetching =>
    if fails then s.setCall i (.returned (.error .download))
    else (s.setNode (.staged i) ⟨[], false⟩).setCall i (.extracting (archive i))
  | .extracting rest =>
    if fails then s.setCall i (.cleaning (.error .extract))
    else
      match rest with
      | [] => s.setCall i .marking
      | e :: rest =>
        (s.setNode (.staged i) ⟨(s.nodes (.staged i)).files ++ [e], false⟩).setCall i
          (.extracting rest)
  | .marking =>
    if fails then s.setCall i (.cleaning (.error .watermark))
    else (s.setNode (.staged i) ⟨(s.nodes (.staged i)).files, true⟩).setCall i .committing
  | .committing => s.rename i fails (.asking .lost)
  | .probing => s.setCall i (if s.dest.isSome then .asking .last else .cleaning (.error .rename))
  | .opening =>
    match s.dest with
    | some node => s.setCall i (if fails then .retrying else .removing node)
    | none => s.setCall i .retrying
  | .removing node =>
    if fails then s.setCall i .retrying
    else if (s.nodes node).isEmpty then s.rmdir.setCall i .retrying
    else s
  | .retrying => s.rename i fails (.cleaning (.error .retry))
  | .cleaning result => (s.setNode (.staged i) ⟨[], false⟩).setCall i (.returned result)
  | .returned _ | .dead => s

def step (s : CacheWorld I E) : CacheEvent I E → CacheWorld I E
  | .next i fails => s.next archive i fails
  | .unlink i file =>
    match s.calls i with
    | .removing node => s.setNode node ((s.nodes node).unlink file)
    | _ => s
  | .die i =>
    match s.calls i with
    | .returned _ => s
    | _ => s.setCall i .dead

/-! ### What readers rely on -/

/-- Both of its looks at once. -/
def isActionCached (s : CacheWorld I E) : Bool := s.watermarkExists && s.dest.isSome

/-- `dest` is the tree of one extraction, with its watermark. -/
def Complete (s : CacheWorld I E) : Prop :=
  ∃ node i, s.dest = some node ∧ s.nodes node = ⟨archive i, true⟩

/-- What is cached is complete, and after an extraction has succeeded something is. -/
structure Whole (s : CacheWorld I E) : Prop where
  complete : s.isActionCached = true → s.Complete archive
  kept : (∃ i, s.calls i = .returned (.ok ())) → s.Complete archive

/-- A removal opens `dest` only while there is no watermark in it. -/
def Spares (s : CacheWorld I E) : CacheEvent I E → Prop
  | .next i fails => s.calls i = .opening → fails = false → s.watermarkExists = false
  | _ => True

/-! ### The invariant -/

/-- What the staging directory of a call holds. -/
def Staged (files : List E) (dir : Dir E) : Extraction I E → Prop
  | .extracting rest => dir.files ++ rest = files
  | .marking => dir.files = files
  | .asking check | .marked check => check ≠ .fast → dir = ⟨files, true⟩
  | .committing | .probing | .opening | .removing _ | .retrying => dir = ⟨files, true⟩
  | .fetching | .cleaning _ | .returned _ | .dead => True

/-- The call has seen the watermark in `dest`, or has put it there. -/
def told : Extraction I E → Bool
  | .marked _ | .cleaning (.ok _) | .returned (.ok _) => true
  | _ => false

/-- What was there first may be removed, what an extraction has published never is. -/
structure Sound (s : CacheWorld I E) : Prop where
  first : (s.nodes .first).completed = true → ∃ i, (s.nodes .first).files = archive i
  published : ∀ i, s.dest = some (.staged i) →
    s.nodes (.staged i) = ⟨archive i, true⟩ ∧ s.calls i = .returned (.ok ())
  staged : ∀ i, Staged (archive i) (s.nodes (.staged i)) (s.calls i)
  removing : ∀ i node, s.calls i = .removing node →
    node = .first ∧ (s.nodes .first).completed = false
  told : ∀ i, told (s.calls i) = true → s.Complete archive

variable {archive} {s : CacheWorld I E} {i : I}

theorem sound_start (dest : Option (Dir E))
    (hdest : ∀ dir, dest = some dir → dir.completed = true → ∃ i, dir.files = archive i) :
    Sound archive (start dest : CacheWorld I E) where
  first h := by
    cases dest with
    | none => cases h
    | some dir => exact hdest dir rfl h
  published i h := by
    cases dest with
    | none => cases h
    | some dir => cases h
  staged i h := absurd rfl h
  removing i node h := by cases h
  told i h := by cases h

theorem setCall_calls (s : CacheWorld I E) (i j : I) (call : Extraction I E) :
    (s.setCall i call).calls j = if j = i then call else s.calls j :=
  Function.update_apply _ _ _ _

theorem setNode_nodes (s : CacheWorld I E) (node other : Node I) (dir : Dir E) :
    (s.setNode node dir).nodes other = if other = node then dir else s.nodes other :=
  Function.update_apply _ _ _ _

theorem setNode_self (s : CacheWorld I E) (node : Node I) : s.setNode node (s.nodes node) = s := by
  unfold setNode
  rw [Function.update_eq_self]

/-- The watermark in `dest` comes with a whole archive. -/
theorem Sound.complete_of_watermark (h : Sound archive s) (hmark : s.watermarkExists = true) :
    s.Complete archive := by
  obtain ⟨node, hdest, hcompleted⟩ := Option.any_eq_true .. |>.mp hmark
  cases node with
  | first =>
    obtain ⟨i, hfiles⟩ := h.first hcompleted
    exact ⟨.first, i, hdest, by rw [← hfiles, ← hcompleted]⟩
  | staged i => exact ⟨.staged i, i, hdest, (h.published i hdest).1⟩

theorem Complete.not_vacant (h : s.Complete archive) : s.vacant = false := by
  obtain ⟨node, i, hdest, hnode⟩ := h
  unfold vacant
  rw [hdest, Option.all_some, hnode]
  exact Bool.and_false _

/-- A call that has not returned has published nothing. -/
theorem Sound.unpublished (h : Sound archive s) (hi : s.calls i ≠ .returned (.ok ())) :
    s.dest ≠ some (.staged i) := fun hdest => hi (h.published i hdest).2

/-- A call works on its own staging directory. -/
theorem sound_setNode_setCall {dir : Dir E} {call : Extraction I E} (h : Sound archive s)
    (hi : s.calls i ≠ .returned (.ok ())) (hstaged : Staged (archive i) dir call)
    (hremoving : ∀ node, call = .removing node →
      node = .first ∧ (s.nodes .first).completed = false)
    (htold : CacheWorld.told call = true → s.Complete archive) :
    Sound archive ((s.setNode (.staged i) dir).setCall i call) := by
  have hdest := h.unpublished hi
  -- what `dest` names is not touched
  have hkeeps : s.Complete archive →
      ((s.setNode (.staged i) dir).setCall i call).Complete archive := by
    rintro ⟨node, j, hnode, hwhole⟩
    have hne : node ≠ .staged i := fun heq => hdest (heq ▸ hnode)
    exact ⟨node, j, hnode, (setNode_nodes s _ node dir).trans ((if_neg hne).trans hwhole)⟩
  refine ⟨h.first, fun j hj => ?_, fun j => ?_, fun j node hj => ?_, fun j hj => ?_⟩
  · have hne : j ≠ i := fun heq => hdest (heq ▸ hj)
    obtain ⟨hnode, hcall⟩ := h.published j hj
    refine ⟨?_, ?_⟩
    · show (s.setNode (.staged i) dir).nodes (.staged j) = _
      rw [setNode_nodes, if_neg fun heq => hne (Node.staged.inj heq), hnode]
    · rw [setCall_calls, if_neg hne]
      exact hcall
  · show Staged _ ((s.setNode (.staged i) dir).nodes (.staged j)) _
    rw [setCall_calls, setNode_nodes]
    by_cases hji : j = i
    · rw [if_pos hji, if_pos (by rw [hji]), hji]
      exact hstaged
    · rw [if_neg hji, if_neg fun heq => hji (Node.staged.inj heq)]
      exact h.staged j
  · rw [setCall_calls] at hj
    split at hj
    · exact hremoving node hj
    · exact h.removing j node hj
  · rw [setCall_calls] at hj
    split at hj
    · exact hkeeps (htold hj)
    · exact hkeeps (h.told j hj)

/-- It only moves on. -/
theorem sound_setCall {call : Extraction I E} (h : Sound archive s)
    (hi : s.calls i ≠ .returned (.ok ())) (hstaged : Staged (archive i) (s.nodes (.staged i)) call)
    (hremoving : ∀ node, call = .removing node →
      node = .first ∧ (s.nodes .first).completed = false)
    (htold : CacheWorld.told call = true → s.Complete archive) :
    Sound archive (s.setCall i call) := by
  have hsame := sound_setNode_setCall h hi hstaged hremoving htold
  rwa [setNode_self] at hsame

theorem sound_answered {check : Check} {cached : Bool} (h : Sound archive s)
    (hi : s.calls i ≠ .returned (.ok ()))
    (hstaged : check ≠ .fast → s.nodes (.staged i) = ⟨archive i, true⟩)
    (hcached : cached = true → s.Complete archive) : Sound archive (s.answered i cached check) := by
  cases check <;> cases cached <;> apply sound_setCall h hi <;> intros
  all_goals first
    | trivial
    | exact hstaged nofun
    | exact hcached rfl

/-- What is renamed onto `dest` is a whole archive, and replaces none. -/
theorem sound_rename {fails : Bool} {refused : Extraction I E} (h : Sound archive s)
    (hi : s.calls i ≠ .returned (.ok ())) (hwhole : s.nodes (.staged i) = ⟨archive i, true⟩)
    (hstaged : Staged (archive i) (s.nodes (.staged i)) refused)
    (hremoving : ∀ node, refused ≠ .removing node)
    (htold : CacheWorld.told refused = false) : Sound archive (s.rename i fails refused) := by
  unfold rename
  split
  case isFalse =>
    apply sound_setCall h hi hstaged
    · exact fun node hnode => absurd hnode (hremoving node)
    · exact fun htrue => Bool.noConfusion (htold.symm.trans htrue)
  case isTrue =>
    refine ⟨h.first, fun j hj => ?_, fun j => ?_, fun j node hj => ?_, fun _ _ => ?_⟩
    · obtain rfl : i = j := Node.staged.inj (Option.some.inj hj)
      exact ⟨hwhole, by rw [setCall_calls, if_pos rfl]⟩
    · rw [setCall_calls]
      split
      · trivial
      · exact h.staged j
    · rw [setCall_calls] at hj
      split at hj
      · cases hj
      · exact h.removing j node hj
    · exact ⟨.staged i, i, rfl, hwhole⟩

theorem sound_rmdir (h : Sound archive s) : Sound archive s.rmdir := by
  unfold rmdir
  split
  case isFalse => exact h
  case isTrue hvacant =>
    refine ⟨h.first, fun j hj => ?_, h.staged, h.removing, fun j hj => ?_⟩
    · cases hj
    · have hfull := (h.told j hj).not_vacant
      rw [hvacant] at hfull
      cases hfull

theorem unlink_completed {dir : Dir E} {file : Option E} (hdir : dir.completed = false) :
    (dir.unlink file).completed = false := by
  cases file with
  | none => rfl
  | some file => exact hdir

/-- A removal takes from a tree without a watermark, so from none that was published. -/
theorem sound_unlink {node : Node I} {file : Option E} (h : Sound archive s)
    (hi : s.calls i = .removing node) :
    Sound archive (s.setNode node ((s.nodes node).unlink file)) := by
  obtain ⟨rfl, hfirst⟩ := h.removing i node hi
  have hcompleted : ((s.nodes .first).unlink file).completed = false := unlink_completed hfirst
  refine ⟨fun hmark => ?_, h.published, h.staged, fun j node hj => ?_, fun j hj => ?_⟩
  · rw [setNode_nodes, if_pos rfl, hcompleted] at hmark
    cases hmark
  · exact ⟨(h.removing j node hj).1, by rw [setNode_nodes, if_pos rfl, hcompleted]⟩
  · obtain ⟨other, k, hdest, hwhole⟩ := h.told j hj
    have hne : other ≠ .first := by
      rintro rfl
      rw [hwhole] at hfirst
      cases hfirst
    exact ⟨other, k, hdest, (setNode_nodes s _ other _).trans ((if_neg hne).trans hwhole)⟩

/-- A removal that spares the watermark opens what was there first. -/
theorem Sound.opened_first {node : Node I} (h : Sound archive s) (hdest : s.dest = some node)
    (hmark : s.watermarkExists = false) : node = .first ∧ (s.nodes .first).completed = false := by
  have hnode : (s.nodes node).completed = false := by
    unfold watermarkExists at hmark
    rwa [hdest] at hmark
  cases node with
  | first => exact ⟨rfl, hnode⟩
  | staged i =>
    rw [(h.published i hdest).1] at hnode
    cases hnode

theorem sound_next (i : I) (fails : Bool) (h : Sound archive s)
    (hspares : s.Spares (.next i fails)) : Sound archive (s.next archive i fails) := by
  unfold next
  by_cases hi : s.calls i = .returned (.ok ())
  · rw [hi]
    exact h
  have hstaged := h.staged i
  obtain ⟨call, hcall⟩ : ∃ call, s.calls i = call := ⟨_, rfl⟩
  rw [hcall] at hstaged ⊢
  cases call with
  | asking check =>
    dsimp only
    split
    case isTrue hmark => exact sound_setCall h hi hstaged nofun fun _ => h.complete_of_watermark hmark
    case isFalse => exact sound_answered h hi hstaged nofun
  | marked check =>
    exact sound_answered h hi hstaged fun _ => h.told i (by rw [hcall]; rfl)
  | fetching =>
    dsimp only
    split
    · exact sound_setCall h hi trivial nofun nofun
    · exact sound_setNode_setCall h hi (List.nil_append _) nofun nofun
  | extracting rest =>
    have hrest : (s.nodes (.staged i)).files ++ rest = archive i := hstaged
    dsimp only
    split
    · exact sound_setCall h hi trivial nofun nofun
    · cases rest with
      | nil => exact sound_setCall h hi ((List.append_nil _).symm.trans hrest) nofun nofun
      | cons e rest =>
        refine sound_setNode_setCall h hi ?_ nofun nofun
        show ((s.nodes (.staged i)).files ++ [e]) ++ rest = archive i
        rw [List.append_assoc, List.singleton_append, hrest]
  | marking =>
    dsimp only
    split
    · exact sound_setCall h hi trivial nofun nofun
    · refine sound_setNode_setCall h hi ?_ nofun nofun
      show Dir.mk (s.nodes (.staged i)).files true = _
      rw [show (s.nodes (.staged i)).files = archive i from hstaged]
  | committing =>
    exact sound_rename h hi hstaged (fun _ => hstaged) nofun rfl
  | probing =>
    dsimp only
    split
    · exact sound_setCall h hi (fun _ => hstaged) nofun nofun
    · exact sound_setCall h hi trivial nofun nofun
  | opening =>
    dsimp only
    split
    case h_2 => exact sound_setCall h hi hstaged nofun nofun
    case h_1 node hdest =>
      cases fails with
      | true => exact sound_setCall h hi hstaged nofun nofun
      | false =>
        show Sound archive (s.setCall i (.removing node))
        refine sound_setCall h hi hstaged (fun other hother => ?_) nofun
        obtain rfl := Extraction.removing.inj hother
        exact h.opened_first hdest (hspares hcall rfl)
  | removing node =>
    dsimp only
    split
    · exact sound_setCall h hi hstaged nofun nofun
    · split
      · have hnodes : s.rmdir.nodes = s.nodes := by unfold rmdir; split <;> rfl
        have hcalls : s.rmdir.calls = s.calls := by unfold rmdir; split <;> rfl
        refine sound_setCall (sound_rmdir h) (hcalls ▸ hi) ?_ nofun nofun
        rw [hnodes]
        exact hstaged
      · exact h
  | retrying =>
    exact sound_rename h hi hstaged trivial nofun rfl
  | cleaning result =>
    refine sound_setNode_setCall h hi trivial nofun fun htold => ?_
    apply h.told i
    rw [hcall]
    cases result with
    | ok => rfl
    | error e => cases htold
  | returned result => exact h
  | dead => exact h

theorem sound_step (s : CacheWorld I E) (e : CacheEvent I E) (h : Sound archive s)
    (hspares : s.Spares e) : Sound archive (s.step archive e) := by
  cases e with
  | next i fails => exact sound_next i fails h hspares
  | unlink i file =>
    unfold step
    dsimp only
    split
    case h_1 node hcall => exact sound_unlink h hcall
    case h_2 => exact h
  | die i =>
    unfold step
    dsimp only
    split
    case h_1 => exact h
    case h_2 hreturned => exact sound_setCall h (hreturned _) trivial nofun nofun

theorem Sound.whole (h : Sound archive s) : s.Whole archive where
  complete hcached := h.complete_of_watermark (Bool.and_eq_true_iff.mp hcached).1
  kept hreturned := by
    obtain ⟨i, hi⟩ := hreturned
    exact h.told i (by rw [hi]; rfl)

instance decidableSpares (s : CacheWorld I E) : (e : CacheEvent I E) → Decidable (s.Spares e)
  | .next i fails => inferInstanceAs
      (Decidable (s.calls i = .opening → fails = false → s.watermarkExists = false))
  | .unlink _ _ | .die _ => .isTrue trivial

end CacheWorld

open CacheWorld

/-- As long as no removal opens a tree with a watermark, what is cached is complete, and what an
    extraction has put there stays. -/
theorem always_whole {I E : Type} [DecidableEq I] [DecidableEq E] (archive : I → List E)
    (dest : Option (Dir E))
    (hdest : ∀ dir, dest = some dir → dir.completed = true → ∃ i, dir.files = archive i)
    (es : List (CacheEvent I E)) (h : Throughout (step archive) Spares (start dest) es) :
    Whole archive (run (step archive) (start dest) es) :=
  (run_invariant sound_step h (sound_start dest hdest)).whole

/-! ### Two extractions over a stale partial -/

/-- The two of one archive both find a directory without a watermark, and are about to remove it. -/
def bothOpening : List (CacheEvent Bool Nat) :=
  List.replicate 10 (.next false false) ++ List.replicate 10 (.next true false)

/-- The first removes it and publishes its tree. -/
def published : List (CacheEvent Bool Nat) :=
  [.next false false, .unlink false (some 7), .next false false, .next false false]

/-- The second gives up; the tree stays. -/
theorem always_whole_of_refusal :
    let s := run (step fun _ => [1, 2]) (start (some ⟨[7], false⟩))
      (bothOpening ++ published ++ [.next true true, .next true false, .next true false])
    s.calls false = .returned (.ok ()) ∧ s.isActionCached = true ∧ Whole (fun _ => [1, 2]) s := by
  refine ⟨by decide, by decide, ?_⟩
  exact always_whole _ _ (fun dir h hmark => by cases h; cases hmark) _ (by decide)

/-- The second removes what the first has published. -/
theorem rival_removed :
    let s := run (step fun _ => [1, 2]) (start (some ⟨[7], false⟩))
      (bothOpening ++ published ++ [.next true false, .unlink true (some 1)])
    s.calls false = .returned (.ok ()) ∧ s.isActionCached = true ∧
      ¬ Complete (fun _ : Bool => [1, 2]) s := by
  refine ⟨by decide, by decide, ?_⟩
  rintro ⟨node, i, hdest, hnode⟩
  obtain rfl : Node.staged false = node := Option.some.inj (Eq.trans (by decide) hdest)
  have hfiles : Dir.files _ = [1, 2] := congrArg Dir.files hnode
  exact absurd hfiles (by decide)

end GhRunner.Execution
