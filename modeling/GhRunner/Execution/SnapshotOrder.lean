import GhRunner.Execution.Context
import GhRunner.Execution.JobSteps
import GhRunner.Expressions.Lookups

namespace GhRunner.Execution.SnapshotOrder

open Text GhRunner.Expressions

/-!
# The order of a snapshot

Some contexts are put together anew for every snapshot, from hash maps (`eval_context`, `env_expression_context`,
`steps_context` and `job_context` of `crates/execution/src/execution/context_eval.rs`, `build_steps_context` of
`step_state.rs`, `inspect_context` of `docker/services.rs`): their objects have the order of the maps.

* `HashTree`, `enumerate` — maps of maps, and the objects that some order makes of them;
* `SameKeys`, `enumerate_eq_iff` — two orders make the same object exactly if the keys come alike at every level;
* `StepState`, `Service`, `JobState`, `evalContext` — the job's state, what is put together of it, the snapshot;
* `printed` — the string that an expression gives;
* `agree_iff` — two snapshots of one state agree on every expression exactly if the keys come alike.
-/

/-! ### Maps of maps -/

/-- Hash maps of hash maps, down to strings. -/
inductive HashTree
  | null
  | text (s : Str)
  | map (entries : List (Str × HashTree))

/-- An order for each map, which stands under the keys on the way to it, the last one first. -/
abbrev Enumeration := List Str → HashOrder

section Enumeration

variable (o : Enumeration)

mutual

def enumerate (path : List Str) : HashTree → ExprValue
  | .null => .null
  | .text s => .string s
  | .map entries => .object (pairs ((o path).collect (enumerateEntries path entries)))

def enumerateEntries (path : List Str) : List (Str × HashTree) → List (Str × ExprValue)
  | [] => []
  | (key, tree) :: entries => (key, enumerate (key :: path) tree) :: enumerateEntries path entries

end

/-- The keys of a map in their order. -/
def keysOf (path : List Str) (entries : List (Str × HashTree)) : List Str :=
  ((o path).collect (enumerateEntries o path entries)).keys

end Enumeration

mutual

/-- No map has a key twice. -/
def Distinct : HashTree → Prop
  | .null | .text _ => True
  | .map entries => (entries.map (·.1)).Nodup ∧ DistinctEntries entries

def DistinctEntries : List (Str × HashTree) → Prop
  | [] => True
  | (_, tree) :: entries => Distinct tree ∧ DistinctEntries entries

end

mutual

/-- The keys of each map come in the same order. -/
def SameKeys (o₁ o₂ : Enumeration) (path : List Str) : HashTree → Prop
  | .null | .text _ => True
  | .map entries => keysOf o₁ path entries = keysOf o₂ path entries ∧ SameKeysEntries o₁ o₂ path entries

def SameKeysEntries (o₁ o₂ : Enumeration) (path : List Str) : List (Str × HashTree) → Prop
  | [] => True
  | (key, tree) :: entries => SameKeys o₁ o₂ (key :: path) tree ∧ SameKeysEntries o₁ o₂ path entries

end

theorem map_fst_enumerateEntries (o : Enumeration) (path : List Str) (entries : List (Str × HashTree)) :
    (enumerateEntries o path entries).map (·.1) = entries.map (·.1) := by
  induction entries with
  | nil => rfl
  | cons entry entries ih => rw [enumerateEntries, List.map_cons, List.map_cons, ih]

/-- A map that is put together has the entries that went into it. -/
theorem perm_collect (order : HashOrder) {V : Type} {entries : List (Str × V)}
    (h : (entries.map (·.1)).Nodup) : (pairs (order.collect entries)).Perm entries := by
  refine (List.perm_ext_iff_of_nodup (nodup_pairs _).of_map h.of_map).mpr fun entry => ?_
  obtain ⟨key, value⟩ := entry
  rw [mem_pairs, order.lookup_collect h]

theorem map_fst_pairs {V : Type} (m : HashMap V) : (pairs m).map (·.1) = m.keys := by
  rw [pairs, List.map_map]
  rfl

/-- Entries that are the same up to their order are the same if their keys come alike. -/
theorem eq_of_perm {V : Type} : ∀ {l₁ l₂ : List (Str × V)}, l₁.Perm l₂ → (l₁.map (·.1)).Nodup →
    l₁.map (·.1) = l₂.map (·.1) → l₁ = l₂
  | [], l₂, hperm, _, _ => hperm.symm.eq_nil.symm
  | entry :: l₁, [], hperm, _, _ => hperm.eq_nil
  | entry :: l₁, other :: l₂, hperm, hnodup, hkeys => by
    rw [List.map_cons, List.map_cons, List.cons.injEq] at hkeys
    rw [List.map_cons, List.nodup_cons] at hnodup
    have hmem : entry ∈ other :: l₂ := hperm.mem_iff.mp List.mem_cons_self
    -- the key of the first entry stands nowhere else, so the two lists begin alike
    have hsame : entry = other := by
      refine (List.mem_cons.mp hmem).resolve_right fun htail => hnodup.1 ?_
      rw [hkeys.2]
      exact List.mem_map_of_mem htail
    subst hsame
    rw [eq_of_perm hperm.cons_inv hnodup.2 hkeys.2]

/-- Of entries with the same keys two orders make the same map exactly if the entries are the same and the keys
    come alike. -/
theorem pairs_collect_eq_iff {V : Type} {order₁ order₂ : HashOrder} {e₁ e₂ : List (Str × V)}
    (hnodup : (e₁.map (·.1)).Nodup) (hkeys : e₁.map (·.1) = e₂.map (·.1)) :
    pairs (order₁.collect e₁) = pairs (order₂.collect e₂) ↔
      (order₁.collect e₁).keys = (order₂.collect e₂).keys ∧ e₁ = e₂ := by
  have h₁ := perm_collect order₁ hnodup
  have h₂ := perm_collect order₂ (hkeys ▸ hnodup)
  constructor
  · intro h
    refine ⟨by rw [← map_fst_pairs, ← map_fst_pairs, h], ?_⟩
    exact eq_of_perm (h₁.symm.trans (h ▸ h₂)) hnodup hkeys
  · rintro ⟨h, rfl⟩
    refine eq_of_perm (h₁.trans h₂.symm) (nodup_pairs _) ?_
    rw [map_fst_pairs, map_fst_pairs, h]

section SameKeys

variable {o₁ o₂ : Enumeration}

mutual

/-- Two orders make the same object exactly if the keys come alike at every level. -/
theorem enumerate_eq_iff : ∀ (tree : HashTree) (path : List Str), Distinct tree →
    (enumerate o₁ path tree = enumerate o₂ path tree ↔ SameKeys o₁ o₂ path tree)
  | .null, _, _ => iff_of_true rfl trivial
  | .text _, _, _ => iff_of_true rfl trivial
  | .map entries, path, h => by
    have hkeys : (enumerateEntries o₁ path entries).map (·.1) = (enumerateEntries o₂ path entries).map (·.1) := by
      rw [map_fst_enumerateEntries, map_fst_enumerateEntries]
    have hnodup : ((enumerateEntries o₁ path entries).map (·.1)).Nodup := by
      rw [map_fst_enumerateEntries]
      exact h.1
    rw [enumerate, enumerate, SameKeys, ExprValue.object.injEq, pairs_collect_eq_iff hnodup hkeys,
      enumerateEntries_eq_iff entries path h.2]
    rfl

theorem enumerateEntries_eq_iff : ∀ (entries : List (Str × HashTree)) (path : List Str),
    DistinctEntries entries →
    (enumerateEntries o₁ path entries = enumerateEntries o₂ path entries ↔ SameKeysEntries o₁ o₂ path entries)
  | [], _, _ => iff_of_true rfl trivial
  | (key, tree) :: entries, path, h => by
    rw [enumerateEntries, enumerateEntries, SameKeysEntries, List.cons.injEq, Prod.mk.injEq,
      enumerate_eq_iff tree (key :: path) h.1, enumerateEntries_eq_iff entries path h.2]
    exact and_congr_left' (and_iff_right rfl)

end

end SameKeys

theorem sameKeysEntries_iff {o₁ o₂ : Enumeration} {path : List Str} {entries : List (Str × HashTree)} :
    SameKeysEntries o₁ o₂ path entries ↔ ∀ entry ∈ entries, SameKeys o₁ o₂ (entry.1 :: path) entry.2 := by
  induction entries with
  | nil => exact iff_of_true trivial (fun _ hmem => by cases hmem)
  | cons entry entries ih => rw [SameKeysEntries, ih, List.forall_mem_cons]

/-! ### Texts tell orders apart -/

mutual

def height : HashTree → ℕ
  | .null | .text _ => 0
  | .map entries => heightEntries entries + 1

def heightEntries : List (Str × HashTree) → ℕ
  | [] => 0
  | (_, tree) :: entries => max (height tree) (heightEntries entries)

end

section Exchangeable

variable (o : Enumeration) (ref : List ℕ → Ref)

theorem map_fst_ofExprEntries (position : List ℕ) (entries : List (Str × ExprValue)) (index : ℕ) :
    (SharedValue.ofExprEntries ref position index entries).map (·.1) = entries.map (·.1) := by
  induction entries generalizing index with
  | nil => rfl
  | cons entry entries ih => rw [SharedValue.ofExprEntries, List.map_cons, List.map_cons, ih]

theorem exchangeableEntries_ofExprEntries {limit : ℕ} (position : List ℕ) {entries : List (Str × ExprValue)}
    (h : ∀ entry ∈ entries, ∀ position, (SharedValue.ofExprValue ref position entry.2).Exchangeable limit)
    (index : ℕ) : SharedValue.ExchangeableEntries limit (SharedValue.ofExprEntries ref position index entries) := by
  induction entries generalizing index with
  | nil => trivial
  | cons entry entries ih =>
    exact ⟨h entry List.mem_cons_self _, ih (fun e he => h e (List.mem_cons_of_mem _ he)) (index + 1)⟩

mutual

/-- Maps of maps of strings go through JSON. -/
theorem exchangeable_enumerate : ∀ (tree : HashTree) (path : List Str) (limit : ℕ), Distinct tree →
    height tree ≤ limit → ∀ position,
      (SharedValue.ofExprValue ref position (enumerate o path tree)).Exchangeable limit
  | .null, _, _, _, _, _ => trivial
  | .text _, _, _, _, _, _ => trivial
  | .map entries, path, limit, h, hlimit, position => by
    rw [height] at hlimit
    have hnodup : ((enumerateEntries o path entries).map (·.1)).Nodup := by
      rw [map_fst_enumerateEntries]
      exact h.1
    have hperm := perm_collect (o path) hnodup
    refine ⟨by omega, ?_, ?_⟩
    · rw [map_fst_ofExprEntries]
      exact nodup_pairs _
    · refine exchangeableEntries_ofExprEntries ref position (fun entry hmem => ?_) 0
      exact exchangeable_enumerateEntries entries path (limit - 1) h.2 (by omega) entry
        (hperm.mem_iff.mp hmem)

theorem exchangeable_enumerateEntries : ∀ (entries : List (Str × HashTree)) (path : List Str) (limit : ℕ),
    DistinctEntries entries → heightEntries entries ≤ limit → ∀ entry ∈ enumerateEntries o path entries,
      ∀ position, (SharedValue.ofExprValue ref position entry.2).Exchangeable limit
  | [], _, _, _, _, _, hmem => by cases hmem
  | (key, tree) :: entries, path, limit, h, hlimit, entry, hmem => by
    rw [heightEntries] at hlimit
    rw [enumerateEntries] at hmem
    rcases List.mem_cons.mp hmem with rfl | hmem
    · exact exchangeable_enumerate tree (key :: path) limit h.1 (by omega)
    · exact exchangeable_enumerateEntries entries path limit h.2 (by omega) entry hmem

end

end Exchangeable

/-- The text of an object shows the order of its keys. -/
theorem sameKeys_of_writeJson {o₁ o₂ : Enumeration} {ref : List ℕ → Ref} {path : List Str} {tree : HashTree}
    (hdistinct : Distinct tree)
    (h : writeJson 0 (SharedValue.ofExprValue ref [] (enumerate o₁ path tree)) =
      writeJson 0 (SharedValue.ofExprValue ref [] (enumerate o₂ path tree))) :
    SameKeys o₁ o₂ path tree := by
  have hvalues := toExprValue_eq_of_writeJson
    (exchangeable_enumerate o₁ ref tree path (height tree) hdistinct le_rfl [])
    (exchangeable_enumerate o₂ ref tree path (height tree) hdistinct le_rfl []) h
  rw [toExprValue_ofExprValue, toExprValue_ofExprValue] at hvalues
  exact (enumerate_eq_iff tree path hdistinct).mp hvalues

/-! ### The job's state -/

/-- What a step has recorded. -/
structure StepState where
  outputs : HashMap Str
  outcome : Option Conclusion
  conclusion : Option Conclusion

/-- A service container, with its published ports. -/
structure Service where
  id : Str
  network : Str
  ports : HashMap Str

structure JobState where
  /-- All but its `steps` and `job`, which are put together here. -/
  context : ExecutionContext
  steps : HashMap StepState
  scopedSteps : Finmap fun _ : List Str => HashMap StepState
  /-- The id and the network of the job container. -/
  container : Option (Str × Str)
  services : Option (HashMap Service)
  /-- The names are lowered as the server's contexts are imported. -/
  lowered : ∀ key ∈ context.incomingContexts.keys, key.map Char.toLower = key

def conclusionToString : Conclusion → Str
  | .success => "success".toList
  | .failure => "failure".toList
  | .cancelled => "cancelled".toList
  | .skipped => "skipped".toList

def stringMapToObj (m : HashMap Str) : HashTree := .map ((pairs m).map fun entry => (entry.1, .text entry.2))

def StepState.tree (state : StepState) : HashTree :=
  .map [("outputs".toList, stringMapToObj state.outputs),
    ("outcome".toList, .text ((state.outcome.map conclusionToString).getD [])),
    ("conclusion".toList, .text ((state.conclusion.map conclusionToString).getD []))]

def buildStepsContext (steps : HashMap StepState) : HashTree :=
  .map ((pairs steps).map fun entry => (entry.1, entry.2.tree))

def Service.tree (service : Service) : HashTree :=
  .map [("id".toList, .text service.id), ("network".toList, .text service.network),
    ("ports".toList, stringMapToObj service.ports)]

namespace JobState

variable (st : JobState)

def envExpressionContext : HashTree :=
  .map ((pairs st.context.visibleEnv).map fun entry =>
    (entry.1, .text (match st.context.container with
      | none => entry.2
      | some container => container.translateEnv entry.1 entry.2)))

def stepsContext : HashTree :=
  if st.context.scopePath = [] then buildStepsContext st.steps
  else
    match st.scopedSteps.lookup st.context.scopePath with
    | some steps => buildStepsContext steps
    | none => .map []

def jobContext : HashTree :=
  .map [("status".toList, .text (jobStatusStr st.context.jobStatus)),
    ("container".toList,
      match st.container with
      | none => .null
      | some (id, network) => .map [("id".toList, .text id), ("network".toList, .text network)]),
    ("services".toList,
      match st.services with
      | none => .map []
      | some services => .map ((pairs services).map fun entry => (entry.1, entry.2.tree)))]

/-- The contexts that are put together for a snapshot. -/
def rebuilt : List (Str × HashTree) :=
  (match st.context.scopedInputs.lookup st.context.scopePath with
    | some inputs => [("inputs".toList, stringMapToObj inputs)]
    | none => []) ++
    [("env".toList, st.envExpressionContext), ("steps".toList, st.stepsContext),
      ("secrets".toList, stringMapToObj st.context.secrets), ("vars".toList, stringMapToObj st.context.vars),
      ("job".toList, st.jobContext)]

/-- The snapshot an expression is evaluated against, with each map in some order. -/
def evalContext (o : Enumeration) : EvalContext where
  contexts := (o []).arrange (extend st.context.incomingContexts
    (("github".toList, st.context.githubExpressionContext) ::
      ("runner".toList, .object st.context.runnerContext) :: enumerateEntries o [] st.rebuilt))
  jobStatus := st.context.scopedJobStatus
  workspace := st.context.workspace

end JobState

/-- The string that an expression gives. -/
def printed (platform : Platform) (ctx : EvalContext) (input : Str) : Except Expressions.RunnerError Str :=
  (evaluate platform ctx.shared input).map SharedValue.coerceToString

/-! ### Their keys -/

theorem distinctEntries_iff {entries : List (Str × HashTree)} :
    DistinctEntries entries ↔ ∀ entry ∈ entries, Distinct entry.2 := by
  induction entries with
  | nil => exact iff_of_true trivial (fun _ hmem => by cases hmem)
  | cons entry entries ih => rw [DistinctEntries, ih, List.forall_mem_cons]

/-- What is made of a hash map entry by entry. -/
theorem distinct_of_pairs {V : Type} (m : HashMap V) {f : Str × V → HashTree} (h : ∀ entry, Distinct (f entry)) :
    Distinct (.map ((pairs m).map fun entry => (entry.1, f entry))) := by
  refine ⟨?_, distinctEntries_iff.mpr fun entry hmem => ?_⟩
  · rw [List.map_map]
    exact nodup_pairs m
  · obtain ⟨pair, -, rfl⟩ := List.mem_map.mp hmem
    exact h pair

theorem distinct_stringMapToObj (m : HashMap Str) : Distinct (stringMapToObj m) :=
  distinct_of_pairs m fun _ => trivial

theorem distinct_buildStepsContext (steps : HashMap StepState) : Distinct (buildStepsContext steps) :=
  distinct_of_pairs steps fun entry =>
    ⟨show (["outputs".toList, "outcome".toList, "conclusion".toList] : List Str).Nodup by decide,
      distinct_stringMapToObj entry.2.outputs, trivial, trivial, trivial⟩

theorem distinct_service (service : Service) : Distinct service.tree :=
  ⟨show (["id".toList, "network".toList, "ports".toList] : List Str).Nodup by decide, trivial, trivial,
    distinct_stringMapToObj service.ports, trivial⟩

section JobState

variable {st : JobState}

theorem distinct_stepsContext (st : JobState) : Distinct st.stepsContext := by
  unfold JobState.stepsContext
  split
  case isTrue => exact distinct_buildStepsContext st.steps
  case isFalse =>
    split
    case h_1 steps _ => exact distinct_buildStepsContext steps
    case h_2 => exact ⟨List.nodup_nil, trivial⟩

theorem distinct_jobContext (st : JobState) : Distinct st.jobContext := by
  refine ⟨show (["status".toList, "container".toList, "services".toList] : List Str).Nodup by decide,
    trivial, ?_, ?_, trivial⟩
  · split
    case h_1 => trivial
    case h_2 => exact ⟨show (["id".toList, "network".toList] : List Str).Nodup by decide, trivial, trivial, trivial⟩
  · split
    case h_1 => exact ⟨List.nodup_nil, trivial⟩
    case h_2 services _ => exact distinct_of_pairs services fun entry => distinct_service entry.2

theorem distinct_rebuilt (st : JobState) : DistinctEntries st.rebuilt := by
  refine distinctEntries_iff.mpr fun entry hmem => ?_
  rcases List.mem_append.mp hmem with hinputs | hothers
  · split at hinputs
    case h_1 inputs _ =>
      rw [List.mem_singleton.mp hinputs]
      exact distinct_stringMapToObj inputs
    case h_2 => cases hinputs
  · simp only [List.mem_cons, List.not_mem_nil, or_false] at hothers
    rcases hothers with rfl | rfl | rfl | rfl | rfl
    · exact distinct_of_pairs _ fun _ => trivial
    · exact distinct_stepsContext st
    · exact distinct_stringMapToObj _
    · exact distinct_stringMapToObj _
    · exact distinct_jobContext st

/-- The names of the contexts that are put together. -/
def rebuiltNames : List Str :=
  ["inputs".toList, "env".toList, "steps".toList, "secrets".toList, "vars".toList, "job".toList]

theorem map_fst_rebuilt (st : JobState) : (st.rebuilt.map (·.1)).Sublist rebuiltNames := by
  unfold JobState.rebuilt
  split
  case h_1 => exact .refl _
  case h_2 => exact List.sublist_cons_self _ _

/-- Each can be named in an expression. -/
theorem rebuiltNames_named : ∀ name ∈ rebuiltNames, name.map Char.toLower = name ∧
    tokensFrom none (toJsonOf name) = .ok [.ident "toJSON".toList, .lParen, .ident name, .rParen] := by
  simp only [rebuiltNames, List.forall_mem_cons]
  exact ⟨⟨rfl, rfl⟩, ⟨rfl, rfl⟩, ⟨rfl, rfl⟩, ⟨rfl, rfl⟩, ⟨rfl, rfl⟩, ⟨rfl, rfl⟩, fun _ h => by cases h⟩

/-! ### Looking up in a snapshot -/

theorem nodup_made (o : Enumeration) (st : JobState) :
    ((("github".toList, st.context.githubExpressionContext) ::
      ("runner".toList, .object st.context.runnerContext) :: enumerateEntries o [] st.rebuilt).map
        (·.1)).Nodup := by
  rw [List.map_cons, List.map_cons, map_fst_enumerateEntries]
  have hsub : ("github".toList :: "runner".toList :: st.rebuilt.map (·.1)).Sublist
      ("github".toList :: "runner".toList :: rebuiltNames) :=
    ((map_fst_rebuilt st).cons_cons _).cons_cons _
  exact hsub.nodup (by decide)

theorem lookup_evalContext (o : Enumeration) (st : JobState) (name : Str) :
    (st.evalContext o).contexts.lookup name =
      (extend st.context.incomingContexts
        (("github".toList, st.context.githubExpressionContext) ::
          ("runner".toList, .object st.context.runnerContext) :: enumerateEntries o [] st.rebuilt)).lookup name :=
  AList.perm_lookup ((o []).perm _)

theorem mem_enumerateEntries {o : Enumeration} {path : List Str} {entries : List (Str × HashTree)}
    {entry : Str × HashTree} (h : entry ∈ entries) :
    (entry.1, enumerate o (entry.1 :: path) entry.2) ∈ enumerateEntries o path entries := by
  induction entries with
  | nil => cases h
  | cons other entries ih =>
    rw [enumerateEntries]
    rcases List.mem_cons.mp h with rfl | h
    · exact List.mem_cons_self
    · exact List.mem_cons_of_mem _ (ih h)

theorem lookup_rebuilt (o : Enumeration) {entry : Str × HashTree} (h : entry ∈ st.rebuilt) :
    (st.evalContext o).contexts.lookup entry.1 = some (enumerate o [entry.1] entry.2) := by
  rw [lookup_evalContext]
  refine (lookup_extend (nodup_made o st)).mpr (.inl ?_)
  exact List.mem_cons_of_mem _ (List.mem_cons_of_mem _ (mem_enumerateEntries h))

theorem lowered_evalContext (o : Enumeration) (st : JobState) : (st.evalContext o).Lowered := by
  intro key hmem
  have hsome : ((st.evalContext o).contexts.lookup key).isSome = true := AList.lookup_isSome.mpr (AList.mem_keys.mpr hmem)
  rw [lookup_evalContext] at hsome
  obtain ⟨value, hvalue⟩ := Option.isSome_iff_exists.mp hsome
  rcases lookup_extend_cases hvalue with hmade | hincoming
  · have hkey := List.mem_map_of_mem (f := Prod.fst) hmade
    rw [List.map_cons, List.map_cons, map_fst_enumerateEntries] at hkey
    rcases List.mem_cons.mp hkey with rfl | hkey
    · rfl
    · rcases List.mem_cons.mp hkey with rfl | hkey
      · rfl
      · exact (rebuiltNames_named key ((map_fst_rebuilt st).subset hkey)).1
  · exact st.lowered key (List.mem_map_of_mem (AList.mem_lookup_iff.mp hincoming))

/-! ### Two snapshots of one state -/

theorem agree_iff (platform : Platform) (st : JobState) (o₁ o₂ : Enumeration) :
    (∀ input, printed platform (st.evalContext o₁) input = printed platform (st.evalContext o₂) input) ↔
      SameKeysEntries o₁ o₂ [] st.rebuilt := by
  constructor
  -- each of these contexts can be written as JSON, and the text shows the order
  · intro hagree
    refine sameKeysEntries_iff.mpr fun entry hmem => ?_
    have hname : entry.1 ∈ rebuiltNames := (map_fst_rebuilt st).subset (List.mem_map_of_mem hmem)
    obtain ⟨hlower, htokens⟩ := rebuiltNames_named entry.1 hname
    have hwrites : ∀ o, printed platform (st.evalContext o) (toJsonOf entry.1) =
        .ok (writeJson 0 (SharedValue.ofExprValue (.given entry.1) [] (enumerate o [entry.1] entry.2))) := by
      intro o
      rw [printed, evaluate_toJson (lowered_evalContext o st) hlower htokens (lookup_rebuilt o hmem)]
      rfl
    have htexts := hagree (toJsonOf entry.1)
    rw [hwrites, hwrites] at htexts
    exact sameKeys_of_writeJson (distinctEntries_iff.mp (distinct_rebuilt st) entry hmem) (Except.ok.inj htexts)
  -- the order of the contexts themselves is not seen, and the rest is the same
  · intro hsame input
    have hentries := (enumerateEntries_eq_iff st.rebuilt [] (distinct_rebuilt st)).mpr hsame
    have halike : (st.evalContext o₁).shared.Alike (st.evalContext o₂).shared := by
      refine alike_shared (lowered_evalContext o₁ st) (lowered_evalContext o₂ st) (fun name => ?_) rfl rfl
      rw [lookup_evalContext, lookup_evalContext, hentries]
    rw [printed, printed, evaluate_congr halike]

/-- A job that has just begun. -/
def freshState : JobState where
  context :=
    { env := ∅
      stepEnvOverlays := []
      scopePath := []
      scopedInputs := ∅
      scopedStatus := ∅
      scopedActionPaths := ∅
      github := []
      steps := .object []
      runnerContext := []
      job := .object []
      jobStatus := .success
      secrets := ∅
      vars := ∅
      incomingContexts := ∅
      workspace := none
      container := none
      selfRepositoryEnabled := false
      workflowIdentity := none }
  steps := ∅
  scopedSteps := ∅
  container := none
  services := none
  lowered _ hmem := by cases hmem

def reversedOrder : HashOrder where
  arrange m := ⟨m.entries.reverse, by
    rw [List.NodupKeys, List.keys, List.map_reverse, List.nodup_reverse]
    exact m.nodupKeys⟩
  perm m := List.reverse_perm m.entries

/-- `job` has three keys in any state, and `toJSON(job)` shows which comes first. -/
theorem order_shown :
    printed grammarPlatform (freshState.evalContext fun _ => ⟨id, fun _ => .refl _⟩) "toJSON(job)".toList ≠
      printed grammarPlatform (freshState.evalContext fun _ => reversedOrder) "toJSON(job)".toList := by
  decide +kernel

end JobState

end GhRunner.Execution.SnapshotOrder
