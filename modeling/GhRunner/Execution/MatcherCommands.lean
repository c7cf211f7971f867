import GhRunner.Execution.CommandDispatch
import GhRunner.Lib.Descent
import GhRunner.Lib.Machine

namespace GhRunner.Execution

open Text Utf8 GhRunner.Shared

/-!
# The registry of a job, command by command

What the workflow commands of all of a job's steps make of its problem matchers.

* `insertAll_eq` — additions in the order of their document, then what stays;
* `parseAdd_spec` — the owners of a document that is read;
* `JobCommand`, `registryAfter` — a command with the files and the step it meets, and a job's commands;
* `Standing` — what holds of the registry after every command;
* `registry_order` — unique owners, the limit, refusals without effect, and the order.
-/

/-! ### Additions and survivors -/

/-- What stays of some definitions when these owners are taken out. -/
def survivors (taken : List Str) (definitions : List (Arc MatcherDefinition)) :
    List (Arc MatcherDefinition) :=
  definitions.filter fun d => d.value.ownerKey ∉ taken

/-- Where no two additions have one owner, they stand in front of what stays. -/
theorem insertAll_eq {additions : List (Arc MatcherDefinition)} (h : (owners additions).Nodup)
    (definitions : List (Arc MatcherDefinition)) :
    insertAll additions definitions = additions ++ survivors (owners additions) definitions := by
  induction additions with
  | nil => simp [insertAll, survivors, owners]
  | cons addition additions ih =>
    obtain ⟨hnew, hrest⟩ := List.nodup_cons.mp h
    show addition :: (insertAll additions definitions).filter _ = _
    have hkept : (additions.filter fun d => d.value.ownerKey ≠ addition.value.ownerKey) = additions := by
      refine List.filter_eq_self.mpr fun d hd => decide_eq_true fun heq => hnew ?_
      exact List.mem_map.mpr ⟨d, hd, heq⟩
    rw [ih hrest, List.filter_append, hkept, survivors, survivors, List.filter_filter]
    congr 2
    -- an owner is taken out by the addition or by those after it
    refine List.filter_congr fun d _ => ?_
    simp [owners, not_or]

@[simp] theorem map_value_allocate (fresh : ℕ) (ds : List MatcherDefinition) :
    (allocate fresh ds).map Arc.value = ds := by
  induction ds generalizing fresh with
  | nil => rfl
  | cons d ds ih => simp [allocate, ih]

theorem owners_allocate (fresh : ℕ) (ds : List MatcherDefinition) :
    owners (allocate fresh ds) = ds.map MatcherDefinition.ownerKey := by
  show (allocate fresh ds).map (MatcherDefinition.ownerKey ∘ Arc.value) = _
  rw [← List.map_map, map_value_allocate]

/-! ### Documents -/

theorem toLower_toLower (c : Char) : c.toLower.toLower = c.toLower := by
  cases h : c.isUpper with
  | true =>
    have hbound : c.toNat < 128 := by
      have halpha : c.isAlpha = true := Bool.or_eq_true_iff.mpr (Or.inl h)
      have hletter := isAlpha_bounds halpha
      omega
    have hall : ∀ n < 128, (Char.ofNat n).toLower.toLower = (Char.ofNat n).toLower := by
      decide
    have hc := hall c.toNat hbound
    rwa [Char.ofNat_toNat] at hc
  | false => rw [toLower_of_not_isUpper h, toLower_of_not_isUpper h]

theorem asciiLower_asciiLower (s : Str) : asciiLower (asciiLower s) = asciiLower s := by
  show (s.map Char.toLower).map Char.toLower = s.map Char.toLower
  rw [List.map_map]
  exact List.map_congr_left fun c _ => toLower_toLower c

variable {crates : MatcherCrates}

/-- An owner is kept in lower case, and is not blank. -/
structure MatcherDefinition.Keyed (d : MatcherDefinition) : Prop where
  lower : asciiLower d.ownerKey = d.ownerKey
  ne_nil : d.ownerKey ≠ []

theorem keyed_of_parseMatcher {raw : RawMatcher} {d : MatcherDefinition}
    (h : parseMatcher crates raw = .ok d) : d.Keyed := by
  unfold parseMatcher at h
  dsimp only at h
  split at h
  case isTrue => cases h
  case isFalse howner =>
    obtain ⟨severity, -, h⟩ := Descent.bind_eq_ok.mp h
    split at h
    case h_1 => cases h
    case h_2 patterns _ =>
      split at h
      case isTrue => cases h
      split at h
      case isTrue => cases h
      obtain ⟨definitions, -, h⟩ := Descent.bind_eq_ok.mp h
      split at h
      case isTrue => cases h
      obtain rfl := Except.ok.inj h
      exact ⟨asciiLower_asciiLower _, fun hnil => howner (List.map_eq_nil_iff.mp hnil)⟩

/-- The definitions of a document, in its order: no owner twice, and none of those before. -/
theorem parseMatchers_spec {before : List Str} {raws : List RawMatcher} {ds : List MatcherDefinition}
    (h : parseMatchers crates before raws = .ok ds) :
    (ds.map MatcherDefinition.ownerKey).Nodup ∧ (∀ d ∈ ds, d.ownerKey ∉ before) ∧
      List.Forall₂ (fun raw d => parseMatcher crates raw = .ok d) raws ds := by
  induction raws generalizing before ds with
  | nil =>
    obtain rfl := Except.ok.inj h
    simp
  | cons raw raws ih =>
    obtain ⟨d, hd, h⟩ := Descent.bind_eq_ok.mp h
    split at h
    case isTrue => cases h
    case isFalse hnew =>
      obtain ⟨rest, hrest, h⟩ := Descent.bind_eq_ok.mp h
      obtain rfl := Except.ok.inj h
      obtain ⟨hnodup, hdisjoint, hinOrder⟩ := ih hrest
      refine ⟨?_, ?_, .cons hd hinOrder⟩
      · refine List.nodup_cons.mpr ⟨fun hmem => ?_, hnodup⟩
        obtain ⟨d', hd', heq⟩ := List.mem_map.mp hmem
        exact hdisjoint d' hd' (heq ▸ List.mem_cons_self)
      · intro d' hd'
        rcases List.mem_cons.mp hd' with rfl | hd'
        · exact hnew
        · exact fun hmem => hdisjoint d' hd' (List.mem_cons_of_mem _ hmem)

theorem parseAdd_spec {input : Str} {ds : List MatcherDefinition} (h : parseAdd crates input = .ok ds) :
    (ds.map MatcherDefinition.ownerKey).Nodup ∧ ∃ document, crates.matcherFile input = .ok document ∧
      List.Forall₂ (fun raw d => parseMatcher crates raw = .ok d) (document.getD []) ds := by
  unfold parseAdd at h
  split at h
  case isTrue => cases h
  case isFalse =>
    obtain ⟨document, hdocument, h⟩ := Descent.bind_eq_ok.mp h
    dsimp only at h
    split at h
    case isTrue => cases h
    case isFalse =>
      obtain ⟨hnodup, -, hinOrder⟩ := parseMatchers_spec h
      refine ⟨hnodup, document, ?_, hinOrder⟩
      cases hfile : crates.matcherFile input with
      | error position => rw [hfile] at hdocument; cases hdocument
      | ok found => rw [hfile] at hdocument; exact congrArg _ (Except.ok.inj hdocument)

theorem keyed_of_parseAdd {input : Str} {ds : List MatcherDefinition} (h : parseAdd crates input = .ok ds) :
    ∀ d ∈ ds, d.Keyed := by
  obtain ⟨-, document, -, hinOrder⟩ := parseAdd_spec h
  intro d hd
  obtain ⟨n, hn, rfl⟩ := List.getElem_of_mem hd
  exact keyed_of_parseMatcher (hinOrder.get (hinOrder.length_eq ▸ hn) hn)

/-! ### Operations on the registry -/

namespace MatcherRegistry

variable {registry registry' : MatcherRegistry}

theorem addJson_eq_ok {input : Str} (h : registry.addJson crates input = .ok registry') :
    ∃ additions, parseAdd crates input = .ok additions ∧
      registry'.definitions = allocate registry.fresh additions ++
        survivors (additions.map MatcherDefinition.ownerKey) registry.definitions ∧
      registry'.definitions.length ≤ maxOwners := by
  obtain ⟨additions, hadditions, h⟩ := Descent.bind_eq_ok.mp h
  dsimp only at h
  split at h
  case isTrue => cases h
  case isFalse hlimit =>
    obtain rfl := Except.ok.inj h
    have hnodup := (parseAdd_spec hadditions).1
    rw [← owners_allocate registry.fresh] at hnodup
    refine ⟨additions, hadditions, ?_, Nat.le_of_not_lt hlimit⟩
    rw [← owners_allocate registry.fresh]
    exact insertAll_eq hnodup _

theorem removeJson_eq_ok {input : Str} (h : registry.removeJson crates input = .ok registry') :
    ∃ removed, parseRemove crates input = .ok removed ∧
      registry'.definitions = survivors removed registry.definitions := by
  obtain ⟨removed, hremoved, h⟩ := Descent.bind_eq_ok.mp h
  obtain rfl := Except.ok.inj h
  exact ⟨removed, hremoved, rfl⟩

end MatcherRegistry

/-! ### Commands -/

section Commands

variable {A : AhoCorasick}

/-- A command of a job: the files that it finds, and the step's dispatcher and the job's state that it
    meets, its matchers apart. -/
structure JobCommand (A : AhoCorasick) where
  world : Surroundings
  step : Dispatch A
  command : WorkflowCommand

namespace JobCommand

variable (e : JobCommand A) (registry : MatcherRegistry)

/-- The command applied. -/
def applied : Dispatch A :=
  { e.step with ctx.matchers := registry }.apply e.world e.command

/-- The command says that something is wrong, or annotates. -/
def Reports : Prop := (e.applied registry).dispatcher.pending ≠ e.step.dispatcher.pending

/-- The owners that a removal names, by name or by a document. -/
inductive Removes (e : JobCommand A) : List Str → Prop
  | owner {owner : Option Str} {path name : Str} (hcommand : e.command = .removeMatcher owner path)
    (hname : (owner.map unescapeProperty).filter (· ≠ []) = some name) : Removes e [asciiLower (trim name)]
  | document {owner : Option Str} {path text : Str} {names : List Str}
    (hcommand : e.command = .removeMatcher owner path)
    (htext : e.world.readMatcher (unescapeData path) = .ok text)
    (hnames : parseRemove e.world.crates text = .ok names) : Removes e names

/-- The definitions that an addition brings, in the order of the document. -/
def Adds (additions : List MatcherDefinition) : Prop :=
  ∃ path text document, e.command = .addMatcher path ∧
    e.world.readMatcher (unescapeData path) = .ok text ∧
    parseAdd e.world.crates text = .ok additions ∧ e.world.crates.matcherFile text = .ok document ∧
    List.Forall₂ (fun raw d => parseMatcher e.world.crates raw = .ok d) (document.getD []) additions

end JobCommand

def afterCommand (registry : MatcherRegistry) (e : JobCommand A) : MatcherRegistry :=
  (e.applied registry).ctx.matchers

/-- The matchers of a job after these commands. -/
def registryAfter (events : List (JobCommand A)) : MatcherRegistry :=
  Machine.run afterCommand .empty events

/-- The other commands leave the matchers alone. -/
theorem apply_matchers (s : Dispatch A) (world : Surroundings) {command : WorkflowCommand}
    (hadd : ∀ path, command ≠ .addMatcher path)
    (hremove : ∀ owner path, command ≠ .removeMatcher owner path) :
    (s.apply world command).ctx.matchers = s.ctx.matchers := by
  have hannotation (level : AnnotationLevel) (fields : AnnotationFields) :
      (s.pushAnnotation level fields).ctx.matchers = s.ctx.matchers := by
    unfold Dispatch.pushAnnotation
    dsimp only
    split <;> rfl
  cases command with
  | addMatcher path => exact absurd rfl (hadd path)
  | removeMatcher owner path => exact absurd rfl (hremove owner path)
  | setOutput name value =>
    show (s.applySetOutput name value).ctx.matchers = _
    unfold Dispatch.applySetOutput
    split
    · rfl
    · cases s.dispatcher.outputContextName <;> rfl
  | saveState name value =>
    show (s.applySaveState name value).ctx.matchers = _
    unfold Dispatch.applySaveState
    split <;> rfl
  | error fields => exact hannotation .error fields
  | warning fields => exact hannotation .warning fields
  | notice fields => exact hannotation .notice fields
  | addPath => exact hannotation .warning _
  | setEnv => exact hannotation .warning _
  | _ => rfl

/-- Every owner in lower case, and no more of them than the limit. -/
structure Standing (registry : MatcherRegistry) : Prop where
  keyed : ∀ d ∈ registry.definitions, d.value.Keyed
  length_le : registry.definitions.length ≤ maxOwners

theorem standing_empty : Standing .empty :=
  ⟨fun _ hd => absurd hd List.not_mem_nil, Nat.zero_le _⟩

/-- What a command can do to the matchers. -/
inductive JobCommand.Effect (e : JobCommand A) (registry : MatcherRegistry) : MatcherRegistry → Prop
  | refused (hreports : e.Reports registry) : Effect e registry registry
  | other (hadd : ∀ path, e.command ≠ .addMatcher path)
    (hremove : ∀ owner path, e.command ≠ .removeMatcher owner path) : Effect e registry registry
  | added {additions : List MatcherDefinition} {registry' : MatcherRegistry}
    (hsilent : ¬ e.Reports registry) (hadds : e.Adds additions)
    (horder : registry'.definitions = allocate registry.fresh additions ++
      survivors (additions.map MatcherDefinition.ownerKey) registry.definitions)
    (hlimit : registry'.definitions.length ≤ maxOwners) : Effect e registry registry'
  | removed {names : List Str} {registry' : MatcherRegistry} (hsilent : ¬ e.Reports registry)
    (hremoves : e.Removes names)
    (horder : registry'.definitions = survivors names registry.definitions) : Effect e registry registry'

theorem Dispatch.push_pending_ne (s : Dispatch A) (event : RunnerEvent) :
    (s.push event).dispatcher.pending ≠ s.dispatcher.pending := by
  simp [Dispatch.push]

variable {e : JobCommand A} {registry : MatcherRegistry}

/-- A diagnostic is reported, and leaves the matchers as they are. -/
theorem effect_of_matcherDiagnostic {s : Dispatch A} {level : AnnotationLevel} {message : Str}
    (happlied : e.applied registry = s.matcherDiagnostic level message)
    (hpending : s.dispatcher.pending = e.step.dispatcher.pending) (hmatchers : s.ctx.matchers = registry) :
    e.Effect registry (afterCommand registry e) := by
  have hreports : e.Reports registry := by
    rw [JobCommand.Reports, happlied, ← hpending]
    exact Dispatch.push_pending_ne _ _
  have hsame : afterCommand registry e = registry := by
    rw [afterCommand, happlied]
    exact hmatchers
  rw [hsame]
  exact .refused hreports

/-- A document that is refused is reported. -/
theorem effect_of_withMatchers {result : Except Str MatcherRegistry}
    (happlied : e.applied registry = { e.step with ctx.matchers := registry }.withMatchers result)
    (hok : ∀ registry', result = .ok registry' → ¬ e.Reports registry → e.Effect registry registry') :
    e.Effect registry (afterCommand registry e) := by
  cases result with
  | error message =>
    have hfailed : e.applied registry =
        { e.step with ctx.matchers := registry, dispatcher.failed := true }.matcherDiagnostic .error message :=
      happlied
    exact effect_of_matcherDiagnostic hfailed rfl rfl
  | ok registry' =>
    have hsilent : ¬ e.Reports registry := by
      rw [JobCommand.Reports, happlied]
      exact not_not_intro rfl
    have hafter : afterCommand registry e = registry' := by rw [afterCommand, happlied]; rfl
    rw [hafter]
    exact hok registry' rfl hsilent

theorem effect_addMatcher {path : Str} (hcommand : e.command = .addMatcher path) :
    e.Effect registry (afterCommand registry e) := by
  have happlied : e.applied registry =
      { e.step with ctx.matchers := registry }.addMatcher e.world path := by
    rw [JobCommand.applied, hcommand]
    rfl
  unfold Dispatch.addMatcher at happlied
  dsimp only at happlied
  split at happlied
  case isTrue => exact effect_of_matcherDiagnostic happlied rfl rfl
  case isFalse =>
    refine effect_of_withMatchers happlied fun registry' hresult hsilent => ?_
    obtain ⟨text, htext, hadded⟩ := Descent.bind_eq_ok.mp hresult
    obtain ⟨additions, hadditions, horder, hlimit⟩ := MatcherRegistry.addJson_eq_ok hadded
    obtain ⟨-, document, hdocument, hinOrder⟩ := parseAdd_spec hadditions
    exact .added hsilent ⟨path, text, document, hcommand, htext, hadditions, hdocument, hinOrder⟩ horder
      hlimit

/-- A removal by a blank name removes nothing. -/
theorem removeOwner_definitions (h : Standing registry) (owner : Str) :
    (registry.removeOwner owner).definitions =
      survivors [asciiLower (trim owner)] registry.definitions := by
  unfold MatcherRegistry.removeOwner
  dsimp only
  split
  case isTrue hblank =>
    rw [hblank]
    refine (List.filter_eq_self.mpr fun d hd => ?_).symm
    simpa using (h.keyed d hd).ne_nil
  case isFalse =>
    refine List.filter_congr fun d _ => ?_
    simp

theorem effect_removeMatcher (h : Standing registry) {owner : Option Str} {path : Str}
    (hcommand : e.command = .removeMatcher owner path) :
    e.Effect registry (afterCommand registry e) := by
  have happlied : e.applied registry =
      { e.step with ctx.matchers := registry }.removeMatcher e.world owner path := by
    rw [JobCommand.applied, hcommand]
    rfl
  unfold Dispatch.removeMatcher at happlied
  dsimp only at happlied
  split at happlied
  case h_1 name hname _ =>
    have hsilent : ¬ e.Reports registry := by
      rw [JobCommand.Reports, happlied]
      exact not_not_intro rfl
    have hafter : afterCommand registry e = registry.removeOwner name := by
      rw [afterCommand, happlied]
    rw [hafter]
    exact .removed hsilent (.owner hcommand hname) (removeOwner_definitions h name)
  case h_2 =>
    refine effect_of_withMatchers happlied fun registry' hresult hsilent => ?_
    obtain ⟨text, htext, hremoved⟩ := Descent.bind_eq_ok.mp hresult
    obtain ⟨names, hnames, horder⟩ := MatcherRegistry.removeJson_eq_ok hremoved
    exact .removed hsilent (.document hcommand htext hnames) horder
  case h_3 => exact effect_of_matcherDiagnostic happlied rfl rfl

theorem effect_afterCommand (h : Standing registry) (e : JobCommand A) :
    e.Effect registry (afterCommand registry e) := by
  by_cases hadd : ∀ path, e.command ≠ .addMatcher path
  · by_cases hremove : ∀ owner path, e.command ≠ .removeMatcher owner path
    · have hsame : afterCommand registry e = registry := apply_matchers _ _ hadd hremove
      rw [hsame]
      exact .other hadd hremove
    · push Not at hremove
      obtain ⟨owner, path, hcommand⟩ := hremove
      exact effect_removeMatcher h hcommand
  · push Not at hadd
    obtain ⟨path, hcommand⟩ := hadd
    exact effect_addMatcher hcommand

/-! ### Runs -/

theorem standing_of_survivors {registry' : MatcherRegistry} (h : Standing registry) {taken : List Str}
    (horder : registry'.definitions = survivors taken registry.definitions) : Standing registry' := by
  refine ⟨fun d hd => h.keyed d ?_, ?_⟩
  · rw [horder] at hd
    exact List.mem_of_mem_filter hd
  · rw [horder]
    exact (List.length_filter_le _ _).trans h.length_le

theorem standing_afterCommand (h : Standing registry) (e : JobCommand A) :
    Standing (afterCommand registry e) := by
  have heffect := effect_afterCommand h e
  generalize afterCommand registry e = registry' at heffect
  cases heffect with
  | refused | other => exact h
  | added _ hadds horder hlimit =>
    refine ⟨fun d hd => ?_, hlimit⟩
    obtain ⟨path, text, document, hcommand, hread, hadditions, -⟩ := hadds
    rw [horder, List.mem_append] at hd
    rcases hd with hnew | hold
    · have hvalue := List.mem_map_of_mem (f := Arc.value) hnew
      rw [map_value_allocate] at hvalue
      exact keyed_of_parseAdd hadditions d.value hvalue
    · exact h.keyed d (List.mem_of_mem_filter hold)
  | removed _ _ horder => exact standing_of_survivors h horder

theorem standing_registryAfter (events : List (JobCommand A)) : Standing (registryAfter events) :=
  Machine.run_invariant_of_step (I := Standing) (fun _ e h => standing_afterCommand h e) events
    standing_empty

/-- After every sequence of commands the owners are unique whatever their case, and within the limit;
    and the next command changes nothing when it reports, puts the additions of a document in its order
    in front of what stays, or takes the named owners out. -/
theorem registry_order (events : List (JobCommand A)) (e : JobCommand A) :
    (∀ d ∈ (registryAfter events).definitions, ∀ d' ∈ (registryAfter events).definitions,
      asciiLower d.value.ownerKey = asciiLower d'.value.ownerKey → d = d') ∧
    (registryAfter events).definitions.length ≤ maxOwners ∧
    (e.Reports (registryAfter events) → registryAfter (events ++ [e]) = registryAfter events) ∧
    e.Effect (registryAfter events) (registryAfter (events ++ [e])) := by
  have hstanding := standing_registryAfter events
  have hstep : registryAfter (events ++ [e]) = afterCommand (registryAfter events) e := by
    rw [registryAfter, Machine.run_append]
    rfl
  have heffect := effect_afterCommand hstanding e
  rw [← hstep] at heffect
  refine ⟨fun d hd d' hd' hcase => ?_, hstanding.length_le, fun hreports => ?_, heffect⟩
  · rw [(hstanding.keyed d hd).lower, (hstanding.keyed d' hd').lower] at hcase
    exact List.inj_on_of_nodup_map (registryAfter events).nodup hd hd' hcase
  · generalize registryAfter (events ++ [e]) = registry' at heffect
    cases heffect with
    | refused | other => rfl
    | added hsilent | removed hsilent => exact absurd hreports hsilent

end Commands

end GhRunner.Execution
