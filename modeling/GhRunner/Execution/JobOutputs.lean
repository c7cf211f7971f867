import GhRunner.Execution.SingleEvaluation
import GhRunner.Shared.Masking

namespace GhRunner.Execution

open Text Traced GhRunner.Expressions GhRunner.Shared

/-!
# Job outputs

`crates/execution/src/execution/job_spec.rs`: the job's `outputs:` evaluated when all steps are done.

* `mappingEntries`, `evaluateAcquiredValue`, `insertOutput`, `evaluateAcquiredOutputs` — as the source
  has them;
* `evaluated` — the entries up to the first that fails, with their values;
* `Caseless`, `lookup_insertOutput` — a name is there once, whatever the case of its letters;
* `lookup_insertOutputs` — which value a name ends with, and how it is spelled;
* `acquired_outputs` — no secret goes out, and everything else does.
-/

/-! ### Evaluation -/

def mappingEntries (token : TemplateToken) (path : Str) :
    Except RunnerError (List (Str × TemplateToken)) :=
  if token.tokenType ≠ 2 then .error (.other (path ++ " must be a mapping token".toList))
  else
    match token.d with
    | none => .error (.other (path ++ " mapping has no entries".toList))
    | some entries => entries.mapM fun entry =>
      match entry.1.toStringValue with
      | some name => .ok (name, entry.2)
      | none => .error (.other (path ++ " key must be literal".toList))

inductive AcquiredValue
  | empty
  | secret
  | value (value : Str)

structure AcquiredOutputResult where
  outputs : HashMap Str
  skippedSecretNames : List Str
  error : Option RunnerError

variable (order : HashOrder) (engine : Engine) {A : AhoCorasick} (masker : SecretMasker A)
  (evalCtx : EvalContext)

/-- The text of a scalar token. -/
def acquiredText (name : Str) (token : TemplateToken) : Except RunnerError Str :=
  if token.tokenType ∈ ([0, 3, 5, 6, 7] : List ℤ) then (envTokenToString engine evalCtx token).result
  else .error (.other ("jobOutputs.".toList ++ name ++ " must be a scalar token".toList))

/-- A value that masking changes is secret. -/
def classify (value : Str) : AcquiredValue :=
  if value = [] then .empty else if masker.mask value = value then .value value else .secret

def evaluateAcquiredValue (name : Str) (token : TemplateToken) : Except RunnerError AcquiredValue :=
  classify masker <$> acquiredText engine evalCtx name token

/-- Under the name that is there already, if one is that differs in case at most. -/
def insertOutput (outputs : HashMap Str) (name value : Str) : HashMap Str :=
  match (pairs (order.arrange outputs)).find? fun entry => asciiLower entry.1 = asciiLower name with
  | some existing => outputs.insert existing.1 value
  | none => outputs.insert name value

/-- The entries in their order; the first error ends it. -/
def evaluateEntries (result : AcquiredOutputResult) :
    List (Str × TemplateToken) → AcquiredOutputResult
  | [] => result
  | (name, token) :: rest =>
    if name = [] then evaluateEntries result rest
    else
      match evaluateAcquiredValue engine masker evalCtx name token with
      | .ok .empty => evaluateEntries result rest
      | .ok .secret => evaluateEntries
          { result with skippedSecretNames := result.skippedSecretNames ++ [name] } rest
      | .ok (.value value) => evaluateEntries
          { result with outputs := insertOutput order result.outputs name value } rest
      | .error error => { result with error := some error }

def evaluateAcquiredOutputs (token : TemplateToken) : AcquiredOutputResult :=
  match mappingEntries token "jobOutputs".toList with
  | .error error => ⟨∅, [], some error⟩
  | .ok entries => evaluateEntries order engine masker evalCtx ⟨∅, [], none⟩ entries

/-! ### What was evaluated -/

/-- The entries that have a name, up to the first that fails, with their values. -/
def evaluated : List (Str × TemplateToken) → List (Str × Str)
  | [] => []
  | (name, token) :: rest =>
    if name = [] then evaluated rest
    else
      match acquiredText engine evalCtx name token with
      | .ok value => (name, value) :: evaluated rest
      | .error _ => []

/-- The same of the token: where it is no mapping with literal keys there are none. -/
def evaluatedEntries (token : TemplateToken) : List (Str × Str) :=
  match mappingEntries token "jobOutputs".toList with
  | .error _ => []
  | .ok entries => evaluated engine evalCtx entries

/-! ### Names -/

/-- No name is there twice, whatever the case of its letters. -/
def Caseless (outputs : HashMap Str) : Prop :=
  ∀ a b, a ∈ outputs → b ∈ outputs → asciiLower a = asciiLower b → a = b

/-- The entry has the name, whatever the case of its letters. -/
def named (name : Str) (entry : Str × Str) : Bool := asciiLower entry.1 = asciiLower name

section Insert

variable {outputs : HashMap Str}

/-- The name under which a value is kept. -/
theorem insertOutput_eq (outputs : HashMap Str) (name value : Str) :
    ∃ kept, insertOutput order outputs name value = outputs.insert kept value ∧
      asciiLower kept = asciiLower name ∧
      (kept ∈ outputs ∨ kept = name ∧ ∀ a ∈ outputs, asciiLower a ≠ asciiLower name) := by
  have hkeys : ∀ a, a ∈ outputs ↔ ∃ v, (a, v) ∈ pairs (order.arrange outputs) := by
    intro a
    simp only [mem_pairs, AList.perm_lookup (order.perm outputs), ← AList.lookup_isSome,
      Option.isSome_iff_exists]
  unfold insertOutput
  split
  case h_1 existing hfind =>
    have hsame : asciiLower existing.1 = asciiLower name := by
      simpa using List.find?_some hfind
    exact ⟨existing.1, rfl, hsame, .inl ((hkeys _).mpr ⟨_, List.mem_of_find?_eq_some hfind⟩)⟩
  case h_2 hnone =>
    refine ⟨name, rfl, rfl, .inr ⟨rfl, fun a ha => ?_⟩⟩
    obtain ⟨v, hv⟩ := (hkeys a).mp ha
    simpa using List.find?_eq_none.mp hnone _ hv

/-- Names that are the same but for their case are the kept name. -/
theorem eq_kept (h : Caseless outputs) {name kept a : Str} (hsame : asciiLower kept = asciiLower name)
    (hkept : kept ∈ outputs ∨ kept = name ∧ ∀ a ∈ outputs, asciiLower a ≠ asciiLower name)
    (ha : a ∈ outputs) (heq : asciiLower a = asciiLower name) : a = kept := by
  rcases hkept with hmem | ⟨-, hnew⟩
  · exact h a kept ha hmem (heq.trans hsame.symm)
  · exact absurd heq (hnew a ha)

theorem caseless_insertOutput (h : Caseless outputs) (name value : Str) :
    Caseless (insertOutput order outputs name value) := by
  obtain ⟨kept, hinsert, hsame, hkept⟩ := insertOutput_eq order outputs name value
  rw [hinsert]
  intro a b ha hb heq
  rw [AList.mem_insert] at ha hb
  rcases ha with rfl | ha <;> rcases hb with rfl | hb
  · rfl
  · exact (eq_kept h hsame hkept hb (heq.symm.trans hsame)).symm
  · exact eq_kept h hsame hkept ha (heq.trans hsame)
  · exact h a b ha hb heq

theorem named_congr {name other : Str} (h : asciiLower name = asciiLower other) :
    named name = named other := by
  funext entry
  rw [named, named, h]

/-- The values accepted one after another: a name has the last of its values, and is spelled as at
    the first. -/
theorem lookup_insertOutputs (accepted : List (Str × Str)) :
    Caseless (accepted.foldl (fun outputs entry => insertOutput order outputs entry.1 entry.2) ∅) ∧
    ∀ name value,
      (accepted.foldl (fun outputs entry => insertOutput order outputs entry.1 entry.2) ∅).lookup
        name = some value ↔
      (accepted.find? (named name)).map Prod.fst = some name ∧
        (accepted.reverse.find? (named name)).map Prod.snd = some value := by
  induction accepted using List.reverseRecOn with
  | nil => exact ⟨fun a b ha => absurd ha (AList.notMem_empty a), fun name value => by simp⟩
  | append_singleton accepted entry ih =>
    rw [List.foldl_append, List.foldl_cons, List.foldl_nil]
    generalize accepted.foldl (fun outputs entry => insertOutput order outputs entry.1 entry.2) ∅ =
      outputs at ih ⊢
    obtain ⟨h, ih⟩ := ih
    refine ⟨caseless_insertOutput order h _ _, fun name value => ?_⟩
    obtain ⟨kept, hinsert, hsame, hkept⟩ := insertOutput_eq order outputs entry.1 entry.2
    rw [hinsert, List.find?_append, List.reverse_append, List.reverse_singleton,
      List.singleton_append]
    by_cases hname : asciiLower entry.1 = asciiLower name
    · have hhit : named name entry = true := decide_eq_true hname
      -- the name is kept as at the first entry that has it
      have hfirst : ((accepted.find? (named name)).or ([entry].find? (named name))).map Prod.fst =
          some kept := by
        cases hfind : accepted.find? (named name) with
        | some first =>
          have hthere : asciiLower first.1 = asciiLower name := by
            simpa [named] using List.find?_some hfind
          have hlast : (accepted.reverse.find? (named name)).isSome := by
            rw [List.find?_isSome]
            exact ⟨first, List.mem_reverse.mpr (List.mem_of_find?_eq_some hfind),
              List.find?_some hfind⟩
          obtain ⟨last, hlast⟩ := Option.isSome_iff_exists.mp hlast
          have hlookup : outputs.lookup first.1 = some last.2 := by
            rw [ih, named_congr hthere, hfind, hlast]
            exact ⟨rfl, rfl⟩
          have hmem : first.1 ∈ outputs := AList.lookup_isSome.mp (by rw [hlookup]; rfl)
          rw [← eq_kept h hsame hkept hmem (hthere.trans hname.symm)]
          rfl
        | none =>
          have hnew : kept = entry.1 := by
            rcases hkept with hmem | ⟨heq, -⟩
            · obtain ⟨v, hv⟩ := Option.isSome_iff_exists.mp (AList.lookup_isSome.mpr hmem)
              have hfound := ((ih kept v).mp hv).1
              rw [named_congr (hsame.trans hname), hfind] at hfound
              cases hfound
            · exact heq
          rw [List.find?_cons_of_pos hhit, hnew]
          rfl
      rw [hfirst, List.find?_cons_of_pos hhit, Option.map_some, Option.some_inj, Option.some_inj]
      by_cases hkey : name = kept
      · rw [hkey, AList.lookup_insert, Option.some_inj]
        simp
      · have hnone : outputs.lookup name = none := by
          rw [AList.lookup_eq_none]
          exact fun hmem => hkey (eq_kept h hsame hkept hmem hname.symm)
        rw [AList.lookup_insert_ne hkey, hnone]
        simp [Ne.symm hkey]
    · have hmiss : ¬ named name entry = true := by simpa [named] using hname
      have hkey : name ≠ kept := fun heq => hname (heq ▸ hsame.symm)
      rw [AList.lookup_insert_ne hkey, ih, List.find?_cons_of_neg hmiss, List.find?_nil,
        Option.or_none, List.find?_cons_of_neg hmiss]

end Insert

/-! ### The outputs -/

/-- A value that may go out: it is not empty and no pattern stands in it. -/
def Clean (patterns : List Str) (value : Str) : Prop :=
  value ≠ [] ∧ ∀ pattern ∈ patterns, ¬ pattern <:+: value

/-- A value that is withheld. -/
def Secret (patterns : List Str) (value : Str) : Prop :=
  value ≠ [] ∧ ∃ pattern ∈ patterns, pattern <:+: value

instance (patterns : List Str) (value : Str) : Decidable (Clean patterns value) :=
  inferInstanceAs (Decidable (_ ∧ _))

instance (patterns : List Str) (value : Str) : Decidable (Secret patterns value) :=
  inferInstanceAs (Decidable (_ ∧ _))

theorem classify_eq {masker : SecretMasker A} (hm : masker.Sound)
    (hstar : ∀ p ∈ masker.patterns, '*' ∉ p) (value : Str) :
    classify masker value = if Clean masker.patterns value then .value value
      else if Secret masker.patterns value then .secret else .empty := by
  rw [classify]
  by_cases hempty : value = []
  · rw [if_pos hempty, if_neg fun h => h.1 hempty, if_neg fun h => h.1 hempty]
  · rw [if_neg hempty]
    by_cases hclean : masker.mask value = value
    · rw [if_pos hclean, if_pos ⟨hempty, (SecretMasker.mask_eq_self_iff hm hstar).mp hclean⟩]
    · rw [SecretMasker.mask_eq_self_iff hm hstar] at hclean
      have hsecret : ∃ p ∈ masker.patterns, p <:+: value := by simpa using hclean
      rw [if_neg fun h => hclean ((SecretMasker.mask_eq_self_iff hm hstar).mp h),
        if_neg fun h => hclean h.2, if_pos ⟨hempty, hsecret⟩]

theorem not_clean_of_secret {patterns : List Str} {value : Str} (h : Secret patterns value) :
    ¬ Clean patterns value := by
  obtain ⟨-, pattern, hpattern, hin⟩ := h
  exact fun hclean => hclean.2 pattern hpattern hin

/-- The loop keeps what is clean and names what is secret. -/
theorem evaluateEntries_eq {masker : SecretMasker A} (hm : masker.Sound)
    (hstar : ∀ p ∈ masker.patterns, '*' ∉ p) (result : AcquiredOutputResult)
    (entries : List (Str × TemplateToken)) :
    (evaluateEntries order engine masker evalCtx result entries).outputs =
      ((evaluated engine evalCtx entries).filter fun e => Clean masker.patterns e.2).foldl
        (fun outputs e => insertOutput order outputs e.1 e.2) result.outputs ∧
    (evaluateEntries order engine masker evalCtx result entries).skippedSecretNames =
      result.skippedSecretNames ++
        ((evaluated engine evalCtx entries).filter fun e => Secret masker.patterns e.2).map
          Prod.fst := by
  induction entries generalizing result with
  | nil => exact ⟨rfl, (List.append_nil _).symm⟩
  | cons entry rest ih =>
    obtain ⟨name, token⟩ := entry
    rw [evaluateEntries, evaluated]
    split
    case isTrue => exact ih result
    case isFalse =>
      cases htext : acquiredText engine evalCtx name token with
      | error error =>
        have hvalue : evaluateAcquiredValue engine masker evalCtx name token = .error error := by
          rw [evaluateAcquiredValue, htext]
          rfl
        rw [hvalue]
        exact ⟨rfl, (List.append_nil _).symm⟩
      | ok value =>
        have hvalue : evaluateAcquiredValue engine masker evalCtx name token =
            .ok (classify masker value) := by
          rw [evaluateAcquiredValue, htext]
          rfl
        have hclass := classify_eq hm hstar value
        by_cases hclean : Clean masker.patterns value
        · have hsecret : ¬ Secret masker.patterns value :=
            fun hsecret => not_clean_of_secret hsecret hclean
          rw [if_pos hclean] at hclass
          rw [hvalue, hclass]
          dsimp only
          rw [List.filter_cons_of_pos (by simpa using hclean),
            List.filter_cons_of_neg (by simpa using hsecret)]
          exact ih _
        · rw [if_neg hclean] at hclass
          by_cases hsecret : Secret masker.patterns value
          · rw [if_pos hsecret] at hclass
            rw [hvalue, hclass]
            dsimp only
            rw [List.filter_cons_of_neg (by simpa using hclean),
              List.filter_cons_of_pos (by simpa using hsecret)]
            obtain ⟨houtputs, hnames⟩ := ih
              { result with skippedSecretNames := result.skippedSecretNames ++ [name] }
            refine ⟨houtputs, hnames.trans ?_⟩
            rw [List.append_assoc]
            rfl
          · rw [if_neg hsecret] at hclass
            rw [hvalue, hclass]
            dsimp only
            rw [List.filter_cons_of_neg (by simpa using hclean),
              List.filter_cons_of_neg (by simpa using hsecret)]
            exact ih result

theorem ne_nil_of_mem_evaluated {entries : List (Str × TemplateToken)} {entry : Str × Str}
    (h : entry ∈ evaluated engine evalCtx entries) : entry.1 ≠ [] := by
  induction entries with
  | nil => cases h
  | cons first rest ih =>
    rw [evaluated] at h
    split at h
    case isTrue => exact ih h
    case isFalse hname =>
      split at h
      case h_1 =>
        rcases List.mem_cons.mp h with rfl | h
        · exact hname
        · exact ih h
      case h_2 => cases h

/-- No secret goes out, no name goes out twice, and what is not withheld goes out: of the entries
    before the first that fails, each name with the last of its clean values. -/
theorem acquired_outputs (calls : List Call)
    (hstar : ∀ p ∈ (SecretMasker.after calls : SecretMasker A).patterns, '*' ∉ p)
    (token : TemplateToken) (ctx : ExecutionContext) :
    let masker : SecretMasker A := SecretMasker.after calls
    let result := evaluateAcquiredOutputs order engine masker (ctx.evalContext order) token
    let entries := evaluatedEntries engine (ctx.evalContext order) token
    let accepted := entries.filter fun e => Clean masker.patterns e.2
    (∀ name value, result.outputs.lookup name = some value →
      name ≠ [] ∧ ∀ p ∈ masker.patterns, ¬ p <:+: value) ∧
    Caseless result.outputs ∧
    (∀ name value, result.outputs.lookup name = some value ↔
      (accepted.find? (named name)).map Prod.fst = some name ∧
        (accepted.reverse.find? (named name)).map Prod.snd = some value) ∧
    result.skippedSecretNames =
      (entries.filter fun e => Secret masker.patterns e.2).map Prod.fst := by
  intro masker result entries accepted
  have hrun : result.outputs =
      accepted.foldl (fun outputs e => insertOutput order outputs e.1 e.2) ∅ ∧
      result.skippedSecretNames =
        (entries.filter fun e => Secret masker.patterns e.2).map Prod.fst := by
    show (evaluateAcquiredOutputs order engine masker (ctx.evalContext order) token).outputs =
      ((evaluatedEntries engine (ctx.evalContext order) token).filter _).foldl _ ∅ ∧
      (evaluateAcquiredOutputs order engine masker (ctx.evalContext order) token).skippedSecretNames =
        ((evaluatedEntries engine (ctx.evalContext order) token).filter _).map Prod.fst
    rw [evaluateAcquiredOutputs, evaluatedEntries]
    cases mappingEntries token "jobOutputs".toList with
    | error error => exact ⟨rfl, rfl⟩
    | ok entries =>
      exact evaluateEntries_eq order engine _ (SecretMasker.sound_after calls) hstar _ entries
  obtain ⟨hcaseless, hlookup⟩ := lookup_insertOutputs order accepted
  rw [← hrun.1] at hcaseless hlookup
  refine ⟨fun name value hvalue => ?_, hcaseless, hlookup, hrun.2⟩
  obtain ⟨hfirst, hlast⟩ := (hlookup name value).mp hvalue
  obtain ⟨first, hfind, rfl⟩ := Option.map_eq_some_iff.mp hfirst
  obtain ⟨last, hfind', rfl⟩ := Option.map_eq_some_iff.mp hlast
  have hmem : first ∈ entries := List.mem_of_mem_filter (List.mem_of_find?_eq_some hfind)
  have hclean := (List.mem_filter.mp (List.mem_reverse.mp (List.mem_of_find?_eq_some hfind'))).2
  refine ⟨?_, (of_decide_eq_true hclean).2⟩
  have hnamed : first ∈ evaluatedEntries engine (ctx.evalContext order) token := hmem
  rw [evaluatedEntries] at hnamed
  cases hentries : mappingEntries token "jobOutputs".toList with
  | error error =>
    rw [hentries] at hnamed
    cases hnamed
  | ok entries =>
    rw [hentries] at hnamed
    exact ne_nil_of_mem_evaluated engine _ hnamed

/-- Three literal outputs of a job with one secret: the second is withheld, the third replaces the
    first. -/
def threeOutputs : TemplateToken :=
  mappingToken [("a".toList, "plain".toList), ("b".toList, "the hunter2".toList),
    ("A".toList, "more".toList)]

theorem acquired_outputs_three :
    let calls : List Call := [.addSecret "hunter2".toList]
    let masker : SecretMasker scanning := SecretMasker.after calls
    let result := evaluateAcquiredOutputs plainOrder propertyEngine masker
      (secretContext.evalContext plainOrder) threeOutputs
    result.outputs.lookup "a".toList = some "more".toList ∧
      result.skippedSecretNames = ["b".toList] := by
  intro calls masker result
  have hstar : ∀ p ∈ masker.patterns, '*' ∉ p := by decide
  obtain ⟨-, -, hlookup, hskipped⟩ :=
    acquired_outputs plainOrder propertyEngine calls hstar threeOutputs secretContext
  have hfixed : (((evaluatedEntries propertyEngine (secretContext.evalContext plainOrder)
        threeOutputs).filter fun e => Clean masker.patterns e.2).find? (named "a".toList)).map
          Prod.fst = some "a".toList ∧
      (((evaluatedEntries propertyEngine (secretContext.evalContext plainOrder)
        threeOutputs).filter fun e => Clean masker.patterns e.2).reverse.find?
          (named "a".toList)).map Prod.snd = some "more".toList ∧
      ((evaluatedEntries propertyEngine (secretContext.evalContext plainOrder)
        threeOutputs).filter fun e => Secret masker.patterns e.2).map Prod.fst =
          ["b".toList] := by decide
  exact ⟨(hlookup _ _).mpr ⟨hfixed.1, hfixed.2.1⟩, hskipped.trans hfixed.2.2⟩

end GhRunner.Execution
