import GhRunner.Docker.Daemon

namespace GhRunner.Docker

open Text Holdings Procedure
open GhRunner.Shared (AhoCorasick SecretMasker)

/-!
# Setting up what a job owns, and taking it down

What `services.rs` and `job_container.rs` of `crates/execution/src/docker` have in common: a setup that
puts each thing on a list before it creates it, a cleanup that goes through the list, and a start that
cleans up after a setup that failed.

* `checkCancel`, `collect`, `removalError`, `reportErrors`, `startOwned` — the common parts;
* `Tracks`, `Orderly` — what is created is on the list; nothing is created or started once the
  cancellation is seen;
* `Setup`, `setup_tracks`, `setup_orderly`, `setup_creates` — a relation that holds of each kind of
  step, and three of them;
* `Cleans` — the removals a cleanup asks for, and that they succeeded if it has no error;
* `startOwned_outcome`, `startOwned_mutations`, `startOwned_gives` — what any such start leaves, asks
  for and gives.
-/

section Source

variable {A : AhoCorasick} (masker : SecretMasker A) {σ : Type}

def checkCancel (message : String) : DockerTask σ Unit := do
  if ← isCancelled then throw (.docker message.toList)

/-- The pull of an image.  The token stays cancelled, so what is asked of it once more has the error of
    `checkCancel`. -/
def pullImage (message operation : String) (image : Str) (credentials : Option ContainerCredentials) :
    DockerTask σ Unit := do
  let progress ← createImage image credentials
  match readPull masker operation progress with
  | .finished => pure ()
  | .cancelled => throw (.docker message.toList)
  | .failed e => throw e

/-- The errors of a cleanup so far. -/
abbrev CleanupTask := DockerTask (List Str) Unit

def collect (result : Except RunnerError Unit) : CleanupTask :=
  match result with
  | .ok () => pure ()
  | .error e => modify (· ++ [e.display])

/-- The error of a removal, unless the thing is not there. -/
def removalError (operation : String) : Except DaemonError Unit → Except RunnerError Unit
  | .ok () => .ok ()
  | .error e => if isMissing e then .ok () else .error (ContainerCommand.error masker operation e.text)

/-- A cleanup, with all its errors in one. -/
def reportErrors (t : CleanupTask) : DockerTask σ (Except RunnerError Unit) := do
  let (_, errors) ← within [] t
  if errors = [] then pure (.ok ())
  else pure (.error (.docker (List.intercalate "; ".toList errors)))

/-- The setup, and what is done when it fails. -/
def startOwned {τ : Type} (failure : String) (setup : DockerTask τ Unit)
    (cleanup : τ → DockerTask σ (Except RunnerError Unit)) (owned : τ) : DockerTask σ (Option τ) := do
  let (result, owned) ← within owned setup
  match result with
  | .ok () => pure (some owned)
  | .error error =>
    match ← cleanup owned with
    | .error failed => throw (.docker (error.display ++ failure.toList ++ failed.display))
    | .ok () => if ← isCancelled then pure none else throw error

end Source

/-! ### Setup -/

section Setup

variable {σ : Type} {resources : σ → List Resource} {bodies : CreateBody → Prop}
  {rel : σ → Log → Bool → σ → Prop}

/-- What is created is owned; nothing is removed, and nothing is disowned. -/
structure Tracks (resources : σ → List Resource) (s : σ) (log : Log) (s' : σ) : Prop where
  subset : resources s ⊆ resources s'
  created : ∀ r, Acquires created log r → r ∈ resources s'
  removals : removals log = []

theorem tracks_update {s s' : σ} (h : resources s ⊆ resources s') : Tracks resources s [] s' :=
  ⟨h, fun _ h => absurd h not_acquires_nil, rfl⟩

theorem Tracks.trans {s s' s'' : σ} {log log' : Log} (h : Tracks resources s log s')
    (h' : Tracks resources s' log' s'') : Tracks resources s (log ++ log') s'' := by
  refine ⟨List.Subset.trans h.subset h'.subset, fun r hr => ?_, by
    rw [removals_append, h.removals, h'.removals]; rfl⟩
  rcases acquires_append.mp hr with hr | hr
  · exact h'.subset (h.created r hr)
  · exact h'.created r hr

/-- A request that neither removes anything nor creates what is not owned. -/
theorem tracks_ask {s : σ} {e : Exchange Reply} (hcreated : ∀ r, created e = some r → r ∈ resources s)
    (hremoval : removal e = none) : Tracks resources s [e] s := by
  refine ⟨List.Subset.refl _, ?_, by simp [removals, hremoval]⟩
  rintro r ⟨f, hf, hr⟩
  exact hcreated r (List.mem_singleton.mp hf ▸ hr)

/-- A relation that holds of each kind of step of a setup, which creates containers of these bodies
    only. -/
structure Setup (resources : σ → List Resource) (bodies : CreateBody → Prop)
    (rel : σ → Log → Bool → σ → Prop) : Prop extends Chained rel where
  quiet : ∀ s e, mutates e.1 = false → removal e = none → sawCancel e = false → rel s [e] true s
  cancelled : ∀ s e, sawCancel e = true → rel s [e] false s
  /-- What is created is on the list already. -/
  mutation : ∀ s e, mutates e.1 = true → (∀ r, created e = some r → r ∈ resources s) →
    (∀ name body, e.1 = .createContainer name body → bodies body) → rel s [e] true s
  update : ∀ s s', resources s ⊆ resources s' → rel s [] true s'

theorem quiet_of_sawCancel {e : Exchange Reply} (h : sawCancel e = true) :
    mutates e.1 = false ∧ removal e = none := by
  obtain ⟨q, reply⟩ := e
  cases q
  case isCancelled | createImage | inspectHealth | sleep => exact ⟨rfl, rfl⟩
  all_goals cases h

theorem quiet_of_mutates {e : Exchange Reply} (h : mutates e.1 = true) :
    sawCancel e = false ∧ removal e = none := by
  obtain ⟨q, reply⟩ := e
  cases q
  case createNetwork | createContainer | startContainer => exact ⟨rfl, rfl⟩
  all_goals cases h

theorem setup_tracks (resources : σ → List Resource) :
    Setup resources bodies fun s log _ s' => Tracks resources s log s' where
  done _ := tracks_update (List.Subset.refl _)
  fail _ := tracks_update (List.Subset.refl _)
  trans := Tracks.trans
  quiet s e hquiet hremoval _ := by
    have hnone : Quiet [e] := List.forall_mem_singleton.mpr hquiet
    exact tracks_ask (fun r hr => absurd ⟨e, List.mem_singleton_self e, hr⟩ (hnone.not_created r))
      hremoval
  cancelled s e hsaw := by
    obtain ⟨hquiet, hremoval⟩ := quiet_of_sawCancel hsaw
    have hnone : Quiet [e] := List.forall_mem_singleton.mpr hquiet
    exact tracks_ask (fun r hr => absurd ⟨e, List.mem_singleton_self e, hr⟩ (hnone.not_created r))
      hremoval
  mutation s e hmutates hcreated _ := tracks_ask hcreated (quiet_of_mutates hmutates).2
  update _ _ := tracks_update

theorem setup_orderly (resources : σ → List Resource) :
    Setup resources bodies fun _ log ok _ => Orderly log ∧ (ok = true → Calm log) where
  done _ := ⟨quiet_nil.orderly, fun _ => List.forall_mem_nil _⟩
  fail _ := ⟨quiet_nil.orderly, fun _ => List.forall_mem_nil _⟩
  trans h h' := ⟨orderly_append (h.2 rfl) h'.1, fun hok => calm_append (h.2 rfl) (h'.2 hok)⟩
  quiet _ _ hquiet _ hcalm :=
    ⟨Quiet.orderly (List.forall_mem_singleton.mpr hquiet), fun _ => List.forall_mem_singleton.mpr hcalm⟩
  cancelled _ _ hsaw :=
    ⟨Quiet.orderly (List.forall_mem_singleton.mpr (quiet_of_sawCancel hsaw).1), nofun⟩
  mutation _ e hmutates _ _ := by
    have hcalm : Calm [e] := List.forall_mem_singleton.mpr (quiet_of_mutates hmutates).1
    exact ⟨orderly_of_calm hcalm, fun _ => hcalm⟩
  update _ _ _ := ⟨quiet_nil.orderly, fun _ => List.forall_mem_nil _⟩

theorem Setup.createNetwork (h : Setup resources bodies rel) {s : σ} {name : Str}
    (hmem : .network name ∈ resources s) (reply : Except DaemonError Unit) :
    rel s [⟨.createNetwork name, reply⟩] true s := by
  refine h.mutation s _ rfl (fun r hr => ?_) fun _ _ h => by cases h
  obtain rfl := Option.some.inj hr
  exact hmem

theorem Setup.createContainer (h : Setup resources bodies rel) {s : σ} {name : Str} {body : CreateBody}
    (hmem : .container name ∈ resources s) (hbody : bodies body) (reply : Except DaemonError Str) :
    rel s [⟨.createContainer name body, reply⟩] true s := by
  refine h.mutation s _ rfl (fun r hr => ?_) fun _ _ h => by cases h; exact hbody
  obtain rfl := Option.some.inj hr
  exact hmem

theorem Setup.startContainer (h : Setup resources bodies rel) (s : σ) (id : Str)
    (reply : Except DaemonError Unit) : rel s [⟨.startContainer id, reply⟩] true s := by
  refine h.mutation s _ rfl (fun r hr => ?_) fun _ _ h => by cases h
  cases hr

@[simp] theorem ensures_checkCancel {message : String} {s : σ}
    {post : Log → Except RunnerError Unit → σ → Prop} :
    (checkCancel message).Ensures s post ↔ post [⟨.isCancelled, false⟩] (.ok ()) s ∧
      post [⟨.isCancelled, true⟩] (.error (.docker message.toList)) s := by
  rw [checkCancel, ensures_bind, ensures_ask]
  constructor
  · intro h
    exact ⟨h false, h true⟩
  · rintro ⟨hgo, hstop⟩ cancelled
    cases cancelled with
    | false => exact hgo
    | true => exact hstop

theorem Setup.checkCancel (h : Setup resources bodies rel) (message : String) :
    Keeps rel (checkCancel message) := fun s =>
  ensures_checkCancel.mpr ⟨h.quiet s _ rfl rfl rfl, h.cancelled s _ rfl⟩

theorem Setup.pullImage {A : AhoCorasick} {masker : SecretMasker A} (h : Setup resources bodies rel)
    (message operation : String) (image : Str) (credentials : Option ContainerCredentials) :
    Keeps rel (pullImage masker message operation image credentials) := by
  intro s
  rw [Docker.pullImage, ensures_bind, ensures_ask]
  intro progress
  cases hend : readPull masker operation progress with
  | finished | failed =>
    have hcalm : sawCancel ⟨.createImage image credentials, progress⟩ = false := by
      rw [← Bool.not_eq_true]
      intro hsaw
      rw [readPull_eq_cancelled_iff.mpr hsaw] at hend
      cases hend
    have hquiet := h.quiet s _ rfl rfl hcalm
    simp only [after_ok, hend]
    first
      | exact hquiet
      | exact h.trans hquiet (h.fail s)
  | cancelled =>
    simp only [after_ok, hend]
    exact h.cancelled s _ (readPull_eq_cancelled_iff.mp hend)

end Setup

/-! ### Cleanup -/

/-- The task asks for these removals in this order and does nothing else to the daemon; when it adds
    no error, the things are gone. -/
def Cleans (t : CleanupTask) (rs : List Resource) : Prop :=
  ∀ errors, t.Ensures errors fun log r errors' =>
    r = .ok () ∧ Quiet log ∧ removals log = rs ∧
      (errors' = [] → errors = [] ∧ ∀ x ∈ rs, Releases removed log x)

/-- The same of a whole cleanup, by its result. -/
def Removes {σ : Type} (t : DockerTask σ (Except RunnerError Unit)) (rs : List Resource) : Prop :=
  ∀ s, t.Ensures s fun log r s' => s' = s ∧ Quiet log ∧ removals log = rs ∧
    ∃ result, r = .ok result ∧ (result = .ok () → ∀ x ∈ rs, Releases removed log x)

section Cleanup

variable {A : AhoCorasick} {masker : SecretMasker A}

theorem cleans_pure : Cleans (pure ()) [] := fun _ =>
  ⟨rfl, quiet_nil, rfl, fun h => ⟨h, List.forall_mem_nil _⟩⟩

theorem Cleans.then {t u : CleanupTask} {rs rs' : List Resource} (ht : Cleans t rs)
    (hu : Cleans u rs') : Cleans (t >>= fun _ => u) (rs ++ rs') := by
  intro errors
  apply (ht errors).then
  · rintro log e errors' ⟨h, -⟩
    cases h
  · rintro log _ errors' ⟨-, hquiet, hremovals, hgone⟩
    apply (hu errors').mono
    rintro log' r errors'' ⟨hr, hquiet', hremovals', hgone'⟩
    refine ⟨hr, hquiet.append hquiet', by rw [removals_append, hremovals, hremovals'], ?_⟩
    intro hnone
    obtain ⟨hmid, hlast⟩ := hgone' hnone
    obtain ⟨hfirst, hbefore⟩ := hgone hmid
    refine ⟨hfirst, List.forall_mem_append.mpr ⟨fun x hx => ?_, fun x hx => ?_⟩⟩
    · exact releases_append.mpr (.inl (hbefore x hx))
    · exact releases_append.mpr (.inr (hlast x hx))

theorem cleans_forEach {α : Type} {f : α → CleanupTask} {g : α → Resource}
    (h : ∀ a, Cleans (f a) [g a]) (as : List α) : Cleans (forEach f as) (as.map g) := by
  induction as with
  | nil => exact cleans_pure
  | cons a as ih => exact (h a).then ih

theorem cleans_collect (result : Except RunnerError Unit) : Cleans (collect result) [] := by
  cases result with
  | ok => exact cleans_pure
  | error e => exact fun _ => ⟨rfl, quiet_nil, rfl, fun h => absurd h (by simp)⟩

/-- A removal and its error, for a container or a network. -/
theorem cleans_removal {e : Except DaemonError Unit → Exchange Reply} {x : Resource}
    (hmutates : ∀ reply, mutates (e reply).1 = false) (hremoval : ∀ reply, removal (e reply) = some x)
    (hremoved : ∀ reply, removed (e reply) = if gone reply then some x else none)
    (operation : String) (errors : List Str) (reply : Except DaemonError Unit) :
    (collect (removalError masker operation reply)).Ensures errors fun log r errors' =>
      r = .ok () ∧ Quiet (e reply :: log) ∧ removals (e reply :: log) = [x] ∧
        (errors' = [] → errors = [] ∧ ∀ y ∈ [x], Releases removed (e reply :: log) y) := by
  have hfirst : removals [e reply] = [x] := by simp [removals, hremoval]
  cases hresult : removalError masker operation reply with
  | ok =>
    refine ⟨rfl, List.forall_mem_singleton.mpr (hmutates reply), hfirst, fun h => ⟨h, ?_⟩⟩
    rw [List.forall_mem_singleton]
    refine ⟨e reply, List.mem_singleton_self _, ?_⟩
    have hgone : gone reply = true := by
      cases reply with
      | ok => rfl
      | error e =>
        rw [gone]
        by_contra hmissing
        simp [removalError, hmissing] at hresult
    rw [hremoved, if_pos hgone]
  | error e =>
    exact ⟨rfl, List.forall_mem_singleton.mpr (hmutates reply), hfirst, fun h => absurd h (by simp)⟩

theorem cleans_removeContainer (operation : String) (name : Str) :
    Cleans (do
      let removal ← removeContainer name
      collect (removalError masker operation removal)) [.container name] := by
  intro errors
  refine ensures_ask_bind (Request.removeContainer name) fun reply => ?_
  exact @cleans_removal A masker (fun reply => ⟨.removeContainer name, reply⟩) (.container name)
    (fun _ => rfl) (fun _ => rfl) (fun _ => rfl) operation errors reply

theorem cleans_removeNetwork (operation : String) (name : Str) :
    Cleans (do
      let removal ← removeNetwork name
      collect (removalError masker operation removal)) [.network name] := by
  intro errors
  refine ensures_ask_bind (Request.removeNetwork name) fun reply => ?_
  exact @cleans_removal A masker (fun reply => ⟨.removeNetwork name, reply⟩) (.network name)
    (fun _ => rfl) (fun _ => rfl) (fun _ => rfl) operation errors reply

theorem Cleans.removes {σ : Type} {t : CleanupTask} {rs : List Resource} (h : Cleans t rs) :
    Removes (reportErrors t : DockerTask σ _) rs := by
  intro s
  rw [reportErrors, ensures_bind, ensures_within]
  apply (h []).mono
  rintro log r errors ⟨-, hquiet, hremovals, hgone⟩
  rw [after_ok]
  simp only []
  split
  case isTrue hnone =>
    refine ⟨rfl, by simpa using hquiet, by simpa using hremovals, _, rfl, fun _ => ?_⟩
    rw [List.append_nil]
    exact (hgone hnone).2
  case isFalse => exact ⟨rfl, by simpa using hquiet, by simpa using hremovals, _, rfl, nofun⟩

end Cleanup

/-! ### Starting -/

/-- The removal of the thing is asked for, and it is not created again. -/
def Dismissed (log : Log) (x : Resource) : Prop :=
  ∃ before after, log = before ++ after ∧ Quiet after ∧ x ∈ removals after

section Logs

variable {log log' : Log}

theorem Dismissed.append {x : Resource} (h : Dismissed log x) (hquiet : Quiet log') :
    Dismissed (log ++ log') x := by
  obtain ⟨before, after, rfl, hafter, hx⟩ := h
  refine ⟨before, after ++ log', (List.append_assoc _ _ _).symm ▸ rfl, hafter.append hquiet, ?_⟩
  rw [removals_append, List.mem_append]
  exact .inl hx

theorem Dismissed.after {x : Resource} (h : Dismissed log' x) : Dismissed (log ++ log') x := by
  obtain ⟨before, after, rfl, hafter, hx⟩ := h
  exact ⟨log ++ before, after, (List.append_assoc _ _ _).symm ▸ rfl, hafter, hx⟩

theorem dismissed_of_removals {x : Resource} (hquiet : Quiet log') (hx : x ∈ removals log') :
    Dismissed (log ++ log') x := ⟨log, log', rfl, hquiet, hx⟩

/-- What is owned before the services and after them is all that is created. -/
theorem settled_append {owned : List Resource} {log₁ log₂ log₃ : Log}
    (hcreated : ∀ x, Acquires created log₁ x → x ∈ owned)
    (hdismissed : ∀ x, Acquires created log₂ x → Dismissed log₂ x)
    (hquiet : Quiet log₃) (hremovals : owned ⊆ removals log₃) :
    ∀ x, Acquires created (log₁ ++ (log₂ ++ log₃)) x → Dismissed (log₁ ++ (log₂ ++ log₃)) x := by
  intro x hx
  rcases acquires_append.mp hx with hx | hx
  · rw [← List.append_assoc]
    exact dismissed_of_removals hquiet (hremovals (hcreated x hx))
  · rcases acquires_append.mp hx with hx | hx
    · exact ((hdismissed x hx).append hquiet).after
    · exact absurd hx (hquiet.not_created x)

theorem not_left_append {owned : List Resource} {log₁ log₂ log₃ : Log}
    (hcreated : ∀ x, Acquires created log₁ x → x ∈ owned) (hnone : ∀ x, ¬ Left log₂ x)
    (hquiet : Quiet log₃) (hgone : ∀ x ∈ owned, Releases removed log₃ x) :
    ∀ x, ¬ Left (log₁ ++ (log₂ ++ log₃)) x := by
  intro x hleft
  rcases held_append.mp hleft with ⟨hheld, hkept⟩ | hheld
  · exact hkept (releases_append.mpr (.inr (hgone x (hcreated x (acquires_of_held hheld)))))
  · exact hnone x (held_append_of_not_acquires (hquiet.not_created x) |>.mp hheld).1

end Logs

/-- The error names a failure of the cleanup. -/
def Reports (failure : String) (e : RunnerError) : Prop :=
  ∃ first second, e = .docker (first ++ failure.toList ++ second)

/-- What a start has left: what it returns owns all of it, or all of it was asked to be removed, and
    nothing is left unless the error says that the cleanup failed. -/
def Outcome {τ : Type} (failure : String) (resources : τ → List Resource) (log : Log) :
    Except RunnerError (Option τ) → Prop
  | .ok (some owned) =>
    Calm log ∧ removals log = [] ∧ ∀ x, Acquires created log x → x ∈ resources owned
  | .ok none => (∀ x, Acquires created log x → Dismissed log x) ∧ ∀ x, ¬ Left log x
  | .error e => (∀ x, Acquires created log x → Dismissed log x) ∧
    ((∀ x, ¬ Left log x) ∨ Reports failure e)

section Starting

variable {σ τ : Type} {resources : τ → List Resource} {failure : String}

/-- A start whose setup keeps to the rules, with a cleanup that goes through the list, keeps to them
    whatever happens. -/
theorem startOwned_outcome {setup : DockerTask τ Unit}
    {cleanup : τ → DockerTask σ (Except RunnerError Unit)} {owned : τ}
    (htracks : setup.Ensures owned fun log _ owned' => Tracks resources owned log owned')
    (horderly : setup.Ensures owned fun log r _ => Orderly log ∧ (r.isOk = true → Calm log))
    (hcleanup : ∀ owned, ∃ rs, Removes (cleanup owned) rs ∧ ∀ x, x ∈ rs ↔ x ∈ resources owned) (s : σ) :
    (startOwned failure setup cleanup owned).Ensures s fun log r _ =>
      Outcome failure resources log r ∧ Orderly log := by
  rw [startOwned, ensures_bind, ensures_within]
  apply (ensures_and.mpr ⟨htracks, horderly⟩).mono
  rintro log (error | _) owned' ⟨htracks, horderly, hcalm⟩
  · rw [after_ok]
    simp only []
    obtain ⟨rs, hremoves, hmem⟩ := hcleanup owned'
    apply (hremoves s).then
    · rintro log' e s' ⟨-, -, -, result, h, -⟩
      cases h
    · rintro log' result s' ⟨rfl, hquiet, rfl, _, ⟨⟩, hgone⟩
      -- what was created is on the list, and the list is gone through
      have hlisted : ∀ x, Acquires created log x → x ∈ removals log' :=
        fun x hx => (hmem x).mpr (htracks.created x hx)
      have hdismissed : ∀ log'', Quiet log'' → ∀ x, Acquires created (log ++ (log' ++ log'')) x →
          Dismissed (log ++ (log' ++ log'')) x := by
        intro log'' hquiet'' x hx
        have hafter := hquiet.append hquiet''
        rcases acquires_append.mp hx with hx | hx
        · refine ⟨log, log' ++ log'', rfl, hafter, ?_⟩
          rw [removals_append, List.mem_append]
          exact .inl (hlisted x hx)
        · exact absurd hx (hafter.not_created x)
      have hnone : result = .ok () → ∀ log'', Quiet log'' → ∀ x, ¬ Left (log ++ (log' ++ log'')) x := by
        intro hok log'' hquiet'' x hleft
        obtain ⟨hheld, hkept⟩ := (held_append_of_not_acquires
          ((hquiet.append hquiet'').not_created x)).mp hleft
        exact hkept (releases_append.mpr (.inl (hgone hok x (hlisted x (acquires_of_held hheld)))))
      cases result with
      | error failed =>
        rw [ensures_throw]
        exact ⟨⟨hdismissed [] quiet_nil, .inr ⟨error.display, failed.display, rfl⟩⟩,
          horderly.append_quiet (hquiet.append quiet_nil)⟩
      | ok =>
        refine ensures_ask_bind Request.isCancelled fun cancelled => ?_
        have hasked : Quiet [⟨.isCancelled, cancelled⟩] := List.forall_mem_singleton.mpr rfl
        have horder := horderly.append_quiet (hquiet.append hasked)
        cases cancelled with
        | true => exact ⟨⟨hdismissed _ hasked, hnone rfl _ hasked⟩, horder⟩
        | false => exact ⟨⟨hdismissed _ hasked, .inl (hnone rfl _ hasked)⟩, horder⟩
  · rw [after_ok]
    simp only [ensures_pure, List.append_nil]
    exact ⟨⟨hcalm rfl, htracks.removals, htracks.created⟩, horderly⟩

/-- What is asked before the setup does not matter. -/
theorem outcome_cons {log : Log} {e : Exchange Reply} (hquiet : mutates e.1 = false)
    (hremoval : removal e = none) (hcalm : sawCancel e = false) {r : Except RunnerError (Option τ)}
    (h : Outcome failure resources log r ∧ Orderly log) :
    Outcome failure resources (e :: log) r ∧ Orderly (e :: log) := by
  obtain ⟨houtcome, horderly⟩ := h
  have hfirst : Quiet [e] := List.forall_mem_singleton.mpr hquiet
  have hfirst' : Calm [e] := List.forall_mem_singleton.mpr hcalm
  have hcreated : ∀ x, Acquires created (e :: log) x → Acquires created log x := by
    intro x hx
    exact (acquires_cons.mp hx).resolve_left fun hx =>
      hfirst.not_created x ⟨e, List.mem_singleton_self e, hx⟩
  have hleft : ∀ x, Left (e :: log) x → Left log x := by
    intro x hx
    exact (held_cons.mp hx).resolve_left fun ⟨hx, _⟩ =>
      hfirst.not_created x ⟨e, List.mem_singleton_self e, hx⟩
  have hdismissed : (∀ x, Acquires created log x → Dismissed log x) →
      ∀ x, Acquires created (e :: log) x → Dismissed (e :: log) x := by
    intro h x hx
    obtain ⟨before, after, rfl, hafter⟩ := h x (hcreated x hx)
    exact ⟨e :: before, after, rfl, hafter⟩
  refine ⟨?_, orderly_append hfirst' horderly⟩
  match r with
  | .ok (some owned) =>
    obtain ⟨hcalm, hnone, howned⟩ := houtcome
    exact ⟨calm_append hfirst' hcalm, by rw [removals, List.filterMap_cons_none hremoval]; exact hnone,
      fun x hx => howned x (hcreated x hx)⟩
  | .ok none => exact ⟨hdismissed houtcome.1, fun x hx => houtcome.2 x (hleft x hx)⟩
  | .error _ =>
    exact ⟨hdismissed houtcome.1, houtcome.2.imp_left fun hnone x hx => hnone x (hleft x hx)⟩

/-- A start that ends before the setup. -/
theorem outcome_of_quiet {log : Log} (h : Quiet log) :
    (Outcome failure resources log (.ok none) ∧ Orderly log) ∧
      ∀ e, Outcome failure resources log (.error e) ∧ Orderly log :=
  have hdismissed : ∀ x, Acquires created log x → Dismissed log x :=
    fun x hx => absurd hx (h.not_created x)
  ⟨⟨⟨hdismissed, h.not_left⟩, h.orderly⟩, fun _ => ⟨⟨hdismissed, .inl h.not_left⟩, h.orderly⟩⟩

end Starting

end GhRunner.Docker
