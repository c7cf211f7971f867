import GhRunner.Docker.JobContainer
import GhRunner.Docker.ServiceStart

namespace GhRunner.Execution

open Text Holdings Procedure
open GhRunner.Docker
open GhRunner.Shared (AhoCorasick SecretMasker)

/-!
# The containers of a job, from first to last

`crates/execution/src/execution/container_job.rs`, with the part of `job_runner/entry.rs` that stands
around the steps.

* `startContainer`, `finishContainer` — as the source has them;
* `lifetime` — a job with its containers: they are started, its body ends in some way, they are removed;
* `finishContainer_removes` — the order of the removals, and which error is reported;
* `lifetime_settles` — whatever the daemon replies, whenever the job is cancelled and however its body
  ends, all that was created was asked to be removed, and a job that has left anything has failed.
-/

/-- The job container and the services of an `ExecutionContext`. -/
structure OwnedContainers where
  jobContainer : Option Docker.JobContainer
  services : Option ServiceContainers

namespace OwnedContainers

def none : OwnedContainers := ⟨.none, .none⟩

/-- In the order in which they are removed. -/
def resources (owned : OwnedContainers) : List Resource :=
  (owned.services.map fun services => services.resources.reverse).getD [] ++
    (owned.jobContainer.map Docker.JobContainer.resources).getD []

end OwnedContainers

section Source

variable {A : AhoCorasick} (masker : SecretMasker A)

def cleanupServices {σ : Type} (owned : OwnedContainers) : DockerTask σ (Except RunnerError Unit) :=
  match owned.services with
  | some services => services.cleanup masker
  | none => pure (.ok ())

def cleanupContainer {σ : Type} (owned : OwnedContainers) : DockerTask σ (Except RunnerError Unit) :=
  match owned.jobContainer with
  | some container => container.cleanup masker
  | none => pure (.ok ())

/-- The errors of both cleanups. -/
def joinCleanups : Except RunnerError Unit → Except RunnerError Unit → Except RunnerError Unit
  | .ok (), result => result
  | result, .ok () => result
  | .error service, .error container =>
    .error (.docker (service.display ++ "; ".toList ++ container.display))

/-- The result of the body; its error stands before that of the cleanup. -/
def joinBody {α : Type} : Except RunnerError α → Except RunnerError Unit → Except RunnerError α
  | .ok result, .ok () => .ok result
  | .error error, .ok () => .error error
  | .ok _, .error error => .error error
  | .error error, .error cleanup =>
    .error (.docker (error.display ++ "; container cleanup also failed: ".toList ++ cleanup.display))

/-- Remove owned resources before reporting completion, preserving primary errors. -/
def finishContainer {α : Type} (body : Except RunnerError α) : DockerTask OwnedContainers α := do
  let owned ← get
  let services ← cleanupServices masker owned
  let container ← cleanupContainer masker owned
  lift (joinBody body (joinCleanups services container))

/-- The services of a job, once its container is there; `later` is the masker as it stands then. -/
def startServices (later : SecretMasker A) (services : List ServiceSpec) :
    DockerTask OwnedContainers Bool := do
  let owned ← get
  let (result, _) ← within () (ServiceContainers.start masker services
    (owned.jobContainer.map Docker.JobContainer.network))
  match result with
  | .ok (some services) => do
    modify fun owned => { owned with services := some services }
    pure true
  | .ok none => do
    lift (← cleanupContainer later owned)
    pure false
  | .error error => do
    let _ ← finishContainer later (.error error : Except RunnerError Unit)
    pure false

/-- Attach one container for main/post steps; return false on clean cancellation. -/
def startContainer (later : SecretMasker A) (system : MountHost) (config : RunnerConfig)
    (workspace : Str) (ciVar : Option Str) (spec : Option ContainerSpec) (services : List ServiceSpec) :
    DockerTask OwnedContainers Bool := do
  match spec with
  | some spec =>
    let (result, _) ← within () (Docker.JobContainer.start masker system config workspace ciVar spec)
    match ← lift result with
    | none => pure false
    | some container =>
      modify fun owned => { owned with jobContainer := some container }
      if services = [] then pure true
      else startServices (registerCredentials spec.credentials masker) later services
  | none => if services = [] then pure true else startServices masker later services

/-- A job with its containers: `start_job_container`, a body that ends in some way, and
    `finish_execution`.  There is no result where the start was cancelled. -/
def lifetime {α : Type} (later last : SecretMasker A) (system : MountHost) (config : RunnerConfig)
    (workspace : Str) (ciVar : Option Str) (spec : Option ContainerSpec) (services : List ServiceSpec)
    (body : Except RunnerError α) : DockerTask OwnedContainers (Option α) := do
  if ← startContainer masker later system config workspace ciVar spec services then do
    let result ← finishContainer last body
    pure (some result)
  else pure none

end Source

/-! ### The end of a job -/

section Finish

variable {A : AhoCorasick} {masker : SecretMasker A} {σ : Type}

theorem removes_pure : Removes (pure (.ok ()) : DockerTask σ _) [] := fun _ =>
  ⟨rfl, quiet_nil, rfl, _, rfl, fun _ => List.forall_mem_nil _⟩

theorem cleanupServices_removes (owned : OwnedContainers) :
    Removes (cleanupServices masker owned : DockerTask σ _)
      ((owned.services.map fun services => services.resources.reverse).getD []) := by
  rw [cleanupServices]
  cases owned.services with
  | some services => exact services.cleanup_removes
  | none => exact removes_pure

theorem cleanupContainer_removes (owned : OwnedContainers) :
    Removes (cleanupContainer masker owned : DockerTask σ _)
      ((owned.jobContainer.map Docker.JobContainer.resources).getD []) := by
  rw [cleanupContainer]
  cases owned.jobContainer with
  | some container => exact container.cleanup_removes
  | none => exact removes_pure

/-- A job that has left something of its own ends in an error, which names that of its body. -/
theorem joinBody_error {α : Type} (body : Except RunnerError α) (cleanup : RunnerError) :
    ∃ e, joinBody body (.error cleanup) = .error e ∧ ∀ e', body = .error e' → e'.display <:+: e.display := by
  cases body with
  | ok result => exact ⟨cleanup, rfl, fun _ h => by cases h⟩
  | error error =>
    refine ⟨_, rfl, ?_⟩
    rintro _ ⟨⟩
    rw [List.append_assoc]
    exact ⟨"docker error: ".toList, _, by rw [List.append_assoc]; rfl⟩

theorem joinBody_ok {α : Type} (body : Except RunnerError α) : joinBody body (.ok ()) = body := by
  cases body <;> rfl

/-- The end of a job asks for each removal, the services' before the container's and the network's; and
    it returns what the body did, with all of it gone, or an error that names that of the body. -/
structure Finished {α : Type} (owned : OwnedContainers) (body : Except RunnerError α) (log : Log)
    (r : Except RunnerError α) : Prop where
  quiet : Quiet log
  removals : removals log = owned.resources
  result : (r = body ∧ ∀ x ∈ owned.resources, Releases removed log x) ∨
    ∃ e, r = .error e ∧ ∀ e', body = .error e' → e'.display <:+: e.display

theorem finishContainer_finishes {α : Type} (body : Except RunnerError α) (owned : OwnedContainers) :
    (finishContainer masker body).Ensures owned fun log r owned' =>
      owned' = owned ∧ Finished owned body log r := by
  rw [finishContainer, ensures_bind, ensures_get, after_ok]
  apply (cleanupServices_removes owned owned).then
  · rintro log e owned' ⟨-, -, -, _, h, -⟩
    cases h
  rintro log services owned' ⟨rfl, hquiet, hremovals, _, ⟨⟩, hgone⟩
  apply (cleanupContainer_removes owned' owned').then
  · rintro log e owned' ⟨-, -, -, _, h, -⟩
    cases h
  rintro log' container owned'' ⟨rfl, hquiet', hremovals', _, ⟨⟩, hgone'⟩
  have hall : removals (log ++ (log' ++ [])) = owned''.resources := by
    rw [List.append_nil, removals_append, hremovals, hremovals']
    rfl
  have hquieted : Quiet (log ++ (log' ++ [])) := hquiet.append (hquiet'.append quiet_nil)
  refine ⟨rfl, hquieted, hall, ?_⟩
  cases services with
  | error service => cases container with
    | ok => exact .inr (joinBody_error body service)
    | error container => exact .inr (joinBody_error body _)
  | ok => cases container with
    | error container => exact .inr (joinBody_error body container)
    | ok =>
      have hreleases : ∀ x ∈ owned''.resources, Releases removed (log ++ log') x :=
        List.forall_mem_append.mpr ⟨fun x hx => releases_append.mpr (.inl (hgone rfl x hx)),
          fun x hx => releases_append.mpr (.inr (hgone' rfl x hx))⟩
      exact .inl ⟨joinBody_ok body, by simpa using hreleases⟩

end Finish

/-! ### The whole of it -/

/-- What the start of the containers has left. -/
def StartOutcome (log : Log) (owned : OwnedContainers) : Except RunnerError Bool → Prop
  | .ok true => removals log = [] ∧ ∀ x, Acquires created log x → x ∈ owned.resources
  | .ok false => (∀ x, Acquires created log x → Dismissed log x) ∧ ∀ x, ¬ Left log x
  | .error _ => ∀ x, Acquires created log x → Dismissed log x

section Lifetime

variable {A : AhoCorasick} {masker later last : SecretMasker A}

/-- What follows the start of the container, or of none. -/
theorem startServices_outcome (services : List ServiceSpec) {owned : OwnedContainers}
    (hservices : owned.services = none) {past : Log} (hcalm : Calm past) (hremovals : removals past = [])
    (hcreated : ∀ x, Acquires created past x → x ∈ owned.resources) :
    (startServices masker later services).Ensures owned fun log r owned' =>
      StartOutcome (past ++ log) owned' r ∧ Orderly (past ++ log) := by
  have hresources : owned.resources = (owned.jobContainer.map Docker.JobContainer.resources).getD [] := by
    rw [OwnedContainers.resources, hservices]
    rfl
  rw [startServices, ensures_bind, ensures_get, after_ok, ensures_bind, ensures_within]
  apply (ServiceContainers.start_outcome services _ ()).mono
  rintro log (error | (_ | group)) _ ⟨houtcome, horderly⟩
  · -- the services have failed, and what was there before them is removed
    rw [after_ok]
    apply (finishContainer_finishes _ owned).then
    · rintro log' e owned' ⟨-, hquiet, hall, -⟩
      have hdismissed : ∀ x, Acquires created (past ++ (log ++ log')) x →
          Dismissed (past ++ (log ++ log')) x :=
        settled_append hcreated houtcome.1 hquiet (by rw [hall]; exact List.Subset.refl _)
      exact ⟨hdismissed, orderly_append hcalm (horderly.append_quiet hquiet)⟩
    · rintro log' _ owned' ⟨-, -, -, ⟨h, -⟩ | ⟨e, h, -⟩⟩
      · cases h
      · cases h
  · -- the services were cancelled, and have left nothing
    rw [after_ok]
    apply (cleanupContainer_removes owned owned).then
    · rintro log' e owned' ⟨-, -, -, _, h, -⟩
      cases h
    rintro log' result owned' ⟨rfl, hquiet, hall, _, ⟨⟩, hgone⟩
    rw [← hresources] at hall hgone
    have hdismissed : ∀ x, Acquires created (past ++ (log ++ log')) x →
        Dismissed (past ++ (log ++ log')) x :=
      settled_append hcreated houtcome.1 hquiet (by rw [hall]; exact List.Subset.refl _)
    have horder : Orderly (past ++ (log ++ log')) := orderly_append hcalm (horderly.append_quiet hquiet)
    rw [ensures_bind, ensures_lift]
    cases result with
    | error e =>
      simp only [after_error, List.nil_append, List.append_nil]
      exact ⟨hdismissed, horder⟩
    | ok =>
      simp only [after_ok, ensures_pure, List.append_nil]
      have hnone : ∀ x, ¬ Left (past ++ (log ++ log')) x :=
        not_left_append hcreated houtcome.2 hquiet (hgone rfl)
      exact ⟨⟨hdismissed, hnone⟩, horder⟩
  · -- all of it is there
    obtain ⟨-, hremovals', hcreated'⟩ := houtcome
    simp only [List.nil_append, after_ok, ensures_bind, ensures_modify, ensures_pure, List.append_nil]
    refine ⟨⟨by rw [removals_append, hremovals, hremovals']; rfl, fun x hx => ?_⟩,
      orderly_append hcalm horderly⟩
    rw [OwnedContainers.resources, List.mem_append]
    rcases acquires_append.mp hx with hx | hx
    · exact .inr (hresources ▸ hcreated x hx)
    · exact .inl (List.mem_reverse.mpr (hcreated' x hx))

variable {system : MountHost} {config : RunnerConfig} {workspace : Str} {ciVar : Option Str}

theorem startContainer_outcome (spec : Option ContainerSpec) (services : List ServiceSpec) :
    (startContainer masker later system config workspace ciVar spec services).Ensures .none
      fun log r owned' => StartOutcome log owned' r ∧ Orderly log := by
  -- what follows the container, with what it has left
  have hrest : ∀ {past : Log} {owned : OwnedContainers} (masker' : SecretMasker A),
      owned.services = none → Calm past → removals past = [] →
      (∀ x, Acquires created past x → x ∈ owned.resources) →
      (if services = [] then pure true else startServices masker' later services :
        DockerTask OwnedContainers Bool).Ensures owned fun log r owned' =>
          StartOutcome (past ++ log) owned' r ∧ Orderly (past ++ log) := by
    intro past owned masker' hservices hcalm hremovals hcreated
    split
    · rw [ensures_pure, List.append_nil]
      exact ⟨⟨hremovals, hcreated⟩, orderly_of_calm hcalm⟩
    · exact startServices_outcome services hservices hcalm hremovals hcreated
  cases spec with
  | none => exact @hrest [] .none masker rfl (List.forall_mem_nil _) rfl fun x hx => absurd hx not_acquires_nil
  | some spec =>
    rw [startContainer, ensures_bind, ensures_within]
    apply (Docker.JobContainer.start_outcome ()).mono
    rintro log (error | (_ | container)) _ ⟨houtcome, horderly⟩
    · rw [after_ok, ensures_bind, ensures_lift, after_error, List.append_nil]
      exact ⟨houtcome.1, horderly⟩
    · rw [after_ok, ensures_bind, ensures_lift, after_ok, ensures_pure, List.append_nil, List.append_nil]
      exact ⟨houtcome, horderly⟩
    · obtain ⟨hcalm, hremovals, hcreated⟩ := houtcome
      rw [after_ok, ensures_bind, ensures_lift, after_ok, ensures_bind, ensures_modify, after_ok]
      exact hrest _ rfl hcalm hremovals hcreated

/-- Whatever the daemon replies, whenever the job is cancelled and however its body ends: each container
    and network that was created was asked to be removed after that, the job ends in an error if it has
    left any, and nothing is created or started once a cancellation was seen. -/
theorem lifetime_settles {α : Type} (spec : Option ContainerSpec) (services : List ServiceSpec)
    (body : Except RunnerError α) :
    (lifetime masker later last system config workspace ciVar spec services body).Ensures .none
      fun log r _ => (∀ x, Acquires created log x → Dismissed log x) ∧
        ((∃ x, Left log x) → ∃ e, r = .error e) ∧ Orderly log := by
  apply (startContainer_outcome spec services).then
  · exact fun log e _ h => ⟨h.1, fun _ => ⟨e, rfl⟩, h.2⟩
  rintro log (_ | _) owned ⟨houtcome, horderly⟩
  · simp only [Bool.false_eq_true, if_false, ensures_pure, List.append_nil]
    refine ⟨houtcome.1, fun hleft => ?_, horderly⟩
    obtain ⟨x, hx⟩ := hleft
    exact absurd hx (houtcome.2 x)
  · obtain ⟨-, hcreated⟩ := houtcome
    simp only [if_true]
    -- the removals of the end cover what the start has left
    have hall : ∀ {log' : Log} {r : Except RunnerError α}, Finished owned body log' r →
        (∀ x, Acquires created (log ++ log') x → Dismissed (log ++ log') x) ∧
          ((∃ x, Left (log ++ log') x) → ∃ e, r = .error e) ∧ Orderly (log ++ log') := by
      rintro log' r ⟨hquiet, hremovals, hresult⟩
      refine ⟨fun x hx => ?_, ?_, horderly.append_quiet hquiet⟩
      · have hx := (acquires_append.mp hx).resolve_right (hquiet.not_created x)
        exact dismissed_of_removals hquiet (hremovals ▸ hcreated x hx)
      · rintro ⟨x, hleft⟩
        rcases hresult with ⟨-, hgone⟩ | ⟨e, he, -⟩
        · obtain ⟨hheld, hkept⟩ := (held_append_of_not_acquires (hquiet.not_created x)).mp hleft
          exact absurd (hgone x (hcreated x (acquires_of_held hheld))) hkept
        · exact ⟨e, he⟩
    apply (finishContainer_finishes body owned).then
    · intro log' e _ h
      exact ⟨(hall h.2).1, fun _ => ⟨e, rfl⟩, (hall h.2).2.2⟩
    · rintro log' result owned' ⟨-, hfinished⟩
      obtain ⟨hdismissed, hleft, horderly'⟩ := hall hfinished
      rw [ensures_pure, List.append_nil]
      refine ⟨hdismissed, fun h => ?_, horderly'⟩
      obtain ⟨e, he⟩ := hleft h
      cases he

end Lifetime

end GhRunner.Execution
