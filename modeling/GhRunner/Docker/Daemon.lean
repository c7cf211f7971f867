import GhRunner.Docker.CreateBodies
import GhRunner.Lib.Dialogue
import GhRunner.Lib.Holdings
import GhRunner.Shared.SecretMasker

namespace GhRunner.Docker

open Text Holdings
open GhRunner.Shared (AhoCorasick SecretMasker)

/-!
# The Docker daemon, as a job meets it

`crates/execution/src/docker/container_command.rs`, and what `services.rs`, `job_container.rs`,
`service_create.rs` and `service_health.rs` there ask of the world: the daemon, the cancellation
token, the clock and the event channel.

* `Request`, `Reply` — what is asked, and what may come back, at any time and in any order;
* `ContainerCommand.error` — errors of the daemon are masked before they go into a message;
* `readPull` — the progress of a pull, up to its end;
* `Resource`, `Left` — what a log leaves on the daemon: a create counts also when it fails, since the
  daemon may have done it;
* `Quiet`, `Orderly` — no owned resource is created or started, or none once the cancellation is seen.
-/

/-- How a request to the daemon fails: the status of its response, if there is one, and the text. -/
structure DaemonError where
  status : Option ℕ
  text : Str
deriving DecidableEq, Repr

def isMissing (error : DaemonError) : Bool := error.status = some 404

/-- A line of a pull: it ends, or it says something, perhaps an error. -/
inductive PullItem
  | cancelled
  | failed (error : DaemonError)
  | progress (detail : Option Str)
deriving DecidableEq, Repr

/-- A piece of a container's log, or how reading it ends. -/
inductive LogItem
  | chunk (text : Str)
  | failed (error : DaemonError)
  | elapsed (text : Str)
deriving DecidableEq, Repr

inductive HealthStatus
  | none
  | empty
  | starting
  | healthy
  | unhealthy
deriving DecidableEq, Repr

/-- What is read of an inspection. -/
structure Inspection where
  running : Option Bool
  env : List Str
  /-- By container port and protocol, the host ports of its bindings. -/
  ports : List (Str × Option (List (Option Str)))
  health : Option HealthStatus
deriving DecidableEq, Repr

/-- An inspection under a deadline, and the time it took. -/
inductive HealthReply
  | cancelled
  | elapsed (text : Str)
  | answered (took : ℕ) (result : Except DaemonError Inspection)

inductive SleepReply
  | cancelled
  | deadline
  /-- The time that passed beyond the time asked for. -/
  | slept (late : ℕ)
deriving DecidableEq, Repr

inductive Request
  | isCancelled
  | connect
  | newUuid
  | createNetwork (name : Str)
  | createContainer (name : Str) (body : CreateBody)
  | createImage (image : Str) (credentials : Option ContainerCredentials)
  | startContainer (id : Str)
  | inspectContainer (id : Str)
  | inspectHealth (id : Str)
  | removeContainer (name : Str)
  | removeNetwork (name : Str)
  | logs (id : Str)
  /-- In milliseconds. -/
  | sleep (delay : ℕ)
  | report (line : Str)
deriving DecidableEq, Repr

abbrev Reply : Request → Type
  | .isCancelled => Bool
  | .connect => Except RunnerError Unit
  | .newUuid => Str
  | .createNetwork _ => Except DaemonError Unit
  | .createContainer _ _ => Except DaemonError Str
  | .createImage _ _ => List PullItem
  | .startContainer _ => Except DaemonError Unit
  | .inspectContainer _ => Except DaemonError Inspection
  | .inspectHealth _ => HealthReply
  | .removeContainer _ => Except DaemonError Unit
  | .removeNetwork _ => Except DaemonError Unit
  | .logs _ => List LogItem
  | .sleep _ => SleepReply
  | .report _ => Unit

/-- The exchanges of a job with the world. -/
abbrev Log := List (Exchange Reply)

abbrev DockerTask (σ α : Type) := Procedure Request Reply σ RunnerError α

/-! The requests, each with the type of its reply. -/

section Requests

variable {σ : Type}

abbrev isCancelled : DockerTask σ Bool := Procedure.ask Request.isCancelled

abbrev newUuid : DockerTask σ Str := Procedure.ask Request.newUuid

abbrev connect : DockerTask σ (Except RunnerError Unit) := Procedure.ask Request.connect

abbrev createNetwork (name : Str) : DockerTask σ (Except DaemonError Unit) :=
  Procedure.ask (Request.createNetwork name)

abbrev createContainer (name : Str) (body : CreateBody) : DockerTask σ (Except DaemonError Str) :=
  Procedure.ask (Request.createContainer name body)

abbrev createImage (image : Str) (credentials : Option ContainerCredentials) :
    DockerTask σ (List PullItem) := Procedure.ask (Request.createImage image credentials)

abbrev startContainer (id : Str) : DockerTask σ (Except DaemonError Unit) :=
  Procedure.ask (Request.startContainer id)

abbrev inspectContainer (id : Str) : DockerTask σ (Except DaemonError Inspection) :=
  Procedure.ask (Request.inspectContainer id)

abbrev inspectHealth (id : Str) : DockerTask σ HealthReply := Procedure.ask (Request.inspectHealth id)

abbrev removeContainer (name : Str) : DockerTask σ (Except DaemonError Unit) :=
  Procedure.ask (Request.removeContainer name)

abbrev removeNetwork (name : Str) : DockerTask σ (Except DaemonError Unit) :=
  Procedure.ask (Request.removeNetwork name)

abbrev containerLogs (id : Str) : DockerTask σ (List LogItem) := Procedure.ask (Request.logs id)

abbrev pause (delay : ℕ) : DockerTask σ SleepReply := Procedure.ask (Request.sleep delay)

abbrev report (line : Str) : DockerTask σ Unit := Procedure.ask (Request.report line)

end Requests

/-! ### Errors -/

section Errors

variable {A : AhoCorasick}

/-- Mask daemon errors before they enter diagnostics or an event stream. -/
def ContainerCommand.error (masker : SecretMasker A) (operation : String) (text : Str) : RunnerError :=
  .docker (operation.toList ++ ": ".toList ++ masker.mask text)

/-- A reply of the daemon, with its error as the message of the operation. -/
def orError {α : Type} (masker : SecretMasker A) (operation : String) :
    Except DaemonError α → Except RunnerError α
  | .ok a => .ok a
  | .error e => .error (ContainerCommand.error masker operation e.text)

/-- The secrets of a registry account. -/
def registerCredentials (credentials : Option ContainerCredentials) (masker : SecretMasker A) :
    SecretMasker A :=
  match credentials with
  | none => masker
  | some auth => masker.addSecrets [auth.username, auth.password]

/-- How a pull ends. -/
inductive PullEnd
  | finished
  | cancelled
  | failed (error : RunnerError)
deriving DecidableEq, Repr

/-- The stream of a pull: the first error ends it. -/
def readPull (masker : SecretMasker A) (operation : String) : List PullItem → PullEnd
  | [] => .finished
  | .cancelled :: _ => .cancelled
  | .failed e :: _ => .failed (ContainerCommand.error masker operation e.text)
  | .progress (some detail) :: _ => .failed (ContainerCommand.error masker operation detail)
  | .progress none :: rest => readPull masker operation rest

end Errors

/-! ### What is left on the daemon -/

inductive Resource
  | container (name : Str)
  | network (name : Str)
deriving DecidableEq, Repr

/-- A create may have its effect whatever the reply is. -/
def created : Exchange Reply → Option Resource
  | ⟨.createContainer name _, _⟩ => some (.container name)
  | ⟨.createNetwork name, _⟩ => some (.network name)
  | _ => none

/-- Gone, or not there. -/
def gone : Except DaemonError Unit → Bool
  | .ok () => true
  | .error e => isMissing e

def removed : Exchange Reply → Option Resource
  | ⟨.removeContainer name, reply⟩ => if gone reply then some (.container name) else none
  | ⟨.removeNetwork name, reply⟩ => if gone reply then some (.network name) else none
  | _ => none

/-- A removal that is asked for, whether it succeeds or not. -/
def removal : Exchange Reply → Option Resource
  | ⟨.removeContainer name, _⟩ => some (.container name)
  | ⟨.removeNetwork name, _⟩ => some (.network name)
  | _ => none

def removals (log : Log) : List Resource := log.filterMap removal

/-- The log may have left the resource on the daemon. -/
abbrev Left (log : Log) (r : Resource) : Prop := Held created removed log r

/-- A request that changes what the job owns, other than a removal. -/
def mutates : Request → Bool
  | .createNetwork _ | .createContainer _ _ | .startContainer _ => true
  | _ => false

def Quiet (log : Log) : Prop := ∀ e ∈ log, mutates e.1 = false

/-- The first line that says anything is the cancellation. -/
def endsCancelled : List PullItem → Bool
  | .cancelled :: _ => true
  | .progress none :: rest => endsCancelled rest
  | _ => false

/-- The cancellation of the job is seen. -/
def sawCancel : Exchange Reply → Bool
  | ⟨.isCancelled, cancelled⟩ => cancelled
  | ⟨.createImage _ _, items⟩ => endsCancelled items
  | ⟨.inspectHealth _, .cancelled⟩ => true
  | ⟨.sleep _, .cancelled⟩ => true
  | _ => false

/-- Nothing is created or started once the cancellation is seen. -/
def Orderly (log : Log) : Prop :=
  ∀ before e after, log = before ++ e :: after → sawCancel e = true → Quiet after

@[simp] theorem removals_append (log log' : Log) :
    removals (log ++ log') = removals log ++ removals log' := List.filterMap_append

@[simp] theorem removals_nil : removals [] = [] := rfl

theorem Quiet.not_created {log : Log} (h : Quiet log) (r : Resource) :
    ¬ Acquires created log r := by
  rintro ⟨⟨q, reply⟩, he, hcreated⟩
  have hq := h _ he
  cases q <;> simp_all [created, mutates]

theorem Quiet.not_left {log : Log} (h : Quiet log) (x : Resource) : ¬ Left log x :=
  fun hleft => h.not_created x (acquires_of_held hleft)

theorem Quiet.append {log log' : Log} (h : Quiet log) (h' : Quiet log') : Quiet (log ++ log') :=
  List.forall_mem_append.mpr ⟨h, h'⟩

theorem quiet_nil : Quiet [] := List.forall_mem_nil _

theorem readPull_eq_cancelled_iff {A : AhoCorasick} {masker : SecretMasker A} {operation : String}
    {items : List PullItem} :
    readPull masker operation items = .cancelled ↔ endsCancelled items = true := by
  fun_induction readPull masker operation items <;> simp_all [endsCancelled]

/-- The cancellation is not seen. -/
def Calm (log : Log) : Prop := ∀ e ∈ log, sawCancel e = false

theorem orderly_of_calm {log : Log} (h : Calm log) : Orderly log := by
  rintro before e after rfl he
  have := h e (by simp)
  simp_all

theorem Quiet.orderly {log : Log} (h : Quiet log) : Orderly log := by
  rintro before e after rfl -
  exact fun f hf => h f (by simp [hf])

theorem orderly_append {log log' : Log} (h : Calm log) (h' : Orderly log') : Orderly (log ++ log') := by
  intro before e after heq he
  rcases List.append_eq_append_iff.mp heq with ⟨more, rfl, hmore⟩ | ⟨more, rfl, hmore⟩
  · exact h' more e after hmore he
  · cases more with
    | nil => exact h' [] e after hmore.symm he
    | cons f more =>
      obtain ⟨rfl, rfl⟩ := List.cons.inj hmore
      have := h e (by simp)
      simp_all

theorem Orderly.append_quiet {log log' : Log} (h : Orderly log) (h' : Quiet log') :
    Orderly (log ++ log') := by
  intro before e after heq he
  rcases List.append_eq_append_iff.mp heq with ⟨more, rfl, hmore⟩ | ⟨more, rfl, hmore⟩
  · exact fun f hf => h' f (by simp [hmore, hf])
  · cases more with
    | nil =>
      rw [List.nil_append] at hmore
      exact fun f hf => h' f (hmore ▸ List.mem_cons_of_mem e hf)
    | cons f more =>
      obtain ⟨rfl, rfl⟩ := List.cons.inj hmore
      exact (h before e more rfl he).append h'

theorem calm_append {log log' : Log} (h : Calm log) (h' : Calm log') : Calm (log ++ log') :=
  List.forall_mem_append.mpr ⟨h, h'⟩

end GhRunner.Docker
