import GhRunner.Lib.Dialogue
import GhRunner.Listener.ClaimedJobs

namespace GhRunner.Listener

open Text Procedure

/-!
# The loop of one registration

`crates/toolu-runner/src/run_cmd.rs`, `ephemeral.rs`, `remove_state.rs`; `next_ephemeral_action` of
`crates/listener/src/loop_decision.rs`.

* `RunRequest` — what the loop asks of the disk, of GitHub, of the listener and of the clock;
* `drive` — the loop, with `runOnce`, `reregister`, `finishEphemeral` and `backoffStep` in it;
* `Loop` — a monitor: what a loop may do, by what the last lifecycle came to;
* `drive_monitored` — each lifecycle has a JIT config that was read for it; a registration is minted anew
  after a job or a rejection and never after a stop; an ephemeral one has one job, is never minted anew, and
  is deleted once GitHub has been seen to.
-/

/-! ### After a lifecycle of an ephemeral registration -/

inductive EphemeralAction
  /-- A job has used it up. -/
  | unregister
  | exit (code : ℤ)
  | backoffRetry
deriving DecidableEq, Repr

/-- A job ran, or was acquired before the lifecycle failed. -/
def usedUp (outcome : JobOutcome) (jobAcquired : Bool) : Bool :=
  jobAcquired || match outcome with
    | .ok (some _) => true
    | _ => false

/-- First match wins. -/
def nextEphemeralAction (outcome : JobOutcome) (jobAcquired once cancelled pendingRemove : Bool) :
    EphemeralAction :=
  if usedUp outcome jobAcquired then .unregister
  else if cancelled then .exit 0
  else if once then
    match outcome with
    | .ok _ => .exit 0
    | .error (.sessionConflict _) => .exit sessionConflictExitCode
    | .error _ => .exit 1
  else if pendingRemove then .exit 0
  else
    match outcome with
    | .error (.sessionConflict _) => .exit sessionConflictExitCode
    | .error (.auth _) => .exit 1
    | _ => .backoffRetry

/-! ### What the loop asks for -/

inductive AuthSection
  | token
  | app
deriving DecidableEq, Repr

/-- What the loop uses of a registration's configuration. -/
structure RunConfig where
  ephemeral : Bool
  jitConfig : Str
  runnerName : Str
  auth : AuthSection
deriving DecidableEq, Repr

/-- The files of a registration; `_diag` is kept. -/
inductive StateFile
  | config
  | credentials
  | pendingMarker
  | stopRecord
  | lock
deriving DecidableEq, Repr

inductive UnregisterError
  /-- No runners API has the registration's URL. -/
  | config (message : Str)
  | other (message : Str)
deriving DecidableEq, Repr

inductive RunRequest
  | loadConfig
  | lifecycleClient
  | buildRunnerConfig
  | buildListener (jit : Str)
  | listen (jit : Str)
  /-- Whether the loop is cancelled or drained. -/
  | stopping
  | pendingRemove
  | storedBearer
  /-- `remint_bearer` of an App registration. -/
  | appBearer
  /-- `remint_and_persist`. -/
  | remint (bearer : Str)
  | random (bound : ℕ)
  | wait (ms : ℕ)
  | personalBearer
  | unregister (bearer : Str)
  | remove (file : StateFile)

/-- A lifecycle has an outcome, and has acquired a job or not; an App has a bearer and the help for it, or
    is to be asked again; a wait is over, or the loop is stopped. -/
abbrev RunReply : RunRequest → Type
  | .loadConfig => Except Str RunConfig
  | .lifecycleClient | .buildRunnerConfig | .buildListener _ | .remove _ => Except Str Unit
  | .listen _ => JobOutcome × Bool
  | .stopping | .pendingRemove | .wait _ => Bool
  | .storedBearer | .personalBearer => Except Str (Option Str)
  | .appBearer => Except Str (Option (Str × Str))
  | .remint _ => Except RunnerError Unit
  | .random bound => Fin bound
  | .unregister _ => Except UnregisterError Unit

/-- What the process fails with; without a code it is the generic one. -/
structure Failure where
  code : Option ℤ
  message : Str
deriving DecidableEq, Repr

/-- The state is the backoff, in milliseconds. -/
abbrev RunTask (α : Type) := Procedure RunRequest RunReply ℕ Failure α

def backoffStart : ℕ := 1000

def backoffMax : ℕ := 60000

/-- Double toward the maximum. -/
def nextBackoff (current : ℕ) : ℕ := min (current * 2) backoffMax

inductive Remint
  | reset
  | retry
deriving DecidableEq, Repr

inductive GithubSide
  | unregistered
  | unverified (why : Str)
deriving DecidableEq, Repr

section Source

variable (display : RunnerError → Str) (mask : Str → Str) (host configPath : Str) (once : Bool)

namespace RunLoop

abbrev request (q : RunRequest) : RunTask (RunReply q) := Procedure.ask q

def fatal {α : Type} (message : Str) : RunTask α := throw ⟨none, message⟩

/-- `?` on a reply. -/
def orFail {α : Type} : Except Str α → RunTask α
  | .ok a => pure a
  | .error message => fatal message

/-- A duration in `[d/2, d)`. -/
def jitteredBackoff (d : ℕ) : RunTask ℕ := do
  if d / 2 = 0 then pure d
  else do
    let jitter ← request (.random (d / 2))
    pure (d / 2 + jitter.val)

/-- Wait, then double; whether the loop was stopped. -/
def backoffStep : RunTask Bool := do
  let backoff ← get
  let ms ← jitteredBackoff backoff
  if ← request (.wait ms) then pure true
  else do
    modify nextBackoff
    pure false

def noJitConfig : Str :=
  "config.toml has no JIT config blob — re-run `toolu-runner register` against a live GH repo".toList

/-- One lifecycle: the outcome, and whether a job was acquired. -/
def runOnce (cfg : RunConfig) : RunTask (JobOutcome × Bool) := do
  orFail (← request .buildRunnerConfig)
  if cfg.jitConfig = [] then fatal noJitConfig
  else do
    orFail (← request (.buildListener cfg.jitConfig))
    request (.listen cfg.jitConfig)

def remintTokenHelp : Str :=
  ("re-mint needs a GitHub token: run `toolu-runner login`, pass --token to `toolu-runner register`, " ++
    "or set TOOLU_RUNNER_TOKEN; or re-register with a GitHub App (`toolu-runner register --app --replace`) " ++
    "so re-mint needs no personal token").toList

/-- Mint with a bearer; a rejection is fatal and has the help. -/
def mint (bearer help : Str) : RunTask Remint := do
  match ← request (.remint bearer) with
  | .ok () => pure .reset
  | .error (.auth msg) =>
    fatal (mask ("re-mint rejected: ".toList ++ msg ++ " — ".toList ++ help))
  | .error _ => pure .retry

/-- Re-mint a fresh JIT config for the next iteration. -/
def reregister (cfg : RunConfig) : RunTask Remint := do
  match cfg.auth with
  | .token =>
    match ← orFail (← request .storedBearer) with
    | none => fatal ("no GitHub token for ".toList ++ host ++ " — ".toList ++ remintTokenHelp)
    | some bearer => mint mask bearer remintTokenHelp
  | .app =>
    match ← orFail (← request .appBearer) with
    | none => pure .retry
    | some (bearer, help) => mint mask bearer help

def unregisterFailed (runnerName message : Str) : Str :=
  "ephemeral runner '".toList ++ runnerName ++
    "' finished its job, but unregistering it on GitHub failed: ".toList ++ message ++
    ("\nThe local registration was kept — fix the token or connectivity, then run " ++
      "`toolu-runner remove` to retry.").toList

/-- Call GitHub's unregister when a bearer is available. -/
def unregister (cfg : RunConfig) : RunTask GithubSide := do
  match ← orFail (← request .personalBearer) with
  | none =>
    pure (.unverified (match cfg.auth with
      | .token => "no GitHub token".toList
      | .app => "no personal GitHub token; an App registration's unregister still needs one".toList))
  | some bearer =>
    match ← request (.unregister bearer) with
    | .ok () => pure .unregistered
    | .error (.config _) => pure (.unverified "no runners API endpoint for this URL".toList)
    | .error (.other message) => fatal (unregisterFailed cfg.runnerName message)

/-- What fails past the configuration itself is warned of. -/
def removeBestEffort (file : StateFile) : RunTask Unit := do
  let _ ← request (.remove file)

def deleteFailed (runnerName message : Str) : Str :=
  "ephemeral runner '".toList ++ runnerName ++
    "' finished its job and GitHub was handled, but deleting ".toList ++ configPath ++ " failed: ".toList ++
    message

def deleteRegistrationState (cfg : RunConfig) : RunTask Unit := do
  match ← request (.remove .config) with
  | .error message => fatal (deleteFailed configPath cfg.runnerName message)
  | .ok () => do
    removeBestEffort .credentials
    removeBestEffort .pendingMarker
    removeBestEffort .stopRecord
    removeBestEffort .lock

/-- `ephemeral::finish_job`. -/
def finishJob (cfg : RunConfig) : RunTask Unit := do
  let _ ← unregister cfg
  deleteRegistrationState configPath cfg

/-- The end of an ephemeral registration, with the lifecycle's own error if it has one. -/
def finishEphemeral (cfg : RunConfig) (outcome : JobOutcome) : RunTask Unit := do
  let (cleanup, _) ← within (← get) (finishJob configPath cfg)
  match cleanup, outcome with
  | .error failure, .ok _ => throw failure
  | .error failure, .error e =>
    fatal (failure.message ++ "\n(the job itself ended with: listener: ".toList ++ display e ++ ")".toList)
  | .ok (), .ok _ => pure ()
  | .ok (), .error e =>
    throw ⟨some 1,
      "listener: ".toList ++ display e ++ " (the job was acquired; its registration was removed)".toList⟩

/-- An exit code as the process result. -/
def finish (code : ℤ) (outcome : JobOutcome) : RunTask Unit :=
  if code = 0 then pure ()
  else
    match outcome with
    | .ok _ => pure ()
    | .error (.sessionConflict msg) =>
      let message := "listener: ".toList ++ display (.sessionConflict msg)
      if code = sessionConflictExitCode then throw ⟨some code, message⟩ else fatal message
    | .error e => fatal ("listener: ".toList ++ display e)

/-- The registration was not used, so it is kept. -/
def finishEphemeralExit (code : ℤ) (outcome : JobOutcome) : RunTask Unit :=
  if code = 0 then pure ()
  else
    let reason := match outcome with
      | .ok _ => "no job".toList
      | .error e => display e
    throw ⟨some code, "listener: ".toList ++ reason ++
      ("\nthe ephemeral registration was kept — if the runner was removed on GitHub, run " ++
        "`toolu-runner remove` to clean it up").toList⟩

/-- One pass; whether the loop is over. -/
def pass : RunTask Bool := do
  let cfg ← orFail (← request .loadConfig)
  orFail (← request .lifecycleClient)
  let (raw, jobAcquired) ← runOnce cfg
  let cancelled ← request .stopping
  let pendingRemove ← request .pendingRemove
  if cfg.ephemeral then
    match nextEphemeralAction raw jobAcquired once cancelled pendingRemove with
    | .unregister => do
      finishEphemeral display configPath cfg raw
      pure true
    | .exit code => do
      finishEphemeralExit display code raw
      pure true
    | .backoffRetry => backoffStep
  else
    match nextAction (raw.map fun _ => ()) once cancelled pendingRemove with
    | .exit code => do
      finish display code raw
      pure true
    | .reregister => do
      -- a completed job is proof of health
      modify fun backoff => if raw.isOk then backoffStart else backoff
      match ← reregister mask host cfg with
      | .reset => do
        modify fun _ => backoffStart
        pure false
      | .retry => backoffStep
    | .backoffRetry => backoffStep

/-- Drive the loop, for so many passes at most; whether it is over. -/
def drive : ℕ → RunTask Bool
  | 0 => pure false
  | fuel + 1 => do
    if ← pass display mask host configPath once then pure true else drive fuel

end RunLoop

end Source

/-! ### What a loop may do -/

/-- What a loop knows, by what it was replied. -/
structure Loop where
  /-- The configuration that was read for the next lifecycle. -/
  config : Option RunConfig
  /-- The last lifecycle, with the configuration it ran for. -/
  last : Option (RunConfig × JobOutcome)
  /-- The loop is stopped, or a removal is pending. -/
  halted : Bool
  /-- An ephemeral registration has had its job. -/
  spent : Bool
  /-- GitHub has been asked to unregister it, or cannot be. -/
  settled : Bool
  configRemoved : Bool
  backoff : ℕ

/-- A job is done, or the configuration is rejected. -/
def mintable : JobOutcome → Bool
  | .ok _ | .error (.auth _) => true
  | .error _ => false

namespace Loop

def start : Loop := ⟨none, none, false, false, false, false, backoffStart⟩

/-- A new configuration is due, and may be minted. -/
def MayMint (once : Bool) (m : Loop) : Prop :=
  once = false ∧ m.halted = false ∧
    ∃ last ∈ m.last, last.1.ephemeral = false ∧ mintable last.2 = true

instance (once : Bool) (m : Loop) : Decidable (m.MayMint once) := by
  unfold MayMint
  infer_instance

/-- The registration may be used. -/
def Usable (m : Loop) : Prop := m.halted = false ∧ m.spent = false

instance (m : Loop) : Decidable m.Usable := inferInstanceAs (Decidable (_ ∧ _))

/-- After a lifecycle.  A job that is done is proof of health. -/
def ran (m : Loop) (cfg : RunConfig) (outcome : JobOutcome) (jobAcquired : Bool) : Loop :=
  { m with
    config := none
    last := some (cfg, outcome)
    spent := cfg.ephemeral && usedUp outcome jobAcquired
    backoff := if cfg.ephemeral = false ∧ outcome.isOk = true then backoffStart else m.backoff }

/-- What a loop may do next, and what it knows after it. -/
def step (once : Bool) (m : Loop) : Exchange RunReply → Option Loop
  | ⟨.loadConfig, .ok cfg⟩ => if m.Usable then some { m with config := some cfg, last := none } else none
  | ⟨.loadConfig, .error _⟩ => if m.Usable then some m else none
  | ⟨.lifecycleClient, _⟩ | ⟨.buildRunnerConfig, _⟩ => some m
  | ⟨.buildListener jit, _⟩ => if m.config.map RunConfig.jitConfig = some jit then some m else none
  | ⟨.listen jit, reply⟩ =>
    match m.config with
    | some cfg => if m.Usable ∧ cfg.jitConfig = jit then some (m.ran cfg reply.1 reply.2) else none
    | none => none
  | ⟨.stopping, stop⟩ | ⟨.pendingRemove, stop⟩ => some { m with halted := m.halted || stop }
  | ⟨.storedBearer, _⟩ | ⟨.appBearer, _⟩ => if m.MayMint once then some m else none
  | ⟨.remint _, .ok _⟩ => if m.MayMint once then some { m with last := none, backoff := backoffStart } else none
  | ⟨.remint _, .error _⟩ => if m.MayMint once then some m else none
  | ⟨.random _, _⟩ => some m
  | ⟨.wait ms, stop⟩ =>
    if once = false ∧ m.Usable ∧ m.backoff / 2 ≤ ms ∧ ms < m.backoff ∧ m.backoff ≤ backoffMax then
      some { m with halted := stop, backoff := if stop then m.backoff else nextBackoff m.backoff }
    else none
  | ⟨.personalBearer, reply⟩ =>
    if m.spent ∧ ¬m.settled then some { m with settled := decide (reply.toOption = some none) } else none
  | ⟨.unregister _, .ok _⟩ | ⟨.unregister _, .error (.config _)⟩ =>
    if m.spent ∧ ¬m.settled then some { m with settled := true } else none
  | ⟨.unregister _, .error (.other _)⟩ => if m.spent ∧ ¬m.settled then some m else none
  | ⟨.remove .config, reply⟩ =>
    if m.spent ∧ m.settled ∧ ¬m.configRemoved then some { m with configRemoved := reply.isOk } else none
  | ⟨.remove _, _⟩ => if m.configRemoved then some m else none

/-- How a loop stands when it is over, or after its passes: a registration that is used up is removed,
    unless it fails. -/
def Stands (m : Loop) : Except Failure Bool → Prop
  | .ok true => m.spent = m.configRemoved
  | .ok false => m.Usable
  | .error failure => m.configRemoved = true → failure.code = some 1

end Loop

section Spec

variable {once : Bool} {m : Loop} {backoff : ℕ}

/-- A loop that goes on: what it may wait is what its backoff says. -/
structure Idle (m : Loop) (backoff : ℕ) : Prop where
  usable : m.Usable
  settled : m.settled = false
  configRemoved : m.configRemoved = false
  paced : m.backoff = backoff
  atLeast : backoffStart ≤ backoff
  atMost : backoff ≤ backoffMax

/-- A part of the loop, watched from here. -/
abbrev Watched {α : Type} (once : Bool) (m : Loop) (backoff : ℕ) (t : RunTask α)
    (post : Loop → Except Failure α → ℕ → Prop) : Prop :=
  Monitored (Loop.step once) m backoff t post

theorem idle_start : Idle .start backoffStart := by
  constructor <;> decide

theorem nextBackoff_bounds (hlow : backoffStart ≤ backoff) :
    backoffStart ≤ nextBackoff backoff ∧ nextBackoff backoff ≤ backoffMax := by
  simp only [nextBackoff, backoffStart, backoffMax] at hlow ⊢
  omega

/-- A pass ends in another one, or the loop is over. -/
def PassEnds (m : Loop) (r : Except Failure Bool) (backoff : ℕ) : Prop :=
  m.Stands r ∧ (r = .ok false → Idle m backoff)

theorem watched_jitteredBackoff (hlow : backoffStart ≤ backoff) :
    Watched once m backoff (RunLoop.jitteredBackoff backoff) fun m' r backoff' =>
      m' = m ∧ backoff' = backoff ∧ ∃ ms, r = .ok ms ∧ backoff / 2 ≤ ms ∧ ms < backoff := by
  have hhalf : backoff / 2 ≠ 0 := by
    rw [backoffStart] at hlow
    omega
  rw [RunLoop.jitteredBackoff, if_neg hhalf]
  refine monitored_ask_bind fun jitter => ⟨m, rfl, monitored_pure ⟨rfl, rfl, _, rfl, ?_⟩⟩
  have hlt : jitter.val < backoff / 2 := jitter.isLt
  omega

theorem watched_backoffStep (h : Idle m backoff) (honce : once = false) :
    Watched once m backoff RunLoop.backoffStep PassEnds := by
  apply monitored_get_bind
  apply (watched_jitteredBackoff h.atLeast).bind
  · rintro m' ms backoff' ⟨rfl, rfl, ms', hms, hlow, hhigh⟩
    obtain rfl := Except.ok.inj hms
    have hwait : once = false ∧ m'.Usable ∧ m'.backoff / 2 ≤ ms ∧ ms < m'.backoff ∧
        m'.backoff ≤ backoffMax := by
      rw [h.paced]
      exact ⟨honce, h.usable, hlow, hhigh, h.atMost⟩
    refine monitored_ask_bind fun stop => ⟨_, if_pos hwait, ?_⟩
    cases stop with
    | true => exact monitored_pure ⟨h.usable.2.trans h.configRemoved.symm, nofun⟩
    | false =>
      have hbounds := nextBackoff_bounds h.atLeast
      exact monitored_modify_bind (monitored_pure ⟨⟨rfl, h.usable.2⟩, fun _ =>
        ⟨⟨rfl, h.usable.2⟩, h.settled, h.configRemoved, congrArg nextBackoff h.paced, hbounds.1, hbounds.2⟩⟩)
  · rintro m' e backoff' ⟨-, -, ms, hms, -⟩
    cases hms

/-- `?` on a reply changes nothing, and what fails by it has no code. -/
theorem watched_orFail {α β : Type} {reply : Except Str α} {f : α → RunTask β}
    {post : Loop → Except Failure β → ℕ → Prop}
    (hok : ∀ a, Watched once m backoff (f a) post)
    (herror : ∀ message, post m (.error ⟨none, message⟩) backoff) :
    Watched once m backoff (RunLoop.orFail reply >>= f) post := by
  cases reply with
  | ok a => exact hok a
  | error message => exact monitored_throw (herror message)

/-- A lifecycle runs for the configuration that was read. -/
theorem watched_runOnce {cfg : RunConfig} (h : Idle m backoff) (hconfig : m.config = some cfg) :
    Watched once m backoff (RunLoop.runOnce cfg) fun m' r backoff' => backoff' = backoff ∧ match r with
      | .ok (outcome, jobAcquired) => m' = m.ran cfg outcome jobAcquired
      | .error failure => m' = m ∧ failure.code = none := by
  refine monitored_ask_bind fun reply => ⟨m, rfl, watched_orFail (fun _ => ?_) fun _ => ⟨rfl, rfl, rfl⟩⟩
  split
  · exact monitored_throw ⟨rfl, rfl, rfl⟩
  · refine monitored_ask_bind fun reply => ⟨m, if_pos (by rw [hconfig]; rfl), ?_⟩
    refine watched_orFail (fun _ => ?_) fun _ => ⟨rfl, rfl, rfl⟩
    intro reply
    refine ⟨m.ran cfg reply.1 reply.2, ?_, rfl, rfl⟩
    simp [Loop.step, hconfig, h.usable]

theorem watched_mint {mask : Str → Str} {bearer help : Str} (h : m.MayMint once) :
    Watched once m backoff (RunLoop.mint mask bearer help) fun m' r backoff' => backoff' = backoff ∧ match r with
      | .ok .reset => m' = { m with last := none, backoff := backoffStart }
      | .ok .retry => m' = m
      | .error failure => m' = m ∧ failure.code = none := by
  refine monitored_ask_bind fun reply => ?_
  cases reply with
  | ok => exact ⟨_, if_pos h, monitored_pure ⟨rfl, rfl⟩⟩
  | error e =>
    refine ⟨m, if_pos h, ?_⟩
    cases e with
    | auth msg => exact monitored_throw ⟨rfl, rfl, rfl⟩
    | _ => exact monitored_pure ⟨rfl, rfl⟩

theorem watched_reregister {mask : Str → Str} {host : Str} {cfg : RunConfig} (h : m.MayMint once) :
    Watched once m backoff (RunLoop.reregister mask host cfg) fun m' r backoff' =>
      backoff' = backoff ∧ match r with
      | .ok .reset => m' = { m with last := none, backoff := backoffStart }
      | .ok .retry => m' = m
      | .error failure => m' = m ∧ failure.code = none := by
  rw [RunLoop.reregister]
  cases cfg.auth with
  | token =>
    refine monitored_ask_bind fun reply => ⟨m, if_pos h, watched_orFail (fun stored => ?_) fun _ => ⟨rfl, rfl, rfl⟩⟩
    cases stored with
    | none => exact monitored_throw ⟨rfl, rfl, rfl⟩
    | some bearer => exact watched_mint h
  | app =>
    refine monitored_ask_bind fun reply => ⟨m, if_pos h, watched_orFail (fun stored => ?_) fun _ => ⟨rfl, rfl, rfl⟩⟩
    cases stored with
    | none => exact monitored_pure ⟨rfl, rfl⟩
    | some minted => exact watched_mint h

/-! ### The end of an ephemeral registration -/

/-- It has had its job, and is still there. -/
structure Spent (m : Loop) (settled : Bool) : Prop where
  spent : m.spent = true
  settled : m.settled = settled
  configRemoved : m.configRemoved = false

theorem watched_unregister {cfg : RunConfig} (h : Spent m false) :
    Watched once m backoff (RunLoop.unregister cfg) fun m' r _ => match r with
      | .ok _ => Spent m' true
      | .error _ => m'.configRemoved = false := by
  have hopen : m.spent = true ∧ ¬m.settled = true := ⟨h.spent, by simp [h.settled]⟩
  refine monitored_ask_bind fun reply => ⟨_, if_pos hopen, ?_⟩
  cases reply with
  | error message => exact monitored_throw h.configRemoved
  | ok stored =>
    cases stored with
    | none => exact monitored_pure ⟨h.spent, rfl, h.configRemoved⟩
    | some bearer =>
      -- a bearer settles nothing yet
      have hopen' : m.spent = true ∧ ¬false = true := ⟨h.spent, by decide⟩
      refine monitored_ask_bind fun reply => ?_
      cases reply with
      | ok => exact ⟨_, if_pos hopen', monitored_pure ⟨h.spent, rfl, h.configRemoved⟩⟩
      | error e =>
        cases e with
        | config => exact ⟨_, if_pos hopen', monitored_pure ⟨h.spent, rfl, h.configRemoved⟩⟩
        | other message => exact ⟨_, if_pos hopen', monitored_throw h.configRemoved⟩

/-- Files past the configuration, which is gone. -/
theorem watched_removeBestEffort {file : StateFile} {t : RunTask Unit}
    {post : Loop → Except Failure Unit → ℕ → Prop} (hfile : file ≠ .config) (hgone : m.configRemoved = true)
    (h : Watched once m backoff t post) :
    Watched once m backoff (RunLoop.removeBestEffort file >>= fun _ => t) post := by
  refine monitored_ask_bind fun reply => ⟨m, ?_, h⟩
  cases file with
  | config => exact absurd rfl hfile
  | _ => exact if_pos hgone

theorem watched_deleteRegistrationState {configPath : Str} {cfg : RunConfig} (h : Spent m true) :
    Watched once m backoff (RunLoop.deleteRegistrationState configPath cfg) fun m' r _ => match r with
      | .ok _ => m'.spent = true ∧ m'.configRemoved = true
      | .error _ => m'.configRemoved = false := by
  have hopen : m.spent = true ∧ m.settled = true ∧ ¬m.configRemoved = true :=
    ⟨h.spent, h.settled, by simp [h.configRemoved]⟩
  refine monitored_ask_bind fun reply => ⟨_, if_pos hopen, ?_⟩
  cases reply with
  | error message => exact monitored_throw rfl
  | ok =>
    apply watched_removeBestEffort (by decide) rfl
    apply watched_removeBestEffort (by decide) rfl
    apply watched_removeBestEffort (by decide) rfl
    exact fun _ => ⟨_, rfl, h.spent, rfl⟩

theorem watched_finishJob {configPath : Str} {cfg : RunConfig} (h : Spent m false) :
    Watched once m backoff (RunLoop.finishJob configPath cfg) fun m' r _ => match r with
      | .ok _ => m'.spent = true ∧ m'.configRemoved = true
      | .error _ => m'.configRemoved = false := by
  apply (watched_unregister h).bind
  · exact fun _ _ _ hspent => watched_deleteRegistrationState hspent
  · exact fun _ _ _ hgone => hgone

theorem watched_finishEphemeral {display : RunnerError → Str} {configPath : Str} {cfg : RunConfig}
    {outcome : JobOutcome} (h : Spent m false) :
    Watched once m backoff (RunLoop.finishEphemeral display configPath cfg outcome) fun m' r _ => match r with
      | .ok _ => m'.spent = m'.configRemoved
      | .error failure => m'.configRemoved = true → failure.code = some 1 := by
  apply monitored_get_bind
  apply (Monitored.within (watched_finishJob h)).bind
  · rintro m' _ backoff' ⟨rfl, ⟨cleanup, after⟩, hresult, hended⟩
    obtain rfl := Except.ok.inj hresult
    cases cleanup with
    | error failure =>
      cases outcome with
      | ok _ => exact monitored_throw fun hgone => by simp_all
      | error e => exact monitored_throw fun hgone => by simp_all
    | ok _ =>
      cases outcome with
      | ok _ => exact monitored_pure (hended.1.trans hended.2.symm)
      | error e => exact monitored_throw fun _ => rfl
  · rintro m' e backoff' ⟨-, result, hresult, -⟩
    cases hresult

/-! ### The loop -/

/-- The registration is kept, and the loop is over. -/
theorem passEnds_of_kept (hspent : m.spent = false) (hgone : m.configRemoved = false)
    {r : Except Failure Bool} (hr : r ≠ .ok false) : PassEnds m r backoff := by
  refine ⟨?_, fun h => absurd h hr⟩
  match r with
  | .ok true => exact hspent.trans hgone.symm
  | .ok false => exact absurd rfl hr
  | .error failure => exact fun h => by simp [hgone] at h

theorem watched_kept (hspent : m.spent = false) (hgone : m.configRemoved = false) {t : RunTask Unit}
    (ht : t = pure () ∨ ∃ failure, t = throw failure) :
    Watched once m backoff (t >>= fun _ => pure true) PassEnds := by
  rcases ht with rfl | ⟨failure, rfl⟩
  · exact monitored_pure (passEnds_of_kept hspent hgone nofun)
  · exact monitored_throw (passEnds_of_kept hspent hgone nofun)

theorem finish_cases (display : RunnerError → Str) (code : ℤ) (outcome : JobOutcome) :
    RunLoop.finish display code outcome = pure () ∨
      ∃ failure, RunLoop.finish display code outcome = throw failure := by
  unfold RunLoop.finish
  split
  · exact .inl rfl
  · split
    · exact .inl rfl
    · dsimp only
      split <;> exact .inr ⟨_, rfl⟩
    · exact .inr ⟨_, rfl⟩

theorem finishEphemeralExit_cases (display : RunnerError → Str) (code : ℤ) (outcome : JobOutcome) :
    RunLoop.finishEphemeralExit display code outcome = pure () ∨
      ∃ failure, RunLoop.finishEphemeralExit display code outcome = throw failure := by
  unfold RunLoop.finishEphemeralExit
  split
  · exact .inl rfl
  · exact .inr ⟨_, rfl⟩

theorem nextEphemeralAction_unregister {outcome : JobOutcome} {jobAcquired cancelled pendingRemove : Bool} :
    nextEphemeralAction outcome jobAcquired once cancelled pendingRemove = .unregister ↔
      usedUp outcome jobAcquired = true := by
  unfold nextEphemeralAction
  split
  · simp [*]
  · refine iff_of_false ?_ (by assumption)
    repeat' split
    all_goals simp

theorem nextEphemeralAction_backoffRetry {outcome : JobOutcome} {jobAcquired cancelled pendingRemove : Bool}
    (h : nextEphemeralAction outcome jobAcquired once cancelled pendingRemove = .backoffRetry) :
    cancelled = false ∧ once = false ∧ pendingRemove = false := by
  unfold nextEphemeralAction at h
  grind

/-- A registration goes on only where nothing stops it. -/
theorem nextAction_goesOn {outcome : Except RunnerError Unit} {cancelled pendingRemove : Bool}
    (h : nextAction outcome once cancelled pendingRemove = .reregister ∨
      nextAction outcome once cancelled pendingRemove = .backoffRetry) :
    cancelled = false ∧ once = false ∧ pendingRemove = false := by
  unfold nextAction at h
  grind

theorem mintable_of_reregister {outcome : JobOutcome} {cancelled pendingRemove : Bool}
    (h : nextAction (outcome.map fun _ => ()) once cancelled pendingRemove = .reregister) :
    mintable outcome = true := by
  unfold nextAction at h
  cases outcome with
  | ok _ => rfl
  | error e =>
    cases e with
    | auth => rfl
    | _ => simp [Except.map] at h; grind

theorem isOk_of_backoffRetry {outcome : JobOutcome} {cancelled pendingRemove : Bool}
    (h : nextAction (outcome.map fun _ => ()) once cancelled pendingRemove = .backoffRetry) :
    outcome.isOk = false := by
  unfold nextAction at h
  cases outcome with
  | ok _ => simp [Except.map] at h; grind
  | error e => rfl

theorem passEnds_error (hspent : m.spent = false) (hgone : m.configRemoved = false) (failure : Failure) :
    PassEnds m (.error failure) backoff :=
  passEnds_of_kept hspent hgone nofun

/-- What an ephemeral registration does after a lifecycle. -/
theorem watched_ephemeral {display : RunnerError → Str} {configPath : Str} {cfg : RunConfig} {raw : JobOutcome}
    {jobAcquired cancelled pendingRemove : Bool} (hspent : m.spent = usedUp raw jobAcquired)
    (hhalted : m.halted = (cancelled || pendingRemove))
    (hidle : m.Usable → Idle m backoff) (hsettled : m.settled = false) (hgone : m.configRemoved = false) :
    Watched once m backoff (match nextEphemeralAction raw jobAcquired once cancelled pendingRemove with
      | .unregister => do
        RunLoop.finishEphemeral display configPath cfg raw
        pure true
      | .exit code => do
        RunLoop.finishEphemeralExit display code raw
        pure true
      | .backoffRetry => RunLoop.backoffStep) PassEnds := by
  cases haction : nextEphemeralAction raw jobAcquired once cancelled pendingRemove with
  | unregister =>
    rw [nextEphemeralAction_unregister] at haction
    apply (watched_finishEphemeral ⟨hspent.trans haction, hsettled, hgone⟩).bind
    · exact fun _ _ _ hended => monitored_pure ⟨hended, nofun⟩
    · exact fun _ _ _ hended => ⟨hended, nofun⟩
  | exit code =>
    have hunused : usedUp raw jobAcquired = false := by
      rw [← Bool.not_eq_true, ← nextEphemeralAction_unregister, haction]
      exact nofun
    exact watched_kept (hspent.trans hunused) hgone (finishEphemeralExit_cases display code raw)
  | backoffRetry =>
    have hunused : usedUp raw jobAcquired = false := by
      rw [← Bool.not_eq_true, ← nextEphemeralAction_unregister, haction]
      exact nofun
    obtain ⟨rfl, honce, rfl⟩ := nextEphemeralAction_backoffRetry haction
    exact watched_backoffStep (hidle ⟨hhalted, hspent.trans hunused⟩) honce

/-- What a persistent registration does after a lifecycle. -/
theorem watched_persistent {display : RunnerError → Str} {mask : Str → Str} {host : Str} {cfg : RunConfig}
    {raw : JobOutcome} {cancelled pendingRemove : Bool} (hlast : m.last = some (cfg, raw))
    (hephemeral : cfg.ephemeral = false) (hspent : m.spent = false)
    (hhalted : m.halted = (cancelled || pendingRemove))
    (hidle : m.Usable → Idle m (if raw.isOk then backoffStart else backoff)) (hgone : m.configRemoved = false) :
    Watched once m backoff (match nextAction (raw.map fun _ => ()) once cancelled pendingRemove with
      | .exit code => do
        RunLoop.finish display code raw
        pure true
      | .reregister => do
        modify fun backoff => if raw.isOk then backoffStart else backoff
        match ← RunLoop.reregister mask host cfg with
        | .reset => do
          modify fun _ => backoffStart
          pure false
        | .retry => RunLoop.backoffStep
      | .backoffRetry => RunLoop.backoffStep) PassEnds := by
  cases haction : nextAction (raw.map fun _ => ()) once cancelled pendingRemove with
  | exit code => exact watched_kept hspent hgone (finish_cases display code raw)
  | reregister =>
    obtain ⟨rfl, honce, rfl⟩ := nextAction_goesOn (.inl haction)
    have hmint : m.MayMint once :=
      ⟨honce, hhalted, (cfg, raw), hlast, hephemeral, mintable_of_reregister haction⟩
    have hidle := hidle ⟨hhalted, hspent⟩
    apply monitored_modify_bind
    apply (watched_reregister hmint).bind
    · rintro m' remint backoff' ⟨rfl, hremint⟩
      cases remint with
      | reset =>
        obtain rfl := hremint
        exact monitored_modify_bind (monitored_pure ⟨⟨hhalted, hspent⟩, fun _ =>
          ⟨⟨hhalted, hspent⟩, hidle.settled, hgone, rfl, le_rfl, by decide⟩⟩)
      | retry =>
        obtain rfl := hremint
        exact watched_backoffStep hidle honce
    · rintro m' failure backoff' ⟨rfl, rfl, -⟩
      exact passEnds_error hspent hgone failure
  | backoffRetry =>
    obtain ⟨rfl, honce, rfl⟩ := nextAction_goesOn (.inr haction)
    have hidle := hidle ⟨hhalted, hspent⟩
    rw [isOk_of_backoffRetry haction] at hidle
    exact watched_backoffStep hidle honce

/-- One pass. -/
theorem watched_pass {display : RunnerError → Str} {mask : Str → Str} {host configPath : Str}
    (h : Idle m backoff) :
    Watched once m backoff (RunLoop.pass display mask host configPath once) PassEnds := by
  apply monitored_ask_bind
  rintro (message | cfg)
  · exact ⟨m, if_pos h.usable, monitored_throw (passEnds_error h.usable.2 h.configRemoved _)⟩
  refine ⟨{ m with config := some cfg, last := none }, if_pos h.usable, ?_⟩
  have hread : Idle { m with config := some cfg, last := none } backoff :=
    ⟨h.usable, h.settled, h.configRemoved, h.paced, h.atLeast, h.atMost⟩
  refine monitored_ask_bind fun reply => ⟨_, rfl, watched_orFail (fun _ => ?_) fun _ => ?_⟩
  · apply (watched_runOnce hread rfl).bind
    · rintro _ ⟨raw, jobAcquired⟩ _ ⟨rfl, rfl⟩
      refine monitored_ask_bind fun cancelled => ⟨_, rfl, ?_⟩
      refine monitored_ask_bind fun pendingRemove => ⟨_, rfl, ?_⟩
      have hhalted : ((m.halted || cancelled) || pendingRemove) = (cancelled || pendingRemove) := by
        rw [h.usable.1, Bool.false_or]
      by_cases hephemeral : cfg.ephemeral = true
      · rw [if_pos hephemeral]
        refine watched_ephemeral (by simp [Loop.ran, hephemeral]) hhalted (fun husable => ?_) h.settled
          h.configRemoved
        exact ⟨husable, h.settled, h.configRemoved, by simp [Loop.ran, hephemeral, h.paced], h.atLeast, h.atMost⟩
      · rw [Bool.not_eq_true] at hephemeral
        rw [if_neg (by simp [hephemeral])]
        refine watched_persistent rfl hephemeral (by simp [Loop.ran, hephemeral]) hhalted (fun husable => ?_)
          h.configRemoved
        refine ⟨husable, h.settled, h.configRemoved, by simp [Loop.ran, hephemeral, h.paced], ?_, ?_⟩
        · split
          · exact le_rfl
          · exact h.atLeast
        · split
          · decide
          · exact h.atMost
    · rintro m' failure _ ⟨rfl, rfl, -⟩
      exact passEnds_error hread.usable.2 hread.configRemoved failure
  · exact passEnds_error hread.usable.2 hread.configRemoved _

/-- Of every loop, however often it passes: the monitor accepts all it does.  When it is over, or fails, a
    registration is removed only if it is used up, and kept otherwise. -/
theorem drive_monitored (display : RunnerError → Str) (mask : Str → Str) (host configPath : Str) (once : Bool)
    (fuel : ℕ) :
    (RunLoop.drive display mask host configPath once fuel).Ensures backoffStart fun log r _ =>
      ∃ m, follow (Loop.step once) .start log = some m ∧ m.Stands r := by
  suffices hall : ∀ m backoff, Idle m backoff →
      Watched once m backoff (RunLoop.drive display mask host configPath once fuel) fun m' r _ => m'.Stands r by
    exact hall _ _ idle_start
  induction fuel with
  | zero => exact fun m backoff h => monitored_pure h.usable
  | succ fuel ih =>
    intro m backoff h
    apply (watched_pass h).bind
    · rintro m' (_ | _) backoff' ⟨hstands, hidle⟩
      · exact ih m' backoff' (hidle rfl)
      · exact monitored_pure hstands
    · exact fun m' failure backoff' hends => hends.1

end Spec

end GhRunner.Listener
