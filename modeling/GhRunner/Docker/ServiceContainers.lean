import GhRunner.Docker.ActionArchive
import GhRunner.Docker.OwnedResources
import GhRunner.Expressions.Value

namespace GhRunner.Docker

open Text Holdings Procedure
open GhRunner.Shared (AhoCorasick SecretMasker)
open GhRunner.Expressions (ExprValue objectInsert)

/-!
# Service containers

`crates/execution/src/docker/services.rs`, `pull` of `docker/service_create.rs` and
`docker/service_health.rs`.

* `ServiceContainers` — the services of a job; `start`, `initializeServices`, `startOne`, `createOwned`,
  `inspectContext`, `cleanup` — as the source has them;
* `waitHealthy` — the health check, which ends by its deadline;
* `Setup.initializeServices` — what holds of each kind of step holds of the whole setup;
* `cleanup_removes` — each owned thing is asked to be removed, the newest container first and the
  network last, whatever fails on the way; without an error all of it is gone.
-/

structure ServiceContainer where
  dnsAlias : Str
  name : Str
  /-- Empty until the daemon has named it. -/
  id : Str
deriving DecidableEq, Repr

/-- Services owned by one job, borrowing the job-container network when present. -/
structure ServiceContainers where
  network : Str
  ownsNetwork : Bool
  containers : List ServiceContainer
  context : List (Str × ExprValue)

namespace ServiceContainers

section Source

variable {A : AhoCorasick} (masker : SecretMasker A)

abbrev checkCancel : DockerTask ServiceContainers Unit := Docker.checkCancel "service setup cancelled"

def serviceLog {σ : Type} (line : Str) : DockerTask σ Unit := report line

/-- The first binding of each port; ports of one number are one entry. -/
def publishedPorts (ports : List (Str × Option (List (Option Str)))) : List (Str × ExprValue) :=
  ports.foldl (fun found entry =>
    match entry.2.bind List.head? with
    | some (some hostPort) => objectInsert ((entry.1.splitOn '/').headD []) (.string hostPort) found
    | _ => found) []

def inspectContext (dnsAlias id : Str) : DockerTask ServiceContainers Unit := do
  let reply ← inspectContainer id
  let inspected ← lift (orError masker "inspect service ports" reply)
  modify fun group => { group with context := objectInsert dnsAlias (.object
    [("id".toList, .string id), ("network".toList, .string group.network),
      ("ports".toList, .object (publishedPorts inspected.ports))]) group.context }

/-- `pull` of `service_create.rs`. -/
def pull (spec : ServiceSpec) : DockerTask ServiceContainers Unit :=
  pullImage masker "service setup cancelled" "pull service image" spec.container.image
    spec.container.credentials

/-- The id of the container that was pushed last. -/
def setLastId (id : Str) (containers : List ServiceContainer) : List ServiceContainer :=
  containers.dropLast ++ containers.getLast?.toList.map fun last => { last with id := id }

/-- The container is on the list before it is created. -/
def createOwned (spec : ServiceSpec) (body : CreateBody) : DockerTask ServiceContainers Str := do
  let uuid ← newUuid
  let name := "toolu_service_".toList ++ spec.dnsAlias ++ '_' :: uuid
  modify fun group => { group with containers := group.containers ++ [⟨spec.dnsAlias, name, []⟩] }
  let reply ← createContainer name body
  let id ← lift (orError masker "create service container" reply)
  let group ← get
  if group.containers = [] then throw (.docker "missing owned service".toList)
  else do
    modify fun group => { group with containers := setLastId id group.containers }
    pure id

def startOne (spec : ServiceSpec) (body : CreateBody) : DockerTask ServiceContainers Unit := do
  checkCancel
  pull masker spec
  checkCancel
  let id ← createOwned masker spec body
  let group ← get
  serviceLog ("Service ".toList ++ spec.dnsAlias ++ " created: ".toList ++ id ++ " on ".toList ++
    group.network)
  checkCancel
  let reply ← startContainer id
  lift (orError masker "start service container" reply)
  serviceLog ("Service ".toList ++ spec.dnsAlias ++ " started: ".toList ++ id ++ " on ".toList ++
    group.network)
  inspectContext masker spec.dnsAlias id

/-! `wait_healthy` -/

/-- The pause after a round: it doubles, up to half a minute. -/
def healthDelay : ℕ → ℕ
  | 0 => 2000
  | round + 1 => min (healthDelay round * 2) 32000

theorem healthDelay_pos (round : ℕ) : 0 < healthDelay round := by
  induction round with
  | zero => decide
  | succ round ih =>
    rw [healthDelay]
    omega

def failure (dnsAlias : Str) (reason : Str) : RunnerError :=
  .docker ("service ".toList ++ dnsAlias ++ ": ".toList ++ reason)

/-- `remaining` is the time to the deadline, in milliseconds. -/
def waitHealthy (id dnsAlias : Str) (remaining round : ℕ) : DockerTask ServiceContainers Unit := do
  match ← inspectHealth id with
  | .cancelled => throw (failure dnsAlias "setup cancelled".toList)
  | .elapsed text => throw (failure dnsAlias ("health check timed out: ".toList ++ text))
  | .answered took result =>
    let inspect ← lift (orError masker "inspect service health" result)
    match inspect.health with
    | none | some .none | some .empty | some .healthy => pure ()
    | some .unhealthy => throw (failure dnsAlias "reported unhealthy".toList)
    | some .starting =>
      serviceLog ("Service ".toList ++ dnsAlias ++
        " is starting; waiting for its health check".toList)
      match ← pause (healthDelay round) with
      | .cancelled => throw (failure dnsAlias "setup cancelled".toList)
      | .deadline => throw (failure dnsAlias "health check timed out".toList)
      | .slept late =>
        -- a deadline that has passed ends the wait before any pause does
        if remaining - took = 0 then throw (failure dnsAlias "health check timed out".toList)
        else waitHealthy id dnsAlias (remaining - took - (healthDelay round + late)) (round + 1)
termination_by remaining
decreasing_by
  have := healthDelay_pos round
  omega

def healthBudget : ℕ := 300000

/-- What follows the network: each container, and then the health of each. -/
def startAll (entries : List (ServiceSpec × CreateBody)) : DockerTask ServiceContainers Unit := do
  forEach (fun entry => startOne masker entry.1 entry.2) entries
  let group ← get
  forEach (fun container => do
    checkCancel
    waitHealthy masker container.id container.dnsAlias healthBudget 0) group.containers
  checkCancel

/-- Validate every create body before creating the first owned resource. -/
def initializeServices (specs : List ServiceSpec) : DockerTask ServiceContainers Unit := do
  let group ← get
  let bodies ← lift (specs.mapM fun spec => serviceCreateBody spec group.network)
  checkCancel
  if group.ownsNetwork then do
    let reply ← createNetwork group.network
    lift (orError masker "create service network" reply)
  startAll masker (specs.zip bodies)

/-! `cleanup` -/

/-- A stream of a log: its lines are reported up to its end. -/
def readLogs (dnsAlias : Str) : List LogItem → List Str × Except RunnerError Unit
  | [] => ([], .ok ())
  | .failed e :: _ =>
    ([], if isMissing e then .ok () else .error (ContainerCommand.error masker "read service logs" e.text))
  | .elapsed text :: _ =>
    ([], .error (ContainerCommand.error masker "service log collection timed out" text))
  | .chunk text :: rest =>
    let (lines, result) := readLogs dnsAlias rest
    ((textLines text).map (fun line => "[service ".toList ++ dnsAlias ++ "] ".toList ++ line) ++ lines,
      result)

def dumpLogs (container : ServiceContainer) : CleanupTask := do
  let items ← containerLogs container.id
  let (lines, result) := readLogs masker container.dnsAlias items
  forEach serviceLog lines
  collect result

def removeOwned (container : ServiceContainer) : CleanupTask := do
  if container.id ≠ [] then dumpLogs masker container
  let removal ← removeContainer container.name
  collect (removalError masker "remove service container" removal)

def attemptRemovals (group : ServiceContainers) : CleanupTask := do
  forEach (removeOwned masker) group.containers.reverse
  if group.ownsNetwork then do
    let removal ← removeNetwork group.network
    collect (removalError masker "remove service network" removal)

/-- Dump logs and attempt every removal, even after a failure or cancellation. -/
def cleanup {σ : Type} (group : ServiceContainers) : DockerTask σ (Except RunnerError Unit) :=
  reportErrors (attemptRemovals masker group)

/-! `start` -/

/-- The secrets of all registry accounts. -/
def registerAll (specs : List ServiceSpec) (masker : SecretMasker A) : SecretMasker A :=
  specs.foldl (fun masker spec => registerCredentials spec.container.credentials masker) masker

def startGroup {σ : Type} (specs : List ServiceSpec) (group : ServiceContainers) :
    DockerTask σ (Option ServiceContainers) :=
  startOwned "; service cleanup also failed: " (initializeServices masker specs) (cleanup masker) group

/-- Start all services and wait until ready, cleaning partial failures. -/
def start {σ : Type} (specs : List ServiceSpec) (network : Option Str) :
    DockerTask σ (Option ServiceContainers) := do
  if specs = [] then pure none
  else if ← isCancelled then pure none
  else
    let masker := registerAll specs masker
    lift (← connect)
    match network with
    | some network => startGroup masker specs ⟨network, false, [], []⟩
    | none =>
      let uuid ← newUuid
      startGroup masker specs ⟨"toolu_services_".toList ++ uuid, true, [], []⟩

end Source

/-- What the group owns, in the order in which it came to own it. -/
def resources (group : ServiceContainers) : List Resource :=
  (if group.ownsNetwork then [.network group.network] else []) ++
    group.containers.map fun container => .container container.name

/-! ### What a setup does -/

section Traversal

variable {A : AhoCorasick} {masker : SecretMasker A}
variable {rel : ServiceContainers → Log → Bool → ServiceContainers → Prop} {bodies : CreateBody → Prop}

theorem keeps_serviceLog (h : Setup resources bodies rel) (line : Str) : Keeps rel (serviceLog line) :=
  keeps_ask fun group _ => h.quiet group _ rfl rfl rfl

theorem keeps_inspectContext (h : Setup resources bodies rel) (dnsAlias id : Str) :
    Keeps rel (inspectContext masker dnsAlias id) := by
  apply keeps_bind h.toChained
  · exact keeps_ask fun group _ => h.quiet group _ rfl rfl rfl
  · intro reply
    apply keeps_bind h.toChained (keeps_lift h.toChained _)
    intro inspected
    exact keeps_modify fun group => h.update group _ (List.Subset.refl _)

theorem setLastId_append (id : Str) (containers : List ServiceContainer) (last : ServiceContainer) :
    setLastId id (containers ++ [last]) = containers ++ [{ last with id := id }] := by
  simp [setLastId]

theorem keeps_createOwned (h : Setup resources bodies rel) (spec : ServiceSpec) {body : CreateBody}
    (hbody : bodies body) : Keeps rel (createOwned masker spec body) := by
  intro group
  refine ensures_ask_bind Request.newUuid fun uuid => ?_
  have huuid : rel group [⟨.newUuid, uuid⟩] true group := h.quiet group _ rfl rfl rfl
  rw [ensures_bind, ensures_modify, after_ok]
  refine ensures_ask_bind (Request.createContainer _ body) fun reply => ?_
  -- the list names the container with and without its id
  let name := "toolu_service_".toList ++ spec.dnsAlias ++ '_' :: uuid
  let owned (id : Str) : ServiceContainers :=
    { group with containers := group.containers ++ [⟨spec.dnsAlias, name, id⟩] }
  have hpushed : rel group [] true (owned []) :=
    h.update _ _ fun r hr => by
      rw [resources, List.map_append, ← List.append_assoc]
      exact List.mem_append_left _ hr
  have hcreated : rel (owned []) [⟨.createContainer name body, reply⟩] true (owned []) :=
    h.createContainer (by simp [resources, owned]) hbody reply
  have hnamed (id : Str) : rel (owned []) [] true (owned id) :=
    h.update _ _ fun r hr => by simpa [resources, owned] using hr
  cases reply with
  | error e => exact h.trans huuid (h.trans hpushed (h.trans hcreated (h.fail _)))
  | ok id =>
    have hne : group.containers ++ [⟨spec.dnsAlias, name, []⟩] ≠ [] := by simp
    rw [ensures_bind, ensures_lift, orError, after_ok, ensures_bind, ensures_get, after_ok, if_neg hne,
      ensures_bind, ensures_modify, after_ok, ensures_pure, setLastId_append]
    exact h.trans huuid (h.trans hpushed (h.trans hcreated (hnamed id)))

theorem keeps_startOne (h : Setup resources bodies rel) (spec : ServiceSpec) {body : CreateBody}
    (hbody : bodies body) : Keeps rel (startOne masker spec body) := by
  have hc := h.toChained
  apply keeps_bind hc (h.checkCancel _)
  intro _
  apply keeps_bind hc (h.pullImage _ _ _ _)
  intro _
  apply keeps_bind hc (h.checkCancel _)
  intro _
  apply keeps_bind hc (keeps_createOwned h spec hbody)
  intro id
  apply keeps_bind hc (keeps_get hc)
  intro group
  apply keeps_bind hc (keeps_serviceLog h _)
  intro _
  apply keeps_bind hc (h.checkCancel _)
  intro _
  apply keeps_bind hc (keeps_ask fun group => h.startContainer group id)
  intro reply
  apply keeps_bind hc (keeps_lift hc _)
  intro _
  apply keeps_bind hc (keeps_serviceLog h _)
  intro _
  exact keeps_inspectContext h _ _

/-- The health check only looks, pauses and reports. -/
theorem keeps_waitHealthy (h : Setup resources bodies rel) (id dnsAlias : Str) (remaining round : ℕ) :
    Keeps rel (waitHealthy masker id dnsAlias remaining round) := by
  have hc := h.toChained
  induction remaining using Nat.strong_induction_on generalizing round with
  | _ remaining ih =>
    intro group
    rw [ServiceContainers.waitHealthy]
    refine ensures_ask_bind (Request.inspectHealth id) fun reply => ?_
    cases reply with
    | cancelled => exact h.cancelled group _ rfl
    | elapsed text => exact hc.trans (h.quiet group _ rfl rfl rfl) (hc.fail group)
    | answered took result =>
      have hfirst := h.quiet group ⟨.inspectHealth id, .answered took result⟩ rfl rfl rfl
      refine hc.after hfirst (keeps_bind hc (keeps_lift hc _) (fun inspect => ?_) group)
      split
      case h_6 =>
        -- it is still starting: a pause, and the next round if the deadline allows one
        apply keeps_bind hc (keeps_serviceLog h _)
        rintro _ group
        refine ensures_ask_bind (Request.sleep (healthDelay round)) fun reply => ?_
        cases reply with
        | cancelled => exact h.cancelled group _ rfl
        | deadline => exact hc.trans (h.quiet group _ rfl rfl rfl) (hc.fail group)
        | slept late =>
          have hpause := h.quiet group ⟨.sleep (healthDelay round), .slept late⟩ rfl rfl rfl
          refine hc.after hpause ?_
          simp only []
          split
          case isTrue => exact hc.fail group
          case isFalse hleft =>
            have hlt : remaining - took - (healthDelay round + late) < remaining := by
              have := healthDelay_pos round
              omega
            exact ih _ hlt (round + 1) group
      case h_5 => exact keeps_throw hc _
      all_goals exact keeps_pure hc ()

theorem keeps_startAll (h : Setup resources bodies rel) {entries : List (ServiceSpec × CreateBody)}
    (hentries : ∀ entry ∈ entries, bodies entry.2) : Keeps rel (startAll masker entries) := by
  have hc := h.toChained
  apply keeps_bind hc (keeps_forEach hc fun entry he => keeps_startOne h entry.1 (hentries entry he))
  intro _
  apply keeps_bind hc (keeps_get hc)
  intro group
  apply keeps_bind hc
  · apply keeps_forEach hc
    intro container _
    exact keeps_bind hc (h.checkCancel _) fun _ => keeps_waitHealthy h _ _ _ _
  · exact fun _ => h.checkCancel _

/-- A body for each declaration. -/
theorem mapM_eq_ok {α β : Type} {f : α → Except RunnerError β} {as : List α} {bs : List β}
    (h : as.mapM f = .ok bs) : List.Forall₂ (fun a b => f a = .ok b) as bs := by
  induction as generalizing bs with
  | nil =>
    obtain rfl := Except.ok.inj h
    exact .nil
  | cons a as ih =>
    rw [List.mapM_cons, Descent.bind_eq_ok] at h
    obtain ⟨b, hb, hrest⟩ := h
    obtain ⟨bs', hbs, hcons⟩ := Descent.bind_eq_ok.mp hrest
    obtain rfl := Except.ok.inj hcons
    exact .cons hb (ih hbs)

/-- The setup creates what the declarations say, and nothing unless all of them are accepted. -/
theorem keeps_initializeServices (specs : List ServiceSpec) (group : ServiceContainers)
    (h : Setup resources (fun body => ∃ spec ∈ specs, serviceCreateBody spec group.network = .ok body)
      rel) :
    (initializeServices masker specs).Ensures group fun log r group' => rel group log r.isOk group' := by
  have hc := h.toChained
  rw [ServiceContainers.initializeServices, ensures_bind, ensures_get, after_ok, ensures_bind,
    ensures_lift]
  cases hmap : specs.mapM fun spec => serviceCreateBody spec group.network with
  | error e => exact hc.fail group
  | ok bodies =>
    have hall : Keeps rel (startAll masker (specs.zip bodies)) := keeps_startAll h fun entry hentry =>
      ⟨entry.1, (List.of_mem_zip hentry).1, List.forall₂_zip (mapM_eq_ok hmap) hentry⟩
    rw [after_ok, ensures_bind, ensures_checkCancel]
    refine ⟨?_, h.cancelled group _ rfl⟩
    have hgo : rel group [⟨.isCancelled, false⟩] true group := h.quiet group _ rfl rfl rfl
    refine hc.after hgo ?_
    split
    case isTrue howns =>
      refine ensures_ask_bind (Request.createNetwork group.network) fun reply => ?_
      have hnetwork : rel group [⟨.createNetwork group.network, reply⟩] true group :=
        h.createNetwork (by simp [resources, howns]) reply
      refine hc.after hnetwork ?_
      exact keeps_bind hc (keeps_lift hc _) (fun _ => hall) group
    case isFalse => exact hall group

end Traversal

/-! ### Cleanup -/

section Cleanup

variable {A : AhoCorasick} {masker : SecretMasker A}

theorem cleans_report (lines : List Str) : Cleans (forEach serviceLog lines) [] := by
  induction lines with
  | nil => exact cleans_pure
  | cons line lines ih =>
    have hline : Cleans (serviceLog line) [] := fun _ _ =>
      ⟨rfl, List.forall_mem_singleton.mpr rfl, rfl, fun h => ⟨h, List.forall_mem_nil _⟩⟩
    exact hline.then ih

theorem cleans_dumpLogs (container : ServiceContainer) : Cleans (dumpLogs masker container) [] := by
  intro errors
  refine ensures_ask_bind (Request.logs container.id) fun items => ?_
  have hrest := (cleans_report (readLogs masker container.dnsAlias items).1).then
    (cleans_collect (readLogs masker container.dnsAlias items).2)
  apply (hrest errors).mono
  rintro log r errors' ⟨hr, hquiet, hremovals, hgone⟩
  exact ⟨hr, List.forall_mem_cons.mpr ⟨rfl, hquiet⟩, hremovals,
    fun h => ⟨(hgone h).1, List.forall_mem_nil _⟩⟩

theorem cleans_removeOwned (container : ServiceContainer) :
    Cleans (removeOwned masker container) [.container container.name] := by
  have hremove := @cleans_removeContainer A masker "remove service container" container.name
  rw [removeOwned]
  split
  case isTrue => exact (cleans_dumpLogs container).then hremove
  case isFalse => exact hremove

theorem cleans_attemptRemovals (group : ServiceContainers) :
    Cleans (attemptRemovals masker group) group.resources.reverse := by
  have hcontainers : Cleans (forEach (removeOwned masker) group.containers.reverse) _ :=
    cleans_forEach cleans_removeOwned _
  have hreverse : group.resources.reverse =
      (group.containers.reverse.map fun container => Resource.container container.name) ++
        (if group.ownsNetwork then [.network group.network] else []) := by
    rw [resources, List.reverse_append, List.map_reverse]
    split <;> rfl
  rw [hreverse, attemptRemovals]
  apply hcontainers.then
  split
  case isTrue => exact cleans_removeNetwork _ _
  case isFalse => exact cleans_pure

/-- Whatever fails, each owned thing is asked to be removed, the newest first; without an error in the
    result all of it is gone. -/
theorem cleanup_removes {σ : Type} (group : ServiceContainers) :
    Removes (cleanup masker group : DockerTask σ _) group.resources.reverse :=
  (cleans_attemptRemovals group).removes

end Cleanup

end ServiceContainers

end GhRunner.Docker
