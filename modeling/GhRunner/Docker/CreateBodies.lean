import GhRunner.Docker.ContainerOptions
import GhRunner.Docker.Durations
import GhRunner.Docker.VolumeMounts

namespace GhRunner.Docker

open Text Operands
open Descent (bind_eq_ok map_eq_ok)
open GhRunner.Daemon (parseDigits)

/-!
# What the daemon is asked to create

`crates/execution/src/docker/container_ports.rs`, `create_body` of `docker/job_container.rs` and of
`docker/service_create.rs`.

* `applyPorts` — port declarations;
* `jobOwn`, `serviceOwn` — what the runner asks for itself;
* `jobCreateBody`, `serviceCreateBody` — the requests, with the options and the ports of a declaration.
-/

structure PortBinding where
  hostIp : Str
  hostPort : Str
deriving DecidableEq, Repr

/-- The fields of the host part that no option sets. -/
structure HostOthers where
  binds : Option (List Str)
  networkMode : Option Str
  /-- By container port and protocol. -/
  portBindings : Option (List (Str × List PortBinding))
deriving DecidableEq, Repr

instance : Inhabited HostOthers := ⟨⟨none, none, none⟩⟩

/-- The fields of the request that no option sets. -/
structure BodyOthers where
  image : Option Str
  entrypoint : Option (List Str)
  cmd : Option (List Str)
  workingDir : Option Str
  env : Option (List Str)
  labels : Option (List (Str × Str))
  exposedPorts : Option (List Str)
  /-- The aliases on each network of `networking_config`. -/
  endpoints : Option (List (Str × List Str))
deriving DecidableEq, Repr

instance : Inhabited BodyOthers := ⟨⟨none, none, none, none, none, none, none, none⟩⟩

abbrev CreateBody := ContainerCreateBody HostOthers BodyOthers

instance : Inhabited CreateBody := ⟨⟨none, none, none, none, none, default⟩⟩

/-! ### Ports -/

/-- `str::parse::<u16>`. -/
def parseU16 (text : Str) : Option ℕ :=
  let digits := if text.head? = some '+' then text.tail else text
  (parseDigits digits).filter (· < 2 ^ 16)

/-- A number of an address: no zero in front, three digits at most. -/
def isOctet (part : Str) : Bool :=
  part.length ≤ 3 && (part.head? ≠ some '0' || part.length = 1) && (parseDigits part).any (· < 2 ^ 8)

/-- `str::parse::<Ipv4Addr>` succeeds. -/
def isIpv4 (text : Str) : Bool := (text.splitOn '.').length = 4 && (text.splitOn '.').all isOctet

def invalidPort : RunnerError :=
  .docker ("container ports must be [IPv4-address:][host-port:]container-port[/tcp|udp|sctp] with " ++
    "ports 1..65535").toList

def validatePort (port : Str) : Except RunnerError Unit :=
  if (parseU16 port).any (0 < ·) then .ok () else .error invalidPort

/-- One declaration: where it listens, and what it leads to. -/
structure PublishedPort where
  binding : PortBinding
  containerPort : Str
  protocol : Str
deriving DecidableEq, Repr

def PublishedPort.key (port : PublishedPort) : Str := port.containerPort ++ '/' :: port.protocol

/-- The mapping and the protocol. -/
def splitProtocol (port : Str) : Str × Str := (splitFirst ['/'] port).getD (port, "tcp".toList)

def portSegments (mapping : Str) : Option (Str × Str × Str) :=
  match mapping.splitOn ':' with
  | [container] => some ([], [], container)
  | [host, container] => some ([], host, container)
  | [ip, host, container] => some (ip, host, container)
  | _ => none

/-- The ports and the address; what is left out is empty. -/
def checkPort (port : PublishedPort) : Except RunnerError Unit :=
  let ⟨⟨hostIp, hostPort⟩, containerPort, _⟩ := port
  validatePort containerPort
    >>= fun _ => (if hostPort ≠ [] then validatePort hostPort else .ok ())
    >>= fun _ => if hostIp ≠ [] ∧ isIpv4 hostIp = false then .error invalidPort else .ok ()

/-- The checks of one turn of the loop. -/
def readPort (port : Str) : Except RunnerError PublishedPort :=
  let (mapping, protocol) := splitProtocol port
  if protocol ∉ ["tcp", "udp", "sctp"].map String.toList then .error invalidPort
  else match portSegments mapping with
    | none => .error invalidPort
    | some (hostIp, hostPort, containerPort) =>
      let published : PublishedPort := ⟨⟨hostIp, hostPort⟩, containerPort, protocol⟩
      (checkPort published).map fun _ => published

/-- The bindings of a key are kept in the order in which they come. -/
def pushBinding (key : Str) (binding : PortBinding) :
    List (Str × List PortBinding) → List (Str × List PortBinding)
  | [] => [(key, [binding])]
  | (k, bindings) :: rest =>
    if k = key then (k, bindings ++ [binding]) :: rest else (k, bindings) :: pushBinding key binding rest

def portStep (s : List Str × List (Str × List PortBinding)) (port : Str) :
    Except RunnerError (List Str × List (Str × List PortBinding)) :=
  (readPort port).map fun published =>
    (s.1 ++ [published.key], pushBinding published.key published.binding s.2)

/-- Apply container ports and optional host addresses without shell parsing. -/
def applyPorts (ports : List Str) (body : CreateBody) : Except RunnerError CreateBody := do
  let (exposed, bindings) ← ports.foldlM portStep ([], [])
  let body := { body with others := { body.others with exposedPorts := some exposed } }
  return body.onHost fun config =>
    { config with others := { config.others with portBindings := some bindings } }

/-! ### The requests -/

structure ContainerCredentials where
  username : Str
  password : Str
deriving DecidableEq, Repr

/-- An evaluated declaration; the environment has each name once. -/
structure ContainerSpec where
  image : Str
  credentials : Option ContainerCredentials
  env : List (Str × Str)
  ports : List Str
  volumes : List Str
  options : List Str
deriving DecidableEq, Repr

structure ServiceSpec where
  dnsAlias : Str
  container : ContainerSpec
deriving DecidableEq, Repr

/-- A variable is set where it stands, or at the end. -/
def setVariable (name value : Str) : List (Str × Str) → List (Str × Str)
  | [] => [(name, value)]
  | (k, v) :: rest => if k = name then (k, value) :: rest else (k, v) :: setVariable name value rest

/-- The process flags of a container, without tracking: `CI` only where it is absent. -/
def applyProcessEnv (baseCi : Str) (env : List (Str × Str)) : List (Str × Str) :=
  let env := setVariable "GITHUB_ACTIONS".toList "true".toList env
  if env.any (·.1 = "CI".toList) then env else env ++ [("CI".toList, baseCi)]

def envEntry (entry : Str × Str) : Str := entry.1 ++ '=' :: entry.2

/-- The options and the ports of a declaration, on a request that has the runner's fields. -/
def declare (spec : ContainerSpec) (body : CreateBody) : Except RunnerError CreateBody :=
  (applyContainerOptions spec.options body).mapError (fun e => .config e.message)
    >>= applyPorts spec.ports

/-- The runner's fields of a job container. -/
def jobOwn (spec : ContainerSpec) (mounts : List Str) (network baseCi : Str) : CreateBody :=
  { (default : CreateBody) with
    hostConfig := some { (default : HostConfig HostOthers) with
      others := ⟨some (mounts ++ spec.volumes), some network, none⟩ }
    others := { (default : BodyOthers) with
      image := some spec.image
      entrypoint := some ["tail".toList]
      cmd := some ["-f".toList, "/dev/null".toList]
      workingDir := some "/github/workspace".toList
      env := some ((applyProcessEnv baseCi
        (setVariable "HOME".toList "/github/home".toList spec.env)).map envEntry)
      labels := some [("io.toolu.job-container".toList, "true".toList)] } }

/-- `JobContainer::create_body`. -/
def jobCreateBody (spec : ContainerSpec) (mounts : List Str) (network baseCi : Str) :
    Except RunnerError CreateBody :=
  declare spec (jobOwn spec mounts network baseCi)

/-- The runner's fields of a service container. -/
def serviceOwn (spec : ServiceSpec) (network : Str) : CreateBody :=
  { (default : CreateBody) with
    hostConfig := some { (default : HostConfig HostOthers) with
      others := ⟨some spec.container.volumes, some network, none⟩ }
    others := { (default : BodyOthers) with
      image := some spec.container.image
      env := some (spec.container.env.map envEntry)
      labels := some [("io.toolu.service-container".toList, "true".toList)]
      endpoints := some [(network, [spec.dnsAlias])] } }

/-- `create_body` of `docker/service_create.rs`. -/
def serviceCreateBody (spec : ServiceSpec) (network : Str) : Except RunnerError CreateBody := do
  spec.container.volumes.forM validateVolume
  declare spec.container (serviceOwn spec network)

/-! ### Checks -/

/-- One check after another. -/
theorem check_bind_eq_ok {α : Type} {check : Except RunnerError Unit} {next : Except RunnerError α}
    {a : α} : (check >>= fun _ => next) = .ok a ↔ check = .ok () ∧ next = .ok a := by
  rw [bind_eq_ok]
  exact ⟨fun ⟨_, h⟩ => h, fun h => ⟨(), h⟩⟩

theorem forM_eq_ok {α : Type} {check : α → Except RunnerError Unit} {as : List α} :
    as.forM check = .ok () ↔ ∀ a ∈ as, check a = .ok () := by
  induction as with
  | nil => simp [pure, Except.pure]
  | cons a as ih =>
    show (check a >>= fun _ => as.forM check) = .ok () ↔ _
    rw [check_bind_eq_ok, List.forall_mem_cons, ih]

end GhRunner.Docker
