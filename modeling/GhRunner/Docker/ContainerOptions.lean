import GhRunner.Docker.OptionValues
import GhRunner.Lib.Descent
import GhRunner.Lib.Operands

namespace GhRunner.Docker

open Text Operands

/-!
# Container options

The `options` of a job container: parsed into arguments, and the arguments applied to the request
(`crates/execution/src/docker/container_options.rs`, `docker/container_health_options.rs`,
`docker/container_create_options.rs`).

* `Flag` — the flags that the three modules name, each module in tables of its own;
* `parseContainerOptions`, `applyHealthOptions`, `applyContainerOptions` — the parser and the two
  passes, each a loop over words;
* `Item` — a switch, or a flag with its value;
* `parseContainerOptions_eq` — the arguments are the items, written one after another;
* `fits_healthStep`, `fits_createStep` — both passes ask for a value at the same flags as the parser;
* `Understood` results — neither pass takes an item for something else;
* `settled` — what a list of items asks of the request;
* `options_read_alike` — both passes read the items of the parser, and set what these ask for.
-/

/-! ### Flags -/

inductive Flag
  | cpus | cpuShares | cpuPeriod | cpuQuota | cpusetCpus | cpusetMems
  | memory | memoryReservation | memorySwap | memorySwappiness | pidsLimit
  | ulimit | user | groupAdd | hostname | domainname | capAdd | capDrop | securityOpt
  | healthCmd | healthInterval | healthTimeout | healthRetries | healthStartPeriod | healthStartInterval
  | privileged | readOnly | noHealthcheck
  | name | network | net | entrypoint | workdir | volume | mount | tmpfs | env | envFile | v | w | e
deriving DecidableEq, Repr

namespace Flag

def text : Flag → Str
  | cpus => "--cpus".toList
  | cpuShares => "--cpu-shares".toList
  | cpuPeriod => "--cpu-period".toList
  | cpuQuota => "--cpu-quota".toList
  | cpusetCpus => "--cpuset-cpus".toList
  | cpusetMems => "--cpuset-mems".toList
  | memory => "--memory".toList
  | memoryReservation => "--memory-reservation".toList
  | memorySwap => "--memory-swap".toList
  | memorySwappiness => "--memory-swappiness".toList
  | pidsLimit => "--pids-limit".toList
  | ulimit => "--ulimit".toList
  | user => "--user".toList
  | groupAdd => "--group-add".toList
  | hostname => "--hostname".toList
  | domainname => "--domainname".toList
  | capAdd => "--cap-add".toList
  | capDrop => "--cap-drop".toList
  | securityOpt => "--security-opt".toList
  | healthCmd => "--health-cmd".toList
  | healthInterval => "--health-interval".toList
  | healthTimeout => "--health-timeout".toList
  | healthRetries => "--health-retries".toList
  | healthStartPeriod => "--health-start-period".toList
  | healthStartInterval => "--health-start-interval".toList
  | privileged => "--privileged".toList
  | readOnly => "--read-only".toList
  | noHealthcheck => "--no-healthcheck".toList
  | name => "--name".toList
  | network => "--network".toList
  | net => "--net".toList
  | entrypoint => "--entrypoint".toList
  | workdir => "--workdir".toList
  | volume => "--volume".toList
  | mount => "--mount".toList
  | tmpfs => "--tmpfs".toList
  | env => "--env".toList
  | envFile => "--env-file".toList
  | v => "-v".toList
  | w => "-w".toList
  | e => "-e".toList

def all : List Flag :=
  [cpus, cpuShares, cpuPeriod, cpuQuota, cpusetCpus, cpusetMems, memory, memoryReservation, memorySwap,
    memorySwappiness, pidsLimit, ulimit, user, groupAdd, hostname, domainname, capAdd, capDrop,
    securityOpt, healthCmd, healthInterval, healthTimeout, healthRetries, healthStartPeriod,
    healthStartInterval, privileged, readOnly, noHealthcheck, name, network, net, entrypoint, workdir,
    volume, mount, tmpfs, env, envFile, v, w, e]

/-- The flag a word spells. -/
def named (word : Str) : Option Flag := all.find? fun flag => flag.text = word

theorem mem_all (flag : Flag) : flag ∈ all := by
  cases flag <;> decide

theorem text_injective : Function.Injective text := by
  have hnodup : (all.map text).Nodup := by
    unfold all
    simp only [List.map_cons, List.map_nil]
    unfold text
    -- without this the kernel reads every text out of its bytes
    repeat rw [String.toList_ofList]
    decide
  exact fun flag flag' => List.inj_on_of_nodup_map hnodup flag.mem_all flag'.mem_all

theorem named_text (flag : Flag) : named flag.text = some flag := by
  cases hfound : named flag.text with
  | none =>
    have hnone := List.find?_eq_none.mp hfound flag flag.mem_all
    simp at hnone
  | some found =>
    have htext := List.find?_some hfound
    exact congrArg some (text_injective (by simpa using htext))

/-! The tables of the parser. -/

def valueFlag : Flag → Bool
  | cpus | cpuShares | cpuPeriod | cpuQuota | cpusetCpus | cpusetMems | memory | memoryReservation
  | memorySwap | memorySwappiness | pidsLimit | ulimit | user | groupAdd | hostname | domainname
  | capAdd | capDrop | securityOpt | healthCmd | healthInterval | healthTimeout | healthRetries
  | healthStartPeriod | healthStartInterval => true
  | _ => false

def switchFlag : Flag → Bool
  | privileged | readOnly | noHealthcheck => true
  | _ => false

def reservedFlag : Flag → Bool
  | name | network | net | entrypoint | workdir | volume | mount | tmpfs | env | envFile | v | w | e =>
    true
  | _ => false

/-! The tables of the pass over the health flags. -/

def isHealthOption : Flag → Bool
  | healthCmd | healthInterval | healthTimeout | healthRetries | healthStartPeriod | healthStartInterval
  | noHealthcheck => true
  | _ => false

def takesValue : Flag → Bool
  | cpus | cpuShares | cpuPeriod | cpuQuota | cpusetCpus | cpusetMems | memory | memoryReservation
  | memorySwap | memorySwappiness | pidsLimit | ulimit | user | groupAdd | hostname | domainname
  | capAdd | capDrop | securityOpt => true
  | _ => false

end Flag

/-! ### The parser -/

/-- A switch, or a flag with its value. -/
structure Item where
  flag : Flag
  value : Option Str
  takes : flag.valueFlag = value.isSome
  known : value = none → flag.switchFlag = true

namespace Item

def words (item : Item) : Str × Option Str := (item.flag.text, item.value)

end Item

abbrev OptionTurn (σ : Type) := Turn Str OptionError σ

/-- The word before the first `=` and what follows it. -/
def splitOption (word : Str) : Str × Option Str :=
  ((splitFirst ['='] word).map fun parts => (parts.1, some parts.2)).getD (word, none)

/-- A value given with the flag must not be empty, the next word must not start with two dashes. -/
def optionValue {σ : Type} (flag : Str) (inlineValue : Option Str)
    (use : Str → Except OptionError σ) : OptionTurn σ :=
  match inlineValue with
  | some value => .done (if value ≠ [] then use value else .error (.valueRequired flag))
  | none => .next fun word =>
    match word with
    | some value =>
      if ¬ "--".toList <+: value then use value else .error (.valueRequired flag)
    | none => .error (.valueRequired flag)

/-- What `parse_option` makes of a word. -/
def parseItem (word : Str) : OptionTurn Item :=
  if word = "--".toList ∨ word.head? ≠ some '-' ∨ word = "-".toList then .done (.error .positional)
  else
    let (name, inlineValue) := splitOption word
    match Flag.named name with
    | none => .done (.error (.unsupported name))
    | some flag =>
      if flag.reservedFlag then .done (.error (.reserved name))
      else if hvalue : flag.valueFlag then
        optionValue name inlineValue fun value => .ok ⟨flag, some value, hvalue, fun h => by cases h⟩
      else if hswitch : flag.switchFlag then
        if inlineValue = none then
          .done (.ok ⟨flag, none, Bool.eq_false_iff.mpr hvalue, fun _ => hswitch⟩)
        else .done (.error (.valueGiven name))
      else .done (.error (.unsupported name))

/-- The item is pushed, its flag and then its value. -/
def parseOption (word : Str) (parsed : List Str) : OptionTurn (List Str) :=
  (parseItem word).map fun item => parsed ++ item.flag.text :: item.value.toList

section Parser

-- splits a text into the words of a shell, or fails
variable (shlexSplit : Str → Option (List Str))

def parseContainerOptions (input : Str) : Except OptionError (List Str) :=
  (shlexSplit input).elim (.error .invalidQuoting) fun words => run parseOption words []

/-- The items in the order in which they are pushed. -/
def parsedItems (input : Str) : Except OptionError (List Item) :=
  (shlexSplit input).elim (.error .invalidQuoting) fun words =>
    run (fun word items => (parseItem word).map fun item => items ++ [item]) words []

end Parser

/-! ### The request -/

structure HealthConfig where
  test : Option (List Str)
  interval : Option ℤ
  timeout : Option ℤ
  retries : Option ℤ
  startPeriod : Option ℤ
  startInterval : Option ℤ
deriving DecidableEq, Repr

instance : Inhabited HealthConfig := ⟨⟨none, none, none, none, none, none⟩⟩

/-- The host part of the request.  Of the fields that no option sets there is one. -/
structure HostConfig (α : Type) where
  nanoCpus : Option ℤ
  cpuShares : Option ℤ
  cpuPeriod : Option ℤ
  cpuQuota : Option ℤ
  cpusetCpus : Option Str
  cpusetMems : Option Str
  memory : Option ℤ
  memoryReservation : Option ℤ
  memorySwap : Option ℤ
  memorySwappiness : Option ℤ
  pidsLimit : Option ℤ
  privileged : Option Bool
  readonlyRootfs : Option Bool
  groupAdd : Option (List Str)
  capAdd : Option (List Str)
  capDrop : Option (List Str)
  securityOpt : Option (List Str)
  ulimits : Option (List ResourcesUlimits)
  others : α
deriving DecidableEq, Repr

instance {α : Type} [Inhabited α] : Inhabited (HostConfig α) :=
  ⟨⟨none, none, none, none, none, none, none, none, none, none, none, none, none, none, none, none,
    none, none, default⟩⟩

structure ContainerCreateBody (α β : Type) where
  user : Option Str
  hostname : Option Str
  domainname : Option Str
  healthcheck : Option HealthConfig
  hostConfig : Option (HostConfig α)
  others : β
deriving DecidableEq, Repr

/-! ### The pass over the health flags -/

structure HealthState where
  health : HealthConfig
  hasHealthOption : Bool
  disabled : Bool
deriving DecidableEq, Repr

def nextValue {σ : Type} (flag : Str) (use : Str → Except OptionError σ) : OptionTurn σ :=
  .next fun word => word.elim (.error (.valueRequired flag)) use

def setHealth (flag : Flag) (value : Str) (health : HealthConfig) : Except OptionError HealthConfig :=
  match flag with
  | .healthCmd => .ok { health with test := some ["CMD-SHELL".toList, value] }
  | .healthInterval =>
    (parseDuration flag.text value).map fun n => { health with interval := some n }
  | .healthTimeout => (parseDuration flag.text value).map fun n => { health with timeout := some n }
  | .healthRetries => (parseRetries value).map fun n => { health with retries := some n }
  | .healthStartPeriod =>
    (parseDuration flag.text value).map fun n => { health with startPeriod := some n }
  | .healthStartInterval =>
    (parseDuration flag.text value).map fun n => { health with startInterval := some n }
  | _ => .error .unsupportedHealth

/-- One turn of the loop.  A word that is no flag is left behind, as is a flag that is no health flag,
    together with its value. -/
def healthStep (word : Str) (s : HealthState) : OptionTurn HealthState :=
  match Flag.named word with
  | none => .done (.ok s)
  | some flag =>
    if !flag.isHealthOption then
      if flag.takesValue then nextValue word fun _ => .ok s else .done (.ok s)
    else if flag = .noHealthcheck then .done (.ok { s with hasHealthOption := true, disabled := true })
    else nextValue word fun value =>
      (setHealth flag value s.health).map fun health =>
        { s with health := health, hasHealthOption := true }

def hasOtherSettings (health : HealthConfig) : Bool :=
  health.interval.isSome || health.timeout.isSome || health.retries.isSome ||
    health.startPeriod.isSome || health.startInterval.isSome || health.test.isSome

section Passes

variable {α β : Type}

/-- What follows the loop. -/
def finishHealth (s : HealthState) (body : ContainerCreateBody α β) :
    Except OptionError (ContainerCreateBody α β) :=
  if s.disabled && hasOtherSettings s.health then .error .healthDisabled
  else
    let health := if s.disabled then { s.health with test := some ["NONE".toList] } else s.health
    .ok (if s.hasHealthOption then { body with healthcheck := some health } else body)

def applyHealthOptions (options : List Str) (body : ContainerCreateBody α β) :
    Except OptionError (ContainerCreateBody α β) :=
  (run healthStep options ⟨default, false, false⟩).bind fun s => finishHealth s body

/-! ### The pass over the other flags -/

variable [Inhabited α]

/-- A change to the host part, which is made where there is none. -/
def ContainerCreateBody.onHost (body : ContainerCreateBody α β) (f : HostConfig α → HostConfig α) :
    ContainerCreateBody α β :=
  { body with hostConfig := some (f (body.hostConfig.getD default)) }

def push {γ : Type} (values : Option (List γ)) (value : γ) : Option (List γ) :=
  some (values.getD [] ++ [value])

def applyIdentity (flag : Flag) (word : Str) (body : ContainerCreateBody α β) :
    OptionTurn (ContainerCreateBody α β) :=
  match flag with
  | .privileged => .done (.ok (body.onHost fun config => { config with privileged := some true }))
  | .readOnly => .done (.ok (body.onHost fun config => { config with readonlyRootfs := some true }))
  | .user => nextValue word fun value => .ok { body with user := some value }
  | .hostname => nextValue word fun value => .ok { body with hostname := some value }
  | .domainname => nextValue word fun value => .ok { body with domainname := some value }
  | _ => .done (.error .unsupportedIdentity)

def setResource (flag : Flag) (value : Str) (config : HostConfig α) :
    Except OptionError (HostConfig α) :=
  match flag with
  | .cpus => (parseNanoCpus value).map fun n => { config with nanoCpus := some n }
  | .cpuShares => (parseNumber flag.text value).map fun n => { config with cpuShares := some n }
  | .cpuPeriod => (parseNumber flag.text value).map fun n => { config with cpuPeriod := some n }
  | .cpuQuota => (parseNumber flag.text value).map fun n => { config with cpuQuota := some n }
  | .cpusetCpus => .ok { config with cpusetCpus := some value }
  | .cpusetMems => .ok { config with cpusetMems := some value }
  | .memory => (parseMemory flag.text value).map fun n => { config with memory := some n }
  | .memoryReservation =>
    (parseMemory flag.text value).map fun n => { config with memoryReservation := some n }
  | .memorySwap => (parseMemory flag.text value).map fun n => { config with memorySwap := some n }
  | .memorySwappiness =>
    (parseNumber flag.text value).map fun n => { config with memorySwappiness := some n }
  | .pidsLimit => (parseNumber flag.text value).map fun n => { config with pidsLimit := some n }
  | _ => .error .unsupportedResource

def setSecurity (flag : Flag) (value : Str) (config : HostConfig α) :
    Except OptionError (HostConfig α) :=
  match flag with
  | .groupAdd => .ok { config with groupAdd := push config.groupAdd value }
  | .capAdd => .ok { config with capAdd := push config.capAdd value }
  | .capDrop => .ok { config with capDrop := push config.capDrop value }
  | .securityOpt => .ok { config with securityOpt := push config.securityOpt value }
  | .ulimit => (parseUlimit value).map fun limit => { config with ulimits := push config.ulimits limit }
  | _ => .error .unsupportedSecurity

/-- A flag whose value changes the host part. -/
def applyHost (set : Flag → Str → HostConfig α → Except OptionError (HostConfig α)) (flag : Flag)
    (word : Str) (body : ContainerCreateBody α β) : OptionTurn (ContainerCreateBody α β) :=
  nextValue word fun value =>
    (set flag value (body.hostConfig.getD default)).map fun config => body.onHost fun _ => config

def applyOption (flag : Flag) (word : Str) (body : ContainerCreateBody α β) :
    OptionTurn (ContainerCreateBody α β) :=
  match flag with
  | .privileged | .readOnly | .user | .hostname | .domainname => applyIdentity flag word body
  | .cpus | .cpuShares | .cpuPeriod | .cpuQuota | .cpusetCpus | .cpusetMems | .memory
  | .memoryReservation | .memorySwap | .memorySwappiness | .pidsLimit =>
    applyHost setResource flag word body
  | .groupAdd | .capAdd | .capDrop | .securityOpt | .ulimit => applyHost setSecurity flag word body
  | _ => .done (.error .unsupportedOption)

def createStep (word : Str) (body : ContainerCreateBody α β) : OptionTurn (ContainerCreateBody α β) :=
  match Flag.named word with
  | none => .done (.error .unsupportedOption)
  | some flag =>
    if flag.isHealthOption then
      if flag ≠ .noHealthcheck then nextValue word fun _ => .ok body else .done (.ok body)
    else applyOption flag word body

def applyContainerOptions (options : List Str) (body : ContainerCreateBody α β) :
    Except OptionError (ContainerCreateBody α β) :=
  (applyHealthOptions options body).bind fun body => run createStep options body

end Passes

/-! ### The arguments are items -/

/-- The arguments are the parsed items, written one after another. -/
theorem parseContainerOptions_eq (shlexSplit : Str → Option (List Str)) (input : Str) :
    parseContainerOptions shlexSplit input =
      (parsedItems shlexSplit input).map fun items => flat (items.map Item.words) := by
  have hstep : ∀ word (items : List Item),
      parseOption word (flat (items.map Item.words)) =
        ((parseItem word).map fun item => items ++ [item]).map fun items =>
          flat (items.map Item.words) := by
    intro word items
    have hpush : ∀ item : Item, flat ((items ++ [item]).map Item.words) =
        flat (items.map Item.words) ++ item.flag.text :: item.value.toList := by
      intro item
      rw [List.map_append, flat_append, List.map_singleton, flat_singleton]
      rfl
    rw [parseOption, Turn.map_map]
    exact congrArg (fun f => (parseItem word).map f) (funext fun item => (hpush item).symm)
  rw [parseContainerOptions, parsedItems]
  cases shlexSplit input with
  | none => rfl
  | some words => exact run_map (fun items => flat (items.map Item.words)) hstep words []

/-! ### Both passes ask where the parser took a value -/

theorem fits_healthStep (item : Item) : Fits healthStep item.words := by
  obtain ⟨flag, value, htakes, -⟩ := item
  intro s
  show (healthStep flag.text s).asks = value.isSome
  rw [← htakes, healthStep, Flag.named_text]
  cases flag <;> rfl

section Passes

variable {α β : Type} [Inhabited α]

theorem fits_createStep (item : Item) : Fits (createStep (α := α) (β := β)) item.words := by
  obtain ⟨flag, value, htakes, -⟩ := item
  intro s
  show (createStep flag.text s).asks = value.isSome
  rw [← htakes, createStep, Flag.named_text]
  cases flag <;> rfl

/-! ### Errors -/

theorem understood_setHealth {flag : Flag} (hhealth : flag.isHealthOption = true)
    (hvalue : flag.valueFlag = true) (value : Str) (health : HealthConfig) :
    Understood (setHealth flag value health) := by
  cases flag
  case healthCmd => exact .ok _
  case healthRetries => exact .map _ (understood_parseRetries value)
  case healthInterval | healthTimeout | healthStartPeriod | healthStartInterval =>
    exact .map _ (understood_parseDuration _ value)
  all_goals first | exact absurd hhealth (by decide) | exact absurd hvalue (by decide)

/-- A flag is asked for its value where it has one, and is used where it has none. -/
theorem understood_nextValue {σ : Type} {flag : Str} {use : Str → Except OptionError σ}
    (h : ∀ value, Understood (use value)) {value : Option Str} (hvalue : value.isSome = true) :
    Understood ((nextValue flag use).on value) := by
  obtain ⟨value, rfl⟩ := Option.isSome_iff_exists.mp hvalue
  exact h value

/-- On an item, the pass over the health flags does not take one thing for another. -/
theorem understood_healthStep (item : Item) (s : HealthState) :
    Understood ((healthStep item.words.1 s).on item.words.2) := by
  obtain ⟨flag, value, htakes, -⟩ := item
  show Understood ((healthStep flag.text s).on value)
  rw [healthStep, Flag.named_text]
  dsimp only
  split
  case isTrue hhealth =>
    split
    case isTrue hvalue =>
      refine understood_nextValue (fun _ => .ok _) ?_
      rw [← htakes]
      revert hvalue
      cases flag <;> decide
    case isFalse => exact .ok _
  case isFalse hhealth =>
    have hhealth : flag.isHealthOption = true := by simpa using hhealth
    split
    case isTrue => exact .ok _
    case isFalse hswitch =>
      have hvalue : flag.valueFlag = true := by
        revert hhealth hswitch
        cases flag <;> decide
      exact understood_nextValue (fun value => .map _ (understood_setHealth hhealth hvalue value _))
        (htakes ▸ hvalue)

theorem understood_createStep (item : Item) (body : ContainerCreateBody α β) :
    Understood ((createStep item.words.1 body).on item.words.2) := by
  obtain ⟨flag, value, htakes, hknown⟩ := item
  show Understood ((createStep flag.text body).on value)
  rw [createStep, Flag.named_text]
  cases value with
  | none =>
    have hswitch : flag.switchFlag = true := hknown rfl
    cases flag
    case privileged | readOnly | noHealthcheck => exact .ok _
    all_goals exact absurd hswitch (by decide)
  | some value =>
    have hvalue : flag.valueFlag = true := htakes
    cases flag
    case user | hostname | domainname => exact .ok _
    case cpusetCpus | cpusetMems => exact .ok _
    case groupAdd | capAdd | capDrop | securityOpt => exact .ok _
    case cpus => exact .map _ (.map _ (understood_parseNanoCpus value))
    case cpuShares | cpuPeriod | cpuQuota | memorySwappiness | pidsLimit =>
      exact .map _ (.map _ (understood_parseNumber _ value))
    case memory | memoryReservation | memorySwap =>
      exact .map _ (.map _ (understood_parseMemory _ value))
    case ulimit => exact .map _ (.map _ (understood_parseUlimit value))
    case healthCmd | healthInterval | healthTimeout | healthRetries | healthStartPeriod
        | healthStartInterval => exact .ok _
    all_goals exact absurd hvalue (by decide)

end Passes

/-! ### What the items ask for -/

section Settled

/-- The values that a flag is given, in their order. -/
def given (items : List Item) (flag : Flag) : List Str :=
  items.filterMap fun item => if item.flag = flag then item.value else none

def listed (items : List Item) (p : Flag → Bool) : Bool := items.any fun item => p item.flag

variable {γ : Type}

/-- The last value of a flag is what is set, without one there is what was there before. -/
def overridden (items : List Item) (flag : Flag) (read : Str → Except OptionError γ) (old : Option γ) :
    Option γ :=
  (given items flag).getLast?.elim old fun value => (read value).toOption

/-- All values of a flag are added to what was there before. -/
def accumulated (items : List Item) (flag : Flag) (read : Str → Except OptionError γ)
    (old : Option (List γ)) : Option (List γ) :=
  if given items flag = [] then old
  else some (old.getD [] ++ (given items flag).filterMap fun value => (read value).toOption)

def switchedOn (items : List Item) (flag : Flag) (old : Option Bool) : Option Bool :=
  if listed items (· = flag) then some true else old

/-- The health check, as far as values are given for it. -/
def checkedHealth (items : List Item) (health : HealthConfig) : HealthConfig where
  test := overridden items .healthCmd (fun value => .ok ["CMD-SHELL".toList, value]) health.test
  interval := overridden items .healthInterval (parseDuration Flag.healthInterval.text) health.interval
  timeout := overridden items .healthTimeout (parseDuration Flag.healthTimeout.text) health.timeout
  retries := overridden items .healthRetries parseRetries health.retries
  startPeriod :=
    overridden items .healthStartPeriod (parseDuration Flag.healthStartPeriod.text) health.startPeriod
  startInterval :=
    overridden items .healthStartInterval (parseDuration Flag.healthStartInterval.text)
      health.startInterval

def settledHealth (items : List Item) : HealthConfig :=
  if listed items (· = .noHealthcheck) then
    { checkedHealth items default with test := some ["NONE".toList] }
  else checkedHealth items default

variable {α β : Type}

def settledHost (items : List Item) (config : HostConfig α) : HostConfig α :=
  { config with
    nanoCpus := overridden items .cpus parseNanoCpus config.nanoCpus
    cpuShares := overridden items .cpuShares (parseNumber Flag.cpuShares.text) config.cpuShares
    cpuPeriod := overridden items .cpuPeriod (parseNumber Flag.cpuPeriod.text) config.cpuPeriod
    cpuQuota := overridden items .cpuQuota (parseNumber Flag.cpuQuota.text) config.cpuQuota
    cpusetCpus := overridden items .cpusetCpus .ok config.cpusetCpus
    cpusetMems := overridden items .cpusetMems .ok config.cpusetMems
    memory := overridden items .memory (parseMemory Flag.memory.text) config.memory
    memoryReservation :=
      overridden items .memoryReservation (parseMemory Flag.memoryReservation.text)
        config.memoryReservation
    memorySwap := overridden items .memorySwap (parseMemory Flag.memorySwap.text) config.memorySwap
    memorySwappiness :=
      overridden items .memorySwappiness (parseNumber Flag.memorySwappiness.text)
        config.memorySwappiness
    pidsLimit := overridden items .pidsLimit (parseNumber Flag.pidsLimit.text) config.pidsLimit
    privileged := switchedOn items .privileged config.privileged
    readonlyRootfs := switchedOn items .readOnly config.readonlyRootfs
    groupAdd := accumulated items .groupAdd .ok config.groupAdd
    capAdd := accumulated items .capAdd .ok config.capAdd
    capDrop := accumulated items .capDrop .ok config.capDrop
    securityOpt := accumulated items .securityOpt .ok config.securityOpt
    ulimits := accumulated items .ulimit parseUlimit config.ulimits }

/-- The flags with a field of their own outside of the host part. -/
def Flag.ofBody : Flag → Bool
  | user | hostname | domainname => true
  | _ => false

def Flag.ofHost (flag : Flag) : Bool := !flag.isHealthOption && !flag.ofBody

variable [Inhabited α]

/-- The request without its health check. -/
def settledBody (items : List Item) (body : ContainerCreateBody α β) : ContainerCreateBody α β :=
  { body with
    user := overridden items .user .ok body.user
    hostname := overridden items .hostname .ok body.hostname
    domainname := overridden items .domainname .ok body.domainname
    hostConfig :=
      if listed items Flag.ofHost then some (settledHost items (body.hostConfig.getD default))
      else body.hostConfig }

/-- What the items ask for: a flag sets its field, and nothing else. -/
def settled (items : List Item) (body : ContainerCreateBody α β) : ContainerCreateBody α β :=
  settledBody items { body with
    healthcheck :=
      if listed items Flag.isHealthOption then some (settledHealth items) else body.healthcheck }

/-! Items after items. -/

theorem given_append (items items' : List Item) (flag : Flag) :
    given (items ++ items') flag = given items flag ++ given items' flag := List.filterMap_append

theorem listed_append (items items' : List Item) (p : Flag → Bool) :
    listed (items ++ items') p = (listed items p || listed items' p) := List.any_append

theorem overridden_append (items items' : List Item) (flag : Flag) (read : Str → Except OptionError γ)
    (old : Option γ) :
    overridden (items ++ items') flag read old =
      overridden items' flag read (overridden items flag read old) := by
  rw [overridden, overridden, overridden, given_append, List.getLast?_append]
  cases (given items' flag).getLast? <;> rfl

theorem accumulated_append (items items' : List Item) (flag : Flag)
    (read : Str → Except OptionError γ) (old : Option (List γ)) :
    accumulated (items ++ items') flag read old =
      accumulated items' flag read (accumulated items flag read old) := by
  unfold accumulated
  rw [given_append, List.filterMap_append]
  by_cases h : given items flag = []
  · by_cases h' : given items' flag = [] <;> simp [h, h']
  · by_cases h' : given items' flag = [] <;> simp [h, h']

theorem switchedOn_append (items items' : List Item) (flag : Flag) (old : Option Bool) :
    switchedOn (items ++ items') flag old = switchedOn items' flag (switchedOn items flag old) := by
  rw [switchedOn, switchedOn, switchedOn, listed_append]
  cases listed items (· = flag) <;> cases listed items' (· = flag) <;> rfl

omit [Inhabited α] in
theorem settledHost_append (items items' : List Item) (config : HostConfig α) :
    settledHost (items ++ items') config = settledHost items' (settledHost items config) := by
  simp only [settledHost, overridden_append, accumulated_append, switchedOn_append]

omit [Inhabited α] in
/-- Flags of other fields leave the host part alone. -/
theorem settledHost_of_not_listed {items : List Item} (h : listed items Flag.ofHost = false)
    (config : HostConfig α) : settledHost items config = config := by
  have hgiven : ∀ flag, flag.ofHost = true → given items flag = [] := by
    intro flag hflag
    refine List.filterMap_eq_nil_iff.mpr fun item hitem => if_neg ?_
    rintro rfl
    exact absurd hflag (by simpa using List.any_eq_false.mp h item hitem)
  have hlisted : ∀ flag, flag.ofHost = true → listed items (· = flag) = false := by
    intro flag hflag
    refine List.any_eq_false.mpr fun item hitem hsame => ?_
    have hsame : item.flag = flag := by simpa using hsame
    exact List.any_eq_false.mp h item hitem (hsame ▸ hflag)
  simp [settledHost, overridden, accumulated, switchedOn, hgiven, hlisted, Flag.ofHost,
    Flag.isHealthOption, Flag.ofBody]

theorem settledBody_append (items items' : List Item) (body : ContainerCreateBody α β) :
    settledBody (items ++ items') body = settledBody items' (settledBody items body) := by
  simp only [settledBody, overridden_append, listed_append, settledHost_append]
  congr 1
  cases h : listed items Flag.ofHost <;> cases h' : listed items' Flag.ofHost
  · rfl
  · simp [settledHost_of_not_listed h]
  · simp [settledHost_of_not_listed h']
  · rfl

theorem checkedHealth_append (items items' : List Item) (health : HealthConfig) :
    checkedHealth (items ++ items') health = checkedHealth items' (checkedHealth items health) := by
  simp only [checkedHealth, overridden_append]

/-! One item. -/

theorem overridden_singleton (item : Item) (flag : Flag) (read : Str → Except OptionError γ)
    (old : Option γ) :
    overridden [item] flag read old =
      if item.flag = flag then item.value.elim old fun value => (read value).toOption else old := by
  rw [overridden, given, List.filterMap_cons, List.filterMap_nil]
  split_ifs with h
  · cases item.value <;> rfl
  · rfl

theorem accumulated_singleton (item : Item) (flag : Flag) (read : Str → Except OptionError γ)
    (old : Option (List γ)) :
    accumulated [item] flag read old =
      if item.flag = flag then
        item.value.elim old fun value => some (old.getD [] ++ (read value).toOption.toList)
      else old := by
  rw [accumulated, given, List.filterMap_cons, List.filterMap_nil]
  by_cases h : item.flag = flag
  · cases hvalue : item.value with
    | none => simp [h]
    | some value => cases hread : read value <;> simp [h, hread, Except.toOption]
  · simp [h]

theorem listed_singleton (item : Item) (p : Flag → Bool) : listed [item] p = p item.flag := by
  simp [listed]

theorem switchedOn_singleton (item : Item) (flag : Flag) (old : Option Bool) :
    switchedOn [item] flag old = if item.flag = flag then some true else old := by
  simp [switchedOn, listed_singleton]

theorem setHealth_ok {item : Item} {value : Str} {health health' : HealthConfig}
    (hvalue : item.value = some value) (h : setHealth item.flag value health = .ok health') :
    health' = checkedHealth [item] health := by
  obtain ⟨flag, _, htakes, hknown⟩ := item
  cases hvalue
  cases flag
  case healthCmd =>
    cases h
    simp [checkedHealth, overridden_singleton, Except.toOption]
  case healthInterval | healthTimeout | healthRetries | healthStartPeriod | healthStartInterval =>
    obtain ⟨n, hread, rfl⟩ := Descent.map_eq_ok.mp h
    simp [checkedHealth, overridden_singleton, hread, Except.toOption]
  all_goals cases h

omit [Inhabited α] in
theorem setResource_ok {item : Item} {value : Str} {config config' : HostConfig α}
    (hvalue : item.value = some value) (h : setResource item.flag value config = .ok config') :
    config' = settledHost [item] config := by
  obtain ⟨flag, _, htakes, hknown⟩ := item
  cases hvalue
  cases flag
  case cpusetCpus | cpusetMems =>
    cases h
    simp [settledHost, overridden_singleton, accumulated_singleton, switchedOn_singleton,
      Except.toOption]
  case cpus | cpuShares | cpuPeriod | cpuQuota | memory | memoryReservation | memorySwap
      | memorySwappiness | pidsLimit =>
    obtain ⟨n, hread, rfl⟩ := Descent.map_eq_ok.mp h
    simp [settledHost, overridden_singleton, accumulated_singleton, switchedOn_singleton, hread,
      Except.toOption]
  all_goals cases h

omit [Inhabited α] in
theorem setSecurity_ok {item : Item} {value : Str} {config config' : HostConfig α}
    (hvalue : item.value = some value) (h : setSecurity item.flag value config = .ok config') :
    config' = settledHost [item] config := by
  obtain ⟨flag, _, htakes, hknown⟩ := item
  cases hvalue
  cases flag
  case groupAdd | capAdd | capDrop | securityOpt =>
    cases h
    simp [settledHost, overridden_singleton, accumulated_singleton, switchedOn_singleton, push,
      Except.toOption]
  case ulimit =>
    obtain ⟨limit, hread, rfl⟩ := Descent.map_eq_ok.mp h
    simp [settledHost, overridden_singleton, accumulated_singleton, switchedOn_singleton, push, hread,
      Except.toOption]
  all_goals cases h

/-- A flag of the host part only changes the host part. -/
theorem settledBody_onHost {item : Item} (h : item.flag.ofHost = true)
    (body : ContainerCreateBody α β) :
    settledBody [item] body = body.onHost (settledHost [item]) := by
  have hother : ∀ flag : Flag, flag.ofBody = true → item.flag ≠ flag := by
    rintro flag hflag rfl
    simp [Flag.ofHost, hflag] at h
  simp [settledBody, overridden_singleton, listed_singleton, h, ContainerCreateBody.onHost,
    hother .user rfl, hother .hostname rfl, hother .domainname rfl]

/-- A health flag changes nothing else. -/
theorem settledBody_of_health {item : Item} (h : item.flag.isHealthOption = true)
    (body : ContainerCreateBody α β) : settledBody [item] body = body := by
  have hother : ∀ flag : Flag, flag.ofBody = true → item.flag ≠ flag := by
    rintro flag hflag rfl
    revert h hflag
    cases item.flag <;> decide
  simp [settledBody, overridden_singleton, listed_singleton, Flag.ofHost, h, hother .user rfl,
    hother .hostname rfl, hother .domainname rfl]

theorem applyHost_ok {set : Flag → Str → HostConfig α → Except OptionError (HostConfig α)} {item : Item}
    (hset : ∀ value config config', item.value = some value → set item.flag value config = .ok config' →
      config' = settledHost [item] config)
    (hhost : item.flag.ofHost = true) {word : Str} {body body' : ContainerCreateBody α β}
    (h : (applyHost set item.flag word body).on item.value = .ok body') :
    body' = settledBody [item] body := by
  cases hvalue : item.value with
  | none =>
    rw [hvalue] at h
    cases h
  | some value =>
    rw [hvalue] at h
    obtain ⟨config, hconfig, rfl⟩ := Descent.map_eq_ok.mp h
    rw [settledBody_onHost hhost, hset value _ config hvalue hconfig]
    rfl

theorem createStep_ok {item : Item} {body body' : ContainerCreateBody α β}
    (h : (createStep item.words.1 body).on item.words.2 = .ok body') :
    body' = settledBody [item] body := by
  have hresource : ∀ value (config config' : HostConfig α), item.value = some value →
      setResource item.flag value config = .ok config' → config' = settledHost [item] config :=
    fun _ _ _ => setResource_ok
  have hsecurity : ∀ value (config config' : HostConfig α), item.value = some value →
      setSecurity item.flag value config = .ok config' → config' = settledHost [item] config :=
    fun _ _ _ => setSecurity_ok
  obtain ⟨flag, value, htakes, hknown⟩ := item
  change (createStep flag.text body).on value = .ok body' at h
  rw [createStep, Flag.named_text] at h
  cases flag
  case cpus | cpuShares | cpuPeriod | cpuQuota | cpusetCpus | cpusetMems | memory | memoryReservation
      | memorySwap | memorySwappiness | pidsLimit => exact applyHost_ok hresource rfl h
  case groupAdd | capAdd | capDrop | securityOpt | ulimit => exact applyHost_ok hsecurity rfl h
  case healthCmd | healthInterval | healthTimeout | healthRetries | healthStartPeriod
      | healthStartInterval | noHealthcheck =>
    rw [settledBody_of_health rfl]
    cases value <;> cases h <;> rfl
  case user | hostname | domainname =>
    cases value with
    | none => cases h
    | some value =>
      cases h
      simp [settledBody, overridden_singleton, listed_singleton, Flag.ofHost, Flag.ofBody,
        Except.toOption]
  case privileged | readOnly =>
    cases h
    rw [settledBody_onHost rfl]
    simp [ContainerCreateBody.onHost, settledHost, overridden_singleton, accumulated_singleton,
      switchedOn_singleton]
  all_goals cases h

theorem checkedHealth_of_not_given {item : Item}
    (h : item.flag.isHealthOption = false ∨ item.flag = .noHealthcheck) (health : HealthConfig) :
    checkedHealth [item] health = health := by
  have hother : ∀ flag : Flag, flag.isHealthOption = true → flag ≠ .noHealthcheck →
      item.flag ≠ flag := by
    rintro flag hflag hne rfl
    rcases h with h | h
    · rw [hflag] at h
      cases h
    · exact hne h
  simp [checkedHealth, overridden_singleton, hother .healthCmd rfl, hother .healthInterval rfl,
    hother .healthTimeout rfl, hother .healthRetries rfl, hother .healthStartPeriod rfl,
    hother .healthStartInterval rfl]

theorem healthStep_ok {item : Item} {s s' : HealthState}
    (h : (healthStep item.words.1 s).on item.words.2 = .ok s') :
    s' = ⟨checkedHealth [item] s.health, s.hasHealthOption || item.flag.isHealthOption,
      s.disabled || item.flag = .noHealthcheck⟩ := by
  have hset : ∀ value health health', item.value = some value →
      setHealth item.flag value health = .ok health' → health' = checkedHealth [item] health :=
    fun _ _ _ => setHealth_ok
  have hnone : item.flag.isHealthOption = false ∨ item.flag = .noHealthcheck →
      ∀ health, checkedHealth [item] health = health := checkedHealth_of_not_given
  obtain ⟨flag, value, htakes, hknown⟩ := item
  change (healthStep flag.text s).on value = .ok s' at h
  rw [healthStep, Flag.named_text] at h
  dsimp only at h hset hnone ⊢
  split at h
  case isTrue hother =>
    -- the value is taken and left behind
    have hother : flag.isHealthOption = false := by simpa using hother
    have hs : s' = s := by
      split at h
      · cases value <;> cases h
        rfl
      · exact (Except.ok.inj h).symm
    have hne : flag ≠ .noHealthcheck := by
      rintro rfl
      cases hother
    rw [hs, hnone (Or.inl hother)]
    simp [hother, hne]
  case isFalse hhealth =>
    have hhealth : flag.isHealthOption = true := by simpa using hhealth
    split at h
    case isTrue hswitch =>
      rw [← Except.ok.inj h, hnone (Or.inr hswitch)]
      simp [hswitch, Flag.isHealthOption]
    case isFalse hswitch =>
      cases value with
      | none => cases h
      | some value =>
        obtain ⟨health, hread, rfl⟩ := Descent.map_eq_ok.mp h
        rw [hset value _ health rfl hread]
        simp [hhealth, hswitch]

/-! ### The passes on items -/

variable {items : List Item}

theorem fits_words {σ : Type} {step : Str → σ → OptionTurn σ}
    (h : ∀ item : Item, Fits step item.words) : ∀ pair ∈ items.map Item.words, Fits step pair := by
  intro pair hpair
  obtain ⟨item, -, rfl⟩ := List.mem_map.mp hpair
  exact h item

theorem run_healthStep {s : HealthState}
    (h : run healthStep (flat (items.map Item.words)) ⟨default, false, false⟩ = .ok s) :
    s = ⟨checkedHealth items default, listed items Flag.isHealthOption,
      listed items (· = .noHealthcheck)⟩ := by
  refine run_flat_induct (P := fun front s => s = ⟨checkedHealth front default,
    listed front Flag.isHealthOption, listed front (· = .noHealthcheck)⟩)
    (fun item _ => fits_healthStep item) (fun front item s s' _ hs hturn => ?_) rfl h
  rw [healthStep_ok hturn, hs, checkedHealth_append, listed_append, listed_append, listed_singleton,
    listed_singleton]

theorem run_createStep {body body' : ContainerCreateBody α β}
    (h : run createStep (flat (items.map Item.words)) body = .ok body') :
    body' = settledBody items body := by
  refine run_flat_induct (P := fun front b => b = settledBody front body)
    (fun item _ => fits_createStep item) (fun front item s s' _ hs hturn => ?_) rfl h
  rw [createStep_ok hturn, hs, settledBody_append]

omit [Inhabited α] in
theorem applyHealthOptions_ok {body body' : ContainerCreateBody α β}
    (h : applyHealthOptions (flat (items.map Item.words)) body = .ok body') :
    body' = { body with
      healthcheck :=
        if listed items Flag.isHealthOption then some (settledHealth items) else body.healthcheck } := by
  unfold applyHealthOptions at h
  cases hrun : run healthStep (flat (items.map Item.words)) ⟨default, false, false⟩ with
  | error e =>
    rw [hrun] at h
    cases h
  | ok s =>
    rw [hrun] at h
    change finishHealth s body = .ok body' at h
    unfold finishHealth at h
    split at h
    case isTrue => cases h
    case isFalse =>
      rw [← Except.ok.inj h, run_healthStep hrun, settledHealth]
      split <;> rfl

theorem understood_run {σ : Type} {step : Str → σ → OptionTurn σ}
    (hfits : ∀ item : Item, Fits step item.words)
    (hstep : ∀ (item : Item) s, Understood ((step item.words.1 s).on item.words.2)) (s : σ) :
    Understood (run step (flat (items.map Item.words)) s) := by
  intro e hrun
  obtain ⟨pair, hpair, s', herror⟩ := run_flat_error (fits_words hfits) hrun
  obtain ⟨item, -, rfl⟩ := List.mem_map.mp hpair
  exact hstep item s' e herror

omit [Inhabited α] in
theorem understood_applyHealthOptions (body : ContainerCreateBody α β) :
    Understood (applyHealthOptions (flat (items.map Item.words)) body) := by
  refine .bind (understood_run fits_healthStep understood_healthStep _) fun s => ?_
  unfold finishHealth
  split
  · exact .error id
  · exact .ok _

theorem understood_applyContainerOptions (body : ContainerCreateBody α β) :
    Understood (applyContainerOptions (flat (items.map Item.words)) body) :=
  .bind (understood_applyHealthOptions body) fun body =>
    understood_run fits_createStep understood_createStep body

theorem applyContainerOptions_ok {body body' : ContainerCreateBody α β}
    (h : applyContainerOptions (flat (items.map Item.words)) body = .ok body') :
    body' = settled items body := by
  cases hhealth : applyHealthOptions (flat (items.map Item.words)) body with
  | error e =>
    rw [applyContainerOptions, hhealth] at h
    cases h
  | ok body₁ =>
    rw [applyContainerOptions, hhealth] at h
    rw [settled, ← applyHealthOptions_ok hhealth]
    exact run_createStep h

end Settled

/-- The parser's items are what both passes take off its result, one by one, up to one whose value is
    wrong.  Neither pass misses a value or meets a flag that it does not know, and what is set in the
    end is what the items ask for. -/
theorem options_read_alike {α β : Type} [Inhabited α] {shlexSplit : Str → Option (List Str)}
    {input : Str} {options : List Str} (h : parseContainerOptions shlexSplit input = .ok options) :
    ∃ items, parsedItems shlexSplit input = .ok items ∧ options = flat (items.map Item.words) ∧
      (∀ s, reads healthStep options s <+: items.map Item.words ∧
        ∀ s', run healthStep options s = .ok s' → reads healthStep options s = items.map Item.words) ∧
      (∀ body : ContainerCreateBody α β, reads createStep options body <+: items.map Item.words ∧
        ∀ body', run createStep options body = .ok body' →
          reads createStep options body = items.map Item.words) ∧
      ∀ body : ContainerCreateBody α β,
        Understood (applyHealthOptions options body) ∧
        Understood (applyContainerOptions options body) ∧
        ∀ body', applyContainerOptions options body = .ok body' → body' = settled items body := by
  rw [parseContainerOptions_eq] at h
  obtain ⟨items, hitems, rfl⟩ := Descent.map_eq_ok.mp h
  refine ⟨items, hitems, rfl, fun s => reads_flat (fits_words fits_healthStep) s,
    fun body => reads_flat (fits_words fits_createStep) body, fun body => ⟨?_, ?_, ?_⟩⟩
  · exact understood_applyHealthOptions body
  · exact understood_applyContainerOptions body
  · exact fun body' hbody => applyContainerOptions_ok hbody

/-- Words without quotes. -/
def blankSplit (input : Str) : Option (List Str) := some ((input.splitOn ' ').filter (· ≠ []))

def inlineInput : Str := "--user=--privileged --cap-add A --cap-add=B --read-only".toList

def inlineOptions : List Str :=
  ["--user".toList, "--privileged".toList, "--cap-add".toList, "A".toList, "--cap-add".toList,
    "B".toList, "--read-only".toList]

theorem options_read_alike_inline :
    ∃ items, parsedItems blankSplit inlineInput = .ok items ∧
      items.map Item.words =
        [("--user".toList, some "--privileged".toList), ("--cap-add".toList, some "A".toList),
          ("--cap-add".toList, some "B".toList), ("--read-only".toList, none)] ∧
      ∀ body : ContainerCreateBody Unit Unit,
        Understood (applyContainerOptions inlineOptions body) ∧
        ∀ body', applyContainerOptions inlineOptions body = .ok body' → body' = settled items body := by
  have hparse : parseContainerOptions blankSplit inlineInput = .ok inlineOptions := by decide
  have hitems : (parsedItems blankSplit inlineInput).map (fun items => items.map Item.words) =
      .ok [("--user".toList, some "--privileged".toList), ("--cap-add".toList, some "A".toList),
        ("--cap-add".toList, some "B".toList), ("--read-only".toList, none)] := by decide +kernel
  obtain ⟨items, hparsed, -, -, -, h⟩ := options_read_alike (α := Unit) (β := Unit) hparse
  rw [hparsed] at hitems
  exact ⟨items, hparsed, Except.ok.inj hitems, fun body => (h body).2⟩

end GhRunner.Docker
