import GhRunner.Daemon.Labels
import GhRunner.Lib.Utf8

namespace GhRunner.Docker

open Text Utf8
open GhRunner.Daemon (parseI64 parseDigits)

/-!
# Values of container options

How the value after a flag is read (`crates/execution/src/docker/container_health_options.rs`,
`docker/container_create_options.rs`), and what is reported when it cannot be.

* `OptionError` — the errors of the option parser and of the two passes over its result;
* `parseDuration`, `parseRetries` — values of health flags;
* `parseNumber`, `parseNanoCpus`, `parseMemory`, `parseUlimit` — values of the other flags.

* `Understood` — a value may be wrong, but it is a value that is.

The counters are `u128` and `i64`; where the source checks an operation, so is the result here.
-/

inductive OptionError
  | invalidQuoting
  | positional
  | reserved (flag : Str)
  | valueRequired (flag : Str)
  | valueGiven (flag : Str)
  | unsupported (flag : Str)
  | unsupportedHealth
  | unsupportedOption
  | unsupportedIdentity
  | unsupportedResource
  | unsupportedSecurity
  | healthDisabled
  | duration (flag : Str)
  | negativeDuration (flag : Str)
  | shortDuration (flag : Str)
  | outOfRange (flag : Str)
  | retries
  | integer (flag : Str)
  | cpus
  | ulimit
deriving DecidableEq, Repr

namespace OptionError

/-- The text of `RunnerError::Config`. -/
def message (e : OptionError) : Str :=
  let option (flag : Str) (text : String) : Str := "option `".toList ++ flag ++ text.toList
  "invalid job container options: ".toList ++ match e with
    | invalidQuoting => "options contain invalid quoting".toList
    | positional => "options must not contain positional arguments".toList
    | reserved flag => option flag "` is reserved by the runner"
    | valueRequired flag => option flag "` requires a value"
    | valueGiven flag => option flag "` does not take a value"
    | unsupported flag => "unsupported container option `".toList ++ flag ++ "`".toList
    | unsupportedHealth => "unsupported health option".toList
    | unsupportedOption => "unsupported option".toList
    | unsupportedIdentity => "unsupported identity option".toList
    | unsupportedResource => "unsupported resource option".toList
    | unsupportedSecurity => "unsupported security option".toList
    | healthDisabled =>
      "option `--no-healthcheck` cannot be combined with other health options".toList
    | duration flag => option flag "` requires a Docker duration"
    | negativeDuration flag => option flag "` requires a non-negative Docker duration"
    | shortDuration flag => option flag "` must be zero or at least 1ms"
    | outOfRange flag => option flag "` is out of range"
    | retries => "option `--health-retries` requires a non-negative integer".toList
    | integer flag => option flag "` requires an integer"
    | cpus => "option `--cpus` requires a positive decimal".toList
    | ulimit => "option `--ulimit` must use name=soft:hard".toList

/-- The arguments were taken for something else than they are. -/
def Misread : OptionError → Prop
  | valueRequired _ | unsupported _ | unsupportedHealth | unsupportedOption | unsupportedIdentity
  | unsupportedResource | unsupportedSecurity => True
  | _ => False

end OptionError

/-! ### Integers -/

def checkedU128 (n : ℕ) : Option ℕ := if n < 2 ^ 128 then some n else none

def checkedI64 (n : ℤ) : Option ℤ := if -2 ^ 63 ≤ n ∧ n < 2 ^ 63 then some n else none

/-- `str::parse::<u128>` of digits. -/
def parseU128 (digits : Str) : Option ℕ := (parseDigits digits).bind checkedU128

def parseNumber (flag value : Str) : Except OptionError ℤ :=
  (parseI64 (String.ofList value)).elim (.error (.integer flag)) .ok

/-! ### Durations -/

def durationUnits : List (Str × ℕ) :=
  [("ns".toList, 1), ("us".toList, 1000), ("µs".toList, 1000), ("ms".toList, 1000000),
    ("s".toList, 1000000000), ("m".toList, 60000000000), ("h".toList, 3600000000000)]

/-- The first unit the text starts with. -/
def durationUnit (value : Str) : Option (Str × ℕ) :=
  durationUnits.find? fun unit => unit.1.isPrefixOf value

/-- A number, its unit and the rest. -/
def durationComponent (value : Str) : Option (Str × ℕ × Str) :=
  let isNumber (c : Char) : Bool := c.isDigit || c = '.'
  let afterNumber := value.dropWhile isNumber
  (durationUnit afterNumber).map fun unit =>
    (value.takeWhile isNumber, unit.2, afterNumber.drop unit.1.length)

theorem durationUnit_pos {value : Str} {unit : Str × ℕ} (h : durationUnit value = some unit) :
    unit.1 <+: value ∧ 0 < unit.1.length := by
  have hall : ∀ unit ∈ durationUnits, 0 < unit.1.length := by decide
  constructor
  · exact List.isPrefixOf_iff_prefix.mp (by simpa using List.find?_some h)
  · exact hall unit (List.mem_of_find?_eq_some h)

/-- A component takes its unit off the text. -/
theorem durationComponent_length {value number next : Str} {unit : ℕ}
    (h : durationComponent value = some (number, unit, next)) : next.length < value.length := by
  obtain ⟨⟨name, multiplier⟩, hunit, heq⟩ := Option.map_eq_some_iff.mp h
  obtain ⟨hfront, hpos⟩ := durationUnit_pos hunit
  have hnext := congrArg (fun parts : Str × ℕ × Str => parts.2.2.length) heq
  have hle := hfront.length_le
  have hdrop := (List.dropWhile_suffix (l := value) fun c => c.isDigit || decide (c = '.')).length_le
  simp only [List.length_drop] at hnext hle hpos
  omega

def fractionNanos (fraction : Str) (unit : ℕ) : Option ℕ := do
  let numerator ← if fraction = [] then some 0 else parseU128 fraction
  let denominator ← checkedU128 (10 ^ fraction.length)
  let product ← checkedU128 (numerator * unit)
  some (product / denominator)

def decimalNanos (number : Str) (unit : ℕ) : Option ℕ := do
  let (whole, fraction) := (splitFirst ['.'] number).getD (number, [])
  if (whole = [] ∧ fraction = []) ∨ number.count '.' > 1 then none
  let whole ← if whole = [] then some 0 else parseU128 whole
  if !fraction.all Char.isDigit then none
  let fraction ← fractionNanos fraction unit
  let product ← checkedU128 (whole * unit)
  checkedU128 (product + fraction)

/-- The components of a duration, added to what came before them. -/
def durationNanos (flag : Str) : Str → ℕ → Except OptionError ℕ
  | [], total => .ok total
  | c :: rest, total =>
    match _h : durationComponent (c :: rest) with
    | none => .error (.duration flag)
    | some (number, unit, next) =>
      match decimalNanos number unit with
      | none => .error (.duration flag)
      | some nanos =>
        match checkedU128 (total + nanos) with
        | none => .error (.outOfRange flag)
        | some total => durationNanos flag next total
termination_by rest => rest.length
decreasing_by exact durationComponent_length _h

def parseDuration (flag value : Str) : Except OptionError ℤ :=
  if value = ['0'] then .ok 0
  else if value.head? = some '-' then .error (.negativeDuration flag)
  else
    let value := if value.head? = some '+' then value.tail else value
    if value = [] then .error (.duration flag)
    else
      (durationNanos flag value 0).bind fun total =>
        (checkedI64 total).elim (.error (.outOfRange flag)) fun nanos =>
          if nanos ≠ 0 ∧ nanos < 1000000 then .error (.shortDuration flag) else .ok nanos

def parseRetries (value : Str) : Except OptionError ℤ :=
  ((parseI64 (String.ofList value)).filter fun n => 0 ≤ n).elim (.error .retries) .ok

/-! ### Resources -/

def parseNanoCpus (value : Str) : Except OptionError ℤ := do
  let (whole, fraction) := (splitFirst ['.'] value).getD (value, [])
  if whole = [] ∨ !whole.all Char.isDigit ∨ utf8Len fraction > 9 ∨ !fraction.all Char.isDigit then
    throw .cpus
  let whole ← parseNumber "--cpus".toList whole
  let padded := fraction ++ List.replicate (9 - fraction.length) '0'
  let fraction ← parseNumber "--cpus".toList padded
  let nanos := ((checkedI64 (whole * 1000000000)).bind fun whole => checkedI64 (whole + fraction)).filter
    fun n => 0 < n
  nanos.elim (.error (.outOfRange "--cpus".toList)) .ok

/-- The suffixes of a size, the longer ones first. -/
def memoryUnits : List (Str × ℤ) :=
  [("kb".toList, 1024), ("mb".toList, 1048576), ("gb".toList, 1073741824), ("k".toList, 1024),
    ("m".toList, 1048576), ("g".toList, 1073741824)]

def parseMemory (flag value : Str) : Except OptionError ℤ := do
  let lower := value.map Char.toLower
  let (unit, multiplier) := (memoryUnits.find? fun unit => unit.1.isSuffixOf lower).getD ([], 1)
  let number ← parseNumber flag (lower.take (lower.length - unit.length))
  (checkedI64 (number * multiplier)).elim (.error (.outOfRange flag)) .ok

/-- A limit, with all three fields of the request set. -/
structure ResourcesUlimits where
  name : Str
  soft : ℤ
  hard : ℤ
deriving DecidableEq, Repr

def parseUlimit (value : Str) : Except OptionError ResourcesUlimits :=
  match splitFirst ['='] value with
  | none => .error .ulimit
  | some (name, limits) =>
    match splitFirst [':'] limits with
    | none => .error .ulimit
    | some (soft, hard) => do
      let soft ← parseNumber "--ulimit".toList soft
      let hard ← parseNumber "--ulimit".toList hard
      return ⟨name, soft, hard⟩

/-! ### What is wrong with a value -/

/-- The arguments were not taken for something else. -/
def Understood {γ : Type} (result : Except OptionError γ) : Prop :=
  ∀ e, result = .error e → ¬ e.Misread

namespace Understood

variable {γ δ : Type}

theorem ok (c : γ) : Understood (.ok c) := fun _ h => by cases h

theorem error {e : OptionError} (h : ¬ e.Misread) : Understood (.error e : Except OptionError γ) := by
  rintro _ ⟨⟩
  exact h

theorem bind {result : Except OptionError γ} {f : γ → Except OptionError δ} (h : Understood result)
    (hf : ∀ c, Understood (f c)) : Understood (result.bind f) := by
  cases result with
  | error e => exact error (h e rfl)
  | ok c => exact hf c

theorem map {result : Except OptionError γ} (f : γ → δ) (h : Understood result) :
    Understood (result.map f) := by
  cases result with
  | error e => exact error (h e rfl)
  | ok c => exact ok (f c)

theorem elim {e : OptionError} {f : γ → Except OptionError δ} (hf : ∀ c, Understood (f c))
    (value : Option γ) (h : ¬ e.Misread) : Understood (value.elim (.error e) f) := by
  cases value with
  | none => exact error h
  | some c => exact hf c

end Understood

theorem understood_parseNumber (flag value : Str) : Understood (parseNumber flag value) :=
  .elim .ok _ id

theorem understood_durationNanos (flag rest : Str) (total : ℕ) :
    Understood (durationNanos flag rest total) := by
  fun_induction durationNanos flag rest total with
  | case1 => exact .ok _
  | case2 => exact .error id
  | case3 => exact .error id
  | case4 => exact .error id
  | case5 _ _ _ _ _ _ _ _ _ _ _ ih => exact ih

theorem understood_parseDuration (flag value : Str) : Understood (parseDuration flag value) := by
  unfold parseDuration
  split
  · exact .ok _
  · split
    · exact .error id
    · dsimp only
      generalize (if value.head? = some '+' then value.tail else value) = value
      split
      · exact .error id
      · refine .bind (understood_durationNanos _ _ _) fun total => .elim (fun nanos => ?_) _ id
        split
        · exact .error id
        · exact .ok _

theorem understood_parseRetries (value : Str) : Understood (parseRetries value) := .elim .ok _ id

theorem understood_parseNanoCpus (value : Str) : Understood (parseNanoCpus value) := by
  unfold parseNanoCpus
  dsimp only
  split
  · exact .error id
  · exact .bind (understood_parseNumber _ _) fun whole =>
      .bind (understood_parseNumber _ _) fun fraction => .elim .ok _ id

theorem understood_parseMemory (flag value : Str) : Understood (parseMemory flag value) :=
  .bind (understood_parseNumber _ _) fun _ => .elim .ok _ id

theorem understood_parseUlimit (value : Str) : Understood (parseUlimit value) := by
  unfold parseUlimit
  split
  · exact .error id
  · split
    · exact .error id
    · exact .bind (understood_parseNumber _ _) fun _ =>
        .bind (understood_parseNumber _ _) fun _ => .ok _

end GhRunner.Docker
