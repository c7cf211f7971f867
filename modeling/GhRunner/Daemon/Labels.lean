import GhRunner.Daemon.Gate

namespace GhRunner.Daemon

/-!
# Labels and limits of a job container

What `docker create` records about a job and how it is read back
(`crates/daemon/src/docker/spec.rs`).

* `JobLabels.fromMap` — the two labels, with the source's errors;
* `parseI64` — `str::parse::<i64>`;
* `vcpuFromNanoCpus`, `memoryMbFromBytes` — the footprint behind Docker's limits.
-/

/-- A container's label map. -/
abbrev LabelMap := Finmap fun _ : String => String

def LABEL_JOB_ID : String := "sh.toolu.job-id"

def LABEL_DEADLINE : String := "sh.toolu.deadline"

def NANO_CPUS_PER_VCPU : ℤ := 1000000000

def BYTES_PER_MB : ℤ := 1024 * 1024

/-- Narrow an `i64` to `u32`: negatives floor at zero, anything too wide saturates. -/
def saturatingU32 (value : ℤ) : U32 :=
  if 0 ≤ value ∧ value ≤ Saturating.maxNat 32 then BitVec.ofInt 32 value
  else if value < 0 then 0
  else BitVec.allOnes 32

/-- Rust's `/` on `i64` truncates towards zero. -/
def vcpuFromNanoCpus (nanoCpus : ℤ) : U32 := saturatingU32 (nanoCpus.tdiv NANO_CPUS_PER_VCPU)

def memoryMbFromBytes (bytes : ℤ) : U32 := saturatingU32 (bytes.tdiv BYTES_PER_MB)

/-- The two labels a job container carries, parsed back. -/
structure JobLabels where
  jobId : JobId
  deadline : ℤ
deriving DecidableEq, Repr

/-- Why a label map is not a readable `JobLabels`. -/
inductive LabelError
  | missing (label : String)
  | invalidDeadline (value : String)
deriving DecidableEq, Repr

/-- A non-empty run of ASCII digits, as a number. -/
def parseDigits : List Char → Option ℕ
  | [] => none
  | c :: cs => (c :: cs).foldlM (fun n d => if d.isDigit then some (10 * n + (d.toNat - 48)) else none) 0

/-- `str::parse::<i64>`: an optional sign, at least one digit, nothing else, within the range. -/
def parseI64 (s : String) : Option ℤ :=
  match s.toList with
  | '-' :: digits => (parseDigits digits).bind fun n => if n ≤ 2 ^ 63 then some (-n) else none
  | '+' :: digits => (parseDigits digits).bind fun n => if n < 2 ^ 63 then some n else none
  | digits => (parseDigits digits).bind fun n => if n < 2 ^ 63 then some n else none

def JobLabels.fromMap (labels : LabelMap) : Except LabelError JobLabels :=
  match labels.lookup LABEL_JOB_ID with
  | none => .error (.missing LABEL_JOB_ID)
  | some jobId =>
    match labels.lookup LABEL_DEADLINE with
    | none => .error (.missing LABEL_DEADLINE)
    | some rawDeadline =>
      match parseI64 rawDeadline with
      | none => .error (.invalidDeadline rawDeadline)
      | some deadline => .ok ⟨jobId, deadline⟩

end GhRunner.Daemon
