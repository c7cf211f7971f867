import GhRunner.Lib.Codes
import GhRunner.Lib.Paths
import GhRunner.Lib.Utf8
import GhRunner.Expressions.Functions

namespace GhRunner.Execution.Shadow

open Text Utf8 Codes
open GhRunner.Expressions (hexDigit)

/-!
# Shadow observations

What a step's observation is known by, and what the workspace around it is known by
(`crates/execution/src/execution/shadow.rs`, `shadow/record.rs`, `shadow/fingerprint.rs`).

* `observeKey`, `envDigest` — the key of an observation;
* `Entry`, `foldPath`, `fingerprintDir` — the fingerprint of a directory;
* `Entry.Has` — which files and links stand in a tree;
* `shadow_injective` — equal keys come of equal observations, and equal fingerprints of equal trees,
  up to what is rewritten in links;
* `rewritten_link` — two links with one fingerprint.

The hash is an argument, and so is what it does not confuse.
-/

/-! ### Keys -/

/-- A digest of 32 bytes. -/
abbrev Digest := { bytes : List UInt8 // bytes.length = 32 }

/-- What stands for a directory without entries. -/
def zeroDigest : Digest := ⟨List.replicate 32 0, List.length_replicate⟩

def hexByte (b : UInt8) : Str := [hexDigit (b.toNat / 16), hexDigit (b.toNat % 16)]

def fingerprintHex (digest : Digest) : Str := digest.1.flatMap hexByte

variable (blake3 : List UInt8 → Digest)

def digestHex (text : List UInt8) : Str := fingerprintHex (blake3 text)

/-- One variable as a line. -/
def envLine (entry : Str × Str) : Str := (entry.1 ++ ['=']) ++ (entry.2 ++ ['\n'])

/-- The lines in the order of their bytes. -/
def envText (env : List (Str × Str)) : Str :=
  ((env.map envLine).mergeSort fun a b => decide (bytes a ≤ bytes b)).flatten

def envDigest (env : List (Str × Str)) : Str := digestHex blake3 (bytes (envText env))

/-- The working directory is written after its length. -/
def observeKey (cmdDigest envDigest cwd : Str) (pre : Digest) : Str :=
  cmdDigest ++ '\x00' :: (envDigest ++ '\x00' :: (Nat.toDigits 10 (utf8Len cwd) ++ ':' :: cwd ++
    '\x00' :: fingerprintHex pre))

structure StepKey where
  stepId : Str
  cmd : Str
  envKv : List (Str × Str)
  cwd : Str

/-- The key under which `post` looks for the step. -/
def mapKey (key : StepKey) (pre : Digest) : Str :=
  observeKey (digestHex blake3 (bytes key.cmd)) (envDigest blake3 key.envKv) key.cwd pre

/-! ### Fingerprints -/

inductive Entry
  | file (content : List UInt8)
  | symlink (target : Str)
  | dir (entries : List (Str × Entry))

/-- What is folded in as one record. -/
inductive Leaf
  | file (content : List UInt8)
  | symlink (target : Str)
deriving DecidableEq

/-- A link that leads below the root is recorded from there, any other one as it is. -/
def relativeTarget (root target : Str) : Str := (Paths.stripPrefix target root).getD target

/-- An entry's path from the root, and what is there.  The walk starts at the root, so that the names
    down to the entry are what `strip_prefix` leaves of its path. -/
def foldEntry (root : Str) (rel : List Str) (leaf : Leaf) : List UInt8 :=
  bytes (List.intercalate ['/'] rel) ++ [0] ++
    (match leaf with
      | .symlink target => 'L'.toNat.toUInt8 :: bytes (relativeTarget root target)
      | .file content => 'F'.toNat.toUInt8 :: (blake3 content).1) ++ [0]

/-- What the hasher has been given, and whether there was an entry. -/
structure Folded where
  stream : List UInt8
  any : Bool

def sortedEntries {α : Type} (entries : List (Str × α)) : List (Str × α) :=
  entries.mergeSort fun a b => decide (bytes a.1 ≤ bytes b.1)

/-- One entry after the other, in the order of their names. -/
def Folded.concat (parts : List (Str × Folded)) : Folded where
  stream := (sortedEntries parts).flatMap fun part => part.2.stream
  any := (sortedEntries parts).any fun part => part.2.any

mutual

def foldPath (root : Str) (rel : List Str) : Entry → Folded
  | .file content => ⟨foldEntry blake3 root rel (.file content), true⟩
  | .symlink target => ⟨foldEntry blake3 root rel (.symlink target), true⟩
  | .dir entries => .concat (foldPaths root rel entries)

def foldPaths (root : Str) (rel : List Str) : List (Str × Entry) → List (Str × Folded)
  | [] => []
  | (name, entry) :: entries =>
    (name, foldPath root (rel ++ [name]) entry) :: foldPaths root rel entries

end

/-- The file or link is found by going down these names. -/
inductive Entry.Has : Entry → List Str → Leaf → Prop
  | file (content : List UInt8) : Has (.file content) [] (.file content)
  | symlink (target : Str) : Has (.symlink target) [] (.symlink target)
  | dir {entries : List (Str × Entry)} {name : Str} {entry : Entry} {names : List Str} {leaf : Leaf}
    (hmem : (name, entry) ∈ entries) (hentry : Has entry names leaf) :
    Has (.dir entries) (name :: names) leaf

/-- Names and targets as a file system has them. -/
structure ValidAt (names : List Str) (leaf : Leaf) : Prop where
  names : ∀ name ∈ names, Paths.IsName name ∧ '\x00' ∉ name
  target : ∀ target, leaf = .symlink target → '\x00' ∉ target

/-- A directory, if there is one, and what is in it. -/
structure Workspace where
  root : Str
  entries : Option (List (Str × Entry))
  valid : ∀ names leaf, Entry.Has (.dir (entries.getD [])) names leaf → ValidAt names leaf

namespace Workspace

variable (w : Workspace)

def Has (names : List Str) (leaf : Leaf) : Prop := Entry.Has (.dir (w.entries.getD [])) names leaf

def fingerprintDir : Digest :=
  match w.entries with
  | none => zeroDigest
  | some entries =>
    let folded := foldPath blake3 w.root [] (.dir entries)
    if folded.any then blake3 folded.stream else zeroDigest

end Workspace

/-! ### Keys show what they are made of -/

theorem hexByte_code : SelfDelimitingOn Set.univ hexByte := by
  refine fixedLength (n := 2) (fun _ _ => rfl) fun a _ b _ heq => ?_
  have hdigit : ∀ m n : Fin 16, hexDigit m = hexDigit n → m = n := by decide
  have hsame : ∀ m n, m < 16 → n < 16 → hexDigit m = hexDigit n → m = n := fun m n hm hn h =>
    Fin.mk.inj (hdigit ⟨m, hm⟩ ⟨n, hn⟩ h)
  obtain ⟨hhigh, hlow⟩ := List.cons.inj heq
  have ha := a.toNat_lt
  have hb := b.toNat_lt
  have hdiv := hsame _ _ (by omega) (by omega) hhigh
  have hmod := hsame _ _ (by omega) (by omega) (List.cons.inj hlow).1
  exact UInt8.toNat_inj.mp (by omega)

theorem fingerprintHex_injective : Function.Injective fingerprintHex := fun _ _ heq =>
  Subtype.ext (hexByte_code.flatMap_injOn (fun _ _ => List.cons_ne_nil _ _) (fun _ _ => Set.mem_univ _)
    (fun _ _ => Set.mem_univ _) heq)

theorem fingerprintHex_code : SelfDelimitingOn Set.univ fingerprintHex :=
  fixedLength (n := 64) (fun digest _ => by
    rw [fingerprintHex, List.length_flatMap]
    show (digest.1.map fun _ => 2).sum = 64
    rw [List.map_const', List.sum_replicate_nat, digest.2]) fingerprintHex_injective.injOn

theorem number_code : SelfDelimitingOn Set.univ fun n => Nat.toDigits 10 n ++ [':'] := by
  refine (terminated ':').comp (fun a _ b _ heq => ?_) fun n _ hmem => ?_
  · have hvalue := congrArg (fun l => Nat.ofDigitChars 10 l 0) heq
    simpa [Nat.ofDigitChars_toDigits] using hvalue
  · exact absurd (Nat.isDigit_of_mem_toDigits (by decide) (by decide) hmem) (by decide)

theorem cwd_code : SelfDelimitingOn Set.univ fun cwd : Str =>
    Nat.toDigits 10 (utf8Len cwd) ++ [':'] ++ cwd :=
  counted utf8Len_append (fun _ => utf8Len_eq_zero_iff.mp) number_code

/-- An environment whose lines are one variable each, as a shell would write it. -/
def PlainEnv (env : List (Str × Str)) : Prop := ∀ entry ∈ env, '=' ∉ entry.1 ∧ '\n' ∉ entry.2

theorem envLine_code :
    SelfDelimitingOn ({name : Str | '=' ∉ name} ×ˢ {value : Str | '\n' ∉ value}) envLine :=
  (terminated '=').pair (terminated '\n')

/-- The lines of an environment, sorted, still are its lines. -/
theorem mem_of_envText_eq {env env' : List (Str × Str)} (henv : PlainEnv env) (henv' : PlainEnv env')
    (heq : envText env = envText env') (entry : Str × Str) : entry ∈ env ↔ entry ∈ env' := by
  let lines (env : List (Str × Str)) : List Str :=
    (env.map envLine).mergeSort fun a b => decide (bytes a ≤ bytes b)
  have hlines : ∀ env, PlainEnv env → ∀ line ∈ lines env,
      line ∈ envLine '' ({name : Str | '=' ∉ name} ×ˢ {value : Str | '\n' ∉ value}) := by
    intro env henv line hline
    obtain ⟨e, he, rfl⟩ := List.mem_map.mp (List.mem_mergeSort.mp hline)
    exact ⟨e, henv e he, rfl⟩
  have hnonempty : ∀ line ∈ envLine '' ({name : Str | '=' ∉ name} ×ˢ {value : Str | '\n' ∉ value}),
      id line ≠ [] := by
    rintro _ ⟨e, -, rfl⟩ hnil
    simp [envLine] at hnil
  have hsame : lines env = lines env' := by
    rw [envText, envText, ← List.flatMap_id, ← List.flatMap_id] at heq
    exact envLine_code.image.flatMap_injOn hnonempty (hlines env henv) (hlines env' henv') heq
  have hmem : ∀ env, PlainEnv env → ∀ entry : Str × Str, '=' ∉ entry.1 ∧ '\n' ∉ entry.2 →
      (entry ∈ env ↔ envLine entry ∈ lines env) := by
    intro env henv entry hentry
    rw [List.mem_mergeSort, List.mem_map]
    constructor
    · exact fun h => ⟨entry, h, rfl⟩
    · rintro ⟨e, he, hline⟩
      rwa [← envLine_code.injOn (henv e he) hentry hline]
  constructor
  · intro h
    rw [hmem env' henv' entry (henv entry h), ← hsame, ← hmem env henv entry (henv entry h)]
    exact h
  · intro h
    rw [hmem env henv entry (henv' entry h), hsame, ← hmem env' henv' entry (henv' entry h)]
    exact h

section Keys

variable {blake3}

theorem mapKey_injective {a b : StepKey} {pre pre' : Digest}
    (hinj : Set.InjOn blake3
      {bytes a.cmd, bytes b.cmd, bytes (envText a.envKv), bytes (envText b.envKv)})
    (h : mapKey blake3 a pre = mapKey blake3 b pre') :
    a.cmd = b.cmd ∧ a.cwd = b.cwd ∧ pre = pre' ∧ envText a.envKv = envText b.envKv := by
  obtain ⟨hcmd, h⟩ := fingerprintHex_code (Set.mem_univ _) (Set.mem_univ _) h
  obtain ⟨henv, h⟩ := fingerprintHex_code (Set.mem_univ _) (Set.mem_univ _) (List.cons.inj h).2
  have htail : ∀ (cwd : Str) (pre : Digest),
      Nat.toDigits 10 (utf8Len cwd) ++ ':' :: cwd ++ '\x00' :: fingerprintHex pre =
        (Nat.toDigits 10 (utf8Len cwd) ++ [':'] ++ cwd) ++ '\x00' :: fingerprintHex pre := by
    intro cwd pre
    simp
  have h := (List.cons.inj h).2
  rw [htail, htail] at h
  obtain ⟨hcwd, h⟩ := cwd_code (Set.mem_univ _) (Set.mem_univ _) h
  have hpre := fingerprintHex_injective (List.cons.inj h).2
  have hcmd := bytes_injective (hinj (by simp) (by simp) hcmd)
  have henv := bytes_injective (hinj (by simp) (by simp) henv)
  exact ⟨hcmd, hcwd, hpre, henv⟩

end Keys

/-! ### The records of a tree -/

mutual

/-- The files and links of an entry, in the order of the walk. -/
def leaves (rel : List Str) : Entry → List (List Str × Leaf)
  | .file content => [(rel, .file content)]
  | .symlink target => [(rel, .symlink target)]
  | .dir entries => (sortedEntries (leavesBelow rel entries)).flatMap fun part => part.2

def leavesBelow (rel : List Str) : List (Str × Entry) → List (Str × List (List Str × Leaf))
  | [] => []
  | (name, entry) :: entries => (name, leaves (rel ++ [name]) entry) :: leavesBelow rel entries

end

section Leaves

variable {root : Str}

/-- Records written one after another. -/
def folded (root : Str) (records : List (List Str × Leaf)) : Folded where
  stream := records.flatMap fun record => foldEntry blake3 root record.1 record.2
  any := !records.isEmpty

theorem sortedEntries_map {α β : Type} (f : α → β) (entries : List (Str × α)) :
    sortedEntries (entries.map fun e => (e.1, f e.2)) =
      (sortedEntries entries).map fun e => (e.1, f e.2) := by
  rw [sortedEntries, sortedEntries]
  exact (List.map_mergeSort (f := fun e : Str × α => (e.1, f e.2)) fun _ _ _ _ => rfl).symm

theorem concat_folded (parts : List (Str × List (List Str × Leaf))) :
    Folded.concat (parts.map fun part => (part.1, folded blake3 root part.2)) =
      folded blake3 root ((sortedEntries parts).flatMap fun part => part.2) := by
  rw [Folded.concat, sortedEntries_map, folded, List.flatMap_map, List.any_map, List.flatMap_assoc]
  congr 1
  generalize sortedEntries parts = sorted
  induction sorted with
  | nil => rfl
  | cons part sorted ih =>
    obtain ⟨name, records⟩ := part
    rw [List.any_cons, ih, List.flatMap_cons]
    cases records <;> rfl

mutual

theorem foldPath_eq (rel : List Str) :
    ∀ entry, foldPath blake3 root rel entry = folded blake3 root (leaves rel entry)
  | .file content => by
    rw [foldPath, leaves, folded, List.flatMap_singleton]
    rfl
  | .symlink target => by
    rw [foldPath, leaves, folded, List.flatMap_singleton]
    rfl
  | .dir entries => by
    rw [foldPath, leaves, foldPaths_eq rel entries, concat_folded]

theorem foldPaths_eq (rel : List Str) :
    ∀ entries, foldPaths blake3 root rel entries =
      (leavesBelow rel entries).map fun part => (part.1, folded blake3 root part.2)
  | [] => by
    rw [foldPaths, leavesBelow, List.map_nil]
  | (name, entry) :: entries => by
    rw [foldPaths, leavesBelow, List.map_cons, foldPath_eq (rel ++ [name]) entry,
      foldPaths_eq rel entries]

end

theorem leavesBelow_eq (rel : List Str) (entries : List (Str × Entry)) :
    leavesBelow rel entries = entries.map fun e => (e.1, leaves (rel ++ [e.1]) e.2) := by
  induction entries with
  | nil => rw [leavesBelow, List.map_nil]
  | cons e entries ih => rw [leavesBelow, List.map_cons, ih]

variable {names : List Str} {leaf : Leaf}

mutual

theorem has_of_mem_leaves (rel : List Str) : ∀ entry, (names, leaf) ∈ leaves rel entry →
    ∃ below, names = rel ++ below ∧ Entry.Has entry below leaf
  | .file content, h => by
    rw [leaves] at h
    obtain ⟨rfl, rfl⟩ := Prod.mk.inj (List.mem_singleton.mp h)
    exact ⟨[], (List.append_nil names).symm, .file content⟩
  | .symlink target, h => by
    rw [leaves] at h
    obtain ⟨rfl, rfl⟩ := Prod.mk.inj (List.mem_singleton.mp h)
    exact ⟨[], (List.append_nil names).symm, .symlink target⟩
  | .dir entries, h => by
    rw [leaves, List.mem_flatMap] at h
    obtain ⟨part, hpart, hin⟩ := h
    obtain ⟨entry, below, hmem, rfl, hhas⟩ :=
      has_of_mem_leavesBelow rel entries part (List.mem_mergeSort.mp hpart) hin
    exact ⟨_, rfl, .dir hmem hhas⟩

theorem has_of_mem_leavesBelow (rel : List Str) : ∀ entries, ∀ part ∈ leavesBelow rel entries,
    (names, leaf) ∈ part.2 →
    ∃ entry below, (part.1, entry) ∈ entries ∧ names = rel ++ part.1 :: below ∧
      Entry.Has entry below leaf
  | [], part, hpart, _ => by
    rw [leavesBelow] at hpart
    exact absurd hpart List.not_mem_nil
  | (name, entry) :: entries, part, hpart, hin => by
    rw [leavesBelow] at hpart
    rcases List.mem_cons.mp hpart with rfl | hrest
    · obtain ⟨below, rfl, hhas⟩ := has_of_mem_leaves (rel ++ [name]) entry hin
      refine ⟨entry, below, List.mem_cons_self, ?_, hhas⟩
      rw [List.append_assoc]
      rfl
    · obtain ⟨entry', below, hmem, hnames, hhas⟩ :=
        has_of_mem_leavesBelow rel entries part hrest hin
      exact ⟨entry', below, List.mem_cons_of_mem _ hmem, hnames, hhas⟩

end

theorem mem_leaves_of_has {entry : Entry} (h : entry.Has names leaf) (rel : List Str) :
    (rel ++ names, leaf) ∈ leaves rel entry := by
  induction h generalizing rel with
  | file content =>
    rw [leaves, List.append_nil]
    exact List.mem_singleton_self _
  | symlink target =>
    rw [leaves, List.append_nil]
    exact List.mem_singleton_self _
  | @dir entries name entry names leaf hmem _ ih =>
    have hpart : (name, leaves (rel ++ [name]) entry) ∈ leavesBelow rel entries := by
      rw [leavesBelow_eq]
      exact List.mem_map.mpr ⟨(name, entry), hmem, rfl⟩
    have hbelow := ih (rel ++ [name])
    rw [List.append_assoc] at hbelow
    rw [leaves, List.mem_flatMap]
    exact ⟨_, List.mem_mergeSort.mpr hpart, hbelow⟩

/-- The walk meets the files and links of the tree, and nothing else. -/
theorem mem_leaves_iff {entry : Entry} : (names, leaf) ∈ leaves [] entry ↔ entry.Has names leaf := by
  constructor
  · intro h
    obtain ⟨below, rfl, hhas⟩ := has_of_mem_leaves [] entry h
    exact hhas
  · exact fun h => mem_leaves_of_has h []

end Leaves

/-! ### Records show what they are made of -/

section Records

variable {blake3}

theorem zero_mem_bytes {s : Str} (h : 0 ∈ bytes s) : '\x00' ∈ s := by
  obtain ⟨c, hc, hb⟩ := List.mem_flatMap.mp h
  have hzero : c = '\x00' := encodeChar_eq_of_lt hb (by decide) rfl
  exact hzero ▸ hc

/-- What a link is recorded as. -/
def Leaf.relative (root : Str) : Leaf → Leaf
  | .file content => .file content
  | .symlink target => .symlink (relativeTarget root target)

def pathCode (names : List Str) : List UInt8 := bytes (List.intercalate ['/'] names) ++ [0]

def leafCode (blake3 : List UInt8 → Digest) : Leaf → List UInt8
  | .symlink target => 'L'.toNat.toUInt8 :: (bytes target ++ [0])
  | .file content => 'F'.toNat.toUInt8 :: ((blake3 content).1 ++ [0])

theorem foldEntry_eq (root : Str) (rel : List Str) (leaf : Leaf) :
    foldEntry blake3 root rel leaf = pathCode rel ++ leafCode blake3 (leaf.relative root) := by
  cases leaf <;> simp [foldEntry, pathCode, leafCode, Leaf.relative]

theorem pathCode_code : SelfDelimitingOn
    {names : List Str | names ≠ [] ∧ ∀ name ∈ names, Paths.IsName name ∧ '\x00' ∉ name} pathCode := by
  refine (terminated 0).comp (fun names hnames names' hnames' heq => ?_) fun names hnames hmem => ?_
  · -- no name has a separator in it
    have hsplit : ∀ names : List Str, names ≠ [] →
        (∀ name ∈ names, Paths.IsName name ∧ '\x00' ∉ name) →
        (List.intercalate ['/'] names).splitOn '/' = names := fun names hne hvalid =>
      List.splitOn_intercalate '/' (fun name hname => (hvalid name hname).1.slash) hne
    rw [← hsplit names hnames.1 hnames.2, bytes_injective heq, hsplit names' hnames'.1 hnames'.2]
  · rcases Lines.mem_intercalate (zero_mem_bytes hmem) with hsep | ⟨name, hname, hin⟩
    · exact absurd hsep (by decide)
    · exact (hnames.2 name hname).2 hin

theorem leafCode_code {texts : Set (List UInt8)} (hinj : Set.InjOn blake3 texts) :
    SelfDelimitingOn {leaf : Leaf | (∀ target, leaf = .symlink target → '\x00' ∉ target) ∧
      ∀ content, leaf = .file content → content ∈ texts} (leafCode blake3) := by
  have hlink : SelfDelimitingOn {target : Str | '\x00' ∉ target} fun target =>
      bytes target ++ [0] :=
    (terminated 0).comp bytes_injective.injOn fun target htarget hmem => htarget (zero_mem_bytes hmem)
  have hfile : SelfDelimitingOn texts fun content => (blake3 content).1 ++ [0] := by
    refine fixedLength (n := 33) (fun content _ => ?_) fun content hcontent content' hcontent' heq => ?_
    · rw [List.length_append, (blake3 content).2, List.length_singleton]
    · exact hinj hcontent hcontent' (Subtype.ext (List.append_cancel_right heq))
  intro leaf hleaf leaf' hleaf' xs ys heq
  cases leaf with
  | file content =>
    cases leaf' with
    | file content' =>
      obtain ⟨rfl, hrest⟩ := hfile (hleaf.2 _ rfl) (hleaf'.2 _ rfl) (List.cons.inj heq).2
      exact ⟨rfl, hrest⟩
    | symlink target' => exact absurd (List.cons.inj heq).1 (by decide)
  | symlink target =>
    cases leaf' with
    | file content' => exact absurd (List.cons.inj heq).1 (by decide)
    | symlink target' =>
      obtain ⟨rfl, hrest⟩ := hlink (hleaf.1 _ rfl) (hleaf'.1 _ rfl) (List.cons.inj heq).2
      exact ⟨rfl, hrest⟩

end Records

/-! ### Fingerprints -/

namespace Workspace

variable (w : Workspace)

/-- The records of the whole directory. -/
def records : List (List Str × Leaf) := leaves [] (.dir (w.entries.getD []))

def stream : List UInt8 := (folded blake3 w.root w.records).stream

/-- Everything that is hashed for a fingerprint. -/
def hashed : Set (List UInt8) :=
  {content | ∃ names, w.Has names (.file content)} ∪ {w.stream blake3}

theorem mem_records_iff {names : List Str} {leaf : Leaf} :
    (names, leaf) ∈ w.records ↔ w.Has names leaf := mem_leaves_iff

theorem fingerprintDir_eq :
    w.fingerprintDir blake3 =
      if w.records = [] then zeroDigest else blake3 (w.stream blake3) := by
  have hempty : leaves [] (.dir []) = [] := by
    rw [leaves, leavesBelow, sortedEntries, List.mergeSort_nil]
    rfl
  unfold fingerprintDir stream records
  cases w.entries with
  | none =>
    show zeroDigest = if leaves [] (.dir []) = [] then _ else _
    rw [if_pos hempty]
  | some entries =>
    simp only [Option.getD_some, foldPath_eq]
    generalize leaves [] (.dir entries) = records
    cases records <;> rfl

/-- The records with links as they are recorded. -/
def relativeRecords : List (List Str × Leaf) :=
  w.records.map fun record => (record.1, record.2.relative w.root)

theorem stream_eq :
    w.stream blake3 = w.relativeRecords.flatMap fun record : List Str × Leaf =>
      pathCode record.1 ++ leafCode blake3 record.2 := by
  rw [stream, folded, relativeRecords, List.flatMap_map]
  exact congrArg w.records.flatMap
    (funext fun record : List Str × Leaf => foldEntry_eq w.root record.1 record.2)

/-- No path is empty, no name or target ends its record, and the contents are hashed. -/
theorem relativeRecords_code {record : List Str × Leaf} (h : record ∈ w.relativeRecords) :
    (record.1 ≠ [] ∧ ∀ name ∈ record.1, Paths.IsName name ∧ '\x00' ∉ name) ∧
      (∀ target, record.2 = .symlink target → '\x00' ∉ target) ∧
      ∀ content, record.2 = .file content → content ∈ w.hashed blake3 := by
  obtain ⟨⟨names, leaf⟩, hmem, rfl⟩ := List.mem_map.mp h
  have hhas := w.mem_records_iff.mp hmem
  have hvalid := w.valid names leaf hhas
  refine ⟨⟨?_, hvalid.names⟩, fun target htarget => ?_, fun content hcontent => ?_⟩
  · rintro rfl
    cases hhas
  · cases leaf with
    | file content => cases htarget
    | symlink target' =>
      have htarget' : relativeTarget w.root target' = target := Leaf.symlink.inj htarget
      have hplain := hvalid.target target' rfl
      rw [← htarget', relativeTarget]
      intro hmem
      cases hstrip : Paths.stripPrefix target' w.root with
      | none =>
        rw [hstrip] at hmem
        exact hplain hmem
      | some rest =>
        rw [hstrip] at hmem
        rcases Paths.mem_of_mem_stripPrefix hstrip hmem with hsep | hin
        · exact absurd hsep (by decide)
        · exact hplain hin
  · cases leaf with
    | file content' =>
      have hcontent' : content' = content := Leaf.file.inj hcontent
      exact Or.inl ⟨names, hcontent' ▸ hhas⟩
    | symlink target => cases hcontent

end Workspace

/-- The hash does not confuse these texts, nor any of them with a directory without entries. -/
structure CollisionFree (texts : Set (List UInt8)) : Prop where
  injOn : Set.InjOn blake3 texts
  ne_zero : ∀ text ∈ texts, blake3 text ≠ zeroDigest

theorem relativeRecords_of_fingerprint {w w' : Workspace}
    (hhash : CollisionFree blake3 (w.hashed blake3 ∪ w'.hashed blake3))
    (h : w.fingerprintDir blake3 = w'.fingerprintDir blake3) :
    w.relativeRecords = w'.relativeRecords := by
  have hstream : w.stream blake3 ∈ w.hashed blake3 ∪ w'.hashed blake3 := Or.inl (Or.inr rfl)
  have hstream' : w'.stream blake3 ∈ w.hashed blake3 ∪ w'.hashed blake3 := Or.inr (Or.inr rfl)
  rw [w.fingerprintDir_eq, w'.fingerprintDir_eq] at h
  split at h
  case isTrue hnil =>
    split at h
    case isTrue hnil' =>
      rw [Workspace.relativeRecords, Workspace.relativeRecords, hnil, hnil', List.map_nil,
        List.map_nil]
    case isFalse => exact absurd h.symm (hhash.ne_zero _ hstream')
  case isFalse =>
    split at h
    case isTrue => exact absurd h (hhash.ne_zero _ hstream)
    case isFalse =>
      have heq := hhash.injOn hstream hstream' h
      rw [w.stream_eq, w'.stream_eq] at heq
      refine (pathCode_code.pair (leafCode_code hhash.injOn)).flatMap_injOn (fun record _ hnil => ?_)
        (fun record hrecord => ?_) (fun record hrecord => ?_) heq
      · simp [pathCode] at hnil
      · obtain ⟨hpath, htarget, hcontent⟩ := w.relativeRecords_code blake3 hrecord
        exact ⟨hpath, htarget, fun content hfile => Or.inl (hcontent content hfile)⟩
      · obtain ⟨hpath, htarget, hcontent⟩ := w'.relativeRecords_code blake3 hrecord
        exact ⟨hpath, htarget, fun content hfile => Or.inr (hcontent content hfile)⟩

/-- Equal keys come of one command, one working directory and one fingerprint, and of one environment
    where its lines are plain; equal fingerprints come of directories with the same files and, as
    they are recorded, the same links at the same places. -/
theorem shadow_injective :
    (∀ (a b : StepKey) (pre pre' : Digest),
      Set.InjOn blake3 {bytes a.cmd, bytes b.cmd, bytes (envText a.envKv), bytes (envText b.envKv)} →
      mapKey blake3 a pre = mapKey blake3 b pre' →
      a.cmd = b.cmd ∧ a.cwd = b.cwd ∧ pre = pre' ∧
        (PlainEnv a.envKv → PlainEnv b.envKv → ∀ entry, entry ∈ a.envKv ↔ entry ∈ b.envKv)) ∧
    ∀ w w' : Workspace, CollisionFree blake3 (w.hashed blake3 ∪ w'.hashed blake3) →
      w.fingerprintDir blake3 = w'.fingerprintDir blake3 →
      ∀ names leaf, (∃ l, w.Has names l ∧ l.relative w.root = leaf) ↔
        ∃ l, w'.Has names l ∧ l.relative w'.root = leaf := by
  constructor
  · intro a b pre pre' hinj h
    obtain ⟨hcmd, hcwd, hpre, henv⟩ := mapKey_injective hinj h
    exact ⟨hcmd, hcwd, hpre, fun hplain hplain' => mem_of_envText_eq hplain hplain' henv⟩
  · intro w w' hhash h names leaf
    have hmem : ∀ w : Workspace, (∃ l, w.Has names l ∧ l.relative w.root = leaf) ↔
        (names, leaf) ∈ w.relativeRecords := by
      intro w
      rw [Workspace.relativeRecords, List.mem_map]
      constructor
      · rintro ⟨l, hhas, rfl⟩
        exact ⟨(names, l), w.mem_records_iff.mpr hhas, rfl⟩
      · rintro ⟨⟨names', l⟩, hin, heq⟩
        obtain ⟨rfl, rfl⟩ := Prod.mk.inj heq
        exact ⟨l, w.mem_records_iff.mp hin, rfl⟩
    rw [hmem w, hmem w', relativeRecords_of_fingerprint blake3 hhash h]

/-! ### One tree in two places -/

/-- The digests of a few texts. -/
def knownDigests : List (List UInt8 × Digest) :=
  [(bytes "make".toList,
    ⟨[46, 153, 25, 244, 229, 245, 91, 230, 55, 114, 191, 254, 86, 158, 14, 110, 108, 83, 226, 117, 120,
      125, 143, 101, 53, 192, 240, 255, 147, 119, 35, 118], rfl⟩),
    (bytes "A=1\nB=2\n".toList,
    ⟨[149, 160, 251, 86, 80, 187, 230, 150, 31, 255, 31, 119, 146, 25, 5, 9, 62, 62, 196, 203, 241, 252,
      54, 252, 91, 122, 12, 250, 108, 156, 167, 156], rfl⟩),
    ([],
    ⟨[175, 19, 73, 185, 245, 249, 161, 166, 160, 64, 77, 234, 54, 220, 201, 73, 155, 203, 37, 201, 173,
      193, 18, 183, 204, 154, 147, 202, 228, 31, 50, 98], rfl⟩),
    (bytes "a\x00F".toList ++
      [175, 19, 73, 185, 245, 249, 161, 166, 160, 64, 77, 234, 54, 220, 201, 73, 155, 203, 37, 201, 173,
        193, 18, 183, 204, 154, 147, 202, 228, 31, 50, 98] ++ bytes "\x00b\x00La\x00".toList,
    ⟨[133, 89, 8, 214, 118, 245, 152, 67, 241, 5, 207, 181, 88, 41, 129, 122, 149, 191, 77, 122, 50, 99,
      19, 50, 215, 119, 161, 45, 87, 1, 23, 21], rfl⟩)]

def knownBlake3 (text : List UInt8) : Digest := (knownDigests.lookup text).getD zeroDigest

theorem knownBlake3_collisionFree {texts : Set (List UInt8)}
    (h : ∀ text ∈ texts, text ∈ knownDigests.map Prod.fst) : CollisionFree knownBlake3 texts := by
  have hne : ∀ text ∈ knownDigests.map Prod.fst, knownBlake3 text ≠ zeroDigest := by decide
  have hinj : ∀ text ∈ knownDigests.map Prod.fst, ∀ text' ∈ knownDigests.map Prod.fst,
      knownBlake3 text = knownBlake3 text' → text = text' := by decide
  exact ⟨fun text htext text' htext' => hinj text (h text htext) text' (h text' htext'),
    fun text htext => hne text (h text htext)⟩

/-- A file and a link to it. -/
def linked (target : Str) : List (Str × Entry) :=
  [("a".toList, .file []), ("b".toList, .symlink target)]

theorem has_linked {target : Str} {names : List Str} {leaf : Leaf}
    (h : Entry.Has (.dir (linked target)) names leaf) :
    names = ["a".toList] ∧ leaf = .file [] ∨ names = ["b".toList] ∧ leaf = .symlink target := by
  cases h with
  | dir hmem hentry =>
    rcases List.mem_cons.mp hmem with heq | hmem
    · obtain ⟨rfl, rfl⟩ := Prod.mk.inj heq
      cases hentry
      exact Or.inl ⟨rfl, rfl⟩
    · obtain ⟨rfl, rfl⟩ := Prod.mk.inj (List.mem_singleton.mp hmem)
      cases hentry
      exact Or.inr ⟨rfl, rfl⟩

/-- The directory mounted at a root. -/
def mounted (root target : Str) (h : '\x00' ∉ target) : Workspace where
  root := root
  entries := some (linked target)
  valid := by
    have hname : ∀ name ∈ ["a".toList, "b".toList], Paths.IsName name ∧ '\x00' ∉ name := by
      intro name hname
      rcases List.mem_cons.mp hname with rfl | hname
      · exact ⟨by constructor <;> decide, by decide⟩
      · rw [List.mem_singleton.mp hname]
        exact ⟨by constructor <;> decide, by decide⟩
    intro names leaf hhas
    rcases has_linked hhas with ⟨rfl, rfl⟩ | ⟨rfl, rfl⟩
    · refine ⟨fun name hmem => ?_, fun target htarget => Leaf.noConfusion htarget⟩
      exact hname name (List.mem_singleton.mp hmem ▸ List.mem_cons_self)
    · refine ⟨fun name hmem => ?_, fun target' htarget => Leaf.symlink.inj htarget ▸ h⟩
      exact hname name (List.mem_singleton.mp hmem ▸ List.mem_cons_of_mem _ List.mem_cons_self)

theorem records_mounted (root target : Str) (h : '\x00' ∉ target) :
    (mounted root target h).records =
      [(["a".toList], .file []), (["b".toList], .symlink target)] := by
  show leaves [] (.dir (linked target)) = _
  rw [leaves, linked, leavesBelow, leavesBelow, leavesBelow, leaves, leaves, sortedEntries,
    List.mergeSort_of_pairwise]
  · rfl
  · refine List.pairwise_pair.mpr ?_
    show decide (bytes "a".toList ≤ bytes "b".toList) = true
    decide

theorem relativeRecords_mounted (root target : Str) (h : '\x00' ∉ target) :
    (mounted root target h).relativeRecords =
      [(["a".toList], .file []), (["b".toList], .symlink (relativeTarget root target))] := by
  rw [Workspace.relativeRecords, records_mounted]
  rfl

theorem fingerprintDir_mounted {root target root' target' : Str} {h : '\x00' ∉ target}
    {h' : '\x00' ∉ target'} (heq : relativeTarget root target = relativeTarget root' target') :
    (mounted root target h).fingerprintDir blake3 =
      (mounted root' target' h').fingerprintDir blake3 := by
  have hstream : (mounted root target h).stream blake3 = (mounted root' target' h').stream blake3 := by
    rw [Workspace.stream_eq, Workspace.stream_eq, relativeRecords_mounted, relativeRecords_mounted, heq]
  rw [Workspace.fingerprintDir_eq, Workspace.fingerprintDir_eq, hstream, records_mounted,
    records_mounted, if_neg (List.cons_ne_nil _ _), if_neg (List.cons_ne_nil _ _)]

def listed : List (Str × Str) := [("A".toList, "1".toList), ("B".toList, "2".toList)]

theorem mergeSort_swap {α : Type} {le : α → α → Bool} {a b : α} (h : le b a = false) :
    [b, a].mergeSort le = [a, b] := by
  simp [List.mergeSort, List.MergeSort.Internal.splitInTwo, h]

theorem envText_listed : envText listed = "A=1\nB=2\n".toList ∧
    envText listed.reverse = "A=1\nB=2\n".toList ∧
    envText [("A".toList, "1\nB=2".toList)] = "A=1\nB=2\n".toList := by
  have hle : decide (bytes (envLine ("A".toList, "1".toList)) ≤
      bytes (envLine ("B".toList, "2".toList))) = true ∧
      decide (bytes (envLine ("B".toList, "2".toList)) ≤
        bytes (envLine ("A".toList, "1".toList))) = false := by decide
  refine ⟨?_, ?_, ?_⟩
  · rw [envText, listed, List.map_cons, List.map_singleton,
      List.mergeSort_of_pairwise (List.pairwise_pair.mpr hle.1)]
    decide
  · show ([envLine ("B".toList, "2".toList), envLine ("A".toList, "1".toList)].mergeSort
        fun a b => decide (bytes a ≤ bytes b)).flatten = _
    rw [mergeSort_swap hle.2]
    decide
  · rw [envText, List.map_singleton, List.mergeSort_singleton]
    decide

theorem shadow_injective_listed :
    (∀ entry, entry ∈ listed ↔ entry ∈ listed.reverse) ∧
      ∀ names leaf,
        (∃ l, (mounted "/ws".toList "/ws/a".toList (by decide)).Has names l ∧
          l.relative "/ws".toList = leaf) ↔
        ∃ l, (mounted "/mnt".toList "/mnt/a".toList (by decide)).Has names l ∧
          l.relative "/mnt".toList = leaf := by
  have hkeys : mapKey knownBlake3 ⟨[], "make".toList, listed, []⟩ zeroDigest =
      mapKey knownBlake3 ⟨[], "make".toList, listed.reverse, []⟩ zeroDigest := by
    rw [mapKey, mapKey, envDigest, envDigest, (envText_listed).1, envText_listed.2.1]
  have hinj : Set.InjOn knownBlake3 {bytes "make".toList, bytes "make".toList, bytes (envText listed),
      bytes (envText listed.reverse)} := by
    refine (knownBlake3_collisionFree ?_).injOn
    rw [(envText_listed).1, envText_listed.2.1]
    rintro text (rfl | rfl | rfl | rfl) <;> decide
  have hplain : PlainEnv listed ∧ PlainEnv listed.reverse := by
    constructor <;> intro entry hentry <;> revert entry <;> decide
  have hstream : ∀ root target (h : '\x00' ∉ target), relativeTarget root target = "a".toList →
      ∀ text ∈ (mounted root target h).hashed knownBlake3, text ∈ knownDigests.map Prod.fst := by
    rintro root target h hrel text (⟨names, hhas⟩ | rfl)
    · rcases has_linked hhas with ⟨-, hleaf⟩ | ⟨-, hleaf⟩
      · rw [Leaf.file.inj hleaf]
        decide
      · cases hleaf
    · rw [Workspace.stream_eq, relativeRecords_mounted, hrel]
      decide
  have hrel : relativeTarget "/ws".toList "/ws/a".toList = "a".toList ∧
      relativeTarget "/mnt".toList "/mnt/a".toList = "a".toList := by decide
  have hhash : CollisionFree knownBlake3
      ((mounted "/ws".toList "/ws/a".toList (by decide)).hashed knownBlake3 ∪
        (mounted "/mnt".toList "/mnt/a".toList (by decide)).hashed knownBlake3) := by
    refine knownBlake3_collisionFree fun text htext => ?_
    exact htext.elim (hstream _ _ _ hrel.1 text) (hstream _ _ _ hrel.2 text)
  have h := shadow_injective knownBlake3
  exact ⟨(h.1 _ _ _ _ hinj hkeys).2.2.2 hplain.1 hplain.2,
    h.2 _ _ hhash (fingerprintDir_mounted knownBlake3 (hrel.1.trans hrel.2.symm))⟩

/-- A link and a shorter spelling of it, and an assignment with a newline in it and two assignments. -/
theorem rewritten_link :
    (∀ blake3, (mounted "/ws".toList "/ws/a".toList (by decide)).fingerprintDir blake3 =
      (mounted "/ws".toList "a".toList (by decide)).fingerprintDir blake3) ∧
    (mounted "/ws".toList "/ws/a".toList (by decide)).Has ["b".toList] (.symlink "/ws/a".toList) ∧
    ¬ (mounted "/ws".toList "a".toList (by decide)).Has ["b".toList] (.symlink "/ws/a".toList) ∧
    (∀ blake3, mapKey blake3 ⟨[], "make".toList, [("A".toList, "1\nB=2".toList)], []⟩ zeroDigest =
      mapKey blake3 ⟨[], "make".toList, listed, []⟩ zeroDigest) ∧
    ("B".toList, "2".toList) ∈ listed ∧
    ("B".toList, "2".toList) ∉ [("A".toList, "1\nB=2".toList)] := by
  refine ⟨fun blake3 => fingerprintDir_mounted blake3 (by decide), ?_, fun h => ?_,
    fun blake3 => ?_, by decide, by decide⟩
  · exact .dir (List.mem_cons_of_mem _ List.mem_cons_self) (.symlink _)
  · rcases has_linked h with ⟨-, hleaf⟩ | ⟨-, hleaf⟩
    · cases hleaf
    · exact absurd (Leaf.symlink.inj hleaf) (by decide)
  · rw [mapKey, mapKey, envDigest, envDigest, (envText_listed).1, envText_listed.2.2]

end GhRunner.Execution.Shadow
