import GhRunner.Expressions.Display
import GhRunner.Expressions.JsonRoundTrip

namespace GhRunner.Expressions

open Text Binary64

/-!
# Context data of the job message

`crates/shared/src/job_message/context_data.rs`, `context_data_de.rs`; `crates/expressions/src/context_data.rs`.

* `PipelineContextData`, `fromJson` — the data, as `serde_json` reads them;
* `pipelineDataToExprValue` — the value for the evaluator; what is there counts, and not the tag;
* `Wire` — the forms a value may have in a message: bare or with a tag, at every level, and any tag;
* `importContexts_wire` — every form of a value is read as that value.
-/

abbrev I32 := { i : ℤ // -2 ^ 31 ≤ i ∧ i < 2 ^ 31 }

/-- Context data from the pipeline. -/
structure PipelineContextData where
  dataType : I32
  s : Option Str
  b : Option Bool
  n : Option F64
  a : Option (List PipelineContextData)
  /-- The key and the value of each entry. -/
  d : Option (List (PipelineContextData × PipelineContextData))

namespace PipelineContextData

def string (s : Str) : PipelineContextData := ⟨⟨0, by decide⟩, some s, none, none, none, none⟩

def bool (v : Bool) : PipelineContextData := ⟨⟨3, by decide⟩, none, some v, none, none, none⟩

def number (v : F64) : PipelineContextData := ⟨⟨4, by decide⟩, none, none, some v, none, none⟩

def null : PipelineContextData := ⟨⟨5, by decide⟩, none, none, none, none, none⟩

end PipelineContextData

/-! ### Reading -/

/-- The fields of an object that were read so far. -/
structure ContextFields where
  dataType : Option I32
  s : Option (Option Str)
  b : Option (Option Bool)
  n : Option (Option F64)
  a : Option (Option (List PipelineContextData))
  d : Option (Option (List (PipelineContextData × PipelineContextData)))

namespace ContextFields

def empty : ContextFields := ⟨none, none, none, none, none, none⟩

/-- A field that is missing is the default. -/
def build (f : ContextFields) : PipelineContextData where
  dataType := f.dataType.getD ⟨0, by decide⟩
  s := f.s.getD none
  b := f.b.getD none
  n := f.n.getD none
  a := f.a.getD none
  d := f.d.getD none

end ContextFields

def readI32 : Json.Value → Option I32
  | .number (.int i) => if h : -2 ^ 31 ≤ i ∧ i < 2 ^ 31 then some ⟨i, h⟩ else none
  | _ => none

def readText : Json.Value → Option (Option Str)
  | .null => some none
  | .string s => some (some s)
  | _ => none

def readBool : Json.Value → Option (Option Bool)
  | .null => some none
  | .bool b => some (some b)
  | _ => none

def readF64 : Json.Value → Option (Option F64)
  | .null => some none
  | .number n => some (some n.toF64)
  | _ => none

def isKeyField (name : Str) : Bool := name = "key".toList || name = "k".toList || name = "Key".toList

def isValueField (name : Str) : Bool := name = "value".toList || name = "v".toList || name = "Value".toList

mutual

/-- A bare value, or an object of fields. -/
def fromJson : Json.Value → Option PipelineContextData
  | .string s => some (.string s)
  | .bool b => some (.bool b)
  | .number n => some (.number n.toF64)
  | .null => some .null
  | .array _ => none
  | .object members => (readFields members .empty).map ContextFields.build

/-- The members in their order; a field that comes twice is an error, and an unknown one is ignored. -/
def readFields : List (Str × Json.Value) → ContextFields → Option ContextFields
  | [], f => some f
  | (name, v) :: members, f =>
    if name = "type".toList then
      if f.dataType.isSome then none
      else (readI32 v).bind fun i => readFields members { f with dataType := some i }
    else if name = "s".toList then
      if f.s.isSome then none else (readText v).bind fun s => readFields members { f with s := some s }
    else if name = "b".toList then
      if f.b.isSome then none else (readBool v).bind fun b => readFields members { f with b := some b }
    else if name = "n".toList then
      if f.n.isSome then none else (readF64 v).bind fun n => readFields members { f with n := some n }
    else if name = "a".toList then
      if f.a.isSome then none else (readArray v).bind fun a => readFields members { f with a := some a }
    else if name = "d".toList then
      if f.d.isSome then none else (readDict v).bind fun d => readFields members { f with d := some d }
    else readFields members f

def readArray : Json.Value → Option (Option (List PipelineContextData))
  | .null => some none
  | .array values => (fromJsons values).map some
  | _ => none

def fromJsons : List Json.Value → Option (List PipelineContextData)
  | [] => some []
  | v :: values => (fromJson v).bind fun data => (fromJsons values).map (data :: ·)

def readDict : Json.Value → Option (Option (List (PipelineContextData × PipelineContextData)))
  | .null => some none
  | .array values => (entriesFromJson values).map some
  | _ => none

def entriesFromJson : List Json.Value → Option (List (PipelineContextData × PipelineContextData))
  | [] => some []
  | v :: values => (entryFromJson v).bind fun entry => (entriesFromJson values).map (entry :: ·)

/-- An object with a key and a value, by any of their names, or the two of them in an array. -/
def entryFromJson : Json.Value → Option (PipelineContextData × PipelineContextData)
  | .object members => readEntry members none none
  | .array [key, value] => (fromJson key).bind fun key => (fromJson value).map fun value => (key, value)
  | _ => none

def readEntry : List (Str × Json.Value) → Option PipelineContextData → Option PipelineContextData →
    Option (PipelineContextData × PipelineContextData)
  | [], some key, some value => some (key, value)
  | [], _, _ => none
  | (name, v) :: members, key, value =>
    if isKeyField name then
      if key.isSome then none else (fromJson v).bind fun key => readEntry members (some key) value
    else if isValueField name then
      if value.isSome then none else (fromJson v).bind fun value => readEntry members key (some value)
    else readEntry members key value

end

/-! ### The value for the evaluator -/

mutual

/-- Prioritizes actual data over the tag. -/
def pipelineDataToExprValue : PipelineContextData → ExprValue
  | ⟨_, some s, _, _, _, _⟩ => .string s
  | ⟨_, none, _, _, _, some entries⟩ => .object (dictEntries entries [])
  | ⟨_, none, _, _, some values, none⟩ => .array (pipelineValues values)
  | ⟨_, none, some b, _, none, none⟩ => .bool b
  | ⟨_, none, none, some n, none, none⟩ => .number n
  | ⟨_, none, none, none, none, none⟩ => .null

def pipelineValues : List PipelineContextData → List ExprValue
  | [] => []
  | data :: values => pipelineDataToExprValue data :: pipelineValues values

/-- The entries inserted one by one. -/
def dictEntries : List (PipelineContextData × PipelineContextData) → List (Str × ExprValue) →
    List (Str × ExprValue)
  | [], map => map
  | (key, value) :: entries, map =>
    dictEntries entries (objectInsert (coerceToString (pipelineDataToExprValue key))
      (pipelineDataToExprValue value) map)

end

/-! ### Field by field -/

def typeMember (dataType : I32) : Str × Json.Value := ("type".toList, .number (.int dataType.val))

section Fields

variable {f : ContextFields} {rest : List (Str × Json.Value)}

theorem readFields_type (h : f.dataType = none) (t : I32) :
    readFields (typeMember t :: rest) f = readFields rest { f with dataType := some t } := by
  have hread : readI32 (.number (.int t.val)) = some t := dif_pos t.property
  rw [typeMember, readFields, if_pos rfl, h, hread]
  rfl

theorem readFields_array (h : f.a = none) {values : List Json.Value} {as : List PipelineContextData}
    (hread : fromJsons values = some as) :
    readFields (("a".toList, .array values) :: rest) f = readFields rest { f with a := some (some as) } := by
  rw [readFields, if_neg (by decide), if_neg (by decide), if_neg (by decide), if_neg (by decide), if_pos rfl, h,
    readArray, hread]
  rfl

theorem readFields_dict (h : f.d = none) {values : List Json.Value}
    {ds : List (PipelineContextData × PipelineContextData)} (hread : entriesFromJson values = some ds) :
    readFields (("d".toList, .array values) :: rest) f = readFields rest { f with d := some (some ds) } := by
  rw [readFields, if_neg (by decide), if_neg (by decide), if_neg (by decide), if_neg (by decide),
    if_neg (by decide), if_pos rfl, h, readDict, hread]
  rfl

theorem isKeyField_of_isValueField {name : Str} (h : isValueField name = true) : isKeyField name = false := by
  simp only [isValueField, Bool.or_eq_true, decide_eq_true_eq] at h
  rcases h with (rfl | rfl) | rfl <;> decide

theorem readEntry_pair {keyField valueField : Str} (hkey : isKeyField keyField = true)
    (hvalue : isValueField valueField = true) {key value : Json.Value}
    {k v : PipelineContextData} (hk : fromJson key = some k) (hv : fromJson value = some v) :
    readEntry [(keyField, key), (valueField, value)] none none = some (k, v) := by
  rw [readEntry, if_pos hkey, hk]
  show readEntry [(valueField, value)] (some k) none = _
  rw [readEntry, isKeyField_of_isValueField hvalue, if_neg (by decide), if_pos hvalue, hv]
  rfl

end Fields

/-! ### The forms of a value -/

/-- An object with a field, or none, and a tag before it, behind it or not at all. -/
def Tagged (field : Option (Str × Json.Value)) (w : Json.Value) : Prop :=
  ∃ tag : Option I32, w = .object ((tag.map typeMember).toList ++ field.toList) ∨
    w = .object (field.toList ++ (tag.map typeMember).toList)

/-- An entry of a dictionary. -/
def EntryForm (key value w : Json.Value) : Prop :=
  w = .array [key, value] ∨
    ∃ keyField valueField, isKeyField keyField = true ∧ isValueField valueField = true ∧
      w = .object [(keyField, key), (valueField, value)]

def TextForm (s : Str) (w : Json.Value) : Prop := w = .string s ∨ Tagged (some ("s".toList, .string s)) w

mutual

/-- The value may be sent as this. -/
def Wire : ExprValue → Json.Value → Prop
  | .string s, w => TextForm s w
  | .bool b, w => w = .bool b ∨ Tagged (some ("b".toList, .bool b)) w
  | .number n, w => ∃ m : Json.Number, m.toF64 = n ∧ (w = .number m ∨ Tagged (some ("n".toList, .number m)) w)
  | .null, w => w = .null ∨ Tagged none w
  | .array values, w => ∃ ws, WireValues values ws ∧ Tagged (some ("a".toList, .array ws)) w
  | .object entries, w => (entries.map Prod.fst).Nodup ∧
    ∃ ws, WireEntries entries ws ∧ Tagged (some ("d".toList, .array ws)) w

def WireValues : List ExprValue → List Json.Value → Prop
  | [], ws => ws = []
  | value :: values, ws => ∃ w rest, ws = w :: rest ∧ Wire value w ∧ WireValues values rest

def WireEntries : List (Str × ExprValue) → List Json.Value → Prop
  | [], ws => ws = []
  | (key, value) :: entries, ws => ∃ wk wv w rest, ws = w :: rest ∧ TextForm key wk ∧ Wire value wv ∧
    EntryForm wk wv w ∧ WireEntries entries rest

end

/-- A tag makes no difference but to itself. -/
theorem fromJson_tagged {field : Option (Str × Json.Value)} {w : Json.Value} (h : Tagged field w)
    (f : Option I32 → ContextFields) (hdata : ∀ t, (f t).dataType = t)
    (hset : ∀ t t', { f t with dataType := t' } = f t')
    (hread : ∀ t rest, readFields (field.toList ++ rest) { ContextFields.empty with dataType := t } =
      readFields rest (f t)) :
    ∃ t, fromJson w = some (f t).build := by
  have hnone := hread none []
  obtain ⟨tag, rfl | rfl⟩ := h
  · refine ⟨tag, ?_⟩
    have hall := hread tag []
    rw [List.append_nil] at hall
    cases tag with
    | none =>
      show (readFields field.toList { ContextFields.empty with dataType := none }).map _ = _
      rw [hall]
      rfl
    | some t =>
      show (readFields (typeMember t :: field.toList) .empty).map _ = _
      rw [readFields_type rfl, hall]
      rfl
  · refine ⟨tag, ?_⟩
    cases tag with
    | none =>
      show (readFields (field.toList ++ []) { ContextFields.empty with dataType := none }).map _ = _
      rw [hnone]
      rfl
    | some t =>
      show (readFields (field.toList ++ [typeMember t]) { ContextFields.empty with dataType := none }).map _ = _
      rw [hread none, readFields_type (hdata none), hset]
      rfl

theorem fromJson_textForm {s : Str} {w : Json.Value} (h : TextForm s w) :
    ∃ data, fromJson w = some data ∧ pipelineDataToExprValue data = .string s := by
  rcases h with rfl | h
  · exact ⟨_, rfl, rfl⟩
  · obtain ⟨t, ht⟩ := fromJson_tagged h (fun t => ⟨t, some (some s), none, none, none, none⟩) (fun _ => rfl)
      (fun _ _ => rfl) fun t rest => rfl
    exact ⟨_, ht, rfl⟩

theorem entryFromJson_entryForm {key value w : Json.Value} {k v : PipelineContextData}
    (hk : fromJson key = some k) (hv : fromJson value = some v) (h : EntryForm key value w) :
    entryFromJson w = some (k, v) := by
  rcases h with rfl | ⟨keyField, valueField, hkey, hvalue, rfl⟩
  · rw [entryFromJson, hk, hv]
    rfl
  · exact readEntry_pair hkey hvalue hk hv

theorem dictEntries_append {entries : List (PipelineContextData × PipelineContextData)}
    {expected collected : List (Str × ExprValue)}
    (h : List.Forall₂ (fun entry named => pipelineDataToExprValue entry.1 = .string named.1 ∧
      pipelineDataToExprValue entry.2 = named.2) entries expected)
    (hnodup : (collected.map Prod.fst ++ expected.map Prod.fst).Nodup) :
    dictEntries entries collected = collected ++ expected := by
  induction h generalizing collected with
  | nil => rw [dictEntries, List.append_nil]
  | @cons entry named entries expected hentry _ ih =>
    obtain ⟨key, value⟩ := entry
    have hnew : named.1 ∉ collected.map Prod.fst := fun hmem =>
      (List.nodup_append.mp hnodup).2.2 _ hmem _ List.mem_cons_self rfl
    rw [dictEntries, hentry.1, hentry.2, coerceToString, objectInsert_of_notMem _ hnew, ih]
    · simp
    · rw [List.map_append, List.append_assoc]
      exact hnodup

mutual

/-- However it is sent, a value is read as itself. -/
theorem fromJson_wire : ∀ (v : ExprValue) (w : Json.Value), Wire v w →
    ∃ data, fromJson w = some data ∧ pipelineDataToExprValue data = v
  | .string s, w, h => fromJson_textForm h
  | .bool b, w, h => by
    rcases h with rfl | h
    · exact ⟨_, rfl, rfl⟩
    · obtain ⟨t, ht⟩ := fromJson_tagged h (fun t => ⟨t, none, some (some b), none, none, none⟩) (fun _ => rfl)
        (fun _ _ => rfl) fun t rest => rfl
      exact ⟨_, ht, rfl⟩
  | .number n, w, h => by
    obtain ⟨m, rfl, rfl | h⟩ := h
    · exact ⟨_, rfl, rfl⟩
    · obtain ⟨t, ht⟩ := fromJson_tagged h (fun t => ⟨t, none, none, some (some m.toF64), none, none⟩)
        (fun _ => rfl) (fun _ _ => rfl) fun t rest => rfl
      exact ⟨_, ht, rfl⟩
  | .null, w, h => by
    rcases h with rfl | h
    · exact ⟨_, rfl, rfl⟩
    · obtain ⟨t, ht⟩ := fromJson_tagged h (fun t => ⟨t, none, none, none, none, none⟩) (fun _ => rfl)
        (fun _ _ => rfl) fun t rest => rfl
      exact ⟨_, ht, rfl⟩
  | .array values, w, h => by
    obtain ⟨ws, hvalues, h⟩ := h
    obtain ⟨as, has, hread⟩ := fromJsons_wire values ws hvalues
    obtain ⟨t, ht⟩ := fromJson_tagged h (fun t => ⟨t, none, none, none, some (some as), none⟩) (fun _ => rfl)
      (fun _ _ => rfl) fun t rest => readFields_array rfl has
    exact ⟨_, ht, congrArg ExprValue.array hread⟩
  | .object entries, w, h => by
    obtain ⟨hnodup, ws, hentries, h⟩ := h
    obtain ⟨ds, hds, hread⟩ := entriesFromJson_wire entries ws hentries
    obtain ⟨t, ht⟩ := fromJson_tagged h (fun t => ⟨t, none, none, none, none, some (some ds)⟩) (fun _ => rfl)
      (fun _ _ => rfl) fun t rest => readFields_dict rfl hds
    exact ⟨_, ht, congrArg ExprValue.object (dictEntries_append hread hnodup)⟩

theorem fromJsons_wire : ∀ (values : List ExprValue) (ws : List Json.Value), WireValues values ws →
    ∃ as, fromJsons ws = some as ∧ pipelineValues as = values
  | [], ws, h => by
    obtain rfl := h
    exact ⟨[], rfl, rfl⟩
  | value :: values, ws, h => by
    obtain ⟨w, rest, rfl, hw, hrest⟩ := h
    obtain ⟨data, hdata, hvalue⟩ := fromJson_wire value w hw
    obtain ⟨as, has, hvalues⟩ := fromJsons_wire values rest hrest
    refine ⟨data :: as, ?_, ?_⟩
    · rw [fromJsons, hdata, has]
      rfl
    · rw [pipelineValues, hvalue, hvalues]

theorem entriesFromJson_wire : ∀ (entries : List (Str × ExprValue)) (ws : List Json.Value),
    WireEntries entries ws → ∃ ds, entriesFromJson ws = some ds ∧
      List.Forall₂ (fun entry named => pipelineDataToExprValue entry.1 = .string named.1 ∧
        pipelineDataToExprValue entry.2 = named.2) ds entries
  | [], ws, h => by
    obtain rfl := h
    exact ⟨[], rfl, .nil⟩
  | (key, value) :: entries, ws, h => by
    obtain ⟨wk, wv, w, rest, rfl, hwk, hwv, hform, hrest⟩ := h
    obtain ⟨k, hk, hkey⟩ := fromJson_textForm hwk
    obtain ⟨v, hv, hvalue⟩ := fromJson_wire value wv hwv
    obtain ⟨ds, hds, hread⟩ := entriesFromJson_wire entries rest hrest
    refine ⟨(k, v) :: ds, ?_, .cons ⟨hkey, hvalue⟩ hread⟩
    rw [entriesFromJson, entryFromJson_entryForm hk hv hform, hds]
    rfl

end

/-! ### The contexts of a message -/

/-- The `contextData` of a message. -/
def contextsFromJson : List (Str × Json.Value) → Option (List (Str × PipelineContextData))
  | [] => some []
  | (name, w) :: members =>
    (fromJson w).bind fun data => (contextsFromJson members).map ((name, data) :: ·)

/-- The contexts that the runner assembles itself. -/
def ownedContexts : List Str :=
  ["github", "vars", "env", "secrets", "steps", "runner", "job"].map String.toList

/-- `to_ascii_lowercase`. -/
def asciiLowercase (name : Str) : Str := name.map Char.toLower

/-- Import typed server roots without replacing runtime-owned contexts. -/
def importContexts : List (Str × PipelineContextData) → List (Str × ExprValue) → List (Str × ExprValue)
  | [], incoming => incoming
  | (name, value) :: contexts, incoming =>
    if asciiLowercase name ∈ ownedContexts then importContexts contexts incoming
    else importContexts contexts (objectInsert (asciiLowercase name) (pipelineDataToExprValue value) incoming)

theorem contextsFromJson_wire {members : List (Str × Json.Value)} {values : List (Str × ExprValue)}
    (h : List.Forall₂ (fun value member => member.1 = value.1 ∧ Wire value.2 member.2) values members) :
    ∃ contexts, contextsFromJson members = some contexts ∧
      contexts.map (fun context => (context.1, pipelineDataToExprValue context.2)) = values := by
  induction h with
  | nil => exact ⟨[], rfl, rfl⟩
  | @cons value member values members hmember _ ih =>
    obtain ⟨name, w⟩ := member
    obtain ⟨data, hdata, hvalue⟩ := fromJson_wire value.2 w hmember.2
    obtain ⟨contexts, hcontexts, hvalues⟩ := ih
    refine ⟨(name, data) :: contexts, ?_, ?_⟩
    · rw [contextsFromJson, hdata, hcontexts]
      rfl
    · rw [List.map_cons, hvalues, hvalue]
      exact congrArg (· :: values) (Prod.ext hmember.1 rfl)

theorem importContexts_append {contexts : List (Str × PipelineContextData)} {incoming : List (Str × ExprValue)}
    (h : (incoming.map Prod.fst ++ contexts.map fun context => asciiLowercase context.1).Nodup) :
    importContexts contexts incoming = incoming ++ (contexts.map fun context =>
      (asciiLowercase context.1, pipelineDataToExprValue context.2)).filter fun value =>
        value.1 ∉ ownedContexts := by
  induction contexts generalizing incoming with
  | nil => exact (List.append_nil incoming).symm
  | cons context contexts ih =>
    obtain ⟨name, data⟩ := context
    by_cases howned : asciiLowercase name ∈ ownedContexts
    · have hrest : (incoming.map Prod.fst ++ contexts.map fun context => asciiLowercase context.1).Nodup :=
        h.sublist ((List.Sublist.refl _).append (List.sublist_cons_self _ _))
      rw [importContexts, if_pos howned, ih hrest, List.map_cons, List.filter_cons_of_neg (by simpa using howned)]
    · have hnew : asciiLowercase name ∉ incoming.map Prod.fst := fun hmem =>
        (List.nodup_append.mp h).2.2 _ hmem _ List.mem_cons_self rfl
      rw [importContexts, if_neg howned, objectInsert_of_notMem _ hnew, ih, List.map_cons,
        List.filter_cons_of_pos (by simpa using howned), List.append_assoc]
      · rfl
      · rw [List.map_append, List.append_assoc]
        exact h

/-- In whatever forms a message has its contexts, what is imported is each of them, but for those that the
    runner owns. -/
theorem importContexts_wire {members : List (Str × Json.Value)} {values : List (Str × ExprValue)}
    (hforms : List.Forall₂ (fun value member => member.1 = value.1 ∧ Wire value.2 member.2) values members)
    (hnames : (values.map fun value => asciiLowercase value.1).Nodup) :
    ∃ contexts, contextsFromJson members = some contexts ∧
      importContexts contexts [] =
        (values.map fun value => (asciiLowercase value.1, value.2)).filter fun value =>
          value.1 ∉ ownedContexts := by
  obtain ⟨contexts, hread, rfl⟩ := contextsFromJson_wire hforms
  refine ⟨contexts, hread, ?_⟩
  rw [List.map_map] at hnames
  have hdistinct : (([] : List (Str × ExprValue)).map Prod.fst ++
      contexts.map fun context => asciiLowercase context.1).Nodup := hnames
  rw [importContexts_append hdistinct, List.nil_append, List.map_map]
  rfl

/-- A matrix in two forms, and a context that is the runner's own. -/
theorem importContexts_wire_matrix :
    ∃ contexts, contextsFromJson [("Matrix".toList, .object [("d".toList, .array
        [.array [.string ['o', 's'], .object [("s".toList, .string ['x'])]]])]),
        ("github".toList, .null)] = some contexts ∧
      importContexts contexts [] = ([("Matrix".toList, .object [(['o', 's'], .string ['x'])]),
        ("github".toList, .null)].map fun value => (asciiLowercase value.1, value.2)).filter fun value =>
          value.1 ∉ ownedContexts := by
  refine importContexts_wire (.cons ⟨rfl, by simp, ?_⟩ (.cons ⟨rfl, .inl rfl⟩ .nil)) (by decide)
  refine ⟨_, ⟨.string ['o', 's'], .object [("s".toList, .string ['x'])], _, [], rfl, .inl rfl, ?_, .inl rfl, rfl⟩,
    none, .inl rfl⟩
  exact .inr ⟨none, .inl rfl⟩

end GhRunner.Expressions
