import GhRunner.Execution.CommandDispatch

namespace GhRunner.Execution

open Text Percent Lines

/-!
# Commands as the toolkit writes them

The toolkit writes `::name key=value,…::data` with `%`, CR and LF escaped in the data, and `:` and `,`
besides in the values; a value that is empty is left out.

* `Properties`, `issue` — a command with its properties, and its line;
* `CommandName.properties`, `CommandName.data` — what a command's handler reads, and how;
* `seen`, `meant` — what a handler goes by, of a line and of what was to be written;
* `apply_eq_of_seen` — lines that are seen alike are applied alike;
* `splitCommand_issue` — an issued line is cut at its own places;
* `decoded_iff` — when a handler sees what was meant.
-/

/-! ### Issuing -/

def dataEscapes : Escapes where
  table := [('%', '2', '5'), ('\r', '0', 'D'), ('\n', '0', 'A')]
  percent := by decide +kernel
  codes := by decide +kernel

def propertyEscapes : Escapes where
  table := [('%', '2', '5'), ('\r', '0', 'D'), ('\n', '0', 'A'), (':', '3', 'A'), (',', '2', 'C')]
  percent := by decide +kernel
  codes := by decide +kernel

/-- Keys are written as they are: no separator stands in one, and no white space around it. -/
def IsKey (key : Str) : Prop := ':' ∉ key ∧ ',' ∉ key ∧ '=' ∉ key ∧ trim key = key

instance decidableIsKey (key : Str) : Decidable (IsKey key) :=
  inferInstanceAs (Decidable (_ ∧ _ ∧ _ ∧ _))

/-- The properties of a command, each key once. -/
structure Properties where
  entries : List (Str × Str)
  keys : ∀ e ∈ entries, IsKey e.1
  nodup : (entries.map Prod.fst).Nodup

/-- The value that is sent for a key. -/
def Properties.get (props : Properties) (key : Str) : Option Str :=
  (props.entries.lookup key).filter (· ≠ [])

def writeProperty (e : Str × Str) : Str := e.1 ++ '=' :: propertyEscapes.escape e.2

def Properties.write (props : Properties) : Str :=
  if props.entries = [] then []
  else ' ' :: [','].intercalate ((props.entries.filter fun e => e.2 ≠ []).map writeProperty)

/-- The line the toolkit issues. -/
def issue (command : Str) (props : Properties) (data : Str) : Str :=
  "::".toList ++ ((if command = [] then "missing.command".toList else command) ++ props.write ++
    ("::".toList ++ dataEscapes.escape data))

/-! ### What a handler goes by -/

/-- How a property is read: unescaped as a property, unescaped as data, or as a number if it is one. -/
inductive PropertyReading
  | property | name | number
deriving DecidableEq, Repr

/-- How the data is read: unescaped, as a switch, as it is, or not at all. -/
inductive DataReading
  | data | switch | verbatim | ignored
deriving DecidableEq, Repr

def CommandName.properties : CommandName → List (Str × PropertyReading)
  | .error | .warning | .notice =>
    [("file".toList, .property), ("title".toList, .property), ("line".toList, .number),
      ("col".toList, .number), ("endLine".toList, .number), ("endColumn".toList, .number)]
  | .removeMatcher => [("owner".toList, .property)]
  | .setOutput | .saveState => [("name".toList, .name)]
  | _ => []

def CommandName.data : CommandName → DataReading
  | .endgroup | .addPath | .setEnv => .ignored
  | .echo => .switch
  | .stopCommands => .verbatim
  | _ => .data

inductive SeenData
  | text (value : Str)
  | switch (on : Bool)
  | ignored
deriving DecidableEq

/-- A command by its name, the values its handler reads in order, and its data. -/
structure Seen where
  name : CommandName
  properties : List (Option Str)
  data : SeenData
deriving DecidableEq

def PropertyReading.read : PropertyReading → Str → Option Str
  | .property, raw => some (unescapeProperty raw)
  | .name, raw => some (unescapeData raw)
  | .number, raw => numeral raw

def PropertyReading.meant : PropertyReading → Str → Option Str
  | .property, value | .name, value => some value
  | .number, value => numeral value

def DataReading.read : DataReading → Str → SeenData
  | .data, raw => .text (unescapeData raw)
  | .switch, raw => .switch (isOn raw)
  | .verbatim, raw => .text raw
  | .ignored, _ => .ignored

def DataReading.meant : DataReading → Str → SeenData
  | .data, value | .verbatim, value => .text value
  | .switch, value => .switch (isOn value)
  | .ignored, _ => .ignored

/-- What the handler of a split line goes by. -/
def seenOf (props : Pairs) (value : Str) (name : CommandName) : Seen :=
  ⟨name, name.properties.map fun p => (props.lookup p.1).bind p.2.read, name.data.read value⟩

def seen (line : Str) : Option Seen := do
  let (command, props, value) ← splitCommand line
  let name ← commandName command
  some (seenOf props value name)

/-- What the handler should go by. -/
def meantOf (props : Properties) (data : Str) (name : CommandName) : Seen :=
  ⟨name, name.properties.map fun p => (props.get p.1).bind p.2.meant, name.data.meant data⟩

def meant (command : Str) (props : Properties) (data : Str) : Option Seen :=
  (commandName command).map (meantOf props data)

/-- The handler of the issued line sees the name, the values and the data that were meant. -/
def Decoded (command : Str) (props : Properties) (data : Str) : Prop :=
  (meant command props data).isSome ∧ seen (issue command props data) = meant command props data

instance decidableDecoded (command : Str) (props : Properties) (data : Str) :
    Decidable (Decoded command props data) :=
  inferInstanceAs (Decidable (_ ∧ _))

/-! ### Handlers factor through what they see -/

theorem unescape_eq_nil {decode : Char → Char → Option Char} {s : Str} :
    unescape decode s = [] ↔ s = [] := by
  constructor
  · intro h
    unfold unescape at h
    split at h
    case h_1 => rfl
    case h_2 => split at h <;> cases h
    case h_3 => cases h
  · rintro rfl
    rfl

section Handlers

variable {A : Shared.AhoCorasick} (s : Dispatch A) (world : Surroundings)

theorem pushAnnotation_congr {level : AnnotationLevel} {fields fields' : AnnotationFields}
    (hmessage : unescapeData fields.message = unescapeData fields'.message)
    (hfile : fields.file.map unescapeProperty = fields'.file.map unescapeProperty)
    (htitle : fields.title.map unescapeProperty = fields'.title.map unescapeProperty)
    (hline : fields.line = fields'.line) (hcol : fields.col = fields'.col)
    (hendLine : fields.endLine = fields'.endLine)
    (hendColumn : fields.endColumn = fields'.endColumn) :
    s.pushAnnotation level fields = s.pushAnnotation level fields' := by
  have hmask : ∀ value : Option Str, (value.map fun v => s.mask (unescapeProperty v)) =
      (value.map unescapeProperty).map s.mask := fun value => (Option.map_map _ _ _).symm
  unfold Dispatch.pushAnnotation
  simp only [hmask, hmessage, hfile, htitle, hline, hcol, hendLine, hendColumn]

theorem unescapeData_eq_nil {name : Str} : unescapeData name = [] ↔ name = [] := unescape_eq_nil

theorem applySetOutput_congr {name name' value value' : Str}
    (hname : unescapeData name = unescapeData name') (hvalue : unescapeData value = unescapeData value') :
    s.applySetOutput name value = s.applySetOutput name' value' := by
  have hnil : name = [] ↔ name' = [] := by
    rw [← unescapeData_eq_nil, hname, unescapeData_eq_nil]
  unfold Dispatch.applySetOutput
  simp only [hnil, hname, hvalue]

theorem applySaveState_congr {name name' value value' : Str}
    (hname : unescapeData name = unescapeData name') (hvalue : unescapeData value = unescapeData value') :
    s.applySaveState name value = s.applySaveState name' value' := by
  have hnil : name = [] ↔ name' = [] := by
    rw [← unescapeData_eq_nil, hname, unescapeData_eq_nil]
  unfold Dispatch.applySaveState
  simp only [hnil, hname, hvalue]

theorem buildAnnotation_congr {level : AnnotationLevel} {props props' : Pairs} {value value' : Str}
    (hvalue : unescapeData value = unescapeData value')
    (hprops : ∀ p ∈ CommandName.error.properties,
      (props.lookup p.1).bind p.2.read = (props'.lookup p.1).bind p.2.read) :
    s.pushAnnotation level ( buildAnnotation value props) =
      s.pushAnnotation level ( buildAnnotation value' props') := by
  have hproperty : ∀ key, (key, PropertyReading.property) ∈ CommandName.error.properties →
      (props.lookup key).map unescapeProperty = (props'.lookup key).map unescapeProperty := by
    intro key hkey
    rw [Option.map_eq_bind, Option.map_eq_bind]
    exact hprops _ hkey
  have hrange : normalizedRange props = normalizedRange props' := by
    unfold normalizedRange
    rw [← rangeOf_numerals, ← rangeOf_numerals (props'.lookup _)]
    congr 1
    · exact hprops ("line".toList, .number) (by decide)
    · exact hprops ("endLine".toList, .number) (by decide)
    · exact hprops ("col".toList, .number) (by decide)
    · exact hprops ("endColumn".toList, .number) (by decide)
  refine pushAnnotation_congr s hvalue (hproperty _ (by decide)) (hproperty _ (by decide)) ?_ ?_ ?_ ?_
  all_goals
    unfold buildAnnotation
    rw [hrange]

/-- Split lines that are seen alike are applied alike. -/
theorem apply_eq_of_seenOf {props props' : Pairs} {value value' : Str} {name : CommandName}
    (h : seenOf props value name = seenOf props' value' name) :
    s.apply world (commandOf props value name) = s.apply world (commandOf props' value' name) := by
  obtain ⟨-, hproperties, hdata⟩ := Seen.mk.inj h
  have hprops := List.map_inj_left.mp hproperties
  have htext : ∀ v v' : Str, SeenData.text (unescapeData v) = .text (unescapeData v') →
      unescapeData v = unescapeData v' := fun _ _ heq => SeenData.text.inj heq
  have hname : name = .setOutput ∨ name = .saveState →
      unescapeData ((props.lookup "name".toList).getD []) =
        unescapeData ((props'.lookup "name".toList).getD []) := by
    rintro (rfl | rfl) <;>
    · have hread := hprops ("name".toList, .name) (by decide)
      revert hread
      cases props.lookup "name".toList <;> cases props'.lookup "name".toList <;>
        simp [PropertyReading.read]
  cases name with
  | error => exact buildAnnotation_congr s (htext _ _ hdata) hprops
  | warning => exact buildAnnotation_congr s (htext _ _ hdata) hprops
  | notice => exact buildAnnotation_congr s (htext _ _ hdata) hprops
  | setOutput => exact applySetOutput_congr s (hname (.inl rfl)) (htext _ _ hdata)
  | saveState => exact applySaveState_congr s (hname (.inr rfl)) (htext _ _ hdata)
  | addMatcher =>
    show s.addMatcher world value = s.addMatcher world value'
    unfold Dispatch.addMatcher
    rw [htext _ _ hdata]
  | removeMatcher =>
    have howner : (props.lookup "owner".toList).map unescapeProperty =
        (props'.lookup "owner".toList).map unescapeProperty := by
      rw [Option.map_eq_bind, Option.map_eq_bind]
      exact hprops ("owner".toList, .property) (by decide)
    show s.removeMatcher world (props.lookup _) value = s.removeMatcher world (props'.lookup _) value'
    unfold Dispatch.removeMatcher
    rw [htext _ _ hdata, howner]
  | debug => rfl
  | group =>
    show s.applyGroup value = s.applyGroup value'
    unfold Dispatch.applyGroup
    rw [htext _ _ hdata]
  | endgroup => rfl
  | addMask =>
    show s.applyAddMask value = s.applyAddMask value'
    unfold Dispatch.applyAddMask
    rw [htext _ _ hdata]
  | addPath => rfl
  | setEnv => rfl
  | echo =>
    have hon : isOn value = isOn value' := SeenData.switch.inj hdata
    unfold commandOf
    rw [hon]
  | stopCommands =>
    have htoken : value = value' := SeenData.text.inj hdata
    rw [htoken]
    rfl

end Handlers

/-! ### An issued line is cut at its own places -/

section Splitting

variable {props : Properties} {key value data : Str} {name : CommandName}

theorem notMem_text (name : CommandName) : ':' ∉ name.text ∧ ' ' ∉ name.text ∧ name.text ≠ [] := by
  cases name <;> decide

theorem notMem_writeProperty {e : Str × Str} (h : IsKey e.1) :
    ':' ∉ writeProperty e ∧ ',' ∉ writeProperty e := by
  have hescape : ∀ c ∈ [':', ','], c ∉ propertyEscapes.escape e.2 := by
    intro c hc
    rcases List.mem_pair.mp hc with rfl | rfl <;> exact Escapes.notMem_escape (by decide) (by decide)
  constructor
  · simp [writeProperty, h.1, hescape ':' (by simp)]
  · simp [writeProperty, h.2.1, hescape ',' (by simp)]

/-- The pieces between the commas. -/
def Properties.pieces (props : Properties) : List (Str × Str) :=
  props.entries.filter fun e => e.2 ≠ []

theorem isKey_of_mem_pieces {e : Str × Str} (h : e ∈ props.pieces) : IsKey e.1 :=
  props.keys e (List.mem_filter.mp h).1

theorem colon_notMem_write (props : Properties) : ':' ∉ props.write := by
  unfold Properties.write
  split
  case isTrue => simp
  case isFalse =>
    rw [List.mem_cons, not_or]
    refine ⟨by decide, fun hmem => ?_⟩
    rcases mem_intercalate hmem with hcomma | ⟨piece, hpiece, hcolon⟩
    · exact absurd hcomma (by decide)
    · obtain ⟨e, he, rfl⟩ := List.mem_map.mp hpiece
      exact (notMem_writeProperty (isKey_of_mem_pieces he)).1 hcolon

/-- A written property is read as its key, with what trimming leaves of its value. -/
theorem insertProp_writeProperty {e : Str × Str} (h : IsKey e.1) (m : Pairs) :
    insertProp m (writeProperty e) =
      m.insert e.1 (propertyEscapes.escape (propertyEscapes.strip e.2)) := by
  have hsplit : splitFirst ['='] (writeProperty e) = some (e.1, propertyEscapes.escape e.2) :=
    splitFirst_of_notMem h.2.2.1 [] _
  unfold insertProp
  rw [hsplit]
  dsimp only
  rw [h.2.2.2, Escapes.trim_escape]

theorem lookup_foldl_insert {entries : List (Str × Str)} (hnodup : (entries.map Prod.fst).Nodup)
    (f : Str → Str) (m : Pairs) (key : Str) :
    ((entries.filter fun e => e.2 ≠ []).foldl (fun m e => m.insert e.1 (f e.2)) m).lookup key =
      (((entries.lookup key).filter (· ≠ [])).map f).or (m.lookup key) := by
  induction entries generalizing m with
  | nil => rfl
  | cons e entries ih =>
    obtain ⟨k, v⟩ := e
    obtain ⟨hnew, hrest⟩ := List.nodup_cons.mp hnodup
    have hnone : entries.lookup k = none := by
      rw [List.lookup_eq_none_iff]
      intro e he
      rw [bne_iff_ne]
      rintro rfl
      exact hnew (List.mem_map.mpr ⟨e, he, rfl⟩)
    by_cases hv : v = []
    · subst hv
      rw [List.filter_cons_of_neg (by simp), ih hrest]
      by_cases hk : key = k
      · subst hk
        rw [hnone, List.lookup_cons_self, Option.filter_some_neg (by simp)]
        rfl
      · rw [List.lookup_cons, beq_eq_false_iff_ne.mpr hk]
    · rw [List.filter_cons_of_pos (by simpa using hv), List.foldl_cons, ih hrest]
      by_cases hk : key = k
      · subst hk
        rw [hnone, List.lookup_cons_self, Option.filter_some_pos (by simpa using hv),
          Finmap.lookup_insert]
        rfl
      · rw [List.lookup_cons, beq_eq_false_iff_ne.mpr hk, Finmap.lookup_insert_of_ne _ hk]

theorem lookup_parseProps (props : Properties) (key : Str) :
    (parseProps ([','].intercalate (props.pieces.map writeProperty))).lookup key =
      (props.get key).map fun v => propertyEscapes.escape (propertyEscapes.strip v) := by
  have hfold : (parseProps ([','].intercalate (props.pieces.map writeProperty))) =
      props.pieces.foldl
        (fun m e => m.insert e.1 (propertyEscapes.escape (propertyEscapes.strip e.2))) ∅ := by
    unfold parseProps
    by_cases hnil : props.pieces = []
    · rw [hnil]
      rfl
    · rw [List.splitOn_intercalate, List.foldl_map]
      · refine List.foldl_ext _ _ _ fun m e he => ?_
        exact insertProp_writeProperty (isKey_of_mem_pieces he) m
      · intro piece hpiece
        obtain ⟨e, he, rfl⟩ := List.mem_map.mp hpiece
        exact (notMem_writeProperty (isKey_of_mem_pieces he)).2
      · simpa using hnil
  rw [hfold, Properties.pieces,
    lookup_foldl_insert props.nodup (fun v => propertyEscapes.escape (propertyEscapes.strip v)),
    Finmap.lookup_empty, Option.or_none]
  rfl

/-- The line of a known command is split into its name, its values as they were written, but for white
    space around them that was written as it is, and its data as it was written. -/
theorem splitCommand_issue (name : CommandName) (props : Properties) (data : Str) :
    ∃ m : Pairs, splitCommand (issue name.text props data) =
        some (name.text, m, dataEscapes.escape data) ∧
      ∀ key, m.lookup key =
        (props.get key).map fun v => propertyEscapes.escape (propertyEscapes.strip v) := by
  obtain ⟨hcolon, hspace, hne⟩ := notMem_text name
  have hhead : splitFirst "::".toList
      (name.text ++ props.write ++ ("::".toList ++ dataEscapes.escape data)) =
        some (name.text ++ props.write, dataEscapes.escape data) := by
    refine splitFirst_of_notMem ?_ [':'] _
    rw [List.mem_append, not_or]
    exact ⟨hcolon, colon_notMem_write props⟩
  have hsplit : splitCommand (issue name.text props data) =
      some ((splitCommandAndProps (name.text ++ props.write)).1,
        (splitCommandAndProps (name.text ++ props.write)).2, dataEscapes.escape data) := by
    unfold splitCommand issue
    rw [if_neg hne, List.isPrefixOf?_eq_some_iff_append_eq.mpr rfl]
    show (splitFirst "::".toList _).bind _ = _
    rw [hhead]
    rfl
  rw [hsplit]
  by_cases hnil : props.entries = []
  · have hwrite : props.write = [] := if_pos hnil
    rw [hwrite, splitCommandAndProps]
    have hnone : splitFirst [' '] (name.text ++ []) = none := by
      rw [List.append_nil, splitFirst_eq_none_iff, List.singleton_infix_iff]
      exact hspace
    rw [hnone]
    refine ⟨∅, by rw [List.append_nil], fun key => ?_⟩
    rw [Properties.get, hnil]
    rfl
  · have hwrite : props.write = [' '] ++ [','].intercalate (props.pieces.map writeProperty) :=
      if_neg hnil
    rw [hwrite, splitCommandAndProps, splitFirst_of_notMem hspace [] _]
    exact ⟨_, rfl, lookup_parseProps props⟩

end Splitting

/-! ### When a handler sees what was meant -/

/-- A value that comes back: white space around it is escaped, or there is none; a name has no separator
    either, and a text that is no number without that white space was no number. -/
def PropertyReading.Survives (value : Str) : PropertyReading → Prop
  | .property => propertyEscapes.strip value = value
  | .name => propertyEscapes.strip value = value ∧ ':' ∉ value ∧ ',' ∉ value
  | .number => propertyEscapes.strip value = value ∨ numeral (propertyEscapes.strip value) = none

/-- Data that comes back: a token has nothing to escape, and a switch that is on no line break. -/
def DataReading.Survives (value : Str) : DataReading → Prop
  | .data | .ignored => True
  | .switch => isOn value = true → '\r' ∉ value ∧ '\n' ∉ value
  | .verbatim => '%' ∉ value ∧ '\r' ∉ value ∧ '\n' ∉ value

section Survival

variable {value data : Str} {c : Char}

theorem code_dataEscapes (c : Char) :
    dataEscapes.code c = none ↔ c ≠ '%' ∧ c ≠ '\r' ∧ c ≠ '\n' := by
  rw [Escapes.code_eq_none_iff]
  simp [dataEscapes]

theorem code_propertyEscapes (c : Char) :
    propertyEscapes.code c = none ↔ c ≠ '%' ∧ c ≠ '\r' ∧ c ≠ '\n' ∧ c ≠ ':' ∧ c ≠ ',' := by
  rw [Escapes.code_eq_none_iff]
  simp [propertyEscapes]

/-- The codes that a reader knows are read as what they were written for. -/
theorem decode_agrees {E : Escapes} {decode : Char → Char → Option Char}
    (h : ∀ e ∈ E.table, (decode e.2.1 e.2.2).all (· = e.1) = true) :
    ∀ c a b, E.code c = some (a, b) → ∀ d, decode a b = some d → d = c := by
  intro c a b hcode d hd
  have hall := h (c, (a, b)) (Escapes.mem_table hcode)
  rw [hd, Option.all_some] at hall
  exact of_decide_eq_true hall

theorem unescapeData_escape (data : Str) : unescapeData (dataEscapes.escape data) = data := by
  have hall : ∀ e ∈ dataEscapes.table, decodeDataEscape e.2.1 e.2.2 = some e.1 := by decide
  refine (Escapes.unescape_escape_eq_iff (decode_agrees (by decide))).mpr fun c _ a b hcode => ?_
  exact hall (c, (a, b)) (Escapes.mem_table hcode)

theorem unescapeProperty_escape (value : Str) :
    unescapeProperty (propertyEscapes.escape value) = value := by
  have hall : ∀ e ∈ propertyEscapes.table, decodePropertyEscape e.2.1 e.2.2 = some e.1 := by decide
  refine (Escapes.unescape_escape_eq_iff (decode_agrees (by decide))).mpr fun c _ a b hcode => ?_
  exact hall (c, (a, b)) (Escapes.mem_table hcode)

/-- Data has no codes for the separators of properties. -/
theorem unescapeData_escape_property :
    unescapeData (propertyEscapes.escape value) = value ↔ ':' ∉ value ∧ ',' ∉ value := by
  have hall : ∀ e ∈ propertyEscapes.table, e.1 ≠ ':' → e.1 ≠ ',' →
      decodeDataEscape e.2.1 e.2.2 = some e.1 := by decide
  rw [unescapeData, Escapes.unescape_escape_eq_iff (decode_agrees (by decide))]
  constructor
  · intro h
    exact ⟨fun hmem => absurd (h ':' hmem '3' 'A' (by decide)) (by decide),
      fun hmem => absurd (h ',' hmem '2' 'C' (by decide)) (by decide)⟩
  · rintro ⟨hcolon, hcomma⟩ c hc a b hcode
    exact hall (c, (a, b)) (Escapes.mem_table hcode) (fun heq => hcolon (heq ▸ hc))
      fun heq => hcomma (heq ▸ hc)

/-! #### Numbers -/

theorem numeral_of_isSome (h : (parseI32 value).isSome) : numeral value = some value := if_pos h

/-- Escaped characters and white space do not stand in a number. -/
theorem not_isSome_parseI32 (hc : c ∈ value)
    (hother : propertyEscapes.code c ≠ none ∨ isWhitespace c = true) : numeral value = none := by
  refine if_neg fun h => ?_
  have hchar : ∀ c : Char, c = '-' ∨ c = '+' ∨ c.isDigit = true →
      propertyEscapes.code c = none ∧ isWhitespace c = false := by
    intro c hc
    have hrange : c.toNat = 43 ∨ c.toNat = 45 ∨ (48 ≤ c.toNat ∧ c.toNat ≤ 57) := by
      rcases hc with rfl | rfl | hdigit
      · exact .inr (.inl rfl)
      · exact .inl rfl
      · obtain ⟨h₁, h₂⟩ := Char.isDigit_iff_toNat.mp hdigit
        exact .inr (.inr ⟨h₁, h₂⟩)
    constructor
    · rw [code_propertyEscapes]
      refine ⟨?_, ?_, ?_, ?_, ?_⟩ <;> (rintro rfl; revert hrange; decide)
    · unfold isWhitespace
      simp
      omega
  obtain ⟨hcode, hblank⟩ := hchar c (of_parseI32 h c hc)
  rcases hother with hother | hother
  · exact hother hcode
  · rw [hblank] at hother
    cases hother

/-- A number is written as it is, and what is not is no number once written. -/
theorem numeral_escape (value : Str) : numeral (propertyEscapes.escape value) = numeral value := by
  by_cases h : ∀ c ∈ value, propertyEscapes.code c = none
  · rw [Escapes.escape_eq_self_iff.mpr h]
  · push Not at h
    obtain ⟨c, hc, hcode⟩ := h
    rw [not_isSome_parseI32 hc (.inl hcode),
      not_isSome_parseI32 (Escapes.percent_mem_escape hc hcode) (.inl (by decide))]

/-! #### Switches -/

/-- A switch that is on has no other characters than its two letters and white space. -/
theorem of_isOn (h : isOn value = true) (hc : c ∈ value) (hblank : isWhitespace c = false) :
    c.toLower = 'o' ∨ c.toLower = 'n' := by
  have hon : asciiLower (trim value) = ['o', 'n'] := of_decide_eq_true h
  have hmem : c.toLower ∈ asciiLower (trim value) := List.mem_map.mpr ⟨c, mem_trim hc hblank, rfl⟩
  rw [hon] at hmem
  exact List.mem_pair.mp hmem

theorem isOn_escape (data : Str) :
    isOn (dataEscapes.escape data) = isOn data ↔
      (isOn data = true → '\r' ∉ data ∧ '\n' ∉ data) := by
  have hpercent : ∀ value : Str, '%' ∈ value → isOn value = false := fun value hmem => by
    rw [← Bool.not_eq_true]
    exact fun hon => absurd (of_isOn hon hmem (by decide)) (by decide)
  by_cases h : ∀ c ∈ data, dataEscapes.code c = none
  · rw [Escapes.escape_eq_self_iff.mpr h]
    refine iff_of_true rfl fun _ => ⟨fun hmem => ?_, fun hmem => ?_⟩
    · exact ((code_dataEscapes _).mp (h _ hmem)).2.1 rfl
    · exact ((code_dataEscapes _).mp (h _ hmem)).2.2 rfl
  · push Not at h
    obtain ⟨c, hc, hcode⟩ := h
    rw [hpercent _ (Escapes.percent_mem_escape hc hcode)]
    constructor
    · intro hoff hon
      rw [← hoff] at hon
      cases hon
    · intro hbreaks
      rw [eq_comm, ← Bool.not_eq_true]
      intro hon
      obtain ⟨hcr, hlf⟩ := hbreaks hon
      have hesc : '%' ∉ data := fun hmem => by
        rw [hpercent data hmem] at hon
        cases hon
      refine hcode ((code_dataEscapes c).mpr ⟨?_, ?_, ?_⟩)
      · rintro rfl
        exact hesc hc
      · rintro rfl
        exact hcr hc
      · rintro rfl
        exact hlf hc

/-! #### One value, one text of data -/

theorem strip_of_numeral (h : (parseI32 value).isSome) : propertyEscapes.strip value = value := by
  refine Escapes.strip_of_forall_not_bare fun c hc => ?_
  rw [← Bool.not_eq_true, Escapes.bare_iff]
  rintro ⟨hblank, -⟩
  have hnone := not_isSome_parseI32 hc (.inr hblank)
  rw [numeral_of_isSome h] at hnone
  cases hnone

theorem read_escape_iff (reading : PropertyReading) (value : Str) :
    reading.read (propertyEscapes.escape (propertyEscapes.strip value)) = reading.meant value ↔
      reading.Survives value := by
  cases reading with
  | property =>
    show some (unescapeProperty _) = some value ↔ propertyEscapes.strip value = value
    rw [unescapeProperty_escape, Option.some_inj]
  | name =>
    show some (unescapeData _) = some value ↔
      propertyEscapes.strip value = value ∧ ':' ∉ value ∧ ',' ∉ value
    rw [Option.some_inj]
    constructor
    · intro h
      -- what is read back has no more white space around it than what was trimmed
      have hstrip : propertyEscapes.strip value = value := by
        have hends : propertyEscapes.strip (unescape decodeDataEscape
            (propertyEscapes.escape (propertyEscapes.strip value))) = _ :=
          Escapes.strip_unescape_escape (decode_agrees (by decide)) _
        rw [Escapes.strip_strip, ← unescapeData, h] at hends
        exact hends
      rw [hstrip] at h
      exact ⟨hstrip, unescapeData_escape_property.mp h⟩
    · rintro ⟨hstrip, hseparators⟩
      rw [hstrip]
      exact unescapeData_escape_property.mpr hseparators
  | number =>
    show numeral _ = numeral value ↔
      propertyEscapes.strip value = value ∨ numeral (propertyEscapes.strip value) = none
    rw [numeral_escape]
    constructor
    · intro h
      by_cases hsome : (parseI32 (propertyEscapes.strip value)).isSome
      · rw [numeral_of_isSome hsome] at h
        refine .inl ?_
        unfold numeral at h
        split at h
        case isTrue => exact Option.some.inj h
        case isFalse => cases h
      · exact .inr (if_neg hsome)
    · rintro (hstrip | hnone)
      · rw [hstrip]
      · by_cases hsome : (parseI32 value).isSome
        · rw [strip_of_numeral hsome]
        · rw [hnone]
          exact (if_neg hsome).symm

theorem readData_escape_iff (reading : DataReading) (data : Str) :
    reading.read (dataEscapes.escape data) = reading.meant data ↔ reading.Survives data := by
  cases reading with
  | data => exact iff_of_true (congrArg SeenData.text (unescapeData_escape data)) trivial
  | ignored => exact iff_of_true rfl trivial
  | switch =>
    show SeenData.switch (isOn (dataEscapes.escape data)) = .switch (isOn data) ↔ _
    rw [SeenData.switch.injEq]
    exact isOn_escape data
  | verbatim =>
    show SeenData.text (dataEscapes.escape data) = .text data ↔ _
    rw [SeenData.text.injEq, Escapes.escape_eq_self_iff]
    simp only [code_dataEscapes, DataReading.Survives]
    constructor
    · exact fun h => ⟨fun hc => (h _ hc).1 rfl, fun hc => (h _ hc).2.1 rfl, fun hc => (h _ hc).2.2 rfl⟩
    · rintro ⟨hpercent, hcr, hlf⟩ c hc
      exact ⟨fun heq => hpercent (heq ▸ hc), fun heq => hcr (heq ▸ hc), fun heq => hlf (heq ▸ hc)⟩

end Survival

/-- Of a split line the handler sees what was meant iff each value that it reads, and the data, come
    back. -/
theorem seenOf_eq_meantOf_iff {props : Properties} {data : Str} {name : CommandName} {m : Pairs}
    (hlookup : ∀ key, m.lookup key =
      (props.get key).map fun v => propertyEscapes.escape (propertyEscapes.strip v)) :
    seenOf m (dataEscapes.escape data) name = meantOf props data name ↔
      (∀ key reading, (key, reading) ∈ name.properties → ∀ value, props.get key = some value →
        reading.Survives value) ∧ name.data.Survives data := by
  have hvalue : ∀ p : Str × PropertyReading,
      (m.lookup p.1).bind p.2.read = (props.get p.1).bind p.2.meant ↔
        ∀ value, props.get p.1 = some value → p.2.Survives value := by
    intro p
    rw [hlookup]
    cases props.get p.1 with
    | none => simp
    | some value =>
      rw [Option.map_some, Option.bind_some, Option.bind_some, read_escape_iff]
      simp
  rw [seenOf, meantOf, Seen.mk.injEq, List.map_inj_left, readData_escape_iff,
    and_iff_right rfl]
  refine and_congr_left fun _ => ?_
  constructor
  · exact fun h key reading hmem => (hvalue (key, reading)).mp (h _ hmem)
  · exact fun h p hmem => (hvalue p).mpr (h p.1 p.2 hmem)

/-- The handler of an issued line sees what was meant iff the command is one the runner knows and each
    value that its handler reads, and its data, come back. -/
theorem decoded_iff (command : Str) (props : Properties) (data : Str) :
    Decoded command props data ↔
      ∃ name, commandName command = some name ∧
        (∀ key reading, (key, reading) ∈ name.properties → ∀ value, props.get key = some value →
          reading.Survives value) ∧
        name.data.Survives data := by
  unfold Decoded meant
  cases hname : commandName command with
  | none => simp
  | some name =>
    obtain rfl := commandName_eq_some.mp hname
    obtain ⟨m, hsplit, hlookup⟩ := splitCommand_issue name props data
    have hseen : seen (issue name.text props data) =
        some (seenOf m (dataEscapes.escape data) name) := by
      unfold seen
      rw [hsplit]
      show (commandName name.text).bind _ = _
      rw [hname]
      rfl
    rw [hseen, Option.map_some, Option.some_inj, seenOf_eq_meantOf_iff hlookup]
    simp

/-- A name with a colon reaches the handler of `set-output` with the code of the colon. -/
theorem set_output_name_not_decoded :
    ¬ ∀ command props data, (commandName command).isSome → Decoded command props data := by
  intro h
  have hdecoded := h "set-output".toList
    ⟨[("name".toList, "a:b".toList)], by decide, by decide⟩ "1".toList (by decide)
  revert hdecoded
  decide

end GhRunner.Execution
