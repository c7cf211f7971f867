import GhRunner.Lib.JsonText
import GhRunner.Cache.GcPass

namespace GhRunner.Cache

/-!
# Torn appends to an index log

A crash while an entry is appended leaves the first bytes of its line, without the newline.  The next
append goes right behind them (`CacheIndex::insert` and `read_entries` in
`crates/cache/src/cas/index.rs`).

* `IndexSerde` — what the index relies on of `serde_json`, with its lexical side;
* `not_parsed_after_tear` — a line that begins with a torn one is not read;
* `appendTorn` — the torn append;
* `read_after_tear_iff` — every entry is still read exactly when the tear is empty or nothing was
  appended after it.
-/

variable {Id : Type}

/-- `serde_json` for the index: what it accepts as an entry is the text of one JSON object or array,
    and the first name in an object that it writes is `key`.  `fromSlice` is applied to the bytes of a
    line; bytes that are not UTF-8 are replaced before, which touches no ASCII character. -/
structure IndexSerde (Id : Type) extends LineSerde (IndexEntry Id) where
  well_formed : ∀ line e, fromSlice line = some e → JsonText.WellFormed line
  opens : ∀ e, (toVec e).take 3 = [123, 34, 107]

/-- An object whose one field is a number, written in ones. -/
def unaryText (n : ℕ) : Bytes := asciiBytes "\x7b\"key\":" ++ (List.replicate n 49 ++ [125])

theorem wellFormed_unaryText (n : ℕ) : JsonText.WellFormed (unaryText n) := by
  have hones : ∀ n, JsonText.run (.outside 0) (List.replicate n 49 ++ [125]) = .closed := by
    intro n
    induction n with
    | zero => rfl
    | succ n ih => exact ih
  rw [JsonText.WellFormed, unaryText, JsonText.run_append]
  exact hones n

/-- A codec that writes the entries of a table as their texts, which have commas in them, and every
    other one in ones. -/
def IndexSerde.writing [Encodable (IndexEntry Id)] [DecidableEq (IndexEntry Id)]
    (table : List (IndexEntry Id × Bytes))
    (htext : ∀ p ∈ table, p.2.take 3 = [123, 34, 107] ∧ p.2.getLast? = some 125 ∧ 10 ∉ p.2 ∧
      44 ∈ p.2 ∧ JsonText.WellFormed p.2)
    (hinj : ∀ p ∈ table, ∀ q ∈ table, p.2 = q.2 → p.1 = q.1) : IndexSerde Id where
  toVec e :=
    match table.find? fun p => p.1 = e with
    | some p => p.2
    | none => unaryText (Encodable.encode e)
  fromSlice bytes :=
    match table.find? fun p => p.2 = bytes with
    | some p => some p.1
    | none =>
      if bytes = unaryText (bytes.length - 8) then Encodable.decode (bytes.length - 8) else none
  round_trip e := by
    cases he : table.find? fun p => p.1 = e with
    | some p =>
      have hp := List.mem_of_find?_eq_some he
      have hpe : p.1 = e := by simpa using List.find?_some he
      cases hb : table.find? fun q => q.2 = p.2 with
      | some q =>
        have hq := List.mem_of_find?_eq_some hb
        have hqp : q.2 = p.2 := by simpa using List.find?_some hb
        simp only [hinj q hq p hp hqp, hpe]
      | none => simpa using List.find?_eq_none.mp hb p hp
    | none =>
      have hcomma : ∀ n, (44 : UInt8) ∉ unaryText n := by
        intro n hmem
        rw [unaryText, List.mem_append, List.mem_append, List.mem_replicate] at hmem
        rcases hmem with hmem | ⟨-, hmem⟩ | hmem
        · exact absurd hmem (by decide)
        · exact absurd hmem (by decide)
        · exact absurd hmem (by decide)
      have hlength : ∀ n, (unaryText n).length - 8 = n := by
        intro n
        simp [unaryText, asciiBytes]
      cases hb : table.find? fun q => q.2 = unaryText (Encodable.encode e) with
      | some q =>
        have hq : q.2 = unaryText (Encodable.encode e) := by simpa using List.find?_some hb
        exact absurd (hq ▸ (htext q (List.mem_of_find?_eq_some hb)).2.2.2.1) (hcomma _)
      | none => simp [hlength]
  no_newline e := by
    cases he : table.find? fun p => p.1 = e with
    | some p => exact (htext p (List.mem_of_find?_eq_some he)).2.2.1
    | none =>
      intro hmem
      simp only [unaryText, List.mem_append, List.mem_replicate] at hmem
      rcases hmem with hmem | ⟨-, hmem⟩ | hmem
      · exact absurd hmem (by decide)
      · exact absurd hmem (by decide)
      · exact absurd hmem (by decide)
  closed e := by
    cases he : table.find? fun p => p.1 = e with
    | some p => exact (htext p (List.mem_of_find?_eq_some he)).2.1
    | none =>
      simp only [unaryText]
      rw [← List.append_assoc, List.getLast?_concat]
  well_formed line e h := by
    cases hb : table.find? fun p => p.2 = line with
    | some p =>
      have hp : p.2 = line := by simpa using List.find?_some hb
      exact hp ▸ (htext p (List.mem_of_find?_eq_some hb)).2.2.2.2
    | none =>
      simp only [hb] at h
      split at h
      case isTrue hline => exact hline ▸ wellFormed_unaryText _
      case isFalse => cases h
  opens e := by
    cases he : table.find? fun p => p.1 = e with
    | some p => exact (htext p (List.mem_of_find?_eq_some he)).1
    | none => rfl

/-! ### A line behind a torn one -/

theorem IndexSerde.toVec_eq (J : IndexSerde Id) (e : IndexEntry Id) :
    J.toVec e = 123 :: 34 :: 107 :: (J.toVec e).drop 3 := by
  conv_lhs => rw [← List.take_append_drop 3 (J.toVec e), J.opens e]
  rfl

/-- A line that begins as an object and ends with a whole one is not read. -/
theorem not_parsed_after_tear (J : IndexSerde Id) (tear : Bytes) (e : IndexEntry Id) :
    parseLine J.toLineSerde (123 :: tear ++ J.toVec e) = none := by
  have hlast : (123 :: tear ++ J.toVec e).getLast? = some 125 := by
    rw [List.getLast?_append, J.closed e]
    rfl
  have hstrip : stripCr (123 :: tear ++ J.toVec e) = 123 :: tear ++ J.toVec e := by
    rw [stripCr, hlast, if_neg (by decide)]
  rw [parseLine, hstrip, if_neg (by simp)]
  cases hparse : J.fromSlice (123 :: tear ++ J.toVec e) with
  | none => rfl
  | some found =>
    have hwhole := J.well_formed _ _ (J.round_trip e)
    have hboth := J.well_formed _ _ hparse
    rw [J.toVec_eq e] at hwhole hboth
    exact absurd hboth (JsonText.not_wellFormed_append (by decide) hwhole)

/-- The next line behind a tear is lost with it. -/
theorem readEntries_tear_entryLine (J : IndexSerde Id) {tear : Bytes} (hnl : (10 : UInt8) ∉ tear)
    (hopen : tear.head? = some 123) (e : IndexEntry Id) :
    readEntries J.toLineSerde (tear ++ entryLine J.toLineSerde e) = [] := by
  obtain ⟨rest, rfl⟩ : ∃ rest, tear = 123 :: rest := by
    cases tear with
    | nil => cases hopen
    | cons b rest => exact ⟨rest, by rw [Option.some.inj hopen]⟩
  have hline : (10 : UInt8) ∉ 123 :: rest ++ J.toVec e := by
    rw [List.mem_append, not_or]
    exact ⟨hnl, J.no_newline e⟩
  rw [readEntries, entryLine, ← List.append_assoc, terminatedLines_line hline, List.nil_append,
    List.filterMap_cons, not_parsed_after_tear]
  rfl

/-- The first bytes of a line, short of its newline. -/
structure Tear (J : IndexSerde Id) (tear : Bytes) : Prop where
  no_newline : (10 : UInt8) ∉ tear
  opens : tear ≠ [] → tear.head? = some 123

/-- What a crash leaves of a line that it did not write out. -/
theorem tear_of_entryLine (J : IndexSerde Id) {tear : Bytes} {e : IndexEntry Id}
    (h : tear <+: entryLine J.toLineSerde e) (hproper : tear ≠ entryLine J.toLineSerde e) :
    Tear J tear := by
  have hpart : tear <+: J.toVec e := by
    rcases List.prefix_concat_iff.mp h with hwhole | hpart
    · exact absurd hwhole hproper
    · exact hpart
  refine ⟨fun hmem => J.no_newline e (hpart.subset hmem), fun hne => ?_⟩
  obtain ⟨b, rest, rfl⟩ := List.exists_cons_of_ne_nil hne
  rw [J.toVec_eq e] at hpart
  exact congrArg some (List.cons_prefix_cons.mp hpart).1

/-- A log of whole lines, a tear, and whole lines again reads as all the entries but for the one
    that was appended first behind the tear. -/
theorem readEntries_tear (J : IndexSerde Id) {tear : Bytes} (h : Tear J tear) (hne : tear ≠ [])
    {log : Bytes} (hlog : Terminated log) (after : List (IndexEntry Id)) :
    readEntries J.toLineSerde (log ++ tear ++ after.flatMap (entryLine J.toLineSerde)) =
      readEntries J.toLineSerde log ++ after.tail := by
  cases after with
  | nil =>
    have htail : terminatedLines [] tear = [] := by
      have hnone : ∀ xs line, (10 : UInt8) ∉ xs → terminatedLines line xs = [] := by
        intro xs
        induction xs with
        | nil => exact fun _ _ => rfl
        | cons b xs ih =>
          intro line hxs
          rw [List.mem_cons, not_or] at hxs
          rw [terminatedLines, if_neg (Ne.symm hxs.1), ih _ hxs.2]
      exact hnone tear [] h.no_newline
    rw [List.flatMap_nil, List.append_nil, readEntries_append _ hlog]
    rw [show readEntries J.toLineSerde tear = [] by rw [readEntries, htail]; rfl]
    rfl
  | cons e after =>
    have hterm : Terminated (tear ++ entryLine J.toLineSerde e) :=
      terminated_append_entryLine J.toLineSerde tear e
    rw [List.flatMap_cons, List.append_assoc, ← List.append_assoc tear, readEntries_append _ hlog,
      readEntries_append _ hterm, readEntries_tear_entryLine J h.no_newline (h.opens hne),
      readEntries_flatMap, List.nil_append, List.tail_cons]

/-! ### The log files -/

namespace CacheIndex

/-- Bytes that a crash left at the end of a log. -/
def appendTorn (idx : CacheIndex) (k : LogKey) (tear : Bytes) : CacheIndex :=
  ⟨idx.logs.insert k ((idx.logs.lookup k).getD [] ++ tear)⟩

def insertAll (idx : CacheIndex) (J : LineSerde (IndexEntry Id)) (scope version : String)
    (entries : List (IndexEntry Id)) : CacheIndex :=
  entries.foldl (fun idx e => idx.insert J scope version e) idx

theorem log_insertAll (idx : CacheIndex) (J : LineSerde (IndexEntry Id)) (scope version : String)
    (entries : List (IndexEntry Id)) :
    ((idx.insertAll J scope version entries).logs.lookup (scope, version)).getD [] =
      (idx.logs.lookup (scope, version)).getD [] ++ entries.flatMap (entryLine J) := by
  induction entries generalizing idx with
  | nil => simp [insertAll]
  | cons e entries ih =>
    rw [insertAll, List.foldl_cons, ← insertAll, ih, insert, Finmap.lookup_insert,
      Option.getD_some, List.flatMap_cons, List.append_assoc]

theorem log_appendTorn (idx : CacheIndex) (k : LogKey) (tear : Bytes) :
    ((idx.appendTorn k tear).logs.lookup k).getD [] = (idx.logs.lookup k).getD [] ++ tear := by
  rw [appendTorn, Finmap.lookup_insert, Option.getD_some]

end CacheIndex

/-- The entries appended to one log before and after a torn append. -/
def tornLog (J : LineSerde (IndexEntry Id)) (scope version : String)
    (before : List (IndexEntry Id)) (tear : Bytes) (after : List (IndexEntry Id)) : CacheIndex :=
  ((CacheIndex.empty.insertAll J scope version before).appendTorn (scope, version) tear).insertAll J
    scope version after

/-- **A torn append loses the next one.**  Take a log of completed inserts, a proper part of one more
    line behind them, and completed inserts after that.  Every entry inserted completely is read, as
    often as it was inserted, exactly when the tear has no bytes or nothing was inserted after it. -/
theorem read_after_tear_iff (J : IndexSerde Id) (scope version : String)
    (before after : List (IndexEntry Id)) (torn : IndexEntry Id) {tear : Bytes}
    (htear : tear <+: entryLine J.toLineSerde torn)
    (hproper : tear ≠ entryLine J.toLineSerde torn) :
    (before ++ after).Sublist
      ((tornLog J.toLineSerde scope version before tear after).entries J.toLineSerde
        (scope, version)) ↔ tear = [] ∨ after = [] := by
  have hlog : ((tornLog J.toLineSerde scope version before tear after).logs.lookup
      (scope, version)).getD [] = before.flatMap (entryLine J.toLineSerde) ++ tear ++
        after.flatMap (entryLine J.toLineSerde) := by
    rw [tornLog, CacheIndex.log_insertAll, CacheIndex.log_appendTorn, CacheIndex.log_insertAll]
    rfl
  have hbefore : Terminated (before.flatMap (entryLine J.toLineSerde)) :=
    terminated_flatMap J.toLineSerde before
  rw [CacheIndex.entries, hlog]
  by_cases hne : tear = []
  · subst hne
    rw [List.append_nil, ← List.flatMap_append, readEntries_flatMap]
    exact ⟨fun _ => .inl rfl, fun _ => List.Sublist.refl _⟩
  · rw [readEntries_tear J (tear_of_entryLine J htear hproper) hne hbefore, readEntries_flatMap]
    constructor
    · intro hsub
      have hlen := hsub.length_le
      rw [List.length_append, List.length_append, List.length_tail] at hlen
      refine .inr (List.eq_nil_of_length_eq_zero ?_)
      omega
    · rintro (hnil | rfl)
      · exact absurd hnil hne
      · exact List.Sublist.refl _

/-! ### What inserts, rewrites and crashes leave -/

/-- One thing that happens to an index. -/
inductive IndexEvent (Id : Type)
  | insert (scope version : String) (entry : IndexEntry Id)
  | rewrite (k : LogKey) (entries : List (IndexEntry Id))
  /-- A crash after the first `n` bytes of an insert. -/
  | crash (scope version : String) (entry : IndexEntry Id) (n : ℕ)

def CacheIndex.event (J : LineSerde (IndexEntry Id)) (idx : CacheIndex) :
    IndexEvent Id → CacheIndex
  | .insert scope version entry => idx.insert J scope version entry
  | .rewrite k entries => idx.rewrite J k entries
  | .crash scope version entry n => idx.appendTorn (scope, version) ((entryLine J entry).take n)

instance decidableTerminated (log : Bytes) : Decidable (Terminated log) :=
  inferInstanceAs (Decidable (_ ∨ _))

/-- Whole lines, and then perhaps the first bytes of more. -/
def Tailed (J : IndexSerde Id) (log : Bytes) : Prop :=
  ∃ whole tear, log = whole ++ tear ∧ Terminated whole ∧ Tear J tear

theorem Tear.nil (J : IndexSerde Id) : Tear J [] := ⟨by simp, fun h => absurd rfl h⟩

theorem Tear.append {J : IndexSerde Id} {tear rest : Bytes} (h : Tear J tear) (hrest : Tear J rest) :
    Tear J (tear ++ rest) := by
  by_cases hnil : tear = []
  · rwa [hnil, List.nil_append]
  · refine ⟨?_, fun _ => ?_⟩
    · rw [List.mem_append, not_or]
      exact ⟨h.no_newline, hrest.no_newline⟩
    · obtain ⟨b, tear, rfl⟩ := List.exists_cons_of_ne_nil hnil
      exact h.opens hnil

theorem Tailed.of_terminated {J : IndexSerde Id} {log : Bytes} (h : Terminated log) : Tailed J log :=
  ⟨log, [], (List.append_nil log).symm, h, Tear.nil J⟩

/-- A tear behind the last newline is not terminated. -/
theorem terminated_append_tear_iff {J : IndexSerde Id} {whole tear : Bytes} (hwhole : Terminated whole)
    (h : Tear J tear) : Terminated (whole ++ tear) ↔ tear = [] := by
  constructor
  · intro hterm
    by_contra hne
    rcases hterm with hnil | hlast
    · exact hne (List.append_eq_nil_iff.mp hnil).2
    · rw [List.getLast?_append_of_ne_nil _ hne] at hlast
      exact h.no_newline (List.mem_of_getLast? hlast)
  · rintro rfl
    rwa [List.append_nil]

/-- Behind such a log a line is read exactly when the log is terminated. -/
theorem Tailed.readEntries_entryLine {J : IndexSerde Id} {log : Bytes} (h : Tailed J log)
    (entry : IndexEntry Id) :
    readEntries J.toLineSerde (log ++ entryLine J.toLineSerde entry) =
      readEntries J.toLineSerde log ++ if Terminated log then [entry] else [] := by
  obtain ⟨whole, tear, rfl, hwhole, htear⟩ := h
  by_cases hnil : tear = []
  · rw [hnil, List.append_nil, if_pos hwhole, readEntries_append _ hwhole,
      Cache.readEntries_entryLine]
  · have hone := readEntries_tear J htear hnil hwhole [entry]
    have hnone := readEntries_tear J htear hnil hwhole []
    rw [List.flatMap_singleton, List.tail_cons, List.append_nil] at hone
    rw [List.flatMap_nil, List.append_nil, List.tail_nil, List.append_nil] at hnone
    rw [if_neg (mt (terminated_append_tear_iff hwhole htear).mp hnil), hone, hnone, List.append_nil]

namespace CacheIndex

/-- Every log is whole lines, and then perhaps the first bytes of more. -/
def Tailed (idx : CacheIndex) (J : IndexSerde Id) : Prop :=
  ∀ k, Cache.Tailed J ((idx.logs.lookup k).getD [])

theorem tailed_insert {idx : CacheIndex} {J : IndexSerde Id} (h : idx.Tailed J)
    (scope version : String) (entry : IndexEntry Id) :
    (idx.insert J.toLineSerde scope version entry).Tailed J := by
  intro k
  by_cases hk : k = (scope, version)
  · rw [hk, insert, Finmap.lookup_insert]
    exact .of_terminated (terminated_append_entryLine J.toLineSerde _ entry)
  · rw [insert, Finmap.lookup_insert_of_ne _ hk]
    exact h k

theorem tailed_event {idx : CacheIndex} {J : IndexSerde Id} (h : idx.Tailed J) (e : IndexEvent Id) :
    (idx.event J.toLineSerde e).Tailed J := by
  cases e with
  | insert scope version entry => exact tailed_insert h scope version entry
  | rewrite k entries =>
    intro j
    by_cases hj : j = k
    · subst hj
      rw [event, rewrite]
      split
      · rw [Finmap.lookup_erase]
        exact .of_terminated (.inl rfl)
      · rw [Finmap.lookup_insert]
        exact .of_terminated (terminated_flatMap J.toLineSerde entries)
    · rw [event, rewrite]
      split
      · rw [Finmap.lookup_erase_ne hj]
        exact h j
      · rw [Finmap.lookup_insert_of_ne _ hj]
        exact h j
  | crash scope version entry n =>
    intro j
    by_cases hj : j = (scope, version)
    · rw [hj, event, log_appendTorn]
      by_cases hproper : (entryLine J.toLineSerde entry).take n = entryLine J.toLineSerde entry
      · rw [hproper]
        exact .of_terminated (terminated_append_entryLine J.toLineSerde _ entry)
      · obtain ⟨whole, tear, hlog, hwhole, htear⟩ := h (scope, version)
        have hrest := tear_of_entryLine J (List.take_prefix n _) hproper
        exact ⟨whole, tear ++ _, by rw [hlog, List.append_assoc], hwhole, htear.append hrest⟩
    · rw [event, appendTorn, Finmap.lookup_insert_of_ne _ hj]
      exact h j

/-- Whatever happens to an index, its logs are of this form. -/
theorem tailed_run (J : IndexSerde Id) (events : List (IndexEvent Id)) :
    (Machine.run (event J.toLineSerde) empty events).Tailed J :=
  Machine.run_invariant_of_step (I := fun idx : CacheIndex => idx.Tailed J)
    (fun _ e h => tailed_event h e) events
    fun k => by rw [empty, Finmap.lookup_empty]; exact .of_terminated (.inl rfl)

/-- An insert adds its entry to what is read of a terminated log, and nothing to a torn one. -/
theorem Tailed.entries_insert {idx : CacheIndex} {J : IndexSerde Id} (h : idx.Tailed J)
    (scope version : String) (entry : IndexEntry Id) (k : LogKey) :
    (idx.insert J.toLineSerde scope version entry).entries J.toLineSerde k =
      idx.entries J.toLineSerde k ++
        if k = (scope, version) ∧ Cache.Terminated ((idx.logs.lookup k).getD []) then [entry]
        else [] := by
  by_cases hk : k = (scope, version)
  · subst hk
    rw [entries, insert, Finmap.lookup_insert, Option.getD_some, (h _).readEntries_entryLine,
      entries]
    simp
  · rw [if_neg fun hk' => hk hk'.1, List.append_nil, entries, insert,
      Finmap.lookup_insert_of_ne _ hk]
    rfl

end CacheIndex

/-! ### A concrete log -/

/-- An entry of the first and one of the eleventh day of 1970, and their lines. -/
def sampleTable : List (IndexEntry Bytes × Bytes) :=
  [(sampleEntry "old" 0, sampleText "old" "1970-01-01T00:00:00Z"),
    (sampleEntry "new" (10 * nanosPerDay), sampleText "new" "1970-01-11T00:00:00Z")]

theorem sampleTable_texts : ∀ p ∈ sampleTable, p.2.take 3 = [123, 34, 107] ∧
    p.2.getLast? = some 125 ∧ 10 ∉ p.2 ∧ 44 ∈ p.2 ∧ JsonText.WellFormed p.2 := by
  decide +kernel

theorem sampleTable_inj : ∀ p ∈ sampleTable, ∀ q ∈ sampleTable, p.2 = q.2 → p.1 = q.1 := by
  -- the ninth byte is the first one of the key
  have hne : sampleText "old" "1970-01-01T00:00:00Z" ≠ sampleText "new" "1970-01-11T00:00:00Z" :=
    fun h => absurd (congrArg (·[8]?) h) (by decide)
  simp [sampleTable, hne, hne.symm]

def sampleIndex : IndexSerde Bytes := .writing sampleTable sampleTable_texts sampleTable_inj

/-- The first eight bytes of the second entry's line: an open brace, the name and its colon. -/
def sampleTear : Bytes := asciiBytes "\x7b\"key\":\""

/-- A tear at the end of a log loses nothing that was there. -/
theorem read_before_tear :
    [sampleEntry "old" 0].Sublist
      ((tornLog sampleIndex.toLineSerde "s" "v" [sampleEntry "old" 0] sampleTear []).entries
        sampleIndex.toLineSerde ("s", "v")) :=
  (read_after_tear_iff sampleIndex "s" "v" [sampleEntry "old" 0] []
    (sampleEntry "new" (10 * nanosPerDay)) (by decide : sampleTear <+: _)
    (by decide)).mpr (.inr rfl)

/-- The append of the second entry is torn after eight bytes.  The next save inserts it completely,
    and it is not read. -/
theorem insert_after_tear_lost :
    sampleTear <+: entryLine sampleIndex.toLineSerde (sampleEntry "new" (10 * nanosPerDay)) ∧
    (tornLog sampleIndex.toLineSerde "s" "v" [sampleEntry "old" 0] sampleTear
      [sampleEntry "new" (10 * nanosPerDay)]).entries sampleIndex.toLineSerde ("s", "v") =
        [sampleEntry "old" 0] := by
  decide +kernel

end GhRunner.Cache
