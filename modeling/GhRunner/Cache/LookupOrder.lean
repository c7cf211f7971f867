import GhRunner.Cache.IndexFiles
import GhRunner.Lib.Descent
import GhRunner.Lib.Ranked

namespace GhRunner.Cache

open FileTree OrderDual

/-!
# The order of a lookup

Which of the entries present a lookup of `crates/cache/src/cas/index.rs` returns, after any inserts
and rewrites.

* `IndexOp`, `IndexOp.present` — the writes, and which entries are in which log after them;
* `Candidate`, `Candidate.rank` — an entry that answers a lookup, where it was found, and its rank:
  the way it matches, the scope, the age, the place in its log;
* `best_newest`, `best_firstHit`, `best_chooseHit` — one log, the logs of a ladder, all ways;
* `lookup_history` — the lookups after a history of writes.
-/

variable {Id : Type}

/-! ### Histories -/

inductive IndexOp (Id : Type)
  | insert (scope version : String) (entry : IndexEntry Id)
  | rewrite (scope version : String) (entries : List (IndexEntry Id))

namespace IndexOp

/-- The write on the files. -/
def apply (J : LineSerde (IndexEntry Id)) (t : Tree) : IndexOp Id → Except RunnerError Tree
  | insert scope version entry => IndexFiles.insert J t scope version entry
  | rewrite scope version entries => IndexFiles.rewrite J t (scope, version) entries

def applyAll (J : LineSerde (IndexEntry Id)) (t : Tree) (ops : List (IndexOp Id)) :
    Except RunnerError Tree :=
  ops.foldlM (apply J) t

/-- The write on the logs. -/
def update (logs : LogKey → List (IndexEntry Id)) : IndexOp Id → LogKey → List (IndexEntry Id)
  | insert scope version entry =>
    Function.update logs (scope, version) (logs (scope, version) ++ [entry])
  | rewrite scope version entries => Function.update logs (scope, version) entries

/-- The entries of each log after the writes. -/
def present (ops : List (IndexOp Id)) : LogKey → List (IndexEntry Id) := ops.foldl update fun _ => []

end IndexOp

/-! ### Candidates -/

/-- An entry that answers a lookup: the way it matches, the index of its scope in the ladder, and its
    place in the log. -/
structure Candidate (Id : Type) where
  way : ℕ
  place : ℕ
  position : ℕ
  entry : IndexEntry Id

/-- Way 0 is the key itself, way `i + 1` the restore key `i` as a prefix, if there is any of it. -/
def Matches (key : String) (restoreKeys : List String) (e : IndexEntry Id) : ℕ → Prop
  | 0 => e.key = key
  | i + 1 => ∃ restoreKey, restoreKeys[i]? = some restoreKey ∧ restoreKey ≠ "" ∧
      restoreKey.toList <+: e.key.toList

namespace Candidate

/-- The candidate is there in the logs. -/
structure Of (logs : LogKey → List (IndexEntry Id)) (ladder : List String) (version key : String)
    (restoreKeys : List String) (c : Candidate Id) : Prop where
  listed : ∃ scope, ladder[c.place]? = some scope ∧
    (logs (scope, version))[c.position]? = some c.entry
  matched : Matches key restoreKeys c.entry c.way

/-- The way, then the scope, then the age with the newest first, then the place with the last first. -/
def rank (c : Candidate Id) : ℕ ×ₗ ℕ ×ₗ DateTimeᵒᵈ ×ₗ ℕᵒᵈ :=
  toLex (c.way, toLex (c.place, toLex (toDual c.entry.createdAt, toDual c.position)))

end Candidate

/-- The entry matters to a lookup of the key and the restore keys. -/
def Relevant (key : String) (restoreKeys : List String) (e : IndexEntry Id) : Prop :=
  e.key = key ∨ ∃ restoreKey ∈ restoreKeys, restoreKey ≠ "" ∧ restoreKey.toList <+: e.key.toList

instance (key : String) (restoreKeys : List String) (e : IndexEntry Id) :
    Decidable (Relevant key restoreKeys e) :=
  inferInstanceAs (Decidable (_ ∨ ∃ _ ∈ _, _))

theorem relevant_iff {key : String} {restoreKeys : List String} {e : IndexEntry Id} :
    Relevant key restoreKeys e ↔ ∃ way, Matches key restoreKeys e way := by
  constructor
  · rintro (hkey | ⟨restoreKey, hmem, hne, hprefix⟩)
    · exact ⟨0, hkey⟩
    · obtain ⟨i, hi⟩ := List.mem_iff_getElem?.mp hmem
      exact ⟨i + 1, restoreKey, hi, hne, hprefix⟩
  · rintro ⟨way, hway⟩
    cases way with
    | zero => exact .inl hway
    | succ i =>
      obtain ⟨restoreKey, hi, hne, hprefix⟩ := hway
      exact .inr ⟨restoreKey, List.mem_of_getElem? hi, hne, hprefix⟩

/-! ### One log -/

/-- The entry at `i` is of the kind, and none of the kind is newer, or as new and further back. -/
structure NewestAt (kind : IndexEntry Id → Bool) (es : List (IndexEntry Id)) (i : ℕ)
    (e : IndexEntry Id) : Prop where
  at_place : es[i]? = some e
  of_kind : kind e = true
  newest : ∀ (j : ℕ) e', es[j]? = some e' → kind e' = true →
    e'.createdAt < e.createdAt ∨ e'.createdAt = e.createdAt ∧ j ≤ i

theorem NewestAt.le {kind : IndexEntry Id → Bool} {es : List (IndexEntry Id)} {i j : ℕ}
    {e e' : IndexEntry Id} (h : NewestAt kind es i e) (hj : es[j]? = some e')
    (hkind : kind e' = true) : e'.createdAt ≤ e.createdAt :=
  (h.newest j e' hj hkind).elim le_of_lt fun heq => heq.1.le

theorem newestAt_cons {kind : IndexEntry Id → Bool} {es : List (IndexEntry Id)} {i : ℕ}
    {e head : IndexEntry Id} (h : NewestAt kind es i e)
    (hhead : kind head = true → head.createdAt ≤ e.createdAt) :
    NewestAt kind (head :: es) (i + 1) e where
  at_place := h.at_place
  of_kind := h.of_kind
  newest j e' hj hkind := by
    cases j with
    | zero =>
      obtain rfl : head = e' := Option.some.inj hj
      exact (hhead hkind).lt_or_eq.imp_right fun heq => ⟨heq, Nat.zero_le _⟩
    | succ j => exact (h.newest j e' hj hkind).imp_right fun heq => ⟨heq.1, Nat.succ_le_succ heq.2⟩

theorem newest_filter (kind : IndexEntry Id → Bool) (es : List (IndexEntry Id)) :
    (newest (es.filter kind) = none ∧ ∀ e ∈ es, kind e = false) ∨
      ∃ e i, newest (es.filter kind) = some e ∧ NewestAt kind es i e := by
  induction es with
  | nil => exact .inl ⟨rfl, List.forall_mem_nil _⟩
  | cons head es ih =>
    cases hkind : kind head with
    | false =>
      rw [List.filter_cons_of_neg (by rw [hkind]; exact Bool.false_ne_true)]
      rcases ih with ⟨hnone, hall⟩ | ⟨e, i, hsome, hi⟩
      · exact .inl ⟨hnone, List.forall_mem_cons.mpr ⟨hkind, hall⟩⟩
      · have hhead : kind head = true → head.createdAt ≤ e.createdAt := by
          intro htrue
          rw [hkind] at htrue
          cases htrue
        exact .inr ⟨e, i + 1, hsome, newestAt_cons hi hhead⟩
    | true =>
      right
      -- the first entry is the newest unless the rest has one as new
      have hfirst (hrest : ∀ (j : ℕ) e', es[j]? = some e' → kind e' = true →
          e'.createdAt < head.createdAt) : NewestAt kind (head :: es) 0 head := by
        refine ⟨rfl, hkind, fun j e' hj he' => ?_⟩
        cases j with
        | zero =>
          obtain rfl : head = e' := Option.some.inj hj
          exact .inr ⟨rfl, le_refl 0⟩
        | succ j => exact .inl (hrest j e' hj he')
      rw [List.filter_cons_of_pos hkind, newest]
      rcases ih with ⟨hnone, hall⟩ | ⟨e, i, hsome, hi⟩
      · rw [hnone]
        refine ⟨head, 0, rfl, hfirst fun j e' hj he' => ?_⟩
        rw [hall e' (List.mem_of_getElem? hj)] at he'
        cases he'
      · rw [hsome]
        by_cases hnewer : e.createdAt < head.createdAt
        · exact ⟨head, 0, if_pos hnewer, hfirst fun j e' hj he' => (hi.le hj he').trans_lt hnewer⟩
        · exact ⟨e, i + 1, if_neg hnewer, newestAt_cons hi fun _ => not_lt.mp hnewer⟩

/-- The newest entry of a kind, and the last of those as new. -/
theorem best_newest (kind : IndexEntry Id → Bool) (es : List (IndexEntry Id)) :
    Best (fun (r : DateTimeᵒᵈ ×ₗ ℕᵒᵈ) e => es[ofDual (ofLex r).2]? = some e ∧ kind e = true ∧
      (ofLex r).1 = toDual e.createdAt) (newest (es.filter kind)) := by
  rcases newest_filter kind es with ⟨hnone, hall⟩ | ⟨e, i, hsome, hi⟩
  · rw [hnone]
    rintro r e ⟨he, hkind, -⟩
    rw [hall e (List.mem_of_getElem? he)] at hkind
    cases hkind
  · rw [hsome]
    refine ⟨toLex (toDual e.createdAt, toDual i), ⟨hi.at_place, hi.of_kind, rfl⟩, ?_⟩
    rintro r e' ⟨he', hkind, hage⟩
    rw [Prod.Lex.le_iff]
    rcases hi.newest _ e' he' hkind with hlt | ⟨heq, hle⟩
    · left
      rw [hage]
      exact toDual_lt_toDual.mpr hlt
    · right
      refine ⟨?_, hle⟩
      rw [hage, heq]
      rfl

/-! ### The logs of a ladder, and the ways to match -/

theorem best_firstHit (kind : IndexEntry Id → Bool) (perScope : List (List (IndexEntry Id))) :
    Best (fun (r : ℕ ×ₗ DateTimeᵒᵈ ×ₗ ℕᵒᵈ) e => ∃ es, perScope[(ofLex r).1]? = some es ∧
      es[ofDual (ofLex (ofLex r).2).2]? = some e ∧ kind e = true ∧
        (ofLex (ofLex r).2).1 = toDual e.createdAt) (firstHit kind perScope) :=
  Best.findSome? fun es _ => best_newest kind es

/-- The ways to match, each as a kind of entries; an empty restore key matches nothing. -/
def kinds (key : String) (restoreKeys : List String) : List (IndexEntry Id → Bool) :=
  (fun e => decide (e.key = key)) ::
    restoreKeys.map fun restoreKey e =>
      decide (restoreKey ≠ "") && restoreKey.toList.isPrefixOf e.key.toList

theorem matches_iff {key : String} {restoreKeys : List String} {e : IndexEntry Id} {way : ℕ} :
    Matches key restoreKeys e way ↔
      ∃ kind, (kinds key restoreKeys)[way]? = some kind ∧ kind e = true := by
  cases way with
  | zero => simp [Matches, kinds]
  | succ i =>
    simp only [Matches, kinds, List.getElem?_cons_succ, List.getElem?_map, Option.map_eq_some_iff]
    constructor
    · rintro ⟨restoreKey, hi, hne, hprefix⟩
      exact ⟨_, ⟨restoreKey, hi, rfl⟩, by simp [hne, hprefix]⟩
    · rintro ⟨_, ⟨restoreKey, hi, rfl⟩, hkind⟩
      simp only [Bool.and_eq_true, decide_eq_true_eq, List.isPrefixOf_iff_prefix] at hkind
      exact ⟨restoreKey, hi, hkind.1, hkind.2⟩

/-- To skip the empty restore keys is to let them match nothing. -/
theorem chooseHit_eq (perScope : List (List (IndexEntry Id))) (key : String)
    (restoreKeys : List String) :
    chooseHit perScope key restoreKeys =
      ((kinds key restoreKeys).findSome? fun kind => firstHit kind perScope).map fun e =>
        (e.key, e) := by
  have hnone : firstHit (fun _ => false) perScope = none := by
    rw [firstHit, List.findSome?_eq_none_iff]
    intro es _
    rw [List.filter_false]
    rfl
  have hrestore : ((restoreKeys.filter fun k => k ≠ "").findSome? fun restoreKey : String =>
      firstHit (fun e => restoreKey.toList.isPrefixOf e.key.toList) perScope) =
      (restoreKeys.map fun restoreKey (e : IndexEntry Id) =>
        decide (restoreKey ≠ "") && restoreKey.toList.isPrefixOf e.key.toList).findSome? fun kind =>
          firstHit kind perScope := by
    induction restoreKeys with
    | nil => rfl
    | cons restoreKey restoreKeys ih =>
      rw [List.map_cons, List.findSome?_cons]
      by_cases hempty : restoreKey = ""
      · rw [List.filter_cons_of_neg (by simpa using hempty), ih]
        simp only [hempty, ne_eq, not_true_eq_false, decide_false, Bool.false_and, hnone]
      · rw [List.filter_cons_of_pos (by simpa using hempty), List.findSome?_cons, ih]
        simp only [hempty, ne_eq, not_false_eq_true, decide_true, Bool.true_and]
  rw [chooseHit, kinds, List.findSome?_cons, hrestore]
  cases firstHit (fun e => decide (e.key = key)) perScope <;> rfl

section Choice

variable {logs : LogKey → List (IndexEntry Id)} {ladder : List String} {version key : String}
  {restoreKeys : List String}

/-- The entry a lookup takes is that of the first candidate. -/
theorem best_chooseHit (logs : LogKey → List (IndexEntry Id)) (ladder : List String)
    (version key : String) (restoreKeys : List String) :
    Best (fun (r : ℕ ×ₗ ℕ ×ₗ DateTimeᵒᵈ ×ₗ ℕᵒᵈ) (hit : String × IndexEntry Id) =>
        ∃ c : Candidate Id, c.Of logs ladder version key restoreKeys ∧ c.rank = r ∧
          (c.entry.key, c.entry) = hit)
      (chooseHit (ladder.map fun scope => logs (scope, version)) key restoreKeys) := by
  rw [chooseHit_eq]
  apply Best.congr ((Best.findSome? fun kind _ => best_firstHit kind _).map _)
  intro r hit
  constructor
  · rintro ⟨e, ⟨kind, hway, es, hplace, hposition, hkind, hage⟩, rfl⟩
    obtain ⟨scope, hscope, rfl⟩ := Option.map_eq_some_iff.mp (List.getElem?_map ▸ hplace)
    refine ⟨⟨_, _, _, e⟩, ⟨⟨scope, hscope, hposition⟩, (matches_iff).mpr ⟨kind, hway, hkind⟩⟩, ?_, rfl⟩
    rw [Candidate.rank, ← hage]
    rfl
  · rintro ⟨c, ⟨⟨scope, hscope, hposition⟩, hmatched⟩, rfl, rfl⟩
    obtain ⟨kind, hway, hkind⟩ := (matches_iff).mp hmatched
    refine ⟨c.entry, ⟨kind, hway, logs (scope, version), ?_, hposition, hkind, rfl⟩, rfl⟩
    show (ladder.map _)[c.place]? = _
    rw [List.getElem?_map, hscope]
    rfl

/-- Two candidates of the same rank are one. -/
theorem Candidate.Of.eq_of_rank {c c' : Candidate Id}
    (h : c.Of logs ladder version key restoreKeys) (h' : c'.Of logs ladder version key restoreKeys)
    (hrank : c.rank = c'.rank) : c = c' := by
  obtain ⟨way, place, position, entry⟩ := c
  obtain ⟨way', place', position', entry'⟩ := c'
  simp only [Candidate.rank, EmbeddingLike.apply_eq_iff_eq, Prod.mk.injEq] at hrank
  obtain ⟨rfl, rfl, -, rfl⟩ := hrank
  obtain ⟨scope, hscope, hentry⟩ := h.listed
  obtain ⟨scope', hscope', hentry'⟩ := h'.listed
  obtain rfl : scope = scope' := Option.some.inj (hscope.symm.trans hscope')
  obtain rfl : entry = entry' := Option.some.inj (hentry.symm.trans hentry')
  rfl

/-- What matches in no way makes no difference. -/
theorem chooseHit_congr {perScope perScope' : List (List (IndexEntry Id))}
    (h : perScope.map (List.filter fun e => Relevant key restoreKeys e) =
      perScope'.map (List.filter fun e => Relevant key restoreKeys e)) :
    chooseHit perScope key restoreKeys = chooseHit perScope' key restoreKeys := by
  have hkind (kind : IndexEntry Id → Bool) (hmem : kind ∈ kinds key restoreKeys)
      (perScope : List (List (IndexEntry Id))) :
      firstHit kind perScope =
        firstHit kind (perScope.map (List.filter fun e => Relevant key restoreKeys e)) := by
    rw [firstHit, firstHit, List.findSome?_map]
    congr 1
    funext es
    show newest _ = newest _
    rw [List.filter_filter]
    congr 1
    apply List.filter_congr
    intro e _
    obtain ⟨way, hway⟩ := List.mem_iff_getElem?.mp hmem
    cases he : kind e with
    | false => rfl
    | true => simpa using (relevant_iff.mpr ⟨way, (matches_iff).mpr ⟨kind, hway, he⟩⟩)
  rw [chooseHit_eq, chooseHit_eq]
  congr 1
  apply findSome?_congr
  intro kind hmem
  rw [hkind kind hmem perScope, hkind kind hmem perScope', h]

end Choice

/-! ### Lookups after a history -/

theorem present_concat (ops : List (IndexOp Id)) (op : IndexOp Id) :
    IndexOp.present (ops ++ [op]) = op.update (IndexOp.present ops) := List.foldl_concat _ _ _ _

/-- The files are those of an index that has the entries present. -/
theorem applyAll_spec (J : LineSerde (IndexEntry Id)) (ops : List (IndexOp Id)) :
    ∃ t idx, IndexOp.applyAll J .empty ops = .ok t ∧ IndexFiles.Represents t idx ∧
      idx.Terminated ∧ ∀ k, idx.entries J k = IndexOp.present ops k := by
  induction ops using List.reverseRecOn with
  | nil => exact ⟨_, _, rfl, IndexFiles.represents_empty, fun _ => .inl rfl, fun _ => rfl⟩
  | append_singleton ops op ih =>
    obtain ⟨t, idx, ht, hrep, hterm, hentries⟩ := ih
    have hstep (t' : Tree) (h : op.apply J t = .ok t') :
        IndexOp.applyAll J .empty (ops ++ [op]) = .ok t' := by
      rw [IndexOp.applyAll, List.foldlM_append]
      exact Descent.bind_eq_ok.mpr ⟨t, ht, Descent.bind_eq_ok.mpr ⟨t', h, rfl⟩⟩
    rw [present_concat]
    cases op with
    | insert scope version entry =>
      obtain ⟨t', ht', hrep'⟩ := hrep.insert J scope version entry
      refine ⟨t', _, hstep t' ht', hrep', CacheIndex.terminated_insert hterm J _ _ _, fun k => ?_⟩
      rw [CacheIndex.entries_insert hterm, IndexOp.update, Function.update_apply, hentries]
      split
      case isTrue hk => rw [hk]
      case isFalse => rfl
    | rewrite scope version entries =>
      obtain ⟨t', ht', hrep'⟩ := hrep.rewrite J (scope, version) entries
      refine ⟨t', _, hstep t' ht', hrep', CacheIndex.terminated_rewrite hterm J _ _, fun k => ?_⟩
      rw [CacheIndex.entries_rewrite, IndexOp.update, Function.update_apply, hentries]

/-- **The order of a lookup.**  After any inserts and rewrites a lookup misses exactly when no entry
    of the ladder's scopes under the version has the key or begins with a restore key, and otherwise
    returns the entry of the first candidate: by the way it matches, the scope, the age and the place
    in the log.  Entries that do not matter to the lookup make no difference to it. -/
theorem lookup_history (J : LineSerde (IndexEntry Id)) (ops : List (IndexOp Id)) :
    ∃ t, IndexOp.applyAll J .empty ops = .ok t ∧
      ∀ (ladder : List String) (version key : String) (restoreKeys : List String),
        ∃ hit, IndexFiles.lookup J t ladder version key restoreKeys = .ok hit ∧
          (hit = none ↔ ∀ scope ∈ ladder, ∀ e ∈ IndexOp.present ops (scope, version),
            ¬ Relevant key restoreKeys e) ∧
          (∀ matched e, hit = some (matched, e) → matched = e.key ∧
            ∃ c : Candidate Id, c.entry = e ∧
              c.Of (IndexOp.present ops) ladder version key restoreKeys ∧
              ∀ c' : Candidate Id, c'.Of (IndexOp.present ops) ladder version key restoreKeys →
                c' = c ∨ c.rank < c'.rank) ∧
          ∀ (ops' : List (IndexOp Id)) (t' : Tree), IndexOp.applyAll J .empty ops' = .ok t' →
            (∀ scope ∈ ladder,
              (IndexOp.present ops' (scope, version)).filter (fun e => Relevant key restoreKeys e) =
              (IndexOp.present ops (scope, version)).filter fun e => Relevant key restoreKeys e) →
            IndexFiles.lookup J t' ladder version key restoreKeys = .ok hit := by
  have hlookup (ops : List (IndexOp Id)) (t : Tree) (ht : IndexOp.applyAll J .empty ops = .ok t)
      (ladder : List String) (version key : String) (restoreKeys : List String) :
      IndexFiles.lookup J t ladder version key restoreKeys = .ok (chooseHit
        (ladder.map fun scope => IndexOp.present ops (scope, version)) key restoreKeys) := by
    obtain ⟨t₁, idx, ht₁, hrep, -, hentries⟩ := applyAll_spec J ops
    obtain rfl : t₁ = t := Except.ok.inj (ht₁.symm.trans ht)
    rw [hrep.lookup_eq, CacheIndex.lookup_eq_chooseHit]
    simp only [hentries]
  obtain ⟨t, -, ht, -⟩ := applyAll_spec J ops
  refine ⟨t, ht, fun ladder version key restoreKeys => ?_⟩
  have hbest := best_chooseHit (IndexOp.present ops) ladder version key restoreKeys
  refine ⟨_, hlookup ops t ht ladder version key restoreKeys, ?_, ?_, ?_⟩
  · rw [hbest.eq_none_iff]
    constructor
    · intro hnone scope hscope e he hrelevant
      obtain ⟨way, hway⟩ := (relevant_iff).mp hrelevant
      obtain ⟨place, hplace⟩ := List.mem_iff_getElem?.mp hscope
      obtain ⟨position, hposition⟩ := List.mem_iff_getElem?.mp he
      exact hnone _ _ ⟨⟨way, place, position, e⟩, ⟨⟨scope, hplace, hposition⟩, hway⟩, rfl, rfl⟩
    · rintro hnone r hit ⟨c, ⟨⟨scope, hscope, hentry⟩, hmatched⟩, -, -⟩
      exact hnone scope (List.mem_of_getElem? hscope) c.entry (List.mem_of_getElem? hentry)
        (relevant_iff.mpr ⟨c.way, hmatched⟩)
  · intro matched e hhit
    rw [hhit] at hbest
    obtain ⟨r, ⟨c, hc, rfl, heq⟩, hleast⟩ := hbest
    obtain ⟨rfl, rfl⟩ := Prod.mk.inj heq
    refine ⟨rfl, c, rfl, hc, fun c' hc' => ?_⟩
    rcases (hleast _ _ ⟨c', hc', rfl, rfl⟩).eq_or_lt with hrank | hlt
    · exact .inl (hc'.eq_of_rank hc hrank.symm)
    · exact .inr hlt
  · intro ops' t' ht' hsame
    rw [hlookup ops' t' ht']
    congr 1
    apply chooseHit_congr
    rw [List.map_map, List.map_map]
    exact List.map_congr_left hsame

end GhRunner.Cache
