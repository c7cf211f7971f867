import GhRunner.Cache.LookupOrder

namespace GhRunner.Cache

/-!
# Lookups after a collection

A pass thins the logs out from the oldest entries on, and may put what is left of a log in another
order. Neither changes the answer of a lookup whose entry is still there
(`crates/cache/src/cas/gc.rs`, `CacheIndex::lookup` in `crates/cache/src/cas/index.rs`).

* `Thins` — what a pass does to a log: of the entries of one age the first ones may go, and those
  left keep their order;
* `thins_evictOverCap`, `thins_run` — eviction, and the whole pass;
* `getLast?_thins` — the last entry of one age and kind is the same, if there is one left;
* `retained_winner_found` — lookups.
-/

variable {Id : Type}

/-! ### Thinned logs -/

/-- Nothing is added, and of the entries of one age those at the end are left, in order. -/
structure Thins (before after : List (IndexEntry Id)) : Prop where
  subset : after ⊆ before
  suffix : ∀ t, after.filter (fun e => e.createdAt = t) <:+ before.filter fun e => e.createdAt = t

namespace Thins

theorem refl (es : List (IndexEntry Id)) : Thins es es := ⟨fun _ h => h, fun _ => List.suffix_refl _⟩

theorem trans {es es' es'' : List (IndexEntry Id)} (h : Thins es es') (h' : Thins es' es'') :
    Thins es es'' :=
  ⟨fun _ he => h.subset (h'.subset he), fun t => (h'.suffix t).trans (h.suffix t)⟩

theorem of_suffix {es es' : List (IndexEntry Id)} (h : es' <:+ es) : Thins es es' :=
  ⟨h.subset, fun _ => h.filter _⟩

theorem of_filter_eq {es es' : List (IndexEntry Id)} (hsubset : es' ⊆ es)
    (h : ∀ t, (es'.filter fun e => e.createdAt = t) = es.filter fun e => e.createdAt = t) :
    Thins es es' :=
  ⟨hsubset, fun t => by rw [h t]⟩

/-- The ages alone decide what goes. -/
theorem filter_createdAt (es : List (IndexEntry Id)) (p : DateTime → Bool) :
    Thins es (es.filter fun e => p e.createdAt) where
  subset := List.filter_subset_self es
  suffix t := by
    rw [List.filter_filter]
    cases hp : p t with
    | true =>
      have hall : (es.filter fun e => decide (e.createdAt = t) && p e.createdAt) =
          es.filter fun e => e.createdAt = t := by
        apply List.filter_congr
        intro e _
        by_cases ht : e.createdAt = t
        · simp [ht, hp]
        · simp [ht]
      rw [hall]
    | false =>
      have hnone : (es.filter fun e => decide (e.createdAt = t) && p e.createdAt) = [] := by
        rw [List.filter_eq_nil_iff]
        intro e _
        by_cases ht : e.createdAt = t
        · simp [ht, hp]
        · simp [ht]
      rw [hnone]
      exact List.nil_suffix

end Thins

/-! ### Eviction -/

/-- The sort by age is stable: the records of one age keep their order. -/
theorem filter_sortByCreated (records : List (IndexRecord Id)) (t : DateTime) :
    (sortByCreated records).filter (fun r => r.entry.createdAt = t) =
      records.filter fun r => r.entry.createdAt = t := by
  have hsame : (records.filter fun r => r.entry.createdAt = t).Pairwise
      fun a b => a.entry.createdAt ≤ b.entry.createdAt := by
    rw [List.pairwise_iff_forall_sublist]
    intro a b hab
    have ha : a.entry.createdAt = t := by simpa using List.of_mem_filter (hab.subset (by simp) : a ∈ _)
    have hb : b.entry.createdAt = t := by simpa using List.of_mem_filter (hab.subset (by simp) : b ∈ _)
    rw [ha, hb]
  have hsub : (records.filter fun r => r.entry.createdAt = t).Sublist (sortByCreated records) :=
    List.sublist_insertionSort hsame List.filter_sublist
  have hfiltered := hsub.filter fun r => decide (r.entry.createdAt = t)
  rw [List.filter_filter] at hfiltered
  simp only [Bool.and_self] at hfiltered
  have hperm : (sortByCreated records).Perm records := List.perm_insertionSort _ _
  exact (hfiltered.eq_of_length (hperm.filter _).length_eq.symm).symm

theorem thins_sortByCreated (records : List (IndexRecord Id)) (k : LogKey) :
    Thins (entriesOf records k) (entriesOf (sortByCreated records) k) := by
  have hperm : (sortByCreated records).Perm records := List.perm_insertionSort _ _
  apply Thins.of_filter_eq (entriesOf_perm hperm k).subset
  intro t
  rw [← entriesOf_filter _ (fun e => decide (e.createdAt = t)),
    ← entriesOf_filter _ (fun e => decide (e.createdAt = t)), filter_sortByCreated]

theorem thins_evictOverCap (alive : List (IndexRecord Id)) (maxBytes : U64) (k : LogKey) :
    Thins (entriesOf alive k) (entriesOf (evictOverCap alive maxBytes).1 k) := by
  unfold evictOverCap
  dsimp only
  split
  · exact .refl _
  · refine (thins_sortByCreated alive k).trans (.of_suffix ?_)
    exact ((List.drop_suffix _ _).filter _).map _

/-! ### The pass -/

/-- A log that the walk does not list is left as it is; one that it lists is thinned out. -/
theorem thins_rewriteGroups (JE : LineSerde (IndexEntry Id)) (index : CacheIndex)
    (listing : index.Listing) (cutoff : DateTime) (maxBytes : U64) (k : LogKey) :
    Thins (index.entries JE k) ((rewriteGroups JE index (index.records JE listing)
      (planRetention (index.records JE listing) cutoff maxBytes)).entries JE k) := by
  rw [entries_rewriteGroups, group_planRetention]
  split
  case isFalse => exact .refl _
  case isTrue hk =>
    obtain ⟨r, hr, rfl⟩ := List.mem_map.mp hk
    have hvisible := ((CacheIndex.mem_records_iff _ JE listing).mp hr).1
    have hlog : entriesOf (index.records JE listing) r.log = index.entries JE r.log := by
      rw [entriesOf, CacheIndex.filter_records, if_pos hvisible]
    refine .trans ?_ (thins_evictOverCap _ maxBytes _)
    have halive := entriesOf_filter (index.records JE listing)
      (fun e => decide (¬ e.createdAt < cutoff)) r.log
    rw [halive, hlog]
    exact .filter_createdAt _ fun t => decide (¬ t < cutoff)

variable [DecidableEq Id]

theorem thins_run (gc : CacheGc) (D : Digest Id) (JM : Serde (Manifest Id))
    (JE : LineSerde (IndexEntry Id)) (leases : LeaseSet Id) (now : DateTime) (cache : CacheDir Id)
    (listing : cache.index.Listing) (marking : (live : Finset Id) → MarkOrder live) (k : LogKey) :
    Thins (cache.index.entries JE k)
      ((gc.run D JM JE leases now cache listing marking).2.index.entries JE k) := by
  unfold CacheGc.run
  split
  · exact .refl _
  · dsimp only
    split
    · exact thins_rewriteGroups JE cache.index listing _ gc.maxBytes k
    · exact thins_rewriteGroups JE cache.index listing _ gc.maxBytes k

/-! ### Lookups -/

section Lookups

omit [DecidableEq Id]

theorem getLast?_filter_of_last {es : List (IndexEntry Id)} {p : IndexEntry Id → Bool} {i : ℕ}
    {e : IndexEntry Id} (hi : es[i]? = some e) (he : p e = true)
    (hlast : ∀ (j : ℕ) e', es[j]? = some e' → p e' = true → j ≤ i) :
    (es.filter p).getLast? = some e := by
  obtain ⟨hlt, heq⟩ := List.getElem?_eq_some_iff.mp hi
  have hrest : (es.drop (i + 1)).filter p = [] := by
    rw [List.filter_eq_nil_iff]
    intro e' he' hp
    obtain ⟨j, hj⟩ := List.mem_iff_getElem?.mp he'
    rw [List.getElem?_drop] at hj
    have := hlast _ e' hj hp
    omega
  have hsplit : es.filter p = (es.take i).filter p ++ [e] := by
    conv_lhs => rw [← List.take_append_drop i es, List.drop_eq_getElem_cons hlt, heq]
    rw [List.filter_append, List.filter_cons_of_pos he, hrest]
  rw [hsplit, List.getLast?_concat]

/-- Of the entries of one age and kind the last is the same, as long as there is one. -/
theorem getLast?_thins {before after : List (IndexEntry Id)} (h : Thins before after)
    (kind : IndexEntry Id → Bool) (t : DateTime) {e : IndexEntry Id} (he : e ∈ after)
    (hkind : kind e = true) (ht : e.createdAt = t) :
    (after.filter fun e => kind e && decide (e.createdAt = t)).getLast? =
      (before.filter fun e => kind e && decide (e.createdAt = t)).getLast? := by
  have hsuffix := (h.suffix t).filter kind
  rw [List.filter_filter, List.filter_filter] at hsuffix
  obtain ⟨front, hfront⟩ := hsuffix
  rw [← hfront, List.getLast?_append_of_ne_nil]
  intro hnil
  exact List.filter_eq_nil_iff.mp hnil e he (by simp [hkind, ht])

variable {logs logs' : LogKey → List (IndexEntry Id)} {ladder : List String} {version key : String}
  {restoreKeys : List String}

/-- The candidate is the one that a lookup takes. -/
structure Candidate.Wins (logs : LogKey → List (IndexEntry Id)) (ladder : List String)
    (version key : String) (restoreKeys : List String) (c : Candidate Id) : Prop where
  of : c.Of logs ladder version key restoreKeys
  first : ∀ c' : Candidate Id, c'.Of logs ladder version key restoreKeys → c.rank ≤ c'.rank

theorem chooseHit_eq_some_iff {hit : String × IndexEntry Id} :
    chooseHit (ladder.map fun scope => logs (scope, version)) key restoreKeys = some hit ↔
      ∃ c : Candidate Id, c.Wins logs ladder version key restoreKeys ∧
        hit = (c.entry.key, c.entry) := by
  have hbest := best_chooseHit logs ladder version key restoreKeys
  constructor
  · intro hhit
    rw [hhit] at hbest
    obtain ⟨r, ⟨c, hc, rfl, rfl⟩, hleast⟩ := hbest
    exact ⟨c, ⟨hc, fun c' hc' => hleast _ _ ⟨c', hc', rfl, rfl⟩⟩, rfl⟩
  · rintro ⟨c, hc, rfl⟩
    generalize chooseHit _ _ _ = choice at hbest
    cases choice with
    | none => exact absurd ⟨c, hc.of, rfl, rfl⟩ (hbest c.rank (c.entry.key, c.entry))
    | some hit =>
      obtain ⟨r, ⟨c', hc', rfl, rfl⟩, hleast⟩ := hbest
      have hrank : c'.rank = c.rank :=
        le_antisymm (hleast _ _ ⟨c, hc.of, rfl, rfl⟩) (hc.first c' hc')
      rw [hc'.eq_of_rank hc.of hrank]

theorem Candidate.rank_le_iff {c c' : Candidate Id} :
    c.rank ≤ c'.rank ↔ c.way < c'.way ∨ c.way = c'.way ∧ (c.place < c'.place ∨
      c.place = c'.place ∧ (c'.entry.createdAt < c.entry.createdAt ∨
        c.entry.createdAt = c'.entry.createdAt ∧ c'.position ≤ c.position)) := by
  rw [Candidate.rank, Candidate.rank, Prod.Lex.toLex_le_toLex, Prod.Lex.toLex_le_toLex,
    Prod.Lex.toLex_le_toLex]
  rfl

/-- Among the entries of the winner's log that match its way and have its age, it is the last. -/
theorem Candidate.Wins.getLast? {c : Candidate Id} {scope : String}
    (hc : c.Wins logs ladder version key restoreKeys) (hscope : ladder[c.place]? = some scope)
    {kind : IndexEntry Id → Bool} (hkind : (kinds key restoreKeys)[c.way]? = some kind) :
    ((logs (scope, version)).filter fun e =>
      kind e && decide (e.createdAt = c.entry.createdAt)).getLast? = some c.entry := by
  obtain ⟨⟨scope', hscope', hposition⟩, hmatched⟩ := hc.of
  obtain rfl : scope = scope' := Option.some.inj (hscope.symm.trans hscope')
  obtain ⟨kind', hkind', hentry⟩ := matches_iff.mp hmatched
  obtain rfl : kind = kind' := Option.some.inj (hkind.symm.trans hkind')
  apply getLast?_filter_of_last hposition (by simp [hentry])
  intro j e' hj he'
  simp only [Bool.and_eq_true, decide_eq_true_eq] at he'
  have hle := hc.first ⟨c.way, c.place, j, e'⟩
    ⟨⟨scope, hscope, hj⟩, matches_iff.mpr ⟨kind, hkind, he'.1⟩⟩
  rw [Candidate.rank_le_iff] at hle
  rcases hle with hway | ⟨-, hplace | ⟨-, hage | ⟨-, hle⟩⟩⟩
  · exact absurd hway (lt_irrefl _)
  · exact absurd hplace (lt_irrefl _)
  · exact absurd (he'.2 ▸ hage) (lt_irrefl _)
  · exact hle

/-- What wins after was there before, and so is no better than the winner before; and the winner
    before is still there.  So both match the same way, in the same scope, and are of one age, and of
    these the last is the same. -/
theorem wins_of_thins (h : ∀ k, Thins (logs k) (logs' k)) {c : Candidate Id} {scope : String}
    (hc : c.Wins logs ladder version key restoreKeys) (hscope : ladder[c.place]? = some scope)
    (hretained : c.entry ∈ logs' (scope, version)) :
    chooseHit (ladder.map fun scope => logs' (scope, version)) key restoreKeys =
      some (c.entry.key, c.entry) := by
  obtain ⟨position, hposition⟩ := List.mem_iff_getElem?.mp hretained
  have hkept : (⟨c.way, c.place, position, c.entry⟩ : Candidate Id).Of logs' ladder version key
      restoreKeys := ⟨⟨scope, hscope, hposition⟩, hc.of.matched⟩
  have hbest := best_chooseHit logs' ladder version key restoreKeys
  cases hhit : chooseHit (ladder.map fun scope => logs' (scope, version)) key restoreKeys with
  | none =>
    rw [hhit] at hbest
    exact absurd ⟨_, hkept, rfl, rfl⟩ (hbest _ _)
  | some hit =>
    obtain ⟨c', hc', rfl⟩ := chooseHit_eq_some_iff.mp hhit
    obtain ⟨⟨scope', hscope', hposition'⟩, hmatched'⟩ := hc'.of
    obtain ⟨position₀, hposition₀⟩ := List.mem_iff_getElem?.mp
      ((h (scope', version)).subset (List.mem_of_getElem? hposition'))
    have hafter := Candidate.rank_le_iff.mp (hc'.first _ hkept)
    have hbefore := Candidate.rank_le_iff.mp
      (hc.first ⟨c'.way, c'.place, position₀, c'.entry⟩ ⟨⟨scope', hscope', hposition₀⟩, hmatched'⟩)
    dsimp only at hafter hbefore
    have hway : c'.way = c.way := by omega
    have hplace : c'.place = c.place := by omega
    have hage : c'.entry.createdAt = c.entry.createdAt := by
      rcases hafter with hlt | ⟨-, hlt | ⟨-, hafter⟩⟩
      · omega
      · omega
      rcases hbefore with hlt | ⟨-, hlt | ⟨-, hbefore⟩⟩
      · omega
      · omega
      exact le_antisymm (hbefore.elim le_of_lt fun heq => heq.1.ge)
        (hafter.elim le_of_lt fun heq => heq.1.ge)
    obtain rfl : scope = scope' := Option.some.inj (hscope.symm.trans (hplace ▸ hscope'))
    obtain ⟨kind, hkind, hentry⟩ := matches_iff.mp hc.of.matched
    have hlast := hc.getLast? hscope hkind
    have hlast' := hc'.getLast? hscope' (hway ▸ hkind)
    rw [hage, getLast?_thins (h _) kind _ hretained hentry rfl, hlast] at hlast'
    rw [Option.some.inj hlast']

end Lookups

/-- **Eviction changes no answer that is left.**  Whatever a pass does and however it ends: a lookup
    whose entry is still in the log it was found in finds it again. -/
theorem retained_winner_found (gc : CacheGc) (D : Digest Id) (JM : Serde (Manifest Id))
    (JE : LineSerde (IndexEntry Id)) (leases : LeaseSet Id) (now : DateTime) (cache : CacheDir Id)
    (listing : cache.index.Listing) (marking : (live : Finset Id) → MarkOrder live)
    (ladder : List String) (version key : String) (restoreKeys : List String)
    (hit : String × IndexEntry Id) :
    let after := (gc.run D JM JE leases now cache listing marking).2
    cache.index.lookup JE ladder version key restoreKeys = some hit →
      ∃ (c : Candidate Id) (scope : String),
        c.Wins (cache.index.entries JE) ladder version key restoreKeys ∧
        hit = (c.entry.key, c.entry) ∧ ladder[c.place]? = some scope ∧
        (c.entry ∈ after.index.entries JE (scope, version) →
          after.index.lookup JE ladder version key restoreKeys = some hit) := by
  intro after hhit
  rw [CacheIndex.lookup_eq_chooseHit] at hhit
  obtain ⟨c, hc, rfl⟩ := chooseHit_eq_some_iff.mp hhit
  obtain ⟨scope, hscope, -⟩ := hc.of.listed
  refine ⟨c, scope, hc, rfl, hscope, fun hretained => ?_⟩
  rw [CacheIndex.lookup_eq_chooseHit]
  exact wins_of_thins (thins_run gc D JM JE leases now cache listing marking) hc hscope hretained

/-- The new entry of the sample, on the eleventh day and with a TTL of seven. -/
theorem retained_winner_found_sample :
    let after := (CacheGc.run ⟨7, 3⟩ contentDigest sampleJson sampleLines ⟨∅⟩ (10 * nanosPerDay)
      sampleCache sampleListing sampleMarking).2
    ∃ (c : Candidate Bytes) (scope : String),
      c.Wins (sampleCache.index.entries sampleLines) ["s"] "v" "new" [] ∧
      ("new", sampleEntry "new" (10 * nanosPerDay)) = (c.entry.key, c.entry) ∧
      ["s"][c.place]? = some scope ∧
      (c.entry ∈ after.index.entries sampleLines (scope, "v") →
        after.index.lookup sampleLines ["s"] "v" "new" [] =
          some ("new", sampleEntry "new" (10 * nanosPerDay))) := by
  refine retained_winner_found ⟨7, 3⟩ contentDigest sampleJson sampleLines ⟨∅⟩ (10 * nanosPerDay)
    sampleCache sampleListing sampleMarking ["s"] "v" "new" [] _ ?_
  have hown : (sampleCache.index.entries sampleLines ("s", "v")).filter (fun e => e.key = "new") =
      [sampleEntry "new" (10 * nanosPerDay)] := by
    rw [entries_sampleCache, if_pos rfl]
    rfl
  exact CacheIndex.lookup_own hown

end GhRunner.Cache
