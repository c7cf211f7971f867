import GhRunner.Cache.GcPass

namespace GhRunner.Cache

open Saturating

/-!
# Passes that get stuck

A pass over any cache, whatever state its entries and its manifests are in
(`crates/cache/src/cas/gc.rs`).  The index is rewritten first; then the manifest of every entry that
was kept is read, and the first that cannot be read ends the pass before anything is swept.

* `Cuts`, `evictOverCap_cuts` — how many entries go, with the total counted in a `u64`;
* `totalSize_rewriteGroups` — the index afterwards: what was kept, and what no enumeration finds;
* `Progresses` — the pass completes, within the cap, and no chunk is left but for a reason;
* `Collectable`, `progresses_iff` — when it does.
-/

variable {Id : Type}

/-! ### How many entries go -/

/-- The total of the records as a `u64` counts it, less that of the first `n`. -/
def remaining (records : List (IndexRecord Id)) (n : ℕ) : ℕ :=
  min (totalOf records) (maxNat 64) - totalOf (records.take n)

/-- The first `n` records are the fewest that have to go. -/
structure Cuts (maxBytes : U64) (records : List (IndexRecord Id)) (n : ℕ) : Prop where
  enough : remaining records n ≤ maxBytes.toNat
  fewest : ∀ m < n, maxBytes.toNat < remaining records m

theorem Cuts.unique {maxBytes : U64} {records : List (IndexRecord Id)} {n n' : ℕ}
    (h : Cuts maxBytes records n) (h' : Cuts maxBytes records n') : n = n' := by
  apply le_antisymm
  · by_contra hlt
    exact absurd h'.enough (not_le.mpr (h.fewest n' (not_le.mp hlt)))
  · by_contra hlt
    exact absurd h.enough (not_le.mpr (h'.fewest n (not_le.mp hlt)))

/-- The loop stops at the fewest, whatever total it starts with. -/
theorem evictCount_cuts (maxBytes : U64) (records : List (IndexRecord Id)) {running : U64}
    (hrunning : running.toNat ≤ totalOf records) :
    running.toNat - totalOf (records.take (evictCount maxBytes records running)) ≤ maxBytes.toNat ∧
      ∀ m < evictCount maxBytes records running,
        maxBytes.toNat < running.toNat - totalOf (records.take m) := by
  induction records generalizing running with
  | nil =>
    have hzero : running.toNat = 0 := Nat.le_zero.mp hrunning
    simp [evictCount, hzero]
  | cons r rest ih =>
    rw [totalOf_cons] at hrunning
    unfold evictCount
    split
    case isTrue hover =>
      rw [BitVec.lt_def] at hover
      have hrest : (satSub running r.entry.sizeBytes).toNat =
          running.toNat - r.entry.sizeBytes.toNat := toNat_satSub _ _
      have hle : (satSub running r.entry.sizeBytes).toNat ≤ totalOf rest := by omega
      obtain ⟨henough, hfewest⟩ := ih hle
      rw [hrest] at henough hfewest
      refine ⟨by rw [List.take_succ_cons, totalOf_cons]; omega, fun m hm => ?_⟩
      cases m with
      | zero => exact hover
      | succ m =>
        have := hfewest m (Nat.lt_of_succ_lt_succ hm)
        rw [List.take_succ_cons, totalOf_cons]
        omega
    case isFalse hfits =>
      rw [BitVec.lt_def, not_lt] at hfits
      exact ⟨hfits, fun m hm => absurd hm (Nat.not_lt_zero m)⟩

theorem evictOverCap_cuts (alive : List (IndexRecord Id)) (maxBytes : U64) :
    ∃ n, Cuts maxBytes (sortByCreated alive) n ∧
      (evictOverCap alive maxBytes).1.Perm ((sortByCreated alive).drop n) := by
  have hperm : (sortByCreated alive).Perm alive := List.perm_insertionSort _ _
  have htotal := totalOf_perm hperm
  have hrunning : ((alive.map (·.entry.sizeBytes)).foldl satAdd 0).toNat =
      min (totalOf (sortByCreated alive)) (maxNat 64) := by
    rw [toNat_foldl_satAdd, List.map_map, htotal]
    show min (0 + totalOf alive) (maxNat 64) = _
    rw [Nat.zero_add]
  unfold evictOverCap
  dsimp only
  split
  case isTrue hfits =>
    rw [BitVec.le_def, hrunning] at hfits
    exact ⟨0, ⟨hfits, fun m hm => absurd hm (Nat.not_lt_zero m)⟩, hperm.symm⟩
  case isFalse =>
    obtain ⟨henough, hfewest⟩ := evictCount_cuts maxBytes (sortByCreated alive)
      (hrunning.trans_le (min_le_left _ _))
    rw [hrunning] at henough hfewest
    exact ⟨_, ⟨henough, hfewest⟩, .refl _⟩

/-! ### How large the index is afterwards -/

/-- The entries of the logs that no enumeration finds, added up. -/
def CacheIndex.hiddenSize (idx : CacheIndex) (J : LineSerde (IndexEntry Id)) : ℕ :=
  ∑ k ∈ idx.logs.keys with ¬ CacheIndex.Visible k, ((idx.entries J k).map (·.sizeBytes.toNat)).sum

/-- Any set of keys that has those of all entries will do to add them up. -/
theorem totalSize_eq_sum {idx : CacheIndex} {J : LineSerde (IndexEntry Id)} {keys : Finset LogKey}
    (hkeys : ∀ k, idx.entries J k ≠ [] → k ∈ keys) :
    idx.totalSize J = ∑ k ∈ keys, ((idx.entries J k).map (·.sizeBytes.toNat)).sum := by
  have hzero : ∀ k, idx.entries J k = [] → ((idx.entries J k).map (·.sizeBytes.toNat)).sum = 0 := by
    intro k h
    rw [h]
    rfl
  calc
    _ = ∑ k ∈ idx.logs.keys ∪ keys, ((idx.entries J k).map (·.sizeBytes.toNat)).sum :=
      Finset.sum_subset Finset.subset_union_left fun k _ hk =>
        hzero k (CacheIndex.entries_of_notMem J fun h => hk (Finmap.mem_keys.mpr h))
    _ = _ := (Finset.sum_subset Finset.subset_union_right fun k _ hk =>
        hzero k (by_contra fun h => hk (hkeys k h))).symm

section Rewrite

variable {idx : CacheIndex} {J : LineSerde (IndexEntry Id)} (listing : idx.Listing)
  {cutoff : DateTime} {maxBytes : U64} {kept : List (IndexRecord Id)}

/-- A log that is enumerated holds what was kept of it, any other log what it held. -/
theorem entries_rewriteGroups_of_kept
    (hkept : kept = (evictOverCap ((idx.records J listing).filter
      fun r => ¬ r.entry.createdAt < cutoff) maxBytes).1) (hsub : kept ⊆ idx.records J listing)
    (k : LogKey) :
    (rewriteGroups J idx (idx.records J listing)
      (planRetention (idx.records J listing) cutoff maxBytes)).entries J k =
        if CacheIndex.Visible k then entriesOf kept k else idx.entries J k := by
  have hmem {k : LogKey} : k ∈ (idx.records J listing).map (·.log) ↔
      CacheIndex.Visible k ∧ idx.entries J k ≠ [] := by
    constructor
    · intro h
      obtain ⟨r, hr, rfl⟩ := List.mem_map.mp h
      obtain ⟨hvisible, hentry⟩ := (idx.mem_records_iff J listing).mp hr
      exact ⟨hvisible, List.ne_nil_of_mem hentry⟩
    · rintro ⟨hvisible, hne⟩
      obtain ⟨e, he⟩ := List.exists_mem_of_ne_nil _ hne
      refine List.mem_map.mpr ⟨⟨k.1, k.2, e⟩, (idx.mem_records_iff J listing).mpr ⟨?_, ?_⟩, rfl⟩
      · exact hvisible
      · exact he
  rw [entries_rewriteGroups, group_planRetention, ← hkept]
  by_cases hvisible : CacheIndex.Visible k
  · rw [if_pos hvisible]
    split
    case isTrue => rfl
    case isFalse hk =>
      -- the log has no entry, so none was kept
      have hnone : idx.entries J k = [] := by
        by_contra hne
        exact hk (hmem.mpr ⟨hvisible, hne⟩)
      rw [hnone, entriesOf_eq_nil fun h => hk (List.map_subset _ hsub h)]
  · rw [if_neg hvisible, if_neg fun h => hvisible (hmem.mp h).1]

theorem totalSize_rewriteGroups
    (hkept : kept = (evictOverCap ((idx.records J listing).filter
      fun r => ¬ r.entry.createdAt < cutoff) maxBytes).1) (hsub : kept ⊆ idx.records J listing) :
    (rewriteGroups J idx (idx.records J listing)
      (planRetention (idx.records J listing) cutoff maxBytes)).totalSize J =
        totalOf kept + idx.hiddenSize J := by
  have hentries := entries_rewriteGroups_of_kept listing hkept hsub
  have hlog : ∀ r ∈ kept, CacheIndex.Visible r.log ∧ r.log ∈ idx.logs.keys := by
    intro r hr
    obtain ⟨hvisible, hentry⟩ := (idx.mem_records_iff J listing).mp (hsub hr)
    refine ⟨hvisible, Finmap.mem_keys.mpr ?_⟩
    by_contra hnot
    rw [CacheIndex.entries_of_notMem J hnot] at hentry
    cases hentry
  have hkeys : ∀ k, (rewriteGroups J idx (idx.records J listing)
      (planRetention (idx.records J listing) cutoff maxBytes)).entries J k ≠ [] →
        k ∈ idx.logs.keys := by
    intro k hk
    rw [hentries] at hk
    split at hk
    · obtain ⟨e, he⟩ := List.exists_mem_of_ne_nil _ hk
      obtain ⟨r, hr, rfl, -⟩ := mem_entriesOf.mp he
      exact (hlog r hr).2
    · by_contra hnot
      exact hk (CacheIndex.entries_of_notMem J fun h => hnot (Finmap.mem_keys.mpr h))
  rw [totalSize_eq_sum hkeys, ← Finset.sum_filter_add_sum_filter_not _ CacheIndex.Visible]
  congr 1
  · rw [Finset.sum_congr rfl fun k hk => by
      rw [hentries, if_pos (Finset.mem_filter.mp hk).2]]
    exact sum_entriesOf fun r hr => Finset.mem_filter.mpr ⟨(hlog r hr).2, (hlog r hr).1⟩
  · exact Finset.sum_congr rfl fun k hk => by
      rw [hentries, if_neg (Finset.mem_filter.mp hk).2]

end Rewrite

/-! ### A pass over any cache -/

variable [DecidableEq Id]

/-- The manifest of the entry is there, whole and well formed. -/
def CasStore.Loads (s : CasStore Id) (D : Digest Id) (J : Serde (Manifest Id)) (mid : Id) : Prop :=
  ∃ m, s.getManifest D J mid = .ok m

/-- Marking goes through only if every manifest loads. -/
theorem loads_of_markChunks {D : Digest Id} {J : Serde (Manifest Id)} {s : CasStore Id}
    {order : List Id} {acc live : Finset Id} (h : markChunks D J s order acc = .ok live) :
    ∀ mid ∈ order, s.Loads D J mid := by
  induction order generalizing acc with
  | nil => exact fun _ h => absurd h List.not_mem_nil
  | cons mid order ih =>
    cases hm : s.getManifest D J mid with
    | error e =>
      simp only [markChunks, hm] at h
      cases h
    | ok m =>
      simp only [markChunks, hm] at h
      exact List.forall_mem_cons.mpr ⟨⟨m, hm⟩, ih h⟩

section Pass

variable (gc : CacheGc) (D : Digest Id) (JM : Serde (Manifest Id)) (JE : LineSerde (IndexEntry Id))
  (leases : LeaseSet Id) (now : DateTime) (cache : CacheDir Id) (listing : cache.index.Listing)
  (marking : (live : Finset Id) → MarkOrder live)

/-- What is promised of a pass. -/
structure Progresses : Prop where
  completes : ∃ report, (gc.run D JM JE leases now cache listing marking).1 = .ok report
  evicts : (gc.run D JM JE leases now cache listing marking).2.index.totalSize JE ≤
    gc.maxBytes.toNat
  /-- A chunk is left only for a lease, or for an entry whose manifest loads and lists it. -/
  sweeps : ∀ c ∈ (gc.run D JM JE leases now cache listing marking).2.store.blobs,
    leases.isLeased c = true ∨
      ∃ k, ∃ e ∈ (gc.run D JM JE leases now cache listing marking).2.index.entries JE k,
        cache.store.References D JM e.manifest c

/-- The records of the index that are not past the TTL, by age. -/
def unexpired (cutoff : DateTime) : List (IndexRecord Id) :=
  sortByCreated ((cache.index.records JE listing).filter fun r => ¬ r.entry.createdAt < cutoff)

/-- The cutoff is an instant, and of the unexpired entries those that are left once the fewest are
    gone have manifests that load and, with the logs that no enumeration finds, fit the cap. -/
structure Collectable (cutoff : DateTime) (n : ℕ) : Prop where
  represented : cutoffOf gc.ttlDays now = .ok cutoff
  cuts : Cuts gc.maxBytes (unexpired JE cache listing cutoff) n
  fits : totalOf ((unexpired JE cache listing cutoff).drop n) + cache.index.hiddenSize JE ≤
    gc.maxBytes.toNat
  loads : ∀ r ∈ (unexpired JE cache listing cutoff).drop n, cache.store.Loads D JM r.entry.manifest

/-- A pass whose cutoff is an instant: it rewrites the index, marks, and sweeps if that goes
    through. -/
theorem run_of_cutoff {cutoff : DateTime} (hcut : cutoffOf gc.ttlDays now = .ok cutoff) :
    let retention := planRetention (cache.index.records JE listing) cutoff gc.maxBytes
    let order := (marking retention.liveManifests).order
    let pass := gc.run D JM JE leases now cache listing marking
    pass.2.index = rewriteGroups JE cache.index (cache.index.records JE listing) retention ∧
    (∀ live, markChunks D JM cache.store order ∅ = .ok live → (∃ report, pass.1 = .ok report) ∧
      pass.2.store = (sweepFiles cache.store order.toFinset live leases).2) ∧
    ∀ e, markChunks D JM cache.store order ∅ = .error e →
      pass.1 = .error (.error e) ∧ pass.2.store = cache.store := by
  intro retention order pass
  cases hmark : markChunks D JM cache.store order ∅ with
  | error e =>
    have hsweep : sweep D JM cache.store order leases = (.error e, cache.store) := by
      rw [sweep, hmark]
    have hpass : pass = (.error (.error e), ⟨cache.store,
        rewriteGroups JE cache.index (cache.index.records JE listing) retention⟩) := by
      simp only [pass, CacheGc.run, hcut]
      rw [hsweep]
    rw [hpass]
    refine ⟨rfl, ?_, ?_⟩
    · rintro live ⟨⟩
    · rintro _ ⟨⟩
      exact ⟨rfl, rfl⟩
  | ok live =>
    have hsweep : sweep D JM cache.store order leases =
        (.ok (sweepFiles cache.store order.toFinset live leases).1,
          (sweepFiles cache.store order.toFinset live leases).2) := by
      rw [sweep, hmark]
    have hpass : pass = (.ok ⟨retention.expired, retention.evicted,
          (sweepFiles cache.store order.toFinset live leases).1.1,
          (sweepFiles cache.store order.toFinset live leases).1.2⟩,
        ⟨(sweepFiles cache.store order.toFinset live leases).2,
          rewriteGroups JE cache.index (cache.index.records JE listing) retention⟩) := by
      simp only [pass, CacheGc.run, hcut]
      rw [hsweep]
    rw [hpass]
    refine ⟨rfl, ?_, ?_⟩
    · rintro _ ⟨⟩
      exact ⟨⟨_, rfl⟩, rfl⟩
    · rintro e ⟨⟩

/-- The manifests that a pass marks are those of the entries it keeps. -/
theorem mem_marking_iff {cutoff : DateTime} {maxBytes : U64} {kept : List (IndexRecord Id)}
    {records : List (IndexRecord Id)}
    (hkept : kept = (evictOverCap (records.filter fun r => ¬ r.entry.createdAt < cutoff) maxBytes).1)
    (mid : Id) : mid ∈ (marking (planRetention records cutoff maxBytes).liveManifests).order ↔
      ∃ r ∈ kept, r.entry.manifest = mid := by
  rw [← List.mem_toFinset, (marking _).toFinset_eq, mem_liveManifests]
  simp only [group_planRetention, ← hkept, mem_entriesOf]
  constructor
  · rintro ⟨k, e, ⟨r, hr, -, rfl⟩, rfl⟩
    exact ⟨r, hr, rfl⟩
  · rintro ⟨r, hr, rfl⟩
    exact ⟨r.log, r.entry, ⟨r, hr, rfl, rfl⟩, rfl⟩

variable {gc D JM JE leases now cache listing marking}

/-- **When a pass makes progress.**  Over every cache, with every cap, TTL, set of leases, order of the
    directories and of the marking: exactly when the cutoff is an instant, what the eviction leaves,
    with the logs that no enumeration finds, fits the cap, and every manifest of it loads. -/
theorem progresses_iff :
    Progresses gc D JM JE leases now cache listing marking ↔
      ∃ cutoff n, Collectable gc D JM JE now cache listing cutoff n := by
  cases hcut : cutoffOf gc.ttlDays now with
  | error failure =>
    constructor
    · rintro ⟨⟨report, hreport⟩, -, -⟩
      rw [CacheGc.run, hcut] at hreport
      cases hreport
    · rintro ⟨cutoff, n, hcollect⟩
      cases hcut.symm.trans hcollect.represented
  | ok cutoff =>
    obtain ⟨hindex, hmarked, hstopped⟩ :=
      run_of_cutoff gc D JM JE leases now cache listing marking hcut
    obtain ⟨n, hcuts, hperm⟩ := evictOverCap_cuts ((cache.index.records JE listing).filter
      fun r => ¬ r.entry.createdAt < cutoff) gc.maxBytes
    generalize hkept : (evictOverCap ((cache.index.records JE listing).filter
      fun r => ¬ r.entry.createdAt < cutoff) gc.maxBytes).1 = kept at hperm
    have hsub : kept ⊆ cache.index.records JE listing := fun r hr =>
      List.mem_of_mem_filter (evictOverCap_subset _ _ (hkept ▸ hr))
    have hsize := totalSize_rewriteGroups listing hkept.symm hsub
    have hentries := entries_rewriteGroups_of_kept listing hkept.symm hsub
    rw [← hindex] at hsize hentries
    have horder (mid : Id) := mem_marking_iff marking hkept.symm mid
    have htotal : totalOf kept = totalOf ((unexpired JE cache listing cutoff).drop n) :=
      totalOf_perm hperm
    constructor
    · rintro ⟨⟨report, hreport⟩, hfits, -⟩
      refine ⟨cutoff, n, hcut, hcuts, ?_, fun r hr => ?_⟩
      · rw [← htotal, ← hsize]
        exact hfits
      · cases hmark : markChunks D JM cache.store (marking (planRetention
            (cache.index.records JE listing) cutoff gc.maxBytes).liveManifests).order ∅ with
        | error e =>
          rw [(hstopped e hmark).1] at hreport
          cases hreport
        | ok live =>
          exact loads_of_markChunks hmark _ ((horder _).mpr ⟨r, hperm.symm.subset hr, rfl⟩)
    · rintro ⟨cutoff', n', hcollect⟩
      obtain rfl : cutoff = cutoff' := Except.ok.inj (hcut.symm.trans hcollect.represented)
      obtain rfl : n = n' := hcuts.unique hcollect.cuts
      have hloads : ∀ mid ∈ (marking (planRetention (cache.index.records JE listing) cutoff
          gc.maxBytes).liveManifests).order, cache.store.Loads D JM mid := by
        intro mid hmid
        obtain ⟨r, hr, rfl⟩ := (horder _).mp hmid
        exact hcollect.loads r (hperm.subset hr)
      obtain ⟨live, hlive, hmem⟩ := markChunks_spec hloads ∅
      obtain ⟨hcompletes, hstore⟩ := hmarked live hlive
      refine ⟨hcompletes, ?_, fun c hc => ?_⟩
      · rw [hsize, htotal]
        exact hcollect.fits
      · rw [hstore] at hc
        obtain ⟨bytes, hbytes⟩ := Finmap.mem_iff.mp hc
        obtain ⟨-, hreason⟩ := (blobs_sweepFiles _ _ _ _ c bytes).mp hbytes
        rcases hreason with hmarked | hleased
        · obtain ⟨mid, hmid, href⟩ := ((hmem c).mp hmarked).resolve_left (Finset.notMem_empty c)
          obtain ⟨r, hr, rfl⟩ := (horder _).mp hmid
          refine Or.inr ⟨r.log, r.entry, ?_, href⟩
          rw [hentries, if_pos ((cache.index.mem_records_iff JE listing).mp (hsub hr)).1]
          exact mem_entriesOf.mpr ⟨r, hr, rfl, rfl⟩
        · exact Or.inl hleased

end Pass

/-! ### A cache that lost a manifest -/

/-- The cache of the sample without its manifest's file. -/
def lostManifest : CacheDir Bytes := ⟨⟨sampleCache.store.blobs, ∅⟩, sampleCache.index⟩

theorem records_lostManifest : lostManifest.index.records sampleLines sampleListing =
    [⟨"s", "v", sampleEntry "old" 0⟩, ⟨"s", "v", sampleEntry "new" (10 * nanosPerDay)⟩] := by
  show [("s", "v")].flatMap (sampleCache.index.recordsOf sampleLines) = _
  rw [List.flatMap_singleton, CacheIndex.recordsOf, entries_sampleCache, if_pos rfl]
  rfl

/-- A pass over it fails, and the chunk that belongs to nothing stays. -/
theorem lost_manifest_stops_pass :
    let pass := CacheGc.run ⟨7, 10⟩ contentDigest sampleJson sampleLines ⟨∅⟩ (10 * nanosPerDay)
      lostManifest sampleListing sampleMarking
    ¬ Progresses ⟨7, 10⟩ contentDigest sampleJson sampleLines ⟨∅⟩ (10 * nanosPerDay) lostManifest
      sampleListing sampleMarking ∧
    (∃ e, pass.1 = .error e) ∧ pass.2.store.blobs.lookup [9] = some [9] := by
  intro pass
  have hcut : cutoffOf 7 (10 * nanosPerDay) = .ok (3 * nanosPerDay) := by
    simp [cutoffOf, maxDurationDays, nanosPerDay, minUtc]
  obtain ⟨-, -, hstopped⟩ := run_of_cutoff ⟨7, 10⟩ contentDigest sampleJson sampleLines ⟨∅⟩
    (10 * nanosPerDay) lostManifest sampleListing sampleMarking hcut
  have hkept : [⟨"s", "v", sampleEntry "new" (10 * nanosPerDay)⟩] =
      (evictOverCap ((lostManifest.index.records sampleLines sampleListing).filter
        fun r => ¬ r.entry.createdAt < 3 * nanosPerDay) 10).1 := by
    rw [records_lostManifest]
    rfl
  have hlive : sampleMid ∈ (sampleMarking (planRetention (lostManifest.index.records sampleLines
      sampleListing) (3 * nanosPerDay) 10).liveManifests).order :=
    (mem_marking_iff sampleMarking hkept sampleMid).mpr ⟨_, List.mem_singleton_self _, rfl⟩
  cases hmark : markChunks contentDigest sampleJson lostManifest.store (sampleMarking
      (planRetention (lostManifest.index.records sampleLines sampleListing) (3 * nanosPerDay)
        10).liveManifests).order ∅ with
  | ok live =>
    obtain ⟨m, hm⟩ := loads_of_markChunks hmark sampleMid hlive
    cases hm
  | error e =>
    obtain ⟨hfailed, hstore⟩ := hstopped e hmark
    refine ⟨fun h => ?_, ⟨_, hfailed⟩, ?_⟩
    · obtain ⟨report, hreport⟩ := h.completes
      rw [hfailed] at hreport
      cases hreport
    · rw [show pass.2.store = lostManifest.store from hstore]
      decide

end GhRunner.Cache
