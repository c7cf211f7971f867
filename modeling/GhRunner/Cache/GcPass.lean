import GhRunner.Cache.Gc
import GhRunner.Cache.RoundTrip
import Mathlib.Algebra.BigOperators.Group.Finset.Piecewise

namespace GhRunner.Cache

open Saturating

/-!
# What a garbage collection pass leaves

A pass with nobody else at work, from a cache in which every entry is complete.

* `evictOverCap_spec` — the evicted records are the shortest prefix, by age, that brings the rest
  under the cap;
* `group_planRetention`, `entries_rewriteGroups` — the logs afterwards are the retained records;
* `markChunks_spec`, `sweepFiles_spec` — exactly what they reference stays;
* `CacheGc.run_spec` — the pass as a whole.
-/

variable {Id : Type}

/-- The sizes of the records added up. -/
def totalOf (records : List (IndexRecord Id)) : ℕ :=
  (records.map fun r => r.entry.sizeBytes.toNat).sum

@[simp] theorem totalOf_cons (r : IndexRecord Id) (records : List (IndexRecord Id)) :
    totalOf (r :: records) = r.entry.sizeBytes.toNat + totalOf records := List.sum_cons

theorem totalOf_perm {records records' : List (IndexRecord Id)} (h : records.Perm records') :
    totalOf records = totalOf records' := (h.map _).sum_eq

theorem totalOf_sublist {records records' : List (IndexRecord Id)} (h : records.Sublist records') :
    totalOf records ≤ totalOf records' := (h.map _).sum_le_sum (by simp)

/-! ### Eviction -/

/-- What is cut is the shortest prefix that brings the rest under the cap. -/
theorem evictCount_spec (maxBytes : U64) (records : List (IndexRecord Id)) {running : U64}
    (hrunning : running.toNat = totalOf records) :
    totalOf (records.drop (evictCount maxBytes records running)) ≤ maxBytes.toNat ∧
      ∀ m < evictCount maxBytes records running, maxBytes.toNat < totalOf (records.drop m) := by
  induction records generalizing running with
  | nil => simp [evictCount, totalOf]
  | cons r rest ih =>
    rw [totalOf_cons] at hrunning
    unfold evictCount
    split
    case isTrue hover =>
      have hrest : (satSub running r.entry.sizeBytes).toNat = totalOf rest := by
        rw [toNat_satSub]
        omega
      obtain ⟨hfits, hshortest⟩ := ih hrest
      refine ⟨hfits, fun m hm => ?_⟩
      cases m with
      | zero =>
        rw [BitVec.lt_def, hrunning] at hover
        rwa [List.drop_zero, totalOf_cons]
      | succ m => exact hshortest m (Nat.lt_of_succ_lt_succ hm)
    case isFalse hfits =>
      rw [BitVec.lt_def, hrunning] at hfits
      exact ⟨by rw [List.drop_zero, totalOf_cons]; omega, fun m hm => absurd hm (Nat.not_lt_zero m)⟩

/-- The unexpired records by age, and how many of the oldest go. -/
structure Evicts (maxBytes : U64) (alive kept sorted : List (IndexRecord Id)) (n : ℕ) : Prop where
  byAge : sorted.Pairwise fun a b => a.entry.createdAt ≤ b.entry.createdAt
  perm : sorted.Perm alive
  kept : kept.Perm (sorted.drop n)
  fits : totalOf (sorted.drop n) ≤ maxBytes.toNat
  shortest : ∀ m < n, maxBytes.toNat < totalOf (sorted.drop m)

theorem evictOverCap_subset (alive : List (IndexRecord Id)) (maxBytes : U64) :
    (evictOverCap alive maxBytes).1 ⊆ alive := by
  unfold evictOverCap
  dsimp only
  split
  · exact fun _ h => h
  · exact fun _ h => (List.perm_insertionSort _ _).subset (List.mem_of_mem_drop h)

theorem evictOverCap_spec (maxBytes : U64) {alive : List (IndexRecord Id)}
    (htotal : totalOf alive < 2 ^ 64) :
    ∃ sorted, Evicts maxBytes alive (evictOverCap alive maxBytes).1 sorted
      (evictOverCap alive maxBytes).2 := by
  have htrans : IsTrans (IndexRecord Id) fun a b => a.entry.createdAt ≤ b.entry.createdAt :=
    ⟨fun _ _ _ => le_trans⟩
  have hlinear : Std.Total fun a b : IndexRecord Id => a.entry.createdAt ≤ b.entry.createdAt :=
    ⟨fun _ _ => le_total _ _⟩
  have hsorted : (sortByCreated alive).Pairwise fun a b => a.entry.createdAt ≤ b.entry.createdAt :=
    List.pairwise_insertionSort _ _
  have hperm : (sortByCreated alive).Perm alive := List.perm_insertionSort _ _
  have hrunning : ((alive.map (·.entry.sizeBytes)).foldl satAdd 0).toNat = totalOf alive := by
    rw [toNat_foldl_satAdd, List.map_map]
    show min (0 + totalOf alive) (maxNat 64) = totalOf alive
    unfold maxNat
    omega
  refine ⟨sortByCreated alive, ?_⟩
  unfold evictOverCap
  dsimp only
  split
  case isTrue hfits =>
    rw [BitVec.le_def, hrunning] at hfits
    exact ⟨hsorted, hperm, hperm.symm, (totalOf_perm hperm).trans_le hfits,
      fun m hm => absurd hm (Nat.not_lt_zero m)⟩
  case isFalse =>
    obtain ⟨hfits, hshortest⟩ := evictCount_spec maxBytes (sortByCreated alive)
      (hrunning.trans (totalOf_perm hperm).symm)
    exact ⟨hsorted, hperm, .refl _, hfits, hshortest⟩

/-! ### The logs afterwards -/

/-- The entries of one log among the records. -/
def entriesOf (records : List (IndexRecord Id)) (k : LogKey) : List (IndexEntry Id) :=
  (records.filter fun r => r.log = k).map (·.entry)

theorem mem_entriesOf {records : List (IndexRecord Id)} {k : LogKey} {e : IndexEntry Id} :
    e ∈ entriesOf records k ↔ ∃ r ∈ records, r.log = k ∧ r.entry = e := by
  simp [entriesOf, and_assoc]

theorem entriesOf_append (records records' : List (IndexRecord Id)) (k : LogKey) :
    entriesOf (records ++ records') k = entriesOf records k ++ entriesOf records' k := by
  rw [entriesOf, List.filter_append, List.map_append]
  rfl

theorem entriesOf_eq_nil {records : List (IndexRecord Id)} {k : LogKey}
    (h : k ∉ records.map (·.log)) : entriesOf records k = [] := by
  rw [List.eq_nil_iff_forall_not_mem]
  intro e he
  obtain ⟨r, hr, hlog, -⟩ := mem_entriesOf.mp he
  exact h (List.mem_map.mpr ⟨r, hr, hlog⟩)

theorem entriesOf_perm {records records' : List (IndexRecord Id)} (h : records.Perm records')
    (k : LogKey) : (entriesOf records k).Perm (entriesOf records' k) := (h.filter _).map _

theorem entriesOf_filter (records : List (IndexRecord Id)) (p : IndexEntry Id → Bool) (k : LogKey) :
    entriesOf (records.filter fun r => p r.entry) k = (entriesOf records k).filter p := by
  rw [entriesOf, entriesOf, List.filter_map, List.filter_filter, List.filter_filter]
  congr 2
  funext r
  exact Bool.and_comm _ _

theorem group_foldl_pushGroup (records : List (IndexRecord Id))
    (groups : Finmap fun _ : LogKey => List (IndexEntry Id)) (k : LogKey) :
    ((records.foldl pushGroup groups).lookup k).getD [] =
      (groups.lookup k).getD [] ++ entriesOf records k := by
  induction records generalizing groups with
  | nil => simp [entriesOf]
  | cons r records ih =>
    rw [List.foldl_cons, ih, pushGroup, entriesOf, entriesOf]
    by_cases hk : k = r.log
    · subst hk
      simp [Finmap.lookup_insert]
    · rw [Finmap.lookup_insert_of_ne _ hk, List.filter_cons_of_neg (by simpa using Ne.symm hk)]

theorem group_planRetention (records : List (IndexRecord Id)) (cutoff : DateTime) (maxBytes : U64)
    (k : LogKey) :
    (planRetention records cutoff maxBytes).group k =
      entriesOf (evictOverCap (records.filter fun r => ¬ r.entry.createdAt < cutoff) maxBytes).1 k :=
  (group_foldl_pushGroup _ ∅ k).trans (List.nil_append _)

theorem entries_foldl_rewrite (J : LineSerde (IndexEntry Id)) (retention : Retention Id)
    (keys : List LogKey) (index : CacheIndex) (j : LogKey) :
    (keys.foldl (fun index k => index.rewrite J k (retention.group k)) index).entries J j =
      if j ∈ keys then retention.group j else index.entries J j := by
  induction keys generalizing index with
  | nil => rfl
  | cons k keys ih =>
    rw [List.foldl_cons, ih, CacheIndex.entries_rewrite]
    by_cases hj : j = k
    · subst hj
      simp
    · simp [hj]

theorem entries_rewriteGroups (J : LineSerde (IndexEntry Id)) (index : CacheIndex)
    (records : List (IndexRecord Id)) (retention : Retention Id) (j : LogKey) :
    (rewriteGroups J index records retention).entries J j =
      if j ∈ records.map (·.log) then retention.group j else index.entries J j := by
  rw [rewriteGroups, entries_foldl_rewrite]
  simp only [List.mem_dedup]

/-- The records added up log by log. -/
theorem sum_entriesOf {records : List (IndexRecord Id)} {keys : Finset LogKey}
    (hlogs : ∀ r ∈ records, r.log ∈ keys) :
    ∑ k ∈ keys, ((entriesOf records k).map (·.sizeBytes.toNat)).sum = totalOf records := by
  induction records with
  | nil => simp [entriesOf, totalOf]
  | cons r records ih =>
    rw [List.forall_mem_cons] at hlogs
    have hcons : ∀ k, ((entriesOf (r :: records) k).map (·.sizeBytes.toNat)).sum =
        (if k = r.log then r.entry.sizeBytes.toNat else 0) +
          ((entriesOf records k).map (·.sizeBytes.toNat)).sum := by
      intro k
      by_cases hk : k = r.log
      · simp [entriesOf, hk]
      · simp [entriesOf, hk, Ne.symm hk]
    rw [Finset.sum_congr rfl fun k _ => hcons k, Finset.sum_add_distrib, ih hlogs.2,
      Finset.sum_ite_eq', if_pos hlogs.1, totalOf_cons]

/-- An index whose logs hold the records, log by log, is as large as they are. -/
theorem totalSize_eq {index : CacheIndex} {J : LineSerde (IndexEntry Id)}
    {records : List (IndexRecord Id)}
    (h : ∀ k, (entriesOf records k).Perm (index.entries J k)) :
    index.totalSize J = totalOf records := by
  have hlogs : ∀ r ∈ records, r.log ∈ index.logs.keys := by
    intro r hr
    by_contra hlog
    have hmem : r.entry ∈ index.entries J r.log :=
      (h r.log).subset (mem_entriesOf.mpr ⟨r, hr, rfl, rfl⟩)
    rw [CacheIndex.entries_of_notMem J (fun hin => hlog (Finmap.mem_keys.mpr hin))] at hmem
    cases hmem
  have hsum : ∀ k, ((index.entries J k).map (·.sizeBytes.toNat)).sum =
      ((entriesOf records k).map (·.sizeBytes.toNat)).sum := fun k => (((h k).map _).sum_eq).symm
  rw [CacheIndex.totalSize, Finset.sum_congr rfl fun k _ => hsum k, sum_entriesOf hlogs]

/-- The enumeration finds every entry, log by log. -/
theorem entriesOf_records {index : CacheIndex} {J : LineSerde (IndexEntry Id)}
    (hnames : ∀ k, index.entries J k ≠ [] → CacheIndex.Visible k) (listing : index.Listing)
    (k : LogKey) : entriesOf (index.records J listing) k = index.entries J k := by
  rw [entriesOf, CacheIndex.filter_records]
  split
  case isTrue => rfl
  case isFalse hhidden =>
    by_contra hne
    exact hhidden (hnames k fun h => hne h.symm)

/-- After the rewriting each log holds what was kept of it. -/
theorem entries_rewriteGroups_plan {index : CacheIndex} {J : LineSerde (IndexEntry Id)}
    {records : List (IndexRecord Id)} (hrecords : ∀ k, entriesOf records k = index.entries J k)
    (cutoff : DateTime) (maxBytes : U64) {kept : List (IndexRecord Id)}
    (hkept : kept = (evictOverCap (records.filter fun r => ¬ r.entry.createdAt < cutoff) maxBytes).1)
    (hsub : kept ⊆ records) (k : LogKey) :
    (rewriteGroups J index records (planRetention records cutoff maxBytes)).entries J k =
      entriesOf kept k := by
  rw [entries_rewriteGroups, group_planRetention, ← hkept]
  split
  case isTrue => rfl
  case isFalse hk =>
    have hk' : k ∉ kept.map (·.log) := fun h => hk (List.map_subset _ hsub h)
    rw [← hrecords, entriesOf_eq_nil hk, entriesOf_eq_nil hk']

/-! ### The sweep -/

variable [DecidableEq Id]

/-- The manifest loads and lists the chunk. -/
def CasStore.References (s : CasStore Id) (D : Digest Id) (J : Serde (Manifest Id)) (mid c : Id) :
    Prop :=
  ∃ m, s.getManifest D J mid = .ok m ∧ c ∈ m.chunks.map (·.id)

/-- The entry's manifest loads and every chunk of it is on disk. -/
def CasStore.Complete (s : CasStore Id) (D : Digest Id) (J : Serde (Manifest Id))
    (e : IndexEntry Id) : Prop :=
  ∃ m, s.getManifest D J e.manifest = .ok m ∧ ∀ c ∈ m.chunks.map (·.id), c ∈ s.blobs

/-- With every manifest readable the marking succeeds, with exactly the chunks they reference. -/
theorem markChunks_spec {D : Digest Id} {J : Serde (Manifest Id)} {s : CasStore Id}
    {order : List Id} (h : ∀ mid ∈ order, ∃ m, s.getManifest D J mid = .ok m) (acc : Finset Id) :
    ∃ live, markChunks D J s order acc = .ok live ∧
      ∀ c, c ∈ live ↔ c ∈ acc ∨ ∃ mid ∈ order, s.References D J mid c := by
  induction order generalizing acc with
  | nil => exact ⟨acc, rfl, by simp⟩
  | cons mid order ih =>
    rw [List.forall_mem_cons] at h
    obtain ⟨m, hm⟩ := h.1
    obtain ⟨live, hlive, hiff⟩ := ih h.2 (acc ∪ (m.chunks.map (·.id)).toFinset)
    refine ⟨live, by rw [markChunks, hm]; exact hlive, fun c => ?_⟩
    have hhead : s.References D J mid c ↔ c ∈ m.chunks.map (·.id) := by
      constructor
      · rintro ⟨m', hm', hc⟩
        rw [hm] at hm'
        exact Except.ok.inj hm' ▸ hc
      · exact fun hc => ⟨m, hm, hc⟩
    rw [hiff, Finset.mem_union, List.mem_toFinset, List.exists_mem_cons_iff, hhead, or_assoc]

theorem blobs_sweepFiles (s : CasStore Id) (liveManifests liveChunks : Finset Id)
    (leases : LeaseSet Id) (c : Id) (bytes : Bytes) :
    (sweepFiles s liveManifests liveChunks leases).2.blobs.lookup c = some bytes ↔
      s.blobs.lookup c = some bytes ∧ (c ∈ liveChunks ∨ leases.isLeased c = true) := by
  rw [sweepFiles, Finmap.lookup_retain, Option.filter_eq_some_iff, Bool.or_eq_true,
    decide_eq_true_iff]

theorem getManifest_sweepFiles (s : CasStore Id) {liveManifests : Finset Id}
    (liveChunks : Finset Id) (leases : LeaseSet Id) (D : Digest Id) (J : Serde (Manifest Id))
    {mid : Id} (h : mid ∈ liveManifests) :
    (sweepFiles s liveManifests liveChunks leases).2.getManifest D J mid =
      s.getManifest D J mid := by
  have hlookup : (sweepFiles s liveManifests liveChunks leases).2.manifests.lookup mid =
      s.manifests.lookup mid := by
    rw [sweepFiles, Finmap.lookup_retain]
    cases s.manifests.lookup mid <;> simp [h]
  unfold CasStore.getManifest readVerified
  rw [hlookup]

theorem mem_liveManifests {retention : Retention Id} {mid : Id} :
    mid ∈ retention.liveManifests ↔ ∃ k, ∃ e ∈ retention.group k, e.manifest = mid := by
  unfold Retention.liveManifests
  rw [Finset.mem_biUnion]
  constructor
  · rintro ⟨k, -, hmem⟩
    obtain ⟨e, he, rfl⟩ := List.mem_map.mp (List.mem_toFinset.mp hmem)
    exact ⟨k, e, he, rfl⟩
  · rintro ⟨k, e, he, rfl⟩
    refine ⟨k, ?_, List.mem_toFinset.mpr (List.mem_map_of_mem he)⟩
    rw [Finmap.mem_keys]
    by_contra hk
    rw [Retention.group, Finmap.lookup_eq_none.mpr hk] at he
    cases he

/-! ### The pass -/

/-- What a pass with the given cutoff is to leave of a cache. -/
structure Collected (D : Digest Id) (JM : Serde (Manifest Id)) (JE : LineSerde (IndexEntry Id))
    (maxBytes : U64) (leases : LeaseSet Id) (cutoff : DateTime) (before after : CacheDir Id) :
    Prop where
  /-- Every entry left has its manifest and its chunks. -/
  complete : ∀ k, ∀ e ∈ after.index.entries JE k, after.store.Complete D JM e
  /-- None of them is past the TTL. -/
  unexpired : ∀ k, ∀ e ∈ after.index.entries JE k, cutoff ≤ e.createdAt
  /-- Together they are within the cap. -/
  fits : after.index.totalSize JE ≤ maxBytes.toNat
  /-- They are the unexpired entries, by age, without the shortest prefix that gets there. -/
  kept : ∃ (sorted : List (IndexRecord Id)) (n : ℕ),
    (sorted.Pairwise fun a b => a.entry.createdAt ≤ b.entry.createdAt) ∧
    (∀ k, (entriesOf sorted k).Perm
      ((before.index.entries JE k).filter fun e => cutoff ≤ e.createdAt)) ∧
    (∀ k, (after.index.entries JE k).Perm (entriesOf (sorted.drop n) k)) ∧
    ∀ m < n, maxBytes.toNat < totalOf (sorted.drop m)
  /-- A chunk file stays exactly when an entry left references it or a lease covers it. -/
  chunks : ∀ c bytes, after.store.blobs.lookup c = some bytes ↔
    before.store.blobs.lookup c = some bytes ∧
      ((∃ k, ∃ e ∈ after.index.entries JE k, after.store.References D JM e.manifest c) ∨
        leases.isLeased c = true)

/-- **A pass with nobody else at work.**  Take a cache whose entries are complete, are found by the
    enumeration, and add up to less than `2^64` bytes.  A TTL that does not fit an `i64` fails the
    pass and changes nothing; otherwise, whenever the cutoff is an instant at all, the pass succeeds
    and leaves what it is to leave. -/
theorem CacheGc.run_spec (gc : CacheGc) (D : Digest Id) (JM : Serde (Manifest Id))
    (JE : LineSerde (IndexEntry Id)) (leases : LeaseSet Id) (now : DateTime) {cache : CacheDir Id}
    (hcomplete : ∀ k, ∀ e ∈ cache.index.entries JE k, cache.store.Complete D JM e)
    (hnames : ∀ k, cache.index.entries JE k ≠ [] → CacheIndex.Visible k)
    (hsize : cache.index.totalSize JE < 2 ^ 64) (listing : cache.index.Listing)
    (marking : (live : Finset Id) → MarkOrder live) :
    let pass := gc.run D JM JE leases now cache listing marking
    (2 ^ 63 ≤ gc.ttlDays.toNat → (∃ message, pass.1 = .error (.error (.cache message))) ∧
      pass.2 = cache) ∧
    ∀ cutoff, cutoffOf gc.ttlDays now = .ok cutoff → (∃ report, pass.1 = .ok report) ∧
      Collected D JM JE gc.maxBytes leases cutoff cache pass.2 := by
  intro pass
  cases hcut : cutoffOf gc.ttlDays now with
  | error failure =>
    have hrun : pass = (.error failure, cache) := by simp only [pass, CacheGc.run, hcut]
    rw [hrun]
    refine ⟨fun httl => ⟨?_, rfl⟩, fun _ h => by cases h⟩
    rw [cutoffOf, if_pos httl] at hcut
    rw [← Except.error.inj hcut]
    exact ⟨_, rfl⟩
  | ok cutoff =>
    have hrecords := entriesOf_records hnames listing
    have htotal : totalOf (cache.index.records JE listing) < 2 ^ 64 := by
      rwa [← totalSize_eq fun k => .of_eq (hrecords k)]
    have hrun : ∀ liveChunks, markChunks D JM cache.store (marking (planRetention
        (cache.index.records JE listing) cutoff gc.maxBytes).liveManifests).order ∅ =
          .ok liveChunks → ∃ report, pass =
        (.ok report, ⟨(sweepFiles cache.store (marking (planRetention
          (cache.index.records JE listing) cutoff gc.maxBytes).liveManifests).order.toFinset
            liveChunks leases).2,
          rewriteGroups JE cache.index (cache.index.records JE listing)
            (planRetention (cache.index.records JE listing) cutoff gc.maxBytes)⟩) := by
      intro liveChunks h
      simp only [pass, CacheGc.run, hcut, sweep, h]
      exact ⟨_, rfl⟩
    generalize cache.index.records JE listing = records at hrecords htotal hrun
    obtain ⟨sorted, hev⟩ := evictOverCap_spec gc.maxBytes
      ((totalOf_sublist List.filter_sublist).trans_lt htotal)
    generalize hkept : (evictOverCap (records.filter fun r => ¬ r.entry.createdAt < cutoff)
      gc.maxBytes).1 = kept at hev
    have halive : ∀ r ∈ kept, r ∈ records ∧ cutoff ≤ r.entry.createdAt := by
      intro r hr
      have hr := hev.perm.subset (List.mem_of_mem_drop (hev.kept.subset hr))
      obtain ⟨hr, hfresh⟩ := List.mem_filter.mp hr
      exact ⟨hr, not_lt.mp (of_decide_eq_true hfresh)⟩
    have hindex := entries_rewriteGroups_plan hrecords cutoff gc.maxBytes hkept.symm
      fun r hr => (halive r hr).1
    have hgroup := group_planRetention records cutoff gc.maxBytes
    generalize planRetention records cutoff gc.maxBytes = retention at hindex hgroup hrun
    generalize rewriteGroups JE cache.index records retention = index at hindex hrun
    -- every entry kept was complete before
    have hwas : ∀ k, ∀ e ∈ entriesOf kept k, cache.store.Complete D JM e := by
      intro k e he
      obtain ⟨r, hr, rfl, rfl⟩ := mem_entriesOf.mp he
      exact hcomplete r.log _ (hrecords r.log ▸ mem_entriesOf.mpr ⟨r, (halive r hr).1, rfl, rfl⟩)
    generalize marking retention.liveManifests = mark at hrun
    have hlive : ∀ mid, mid ∈ mark.order ↔ ∃ k, ∃ e ∈ entriesOf kept k, e.manifest = mid := by
      intro mid
      rw [← List.mem_toFinset, mark.toFinset_eq, mem_liveManifests]
      simp only [hgroup, hkept]
    have hloads : ∀ mid ∈ mark.order, ∃ m, cache.store.getManifest D JM mid = .ok m := by
      intro mid hmid
      obtain ⟨k, e, he, rfl⟩ := (hlive mid).mp hmid
      obtain ⟨m, hm, -⟩ := hwas k e he
      exact ⟨m, hm⟩
    obtain ⟨liveChunks, hchunks, hiff⟩ := markChunks_spec hloads ∅
    have hblobs := blobs_sweepFiles cache.store mark.order.toFinset liveChunks leases
    have hmanifest : ∀ k, ∀ e ∈ entriesOf kept k,
        (sweepFiles cache.store mark.order.toFinset liveChunks leases).2.getManifest D JM
          e.manifest = cache.store.getManifest D JM e.manifest := by
      intro k e he
      exact getManifest_sweepFiles _ _ _ _ _ (List.mem_toFinset.mpr ((hlive _).mpr ⟨k, e, he, rfl⟩))
    obtain ⟨report, hrun⟩ := hrun liveChunks hchunks
    generalize (sweepFiles cache.store mark.order.toFinset liveChunks leases).2 = swept
      at hblobs hmanifest hrun
    -- a chunk is live when an entry that was kept references it, before the sweep as after
    have hreferenced : ∀ c, c ∈ liveChunks ↔
        ∃ k, ∃ e ∈ entriesOf kept k, swept.References D JM e.manifest c := by
      intro c
      rw [hiff]
      simp only [Finset.notMem_empty, false_or, hlive]
      constructor
      · rintro ⟨mid, ⟨k, e, he, rfl⟩, m, hm, hc⟩
        exact ⟨k, e, he, m, (hmanifest k e he).trans hm, hc⟩
      · rintro ⟨k, e, he, m, hm, hc⟩
        exact ⟨e.manifest, ⟨k, e, he, rfl⟩, m, (hmanifest k e he).symm.trans hm, hc⟩
    rw [hrun]
    refine ⟨fun httl => ?_, fun cutoff' hcut' => ⟨⟨_, rfl⟩, ?_⟩⟩
    · rw [cutoffOf, if_pos httl] at hcut
      cases hcut
    obtain rfl : cutoff = cutoff' := Except.ok.inj hcut'
    refine ⟨fun k e he => ?_, fun k e he => ?_, ?_, ⟨sorted, _, hev.byAge, fun k => ?_, fun k => ?_,
      hev.shortest⟩, fun c bytes => ?_⟩
    · rw [hindex] at he
      obtain ⟨m, hm, hall⟩ := hwas k e he
      refine ⟨m, (hmanifest k e he).trans hm, fun c hc => ?_⟩
      obtain ⟨bytes, hbytes⟩ := Finmap.mem_iff.mp (hall c hc)
      have hc : c ∈ liveChunks := (hreferenced c).mpr ⟨k, e, he, m, (hmanifest k e he).trans hm, hc⟩
      exact Finmap.mem_of_lookup_eq_some ((hblobs c bytes).mpr ⟨hbytes, .inl hc⟩)
    · rw [hindex] at he
      obtain ⟨r, hr, -, rfl⟩ := mem_entriesOf.mp he
      exact (halive r hr).2
    · rw [totalSize_eq fun k => .of_eq (hindex k).symm, totalOf_perm hev.kept]
      exact hev.fits
    · rw [← hrecords, ← entriesOf_filter]
      refine (entriesOf_perm hev.perm k).trans (.of_eq ?_)
      simp only [not_lt]
    · rw [hindex]
      exact entriesOf_perm hev.kept k
    · rw [hblobs, hreferenced]
      simp only [hindex]

/-! ### A concrete cache -/

/-- The manifest's name under `contentDigest`. -/
def sampleMid : Bytes := contentDigest.hash (sampleJson.toVec sampleManifest)

def sampleEntry (key : String) (createdAt : DateTime) : IndexEntry Bytes :=
  ⟨key, sampleMid, 3, createdAt⟩

/-- An entry's line, with its time already written out. -/
def sampleText (key createdAt : String) : Bytes :=
  asciiBytes "\x7b\"key\":\"" ++ asciiBytes key ++ asciiBytes "\",\"manifest\":\"" ++
    hexBytes sampleMid ++ asciiBytes "\",\"size_bytes\":3,\"created_at\":\"" ++
    asciiBytes createdAt ++ asciiBytes "\"\x7d"

instance encodableString : Encodable String :=
  Encodable.ofLeftInverse (fun s => s.toList.map Char.toNat)
    (fun ns => String.ofList (ns.map Char.ofNat)) fun s => by simp [Function.comp_def]

instance encodableIndexEntry : Encodable (IndexEntry Bytes) :=
  Encodable.ofLeftInverse (α := String × Bytes × ℕ × ℤ)
    (fun e => (e.key, e.manifest, e.sizeBytes.toNat, e.createdAt))
    (fun p => ⟨p.1, p.2.1, BitVec.ofNat 64 p.2.2.1, p.2.2.2⟩) (fun e => by simp)

/-- The codec that writes an entry of the first and one of the eleventh day of 1970 as their
    lines. -/
def sampleLines : LineSerde (IndexEntry Bytes) :=
  LineSerde.writing [(sampleEntry "old" 0, sampleText "old" "1970-01-01T00:00:00Z"),
    (sampleEntry "new" (10 * nanosPerDay), sampleText "new" "1970-01-11T00:00:00Z")]
    (by decide +kernel) (by decide +kernel)

/-- Two entries of one manifest, its two chunks, and a chunk that belongs to nothing. -/
def sampleCache : CacheDir Bytes where
  store := ⟨((∅ : Files Bytes).insert [1, 2] [1, 2]).insert [3] [3] |>.insert [9] [9],
    (∅ : Files Bytes).insert sampleMid (sampleJson.toVec sampleManifest)⟩
  index := (CacheIndex.empty.insert sampleLines "s" "v" (sampleEntry "old" 0)).insert sampleLines
    "s" "v" (sampleEntry "new" (10 * nanosPerDay))

theorem entries_sampleCache (k : LogKey) :
    sampleCache.index.entries sampleLines k =
      if k = ("s", "v") then [sampleEntry "old" 0, sampleEntry "new" (10 * nanosPerDay)] else [] := by
  have hempty : CacheIndex.empty.Terminated := fun _ => .inl rfl
  rw [sampleCache, CacheIndex.entries_insert (CacheIndex.terminated_insert hempty _ _ _ _),
    CacheIndex.entries_insert hempty]
  by_cases hk : k = ("s", "v")
  · simp only [if_pos hk]
    rfl
  · simp only [if_neg hk]
    rfl

theorem sampleCache_complete (k : LogKey) :
    ∀ e ∈ sampleCache.index.entries sampleLines k,
      sampleCache.store.Complete contentDigest sampleJson e := by
  intro e he
  have hmid : e.manifest = sampleMid := by
    rw [entries_sampleCache] at he
    split at he
    · simp only [List.mem_cons, List.not_mem_nil, or_false] at he
      rcases he with rfl | rfl <;> rfl
    · cases he
  refine ⟨sampleManifest, ?_, by decide⟩
  rw [hmid]
  exact CasStore.getManifest_of_lookup (Finmap.lookup_insert _)

theorem sampleCache_visible (k : LogKey) (h : sampleCache.index.entries sampleLines k ≠ []) :
    CacheIndex.Visible k := by
  rw [entries_sampleCache] at h
  split at h
  case isTrue hk => subst hk; decide
  case isFalse => exact absurd rfl h

theorem sampleCache_totalSize : sampleCache.index.totalSize sampleLines = 6 := by
  have hkeys : sampleCache.index.logs.keys = {("s", "v")} := by decide
  rw [CacheIndex.totalSize, hkeys, Finset.sum_singleton, entries_sampleCache, if_pos rfl]
  rfl

def sampleListing : sampleCache.index.Listing where
  order := [("s", "v")]
  nodup := List.nodup_singleton _
  mem_iff k := by
    have hkeys : sampleCache.index.logs.keys = {("s", "v")} := by decide
    rw [← Finmap.mem_keys, hkeys, Finset.mem_singleton, List.mem_singleton]
    constructor
    · rintro rfl
      decide
    · exact And.left

noncomputable def sampleMarking (live : Finset Bytes) : MarkOrder live where
  order := live.toList
  toFinset_eq := Finset.toList_toFinset live

/-- On the eleventh day, with a TTL of seven: the old entry goes, the manifest they share stays. -/
theorem CacheGc.run_spec_sample :
    let pass := CacheGc.run ⟨7, 3⟩ contentDigest sampleJson sampleLines ⟨∅⟩
      (10 * nanosPerDay) sampleCache sampleListing sampleMarking
    (∃ report, pass.1 = .ok report) ∧ Collected contentDigest sampleJson sampleLines 3 ⟨∅⟩
      (3 * nanosPerDay) sampleCache pass.2 := by
  have hsize : sampleCache.index.totalSize sampleLines < 2 ^ 64 := by
    rw [sampleCache_totalSize]
    decide
  have hcut : cutoffOf 7 (10 * nanosPerDay) = .ok (3 * nanosPerDay) := by
    simp [cutoffOf, maxDurationDays, nanosPerDay, minUtc]
  exact (CacheGc.run_spec ⟨7, 3⟩ contentDigest sampleJson sampleLines ⟨∅⟩ (10 * nanosPerDay)
    sampleCache_complete sampleCache_visible hsize sampleListing sampleMarking).2 _ hcut

/-- A TTL of `2^63` days fails the pass: an index over the cap stays as it is. -/
theorem ttl_overflow_evicts_nothing :
    (∀ k, ∀ e ∈ sampleCache.index.entries sampleLines k,
      sampleCache.store.Complete contentDigest sampleJson e) ∧
    (∀ k, sampleCache.index.entries sampleLines k ≠ [] → CacheIndex.Visible k) ∧
    sampleCache.index.totalSize sampleLines < 2 ^ 64 ∧
    let pass := CacheGc.run ⟨BitVec.ofNat 64 (2 ^ 63), 3⟩ contentDigest sampleJson sampleLines ⟨∅⟩
      (10 * nanosPerDay) sampleCache sampleListing sampleMarking
    pass.1 = .error (.error
      (.cache "ttl_days overflow: out of range integral type conversion attempted")) ∧
      ¬ pass.2.index.totalSize sampleLines ≤ 3 := by
  have hsize := sampleCache_totalSize
  refine ⟨sampleCache_complete, sampleCache_visible, by rw [hsize]; decide, ?_⟩
  have hcut : cutoffOf (BitVec.ofNat 64 (2 ^ 63)) (10 * nanosPerDay) = .error (.error
      (.cache "ttl_days overflow: out of range integral type conversion attempted")) := by
    simp [cutoffOf]
  simp only [CacheGc.run, hcut, hsize]
  exact ⟨trivial, by decide⟩

end GhRunner.Cache
