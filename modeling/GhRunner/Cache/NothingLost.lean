import GhRunner.Cache.Shared

namespace GhRunner.Cache

open Machine

/-!
# What finalizations and a collector may do to each other

The collector reads a log and rewrites it later, and marks what is live before it deletes; an
upload reuses the chunks it finds and points at them only at its end.  Apart from the steps that
fall into these windows nothing is lost.

* `SharedCache.StepOk` — the step does not fall into a window;
* `SharedCache.Ok` — the invariant: every inserted entry is in the index or was chosen to go, every
  entry in the index is complete, and what the uploads and the collector rely on is there;
* `nothing_lost` — the run theorem;
* `rewrite_loses_insert` — a run that falls into a window.

An append to a log is one step, and so is a listing of the stored files.
-/

variable {Id : Type} [DecidableEq Id]

/-! ### The steps that fall into a window -/

namespace Finalization

/-- The chunks the upload has stored or found stored. -/
def chunkIds : Finalization Id → List Id
  | .ingesting _ _ chunks _ => chunks.map (·.id)
  | .puttingManifest _ m | .inserting _ m _ => m.chunks.map (·.id)

/-- The manifest it has stored or found stored. -/
def manifestId : Finalization Id → Option Id
  | .inserting _ _ mid => some mid
  | .ingesting _ _ _ _ | .puttingManifest _ _ => none

end Finalization

instance (s : CasStore Id) (D : Digest Id) (J : Serde (Manifest Id)) (mid c : Id) :
    Decidable (s.References D J mid c) :=
  match h : s.getManifest D J mid with
  | .ok m => decidable_of_iff (c ∈ m.chunks.map (·.id))
      ⟨fun hc => ⟨m, h, hc⟩, fun ⟨m', hm', hc⟩ => by
        rw [h] at hm'
        exact Except.ok.inj hm' ▸ hc⟩
  | .error e => .isFalse fun ⟨m', hm', _⟩ => by
      rw [h] at hm'
      cases hm'

namespace SharedCache

/-- The collector has read entries of the log and not rewritten it yet. -/
def Pending (s : SharedCache Id) (k : LogKey) : Prop :=
  match s.gc with
  | .reading _ _ _ _ records => k ∈ records.map (·.log)
  | .rewriting _ todo => k ∈ todo
  | _ => False

instance (s : SharedCache Id) (k : LogKey) : Decidable (s.Pending k) := by
  unfold Pending; split <;> infer_instance

/-- No upload in flight has the property. -/
def NoUpload (s : SharedCache Id) (P : Finalization Id → Prop) : Prop :=
  ∀ i ∈ s.uploads.keys, ∀ f ∈ s.uploads.lookup i, ¬ P f

/-- No entry of the index that the pass did not retain has the property: neither one inserted since
    it read the log nor one in a log it cannot find. -/
def NoOther (s : SharedCache Id) (JE : LineSerde (IndexEntry Id)) (retention : Retention Id)
    (P : IndexEntry Id → Prop) : Prop :=
  ∀ k ∈ s.index.logs.keys, ∀ e ∈ s.index.entries JE k, e ∉ retention.group k → ¬ P e

instance (s : SharedCache Id) (P : Finalization Id → Prop) [DecidablePred P] :
    Decidable (s.NoUpload P) :=
  inferInstanceAs (Decidable (∀ i ∈ s.uploads.keys, ∀ f ∈ s.uploads.lookup i, ¬ P f))

instance (s : SharedCache Id) (JE : LineSerde (IndexEntry Id)) (retention : Retention Id)
    (P : IndexEntry Id → Prop) [DecidablePred P] : Decidable (s.NoOther JE retention P) :=
  inferInstanceAs (Decidable (∀ k ∈ s.index.logs.keys, ∀ e ∈ s.index.entries JE k,
    e ∉ retention.group k → ¬ P e))

/-- The next operation of the upload is not an insert into such a log. -/
def InsertOk (s : SharedCache Id) : Finalization Id → Prop
  | .inserting req _ _ => ¬ s.Pending req.log
  | .ingesting _ _ _ _ | .puttingManifest _ _ => True

instance (s : SharedCache Id) : DecidablePred s.InsertOk := fun f => by
  unfold InsertOk; split <;> infer_instance

/-- The step is none of these:
    * an insert into a log that the collector has read and is about to overwrite;
    * the deletion of a manifest, or of a chunk, that an upload in flight has stored or reused, or
      that an entry the pass did not retain points at. -/
def StepOk (D : Digest Id) (JM : Serde (Manifest Id)) (JE : LineSerde (IndexEntry Id))
    (s : SharedCache Id) : CacheEvent Id → Prop
  | .finalize i _ => ∀ f ∈ s.uploads.lookup i, s.InsertOk f
  | .gcSweepManifest mid =>
    match s.gc with
    | .sweepingManifests retention _ todo => mid ∈ todo → mid ∉ retention.liveManifests →
        s.NoUpload (fun f => f.manifestId = some mid) ∧
          s.NoOther JE retention fun e => e.manifest = mid
    | _ => True
  | .gcSweepChunk c leased =>
    match s.gc with
    | .sweepingChunks retention liveChunks todo => c ∈ todo → ¬ (c ∈ liveChunks ∨ leased = true) →
        s.NoUpload (fun f => c ∈ f.chunkIds) ∧
          s.NoOther JE retention fun e => s.store.References D JM e.manifest c
    | _ => True
  | _ => True

instance (D : Digest Id) (JM : Serde (Manifest Id)) (JE : LineSerde (IndexEntry Id))
    (s : SharedCache Id) (e : CacheEvent Id) : Decidable (s.StepOk D JM JE e) := by
  unfold StepOk
  split
  · infer_instance
  · split <;> infer_instance
  · split <;> infer_instance
  · infer_instance

end SharedCache

/-! ### Files that are only added -/

/-- Every file of `s` is there unchanged. -/
structure CasStore.Grows (s s' : CasStore Id) : Prop where
  blobs : ∀ id bytes, s.blobs.lookup id = some bytes → s'.blobs.lookup id = some bytes
  manifests : ∀ id bytes, s.manifests.lookup id = some bytes → s'.manifests.lookup id = some bytes

theorem CasStore.Grows.refl (s : CasStore Id) : s.Grows s := ⟨fun _ _ h => h, fun _ _ h => h⟩

theorem CasStore.getManifest_congr {s s' : CasStore Id} {D : Digest Id} {J : Serde (Manifest Id)}
    {mid : Id} (h : s'.manifests.lookup mid = s.manifests.lookup mid) :
    s'.getManifest D J mid = s.getManifest D J mid := by
  unfold getManifest readVerified
  rw [h]

theorem CasStore.getManifest_lookup {s : CasStore Id} {D : Digest Id} {J : Serde (Manifest Id)}
    {mid : Id} {m : Manifest Id} (h : s.getManifest D J mid = .ok m) :
    ∃ bytes, s.manifests.lookup mid = some bytes := by
  cases hlook : s.manifests.lookup mid with
  | none =>
    simp only [getManifest, readVerified, hlook] at h
    cases h
  | some bytes => exact ⟨bytes, rfl⟩

theorem CasStore.Grows.getManifest {s s' : CasStore Id} (h : s.Grows s') {D : Digest Id}
    {J : Serde (Manifest Id)} {mid : Id} {m : Manifest Id} (hm : s.getManifest D J mid = .ok m) :
    s'.getManifest D J mid = .ok m := by
  obtain ⟨bytes, hbytes⟩ := CasStore.getManifest_lookup hm
  rw [CasStore.getManifest_congr ((h.manifests mid bytes hbytes).trans hbytes.symm), hm]

theorem CasStore.Grows.mem_blobs {s s' : CasStore Id} (h : s.Grows s') {c : Id}
    (hc : c ∈ s.blobs) : c ∈ s'.blobs := by
  obtain ⟨bytes, hbytes⟩ := Finmap.mem_iff.mp hc
  exact Finmap.mem_of_lookup_eq_some (h.blobs c bytes hbytes)

theorem CasStore.Grows.complete {s s' : CasStore Id} (h : s.Grows s') {D : Digest Id}
    {J : Serde (Manifest Id)} {e : IndexEntry Id} (he : s.Complete D J e) : s'.Complete D J e := by
  obtain ⟨m, hm, hall⟩ := he
  exact ⟨m, h.getManifest hm, fun c hc => h.mem_blobs (hall c hc)⟩

theorem CasStore.grows_chunk (s : CasStore Id) (id : Id) (bytes : Bytes) :
    s.Grows { s with blobs := (writeAtomic s.blobs id bytes).2 } :=
  ⟨fun _ _ h => lookup_writeAtomic_of_some h _ _, fun _ _ h => h⟩

theorem CasStore.grows_putManifest (s : CasStore Id) (D : Digest Id) (J : Serde (Manifest Id))
    (m : Manifest Id) : s.Grows (s.putManifest D J m).2 :=
  ⟨fun _ _ h => h, fun _ _ h => lookup_writeAtomic_of_some h _ _⟩

/-! ### The invariant -/

/-- What an upload relies on is on disk. -/
structure Finalization.Ok (D : Digest Id) (J : Serde (Manifest Id)) (store : CasStore Id)
    (f : Finalization Id) : Prop where
  chunks : ∀ c ∈ f.chunkIds, c ∈ store.blobs
  manifest : ∀ req m mid, f = .inserting req m mid → store.getManifest D J mid = .ok m

/-- The manifest loads, and the marking has seen its chunks. -/
def CasStore.Marked (s : CasStore Id) (D : Digest Id) (J : Serde (Manifest Id))
    (liveChunks : Finset Id) (mid : Id) : Prop :=
  ∃ m, s.getManifest D J mid = .ok m ∧ ∀ c ∈ m.chunks.map (·.id), c ∈ liveChunks

namespace SharedCache

variable (D : Digest Id) (JM : Serde (Manifest Id)) (JE : LineSerde (IndexEntry Id))

/-- What the collector relies on. -/
def GcOk (s : SharedCache Id) : GcPhase Id → Prop
  | .idle => True
  | .reading _ _ _ done records => (∀ r ∈ records, r.log ∈ done) ∧
      ∀ k ∈ records.map (·.log), entriesOf records k = s.index.entries JE k
  | .rewriting retention todo => ∀ k ∈ todo,
      s.inserted k ≤ Multiset.ofList (retention.group k) + s.dropped k ∧
        ∀ e ∈ retention.group k, e ∈ s.index.entries JE k
  | .marking retention todo liveChunks => ∀ mid ∈ retention.liveManifests, mid ∉ todo →
      s.store.Marked D JM liveChunks mid
  | .sweepingManifests retention liveChunks _ | .sweepingChunks retention liveChunks _ =>
      ∀ mid ∈ retention.liveManifests, s.store.Marked D JM liveChunks mid

structure Ok (s : SharedCache Id) : Prop where
  intact : Files.Intact D s.store.manifests
  terminated : s.index.Terminated
  kept : ∀ k, s.inserted k ≤ Multiset.ofList (s.index.entries JE k) + s.dropped k
  complete : ∀ k, ∀ e ∈ s.index.entries JE k, s.store.Complete D JM e
  uploads : ∀ i f, s.uploads.lookup i = some f → f.Ok D JM s.store
  gc : s.GcOk D JM JE s.gc

variable {D JM JE}

/-- More files, with the index and the records of the past as they are, are as good. -/
theorem GcOk.grows {s s' : SharedCache Id} {phase : GcPhase Id} (h : s.GcOk D JM JE phase)
    (hstore : s.store.Grows s'.store) (hindex : s'.index = s.index)
    (hinserted : s'.inserted = s.inserted) (hdropped : s'.dropped = s.dropped) :
    s'.GcOk D JM JE phase := by
  have hmarked : ∀ {liveChunks : Finset Id} {mid : Id}, s.store.Marked D JM liveChunks mid →
      s'.store.Marked D JM liveChunks mid :=
    fun ⟨m, hm, hall⟩ => ⟨m, hstore.getManifest hm, hall⟩
  cases phase with
  | idle => trivial
  | reading cutoff maxBytes todo done records =>
    unfold GcOk
    rw [hindex]
    exact h
  | rewriting retention todo =>
    unfold GcOk
    rw [hindex, hinserted, hdropped]
    exact h
  | marking retention todo liveChunks => exact fun mid hmid htodo => hmarked (h mid hmid htodo)
  | sweepingManifests retention liveChunks todo => exact fun mid hmid => hmarked (h mid hmid)
  | sweepingChunks retention liveChunks todo => exact fun mid hmid => hmarked (h mid hmid)

theorem Ok.goto {s : SharedCache Id} (ok : s.Ok D JM JE) (i : ℕ) {f : Finalization Id}
    (hf : f.Ok D JM s.store) : (s.goto i f).Ok D JM JE where
  intact := ok.intact
  terminated := ok.terminated
  kept := ok.kept
  complete := ok.complete
  uploads k g hg := by
    by_cases hk : k = i
    · rw [SharedCache.goto, hk, Finmap.lookup_insert] at hg
      exact Option.some.inj hg ▸ hf
    · rw [SharedCache.goto, Finmap.lookup_insert_of_ne _ hk] at hg
      exact ok.uploads k g hg
  gc := ok.gc.grows (.refl _) rfl rfl rfl

theorem Ok.done {s : SharedCache Id} (ok : s.Ok D JM JE) (i : ℕ) : (s.done i).Ok D JM JE where
  intact := ok.intact
  terminated := ok.terminated
  kept := ok.kept
  complete := ok.complete
  uploads k g hg := by
    by_cases hk : k = i
    · rw [SharedCache.done, hk, Finmap.lookup_erase] at hg
      cases hg
    · rw [SharedCache.done, Finmap.lookup_erase_ne hk] at hg
      exact ok.uploads k g hg
  gc := ok.gc.grows (.refl _) rfl rfl rfl

/-- The collector moves on without touching anything. -/
theorem Ok.phase {s : SharedCache Id} (ok : s.Ok D JM JE) {phase : GcPhase Id}
    (h : s.GcOk D JM JE phase) : ({ s with gc := phase } : SharedCache Id).Ok D JM JE where
  intact := ok.intact
  terminated := ok.terminated
  kept := ok.kept
  complete := ok.complete
  uploads := ok.uploads
  gc := h.grows (.refl _) rfl rfl rfl

/-- Files were added. -/
theorem Ok.store {s : SharedCache Id} (ok : s.Ok D JM JE) {store : CasStore Id}
    (hgrows : s.store.Grows store) (hintact : Files.Intact D store.manifests) :
    ({ s with store := store } : SharedCache Id).Ok D JM JE where
  intact := hintact
  terminated := ok.terminated
  kept := ok.kept
  complete k e he := hgrows.complete (ok.complete k e he)
  uploads i f hf :=
    { chunks := fun c hc => hgrows.mem_blobs ((ok.uploads i f hf).chunks c hc)
      manifest := fun req m mid h => hgrows.getManifest ((ok.uploads i f hf).manifest req m mid h) }
  gc := ok.gc.grows hgrows rfl rfl rfl

/-! ### Uploads -/

/-- An insert outside the collector's window. -/
theorem Ok.insert {s : SharedCache Id} (ok : s.Ok D JM JE) {k : LogKey} (hk : ¬ s.Pending k)
    {entry : IndexEntry Id} (hentry : s.store.Complete D JM entry) :
    ({ s with
      index := s.index.insert JE k.1 k.2 entry
      inserted := Function.update s.inserted k (entry ::ₘ s.inserted k) } : SharedCache Id).Ok
        D JM JE := by
  have hentries := CacheIndex.entries_insert ok.terminated JE k.1 k.2 entry
  refine ⟨ok.intact, CacheIndex.terminated_insert ok.terminated JE _ _ _, fun j => ?_,
    fun j e he => ?_, ok.uploads, ?_⟩
  · have hj := ok.kept j
    show Function.update s.inserted k (entry ::ₘ s.inserted k) j ≤ _
    rw [hentries]
    by_cases hjk : j = k
    · subst hjk
      have hcons : (Multiset.ofList (s.index.entries JE j ++ [entry])) =
          entry ::ₘ Multiset.ofList (s.index.entries JE j) :=
        Multiset.coe_eq_coe.mpr (List.perm_append_singleton _ _)
      rw [Function.update_self, if_pos rfl, hcons, Multiset.cons_add]
      exact Multiset.cons_le_cons entry hj
    · rwa [Function.update_of_ne hjk, if_neg hjk]
  · rw [hentries] at he
    split at he
    · rcases List.mem_append.mp he with he | he
      · exact ok.complete j e he
      · rw [List.mem_singleton.mp he]
        exact hentry
    · exact ok.complete j e he
  · have hgc := ok.gc
    unfold Pending at hk
    cases hphase : s.gc with
    | idle => trivial
    | reading cutoff maxBytes todo done records =>
      rw [hphase] at hgc hk
      refine ⟨hgc.1, fun j hj => ?_⟩
      have hne : j ≠ k := fun h => hk (h ▸ hj)
      rw [hentries, if_neg hne]
      exact hgc.2 j hj
    | rewriting retention todo =>
      rw [hphase] at hgc hk
      intro j hj
      have hne : j ≠ k := fun h => hk (h ▸ hj)
      show Function.update s.inserted k (entry ::ₘ s.inserted k) j ≤ _ ∧ _
      rw [Function.update_of_ne hne, hentries, if_neg hne]
      exact hgc j hj
    | marking retention todo liveChunks =>
      rw [hphase] at hgc
      exact hgc
    | sweepingManifests retention liveChunks todo =>
      rw [hphase] at hgc
      exact hgc
    | sweepingChunks retention liveChunks todo =>
      rw [hphase] at hgc
      exact hgc

theorem Ok.finalizeStep {s : SharedCache Id} (hinj : Function.Injective D.hash)
    (ok : s.Ok D JM JE) (i : ℕ) (now : DateTime) {f : Finalization Id} (hf : f.Ok D JM s.store)
    (hok : s.InsertOk f) : (s.finalizeStep D JM JE i now f).Ok D JM JE := by
  match f, hf, hok with
  | .ingesting req (data :: rest) chunks total, hf, _ =>
    simp only [SharedCache.finalizeStep]
    split
    case isTrue =>
      have hgrows := s.store.grows_chunk (D.hash data) data
      refine (ok.store hgrows ok.intact).goto i ⟨fun c hc => ?_, fun _ _ _ h => by cases h⟩
      rw [Finalization.chunkIds, List.map_append, List.mem_append] at hc
      rcases hc with hc | hc
      · exact hgrows.mem_blobs (hf.chunks c hc)
      · exact mem_writeAtomic.mpr (.inl (by simpa using hc))
    case isFalse => exact ok.done i
  | .ingesting req [] chunks total, hf, _ =>
    simp only [SharedCache.finalizeStep]
    split
    case isTrue => exact ok.goto i ⟨hf.chunks, fun _ _ _ h => by cases h⟩
    case isFalse => exact ok.done i
  | .puttingManifest req m, hf, _ =>
    have hgrows := s.store.grows_putManifest D JM m
    have hintact : Files.Intact D (s.store.putManifest D JM m).2.manifests :=
      ok.intact.writeAtomic rfl
    refine (ok.store hgrows hintact).goto i
      ⟨fun c hc => hgrows.mem_blobs (hf.chunks c hc), fun req' m' mid' h => ?_⟩
    obtain ⟨-, rfl, rfl⟩ := Finalization.inserting.inj h
    exact CasStore.getManifest_of_lookup (hintact.lookup hinj (mem_writeAtomic.mpr (.inl rfl)))
  | .inserting req m mid, hf, hok =>
    have hentry : s.store.Complete D JM ⟨req.key, mid, req.sizeBytes, now⟩ :=
      ⟨m, hf.manifest req m mid rfl, hf.chunks⟩
    exact (ok.insert hok hentry).done i

/-! ### The collector -/

/-- A log is read. -/
theorem Ok.read {s : SharedCache Id} (ok : s.Ok D JM JE) {cutoff : DateTime} {maxBytes : U64}
    {todo done : Finset LogKey} {records : List (IndexRecord Id)}
    (hgc : s.gc = .reading cutoff maxBytes todo done records) {k : LogKey} (hk : k ∉ done) :
    ({ s with
      gc := .reading cutoff maxBytes (todo.erase k) (Insert.insert k done)
        (records ++ s.index.recordsOf JE k) } : SharedCache Id).Ok D JM JE := by
  have hphase := ok.gc
  rw [hgc] at hphase
  obtain ⟨hdone, hread⟩ := hphase
  have hlog : ∀ r ∈ s.index.recordsOf JE k, r.log = k := by
    intro r hr
    obtain ⟨e, -, rfl⟩ := List.mem_map.mp hr
    rfl
  refine ok.phase ⟨fun r hr => ?_, fun j hj => ?_⟩
  · rcases List.mem_append.mp hr with hr | hr
    · exact Finset.mem_insert_of_mem (hdone r hr)
    · exact hlog r hr ▸ Finset.mem_insert_self _ _
  · have hnew : entriesOf (s.index.recordsOf JE k) j =
        if k = j then s.index.entries JE k else [] := CacheIndex.filter_recordsOf _ _ _ _
    rw [entriesOf_append, hnew]
    by_cases hjk : k = j
    · subst hjk
      have hnone : k ∉ records.map (·.log) := by
        intro h
        obtain ⟨r, hr, rfl⟩ := List.mem_map.mp h
        exact hk (hdone r hr)
      rw [entriesOf_eq_nil hnone, if_pos rfl, List.nil_append]
    · rw [if_neg hjk, List.append_nil]
      rw [List.map_append, List.mem_append] at hj
      rcases hj with hj | hj
      · exact hread j hj
      · obtain ⟨r, hr, rfl⟩ := List.mem_map.mp hj
        exact absurd (hlog r hr).symm hjk

/-- The survivors are chosen. -/
theorem Ok.choose {s : SharedCache Id} (ok : s.Ok D JM JE) {cutoff : DateTime} {maxBytes : U64}
    {todo done : Finset LogKey} {records : List (IndexRecord Id)}
    (hgc : s.gc = .reading cutoff maxBytes todo done records) :
    (s.choose records (planRetention records cutoff maxBytes)).Ok D JM JE := by
  have hphase := ok.gc
  rw [hgc] at hphase
  obtain ⟨-, hread⟩ := hphase
  have hgroup := group_planRetention records cutoff maxBytes
  refine ⟨ok.intact, ok.terminated, fun k => ?_, ok.complete, ok.uploads, fun k hk => ⟨?_, ?_⟩⟩
  · refine (ok.kept k).trans (add_le_add_right ?_ _)
    exact Multiset.le_add_right _ _
  · have hentries := hread k (List.mem_toFinset.mp hk)
    set group := Multiset.ofList ((planRetention records cutoff maxBytes).group k)
    set read := Multiset.ofList (entriesOf records k) with hreadk
    calc s.inserted k ≤ read + s.dropped k := by rw [hreadk, hentries]; exact ok.kept k
      _ ≤ (group + (read - group)) + s.dropped k := add_le_add_left le_add_tsub _
      _ = group + (s.dropped k + (read - group)) := by rw [add_assoc, add_comm (read - group)]
  · intro e he
    have hentries := hread k (List.mem_toFinset.mp hk)
    rw [hgroup] at he
    obtain ⟨r, hr, rfl, rfl⟩ := mem_entriesOf.mp he
    have hr := (List.mem_filter.mp (evictOverCap_subset _ _ hr)).1
    show r.entry ∈ s.index.entries JE r.log
    rw [← hentries]
    exact mem_entriesOf.mpr ⟨r, hr, rfl, rfl⟩

/-- A log is rewritten to its retained entries. -/
theorem Ok.rewrite {s : SharedCache Id} (ok : s.Ok D JM JE) {retention : Retention Id}
    {todo : Finset LogKey} (hgc : s.gc = .rewriting retention todo) {k : LogKey} (hk : k ∈ todo) :
    ({ s with
      index := s.index.rewrite JE k (retention.group k)
      gc := .rewriting retention (todo.erase k) } : SharedCache Id).Ok D JM JE := by
  have hphase := ok.gc
  rw [hgc] at hphase
  have hentries := CacheIndex.entries_rewrite s.index JE k (retention.group k)
  refine ⟨ok.intact, CacheIndex.terminated_rewrite ok.terminated JE _ _, fun j => ?_,
    fun j e he => ?_, ok.uploads, fun j hj => ?_⟩
  · show s.inserted j ≤ _
    rw [hentries]
    by_cases hj : j = k
    · rw [if_pos hj, hj]
      exact (hphase k hk).1
    · rw [if_neg hj]
      exact ok.kept j
  · rw [hentries] at he
    split at he
    case isTrue hj => exact ok.complete k e ((hphase k hk).2 e he)
    case isFalse => exact ok.complete j e he
  · obtain ⟨hj, htodo⟩ := Finset.mem_erase.mp hj
    refine ⟨(hphase j htodo).1, fun e he => ?_⟩
    rw [hentries, if_neg hj]
    exact (hphase j htodo).2 e he

/-- A live manifest is loaded. -/
theorem Ok.mark {s : SharedCache Id} (ok : s.Ok D JM JE) {retention : Retention Id}
    {todo liveChunks : Finset Id} (hgc : s.gc = .marking retention todo liveChunks) {mid : Id}
    {m : Manifest Id} (hm : s.store.getManifest D JM mid = .ok m) :
    ({ s with
      gc := .marking retention (todo.erase mid)
        (liveChunks ∪ (m.chunks.map (·.id)).toFinset) } : SharedCache Id).Ok D JM JE := by
  have hphase := ok.gc
  rw [hgc] at hphase
  refine ok.phase fun mid' hlive htodo => ?_
  by_cases hmid : mid' = mid
  · subst hmid
    exact ⟨m, hm, fun c hc => Finset.mem_union_right _ (List.mem_toFinset.mpr hc)⟩
  · have hold : mid' ∉ todo := fun h => htodo (Finset.mem_erase.mpr ⟨hmid, h⟩)
    obtain ⟨m', hm', hall⟩ := hphase mid' hlive hold
    exact ⟨m', hm', fun c hc => Finset.mem_union_left _ (hall c hc)⟩

omit [DecidableEq Id] in
/-- Every entry of the index has the property if the retained and the other ones have. -/
theorem NoOther.forall {s : SharedCache Id} {retention : Retention Id} {P : IndexEntry Id → Prop}
    (h : s.NoOther JE retention P) (hretained : ∀ k, ∀ e ∈ retention.group k, ¬ P e) (k : LogKey) :
    ∀ e ∈ s.index.entries JE k, ¬ P e := by
  intro e he
  by_cases hgroup : e ∈ retention.group k
  · exact hretained k e hgroup
  · refine h k ?_ e he hgroup
    rw [Finmap.mem_keys]
    by_contra hk
    rw [CacheIndex.entries_of_notMem JE hk] at he
    cases he

omit [DecidableEq Id] in
theorem NoUpload.forall {s : SharedCache Id} {P : Finalization Id → Prop} (h : s.NoUpload P) {i : ℕ}
    {f : Finalization Id} (hf : s.uploads.lookup i = some f) : ¬ P f :=
  h i (Finmap.mem_keys.mpr (Finmap.mem_of_lookup_eq_some hf)) f hf

/-- A manifest that nothing needs is deleted. -/
theorem Ok.deleteManifest {s : SharedCache Id} (ok : s.Ok D JM JE) {retention : Retention Id}
    {liveChunks todo : Finset Id} (hgc : s.gc = .sweepingManifests retention liveChunks todo)
    {mid : Id} (hlive : mid ∉ retention.liveManifests)
    (hupload : s.NoUpload fun f => f.manifestId = some mid)
    (hother : s.NoOther JE retention fun e => e.manifest = mid) :
    ({ s with store := s.store.deleteManifest mid } : SharedCache Id).Ok D JM JE := by
  have hsame : ∀ mid', mid' ≠ mid →
      (s.store.deleteManifest mid).getManifest D JM mid' = s.store.getManifest D JM mid' :=
    fun mid' hne => CasStore.getManifest_congr (Finmap.lookup_erase_ne hne)
  have hentries := hother.forall fun k e he hmid =>
    hlive (mem_liveManifests.mpr ⟨k, e, he, hmid⟩)
  refine ⟨ok.intact.erase mid, ok.terminated, ok.kept, fun k e he => ?_, fun i f hf => ?_, ?_⟩
  · obtain ⟨m, hm, hall⟩ := ok.complete k e he
    exact ⟨m, (hsame _ (hentries k e he)).trans hm, hall⟩
  · refine ⟨(ok.uploads i f hf).chunks, fun req m mid' h => ?_⟩
    have hne : mid' ≠ mid := by
      rintro rfl
      exact hupload.forall hf (by rw [h]; rfl)
    exact (hsame _ hne).trans ((ok.uploads i f hf).manifest req m mid' h)
  · have hphase := ok.gc
    rw [hgc] at hphase
    show GcOk D JM JE _ s.gc
    rw [hgc]
    intro mid' hmid'
    have hne : mid' ≠ mid := fun h => hlive (h ▸ hmid')
    obtain ⟨m, hm, hall⟩ := hphase mid' hmid'
    exact ⟨m, (hsame _ hne).trans hm, hall⟩

/-- A chunk that nothing needs is deleted. -/
theorem Ok.deleteChunk {s : SharedCache Id} (ok : s.Ok D JM JE) {retention : Retention Id}
    {liveChunks todo : Finset Id} (hgc : s.gc = .sweepingChunks retention liveChunks todo)
    {c : Id} (hlive : c ∉ liveChunks) (hupload : s.NoUpload fun f => c ∈ f.chunkIds)
    (hother : s.NoOther JE retention fun e => s.store.References D JM e.manifest c) :
    ({ s with store := s.store.deleteChunk c } : SharedCache Id).Ok D JM JE := by
  have hphase := ok.gc
  rw [hgc] at hphase
  have hkeep : ∀ c', c' ≠ c → c' ∈ s.store.blobs → c' ∈ (s.store.deleteChunk c).blobs :=
    fun c' hne hc' => Finmap.mem_erase.mpr ⟨hne, hc'⟩
  have hentries := hother.forall fun k e he ⟨m, hm, hc⟩ => by
    obtain ⟨m', hm', hall⟩ := hphase e.manifest (mem_liveManifests.mpr ⟨k, e, he, rfl⟩)
    obtain rfl : m = m' := Except.ok.inj (hm.symm.trans hm')
    exact hlive (hall c hc)
  refine ⟨ok.intact, ok.terminated, ok.kept, fun k e he => ?_, fun i f hf => ?_, ?_⟩
  · obtain ⟨m, hm, hall⟩ := ok.complete k e he
    refine ⟨m, hm, fun c' hc' => hkeep c' ?_ (hall c' hc')⟩
    rintro rfl
    exact hentries k e he ⟨m, hm, hc'⟩
  · refine ⟨fun c' hc' => hkeep c' ?_ ((ok.uploads i f hf).chunks c' hc'),
      (ok.uploads i f hf).manifest⟩
    rintro rfl
    exact hupload.forall hf hc'
  · show GcOk D JM JE _ s.gc
    rw [hgc]
    exact hphase

/-- The loop in progress has come to its end. -/
theorem Ok.next {s : SharedCache Id} (ok : s.Ok D JM JE) :
    (s.step D JM JE .gcNext).Ok D JM JE := by
  have hphase := ok.gc
  simp only [SharedCache.step]
  cases hgc : s.gc with
  | idle => exact ok
  | reading cutoff maxBytes todo done records => exact ok
  | rewriting retention todo =>
    dsimp only
    split
    case isTrue => exact ok.phase fun mid hlive hmid => absurd hlive hmid
    case isFalse => exact ok
  | marking retention todo liveChunks =>
    dsimp only
    rw [hgc] at hphase
    split
    case isTrue hdone =>
      refine ok.phase fun mid hlive => hphase mid hlive ?_
      rw [hdone]
      exact Finset.notMem_empty mid
    case isFalse => exact ok
  | sweepingManifests retention liveChunks todo =>
    dsimp only
    rw [hgc] at hphase
    split
    case isTrue => exact ok.phase hphase
    case isFalse => exact ok
  | sweepingChunks retention liveChunks todo =>
    dsimp only
    split
    case isTrue => exact ok.phase trivial
    case isFalse => exact ok

/-- What falls into no window keeps the invariant. -/
theorem Ok.step {s : SharedCache Id} (hinj : Function.Injective D.hash) (ok : s.Ok D JM JE)
    {e : CacheEvent Id} (he : s.StepOk D JM JE e) : (s.step D JM JE e).Ok D JM JE := by
  cases e with
  | beginFinalize i req parts =>
    simp only [SharedCache.step]
    split
    case isTrue => exact ok
    case isFalse => exact ok.goto i ⟨fun c hc => absurd hc List.not_mem_nil, fun _ _ _ h => by cases h⟩
  | finalize i now =>
    simp only [SharedCache.step]
    cases hf : s.uploads.lookup i with
    | none => exact ok
    | some f => exact ok.finalizeStep hinj i now (ok.uploads i f hf) (he f hf)
  | gcBegin gc now =>
    simp only [SharedCache.step]
    split
    case h_1 =>
      exact ok.phase ⟨fun r hr => absurd hr List.not_mem_nil, fun k hk => absurd hk List.not_mem_nil⟩
    case h_2 => exact ok
  | gcRead k =>
    simp only [SharedCache.step]
    split
    case h_1 hgc =>
      split
      case isTrue hk => exact ok.read hgc hk.2.2
      case isFalse => exact ok
    case h_2 => exact ok
  | gcChoose =>
    simp only [SharedCache.step]
    split
    case h_1 hgc =>
      split
      case isTrue => exact ok.choose hgc
      case isFalse => exact ok
    case h_2 => exact ok
  | gcRewrite k =>
    simp only [SharedCache.step]
    split
    case h_1 hgc =>
      split
      case isTrue hk => exact ok.rewrite hgc hk
      case isFalse => exact ok
    case h_2 => exact ok
  | gcMark mid =>
    simp only [SharedCache.step]
    split
    case h_1 hgc =>
      split
      case isTrue =>
        split
        case h_1 hm => exact ok.mark hgc hm
        case h_2 => exact ok.phase trivial
      case isFalse => exact ok
    case h_2 => exact ok
  | gcSweepManifest mid =>
    simp only [SharedCache.step]
    split
    case h_1 retention liveChunks todo hgc =>
      split
      case isTrue hmid =>
        split
        case isTrue =>
          have hphase := ok.gc
          rw [hgc] at hphase
          exact ok.phase hphase
        case isFalse hlive =>
          simp only [StepOk, hgc] at he
          obtain ⟨hupload, hother⟩ := he hmid hlive
          have ok := ok.deleteManifest hgc hlive hupload hother
          have hphase := ok.gc
          rw [show ({ s with store := _ } : SharedCache Id).gc = _ from hgc] at hphase
          exact ok.phase hphase
      case isFalse => exact ok
    case h_2 => exact ok
  | gcSweepChunk c leased =>
    simp only [SharedCache.step]
    split
    case h_1 retention liveChunks todo hgc =>
      split
      case isTrue hc =>
        split
        case isTrue =>
          have hphase := ok.gc
          rw [hgc] at hphase
          exact ok.phase hphase
        case isFalse hlive =>
          simp only [StepOk, hgc] at he
          obtain ⟨hupload, hother⟩ := he hc hlive
          have ok := ok.deleteChunk hgc (fun h => hlive (.inl h)) hupload hother
          have hphase := ok.gc
          rw [show ({ s with store := _ } : SharedCache Id).gc = _ from hgc] at hphase
          exact ok.phase hphase
      case isFalse => exact ok
    case h_2 => exact ok
  | gcNext => exact ok.next

theorem Ok.empty : (SharedCache.empty : SharedCache Id).Ok D JM JE where
  intact := Files.Intact.empty D
  terminated _ := .inl rfl
  kept k := Multiset.zero_le _
  complete k e he := absurd he List.not_mem_nil
  uploads i f hf := by
    rw [SharedCache.empty, Finmap.lookup_empty] at hf
    cases hf
  gc := trivial

/-! ### Runs -/

/-- **Nothing is lost outside the windows.**  Start with an empty cache and interleave the file
    operations of any number of uploads with those of any number of passes, one after the other.
    If no step falls into a window, then afterwards every entry inserted is in the index unless the
    collector chose to drop it, and every entry in the index has its manifest and all its chunks. -/
theorem nothing_lost {D : Digest Id} (hinj : Function.Injective D.hash) (JM : Serde (Manifest Id))
    (JE : LineSerde (IndexEntry Id)) (es : List (CacheEvent Id))
    (hes : Throughout (SharedCache.step D JM JE) (SharedCache.StepOk D JM JE) empty es) :
    let s := run (SharedCache.step D JM JE) empty es
    (∀ k, s.inserted k ≤ Multiset.ofList (s.index.entries JE k) + s.dropped k) ∧
      ∀ k, ∀ e ∈ s.index.entries JE k, s.store.Complete D JM e := by
  intro s
  have ok : s.Ok D JM JE :=
    run_invariant (fun s e ok he => ok.step hinj he) hes Ok.empty
  exact ⟨ok.kept, ok.complete⟩

/-! ### Runs on two chunks -/

/-- What is asked for in the runs below; every one of them saves the same two chunks. -/
def sampleRequest (version key : String) : FinalizeRequest := ⟨"s", version, key, 3⟩

/-- Upload `i` up to its insert. -/
def sampleStored (i : ℕ) (req : FinalizeRequest) : List (CacheEvent Bytes) :=
  .beginFinalize i req [[1, 2], [3]] :: List.replicate 4 (.finalize i 0)

/-- Upload `i` with its insert at `now`. -/
def sampleSaved (i : ℕ) (req : FinalizeRequest) (now : DateTime) : List (CacheEvent Bytes) :=
  sampleStored i req ++ [.finalize i now]

/-- A pass on the eleventh day, up to the choice of the survivors. -/
def samplePass : List (CacheEvent Bytes) :=
  [.gcBegin ⟨30, 100⟩ (10 * nanosPerDay), .gcRead ("s", "v")]

/-- An upload of another version while a pass is under way; what a third one left behind when its
    size did not match is swept. -/
def sampleInterleaving : List (CacheEvent Bytes) :=
  sampleSaved 0 (sampleRequest "v" "old") 0 ++
    [.beginFinalize 2 (sampleRequest "v" "junk") [[9]], .finalize 2 0, .finalize 2 0] ++
    samplePass ++ sampleSaved 1 (sampleRequest "w" "new") (10 * nanosPerDay) ++
    [.gcChoose, .gcRewrite ("s", "v"), .gcNext, .gcMark sampleMid, .gcNext,
      .gcSweepManifest sampleMid, .gcNext, .gcSweepChunk [9] false, .gcSweepChunk [3] false,
      .gcSweepChunk [1, 2] false, .gcNext]

theorem nothing_lost_interleaving :
    let s := run (SharedCache.step contentDigest sampleJson sampleLines) empty sampleInterleaving
    (∀ k, s.inserted k ≤ Multiset.ofList (s.index.entries sampleLines k) + s.dropped k) ∧
      ∀ k, ∀ e ∈ s.index.entries sampleLines k, s.store.Complete contentDigest sampleJson e :=
  nothing_lost (D := contentDigest) Function.injective_id sampleJson sampleLines sampleInterleaving
    (by decide +kernel)

/-- An entry inserted between the reading of its log and its rewriting is gone. -/
theorem rewrite_loses_insert :
    let es := sampleSaved 0 (sampleRequest "v" "old") 0 ++ samplePass ++
      sampleSaved 1 (sampleRequest "v" "new") (10 * nanosPerDay) ++
      [.gcChoose, .gcRewrite ("s", "v")]
    let s := run (SharedCache.step contentDigest sampleJson sampleLines) empty es
    ¬ s.inserted ("s", "v") ≤
      Multiset.ofList (s.index.entries sampleLines ("s", "v")) + s.dropped ("s", "v") := by
  decide +kernel

end SharedCache

end GhRunner.Cache
