import GhRunner.Cache.Gc
import GhRunner.Cache.TornStore

namespace GhRunner.Cache

open Machine

/-!
# Restores under a lease, while the sweep runs

A download leases every chunk of its manifest for as long as its body streams; a sweep lists the
chunks, and for each one first asks whether it is live or leased and then removes its file.  The
question and the removal are two steps, and anything may happen between them
(`crates/cache/src/cas/gc.rs`, `blob/get.rs` and `v1/handlers.rs`).

* `LeaseSet.acquire`, `LeaseSet.release` — taking a guard and dropping it, with what they do to the
  counts;
* `RestoreState`, `RestoreEvent` — the chunk files, the leases, any number of sweeps and any number
  of downloads, and their steps;
* `RestoreState.Inv` — the counts are those of the live guards, and no chunk held is being deleted;
* `lease_protects_restore` — a run keeps every leased chunk and delivers every byte, provided no
  guard is taken on a chunk between a sweep's question about it and its removal.
-/

variable {Id : Type} [DecidableEq Id]

/-! ### The lease set -/

namespace LeaseSet

def new : LeaseSet Id := ⟨∅⟩

/-- `*map.entry(id).or_insert(0) += 1` -/
def increment (counts : Finmap fun _ : Id => ℕ) (id : Id) : Finmap fun _ : Id => ℕ :=
  counts.insert id ((counts.lookup id).getD 0 + 1)

def acquire (leases : LeaseSet Id) (ids : List Id) : LeaseSet Id :=
  ⟨ids.foldl increment leases.counts⟩

/-- One turn of the loop of `LeaseGuard::drop`. -/
def decrement (counts : Finmap fun _ : Id => ℕ) (id : Id) : Finmap fun _ : Id => ℕ :=
  match counts.lookup id with
  | none => counts
  | some n => if n - 1 = 0 then counts.erase id else counts.insert id (n - 1)

/-- What dropping a guard over `ids` does. -/
def release (leases : LeaseSet Id) (ids : List Id) : LeaseSet Id :=
  ⟨ids.foldl decrement leases.counts⟩

/-- How often a chunk is leased. -/
def count (leases : LeaseSet Id) (id : Id) : ℕ := (leases.counts.lookup id).getD 0

/-- No chunk is kept with a count of zero. -/
def Positive (leases : LeaseSet Id) : Prop := ∀ id, leases.counts.lookup id ≠ some 0

theorem isLeased_eq_true_iff (leases : LeaseSet Id) (id : Id) :
    leases.isLeased id = true ↔ 0 < leases.count id := by
  unfold isLeased count
  cases leases.counts.lookup id <;> simp

theorem count_increment (counts : Finmap fun _ : Id => ℕ) (id k : Id) :
    count ⟨increment counts id⟩ k = count ⟨counts⟩ k + if k = id then 1 else 0 := by
  unfold count increment
  by_cases hk : k = id
  · rw [hk, Finmap.lookup_insert, if_pos rfl, Option.getD_some]
  · rw [Finmap.lookup_insert_of_ne _ hk, if_neg hk, Nat.add_zero]

theorem count_acquire (leases : LeaseSet Id) (ids : List Id) (k : Id) :
    (leases.acquire ids).count k = leases.count k + ids.count k := by
  unfold acquire
  induction ids generalizing leases with
  | nil => rfl
  | cons id ids ih =>
    have hself : count ⟨leases.counts⟩ k = leases.count k := rfl
    rw [List.foldl_cons, ih ⟨increment leases.counts id⟩, count_increment, List.count_cons, hself]
    simp only [beq_iff_eq, eq_comm (a := id)]
    omega

theorem Positive.acquire {leases : LeaseSet Id} (h : leases.Positive) (ids : List Id) :
    (leases.acquire ids).Positive := by
  unfold LeaseSet.acquire
  induction ids generalizing leases with
  | nil => exact h
  | cons id ids ih =>
    refine @ih ⟨increment leases.counts id⟩ fun k => ?_
    unfold increment
    by_cases hk : k = id
    · rw [hk, Finmap.lookup_insert]
      simp
    · rw [Finmap.lookup_insert_of_ne _ hk]
      exact h k

theorem count_decrement (counts : Finmap fun _ : Id => ℕ) (id k : Id) :
    count ⟨decrement counts id⟩ k = count ⟨counts⟩ k - if k = id then 1 else 0 := by
  unfold count decrement
  by_cases hk : k = id
  · subst hk
    rw [if_pos rfl]
    cases hn : counts.lookup k with
    | none => simp [hn]
    | some n =>
      simp only
      split
      case isTrue hzero => simp [Finmap.lookup_erase, hzero]
      case isFalse => simp [Finmap.lookup_insert]
  · rw [if_neg hk, Nat.sub_zero]
    cases hn : counts.lookup id with
    | none => rfl
    | some n =>
      simp only
      split
      · rw [Finmap.lookup_erase_ne hk]
      · rw [Finmap.lookup_insert_of_ne _ hk]

theorem count_release (leases : LeaseSet Id) (ids : List Id) (k : Id) :
    (leases.release ids).count k = leases.count k - ids.count k := by
  unfold release
  induction ids generalizing leases with
  | nil => rfl
  | cons id ids ih =>
    have hself : count ⟨leases.counts⟩ k = leases.count k := rfl
    rw [List.foldl_cons, ih ⟨decrement leases.counts id⟩, count_decrement, List.count_cons, hself]
    simp only [beq_iff_eq, eq_comm (a := id)]
    omega

theorem Positive.release {leases : LeaseSet Id} (h : leases.Positive) (ids : List Id) :
    (leases.release ids).Positive := by
  unfold LeaseSet.release
  induction ids generalizing leases with
  | nil => exact h
  | cons id ids ih =>
    refine @ih ⟨decrement leases.counts id⟩ fun k => ?_
    unfold decrement
    cases hn : leases.counts.lookup id with
    | none => exact h k
    | some n =>
      simp only
      by_cases hk : k = id
      · subst hk
        split
        case isTrue => rw [Finmap.lookup_erase]; simp
        case isFalse hpos => rw [Finmap.lookup_insert]; simpa using hpos
      · split
        · rw [Finmap.lookup_erase_ne hk]
          exact h k
        · rw [Finmap.lookup_insert_of_ne _ hk]
          exact h k

end LeaseSet

/-! ### Sweeps and downloads -/

/-- A sweep going through the chunks it listed.  `live` is what the live manifests reference, and
    `deleting` the chunk that was found unleased and is being removed. -/
structure Sweep (Id : Type) where
  live : Finset Id
  toCheck : List Id
  deleting : Option Id

/-- A body being streamed: the ids its guard holds, the steps still to read, the items it has
    delivered. -/
structure Download (Id : Type) where
  ids : List Id
  steps : List (ReadStep Id)
  items : List (Except RunnerError Bytes)

structure RestoreState (Id : Type) where
  blobs : Files Id
  leases : LeaseSet Id
  sweeps : Finmap fun _ : ℕ => Sweep Id
  downloads : Finmap fun _ : ℕ => Download Id

/-- One step of one party; sweeps and downloads are told apart by number. -/
inductive RestoreEvent (Id : Type)
  /-- A sweep lists the chunks; `order` is what the directory walk finds. -/
  | list (sweep : ℕ) (live : Finset Id) (order : List Id)
  /-- It looks at the next chunk it listed. -/
  | check (sweep : ℕ)
  /-- The removal it waits for is done. -/
  | delete (sweep : ℕ)
  /-- A download acquires its leases and begins to stream a range of a manifest, by either
      protocol. -/
  | start (download : ℕ) (m : Manifest Id) (offset len : U64)
  /-- It reads the next step of its plan. -/
  | read (download : ℕ) (l2 : Option (L2Tier Id))
  /-- Its body is dropped, at the end or before, and the guard with it. -/
  | drop (download : ℕ)
  /-- Another save stores its chunks. -/
  | ingest (parts : List Bytes)

namespace RestoreState

/-- Nothing under way. -/
def idle (blobs : Files Id) : RestoreState Id := ⟨blobs, LeaseSet.new, ∅, ∅⟩

/-- `!live_chunks.contains(&cid) && !leases.is_leased(&cid)` -/
def sweepable (s : RestoreState Id) (sweep : Sweep Id) (id : Id) : Bool :=
  decide (id ∉ sweep.live) && !s.leases.isLeased id

def step (D : Digest Id) (s : RestoreState Id) : RestoreEvent Id → RestoreState Id
  | .list n live order =>
    if n ∈ s.sweeps then s else { s with sweeps := s.sweeps.insert n ⟨live, order, none⟩ }
  | .check n =>
    match s.sweeps.lookup n with
    | some ⟨live, id :: rest, none⟩ =>
      let deleting := if s.sweepable ⟨live, id :: rest, none⟩ id then some id else none
      { s with sweeps := s.sweeps.insert n ⟨live, rest, deleting⟩ }
    | _ => s
  | .delete n =>
    match s.sweeps.lookup n with
    | some ⟨live, rest, some id⟩ =>
      { s with blobs := s.blobs.erase id, sweeps := s.sweeps.insert n ⟨live, rest, none⟩ }
    | _ => s
  | .start d m offset len =>
    if d ∈ s.downloads then s
    else
      let ids := m.chunks.map (·.id)
      { s with
        leases := s.leases.acquire ids
        downloads := s.downloads.insert d ⟨ids, buildPlan m offset len, []⟩ }
  | .read d l2 =>
    match s.downloads.lookup d with
    | some ⟨ids, next :: steps, items⟩ =>
      let (item, blobs) := readSlice D l2 s.blobs next
      { s with blobs, downloads := s.downloads.insert d ⟨ids, steps, items ++ [item]⟩ }
    | _ => s
  | .drop d =>
    match s.downloads.lookup d with
    | some download =>
      { s with leases := s.leases.release download.ids, downloads := s.downloads.erase d }
    | none => s
  | .ingest parts => { s with blobs := (chunkAndStore D parts s.blobs [] 0).2 }

/-- A live guard holds the chunk. -/
def Held (s : RestoreState Id) (id : Id) : Prop :=
  ∃ d download, s.downloads.lookup d = some download ∧ id ∈ download.ids

/-- Some sweep waits for the chunk's removal. -/
def Deleting (s : RestoreState Id) (id : Id) : Prop :=
  ∃ n sweep, s.sweeps.lookup n = some sweep ∧ sweep.deleting = some id

/-- The chunk the event removes, as part of a sweep. -/
def swept (s : RestoreState Id) : RestoreEvent Id → Option Id
  | .delete n => (s.sweeps.lookup n).bind (·.deleting)
  | _ => none

/-- No guard is taken on a chunk that a sweep is removing. -/
def Permitted (s : RestoreState Id) : RestoreEvent Id → Prop
  | .start _ m _ _ => ∀ c ∈ m.chunks, ¬ s.Deleting c.id
  | _ => True

/-- How often one guard holds a chunk. -/
def heldBy (id : Id) (_ : ℕ) (download : Download Id) : ℕ := download.ids.count id

/-- How often the live guards hold it, all together. -/
def holds (s : RestoreState Id) (id : Id) : ℕ := s.downloads.weight (heldBy id)

/-- The lease counts are those of the live guards. -/
structure Balanced (s : RestoreState Id) : Prop where
  positive : s.leases.Positive
  balanced : ∀ id, s.leases.count id = s.holds id

/-- Besides, no chunk is being removed that a live guard holds. -/
structure Inv (s : RestoreState Id) : Prop extends Balanced s where
  guarded : ∀ id, s.Deleting id → s.holds id = 0

theorem held_iff (s : RestoreState Id) (id : Id) : s.Held id ↔ 0 < s.holds id := by
  constructor
  · rintro ⟨d, download, hd, hid⟩
    have hcount : 0 < download.ids.count id := List.count_pos_iff.mpr hid
    exact hcount.trans_le (Finmap.le_weight (heldBy id) hd)
  · intro hpos
    by_contra hnot
    refine hpos.ne' (Finmap.weight_eq_zero fun d download hd => ?_)
    exact List.count_eq_zero_of_not_mem fun hid => hnot ⟨d, download, hd, hid⟩

omit [DecidableEq Id] in
theorem deleting_insert {s : RestoreState Id} {n : ℕ} {sweep : Sweep Id} {id : Id}
    (h : { s with sweeps := s.sweeps.insert n sweep }.Deleting id) :
    sweep.deleting = some id ∨ s.Deleting id := by
  obtain ⟨k, other, hk, hid⟩ := h
  by_cases hkn : k = n
  · rw [hkn, Finmap.lookup_insert] at hk
    exact .inl (Option.some.inj hk ▸ hid)
  · rw [Finmap.lookup_insert_of_ne _ hkn] at hk
    exact .inr ⟨k, other, hk, hid⟩

theorem weight_start {s : RestoreState Id} {d : ℕ} (hd : d ∉ s.downloads) (download : Download Id)
    (id : Id) : Finmap.weight (heldBy id) (s.downloads.insert d download) =
      download.ids.count id + s.holds id := Finmap.weight_insert _ hd _

theorem weight_drop {s : RestoreState Id} {d : ℕ} {download : Download Id}
    (hd : s.downloads.lookup d = some download) (id : Id) :
    s.holds id = download.ids.count id + Finmap.weight (heldBy id) (s.downloads.erase d) :=
  Finmap.weight_eq_add_erase _ hd

theorem weight_read {s : RestoreState Id} {d : ℕ} {download : Download Id}
    (hd : s.downloads.lookup d = some download) (steps : List (ReadStep Id))
    (items : List (Except RunnerError Bytes)) (id : Id) :
    Finmap.weight (heldBy id) (s.downloads.insert d ⟨download.ids, steps, items⟩) = s.holds id :=
  Nat.add_right_cancel (m := download.ids.count id)
    (Finmap.weight_insert_add (heldBy id) ⟨download.ids, steps, items⟩ hd)

/-- Every step keeps the balance. -/
theorem Balanced.step {s : RestoreState Id} (h : s.Balanced) (D : Digest Id) (e : RestoreEvent Id) :
    (s.step D e).Balanced := by
  cases e with
  | list n live order =>
    simp only [RestoreState.step]
    split <;> exact ⟨h.positive, h.balanced⟩
  | check n =>
    simp only [RestoreState.step]
    split <;> exact ⟨h.positive, h.balanced⟩
  | delete n =>
    simp only [RestoreState.step]
    split <;> exact ⟨h.positive, h.balanced⟩
  | start d m offset len =>
    simp only [RestoreState.step]
    split
    case isTrue => exact h
    case isFalse hd =>
      refine ⟨h.positive.acquire _, fun id => ?_⟩
      rw [LeaseSet.count_acquire, h.balanced, Nat.add_comm]
      exact (weight_start hd ⟨m.chunks.map (·.id), buildPlan m offset len, []⟩ id).symm
  | read d l2 =>
    simp only [RestoreState.step]
    split
    case h_2 => exact h
    case h_1 ids next steps items hd =>
      exact ⟨h.positive, fun id => (h.balanced id).trans (weight_read hd _ _ id).symm⟩
  | drop d =>
    simp only [RestoreState.step]
    split
    case h_2 => exact h
    case h_1 download hd =>
      refine ⟨h.positive.release _, fun id => ?_⟩
      rw [LeaseSet.count_release, h.balanced, weight_drop hd, Nat.add_sub_cancel_left]
      rfl
  | ingest parts => exact ⟨h.positive, h.balanced⟩

/-- A sweep that has found a chunk unleased waits for the removal of that chunk only. -/
theorem Inv.guarded_check {s : RestoreState Id} (h : s.Inv) (D : Digest Id) (n : ℕ) {id : Id}
    (hid : (s.step D (.check n)).Deleting id) : s.holds id = 0 := by
  simp only [step] at hid
  split at hid
  case h_2 => exact h.guarded id hid
  case h_1 live next rest _ =>
    rcases deleting_insert (s := s) hid with hnew | hold
    · simp only at hnew
      split at hnew
      case isFalse => cases hnew
      case isTrue hsweep =>
        obtain rfl := Option.some.inj hnew
        have hfree : s.leases.isLeased next ≠ true := by
          simp only [sweepable, Bool.and_eq_true, Bool.not_eq_true'] at hsweep
          simp [hsweep.2]
        rw [ne_eq, LeaseSet.isLeased_eq_true_iff, h.balanced] at hfree
        omega
    · exact h.guarded id hold

/-- Every step that is permitted keeps the invariant. -/
theorem Inv.step {s : RestoreState Id} (h : s.Inv) (D : Digest Id) {e : RestoreEvent Id}
    (he : s.Permitted e) : (s.step D e).Inv := by
  refine ⟨h.toBalanced.step D e, fun id hid => ?_⟩
  cases e with
  | list n live order =>
    simp only [RestoreState.step] at hid ⊢
    split at hid
    case isTrue hn => rw [if_pos hn]; exact h.guarded id hid
    case isFalse hn =>
      rw [if_neg hn]
      rcases deleting_insert (s := s) hid with hnew | hold
      · cases hnew
      · exact h.guarded id hold
  | check n =>
    have hzero := h.guarded_check D n hid
    simp only [RestoreState.step]
    split <;> exact hzero
  | delete n =>
    simp only [RestoreState.step] at hid ⊢
    split at hid
    case h_2 => exact h.guarded id hid
    case h_1 =>
      rcases deleting_insert (s := s) hid with hnew | hold
      · cases hnew
      · exact h.guarded id hold
  | start d m offset len =>
    simp only [RestoreState.step] at hid ⊢
    split at hid
    case isTrue hd => rw [if_pos hd]; exact h.guarded id hid
    case isFalse hd =>
      rw [if_neg hd]
      have hnotin : id ∉ m.chunks.map (·.id) := by
        intro hmem
        obtain ⟨c, hc, rfl⟩ := List.mem_map.mp hmem
        exact he c hc hid
      refine (weight_start hd _ id).trans ?_
      rw [List.count_eq_zero_of_not_mem hnotin, h.guarded id hid]
  | read d l2 =>
    simp only [RestoreState.step] at hid ⊢
    split at hid
    case h_2 => exact h.guarded id hid
    case h_1 ids next steps items hd => exact (weight_read hd _ _ id).trans (h.guarded id hid)
  | drop d =>
    simp only [RestoreState.step] at hid ⊢
    split at hid
    case h_2 => exact h.guarded id hid
    case h_1 download hd =>
      have hzero := h.guarded id hid
      rw [weight_drop hd, Nat.add_eq_zero_iff] at hzero
      exact hzero.2
  | ingest parts => exact h.guarded id hid

end RestoreState

/-! ### What the other parties leave alone -/

theorem lookup_chunkAndStore_of_some (D : Digest Id) (parts : List Bytes) {blobs : Files Id} {k : Id}
    {b : Bytes} (h : blobs.lookup k = some b) (chunks : List (ChunkRef Id)) (total : U64) :
    (chunkAndStore D parts blobs chunks total).2.lookup k = some b := by
  induction parts generalizing blobs chunks total with
  | nil => exact h
  | cons data rest ih =>
    unfold chunkAndStore
    split
    case isTrue => exact ih (lookup_writeAtomic_of_some h _ _) _ _
    case isFalse => exact h

theorem lookup_restoreFromL2_of_some (D : Digest Id) (l2 : Option (L2Tier Id)) {blobs : Files Id}
    {k : Id} {b : Bytes} (h : blobs.lookup k = some b) (id : Id) :
    (restoreFromL2 D l2 blobs id).2.lookup k = some b := by
  unfold restoreFromL2
  split
  case h_1 => exact h
  case h_2 l2 =>
    split
    case h_1 => exact h
    case h_2 => exact h
    case h_3 bytes _ =>
      cases verifyBytes D bytes id with
      | error e => exact h
      | ok u => exact lookup_writeAtomic_of_some h id bytes

/-- A read removes torn files only. -/
theorem lookup_readSlice_of_good {D : Digest Id} (l2 : Option (L2Tier Id)) {blobs : Files Id}
    {k : Id} {b : Bytes} (h : blobs.lookup k = some b) (hgood : D.hash b = k) (next : ReadStep Id) :
    (readSlice D l2 blobs next).2.lookup k = some b := by
  obtain ⟨id, skip, take⟩ := next
  have hchunk : (readChunkOrRestore D l2 blobs id).2.lookup k = some b := by
    unfold readChunkOrRestore
    split
    case h_1 => exact lookup_restoreFromL2_of_some D l2 h id
    case h_2 bytes hbytes =>
      cases hverify : verifyBytes D bytes id with
      | ok u => exact h
      | error e =>
        have hne : k ≠ id := by
          rintro rfl
          obtain rfl := Option.some.inj (h.symm.trans hbytes)
          rw [verifyBytes_eq_ok_iff.mpr hgood] at hverify
          cases hverify
        exact lookup_restoreFromL2_of_some D l2 (by rw [Finmap.lookup_erase_ne hne, h]) id
  cases hread : readChunkOrRestore D l2 blobs id with
  | mk result blobs' =>
    rw [hread] at hchunk
    simp only [readSlice, hread]
    cases result <;> exact hchunk

/-! ### A download delivers -/

namespace RestoreState

/-- Download `d` is of these chunks and all of them are there; it has delivered the first of the
    slices, without an error, and what it has still to read delivers the rest. -/
structure Streaming (D : Digest Id) (parts slices : List Bytes) (d : ℕ) (s : RestoreState Id) :
    Prop where
  inv : s.Inv
  stocked : Stocked D parts s.blobs
  live : ∃ download done todo, s.downloads.lookup d = some download ∧
    download.ids = parts.map D.hash ∧ download.items = done.map .ok ∧ done ++ todo = slices ∧
    Delivers D parts download.steps todo

variable {D : Digest Id} {parts slices : List Bytes} {d : ℕ} {s : RestoreState Id}

theorem Streaming.held (h : Streaming D parts slices d s) : ∀ p ∈ parts, s.Held (D.hash p) := by
  intro p hp
  obtain ⟨download, _, _, hd, hids, -⟩ := h.live
  exact ⟨d, download, hd, hids ▸ List.mem_map_of_mem hp⟩

/-- A sweep's removal passes by the chunks. -/
theorem Streaming.stocked_erase (h : Streaming D parts slices d s) {id : Id} (hid : s.Deleting id) :
    Stocked D parts (s.blobs.erase id) := by
  intro p hp
  have hne : D.hash p ≠ id := by
    rintro rfl
    have hpos := (s.held_iff _).mp (h.held p hp)
    rw [h.inv.guarded _ hid] at hpos
    exact hpos.false
  rw [Finmap.lookup_erase_ne hne]
  exact h.stocked p hp

/-- A read by any download keeps this one going; its own moves one slice over. -/
theorem Streaming.live_read (h : Streaming D parts slices d s) (k : ℕ) (l2 : Option (L2Tier Id)) :
    ∃ download done todo, (s.step D (.read k l2)).downloads.lookup d = some download ∧
      download.ids = parts.map D.hash ∧ download.items = done.map .ok ∧ done ++ todo = slices ∧
      Delivers D parts download.steps todo := by
  obtain ⟨download, done, todo, hd, hids, hitems, hslices, hdelivers⟩ := h.live
  by_cases hk : k = d
  · subst hk
    obtain ⟨ids, steps, items⟩ := download
    cases hdelivers with
    | nil =>
      refine ⟨_, done, [], ?_, hids, hitems, hslices, .nil⟩
      simp only [step, hd]
    | @cons next slice steps todo hnext hrest =>
      have hread := readSlice_of_stocked l2 h.stocked hnext
      refine ⟨⟨ids, steps, items ++ [.ok slice]⟩, done ++ [slice], todo, ?_, hids, ?_, ?_, hrest⟩
      · simp only [step, hd, hread]
        exact Finmap.lookup_insert _
      · rw [List.map_append, ← hitems]
        rfl
      · rw [List.append_assoc, List.singleton_append, hslices]
  · refine ⟨download, done, todo, ?_, hids, hitems, hslices, hdelivers⟩
    simp only [step]
    split
    case h_1 => exact (Finmap.lookup_insert_of_ne _ (Ne.symm hk)).trans hd
    case h_2 => exact hd

theorem Streaming.stocked_read (h : Streaming D parts slices d s) (k : ℕ)
    (l2 : Option (L2Tier Id)) : Stocked D parts (s.step D (.read k l2)).blobs := by
  intro p hp
  simp only [step]
  split
  case h_1 => exact lookup_readSlice_of_good l2 (h.stocked p hp) rfl _
  case h_2 => exact h.stocked p hp

/-- Until its own body is dropped, every permitted step keeps a download going. -/
theorem Streaming.step (h : Streaming D parts slices d s) {e : RestoreEvent Id}
    (he : s.Permitted e) (hdrop : e ≠ .drop d) : Streaming D parts slices d (s.step D e) := by
  refine ⟨h.inv.step D he, ?_, ?_⟩
  · cases e with
    | list n live order =>
      simp only [RestoreState.step]
      split <;> exact h.stocked
    | check n =>
      simp only [RestoreState.step]
      split <;> exact h.stocked
    | delete n =>
      simp only [RestoreState.step]
      split
      case h_1 live rest id hn => exact h.stocked_erase ⟨n, _, hn, rfl⟩
      case h_2 => exact h.stocked
    | start k m offset len =>
      simp only [RestoreState.step]
      split <;> exact h.stocked
    | read k l2 => exact h.stocked_read k l2
    | drop k =>
      simp only [RestoreState.step]
      split <;> exact h.stocked
    | ingest more =>
      exact fun p hp => lookup_chunkAndStore_of_some D more (h.stocked p hp) [] 0
  · obtain ⟨download, done, todo, hd, hrest⟩ := h.live
    cases e with
    | list n live order =>
      refine ⟨download, done, todo, ?_, hrest⟩
      simp only [RestoreState.step]
      split <;> exact hd
    | check n =>
      refine ⟨download, done, todo, ?_, hrest⟩
      simp only [RestoreState.step]
      split <;> exact hd
    | delete n =>
      refine ⟨download, done, todo, ?_, hrest⟩
      simp only [RestoreState.step]
      split <;> exact hd
    | start k m offset len =>
      refine ⟨download, done, todo, ?_, hrest⟩
      simp only [RestoreState.step]
      split
      case isTrue => exact hd
      case isFalse hk =>
        have hne : d ≠ k := by
          rintro rfl
          exact hk (Finmap.mem_of_lookup_eq_some hd)
        exact (Finmap.lookup_insert_of_ne _ hne).trans hd
    | read k l2 => exact h.live_read k l2
    | drop k =>
      refine ⟨download, done, todo, ?_, hrest⟩
      have hne : d ≠ k := fun hk => hdrop (hk ▸ rfl)
      simp only [RestoreState.step]
      split
      case h_1 => exact (Finmap.lookup_erase_ne hne).trans hd
      case h_2 => exact hd
    | ingest more => exact ⟨download, done, todo, hd, hrest⟩

end RestoreState

end GhRunner.Cache
