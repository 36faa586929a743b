import Clab.Blk.AvlRefinement
import Clab.Btier.Recovery

/-!
# The space a recovery finds free

Start-up gives the whole devices to their allocators and takes the journal
region out; recovery then takes out the space of every extent with live keys,
and drops extents with a corrupt header only after that. What the allocators
hold at the end is compared with what the extents left in the map do not use.
-/

namespace Clab.Btier

open Clab.Blk Clab.Blk.AvlAllocator

/-- The journal region of a device. -/
def journalRegion (journalSize : Nat) : Tier → Set Nat
  | .FAST => Set.Ico 0 journalSize
  | .SLOW => ∅

/-- The bytes of a location on the device of tier `t`. -/
def DiskLocation.bytesOn (loc : DiskLocation) (t : Tier) : Set Nat :=
  if loc.tier = t then Set.Ico loc.offset (loc.offset + loc.length) else ∅

theorem DiskLocation.bytesOn_of_length_zero {loc : DiskLocation} (h : loc.length = 0) (t : Tier) :
    loc.bytesOn t = ∅ := by
  unfold DiskLocation.bytesOn
  rw [h, Nat.add_zero, Set.Ico_self, ite_self]

/-- The bytes of the extents in the map, on the device of tier `t`. -/
def ExtentMap.placed (em : ExtentMap) (t : Tier) : Set Nat :=
  {x | ∃ id e, em.lookup id = some e ∧ x ∈ e.location.bytesOn t}

/-- Extents in `space`, apart from each other. -/
structure ExtentMap.Apart (em : ExtentMap) (space : Tier → Set Nat) : Prop where
  within : ∀ id e, em.lookup id = some e → ∀ t, e.location.bytesOn t ⊆ space t
  disjoint : ∀ id id' e e', id ≠ id' → em.lookup id = some e → em.lookup id' = some e' →
    ∀ t, Disjoint (e.location.bytesOn t) (e'.location.bytesOn t)

/-- The snapshot of extents that are apart. -/
theorem ExtentMap.Apart.pairwise {em : ExtentMap} {space : Tier → Set Nat} (h : em.Apart space) :
    em.snapshot.Pairwise fun a b => ∀ t, Disjoint (a.location.bytesOn t) (b.location.bytesOn t) := by
  unfold ExtentMap.snapshot
  rw [List.pairwise_map]
  have hkeys : em.entries.entries.Pairwise fun a b => a.1 ≠ b.1 :=
    List.pairwise_map.mp em.entries.nodupKeys
  refine List.Pairwise.imp_of_mem (fun {a b} ha hb hne => ?_) hkeys
  exact h.disjoint a.1 b.1 a.2 b.2 hne (AList.mem_lookup_iff.mpr ha) (AList.mem_lookup_iff.mpr hb)

theorem ExtentMap.apart_of_snapshot_singleton {em : ExtentMap} {snap : SnapshotEntry}
    {space : Tier → Set Nat} (h : em.snapshot = [snap])
    (hin : ∀ t, snap.location.bytesOn t ⊆ space t) : em.Apart space := by
  have honly : ∀ id e, em.lookup id = some e → id = snap.extentId ∧ e.location = snap.location := by
    intro id e he
    have hmem : (⟨id, e.location, e.metrics, e.lastAccessTime, e.usedBytes, e.liveBytes⟩ :
        SnapshotEntry) ∈ em.snapshot :=
      List.mem_map.mpr ⟨⟨id, e⟩, AList.mem_lookup_iff.mp he, rfl⟩
    rw [h, List.mem_singleton] at hmem
    rw [← hmem]
    exact ⟨rfl, rfl⟩
  refine ⟨fun id e he t => ?_, fun id id' e e' hne he he' => ?_⟩
  · rw [(honly id e he).2]
    exact hin t
  · exact absurd ((honly id e he).1.trans (honly id' e' he').1.symm) hne

theorem ExtentMap.lookup_of_mem_snapshot {em : ExtentMap} {snap : SnapshotEntry}
    (h : snap ∈ em.snapshot) :
    ∃ e, em.lookup snap.extentId = some e ∧ e.location = snap.location := by
  unfold ExtentMap.snapshot at h
  obtain ⟨⟨id, e⟩, he, rfl⟩ := List.mem_map.mp h
  exact ⟨e, AList.mem_lookup_iff.mpr he, rfl⟩

namespace Engine

/-! ## Start-up -/

/-- The allocators `init` makes: everything free but the journal region. -/
def startAlloc (cfg : BtierConfig) (size mem : Tier → Nat) (journalSize : Nat) :
    Tier → AvlAllocator :=
  let alloc := fun t => Allocator.initAddFree (create (size t) cfg.blockSize (mem t)) 0
    (Allocator.getCapacity (create (size t) cfg.blockSize (mem t)))
  Function.update alloc .FAST (Allocator.initRmFree (alloc .FAST) 0 journalSize)

/-- What is free then. -/
def startFree (size : Tier → Nat) (journalSize : Nat) (t : Tier) : Set Nat :=
  Set.Ico 0 (size t) \ journalRegion journalSize t

/-- `init_rm_free` of a free range. -/
theorem holds_initRmFree {a : AvlAllocator} {free : Set Nat} (h : Holds a free)
    {offset length : Nat} (hfree : Set.Ico offset (offset + length) ⊆ free) :
    Holds (Allocator.initRmFree a offset length) (free \ Set.Ico offset (offset + length)) := by
  rcases Nat.eq_zero_or_pos length with rfl | hpos
  · show Holds a _
    rwa [Nat.add_zero, Set.Ico_self, Set.sdiff_empty]
  · -- a free byte lies in a range of the tree, so in the device
    have hlast : offset + length - 1 ∈ free := hfree ⟨by omega, by omega⟩
    rw [← h.covers] at hlast
    obtain ⟨r, hr, -, hlt⟩ := hlast
    have hin := h.inside r hr
    obtain ⟨a', heq, hholds, -⟩ := initRmFree_spec h (by omega) hfree
    show Holds (settle (a.initRmFree offset length) a) _
    rw [heq]
    exact hholds

theorem holds_startAlloc (cfg : BtierConfig) {size : Tier → Nat} (mem : Tier → Nat)
    {journalSize : Nat} (hsize : ∀ t, size t < 2 ^ 63) (hj : journalSize ≤ size .FAST) (t : Tier) :
    Holds (startAlloc cfg size mem journalSize t) (startFree size journalSize t) := by
  have hfull : ∀ t, Holds (Allocator.initAddFree (create (size t) cfg.blockSize (mem t)) 0
      (Allocator.getCapacity (create (size t) cfg.blockSize (mem t)))) (Set.Ico 0 (size t)) := by
    intro t
    have hin : 0 + size t ≤ (create (size t) cfg.blockSize (mem t)).deviceSize :=
      (Nat.zero_add (size t)).le
    obtain ⟨a', heq, hholds, -⟩ :=
      initAddFree_spec (holds_create (hsize t) cfg.blockSize (mem t)) hin (Set.disjoint_empty _)
    show Holds (settle (AvlAllocator.initAddFree _ 0 (size t)) _) _
    rw [heq]
    rwa [Set.empty_union, Nat.zero_add] at hholds
  unfold startAlloc startFree
  cases t with
  | FAST =>
      rw [Function.update_self]
      have hin : Set.Ico 0 (0 + journalSize) ⊆ Set.Ico 0 (size .FAST) := by
        rw [Nat.zero_add]
        exact Set.Ico_subset_Ico le_rfl hj
      have h := holds_initRmFree (hfull .FAST) hin
      rwa [Nat.zero_add] at h
  | SLOW =>
      rw [Function.update_of_ne (by decide)]
      show Holds _ (Set.Ico 0 (size .SLOW) \ ∅)
      rw [Set.sdiff_empty]
      exact hfull .SLOW

/-! ## Reserving the extents -/

/-- The bytes of some extents on the device of tier `t`. -/
def snapBytes (snaps : List SnapshotEntry) (t : Tier) : Set Nat :=
  {x | ∃ snap ∈ snaps, x ∈ snap.location.bytesOn t}

/-- One extent after the other is taken out of the allocators. -/
theorem holds_reserve {snaps : List SnapshotEntry} {al : Tier → AvlAllocator}
    {free : Tier → Set Nat} (h : ∀ t, Holds (al t) (free t))
    (hin : ∀ snap ∈ snaps, ∀ t, snap.location.bytesOn t ⊆ free t)
    (hapart : snaps.Pairwise fun a b => ∀ t, Disjoint (a.location.bytesOn t) (b.location.bytesOn t))
    (t : Tier) :
    Holds (snaps.foldl (fun al snap => Function.update al snap.location.tier
      (Allocator.initRmFree (al snap.location.tier) snap.location.offset snap.location.length)) al t)
      (free t \ snapBytes snaps t) := by
  induction snaps generalizing al free with
  | nil =>
      have hnone : snapBytes [] t = ∅ := by simp [snapBytes]
      rw [hnone, Set.sdiff_empty]
      exact h t
  | cons snap rest ih =>
      obtain ⟨hsnap, hrest⟩ := List.pairwise_cons.mp hapart
      have hsplit : free t \ snapBytes (snap :: rest) t =
          (free t \ snap.location.bytesOn t) \ snapBytes rest t := by
        rw [Set.sdiff_sdiff]
        congr 1
        ext x
        simp [snapBytes]
      rw [List.foldl_cons, hsplit]
      refine @ih _ (fun t => free t \ snap.location.bytesOn t) (fun t => ?_) (fun b hb t => ?_) hrest
      · unfold DiskLocation.bytesOn
        by_cases ht : snap.location.tier = t
        · subst ht
          have hfree := hin snap List.mem_cons_self snap.location.tier
          rw [DiskLocation.bytesOn, if_pos rfl] at hfree
          rw [Function.update_self, if_pos rfl]
          exact holds_initRmFree (h _) hfree
        · rw [Function.update_of_ne (Ne.symm ht), if_neg ht, Set.sdiff_empty]
          exact h t
      · exact Set.subset_sdiff.mpr ⟨hin b (List.mem_cons_of_mem _ hb) t, (hsnap b hb t).symm⟩

theorem snapBytes_snapshot (em : ExtentMap) (t : Tier) : snapBytes em.snapshot t = em.placed t := by
  ext x
  unfold snapBytes ExtentMap.placed ExtentMap.snapshot ExtentMap.lookup
  constructor
  · rintro ⟨snap, hsnap, hx⟩
    obtain ⟨⟨id, e⟩, he, rfl⟩ := List.mem_map.mp hsnap
    exact ⟨id, e, AList.mem_lookup_iff.mpr he, hx⟩
  · rintro ⟨id, e, he, hx⟩
    exact ⟨_, List.mem_map.mpr ⟨⟨id, e⟩, AList.mem_lookup_iff.mp he, rfl⟩, hx⟩

/-! ## After a recovery -/

section Recovery

variable {A : Type}

theorem alloc_replayPasses (s : Engine A) (records : List JournalRecord) :
    (s.replayPasses records).alloc = s.alloc := by
  unfold replayPasses extentFreePass markDeadPass keyDelPass keyPutPass extentNewPass
  iterate 5 rw [replayOp_frame alloc]
  all_goals exact fun _ _ => rfl

theorem alloc_recountExtents (s : Engine A) : s.recountExtents.alloc = s.alloc :=
  List.foldlRecOn (motive := fun t : Engine A => t.alloc = s.alloc) _ _ rfl fun _ ht _ _ => ht

theorem alloc_verifyHeaders (s : Engine A) : s.verifyHeaders.alloc = s.alloc := by
  refine List.foldlRecOn (motive := fun t : Engine A => t.alloc = s.alloc) _ _ rfl
    fun t ht snap _ => ?_
  unfold verifyHeader
  dsimp only
  split <;> exact ht

variable [Allocator A]

theorem alloc_recoverInternal (s : Engine A) (records : List JournalRecord) :
    (s.recoverInternal records).alloc =
      ((s.replayPasses records).recountExtents.reserveExtents).alloc :=
  alloc_verifyHeaders _

/-- The extents a recovery leaves in the map: those it kept after the recount,
without the corrupt ones. -/
theorem extentMap_recoverInternal (s : Engine A) (records : List JournalRecord) (id : Nat) :
    (s.recoverInternal records).extentMap.lookup id =
      if id ∈ corruptExtents s.dev (s.survivors records) then none
      else (s.replayPasses records).recountExtents.extentMap.lookup id := by
  have hdev : (s.replayPasses records).recountExtents.dev = s.dev :=
    (dev_recount _ _).trans (dev_replayPasses _ _)
  have h := extentMap_verifyHeaders ((s.replayPasses records).recountExtents.reserveExtents)
    (s.survivors records) id
  have hres : ((s.replayPasses records).recountExtents.reserveExtents).dev = s.dev := hdev
  rw [hres] at h
  exact h

end Recovery

variable {cfg : BtierConfig} {dev : Tier → BlockDevice} {size mem : Tier → Nat}
  {journalSize : Nat} {j : Journal} {records : List JournalRecord}

/-- The extents with live keys, the ones reserved, leave the rest free. -/
theorem holds_recoverInternal (hsize : ∀ t, size t < 2 ^ 63) (hj : journalSize ≤ size .FAST)
    (hlive : ((blank cfg dev (startAlloc cfg size mem journalSize) j).replayPasses
      records).recountExtents.extentMap.Apart (startFree size journalSize)) (t : Tier) :
    Holds (((blank cfg dev (startAlloc cfg size mem journalSize) j).recoverInternal
        records).alloc t)
      (startFree size journalSize t \
        ((blank cfg dev (startAlloc cfg size mem journalSize) j).replayPasses
          records).recountExtents.extentMap.placed t) := by
  have hstart : ((blank cfg dev (startAlloc cfg size mem journalSize) j).replayPasses
      records).recountExtents.alloc = startAlloc cfg size mem journalSize :=
    (alloc_recountExtents _).trans (alloc_replayPasses _ records)
  rw [alloc_recoverInternal]
  unfold reserveExtents
  dsimp only
  rw [hstart, ← snapBytes_snapshot]
  refine holds_reserve (holds_startAlloc cfg mem hsize hj) (fun snap hsnap t => ?_)
    hlive.pairwise t
  obtain ⟨e, he, hloc⟩ := ExtentMap.lookup_of_mem_snapshot hsnap
  rw [← hloc]
  exact hlive.within _ e he t

/-- The space of a corrupt extent is neither free nor in an extent of the map. -/
theorem corrupt_space_lost (hsize : ∀ t, size t < 2 ^ 63) (hj : journalSize ≤ size .FAST)
    (hlive : ((blank cfg dev (startAlloc cfg size mem journalSize) j).replayPasses
      records).recountExtents.extentMap.Apart (startFree size journalSize))
    {snap : SnapshotEntry}
    (hsnap : snap ∈ (blank cfg dev (startAlloc cfg size mem journalSize) j).survivors records)
    (hbad : snap.extentId ∈ corruptExtents dev
      ((blank cfg dev (startAlloc cfg size mem journalSize) j).survivors records))
    (hlen : snap.location.length ≠ 0) :
    ¬ Holds (((blank cfg dev (startAlloc cfg size mem journalSize) j).recoverInternal
        records).alloc snap.location.tier)
      (startFree size journalSize snap.location.tier \
        ((blank cfg dev (startAlloc cfg size mem journalSize) j).recoverInternal
          records).extentMap.placed snap.location.tier) := by
  intro hexact
  obtain ⟨e, he, hloc⟩ := ExtentMap.lookup_of_mem_snapshot hsnap
  -- the first byte of the extent is reserved, and in no extent of the map
  have hfirst : snap.location.offset ∈ e.location.bytesOn snap.location.tier := by
    rw [hloc, DiskLocation.bytesOn, if_pos rfl]
    exact ⟨le_rfl, by omega⟩
  have hsame := (holds_recoverInternal hsize hj hlive snap.location.tier).covers.symm.trans
    hexact.covers
  have hin : snap.location.offset ∈ startFree size journalSize snap.location.tier \
      ((blank cfg dev (startAlloc cfg size mem journalSize) j).recoverInternal
        records).extentMap.placed snap.location.tier := by
    refine ⟨hlive.within _ e he _ hfirst, ?_⟩
    rintro ⟨id, e', he', hx⟩
    rw [extentMap_recoverInternal] at he'
    split at he'
    · cases he'
    · rename_i hgood
      have hne : snap.extentId ≠ id := fun h => hgood (h ▸ hbad)
      exact Set.disjoint_left.mp (hlive.disjoint _ _ _ _ hne he he' _) hfirst hx
  rw [← hsame] at hin
  exact hin.2 ⟨_, e, he, hfirst⟩

/-- After recovery the free space is exactly what the journal and the extents in
the map leave, if and only if no extent with live keys and a place on the device
has a corrupt header: the space of such an extent is reserved and then lost. -/
theorem recovered_space_exact_iff (hsize : ∀ t, size t < 2 ^ 63)
    (hj : journalSize ≤ size .FAST)
    (hlive : ((blank cfg dev (startAlloc cfg size mem journalSize) j).replayPasses
      records).recountExtents.extentMap.Apart (startFree size journalSize)) :
    let s := blank cfg dev (startAlloc cfg size mem journalSize) j
    (∀ t, Holds ((s.recoverInternal records).alloc t)
        (startFree size journalSize t \ (s.recoverInternal records).extentMap.placed t)) ↔
      ∀ snap ∈ s.survivors records,
        snap.extentId ∈ corruptExtents dev (s.survivors records) → snap.location.length = 0 := by
  intro s
  constructor
  · intro hexact snap hsnap hbad
    by_contra hlen
    exact corrupt_space_lost hsize hj hlive hsnap hbad hlen (hexact _)
  · intro hnone t
    have hleft := extentMap_recoverInternal s records
    have hdev : s.dev = dev := rfl
    rw [hdev] at hleft
    have hplaced : (s.recoverInternal records).extentMap.placed t =
        (s.replayPasses records).recountExtents.extentMap.placed t := by
      ext x
      constructor
      · rintro ⟨id, e, he, hx⟩
        rw [hleft] at he
        split at he
        · cases he
        · exact ⟨id, e, he, hx⟩
      · rintro ⟨id, e, he, hx⟩
        refine ⟨id, e, ?_, hx⟩
        rw [hleft, if_neg]
        · exact he
        · -- a corrupt extent with a byte on the device
          intro hbad
          obtain ⟨snap, hsnap, hid⟩ := ExtentMap.mem_snapshot_iff.mpr ⟨e, he⟩
          obtain ⟨e', he', hloc⟩ := ExtentMap.lookup_of_mem_snapshot hsnap
          rw [hid, he] at he'
          obtain rfl := Option.some.inj he'
          have hlen := hnone snap hsnap (hid ▸ hbad)
          rw [hloc, DiskLocation.bytesOn_of_length_zero hlen] at hx
          exact hx
    rw [hplaced]
    exact holds_recoverInternal hsize hj hlive t

/-! ### One extent -/

/-- The journal of one put. -/
def onePut : List JournalRecord :=
  extentNewRecord 1 ⟨0x4000000, 0x400000, .FAST⟩ :: putRecords [0x6b] none ⟨1, 0, 5⟩

/-- A device that reads as zeros, but for the bytes `hdr` at the extent. -/
def headerAt (hdr : List Byte) : Tier → BlockDevice := fun _ =>
  { content := fun i => if 0x4000000 ≤ i then hdr.getD (i - 0x4000000) 0 else 0
    size := 0x40000000 }

theorem survivors_onePut {A : Type} (dev : Tier → BlockDevice) (alloc : Tier → A) (j : Journal) :
    (blank {} dev alloc j).survivors onePut =
      [⟨1, ⟨0x4000000, 0x400000, .FAST⟩, {}, 0, 5, 5⟩] := rfl

theorem apart_onePut (dev : Tier → BlockDevice) :
    ((blank {} dev (startAlloc {} (fun _ => 0x40000000) (fun _ => 0) 0x4000000)
      { devSize := 0x4000000 }).replayPasses onePut).recountExtents.extentMap.Apart
      (startFree (fun _ => 0x40000000) 0x4000000) := by
  refine ExtentMap.apart_of_snapshot_singleton (survivors_onePut _ _ _) fun t x hx => ?_
  unfold DiskLocation.bytesOn at hx
  split at hx
  · rename_i ht
    obtain rfl : Tier.FAST = t := ht
    obtain ⟨hlow, hhigh⟩ := hx
    exact ⟨⟨Nat.zero_le x, hhigh.trans_le (by decide)⟩, fun h => absurd h.2 (by simpa using hlow)⟩
  · exact absurd hx (Set.notMem_empty x)

/-- An extent whose header has the magic number and a wrong checksum is lost. -/
theorem recovered_space_leaks :
    let s := blank {} (headerAt (putU64 extentHeaderMagic))
      (startAlloc {} (fun _ => 0x40000000) (fun _ => 0) 0x4000000) { devSize := 0x4000000 }
    (s.replayPasses onePut).recountExtents.extentMap.Apart
        (startFree (fun _ => 0x40000000) 0x4000000) ∧
      ¬ ∀ t, Holds ((s.recoverInternal onePut).alloc t)
        (startFree (fun _ => 0x40000000) 0x4000000 t \
          (s.recoverInternal onePut).extentMap.placed t) := by
  dsimp only
  refine ⟨apart_onePut _, fun hexact => ?_⟩
  have hcorrupt : 1 ∈ corruptExtents (headerAt (putU64 extentHeaderMagic))
      [⟨1, ⟨0x4000000, 0x400000, .FAST⟩, {}, 0, 5, 5⟩] := by decide +kernel
  rw [← survivors_onePut (headerAt (putU64 extentHeaderMagic))
    (startAlloc {} (fun _ => 0x40000000) (fun _ => 0) 0x4000000) { devSize := 0x4000000 }]
    at hcorrupt
  have hmem : (⟨1, ⟨0x4000000, 0x400000, .FAST⟩, {}, 0, 5, 5⟩ : SnapshotEntry) ∈
      (blank {} (headerAt (putU64 extentHeaderMagic))
        (startAlloc {} (fun _ => 0x40000000) (fun _ => 0) 0x4000000)
        { devSize := 0x4000000 }).survivors onePut := List.mem_singleton_self _
  have hlen : (⟨1, ⟨0x4000000, 0x400000, .FAST⟩, {}, 0, 5, 5⟩ : SnapshotEntry).location.length
      ≠ 0 := by decide
  have hlost := corrupt_space_lost (fun _ => by decide) (by decide) (apart_onePut _) hmem
    hcorrupt hlen
  exact hlost (hexact _)

/-- A sound header keeps the free space exact. -/
theorem recovered_space_exact_onePut :
    let s := blank {} (headerAt []) (startAlloc {} (fun _ => 0x40000000) (fun _ => 0) 0x4000000)
      { devSize := 0x4000000 }
    ∀ t, Holds ((s.recoverInternal onePut).alloc t)
      (startFree (fun _ => 0x40000000) 0x4000000 t \
        (s.recoverInternal onePut).extentMap.placed t) := by
  have hsound : corruptExtents (headerAt [])
      [⟨1, ⟨0x4000000, 0x400000, .FAST⟩, {}, 0, 5, 5⟩] = [] := by decide +kernel
  refine (recovered_space_exact_iff (fun _ => by decide) (by decide) (apart_onePut _)).mpr
    fun snap hsnap hbad => ?_
  rw [survivors_onePut, hsound] at hbad
  cases hbad

end Engine

end Clab.Btier
