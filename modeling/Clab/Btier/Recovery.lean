import Clab.Blk.BitmapAllocator
import Clab.Btier.Engine
import Clab.Lib.EventLog

/-!
# What recovery rebuilds

`recover_internal` replays the journal in one pass per opcode. The passes
compute the grouped replay of the key events (`keyMap_replayPasses`), the
recount rebuilds each extent's byte counts from the key map
(`lookup_recountExtents`), and the header check removes the keys of corrupt
extents (`lookup_verifyHeaders`). Together they decide when recovery equals the
history replayed in order.
-/

namespace Clab.Btier

open Clab.Blk Clab.EventLog

/-- The key-map update a journal record stands for. -/
def JournalRecord.keyEvent (rec : JournalRecord) : Option (Event Key KeyLocation) :=
  match rec.op with
  | .OP_KEY_PUT => some (.put rec.key rec.keyLoc)
  | .OP_KEY_DEL => some (.del rec.key)
  | _ => none

/-- The key-map updates of a journal, in commit order. -/
def keyEvents (records : List JournalRecord) : List (Event Key KeyLocation) :=
  records.filterMap JournalRecord.keyEvent

/-- The key map a history of records describes: its puts and deletes applied
one by one in commit order. -/
def replayInOrder (records : List JournalRecord) : Key → Option KeyLocation :=
  replay (keyEvents records)

theorem keyEvents_append (rs qs : List JournalRecord) :
    keyEvents (rs ++ qs) = keyEvents rs ++ keyEvents qs :=
  List.filterMap_append

theorem mem_keyEvents_del {records : List JournalRecord} {key : Key} :
    Event.del key ∈ keyEvents records ↔
      ∃ rec ∈ records, rec.op = .OP_KEY_DEL ∧ rec.key = key := by
  unfold keyEvents
  rw [List.mem_filterMap]
  constructor
  · rintro ⟨rec, hmem, hev⟩
    refine ⟨rec, hmem, ?_⟩
    unfold JournalRecord.keyEvent at hev
    split at hev <;> simp_all
  · rintro ⟨rec, hmem, hop, rfl⟩
    exact ⟨rec, hmem, by simp [JournalRecord.keyEvent, hop]⟩

namespace Engine

variable {A : Type}

/-! ## The replay passes -/

/-- What every step of a pass leaves alone, the pass leaves alone. -/
theorem replayOp_frame {β : Type} (g : Engine A → β) (s : Engine A)
    (records : List JournalRecord) (op : JournalOp) (f : Engine A → JournalRecord → Engine A)
    (hf : ∀ s rec, g (f s rec) = g s) : g (s.replayOp records op f) = g s := by
  unfold replayOp
  induction records generalizing s with
  | nil => rfl
  | cons rec rest ih =>
      rw [List.foldl_cons, ih]
      split
      · exact hf s rec
      · rfl

@[simp] theorem keyMap_extentNewPass (s : Engine A) (records : List JournalRecord) :
    (s.extentNewPass records).keyMap = s.keyMap :=
  replayOp_frame keyMap s records _ _ fun _ _ => rfl

@[simp] theorem keyMap_markDeadPass (s : Engine A) (records : List JournalRecord) :
    (s.markDeadPass records).keyMap = s.keyMap :=
  replayOp_frame keyMap s records _ _ fun _ _ => rfl

@[simp] theorem keyMap_extentFreePass (s : Engine A) (records : List JournalRecord) :
    (s.extentFreePass records).keyMap = s.keyMap :=
  replayOp_frame keyMap s records _ _ fun _ _ => rfl

theorem dev_replayPasses (s : Engine A) (records : List JournalRecord) :
    (s.replayPasses records).dev = s.dev := by
  unfold replayPasses extentFreePass markDeadPass keyDelPass keyPutPass extentNewPass
  iterate 5 rw [replayOp_frame dev]
  all_goals exact fun _ _ => rfl

/-- The put pass applies the put events to the key map. -/
theorem lookup_keyPutPass (s : Engine A) (records : List JournalRecord) (k : Key) :
    (s.keyPutPass records).keyMap.lookup k =
      replayFrom s.keyMap.lookup ((keyEvents records).filter Event.isPut) k := by
  unfold keyPutPass replayOp keyEvents
  induction records generalizing s with
  | nil => rfl
  | cons rec rest ih =>
      rw [List.foldl_cons, ih]
      by_cases hop : rec.op = .OP_KEY_PUT
      · have hev : rec.keyEvent = some (.put rec.key rec.keyLoc) := by
          simp [JournalRecord.keyEvent, hop]
        have hm : (s.keyMap.put rec.key rec.keyLoc 0).lookup =
            Function.update s.keyMap.lookup rec.key (some rec.keyLoc) := by
          funext k'
          simp [Function.update_apply]
        rw [if_pos hop, List.filterMap_cons_some hev,
          List.filter_cons_of_pos (by simp [Event.isPut])]
        show replayFrom (s.keyMap.put rec.key rec.keyLoc 0).lookup _ k = _
        rw [hm]
        rfl
      · rw [if_neg hop, List.filterMap_cons]
        cases hev : rec.keyEvent with
        | none => rfl
        | some e =>
            have hdel : e.isPut = false := by
              unfold JournalRecord.keyEvent at hev
              split at hev <;> simp_all
              subst hev
              rfl
            simp [hdel]

/-- The delete pass applies the delete events to the key map. -/
theorem lookup_keyDelPass (s : Engine A) (records : List JournalRecord) (k : Key) :
    (s.keyDelPass records).keyMap.lookup k =
      replayFrom s.keyMap.lookup ((keyEvents records).filter fun e => !e.isPut) k := by
  unfold keyDelPass replayOp keyEvents
  induction records generalizing s with
  | nil => rfl
  | cons rec rest ih =>
      rw [List.foldl_cons, ih]
      by_cases hop : rec.op = .OP_KEY_DEL
      · have hev : rec.keyEvent = some (.del rec.key) := by
          simp [JournalRecord.keyEvent, hop]
        have hm : (s.keyMap.erase rec.key).lookup =
            Function.update s.keyMap.lookup rec.key none := by
          funext k'
          simp [Function.update_apply]
        rw [if_pos hop, List.filterMap_cons_some hev,
          List.filter_cons_of_pos (by simp [Event.isPut])]
        show replayFrom (s.keyMap.erase rec.key).lookup _ k = _
        rw [hm]
        rfl
      · rw [if_neg hop, List.filterMap_cons]
        cases hev : rec.keyEvent with
        | none => rfl
        | some e =>
            have hput : e.isPut = true := by
              unfold JournalRecord.keyEvent at hev
              split at hev <;> simp_all
              subst hev
              rfl
            simp [hput]

/-- After the five passes the key map is the grouped replay of the records. -/
theorem keyMap_replayPasses (cfg : BtierConfig) (dev : Tier → BlockDevice) (alloc : Tier → A)
    (j : Journal) (records : List JournalRecord) :
    ((blank cfg dev alloc j).replayPasses records).keyMap.lookup =
      replayByKind (keyEvents records) := by
  funext k
  unfold replayPasses
  rw [keyMap_extentFreePass, keyMap_markDeadPass, lookup_keyDelPass]
  unfold replayByKind replay
  congr 1
  funext k'
  rw [lookup_keyPutPass, keyMap_extentNewPass]
  rfl

/-- What every step of a pass preserves, the pass preserves. -/
theorem replayOp_induct {P : Engine A → Prop} {s : Engine A} {records : List JournalRecord}
    {op : JournalOp} {f : Engine A → JournalRecord → Engine A} (hs : P s)
    (hf : ∀ s rec, rec ∈ records → rec.op = op → P s → P (f s rec)) :
    P (s.replayOp records op f) := by
  unfold replayOp
  refine List.foldlRecOn records _ hs fun s hP rec hrec => ?_
  split
  · rename_i hop
    exact hf s rec hrec hop hP
  · exact hP

theorem coherent_replayPasses {s : Engine A} (hc : s.keyMap.Coherent)
    (records : List JournalRecord) : (s.replayPasses records).keyMap.Coherent := by
  let P := fun s : Engine A => s.keyMap.Coherent
  refine replayOp_induct (P := P) ?_ fun s rec _ _ h => h
  refine replayOp_induct (P := P) ?_ fun s rec _ _ h => h
  refine replayOp_induct (P := P) ?_ fun s rec _ _ h => h.erase rec.key
  refine replayOp_induct (P := P) ?_ fun s rec _ _ h => h.put rec.key rec.keyLoc 0
  exact replayOp_induct (P := P) hc fun s rec _ _ h => h

/-! ## The recount -/

theorem keyMap_recount (s : Engine A) (snaps : List SnapshotEntry) :
    (snaps.foldl recountExtent s).keyMap = s.keyMap := by
  induction snaps generalizing s with
  | nil => rfl
  | cons snap rest ih => rw [List.foldl_cons, ih]; rfl

theorem dev_recount (s : Engine A) (snaps : List SnapshotEntry) :
    (snaps.foldl recountExtent s).dev = s.dev := by
  induction snaps generalizing s with
  | nil => rfl
  | cons snap rest ih => rw [List.foldl_cons, ih]; rfl

/-- An entry with both byte counts set to `live`. -/
def recounted (live : Nat) (e : ExtentEntry) : ExtentEntry :=
  { e with usedBytes := live, liveBytes := live }

/-- What the recount does to the entry of `id`. -/
theorem lookup_recount (s : Engine A) (snaps : List SnapshotEntry) (id : Nat) :
    (snaps.foldl recountExtent s).extentMap.lookup id =
      if ∃ snap ∈ snaps, snap.extentId = id then
        if totalLive s.keyMap id = 0 then none
        else (s.extentMap.lookup id).map (recounted (totalLive s.keyMap id))
      else s.extentMap.lookup id := by
  induction snaps generalizing s with
  | nil => simp
  | cons snap rest ih =>
      rw [List.foldl_cons, ih]
      have hkm : (recountExtent s snap).keyMap = s.keyMap := rfl
      rw [hkm]
      have hstep : (recountExtent s snap).extentMap.lookup id =
          if id = snap.extentId then
            if totalLive s.keyMap id = 0 then none
            else (s.extentMap.lookup id).map (recounted (totalLive s.keyMap id))
          else s.extentMap.lookup id := by
        by_cases hid : id = snap.extentId
        · subst hid
          unfold recountExtent
          by_cases hz : totalLive s.keyMap snap.extentId = 0
          · simp [hz]
          · simp only [hz, if_false, if_true, ExtentMap.lookup_restoreExtentState]
            rfl
        · unfold recountExtent
          by_cases hz : totalLive s.keyMap snap.extentId = 0 <;> simp [hz, hid]
      rw [hstep]
      by_cases hid : id = snap.extentId
      · subst hid
        by_cases hz : totalLive s.keyMap snap.extentId = 0
        · simp [hz]
        · by_cases hrest : ∃ snap' ∈ rest, snap'.extentId = snap.extentId
          · cases s.extentMap.lookup snap.extentId <;> simp [hz, recounted]
          · simp [hz, hrest]
      · have hne : ¬ snap.extentId = id := fun h => hid h.symm
        simp [hid, hne]

theorem lookup_recountExtents (s : Engine A) (id : Nat) :
    s.recountExtents.extentMap.lookup id =
      if totalLive s.keyMap id = 0 then none
      else (s.extentMap.lookup id).map (recounted (totalLive s.keyMap id)) := by
  unfold recountExtents
  rw [lookup_recount]
  by_cases hmem : ∃ snap ∈ s.extentMap.snapshot, snap.extentId = id
  · rw [if_pos hmem]
  · rw [if_neg hmem]
    have hnone : s.extentMap.lookup id = none := by
      cases hl : s.extentMap.lookup id with
      | none => rfl
      | some e => exact absurd (ExtentMap.mem_snapshot_iff.mpr ⟨e, hl⟩) hmem
    simp [hnone]

theorem foldl_totalLive_of_nil {km : KeyMap} {id : Nat} (h : km.keysInExtent id = []) :
    totalLive km id = 0 := by
  simp [totalLive, h]

/-! ## The header check -/

/-- The extents among `snaps` whose header block, as read from the devices,
carries the magic number and a wrong checksum. -/
def corruptExtents : (Tier → BlockDevice) → List SnapshotEntry → List Nat
  | _, [] => []
  | dev, snap :: rest =>
      let (bad, dev) := readHeader dev snap
      if bad then snap.extentId :: corruptExtents dev rest else corruptExtents dev rest

theorem mem_corruptExtents {dev : Tier → BlockDevice} {snaps : List SnapshotEntry} {e : Nat}
    (h : e ∈ corruptExtents dev snaps) : ∃ snap ∈ snaps, snap.extentId = e := by
  induction snaps generalizing dev with
  | nil => cases h
  | cons snap rest ih =>
      have hrest : e ∈ corruptExtents (readHeader dev snap).2 rest →
          ∃ snap' ∈ snap :: rest, snap'.extentId = e := by
        intro hmem
        obtain ⟨snap', hsnap', he⟩ := ih hmem
        exact ⟨snap', List.mem_cons_of_mem _ hsnap', he⟩
      unfold corruptExtents at h
      cases hbad : (readHeader dev snap).1 with
      | false => exact hrest (by simpa [hbad] using h)
      | true =>
          simp only [hbad, if_true, List.mem_cons] at h
          rcases h with rfl | h
          · exact ⟨snap, List.mem_cons_self, rfl⟩
          · exact hrest h

/-- Dropping an extent from the key map removes the keys located in it. -/
theorem lookup_dropKeys {km : KeyMap} (hc : km.Coherent) (e : Nat) (k : Key) :
    ((km.keysInExtent e).foldl KeyMap.erase km).lookup k =
      (km.lookup k).filter fun loc => loc.extentId ≠ e := by
  rw [KeyMap.lookup_erase_all]
  simp only [hc.mem_iff]
  cases hl : km.lookup k with
  | none => simp
  | some loc => by_cases he : loc.extentId = e <;> simp [he, Option.filter]

theorem lookup_verifyHeaders (s : Engine A) (hc : s.keyMap.Coherent)
    (snaps : List SnapshotEntry) (k : Key) :
    (snaps.foldl verifyHeader s).keyMap.lookup k =
      (s.keyMap.lookup k).filter fun loc => loc.extentId ∉ corruptExtents s.dev snaps := by
  induction snaps generalizing s with
  | nil => cases hl : s.keyMap.lookup k <;> simp [corruptExtents, hl, Option.filter]
  | cons snap rest ih =>
      rw [List.foldl_cons]
      cases hbad : (readHeader s.dev snap).1 with
      | false =>
          have hkm : (verifyHeader s snap).keyMap = s.keyMap := by simp [verifyHeader, hbad]
          have hdev : (verifyHeader s snap).dev = (readHeader s.dev snap).2 := by
            simp [verifyHeader, hbad]
          rw [ih _ (by rw [hkm]; exact hc), hkm, hdev]
          simp [corruptExtents, hbad]
      | true =>
          have hkm : (verifyHeader s snap).keyMap =
              (s.keyMap.keysInExtent snap.extentId).foldl KeyMap.erase s.keyMap := by
            simp [verifyHeader, hbad]
          have hdev : (verifyHeader s snap).dev = (readHeader s.dev snap).2 := by
            simp [verifyHeader, hbad]
          rw [ih _ (by rw [hkm]; exact hc.erase_all _), hkm, hdev, lookup_dropKeys hc]
          cases s.keyMap.lookup k with
          | none => rfl
          | some loc =>
              by_cases he : loc.extentId = snap.extentId <;>
                simp [Option.filter, he, corruptExtents, hbad]

/-- The header check frees the corrupt extents and touches no other. -/
theorem extentMap_verifyHeaders (s : Engine A) (snaps : List SnapshotEntry) (id : Nat) :
    (snaps.foldl verifyHeader s).extentMap.lookup id =
      if id ∈ corruptExtents s.dev snaps then none else s.extentMap.lookup id := by
  induction snaps generalizing s with
  | nil => simp [corruptExtents]
  | cons snap rest ih =>
      rw [List.foldl_cons, ih]
      have hdev : (verifyHeader s snap).dev = (readHeader s.dev snap).2 := by
        unfold verifyHeader
        dsimp only
        split <;> rfl
      rw [hdev]
      cases hbad : (readHeader s.dev snap).1 with
      | false => simp [verifyHeader, corruptExtents, hbad]
      | true =>
          by_cases hid : id = snap.extentId <;>
            simp [verifyHeader, corruptExtents, hbad, hid]

/-! ## The key map after recovery -/

/-- The extents recovery keeps after recounting live bytes. -/
def survivors (s : Engine A) (records : List JournalRecord) : List SnapshotEntry :=
  (s.replayPasses records).recountExtents.extentMap.snapshot

/-- A surviving extent holds at least one key. -/
theorem survivor_has_key {s : Engine A} (hc : s.keyMap.Coherent)
    {records : List JournalRecord} {snap : SnapshotEntry}
    (hmem : snap ∈ s.survivors records) :
    ∃ k loc, (s.replayPasses records).keyMap.lookup k = some loc ∧
      loc.extentId = snap.extentId := by
  obtain ⟨e, he⟩ := ExtentMap.mem_snapshot_iff.mp ⟨snap, hmem, rfl⟩
  rw [lookup_recountExtents] at he
  split at he
  · cases he
  · rename_i hlive
    cases hk : (s.replayPasses records).keyMap.keysInExtent snap.extentId with
    | nil => exact absurd (foldl_totalLive_of_nil hk) hlive
    | cons k ks =>
        have hin : k ∈ (s.replayPasses records).keyMap.keysInExtent snap.extentId := by
          rw [hk]
          exact List.mem_cons_self
        obtain ⟨loc, hloc, hid⟩ := ((coherent_replayPasses hc records).mem_iff _ k).mp hin
        exact ⟨k, loc, hloc, hid⟩

variable [Allocator A]

theorem journal_recoverInternal (s : Engine A) (records : List JournalRecord) :
    (s.recoverInternal records).journal = s.journal := by
  have hpasses : (s.replayPasses records).journal = s.journal := by
    unfold replayPasses extentFreePass markDeadPass keyDelPass keyPutPass extentNewPass
    iterate 5 rw [replayOp_frame journal]
    all_goals exact fun _ _ => rfl
  have hrecount : ((s.replayPasses records).recountExtents).journal = s.journal :=
    List.foldlRecOn (motive := fun t : Engine A => t.journal = s.journal) _ _ hpasses
      fun t ht snap _ => ht
  unfold recoverInternal verifyHeaders
  dsimp only
  refine List.foldlRecOn (motive := fun t : Engine A => t.journal = s.journal) _ _ hrecount
    fun t ht snap _ => ?_
  unfold verifyHeader
  dsimp only
  split <;> exact ht

theorem coherent_recoverInternal (s : Engine A) (records : List JournalRecord)
    (hc : s.keyMap.Coherent) : (s.recoverInternal records).keyMap.Coherent := by
  unfold recoverInternal verifyHeaders
  dsimp only
  refine List.foldlRecOn (motive := fun t : Engine A => t.keyMap.Coherent) _ _ ?_
    fun t ht snap _ => ?_
  · show (List.foldl recountExtent _ _).keyMap.Coherent
    rw [keyMap_recount]
    exact coherent_replayPasses hc records
  · unfold verifyHeader
    dsimp only
    split
    · exact ht.erase_all _
    · exact ht

/-- Recovery's key map: the grouped replay without the keys of corrupt extents. -/
theorem lookup_recoverInternal (cfg : BtierConfig) (dev : Tier → BlockDevice)
    (alloc : Tier → A) (j : Journal) (records : List JournalRecord) (k : Key) :
    ((blank cfg dev alloc j).recoverInternal records).keyMap.lookup k =
      (replayByKind (keyEvents records) k).filter fun loc =>
        loc.extentId ∉ corruptExtents dev ((blank cfg dev alloc j).survivors records) := by
  have hc := coherent_replayPasses (s := blank cfg dev alloc j) KeyMap.Coherent.empty records
  have hkm : ((blank cfg dev alloc j).replayPasses records).recountExtents.keyMap =
      ((blank cfg dev alloc j).replayPasses records).keyMap := keyMap_recount _ _
  have hdev : ((blank cfg dev alloc j).replayPasses records).recountExtents.dev = dev :=
    (dev_recount _ _).trans (dev_replayPasses _ _)
  unfold recoverInternal verifyHeaders
  dsimp only
  refine (lookup_verifyHeaders _ ?_ _ k).trans ?_
  · show ((blank cfg dev alloc j).replayPasses records).recountExtents.keyMap.Coherent
    rw [hkm]
    exact hc
  · show ((((blank cfg dev alloc j).replayPasses records).recountExtents.keyMap).lookup
      k).filter (fun loc : KeyLocation => _) = _
    rw [hkm, keyMap_replayPasses]
    show Option.filter (fun loc : KeyLocation => decide (loc.extentId ∉ corruptExtents
      ((blank cfg dev alloc j).replayPasses records).recountExtents.dev _)) _ = _
    rw [hdev]
    rfl

/-- Recovery is the in-order replay exactly when no key that ends present was
ever deleted and no extent with live bytes has a corrupt header. -/
theorem recoverInternal_inOrder_iff (cfg : BtierConfig) (dev : Tier → BlockDevice)
    (alloc : Tier → A) (j : Journal) (records : List JournalRecord) :
    (∀ k, ((blank cfg dev alloc j).recoverInternal records).keyMap.lookup k =
        replayInOrder records k) ↔
      (∀ rec ∈ records, rec.op = .OP_KEY_DEL → replayInOrder records rec.key = none) ∧
        corruptExtents dev ((blank cfg dev alloc j).survivors records) = [] := by
  have hlookup := lookup_recoverInternal cfg dev alloc j records
  have hpasses := keyMap_replayPasses cfg dev alloc j records
  constructor
  · intro heq
    -- a key that recovery shows is one the grouped replay shows
    have hgrouped : ∀ k loc, replayInOrder records k = some loc →
        replayByKind (keyEvents records) k = some loc ∧ loc.extentId ∉
          corruptExtents dev ((blank cfg dev alloc j).survivors records) := by
      intro k loc hk
      have hf := (hlookup k).symm.trans ((heq k).trans hk)
      rw [Option.filter_eq_some_iff] at hf
      exact ⟨hf.1, by simpa using hf.2⟩
    constructor
    · intro rec hmem hop
      cases hk : replayInOrder records rec.key with
      | none => rfl
      | some loc =>
          have hno := (replay_of_replayByKind (hgrouped _ _ hk).1).1
          exact absurd (mem_keyEvents_del.mpr ⟨rec, hmem, hop, rfl⟩) hno
    · rw [List.eq_nil_iff_forall_not_mem]
      intro e he
      obtain ⟨snap, hsnap, rfl⟩ := mem_corruptExtents he
      obtain ⟨k, loc, hk, hid⟩ := survivor_has_key KeyMap.Coherent.empty hsnap
      rw [hpasses] at hk
      have hin := (replay_of_replayByKind hk).2
      exact (hgrouped k loc hin).2 (hid ▸ he)
  · rintro ⟨hdel, hcorrupt⟩ k
    have hkind : replayByKind (keyEvents records) k = replayInOrder records k := by
      refine (replayByKind_eq_replay_iff _ k).mpr fun hsome hmem => ?_
      obtain ⟨rec, hrec, hop, rfl⟩ := mem_keyEvents_del.mp hmem
      exact hsome (hdel rec hrec hop)
    rw [hlookup, hcorrupt, hkind]
    cases replayInOrder records k <;> simp [Option.filter]

/-- The journal of a put, a delete and another put of one key. -/
def putDelPut : List JournalRecord :=
  [extentNewRecord 1 ⟨0x4000000, 0x400000, .FAST⟩] ++ putRecords [0x6b] none ⟨1, 0, 5⟩ ++
    [keyDelRecord [0x6b], markDeadRecord ⟨1, 0, 5⟩] ++
    [extentNewRecord 2 ⟨0x4400000, 0x400000, .FAST⟩] ++ putRecords [0x6b] none ⟨2, 0, 5⟩

/-- Recovery forgets a key that was deleted and put again. -/
theorem recoverInternal_putDelPut :
    let dev : Tier → BlockDevice := fun _ => { content := fun _ => 0, size := 0x40000000 }
    let alloc : Tier → BitmapAllocator := fun _ => {}
    replayInOrder putDelPut [0x6b] = some ⟨2, 0, 5⟩ ∧
      ((blank {} dev alloc { devSize := 0x4000000 }).recoverInternal putDelPut).keyMap.lookup
        [0x6b] = none := by
  decide +kernel

end Engine

end Clab.Btier
