import Clab.Btier.LiveBytes
import Clab.Btier.SlotRuns

/-!
# Reopening a store

Recovery sets the used bytes of an extent to the total length of its live
slots. That total reaches the end of every live slot exactly when no dead slot
lies below one (`Tiling.end_le_sum_iff`), so exactly then the next append stays
clear of the live values. A session is a run of calls and of restarts that meet
this condition.
-/

namespace Clab.Btier

open Clab.Blk Clab.EventLog Clab.Tiling

/-- No byte of the extent below the end of a slot that recovery locates is
outside all such slots. -/
def GapFreeIn (history : List JournalRecord) (id : Nat) : Prop :=
  ∀ k loc, replayByKind (keyEvents history) k = some loc → loc.extentId = id →
    ∀ b < loc.slotEnd, ∃ k' loc', replayByKind (keyEvents history) k' = some loc' ∧
      loc'.extentId = id ∧ loc'.offset ≤ b ∧ b < loc'.slotEnd

namespace Engine

variable {A : Type}

/-! ## The extents after the replay passes -/

/-- What the replay passes make of the extents: one untouched entry for each
announcement that is not withdrawn. -/
structure Rebuilt (history : List JournalRecord) (em : ExtentMap) : Prop where
  mirrored : em.Mirrored
  announced : ∀ id e, em.lookup id = some e → Announced history id e.location
  empty : ∀ id e, em.lookup id = some e → e.usedBytes = 0

theorem rebuilt_replayPasses (cfg : BtierConfig) (dev : Tier → BlockDevice) (alloc : Tier → A)
    (j : Journal) {history : List JournalRecord}
    (hunique : ∀ id l l', Announced history id l → Announced history id l' → l = l') :
    Rebuilt history ((blank cfg dev alloc j).replayPasses history).extentMap := by
  let P := fun s : Engine A => Rebuilt history s.extentMap
  have hentry : ∀ {em em' : ExtentMap}, Evolves em em' → Rebuilt history em →
      (∀ id e', em'.lookup id = some e' → ∃ e, em.lookup id = some e ∧
        e'.location = e.location ∧ e'.usedBytes = e.usedBytes) → Rebuilt history em' := by
    intro em em' hev hr hsame
    refine ⟨hev.mirrored hr.mirrored, fun id e' he' => ?_, fun id e' he' => ?_⟩
    · obtain ⟨e, he, hl, -⟩ := hsame id e' he'
      rw [hl]
      exact hr.announced id e he
    · obtain ⟨e, he, -, hu⟩ := hsame id e' he'
      rw [hu]
      exact hr.empty id e he
  refine replayOp_induct (P := P) ?_ fun s rec _ _ h => ?_
  · refine replayOp_induct (P := P) ?_ fun s rec _ _ h => ?_
    · refine replayOp_induct (P := P) ?_ fun s rec _ _ h => h
      refine replayOp_induct (P := P) ?_ fun s rec _ _ h => h
      refine replayOp_induct (P := P) ?_ fun s rec hrec hop h => ?_
      · exact ⟨ExtentMap.mirrored_empty _ _, fun id e he => (by cases he),
          fun id e he => (by cases he)⟩
      · have hann : Announced history rec.extentId rec.extentLoc := ⟨rec, hrec, hop, rfl, rfl⟩
        refine ⟨?_, fun id e he => ?_, fun id e he => ?_⟩
        · refine ExtentMap.Mirrored.createEntryFromJournal h.mirrored fun e he => ?_
          have hloc := hunique _ _ _ (h.announced _ e he) hann
          exact ⟨by rw [hloc], by rw [ExtentMap.room_of_unused (h.empty _ e he), hloc]⟩
        · rw [ExtentMap.lookup_createEntryFromJournal] at he
          split at he
          · rename_i hid
            cases he
            rw [hid]
            exact hann
          · exact h.announced id e he
        · rw [ExtentMap.lookup_createEntryFromJournal] at he
          split at he
          · cases he
            rfl
          · exact h.empty id e he
    · refine hentry (Evolves.markDeadSlot _ rec.extentId rec.deadLength) h fun id e' he' => ?_
      rw [ExtentMap.lookup_markDeadSlot] at he'
      split at he'
      · rename_i hid
        obtain ⟨e, he, rfl⟩ := Option.map_eq_some_iff.mp he'
        exact ⟨e, hid ▸ he, rfl, rfl⟩
      · exact ⟨e', he', rfl, rfl⟩
  · refine hentry (Evolves.free _ rec.extentId) h fun id e' he' => ?_
    rw [ExtentMap.lookup_free] at he'
    split at he'
    · cases he'
    · exact ⟨e', he', rfl, rfl⟩

theorem le_nextExtentId_create (em : ExtentMap) (id : Nat) (loc : DiskLocation) :
    em.nextExtentId ≤ (em.createEntryFromJournal id loc).nextExtentId ∧
      id < (em.createEntryFromJournal id loc).nextExtentId := by
  unfold ExtentMap.createEntryFromJournal ExtentMap.addEntry
  dsimp only
  split <;> omega

/-- No announced id will be given out again. -/
theorem announced_lt_nextExtentId (s : Engine A) {history : List JournalRecord} {id : Nat}
    {l : DiskLocation} (h : Announced history id l) :
    id < (s.replayPasses history).extentMap.nextExtentId := by
  have hfirst : id < (s.extentNewPass history).extentMap.nextExtentId := by
    obtain ⟨rec, hrec, hop, rfl, -⟩ := h
    unfold extentNewPass replayOp
    obtain ⟨before, after, rfl⟩ := List.append_of_mem hrec
    rw [List.foldl_append, List.foldl_cons, if_pos hop]
    refine List.foldlRecOn (motive := fun s : Engine A =>
      rec.extentId < s.extentMap.nextExtentId) after _ ?_ fun s hlt rec' _ => ?_
    · exact (le_nextExtentId_create _ _ _).2
    · split
      · exact hlt.trans_le (le_nextExtentId_create _ _ _).1
      · exact hlt
  let P := fun s : Engine A => id < s.extentMap.nextExtentId
  refine replayOp_induct (P := P) ?_ fun s rec _ _ h => ?_
  · refine replayOp_induct (P := P) ?_ fun s rec _ _ h => ?_
    · refine replayOp_induct (P := P) ?_ fun s rec _ _ h => h
      exact replayOp_induct (P := P) hfirst fun s rec _ _ h => h
    · show id < (ExtentMap.markDeadSlot _ _ _).nextExtentId
      rw [ExtentMap.nextExtentId_markDeadSlot]
      exact h
  · show id < (ExtentMap.free _ _).nextExtentId
    rw [ExtentMap.nextExtentId_free]
    exact h

/-! ## Stores without a restart -/

theorem sound_blank (cfg : BtierConfig) (dev : Tier → BlockDevice) (alloc : Tier → A)
    {j : Journal} (hj : j.history = []) (hidle : j.Idle) : (blank cfg dev alloc j).Sound := by
  have hlocated : ∀ k loc, ¬ Located {} [] k loc := by
    rintro k loc (h | h) <;> cases h
  refine ⟨?_, hidle⟩
  show SlotInv {} _ j.history
  rw [hj]
  refine ⟨KeyMap.Coherent.empty, ExtentMap.mirrored_empty _ _, fun id e he => (by cases he),
    fun id e he => (by cases he), fun id e he => (by cases he), ?_, ?_,
    fun k loc h => (by cases h), fun k loc h => absurd h (hlocated k loc),
    fun k loc e h => absurd h (hlocated k loc),
    fun k k' loc loc' _ h => absurd h (hlocated k loc)⟩
  · rintro id l ⟨rec, hrec, -⟩
    cases hrec
  · rintro id l l' ⟨rec, hrec, -⟩
    cases hrec

theorem Sound.get {s : Engine A} (hs : s.Sound) (key : Key) (now : Nat) :
    (s.get key now).2.2.Sound := by
  unfold Engine.get
  split
  · exact hs
  · split
    · exact hs
    · rename_i kloc _ _ _ _
      have hs' := hs.evolves (Evolves.recordIo s.extentMap kloc.extentId .READ now)
      exact ⟨hs'.slots, hs'.idle⟩

/-! ## The recovered store -/

variable [Allocator A]

/-- The extents recovery keeps: rebuilt, with live bytes, and without a corrupt
header. -/
theorem lookup_recovered (cfg : BtierConfig) (dev : Tier → BlockDevice) (alloc : Tier → A)
    (j : Journal) (records : List JournalRecord) (id : Nat) :
    ((blank cfg dev alloc j).recoverInternal records).extentMap.lookup id =
      if id ∈ corruptExtents dev ((blank cfg dev alloc j).survivors records) then none
      else if totalLive ((blank cfg dev alloc j).replayPasses records).keyMap id = 0 then none
      else (((blank cfg dev alloc j).replayPasses records).extentMap.lookup id).map
        (recounted (totalLive ((blank cfg dev alloc j).replayPasses records).keyMap id)) := by
  have hdev : ((blank cfg dev alloc j).replayPasses records).recountExtents.dev = dev :=
    (dev_recount _ _).trans (dev_replayPasses _ _)
  rw [← lookup_recountExtents]
  unfold recoverInternal verifyHeaders
  dsimp only
  refine (extentMap_verifyHeaders _ _ id).trans ?_
  show (if id ∈ corruptExtents
    ((blank cfg dev alloc j).replayPasses records).recountExtents.dev _ then _ else _) = _
  rw [hdev]
  rfl

/-- What the steps after the replay passes preserve of the extent map. -/
theorem extentMap_induct {P : ExtentMap → Prop} (cfg : BtierConfig) (dev : Tier → BlockDevice)
    (alloc : Tier → A) (j : Journal) (records : List JournalRecord)
    (h : P ((blank cfg dev alloc j).replayPasses records).extentMap)
    (hfree : ∀ em id, P em → P (em.free id))
    (hrestore : ∀ em id live, P em → P (em.restoreExtentState id live live))
    (hclear : ∀ em, P em → P em.clearDeferredFree) :
    P ((blank cfg dev alloc j).recoverInternal records).extentMap := by
  refine hclear _ (List.foldlRecOn (motive := fun s : Engine A => P s.extentMap) _ _ ?_
    fun s hP snap _ => ?_)
  · refine List.foldlRecOn (motive := fun s : Engine A => P s.extentMap) _ _ h
      fun s hP snap _ => ?_
    unfold recountExtent
    dsimp only
    split
    · exact hfree _ _ hP
    · exact hrestore _ _ _ hP
  · unfold verifyHeader
    dsimp only
    split
    · exact hfree _ _ hP
    · exact hP

section Restart

variable {s : Engine A} (hs : s.Sound) (cfg : BtierConfig) (dev : Tier → BlockDevice)
  (alloc : Tier → A) (j : Journal)

include hs

/-- The slots of the rebuilt key map in a surviving extent. -/
theorem rebuilt_slots {id : Nat} {e : ExtentEntry}
    (he : ((blank cfg dev alloc j).recoverInternal s.journal.history).extentMap.lookup id =
      some e) :
    id ∉ corruptExtents dev ((blank cfg dev alloc j).survivors s.journal.history) ∧
      e.usedBytes =
        totalLive ((blank cfg dev alloc j).replayPasses s.journal.history).keyMap id ∧
      Announced s.journal.history id e.location ∧
      ∀ k loc, replayByKind (keyEvents s.journal.history) k = some loc → loc.extentId = id →
        loc.slotEnd ≤ ExtentMap.capacity e.location := by
  rw [lookup_recovered] at he
  split at he
  · cases he
  · rename_i hok
    split at he
    · cases he
    · obtain ⟨e₀, he₀, rfl⟩ := Option.map_eq_some_iff.mp he
      have hann := (rebuilt_replayPasses cfg dev alloc j hs.slots.unique).announced id e₀ he₀
      refine ⟨hok, rfl, hann, fun k loc hl hid => ?_⟩
      obtain ⟨l, ha, hle⟩ := hs.slots.historic k loc hl
      rw [hid] at ha
      rw [hs.slots.unique id l _ ha hann] at hle
      exact hle

/-- The recovered used bytes of an extent reach the end of every slot in it
exactly when the journal leaves no gap. -/
theorem slotEnd_le_recovered_iff {id : Nat} {e : ExtentEntry}
    (he : ((blank cfg dev alloc j).recoverInternal s.journal.history).extentMap.lookup id =
      some e) :
    (∀ k loc, replayByKind (keyEvents s.journal.history) k = some loc → loc.extentId = id →
      loc.slotEnd ≤ e.usedBytes) ↔ GapFreeIn s.journal.history id := by
  obtain ⟨-, hused, -, hcap⟩ := rebuilt_slots hs cfg dev alloc j he
  have hkm := keyMap_replayPasses cfg dev alloc j s.journal.history
  have hc := coherent_replayPasses (s := blank cfg dev alloc j) KeyMap.Coherent.empty
    s.journal.history
  have hiff := @slotEnd_le_totalLive_iff _ id _ hc (ExtentMap.capacity_lt e.location)
    (by rw [hkm]; exact hcap) (by
      rw [hkm]
      intro k k' loc loc' hne hl hl' hid hid'
      exact hs.slots.apart k k' loc loc' hne (.inr hl) (.inr hl') (hid.trans hid'.symm))
  rw [hkm] at hiff
  rw [hused]
  exact hiff

/-- A restart on a journal without gaps gives a sound store again. -/
theorem Sound.restart (hj : j.history = s.journal.history) (hidle : j.Idle)
    (hgap : ∀ id e, ((blank cfg dev alloc j).recoverInternal
      s.journal.history).extentMap.lookup id = some e → GapFreeIn s.journal.history id) :
    ((blank cfg dev alloc j).recoverInternal s.journal.history).Sound := by
  have hrebuilt := rebuilt_replayPasses cfg dev alloc j hs.slots.unique
  have hc := coherent_replayPasses (s := blank cfg dev alloc j) KeyMap.Coherent.empty
    s.journal.history
  have hjournal : ((blank cfg dev alloc j).recoverInternal s.journal.history).journal = j :=
    journal_recoverInternal _ _
  have hlocated : ∀ k loc, Located
      ((blank cfg dev alloc j).recoverInternal s.journal.history).keyMap s.journal.history k loc →
      replayByKind (keyEvents s.journal.history) k = some loc := by
    rintro k loc (h | h)
    · rw [lookup_recoverInternal, Option.filter_eq_some_iff] at h
      exact h.1
    · exact h
  have hdated : ∀ id l, Announced s.journal.history id l →
      id < ((blank cfg dev alloc j).recoverInternal s.journal.history).extentMap.nextExtentId := by
    intro id l h
    refine extentMap_induct (P := fun em => id < em.nextExtentId) cfg dev alloc j _
      (announced_lt_nextExtentId _ h) (fun em i hlt => ?_) (fun em i live hlt => ?_)
      fun em hlt => hlt
    · rw [ExtentMap.nextExtentId_free]
      exact hlt
    · rw [ExtentMap.nextExtentId_restoreExtentState]
      exact hlt
  refine ⟨?_, by rw [hjournal]; exact hidle⟩
  rw [hjournal, hj]
  refine ⟨coherent_recoverInternal _ _ KeyMap.Coherent.empty, ?_, fun id e he => ?_,
    fun id e he => ?_, fun id e he => (rebuilt_slots hs cfg dev alloc j he).2.2.1, hdated,
    hs.slots.unique, hs.slots.historic, fun k loc hl => ?_, fun k loc e hl he => ?_,
    fun k k' loc loc' hne hl hl' => hs.slots.apart k k' loc loc' hne (.inr (hlocated k loc hl))
      (.inr (hlocated k' loc' hl'))⟩
  · exact extentMap_induct (P := ExtentMap.Mirrored) cfg dev alloc j _ hrebuilt.mirrored
      (fun em i hm => hm.free i) (fun em i live hm => hm.restoreExtentState i live live)
      fun em hm => hm.of_eq rfl fun _ => rfl
  · exact hdated id _ (rebuilt_slots hs cfg dev alloc j he).2.2.1
  · obtain ⟨-, hused, -, hcap⟩ := rebuilt_slots hs cfg dev alloc j he
    have hkm := keyMap_replayPasses cfg dev alloc j s.journal.history
    rw [hused]
    refine totalLive_le hc (ExtentMap.capacity_lt _) (by rw [hkm]; exact hcap) ?_
    rw [hkm]
    intro k k' loc loc' hne hl hl' hid hid'
    exact hs.slots.apart k k' loc loc' hne (.inr hl) (.inr hl') (hid.trans hid'.symm)
  · obtain ⟨l, ha, -⟩ := hs.slots.historic k loc (hlocated k loc hl)
    exact hdated _ l ha
  · exact (slotEnd_le_recovered_iff hs cfg dev alloc j he).mpr (hgap _ e he) k loc
      (hlocated k loc hl) rfl

end Restart

/-! ## Sessions -/

/-- The states of a store between two calls: a fresh store, then calls of `put`,
`get` and `del` with any result, and restarts whose journal leaves no gap. A
crash inside a call leaves the journal of a call whose later writes all fail. -/
inductive Session : Engine A → Prop
  | fresh (cfg : BtierConfig) (dev : Tier → BlockDevice) (alloc : Tier → A) (j : Journal) :
      j.history = [] → j.Idle → Session (blank cfg dev alloc j)
  | put {s : Engine A} (key : Key) (value : List Byte) (now : Nat) :
      Session s → Session (s.put key value now).2
  | get {s : Engine A} (key : Key) (now : Nat) : Session s → Session (s.get key now).2.2
  | del {s : Engine A} (key : Key) : Session s → Session (s.del key).2
  | restart {s : Engine A} (cfg : BtierConfig) (dev : Tier → BlockDevice) (alloc : Tier → A)
      (j : Journal) :
      Session s → j.history = s.journal.history → j.Idle →
      (∀ id e, ((blank cfg dev alloc j).recoverInternal
        s.journal.history).extentMap.lookup id = some e → GapFreeIn s.journal.history id) →
      Session ((blank cfg dev alloc j).recoverInternal s.journal.history)

theorem Session.sound {s : Engine A} (h : Session s) : s.Sound := by
  induction h with
  | fresh cfg dev alloc j hj hidle => exact sound_blank cfg dev alloc hj hidle
  | put key value now _ ih => exact ih.put key value now
  | get key now _ ih => exact ih.get key now
  | del key _ ih => exact ih.del key
  | restart cfg dev alloc j _ hj hidle hgap ih => exact ih.restart cfg dev alloc j hj hidle hgap

/-- No live slot of the extent ends above `used`. -/
def SlotsBelow (s : Engine A) (id used : Nat) : Prop :=
  ∀ k loc, s.keyMap.lookup k = some loc → loc.extentId = id → loc.slotEnd ≤ used

/-- Whatever is appended to the extent starts at or above the end of every live
slot in it. -/
def AppendsAbove (s : Engine A) (id : Nat) : Prop :=
  ∀ size off em, s.extentMap.appendSlot id size = (off, em) → off ≠ UINT32_MAX →
    s.SlotsBelow id off

omit [Allocator A] in
theorem appendsAbove_of_slotsBelow {s : Engine A} {id : Nat}
    (h : ∀ e, s.extentMap.lookup id = some e → s.SlotsBelow id e.usedBytes) :
    s.AppendsAbove id := by
  intro size off em happ hoff
  rcases ExtentMap.appendSlot_cases happ with ⟨hmax, -⟩ | ⟨e, -, he, -, -, rfl, -⟩
  · exact absurd hmax hoff
  · exact h e he

/-- In every state of a session the used bytes of an extent cover its live slots
and appends go above them; a recovery keeps this of an extent exactly when the
journal leaves no gap in it. -/
theorem recoverInternal_slotsBelow_iff {s : Engine A} (hs : Session s) :
    (∀ id e, s.extentMap.lookup id = some e →
      s.SlotsBelow id e.usedBytes ∧ s.AppendsAbove id) ∧
    ∀ cfg dev (alloc : Tier → A) j id e,
      ((blank cfg dev alloc j).recoverInternal s.journal.history).extentMap.lookup id = some e →
        (((blank cfg dev alloc j).recoverInternal s.journal.history).SlotsBelow id e.usedBytes ↔
          GapFreeIn s.journal.history id) ∧
        (GapFreeIn s.journal.history id →
          ((blank cfg dev alloc j).recoverInternal s.journal.history).AppendsAbove id) := by
  have hsound := hs.sound
  have hbelow : ∀ id e, s.extentMap.lookup id = some e → s.SlotsBelow id e.usedBytes := by
    rintro id e he k loc hl rfl
    exact hsound.slots.below k loc e (.inl hl) he
  refine ⟨fun id e he => ⟨hbelow id e he, appendsAbove_of_slotsBelow (hbelow id)⟩,
    fun cfg dev alloc j id e he => ?_⟩
  have hok := (rebuilt_slots hsound cfg dev alloc j he).1
  -- in a surviving extent recovery drops no key
  have hsame : ((blank cfg dev alloc j).recoverInternal s.journal.history).SlotsBelow id
      e.usedBytes ↔ ∀ k loc, replayByKind (keyEvents s.journal.history) k = some loc →
        loc.extentId = id → loc.slotEnd ≤ e.usedBytes := by
    refine forall₂_congr fun k loc => ?_
    rw [lookup_recoverInternal, Option.filter_eq_some_iff]
    constructor
    · intro h hl hid
      exact h ⟨hl, by simpa [hid] using hok⟩ hid
    · rintro h ⟨hl, -⟩ hid
      exact h hl hid
  have hiff := hsame.trans (slotEnd_le_recovered_iff hsound cfg dev alloc j he)
  refine ⟨hiff, fun hgap => appendsAbove_of_slotsBelow fun e' he' => ?_⟩
  rw [he] at he'
  cases he'
  exact hiff.mpr hgap

/-- An empty store on small devices: 4 MiB of free space after the journal. -/
def smallStore : Engine BitmapAllocator :=
  blank { extentSize := 0x2000 } (fun _ => { content := fun _ => 0, size := 0x20000000 })
    (fun _ => ((BitmapAllocator.create 0x20000000 4096).bind
      (·.initAddFree 0x4000 0x400000)).toOption.getD {}) { devSize := 0x4000 }

theorem recoverInternal_slotsBelow_put : ∃ (s : Engine BitmapAllocator) (e e' : ExtentEntry),
    s.keyMap.lookup [0x61] = some ⟨1, 0, 5⟩ ∧
      s.extentMap.lookup 1 = some e ∧ s.SlotsBelow 1 e.usedBytes ∧ s.AppendsAbove 1 ∧
      (smallStore.recoverInternal s.journal.history).extentMap.lookup 1 = some e' ∧
      ((smallStore.recoverInternal s.journal.history).SlotsBelow 1 e'.usedBytes ↔
        GapFreeIn s.journal.history 1) := by
  have hrun : (smallStore.put [0x61] [1, 2, 3, 4, 5] 0).2.keyMap.lookup [0x61] =
      some ⟨1, 0, 5⟩ := by decide +kernel
  have he : ((smallStore.put [0x61] [1, 2, 3, 4, 5] 0).2.extentMap.lookup 1).isSome := by
    decide +kernel
  have he' : ((smallStore.recoverInternal (smallStore.put [0x61] [1, 2, 3, 4,
      5] 0).2.journal.history).extentMap.lookup 1).isSome := by decide +kernel
  obtain ⟨e, he⟩ := Option.isSome_iff_exists.mp he
  obtain ⟨e', he'⟩ := Option.isSome_iff_exists.mp he'
  have hmain := recoverInternal_slotsBelow_iff
    (.put [0x61] [1, 2, 3, 4, 5] 0 (.fresh _ _ _ _ rfl fun _ => rfl) :
      Session (smallStore.put [0x61] [1, 2, 3, 4, 5] 0).2)
  exact ⟨_, e, e', hrun, he, (hmain.1 1 e he).1, (hmain.1 1 e he).2, he',
    (hmain.2 _ _ _ _ 1 e' he').1⟩

/-- The journal of two puts and a delete of the first key. -/
def putPutDel : List JournalRecord :=
  [extentNewRecord 1 ⟨0x4000000, 0x400000, .FAST⟩] ++ putRecords [0x61] none ⟨1, 0, 5⟩ ++
    putRecords [0x62] none ⟨1, 5, 5⟩ ++ [keyDelRecord [0x61], markDeadRecord ⟨1, 0, 5⟩]

/-- After two puts, a delete of the first and a restart, the next append gets
the slot of the second. -/
theorem recoverInternal_putPutDel :
    let dev : Tier → BlockDevice := fun _ => { content := fun _ => 0, size := 0x40000000 }
    let alloc : Tier → BitmapAllocator := fun _ => {}
    let s := (blank {} dev alloc { devSize := 0x4000000 }).recoverInternal putPutDel
    s.keyMap.lookup [0x62] = some ⟨1, 5, 5⟩ ∧ s.extentMap.getUsedBytes 1 = 5 ∧
      (s.extentMap.appendSlot 1 5).1 = 5 := by
  decide +kernel

end Engine

end Clab.Btier
