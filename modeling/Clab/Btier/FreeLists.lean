import Clab.Btier.ExtentMap

/-!
# The free lists mirror the extents

Each tier's free list is a sorted set with one entry for every extent located
on that tier, carrying the room left in it. Every operation that does not move
an extent keeps this, so an extent found by `find_extent_with_space` really has
the space asked for.
-/

namespace Clab.Btier

/-! ## The order of the entries -/

namespace ExtentFreeEntry

theorem lt_iff {a b : ExtentFreeEntry} :
    a.lt b = true ↔
      a.freeBytes < b.freeBytes ∨ (a.freeBytes = b.freeBytes ∧ a.extentId < b.extentId) := by
  simp [lt]

theorem lt_irrefl (a : ExtentFreeEntry) : ¬ a.lt a = true := by
  rw [lt_iff]
  omega

theorem lt_trans {a b c : ExtentFreeEntry} (hab : a.lt b = true) (hbc : b.lt c = true) :
    a.lt c = true := by
  rw [lt_iff] at *
  omega

theorem lt_of_not_lt {a b : ExtentFreeEntry} (hne : a ≠ b) (h : ¬ a.lt b = true) :
    b.lt a = true := by
  rw [lt_iff] at *
  by_cases hf : a.freeBytes = b.freeBytes
  · have hid : a.extentId ≠ b.extentId := by
      intro hid
      cases a
      cases b
      exact hne (by simp_all)
    omega
  · omega

end ExtentFreeEntry

/-- A free list in the order of the set it stands for. -/
def SortedFree (l : List ExtentFreeEntry) : Prop := l.Pairwise fun a b => a.lt b = true

theorem SortedFree.nodup {l : List ExtentFreeEntry} (h : SortedFree l) : l.Nodup := by
  refine List.Pairwise.imp ?_ h
  rintro a b hab rfl
  exact a.lt_irrefl hab

theorem SortedFree.erase {l : List ExtentFreeEntry} (h : SortedFree l) (x : ExtentFreeEntry) :
    SortedFree (l.erase x) :=
  List.Pairwise.sublist List.erase_sublist h

@[simp] theorem mem_freeListInsert {x y : ExtentFreeEntry} {l : List ExtentFreeEntry} :
    y ∈ freeListInsert x l ↔ y = x ∨ y ∈ l := by
  induction l with
  | nil => simp [freeListInsert]
  | cons z zs ih =>
      unfold freeListInsert
      split
      · rename_i heq
        subst heq
        simp
      · split
        · simp
        · rw [List.mem_cons, ih, List.mem_cons]
          tauto

theorem SortedFree.insert {l : List ExtentFreeEntry} (h : SortedFree l) (x : ExtentFreeEntry) :
    SortedFree (freeListInsert x l) := by
  induction l with
  | nil => exact List.pairwise_singleton _ _
  | cons y ys ih =>
      obtain ⟨hy, hys⟩ := List.pairwise_cons.mp h
      unfold freeListInsert
      split
      · exact h
      · rename_i hne
        split
        · rename_i hlt
          refine List.pairwise_cons.mpr ⟨fun z hz => ?_, h⟩
          rcases List.mem_cons.mp hz with rfl | hz
          · exact hlt
          · exact ExtentFreeEntry.lt_trans hlt (hy z hz)
        · rename_i hlt
          refine List.pairwise_cons.mpr ⟨fun z hz => ?_, ih hys⟩
          rcases mem_freeListInsert.mp hz with rfl | hz
          · exact ExtentFreeEntry.lt_of_not_lt hne hlt
          · exact hy z hz

theorem mem_freeListReplace {l : List ExtentFreeEntry} (h : SortedFree l)
    {f old new : ExtentFreeEntry} :
    f ∈ freeListInsert new (l.erase old) ↔ f = new ∨ (f ≠ old ∧ f ∈ l) := by
  rw [mem_freeListInsert, h.nodup.mem_erase_iff]

/-! ## The mirror -/

namespace ExtentMap

/-- The room an entry's free-list element stands for. -/
def room (e : ExtentEntry) : Nat := sub32 (capacity e.location) e.usedBytes

/-- The free lists list the extents, each with its room. -/
structure Mirrored (em : ExtentMap) : Prop where
  sorted : ∀ t, SortedFree (em.freeLists t)
  mirror : ∀ t f, f ∈ em.freeLists t ↔
    ∃ e, em.lookup f.extentId = some e ∧ e.location.tier = t ∧ f.freeBytes = room e

theorem Mirrored.of_eq {em em' : ExtentMap} (hm : em.Mirrored)
    (hlists : em'.freeLists = em.freeLists) (hlookup : ∀ i, em'.lookup i = em.lookup i) :
    em'.Mirrored := by
  refine ⟨fun t => ?_, fun t f => ?_⟩
  · rw [hlists]
    exact hm.sorted t
  · rw [hlists, hlookup]
    exact hm.mirror t f

theorem mirrored_empty (blockSize extentSize : Nat) :
    ({ blockSize, extentSize } : ExtentMap).Mirrored :=
  ⟨fun _ => List.Pairwise.nil, fun t f => by simp [lookup]⟩

/-- Replacing an entry by one on the same tier, together with its free-list
element. -/
theorem Mirrored.replace {em em' : ExtentMap} (hm : em.Mirrored) {id : Nat}
    {e e' : ExtentEntry} (he : em.lookup id = some e)
    (htier : e'.location.tier = e.location.tier)
    (hlookup : ∀ i, em'.lookup i = if i = id then some e' else em.lookup i)
    (hlists : em'.freeLists = Function.update em.freeLists e.location.tier
      (freeListInsert ⟨room e', id⟩ ((em.freeLists e.location.tier).erase ⟨room e, id⟩))) :
    em'.Mirrored := by
  refine ⟨fun t => ?_, fun t f => ?_⟩
  · rw [hlists, Function.update_apply]
    split
    · exact ((hm.sorted _).erase _).insert _
    · exact hm.sorted t
  · rw [hlists, Function.update_apply, hlookup]
    by_cases hf : f.extentId = id
    · rw [if_pos hf]
      -- an element naming the extent is the old one or the new one
      have hold : ∀ t', f ∈ em.freeLists t' → t' = e.location.tier ∧ f = ⟨room e, id⟩ := by
        intro t' hmem
        obtain ⟨e₁, he₁, ht, hroom⟩ := (hm.mirror t' f).mp hmem
        rw [hf, he] at he₁
        cases he₁
        refine ⟨ht.symm, ?_⟩
        rw [← hroom, ← hf]
      split
      · rename_i ht
        rw [mem_freeListReplace (hm.sorted _)]
        constructor
        · rintro (rfl | ⟨hne, hmem⟩)
          · exact ⟨e', rfl, by rw [htier, ht], rfl⟩
          · exact absurd (hold _ hmem).2 hne
        · rintro ⟨e₁, he₁, -, hroom⟩
          cases he₁
          left
          rw [← hroom, ← hf]
      · rename_i ht
        constructor
        · intro hmem
          exact absurd (hold t hmem).1 ht
        · rintro ⟨e₁, he₁, ht₁, -⟩
          cases he₁
          exact absurd (ht₁.symm.trans htier) ht
    · rw [if_neg hf, ← hm.mirror t f]
      split
      · rename_i ht
        subst ht
        rw [mem_freeListReplace (hm.sorted _)]
        constructor
        · rintro (rfl | ⟨-, hmem⟩)
          · exact absurd rfl hf
          · exact hmem
        · intro hmem
          refine .inr ⟨?_, hmem⟩
          rintro rfl
          exact hf rfl
      · exact Iff.rfl

/-- An extent nothing was appended to has its whole capacity free. -/
theorem room_of_unused {e : ExtentEntry} (h : e.usedBytes = 0) : room e = capacity e.location := by
  unfold room
  rw [h, sub32_of_le (Nat.zero_le _) (capacity_lt _), Nat.sub_zero]

/-- A new entry with its free-list element; an entry of that id must have the
element already. -/
theorem Mirrored.addEntry {em : ExtentMap} (hm : em.Mirrored) {id : Nat} {loc : DiskLocation}
    (hsame : ∀ e, em.lookup id = some e → e.location.tier = loc.tier ∧ room e = capacity loc) :
    (em.addEntry id loc).Mirrored := by
  have hlists : (em.addEntry id loc).freeLists = Function.update em.freeLists loc.tier
      (freeListInsert ⟨capacity loc, id⟩ (em.freeLists loc.tier)) := rfl
  have hnew : room { location := loc } = capacity loc := room_of_unused rfl
  refine ⟨fun t => ?_, fun t f => ?_⟩
  · rw [hlists, Function.update_apply]
    split
    · exact (hm.sorted _).insert _
    · exact hm.sorted t
  · rw [hlists, Function.update_apply, lookup_addEntry]
    have hiff : f ∈ (if t = loc.tier then freeListInsert ⟨capacity loc, id⟩
        (em.freeLists loc.tier) else em.freeLists t) ↔
        (t = loc.tier ∧ f = ⟨capacity loc, id⟩) ∨ f ∈ em.freeLists t := by
      split
      · rename_i ht
        rw [mem_freeListInsert, ht]
        simp
      · rename_i ht
        simp [ht]
    rw [hiff, hm.mirror t f]
    by_cases hf : f.extentId = id
    · rw [if_pos hf, hf]
      constructor
      · rintro (⟨rfl, rfl⟩ | ⟨e, he, rfl, hroom⟩)
        · exact ⟨{ location := loc }, rfl, rfl, hnew.symm⟩
        · obtain ⟨ht, hr⟩ := hsame e he
          exact ⟨{ location := loc }, rfl, ht.symm, by rw [hroom, hr, hnew]⟩
      · rintro ⟨e, he, rfl, hroom⟩
        cases he
        left
        refine ⟨rfl, ?_⟩
        rw [hnew] at hroom
        rw [← hroom, ← hf]
    · rw [if_neg hf]
      constructor
      · rintro (⟨-, rfl⟩ | h)
        · exact absurd rfl hf
        · exact h
      · exact .inr

/-- The entry `allocate_extent` makes, under an id no extent has. -/
theorem Mirrored.allocated {em : ExtentMap} (hm : em.Mirrored)
    (hnew : em.lookup em.nextExtentId = none) (loc : DiskLocation) :
    (ExtentMap.addEntry { em with nextExtentId := em.nextExtentId + 1 } em.nextExtentId
      loc).Mirrored := by
  have hm' : ({ em with nextExtentId := em.nextExtentId + 1 } : ExtentMap).Mirrored :=
    hm.of_eq rfl fun _ => rfl
  refine hm'.addEntry fun e he => ?_
  have hnone := hnew.symm.trans he
  cases hnone

theorem Mirrored.createEntryFromJournal {em : ExtentMap} (hm : em.Mirrored) {id : Nat}
    {loc : DiskLocation}
    (hsame : ∀ e, em.lookup id = some e → e.location.tier = loc.tier ∧ room e = capacity loc) :
    (em.createEntryFromJournal id loc).Mirrored := by
  have hm' : ∀ next, ({ em with nextExtentId := next } : ExtentMap).Mirrored :=
    fun _ => hm.of_eq rfl fun _ => rfl
  exact (hm' _).addEntry hsame

theorem Mirrored.free {em : ExtentMap} (hm : em.Mirrored) (id : Nat) : (em.free id).Mirrored := by
  cases he : em.lookup id with
  | none =>
      have hsame : em.free id = em := by
        unfold ExtentMap.free
        rw [he]
      rw [hsame]
      exact hm
  | some e =>
      have hlists : (em.free id).freeLists = Function.update em.freeLists e.location.tier
          ((em.freeLists e.location.tier).erase ⟨room e, id⟩) := by
        unfold ExtentMap.free
        rw [he]
        rfl
      refine ⟨fun t => ?_, fun t f => ?_⟩
      · rw [hlists, Function.update_apply]
        split
        · exact (hm.sorted _).erase _
        · exact hm.sorted t
      · rw [hlists, Function.update_apply, lookup_free]
        have hold : ∀ t', f ∈ em.freeLists t' → f.extentId = id →
            t' = e.location.tier ∧ f = ⟨room e, id⟩ := by
          intro t' hmem hf
          obtain ⟨e₁, he₁, ht, hroom⟩ := (hm.mirror t' f).mp hmem
          rw [hf, he] at he₁
          cases he₁
          refine ⟨ht.symm, ?_⟩
          rw [← hroom, ← hf]
        by_cases hf : f.extentId = id
        · rw [if_pos hf]
          refine ⟨fun hmem => ?_, by rintro ⟨_, h, -⟩; cases h⟩
          split at hmem
          · rw [(hm.sorted _).nodup.mem_erase_iff] at hmem
            exact absurd (hold _ hmem.2 hf).2 hmem.1
          · rename_i ht
            exact absurd (hold _ hmem hf).1 ht
        · rw [if_neg hf, ← hm.mirror t f]
          split
          · rename_i ht
            subst ht
            rw [(hm.sorted _).nodup.mem_erase_iff]
            refine ⟨fun h => h.2, fun h => ⟨?_, h⟩⟩
            rintro rfl
            exact hf rfl
          · exact Iff.rfl

theorem Mirrored.markDeadSlot {em : ExtentMap} (hm : em.Mirrored) (id len : Nat) :
    (em.markDeadSlot id len).Mirrored := by
  cases he : em.lookup id with
  | none =>
      have hsame : em.markDeadSlot id len = em := by
        unfold ExtentMap.markDeadSlot
        rw [he]
      rw [hsame]
      exact hm
  | some e =>
      refine @Mirrored.replace _ _ hm id e (bumpGeneration { e with liveBytes := e.liveBytes - len })
        he rfl (fun i => ?_) ?_
      · rw [lookup_markDeadSlot, he]
        rfl
      · unfold ExtentMap.markDeadSlot
        rw [he]
        rfl

/-- An entry that keeps its tier and its room needs no new element. -/
theorem Mirrored.setEntry {em : ExtentMap} (hm : em.Mirrored) {id : Nat} {e e' : ExtentEntry}
    (he : em.lookup id = some e) (htier : e'.location.tier = e.location.tier)
    (hroom : room e' = room e) : (em.setEntry id e').Mirrored := by
  refine ⟨hm.sorted, fun t f => ?_⟩
  show f ∈ em.freeLists t ↔ _
  rw [hm.mirror t f, lookup_setEntry]
  by_cases hf : f.extentId = id
  · rw [if_pos hf, hf, he]
    constructor
    · rintro ⟨e₁, he₁, ht, hr⟩
      cases he₁
      exact ⟨e', rfl, htier.trans ht, hr.trans hroom.symm⟩
    · rintro ⟨e₁, he₁, ht, hr⟩
      cases he₁
      exact ⟨e, rfl, htier.symm.trans ht, hr.trans hroom⟩
  · rw [if_neg hf]

theorem Mirrored.recordIo {em : ExtentMap} (hm : em.Mirrored) (id : Nat) (op : IoOp)
    (now : Nat) : (em.recordIo id op now).Mirrored := by
  cases he : em.lookup id with
  | none =>
      have hsame : em.recordIo id op now = em := by
        unfold ExtentMap.recordIo
        rw [he]
      rw [hsame]
      exact hm
  | some e =>
      unfold ExtentMap.recordIo
      rw [he]
      exact hm.setEntry he rfl rfl

theorem Mirrored.appendSlot {em em' : ExtentMap} (hm : em.Mirrored) {id size off : Nat}
    (h : em.appendSlot id size = (off, em')) : em'.Mirrored := by
  unfold ExtentMap.appendSlot at h
  cases he : em.lookup id with
  | none =>
      simp only [he] at h
      cases h
      exact hm
  | some e =>
      simp only [he] at h
      split at h
      · cases h
        exact hm
      · split at h
        · cases h
          exact hm
        · cases h
          refine @Mirrored.replace _ _ hm id e (bumpGeneration { e with
            usedBytes := u32 (e.usedBytes + size)
            liveBytes := u32 (e.liveBytes + size) }) he rfl (fun i => ?_) rfl
          rw [lookup_updateFreeList, lookup_markDirty, lookup_setEntry]

theorem Mirrored.restoreExtentState {em : ExtentMap} (hm : em.Mirrored) (id used live : Nat) :
    (em.restoreExtentState id used live).Mirrored := by
  cases he : em.lookup id with
  | none =>
      have hsame : em.restoreExtentState id used live = em := by
        unfold ExtentMap.restoreExtentState
        rw [he]
      rw [hsame]
      exact hm
  | some e =>
      refine @Mirrored.replace _ _ hm id e { e with usedBytes := used, liveBytes := live } he rfl
        (fun i => ?_) ?_
      · rw [lookup_restoreExtentState, he]
        rfl
      · unfold ExtentMap.restoreExtentState
        rw [he]
        rfl

/-- The element of an extent is in the list of its tier. -/
theorem Mirrored.listed {em : ExtentMap} (hm : em.Mirrored) {id : Nat} {e : ExtentEntry}
    (he : em.lookup id = some e) : ⟨room e, id⟩ ∈ em.freeLists e.location.tier :=
  (hm.mirror _ _).mpr ⟨e, he, rfl, rfl⟩

/-- An element of a list says where its extent is and what room it has. -/
theorem Mirrored.tells {em : ExtentMap} (hm : em.Mirrored) {t : Tier} {n id : Nat}
    {e : ExtentEntry} (hf : ⟨n, id⟩ ∈ em.freeLists t) (he : em.lookup id = some e) :
    e.location.tier = t ∧ n = room e := by
  obtain ⟨e', he', ht, hr⟩ := (hm.mirror t ⟨n, id⟩).mp hf
  have heq := he.symm.trans he'
  cases heq
  exact ⟨ht, hr⟩

/-- An extent found for `needed` bytes has them. -/
theorem Mirrored.findExtentWithSpace {em : ExtentMap} (hm : em.Mirrored) {tier : Tier}
    {needed : Nat} (h : em.findExtentWithSpace tier needed ≠ UINT64_MAX) :
    ∃ e, em.lookup (em.findExtentWithSpace tier needed) = some e ∧ e.location.tier = tier ∧
      needed ≤ room e := by
  unfold ExtentMap.findExtentWithSpace at h ⊢
  dsimp only at h ⊢
  split
  · rename_i f hf
    have hmem := List.mem_of_find?_eq_some hf
    obtain ⟨hin, hlt⟩ := List.mem_filter.mp hmem
    obtain ⟨e, he, ht, hroom⟩ := (hm.mirror tier f).mp hin
    refine ⟨e, he, ht, ?_⟩
    have hge : ¬ f.lt ⟨needed, 0⟩ = true := by simpa using hlt
    rw [ExtentFreeEntry.lt_iff] at hge
    dsimp only at hge
    omega
  · rename_i hf
    rw [hf] at h
    exact absurd rfl h

end ExtentMap

end Clab.Btier
