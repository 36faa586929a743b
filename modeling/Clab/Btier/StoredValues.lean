import Clab.Btier.JournalRing
import Clab.Btier.LiveBytes
import Clab.Btier.RecoveredSpace
import Clab.Btier.Relocation
import Clab.Btier.SlotRuns

/-!
# The values a store holds

`Stored` ties the engine to an abstract map from keys to values: every key is
located in an extent of the map, whose slot on the device has the value's bytes,
and the extents lie apart from each other, from the journal and from the space
the allocators may still give out. Here is what each part of a call does to it.
-/

namespace Clab.Btier

open Clab.Blk Clab.Common

/-- How the store sees its allocators: `holds t a free` says that the allocator
`a` of tier `t` may give out the bytes of `free`, in units, out of `range t`. -/
structure SpaceView (A : Type) where
  unit : Nat
  range : Tier → Set Nat
  holds : Tier → A → Set Nat → Prop

/-- What the store relies on: extents returned were free and are free no longer,
and what is given back is free again. -/
structure SoundAllocator {A : Type} [Allocator A] (view : SpaceView A) : Prop where
  within : ∀ {t : Tier} {a : A} {free : Set Nat}, view.holds t a free → free ⊆ view.range t
  allocate : ∀ {t : Tier} {a a' : A} {free : Set Nat} {want : Nat} {r : Int}
    {extents : List PExtent}, view.holds t a free → want % view.unit = 0 →
    Allocator.allocate a want view.unit want 0 = (r, extents, a') →
    ∃ free' ⊆ free, view.holds t a' free' ∧ ∀ e ∈ extents,
      Set.Ico e.offset (e.offset + e.length) ⊆ free \ free' ∧ 0 < e.length ∧
        view.unit ∣ e.offset ∧ view.unit ∣ e.length ∧ e.length < 2 ^ 32
  release : ∀ {t : Tier} {a : A} {free : Set Nat} {offset length : Nat}, view.holds t a free →
    0 < length → view.unit ∣ offset → view.unit ∣ length →
    Set.Ico offset (offset + length) ⊆ view.range t →
    Disjoint free (Set.Ico offset (offset + length)) →
    view.holds t (Allocator.release a [⟨offset, length⟩])
      (free ∪ Set.Ico offset (offset + length))

/-- A location of whole units. -/
structure DiskLocation.InUnits (loc : DiskLocation) (unit : Nat) : Prop where
  header : HEADER_SIZE ≤ loc.length
  small : loc.length < 2 ^ 32
  offset : unit ∣ loc.offset
  length : unit ∣ loc.length

/-- Locations awaiting their release: in `space`, apart from the extents of the
map and from each other. -/
structure ExtentMap.Retired (em : ExtentMap) (unit : Nat) (space : Tier → Set Nat) : Prop where
  within : ∀ d ∈ em.deferredFree, ∀ t, d.loc.bytesOn t ⊆ space t
  clear : ∀ d ∈ em.deferredFree, ∀ id e, em.lookup id = some e →
    ∀ t, Disjoint (e.location.bytesOn t) (d.loc.bytesOn t)
  pairwise : em.deferredFree.Pairwise fun a b => ∀ t, Disjoint (a.loc.bytesOn t) (b.loc.bytesOn t)
  units : ∀ d ∈ em.deferredFree, d.loc.InUnits unit

/-- What neither the journal nor the allocators have. -/
def heldSpace (range free : Tier → Set Nat) (journalSize : Nat) (t : Tier) : Set Nat :=
  range t \ (journalRegion journalSize t ∪ free t)

theorem heldSpace_mono {range free free' : Tier → Set Nat} (hsub : ∀ t, free' t ⊆ free t)
    (journalSize : Nat) (t : Tier) :
    heldSpace range free journalSize t ⊆ heldSpace range free' journalSize t :=
  Set.sdiff_subset_sdiff_right (Set.union_subset_union_right _ (hsub t))

namespace ExtentMap.Retired

variable {em em' : ExtentMap} {unit : Nat} {space space' : Tier → Set Nat}

theorem mono (h : em.Retired unit space) (hsub : ∀ t, space t ⊆ space' t) :
    em.Retired unit space' :=
  ⟨fun d hd t => (h.within d hd t).trans (hsub t), h.clear, h.pairwise, h.units⟩

/-- Extents at old places. -/
theorem keeps (h : em.Retired unit space) (hdef : em'.deferredFree = em.deferredFree)
    (hloc : ∀ id e', em'.lookup id = some e' →
      ∃ id₀ e, em.lookup id₀ = some e ∧ e'.location = e.location) : em'.Retired unit space := by
  refine ⟨hdef ▸ h.within, fun d hd id e' he' => ?_, hdef ▸ h.pairwise, hdef ▸ h.units⟩
  obtain ⟨id₀, e, he, hsame⟩ := hloc id e' he'
  rw [hsame]
  exact h.clear d (hdef ▸ hd) id₀ e he

/-- The place of a freed extent waits with the others. -/
theorem free (h : em.Retired unit space) (ha : em.Apart space)
    (hunits : ∀ id e, em.lookup id = some e → e.location.InUnits unit) (id : Nat) :
    (em.free id).Retired unit space := by
  cases he : em.lookup id with
  | none =>
      have hsame : em.free id = em := by
        unfold ExtentMap.free
        rw [he]
      rw [hsame]
      exact h
  | some e =>
      have hdef : (em.free id).deferredFree = em.deferredFree ++ [⟨e.location, em.seqno⟩] := by
        unfold ExtentMap.free
        rw [he]
        rfl
      have hmem : ∀ d ∈ (em.free id).deferredFree, d ∈ em.deferredFree ∨ d.loc = e.location := by
        intro d hd
        rw [hdef, List.mem_append, List.mem_singleton] at hd
        exact hd.imp (fun hold => hold) fun hnew => by rw [hnew]
      refine ⟨fun d hd => ?_, fun d hd i f hf => ?_, ?_, fun d hd => ?_⟩
      · rcases hmem d hd with hd | hd
        · exact h.within d hd
        · rw [hd]
          exact ha.within id e he
      · rw [lookup_free] at hf
        split at hf
        · cases hf
        · rename_i hi
          rcases hmem d hd with hd | hd
          · exact h.clear d hd i f hf
          · rw [hd]
            exact ha.disjoint i id f e hi hf he
      · rw [hdef, List.pairwise_append]
        refine ⟨h.pairwise, List.pairwise_singleton _ _, fun a ha' b hb t => ?_⟩
        rw [List.mem_singleton.mp hb]
        exact (h.clear a ha' id e he t).symm
      · rcases hmem d hd with hd | hd
        · exact h.units d hd
        · rw [hd]
          exact hunits id e he

end ExtentMap.Retired

namespace Engine

variable {A : Type}

/-! ## Live bytes -/

/-- The bytes the key map locates in an extent. -/
def liveSum (km : KeyMap) (id : Nat) : Nat :=
  ∑ k ∈ (km.keysInExtent id).toFinset, (slotOf km k).length

/-- What one key contributes. -/
def shareOf (loc : Option KeyLocation) (id : Nat) : Nat :=
  match loc with
  | some l => if l.extentId = id then l.length else 0
  | none => 0

theorem liveSum_split {km : KeyMap} (hc : km.Coherent) (key : Key) (id : Nat) :
    liveSum km id = shareOf (km.lookup key) id +
      ∑ k ∈ (km.keysInExtent id).toFinset.erase key, (slotOf km k).length := by
  unfold liveSum
  by_cases hmem : key ∈ (km.keysInExtent id).toFinset
  · obtain ⟨hl, hid⟩ := (mem_keysIn hc key).mp hmem
    rw [← Finset.add_sum_erase _ _ hmem, hl]
    simp [shareOf, hid]
  · have hshare : shareOf (km.lookup key) id = 0 := by
      cases hl : km.lookup key with
      | none => rfl
      | some loc =>
          refine if_neg fun hid => hmem ((mem_keysIn hc key).mpr ?_)
          rw [slotOf_of_lookup hl]
          exact ⟨hl, hid⟩
    rw [hshare, Nat.zero_add, Finset.erase_eq_of_notMem hmem]

/-- Relocating one key moves its share. -/
theorem liveSum_change {km km' : KeyMap} (hc : km.Coherent) (hc' : km'.Coherent) {key : Key}
    (hother : ∀ k, k ≠ key → km'.lookup k = km.lookup k) (id : Nat) :
    liveSum km' id + shareOf (km.lookup key) id = liveSum km id + shareOf (km'.lookup key) id := by
  have hslot : ∀ k, k ≠ key → slotOf km' k = slotOf km k := by
    intro k hk
    unfold slotOf
    rw [hother k hk]
  have hrest : (km'.keysInExtent id).toFinset.erase key =
      (km.keysInExtent id).toFinset.erase key := by
    ext k
    simp only [Finset.mem_erase, mem_keysIn hc, mem_keysIn hc']
    refine and_congr_right fun hk => ?_
    rw [hother k hk, hslot k hk]
  rw [liveSum_split hc key, liveSum_split hc' key, hrest,
    Finset.sum_congr rfl fun k hk => by rw [hslot k (Finset.ne_of_mem_erase hk)]]
  omega

theorem liveSum_of_vacant {km : KeyMap} (hc : km.Coherent) {id : Nat}
    (h : ∀ k loc, km.lookup k = some loc → loc.extentId ≠ id) : liveSum km id = 0 := by
  refine Finset.sum_eq_zero fun k hk => ?_
  obtain ⟨hl, hid⟩ := (mem_keysIn hc k).mp hk
  exact absurd hid (h k _ hl)

/-- No byte is live exactly when all values of the extent are empty. -/
theorem liveSum_eq_zero {km : KeyMap} (hc : km.Coherent) {id : Nat} :
    liveSum km id = 0 ↔ ∀ k loc, km.lookup k = some loc → loc.extentId = id → loc.length = 0 := by
  unfold liveSum
  rw [Finset.sum_eq_zero_iff]
  constructor
  · intro h k loc hl hid
    have := h k ((mem_keysIn hc k).mpr (by rw [slotOf_of_lookup hl]; exact ⟨hl, hid⟩))
    rwa [slotOf_of_lookup hl] at this
  · intro h k hk
    obtain ⟨hl, hid⟩ := (mem_keysIn hc k).mp hk
    exact h k _ hl hid

/-! ## Devices -/

/-- Every byte outside `w` is as before. -/
def Spares (dev dev' : Tier → BlockDevice) (w : Tier → Set Nat) : Prop :=
  ∀ t x, x ∉ w t → (dev' t).content x = (dev t).content x

theorem Spares.refl (dev : Tier → BlockDevice) (w : Tier → Set Nat) : Spares dev dev w :=
  fun _ _ _ => rfl

theorem Spares.trans {dev dev' dev'' : Tier → BlockDevice} {w : Tier → Set Nat}
    (h : Spares dev dev' w) (h' : Spares dev' dev'' w) : Spares dev dev'' w :=
  fun t x hx => (h' t x hx).trans (h t x hx)

theorem Spares.mono {dev dev' : Tier → BlockDevice} {w w' : Tier → Set Nat}
    (h : Spares dev dev' w) (hsub : ∀ t, w t ⊆ w' t) : Spares dev dev' w' :=
  fun t x hx => h t x fun hin => hx (hsub t hin)

/-- Writes of one device that all go into `w`. -/
theorem spares_of_wrote {dev : Tier → BlockDevice} {t : Tier} {d : BlockDevice}
    {ws : List (Nat × List Byte)} {w : Tier → Set Nat} (h : BlockDevice.Wrote (dev t) d ws)
    (hin : ∀ x ∈ ws, Set.Ico x.1 (x.1 + x.2.length) ⊆ w t) :
    Spares dev (Function.update dev t d) w := by
  intro t' x hx
  by_cases ht : t' = t
  · subst ht
    rw [Function.update_self, h.content]
    clear h
    induction ws with
    | nil => rfl
    | cons y rest ih =>
        have hout : ¬ (y.1 ≤ x ∧ x < y.1 + y.2.length) := fun hmem =>
          hx (hin y List.mem_cons_self hmem)
        rw [List.foldr_cons, ← ih fun z hz => hin z (List.mem_cons_of_mem _ hz)]
        exact if_neg hout
  · rw [Function.update_of_ne ht]

/-- The device bytes of a slot. -/
def slotSpace (loc : DiskLocation) (kloc : KeyLocation) (t : Tier) : Set Nat :=
  if loc.tier = t then Set.Ico (loc.offset + HEADER_SIZE + kloc.offset)
    (loc.offset + HEADER_SIZE + kloc.offset + kloc.length) else ∅

theorem mem_slotSpace {loc : DiskLocation} {kloc : KeyLocation} {t : Tier} {x : Nat} :
    x ∈ slotSpace loc kloc t ↔ loc.tier = t ∧ loc.offset + HEADER_SIZE + kloc.offset ≤ x ∧
      x < loc.offset + HEADER_SIZE + kloc.offset + kloc.length := by
  unfold slotSpace
  split
  · rename_i ht
    simp [ht]
  · rename_i ht
    simp [ht]

theorem mem_bytesOn {loc : DiskLocation} {t : Tier} {x : Nat} :
    x ∈ loc.bytesOn t ↔ loc.tier = t ∧ loc.offset ≤ x ∧ x < loc.offset + loc.length := by
  unfold DiskLocation.bytesOn
  split
  · rename_i ht
    simp [ht]
  · rename_i ht
    simp [ht]

/-- A slot none of whose bytes is written keeps them. -/
theorem Spares.slotBytes_eq {dev dev' : Tier → BlockDevice} {w : Tier → Set Nat}
    (h : Spares dev dev' w) {loc : DiskLocation} {kloc : KeyLocation}
    (hout : Disjoint (slotSpace loc kloc loc.tier) (w loc.tier)) :
    slotBytes dev' loc kloc = slotBytes dev loc kloc := by
  refine Content.read_congr fun x hlo hhi => h _ x fun hw => ?_
  exact Set.disjoint_left.mp hout (mem_slotSpace.mpr ⟨rfl, hlo, hhi⟩) hw

/-! ## The invariant -/

/-- The store holds exactly `values`. Each extent counts its live bytes and
`owed` more; the allocators may give out `free`. -/
structure Stored (view : SpaceView A) (s : Engine A) (values : Key → Option (List Byte))
    (owed : Nat → Nat) (free : Tier → Set Nat) : Prop where
  sound : s.Sound
  block : s.extentMap.blockSize = view.unit
  alive : ∀ k loc, s.keyMap.lookup k = some loc → ∃ e, s.extentMap.lookup loc.extentId = some e
  values : ∀ k, values k = (s.whereIs k).map fun w => slotBytes s.dev w.1 w.2
  live : ∀ id e, s.extentMap.lookup id = some e → liveSum s.keyMap id + owed id ≤ e.liveBytes
  used : ∀ id e, s.extentMap.lookup id = some e → e.liveBytes ≤ e.usedBytes
  units : ∀ id e, s.extentMap.lookup id = some e → e.location.InUnits view.unit
  alloc : ∀ t, view.holds t (s.alloc t) (free t)
  behind : ∀ t, Disjoint (journalRegion s.journal.devSize t) (free t)
  apart : s.extentMap.Apart (heldSpace view.range free s.journal.devSize)
  retired : s.extentMap.Retired view.unit (heldSpace view.range free s.journal.devSize)

/-- What `get` answers for a value of the map. -/
def answer : Option (List Byte) → Int × List Byte
  | none => (-enoent, [])
  | some v => (0, v)

section Invariant

variable {view : SpaceView A} {s s' : Engine A}
  {values : Key → Option (List Byte)} {owed owed' : Nat → Nat} {free : Tier → Set Nat}

/-- `get` answers with the value held. -/
theorem Stored.peek (h : Stored view s values owed free) (k : Key) (now : Nat) :
    s.peek k now = answer (values k) := by
  rw [peek_eq, h.values]
  cases s.whereIs k <;> rfl

theorem Stored.slotEnd_le (h : Stored view s values owed free) {k : Key} {loc : KeyLocation}
    {e : ExtentEntry} (hl : s.keyMap.lookup k = some loc)
    (he : s.extentMap.lookup loc.extentId = some e) :
    HEADER_SIZE + loc.slotEnd ≤ e.location.length := by
  have hbelow := h.sound.slots.below k loc e (.inl hl) he
  have hwithin := h.sound.slots.within _ e he
  have hlow := (h.units _ e he).header
  have hhigh := (h.units _ e he).small
  unfold ExtentMap.capacity at hwithin
  rw [sub32_of_le hlow hhigh] at hwithin
  omega

/-- A slot lies in its extent. -/
theorem Stored.slotSpace_subset (h : Stored view s values owed free) {k : Key}
    {loc : KeyLocation} {e : ExtentEntry} (hl : s.keyMap.lookup k = some loc)
    (he : s.extentMap.lookup loc.extentId = some e) (t : Tier) :
    slotSpace e.location loc t ⊆ e.location.bytesOn t := by
  intro x hx
  have hend := h.slotEnd_le hl he
  unfold KeyLocation.slotEnd at hend
  obtain ⟨ht, hlo, hhi⟩ := mem_slotSpace.mp hx
  exact mem_bytesOn.mpr ⟨ht, by omega, by omega⟩

/-- Locations and devices that keep the slots keep the values. -/
theorem Stored.values_of_frame (h : Stored view s values owed free)
    (hkm : s'.keyMap = s.keyMap)
    (hloc : ∀ k loc, s.keyMap.lookup k = some loc →
      s'.extentMap.getLocation loc.extentId = s.extentMap.getLocation loc.extentId)
    (hdev : ∀ k loc e, s.keyMap.lookup k = some loc → s.extentMap.lookup loc.extentId = some e →
      slotBytes s'.dev e.location loc = slotBytes s.dev e.location loc) (k : Key) :
    values k = (s'.whereIs k).map fun w => slotBytes s'.dev w.1 w.2 := by
  have hwhere : s'.whereIs k = s.whereIs k := whereIs_congr (by rw [hkm]) fun loc hl => hloc k loc hl
  rw [hwhere, h.values]
  cases hw : s.whereIs k with
  | none => rfl
  | some w =>
      obtain ⟨l, kloc⟩ := w
      obtain ⟨hl, hget⟩ := whereIs_eq_some.mp hw
      obtain ⟨e, he, rfl⟩ := Option.map_eq_some_iff.mp hget
      exact congrArg some (hdev k kloc e hl he).symm

/-- Writes into the journal and into free space touch no slot. -/
theorem Stored.slotBytes_of_spares (h : Stored view s values owed free)
    {dev : Tier → BlockDevice}
    (hdev : Spares s.dev dev fun t => journalRegion s.journal.devSize t ∪ free t)
    {k : Key} {loc : KeyLocation} {e : ExtentEntry} (hl : s.keyMap.lookup k = some loc)
    (he : s.extentMap.lookup loc.extentId = some e) :
    slotBytes dev e.location loc = slotBytes s.dev e.location loc := by
  refine hdev.slotBytes_eq (Set.disjoint_left.mpr fun x hx hw => ?_)
  exact (h.apart.within _ e he _ (h.slotSpace_subset hl he _ hx)).2 hw

/-! ## Extents -/

/-- A change of the extent map that keeps the extents of the keys. -/
theorem Stored.extents (h : Stored view s values owed free) {em : ExtentMap}
    (hev : Evolves s.extentMap em) (hblock : em.blockSize = s.extentMap.blockSize)
    (hkeep : ∀ k loc e, s.keyMap.lookup k = some loc →
      s.extentMap.lookup loc.extentId = some e → ∃ e', em.lookup loc.extentId = some e')
    (hlive : ∀ id e', em.lookup id = some e' →
      liveSum s.keyMap id + owed' id ≤ e'.liveBytes ∧ e'.liveBytes ≤ e'.usedBytes)
    (hret : em.Retired view.unit (heldSpace view.range free s.journal.devSize)) :
    Stored view { s with extentMap := em } values owed' free := by
  have hloc : ∀ k loc, s.keyMap.lookup k = some loc →
      em.getLocation loc.extentId = s.extentMap.getLocation loc.extentId := by
    intro k loc hl
    obtain ⟨e, he⟩ := h.alive k loc hl
    obtain ⟨e', he'⟩ := hkeep k loc e hl he
    obtain ⟨e₀, he₀, hsame, -⟩ := hev.entry _ e' he'
    rw [he] at he₀
    obtain rfl := Option.some.inj he₀
    unfold ExtentMap.getLocation
    rw [he, he', Option.map_some, Option.map_some, hsame]
  refine
    { sound := h.sound.evolves hev
      block := hblock.trans h.block
      alive := fun k loc hl => ?_
      values := h.values_of_frame rfl hloc fun _ _ _ _ _ => rfl
      live := fun id e he => (hlive id e he).1
      used := fun id e he => (hlive id e he).2
      units := fun id e' he' => ?_
      alloc := h.alloc
      behind := h.behind
      apart := ⟨fun id e' he' t => ?_, fun id id' e e' hne he he' t => ?_⟩
      retired := hret }
  · obtain ⟨e, he⟩ := h.alive k loc hl
    exact hkeep k loc e hl he
  · obtain ⟨e, he, hsame, -⟩ := hev.entry id e' he'
    rw [hsame]
    exact h.units id e he
  · obtain ⟨e, he, hsame, -⟩ := hev.entry id e' he'
    rw [hsame]
    exact h.apart.within id e he t
  · obtain ⟨e₀, he₀, hsame, -⟩ := hev.entry id e he
    obtain ⟨e₁, he₁, hsame', -⟩ := hev.entry id' e' he'
    rw [hsame, hsame']
    exact h.apart.disjoint id id' e₀ e₁ hne he₀ he₁ t

@[simp] theorem blockSize_free (em : ExtentMap) (id : Nat) : (em.free id).blockSize = em.blockSize := by
  unfold ExtentMap.free
  split <;> rfl

@[simp] theorem blockSize_markDeadSlot (em : ExtentMap) (id len : Nat) :
    (em.markDeadSlot id len).blockSize = em.blockSize := by
  unfold ExtentMap.markDeadSlot
  split <;> rfl

@[simp] theorem blockSize_recordIo (em : ExtentMap) (id : Nat) (op : IoOp) (now : Nat) :
    (em.recordIo id op now).blockSize = em.blockSize := by
  unfold ExtentMap.recordIo
  split <;> rfl

@[simp] theorem deferredFree_markDeadSlot (em : ExtentMap) (id len : Nat) :
    (em.markDeadSlot id len).deferredFree = em.deferredFree := by
  unfold ExtentMap.markDeadSlot
  split <;> rfl

@[simp] theorem deferredFree_recordIo (em : ExtentMap) (id : Nat) (op : IoOp) (now : Nat) :
    (em.recordIo id op now).deferredFree = em.deferredFree := by
  unfold ExtentMap.recordIo
  split <;> rfl

theorem deferredFree_appendSlot {em em' : ExtentMap} {id size off : Nat}
    (h : em.appendSlot id size = (off, em')) : em'.deferredFree = em.deferredFree := by
  unfold ExtentMap.appendSlot at h
  split at h
  · cases h
    rfl
  · split at h
    · cases h
      rfl
    · dsimp only at h
      split at h <;>
      · cases h
        rfl

/-- Extents that evolve without being freed. -/
theorem Stored.retired_evolves (h : Stored view s values owed free) {em : ExtentMap}
    (hev : Evolves s.extentMap em) (hdef : em.deferredFree = s.extentMap.deferredFree) :
    em.Retired view.unit (heldSpace view.range free s.journal.devSize) := by
  refine h.retired.keeps hdef fun id e' he' => ?_
  obtain ⟨e, he, hsame, -⟩ := hev.entry id e' he'
  exact ⟨id, e, he, hsame⟩

theorem getLocation_recordIo (em : ExtentMap) (id : Nat) (op : IoOp) (now i : Nat) :
    (em.recordIo id op now).getLocation i = em.getLocation i := by
  unfold ExtentMap.recordIo
  split
  · rfl
  · rename_i e he
    dsimp only
    rw [ExtentMap.getLocation_setEntry_same he (by rfl)]

theorem blockSize_appendSlot {em em' : ExtentMap} {id size off : Nat}
    (h : em.appendSlot id size = (off, em')) : em'.blockSize = em.blockSize := by
  unfold ExtentMap.appendSlot at h
  split at h
  · cases h
    rfl
  · split at h
    · cases h
      rfl
    · dsimp only at h
      split at h <;>
      · cases h
        rfl

/-- Giving up an extent without keys. -/
theorem Stored.freed (h : Stored view s values owed free) {id : Nat}
    (hvacant : ∀ k loc, s.keyMap.lookup k = some loc → loc.extentId ≠ id)
    (howed : ∀ i, i ≠ id → owed' i = owed i) :
    Stored view { s with extentMap := s.extentMap.free id } values owed' free := by
  refine h.extents (Evolves.free _ _) (blockSize_free _ _) (fun k loc e hl he => ⟨e, ?_⟩)
    (fun i e' he' => ?_) (h.retired.free h.apart h.units id)
  · rw [ExtentMap.lookup_free, if_neg (hvacant k loc hl)]
    exact he
  · rw [ExtentMap.lookup_free] at he'
    split at he'
    · cases he'
    · rename_i hi
      rw [howed i hi]
      exact ⟨h.live i e' he', h.used i e' he'⟩

/-- Writing off bytes that were owed. -/
theorem Stored.writtenOff (h : Stored view s values owed free) {id len : Nat}
    (hlen : owed' id + len ≤ owed id) (howed : ∀ i, i ≠ id → owed' i = owed i) :
    Stored view { s with extentMap := s.extentMap.markDeadSlot id len } values owed' free := by
  refine h.extents (Evolves.markDeadSlot _ _ _) (blockSize_markDeadSlot _ _ _)
    (fun k loc e hl he => ?_) (fun i e' he' => ?_)
    (h.retired_evolves (Evolves.markDeadSlot _ _ _) (deferredFree_markDeadSlot _ _ _))
  · rw [ExtentMap.lookup_markDeadSlot]
    split
    · rename_i hid
      rw [← hid, he]
      exact ⟨_, rfl⟩
    · exact ⟨e, he⟩
  · rw [ExtentMap.lookup_markDeadSlot] at he'
    split at he'
    · rename_i hi
      subst hi
      obtain ⟨e, he, rfl⟩ := Option.map_eq_some_iff.mp he'
      have hl := h.live i e he
      have hu := h.used i e he
      show _ ≤ e.liveBytes - len ∧ e.liveBytes - len ≤ e.usedBytes
      omega
    · rename_i hi
      rw [howed i hi]
      exact ⟨h.live i e' he', h.used i e' he'⟩

theorem Stored.recordIo (h : Stored view s values owed free) (id : Nat) (op : IoOp)
    (now : Nat) :
    Stored view { s with extentMap := s.extentMap.recordIo id op now } values owed free := by
  refine h.extents (Evolves.recordIo _ _ _ _) (blockSize_recordIo _ _ _ _)
    (fun k loc e hl he => ?_) (fun i e' he' => ?_)
    (h.retired_evolves (Evolves.recordIo _ _ _ _) (deferredFree_recordIo _ _ _ _))
  · unfold ExtentMap.recordIo
    cases hid : s.extentMap.lookup id with
    | none => exact ⟨e, he⟩
    | some f =>
        dsimp only
        rw [ExtentMap.lookup_setEntry]
        split
        · exact ⟨_, rfl⟩
        · exact ⟨e, he⟩
  · obtain ⟨e, he, hused, hlive, -⟩ := ExtentMap.lookup_recordIo _ _ _ _ _ he'
    rw [hused, hlive]
    exact ⟨h.live i e he, h.used i e he⟩

/-- A slot reserved in an extent is owed to it. -/
theorem Stored.appendSlot (h : Stored view s values 0 free) {id size off : Nat}
    {em : ExtentMap} (hn : ∀ e, s.extentMap.lookup id = some e → e.usedBytes + size < 2 ^ 32)
    (happ : s.extentMap.appendSlot id size = (off, em)) :
    (off = UINT32_MAX ∧ em = s.extentMap) ∨
      off ≠ UINT32_MAX ∧ Stored view { s with extentMap := em } values (Pi.single id size)
        free ∧ ∃ e e', s.extentMap.lookup id = some e ∧ em.lookup id = some e' ∧
          e'.location = e.location ∧ off = e.usedBytes := by
  have hev := Evolves.appendSlot hn happ
  have hblock := blockSize_appendSlot happ
  rcases ExtentMap.appendSlot_cases happ with hfail |
    ⟨e, e', he, -, hfit, hoff, hused, hlive, hloc, -, -, hlook⟩
  · exact .inl hfail
  have hu := h.used id e he
  have hn := hn e he
  rw [u32_of_lt hn] at hused hfit
  rw [u32_of_lt (by omega)] at hlive
  have hself : em.lookup id = some e' := by rw [hlook, if_pos rfl]
  refine .inr ⟨?_, h.extents hev hblock (fun k loc f hl hf => ?_) (fun i f hf => ?_)
    (h.retired_evolves hev (deferredFree_appendSlot happ)), e, e', he, hself, hloc, hoff⟩
  · have hlow := (h.units id e he).header
    have hhigh := (h.units id e he).small
    unfold ExtentMap.capacity at hfit
    rw [sub32_of_le hlow hhigh] at hfit
    have hheader : HEADER_SIZE = 4096 := rfl
    have hmax : UINT32_MAX = 2 ^ 32 - 1 := rfl
    omega
  · rw [hlook]
    split
    · exact ⟨e', rfl⟩
    · exact ⟨f, hf⟩
  · rw [hlook] at hf
    split at hf
    · rename_i hi
      obtain rfl := Option.some.inj hf
      subst hi
      have hl := h.live i e he
      rw [Pi.single_eq_same]
      rw [Pi.zero_apply] at hl
      omega
    · rename_i hi
      rw [Pi.single_eq_of_ne hi]
      exact ⟨h.live i f hf, h.used i f hf⟩

/-! ## The journal -/

/-- The bytes of the transaction that logging `recs` commits. -/
def logBytes (s : Engine A) (recs : List JournalRecord) : List Byte :=
  Journal.txnBytes s.journal.nextTxnId (serializeRecords (recs.map (Journal.stamp s.journal.nextTxnId)))

/-- The transaction goes into the ring, or the device refuses it. -/
def LogFits (s : Engine A) (recs : List JournalRecord) : Prop :=
  s.journal.Contains (s.dev .FAST) (s.logBytes recs)

/-- A checkpoint goes into the ring, or the device refuses it. -/
def CheckpointFits (s : Engine A) : Prop :=
  s.journal.Contains (s.dev .FAST) (Journal.checkpointBytes s.buildCheckpointState)

theorem spares_journal {dev : Tier → BlockDevice} {devSize : Nat} {d : BlockDevice}
    {ws : List (Nat × List Byte)} (hw : BlockDevice.Wrote (dev .FAST) d ws)
    (hin : ∀ x ∈ ws, x.1 + x.2.length ≤ devSize) :
    Spares dev (Function.update dev .FAST d) (journalRegion devSize) := by
  refine spares_of_wrote hw fun x hx y hy => ?_
  have := hin x hx
  exact ⟨Nat.zero_le y, hy.2.trans_le this⟩

/-- Logging writes inside the journal region. -/
theorem logRecords_spares {recs : List JournalRecord} {r : Int} (hidle : s.journal.Idle)
    (hfits : s.LogFits recs) (hlog : s.logRecords recs = (r, s')) :
    Spares s.dev s'.dev (journalRegion s.journal.devSize) ∧
      s'.journal.devSize = s.journal.devSize := by
  obtain ⟨m, heq, hid, -⟩ := Journal.foldl_append { s.journal with
    nextTxnId := s.journal.nextTxnId + 1
    activeTxns := s.journal.activeTxns.insert s.journal.nextTxnId
      { txnId := s.journal.nextTxnId } } s.journal.nextTxnId recs (AList.lookup_insert _)
  unfold logRecords withJournal at hlog
  rw [Journal.beginTxn_of_idle hidle] at hlog
  dsimp only at hlog heq
  rw [heq] at hlog
  generalize hj : ({ s.journal with
    nextTxnId := s.journal.nextTxnId + 1, activeTxns := m } : Journal) = j at hlog
  have hpayload : (Journal.Call.commitTxn s.journal.nextTxnId).payload j =
      some (s.logBytes recs) := by
    subst hj
    show (m.lookup _).map _ = _
    rw [hid]
    rfl
  have hcontains : j.Contains (s.dev .FAST) (s.logBytes recs) := by
    subst hj
    exact hfits.congr rfl rfl
  obtain ⟨ws, hw, hin⟩ := Journal.Call.run_inside hpayload hcontains
  have hsize := j.devSize_commitTxn (s.dev .FAST) s.journal.nextTxnId
  have hdev : j.devSize = s.journal.devSize := by rw [← hj]
  rw [hdev] at hin hsize
  have hrun : Journal.Call.run j (s.dev .FAST) (.commitTxn s.journal.nextTxnId) =
      j.commitTxn (s.dev .FAST) s.journal.nextTxnId := rfl
  rw [hrun] at hw
  generalize hout : j.commitTxn (s.dev .FAST) s.journal.nextTxnId = out at *
  obtain ⟨r', j', d'⟩ := out
  cases hlog
  exact ⟨spares_journal hw hin, hsize⟩

theorem checkpoint_spares (hfits : s.CheckpointFits) :
    Spares s.dev s.checkpoint.dev (journalRegion s.journal.devSize) ∧
      s.checkpoint.journal.devSize = s.journal.devSize := by
  obtain ⟨ws, hw, hin⟩ := Journal.Call.run_inside
    (j := s.journal) (c := .checkpoint s.buildCheckpointState) rfl hfits
  exact ⟨spares_journal hw hin, s.journal.devSize_checkpoint _ _⟩

/-- Writes into the journal and into free space, after which less may be free. -/
theorem Stored.reframed {free' : Tier → Set Nat} (h : Stored view s values owed free)
    (hs : s'.Sound) (hkm : s'.keyMap = s.keyMap)
    (hem : ∀ id, s'.extentMap.lookup id = s.extentMap.lookup id)
    (hblock : s'.extentMap.blockSize = s.extentMap.blockSize)
    (hret : s'.extentMap.Retired view.unit (heldSpace view.range free' s.journal.devSize))
    (hsub : ∀ t, free' t ⊆ free t) (hal : ∀ t, view.holds t (s'.alloc t) (free' t))
    (hsize : s'.journal.devSize = s.journal.devSize)
    (hdev : Spares s.dev s'.dev fun t => journalRegion s.journal.devSize t ∪ free t) :
    Stored view s' values owed free' := by
  have hloc : ∀ k loc, s.keyMap.lookup k = some loc →
      s'.extentMap.getLocation loc.extentId = s.extentMap.getLocation loc.extentId := by
    intro k loc _
    unfold ExtentMap.getLocation
    rw [hem]
  refine
    { sound := hs
      block := hblock.trans h.block
      alive := fun k loc hl => ?_
      values := h.values_of_frame hkm hloc fun k loc e hl he => h.slotBytes_of_spares hdev hl he
      live := fun id e he => ?_
      used := fun id e he => ?_
      units := fun id e he => ?_
      alloc := hal
      behind := fun t => ?_
      apart := ⟨fun id e he t => ?_, fun id id' e e' hne he he' => ?_⟩
      retired := by rw [hsize]; exact hret }
  · rw [hem]
    exact h.alive k loc (hkm ▸ hl)
  · rw [hkm]
    exact h.live id e (hem id ▸ he)
  · exact h.used id e (hem id ▸ he)
  · exact h.units id e (hem id ▸ he)
  · rw [hsize]
    exact (h.behind t).mono_right (hsub t)
  · rw [hsize]
    exact (h.apart.within id e (hem id ▸ he) t).trans (heldSpace_mono hsub _ t)
  · exact h.apart.disjoint id id' e e' hne (hem id ▸ he) (hem id' ▸ he')

/-- A journal operation that stays inside the region. -/
theorem Stored.journaled (h : Stored view s values owed free) (hs : s'.Sound)
    (hkm : s'.keyMap = s.keyMap) (hem : s'.extentMap = s.extentMap) (hal : s'.alloc = s.alloc)
    (hsize : s'.journal.devSize = s.journal.devSize)
    (hdev : Spares s.dev s'.dev (journalRegion s.journal.devSize)) :
    Stored view s' values owed free :=
  h.reframed hs hkm (fun _ => by rw [hem]) (by rw [hem]) (by rw [hem]; exact h.retired)
    (fun _ => subset_rfl) (by rw [hal]; exact h.alloc) hsize (hdev.mono fun _ => Set.subset_union_left)

theorem Stored.checkpoint (h : Stored view s values owed free) (hfits : s.CheckpointFits) :
    Stored view s.checkpoint values owed free := by
  obtain ⟨hdev, hsize⟩ := checkpoint_spares hfits
  obtain ⟨hkm, hem, -⟩ := checkpoint_spec s h.sound.idle
  exact h.journaled h.sound.checkpoint hkm hem rfl hsize hdev

/-- The transaction of a new extent takes one block. -/
theorem logFits_extentNew (hring : kTxnAlignment ≤ s.journal.dataSize) (id : Nat)
    (loc : DiskLocation) : s.LogFits [extentNewRecord id loc] := by
  intro _
  have hlen : (s.logBytes [extentNewRecord id loc]).length = 52 := by
    simp [logBytes, Journal.txnBytes, serializeRecords, serializeRecord, serializeBody,
      beginRecord, commitRecord, Journal.stamp, extentNewRecord, putU8, putU32,
      putU64, putDiskLocation]
  rw [Journal.paddedSize_of_le (by rw [hlen]; decide)]
  exact hring

/-! ## New extents -/

/-- Extents of another id and space leave the extent map's own apart. -/
theorem apart_addEntry {em : ExtentMap} {space space' : Tier → Set Nat} (h : em.Apart space)
    (hsub : ∀ t, space t ⊆ space' t) {loc : DiskLocation}
    (hin : ∀ t, loc.bytesOn t ⊆ space' t \ space t) :
    (ExtentMap.addEntry { em with nextExtentId := em.nextExtentId + 1 } em.nextExtentId
      loc).Apart space' := by
  have hentry : ∀ id e, (ExtentMap.addEntry { em with nextExtentId := em.nextExtentId + 1 }
      em.nextExtentId loc).lookup id = some e →
      (id = em.nextExtentId ∧ e.location = loc) ∨ (id ≠ em.nextExtentId ∧ em.lookup id = some e) := by
    intro id e he
    rw [ExtentMap.lookup_addEntry] at he
    split at he
    · rename_i hid
      cases he
      exact .inl ⟨hid, rfl⟩
    · rename_i hid
      exact .inr ⟨hid, he⟩
  have hnew : ∀ id e, em.lookup id = some e → ∀ t, Disjoint (loc.bytesOn t) (e.location.bytesOn t) :=
    fun id e he t => Set.disjoint_left.mpr fun x hx hx' => (hin t hx).2 (h.within id e he t hx')
  refine ⟨fun id e he t => ?_, fun id id' e e' hne he he' t => ?_⟩
  · rcases hentry id e he with ⟨-, rfl⟩ | ⟨-, he⟩
    · exact fun x hx => (hin t hx).1
    · exact (h.within id e he t).trans (hsub t)
  · rcases hentry id e he with ⟨hid, hl⟩ | ⟨-, he⟩
    · rcases hentry id' e' he' with ⟨hid', -⟩ | ⟨-, he'⟩
      · exact absurd (hid.trans hid'.symm) hne
      · rw [hl]
        exact hnew id' e' he' t
    · rcases hentry id' e' he' with ⟨-, hl'⟩ | ⟨-, he'⟩
      · rw [hl']
        exact (hnew id e he t).symm
      · exact h.disjoint id id' e e' hne he he' t

end Invariant

end Engine

end Clab.Btier
