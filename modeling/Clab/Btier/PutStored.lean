import Clab.Btier.JournalRoom

/-!
# What a call does to the values

`put` allocates, writes and logs before it locates the key, and gives back what
it took on every error path. Here each of these steps is shown to keep the
values of the store; the last one changes the value of one key.
-/

namespace Clab.Btier

open Clab.Blk Clab.Common

/-- The key location of the slot. -/
def Placement.slot (p : Placement) (n : Nat) : KeyLocation := ⟨p.extentId, p.offset, n⟩

namespace Engine

variable {A : Type} {view : SpaceView A} {s s' : Engine A}
  {values : Key → Option (List Byte)} {owed : Nat → Nat} {free : Tier → Set Nat}

/-! ## Slots set aside -/

/-- A slot of `n` bytes above those of all keys of its extent, in which no key
is when `put` has just made it. -/
structure SetAside (s : Engine A) (p : Placement) (n : Nat) : Prop where
  entry : ∃ e, s.extentMap.lookup p.extentId = some e ∧ e.location = p.loc
  inside : HEADER_SIZE + p.offset + n ≤ p.loc.length
  above : ∀ k loc, s.keyMap.lookup k = some loc → loc.extentId = p.extentId →
    loc.slotEnd ≤ p.offset
  vacant : p.newExtentCreated = true →
    ∀ k loc, s.keyMap.lookup k = some loc → loc.extentId ≠ p.extentId

theorem SetAside.congr {p : Placement} {n : Nat} (h : s.SetAside p n)
    (hkm : s'.keyMap = s.keyMap)
    (hloc : s'.extentMap.getLocation p.extentId = s.extentMap.getLocation p.extentId) :
    s'.SetAside p n := by
  refine ⟨?_, h.inside, hkm ▸ h.above, hkm ▸ h.vacant⟩
  obtain ⟨e, he, hl⟩ := h.entry
  have hget : s'.extentMap.getLocation p.extentId = some p.loc := by
    rw [hloc, ExtentMap.getLocation, he, Option.map_some, hl]
  exact Option.map_eq_some_iff.mp hget

/-- Reserving bytes of an extent sets a slot aside, or changes nothing. -/
theorem Stored.reserve (h : Stored view s values 0 free) {id size off : Nat}
    {em : ExtentMap} {loc : DiskLocation} {created : Bool}
    (hn : ∀ e, s.extentMap.lookup id = some e → e.usedBytes + size < 2 ^ 32)
    (hloc : ∀ e, s.extentMap.lookup id = some e → e.location = loc)
    (hvacant : created = true → ∀ k l, s.keyMap.lookup k = some l → l.extentId ≠ id)
    (happ : s.extentMap.appendSlot id size = (off, em)) :
    (off = UINT32_MAX ∧ em = s.extentMap) ∨
      off ≠ UINT32_MAX ∧
        Stored view { s with extentMap := em } values (Pi.single id size) free ∧
        ({ s with extentMap := em } : Engine A).SetAside ⟨id, off, loc, created⟩ size := by
  rcases h.appendSlot hn happ with hfail | ⟨hoff, hstored, e, e', he, he', hsame, hused⟩
  · exact .inl hfail
  refine .inr ⟨hoff, hstored, ⟨e', he', hsame.trans (hloc e he)⟩, ?_, fun k l hl hid => ?_, hvacant⟩
  · rcases ExtentMap.appendSlot_cases happ with ⟨hfail, -⟩ | ⟨f, -, hf, -, hfit, -⟩
    · exact absurd hfail hoff
    rw [he] at hf
    obtain rfl := Option.some.inj hf
    have hlow := (h.units id e he).header
    have hhigh := (h.units id e he).small
    rw [u32_of_lt (hn e he)] at hfit
    unfold ExtentMap.capacity at hfit
    rw [sub32_of_le hlow hhigh, hloc e he] at hfit
    rw [hloc e he] at hlow
    dsimp only
    omega
  · have hid' : l.extentId = id := hid
    show l.slotEnd ≤ off
    rw [hused]
    exact h.sound.slots.below k l e (.inl hl) (hid' ▸ he)

/-- Writing into a slot that is set aside touches no value. -/
theorem Stored.writeValue (h : Stored view s values owed free) {p : Placement}
    {value : List Byte} {r : Int} (hp : s.SetAside p value.length)
    (hwrite : s.writeValue p value = (r, s')) :
    Stored view s' values owed free ∧ s'.SetAside p value.length ∧
      (0 ≤ r → slotBytes s'.dev p.loc (p.slot value.length) = value) := by
  obtain ⟨hkm, hem, hj⟩ := writeValue_keeps hwrite
  obtain ⟨e, he, hloc⟩ := hp.entry
  have hin := hp.inside
  have halloc : s'.alloc = s.alloc := by
    unfold Engine.writeValue at hwrite
    cases hwrite
    rfl
  have hdev : Spares s.dev s'.dev (slotSpace p.loc (p.slot value.length)) ∧
      (0 ≤ r → slotBytes s'.dev p.loc (p.slot value.length) = value) := by
    unfold Engine.writeValue at hwrite
    generalize hw : (s.dev p.loc.tier).write _ _ _ = out at hwrite
    obtain ⟨r', d⟩ := out
    cases hwrite
    rcases BlockDevice.wrote_write hw with ⟨hneg, hw⟩ | ⟨-, hw⟩
    · exact ⟨spares_of_wrote hw fun x hx => (by cases hx), fun hr => by omega⟩
    · refine ⟨spares_of_wrote hw fun x hx => ?_, fun _ => ?_⟩
      · rw [List.mem_singleton] at hx
        subst hx
        rw [slotSpace, if_pos rfl]
        exact subset_rfl
      · show (Function.update s.dev p.loc.tier d p.loc.tier).content.read _ _ = _
        rw [Function.update_self, hw.content]
        exact Content.read_write_same _ _ _
  obtain ⟨hspares, hbytes⟩ := hdev
  refine ⟨?_, hp.congr hkm (by rw [hem]), hbytes⟩
  refine
    { sound := h.sound.of_same hkm hem hj
      block := by rw [hem]; exact h.block
      alive := by rw [hkm, hem]; exact h.alive
      values := h.values_of_frame hkm (fun _ _ _ => by rw [hem]) fun k loc f hl hf => ?_
      live := by rw [hkm, hem]; exact h.live
      used := by rw [hem]; exact h.used
      units := by rw [hem]; exact h.units
      alloc := by rw [halloc]; exact h.alloc
      behind := by rw [hj]; exact h.behind
      apart := by rw [hem, hj]; exact h.apart
      retired := by rw [hem, hj]; exact h.retired }
  refine hspares.slotBytes_eq (Set.disjoint_left.mpr fun x hx hx' => ?_)
  by_cases hid : loc.extentId = p.extentId
  · -- slots of the same extent lie below
    rw [hid, he] at hf
    obtain rfl := Option.some.inj hf
    have hbelow := hp.above k loc hl hid
    unfold KeyLocation.slotEnd at hbelow
    obtain ⟨-, -, hhi⟩ := mem_slotSpace.mp hx
    obtain ⟨-, hlo, -⟩ := mem_slotSpace.mp hx'
    rw [hloc] at hhi
    unfold Placement.slot at hlo
    dsimp only at hlo
    omega
  · -- and other extents apart
    have hx := h.slotSpace_subset hl hf _ hx
    have hin' : x ∈ e.location.bytesOn f.location.tier := by
      obtain ⟨ht, hlo, hhi⟩ := mem_slotSpace.mp hx'
      unfold Placement.slot at hlo hhi
      dsimp only at hlo hhi
      rw [hloc]
      exact mem_bytesOn.mpr ⟨ht, by omega, by omega⟩
    exact Set.disjoint_left.mp (h.apart.disjoint _ _ f e hid hf he _) hx hin'

/-- Giving a slot back. -/
theorem Stored.unreserve {p : Placement} {n : Nat}
    (h : Stored view s values (Pi.single p.extentId n) free) (hp : s.SetAside p n) :
    Stored view (s.unreserve p n) values 0 free := by
  have howed : ∀ i, i ≠ p.extentId → (0 : Nat → Nat) i = (Pi.single p.extentId n : Nat → Nat) i := by
    intro i hi
    rw [Pi.single_eq_of_ne hi]
    rfl
  unfold Engine.unreserve
  split
  · rename_i hcreated
    exact h.freed (hp.vacant hcreated) howed
  · refine h.writtenOff ?_ howed
    rw [Pi.single_eq_same, Pi.zero_apply, Nat.zero_add]

/-! ## Locating a key -/

/-- The old slot of a key is owed to its extent once the key is elsewhere. -/
theorem Stored.located {p : Placement} {n : Nat}
    (h : Stored view s values (Pi.single p.extentId n) free) (hp : s.SetAside p n)
    {key : Key} {value : List Byte} {lba : Nat}
    (hs : ({ s with keyMap := s.keyMap.put key (p.slot n) lba } : Engine A).Sound)
    (hbytes : slotBytes s.dev p.loc (p.slot n) = value) :
    Stored view { s with keyMap := s.keyMap.put key (p.slot n) lba }
      (Function.update values key (some value)) (shareOf (s.keyMap.lookup key)) free := by
  obtain ⟨e, he, hloc⟩ := hp.entry
  refine
    { sound := hs
      block := h.block
      alive := fun k loc hl => ?_
      values := fun k => ?_
      live := fun id f hf => ?_
      used := h.used
      units := h.units
      alloc := h.alloc
      behind := h.behind
      apart := h.apart
      retired := h.retired }
  · rw [KeyMap.lookup_put] at hl
    split at hl
    · obtain rfl := Option.some.inj hl
      exact ⟨e, he⟩
    · exact h.alive k loc hl
  · by_cases hk : k = key
    · subst hk
      have hwhere : ({ s with keyMap := s.keyMap.put k (p.slot n) lba } : Engine A).whereIs k =
          some (p.loc, p.slot n) := by
        refine whereIs_eq_some.mpr ⟨?_, ?_⟩
        · rw [KeyMap.lookup_put, if_pos rfl]
        · show s.extentMap.getLocation p.extentId = _
          rw [ExtentMap.getLocation, he, Option.map_some, hloc]
      rw [hwhere, Function.update_self]
      exact congrArg some hbytes.symm
    · have hwhere : ({ s with keyMap := s.keyMap.put key (p.slot n) lba } : Engine A).whereIs k =
          s.whereIs k := by
        refine whereIs_congr ?_ fun _ _ => rfl
        rw [KeyMap.lookup_put, if_neg hk]
      rw [hwhere, Function.update_of_ne hk]
      exact h.values k
  · have hchange := liveSum_change h.sound.slots.coherent
      (h.sound.slots.coherent.put key (p.slot n) lba)
      (fun k hk => by rw [KeyMap.lookup_put, if_neg hk]) id
    rw [KeyMap.lookup_put, if_pos rfl] at hchange
    have hshare : shareOf (some (p.slot n)) id = (Pi.single p.extentId n : Nat → Nat) id := by
      unfold shareOf Placement.slot
      dsimp only
      split
      · rename_i hid
        rw [← hid, Pi.single_eq_same]
      · rename_i hid
        rw [Pi.single_eq_of_ne (Ne.symm hid)]
    have hlive := h.live id f hf
    rw [hshare] at hchange
    show liveSum (s.keyMap.put key (p.slot n) lba) id + _ ≤ _
    omega

/-- Letting a key go. -/
theorem Stored.erased (h : Stored view s values 0 free) {key : Key}
    (hs : ({ s with keyMap := s.keyMap.erase key } : Engine A).Sound) :
    Stored view { s with keyMap := s.keyMap.erase key } (Function.update values key none)
      (shareOf (s.keyMap.lookup key)) free := by
  refine
    { sound := hs
      block := h.block
      alive := fun k loc hl => ?_
      values := fun k => ?_
      live := fun id f hf => ?_
      used := h.used
      units := h.units
      alloc := h.alloc
      behind := h.behind
      apart := h.apart
      retired := h.retired }
  · rw [KeyMap.lookup_erase] at hl
    split at hl
    · cases hl
    · exact h.alive k loc hl
  · by_cases hk : k = key
    · subst hk
      have hwhere : ({ s with keyMap := s.keyMap.erase k } : Engine A).whereIs k = none := by
        unfold whereIs
        rw [KeyMap.lookup_erase, if_pos rfl]
        rfl
      rw [hwhere, Function.update_self]
      rfl
    · have hwhere : ({ s with keyMap := s.keyMap.erase key } : Engine A).whereIs k =
          s.whereIs k := by
        refine whereIs_congr ?_ fun _ _ => rfl
        rw [KeyMap.lookup_erase, if_neg hk]
      rw [hwhere, Function.update_of_ne hk]
      exact h.values k
  · have hchange := liveSum_change h.sound.slots.coherent (h.sound.slots.coherent.erase key)
      (fun k hk => by rw [KeyMap.lookup_erase, if_neg hk]) id
    rw [KeyMap.lookup_erase, if_pos rfl] at hchange
    have hlive := h.live id f hf
    have hnone : shareOf none id = 0 := rfl
    rw [Pi.zero_apply] at hlive
    show liveSum (s.keyMap.erase key) id + _ ≤ _
    omega

/-- An extent without live bytes has no key when no value is empty. -/
theorem Stored.vacant_of_dead (h : Stored view s values 0 free)
    (hfull : ∀ k, values k ≠ some []) {id : Nat} (hdead : s.extentMap.getLiveBytes id = 0) :
    ∀ k loc, s.keyMap.lookup k = some loc → loc.extentId ≠ id := by
  rintro k loc hl rfl
  obtain ⟨e, he⟩ := h.alive k loc hl
  have hlive := h.live _ e he
  have hzero : e.liveBytes = 0 := by
    unfold ExtentMap.getLiveBytes at hdead
    rwa [he] at hdead
  have hsum : liveSum s.keyMap loc.extentId = 0 := by
    rw [Pi.zero_apply] at hlive
    omega
  have hlength := (liveSum_eq_zero h.sound.slots.coherent).mp hsum k loc hl rfl
  apply hfull k
  rw [h.values, whereIs_eq_some.mpr ⟨hl, by rw [ExtentMap.getLocation, he]; rfl⟩]
  show some (slotBytes s.dev e.location loc) = _
  unfold slotBytes
  rw [hlength]
  rfl

/-- Writing the old slot off, and its extent with it when it has no live bytes. -/
theorem Stored.dropSlot {o : KeyLocation}
    (h : Stored view s values (shareOf (some o)) free) (hfull : ∀ k, values k ≠ some []) :
    Stored view (s.dropSlot o) values 0 free := by
  have hoff : Stored view
      { s with extentMap := s.extentMap.markDeadSlot o.extentId o.length } values 0 free := by
    refine h.writtenOff ?_ fun i hi => ?_
    · simp [shareOf]
    · simp [shareOf, Ne.symm hi]
  unfold Engine.dropSlot
  dsimp only
  split
  · rename_i hdead
    exact hoff.freed (hoff.vacant_of_dead hfull hdead) fun _ _ => rfl
  · exact hoff

/-- Phase 5 of `put`. -/
theorem Stored.install {p : Placement} {n : Nat}
    (h : Stored view s values (Pi.single p.extentId n) free) (hp : s.SetAside p n)
    {key : Key} {value : List Byte} (hvalue : value ≠ []) (hfull : ∀ k, values k ≠ some [])
    (hr : Reserved s.keyMap s.extentMap s.journal.history key (p.slot n))
    (hbytes : slotBytes s.dev p.loc (p.slot n) = value) :
    Stored view (s.install key p n (s.keyMap.lookup key))
      (Function.update values key (some value)) 0 free := by
  have hlocated := h.located hp (h.sound.install hr none) hbytes
  have hfull' : ∀ k, Function.update values key (some value) k ≠ some [] := by
    intro k
    by_cases hk : k = key
    · subst hk
      rw [Function.update_self]
      exact fun heq => hvalue (Option.some.inj heq)
    · rw [Function.update_of_ne hk]
      exact hfull k
  unfold Engine.install
  cases hold : s.keyMap.lookup key with
  | none =>
      rw [hold] at hlocated
      exact hlocated
  | some o =>
      rw [hold] at hlocated
      exact hlocated.dropSlot hfull'

/-! ## Allocating -/

section Allocate

variable [Allocator A] {em : ExtentMap} {alloc al : Tier → A} {size : Nat}

/-- What a successful allocation takes: `unit`s that were free. -/
structure Taken (unit : Nat) (loc : DiskLocation) (free free' : Tier → Set Nat) : Prop where
  bytes : ∀ t, loc.bytesOn t ⊆ free t \ free' t
  units : loc.InUnits unit

theorem alignedSize_mod (hblock : 0 < em.blockSize) : em.alignedSize size % em.blockSize = 0 := by
  unfold ExtentMap.alignedSize
  split
  · exact Nat.mod_self _
  · exact Nat.mod_eq_zero_of_dvd (dvd_roundUpTo size hblock)

theorem allocateOn_taken (law : SoundAllocator view) (hunit : HEADER_SIZE ≤ view.unit)
    (hblock : em.blockSize = view.unit) (hal : ∀ t, view.holds t (alloc t) (free t)) {tier : Tier}
    {res : Option DiskLocation} (h : em.allocateOn alloc size tier = (res, al)) :
    ∃ free', (∀ t, free' t ⊆ free t) ∧ (∀ t, view.holds t (al t) (free' t)) ∧
      ∀ loc, res = some loc → Taken view.unit loc free free' := by
  unfold ExtentMap.allocateOn at h
  dsimp only at h
  generalize hgot : Allocator.allocate (alloc tier) (em.alignedSize size) em.blockSize
    (em.alignedSize size) 0 = out at h
  obtain ⟨got, extents, a⟩ := out
  rw [hblock] at hgot
  have hheader : 0 < HEADER_SIZE := by decide
  have hmod : em.alignedSize size % view.unit = 0 := by
    rw [← hblock]
    exact alignedSize_mod (by omega)
  obtain ⟨left, hsub, hleft, hextents⟩ := law.allocate (hal tier) hmod hgot
  refine ⟨Function.update free tier left, fun t => ?_, fun t => ?_, fun loc hloc => ?_⟩
  · by_cases ht : t = tier
    · subst ht
      rw [Function.update_self]
      exact hsub
    · rw [Function.update_of_ne ht]
  · have hupdate : al = Function.update alloc tier a := by
      split at h
      · split at h <;>
        · cases h
          rfl
      · cases h
        rfl
    rw [hupdate]
    by_cases ht : t = tier
    · subst ht
      rw [Function.update_self, Function.update_self]
      exact hleft
    · rw [Function.update_of_ne ht, Function.update_of_ne ht]
      exact hal t
  · subst hloc
    cases extents with
    | nil => cases h
    | cons e rest =>
        obtain ⟨hbytes, hpos, hoff, hdvd, hlt⟩ := hextents e List.mem_cons_self
        dsimp only at h
        split at h
        · cases h
        · cases h
          refine ⟨fun t x hx => ?_, ?_⟩
          · obtain ⟨rfl, hlo, hhi⟩ := mem_bytesOn.mp hx
            dsimp only at hlo hhi
            rw [u32_of_lt hlt] at hhi
            dsimp only
            rw [Function.update_self]
            exact hbytes ⟨hlo, hhi⟩
          · have hlength : u32 e.length = e.length := u32_of_lt hlt
            refine ⟨?_, ?_, hoff, ?_⟩ <;> dsimp only <;> rw [hlength]
            · exact hunit.trans (Nat.le_of_dvd hpos hdvd)
            · exact hlt
            · exact hdvd

theorem allocateRaw_taken (law : SoundAllocator view) (hunit : HEADER_SIZE ≤ view.unit)
    (hblock : em.blockSize = view.unit) (hal : ∀ t, view.holds t (alloc t) (free t)) {tier : Tier}
    {res : Option DiskLocation} (h : em.allocateRaw alloc tier size = (res, al)) :
    ∃ free', (∀ t, free' t ⊆ free t) ∧ (∀ t, view.holds t (al t) (free' t)) ∧
      ∀ loc, res = some loc → Taken view.unit loc free free' := by
  unfold ExtentMap.allocateRaw at h
  generalize hon : em.allocateOn alloc size tier = out at h
  obtain ⟨first, al₁⟩ := out
  obtain ⟨free₁, hsub₁, hal₁, htaken₁⟩ := allocateOn_taken law hunit hblock hal hon
  cases first with
  | some loc =>
      cases h
      exact ⟨free₁, hsub₁, hal₁, htaken₁⟩
  | none =>
      dsimp only at h
      split at h
      · -- the SLOW tier, after what FAST may have lost
        obtain ⟨free₂, hsub₂, hal₂, htaken₂⟩ := allocateOn_taken law hunit hblock hal₁ h
        refine ⟨free₂, fun t => (hsub₂ t).trans (hsub₁ t), hal₂, fun loc hloc => ?_⟩
        obtain ⟨hbytes, hunits⟩ := htaken₂ loc hloc
        exact ⟨fun t => (hbytes t).trans (Set.sdiff_subset_sdiff_left (hsub₁ t)), hunits⟩
      · cases h
        exact ⟨free₁, hsub₁, hal₁, fun loc hloc => by cases hloc⟩

end Allocate

/-! ## A new extent -/

/-- No key is in the extent. -/
def Vacant (s : Engine A) (id : Nat) : Prop :=
  ∀ k loc, s.keyMap.lookup k = some loc → loc.extentId ≠ id

theorem Stored.vacant_next (h : Stored view s values owed free) :
    s.Vacant s.extentMap.nextExtentId := by
  intro k loc hl hid
  have := h.sound.slots.fresh k loc (.inl hl)
  omega

/-- The keys and the journal's place stay; the extents are among the old ones
and `extra`. -/
structure Carries (s s' : Engine A) (extra : Set Nat) : Prop where
  keyMap : s'.keyMap = s.keyMap
  devSize : s'.journal.devSize = s.journal.devSize
  ids : ∀ id e', s'.extentMap.lookup id = some e' →
    id ∈ extra ∨ ∃ e, s.extentMap.lookup id = some e

section Carries

variable {s'' : Engine A} {extra extra' : Set Nat}

theorem Carries.refl (s : Engine A) : s.Carries s ∅ :=
  ⟨rfl, rfl, fun _ e he => .inr ⟨e, he⟩⟩

theorem Carries.trans (h : s.Carries s' extra) (h' : s'.Carries s'' extra') :
    s.Carries s'' (extra ∪ extra') := by
  refine ⟨h'.keyMap.trans h.keyMap, h'.devSize.trans h.devSize, fun id e'' he'' => ?_⟩
  rcases h'.ids id e'' he'' with hid | ⟨e', he'⟩
  · exact .inl (.inr hid)
  · exact (h.ids id e' he').imp .inl fun hold => hold

theorem Carries.mono (h : s.Carries s' extra) (hsub : extra ⊆ extra') : s.Carries s' extra' :=
  ⟨h.keyMap, h.devSize, fun id e' he' => (h.ids id e' he').imp (hsub ·) fun hold => hold⟩

theorem Carries.evolves (h : s.Carries s' extra) {em : ExtentMap}
    (hev : Evolves s'.extentMap em) : s.Carries { s' with extentMap := em } extra := by
  refine ⟨h.keyMap, h.devSize, fun id e he => ?_⟩
  obtain ⟨e', he', -⟩ := hev.entry id e he
  exact h.ids id e' he'

/-- Freeing the extra extent takes it back. -/
theorem Carries.freed {id : Nat} (h : s.Carries s' {id}) :
    s.Carries { s' with extentMap := s'.extentMap.free id } ∅ := by
  refine ⟨h.keyMap, h.devSize, fun i e he => ?_⟩
  rw [ExtentMap.lookup_free] at he
  split at he
  · cases he
  · rename_i hi
    rcases h.ids i e he with hid | hold
    · exact absurd hid hi
    · exact .inr hold

theorem Carries.vacant (h : s.Carries s' extra) {id : Nat} : s'.Vacant id ↔ s.Vacant id := by
  unfold Vacant
  rw [h.keyMap]

/-- At most one extent without keys more. -/
theorem Carries.checkpointLength_le {new : Nat} (h : s.Carries s' {new}) (hvacant : s.Vacant new)
    (hc : s.keyMap.Coherent) : s'.checkpointLength ≤ s.checkpointLength + extentRecordLength := by
  refine checkpointLength_grown h.keyMap ?_ h.ids
  refine List.eq_nil_iff_forall_not_mem.mpr fun k hk => ?_
  obtain ⟨loc, hl, hid⟩ := (hc.mem_iff new k).mp hk
  exact hvacant k loc hl hid

end Carries

/-- The space an allocation took is held from then on. -/
theorem Taken.held [Allocator A] (law : SoundAllocator view) {loc : DiskLocation} {free' : Tier → Set Nat}
    (htaken : Taken view.unit loc free free') (hal : ∀ t, view.holds t (s.alloc t) (free t))
    {journalSize : Nat} (hbehind : ∀ t, Disjoint (journalRegion journalSize t) (free t)) (t : Tier) :
    loc.bytesOn t ⊆
      heldSpace view.range free' journalSize t \ heldSpace view.range free journalSize t := by
  intro x hx
  obtain ⟨hfree, hnot⟩ := htaken.bytes t hx
  refine ⟨⟨law.within (hal t) hfree, fun hin => ?_⟩, fun hout => hout.2 (.inr hfree)⟩
  rcases hin with hin | hin
  · exact Set.disjoint_left.mp (hbehind t) hin hfree
  · exact hnot hin

/-- Entering the extent an allocation took. -/
theorem Stored.entered [Allocator A] (law : SoundAllocator view)
    (h : Stored view s values 0 free) (hs : s'.Sound) (hkm : s'.keyMap = s.keyMap)
    {loc : DiskLocation} {free' : Tier → Set Nat}
    (hem : s'.extentMap = ExtentMap.addEntry
      { s.extentMap with nextExtentId := s.extentMap.nextExtentId + 1 } s.extentMap.nextExtentId loc)
    (htaken : Taken view.unit loc free free')
    (hsub : ∀ t, free' t ⊆ free t) (hal : ∀ t, view.holds t (s'.alloc t) (free' t))
    (hsize : s'.journal.devSize = s.journal.devSize)
    (hdev : Spares s.dev s'.dev fun t => journalRegion s.journal.devSize t ∪ free t) :
    Stored view s' values 0 free' := by
  have hlook : ∀ id, s'.extentMap.lookup id = if id = s.extentMap.nextExtentId then
      some { location := loc } else s.extentMap.lookup id := by
    intro id
    rw [hem, ExtentMap.lookup_addEntry]
    rfl
  have hold : ∀ k l, s.keyMap.lookup k = some l →
      s'.extentMap.lookup l.extentId = s.extentMap.lookup l.extentId := by
    intro k l hl
    rw [hlook, if_neg (h.vacant_next k l hl)]
  have hheld := htaken.held law h.alloc h.behind
  refine
    { sound := hs
      block := by rw [hem]; exact h.block
      alive := fun k l hl => ?_
      values := h.values_of_frame hkm (fun k l hl => ?_) fun k l e hl he =>
        h.slotBytes_of_spares hdev hl he
      live := fun id e he => ?_
      used := fun id e he => ?_
      units := fun id e he => ?_
      alloc := hal
      behind := fun t => ?_
      apart := ?_
      retired := ?_ }
  · rw [hkm] at hl
    rw [hold k l hl]
    exact h.alive k l hl
  · unfold ExtentMap.getLocation
    rw [hold k l hl]
  · rw [hlook] at he
    rw [hkm]
    split at he
    · rename_i hid
      obtain rfl := Option.some.inj he
      rw [hid, liveSum_of_vacant h.sound.slots.coherent h.vacant_next, Pi.zero_apply]
      exact Nat.le_refl _
    · exact h.live id e he
  · rw [hlook] at he
    split at he
    · obtain rfl := Option.some.inj he
      exact Nat.le_refl _
    · exact h.used id e he
  · rw [hlook] at he
    split at he
    · obtain rfl := Option.some.inj he
      exact htaken.units
    · exact h.units id e he
  · rw [hsize]
    exact (h.behind t).mono_right (hsub t)
  · rw [hem, hsize]
    exact apart_addEntry h.apart (heldSpace_mono hsub _) hheld
  · rw [hsize]
    have hdef : s'.extentMap.deferredFree = s.extentMap.deferredFree := by
      rw [hem]
      rfl
    refine ⟨fun d hd t => ?_, fun d hd id e he t => ?_, hdef ▸ h.retired.pairwise,
      hdef ▸ h.retired.units⟩
    · exact (h.retired.within d (hdef ▸ hd) t).trans (heldSpace_mono hsub _ t)
    · rw [hlook] at he
      split at he
      · -- what waited for its release was not free
        obtain rfl := Option.some.inj he
        refine Set.disjoint_left.mpr fun x hx hx' => ?_
        exact (hheld t hx).2 (h.retired.within d (hdef ▸ hd) t hx')
      · exact h.retired.clear d (hdef ▸ hd) id e he t

/-- An extent given up before its transaction: its place waits with the others. -/
theorem retired_given_up [Allocator A] (law : SoundAllocator view) (h : Stored view s values 0 free)
    {loc : DiskLocation} {free' : Tier → Set Nat} (htaken : Taken view.unit loc free free')
    (hsub : ∀ t, free' t ⊆ free t) :
    ((ExtentMap.addEntry
      { s.extentMap with nextExtentId := s.extentMap.nextExtentId + 1 } s.extentMap.nextExtentId
      loc).free s.extentMap.nextExtentId).Retired view.unit
        (heldSpace view.range free' s.journal.devSize) := by
  have hheld := htaken.held law h.alloc h.behind
  have hlook : ∀ id e, (ExtentMap.addEntry
      { s.extentMap with nextExtentId := s.extentMap.nextExtentId + 1 } s.extentMap.nextExtentId
      loc).lookup id = some e →
      e.location = loc ∨ s.extentMap.lookup id = some e := by
    intro id e he
    rw [ExtentMap.lookup_addEntry] at he
    split at he
    · obtain rfl := Option.some.inj he
      exact .inl rfl
    · exact .inr he
  have hapart := apart_addEntry h.apart (heldSpace_mono hsub s.journal.devSize) hheld
  generalize hem : ExtentMap.addEntry _ _ loc = em at hlook hapart ⊢
  have hdef : em.deferredFree = s.extentMap.deferredFree := by
    rw [← hem]
    rfl
  have hretired : em.Retired view.unit (heldSpace view.range free' s.journal.devSize) := by
    refine ⟨fun d hd t => ?_, fun d hd id e he t => ?_, hdef ▸ h.retired.pairwise,
      hdef ▸ h.retired.units⟩
    · exact (h.retired.within d (hdef ▸ hd) t).trans (heldSpace_mono hsub _ t)
    · rcases hlook id e he with hnew | hold
      · rw [hnew]
        refine Set.disjoint_left.mpr fun x hx hx' => ?_
        exact (hheld t hx).2 (h.retired.within d (hdef ▸ hd) t hx')
      · exact h.retired.clear d (hdef ▸ hd) id e hold t
  refine hretired.free hapart (fun id e he => ?_) _
  rcases hlook id e he with hnew | hold
  · rw [hnew]
    exact htaken.units
  · exact h.units id e hold

section NewExtent

variable [Allocator A] {size : Nat}

/-- A new extent holds no key and costs free space, whether or not it stays. -/
theorem Stored.newExtent (law : SoundAllocator view) (hunit : HEADER_SIZE ≤ view.unit)
    (h : Stored view s values 0 free) (hring : kTxnAlignment ≤ s.journal.dataSize)
    {res : Except Int (Nat × DiskLocation)} (hnew : s.newExtent size = (res, s')) :
    ∃ free', (∀ t, free' t ⊆ free t) ∧ Stored view s' values 0 free' ∧
      ((∃ r, res = .error r ∧ r < 0 ∧ s.Carries s' ∅) ∨
        ∃ id loc, res = .ok (id, loc) ∧ s.Carries s' {id} ∧ s.Vacant id ∧
          ∃ e, s'.extentMap.lookup id = some e ∧ e.location = loc ∧ e.usedBytes = 0) := by
  obtain ⟨hs', hkm', -⟩ := newExtent_spec h.sound hnew
  unfold Engine.newExtent ExtentMap.allocateExtent at hnew
  generalize hraw : s.extentMap.allocateRaw s.alloc .FAST size = out at hnew
  obtain ⟨space, al⟩ := out
  obtain ⟨free', hsub, hal, htaken⟩ :=
    allocateRaw_taken law hunit h.block h.alloc hraw
  refine ⟨free', hsub, ?_⟩
  cases space with
  | none =>
      cases hnew
      refine ⟨h.reframed hs' rfl (fun _ => rfl) rfl (h.retired.mono (heldSpace_mono hsub _)) hsub
        hal rfl fun _ _ _ => rfl, .inl ?_⟩
      exact ⟨_, rfl, by decide, rfl, rfl, fun _ e he => .inr ⟨e, he⟩⟩
  | some loc =>
      have htaken := htaken loc rfl
      have hbytes := htaken.bytes
      have hlength := htaken.units.header
      dsimp only at hnew
      generalize hwrite : (s.dev loc.tier).write _ _ _ = written at hnew
      obtain ⟨rw₁, d⟩ := written
      dsimp only at hnew
      generalize hmid : ({ s with
        extentMap := ExtentMap.addEntry
          { s.extentMap with nextExtentId := s.extentMap.nextExtentId + 1 }
          s.extentMap.nextExtentId loc
        alloc := al
        dev := Function.update s.dev loc.tier d } : Engine A) = mid at hnew
      -- the header goes into the new extent
      have hheaderSpares : Spares s.dev mid.dev free := by
        subst hmid
        have hin : ∀ x, x ∈ [(loc.offset, headerBytes s.extentMap.nextExtentId loc.length 0 0 0)] →
            Set.Ico x.1 (x.1 + x.2.length) ⊆ free loc.tier := by
          intro x hx y hy
          rw [List.mem_singleton] at hx
          subst hx
          rw [headerBytes_length] at hy
          exact (hbytes loc.tier (mem_bytesOn.mpr ⟨rfl, hy.1, by have := hy.2; omega⟩)).1
        have hout : ∀ ws, BlockDevice.Wrote (s.dev loc.tier) d ws →
            (∀ x ∈ ws, Set.Ico x.1 (x.1 + x.2.length) ⊆ free loc.tier) →
            Spares s.dev (Function.update s.dev loc.tier d) free :=
          fun ws hw hws => spares_of_wrote hw hws
        rcases BlockDevice.wrote_write hwrite with ⟨-, hw⟩ | ⟨-, hw⟩
        · exact hout _ hw fun x hx => (by cases hx)
        · exact hout _ hw hin
      have hidle : mid.journal.Idle := by
        subst hmid
        exact h.sound.idle
      have hfits : mid.LogFits [extentNewRecord s.extentMap.nextExtentId loc] := by
        subst hmid
        exact logFits_extentNew (by exact hring) _ _
      generalize hlog : mid.logRecords _ = logged at hnew
      obtain ⟨r, s₁⟩ := logged
      obtain ⟨hkm, hem, -, halloc, -⟩ := logRecords_spec hidle hlog
      obtain ⟨hspares, hsize⟩ := logRecords_spares hidle hfits hlog
      have hdev : Spares s.dev s₁.dev fun t => journalRegion s.journal.devSize t ∪ free t := by
        refine (hheaderSpares.mono fun t => Set.subset_union_right).trans ?_
        subst hmid
        exact hspares.mono fun t => Set.subset_union_left
      have hsize' : s₁.journal.devSize = s.journal.devSize := by
        rw [hsize, ← hmid]
      have hal' : ∀ t, view.holds t (s₁.alloc t) (free' t) := by
        rw [halloc, ← hmid]
        exact hal
      have hem' : s₁.extentMap = ExtentMap.addEntry
          { s.extentMap with nextExtentId := s.extentMap.nextExtentId + 1 }
          s.extentMap.nextExtentId loc := by
        rw [hem, ← hmid]
      have hlook : ∀ i, s₁.extentMap.lookup i = if i = s.extentMap.nextExtentId then
          some { location := loc } else s.extentMap.lookup i := by
        intro i
        rw [hem', ExtentMap.lookup_addEntry]
        rfl
      have hcarries : s.Carries s₁ {s.extentMap.nextExtentId} := by
        refine ⟨by rw [hkm, ← hmid], hsize', fun id e he => ?_⟩
        rw [hlook] at he
        split at he
        · rename_i hid
          exact .inl hid
        · exact .inr ⟨e, he⟩
      dsimp only at hnew
      split at hnew
      · -- the extent is given up
        rename_i hneg
        cases hnew
        refine ⟨h.reframed hs' hkm' (fun i => ?_) ?_ ?_ hsub hal' hsize' hdev,
          .inl ⟨r, rfl, hneg, hcarries.freed⟩⟩
        · show (s₁.extentMap.free _).lookup i = _
          rw [ExtentMap.lookup_free, hlook]
          split
          · rename_i hi
            rw [hi, h.sound.slots.lookup_next]
          · rfl
        · show (s₁.extentMap.free _).blockSize = _
          rw [blockSize_free, hem']
          rfl
        · show (s₁.extentMap.free _).Retired _ _
          rw [hem']
          exact retired_given_up law h htaken hsub
      · cases hnew
        refine ⟨h.entered law hs' hkm' hem' htaken hsub hal' hsize' hdev,
          .inr ⟨_, loc, rfl, hcarries, h.vacant_next, { location := loc }, ?_, rfl, rfl⟩⟩
        rw [hlook, if_pos rfl]

end NewExtent

end Engine

end Clab.Btier
