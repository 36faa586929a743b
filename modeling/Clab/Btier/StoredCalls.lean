import Clab.Btier.PutStored

/-!
# `put`, `get` and `del` on the values

With room in the ring, `put` and `del` change the value of one key when they
succeed and none when they fail, wherever they fail; `get` finds what is held.
-/

namespace Clab.Btier.Engine

open Clab.Blk Clab.Common

variable {A : Type} [Allocator A] {view : SpaceView A} {s s' s₀ : Engine A}
  {values : Key → Option (List Byte)} {free : Tier → Set Nat} {value : List Byte} {size : Nat}

/-! ## Placing a value -/

/-- A slot is set aside, in an extent that is among those of `s₀` or new. -/
def ReservedFrom (view : SpaceView A) (s₀ s' : Engine A)
    (values : Key → Option (List Byte)) (free : Tier → Set Nat) (size : Nat) (p : Placement) :
    Prop :=
  Stored view s' values (Pi.single p.extentId size) free ∧ s'.SetAside p size ∧
    ∃ new, s₀.Vacant new ∧ s₀.Carries s' {new}

/-- What placing `value` leaves: the old values, and on success the new one in a
slot set aside. -/
def PlacedFrom (view : SpaceView A) (s₀ s' : Engine A)
    (values : Key → Option (List Byte)) (free : Tier → Set Nat) (value : List Byte)
    (res : Except Int Placement) : Prop :=
  ∃ free', (∀ t, free' t ⊆ free t) ∧
    ((∃ r, res = .error r ∧ r < 0 ∧ Stored view s' values 0 free') ∨
      ∃ p, res = .ok p ∧ ReservedFrom view s₀ s' values free' value.length p ∧
        slotBytes s'.dev p.loc (p.slot value.length) = value)

omit [Allocator A] in
/-- The value is written into the slot, or the error is returned and the slot given back. -/
theorem ReservedFrom.write {p : Placement} {r : Int}
    (h : ReservedFrom view s₀ s values free value.length p)
    (hwrite : s.writeValue p value = (r, s')) :
    ReservedFrom view s₀ s' values free value.length p ∧
      (0 ≤ r → slotBytes s'.dev p.loc (p.slot value.length) = value) := by
  obtain ⟨hstored, hp, new, hvacant, hcarries⟩ := h
  obtain ⟨hstored', hp', hbytes⟩ := hstored.writeValue hp hwrite
  obtain ⟨hkm, hem, hj⟩ := writeValue_keeps hwrite
  refine ⟨⟨hstored', hp', new, hvacant, ?_⟩, hbytes⟩
  exact ⟨hkm.trans hcarries.keyMap, hj ▸ hcarries.devSize, hem ▸ hcarries.ids⟩

section Law

variable (law : SoundAllocator view) (hunit : HEADER_SIZE ≤ view.unit)

include law hunit

/-- A slot in a new extent, or the extent is given up. -/
theorem Stored.newSlot (h : Stored view s values 0 free)
    (hring : kTxnAlignment ≤ s.journal.dataSize) (hfrom : s₀.Carries s ∅)
    (hlt : size < 2 ^ 32) {want : Nat} {s₁ : Engine A} {got : Except Int (Nat × DiskLocation)}
    (hnew : s.newExtent want = (got, s₁)) :
    ∃ free', (∀ t, free' t ⊆ free t) ∧
      ((∃ r, got = .error r ∧ r < 0 ∧ Stored view s₁ values 0 free') ∨
        ∃ id loc, got = .ok (id, loc) ∧ ∀ off em, s₁.extentMap.appendSlot id size = (off, em) →
          (off = UINT32_MAX → Stored view
            { s₁ with extentMap := em.free id } values 0 free') ∧
          (off ≠ UINT32_MAX → ReservedFrom view s₀ { s₁ with extentMap := em } values free'
            size ⟨id, off, loc, true⟩)) := by
  obtain ⟨free', hsub, hstored, hres⟩ := h.newExtent law hunit hring hnew
  refine ⟨free', hsub, ?_⟩
  rcases hres with ⟨r, hr, hneg, -⟩ | ⟨id, loc, hok, hcarries, hvacant, e, he, hloc, hused⟩
  · exact .inl ⟨r, hr, hneg, hstored⟩
  refine .inr ⟨id, loc, hok, fun off em happ => ?_⟩
  have hvacant₁ : s₁.Vacant id := hcarries.vacant.mpr hvacant
  have honly : ∀ e', s₁.extentMap.lookup id = some e' → e' = e := by
    intro e' he'
    rw [he] at he'
    exact (Option.some.inj he').symm
  rcases hstored.reserve (fun e' he' => by rw [honly e' he', hused]; omega)
    (fun e' he' => by rw [honly e' he', hloc]) (fun _ => hvacant₁) happ with
    ⟨hoff, rfl⟩ | ⟨hoff, hstored', haside⟩
  · exact ⟨fun _ => hstored.freed hvacant₁ fun _ _ => rfl, fun hne => absurd hoff hne⟩
  · refine ⟨fun heq => absurd heq hoff, fun _ => ⟨hstored', haside, id, ?_, ?_⟩⟩
    · exact hfrom.vacant.mp hvacant
    · have hev := Evolves.appendSlot (fun e' he' => by rw [honly e' he', hused]; omega) happ
      exact ((hfrom.trans hcarries).mono (by simp)).evolves hev

theorem Stored.placeLarge (h : Stored view s values 0 free)
    (hring : kTxnAlignment ≤ s.journal.dataSize) (hlt : value.length < 2 ^ 32)
    {res : Except Int Placement} (hplace : s.placeLarge value = (res, s')) :
    PlacedFrom view s s' values free value res := by
  unfold Engine.placeLarge at hplace
  rw [u32_of_lt hlt] at hplace
  generalize hnew : s.newExtent _ = out at hplace
  obtain ⟨got, s₁⟩ := out
  obtain ⟨free', hsub, hres⟩ := h.newSlot law hunit hring (Carries.refl s) hlt hnew
  refine ⟨free', hsub, ?_⟩
  rcases hres with ⟨r, rfl, hneg, hstored⟩ | ⟨id, loc, rfl, hslot⟩
  · cases hplace
    exact .inl ⟨r, rfl, hneg, hstored⟩
  · dsimp only at hplace
    generalize happ : s₁.extentMap.appendSlot id value.length = appended at hplace
    obtain ⟨off, em⟩ := appended
    obtain ⟨hfull, hreserved⟩ := hslot off em happ
    dsimp only at hplace
    split at hplace
    · rename_i hoff
      cases hplace
      exact .inl ⟨_, rfl, by decide, hfull hoff⟩
    · rename_i hoff
      generalize hwrite : Engine.writeValue _ _ _ = written at hplace
      obtain ⟨r, s₃⟩ := written
      obtain ⟨hthere, hbytes⟩ := (hreserved hoff).write hwrite
      dsimp only at hplace
      split at hplace
      · rename_i hneg
        cases hplace
        obtain ⟨hstored, haside, -⟩ := hthere
        exact .inl ⟨r, rfl, hneg, hstored.unreserve haside⟩
      · rename_i hpos
        cases hplace
        exact .inr ⟨_, rfl, hthere, hbytes (by omega)⟩

/-- The extent chosen for a small value: an old one, or a new one without keys. -/
theorem Stored.chooseExtent (h : Stored view s values 0 free)
    (hring : kTxnAlignment ≤ s.journal.dataSize)
    {res : Except Int (Nat × DiskLocation × Bool)} (hchoose : s.chooseExtent size = (res, s')) :
    ∃ free', (∀ t, free' t ⊆ free t) ∧ Stored view s' values 0 free' ∧
      ((∃ r, res = .error r ∧ r < 0) ∨
        ∃ id loc created, res = .ok (id, loc, created) ∧
          (created = true → s.Carries s' {id} ∧ s.Vacant id) ∧
          (created = false → s.Carries s' ∅) ∧
          ∀ e, s'.extentMap.lookup id = some e → e.location = loc) := by
  unfold Engine.chooseExtent at hchoose
  dsimp only at hchoose
  split at hchoose
  · generalize hnew : s.newExtent _ = out at hchoose
    obtain ⟨got, s₁⟩ := out
    obtain ⟨free', hsub, hstored, hres⟩ := h.newExtent law hunit hring hnew
    rcases hres with ⟨r, rfl, hneg, -⟩ | ⟨id, loc, rfl, hcarries, hvacant, e, he, hloc, -⟩
    · cases hchoose
      exact ⟨free', hsub, hstored, .inl ⟨r, rfl, hneg⟩⟩
    · cases hchoose
      refine ⟨free', hsub, hstored, .inr ⟨id, loc, true, rfl, fun _ => ⟨hcarries, hvacant⟩,
        fun hf => (by cases hf), fun e' he' => ?_⟩⟩
      rw [he] at he'
      obtain rfl := Option.some.inj he'
      exact hloc
  · split at hchoose
    · cases hchoose
      exact ⟨free, fun _ => subset_rfl, h, .inl ⟨_, rfl, by decide⟩⟩
    · rename_i loc hloc
      cases hchoose
      refine ⟨free, fun _ => subset_rfl, h, .inr ⟨_, loc, false, rfl, fun ht => (by cases ht),
        fun _ => Carries.refl s, fun e he => ?_⟩⟩
      unfold ExtentMap.getLocation at hloc
      rw [he] at hloc
      exact Option.some.inj hloc

/-- A slot in the extent chosen, or in a new one after all. -/
theorem Stored.reserveSlot (h : Stored view s values 0 free)
    (hring : kTxnAlignment ≤ s.journal.dataSize) (hlt : size < 2 ^ 32) {id : Nat}
    {loc : DiskLocation} {created : Bool} (hvacant₀ : s₀.Vacant s₀.extentMap.nextExtentId)
    (hmade : created = true → s₀.Carries s {id} ∧ s₀.Vacant id)
    (hthere : created = false → s₀.Carries s ∅)
    (hloc : ∀ e, s.extentMap.lookup id = some e → e.location = loc)
    (hn : ∀ e, s.extentMap.lookup id = some e → e.usedBytes + size < 2 ^ 32)
    {res : Except Int Placement} (hreserve : s.reserveSlot (id, loc, created) size = (res, s')) :
    ∃ free', (∀ t, free' t ⊆ free t) ∧
      ((∃ r, res = .error r ∧ r < 0 ∧ Stored view s' values 0 free') ∨
        ∃ p, res = .ok p ∧ ReservedFrom view s₀ s' values free' size p) := by
  have hvacant : created = true → s.Vacant id := fun hc => (hmade hc).1.vacant.mpr (hmade hc).2
  unfold Engine.reserveSlot at hreserve
  dsimp only at hreserve
  generalize happ : s.extentMap.appendSlot id size = appended at hreserve
  obtain ⟨off, em⟩ := appended
  rcases h.reserve hn hloc hvacant happ with ⟨rfl, rfl⟩ | ⟨hoff, hstored, haside⟩
  · -- no room there: a new extent, the first one given back if it was new
    rw [if_neg (by simp)] at hreserve
    have hback : ∀ s₂ : Engine A, s₂ = (if created = true then
        { s with extentMap := s.extentMap.free id } else { s with extentMap := s.extentMap }) →
        Stored view s₂ values 0 free ∧ s₀.Carries s₂ ∅ ∧
          s₂.journal = s.journal := by
      intro s₂ hs₂
      split at hs₂
      · rename_i hc
        subst hs₂
        exact ⟨h.freed (hvacant hc) fun _ _ => rfl, (hmade hc).1.freed, rfl⟩
      · rename_i hc
        subst hs₂
        exact ⟨h, hthere (by simpa using hc), rfl⟩
    obtain ⟨h₂, hcarries₂, hj₂⟩ := hback _ rfl
    generalize hnew : Engine.newExtent (A := A) _ _ = out at hreserve
    obtain ⟨got, s₃⟩ := out
    obtain ⟨free', hsub, hres⟩ :=
      h₂.newSlot law hunit (by rw [hj₂]; exact hring) hcarries₂ hlt hnew
    refine ⟨free', hsub, ?_⟩
    rcases hres with ⟨r, rfl, hneg, hstored⟩ | ⟨id', loc', rfl, hslot⟩
    · cases hreserve
      exact .inl ⟨r, rfl, hneg, hstored⟩
    · dsimp only at hreserve
      generalize happ' : s₃.extentMap.appendSlot id' size = appended at hreserve
      obtain ⟨off', em'⟩ := appended
      obtain ⟨hfull, hreserved⟩ := hslot off' em' happ'
      dsimp only at hreserve
      split at hreserve
      · rename_i hoff'
        cases hreserve
        exact .inl ⟨_, rfl, by decide, hfull hoff'⟩
      · rename_i hoff'
        cases hreserve
        exact .inr ⟨_, rfl, hreserved hoff'⟩
  · dsimp only at hreserve
    rw [if_pos hoff] at hreserve
    cases hreserve
    have hev := Evolves.appendSlot hn happ
    refine ⟨free, fun _ => subset_rfl, .inr ⟨_, rfl, hstored, haside, ?_⟩⟩
    cases hc : created with
    | true => exact ⟨id, (hmade hc).2, (hmade hc).1.evolves hev⟩
    | false =>
        exact ⟨_, hvacant₀, ((hthere hc).mono (Set.empty_subset _)).evolves hev⟩

theorem Stored.placeSmall (h : Stored view s values 0 free)
    (hring : kTxnAlignment ≤ s.journal.dataSize) (hlt : value.length < 2 ^ 32)
    {res : Except Int Placement} (hplace : s.placeSmall value = (res, s')) :
    PlacedFrom view s s' values free value res := by
  unfold Engine.placeSmall at hplace
  rw [u32_of_lt hlt] at hplace
  generalize hchoose : s.chooseExtent _ = out at hplace
  obtain ⟨got, s₁⟩ := out
  obtain ⟨-, -, hroom⟩ := chooseExtent_spec h.sound hlt hchoose
  obtain ⟨free₁, hsub₁, h₁, hres⟩ := h.chooseExtent law hunit hring hchoose
  rcases hres with ⟨r, rfl, hneg⟩ | ⟨id, loc, created, rfl, hmade, hthere, hloc⟩
  · cases hplace
    exact ⟨free₁, hsub₁, .inl ⟨r, rfl, hneg, h₁⟩⟩
  · dsimp only at hplace
    have hsize : s₁.journal.devSize = s.journal.devSize := by
      cases hc : created with
      | true => exact (hmade hc).1.devSize
      | false => exact (hthere hc).devSize
    generalize hreserve : s₁.reserveSlot _ _ = out at hplace
    obtain ⟨got, s₂⟩ := out
    obtain ⟨free₂, hsub₂, hres⟩ := h₁.reserveSlot law hunit
      (by rw [Journal.dataSize_congr hsize]; exact hring) hlt h.vacant_next hmade hthere hloc
      (hroom _ rfl) hreserve
    refine ⟨free₂, fun t => (hsub₂ t).trans (hsub₁ t), ?_⟩
    rcases hres with ⟨r, rfl, hneg, hstored⟩ | ⟨p, rfl, hreserved⟩
    · cases hplace
      exact .inl ⟨r, rfl, hneg, hstored⟩
    · dsimp only at hplace
      generalize hwrite : s₂.writeValue p value = written at hplace
      obtain ⟨r, s₃⟩ := written
      obtain ⟨hthere', hbytes⟩ := hreserved.write hwrite
      dsimp only at hplace
      split at hplace
      · rename_i hneg
        cases hplace
        obtain ⟨hstored, haside, -⟩ := hthere'
        exact .inl ⟨r, rfl, hneg, hstored.unreserve haside⟩
      · rename_i hpos
        cases hplace
        exact .inr ⟨p, rfl, hthere', hbytes (by omega)⟩

theorem Stored.place (h : Stored view s values 0 free)
    (hring : kTxnAlignment ≤ s.journal.dataSize) (hlt : value.length < 2 ^ 32)
    {res : Except Int Placement} (hplace : s.place value = (res, s')) :
    PlacedFrom view s s' values free value res := by
  unfold Engine.place at hplace
  split at hplace
  · exact h.placeLarge law hunit hring hlt hplace
  · exact h.placeSmall law hunit hring hlt hplace

end Law

/-! ## Committing -/

section Commit

variable {key : Key} {p : Placement}

omit [Allocator A] in
/-- Journal writes leave the slot alone. -/
theorem Stored.slotBytes_journaled {owed : Nat → Nat} (h : Stored view s values owed free)
    (hp : s.SetAside p size) {dev : Tier → BlockDevice}
    (hdev : Spares s.dev dev (journalRegion s.journal.devSize)) :
    slotBytes dev p.loc (p.slot size) = slotBytes s.dev p.loc (p.slot size) := by
  obtain ⟨e, he, hloc⟩ := hp.entry
  have hin := hp.inside
  refine hdev.slotBytes_eq (Set.disjoint_left.mpr fun x hx hw => ?_)
  obtain ⟨ht, hlo, hhi⟩ := mem_slotSpace.mp hx
  unfold Placement.slot at hlo hhi
  dsimp only at hlo hhi
  refine h.apart.within _ e he p.loc.tier (mem_bytesOn.mpr ⟨by rw [hloc], ?_, ?_⟩) |>.2 (.inl hw) <;>
  · rw [hloc]
    omega

omit [Allocator A] in
/-- Phases 3 to 5: the transaction decides. -/
theorem ReservedFrom.commitPut (hroom : s₀.Roomy key) (hcoherent : s₀.keyMap.Coherent)
    (h : ReservedFrom view s₀ s values free value.length p)
    (hbytes : slotBytes s.dev p.loc (p.slot value.length) = value)
    (hr : Reserved s.keyMap s.extentMap s.journal.history key (p.slot value.length))
    (hvalue : value ≠ []) (hfull : ∀ k, values k ≠ some []) {now : Nat} {r : Int}
    (hcommit : s.commitPut key p value.length (s.keyMap.lookup key) now = (r, s')) :
    (r = 0 ∧ Stored view s' (Function.update values key (some value)) 0 free) ∨
      (r < 0 ∧ Stored view s' values 0 free) := by
  obtain ⟨hstored, haside, new, hvacant, hcarries⟩ := h
  have hev := Evolves.recordIo s.extentMap p.extentId .WRITE now
  have hstored₁ := hstored.recordIo p.extentId .WRITE now
  have haside₁ : ({ s with
      extentMap := s.extentMap.recordIo p.extentId .WRITE now } : Engine A).SetAside p
        value.length := haside.congr rfl (getLocation_recordIo _ _ _ _ _)
  have hcarries₁ := hcarries.evolves hev
  unfold Engine.commitPut at hcommit
  dsimp only at hcommit
  generalize hs₁ : ({ s with
    extentMap := s.extentMap.recordIo p.extentId .WRITE now } : Engine A) = s₁ at *
  have hr₁ : Reserved s₁.keyMap s₁.extentMap s₁.journal.history key (p.slot value.length) := by
    subst hs₁
    exact hr.evolves hev
  have hkm₁ : s₁.keyMap = s.keyMap := by rw [← hs₁]
  have hbytes₁ : slotBytes s₁.dev p.loc (p.slot value.length) = value := by
    subst hs₁
    exact hbytes
  rw [← hkm₁] at hcommit
  clear hs₁
  -- the main transaction
  have hfits : s₁.LogFits (putRecords key (s₁.keyMap.lookup key) (p.slot value.length)) :=
    hroom.logFits hcarries₁.devSize (putRecords_length_le _ _ _)
  generalize hlog : s₁.logRecords (putRecords key (s₁.keyMap.lookup key)
    ⟨p.extentId, p.offset, value.length⟩) = logged at hcommit
  obtain ⟨r₂, s₂⟩ := logged
  have hidle := hstored₁.sound.idle
  obtain ⟨hsound₂, hr₂⟩ := logged_put hstored₁.sound hr₁ hlog
  obtain ⟨hkm₂, hem₂, -, hal₂, -⟩ := logRecords_spec hidle hlog
  obtain ⟨hspares, hsize₂⟩ := logRecords_spares hidle hfits hlog
  have hstored₂ := hstored₁.journaled hsound₂ hkm₂ hem₂ hal₂ hsize₂ hspares
  have haside₂ : s₂.SetAside p value.length := haside₁.congr hkm₂ (by rw [hem₂])
  have hbytes₂ := (hstored₁.slotBytes_journaled haside₁ hspares).trans hbytes₁
  dsimp only at hcommit
  split at hcommit
  · rename_i hneg
    cases hcommit
    exact .inr ⟨hneg, hstored₂.unreserve haside₂⟩
  · rename_i hpos
    have hr₂ := hr₂ (by omega)
    obtain ⟨rfl, rfl⟩ := Prod.mk.inj hcommit
    refine .inl ⟨rfl, ?_⟩
    split
    · -- a checkpoint comes first
      have hcarries₂ : s₀.Carries s₂ {new} :=
        ⟨hkm₂.trans hcarries₁.keyMap, hsize₂.trans hcarries₁.devSize, hem₂ ▸ hcarries₁.ids⟩
      have hck : s₂.CheckpointFits := hroom.checkpointFits hcarries₂.devSize
        (hcarries₂.checkpointLength_le hvacant hcoherent)
      obtain ⟨hkm₃, hem₃, -⟩ := checkpoint_spec s₂ hsound₂.idle
      have hin : ∃ e, s₂.extentMap.lookup p.extentId = some e := by
        obtain ⟨e, he, -⟩ := haside₂.entry
        exact ⟨e, he⟩
      have haside₃ : s₂.checkpoint.SetAside p value.length :=
        haside₂.congr hkm₃ (by rw [hem₃])
      have hinstalled := (hstored₂.checkpoint hck).install haside₃ hvalue hfull
        (reserved_checkpoint hsound₂ hr₂ hin)
        ((hstored₂.slotBytes_journaled haside₂ (checkpoint_spares hck).1).trans hbytes₂)
      rw [hkm₃, hkm₂] at hinstalled
      exact hinstalled
    · have hinstalled := hstored₂.install haside₂ hvalue hfull hr₂ hbytes₂
      rw [hkm₂] at hinstalled
      exact hinstalled

end Commit

/-! ## Whole calls -/

/-- `put` locates the key at the new value, or fails and changes no value. -/
theorem Stored.put (law : SoundAllocator view) (hunit : HEADER_SIZE ≤ view.unit)
    (h : Stored view s values 0 free) (hfull : ∀ k, values k ≠ some []) {key : Key}
    (hroom : s.Roomy key) (hvalue : value ≠ []) (hlt : value.length < 2 ^ 32) {now : Nat} {r : Int}
    (hput : s.put key value now = (r, s')) :
    ∃ free', (∀ t, free' t ⊆ free t) ∧
      ((r = 0 ∧ Stored view s' (Function.update values key (some value)) 0 free') ∨
        (r < 0 ∧ Stored view s' values 0 free')) := by
  unfold Engine.put at hput
  have hstart : ∀ s₁ : Engine A, s₁ = (if s.journal.isNearFull = true then s.checkpoint else s) →
      Stored view s₁ values 0 free ∧ s₁.Roomy key := by
    intro s₁ hs₁
    split at hs₁
    · subst hs₁
      have hck : s.CheckpointFits := hroom.checkpointFits rfl (Nat.le_add_right _ _)
      obtain ⟨hkm, hem, -⟩ := checkpoint_spec s h.sound.idle
      refine ⟨h.checkpoint hck, hroom.congr (checkpoint_spares hck).2 ?_⟩
      exact checkpointLength_mono hkm fun id e he => ⟨e, hem ▸ he⟩
    · subst hs₁
      exact ⟨h, hroom⟩
  dsimp only at hput
  generalize hs₁ : (if s.journal.isNearFull = true then s.checkpoint else s) = s₁ at hput
  obtain ⟨h₁, hroom₁⟩ := hstart s₁ hs₁.symm
  generalize hplace : s₁.place value = out at hput
  obtain ⟨res, s₂⟩ := out
  obtain ⟨-, hkm₂, hreserved⟩ := place_spec h₁.sound hplace
  obtain ⟨free', hsub, hres⟩ := h₁.place law hunit hroom₁.block hlt hplace
  refine ⟨free', hsub, ?_⟩
  rcases hres with ⟨r₁, rfl, hneg, hstored⟩ | ⟨p, rfl, hthere, hbytes⟩
  · cases hput
    exact .inr ⟨hneg, hstored⟩
  · obtain ⟨hr, -⟩ := hreserved p rfl
    dsimp only at hput
    rw [u32_of_lt hlt] at hr hput
    rw [← hkm₂] at hput
    exact hthere.commitPut hroom₁ h₁.sound.slots.coherent hbytes (hr key) hvalue hfull hput

omit [Allocator A] in
/-- `del` lets the key go, or fails and changes no value. -/
theorem Stored.del (h : Stored view s values 0 free) (hfull : ∀ k, values k ≠ some [])
    {key : Key} (hroom : s.Roomy key) {r : Int} (hdel : s.del key = (r, s')) :
    (values key = none ∧ r = -enoent ∧ Stored view s' values 0 free) ∨
      (values key ≠ none ∧
        ((r = 0 ∧ Stored view s' (Function.update values key none) 0 free) ∨
          (r < 0 ∧ Stored view s' values 0 free))) := by
  have hsound : s'.Sound := by
    have := h.sound.del key
    rwa [hdel] at this
  unfold Engine.del at hdel
  split at hdel
  · rename_i hk
    cases hdel
    refine .inl ⟨?_, rfl, h⟩
    rw [h.values]
    unfold whereIs
    rw [hk]
    rfl
  · rename_i kloc hk
    obtain ⟨e, he⟩ := h.alive key kloc hk
    have hheld : values key ≠ none := by
      rw [h.values, whereIs_eq_some.mpr ⟨hk, by rw [ExtentMap.getLocation, he]; rfl⟩]
      simp
    refine .inr ⟨hheld, ?_⟩
    have hfits : s.LogFits [keyDelRecord key, markDeadRecord kloc] :=
      hroom.logFits rfl (delRecords_length_le _ _)
    generalize hlog : s.logRecords _ = logged at hdel
    obtain ⟨r₁, s₁⟩ := logged
    have hidle := h.sound.idle
    obtain ⟨hsound₁, herase⟩ := logged_del h.sound hlog
    obtain ⟨hkm₁, hem₁, -, hal₁, -⟩ := logRecords_spec hidle hlog
    obtain ⟨hspares, hsize₁⟩ := logRecords_spares hidle hfits hlog
    have h₁ := h.journaled hsound₁ hkm₁ hem₁ hal₁ hsize₁ hspares
    dsimp only at hdel
    split at hdel
    · rename_i hneg
      cases hdel
      exact .inr ⟨hneg, h₁⟩
    · rename_i hpos
      cases hdel
      refine .inl ⟨rfl, ?_⟩
      have herased := h₁.erased (herase (by omega))
      have hk₁ : s₁.keyMap.lookup key = some kloc := by rw [hkm₁, hk]
      rw [hk₁] at herased
      refine herased.dropSlot fun k => ?_
      by_cases hkey : k = key
      · subst hkey
        rw [Function.update_self]
        simp
      · rw [Function.update_of_ne hkey]
        exact hfull k

omit [Allocator A] in
/-- `get` finds what is held, unless the device fails it. -/
theorem Stored.get (h : Stored view s values 0 free) (key : Key) {now : Nat} {r : Int}
    {bl : List Byte} (hget : s.get key now = (r, bl, s')) :
    Stored view s' values 0 free ∧
      ((r, bl) = answer (values key) ∨ (values key ≠ none ∧ (r, bl) = (-eio, []))) := by
  unfold Engine.get at hget
  cases hk : s.keyMap.lookup key with
  | none =>
      simp only [hk] at hget
      cases hget
      refine ⟨h, .inl ?_⟩
      rw [h.values]
      unfold whereIs
      rw [hk]
      rfl
  | some kloc =>
      obtain ⟨e, he⟩ := h.alive key kloc hk
      have hloc : s.extentMap.getLocation kloc.extentId = some e.location := by
        rw [ExtentMap.getLocation, he]
        rfl
      have hvalue : values key = some (slotBytes s.dev e.location kloc) := by
        rw [h.values, whereIs_eq_some.mpr ⟨hk, hloc⟩]
        rfl
      simp only [hk, hloc] at hget
      generalize hread : (s.dev e.location.tier).read _ _ _ = out at hget
      obtain ⟨r₁, bl₁, d⟩ := out
      obtain ⟨hwrote, hd, hcases⟩ := BlockDevice.read_buffered hread
      cases hget
      have h₁ := h.recordIo kloc.extentId .READ now
      refine ⟨h₁.journaled ⟨h₁.sound.slots, h₁.sound.idle⟩ rfl rfl rfl rfl ?_, ?_⟩
      · exact spares_of_wrote hwrote fun x hx => (by cases hx)
      · rcases hcases with ⟨hfail, hneg⟩ | ⟨-, hpos, rfl⟩
        · refine .inr ⟨by rw [hvalue]; simp, ?_⟩
          unfold BlockDevice.read at hread
          rw [hfail] at hread
          cases hread
          rfl
        · refine .inl ?_
          rw [hvalue, if_neg (by omega)]
          rfl

end Clab.Btier.Engine
