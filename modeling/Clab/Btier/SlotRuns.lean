import Clab.Btier.Slots

/-!
# Runs that keep slots apart

Each step of `put` and `del` keeps `SlotInv`; so do whole calls, with every
result they can have.
-/

namespace Clab.Btier.Engine

open Clab.Blk Clab.EventLog

variable {A : Type}

/-- A running store between two calls. -/
structure Sound (s : Engine A) : Prop where
  slots : SlotInv s.keyMap s.extentMap s.journal.history
  idle : s.journal.Idle

theorem Sound.evolves {s : Engine A} (hs : s.Sound) {em : ExtentMap}
    (h : Evolves s.extentMap em) : ({ s with extentMap := em } : Engine A).Sound :=
  ⟨hs.slots.evolves h, hs.idle⟩

/-! ## Checkpoints -/

theorem checkpoint_spec (s : Engine A) (hidle : s.journal.Idle) :
    s.checkpoint.keyMap = s.keyMap ∧ s.checkpoint.extentMap = s.extentMap ∧
      s.checkpoint.cfg = s.cfg ∧ s.checkpoint.journal.Idle ∧
      (s.checkpoint.journal.history = s.journal.history ∨
        s.checkpoint.journal.history = s.buildCheckpointState) := by
  unfold checkpoint withJournal
  dsimp only
  generalize hc : s.journal.checkpoint (s.dev .FAST) s.buildCheckpointState = out
  obtain ⟨r, j, d⟩ := out
  obtain ⟨htxns, hhist⟩ := Journal.checkpoint_keeps hc
  exact ⟨rfl, rfl, rfl, fun i => by rw [← hidle i, ← htxns]; rfl, hhist⟩

/-- The checkpoint state announces the extents of the map. -/
theorem announced_checkpoint {s : Engine A} {id : Nat} {l : DiskLocation} :
    Announced s.buildCheckpointState id l ↔
      ∃ e, s.extentMap.lookup id = some e ∧ e.location = l := by
  constructor
  · rintro ⟨rec, hrec, hop, rfl, rfl⟩
    obtain ⟨snap, hsnap, hrec⟩ := List.mem_flatMap.mp hrec
    rcases List.mem_cons.mp hrec with rfl | hkey
    · obtain ⟨⟨id, e⟩, hs, rfl⟩ := List.mem_map.mp hsnap
      exact ⟨e, AList.mem_lookup_iff.mpr hs, rfl⟩
    · obtain ⟨key, -, rfl⟩ := List.mem_map.mp hkey
      cases hop
  · rintro ⟨e, he, rfl⟩
    refine ⟨extentNewRecord id e.location, List.mem_flatMap.mpr ⟨_, List.mem_map.mpr
      ⟨⟨id, e⟩, AList.mem_lookup_iff.mp he, rfl⟩, List.mem_cons_self⟩, rfl, rfl, rfl⟩

/-- The checkpoint state locates a key only where the key map does, and only in
an extent of the map. -/
theorem located_checkpoint {s : Engine A} (hc : s.keyMap.Coherent) {k : Key}
    {loc : KeyLocation} (h : replayByKind (keyEvents s.buildCheckpointState) k = some loc) :
    s.keyMap.lookup k = some loc ∧ ∃ e, s.extentMap.lookup loc.extentId = some e := by
  have hput := mem_of_replayByKind h
  obtain ⟨rec, hrec, hev⟩ := List.mem_filterMap.mp hput
  obtain ⟨snap, hsnap, hrec⟩ := List.mem_flatMap.mp hrec
  rcases List.mem_cons.mp hrec with rfl | hkey
  · cases hev
  · obtain ⟨key, hin, rfl⟩ := List.mem_map.mp hkey
    obtain ⟨l, hl, hid⟩ := (hc.mem_iff _ key).mp hin
    rw [hl] at hev
    cases hev
    exact ⟨hl, ExtentMap.mem_snapshot_iff.mp ⟨snap, hsnap, hid.symm⟩⟩

theorem Sound.checkpoint {s : Engine A} (hs : s.Sound) : s.checkpoint.Sound := by
  obtain ⟨hkm, hem, -, hidle, hhist⟩ := checkpoint_spec s hs.idle
  refine ⟨?_, hidle⟩
  rw [hkm, hem]
  rcases hhist with hhist | hhist
  · rw [hhist]
    exact hs.slots
  · rw [hhist]
    refine hs.slots.shrinks hs.slots.coherent (fun k loc h => ?_)
      (fun id e he => announced_checkpoint.mpr ⟨e, he, rfl⟩) (fun id l h => ?_)
      (fun k loc h => ?_)
    · rcases h with h | h
      · exact .inl h
      · exact .inl (located_checkpoint hs.slots.coherent h).1
    · obtain ⟨e, he, rfl⟩ := announced_checkpoint.mp h
      exact hs.slots.announced id e he
    · obtain ⟨hl, e, he⟩ := located_checkpoint hs.slots.coherent h
      exact ⟨e.location, announced_checkpoint.mpr ⟨e, he, rfl⟩,
        (hs.slots.below k loc e (.inl hl) he).trans (hs.slots.within _ e he)⟩

theorem reserved_checkpoint {s : Engine A} (hs : s.Sound) {key : Key} {new : KeyLocation}
    (hr : Reserved s.keyMap s.extentMap s.journal.history key new)
    (hin : ∃ e, s.extentMap.lookup new.extentId = some e) :
    Reserved s.checkpoint.keyMap s.checkpoint.extentMap s.checkpoint.journal.history key new := by
  obtain ⟨hkm, hem, -, -, hhist⟩ := checkpoint_spec s hs.idle
  rw [hkm, hem]
  rcases hhist with hhist | hhist
  · rw [hhist]
    exact hr
  · rw [hhist]
    obtain ⟨e, he⟩ := hin
    refine hr.install (fun k loc h => .inl ?_) ⟨e.location,
      announced_checkpoint.mpr ⟨e, he, rfl⟩, (hr.below e he).trans (hs.slots.within _ e he)⟩
    rcases h with h | h
    · exact .inl h
    · exact .inl (located_checkpoint hs.slots.coherent h).1

variable {s s' : Engine A} {size : Nat}

/-! ## Slots of the extent map -/

theorem Sound.of_same (hs : s.Sound) (hkm : s'.keyMap = s.keyMap)
    (hem : s'.extentMap = s.extentMap) (hj : s'.journal = s.journal) : s'.Sound := by
  refine ⟨?_, ?_⟩
  · rw [hkm, hem, hj]
    exact hs.slots
  · rw [hj]
    exact hs.idle

/-- A slot appended to an extent is reserved for whatever key comes. -/
theorem appendSlot_spec (hs : s.Sound) {id off : Nat} {em : ExtentMap}
    (hn : ∀ e, s.extentMap.lookup id = some e → e.usedBytes + size < 2 ^ 32)
    (h : s.extentMap.appendSlot id size = (off, em)) :
    ({ s with extentMap := em } : Engine A).Sound ∧
      (off ≠ UINT32_MAX → (∀ key, Reserved s.keyMap em s.journal.history key ⟨id, off, size⟩) ∧
        ∃ e, em.lookup id = some e) := by
  have hev := Evolves.appendSlot hn h
  rcases ExtentMap.appendSlot_cases h with ⟨hoff, rfl⟩ |
    ⟨e, e', he, -, hfit, rfl, hused, -, hloc, -, hnext, hlook⟩
  · exact ⟨hs, fun hne => absurd hoff hne⟩
  rw [u32_of_lt (hn e he)] at hused hfit
  refine ⟨hs.evolves hev, fun _ => ⟨fun key => ?_, e', ?_⟩⟩
  · refine ⟨?_, ⟨e.location, hs.slots.announced id e he, hfit⟩, fun f hf => ?_,
      fun k loc hl hid => ?_⟩
    · show id < em.nextExtentId
      rw [hnext]
      exact hs.slots.known id e he
    · have hf' : em.lookup id = some f := hf
      rw [hlook, if_pos rfl] at hf'
      cases hf'
      show e.usedBytes + size ≤ e'.usedBytes
      omega
    · have hid' : loc.extentId = id := hid
      exact .inl (hs.slots.below k loc e hl (by rw [hid']; exact he))
  · rw [hlook, if_pos rfl]

theorem writeValue_keeps {p : Placement} {value : List Byte} {r : Int}
    (h : s.writeValue p value = (r, s')) :
    s'.keyMap = s.keyMap ∧ s'.extentMap = s.extentMap ∧ s'.journal = s.journal := by
  unfold writeValue at h
  cases h
  exact ⟨rfl, rfl, rfl⟩

theorem evolves_unreserve (s : Engine A) (p : Placement) (n : Nat) :
    ∃ em, s.unreserve p n = { s with extentMap := em } ∧ Evolves s.extentMap em := by
  unfold unreserve
  refine ⟨_, rfl, ?_⟩
  split
  · exact Evolves.free _ _
  · exact Evolves.markDeadSlot _ _ _

/-! ## Committing -/

theorem evolves_dropSlot (s : Engine A) (loc : KeyLocation) :
    ∃ em, s.dropSlot loc = { s with extentMap := em } ∧ Evolves s.extentMap em := by
  unfold dropSlot
  refine ⟨_, rfl, ?_⟩
  split
  · exact (Evolves.markDeadSlot _ _ _).trans (Evolves.free _ _)
  · exact Evolves.markDeadSlot _ _ _

theorem put_mem_putRecords {key : Key} {old : Option KeyLocation} {new : KeyLocation} :
    ∀ k v, Event.put k v ∈ keyEvents (putRecords key old new) → k = key ∧ v = new := by
  intro k v hmem
  obtain ⟨rec, hrec, hev⟩ := List.mem_filterMap.mp hmem
  unfold putRecords at hrec
  rcases List.mem_append.mp hrec with hrec | hrec
  · cases old with
    | none => cases hrec
    | some o =>
        rw [List.mem_singleton] at hrec
        subst hrec
        cases hev
  · rw [List.mem_singleton] at hrec
    subst hrec
    cases hev
    exact ⟨rfl, rfl⟩

theorem not_announced_putRecords {key : Key} {old : Option KeyLocation} {new : KeyLocation}
    {id : Nat} {l : DiskLocation} : ¬ Announced (putRecords key old new) id l := by
  rintro ⟨rec, hrec, hop, -⟩
  unfold putRecords at hrec
  rcases List.mem_append.mp hrec with hrec | hrec
  · cases old with
    | none => cases hrec
    | some o =>
        rw [List.mem_singleton] at hrec
        subst hrec
        cases hop
  · rw [List.mem_singleton] at hrec
    subst hrec
    cases hop

theorem Sound.install (hs : s.Sound) {key : Key} {p : Placement} {n : Nat}
    (hr : Reserved s.keyMap s.extentMap s.journal.history key ⟨p.extentId, p.offset, n⟩)
    (old : Option KeyLocation) : (s.install key p n old).Sound := by
  have hput : ∀ lba, ({ s with
      keyMap := s.keyMap.put key ⟨p.extentId, p.offset, n⟩ lba } : Engine A).Sound := by
    intro lba
    refine ⟨hs.slots.install hr (hs.slots.coherent.put _ _ _) (fun k loc h => ?_)
      (fun _ _ => Iff.rfl) fun _ _ h => .inl h, hs.idle⟩
    rcases h with h | h
    · rw [KeyMap.lookup_put] at h
      split at h
      · rename_i hk
        cases h
        exact .inr ⟨hk, rfl⟩
      · exact .inl (.inl h)
    · exact .inl (.inr h)
  unfold Engine.install
  cases old with
  | none => exact hput _
  | some o =>
      have hs₁ := hput (p.loc.offset + HEADER_SIZE + p.offset)
      obtain ⟨em, heq, hev⟩ := evolves_dropSlot _ o
      show (dropSlot _ o).Sound
      rw [heq]
      exact hs₁.evolves hev

/-- Logging the main transaction of a put: a refused one changes nothing, an
accepted one locates the key in its reserved slot. -/
theorem logged_put (hs : s.Sound) {key : Key} {new : KeyLocation} {r : Int}
    (hr : Reserved s.keyMap s.extentMap s.journal.history key new) {old : Option KeyLocation}
    (hlog : s.logRecords (putRecords key old new) = (r, s')) :
    s'.Sound ∧ (0 ≤ r → Reserved s'.keyMap s'.extentMap s'.journal.history key new) := by
  obtain ⟨hkm, hem, -, -, hidle, hhist⟩ := logRecords_spec hs.idle hlog
  rcases hhist with ⟨hneg, hhist⟩ | ⟨hpos, hhist⟩
  · refine ⟨⟨?_, hidle⟩, fun hr => by omega⟩
    rw [hkm, hem, hhist]
    exact hs.slots
  · -- the journal now locates the key in its new slot
    have hloc : ∀ k loc, Located s'.keyMap s'.journal.history k loc →
        Located s.keyMap s.journal.history k loc ∨ (k = key ∧ loc = new) := by
      intro k loc h
      rw [hkm, hhist] at h
      rcases h with h | h
      · exact .inl (.inl h)
      · rw [keyEvents_append, keyEvents_stamp] at h
        rcases replayByKind_append put_mem_putRecords h with h | h
        · exact .inl (.inr h)
        · exact .inr h
    have hann : ∀ id l, Announced s'.journal.history id l ↔ Announced s.journal.history id l := by
      intro id l
      rw [hhist, announced_append, announced_stamp]
      exact or_iff_left not_announced_putRecords
    refine ⟨⟨?_, hidle⟩, fun _ => ?_⟩
    · rw [hem]
      refine hs.slots.install hr (by rw [hkm]; exact hs.slots.coherent) hloc hann
        (fun k loc h => ?_)
      rw [hhist, keyEvents_append, keyEvents_stamp] at h
      exact (replayByKind_append put_mem_putRecords h).imp id And.right
    · rw [hem]
      obtain ⟨l, ha, hle⟩ := hr.announced
      exact hr.install hloc ⟨l, (hann _ l).mpr ha, hle⟩

theorem commitPut_sound (hs : s.Sound) {key : Key} {p : Placement} {n : Nat}
    (hr : Reserved s.keyMap s.extentMap s.journal.history key ⟨p.extentId, p.offset, n⟩)
    (hin : ∃ e, s.extentMap.lookup p.extentId = some e) (old : Option KeyLocation) (now : Nat) :
    (s.commitPut key p n old now).2.Sound := by
  have hev := Evolves.recordIo s.extentMap p.extentId .WRITE now
  have hs₁ := hs.evolves hev
  have hin₁ : ∃ e, (s.extentMap.recordIo p.extentId .WRITE now).lookup p.extentId = some e := by
    obtain ⟨e, he⟩ := hin
    unfold ExtentMap.recordIo
    rw [he]
    dsimp only
    rw [ExtentMap.lookup_setEntry, if_pos rfl]
    exact ⟨_, rfl⟩
  unfold commitPut
  dsimp only
  generalize hlog : logRecords _ _ = out
  obtain ⟨r, s₂⟩ := out
  obtain ⟨hs₂, hr₂⟩ := logged_put hs₁ (hr.evolves hev) hlog
  obtain ⟨-, hem, -⟩ := logRecords_spec hs₁.idle hlog
  dsimp only
  split
  · obtain ⟨em, heq, hev₂⟩ := evolves_unreserve s₂ p n
    rw [heq]
    exact hs₂.evolves hev₂
  · rename_i hpos
    have hr₂ := hr₂ (by omega)
    have hin₂ : ∃ e, s₂.extentMap.lookup p.extentId = some e := by
      rw [hem]
      exact hin₁
    split
    · exact hs₂.checkpoint.install (reserved_checkpoint hs₂ hr₂ hin₂) old
    · exact hs₂.install hr₂ old

/-- Logging a deletion: an accepted one lets the key go. -/
theorem logged_del (hs : s.Sound) {key : Key} {kloc : KeyLocation} {r : Int}
    (hlog : s.logRecords [keyDelRecord key, markDeadRecord kloc] = (r, s')) :
    s'.Sound ∧ (0 ≤ r → ({ s' with keyMap := s'.keyMap.erase key } : Engine A).Sound) := by
  obtain ⟨hkm, hem, -, -, hidle, hhist⟩ := logRecords_spec hs.idle hlog
  rcases hhist with ⟨hneg, hhist⟩ | ⟨hpos, hhist⟩
  · refine ⟨⟨?_, hidle⟩, fun hr => by omega⟩
    rw [hkm, hem, hhist]
    exact hs.slots
  · have hold : ∀ k loc, replayByKind (keyEvents s'.journal.history) k = some loc →
        replayByKind (keyEvents s.journal.history) k = some loc := by
      intro k loc h
      rw [hhist, keyEvents_append, keyEvents_stamp] at h
      refine replayByKind_logged (fun k v hmem => ?_) h
      rcases List.mem_singleton.mp hmem
    have hann : ∀ id l, Announced s'.journal.history id l ↔
        Announced s.journal.history id l := by
      intro id l
      rw [hhist, announced_append, announced_stamp]
      refine or_iff_left ?_
      rintro ⟨rec, hrec, hop, -⟩
      rcases List.mem_pair.mp hrec with rfl | rfl <;> cases hop
    have hhistoric : ∀ k loc, replayByKind (keyEvents s'.journal.history) k = some loc →
        ∃ l, Announced s'.journal.history loc.extentId l ∧
          loc.slotEnd ≤ ExtentMap.capacity l := by
      intro k loc h
      obtain ⟨l, ha, hle⟩ := hs.slots.historic k loc (hold k loc h)
      exact ⟨l, (hann _ l).mpr ha, hle⟩
    refine ⟨⟨?_, hidle⟩, fun _ => ⟨?_, hidle⟩⟩
    · rw [hkm, hem]
      exact hs.slots.shrinks hs.slots.coherent (fun k loc h => h.imp id (hold k loc))
        (fun id e he => (hann _ _).mpr (hs.slots.announced id e he)) (fun id l => (hann id l).mp)
        hhistoric
    · show SlotInv (s'.keyMap.erase key) s'.extentMap s'.journal.history
      rw [hkm, hem]
      refine hs.slots.shrinks (hs.slots.coherent.erase key) (fun k loc h => ?_)
        (fun id e he => (hann _ _).mpr (hs.slots.announced id e he)) (fun id l => (hann id l).mp)
        hhistoric
      rcases h with h | h
      · rw [KeyMap.lookup_erase] at h
        split at h
        · cases h
        · exact .inl h
      · exact .inr (hold k loc h)

/-- `del` keeps slots apart. -/
theorem Sound.del (hs : s.Sound) (key : Key) : (s.del key).2.Sound := by
  unfold Engine.del
  split
  · exact hs
  · rename_i kloc hk
    generalize hlog : s.logRecords _ = out
    obtain ⟨r, s₁⟩ := out
    obtain ⟨hs₁, herase⟩ := logged_del hs hlog
    dsimp only
    split
    · exact hs₁
    · rename_i hpos
      obtain ⟨em, heq, hev⟩ := evolves_dropSlot
        ({ s₁ with keyMap := s₁.keyMap.erase key } : Engine A) kloc
      show (dropSlot _ kloc).Sound
      rw [heq]
      exact (herase (by omega)).evolves hev

/-! ## Placing a value -/

variable [Allocator A]

/-- What placing a value leaves: a sound store, with a reserved slot if it succeeds. -/
def Placed (s s' : Engine A) (size : Nat) (res : Except Int Placement) : Prop :=
  s'.Sound ∧ s'.keyMap = s.keyMap ∧ ∀ p, res = .ok p →
    (∀ key, Reserved s'.keyMap s'.extentMap s'.journal.history key
      ⟨p.extentId, p.offset, size⟩) ∧ ∃ e, s'.extentMap.lookup p.extentId = some e

/-- A new extent is entered and announced, or nothing remains of it. -/
theorem newExtent_spec (hs : s.Sound) {res : Except Int (Nat × DiskLocation)}
    (h : s.newExtent size = (res, s')) :
    s'.Sound ∧ s'.keyMap = s.keyMap ∧
      ∀ id loc, res = .ok (id, loc) → ∃ e, s'.extentMap.lookup id = some e ∧ e.usedBytes = 0 := by
  unfold newExtent at h
  generalize halloc : s.extentMap.allocateExtent s.alloc s.dev .FAST size = out at h
  obtain ⟨got, em, al, dev⟩ := out
  rcases ExtentMap.allocateExtent_cases halloc with ⟨rfl, rfl, -⟩ | ⟨loc, rfl, rfl, -⟩
  · cases h
    exact ⟨⟨hs.slots, hs.idle⟩, rfl, fun id loc hres => by cases hres⟩
  · dsimp only at h
    generalize hlog : logRecords _ _ = logged at h
    obtain ⟨r, s₁⟩ := logged
    obtain ⟨hkm, hem, -, -, hidle, hhist⟩ := logRecords_spec (by exact hs.idle) hlog
    dsimp only at h
    rcases hhist with ⟨hneg, hhist⟩ | ⟨hpos, hhist⟩
    · rw [if_pos hneg] at h
      cases h
      have hev := Evolves.newFreed s.extentMap loc hs.slots.lookup_next
      refine ⟨⟨?_, hidle⟩, hkm, fun id l hres => by cases hres⟩
      show SlotInv s₁.keyMap (s₁.extentMap.free _) s₁.journal.history
      rw [hkm, hem, hhist]
      exact hs.slots.evolves hev
    · rw [if_neg (by omega)] at h
      cases h
      refine ⟨⟨?_, hidle⟩, hkm, fun id l hres => ?_⟩
      · rw [hkm, hem, hhist]
        refine hs.slots.newExtent loc (fun k l hl => ?_) (fun id l => ?_)
        · rw [keyEvents_append, keyEvents_stamp] at hl
          exact replayByKind_logged (fun k v hmem => by cases hmem) hl
        · rw [announced_append, announced_stamp]
          refine or_congr_right ⟨?_, ?_⟩
          · rintro ⟨rec, hrec, -, rfl, rfl⟩
            rw [List.mem_singleton] at hrec
            subst hrec
            exact ⟨rfl, rfl⟩
          · rintro ⟨rfl, rfl⟩
            exact ⟨_, List.mem_cons_self, rfl, rfl, rfl⟩
      · cases hres
        refine ⟨{ location := loc }, ?_, rfl⟩
        rw [hem, ExtentMap.lookup_addEntry, if_pos rfl]

theorem fits_of_empty {em : ExtentMap} {id : Nat}
    (hempty : ∃ e, em.lookup id = some e ∧ e.usedBytes = 0) (hlt : size < 2 ^ 32) :
    ∀ e, em.lookup id = some e → e.usedBytes + size < 2 ^ 32 := by
  obtain ⟨e, he, hused⟩ := hempty
  intro e' he'
  rw [he] at he'
  cases he'
  omega

theorem placeLarge_spec (hs : s.Sound) {value : List Byte} {res : Except Int Placement}
    (h : s.placeLarge value = (res, s')) : Placed s s' (u32 value.length) res := by
  unfold placeLarge at h
  generalize hnew : s.newExtent _ = out at h
  obtain ⟨got, s₁⟩ := out
  obtain ⟨hs₁, hkm₁, hempty⟩ := newExtent_spec hs hnew
  cases got with
  | error r =>
      cases h
      exact ⟨hs₁, hkm₁, fun p hp => by cases hp⟩
  | ok target =>
      obtain ⟨id, loc⟩ := target
      have hlt := u32_lt value.length
      dsimp only at h
      generalize happ : s₁.extentMap.appendSlot id (u32 value.length) = appended at h
      obtain ⟨off, em⟩ := appended
      obtain ⟨hs₂, hres⟩ := appendSlot_spec hs₁ (fits_of_empty (hempty id loc rfl) hlt) happ
      dsimp only at h
      split at h
      · cases h
        exact ⟨hs₂.evolves (Evolves.free _ _), hkm₁, fun p hp => by cases hp⟩
      · rename_i hoff
        obtain ⟨hreserved, hentry⟩ := hres hoff
        generalize hwrite : writeValue _ _ _ = written at h
        obtain ⟨r, s₃⟩ := written
        obtain ⟨hkm₃, hem₃, hj₃⟩ := writeValue_keeps hwrite
        have hs₃ : s₃.Sound := hs₂.of_same hkm₃ hem₃ hj₃
        dsimp only at h
        split at h
        · cases h
          exact ⟨hs₃.evolves (Evolves.free _ _), hkm₃.trans hkm₁, fun p hp => by cases hp⟩
        · cases h
          refine ⟨hs₃, hkm₃.trans hkm₁, fun p hp => ?_⟩
          cases hp
          rw [hkm₃, hem₃, hj₃]
          exact ⟨hreserved, hentry⟩

/-- The chosen extent has room for the value. -/
theorem chooseExtent_spec (hs : s.Sound) (hlt : size < 2 ^ 32)
    {res : Except Int (Nat × DiskLocation × Bool)} (h : s.chooseExtent size = (res, s')) :
    s'.Sound ∧ s'.keyMap = s.keyMap ∧ ∀ target, res = .ok target →
      ∀ e, s'.extentMap.lookup target.1 = some e → e.usedBytes + size < 2 ^ 32 := by
  unfold chooseExtent at h
  dsimp only at h
  split at h
  · generalize hnew : s.newExtent _ = out at h
    obtain ⟨got, s₁⟩ := out
    obtain ⟨hs₁, hkm₁, hempty⟩ := newExtent_spec hs hnew
    cases got with
    | error r =>
        cases h
        exact ⟨hs₁, hkm₁, fun target ht => by cases ht⟩
    | ok target =>
        obtain ⟨id, loc⟩ := target
        cases h
        refine ⟨hs₁, hkm₁, fun target ht => ?_⟩
        cases ht
        exact fits_of_empty (hempty id loc rfl) hlt
  · rename_i hfound
    obtain ⟨e, he, -, hroom⟩ := hs.slots.mirrored.findExtentWithSpace hfound
    have hcap := ExtentMap.capacity_lt e.location
    have hwithin := hs.slots.within _ e he
    unfold ExtentMap.room at hroom
    rw [sub32_of_le hwithin hcap] at hroom
    split at h
    · cases h
      exact ⟨hs, rfl, fun target ht => by cases ht⟩
    · cases h
      refine ⟨hs, rfl, fun target ht e' he' => ?_⟩
      cases ht
      rw [he] at he'
      cases he'
      omega

theorem reserveSlot_spec (hs : s.Sound) (hlt : size < 2 ^ 32)
    {target : Nat × DiskLocation × Bool}
    (hn : ∀ e, s.extentMap.lookup target.1 = some e → e.usedBytes + size < 2 ^ 32)
    {res : Except Int Placement} (h : s.reserveSlot target size = (res, s')) :
    Placed s s' size res := by
  obtain ⟨id, loc, created⟩ := target
  unfold reserveSlot at h
  dsimp only at h hn
  generalize happ : s.extentMap.appendSlot id size = appended at h
  obtain ⟨off, em⟩ := appended
  obtain ⟨hs₁, hres⟩ := appendSlot_spec hs hn happ
  dsimp only at h
  split at h
  · rename_i hoff
    cases h
    refine ⟨hs₁, rfl, fun p hp => ?_⟩
    cases hp
    exact hres hoff
  · -- the retry, on the store with a fresh extent given back
    have hback : ∀ s₂ : Engine A, s₂ = (if created = true then
        { s with extentMap := em.free id } else { s with extentMap := em }) →
        s₂.Sound ∧ s₂.keyMap = s.keyMap := by
      intro s₂ hs₂
      split at hs₂
      · subst hs₂
        exact ⟨hs₁.evolves (Evolves.free _ _), rfl⟩
      · subst hs₂
        exact ⟨hs₁, rfl⟩
    obtain ⟨hs₂, hkm₂⟩ := hback _ rfl
    generalize hnew : Engine.newExtent (A := A) _ _ = out at h
    obtain ⟨got, s₃⟩ := out
    obtain ⟨hs₃, hkm₃, hempty⟩ := newExtent_spec hs₂ hnew
    cases got with
    | error r =>
        cases h
        exact ⟨hs₃, hkm₃.trans hkm₂, fun p hp => by cases hp⟩
    | ok fresh =>
        obtain ⟨id', loc'⟩ := fresh
        dsimp only at h
        generalize happ' : s₃.extentMap.appendSlot id' size = appended at h
        obtain ⟨off', em'⟩ := appended
        obtain ⟨hs₄, hres'⟩ :=
          appendSlot_spec hs₃ (fits_of_empty (hempty id' loc' rfl) hlt) happ'
        dsimp only at h
        split at h
        · cases h
          exact ⟨hs₄.evolves (Evolves.free _ _), hkm₃.trans hkm₂, fun p hp => by cases hp⟩
        · rename_i hoff'
          cases h
          refine ⟨hs₄, hkm₃.trans hkm₂, fun p hp => ?_⟩
          cases hp
          exact hres' hoff'

theorem placeSmall_spec (hs : s.Sound) {value : List Byte} {res : Except Int Placement}
    (h : s.placeSmall value = (res, s')) : Placed s s' (u32 value.length) res := by
  have hlt := u32_lt value.length
  unfold placeSmall at h
  generalize hchoose : s.chooseExtent _ = out at h
  obtain ⟨got, s₁⟩ := out
  obtain ⟨hs₁, hkm₁, hfits⟩ := chooseExtent_spec hs hlt hchoose
  cases got with
  | error r =>
      cases h
      exact ⟨hs₁, hkm₁, fun p hp => by cases hp⟩
  | ok target =>
      dsimp only at h
      generalize hreserve : s₁.reserveSlot _ _ = out at h
      obtain ⟨got, s₂⟩ := out
      obtain ⟨hs₂, hkm₂, hres⟩ := reserveSlot_spec hs₁ hlt (hfits target rfl) hreserve
      cases got with
      | error r =>
          cases h
          exact ⟨hs₂, hkm₂.trans hkm₁, fun p hp => by cases hp⟩
      | ok p =>
          obtain ⟨hreserved, hentry⟩ := hres p rfl
          dsimp only at h
          generalize hwrite : s₂.writeValue p value = written at h
          obtain ⟨r, s₃⟩ := written
          obtain ⟨hkm₃, hem₃, hj₃⟩ := writeValue_keeps hwrite
          have hs₃ : s₃.Sound := hs₂.of_same hkm₃ hem₃ hj₃
          dsimp only at h
          split at h
          · cases h
            obtain ⟨em, heq, hev⟩ := evolves_unreserve s₃ p (u32 value.length)
            rw [heq]
            exact ⟨hs₃.evolves hev, hkm₃.trans (hkm₂.trans hkm₁), fun p hp => by cases hp⟩
          · cases h
            refine ⟨hs₃, hkm₃.trans (hkm₂.trans hkm₁), fun q hq => ?_⟩
            cases hq
            rw [hkm₃, hem₃, hj₃]
            exact ⟨hreserved, hentry⟩

theorem place_spec (hs : s.Sound) {value : List Byte} {res : Except Int Placement}
    (h : s.place value = (res, s')) : Placed s s' (u32 value.length) res := by
  unfold place at h
  split at h
  · exact placeLarge_spec hs h
  · exact placeSmall_spec hs h

/-- `put` keeps slots apart, whatever it returns. -/
theorem Sound.put (hs : s.Sound) (key : Key) (value : List Byte) (now : Nat) :
    (s.put key value now).2.Sound := by
  unfold Engine.put
  have hstart : ∀ s₁ : Engine A, s₁ = (if s.journal.isNearFull = true then s.checkpoint else s) →
      s₁.Sound := by
    intro s₁ hs₁
    split at hs₁
    · subst hs₁
      exact hs.checkpoint
    · subst hs₁
      exact hs
  have hs₁ := hstart _ rfl
  dsimp only
  generalize hplace : Engine.place (A := A) _ value = out
  obtain ⟨res, s₂⟩ := out
  obtain ⟨hs₂, -, hres⟩ := place_spec hs₁ hplace
  cases res with
  | error r => exact hs₂
  | ok p =>
      obtain ⟨hreserved, hentry⟩ := hres p rfl
      exact commitPut_sound hs₂ (hreserved key) hentry _ now

end Clab.Btier.Engine
