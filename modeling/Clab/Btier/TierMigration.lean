import Clab.Btier.Relocation

/-!
# Tier migration keeps the values

`migrate_tier` writes at most once: the bytes read on the device of the source
tier go to the device of the tier asked for, at the offset of the location it
then commits. That location may be on the other tier, and may be shorter than
the extent.
-/

namespace Clab.Btier.Engine

open Clab.Blk

variable {A : Type} [Allocator A]

/-- The migration gets to its write: the extent can be claimed and read, space
for it is found at `dstLoc`, and the write does not fail. -/
structure Copies (s : Engine A) (extentId : Nat) (src dst : Tier) (e : ExtentEntry)
    (dstLoc : DiskLocation) : Prop where
  entry : s.extentMap.lookup extentId = some e
  active : e.metrics.state = .ACTIVE
  read : (s.dev src).fails = false
  space : (s.extentMap.allocateRaw s.alloc dst e.location.length).1 = some dstLoc
  write : ((s.setDev src (s.dev src).spend).dev dst).fails = false

/-- The condition of a faithful migration: whenever it gets to its write, the
space is on the tier asked for and as long as the extent, and the bytes read at
the slots of the keys are their values. -/
def MigrateFits (s : Engine A) (extentId : Nat) (src dst : Tier) : Prop :=
  ∀ e dstLoc, s.Copies extentId src dst e dstLoc →
    dstLoc.tier = dst ∧ e.location.length ≤ dstLoc.length ∧
      ∀ k kloc, s.keyMap.lookup k = some kloc → kloc.extentId = extentId →
        slotBytes s.dev { e.location with tier := src } kloc = slotBytes s.dev e.location kloc

/-- A migration that copies: the bytes written and where the keys are found. -/
structure Copied (s s' : Engine A) (extentId : Nat) (src dst : Tier) (e : ExtentEntry)
    (dstLoc : DiskLocation) : Prop where
  keyMap : s'.keyMap = s.keyMap
  places : ∀ i, s'.extentMap.getLocation i =
    if i = extentId then some dstLoc else s.extentMap.getLocation i
  written : (s.dev dst).Wrote (s'.dev dst)
    [(dstLoc.offset, (s.dev src).content.read e.location.offset e.location.length)]
  untouched : ∀ t, t ≠ dst → (s.dev t).Wrote (s'.dev t) []

/-- A migration that does not. -/
structure Untouched (s s' : Engine A) : Prop where
  keyMap : s'.keyMap = s.keyMap
  places : ∀ i, s'.extentMap.getLocation i = s.extentMap.getLocation i
  writes : ∀ t, (s.dev t).Wrote (s'.dev t) []

omit [Allocator A] in
theorem setDev_dev (s : Engine A) (t : Tier) (d : BlockDevice) (t' : Tier) :
    (s.setDev t d).dev t' = if t' = t then d else s.dev t' := by
  unfold setDev
  exact Function.update_apply _ _ _ _

omit [Allocator A] in
theorem wrote_setDev {s : Engine A} {t : Tier} {d : BlockDevice} (h : (s.dev t).Wrote d [])
    (t' : Tier) : (s.dev t').Wrote ((s.setDev t d).dev t') [] := by
  rw [setDev_dev]
  split
  · rename_i ht
    rw [ht]
    exact h
  · exact BlockDevice.Wrote.refl _

omit [Allocator A] in
theorem dev_countMigration (s : Engine A) (src dst : Tier) :
    (s.countMigration src dst).dev = s.dev ∧ (s.countMigration src dst).keyMap = s.keyMap ∧
      (s.countMigration src dst).extentMap = s.extentMap := by
  unfold countMigration
  split <;> exact ⟨rfl, rfl, rfl⟩

omit [Allocator A] in
/-- The copy is committed when the generation is the one of the handle. -/
theorem commitCopy_spec {s s' : Engine A} {h : MigrationHandle} {dstLoc : DiskLocation}
    {src dst : Tier} {res : MigrationResult} {e : ExtentEntry}
    (he : s.extentMap.lookup h.extentId = some e) (hgen : e.metrics.generation = h.genBefore)
    (hc : s.commitCopy h dstLoc src dst = (res, s')) :
    res = .COMMITTED ∧ s'.dev = s.dev ∧ s'.keyMap = s.keyMap ∧ ∀ i, s'.extentMap.getLocation i =
      if i = h.extentId then some dstLoc else s.extentMap.getLocation i := by
  unfold commitCopy at hc
  generalize hcommit : s.extentMap.commitMigration h dstLoc = out at hc
  obtain ⟨ok, em⟩ := out
  rcases ExtentMap.commitMigration_cases hcommit with ⟨-, -, hno⟩ | ⟨-, -, rfl, hplaces⟩
  · exact absurd hgen (hno e he)
  · cases hc
    obtain ⟨hdev, hkm, hem⟩ := dev_countMigration { s with extentMap := em } src dst
    exact ⟨rfl, hdev, hkm, fun i => by rw [hem]; exact hplaces i⟩

omit [Allocator A] in
/-- The write fails and nothing changes, or the copy is committed. -/
theorem writeCopy_spec {s s' : Engine A} {h : MigrationHandle} {dstLoc : DiskLocation}
    {src dst : Tier} {data : List Byte} {res : MigrationResult} {e : ExtentEntry}
    (he : s.extentMap.lookup h.extentId = some e) (hgen : e.metrics.generation = h.genBefore)
    (hc : s.writeCopy h dstLoc src dst data = (res, s')) :
    ((s.dev dst).fails = true ∧ s.Untouched s') ∨
      ((s.dev dst).fails = false ∧ res = .COMMITTED ∧ s'.keyMap = s.keyMap ∧
        (∀ i, s'.extentMap.getLocation i =
          if i = h.extentId then some dstLoc else s.extentMap.getLocation i) ∧
        (s.dev dst).Wrote (s'.dev dst) [(dstLoc.offset, data)] ∧
        ∀ t, t ≠ dst → s'.dev t = s.dev t) := by
  unfold writeCopy at hc
  generalize hwrite : (s.dev dst).write dstLoc.offset data true = out at hc
  obtain ⟨r, d⟩ := out
  dsimp only at hc
  rcases BlockDevice.write_buffered hwrite with ⟨hfails, hr, hw⟩ | ⟨hfails, hr, hw⟩
  · rw [if_pos hr] at hc
    cases hc
    exact .inl ⟨hfails, rfl, fun i => ExtentMap.getLocation_abortMigration _ _ i,
      wrote_setDev hw⟩
  · rw [if_neg (by omega)] at hc
    obtain ⟨hres, hdev, hkm, hplaces⟩ := commitCopy_spec (by exact he) hgen hc
    refine .inr ⟨hfails, hres, hkm, hplaces, ?_, fun t ht => ?_⟩
    · rw [hdev, setDev_dev, if_pos rfl]
      exact hw
    · rw [hdev, setDev_dev, if_neg ht]

/-- Every migration copies or leaves everything alone. -/
theorem migrateTier_cases {s s' : Engine A} {extentId : Nat} {src dst : Tier}
    {res : MigrationResult}
    (hgen : ∀ id e, s.extentMap.lookup id = some e → e.metrics.generation < 2 ^ 32)
    (h : s.migrateTier extentId src dst = (res, s')) :
    (s.Untouched s' ∧ ∀ e dstLoc, ¬ s.Copies extentId src dst e dstLoc) ∨
      ∃ e dstLoc, s.Copies extentId src dst e dstLoc ∧ s.Copied s' extentId src dst e dstLoc := by
  unfold migrateTier at h
  generalize hbegin : s.extentMap.beginMigration extentId = out at h
  obtain ⟨handle, em⟩ := out
  rcases ExtentMap.beginMigration_cases hbegin with
    ⟨rfl, rfl, hno⟩ | ⟨e, e', he, hactive, rfl, hloc, hgen', rfl⟩
  · cases h
    exact .inl ⟨⟨rfl, fun _ => rfl, fun _ => BlockDevice.Wrote.refl _⟩,
      fun e dstLoc hc => hno e hc.entry hc.active⟩
  have hplaces : ∀ i, (s.extentMap.setEntry extentId e').getLocation i =
      s.extentMap.getLocation i :=
    fun i => ExtentMap.getLocation_setEntry_same he hloc i
  have hcopies : ∀ e₁ dstLoc, s.Copies extentId src dst e₁ dstLoc → e₁ = e := by
    intro e₁ dstLoc hc
    exact Option.some.inj (hc.entry.symm.trans he)
  dsimp only at h
  unfold migrateClaimed at h
  dsimp only at h
  generalize hread : (s.dev src).read e.location.offset e.location.length true = out at h
  obtain ⟨r, data, d⟩ := out
  obtain ⟨hwread, rfl, hout⟩ := BlockDevice.read_buffered hread
  have hreads := wrote_setDev hwread
  dsimp only at h
  rcases hout with ⟨hfails, hr⟩ | ⟨hfails, hr, rfl⟩
  · rw [if_pos hr] at h
    cases h
    refine .inl ⟨⟨rfl, fun i => ?_, hreads⟩, fun e₁ dstLoc hc => ?_⟩
    · exact (ExtentMap.getLocation_abortMigration _ _ i).trans (hplaces i)
    · exact absurd (hc.read.symm.trans hfails) (by decide)
  rw [if_neg (by omega)] at h
  have hcongr : ∀ s₁ : Engine A, s₁.extentMap.blockSize = s.extentMap.blockSize →
      s₁.extentMap.allocateRaw s.alloc dst e.location.length =
        s.extentMap.allocateRaw s.alloc dst e.location.length :=
    fun _ hb => ExtentMap.allocateRaw_congr hb _ _ _
  generalize hspace : ExtentMap.allocateRaw (A := A) _ _ _ _ = out at h
  have hspace' := (hcongr _ rfl).symm.trans hspace
  obtain ⟨space, al⟩ := out
  cases space with
  | none =>
      cases h
      refine .inl ⟨⟨rfl, fun i => ?_, hreads⟩, fun e₁ dstLoc hc => ?_⟩
      · exact (ExtentMap.getLocation_abortMigration _ _ i).trans (hplaces i)
      · have hsome := hc.space
        rw [hcopies _ _ hc, hspace'] at hsome
        cases hsome
  | some dstLoc =>
      dsimp only at h
      have hentry : (s.extentMap.setEntry extentId e').lookup extentId = some e' := by
        rw [ExtentMap.lookup_setEntry, if_pos rfl]
      have hgen₁ : e'.metrics.generation = e.metrics.generation := by
        rw [hgen', Nat.mod_eq_of_lt (hgen extentId e he)]
      rcases writeCopy_spec (by exact hentry) hgen₁ h with
        ⟨hwfails, hun⟩ | ⟨hwfails, -, hkm, hmoved, hwrote, hsame⟩
      · refine .inl ⟨⟨hun.keyMap, fun i => (hun.places i).trans (hplaces i), fun t => ?_⟩,
          fun e₁ dst₁ hc => ?_⟩
        · exact (hreads t).trans (hun.writes t)
        · exact absurd (hc.write.symm.trans hwfails) (by decide)
      · refine .inr ⟨e, dstLoc, ⟨he, hactive, hfails, by rw [hspace'], hwfails⟩,
          hkm, fun i => ?_, ?_, fun t ht => ?_⟩
        · rw [hmoved]
          split
          · rfl
          · exact hplaces i
        · exact (hreads dst).trans hwrote
        · rw [hsame t ht]
          exact hreads t

omit [Allocator A] in
/-- What a copy leaves where a key of the extent is found. -/
theorem Copied.slotBytes_eq {s s' : Engine A} {extentId : Nat} {src dst : Tier} {e : ExtentEntry}
    {dstLoc : DiskLocation} (hc : s.Copied s' extentId src dst e dstLoc)
    (htier : dstLoc.tier = dst) {kloc : KeyLocation}
    (hin : HEADER_SIZE + kloc.slotEnd ≤ e.location.length) :
    slotBytes s'.dev dstLoc kloc = slotBytes s.dev { e.location with tier := src } kloc := by
  unfold slotBytes
  unfold KeyLocation.slotEnd at hin
  rw [htier, hc.written.content]
  dsimp only [List.foldr]
  rw [Nat.add_assoc, Nat.add_assoc]
  exact Content.read_write_copy _ _ (by omega)

/-- A migration leaves all values and all other space alone exactly when the
copy fits the space it is committed to. -/
theorem migrateTier_preserves_iff {s : Engine A} (hs : s.WellPlaced) (extentId : Nat)
    (src dst : Tier) :
    s.Preserves (s.migrateTier extentId src dst).2 extentId (s.relocationSpace extentId dst) ↔
      s.MigrateFits extentId src dst := by
  generalize hrun : s.migrateTier extentId src dst = out
  obtain ⟨res, s'⟩ := out
  dsimp only
  have hwhere : ∀ {e dstLoc}, s.Copies extentId src dst e dstLoc →
      s.Copied s' extentId src dst e dstLoc → ∀ k kloc, s.keyMap.lookup k = some kloc →
        kloc.extentId = extentId →
          s.whereIs k = some (e.location, kloc) ∧ s'.whereIs k = some (dstLoc, kloc) := by
    intro e dstLoc hcopies hcopied k kloc hk hid
    constructor
    · refine whereIs_eq_some.mpr ⟨hk, ?_⟩
      rw [ExtentMap.getLocation, hid, hcopies.entry]
      rfl
    · refine whereIs_eq_some.mpr ⟨by rw [hcopied.keyMap]; exact hk, ?_⟩
      rw [hcopied.places, if_pos hid]
  have hspace : ∀ {e dstLoc}, s.Copies extentId src dst e dstLoc →
      s.relocationSpace extentId dst = some dstLoc := by
    intro e dstLoc hcopies
    unfold relocationSpace
    rw [hcopies.entry]
    exact hcopies.space
  constructor
  · intro hp e dstLoc hcopies
    rcases migrateTier_cases hs.generation hrun with ⟨-, hno⟩ | ⟨e', dst', hcopies', hcopied⟩
    · exact absurd hcopies (hno e dstLoc)
    obtain rfl : e' = e := Option.some.inj (hcopies'.entry.symm.trans hcopies.entry)
    obtain rfl : dst' = dstLoc := Option.some.inj (hcopies'.space.symm.trans hcopies.space)
    obtain ⟨loc, hloc, htier, -, hlen⟩ :=
      WritesInto.mem hp.writes hcopied.written _ List.mem_cons_self
    obtain rfl : dst' = loc := Option.some.inj ((hspace hcopies).symm.trans hloc)
    dsimp only at hlen
    rw [Content.read_length] at hlen
    refine ⟨htier, by omega, fun k kloc hk hid => ?_⟩
    obtain ⟨hw, hw'⟩ := hwhere hcopies hcopied k kloc hk hid
    have hin := hs.inside k kloc e' hk (by rw [hid]; exact hcopies.entry)
    have hpeek := hp.values k 0
    rw [peek_eq, peek_eq, hw, hw'] at hpeek
    rw [← hcopied.slotBytes_eq htier hin]
    exact (Prod.mk.inj hpeek).2
  · intro hfits
    have hfree : ∀ loc, s.relocationSpace extentId dst = some loc → s.FreeSpace loc :=
      fun loc => hs.freeSpace
    rcases migrateTier_cases hs.generation hrun with ⟨hun, -⟩ | ⟨e, dstLoc, hcopies, hcopied⟩
    · have hw := WritesInto.refl_of_dev (s.relocationSpace extentId dst) hun.writes
      refine Preserves.of_writes hfree hw extentId fun key now => ?_
      exact peek_same_place hs hfree hw now
        (whereIs_congr (by rw [hun.keyMap]) fun kloc _ => hun.places _)
    · obtain ⟨htier, hlen, hbytes⟩ := hfits e dstLoc hcopies
      have hw : s.WritesInto s' (s.relocationSpace extentId dst) := by
        intro t
        by_cases ht : t = dst
        · subst ht
          refine ⟨_, hcopied.written, fun x hx => ?_⟩
          rw [List.mem_singleton] at hx
          subst hx
          refine ⟨dstLoc, hspace hcopies, htier, Nat.le_refl _, ?_⟩
          dsimp only
          rw [Content.read_length]
          omega
        · exact ⟨[], hcopied.untouched t ht, fun x hx => by cases hx⟩
      refine Preserves.of_writes hfree hw extentId fun key now => ?_
      cases hk : s.keyMap.lookup key with
      | none =>
          refine peek_same_place hs hfree hw now
            (whereIs_congr (by rw [hcopied.keyMap]) fun kloc hkloc => ?_)
          cases hk.symm.trans hkloc
      | some kloc =>
          by_cases hid : kloc.extentId = extentId
          · obtain ⟨hw₁, hw₂⟩ := hwhere hcopies hcopied key kloc hk hid
            have hin := hs.inside key kloc e hk (by rw [hid]; exact hcopies.entry)
            refine peek_congr now (.inr ⟨_, _, _, _, hw₁, hw₂, ?_⟩)
            rw [hcopied.slotBytes_eq htier hin]
            exact hbytes key kloc hk hid
          · refine peek_same_place hs hfree hw now
              (whereIs_congr (by rw [hcopied.keyMap]) fun kloc' hkloc' => ?_)
            cases hk.symm.trans hkloc'
            rw [hcopied.places, if_neg hid]

end Clab.Btier.Engine
