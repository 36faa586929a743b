import Clab.Btier.FreeLists
import Clab.Btier.MapCalls

/-!
# When the free lists keep mirroring the extents

`commit_migration` gives an extent a new place and leaves the free lists alone,
and entering an extent under an id that is taken leaves the old element behind.
Every other call re-keys the element it changes. So a run keeps the mirror
exactly when each of its steps of these two kinds leaves the tier and the room
of the extent as they were.
-/

namespace Clab.Btier

open Clab.Blk

namespace ExtentMap

/-- `find_extent_with_space` finds an ACTIVE extent of the tier with the bytes
asked for whenever there is one. -/
def FindsSpace (em : ExtentMap) : Prop :=
  ∀ (tier : Tier) (needed : Nat),
    (∃ id e, em.lookup id = some e ∧ e.metrics.state = .ACTIVE ∧ e.location.tier = tier ∧
      needed ≤ room e) →
    ∃ e, em.lookup (em.findExtentWithSpace tier needed) = some e ∧
      e.metrics.state = .ACTIVE ∧ e.location.tier = tier ∧ needed ≤ room e

/-- An element from `lower_bound` on has the bytes asked for. -/
theorem le_of_candidate {f : ExtentFreeEntry} {needed : Nat} :
    (!f.lt ⟨needed, 0⟩) = true ↔ needed ≤ f.freeBytes := by
  rw [Bool.not_eq_true', ← Bool.not_eq_true, ExtentFreeEntry.lt_iff]
  dsimp only
  omega

/-- The search stops at an ACTIVE extent, and it does stop when there is one. -/
theorem findExtentWithSpace_spec (em : ExtentMap) (tier : Tier) (needed : Nat)
    {f : ExtentFreeEntry} {e : ExtentEntry} (hf : f ∈ em.freeLists tier)
    (hroom : needed ≤ f.freeBytes) (he : em.lookup f.extentId = some e)
    (hactive : e.metrics.state = .ACTIVE) :
    ∃ g e', g ∈ em.freeLists tier ∧ needed ≤ g.freeBytes ∧
      em.findExtentWithSpace tier needed = g.extentId ∧ em.lookup g.extentId = some e' ∧
      e'.metrics.state = .ACTIVE := by
  have hcand : f ∈ (em.freeLists tier).filter fun f => !f.lt ⟨needed, 0⟩ :=
    List.mem_filter.mpr ⟨hf, le_of_candidate.mpr hroom⟩
  unfold findExtentWithSpace
  dsimp only
  split
  · rename_i g hg
    obtain ⟨hmem, hlt⟩ := List.mem_filter.mp (List.mem_of_find?_eq_some hg)
    have hstop := List.find?_some hg
    cases he' : em.lookup g.extentId with
    | none => simp [he'] at hstop
    | some e' =>
        refine ⟨g, e', hmem, le_of_candidate.mp hlt, rfl, he', ?_⟩
        simpa [he'] using hstop
  · rename_i hnone
    have hno := List.find?_eq_none.mp hnone f hcand
    simp [he, hactive] at hno

theorem Mirrored.findsSpace {em : ExtentMap} (hm : em.Mirrored) : em.FindsSpace := by
  intro tier needed hex
  obtain ⟨id, e, he, hactive, rfl, hroom⟩ := hex
  obtain ⟨g, e', hg, hneeded, hfind, he', hactive'⟩ :=
    em.findExtentWithSpace_spec e.location.tier needed (hm.listed he) hroom he hactive
  obtain ⟨ht, hr⟩ := hm.tells hg he'
  refine ⟨e', ?_, hactive', ht, ?_⟩
  · rw [hfind]
    exact he'
  · rw [← hr]
    exact hneeded

/-- An extent may enter under `id`: no extent has the id, or the one that has
it is on the same tier and has the room of an unused one. -/
def Enters (em : ExtentMap) (id : Nat) (loc : DiskLocation) : Prop :=
  ∀ e, em.lookup id = some e → e.location.tier = loc.tier ∧ room e = capacity loc

theorem mem_freeLists_addEntry {em : ExtentMap} {id : Nat} {loc : DiskLocation} {t : Tier}
    {f : ExtentFreeEntry} (hf : f ∈ em.freeLists t) : f ∈ (em.addEntry id loc).freeLists t := by
  show f ∈ Function.update em.freeLists loc.tier _ t
  rw [Function.update_apply]
  split
  · rename_i ht
    subst ht
    exact mem_freeListInsert.mpr (.inr hf)
  · exact hf

theorem Mirrored.addEntry_iff {em : ExtentMap} (hm : em.Mirrored) {id : Nat}
    {loc : DiskLocation} : (em.addEntry id loc).Mirrored ↔ em.Enters id loc := by
  constructor
  · intro hm' e he
    have hnew : (em.addEntry id loc).lookup id = some { location := loc } := by simp
    obtain ⟨ht, hr⟩ := hm'.tells (mem_freeLists_addEntry (hm.listed he)) hnew
    exact ⟨ht.symm, hr.trans (room_of_unused rfl)⟩
  · exact hm.addEntry

theorem mirrored_wrapNextId {em : ExtentMap} : em.wrapNextId.Mirrored ↔ em.Mirrored :=
  ⟨fun h => h.of_eq rfl fun _ => rfl, fun h => h.of_eq rfl fun _ => rfl⟩

/-- The place a commit moves an extent to leaves its element right. -/
def Moves (em : ExtentMap) (h : MigrationHandle) (newLoc : DiskLocation) : Prop :=
  ∀ e, em.lookup h.extentId = some e → e.metrics.generation = h.genBefore →
    newLoc.tier = e.location.tier ∧ room { e with location := newLoc } = room e

theorem Mirrored.commitMigration_iff {em : ExtentMap} (hm : em.Mirrored)
    (h : MigrationHandle) (newLoc : DiskLocation) :
    (em.commitMigration h newLoc).2.Mirrored ↔ em.Moves h newLoc := by
  generalize hc : em.commitMigration h newLoc = out
  obtain ⟨ok, em'⟩ := out
  rcases commitMigration_spec hc with ⟨-, rfl, hgen⟩ |
    ⟨e, e', he, hgen, hloc, hused, -, rfl⟩
  · exact ⟨fun _ e he hg => absurd hg (hgen e he), fun _ => hm⟩
  · have hroom : room e' = room { e with location := newLoc } := by
      unfold room
      rw [hloc, hused]
    constructor
    · -- the element of the old place is still there and must be the new one's
      intro hm' e₁ he₁ _
      have heq := he.symm.trans he₁
      cases heq
      have hold : (⟨room e, h.extentId⟩ : ExtentFreeEntry) ∈
          (((em.setEntry h.extentId e').addDeferredFree e.location).markDirty
            h.extentId).freeLists e.location.tier := hm.listed he
      have hnew : (((em.setEntry h.extentId e').addDeferredFree e.location).markDirty
          h.extentId).lookup h.extentId = some e' := by simp
      obtain ⟨ht, hr⟩ := hm'.tells hold hnew
      exact ⟨by rw [← ht, hloc], hroom.symm.trans hr.symm⟩
    · intro hmoves
      obtain ⟨ht, hr⟩ := hmoves e he hgen
      have hm' : (em.setEntry h.extentId e').Mirrored :=
        hm.setEntry he (by rw [hloc, ht]) (hroom.trans hr)
      exact hm'.of_eq rfl fun _ => rfl

theorem Mirrored.beginMigration {em : ExtentMap} (hm : em.Mirrored) (id : Nat) :
    (em.beginMigration id).2.Mirrored := by
  unfold ExtentMap.beginMigration
  cases he : em.lookup id with
  | none => exact hm
  | some e =>
      dsimp only
      split
      · exact hm
      · exact hm.setEntry he rfl rfl

theorem Mirrored.abortMigration {em : ExtentMap} (hm : em.Mirrored) (h : MigrationHandle) :
    (em.abortMigration h).Mirrored := by
  unfold ExtentMap.abortMigration
  cases he : em.lookup h.extentId with
  | none => exact hm
  | some e =>
      dsimp only
      split
      · exact hm
      · exact hm.setEntry he rfl rfl

end ExtentMap

/-! ## Runs -/

namespace ExtentStore

open ExtentMap

variable {A : Type} [Allocator A]

/-- A call leaves every element of the free lists right: an extent enters under
an id that no other element names, and one that moves keeps its tier and its
room. -/
def Rekeys (s : ExtentStore A) : MapCall → Prop
  | .allocateExtent tier size =>
      ∀ loc, (s.em.allocateRaw s.alloc tier size).1 = some loc →
        s.em.Enters s.em.nextExtentId loc
  | .createEntryFromJournal id loc => s.em.Enters id loc
  | .commitMigration h newLoc => s.em.Moves h newLoc
  | _ => True

theorem mirrored_allocateExtent_iff {s : ExtentStore A} (hm : s.em.Mirrored) (tier : Tier)
    (size : Nat) :
    (s.run (.allocateExtent tier size)).em.Mirrored ↔ s.Rekeys (.allocateExtent tier size) := by
  have hm' : ({ s.em with nextExtentId := s.em.nextExtentId + 1 } : ExtentMap).Mirrored :=
    hm.of_eq rfl fun _ => rfl
  show (s.em.allocateExtent s.alloc s.dev tier size).2.1.wrapNextId.Mirrored ↔ _
  generalize hall : s.em.allocateExtent s.alloc s.dev tier size = out
  obtain ⟨res, em', al, d⟩ := out
  rw [mirrored_wrapNextId]
  rcases allocateExtent_cases hall with ⟨-, rfl, -, hnone⟩ | ⟨loc, -, rfl, hsome, -⟩
  · exact ⟨fun _ loc h => by simp [hnone] at h, fun _ => hm⟩
  · refine hm'.addEntry_iff.trans ⟨fun h loc' hloc => ?_, fun h => h loc hsome⟩
    have heq := hsome.symm.trans hloc
    cases heq
    exact h

/-- From lists that mirror the extents, a call leads to such lists exactly when
it re-keys. -/
theorem mirrored_run_iff {s : ExtentStore A} (hm : s.em.Mirrored) (c : MapCall) :
    (s.run c).em.Mirrored ↔ s.Rekeys c := by
  cases c with
  | allocateExtent tier size => exact mirrored_allocateExtent_iff hm tier size
  | appendSlot id size => exact ⟨fun _ => trivial, fun _ => hm.appendSlot rfl⟩
  | markDeadSlot id length => exact ⟨fun _ => trivial, fun _ => hm.markDeadSlot id length⟩
  | beginMigration id => exact ⟨fun _ => trivial, fun _ => hm.beginMigration id⟩
  | commitMigration h newLoc => exact hm.commitMigration_iff h newLoc
  | abortMigration h => exact ⟨fun _ => trivial, fun _ => hm.abortMigration h⟩
  | createEntryFromJournal id loc =>
      have hm' : ∀ next, ({ s.em with nextExtentId := next } : ExtentMap).Mirrored :=
        fun _ => hm.of_eq rfl fun _ => rfl
      exact mirrored_wrapNextId.trans (hm' _).addEntry_iff
  | restoreExtentState id used live =>
      exact ⟨fun _ => trivial, fun _ => hm.restoreExtentState id used live⟩
  | releaseSource loc => exact ⟨fun _ => trivial, fun _ => hm.of_eq rfl fun _ => rfl⟩
  | free id => exact ⟨fun _ => trivial, fun _ => hm.free id⟩
  | processDeferredFree => exact ⟨fun _ => trivial, fun _ => hm.of_eq rfl fun _ => rfl⟩

/-- The lists mirror the extents after every part of a run exactly when every
step of it re-keys. -/
theorem mirrored_prefixes_iff {s : ExtentStore A} (hm : s.em.Mirrored) (calls : List MapCall) :
    (∀ n, (s.after (calls.take n)).em.Mirrored) ↔ Keeps Rekeys s calls := by
  induction calls generalizing s with
  | nil =>
      constructor
      · intro _
        trivial
      · intro _ n
        rw [List.take_nil]
        exact hm
  | cons c rest ih =>
      constructor
      · intro h
        have hstep : (s.run c).em.Mirrored := h 1
        exact ⟨(mirrored_run_iff hm c).mp hstep, (ih hstep).mp fun n => h (n + 1)⟩
      · rintro ⟨hc, hrest⟩ n
        have hstep := (mirrored_run_iff hm c).mpr hc
        cases n with
        | zero => exact hm
        | succ n => exact (ih hstep).mpr hrest n

/-- From a new map on, the free lists mirror the extents and searches find
space after every part of a run, exactly when each of its steps re-keys. -/
theorem free_lists_mirror_iff (blockSize extentSize : Nat) (alloc : Tier → A)
    (dev : Tier → BlockDevice) (calls : List MapCall) :
    let s := new blockSize extentSize alloc dev
    (∀ n, (s.after (calls.take n)).em.Mirrored ∧ (s.after (calls.take n)).em.FindsSpace) ↔
      Keeps Rekeys s calls := by
  intro s
  rw [← mirrored_prefixes_iff (mirrored_empty blockSize extentSize) calls]
  exact ⟨fun h n => (h n).1, fun h n => ⟨h n, (h n).findsSpace⟩⟩

end ExtentStore

/-- An extent of 1 MiB migrates from the fast tier to the slow one. -/
def demotion : List MapCall :=
  [.createEntryFromJournal 1 ⟨0, 2 ^ 20, .FAST⟩, .beginMigration 1,
    .commitMigration ⟨1, ⟨0, 2 ^ 20, .FAST⟩, 0⟩ ⟨0, 2 ^ 20, .SLOW⟩]

/-- The extent after it. -/
def demoted : ExtentEntry :=
  { location := ⟨0, 2 ^ 20, .SLOW⟩, metrics := .pack 0 0 0 .ACTIVE 1 }

/-- After it, with the handle the map gave out, the extent is ACTIVE on the slow
tier with all of its room, but the fast tier's list still names it and the slow
tier's search finds nothing. -/
theorem demotion_not_mirrored :
    let em := (emptyStore.after demotion).em
    ((emptyStore.after (demotion.take 1)).em.beginMigration 1).1 =
        some ⟨1, ⟨0, 2 ^ 20, .FAST⟩, 0⟩ ∧
      em.lookup 1 = some demoted ∧ ExtentMap.room demoted = 2 ^ 20 - 4096 ∧
      em.freeLists .FAST = [⟨2 ^ 20 - 4096, 1⟩] ∧ em.freeLists .SLOW = [] ∧
      em.findExtentWithSpace .SLOW 4096 = UINT64_MAX ∧ ¬ em.Mirrored ∧ ¬ em.FindsSpace := by
  intro em
  have hmoved : em.lookup 1 = some demoted := rfl
  have hroom : ExtentMap.room demoted = 2 ^ 20 - 4096 := rfl
  have hfinds : ¬ em.FindsSpace := by
    intro hf
    obtain ⟨e, he, -⟩ := hf .SLOW 4096 ⟨1, _, hmoved, rfl, rfl, by rw [hroom]; norm_num⟩
    cases he
  exact ⟨rfl, hmoved, hroom, rfl, rfl, rfl, fun hm => hfinds hm.findsSpace, hfinds⟩

end Clab.Btier
