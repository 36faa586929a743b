import Clab.Bluefs.Sections

/-!
# The bytes of the shared allocator

`bluefs_used` is to be the number of bytes that BlueFS holds of an allocator it
shares. `Metered` counts them in the allocator itself. Every allocation adds to both;
the log flush takes what was pending off the counter and gives nothing back, and a
mount adds the files to the counter once more.
-/

namespace Clab.Bluefs

open Blk Common Segments

variable {V A : Type}

/-! ## The meter -/

/-- An allocator, with the number of bytes it granted that were not given back. -/
structure Metered (A : Type) where
  inner : A
  held : Nat := 0
  deriving DecidableEq

/-- What was granted is added. -/
def Metered.allocate [Allocator A] (a : Metered A) (want unit maxAllocSize : Nat) (hint : Int) :
    Int × List PExtent × Metered A :=
  let (r, extents, inner) := Allocator.allocate a.inner want unit maxAllocSize hint
  (r, extents, { inner, held := if 0 < r then a.held + total PExtent.length extents else a.held })

instance [Allocator A] : Allocator (Metered A) where
  allocate := Metered.allocate
  release a releaseVec :=
    { inner := Allocator.release a.inner releaseVec
      held := a.held - total PExtent.length releaseVec }
  initAddFree a offset length := { a with inner := Allocator.initAddFree a.inner offset length }
  initRmFree a offset length := { a with inner := Allocator.initRmFree a.inner offset length }
  getFree a := Allocator.getFree a.inner
  getCapacity a := Allocator.getCapacity a.inner

/-- The result of `allocate` is the number of bytes of the extents. -/
structure ExactAllocator [Allocator A] (ok : A → Prop) : Prop where
  allocate : ∀ {a a' : A} {want unit maxAllocSize : Nat} {hint r : Int} {extents : List PExtent},
    ok a → Allocator.allocate a want unit maxAllocSize hint = (r, extents, a') →
    ok a' ∧ (0 < r → (total PExtent.length extents : Int) = r)

/-- `bluefs_used` is what is held of the shared allocator. -/
def Accounted (s : BlueFS V (Metered A)) : Prop :=
  ∀ id, s.sharedAllocId = some id → s.bluefsUsed = (s.alloc id).held

/-- The shared allocator works as it should. -/
def Working (ok : A → Prop) (s : BlueFS V (Metered A)) : Prop :=
  ∀ id, s.sharedAllocId = some id → ok (s.alloc id).inner

/-! ## Steps that keep the counter -/

/-- What the counter is about stays as it is. -/
structure SameAccount (s s' : BlueFS V A) : Prop where
  shared : s'.sharedAllocId = s.sharedAllocId
  used : s'.bluefsUsed = s.bluefsUsed
  alloc : s'.alloc = s.alloc

namespace SameAccount

variable {s s' s'' : BlueFS V A}

theorem refl (s : BlueFS V A) : SameAccount s s := ⟨rfl, rfl, rfl⟩

theorem trans (h : SameAccount s s') (h' : SameAccount s' s'') : SameAccount s s'' :=
  ⟨h'.shared.trans h.shared, h'.used.trans h.used, h'.alloc.trans h.alloc⟩

theorem accounted {s s' : BlueFS V (Metered A)} (h : SameAccount s s') (hs : Accounted s) :
    Accounted s' := by
  intro id hid
  rw [h.used, h.alloc]
  exact hs id (by rw [← h.shared]; exact hid)

theorem working {s s' : BlueFS V (Metered A)} (h : SameAccount s s') {ok : A → Prop}
    (hs : Working ok s) : Working ok s' := by
  intro id hid
  rw [h.alloc]
  exact hs id (by rw [← h.shared]; exact hid)

end SameAccount

section Frame

variable (s : BlueFS V A)

theorem writeExtents_sameAccount (h : FileWriter) (buffered : Bool) (es : List Extent) (x : Nat)
    (bl : Bytes) : SameAccount s (s.writeExtents h buffered es x bl).2.2 := by
  obtain ⟨⟨b, hs⟩, -⟩ := s.writeExtents_eq h buffered es x bl
  rw [hs]
  exact ⟨rfl, rfl, rfl⟩

theorem flushData_sameAccount (h : FileWriter) (offset length : Nat) (buffered : Bool) :
    SameAccount s (s.flushData h offset length buffered).2.2 := by
  unfold BlueFS.flushData
  split
  · exact .refl s
  · simp only
    cases (s.nodes.files h.file).fnode.seek offset with
    | none => exact .refl s
    | some p =>
        obtain ⟨i, x⟩ := p
        have hwrite := writeExtents_sameAccount s h buffered
          ((s.nodes.files h.file).fnode.extents.drop i) x (h.buffer.take h.bufferLength)
        simp only
        split
        · exact hwrite
        · exact hwrite.trans ⟨rfl, rfl, rfl⟩

theorem flushLogData_sameAccount (w : FileWriter) (bl : Bytes) :
    SameAccount s (s.flushLogData w bl).2.2 := by
  unfold BlueFS.flushLogData
  simp only
  cases (s.nodes.files w.file).fnode.seek w.pos with
  | none => exact ⟨rfl, rfl, rfl⟩
  | some p =>
      obtain ⟨i, x⟩ := p
      have hwrite := writeExtents_sameAccount s w false
        ((s.nodes.files w.file).fnode.extents.drop i) x bl
      simp only
      split
      · exact hwrite
      · exact hwrite.trans ⟨rfl, rfl, rfl⟩

theorem writeLog_sameAccount (w : FileWriter) (t : Transaction) :
    SameAccount s (s.writeLog w t).2 := by
  have hdata := flushLogData_sameAccount s w (s.logBytes t)
  unfold BlueFS.writeLog
  simp only
  split
  · exact hdata.trans ⟨rfl, rfl, rfl⟩
  · exact hdata.trans ⟨rfl, rfl, rfl⟩

theorem signalDirtyToLog_sameAccount (r : FileRef) : SameAccount s (s.signalDirtyToLog r) := by
  unfold BlueFS.signalDirtyToLog
  simp only
  split <;> exact ⟨rfl, rfl, rfl⟩

theorem consumeDirty_sameAccount (seq : Nat) : SameAccount s (s.consumeDirty seq) := by
  unfold BlueFS.consumeDirty
  generalize s.waiting seq = rs
  induction rs generalizing s with
  | nil => exact .refl s
  | cons r rs ih =>
      have hone : SameAccount s (s.logFileUpdateInc r) := ⟨rfl, rfl, rfl⟩
      exact hone.trans (ih (s.logFileUpdateInc r))

theorem writeSuper_sameAccount (dev : Nat) : SameAccount s (s.writeSuper dev).2 := by
  unfold BlueFS.writeSuper
  cases s.bdev dev with
  | none => exact .refl s
  | some d =>
      simp only
      split
      · exact .refl s
      split <;> exact ⟨rfl, rfl, rfl⟩

theorem syncSuper_sameAccount : SameAccount s s.syncSuper.2 := by
  have hlog : SameAccount s ({ s with nodes := (s.nodes.getFile 1).2 }.setLogFnode
      (s.nodes.getFile 1).1) := ⟨rfl, rfl, rfl⟩
  exact hlog.trans (writeSuper_sameAccount _ BDEV_DB)

variable [VolumeSelector V]

theorem growSize_sameAccount (r : FileRef) (stop : Nat) : SameAccount s (s.growSize r stop) := by
  unfold BlueFS.growSize
  simp only
  split
  · exact ⟨rfl, rfl, rfl⟩
  · exact .refl s

theorem unlink_sameAccount (d f : Bytes) : SameAccount s (s.unlink d f).2 := by
  unfold BlueFS.unlink
  cases s.nodes.entry d f with
  | none => exact .refl s
  | some r =>
      simp only [BlueFS.dropLink]
      split
      · simp only [BlueFS.removeFile, BlueFS.retractDirty]
        split <;> exact ⟨rfl, rfl, rfl⟩
      · exact ⟨rfl, rfl, rfl⟩

theorem openForWrite_sameAccount (d f : Bytes) (overwrite : Bool) :
    SameAccount s (s.openForWrite d f overwrite).2.2 := by
  unfold BlueFS.openForWrite
  cases s.nodes.dirMap.lookup d with
  | none => exact .refl s
  | some dir =>
      cases hentry : dir.lookup f with
      | none =>
          simp only [hentry]
          split
          · exact .refl s
          · exact ⟨rfl, rfl, rfl⟩
      | some r =>
          simp only [hentry]
          split <;> exact ⟨rfl, rfl, rfl⟩

/-- The calls on names ask no allocator. -/
theorem NameCall.sameAccount {c : NameCall} {s : BlueFS V A} {out : Int × BlueFS V A}
    (hrun : c.run s = some out) : SameAccount s out.2 := by
  cases c with
  | mkdir d =>
      cases hrun
      unfold BlueFS.mkdir
      split
      · exact .refl s
      · exact ⟨rfl, rfl, rfl⟩
  | rmdir d =>
      cases hrun
      unfold BlueFS.rmdir
      split
      · exact .refl s
      · split
        · exact .refl s
        · exact ⟨rfl, rfl, rfl⟩
  | openForWrite d f o =>
      cases hrun
      exact openForWrite_sameAccount s d f o
  | lockFile d f =>
      cases hrun
      unfold BlueFS.lockFile
      split
      · exact .refl s
      · split
        · exact ⟨rfl, rfl, rfl⟩
        · split
          · exact .refl s
          · exact ⟨rfl, rfl, rfl⟩
  | unlockFile l =>
      simp only [NameCall.run, BlueFS.unlockFile] at hrun
      split at hrun
      · cases hrun
        exact ⟨rfl, rfl, rfl⟩
      · exact absurd hrun (by simp)
  | unlink d f =>
      cases hrun
      exact unlink_sameAccount s d f
  | rename od of nd nf =>
      cases hrun
      unfold BlueFS.rename
      split
      · exact .refl s
      · split
        · exact .refl s
        · simp only
          split
          · split <;> exact ⟨rfl, rfl, rfl⟩
          · exact ⟨rfl, rfl, rfl⟩

end Frame

/-! ## Allocation -/

section Allocation

variable [Allocator A] {ok : A → Prop} {s s' : BlueFS V (Metered A)}

/-- What is kept by every step that is right. -/
structure SharedBooks (ok : A → Prop) (s : BlueFS V (Metered A)) : Prop where
  accounted : Accounted s
  working : Working ok s

omit [Allocator A] in
theorem SameAccount.books (h : SameAccount s s') (hs : SharedBooks ok s) : SharedBooks ok s' :=
  ⟨h.accounted hs.accounted, h.working hs.working⟩

omit [Allocator A] in
theorem SharedBooks.congr (hs : SharedBooks ok s) (hshared : s'.sharedAllocId = s.sharedAllocId)
    (hused : s'.bluefsUsed = s.bluefsUsed) (halloc : s'.alloc = s.alloc) : SharedBooks ok s' :=
  SameAccount.books ⟨hshared, hused, halloc⟩ hs

/-- An allocation adds the same to both. -/
theorem allocateFrom_books (law : ExactAllocator ok) (hs : SharedBooks ok s) (need unit : Nat)
    (node : Fnode) (ids : List Nat) : SharedBooks ok (s.allocateFrom need unit node ids).2.2 := by
  induction ids generalizing s with
  | nil => exact hs
  | cons id ids ih =>
      unfold BlueFS.allocateFrom
      cases s.bdev id with
      | none => exact ih hs
      | some d =>
          rcases hal : Allocator.allocate (s.alloc id).inner need unit 0 0 with ⟨got, extents, a⟩
          have hmeter : Allocator.allocate (s.alloc id) need unit 0 0 = (got, extents,
              { inner := a
                held := if 0 < got then (s.alloc id).held + total PExtent.length extents
                  else (s.alloc id).held }) := by
            show Metered.allocate (s.alloc id) need unit 0 0 = _
            unfold Metered.allocate
            rw [hal]
          simp only [hmeter]
          split
          case isTrue hgot =>
            refine ih ⟨fun x hx => ?_, fun x hx => ?_⟩
            · show s.bluefsUsed = (Function.update s.alloc id _ x).held
              rw [hs.accounted x hx, if_neg (not_lt.mpr hgot), Function.update_apply]
              split
              case isTrue hid => rw [hid]
              case isFalse => rfl
            · show ok (Function.update s.alloc id _ x).inner
              rw [Function.update_apply]
              split
              case isTrue hid =>
                subst hid
                exact (law.allocate (hs.working x hx) hal).1
              case isFalse => exact hs.working x hx
          case isFalse hgot =>
            have hpos := not_le.mp hgot
            simp only [if_pos hpos]
            split
            case isTrue hid =>
              obtain ⟨hok, hexact⟩ := law.allocate (hs.working id hid) hal
              have hsum := hexact hpos
              refine ⟨fun x hx => ?_, fun x hx => ?_⟩
              · obtain rfl : id = x := Option.some.inj (hid.symm.trans hx)
                show s.bluefsUsed + got.toNat = (Function.update s.alloc id _ id).held
                rw [hs.accounted id hid, Function.update_self]
                show _ = (s.alloc id).held + total PExtent.length extents
                omega
              · obtain rfl : id = x := Option.some.inj (hid.symm.trans hx)
                show ok (Function.update s.alloc id _ id).inner
                rw [Function.update_self]
                exact hok
            case isFalse hid =>
              refine ⟨fun x hx => ?_, fun x hx => ?_⟩
              all_goals
                have hne : x ≠ id := by
                  rintro rfl
                  exact hid hx
              · show s.bluefsUsed = (Function.update s.alloc id _ x).held
                rw [Function.update_of_ne hne]
                exact hs.accounted x hx
              · show ok (Function.update s.alloc id _ x).inner
                rw [Function.update_of_ne hne]
                exact hs.working x hx

theorem allocate_books (law : ExactAllocator ok) (hs : SharedBooks ok s) (prefer len unit : Nat)
    (node : Fnode) : SharedBooks ok (s.allocate prefer len unit node).2.2 :=
  allocateFrom_books law hs _ _ node _

variable [VolumeSelector V]

theorem growSpace_books (law : ExactAllocator ok) (hs : SharedBooks ok s) (r : FileRef)
    (stop : Nat) : SharedBooks ok (s.growSpace r stop).2 := by
  unfold BlueFS.growSpace
  simp only
  split
  case isTrue =>
    have hal := allocate_books law hs (VolumeSelector.selectPreferBdev s.vselector
      (s.nodes.files r).vselectorHint) (stop - (s.nodes.files r).fnode.allocated) 0
      (s.nodes.files r).fnode
    split
    · exact hal
    · exact hal.congr rfl rfl rfl
  case isFalse => exact hs

theorem flushFrom_books (law : ExactAllocator ok) (hs : SharedBooks ok s) (h : FileWriter)
    (offset length : Nat) : SharedBooks ok (s.flushFrom h offset length).2.2 := by
  have hspace := growSpace_books law hs h.file (offset + length)
  unfold BlueFS.flushFrom
  simp only
  split
  · exact hspace
  · exact ((growSize_sameAccount _ h.file (offset + length)).trans
      (flushData_sameAccount _ h offset length _)).books hspace

theorem flushRange_books (law : ExactAllocator ok) (hs : SharedBooks ok s) (h : FileWriter)
    (offset length : Nat) : SharedBooks ok (s.flushRange h offset length).2.2 := by
  unfold BlueFS.flushRange
  split
  · exact hs
  split
  · exact hs
  split
  · exact flushFrom_books law hs h _ _
  · exact flushFrom_books law hs h _ _

theorem flushF_books (law : ExactAllocator ok) (hs : SharedBooks ok s) (h : FileWriter)
    (force : Bool) : SharedBooks ok (s.flushF h force).2.2 := by
  have hrange := flushRange_books law hs h h.pos h.bufferLength
  unfold BlueFS.flushF
  split
  · exact hs
  split
  · exact hs
  simp only
  split <;> exact hrange

theorem preallocate_books (law : ExactAllocator ok) (hs : SharedBooks ok s) {r : FileRef}
    {off len : Nat} {out : Int × BlueFS V (Metered A)} (hrun : s.preallocate r off len = some out) :
    SharedBooks ok out.2 := by
  unfold BlueFS.preallocate at hrun
  simp only at hrun
  split at hrun
  · cases hrun
    exact hs
  split at hrun
  · exact absurd hrun (by simp)
  split at hrun
  case isTrue =>
    have hal := allocate_books law hs (VolumeSelector.selectPreferBdev s.vselector
      (s.nodes.files r).vselectorHint) (off + len - (s.nodes.files r).fnode.allocated) 0
      (s.nodes.files r).fnode
    split at hrun
    · cases hrun
      exact hal
    · cases hrun
      exact hal.congr rfl rfl rfl
  case isFalse =>
    cases hrun
    exact hs

theorem maybeExtendLog_books (law : ExactAllocator ok) (hs : SharedBooks ok s) (w : FileWriter) :
    SharedBooks ok (s.maybeExtendLog w).2 := by
  unfold BlueFS.maybeExtendLog
  simp only
  split
  case isTrue => exact hs
  case isFalse =>
    have hal := allocate_books law hs (VolumeSelector.selectPreferBdev s.vselector
      (VolumeSelector.getHintForLog s.vselector))
      (p2roundup (max s.cfg.minLogRunway s.cfg.maxLogRunway) s.cfg.allocSize) s.cfg.allocSize
      (s.nodes.files w.file).fnode
    split
    · exact hal
    · exact hal.congr rfl rfl rfl

theorem gather_books (law : ExactAllocator ok) (hs : SharedBooks ok s) (w : FileWriter) :
    SharedBooks ok (s.gather w).2 := by
  have htake : SameAccount s s.takeSeq.2 := ⟨rfl, rfl, rfl⟩
  have hsame := htake.trans (consumeDirty_sameAccount s.takeSeq.2 s.takeSeq.1)
  have hextend := maybeExtendLog_books law (hsame.books hs) w
  unfold BlueFS.gather
  simp only
  split
  · exact hextend
  · exact hextend.congr rfl rfl rfl

end Allocation

end Clab.Bluefs
