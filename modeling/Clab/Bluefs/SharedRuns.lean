import Clab.Bluefs.SharedSpace

/-!
# Runs on a shared allocator

`shared_balanced`: along every run of sections of calls, `mkfs`, `mount` and
`umount`, in one process and over many, in which no log flush finds bytes of the
shared device pending and no mount is made on a context that already counts the
files, `bluefs_used` is what BlueFS holds of the shared allocator; and a step keeps
this, and gives back what was pending, exactly when it is no such step.
-/

namespace Clab.Bluefs

open Blk Common Segments

variable {V A : Type}

/-! ## The files on a device -/

/-- The bytes of the files of the inode table on a device. -/
def Nodes.bytesOn (n : Nodes) (id : Nat) : Nat :=
  total (fun r => Bluefs.bytesOn id (n.files r).fnode.extents) (n.fileMap.entries.map Prod.snd)

/-! ## The steps of runs -/

/-- What `mount` has made when `_replay` returns; `log` is the file of the log. -/
structure Replayed (V A : Type) where
  bdev : Nat → Option KernelDevice
  alloc : Nat → A
  vselector : V
  super : Super
  nodes : Nodes
  logSeq : Nat
  log : FileRef

/-- The state that `mount` has made when `_replay` returns. -/
def BlueFS.replayed (s : BlueFS V A) (o : Replayed V A) : BlueFS V A :=
  { s.initAlloc o.alloc with
    bdev := o.bdev
    vselector := o.vselector
    super := o.super
    nodes := o.nodes
    log := { s.log with seqLive := o.logSeq + 1 }
    dirty := { s.dirty with seqStable := o.logSeq, seqLive := o.logSeq + 1 } }

/-- The steps in the life of a BlueFS on a shared allocator. `reopen` is a mount by a new
process, with a context that counts nothing yet, of an allocator that has set the bytes of the
files aside. -/
inductive Life (V A : Type)
  | during (c : Section)
  | mkfs (alloc : Nat → Metered A) (uuid : Bytes) (allocSize : Nat)
  | forget
  | mount (o : Replayed V (Metered A))
  | reopen (o : Replayed V (Metered A)) (a : A)

/-- A new BlueFS with a new context, whose allocator holds the files on disk aside. -/
def BlueFS.newProcess (s : BlueFS V (Metered A)) (n : Nodes) (a : A) : BlueFS V (Metered A) :=
  { s with
    bluefsUsed := 0
    alloc := fun id => { inner := a, held := n.bytesOn id }
    log := {}
    dirty := {} }

section Steps

variable [VolumeSelector V] [Allocator A]

/-- The state after a step; `none` is a failed assertion. -/
def Life.run (s : BlueFS V (Metered A)) : Life V A → Option (BlueFS V (Metered A))
  | during c => c.run s
  | mkfs alloc uuid allocSize => some ((s.initAlloc alloc).mkfs uuid allocSize).2
  | forget => some s.forget
  | mount o => some ((s.replayed o).mountReplayed o.log)
  | reopen o a => some (((s.newProcess o.nodes a).replayed o).mountReplayed o.log)

/-- A new process starts with an allocator that works. -/
def Life.Started (ok : A → Prop) : Life V A → Prop
  | reopen _ a => ok a
  | _ => True

/-- No bytes of the shared device are pending when the log flush releases them, and no file of
a mount on a context in use has bytes there. -/
def Life.Balanced (s : BlueFS V (Metered A)) : Life V A → Prop
  | during .drainPending => ∀ id, s.sharedAllocId = some id → s.released id = 0
  | mount o => ∀ id, s.sharedAllocId = some id → o.nodes.bytesOn id = 0
  | _ => True

/-- The counter is right after a step, and what a log flush found pending on the shared device
is given back. -/
structure Balances (s : BlueFS V (Metered A)) (c : Life V A) (s' : BlueFS V (Metered A)) : Prop where
  accounted : Accounted s'
  returned : ∀ id, c = .during .drainPending → s.sharedAllocId = some id →
    (s'.alloc id).held + s.released id = (s.alloc id).held

/-- Runs whose steps are all balanced. -/
inductive SharedRun (ok : A → Prop) : BlueFS V (Metered A) → BlueFS V (Metered A) → Prop
  | refl (s : BlueFS V (Metered A)) : SharedRun ok s s
  | step (c : Life V A) {s s' s'' : BlueFS V (Metered A)} : SharedRun ok s s' →
      c.Started ok → c.Balanced s' → c.run s' = some s'' → SharedRun ok s s''

end Steps

/-! ## Mounting -/

section Mount

variable [VolumeSelector V] [Allocator A] {ok : A → Prop}

/-- What the extents of a mount do to the shared allocator and its counter. -/
structure Mounts (s s' : BlueFS V A) (bytes : Nat → Nat) : Prop where
  shared : s'.sharedAllocId = s.sharedAllocId
  nodes : s'.nodes = s.nodes
  alloc : ∀ id, s.sharedAllocId = some id → s'.alloc id = s.alloc id
  used : ∀ id, s.sharedAllocId = some id → s'.bluefsUsed = s.bluefsUsed + bytes id

omit [VolumeSelector V] in
theorem mountExtents_mounts (s : BlueFS V A) (es : List Extent) :
    Mounts s (es.foldl BlueFS.mountExtent s) fun id => bytesOn id es := by
  induction es generalizing s with
  | nil => exact ⟨rfl, rfl, fun _ _ => rfl, fun _ _ => rfl⟩
  | cons e es ih =>
      have hrest := ih (s.mountExtent e)
      rw [List.foldl_cons]
      by_cases hid : s.sharedAllocId = some e.bdev
      · have hone : s.mountExtent e = { s with bluefsUsed := s.bluefsUsed + e.length } := if_pos hid
        rw [hone] at hrest ⊢
        refine ⟨hrest.shared, hrest.nodes, hrest.alloc, fun id hs => ?_⟩
        obtain rfl : e.bdev = id := Option.some.inj (hid.symm.trans hs)
        rw [hrest.used _ hs, bytesOn_cons, if_pos rfl]
        exact Nat.add_assoc _ _ _
      · have hone : s.mountExtent e = { s with
            alloc := Function.update s.alloc e.bdev
              (Allocator.initRmFree (s.alloc e.bdev) e.offset e.length) } := if_neg hid
        rw [hone] at hrest ⊢
        refine ⟨hrest.shared, hrest.nodes, fun id hs => ?_, fun id hs => ?_⟩
        all_goals
          have hne : e.bdev ≠ id := by
            rintro rfl
            exact hid hs
        · rw [hrest.alloc id hs]
          exact Function.update_of_ne (Ne.symm hne) _ _
        · rw [hrest.used id hs, bytesOn_cons, if_neg hne, Nat.zero_add]

theorem mountFiles_mounts (s : BlueFS V A) (rs : List FileRef) :
    Mounts s (rs.foldl BlueFS.mountFile s)
      fun id => total (fun r => bytesOn id (s.nodes.files r).fnode.extents) rs := by
  induction rs generalizing s with
  | nil => exact ⟨rfl, rfl, fun _ _ => rfl, fun _ _ => rfl⟩
  | cons r rs ih =>
      have hfile := mountExtents_mounts s (s.nodes.files r).fnode.extents
      have hrest := ih (s.mountFile r)
      have hnodes : (s.mountFile r).nodes = s.nodes := hfile.nodes
      rw [List.foldl_cons]
      rw [hnodes] at hrest
      refine ⟨hrest.shared.trans hfile.shared, hrest.nodes.trans hnodes, fun id hs => ?_,
        fun id hs => ?_⟩
      all_goals have hs' : (s.mountFile r).sharedAllocId = some id := hfile.shared.trans hs
      · rw [hrest.alloc id hs']
        exact hfile.alloc id hs
      · rw [hrest.used id hs', total_cons, ← Nat.add_assoc, ← hfile.used id hs]
        rfl

/-- A mount adds the bytes of the files to the counter, and asks for none. -/
theorem mountReplayed_mounts (s : BlueFS V A) (log : FileRef) :
    (s.mountReplayed log).sharedAllocId = s.sharedAllocId ∧
      ∀ id, s.sharedAllocId = some id →
        (s.mountReplayed log).alloc id = s.alloc id ∧
          (s.mountReplayed log).bluefsUsed = s.bluefsUsed + s.nodes.bytesOn id := by
  have hfiles := mountFiles_mounts s (s.nodes.fileMap.entries.map Prod.snd)
  exact ⟨hfiles.shared, fun id hs => ⟨hfiles.alloc id hs, hfiles.used id hs⟩⟩

omit [VolumeSelector V] [Allocator A] in
theorem replayed_shared (s : BlueFS V A) (o : Replayed V A) {id : Nat}
    (hs : s.sharedAllocId = some id) : (s.replayed o).alloc id = s.alloc id := if_pos hs

/-- A mount on a context in use is right when no file has bytes on the shared device. -/
theorem mount_accounted_iff {s : BlueFS V (Metered A)} (hs : Accounted s)
    (o : Replayed V (Metered A)) :
    Accounted ((s.replayed o).mountReplayed o.log) ↔
      ∀ id, s.sharedAllocId = some id → o.nodes.bytesOn id = 0 := by
  obtain ⟨hshared, hmount⟩ := mountReplayed_mounts (s.replayed o) o.log
  have hstep : ∀ id, s.sharedAllocId = some id →
      (((s.replayed o).mountReplayed o.log).bluefsUsed =
        (((s.replayed o).mountReplayed o.log).alloc id).held ↔ o.nodes.bytesOn id = 0) := by
    intro id hid
    obtain ⟨halloc, hused⟩ := hmount id hid
    rw [halloc, hused, replayed_shared s o hid, ← hs id hid]
    show s.bluefsUsed + o.nodes.bytesOn id = s.bluefsUsed ↔ _
    omega
  constructor
  · intro h id hid
    exact (hstep id hid).mp (h id (hshared.trans hid))
  · intro h id hid
    have hid := hshared.symm.trans hid
    exact (hstep id hid).mpr (h id hid)

/-- A mount by a new process is right. -/
theorem reopen_accounted (s : BlueFS V (Metered A)) (o : Replayed V (Metered A)) (a : A) :
    Accounted (((s.newProcess o.nodes a).replayed o).mountReplayed o.log) := by
  obtain ⟨hshared, hmount⟩ := mountReplayed_mounts ((s.newProcess o.nodes a).replayed o) o.log
  intro id hid
  have hid : (s.newProcess o.nodes a).sharedAllocId = some id := hshared.symm.trans hid
  obtain ⟨halloc, hused⟩ := hmount id hid
  rw [halloc, hused, replayed_shared _ o hid]
  exact Nat.zero_add _

theorem mountReplayed_working {s : BlueFS V (Metered A)} {log : FileRef}
    (hs : Working ok s) : Working ok (s.mountReplayed log) := by
  obtain ⟨hshared, hmount⟩ := mountReplayed_mounts s log
  intro id hid
  have hid := hshared.symm.trans hid
  rw [(hmount id hid).1]
  exact hs id hid

end Mount

/-! ## The other steps -/

section Others

variable [VolumeSelector V] [Allocator A] {ok : A → Prop} {s s' : BlueFS V (Metered A)}

theorem mkfsLog_books (law : ExactAllocator ok) (hs : SharedBooks ok s) (allocSize : Nat) :
    SharedBooks ok (s.mkfsLog allocSize).2.2 := by
  have hal := allocate_books law hs (VolumeSelector.selectPreferBdev s.vselector
    (VolumeSelector.getHintForLog s.vselector)) BLUEFS_LOG_INITIAL allocSize { ino := 1 }
  unfold BlueFS.mkfsLog
  simp only
  split
  · exact hal.congr rfl rfl rfl
  · exact hal.congr rfl rfl rfl

/-- What `mkfs` does once the log has its space. -/
theorem mkfs_books (law : ExactAllocator ok) (hs : SharedBooks ok s) (uuid : Bytes)
    (allocSize : Nat) : SharedBooks ok (s.mkfs uuid allocSize).2 := by
  unfold BlueFS.mkfs
  simp only
  generalize hs₀ : ({ s with super := { s.super with uuid, blockSize := 4096 } } :
    BlueFS V (Metered A)) = s₀
  have hbooks₀ : SharedBooks ok s₀ := by
    subst hs₀
    exact hs.congr rfl rfl rfl
  have hlog := mkfsLog_books law hbooks₀ allocSize
  generalize s₀.mkfsLog allocSize = out at hlog ⊢
  obtain ⟨res, r, s₁⟩ := out
  simp only at hlog ⊢
  split
  · exact hlog
  · generalize ({ s₁.log.t.push .init with uuid, seq := 1 } : Transaction) = t
    generalize hs₂ : ({ s₁ with log := { s₁.log with t } } : BlueFS V (Metered A)) = s₂
    have hbooks₂ : SharedBooks ok s₂ := by
      subst hs₂
      exact hlog.congr rfl rfl rfl
    generalize ({ file := r, pos := (s₁.nodes.files r).fnode.size } : FileWriter) = w
    have hdata := (flushLogData_sameAccount s₂ w (s₂.logBytes t)).books hbooks₂
    generalize s₂.flushLogData w (s₂.logBytes t) = out at hdata ⊢
    obtain ⟨res₃, w₃, s₃⟩ := out
    have hbooks₄ : SharedBooks ok ((s₃.flushBdev w₃).2.setLogFnode r) := hdata.congr rfl rfl rfl
    have hwrite := (writeSuper_sameAccount _ BDEV_DB).books hbooks₄
    simp only
    generalize BlueFS.writeSuper _ BDEV_DB = out at hwrite ⊢
    obtain ⟨res₅, s₅⟩ := out
    split
    · exact hwrite.congr rfl rfl rfl
    · exact hwrite.congr rfl rfl rfl

/-- Every section but the release of what is pending keeps the books. -/
theorem Section.books (law : ExactAllocator ok) (hs : SharedBooks ok s) {c : Section}
    (hc : c ≠ .drainPending) (hrun : c.run s = some s') : SharedBooks ok s' := by
  cases c with
  | name c =>
      obtain ⟨out, hcall, rfl⟩ := Option.map_eq_some_iff.mp hrun
      exact (NameCall.sameAccount hcall).books hs
  | flushF h force =>
      cases hrun
      exact flushF_books law hs h force
  | flushRange h offset length =>
      cases hrun
      exact flushRange_books law hs h offset length
  | preallocate r off len =>
      obtain ⟨out, hcall, rfl⟩ := Option.map_eq_some_iff.mp hrun
      exact preallocate_books law hs hcall
  | truncateTo r offset =>
      cases hrun
      exact hs.congr rfl rfl rfl
  | signalDirty r =>
      cases hrun
      exact (signalDirtyToLog_sameAccount s r).books hs
  | gather w =>
      cases hrun
      exact gather_books law hs w
  | writeLog w t =>
      cases hrun
      exact (writeLog_sameAccount s w t).books hs
  | recordStable seq =>
      cases hrun
      exact hs.congr rfl rfl rfl
  | drainPending => exact absurd rfl hc
  | syncSuper =>
      cases hrun
      exact (syncSuper_sameAccount s).books hs
  | devices bdev =>
      cases hrun
      exact hs.congr rfl rfl rfl

omit [VolumeSelector V] in
/-- The release of what is pending on the shared device: nothing is given back. -/
theorem drainPending_shared {id : Nat} (hid : s.sharedAllocId = some id) :
    s.drainPending.alloc id = s.alloc id ∧
      (s.drainPending.bluefsUsed = s.bluefsUsed ↔ s.released id = 0) := by
  have halloc : s.drainPending.alloc id = s.alloc id := by
    unfold BlueFS.drainPending
    exact if_neg fun h => h.2.2 hid
  have hused : s.drainPending.bluefsUsed = dec64 s.bluefsUsed (s.released id) := by
    unfold BlueFS.drainPending
    simp only [hid]
  refine ⟨halloc, ?_⟩
  rw [hused]
  exact dec64_eq_self (Nat.mod_lt _ (by decide))

omit [VolumeSelector V] [Allocator A] in
theorem initAlloc_books (hs : SharedBooks ok s) (alloc : Nat → Metered A) :
    SharedBooks ok (s.initAlloc alloc) := by
  have hsame : ∀ id, s.sharedAllocId = some id → (s.initAlloc alloc).alloc id = s.alloc id :=
    fun id hid => if_pos hid
  refine ⟨fun id hid => ?_, fun id hid => ?_⟩
  · rw [hsame id hid]
    exact hs.accounted id hid
  · rw [hsame id hid]
    exact hs.working id hid

/-- A step keeps the allocator working. -/
theorem Life.working (law : ExactAllocator ok) (hs : SharedBooks ok s) {c : Life V A}
    (hstart : c.Started ok) (hrun : c.run s = some s') : Working ok s' := by
  cases c with
  | during c =>
      by_cases hc : c = .drainPending
      · subst hc
        cases hrun
        intro id hid
        have hid : s.sharedAllocId = some id := hid
        rw [(drainPending_shared hid).1]
        exact hs.working id hid
      · exact (Section.books law hs hc hrun).working
  | mkfs alloc uuid allocSize =>
      cases hrun
      exact (mkfs_books law (initAlloc_books hs alloc) uuid allocSize).working
  | forget =>
      cases hrun
      exact (hs.congr rfl rfl rfl).working
  | mount o =>
      cases hrun
      refine mountReplayed_working fun id hid => ?_
      have hid : s.sharedAllocId = some id := hid
      rw [replayed_shared s o hid]
      exact hs.working id hid
  | reopen o a =>
      cases hrun
      refine mountReplayed_working fun id hid => ?_
      have hid : (s.newProcess o.nodes a).sharedAllocId = some id := hid
      rw [replayed_shared _ o hid]
      exact hstart

omit [VolumeSelector V] [Allocator A] in
/-- A step that is no release of what is pending gives nothing back. -/
theorem Balances.of_accounted {c : Life V A} (hc : c ≠ .during .drainPending)
    (hs : Accounted s') : Balances s c s' :=
  ⟨hs, fun _ hdrain _ => absurd hdrain hc⟩

/-- A step from a state whose counter is right. -/
theorem Life.balances_iff (law : ExactAllocator ok) (hs : SharedBooks ok s) {c : Life V A}
    (hrun : c.run s = some s') : Balances s c s' ↔ c.Balanced s := by
  cases c with
  | during c =>
      by_cases hc : c = .drainPending
      · subst hc
        cases hrun
        show _ ↔ ∀ id, s.sharedAllocId = some id → s.released id = 0
        constructor
        · intro h id hid
          obtain ⟨halloc, hused⟩ := drainPending_shared hid
          refine hused.mp ?_
          rw [h.accounted id hid, halloc]
          exact (hs.accounted id hid).symm
        · intro h
          refine ⟨fun id hid => ?_, fun id _ hid => ?_⟩
          · have hid : s.sharedAllocId = some id := hid
            obtain ⟨halloc, hused⟩ := drainPending_shared hid
            rw [halloc, hused.mpr (h id hid)]
            exact hs.accounted id hid
          · rw [h id hid, (drainPending_shared hid).1, Nat.add_zero]
      · refine iff_of_true (.of_accounted (fun h => hc (Life.during.inj h))
          (Section.books law hs hc hrun).accounted) ?_
        cases c with
        | drainPending => exact absurd rfl hc
        | _ => exact trivial
  | mkfs alloc uuid allocSize =>
      cases hrun
      exact iff_of_true (.of_accounted (by simp)
        (mkfs_books law (initAlloc_books hs alloc) uuid allocSize).accounted) trivial
  | forget =>
      cases hrun
      exact iff_of_true (.of_accounted (by simp) (hs.congr rfl rfl rfl).accounted) trivial
  | mount o =>
      cases hrun
      have hiff := mount_accounted_iff hs.accounted o
      exact ⟨fun h => hiff.mp h.accounted, fun h => .of_accounted (by simp) (hiff.mpr h)⟩
  | reopen o a =>
      cases hrun
      exact iff_of_true (.of_accounted (by simp) (reopen_accounted s o a)) trivial

/-- **The counter of a shared device is right exactly along balanced runs.** -/
theorem shared_balanced (law : ExactAllocator ok) (hok : Working ok s) (hs : Accounted s)
    (hrun : SharedRun ok s s') :
    Accounted s' ∧ ∀ (c : Life V A) s'', c.Started ok → c.run s' = some s'' →
      (Balances s' c s'' ↔ c.Balanced s') := by
  have hbooks : SharedBooks ok s' := by
    induction hrun with
    | refl s => exact ⟨hs, hok⟩
    | step c _ hstart hbalanced hcall ih =>
        have hbefore := ih hok hs
        exact ⟨((c.balances_iff law hbefore hcall).mpr hbalanced).accounted,
          c.working law hbefore hstart hcall⟩
  exact ⟨hbooks.accounted, fun c s'' _ hcall => c.balances_iff law hbooks hcall⟩

end Others

/-! ## A file on a shared device -/

theorem FreeList.exact : ExactAllocator fun _ : FreeList => True where
  allocate := by
    intro a a' want unit maxAllocSize hint r extents _ hal
    refine ⟨trivial, fun hpos => ?_⟩
    obtain ⟨es⟩ := a
    have hal : FreeList.allocate ⟨es⟩ want = (r, extents, a') := hal
    unfold FreeList.allocate at hal
    cases es with
    | nil =>
        cases hal
        exact absurd hpos (by decide)
    | cons e es =>
        simp only at hal
        split at hal <;> cases hal <;> simp

/-- A mounted BlueFS on a shared device, with a log of 16 KiB and a file `a` of a page. -/
def sharedFs : BlueFS OriginalVolumeSelector (Metered FreeList) where
  cfg := { allocSize := 4096, minLogRunway := 4096, maxLogRunway := 4096, minFlushSize := 4096 }
  bdev i := if i = BDEV_DB then some { size := 1048576 } else none
  alloc i :=
    if i = BDEV_DB then { inner := ⟨[⟨24576, 65536⟩]⟩, held := 20480 } else { inner := ⟨[]⟩ }
  allocSize _ := 0
  sharedAllocId := some BDEV_DB
  bluefsUsed := 20480
  vselector := ⟨0, 1048576, 0⟩
  super := {}
  nodes :=
    { dirMap := OrderedMap.empty.insert [100] (OrderedMap.empty.insert [97] 1)
      fileMap := (OrderedMap.empty.insert 1 0).insert 2 1
      inoLast := 2
      files := fun r =>
        if r = 0 then smallLog
        else if r = 1 then
          { fnode :=
              { ino := 2
                size := 4096
                extents := [⟨20480, 4096, 1⟩]
                extentsIndex := [0]
                allocated := 4096
                allocatedCommitted := 4096 }
            refs := 1 }
        else {}
      nextRef := 2 }
  log := { seqLive := 2, writer := some { file := 0, pos := 4096 } }
  dirty := { seqStable := 1, seqLive := 2 }

theorem sharedFs_accounted : Accounted sharedFs := by
  intro id hid
  obtain rfl : BDEV_DB = id := Option.some.inj hid
  rfl

/-- Another page for the file is counted. -/
theorem shared_balanced_preallocate :
    ∃ s', (sharedFs.preallocate 1 0 8192).map Prod.snd = some s' ∧ Accounted s' ∧
      s'.bluefsUsed = 24576 := by
  have hcall : ((sharedFs.preallocate 1 0 8192).map Prod.snd).map BlueFS.bluefsUsed = some 24576 := by
    decide +kernel
  obtain ⟨s', hrun, hused⟩ := Option.map_eq_some_iff.mp hcall
  have hstep : SharedRun (fun _ => True) sharedFs s' :=
    .step (.during (.preallocate 1 0 8192)) (.refl sharedFs) trivial trivial hrun
  exact ⟨s', hrun,
    (shared_balanced FreeList.exact (fun _ _ => trivial) sharedFs_accounted hstep).1, hused⟩

/-- The log flush after the file is unlinked, and what it leaves. -/
def syncedUnlink : Option (Int × BlueFS OriginalVolumeSelector (Metered FreeList)) :=
  sharedFs.log.writer.bind fun w => (sharedFs.unlink [100] [97]).2.flushAndSyncLog w 0

/-- The page of the file is off the counter, and still held. -/
theorem shared_unbalanced :
    ¬ ∀ s s' : BlueFS OriginalVolumeSelector (Metered FreeList),
      Accounted s → Sections s s' → Accounted s' := by
  intro hclaim
  have hcall : syncedUnlink.map (fun p => (p.1, p.2.bluefsUsed, (p.2.alloc BDEV_DB).held,
      p.2.sharedAllocId)) = some (0, 16384, 20480, some BDEV_DB) := by decide +kernel
  obtain ⟨⟨res, s'⟩, hflush, hout⟩ := Option.map_eq_some_iff.mp hcall
  obtain ⟨w, -, hlog⟩ := Option.bind_eq_some_iff.mp hflush
  have hunlink : Sections sharedFs (sharedFs.unlink [100] [97]).2 :=
    .one (.name (.unlink [100] [97])) rfl
  have hafter := hclaim sharedFs s' sharedFs_accounted (hunlink.trans (.of_flushAndSyncLog hlog))
  simp only [Prod.mk.injEq] at hout
  obtain ⟨-, hused, hheld, hid⟩ := hout
  have hequal := hafter BDEV_DB hid
  rw [hused, hheld] at hequal
  exact absurd hequal (by decide)

end Clab.Bluefs
