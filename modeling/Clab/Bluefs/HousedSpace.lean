import Clab.Bluefs.JournalFlush
import Clab.Bluefs.SharedSpace
import Clab.Bluefs.SpaceRuns

/-!
# Who holds which byte

`Housed`: every byte is free, or pending, or in one extent of one file that a name
leads to or that is the log. The calls on names keep it, and so does whatever only
moves bytes between files, what is pending and the allocators.
-/

namespace Clab.Bluefs

open Blk HandOut

variable {V A : Type} {s s' s'' : BlueFS V A} {r : FileRef}

/-! ## Who may hold a byte -/

/-- A name leads to the file, or it is the log. -/
def Nodes.Reached (n : Nodes) (r : FileRef) : Prop :=
  0 < n.links r ∨ n.fileMap.lookup 1 = some r

instance Nodes.decidableReached (n : Nodes) (r : FileRef) : Decidable (n.Reached r) :=
  inferInstanceAs (Decidable (_ ∨ _))

/-- How many extents of such files hold a byte. -/
def Nodes.reachedCover (n : Nodes) (y : Nat × Nat) : Nat :=
  ∑ r ∈ Finset.range n.nextRef, if n.Reached r then covered (n.files r).fnode.extents y else 0

theorem SameNames.reached {n n' : Nodes} (h : SameNames n n') (r : FileRef) :
    n'.Reached r ↔ n.Reached r := by
  unfold Nodes.Reached
  rw [h.links, h.fileMap]

/-- What the files that are not deleted hold is what those hold that can be reached. -/
theorem Nodes.owned_eq {n : Nodes}
    (hkept : ∀ r, r < n.nextRef → ((n.files r).deleted = false ↔ n.Reached r)) (y : Nat × Nat) :
    n.owned y = n.reachedCover y := by
  refine Finset.sum_congr rfl fun r hr => ?_
  have hr := hkept r (Finset.mem_range.mp hr)
  unfold File.owns
  by_cases hreached : n.Reached r
  · rw [if_pos hreached, if_neg (by rw [hr.mpr hreached]; simp)]
  · rw [if_neg hreached, if_pos (by simpa using mt hr.mp hreached)]

/-- The books of space are balanced, and the files that are deleted are those that nothing leads
to. -/
structure Housed [Allocator A] (holds : A → Set Nat → Prop) (s : BlueFS V A)
    (region : Nat → Set Nat) : Prop where
  linked : Linked s.nodes
  balanced : Balanced holds s region
  kept : ∀ r, r < s.nodes.nextRef → ((s.nodes.files r).deleted = false ↔ s.nodes.Reached r)
  dedicated : s.sharedAllocId = none

namespace Housed

variable [Allocator A] {holds : A → Set Nat → Prop} {region : Nat → Set Nat}

/-- A file with a name is there. -/
theorem live (h : Housed holds s region) (hr : 0 < s.nodes.links r) :
    r < s.nodes.nextRef ∧ (s.nodes.files r).deleted = false := by
  have hmade : r < s.nodes.nextRef := by
    by_contra hfresh
    rw [h.linked.fresh r (not_lt.mp hfresh)] at hr
    exact lt_irrefl 0 hr
  exact ⟨hmade, (h.kept r hmade).mpr (.inl hr)⟩

theorem logLive (h : Housed holds s region) {w : FileWriter}
    (hw : s.nodes.fileMap.lookup 1 = some w.file) : LogLive s w := by
  obtain ⟨l, hl, -, hmade⟩ := h.linked.log
  obtain rfl : w.file = l := Option.some.inj (hw.symm.trans hl)
  exact ⟨hmade, (h.kept _ hmade).mpr (.inr hw)⟩

theorem owned (h : Housed holds s region) (y : Nat × Nat) :
    s.nodes.owned y = s.nodes.reachedCover y := Nodes.owned_eq h.kept y

end Housed

/-! ## Steps that leave the names alone -/

/-- The same names, and the same files deleted. -/
structure SameReach (s s' : BlueFS V A) : Prop where
  names : SameNames s.nodes s'.nodes
  deleted : ∀ r, (s'.nodes.files r).deleted = (s.nodes.files r).deleted
  shared : s'.sharedAllocId = s.sharedAllocId

namespace SameReach

theorem of_nodes (hnodes : s'.nodes = s.nodes) (hshared : s'.sharedAllocId = s.sharedAllocId) :
    SameReach s s' :=
  ⟨by rw [hnodes]; exact .refl _, fun r => by rw [hnodes], hshared⟩

theorem refl (s : BlueFS V A) : SameReach s s := of_nodes rfl rfl

theorem trans (h : SameReach s s') (h' : SameReach s' s'') : SameReach s s'' :=
  ⟨h.names.trans h'.names, fun r => (h'.deleted r).trans (h.deleted r), h'.shared.trans h.shared⟩

/-- A file written back under its number, with its links. -/
theorem of_setFile {f : File} (hnodes : s'.nodes = s.nodes.setFile r f)
    (hrefs : f.refs = (s.nodes.files r).refs) (hino : f.fnode.ino = (s.nodes.files r).fnode.ino)
    (hdeleted : f.deleted = (s.nodes.files r).deleted)
    (hshared : s'.sharedAllocId = s.sharedAllocId) : SameReach s s' := by
  refine ⟨by rw [hnodes]; exact SameNames.setFile s.nodes hrefs hino, fun x => ?_, hshared⟩
  rw [hnodes, Nodes.setFile_files]
  split
  case isTrue hx => rw [hx]; exact hdeleted
  case isFalse => rfl

theorem housed [Allocator A] {holds : A → Set Nat → Prop} {region : Nat → Set Nat}
    (h : SameReach s s') (hs : Housed holds s region) (hbalanced : Balanced holds s' region) :
    Housed holds s' region where
  linked := h.names.linked hs.linked
  balanced := hbalanced
  kept r hr := by
    rw [h.names.nextRef] at hr
    rw [h.deleted, h.names.reached]
    exact hs.kept r hr
  dedicated := h.shared.trans hs.dedicated

end SameReach

section Data

variable [VolumeSelector V]

theorem growSize_reach (s : BlueFS V A) (r : FileRef) (stop : Nat) :
    SameReach s (s.growSize r stop) := by
  unfold BlueFS.growSize
  simp only
  split
  · exact .of_setFile rfl rfl rfl rfl rfl
  · exact .refl s

omit [VolumeSelector V] in
theorem flushData_reach (s : BlueFS V A) (h : FileWriter) (offset length : Nat) (buffered : Bool) :
    SameReach s (s.flushData h offset length buffered).2.2 := by
  unfold BlueFS.flushData
  split
  · exact .refl s
  · simp only
    cases (s.nodes.files h.file).fnode.seek offset with
    | none => exact .refl s
    | some p =>
        obtain ⟨i, x⟩ := p
        obtain ⟨⟨b, hs⟩, -⟩ := s.writeExtents_eq h buffered
          ((s.nodes.files h.file).fnode.extents.drop i) x (h.buffer.take h.bufferLength)
        have hwrite : SameReach s (s.writeExtents h buffered
            ((s.nodes.files h.file).fnode.extents.drop i) x
            (h.buffer.take h.bufferLength)).2.2 := by
          rw [hs]
          exact .of_nodes rfl rfl
        simp only
        split
        · exact hwrite
        · exact hwrite.trans (.of_setFile rfl rfl rfl rfl rfl)

theorem truncateTo_reach (s : BlueFS V A) (r : FileRef) (offset : Nat) :
    SameReach s (s.truncateTo r offset) := by
  have hnodes : (s.truncateTo r offset).nodes = s.nodes.setFile r { s.nodes.files r with
      fnode := (BlueFS.cutFnode (s.nodes.files r).fnode offset).resetDelta, isDirty := true } := by
    simp only [BlueFS.truncateTo, BlueFS.logFileUpdate, Transaction.opFileUpdate,
      BlueFS.pendRelease, Nodes.setFile, Function.update_idem, Function.update_self]
  exact .of_setFile hnodes rfl (Fnode.claimExtents_attrs _ _).1 rfl rfl

omit [VolumeSelector V] in
theorem signalDirtyToLog_reach (s : BlueFS V A) (r : FileRef) :
    SameReach s (s.signalDirtyToLog r) := by
  unfold BlueFS.signalDirtyToLog
  simp only
  split
  · exact .of_setFile rfl rfl rfl rfl rfl
  · exact .of_setFile rfl rfl rfl rfl rfl

omit [VolumeSelector V] in
theorem logFileUpdateInc_reach (s : BlueFS V A) (r : FileRef) :
    SameReach s (s.logFileUpdateInc r) := .of_setFile rfl rfl rfl rfl rfl

omit [VolumeSelector V] in
theorem consumeDirty_reach (s : BlueFS V A) (seq : Nat) : SameReach s (s.consumeDirty seq) := by
  unfold BlueFS.consumeDirty
  generalize s.waiting seq = rs
  induction rs generalizing s with
  | nil => exact .refl s
  | cons r rs ih => exact (logFileUpdateInc_reach s r).trans (ih _)

omit [VolumeSelector V] in
theorem writeLog_reach (s : BlueFS V A) (w : FileWriter) (t : Transaction) :
    SameReach s (s.writeLog w t).2 := by
  obtain ⟨size, hnodes, -⟩ := writeLog_nodes s w t
  exact .of_setFile hnodes rfl rfl rfl (writeLog_sameAccount s w t).shared

omit [VolumeSelector V] in
theorem recordStable_reach (s : BlueFS V A) (seq : Nat) : SameReach s (s.recordStable seq) := by
  refine ⟨recordStable_names s seq, fun r => ?_, rfl⟩
  rw [BlueFS.recordStable_files]
  split <;> rfl

variable [Allocator A]

theorem growSpace_reach (s : BlueFS V A) (r : FileRef) (stop : Nat) :
    SameReach s (s.growSpace r stop).2 := by
  unfold BlueFS.growSpace
  simp only
  split
  case isFalse => exact .refl s
  case isTrue =>
    generalize VolumeSelector.selectPreferBdev s.vselector _ = prefer
    generalize stop - (s.nodes.files r).fnode.allocated = len
    obtain ⟨a, u, heq⟩ := s.allocate_eq prefer len 0 (s.nodes.files r).fnode
    obtain ⟨es, hnode, -⟩ := s.allocate_claims prefer len 0 (s.nodes.files r).fnode
    rw [heq, hnode]
    split
    · exact .of_nodes rfl rfl
    · exact .of_setFile rfl rfl (Fnode.claimExtents_attrs _ es).1 rfl rfl

theorem flushFrom_reach (s : BlueFS V A) (h : FileWriter) (offset length : Nat) :
    SameReach s (s.flushFrom h offset length).2.2 := by
  have hspace := growSpace_reach s h.file (offset + length)
  unfold BlueFS.flushFrom
  simp only
  split
  · exact hspace
  · exact hspace.trans ((growSize_reach _ _ _).trans (flushData_reach _ _ _ _ _))

theorem flushRange_reach (s : BlueFS V A) (h : FileWriter) (offset length : Nat) :
    SameReach s (s.flushRange h offset length).2.2 := by
  unfold BlueFS.flushRange
  split
  · exact .refl s
  split
  · exact .refl s
  split
  · exact flushFrom_reach s h _ _
  · exact flushFrom_reach s h _ _

theorem flushF_reach (s : BlueFS V A) (h : FileWriter) (force : Bool) :
    SameReach s (s.flushF h force).2.2 := by
  have hrange := flushRange_reach s h h.pos h.bufferLength
  unfold BlueFS.flushF
  split
  · exact .refl s
  split
  · exact .refl s
  · simp only
    split <;> exact hrange

theorem maybeExtendLog_reach (s : BlueFS V A) (w : FileWriter) :
    SameReach s (s.maybeExtendLog w).2 := by
  unfold BlueFS.maybeExtendLog
  simp only
  split
  case isTrue => exact .refl s
  case isFalse =>
    generalize VolumeSelector.selectPreferBdev s.vselector _ = prefer
    generalize Common.p2roundup _ _ = len
    obtain ⟨a, u, heq⟩ := s.allocate_eq prefer len s.cfg.allocSize (s.nodes.files w.file).fnode
    obtain ⟨es, hnode, -⟩ := s.allocate_claims prefer len s.cfg.allocSize
      (s.nodes.files w.file).fnode
    rw [heq, hnode]
    split
    · exact .of_nodes rfl rfl
    · have hgrown : SameReach s { s with
          alloc := a
          bluefsUsed := u
          nodes := s.nodes.setFile w.file { s.nodes.files w.file with
            fnode := (s.nodes.files w.file).fnode.claimExtents es } } :=
        .of_setFile rfl rfl (Fnode.claimExtents_attrs _ es).1 rfl rfl
      exact hgrown.trans (logFileUpdateInc_reach _ w.file)

theorem gather_reach (s : BlueFS V A) (w : FileWriter) : SameReach s (s.gather w).2 := by
  have htake : SameReach s s.takeSeq.2 := .of_nodes rfl rfl
  have hextend := (htake.trans (consumeDirty_reach s.takeSeq.2 s.takeSeq.1)).trans
    (maybeExtendLog_reach _ w)
  unfold BlueFS.gather
  simp only
  split
  · exact hextend
  · exact hextend.trans (.of_nodes rfl rfl)

end Data

/-! ## Steps that move bytes -/

section Space

variable [Allocator A] {holds : A → Set Nat → Prop} {region : Nat → Set Nat}

theorem Housed.keeps (hs : Housed holds s region) (hspace : SameSpace s s')
    (hnames : SameNames s.nodes s'.nodes) (hshared : s'.sharedAllocId = s.sharedAllocId) :
    Housed holds s' region :=
  SameReach.housed ⟨hnames, hspace.deleted, hshared⟩ hs (hspace.balanced hs.balanced)

/-- A new file holds nothing. -/
theorem Housed.made (hs : Housed holds s region) {n : Nodes} {d f : Bytes}
    (hc : Created s.nodes n d f r) (hnames : SameNames n s'.nodes)
    (hempty : (s'.nodes.files r).fnode.extents = []) (hlive : (s'.nodes.files r).deleted = false)
    (hothers : ∀ x, x ≠ r → (s'.nodes.files x).deleted = (s.nodes.files x).deleted ∧
      (s'.nodes.files x).fnode.extents = (s.nodes.files x).fnode.extents)
    (halloc : s'.alloc = s.alloc) (hpending : s'.dirty.pendingRelease = s.dirty.pendingRelease)
    (hshared : s'.sharedAllocId = s.sharedAllocId) : Housed holds s' region := by
  obtain ⟨pool, hledger⟩ := hs.balanced
  obtain rfl : r = s.nodes.nextRef := hc.ref
  have hnext : s'.nodes.nextRef = s.nodes.nextRef + 1 := hnames.nextRef.trans hc.nextRef
  have howned : ∀ y, s'.nodes.owned y = s.nodes.owned y := by
    intro y
    have hzero : (s'.nodes.files s.nodes.nextRef).owns y = 0 := by
      unfold File.owns
      rw [hempty]
      split <;> rfl
    -- the sum over the files has one summand more, and it is zero
    unfold Nodes.owned
    rw [hnext, Finset.sum_range_succ, hzero, Nat.add_zero]
    refine Finset.sum_congr rfl fun x hx => ?_
    obtain ⟨hdeleted, hextents⟩ := hothers x (Nat.ne_of_lt (Finset.mem_range.mp hx))
    unfold File.owns
    rw [hdeleted, hextents]
  refine ⟨hnames.linked (hs.linked.created hc),
    ⟨pool, fun id => ?_, fun y => ?_, fun x hx => ?_, ?_⟩, fun x hx => ?_,
    hshared.trans hs.dedicated⟩
  · rw [halloc]
    exact hledger.backed id
  · rw [← hledger.total y, claims, claims, howned, hpending]
  · by_cases hxr : x = s.nodes.nextRef
    · rw [hxr, hempty]
      exact fun e he => absurd he (by simp)
    · obtain ⟨hdeleted, hextents⟩ := hothers x hxr
      rw [hextents]
      exact hledger.files x (hdeleted ▸ hx)
  · rw [hpending]
    exact hledger.pending
  · have hone : 1 ≠ s.nodes.inoLast + 1 := by
      have := hs.linked.started
      omega
    -- the new file has the one link of its entry, the others have those they had
    rw [hnames.reached]
    unfold Nodes.Reached
    rw [hc.links, hc.fileMap, OrderedMap.lookup_insert, if_neg hone]
    by_cases hxr : x = s.nodes.nextRef
    · rw [hxr, if_pos rfl]
      exact iff_of_true hlive (.inl (Nat.succ_pos _))
    · rw [if_neg (Ne.symm hxr), Nat.add_zero, (hothers x hxr).1]
      rw [hnext] at hx
      exact hs.kept x (Nat.lt_of_le_of_ne (Nat.lt_succ_iff.mp hx) hxr)

theorem drainPending_housed (law : LawfulAllocator holds) (hs : Housed holds s region) :
    Housed holds s.drainPending region := by
  obtain ⟨pool, hledger⟩ := hs.balanced
  have hdrained := drainPending_ledger law hledger
  rw [drained_dedicated hs.dedicated] at hdrained
  have hsame : SameReach s s.drainPending := .of_nodes rfl rfl
  exact hsame.housed hs hdrained

omit [Allocator A] in
theorem writeSuper_space (s : BlueFS V A) (dev : Nat) :
    (s.writeSuper dev).2.nodes = s.nodes ∧ (s.writeSuper dev).2.alloc = s.alloc ∧
      (s.writeSuper dev).2.dirty = s.dirty := by
  unfold BlueFS.writeSuper
  cases s.bdev dev with
  | none => exact ⟨rfl, rfl, rfl⟩
  | some d =>
      simp only
      split
      · exact ⟨rfl, rfl, rfl⟩
      · split <;> exact ⟨rfl, rfl, rfl⟩

theorem syncSuper_housed (hs : Housed holds s region) : Housed holds s.syncSuper.2 region := by
  obtain ⟨l, hl, -⟩ := hs.linked.log
  have hget : s.nodes.getFile 1 = (l, s.nodes) := by
    unfold Nodes.getFile
    rw [hl]
  have hsync : s.syncSuper = (s.setLogFnode l).writeSuper BDEV_DB := by
    unfold BlueFS.syncSuper
    rw [hget]
  obtain ⟨hnodes, halloc, hdirty⟩ := writeSuper_space (s.setLogFnode l) BDEV_DB
  rw [← hsync] at hnodes halloc hdirty
  have hspace : SameSpace s s.syncSuper.2 := .of_files halloc
    (congrArg Dirty.pendingRelease hdirty) (congrArg Nodes.nextRef hnodes)
    (congrArg Nodes.files hnodes)
  have hreach : SameReach s s.syncSuper.2 := .of_nodes hnodes (syncSuper_sameAccount s).shared
  exact hreach.housed hs (hspace.balanced hs.balanced)

variable [VolumeSelector V]

omit [VolumeSelector V] in
theorem flushRange_balanced [VolumeSelector V] (law : LawfulAllocator holds)
    (hs : Balanced holds s region) {h : FileWriter} (hr : h.file < s.nodes.nextRef)
    (offset length : Nat) : Balanced holds (s.flushRange h offset length).2.2 region := by
  unfold BlueFS.flushRange
  split
  case isTrue => exact hs
  case isFalse hlive =>
    have hlive : (s.nodes.files h.file).deleted = false := by simpa using hlive
    split
    · exact hs
    · split <;> exact flushFrom_balanced law hs hr hlive _ _

theorem preallocate_frame {off len : Nat} {res : Int}
    (hrun : s.preallocate r off len = some (res, s')) :
    SameReach s s' ∧ s'.log.writer = s.log.writer := by
  unfold BlueFS.preallocate at hrun
  simp only at hrun
  split at hrun
  case isTrue =>
    rw [← (Prod.mk.inj (Option.some.inj hrun)).2]
    exact ⟨.refl s, rfl⟩
  split at hrun
  case isTrue => exact absurd hrun (by simp)
  split at hrun
  case isFalse =>
    rw [← (Prod.mk.inj (Option.some.inj hrun)).2]
    exact ⟨.refl s, rfl⟩
  case isTrue =>
    generalize VolumeSelector.selectPreferBdev s.vselector _ = prefer at hrun
    generalize off + len - (s.nodes.files r).fnode.allocated = want at hrun
    obtain ⟨a, u, heq⟩ := s.allocate_eq prefer want 0 (s.nodes.files r).fnode
    obtain ⟨es, hnode, -⟩ := s.allocate_claims prefer want 0 (s.nodes.files r).fnode
    rw [heq, hnode] at hrun
    split at hrun
    case isTrue =>
      rw [← (Prod.mk.inj (Option.some.inj hrun)).2]
      exact ⟨.of_nodes rfl rfl, rfl⟩
    case isFalse =>
      rw [← (Prod.mk.inj (Option.some.inj hrun)).2]
      have hgrown : SameReach s { s with
          alloc := a
          bluefsUsed := u
          nodes := s.nodes.setFile r { s.nodes.files r with
            fnode := (s.nodes.files r).fnode.claimExtents es } } :=
        .of_setFile rfl rfl (Fnode.claimExtents_attrs _ es).1 rfl rfl
      exact ⟨hgrown.trans (logFileUpdateInc_reach _ r), rfl⟩

theorem preallocate_balanced (law : LawfulAllocator holds) (hs : Balanced holds s region)
    (hr : r < s.nodes.nextRef) {off len : Nat} {res : Int}
    (hrun : s.preallocate r off len = some (res, s')) : Balanced holds s' region := by
  unfold BlueFS.preallocate at hrun
  simp only at hrun
  split at hrun
  case isTrue =>
    rw [← (Prod.mk.inj (Option.some.inj hrun)).2]
    exact hs
  case isFalse hlive =>
    have hlive : (s.nodes.files r).deleted = false := by simpa using hlive
    split at hrun
    case isTrue => exact absurd hrun (by simp)
    split at hrun
    case isFalse =>
      rw [← (Prod.mk.inj (Option.some.inj hrun)).2]
      exact hs
    case isTrue =>
      obtain ⟨pool, hledger⟩ := hs
      generalize VolumeSelector.selectPreferBdev s.vselector _ = prefer at hrun
      generalize off + len - (s.nodes.files r).fnode.allocated = want at hrun
      obtain ⟨a, u, heq⟩ := s.allocate_eq prefer want 0 (s.nodes.files r).fnode
      rcases hal : s.allocate prefer want 0 (s.nodes.files r).fnode with ⟨res', fnode, s₁⟩
      rw [hal] at heq hrun
      obtain rfl : s₁ = { s with alloc := a, bluefsUsed := u } := heq
      obtain ⟨pool', hfails, hgrants⟩ := allocate_ledger law hledger hr hlive hal
      simp only at hrun
      split at hrun
      case isTrue hres =>
        rw [← (Prod.mk.inj (Option.some.inj hrun)).2]
        exact ⟨pool', hfails hres⟩
      case isFalse =>
        rw [← (Prod.mk.inj (Option.some.inj hrun)).2]
        refine (logFileUpdateInc_sameSpace _ r).balanced ⟨pool', ?_⟩
        exact hgrants _ { s.nodes.files r with fnode } rfl rfl rfl hlive rfl

/-! ## The last link -/

omit [VolumeSelector V] [Allocator A] in
theorem retractDirty_space (s : BlueFS V A) (r : FileRef) : SameSpace s (s.retractDirty r) := by
  unfold BlueFS.retractDirty
  simp only
  split
  · exact .of_setFile rfl rfl rfl rfl rfl
  · exact .refl s

omit [Allocator A] in
theorem removeFile_deleted (s : BlueFS V A) (r x : FileRef) :
    ((s.removeFile r).nodes.files x).deleted =
      if x = r then true else (s.nodes.files x).deleted := by
  unfold BlueFS.removeFile
  simp only
  rw [(retractDirty_space _ r).deleted]
  show (((Nodes.setFile _ r _).files x)).deleted = _
  rw [Nodes.setFile_files]
  split <;> rfl

theorem removeFile_balanced (hs : Balanced holds s region) (hr : r < s.nodes.nextRef)
    (hlive : (s.nodes.files r).deleted = false) : Balanced holds (s.removeFile r) region := by
  obtain ⟨pool, hledger⟩ := hs
  unfold BlueFS.removeFile
  simp only
  refine (retractDirty_space _ r).balanced ⟨pool, ?_⟩
  refine hledger.queue (f := { s.nodes.files r with deleted := true }) rfl (hledger.files r hlive)
    rfl rfl rfl hr (fun h => absurd h (by simp)) fun y => ?_
  unfold File.owns
  rw [hlive]
  simp

/-- A file loses its extents with its last link. -/
theorem dropLink_balanced (hs : Balanced holds s region) (hr : r < s.nodes.nextRef)
    (hlive : (s.nodes.files r).deleted = false) : Balanced holds (s.dropLink r) region ∧
      ∀ x, ((s.dropLink r).nodes.files x).deleted =
        if x = r ∧ (s.nodes.files r).refs = 1 then true else (s.nodes.files x).deleted := by
  have hlow : SameSpace s (s.lowerRefs r) := .of_setFile rfl rfl rfl rfl rfl
  have hrefs : ((s.lowerRefs r).nodes.files r).refs = 0 ↔ (s.nodes.files r).refs = 1 := by
    simp only [BlueFS.lowerRefs, Nodes.setFile_files, if_true]
    omega
  by_cases hone : (s.nodes.files r).refs = 1
  · have hdrop : s.dropLink r = (s.lowerRefs r).removeFile r := if_pos (hrefs.mpr hone)
    rw [hdrop]
    refine ⟨removeFile_balanced (hlow.balanced hs) (by rw [hlow.nextRef]; exact hr)
      (by rw [hlow.deleted]; exact hlive), fun x => ?_⟩
    rw [removeFile_deleted, hlow.deleted]
    simp [hone]
  · have hdrop : s.dropLink r = s.lowerRefs r := if_neg fun h => hone (hrefs.mp h)
    rw [hdrop]
    exact ⟨hlow.balanced hs, fun x => by rw [hlow.deleted, if_neg fun h => hone h.2]⟩

theorem unlink_housed (hs : Housed holds s region) (d f : Bytes) :
    Housed holds (s.unlink d f).2 region := by
  cases hentry : s.nodes.entry d f with
  | none =>
      unfold BlueFS.unlink
      rw [hentry]
      exact hs
  | some r =>
      have hd := unlink_dropped hs.linked hentry
      obtain ⟨hmade, hlive⟩ := hs.live hd.linked
      have herased : SameSpace s ({ s with nodes := s.nodes.eraseEntry d f }.logOp
          (.dirUnlink d f)) := .of_files rfl rfl
        (by rw [BlueFS.logOp]; show (s.nodes.eraseEntry d f).nextRef = _; rw [Nodes.eraseEntry_eq])
        (by rw [BlueFS.logOp]; show (s.nodes.eraseEntry d f).files = _; rw [Nodes.eraseEntry_eq])
      -- the entry goes first, and with it no byte
      obtain ⟨hbalanced, hdeleted⟩ := dropLink_balanced (herased.balanced hs.balanced)
        (by rw [herased.nextRef]; exact hmade) (by rw [herased.deleted]; exact hlive)
      have hunlink : (s.unlink d f).2 = ({ s with nodes := s.nodes.eraseEntry d f }.logOp
          (.dirUnlink d f)).dropLink r := by
        unfold BlueFS.unlink
        rw [hentry]
      rw [← hunlink] at hbalanced hdeleted
      have hrefs : (({ s with nodes := s.nodes.eraseEntry d f }.logOp
          (.dirUnlink d f)).nodes.files r).refs = 1 ↔ s.nodes.links r = 1 := by
        show ((s.nodes.eraseEntry d f).files r).refs = 1 ↔ _
        rw [Nodes.eraseEntry_eq]
        show (s.nodes.files r).refs = 1 ↔ _
        rw [hs.linked.refs]
        omega
      refine ⟨hs.linked.dropped hd, hbalanced, fun x hx => ?_,
        (unlink_sameAccount s d f).shared.trans hs.dedicated⟩
      rw [hd.nextRef] at hx
      rw [hdeleted, herased.deleted]
      have hkept := hs.kept x hx
      have hleft := hd.links x
      have hpos := hd.linked
      obtain ⟨l, hl, hllinks, -⟩ := hs.linked.log
      -- the log has no link, so its number is not the one that goes
      have hlog : (s.unlink d f).2.nodes.fileMap.lookup 1 = s.nodes.fileMap.lookup 1 := by
        rw [hd.fileMap]
        split
        · have hnumber := (hs.linked.numbered r hpos).1
          rw [OrderedMap.lookup_erase, if_neg (by omega)]
        · rfl
      unfold Nodes.Reached at hkept ⊢
      rw [hlog]
      by_cases hxr : x = r
      · subst hxr
        rw [if_pos rfl] at hleft
        have hnot : s.nodes.fileMap.lookup 1 ≠ some x := by
          rw [hl]
          intro hlx
          rw [Option.some.inj hlx] at hllinks
          omega
        by_cases hone : s.nodes.links x = 1
        · rw [if_pos ⟨rfl, hrefs.mpr hone⟩]
          exact iff_of_false (by simp) (not_or.mpr ⟨by omega, hnot⟩)
        · rw [if_neg fun h => hone (hrefs.mp h.2)]
          exact iff_of_true hlive (.inl (by omega))
      · rw [if_neg hxr] at hleft
        rw [if_neg fun h => hxr h.1, hkept, ← hleft, Nat.add_zero]

/-! ## The calls on names -/

omit [VolumeSelector V] [Allocator A] in
theorem stampFile_space (s : BlueFS V A) (r : FileRef) : SameSpace s (s.stampFile r) := by
  have hnodes : (s.stampFile r).nodes = s.nodes.setFile r
      { s.nodes.files r with
        fnode := { (s.nodes.files r).fnode with mtime := 0 }.resetDelta } := by
    simp only [BlueFS.stampFile, BlueFS.logFileUpdate, Transaction.opFileUpdate, Nodes.setFile,
      Function.update_idem, Function.update_self]
  exact .of_setFile rfl rfl hnodes rfl rfl

/-- A file that is emptied when it is opened. -/
theorem emptied_balanced (hs : Balanced holds s region) (hr : r < s.nodes.nextRef)
    (hlive : (s.nodes.files r).deleted = false) :
    Balanced holds (((s.dropExtents r).2.stampFile r).pendRelease (s.dropExtents r).1) region := by
  obtain ⟨pool, hledger⟩ := hs
  have hstamp := stampFile_space (s.dropExtents r).2 r
  have hqueue : Ledger holds ((s.dropExtents r).2.pendRelease (s.dropExtents r).1) pool region := by
    refine hledger.queue (f := { s.nodes.files r with
      fnode := { (s.nodes.files r).fnode with size := 0 }.clearExtents }) rfl
      (hledger.files r hlive) rfl rfl rfl hr
      (fun _ e he => absurd he (by simp [Fnode.clearExtents]))
      fun y => ?_
    unfold File.owns
    simp only [hlive]
    exact Nat.zero_add _
  have hsame : SameSpace ((s.dropExtents r).2.pendRelease (s.dropExtents r).1)
      (((s.dropExtents r).2.stampFile r).pendRelease (s.dropExtents r).1) :=
    ⟨hstamp.alloc, congrArg (BlueFS.queueRelease · (s.dropExtents r).1) hstamp.pending,
      hstamp.nextRef, hstamp.deleted, hstamp.extents⟩
  exact hsame.balanced ⟨pool, hqueue⟩

theorem openForWrite_housed (hs : Housed holds s region) (d f : Bytes) (overwrite : Bool) :
    Housed holds (s.openForWrite d f overwrite).2.2 region := by
  have hshared := (openForWrite_sameAccount s d f overwrite).shared
  unfold BlueFS.openForWrite at hshared ⊢
  cases hdir : s.nodes.dirMap.lookup d with
  | none => exact hs
  | some dir =>
      rw [hdir] at hshared
      cases hfile : dir.lookup f with
      | none =>
          simp only [hfile] at hshared ⊢
          split
          · exact hs
          · have hc := Nodes.createFile_created hdir hfile
              (VolumeSelector.getHintByDir s.vselector d)
            have hlive : ((s.nodes.createFile d f
                (VolumeSelector.getHintByDir s.vselector d)).2.files
                (s.nodes.createFile d f (VolumeSelector.getHintByDir s.vselector d)).1).deleted =
                  false := by
              simp only [Nodes.createFile]
              rw [Nodes.setEntry_eq]
              simp [Nodes.addFile]
            generalize s.nodes.createFile d f (VolumeSelector.getHintByDir s.vselector d) = made
              at *
            obtain ⟨r, n⟩ := made
            have hstamp := stampFile_space { s with nodes := n } r
            have hnames := (stampFile_same { s with nodes := n } r).1
            refine hs.made hc hnames ?_ ?_ (fun x hx => ⟨?_, ?_⟩) rfl rfl rfl
            · refine (hstamp.extents r).trans ?_
              show (n.files r).fnode.extents = []
              rw [hc.fnode]
            · exact (hstamp.deleted r).trans hlive
            · exact (hstamp.deleted x).trans (congrArg File.deleted (hc.others x hx))
            · exact (hstamp.extents x).trans (congrArg (·.fnode.extents) (hc.others x hx))
      | some r =>
          have hpos : 0 < s.nodes.links r := Nodes.links_pos_of_entry (d := d) (f := f) (by
            rw [Nodes.entry, hdir]
            exact hfile)
          obtain ⟨hmade, hlive⟩ := hs.live hpos
          simp only [hfile] at hshared ⊢
          cases overwrite with
          | true =>
              have hspace : SameSpace s ((s.stampFile r).pendRelease []) :=
                (stampFile_space s r).trans (.of_files rfl rfl rfl rfl)
              exact hs.keeps hspace (stampFile_same s r).1 rfl
          | false =>
              have hreach : SameReach s
                  (((s.dropExtents r).2.stampFile r).pendRelease (s.dropExtents r).1) := by
                refine ⟨(dropExtents_emptied s r).1.trans (stampFile_same _ r).1, fun x => ?_, rfl⟩
                refine ((stampFile_space (s.dropExtents r).2 r).deleted x).trans ?_
                show ((s.nodes.setFile r _).files x).deleted = _
                rw [Nodes.setFile_files]
                split
                case isTrue hx => rw [hx]
                case isFalse => rfl
              exact hreach.housed hs (emptied_balanced hs.balanced hmade hlive)

omit [VolumeSelector V] in
theorem lockFile_housed (hs : Housed holds s region) (d f : Bytes) :
    Housed holds (s.lockFile d f).2.2 region := by
  unfold BlueFS.lockFile
  cases hdir : s.nodes.dirMap.lookup d with
  | none => exact hs
  | some dir =>
      cases hfile : dir.lookup f with
      | none =>
          simp only [hfile]
          have hc := Nodes.createFile_created hdir hfile 0
          have hlive : ((s.nodes.createFile d f 0).2.files (s.nodes.createFile d f 0).1).deleted =
              false := by
            simp only [Nodes.createFile]
            rw [Nodes.setEntry_eq]
            simp [Nodes.addFile]
          generalize s.nodes.createFile d f 0 = made at *
          obtain ⟨r, n⟩ := made
          refine hs.made hc (SameNames.setFile n rfl rfl) ?_ ?_ (fun x hx => ?_) rfl rfl rfl
          · show ((n.setFile r _).files r).fnode.extents = []
            rw [Nodes.setFile_files, if_pos rfl]
            show (n.files r).fnode.extents = []
            rw [hc.fnode]
          · show ((n.setFile r _).files r).deleted = false
            rw [Nodes.setFile_files, if_pos rfl]
            exact hlive
          · show ((n.setFile r _).files x).deleted = _ ∧ ((n.setFile r _).files x).fnode.extents = _
            rw [Nodes.setFile_files, if_neg hx, hc.others x hx]
            exact ⟨rfl, rfl⟩
      | some r =>
          simp only [hfile]
          split
          · exact hs
          · exact hs.keeps (.of_setFile rfl rfl rfl rfl rfl) (SameNames.setFile s.nodes rfl rfl) rfl

/-- A call on names keeps the books, unless it is a rename onto a name that exists. -/
theorem NameCall.housed (hs : Housed holds s region) {c : NameCall} {res : Int}
    (hfresh : c.FreshTarget s.nodes) (hrun : c.run s = some (res, s')) :
    Housed holds s' region := by
  cases c with
  | mkdir d =>
      obtain ⟨-, rfl⟩ := returned hrun
      unfold BlueFS.mkdir
      cases hdir : s.nodes.dirMap.lookup d with
      | some dir => exact hs
      | none => exact hs.keeps (.of_files rfl rfl rfl rfl) (SameNames.makeDir s.nodes hdir) rfl
  | rmdir d =>
      obtain ⟨-, rfl⟩ := returned hrun
      unfold BlueFS.rmdir
      cases hdir : s.nodes.dirMap.lookup d with
      | none => exact hs
      | some dir =>
          by_cases hempty : dir.entries = []
          · simp only [hempty, ne_eq, not_true_eq_false, if_false]
            exact hs.keeps (.of_files rfl rfl rfl rfl) (SameNames.removeDir s.nodes hdir hempty) rfl
          · simp only [ne_eq, hempty, not_false_eq_true, if_true]
            exact hs
  | openForWrite d f o =>
      obtain ⟨-, rfl⟩ := returned hrun
      exact openForWrite_housed hs d f o
  | lockFile d f =>
      obtain ⟨-, rfl⟩ := returned hrun
      exact lockFile_housed hs d f
  | unlockFile l =>
      replace hrun : s.unlockFile l = some (res, s') := hrun
      unfold BlueFS.unlockFile at hrun
      split at hrun
      case isFalse => exact absurd hrun (by simp)
      case isTrue =>
        obtain ⟨-, rfl⟩ := returned hrun
        exact hs.keeps (.of_setFile rfl rfl rfl rfl rfl) (SameNames.setFile s.nodes rfl rfl) rfl
  | unlink d f =>
      obtain ⟨-, rfl⟩ := returned hrun
      exact unlink_housed hs d f
  | rename od of nd nf =>
      obtain ⟨-, rfl⟩ := returned hrun
      unfold BlueFS.rename
      cases hentry : s.nodes.entry od of with
      | none => exact hs
      | some r =>
          cases hdir : s.nodes.dirMap.lookup nd with
          | none => exact hs
          | some ndir =>
              have hfree := hfresh (by rw [hentry]; simp)
              have hnone : ndir.lookup nf = none := by
                rw [Nodes.entry, hdir] at hfree
                exact hfree
              simp only [hnone]
              refine hs.keeps (.of_files rfl rfl ?_ ?_) (SameNames.moveEntry hentry hdir hfree) rfl
              · show ((s.nodes.setEntry nd nf r).eraseEntry od of).nextRef = _
                rw [Nodes.eraseEntry_eq, Nodes.setEntry_eq]
              · show ((s.nodes.setEntry nd nf r).eraseEntry od of).files = _
                rw [Nodes.eraseEntry_eq, Nodes.setEntry_eq]

end Space

end Clab.Bluefs
