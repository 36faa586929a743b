import Clab.Bluefs.JournalCalls
import Clab.Bluefs.Truncation

/-!
# Data and their records

A file that is appended to is dirty, and a replay knows it as it was; the record of
the changes brings it up to date, when the file is preallocated or when the log is
flushed. A file that is cut is recorded as a whole.
-/

namespace Clab.Bluefs

open Blk

variable {V A : Type} {s s' s'' : BlueFS V A} {r : FileRef}

/-- No granted extent is empty. -/
def PositiveGrants (A : Type) [Allocator A] : Prop :=
  ∀ (a : A) (want unit maxAllocSize : Nat) (hint : Int),
    0 < (Allocator.allocate a want unit maxAllocSize hint).1 →
    ∀ e ∈ (Allocator.allocate a want unit maxAllocSize hint).2.1, 0 < e.length

theorem FreeList.positiveGrants : PositiveGrants FreeList := by
  intro a want unit maxAllocSize hint hpos e he
  obtain ⟨es⟩ := a
  cases es with
  | nil => exact absurd hpos (show ¬ (0 : Int) < -28 by decide)
  | cons g gs =>
      change 0 < (FreeList.allocate ⟨g :: gs⟩ want).1 at hpos
      change e ∈ (FreeList.allocate ⟨g :: gs⟩ want).2.1 at he
      unfold FreeList.allocate at hpos he
      simp only at hpos he
      split at hpos
      case isTrue hlt =>
        rw [if_pos hlt] at he
        rw [List.mem_singleton.mp he]
        exact Int.natCast_pos.mp hpos
      case isFalse hge =>
        rw [if_neg hge] at he
        rw [List.mem_singleton.mp he]
        exact Int.natCast_pos.mp hpos

/-! ## Files that grow -/

/-- The file may be appended to, and is dirty when it is. -/
structure Appends (s s' : BlueFS V A) (r : FileRef) : Prop where
  log : s'.log = s.log
  dirty : s'.dirty = s.dirty
  file : ∃ f c, s'.nodes = s.nodes.setFile r f ∧ f.refs = (s.nodes.files r).refs ∧
    f.dirtySeq = (s.nodes.files r).dirtySeq ∧ (∀ x ∈ c.appended, 0 < x.length) ∧
    f.fnode = (s.nodes.files r).fnode.change c ∧ (f.isDirty = true ∨ f = s.nodes.files r)

namespace Appends

theorem same (hlog : s'.log = s.log) (hdirty : s'.dirty = s.dirty) (hnodes : s'.nodes = s.nodes) :
    Appends s s' r where
  log := hlog
  dirty := hdirty
  file := ⟨s.nodes.files r, ⟨[], _, _⟩, by rw [hnodes, Nodes.setFile_self], rfl, rfl, by simp,
    ((s.nodes.files r).fnode.change_self).symm, .inr rfl⟩

theorem refl (s : BlueFS V A) (r : FileRef) : Appends s s r := same rfl rfl rfl

theorem trans (h : Appends s s' r) (h' : Appends s' s'' r) : Appends s s'' r := by
  obtain ⟨f, c, hnodes, hrefs, hseq, hc, hfnode, hgrew⟩ := h.file
  obtain ⟨f', c', hnodes', hrefs', hseq', hc', hfnode', hgrew'⟩ := h'.file
  have hfile : s'.nodes.files r = f := by rw [hnodes, Nodes.setFile_files, if_pos rfl]
  rw [hfile] at hrefs' hseq' hfnode' hgrew'
  refine ⟨h'.log.trans h.log, h'.dirty.trans h.dirty, f', c.andThen c', ?_, hrefs'.trans hrefs,
    hseq'.trans hseq, fun x hx => ?_, ?_, ?_⟩
  · rw [hnodes', hnodes, Nodes.setFile_setFile]
  · rcases List.mem_append.mp hx with hx | hx
    · exact hc x hx
    · exact hc' x hx
  · rw [hfnode', hfnode, Fnode.change_change]
  · rcases hgrew' with hdirty | hsame
    · exact .inl hdirty
    · rw [hsame]
      exact hgrew

/-- A replay that knows the file as it was is as far behind as it may be. -/
theorem journals (h : Appends s s' r) : Journals ∅ s ∅ s' := by
  obtain ⟨f, c, hnodes, hrefs, -, hc, hfnode, hgrew⟩ := h.file
  refine .silent (by rw [h.log]) fun hm => ?_
  rw [hnodes]
  refine hm.setFile hrefs ?_ (fun g hg => ?_) fun _ hk => ?_
  · rw [hfnode]
    exact ((s.nodes.files r).fnode.claimExtents_attrs c.appended).1
  · rw [hfnode]
    exact hg.change hc
  · rcases hgrew with hdirty | hsame
    · rcases hk with hk | hk
      · exact absurd hk (Set.notMem_empty r)
      · exact absurd (hk.1.symm.trans hdirty) (by simp)
    · rw [hsame] at hk ⊢
      exact ⟨hk, rfl⟩

theorem queue (h : Appends s s' r) (hs : Queue s) : Queue s' := by
  obtain ⟨f, c, hnodes, hrefs, hseq, -⟩ := h.file
  refine hs.same (by rw [h.log]) (by rw [h.dirty]) (by rw [h.dirty]) (by rw [h.dirty])
    (fun x => ?_) fun x => ?_
  · rw [hnodes]
    rfl
  · rw [hnodes]
    exact Nodes.setFile_dirtySeq hseq x

end Appends

section Space

variable [Allocator A]

/-- What an allocation adds are no empty extents. -/
theorem allocateFrom_positive (hgrants : PositiveGrants A) (s : BlueFS V A) (need unit : Nat)
    (node : Fnode) (ids : List Nat) :
    ∃ es : List Extent, (∀ x ∈ es, 0 < x.length) ∧
      (s.allocateFrom need unit node ids).2.1 = node.claimExtents es := by
  induction ids generalizing s with
  | nil => exact ⟨[], by simp, rfl⟩
  | cons id ids ih =>
      unfold BlueFS.allocateFrom
      cases s.bdev id with
      | none => exact ih s
      | some d =>
          simp only
          split
          case isTrue => exact ih _
          case isFalse hgot =>
            refine ⟨_, fun x hx => ?_, rfl⟩
            obtain ⟨e, he, rfl⟩ := List.mem_map.mp hx
            exact hgrants (s.alloc id) need unit 0 0 (not_le.mp hgot) e he

theorem allocate_positive (hgrants : PositiveGrants A) (s : BlueFS V A) (prefer len unit : Nat)
    (node : Fnode) :
    ∃ es : List Extent, (∀ x ∈ es, 0 < x.length) ∧
      (s.allocate prefer len unit node).2.1 = node.claimExtents es :=
  allocateFrom_positive hgrants s _ _ node _

variable [VolumeSelector V]

theorem growSpace_appends (hgrants : PositiveGrants A) (s : BlueFS V A) (r : FileRef) (stop : Nat) :
    Appends s (s.growSpace r stop).2 r := by
  unfold BlueFS.growSpace
  simp only
  split
  case isFalse => exact .refl s r
  case isTrue =>
    generalize VolumeSelector.selectPreferBdev s.vselector _ = prefer
    generalize stop - (s.nodes.files r).fnode.allocated = len
    obtain ⟨a, u, heq⟩ := s.allocate_eq prefer len 0 (s.nodes.files r).fnode
    obtain ⟨es, hpos, hnode⟩ := allocate_positive hgrants s prefer len 0 (s.nodes.files r).fnode
    rw [heq, hnode]
    split
    · exact .same rfl rfl rfl
    · exact ⟨rfl, rfl, _, ⟨es, (s.nodes.files r).fnode.size, (s.nodes.files r).fnode.mtime⟩, rfl, rfl,
        rfl, hpos, by rw [Fnode.change, ← Fnode.claimExtents_stamped], .inl rfl⟩

omit [Allocator A] in
theorem growSize_appends (s : BlueFS V A) (r : FileRef) (stop : Nat) :
    Appends s (s.growSize r stop) r := by
  unfold BlueFS.growSize
  simp only
  split
  case isFalse => exact .refl s r
  case isTrue =>
    exact ⟨rfl, rfl, _, ⟨[], stop, (s.nodes.files r).fnode.mtime⟩, rfl, rfl, rfl, by simp, rfl,
      .inl rfl⟩

omit [VolumeSelector V] [Allocator A] in
/-- A write up to the size of the file changes no file. -/
theorem flushData_nodes {h : FileWriter} {offset length : Nat} {buffered : Bool}
    (hle : h.pos + length ≤ (s.nodes.files h.file).fnode.size) :
    Appends s (s.flushData h offset length buffered).2.2 h.file := by
  unfold BlueFS.flushData
  split
  · exact .refl s _
  · simp only
    cases (s.nodes.files h.file).fnode.seek offset with
    | none => exact .refl s _
    | some p =>
        obtain ⟨i, x⟩ := p
        simp only
        obtain ⟨⟨b, hs⟩, d, hh⟩ := s.writeExtents_eq h buffered
          ((s.nodes.files h.file).fnode.extents.drop i) x (h.buffer.take h.bufferLength)
        rw [hs, hh]
        split
        · exact .same rfl rfl rfl
        · refine .same rfl rfl ?_
          show s.nodes.setFile h.file { s.nodes.files h.file with
            fnode := { (s.nodes.files h.file).fnode with
              size := max (s.nodes.files h.file).fnode.size (h.pos + length) } } = s.nodes
          rw [Nat.max_eq_left hle]
          exact Nodes.setFile_self s.nodes h.file

theorem flushFrom_appends (hgrants : PositiveGrants A) (s : BlueFS V A) (h : FileWriter)
    {offset length : Nat} (hle : h.pos ≤ offset) :
    Appends s (s.flushFrom h offset length).2.2 h.file := by
  have hspace := growSpace_appends hgrants s h.file (offset + length)
  unfold BlueFS.flushFrom
  simp only
  split
  · exact hspace
  · refine hspace.trans ((growSize_appends _ _ _).trans (flushData_nodes ?_))
    have hsize := BlueFS.le_growSize (s.growSpace h.file (offset + length)).2 h.file (offset + length)
    omega

theorem flushRange_appends (hgrants : PositiveGrants A) (s : BlueFS V A) (h : FileWriter)
    (offset length : Nat) : Appends s (s.flushRange h offset length).2.2 h.file := by
  unfold BlueFS.flushRange
  split
  · exact .refl s _
  split
  · exact .refl s _
  split
  · exact flushFrom_appends hgrants s h le_rfl
  case isFalse hge => exact flushFrom_appends hgrants s h (not_lt.mp hge)

theorem flushF_appends (hgrants : PositiveGrants A) (s : BlueFS V A) (h : FileWriter)
    (force : Bool) : Appends s (s.flushF h force).2.2 h.file := by
  have hrange := flushRange_appends hgrants s h h.pos h.bufferLength
  unfold BlueFS.flushF
  split
  · exact .refl s _
  split
  · exact .refl s _
  · simp only
    split <;> exact hrange

/-! ## Truncation and preallocation -/

omit [VolumeSelector V] [Allocator A] in
theorem logFileUpdate_dirtySeq (s : BlueFS V A) (r x : FileRef) :
    ((s.logFileUpdate r).nodes.files x).dirtySeq = (s.nodes.files x).dirtySeq :=
  Nodes.setFile_dirtySeq (by rfl) x

omit [VolumeSelector V] [Allocator A] in
theorem logFileUpdateInc_dirtySeq (s : BlueFS V A) (r x : FileRef) :
    ((s.logFileUpdateInc r).nodes.files x).dirtySeq = (s.nodes.files x).dirtySeq :=
  Nodes.setFile_dirtySeq (by rfl) x

/-- The file of a link is in the inode table. -/
theorem Linked.filed_link {n : Nodes} (h : Linked n) (hr : 0 < n.links r) :
    n.fileMap.lookup (n.files r).fnode.ino = some r := by
  have hnum := (h.numbered r hr).1
  exact (h.filed _ r (by omega)).mpr ⟨hr, rfl⟩

omit [Allocator A] in
theorem truncateTo_journals (hs : Linked s.nodes) (hr : 0 < s.nodes.links r) (offset : Nat) :
    Journals ∅ s ∅ (s.truncateTo r offset) := by
  have hino : (BlueFS.cutFnode (s.nodes.files r).fnode offset).ino = (s.nodes.files r).fnode.ino :=
    (Fnode.claimExtents_attrs _ _).1
  have hfollows := follows_fileUpdate ∅ (hs.filed_link hr)
    (BlueFS.cutFnode (s.nodes.files r).fnode offset) hino (fun _ => (cutFnode_spec _ offset).1)
    (f := { s.nodes.files r with
      fnode := (BlueFS.cutFnode (s.nodes.files r).fnode offset).resetDelta, isDirty := true })
    rfl rfl
  have hnodes : (s.truncateTo r offset).nodes = s.nodes.setFile r { s.nodes.files r with
      fnode := (BlueFS.cutFnode (s.nodes.files r).fnode offset).resetDelta, isDirty := true } := by
    simp only [BlueFS.truncateTo, BlueFS.logFileUpdate, Transaction.opFileUpdate,
      BlueFS.pendRelease, Nodes.setFile, Function.update_idem, Function.update_self]
  have hops : (s.truncateTo r offset).log.t.ops = s.log.t.ops ++
      [.fileUpdate (s.nodes.files r).fnode.ino
        (BlueFS.cutFnode (s.nodes.files r).fnode offset).size
        (BlueFS.cutFnode (s.nodes.files r).fnode offset).mtime
        (BlueFS.cutFnode (s.nodes.files r).fnode offset).extents] := by
    rw [← hino]
    simp only [BlueFS.truncateTo, BlueFS.logFileUpdate, Transaction.opFileUpdate,
      BlueFS.pendRelease, Nodes.setFile, Function.update_self, Transaction.push]
  rw [← hnodes] at hfollows
  exact (Journals.of_follows _ hops hfollows).weaken (Set.empty_subset _)

omit [Allocator A] in
theorem truncateTo_queue (h : Queue s) (r : FileRef) (offset : Nat) :
    Queue (s.truncateTo r offset) := by
  refine h.same rfl rfl rfl rfl (fun _ => rfl) fun x => ?_
  refine (logFileUpdate_dirtySeq _ r x).trans ?_
  exact Nodes.setFile_dirtySeq (by rfl) x

omit [VolumeSelector V] [Allocator A] in
/-- What is appended to a file is recorded at once. -/
theorem recordAppended_journals {known : Set FileRef} {ino : Nat}
    (hr : s.nodes.fileMap.lookup ino = some r) {fnode : Fnode} (es : List Extent)
    (hpos : ∀ x ∈ es, 0 < x.length) (hfnode : fnode = (s.nodes.files r).fnode.claimExtents es)
    (hlog : s'.log = s.log)
    (hnodes : s'.nodes = s.nodes.setFile r { s.nodes.files r with fnode }) :
    Journals known s (insert r known) (s'.logFileUpdateInc r) := by
  have hchange : fnode = (s.nodes.files r).fnode.change
      ⟨es, (s.nodes.files r).fnode.size, (s.nodes.files r).fnode.mtime⟩ := by
    rw [hfnode, Fnode.change, ← Fnode.claimExtents_stamped]
  have hino : fnode.ino = (s.nodes.files r).fnode.ino := by
    rw [hfnode]
    exact (Fnode.claimExtents_attrs _ _).1
  have hfile : s'.nodes.files r = { s.nodes.files r with fnode } := by
    rw [hnodes, Nodes.setFile_files, if_pos rfl]
  have hfollows := follows_fileUpdateInc known hr fnode hino
    (fun g hg => by rw [hchange]; exact hg.change hpos)
    (f := { s.nodes.files r with fnode := fnode.resetDelta }) rfl rfl
  refine .of_follows [.fileUpdateInc fnode.makeDelta] ?_ ?_
  · unfold BlueFS.logFileUpdateInc
    rw [hfile]
    show s'.log.t.ops ++ [_] = _
    rw [hlog]
  · unfold BlueFS.logFileUpdateInc
    rw [hfile]
    show Follows known s.nodes _ _ (s'.nodes.setFile r _)
    rw [hnodes, Nodes.setFile_setFile]
    exact hfollows

theorem preallocate_journals (hgrants : PositiveGrants A) (hs : Linked s.nodes)
    (hr : 0 < s.nodes.links r) (hqueue : Queue s) {off len : Nat} {res : Int}
    (hrun : s.preallocate r off len = some (res, s')) : Journals ∅ s ∅ s' ∧ Queue s' := by
  unfold BlueFS.preallocate at hrun
  simp only at hrun
  split at hrun
  case isTrue =>
    rw [← (Prod.mk.inj (Option.some.inj hrun)).2]
    exact ⟨.refl ∅ s, hqueue⟩
  split at hrun
  case isTrue => exact absurd hrun (by simp)
  split at hrun
  case isFalse =>
    rw [← (Prod.mk.inj (Option.some.inj hrun)).2]
    exact ⟨.refl ∅ s, hqueue⟩
  case isTrue =>
    generalize VolumeSelector.selectPreferBdev s.vselector _ = prefer at hrun
    generalize off + len - (s.nodes.files r).fnode.allocated = want at hrun
    obtain ⟨a, u, heq⟩ := s.allocate_eq prefer want 0 (s.nodes.files r).fnode
    obtain ⟨es, hpos, hnode⟩ := allocate_positive hgrants s prefer want 0 (s.nodes.files r).fnode
    rw [heq, hnode] at hrun
    split at hrun
    case isTrue =>
      rw [← (Prod.mk.inj (Option.some.inj hrun)).2]
      exact ⟨.silent rfl id, hqueue.same rfl rfl rfl rfl (fun _ => rfl) fun _ => rfl⟩
    case isFalse =>
      rw [← (Prod.mk.inj (Option.some.inj hrun)).2]
      refine ⟨Journals.weaken (recordAppended_journals (hs.filed_link hr) es hpos rfl rfl rfl)
        (Set.empty_subset _), hqueue.same rfl rfl rfl rfl (fun _ => rfl) fun x => ?_⟩
      refine (logFileUpdateInc_dirtySeq _ r x).trans ?_
      exact Nodes.setFile_dirtySeq (by rfl) x

end Space

/-! ## Dirty files -/

/-- A file that is to be recorded is not clean before it is. -/
theorem signalDirtyToLog_journals (hqueue : Queue s) (hr : 0 < s.nodes.links r) :
    Journals ∅ s ∅ (s.signalDirtyToLog r) ∧ Queue (s.signalDirtyToLog r) := by
  obtain ⟨hlog, hlive, hstable, -⟩ := BlueFS.signalDirtyToLog_dirty s r
  have hpositive : 0 < s.log.seqLive := Nat.zero_lt_of_lt hqueue.stable
  have hnodes : ∃ seq, (s.signalDirtyToLog r).nodes =
      s.nodes.setFile r { s.nodes.files r with dirtySeq := seq, isDirty := false } ∧
      seq = s.log.seqLive := by
    have hdue := hqueue.due r hr
    unfold BlueFS.signalDirtyToLog
    simp only
    split
    case isTrue => exact ⟨_, rfl, hqueue.live⟩
    case isFalse hlate =>
      refine ⟨_, rfl, ?_⟩
      rcases hdue with hzero | hwait
      · exact absurd (.inr hzero) hlate
      · exact (hqueue.waiting _ r hwait).2.2
  obtain ⟨seq, hnodes, rfl⟩ := hnodes
  constructor
  · refine .silent (by rw [hlog]) fun hm => ?_
    rw [hnodes]
    refine hm.setFile rfl rfl (fun _ hg => hg) fun _ hk => ?_
    rcases hk with hk | hk
    · exact absurd hk (Set.notMem_empty r)
    · have hzero : s.log.seqLive = 0 := hk.2
      omega
  · have hlinks : ∀ x, (s.signalDirtyToLog r).nodes.links x = s.nodes.links x := fun x => by
      rw [hnodes]
      rfl
    constructor
    case live => rw [hlive, hlog]; exact hqueue.live
    case stable => rw [hstable, hlog]; exact hqueue.stable
    case waiting =>
      intro seq x hx
      rw [hlog, hlinks, hnodes, Nodes.setFile_files]
      rcases (BlueFS.signalDirtyToLog_waiting s r seq x).mp hx with hold | ⟨rfl, rfl, -⟩
      · obtain ⟨hseq, hlink, hdue⟩ := hqueue.waiting seq x hold
        refine ⟨hseq, hlink, ?_⟩
        split
        · exact hseq.symm
        · exact hdue
      · exact ⟨hqueue.live, hr, by rw [if_pos rfl]; exact hqueue.live.symm⟩
    case due =>
      intro x hx
      rw [hlinks] at hx
      rw [hlog, hnodes, Nodes.setFile_files, BlueFS.signalDirtyToLog_waiting]
      rcases hqueue.due x hx with hzero | hwait
      · by_cases hxr : x = r
        · subst hxr
          exact .inr (.inr ⟨rfl, hqueue.live.symm, .inr hzero⟩)
        · rw [if_neg hxr]
          exact .inl hzero
      · exact .inr (.inl hwait)

end Clab.Bluefs
