import Clab.Bluefs.LogFlush
import Clab.Bluefs.Namespace

/-!
# What the calls do to the books

The books of BlueFS are the sequence numbers, the table of dirty files and the
flags of each file; beside them stand the extents pending release. Here is what
every operation under `log_.lock`, every flush of file data and every part of the
log flush does to them.
-/

namespace Clab.Bluefs

open Blk Common

variable {V A : Type}

/-- The flags of a file. -/
structure File.SameFlags (f f' : File) : Prop where
  dirtySeq : f'.dirtySeq = f.dirtySeq
  isDirty : f'.isDirty = f.isDirty
  deleted : f'.deleted = f.deleted

theorem File.SameFlags.refl (f : File) : f.SameFlags f := ⟨rfl, rfl, rfl⟩

theorem File.SameFlags.trans {f f' f'' : File} (h : f.SameFlags f') (h' : f'.SameFlags f'') :
    f.SameFlags f'' :=
  ⟨h'.dirtySeq.trans h.dirtySeq, h'.isDirty.trans h.isDirty, h'.deleted.trans h.deleted⟩

namespace BlueFS

/-- Two states with the same books. -/
structure SameBooks (s s' : BlueFS V A) : Prop where
  files : ∀ r, (s.nodes.files r).SameFlags (s'.nodes.files r)
  seqLive : s'.log.seqLive = s.log.seqLive
  dirty : s'.dirty = s.dirty

namespace SameBooks

variable {s s' s'' : BlueFS V A}

theorem refl (s : BlueFS V A) : s.SameBooks s := ⟨fun _ => .refl _, rfl, rfl⟩

theorem trans (h : s.SameBooks s') (h' : s'.SameBooks s'') : s.SameBooks s'' :=
  ⟨fun r => (h.files r).trans (h'.files r), h'.seqLive.trans h.seqLive, h'.dirty.trans h.dirty⟩

/-- The same files, sequence numbers and table. -/
theorem of_eq (hfiles : s'.nodes.files = s.nodes.files) (hseq : s'.log.seqLive = s.log.seqLive)
    (hdirty : s'.dirty = s.dirty) : s.SameBooks s' :=
  ⟨fun r => by rw [hfiles]; exact .refl _, hseq, hdirty⟩

/-- A file written back with its flags. -/
theorem of_setFile {r : FileRef} {f : File} (hfiles : s'.nodes = s.nodes.setFile r f)
    (hflags : (s.nodes.files r).SameFlags f) (hseq : s'.log.seqLive = s.log.seqLive)
    (hdirty : s'.dirty = s.dirty) : s.SameBooks s' := by
  refine ⟨fun x => ?_, hseq, hdirty⟩
  rw [hfiles, Nodes.setFile_files]
  split
  case isTrue hx => rw [hx]; exact hflags
  case isFalse => exact .refl _

end SameBooks

/-! ## Space and data -/

/-- An allocation changes the allocators only. -/
theorem allocateFrom_eq [Allocator A] (s : BlueFS V A) (need unit : Nat) (node : Fnode)
    (ids : List Nat) : ∃ a u, (s.allocateFrom need unit node ids).2.2 =
      { s with alloc := a, bluefsUsed := u } := by
  induction ids generalizing s with
  | nil => exact ⟨s.alloc, s.bluefsUsed, rfl⟩
  | cons id ids ih =>
      unfold allocateFrom
      cases s.bdev id with
      | none => exact ih s
      | some d =>
          simp only
          split
          case isTrue => exact ih _
          case isFalse => split <;> exact ⟨_, _, rfl⟩

theorem allocate_eq [Allocator A] (s : BlueFS V A) (prefer len unit : Nat) (node : Fnode) :
    ∃ a u, (s.allocate prefer len unit node).2.2 = { s with alloc := a, bluefsUsed := u } :=
  s.allocateFrom_eq _ _ _ _

/-- Writing to extents changes the devices only, and the writer's devices. -/
theorem writeExtents_eq (s : BlueFS V A) (h : FileWriter) (buffered : Bool) (es : List Extent)
    (x : Nat) (bl : Bytes) :
    (∃ b, (s.writeExtents h buffered es x bl).2.2 = { s with bdev := b }) ∧
      ∃ d, (s.writeExtents h buffered es x bl).2.1 = { h with dirtyDevs := d } := by
  induction es generalizing s h x bl with
  | nil => exact ⟨⟨s.bdev, rfl⟩, h.dirtyDevs, rfl⟩
  | cons e es ih =>
      unfold writeExtents
      split
      · exact ⟨⟨s.bdev, rfl⟩, h.dirtyDevs, rfl⟩
      · cases s.bdev e.bdev with
        | none => exact ⟨⟨s.bdev, rfl⟩, h.dirtyDevs, rfl⟩
        | some d =>
            simp only
            split
            · exact ⟨⟨_, rfl⟩, h.dirtyDevs, rfl⟩
            · exact ih _ _ _ _

theorem advance_sameBooks (s : BlueFS V A) (h : FileWriter) (length : Nat) :
    s.SameBooks (s.advance h length).2 :=
  .of_setFile rfl ⟨rfl, rfl, rfl⟩ rfl rfl

/-- What a flush of file data does to the books: `r` may grow, and is dirty when it did. -/
structure Grows (s s' : BlueFS V A) (r : FileRef) : Prop where
  others : ∀ x, x ≠ r → s'.nodes.files x = s.nodes.files x
  dirtySeq : (s'.nodes.files r).dirtySeq = (s.nodes.files r).dirtySeq
  deleted : (s'.nodes.files r).deleted = (s.nodes.files r).deleted
  grew : (s'.nodes.files r).isDirty = true ∨ s'.nodes.files r = s.nodes.files r
  seqLive : s'.log.seqLive = s.log.seqLive
  dirty : s'.dirty = s.dirty

namespace Grows

variable {s s' s'' : BlueFS V A} {r : FileRef}

theorem of_eq (hfiles : s'.nodes.files = s.nodes.files) (hseq : s'.log.seqLive = s.log.seqLive)
    (hdirty : s'.dirty = s.dirty) : s.Grows s' r := by
  refine ⟨fun x _ => by rw [hfiles], ?_, ?_, .inr ?_, hseq, hdirty⟩ <;> rw [hfiles]

theorem trans (h : s.Grows s' r) (h' : s'.Grows s'' r) : s.Grows s'' r := by
  refine ⟨fun x hx => (h'.others x hx).trans (h.others x hx), h'.dirtySeq.trans h.dirtySeq,
    h'.deleted.trans h.deleted, ?_, h'.seqLive.trans h.seqLive, h'.dirty.trans h.dirty⟩
  rcases h'.grew with hdirty | heq
  · exact .inl hdirty
  · rw [heq]
    exact h.grew

/-- The file written back as dirty. -/
theorem of_setFile {f : File} (hfiles : s'.nodes.files = Function.update s.nodes.files r f)
    (hseq : f.dirtySeq = (s.nodes.files r).dirtySeq)
    (hdeleted : f.deleted = (s.nodes.files r).deleted) (hdirty : f.isDirty = true)
    (hlive : s'.log.seqLive = s.log.seqLive) (hsame : s'.dirty = s.dirty) : s.Grows s' r := by
  refine ⟨fun x hx => ?_, ?_, ?_, .inl ?_, hlive, hsame⟩
  · rw [hfiles, Function.update_of_ne hx]
  all_goals rw [hfiles, Function.update_self]; assumption

end Grows

section Data

variable [VolumeSelector V] [Allocator A]

omit [VolumeSelector V] [Allocator A] in
/-- A write up to the size of the file changes no file. -/
theorem advance_files {s : BlueFS V A} {h : FileWriter} {length : Nat}
    (hle : h.pos + length ≤ (s.nodes.files h.file).fnode.size) :
    (s.advance h length).2.nodes.files = s.nodes.files := by
  have hmax : max (s.nodes.files h.file).fnode.size (h.pos + length) =
      (s.nodes.files h.file).fnode.size := Nat.max_eq_left hle
  unfold advance
  simp only [hmax, Nodes.setFile]
  exact Function.update_eq_self _ _

omit [VolumeSelector V] [Allocator A] in
theorem flushData_grows {s : BlueFS V A} {h : FileWriter} {offset length : Nat} {buffered : Bool}
    (hle : h.pos + length ≤ (s.nodes.files h.file).fnode.size) :
    s.Grows (s.flushData h offset length buffered).2.2 h.file := by
  unfold flushData
  split
  · exact .of_eq rfl rfl rfl
  · simp only
    cases (s.nodes.files h.file).fnode.seek offset with
    | none => exact .of_eq rfl rfl rfl
    | some p =>
        obtain ⟨i, x⟩ := p
        simp only
        obtain ⟨⟨b, hs⟩, d, hh⟩ := s.writeExtents_eq h buffered
          ((s.nodes.files h.file).fnode.extents.drop i) x (h.buffer.take h.bufferLength)
        split
        · rw [hs]
          exact .of_eq rfl rfl rfl
        · rw [hs, hh]
          refine .of_eq ?_ rfl rfl
          exact advance_files (s := { s with bdev := b }) (h := { h with dirtyDevs := d }) hle

theorem growSpace_grows (s : BlueFS V A) (r : FileRef) (stop : Nat) :
    s.Grows (s.growSpace r stop).2 r := by
  unfold growSpace
  simp only
  split
  case isTrue =>
    generalize VolumeSelector.selectPreferBdev s.vselector _ = prefer
    obtain ⟨a, u, heq⟩ := s.allocate_eq prefer (stop - (s.nodes.files r).fnode.allocated) 0
      (s.nodes.files r).fnode
    rw [heq]
    split
    · exact .of_eq rfl rfl rfl
    · exact .of_setFile rfl rfl rfl rfl rfl rfl
  case isFalse => exact .of_eq rfl rfl rfl

omit [Allocator A] in
theorem growSize_grows (s : BlueFS V A) (r : FileRef) (stop : Nat) :
    s.Grows (s.growSize r stop) r := by
  unfold growSize
  simp only
  split
  · exact .of_setFile rfl rfl rfl rfl rfl rfl
  · exact .of_eq rfl rfl rfl

omit [Allocator A] in
theorem le_growSize (s : BlueFS V A) (r : FileRef) (stop : Nat) :
    stop ≤ ((s.growSize r stop).nodes.files r).fnode.size := by
  unfold growSize
  simp only
  split
  case isTrue => simp
  case isFalse h => exact Nat.le_of_not_lt h

theorem flushFrom_grows (s : BlueFS V A) (h : FileWriter) (length : Nat) :
    s.Grows (s.flushFrom h h.pos length).2.2 h.file := by
  have hspace := s.growSpace_grows h.file (h.pos + length)
  unfold flushFrom
  simp only
  split
  · exact hspace
  · refine hspace.trans ((growSize_grows _ _ _).trans (flushData_grows ?_))
    exact le_growSize _ _ _

theorem flushF_grows (s : BlueFS V A) (h : FileWriter) (force : Bool) :
    s.Grows (s.flushF h force).2.2 h.file := by
  have hrange : s.Grows (s.flushRange h h.pos h.bufferLength).2.2 h.file := by
    unfold flushRange
    split
    · exact .of_eq rfl rfl rfl
    · split
      · exact .of_eq rfl rfl rfl
      · rw [if_neg (lt_irrefl _)]
        exact s.flushFrom_grows h _
  unfold flushF
  split
  · exact .of_eq rfl rfl rfl
  · split
    · exact .of_eq rfl rfl rfl
    · simp only
      split <;> exact hrange

end Data

/-! ## Operations under the lock of the log -/

/-- What an operation that drops extents of `r` does to the books. -/
structure Drops (s s' : BlueFS V A) (r : FileRef) : Prop where
  others : ∀ x, x ≠ r → (s.nodes.files x).SameFlags (s'.nodes.files x)
  deleted : (s.nodes.files r).deleted = true → (s'.nodes.files r).deleted = true
  dirtySeq : (s'.nodes.files r).dirtySeq = (s.nodes.files r).dirtySeq ∨
    (s'.nodes.files r).dirtySeq ≤ s.dirty.seqStable
  seqLive : s'.log.seqLive = s.log.seqLive
  dirtyLive : s'.dirty.seqLive = s.dirty.seqLive
  seqStable : s'.dirty.seqStable = s.dirty.seqStable
  waiting : ∀ seq x, x ∈ s'.waiting seq → x ∈ s.waiting seq
  kept : ∀ seq x, x ∈ s.waiting seq → x ∈ s'.waiting seq ∨
    x = r ∧ (s'.nodes.files r).deleted = true ∧ (s'.nodes.files r).dirtySeq ≤ s.dirty.seqStable
  retracted : ∀ seq, s.dirty.seqStable < seq → (s.nodes.files r).dirtySeq = seq →
    r ∈ s'.waiting seq → (s'.nodes.files r).dirtySeq = seq

/-- The books change in the flags of `r` alone. -/
theorem Drops.of_flags {s s' : BlueFS V A} {r : FileRef}
    (hothers : ∀ x, x ≠ r → (s.nodes.files x).SameFlags (s'.nodes.files x))
    (hseq : (s'.nodes.files r).dirtySeq = (s.nodes.files r).dirtySeq)
    (hdeleted : (s'.nodes.files r).deleted = (s.nodes.files r).deleted)
    (hlive : s'.log.seqLive = s.log.seqLive) (hfiles : s'.dirty.files = s.dirty.files)
    (hdirty : s'.dirty.seqLive = s.dirty.seqLive)
    (hstable : s'.dirty.seqStable = s.dirty.seqStable) : s.Drops s' r := by
  have hwaiting : ∀ seq, s'.waiting seq = s.waiting seq := fun seq => by
    rw [BlueFS.waiting, hfiles]
    rfl
  refine ⟨hothers, fun h => hdeleted.trans h, .inl hseq, hlive, hdirty, hstable,
    fun seq x hx => ?_, fun seq x hx => .inl ?_, fun seq _ hr _ => hseq.trans hr⟩
  · rwa [hwaiting] at hx
  · rwa [hwaiting]

/-- The files of a transaction after one was taken out of another's list. -/
theorem mem_retract {files : OrderedMap Nat (List FileRef)} {k seq : Nat} {r x : FileRef} :
    x ∈ ((retract files k r).lookup seq).getD [] ↔
      x ∈ (files.lookup seq).getD [] ∧ (seq = k → x ≠ r) := by
  unfold retract
  cases hk : files.lookup k with
  | none =>
      refine ⟨fun hx => ⟨hx, fun heq => ?_⟩, And.left⟩
      rw [heq, hk] at hx
      simp at hx
  | some v =>
      by_cases heq : seq = k
      · subst heq
        simp only [hk, Option.getD_some, true_implies]
        split
        case isTrue hnil =>
          have hmem : ∀ y ∈ v, y = r := by simpa using hnil
          simpa using hmem x
        case isFalse => simp
      · simp only
        split <;> simp [heq]

variable {s : BlueFS V A}

/-- The truncation of a file. -/
theorem truncateTo_drops [VolumeSelector V] (s : BlueFS V A) (r : FileRef) (offset : Nat) :
    s.Drops (s.truncateTo r offset) r ∧
      ((s.truncateTo r offset).nodes.files r).isDirty = true := by
  have hfile : ∃ fnode, (s.truncateTo r offset).nodes.files =
      Function.update s.nodes.files r { s.nodes.files r with fnode, isDirty := true } := by
    refine ⟨(cutFnode (s.nodes.files r).fnode offset).resetDelta, ?_⟩
    simp only [truncateTo, logFileUpdate, pendRelease, Transaction.opFileUpdate, Nodes.setFile,
      Function.update_idem, Function.update_self]
  obtain ⟨fnode, hfile⟩ := hfile
  refine ⟨.of_flags (fun x hx => ?_) ?_ ?_ rfl rfl rfl rfl, ?_⟩
  · rw [hfile, Function.update_of_ne hx]
    exact .refl _
  all_goals rw [hfile, Function.update_self]

/-- The truncating `open_for_write` of an existing file. -/
theorem openForWrite_drops [VolumeSelector V] {d f : Bytes} {r : FileRef}
    (hentry : s.nodes.entry d f = some r) :
    s.Drops (s.openForWrite d f false).2.2 r ∧
      ((s.openForWrite d f false).2.2.nodes.files r).isDirty = (s.nodes.files r).isDirty := by
  have hdir : ∃ dir, s.nodes.dirMap.lookup d = some dir ∧ dir.lookup f = some r :=
    Option.bind_eq_some_iff.mp hentry
  obtain ⟨dir, hdir, hfile⟩ := hdir
  have hopen : (s.openForWrite d f false).2.2 =
      ((s.dropExtents r).2.stampFile r).pendRelease (s.dropExtents r).1 := by
    unfold openForWrite
    rw [hdir]
    simp only [hfile]
    rfl
  have hfiles : ∃ fnode, (s.openForWrite d f false).2.2.nodes.files =
      Function.update s.nodes.files r { s.nodes.files r with fnode } := by
    refine ⟨({ { (s.nodes.files r).fnode with size := 0 }.clearExtents with mtime := 0 }).resetDelta,
      ?_⟩
    rw [hopen]
    simp only [dropExtents, stampFile, logFileUpdate, pendRelease, Transaction.opFileUpdate,
      Nodes.setFile, Function.update_idem, Function.update_self]
  obtain ⟨fnode, hfiles⟩ := hfiles
  refine ⟨.of_flags (fun x hx => ?_) ?_ ?_ ?_ ?_ ?_ ?_, ?_⟩
  · rw [hfiles, Function.update_of_ne hx]
    exact .refl _
  all_goals first
    | rw [hfiles, Function.update_self]
    | rw [hopen]; rfl

/-- The retraction of a file that was just marked deleted. -/
theorem retractDirty_drops {m : BlueFS V A} {r : FileRef}
    (hothers : ∀ x, x ≠ r → (s.nodes.files x).SameFlags (m.nodes.files x))
    (hfile : (m.nodes.files r).dirtySeq = (s.nodes.files r).dirtySeq)
    (hdeleted : (m.nodes.files r).deleted = true) (hlive : m.log.seqLive = s.log.seqLive)
    (hfiles : m.dirty.files = s.dirty.files) (hdirty : m.dirty.seqLive = s.dirty.seqLive)
    (hstable : m.dirty.seqStable = s.dirty.seqStable) :
    s.Drops (m.retractDirty r) r ∧
      ((m.retractDirty r).nodes.files r).isDirty = (m.nodes.files r).isDirty := by
  have hwaiting : ∀ seq, m.waiting seq = s.waiting seq := fun seq => by
    rw [BlueFS.waiting, hfiles]
    rfl
  by_cases hseq : m.dirty.seqStable < (m.nodes.files r).dirtySeq
  · have heq : m.retractDirty r =
        { m with
          nodes := m.nodes.setFile r
            { m.nodes.files r with dirtySeq := m.dirty.seqStable }
          dirty := { m.dirty with
            files := retract m.dirty.files (m.nodes.files r).dirtySeq r } } := if_pos hseq
    have hmem : ∀ seq x, x ∈ (m.retractDirty r).waiting seq ↔
        x ∈ s.waiting seq ∧ (seq = (m.nodes.files r).dirtySeq → x ≠ r) := by
      intro seq x
      rw [heq, ← hwaiting]
      exact mem_retract
    have hself : ((m.retractDirty r).nodes.files r) =
        { m.nodes.files r with dirtySeq := m.dirty.seqStable } := by
      rw [heq]
      exact Function.update_self _ _ _
    refine ⟨⟨fun x hx => ?_, fun _ => ?_, .inr ?_, ?_, ?_, ?_, fun seq x hx => ?_,
      fun seq x hx => ?_, fun seq _ hr hmem' => ?_⟩, ?_⟩
    · rw [heq]
      show (s.nodes.files x).SameFlags (Function.update m.nodes.files r _ x)
      rw [Function.update_of_ne hx]
      exact hothers x hx
    · rw [hself]
      exact hdeleted
    · rw [hself]
      exact hstable.le
    · rw [heq]; exact hlive
    · rw [heq]; exact hdirty
    · rw [heq]; exact hstable
    · exact ((hmem seq x).mp hx).1
    · by_cases hxr : x = r
      · refine .inr ⟨hxr, ?_, ?_⟩ <;> rw [hself]
        · exact hdeleted
        · exact hstable.le
      · exact .inl ((hmem seq x).mpr ⟨hx, fun _ => hxr⟩)
    · -- the file is out of the list it was in
      exact absurd rfl (((hmem seq r).mp hmem').2 (hr.symm.trans hfile.symm))
    · rw [hself]
  · have heq : m.retractDirty r = m := if_neg hseq
    rw [heq]
    refine ⟨⟨hothers, fun _ => hdeleted, .inl hfile, hlive, hdirty, hstable, fun seq x hx => ?_,
      fun seq x hx => .inl ?_, fun seq hlt hr _ => ?_⟩, rfl⟩
    · rwa [← hwaiting]
    · rwa [hwaiting]
    · rw [hfile, hr]

theorem unlink_drops [VolumeSelector V] {d f : Bytes} {r : FileRef}
    (hentry : s.nodes.entry d f = some r) :
    s.Drops (s.unlink d f).2 r ∧
      ((s.unlink d f).2.nodes.files r).isDirty = (s.nodes.files r).isDirty := by
  have hunlink : (s.unlink d f).2 =
      ({ s with nodes := s.nodes.eraseEntry d f }.logOp (.dirUnlink d f)).dropLink r := by
    unfold unlink
    rw [hentry]
  have herase : (s.nodes.eraseEntry d f).files = s.nodes.files := by
    rw [Nodes.eraseEntry_eq]
  rw [hunlink]
  generalize hm : ({ s with nodes := s.nodes.eraseEntry d f }.logOp (.dirUnlink d f)).lowerRefs r = m
  have hfiles : m.nodes.files = Function.update s.nodes.files r
      { s.nodes.files r with refs := (s.nodes.files r).refs - 1 } := by
    rw [← hm, ← herase]
    rfl
  have hlow : ∀ x, (s.nodes.files x).SameFlags (m.nodes.files x) := by
    intro x
    rw [hfiles, Function.update_apply]
    split
    case isTrue hx => rw [hx]; exact ⟨rfl, rfl, rfl⟩
    case isFalse => exact .refl _
  unfold dropLink
  simp only [hm]
  split
  · -- the last link: the file is marked deleted, its extents queued
    refine (retractDirty_drops (fun x hx => ?_) ?_ ?_ ?_ ?_ ?_ ?_).imp_right fun h => h.trans ?_
    · show (s.nodes.files x).SameFlags (Function.update m.nodes.files r _ x)
      rw [Function.update_of_ne hx]
      exact hlow x
    · show (Function.update m.nodes.files r _ r).dirtySeq = _
      rw [Function.update_self]
      exact (hlow r).dirtySeq
    · show (Function.update m.nodes.files r _ r).deleted = _
      rw [Function.update_self]
    · rw [← hm]; rfl
    · rw [← hm]; rfl
    · rw [← hm]; rfl
    · rw [← hm]; rfl
    · show (Function.update m.nodes.files r _ r).isDirty = _
      rw [Function.update_self]
      exact (hlow r).isDirty
  · refine ⟨.of_flags (fun x _ => hlow x) (hlow r).dirtySeq (hlow r).deleted ?_ ?_ ?_ ?_,
      (hlow r).isDirty⟩ <;>
    · rw [← hm]
      rfl

/-! ## The log flush -/

theorem logFileUpdateInc_sameBooks (s : BlueFS V A) (r : FileRef) :
    s.SameBooks (s.logFileUpdateInc r) :=
  .of_setFile rfl ⟨rfl, rfl, rfl⟩ rfl rfl

theorem consumeDirty_sameBooks (s : BlueFS V A) (seq : Nat) : s.SameBooks (s.consumeDirty seq) := by
  unfold consumeDirty
  generalize s.waiting seq = rs
  induction rs generalizing s with
  | nil => exact .refl s
  | cons r rs ih => exact (s.logFileUpdateInc_sameBooks r).trans (ih _)

theorem maybeExtendLog_sameBooks [VolumeSelector V] [Allocator A] (s : BlueFS V A)
    (w : FileWriter) : s.SameBooks (s.maybeExtendLog w).2 := by
  unfold maybeExtendLog
  simp only
  split
  case isTrue => exact .refl s
  case isFalse =>
    generalize VolumeSelector.selectPreferBdev s.vselector _ = prefer
    generalize p2roundup _ _ = len
    obtain ⟨a, u, heq⟩ := s.allocate_eq prefer len s.cfg.allocSize (s.nodes.files w.file).fnode
    rw [heq]
    split
    · exact .of_eq rfl rfl rfl
    · have hset : ∀ fnode, s.SameBooks { s with
          alloc := a
          bluefsUsed := u
          nodes := s.nodes.setFile w.file { s.nodes.files w.file with fnode } } :=
        fun _ => .of_setFile rfl ⟨rfl, rfl, rfl⟩ rfl rfl
      exact (hset _).trans (logFileUpdateInc_sameBooks _ w.file)

/-- Gathering the transaction moves both counters on and keeps the other books. -/
structure Gathers (s s' : BlueFS V A) : Prop where
  files : ∀ r, (s.nodes.files r).SameFlags (s'.nodes.files r)
  seqLive : s'.log.seqLive = s.log.seqLive + 1
  dirty : s'.dirty = { s.dirty with seqLive := s.log.seqLive + 1 }

theorem gather_gathers [VolumeSelector V] [Allocator A] (s : BlueFS V A) (w : FileWriter) :
    s.Gathers (s.gather w).2 ∧ ∀ t, (s.gather w).1 = .ok t → t.seq = s.log.seqLive := by
  have hsame : s.takeSeq.2.SameBooks
      ((s.takeSeq.2.consumeDirty s.takeSeq.1).maybeExtendLog w).2 :=
    (consumeDirty_sameBooks _ _).trans (maybeExtendLog_sameBooks _ _)
  have hgathers : ∀ s', s.takeSeq.2.SameBooks s' → s.Gathers s' := fun s' h =>
    ⟨h.files, h.seqLive, h.dirty⟩
  unfold gather
  simp only
  split
  · exact ⟨hgathers _ hsame, fun t ht => absurd ht (by simp)⟩
  · refine ⟨hgathers _ (hsame.trans (.of_eq rfl rfl rfl)), fun t ht => ?_⟩
    rw [← Except.ok.inj ht]
    rfl

theorem writeLog_sameBooks (s : BlueFS V A) (w : FileWriter) (t : Transaction) :
    s.SameBooks (s.writeLog w t).2 := by
  have hdata : ∀ bl, s.SameBooks (s.flushLogData w bl).2.2 := by
    intro bl
    unfold flushLogData
    simp only
    cases (s.nodes.files w.file).fnode.seek w.pos with
    | none => exact s.advance_sameBooks w _
    | some p =>
        obtain ⟨i, x⟩ := p
        obtain ⟨⟨b, hs⟩, -⟩ := s.writeExtents_eq w false
          ((s.nodes.files w.file).fnode.extents.drop i) x bl
        have hbooks : s.SameBooks { s with bdev := b } := .of_eq rfl rfl rfl
        simp only
        split
        · rw [hs]
          exact hbooks
        · rw [hs]
          exact hbooks.trans (advance_sameBooks _ _ _)
  unfold writeLog
  simp only
  split
  · exact (hdata _).trans (.of_eq rfl rfl rfl)
  · exact (hdata _).trans (.of_eq rfl rfl rfl)

/-- The files of a recorded transaction wait for none. -/
theorem recordStable_files (s : BlueFS V A) (seq : Nat) (r : FileRef) :
    (s.recordStable seq).nodes.files r =
      if r ∈ s.waiting seq then { s.nodes.files r with dirtySeq := 0 } else s.nodes.files r := by
  unfold recordStable
  generalize s.waiting seq = rs
  show ((rs.foldl (fun n r => n.setFile r { n.files r with dirtySeq := 0 }) s.nodes).files r) = _
  generalize s.nodes = n
  induction rs generalizing n with
  | nil => simp
  | cons x rs ih =>
      rw [List.foldl_cons, ih]
      by_cases hx : r = x
      · subst hx
        simp
      · simp [hx]

theorem recordStable_waiting (s : BlueFS V A) (seq k : Nat) :
    (s.recordStable seq).waiting k = if k = seq then [] else s.waiting k := by
  unfold recordStable BlueFS.waiting
  simp only [OrderedMap.lookup_erase]
  split <;> rfl

theorem signalDirtyToLog_files (s : BlueFS V A) (r x : FileRef) :
    (s.signalDirtyToLog r).nodes.files x =
      if x = r then
        { s.nodes.files r with
          isDirty := false
          dirtySeq := if (s.nodes.files r).dirtySeq ≤ s.dirty.seqStable ∨
              (s.nodes.files r).dirtySeq = 0
            then s.dirty.seqLive else (s.nodes.files r).dirtySeq }
      else s.nodes.files x := by
  unfold signalDirtyToLog
  by_cases hlate : (s.nodes.files r).dirtySeq ≤ s.dirty.seqStable ∨ (s.nodes.files r).dirtySeq = 0
  · simp only [hlate, if_true, Nodes.setFile_files]
  · simp only [hlate, if_false, Nodes.setFile_files]

theorem signalDirtyToLog_waiting (s : BlueFS V A) (r : FileRef) (seq : Nat) (x : FileRef) :
    x ∈ (s.signalDirtyToLog r).waiting seq ↔ x ∈ s.waiting seq ∨
      x = r ∧ seq = s.dirty.seqLive ∧
        ((s.nodes.files r).dirtySeq ≤ s.dirty.seqStable ∨ (s.nodes.files r).dirtySeq = 0) := by
  unfold signalDirtyToLog
  by_cases hlate : (s.nodes.files r).dirtySeq ≤ s.dirty.seqStable ∨ (s.nodes.files r).dirtySeq = 0
  · simp only [hlate, if_true, BlueFS.waiting, OrderedMap.lookup_insert, and_true]
    by_cases hseq : seq = s.dirty.seqLive
    · subst hseq
      simp
    · simp [hseq]
  · simp only [hlate, if_false, and_false, or_false]
    rfl

theorem signalDirtyToLog_dirty (s : BlueFS V A) (r : FileRef) :
    (s.signalDirtyToLog r).log = s.log ∧
      (s.signalDirtyToLog r).dirty.seqLive = s.dirty.seqLive ∧
      (s.signalDirtyToLog r).dirty.seqStable = s.dirty.seqStable ∧
      (s.signalDirtyToLog r).dirty.pendingRelease = s.dirty.pendingRelease := by
  unfold signalDirtyToLog
  simp only
  split <;> exact ⟨rfl, rfl, rfl, rfl⟩

end BlueFS

end Clab.Bluefs
