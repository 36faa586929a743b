import Clab.Bluefs.AppendRead

/-!
# A range flush and what follows

`flush_range` writes the buffer and moves the position, but the bytes stay in the
buffer and are written once more behind it. The content of the file, after any
appends and an `fsync`, shows the call unless it flushes nothing.
-/

namespace Clab.Bluefs

open Blk Common Segments

variable {V A : Type}

/-! ## How far a file reaches -/

namespace BlueFS

/-- A write that succeeds moves the writer by the length it was asked for. -/
theorem flushData_reaches (s : BlueFS V A) (h : FileWriter) (offset length : Nat) (buffered : Bool)
    (hres : 0 ≤ (s.flushData h offset length buffered).1) :
    (∃ d, (s.flushData h offset length buffered).2.1 =
      { h with pos := h.pos + length, dirtyDevs := d }) ∧
      (s.nodes.files h.file).fnode.size ≤
        ((s.flushData h offset length buffered).2.2.nodes.files h.file).fnode.size := by
  unfold flushData at hres ⊢
  split
  case isTrue hzero => exact ⟨⟨h.dirtyDevs, by rw [hzero]; rfl⟩, le_rfl⟩
  case isFalse hne =>
    rw [if_neg hne] at hres
    simp only at hres ⊢
    cases hseek : (s.nodes.files h.file).fnode.seek offset with
    | none => rw [hseek] at hres; exact absurd hres (show ¬ (0 : Int) ≤ -enoent by decide)
    | some p =>
        obtain ⟨i, x⟩ := p
        rw [hseek] at hres
        obtain ⟨⟨b, hs⟩, d, hh⟩ := s.writeExtents_eq h buffered
          ((s.nodes.files h.file).fnode.extents.drop i) x (h.buffer.take h.bufferLength)
        simp only at hres ⊢
        split
        case isTrue hneg => rw [if_pos hneg] at hres; exact absurd hneg (not_lt.mpr hres)
        case isFalse =>
          rw [hs, hh]
          refine ⟨⟨d, rfl⟩, ?_⟩
          simp only [advance, Nodes.setFile_files, if_true]
          exact le_max_left _ _

variable [VolumeSelector V] [Allocator A]

/-- A flush that succeeds leaves the file at least as long as it was, and up to the end of the
range. -/
theorem flushFrom_reaches (s : BlueFS V A) (h : FileWriter) (offset length : Nat)
    (hres : 0 ≤ (s.flushFrom h offset length).1) :
    (∃ d, (s.flushFrom h offset length).2.1 =
      { h with pos := h.pos + length, dirtyDevs := d }) ∧
      max (s.nodes.files h.file).fnode.size (offset + length) ≤
        ((s.flushFrom h offset length).2.2.nodes.files h.file).fnode.size := by
  unfold flushFrom at hres ⊢
  simp only at hres ⊢
  split
  case isTrue hneg => rw [if_pos hneg] at hres; exact absurd hneg (not_lt.mpr hres)
  case isFalse hok =>
    rw [if_neg hok] at hres
    obtain ⟨es, -, hfnode, -⟩ := growSpace_claims h.file (offset + length) (not_lt.mp hok)
    have hsize := congrArg Fnode.size hfnode
    rw [Fnode.claimExtents_size] at hsize
    generalize (s.growSpace h.file (offset + length)).2 = s₁ at hres hsize ⊢
    obtain ⟨v, f, heq, hf⟩ := growSize_eq s₁ h.file (offset + length)
    rw [heq] at hres ⊢
    obtain ⟨hwriter, hle⟩ := flushData_reaches _ h offset length s₁.cfg.bufferedIo hres
    refine ⟨hwriter, le_trans (le_of_eq ?_) hle⟩
    simp only [Nodes.setFile_files, if_true, hf]
    rw [hsize]

/-- What `_flush_range_F` flushes is the part of the range behind the position. -/
theorem flushRange_eq (s : BlueFS V A) (h : FileWriter) {offset length : Nat}
    (hlive : (s.nodes.files h.file).deleted = false) (hbehind : h.pos < offset + length) :
    s.flushRange h offset length =
      s.flushFrom h (max offset h.pos) (offset + length - max offset h.pos) := by
  unfold flushRange
  rw [if_neg (by rw [hlive]; simp), if_neg (not_le.mpr hbehind)]
  split
  case isTrue hlt =>
    rw [max_eq_right hlt.le]
    congr 1
    omega
  case isFalse hge =>
    rw [max_eq_left (not_lt.mp hge)]
    congr 1
    omega

end BlueFS

section Runs

variable [VolumeSelector V] [Allocator A] {holds : A → Set Nat → Prop}

/-- A run is the only one of its calls. -/
theorem WriterRun.unique {good : BlueFS V A → FileWriter → WriterCall → Prop}
    {s s₁ s₂ : BlueFS V A} {h h₁ h₂ : FileWriter} {cs : List WriterCall}
    (hrun : WriterRun good s h cs s₁ h₁) (hrun' : WriterRun good s h cs s₂ h₂) :
    s₁ = s₂ ∧ h₁ = h₂ := by
  induction hrun with
  | nil => cases hrun'; exact ⟨rfl, rfl⟩
  | cons _ hcall _ ih =>
      cases hrun' with
      | cons _ hcall' hrest' =>
          rw [hcall] at hcall'
          obtain ⟨-, heq⟩ := Prod.mk.inj (Option.some.inj hcall')
          obtain ⟨rfl, rfl⟩ := Prod.mk.inj heq
          exact ih hrest'

/-- A flush that returns 0 leaves all as it is, or the buffer is in the file. -/
theorem flushF_reaches {s s' : BlueFS V A} {h h' : FileWriter} {force : Bool}
    (hlive : (s.nodes.files h.file).deleted = false) (hshort : h.buffer.length < 2 ^ 32)
    (hcall : s.flushF h force = (0, h', s')) :
    (h' = h ∧ s' = s ∧ (force = true → h.buffer = [])) ∨
      (h'.file = h.file ∧ h'.buffer = [] ∧
        max (s.nodes.files h.file).fnode.size (h.pos + h.buffer.length) ≤
          (s'.nodes.files h.file).fnode.size) := by
  have hlength : h.bufferLength = h.buffer.length := Nat.mod_eq_of_lt hshort
  unfold BlueFS.flushF at hcall
  rw [hlength] at hcall
  split at hcall
  case isTrue hzero =>
    obtain ⟨-, hcall⟩ := Prod.mk.inj hcall
    obtain ⟨rfl, rfl⟩ := Prod.mk.inj hcall
    exact .inl ⟨rfl, rfl, fun _ => List.length_eq_zero_iff.mp hzero⟩
  case isFalse hne =>
    split at hcall
    case isTrue hwait =>
      obtain ⟨-, hcall⟩ := Prod.mk.inj hcall
      obtain ⟨rfl, rfl⟩ := Prod.mk.inj hcall
      refine .inl ⟨rfl, rfl, fun hforce => ?_⟩
      rw [hforce] at hwait
      exact absurd hwait.1 (by simp)
    case isFalse =>
      rw [BlueFS.flushRange_eq s h hlive (by omega), max_self, Nat.add_sub_cancel_left] at hcall
      have hreaches := BlueFS.flushFrom_reaches s h h.pos h.buffer.length
      generalize s.flushFrom h h.pos h.buffer.length = flushed at hcall hreaches
      obtain ⟨res, h₂, s₂⟩ := flushed
      simp only at hcall hreaches
      split at hcall
      case isTrue hzero =>
        obtain ⟨-, hcall⟩ := Prod.mk.inj hcall
        obtain ⟨rfl, rfl⟩ := Prod.mk.inj hcall
        obtain ⟨⟨d, rfl⟩, hle⟩ := hreaches hzero.ge
        exact .inr ⟨rfl, rfl, hle⟩
      case isFalse hres =>
        obtain ⟨hzero, -⟩ := Prod.mk.inj hcall
        exact absurd hzero hres

/-- An `fsync` that succeeds leaves the file at least as long as it was, and up to the end of
the buffer. -/
theorem fsync_reaches (law : LawfulAllocator holds) {s s' : BlueFS V A} {h h' : FileWriter}
    (hready : Ready holds s h.file) (hshort : h.buffer.length < 2 ^ 32)
    (hsync : s.fsync h = some (0, h', s')) :
    (s.nodes.files h.file).fnode.size ≤ (s'.nodes.files h.file).fnode.size ∧
      (0 < h.buffer.length →
        h.pos + h.buffer.length ≤ (s'.nodes.files h.file).fnode.size) := by
  obtain ⟨h₁, s₁, hflush, -, -, hkept⟩ := fsync_flushes law hready hsync
  rw [hkept.size]
  rcases flushF_reaches hready.live hshort hflush with ⟨-, rfl, hempty⟩ | ⟨-, -, hle⟩
  · refine ⟨le_rfl, fun hpos => ?_⟩
    rw [hempty rfl] at hpos
    exact absurd hpos (Nat.lt_irrefl 0)
  · exact ⟨(le_max_left _ _).trans hle, fun _ => (le_max_right _ _).trans hle⟩

theorem fsync_run {s s' : BlueFS V A} {h h' : FileWriter}
    (hrun : WriterRun WriterCall.Served s h [.fsync] s' h') : s.fsync h = some (0, h', s') := by
  cases hrun with
  | cons _ hcall hrest =>
      cases hrest
      exact hcall

/-! ## The call and its continuations -/

/-- Every continuation by appends, flushes and a last `fsync` that goes through from `(h, s)` and
from `(h₁, s₁)` leaves the same content of the file. -/
def SameAfter (s : BlueFS V A) (h : FileWriter) (s₁ : BlueFS V A) (h₁ : FileWriter) : Prop :=
  ∀ cs s' h' s₁' h₁', WriterRun WriterCall.Served s h (cs ++ [.fsync]) s' h' →
    WriterRun WriterCall.Served s₁ h₁ (cs ++ [.fsync]) s₁' h₁' →
    s₁'.content h.file = s'.content h.file

theorem SameAfter.refl (s : BlueFS V A) (h : FileWriter) : SameAfter s h s h := by
  intro cs s' h' s₁' h₁' hrun hrun₁
  obtain ⟨rfl, -⟩ := hrun.unique hrun₁
  rfl

/-- Two writers of the same bytes stay so. -/
theorem Writing.sameAfter (law : LawfulAllocator holds) {s s₁ : BlueFS V A} {h h₁ : FileWriter}
    {all : Bytes} (hall : Writing holds s h all) (hall₁ : Writing holds s₁ h₁ all)
    (hfile : h₁.file = h.file) : SameAfter s h s₁ h₁ := by
  intro cs s' h' s₁' h₁' hrun hrun₁
  rw [(hall.synced law hrun).content, ← hfile, (hall₁.synced law hrun₁).content]

variable {s : BlueFS V A} {h : FileWriter}

theorem Ready.flushFrom (law : LawfulAllocator holds) (hready : Ready holds s h.file)
    (offset length : Nat) : Ready holds (s.flushFrom h offset length).2.2 h.file := by
  obtain ⟨region, hbalanced⟩ := hready.balanced
  exact hready.heap (.of_flush (s.flushFrom_flushOf h offset length))
    ⟨region, flushFrom_balanced law hbalanced hready.made hready.live offset length⟩

/-- An allocation that is refused changes neither a file nor a device. -/
theorem growSpace_refused {r : FileRef} {stop : Nat} (hrefused : (s.growSpace r stop).1 < 0) :
    (s.growSpace r stop).2.bdev = s.bdev ∧ (s.growSpace r stop).2.nodes = s.nodes := by
  unfold BlueFS.growSpace at hrefused ⊢
  simp only at hrefused ⊢
  split
  case isFalse hge => rw [if_neg hge] at hrefused; exact absurd hrefused (lt_irrefl _)
  case isTrue hlt =>
    rw [if_pos hlt] at hrefused
    generalize VolumeSelector.selectPreferBdev s.vselector _ = prefer at hrefused ⊢
    obtain ⟨a, u, heq⟩ := s.allocate_eq prefer (stop - (s.nodes.files r).fnode.allocated) 0
      (s.nodes.files r).fnode
    split
    case isTrue => rw [heq]; exact ⟨rfl, rfl⟩
    case isFalse hpos => rw [if_neg hpos] at hrefused; exact absurd hrefused (lt_irrefl _)

/-- A flush whose allocation is refused changes nothing that the writer stands for. -/
theorem Writing.flushFrom_refused (law : LawfulAllocator holds) {all : Bytes}
    (hall : Writing holds s h all) {offset length : Nat}
    (hrefused : (s.growSpace h.file (offset + length)).1 < 0) :
    (s.flushFrom h offset length).2.1 = h ∧ Writing holds (s.flushFrom h offset length).2.2 h all := by
  have hready := hall.ready.flushFrom law offset length
  obtain ⟨hbdev, hnodes⟩ := growSpace_refused hrefused
  unfold BlueFS.flushFrom at hready ⊢
  simp only [if_pos hrefused] at hready ⊢
  obtain ⟨data, hw, hdata⟩ := hall.buffered
  have hkept : KeepsFile s (s.growSpace h.file (offset + length)).2 h.file :=
    .of_file hbdev (by rw [hnodes])
  refine ⟨trivial, hready, hall.short, data, ⟨hkept.laid hw.laid, hw.pos, ?_, ?_⟩, hdata⟩
  · rw [hkept.size]
    exact hw.start
  · rw [hkept.size]
    exact hw.stop

/-- An empty range makes the file longer and writes nothing; that stays unseen as long as the
buffer reaches as far. -/
theorem Writing.flushFrom_empty (law : LawfulAllocator holds) {all : Bytes}
    (hall : Writing holds s h all) {offset : Nat} (hwithin : offset ≤ h.pos + h.buffer.length)
    (hserves : (s.nodes.files h.file).fnode.allocated < offset →
      s.Serves (VolumeSelector.selectPreferBdev s.vselector (s.nodes.files h.file).vselectorHint)
        (offset - (s.nodes.files h.file).fnode.allocated) 0)
    (hgranted : 0 ≤ (s.growSpace h.file offset).1) :
    (s.flushFrom h offset 0).2.1 = h ∧ Writing holds (s.flushFrom h offset 0).2.2 h all := by
  have hready := hall.ready.flushFrom law offset 0
  obtain ⟨data, hw, hdata⟩ := hall.buffered
  obtain ⟨hgrown, hsize, -⟩ := hw.laid.growSpace offset hserves hgranted
  have hpos := hw.pos
  have hstart := hw.start
  have hstop := hw.stop
  unfold BlueFS.flushFrom at hready ⊢
  rw [Nat.add_zero] at hready ⊢
  simp only [if_neg (not_lt.mpr hgranted)] at hready ⊢
  generalize (s.growSpace h.file offset).2 = s₁ at *
  obtain ⟨v, f, heq, hf⟩ := growSize_eq s₁ h.file offset
  rw [BlueFS.flushData, if_pos rfl, heq] at hready ⊢
  have hfile : (s₁.nodes.setFile h.file f).files h.file = f := by
    rw [Nodes.setFile_files, if_pos rfl]
  refine ⟨rfl, hready, hall.short, data, ⟨⟨?_, ?_, ?_⟩, hpos, ?_, ?_⟩, hdata⟩
  all_goals simp only [hfile, hf]
  · exact ⟨hgrown.indexed.index, hgrown.indexed.allocated⟩
  · exact hgrown.room
  · exact hgrown.bytes
  · omega
  · omega

end Runs

/-! ## A page in the buffer -/

/-- The new file `a` where flushes wait for half a megabyte. -/
def lazyFile : BlueFS OriginalVolumeSelector FreeList :=
  { (newFile manyPages).2 with cfg := { (newFile manyPages).2.cfg with minFlushSize := 524288 } }

/-- The writer of `a` with a page in its buffer. -/
def pageWriter : FileWriter := (newFile manyPages).1.append (List.replicate 4096 7)

theorem pageWriter_writing :
    Writing FreeList.Holds lazyFile pageWriter (List.replicate 4096 7) := by
  obtain ⟨region, hbalanced⟩ := page_balanced 32768 (show 20480 ≤ 524288 by decide)
  have hnew := openForWrite_appended hbalanced (listFs_log _) rfl (newFile_opened manyPages)
  obtain ⟨hready, hshort, data, hw, hdata⟩ := hnew.writing.append
    (show (newFile manyPages).1.buffer.length + (List.replicate 4096 (7 : UInt8)).length < 2 ^ 32 by
      rw [List.length_replicate]; decide)
  obtain ⟨region, hbalanced⟩ := hready.balanced
  have hsame : SameSpace (newFile manyPages).2 lazyFile := ⟨rfl, rfl, rfl, fun _ => rfl, fun _ => rfl⟩
  exact ⟨hready.heap (.of_space hsame rfl) ⟨region, hsame.balanced hbalanced⟩, hshort, data,
    ⟨⟨hw.laid.indexed, hw.laid.room, hw.laid.bytes⟩, hw.pos, hw.start, hw.stop⟩, hdata⟩

/-- The size of the file once its writer is synced. -/
def sizeSynced (s : BlueFS OriginalVolumeSelector FreeList) (h : FileWriter) : Option Nat :=
  (runCalls WriterCall.Served s h [.fsync]).map fun p => (p.2.nodes.files h.file).fnode.size

theorem sizeSynced_run {s : BlueFS OriginalVolumeSelector FreeList} {h : FileWriter} {size : Nat}
    (hsize : sizeSynced s h = some size) :
    ∃ s' h', WriterRun WriterCall.Served s h [.fsync] s' h' ∧
      (s'.nodes.files h.file).fnode.size = size := by
  obtain ⟨⟨h', s'⟩, hrun, hsize⟩ := Option.map_eq_some_iff.mp hsize
  exact ⟨s', h', runCalls_run hrun, hsize⟩

end Clab.Bluefs
