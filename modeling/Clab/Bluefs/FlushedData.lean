import Clab.Bluefs.FileData

/-!
# A flush puts the buffer in the file

A flush of a writer that stands at the end of its file appends the buffer to the
data of the file, provided that the allocator answers with the space it was asked
for. The flush of the log writes to the extents of the log only.
-/

namespace Clab.Bluefs

open Blk Common Segments

variable {V A : Type}

@[simp] theorem Nodes.setFile_setFile (n : Nodes) (r : FileRef) (f g : File) :
    (n.setFile r f).setFile r g = n.setFile r g := by
  simp [Nodes.setFile]

@[simp] theorem Nodes.setFile_self (n : Nodes) (r : FileRef) : n.setFile r (n.files r) = n := by
  simp [Nodes.setFile]

/-! ## What a flush touches -/

/-- The parts of BlueFS that a flush of file `r` may change. -/
def BlueFS.FlushOf (s s' : BlueFS V A) (r : FileRef) : Prop :=
  ∃ b a u v f, s' =
    { s with bdev := b, alloc := a, bluefsUsed := u, vselector := v, nodes := s.nodes.setFile r f } ∧
    f.deleted = (s.nodes.files r).deleted

namespace BlueFS.FlushOf

variable {s s' s'' : BlueFS V A} {r : FileRef}

theorem refl (s : BlueFS V A) (r : FileRef) : s.FlushOf s r :=
  ⟨s.bdev, s.alloc, s.bluefsUsed, s.vselector, s.nodes.files r, by rw [Nodes.setFile_self], rfl⟩

theorem trans (h : s.FlushOf s' r) (h' : s'.FlushOf s'' r) : s.FlushOf s'' r := by
  obtain ⟨b, a, u, v, f, rfl, hf⟩ := h
  obtain ⟨b', a', u', v', f', rfl, hf'⟩ := h'
  refine ⟨b', a', u', v', f', by simp, hf'.trans ?_⟩
  rw [Nodes.setFile_files, if_pos rfl]
  exact hf

theorem log (h : s.FlushOf s' r) : s'.log = s.log := by
  obtain ⟨b, a, u, v, f, rfl, -⟩ := h
  rfl

theorem dirty (h : s.FlushOf s' r) : s'.dirty = s.dirty := by
  obtain ⟨b, a, u, v, f, rfl, -⟩ := h
  rfl

theorem nextRef (h : s.FlushOf s' r) : s'.nodes.nextRef = s.nodes.nextRef := by
  obtain ⟨b, a, u, v, f, rfl, -⟩ := h
  rfl

theorem deleted (h : s.FlushOf s' r) (x : FileRef) :
    (s'.nodes.files x).deleted = (s.nodes.files x).deleted := by
  obtain ⟨b, a, u, v, f, rfl, hf⟩ := h
  simp only [Nodes.setFile_files]
  split
  case isTrue hx => rw [hx]; exact hf
  case isFalse => rfl

theorem others (h : s.FlushOf s' r) {x : FileRef} (hx : x ≠ r) :
    s'.nodes.files x = s.nodes.files x := by
  obtain ⟨b, a, u, v, f, rfl, -⟩ := h
  simp only [Nodes.setFile_files, if_neg hx]

end BlueFS.FlushOf

namespace BlueFS

theorem writeExtents_flushOf (s : BlueFS V A) (h : FileWriter) (buffered : Bool)
    (es : List Extent) (x : Nat) (bl : Bytes) (r : FileRef) :
    s.FlushOf (s.writeExtents h buffered es x bl).2.2 r := by
  obtain ⟨⟨b, hs⟩, -⟩ := s.writeExtents_eq h buffered es x bl
  rw [hs]
  exact ⟨b, s.alloc, s.bluefsUsed, s.vselector, s.nodes.files r, by rw [Nodes.setFile_self], rfl⟩

theorem advance_flushOf (s : BlueFS V A) (h : FileWriter) (length : Nat) :
    s.FlushOf (s.advance h length).2 h.file :=
  ⟨s.bdev, s.alloc, s.bluefsUsed, s.vselector, _, rfl, rfl⟩

theorem flushData_flushOf (s : BlueFS V A) (h : FileWriter) (offset length : Nat)
    (buffered : Bool) : s.FlushOf (s.flushData h offset length buffered).2.2 h.file := by
  unfold flushData
  split
  · exact .refl s _
  · simp only
    cases (s.nodes.files h.file).fnode.seek offset with
    | none => exact .refl s _
    | some p =>
        obtain ⟨i, x⟩ := p
        obtain ⟨-, d, hh⟩ := s.writeExtents_eq h buffered
          ((s.nodes.files h.file).fnode.extents.drop i) x (h.buffer.take h.bufferLength)
        have hwrite := s.writeExtents_flushOf h buffered
          ((s.nodes.files h.file).fnode.extents.drop i) x (h.buffer.take h.bufferLength) h.file
        simp only
        split
        · exact hwrite
        · refine hwrite.trans ?_
          rw [hh]
          exact advance_flushOf _ _ _

variable [VolumeSelector V]

theorem growSize_flushOf (s : BlueFS V A) (r : FileRef) (stop : Nat) :
    s.FlushOf (s.growSize r stop) r := by
  unfold growSize
  simp only
  split
  · exact ⟨s.bdev, s.alloc, s.bluefsUsed, _, _, rfl, rfl⟩
  · exact .refl s r

variable [Allocator A]

theorem growSpace_flushOf (s : BlueFS V A) (r : FileRef) (stop : Nat) :
    s.FlushOf (s.growSpace r stop).2 r := by
  unfold growSpace
  simp only
  split
  case isFalse => exact .refl s r
  case isTrue =>
    generalize VolumeSelector.selectPreferBdev s.vselector _ = prefer
    obtain ⟨a, u, heq⟩ := s.allocate_eq prefer (stop - (s.nodes.files r).fnode.allocated) 0
      (s.nodes.files r).fnode
    rw [heq]
    split
    · exact ⟨s.bdev, a, u, s.vselector, s.nodes.files r, by rw [Nodes.setFile_self], rfl⟩
    · exact ⟨s.bdev, a, u, s.vselector, _, rfl, rfl⟩

theorem flushFrom_flushOf (s : BlueFS V A) (h : FileWriter) (offset length : Nat) :
    s.FlushOf (s.flushFrom h offset length).2.2 h.file := by
  have hspace := s.growSpace_flushOf h.file (offset + length)
  unfold flushFrom
  simp only
  split
  · exact hspace
  · exact hspace.trans ((growSize_flushOf _ _ _).trans (flushData_flushOf _ _ _ _ _))

theorem flushF_flushOf (s : BlueFS V A) (h : FileWriter) (force : Bool) :
    s.FlushOf (s.flushF h force).2.2 h.file := by
  have hrange : s.FlushOf (s.flushRange h h.pos h.bufferLength).2.2 h.file := by
    unfold flushRange
    split
    · exact .refl s _
    · split
      · exact .refl s _
      · split
        · exact s.flushFrom_flushOf h _ _
        · exact s.flushFrom_flushOf h _ _
  unfold flushF
  split
  · exact .refl s _
  · split
    · exact .refl s _
    · simp only
      split <;> exact hrange

end BlueFS

/-! ## What an allocation grants -/

section Space

variable [Allocator A]

namespace BlueFS

/-- The first device of `ids` that grants space grants at least `len` bytes, when asked for
`need`. -/
def servesFrom (s : BlueFS V A) (len need unit : Nat) : List Nat → Prop
  | [] => True
  | id :: ids =>
      if s.bdev id = none ∨ (Allocator.allocate (s.alloc id) need unit 0 0).1 ≤ 0
      then servesFrom s len need unit ids
      else len ≤ total PExtent.length (Allocator.allocate (s.alloc id) need unit 0 0).2.1

instance instDecidableServesFrom (s : BlueFS V A) (len need unit : Nat) :
    (ids : List Nat) → Decidable (s.servesFrom len need unit ids)
  | [] => isTrue trivial
  | id :: ids =>
      if h : s.bdev id = none ∨ (Allocator.allocate (s.alloc id) need unit 0 0).1 ≤ 0 then
        have := instDecidableServesFrom s len need unit ids
        decidable_of_iff (s.servesFrom len need unit ids) (by rw [servesFrom, if_pos h])
      else
        decidable_of_iff (len ≤ total PExtent.length
          (Allocator.allocate (s.alloc id) need unit 0 0).2.1) (by rw [servesFrom, if_neg h])

/-- `_allocate` for `len` bytes is answered with extents of at least that length. -/
def Serves (s : BlueFS V A) (preferBdev len allocUnit : Nat) : Prop :=
  let unit :=
    if allocUnit = 0 then
      if s.allocSize preferBdev = 0 then s.cfg.allocSize else s.allocSize preferBdev
    else allocUnit
  s.servesFrom len (p2roundup len unit) unit (List.range' preferBdev (MAX_BDEV - preferBdev))

instance (s : BlueFS V A) (prefer len unit : Nat) : Decidable (s.Serves prefer len unit) :=
  instDecidableServesFrom _ _ _ _ _

/-- An allocation adds extents at the end, and enough of them where it is served. -/
theorem allocateFrom_claims (s : BlueFS V A) (len need unit : Nat) (node : Fnode) {ids : List Nat}
    (hnodup : ids.Nodup) : ∃ es, (s.allocateFrom need unit node ids).2.1 = node.claimExtents es ∧
      (0 ≤ (s.allocateFrom need unit node ids).1 → s.servesFrom len need unit ids →
        len ≤ total Extent.length es) := by
  -- the devices asked before leave the ones still to be asked as they were
  suffices hgen : ∀ t : BlueFS V A, t.bdev = s.bdev → (∀ id ∈ ids, t.alloc id = s.alloc id) →
      ∃ es, (t.allocateFrom need unit node ids).2.1 = node.claimExtents es ∧
        (0 ≤ (t.allocateFrom need unit node ids).1 → s.servesFrom len need unit ids →
          len ≤ total Extent.length es) from hgen s rfl fun _ _ => rfl
  induction ids with
  | nil => exact fun t _ _ => ⟨[], rfl, fun h => absurd h (show ¬ (0 : Int) ≤ -enospc by decide)⟩
  | cons id ids ih =>
      intro t hbdev halloc
      obtain ⟨hnew, hnodup⟩ := List.nodup_cons.mp hnodup
      have hrest : ∀ t : BlueFS V A, t.bdev = s.bdev → (∀ id ∈ ids, t.alloc id = s.alloc id) →
          (s.bdev id = none ∨ (Allocator.allocate (s.alloc id) need unit 0 0).1 ≤ 0) →
          ∃ es, (t.allocateFrom need unit node ids).2.1 = node.claimExtents es ∧
            (0 ≤ (t.allocateFrom need unit node ids).1 → s.servesFrom len need unit (id :: ids) →
              len ≤ total Extent.length es) := by
        intro t hb ha hskip
        obtain ⟨es, hnode, hlen⟩ := ih hnodup t hb ha
        refine ⟨es, hnode, fun hres hserves => hlen hres ?_⟩
        rwa [servesFrom, if_pos hskip] at hserves
      unfold allocateFrom
      rw [hbdev]
      cases hdev : s.bdev id with
      | none =>
          exact hrest t hbdev (fun x hx => halloc x (List.mem_cons_of_mem _ hx)) (.inl hdev)
      | some d =>
          rw [halloc id List.mem_cons_self]
          simp only
          split
          case isTrue hgot =>
            refine hrest _ rfl (fun x hx => ?_) (.inr hgot)
            have hne : x ≠ id := by
              rintro rfl
              exact hnew hx
            show Function.update t.alloc id _ x = s.alloc x
            rw [Function.update_of_ne hne]
            exact halloc x (List.mem_cons_of_mem _ hx)
          case isFalse hgot =>
            refine ⟨_, rfl, fun _ hserves => ?_⟩
            rw [servesFrom, if_neg (by rintro (h | h); exacts [by simp [hdev] at h, hgot h])]
              at hserves
            refine hserves.trans (le_of_eq ?_)
            rw [total, total, List.map_map]
            rfl

theorem allocate_claims (s : BlueFS V A) (prefer len unit : Nat) (node : Fnode) :
    ∃ es, (s.allocate prefer len unit node).2.1 = node.claimExtents es ∧
      (0 ≤ (s.allocate prefer len unit node).1 → s.Serves prefer len unit →
        len ≤ total Extent.length es) :=
  s.allocateFrom_claims len _ _ node List.nodup_range'

end BlueFS

end Space

theorem Fnode.claimExtents_size (f : Fnode) (es : List Extent) :
    (f.claimExtents es).size = f.size := by
  unfold Fnode.claimExtents
  induction es generalizing f with
  | nil => rfl
  | cons e es ih =>
      rw [List.foldl_cons, ih]
      unfold Fnode.appendExtent
      split
      · split <;> rfl
      · rfl

/-! ## Files that share no byte -/

section Apart

variable [Allocator A] {holds : A → Set Nat → Prop} {s : BlueFS V A} {region : Nat → Set Nat}
  {r l : FileRef}

/-- A byte has one extent of a file at most. -/
theorem Balanced.covered_le (h : Balanced holds s region) (hr : r < s.nodes.nextRef)
    (hlive : (s.nodes.files r).deleted = false) (y : Nat × Nat) :
    covered (s.nodes.files r).fnode.extents y ≤ 1 := by
  obtain ⟨pool, hledger⟩ := h
  have hone := hledger.le_one y
  have howned := Nodes.owns_le_owned hr y
  have howns : (s.nodes.files r).owns y = covered (s.nodes.files r).fnode.extents y := by
    rw [File.owns, if_neg (by rw [hlive]; simp)]
  unfold claims at hone
  omega

/-- No byte of a file is a byte of another. -/
theorem Balanced.apart (h : Balanced holds s region) (hr : r < s.nodes.nextRef)
    (hlive : (s.nodes.files r).deleted = false) (hl : l < s.nodes.nextRef)
    (hlive' : (s.nodes.files l).deleted = false) (hne : l ≠ r) {y : Nat × Nat}
    (hy : 0 < covered (s.nodes.files r).fnode.extents y) :
    covered (s.nodes.files l).fnode.extents y = 0 := by
  obtain ⟨pool, hledger⟩ := h
  have hone := hledger.le_one y
  have howns : ∀ x, (s.nodes.files x).deleted = false →
      (s.nodes.files x).owns y = covered (s.nodes.files x).fnode.extents y := by
    intro x hx
    rw [File.owns, if_neg (by rw [hx]; simp)]
  have hsum : (s.nodes.files r).owns y +
      ∑ x ∈ (Finset.range s.nodes.nextRef).erase r, (s.nodes.files x).owns y = s.nodes.owned y :=
    Finset.add_sum_erase _ (fun x => (s.nodes.files x).owns y) (Finset.mem_range.mpr hr)
  have hle : (s.nodes.files l).owns y ≤
      ∑ x ∈ (Finset.range s.nodes.nextRef).erase r, (s.nodes.files x).owns y :=
    Finset.single_le_sum (f := fun x => (s.nodes.files x).owns y) (fun _ _ => Nat.zero_le _)
      (Finset.mem_erase.mpr ⟨hne, Finset.mem_range.mpr hl⟩)
  rw [howns r hlive] at hsum
  rw [howns l hlive'] at hle
  unfold claims at hone
  omega

end Apart

/-! ## What leaves a file alone -/

/-- `s'` has file `r` and its bytes as `s` has them; the part of it that the log knows may
differ. -/
structure KeepsFile (s s' : BlueFS V A) (r : FileRef) : Prop where
  fnode : ∃ c, (s'.nodes.files r).fnode = { (s.nodes.files r).fnode with allocatedCommitted := c }
  byte : ∀ y, 0 < covered (s.nodes.files r).fnode.extents y → s'.byte y = s.byte y

namespace KeepsFile

variable {s s' s'' : BlueFS V A} {r : FileRef}

theorem extents (h : KeepsFile s s' r) :
    (s'.nodes.files r).fnode.extents = (s.nodes.files r).fnode.extents := by
  obtain ⟨c, hc⟩ := h.fnode
  rw [hc]

theorem refl (s : BlueFS V A) (r : FileRef) : KeepsFile s s r := ⟨⟨_, rfl⟩, fun _ _ => rfl⟩

theorem trans (h : KeepsFile s s' r) (h' : KeepsFile s' s'' r) : KeepsFile s s'' r := by
  refine ⟨?_, fun y hy => (h'.byte y (by rw [h.extents]; exact hy)).trans (h.byte y hy)⟩
  obtain ⟨c, hc⟩ := h.fnode
  obtain ⟨c', hc'⟩ := h'.fnode
  exact ⟨c', by rw [hc', hc]⟩

/-- Neither the devices nor the extents change. -/
theorem of_bdev (hbdev : s'.bdev = s.bdev)
    (hfnode : ∃ c, (s'.nodes.files r).fnode =
      { (s.nodes.files r).fnode with allocatedCommitted := c }) : KeepsFile s s' r :=
  ⟨hfnode, fun y _ => by rw [BlueFS.byte, hbdev]; rfl⟩

theorem of_file (hbdev : s'.bdev = s.bdev)
    (hfnode : (s'.nodes.files r).fnode = (s.nodes.files r).fnode) : KeepsFile s s' r :=
  of_bdev hbdev ⟨_, hfnode⟩

theorem size (h : KeepsFile s s' r) :
    (s'.nodes.files r).fnode.size = (s.nodes.files r).fnode.size := by
  obtain ⟨c, hc⟩ := h.fnode
  rw [hc]

theorem laid (h : KeepsFile s s' r) {data : Bytes} (hs : Laid s r data) : Laid s' r data := by
  have hbytes : ∀ i y, i < data.length → place (s'.nodes.files r).fnode.extents i = some y →
      s'.byte y = data[i]? := by
    intro i y hi hy
    rw [h.extents] at hy
    rw [h.byte y (covered_of_place hy)]
    exact hs.bytes i y hi hy
  obtain ⟨c, hc⟩ := h.fnode
  refine ⟨?_, ?_, hbytes⟩ <;> rw [hc]
  · exact ⟨hs.indexed.index, hs.indexed.allocated⟩
  · exact hs.room

end KeepsFile

namespace BlueFS

/-- The flush of the devices changes no byte that is read. -/
theorem flushBdev_byte (s : BlueFS V A) (h : FileWriter) (y : Nat × Nat) :
    (s.flushBdev h).2.byte y = s.byte y := by
  unfold BlueFS.byte flushBdev
  simp only [Option.map_map]
  congr 1
  funext d
  show (if _ then _ else _ : KernelDevice).volatile y.2 = d.volatile y.2
  split
  · unfold KernelDevice.flush
    split
    · rfl
    · cases d.fault <;> rfl
  · rfl

theorem flushBdev_keepsFile (s : BlueFS V A) (h : FileWriter) (r : FileRef) :
    KeepsFile s (s.flushBdev h).2 r := ⟨⟨_, rfl⟩, fun y _ => s.flushBdev_byte h y⟩

theorem signalDirtyToLog_keepsFile (s : BlueFS V A) (x r : FileRef) :
    KeepsFile s (s.signalDirtyToLog x) r := by
  refine .of_file ?_ ?_
  · unfold signalDirtyToLog
    simp only
    split <;> rfl
  · rw [signalDirtyToLog_files]
    split
    case isTrue hx => rw [hx]
    case isFalse => rfl

theorem logFileUpdateInc_keepsFile (s : BlueFS V A) (x r : FileRef) :
    KeepsFile s (s.logFileUpdateInc x) r := by
  refine .of_bdev rfl ?_
  show ∃ c, ((s.nodes.setFile x _).files r).fnode = _
  rw [Nodes.setFile_files]
  split
  case isTrue hx => rw [hx]; exact ⟨_, rfl⟩
  case isFalse => exact ⟨_, rfl⟩

theorem consumeDirty_keepsFile (s : BlueFS V A) (seq : Nat) (r : FileRef) :
    KeepsFile s (s.consumeDirty seq) r := by
  unfold consumeDirty
  generalize s.waiting seq = rs
  induction rs generalizing s with
  | nil => exact .refl s r
  | cons x rs ih => exact (s.logFileUpdateInc_keepsFile x r).trans (ih _)

theorem recordStable_keepsFile (s : BlueFS V A) (seq : Nat) (r : FileRef) :
    KeepsFile s (s.recordStable seq) r := by
  refine .of_file rfl ?_
  rw [recordStable_files]
  split <;> rfl

section Log

variable [VolumeSelector V] [Allocator A] {s : BlueFS V A} {w : FileWriter} {r : FileRef}

theorem maybeExtendLog_keepsFile (hne : w.file ≠ r) : KeepsFile s (s.maybeExtendLog w).2 r := by
  unfold maybeExtendLog
  simp only
  split
  case isTrue => exact .refl s r
  case isFalse =>
    generalize VolumeSelector.selectPreferBdev s.vselector _ = prefer
    generalize p2roundup _ _ = len
    obtain ⟨a, u, heq⟩ := s.allocate_eq prefer len s.cfg.allocSize (s.nodes.files w.file).fnode
    rw [heq]
    split
    · exact .of_file rfl rfl
    · have hset : ∀ fnode, KeepsFile s { s with
          alloc := a
          bluefsUsed := u
          nodes := s.nodes.setFile w.file { s.nodes.files w.file with fnode } } r :=
        fun fnode => .of_file rfl (by simp only [Nodes.setFile_files, if_neg (Ne.symm hne)])
      exact (hset _).trans (logFileUpdateInc_keepsFile _ w.file r)

theorem gather_keepsFile (hne : w.file ≠ r) : KeepsFile s (s.gather w).2 r := by
  have htake : KeepsFile s s.takeSeq.2 r := .of_file rfl rfl
  have hextend : KeepsFile s ((s.takeSeq.2.consumeDirty s.takeSeq.1).maybeExtendLog w).2 r :=
    htake.trans ((consumeDirty_keepsFile _ _ _).trans (maybeExtendLog_keepsFile hne))
  unfold gather
  simp only
  split
  · exact hextend
  · exact hextend.trans (.of_file rfl rfl)

omit [VolumeSelector V] [Allocator A] in
theorem flushLogData_keepsFile (hne : w.file ≠ r) (bl : Bytes)
    (hapart : ∀ y, 0 < covered (s.nodes.files r).fnode.extents y →
      covered (s.nodes.files w.file).fnode.extents y = 0) :
    KeepsFile s (s.flushLogData w bl).2.2 r := by
  have hadvance : ∀ (t : BlueFS V A) (v : FileWriter) (n : Nat), v.file ≠ r →
      KeepsFile t (t.advance v n).2 r := by
    intro t v n hv
    refine .of_file rfl ?_
    show ((t.nodes.setFile v.file _).files r).fnode = _
    rw [Nodes.setFile_files, if_neg (Ne.symm hv)]
  unfold flushLogData
  simp only
  cases (s.nodes.files w.file).fnode.seek w.pos with
  | none => exact hadvance s w _ hne
  | some p =>
      obtain ⟨i, x⟩ := p
      obtain ⟨⟨b, hs⟩, d, hh⟩ := s.writeExtents_eq w false
        ((s.nodes.files w.file).fnode.extents.drop i) x bl
      have hwrite : KeepsFile s (s.writeExtents w false
          ((s.nodes.files w.file).fnode.extents.drop i) x bl).2.2 r := by
        refine ⟨⟨_, by rw [hs]⟩, fun y hy => writeExtents_outside s w false _ x bl ?_⟩
        have hle := covered_drop_le (s.nodes.files w.file).fnode.extents i y
        have hzero := hapart y hy
        omega
      simp only
      split
      · exact hwrite
      · refine hwrite.trans (hadvance _ _ _ ?_)
        rw [hh]
        exact hne

omit [VolumeSelector V] [Allocator A] in
theorem flushLogData_file (s : BlueFS V A) (w : FileWriter) (bl : Bytes) :
    (s.flushLogData w bl).2.1.file = w.file := by
  unfold flushLogData
  simp only
  cases (s.nodes.files w.file).fnode.seek w.pos with
  | none => rfl
  | some p =>
      obtain ⟨-, d, hh⟩ := s.writeExtents_eq w false
        ((s.nodes.files w.file).fnode.extents.drop p.1) p.2 bl
      simp only
      split
      · rw [hh]
      · rw [hh]
        rfl

omit [VolumeSelector V] [Allocator A] in
theorem writeLog_keepsFile (hne : w.file ≠ r) (t : Transaction)
    (hapart : ∀ y, 0 < covered (s.nodes.files r).fnode.extents y →
      covered (s.nodes.files w.file).fnode.extents y = 0) :
    KeepsFile s (s.writeLog w t).2 r := by
  have hdata := flushLogData_keepsFile hne (s.logBytes t) hapart
  unfold writeLog
  simp only
  split
  · exact hdata.trans (.of_file rfl rfl)
  · exact hdata.trans ((flushBdev_keepsFile _ _ r).trans (.of_file rfl rfl))

omit [VolumeSelector V] [Allocator A] in
/-- The log keeps its file, whatever is written. -/
theorem writeLog_writer (s : BlueFS V A) (w : FileWriter) (t : Transaction) :
    ∃ w', (s.writeLog w t).2.log.writer = some w' ∧ w'.file = w.file := by
  have hfile := s.flushLogData_file w (s.logBytes t)
  unfold writeLog
  simp only
  split
  · exact ⟨_, rfl, hfile⟩
  · exact ⟨_, rfl, hfile⟩

end Log

end BlueFS

/-! ## A flush of a writer -/

section Flush

variable [VolumeSelector V] [Allocator A] {holds : A → Set Nat → Prop} {s : BlueFS V A}
  {region : Nat → Set Nat}

/-- The allocation that a flush of the writer makes, if any, is served. -/
def BlueFS.Granted (s : BlueFS V A) (h : FileWriter) : Prop :=
  let f := s.nodes.files h.file
  let stop := h.pos + h.bufferLength
  f.fnode.allocated < stop →
    s.Serves (VolumeSelector.selectPreferBdev s.vselector f.vselectorHint)
      (stop - f.fnode.allocated) 0

instance (s : BlueFS V A) (h : FileWriter) : Decidable (s.Granted h) :=
  inferInstanceAs (Decidable (_ → _))

/-- An allocation that succeeds adds extents to the file, enough of them where it is served. -/
theorem growSpace_claims (r : FileRef) (stop : Nat) (hres : 0 ≤ (s.growSpace r stop).1) :
    ∃ es, (s.growSpace r stop).2.bdev = s.bdev ∧
      ((s.growSpace r stop).2.nodes.files r).fnode = (s.nodes.files r).fnode.claimExtents es ∧
      (((s.nodes.files r).fnode.allocated < stop →
        s.Serves (VolumeSelector.selectPreferBdev s.vselector (s.nodes.files r).vselectorHint)
          (stop - (s.nodes.files r).fnode.allocated) 0) →
        stop ≤ (s.nodes.files r).fnode.allocated + total Extent.length es) := by
  unfold BlueFS.growSpace at hres ⊢
  simp only at hres ⊢
  split
  case isFalse hge => exact ⟨[], rfl, rfl, fun _ => Nat.le_of_not_lt hge⟩
  case isTrue hlt =>
    rw [if_pos hlt] at hres
    generalize VolumeSelector.selectPreferBdev s.vselector _ = prefer at hres ⊢
    obtain ⟨a, u, heq⟩ := s.allocate_eq prefer (stop - (s.nodes.files r).fnode.allocated) 0
      (s.nodes.files r).fnode
    obtain ⟨es, hnode, hlen⟩ := s.allocate_claims prefer
      (stop - (s.nodes.files r).fnode.allocated) 0 (s.nodes.files r).fnode
    rw [heq, hnode]
    split
    case isTrue hneg => rw [if_pos hneg] at hres; exact absurd hneg (not_lt.mpr hres)
    case isFalse hpos =>
      refine ⟨es, rfl, ?_, fun hserves => ?_⟩
      · simp only [Nodes.setFile_files, if_true]
      · have hlen := hlen (not_lt.mp hpos) (hserves hlt)
        omega

/-- A file that grows keeps its data and its size, and has the room it was to have. -/
theorem Laid.growSpace {r : FileRef} {data : Bytes} (h : Laid s r data) (stop : Nat)
    (hserves : (s.nodes.files r).fnode.allocated < stop →
      s.Serves (VolumeSelector.selectPreferBdev s.vselector (s.nodes.files r).vselectorHint)
        (stop - (s.nodes.files r).fnode.allocated) 0)
    (hres : 0 ≤ (s.growSpace r stop).1) :
    Laid (s.growSpace r stop).2 r data ∧
      ((s.growSpace r stop).2.nodes.files r).fnode.size = (s.nodes.files r).fnode.size ∧
      stop ≤ ((s.growSpace r stop).2.nodes.files r).fnode.allocated := by
  obtain ⟨es, hbdev, hfnode, hlen⟩ := growSpace_claims r stop hres
  have hlen := hlen hserves
  have hindexed := h.indexed.claimExtents es
  have htotal := h.indexed.allocated
  have hroom := h.room
  have hallocated : ((s.nodes.files r).fnode.claimExtents es).allocated =
      (s.nodes.files r).fnode.allocated + total Extent.length es := by
    rw [hindexed.allocated, Fnode.total_claimExtents, htotal]
  refine ⟨⟨?_, ?_, fun i y hi hy => ?_⟩, ?_, ?_⟩
  · rw [hfnode]
    exact hindexed
  · rw [hfnode]
    omega
  · rw [hfnode, Fnode.place_claimExtents, place_append es (by omega)] at hy
    rw [BlueFS.byte, hbdev]
    exact h.bytes i y hi hy
  · rw [hfnode, Fnode.claimExtents_size]
  · rw [hfnode]
    omega

omit [Allocator A] in
/-- The size is raised to `stop`, where it is below. -/
theorem growSize_eq (s : BlueFS V A) (r : FileRef) (stop : Nat) :
    ∃ v f, s.growSize r stop = { s with vselector := v, nodes := s.nodes.setFile r f } ∧
      f.fnode = { (s.nodes.files r).fnode with size := max (s.nodes.files r).fnode.size stop } := by
  unfold BlueFS.growSize
  simp only
  split
  case isTrue hlt => exact ⟨_, _, rfl, by rw [max_eq_right hlt.le]⟩
  case isFalse hge =>
    refine ⟨s.vselector, s.nodes.files r, by rw [Nodes.setFile_self], ?_⟩
    rw [max_eq_left (not_lt.mp hge)]

omit [VolumeSelector V] [Allocator A] in
/-- The buffer is written behind the data there is. -/
theorem flushData_stored {h : FileWriter} {data : Bytes} {buffered : Bool}
    (hindexed : (s.nodes.files h.file).fnode.Indexed)
    (hone : ∀ y, covered (s.nodes.files h.file).fnode.extents y ≤ 1)
    (hsize : (s.nodes.files h.file).fnode.size = data.length + h.buffer.length)
    (hroom : data.length + h.buffer.length ≤ (s.nodes.files h.file).fnode.allocated)
    (hbytes : ∀ i y, i < data.length → place (s.nodes.files h.file).fnode.extents i = some y →
      s.byte y = data[i]?)
    (hpos : h.pos = data.length) (hbuffer : 0 < h.buffer.length) (hshort : h.buffer.length < 2 ^ 32)
    (hres : 0 ≤ (s.flushData h h.pos h.buffer.length buffered).1) :
    Stored (s.flushData h h.pos h.buffer.length buffered).2.2 h.file (data ++ h.buffer) ∧
      ∃ d, (s.flushData h h.pos h.buffer.length buffered).2.1 =
        { h with pos := data.length + h.buffer.length, dirtyDevs := d } := by
  obtain ⟨n, x, e, hseek, he, hx, hflat⟩ := hindexed.seek
    (show h.pos < (s.nodes.files h.file).fnode.allocated by omega)
  have htake : h.buffer.take h.bufferLength = h.buffer := by
    rw [FileWriter.bufferLength, Nat.mod_eq_of_lt hshort, List.take_length]
  have hhead : ∀ e' ∈ ((s.nodes.files h.file).fnode.extents.drop n).head?, x ≤ e'.length := by
    intro e' he'
    rw [List.head?_drop, he] at he'
    obtain rfl := Option.some.inj he'
    exact hx.le
  have hplace : ∀ j, place ((s.nodes.files h.file).fnode.extents.drop n) (x + j) =
      place (s.nodes.files h.file).fnode.extents (data.length + j) := by
    intro j
    rw [place_drop, ← hpos, ← hflat, Nat.add_assoc]
  obtain ⟨⟨b, hs⟩, d, hh⟩ := s.writeExtents_eq h buffered
    ((s.nodes.files h.file).fnode.extents.drop n) x h.buffer
  have hwritten : 0 ≤ (s.writeExtents h buffered ((s.nodes.files h.file).fnode.extents.drop n) x
      h.buffer).1 → ∀ j y, j < h.buffer.length →
      place (s.nodes.files h.file).fnode.extents (data.length + j) = some y →
      BlueFS.byte { s with bdev := b } y = h.buffer[j]? := by
    intro hr j y hj hy
    rw [← hs]
    exact writeExtents_written s h buffered h.buffer
      (fun y => (covered_drop_le _ n y).trans (hone y)) hhead hr hj (by rw [hplace]; exact hy)
  have hkept : ∀ i y, i < data.length →
      place (s.nodes.files h.file).fnode.extents i = some y →
      BlueFS.byte { s with bdev := b } y = data[i]? := by
    intro i y hi hy
    rw [← hbytes i y hi hy, ← hs]
    refine writeExtents_elsewhere s h buffered h.buffer hhead fun j hj hj' => ?_
    -- the positions written are all behind
    rw [hplace] at hj'
    have := place_inj hone hy hj'
    omega
  unfold BlueFS.flushData at hres ⊢
  rw [if_neg (by omega)] at hres ⊢
  simp only [hseek, htake] at hres ⊢
  split
  case isTrue hneg => rw [if_pos hneg] at hres; exact absurd hneg (not_lt.mpr hres)
  case isFalse hok =>
    rw [hs, hh]
    have hmax : max (s.nodes.files h.file).fnode.size (h.pos + h.buffer.length) =
        data.length + h.buffer.length := by omega
    refine ⟨⟨?_, ?_, ?_, fun i y hi hy => ?_⟩, d, by rw [← hpos]; rfl⟩
    all_goals simp only [BlueFS.advance, Nodes.setFile_files, if_true, hmax, List.length_append] at *
    · exact ⟨hindexed.index, hindexed.allocated⟩
    · exact hroom
    · show BlueFS.byte { s with bdev := b } y = _
      rcases Nat.lt_or_ge i data.length with hold | hnew
      · rw [hkept i y hold hy, List.getElem?_append_left hold]
      · obtain ⟨j, rfl⟩ := Nat.exists_eq_add_of_le hnew
        rw [hwritten (not_lt.mp hok) j y (by omega) hy, List.getElem?_append_right hnew,
          Nat.add_sub_cancel_left]

/-- What a writer stands for: the data of its file, and the bytes still in the buffer. -/
structure Writes (s : BlueFS V A) (h : FileWriter) (data : Bytes) : Prop where
  stored : Stored s h.file data
  pos : h.pos = data.length

/-- What a writer stands for when its file may be longer than the data: the file does not
reach beyond what the buffer will fill. -/
structure Buffered (s : BlueFS V A) (h : FileWriter) (data : Bytes) : Prop where
  laid : Laid s h.file data
  pos : h.pos = data.length
  start : data.length ≤ (s.nodes.files h.file).fnode.size
  stop : (s.nodes.files h.file).fnode.size ≤ data.length + h.buffer.length

omit [VolumeSelector V] [Allocator A] in
theorem Writes.buffered {h : FileWriter} {data : Bytes} (hw : Writes s h data) :
    Buffered s h data :=
  ⟨hw.stored.laid, hw.pos, hw.stored.size.ge, by rw [hw.stored.size]; exact Nat.le_add_right _ _⟩

theorem flushFrom_stored (law : LawfulAllocator holds) (hs : Balanced holds s region)
    {h : FileWriter} {data : Bytes} (hr : h.file < s.nodes.nextRef)
    (hlive : (s.nodes.files h.file).deleted = false) (hw : Buffered s h data)
    (hbuffer : 0 < h.buffer.length) (hshort : h.buffer.length < 2 ^ 32) (hgranted : s.Granted h)
    (hres : 0 ≤ (s.flushFrom h h.pos h.buffer.length).1) :
    Stored (s.flushFrom h h.pos h.buffer.length).2.2 h.file (data ++ h.buffer) ∧
      ∃ d, (s.flushFrom h h.pos h.buffer.length).2.1 =
        { h with pos := data.length + h.buffer.length, dirtyDevs := d } := by
  have hlength : h.bufferLength = h.buffer.length := Nat.mod_eq_of_lt hshort
  have hpos := hw.pos
  obtain ⟨pool, hledger⟩ := hs
  have hbalanced := growSpace_balanced law hledger hr hlive (h.pos + h.buffer.length)
  have hflush := s.growSpace_flushOf h.file (h.pos + h.buffer.length)
  unfold BlueFS.flushFrom at hres ⊢
  simp only at hres ⊢
  split
  case isTrue hneg => rw [if_pos hneg] at hres; exact absurd hneg (not_lt.mpr hres)
  case isFalse hok =>
    rw [if_neg hok] at hres
    obtain ⟨hgrown, hsize, hroom⟩ := hw.laid.growSpace (h.pos + h.buffer.length)
      (by rw [← hlength]; exact hgranted) (not_lt.mp hok)
    have hstop := hw.stop
    generalize (s.growSpace h.file (h.pos + h.buffer.length)).2 = s₁ at *
    -- the size is raised before the data is written
    obtain ⟨v, f, heq, hf⟩ := growSize_eq s₁ h.file (h.pos + h.buffer.length)
    rw [max_eq_right (by omega)] at hf
    have hone : ∀ y, covered (s₁.nodes.files h.file).fnode.extents y ≤ 1 :=
      hbalanced.covered_le (by rw [hflush.nextRef]; exact hr) (by rw [hflush.deleted]; exact hlive)
    rw [heq] at hres ⊢
    have hfile : (s₁.nodes.setFile h.file f).files h.file = f := by
      rw [Nodes.setFile_files, if_pos rfl]
    refine flushData_stored (s := { s₁ with vselector := v, nodes := s₁.nodes.setFile h.file f })
      ?_ ?_ ?_ ?_ ?_ hpos hbuffer hshort hres
    all_goals simp only [hfile, hf, ← hpos]
    · exact ⟨hgrown.indexed.index, hgrown.indexed.allocated⟩
    · exact hone
    · exact hroom
    · exact fun i y hi hy => hgrown.bytes i y (hpos ▸ hi) hy

/-- A flush that returns 0 moves the buffer to the file, or leaves all as it is when it need not
flush. -/
theorem flushF_buffered (law : LawfulAllocator holds) (hs : Balanced holds s region)
    {h : FileWriter} {data : Bytes} (hr : h.file < s.nodes.nextRef)
    (hlive : (s.nodes.files h.file).deleted = false) (hw : Buffered s h data)
    (hshort : h.buffer.length < 2 ^ 32) {force : Bool}
    (hgranted : force = true ∨ s.cfg.minFlushSize ≤ h.buffer.length → s.Granted h)
    (hres : (s.flushF h force).1 = 0) :
    (s.flushF h force).2.1.file = h.file ∧
      (s.flushF h force).2.1.buffer.length ≤ h.buffer.length ∧
      (force = true → (s.flushF h force).2.1.buffer = []) ∧
      ∃ data', Buffered (s.flushF h force).2.2 (s.flushF h force).2.1 data' ∧
        data' ++ (s.flushF h force).2.1.buffer = data ++ h.buffer := by
  have hlength : h.bufferLength = h.buffer.length := Nat.mod_eq_of_lt hshort
  unfold BlueFS.flushF at hres ⊢
  rw [hlength] at hres ⊢
  split
  case isTrue hzero => exact ⟨rfl, le_rfl, fun _ => List.length_eq_zero_iff.mp hzero, data, hw, rfl⟩
  case isFalse hne =>
    rw [if_neg hne] at hres
    split
    case isTrue hwait =>
      refine ⟨rfl, le_rfl, fun hforce => ?_, data, hw, rfl⟩
      rw [hforce] at hwait
      exact absurd hwait.1 (by simp)
    case isFalse hflush =>
      rw [if_neg hflush] at hres
      have hasked : force = true ∨ s.cfg.minFlushSize ≤ h.buffer.length := by
        by_contra hno
        rw [not_or, not_le] at hno
        exact hflush ⟨by simpa using hno.1, hno.2⟩
      have hrange : s.flushRange h h.pos h.buffer.length = s.flushFrom h h.pos h.buffer.length := by
        unfold BlueFS.flushRange
        rw [if_neg (by rw [hlive]; simp), if_neg (by omega), if_neg (lt_irrefl _)]
      rw [hrange] at hres ⊢
      simp only at hres ⊢
      split
      case isFalse hfail => rw [if_neg hfail] at hres; exact absurd hres hfail
      case isTrue hzero =>
        obtain ⟨hstored, d, hh⟩ := flushFrom_stored law hs hr hlive hw (by omega) hshort
          (hgranted hasked) hzero.ge
        have hwrites : Writes (s.flushFrom h h.pos h.buffer.length).2.2
            { h with pos := data.length + h.buffer.length, dirtyDevs := d, buffer := [] }
            (data ++ h.buffer) :=
          ⟨hstored, by rw [List.length_append]⟩
        rw [hh]
        exact ⟨rfl, Nat.zero_le _, fun _ => rfl, data ++ h.buffer, hwrites.buffered,
          List.append_nil _⟩

end Flush

end Clab.Bluefs
