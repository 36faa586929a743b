import Clab.Bluefs.Replay
import Clab.Bluefs.RocksDBVolumeSelector
import Clab.Bluefs.Sections

/-!
# What the files of the inode table occupy

`Tracked` says that the inode table holds the files that have a name or a level,
each under its number, and that every counter of the selector is the total over
them. A call that works on one file keeps it when it tells the selector what the
file counts for more or less.
-/

namespace Clab.Bluefs

open Blk Common Segments

/-! ## Totals over the inode table -/

/-- What a file counts for. -/
def File.weight (f : File) (c : Counter) : Nat := c.weight f.vselectorHint f.fnode

namespace Nodes

/-- The total over the files of the inode table. -/
def overFiles (n : Nodes) (w : File → Nat) : Nat := n.fileMap.sum fun _ r => w (n.files r)

/-- What a counter should be. -/
def usage (n : Nodes) (c : Counter) : Nat := n.overFiles fun f => f.weight c

/-- The file is in the inode table. -/
def Present (n : Nodes) (r : FileRef) : Prop := n.fileMap.lookup (n.files r).fnode.ino = some r

instance (n : Nodes) (r : FileRef) : Decidable (n.Present r) := by
  unfold Present
  infer_instance

end Nodes

/-- The inode table, the names and the levels of the files agree. -/
structure Filed (n : Nodes) : Prop where
  key : ∀ ino r, n.fileMap.lookup ino = some r → (n.files r).fnode.ino = ino
  made : ∀ ino r, n.fileMap.lookup ino = some r → r < n.nextRef
  numbered : ∀ ino r, n.fileMap.lookup ino = some r → ino ≤ n.inoLast
  started : 1 ≤ n.inoLast
  named : ∀ r, 0 < n.links r → n.Present r
  linked : ∀ r, (n.links r : Int) ≤ (n.files r).refs
  placed : ∀ r, (n.files r).vselectorHint ≠ 0 → (n.files r).deleted = false → n.Present r
  level : ∀ r, (n.files r).vselectorHint < RDB_LEVEL_MAX
  devices : ∀ r, (n.files r).vselectorHint ≠ 0 → OnDevices (n.files r).fnode.extents

namespace Filed

variable {n : Nodes}

theorem present (h : Filed n) {ino : Nat} {r : FileRef} (hr : n.fileMap.lookup ino = some r) :
    n.Present r := by
  unfold Nodes.Present
  rw [h.key ino r hr]
  exact hr

/-- The files in the table have different numbers. -/
theorem ino_inj (_ : Filed n) {r r' : FileRef} (hr : n.Present r) (hr' : n.Present r')
    (hino : (n.files r).fnode.ino = (n.files r').fnode.ino) : r = r' := by
  unfold Nodes.Present at hr hr'
  rw [hino, hr'] at hr
  exact (Option.some.inj hr).symm

theorem unlinked (h : Filed n) {r : FileRef} (hr : ¬ n.Present r) : n.links r = 0 := by
  by_contra hne
  exact hr (h.named r (Nat.pos_of_ne_zero hne))

theorem not_present_fresh (h : Filed n) : ¬ n.Present n.nextRef :=
  fun hr => lt_irrefl _ (h.made _ _ hr)

/-- A file that changes takes its part of the total with it. -/
theorem overFiles_of_others (h : Filed n) {n' : Nodes} {r : FileRef} (hr : n.Present r)
    (hmap : n'.fileMap = n.fileMap) {w : File → Nat}
    (hothers : ∀ x, x ≠ r → w (n'.files x) = w (n.files x)) :
    n'.overFiles w + w (n.files r) = n.overFiles w + w (n'.files r) := by
  have hrest : (n.fileMap.erase (n.files r).fnode.ino).sum (fun _ x => w (n'.files x)) =
      (n.fileMap.erase (n.files r).fnode.ino).sum fun _ x => w (n.files x) := by
    refine OrderedMap.sum_congr fun ino x hx => hothers x ?_
    rintro rfl
    rw [OrderedMap.lookup_erase] at hx
    split at hx
    case isTrue => exact absurd hx (by simp)
    case isFalse hne => exact hne (h.key ino x hx).symm
  have hold := n.fileMap.sum_erase (fun _ x => w (n.files x)) (n.files r).fnode.ino
  have hnew := n.fileMap.sum_erase (fun _ x => w (n'.files x)) (n.files r).fnode.ino
  have hlookup : n.fileMap.lookup (n.files r).fnode.ino = some r := hr
  simp only [OrderedMap.weight, hlookup, Option.map_some, Option.getD_some] at hold hnew
  unfold Nodes.overFiles
  rw [hmap]
  omega

/-- A file outside of the table is no part of the total. -/
theorem overFiles_of_absent (h : Filed n) {n' : Nodes} {r : FileRef} (hr : ¬ n.Present r)
    (hmap : n'.fileMap = n.fileMap) {w : File → Nat}
    (hothers : ∀ x, x ≠ r → w (n'.files x) = w (n.files x)) :
    n'.overFiles w = n.overFiles w := by
  unfold Nodes.overFiles
  rw [hmap]
  refine OrderedMap.sum_congr fun ino x hx => hothers x ?_
  rintro rfl
  exact hr (h.present hx)

end Filed

/-- A file with the names and the level of another. -/
structure File.Same (f f' : File) : Prop where
  ino : f'.fnode.ino = f.fnode.ino
  refs : f'.refs = f.refs
  deleted : f'.deleted = f.deleted
  hint : f'.vselectorHint = f.vselectorHint

theorem File.Same.refl (f : File) : f.Same f := ⟨rfl, rfl, rfl, rfl⟩

/-- A file with the size and the extents of another. -/
structure File.SameData (f f' : File) : Prop where
  size : f'.fnode.size = f.fnode.size
  extents : f'.fnode.extents = f.fnode.extents

theorem File.SameData.refl (f : File) : f.SameData f := ⟨rfl, rfl⟩

theorem File.SameData.weight {f f' : File} (h : f.SameData f')
    (hhint : f'.vselectorHint = f.vselectorHint) (c : Counter) : f'.weight c = f.weight c := by
  unfold File.weight Counter.weight
  rw [hhint, h.size, h.extents]

/-- The same table and files, and no new names. -/
structure SameFiling (n n' : Nodes) : Prop where
  fileMap : n'.fileMap = n.fileMap
  inoLast : n'.inoLast = n.inoLast
  nextRef : n'.nextRef = n.nextRef
  links : ∀ r, n'.links r ≤ n.links r
  linked : ∀ r, (n.links r : Int) ≤ (n.files r).refs → (n'.links r : Int) ≤ (n'.files r).refs
  ino : ∀ r, (n'.files r).fnode.ino = (n.files r).fnode.ino
  deleted : ∀ r, (n'.files r).deleted = (n.files r).deleted
  hint : ∀ r, (n'.files r).vselectorHint = (n.files r).vselectorHint

namespace SameFiling

variable {n n' n'' : Nodes}

theorem refl (n : Nodes) : SameFiling n n :=
  ⟨rfl, rfl, rfl, fun _ => le_rfl, fun _ h => h, fun _ => rfl, fun _ => rfl, fun _ => rfl⟩

theorem of_files (hmap : n'.fileMap = n.fileMap) (hlast : n'.inoLast = n.inoLast)
    (hnext : n'.nextRef = n.nextRef) (hlinks : ∀ r, n'.links r ≤ n.links r)
    (hfile : ∀ r, (n.files r).Same (n'.files r)) : SameFiling n n' := by
  refine ⟨hmap, hlast, hnext, hlinks, fun r hlinked => ?_, fun r => (hfile r).ino,
    fun r => (hfile r).deleted, fun r => (hfile r).hint⟩
  have hle := hlinks r
  rw [(hfile r).refs]
  omega

theorem present (h : SameFiling n n') (r : FileRef) : n'.Present r ↔ n.Present r := by
  unfold Nodes.Present
  rw [h.fileMap, h.ino r]

theorem filed (h : SameFiling n n') (hn : Filed n)
    (hdevices : ∀ r, (n.files r).vselectorHint ≠ 0 → OnDevices (n'.files r).fnode.extents) :
    Filed n' := by
  constructor
  case key => intro ino r hr; rw [h.ino r]; exact hn.key ino r (by rw [← h.fileMap]; exact hr)
  case made => intro ino r hr; rw [h.nextRef]; exact hn.made ino r (by rw [← h.fileMap]; exact hr)
  case numbered =>
    intro ino r hr
    rw [h.inoLast]
    exact hn.numbered ino r (by rw [← h.fileMap]; exact hr)
  case started => rw [h.inoLast]; exact hn.started
  case named =>
    intro r hr
    exact (h.present r).mpr (hn.named r (lt_of_lt_of_le hr (h.links r)))
  case linked => exact fun r => h.linked r (hn.linked r)
  case placed =>
    intro r hhint hdeleted
    rw [h.hint r] at hhint
    rw [h.deleted r] at hdeleted
    exact (h.present r).mpr (hn.placed r hhint hdeleted)
  case level => intro r; rw [h.hint r]; exact hn.level r
  case devices => intro r hhint; rw [h.hint r] at hhint; exact hdevices r hhint

/-- A file written back with its names and its level. -/
theorem setFile (n : Nodes) {r : FileRef} {f : File} (h : (n.files r).Same f) :
    SameFiling n (n.setFile r f) := by
  refine .of_files rfl rfl rfl (fun _ => le_rfl) fun x => ?_
  rw [Nodes.setFile_files]
  split
  case isTrue hx => rw [hx]; exact h
  case isFalse => exact .refl _

end SameFiling

theorem Nodes.setFile_others (n : Nodes) {r x : FileRef} (f : File) (hx : x ≠ r) :
    (n.files x).SameData ((n.setFile r f).files x) := by
  rw [Nodes.setFile_files, if_neg hx]
  exact .refl _

/-! ## A call that works on one file -/

variable {A : Type}

/-- Every counter is the total over the inode table, in 64 bits. -/
def Counted (s : BlueFS RocksDBBlueFSVolumeSelector A) : Prop :=
  ∀ c, s.vselector.value c = UInt64.ofNat (s.nodes.usage c)

/-- The files are where they should be, and counted. -/
structure Tracked (s : BlueFS RocksDBBlueFSVolumeSelector A) : Prop where
  filed : Filed s.nodes
  counted : Counted s

/-- A step that changes the data of one file, and counts that when the file is in the table. -/
structure Moves (s s' : BlueFS RocksDBBlueFSVolumeSelector A) (r : FileRef) : Prop where
  filing : SameFiling s.nodes s'.nodes
  others : ∀ x, x ≠ r → (s.nodes.files x).SameData (s'.nodes.files x)
  devices : (s.nodes.files r).vselectorHint ≠ 0 → OnDevices (s'.nodes.files r).fnode.extents
  counts : s.nodes.Present r → ∀ c,
    s'.vselector.value c + UInt64.ofNat ((s.nodes.files r).weight c) =
      s.vselector.value c + UInt64.ofNat ((s'.nodes.files r).weight c)
  absent : ¬ s.nodes.Present r → ∀ c, s'.vselector.value c = s.vselector.value c

namespace Moves

variable {s s' s'' : BlueFS RocksDBBlueFSVolumeSelector A} {r : FileRef}

theorem tracked (h : Moves s s' r) (hs : Tracked s) : Tracked s' := by
  have hweight : ∀ c x, x ≠ r → (s'.nodes.files x).weight c = (s.nodes.files x).weight c :=
    fun c x hx => (h.others x hx).weight (h.filing.hint x) c
  constructor
  case filed =>
    refine h.filing.filed hs.filed fun x hhint => ?_
    by_cases hx : x = r
    · rw [hx] at hhint ⊢
      exact h.devices hhint
    · rw [(h.others x hx).extents]
      exact hs.filed.devices x hhint
  case counted =>
    intro c
    by_cases hr : s.nodes.Present r
    · have htotal := hs.filed.overFiles_of_others (w := fun f => f.weight c) hr h.filing.fileMap
        (hweight c)
      have hvalue := h.counts hr c
      rw [hs.counted c, ← UInt64.ofNat_add] at hvalue
      unfold Nodes.usage at hvalue ⊢
      rw [← htotal, UInt64.ofNat_add] at hvalue
      exact (UInt64.add_left_inj _).mp hvalue
    · rw [h.absent hr, hs.counted c]
      exact congrArg UInt64.ofNat (hs.filed.overFiles_of_absent (w := fun f => f.weight c) hr
        h.filing.fileMap (hweight c)).symm

/-- A file without a level is not counted. -/
theorem of_unleveled (hfiling : SameFiling s.nodes s'.nodes)
    (hothers : ∀ x, x ≠ r → (s.nodes.files x).SameData (s'.nodes.files x))
    (hhint : (s.nodes.files r).vselectorHint = 0)
    (hvalue : ∀ c, s'.vselector.value c = s.vselector.value c) : Moves s s' r := by
  have hhint' : (s'.nodes.files r).vselectorHint = 0 := (hfiling.hint r).trans hhint
  refine ⟨hfiling, hothers, fun hne => absurd hhint hne, fun _ c => ?_, fun _ c => hvalue c⟩
  rw [hvalue c, File.weight, File.weight, hhint, hhint', Counter.weight_zero, Counter.weight_zero]

end Moves

/-- A step that changes the data of no file. -/
structure Quiet (s s' : BlueFS RocksDBBlueFSVolumeSelector A) : Prop where
  filing : SameFiling s.nodes s'.nodes
  data : ∀ x, (s.nodes.files x).SameData (s'.nodes.files x)
  vselector : s'.vselector = s.vselector

namespace Quiet

variable {s s' s'' : BlueFS RocksDBBlueFSVolumeSelector A}

theorem refl (s : BlueFS RocksDBBlueFSVolumeSelector A) : Quiet s s :=
  ⟨.refl _, fun _ => .refl _, rfl⟩

theorem of_nodes (hnodes : s'.nodes = s.nodes) (hvselector : s'.vselector = s.vselector) :
    Quiet s s' := by
  refine ⟨?_, fun x => ?_, hvselector⟩
  · rw [hnodes]
    exact .refl _
  · rw [hnodes]
    exact .refl _

/-- A file written back with its names, its level and its data. -/
theorem of_setFile {r : FileRef} {f : File} (hnodes : s'.nodes = s.nodes.setFile r f)
    (hsame : (s.nodes.files r).Same f) (hdata : (s.nodes.files r).SameData f)
    (hvselector : s'.vselector = s.vselector) : Quiet s s' := by
  refine ⟨?_, fun x => ?_, hvselector⟩
  · rw [hnodes]
    exact .setFile s.nodes hsame
  · rw [hnodes, Nodes.setFile_files]
    split
    case isTrue hx => rw [hx]; exact hdata
    case isFalse => exact .refl _

theorem moves (h : Quiet s s') (hs : Filed s.nodes) (r : FileRef) : Moves s s' r := by
  constructor
  case filing => exact h.filing
  case others => exact fun x _ => h.data x
  case devices =>
    intro hhint
    rw [(h.data r).extents]
    exact hs.devices r hhint
  case counts =>
    intro _ c
    rw [h.vselector, (h.data r).weight (h.filing.hint r) c]
  case absent => exact fun _ c => by rw [h.vselector]

theorem tracked (h : Quiet s s') (hs : Tracked s) : Tracked s' :=
  (h.moves hs.filed 0).tracked hs

end Quiet

namespace Tracked

variable {s s' : BlueFS RocksDBBlueFSVolumeSelector A} {r : FileRef} {f : File}

theorem of_nodes (hs : Tracked s) (hnodes : s'.nodes = s.nodes)
    (hvselector : s'.vselector = s.vselector) : Tracked s' :=
  (Quiet.of_nodes hnodes hvselector).tracked hs

theorem setFile (hs : Tracked s) (hnodes : s'.nodes = s.nodes.setFile r f)
    (hsame : (s.nodes.files r).Same f) (hdata : (s.nodes.files r).SameData f)
    (hvselector : s'.vselector = s.vselector) : Tracked s' :=
  (Quiet.of_setFile hnodes hsame hdata hvselector).tracked hs

/-- A file without a level written back with other data. -/
theorem setFile_unleveled (hs : Tracked s) (hnodes : s'.nodes = s.nodes.setFile r f)
    (hhint : (s.nodes.files r).vselectorHint = 0) (hsame : (s.nodes.files r).Same f)
    (hvalue : ∀ c, s'.vselector.value c = s.vselector.value c) : Tracked s' := by
  refine (Moves.of_unleveled (r := r) ?_ (fun x hx => ?_) hhint hvalue).tracked hs
  · rw [hnodes]
    exact .setFile s.nodes hsame
  · rw [hnodes]
    exact s.nodes.setFile_others _ hx

end Tracked

/-! ## Data -/

section Data

variable {s : BlueFS RocksDBBlueFSVolumeSelector A}

/-- A file that grows counts for the growth. -/
theorem Counter.weight_grow (hint : Nat) {fnode : Fnode} {stop : Nat} (h : fnode.size ≤ stop)
    (c : Counter) : c.weight hint { fnode with size := stop } =
      c.weight hint fnode + c.ofFile hint (stop - fnode.size) 0 := by
  have hsize : c.ofFile hint stop 1 =
      c.ofFile hint fnode.size 1 + c.ofFile hint (stop - fnode.size) 0 := by
    cases c with
    | extents dev level => rfl
    | device dev => rfl
    | size level =>
        simp only [ofFile]
        split_ifs
        · omega
        · rfl
    | files level => simp [ofFile]
    | allFiles => simp [ofFile]
  unfold weight
  rw [Nat.add_assoc]
  exact congrArg _ hsize

/-- The growth of a file that the table holds, or of one without a level. -/
theorem growSize_tracked (hs : Tracked s) {r : FileRef}
    (hr : (s.nodes.files r).vselectorHint = 0 ∨ s.nodes.Present r) (stop : Nat) :
    Tracked (s.growSize r stop) := by
  unfold BlueFS.growSize
  simp only
  split
  case isFalse => exact hs
  case isTrue hlt =>
    have hfiling : SameFiling s.nodes (s.nodes.setFile r { s.nodes.files r with
        fnode := { (s.nodes.files r).fnode with size := stop }
        isDirty := true }) := .setFile s.nodes ⟨rfl, rfl, rfl, rfl⟩
    by_cases hhint : (s.nodes.files r).vselectorHint = 0
    · refine (Moves.of_unleveled hfiling (fun x hx => s.nodes.setFile_others _ hx) hhint
        fun c => ?_).tracked hs
      rw [if_neg (not_not_intro hhint)]
    · have hpresent := hr.resolve_left hhint
      refine Moves.tracked (r := r) ⟨hfiling, fun x hx => s.nodes.setFile_others _ hx,
        fun hne => ?_, fun _ c => ?_, fun habsent => absurd hpresent habsent⟩ hs
      · simp only [Nodes.setFile_files, if_true]
        exact hs.filed.devices r hne
      · simp only [Nodes.setFile_files, if_true, if_pos hhint]
        have hgrow := Counter.weight_grow (s.nodes.files r).vselectorHint hlt.le c
        have hadd := RocksDBBlueFSVolumeSelector.value_addSize (v := s.vselector)
          (hs.filed.level r) (stop - (s.nodes.files r).fnode.size) c
        unfold File.weight
        rw [hgrow, UInt64.ofNat_add]
        show (s.vselector.addSize _ _ false).value c + _ = _
        rw [hadd, UInt64.add_assoc]
        exact congrArg _ (UInt64.add_comm _ _)

/-- The end of a write that is within the size, or in a file without a level. -/
theorem advance_tracked (hs : Tracked s) (h : FileWriter) {length : Nat}
    (hsize : (s.nodes.files h.file).vselectorHint = 0 ∨
      h.pos + length ≤ (s.nodes.files h.file).fnode.size) : Tracked (s.advance h length).2 := by
  unfold BlueFS.advance
  rcases hsize with hhint | hsize
  · exact hs.setFile_unleveled rfl hhint ⟨rfl, rfl, rfl, rfl⟩ fun _ => rfl
  · exact hs.setFile rfl ⟨rfl, rfl, rfl, rfl⟩ ⟨max_eq_left hsize, rfl⟩ rfl

theorem writeExtents_quiet (s : BlueFS RocksDBBlueFSVolumeSelector A) (h : FileWriter)
    (buffered : Bool) (es : List Extent) (x : Nat) (bl : Bytes) :
    Quiet s (s.writeExtents h buffered es x bl).2.2 := by
  obtain ⟨⟨b, hs⟩, -⟩ := s.writeExtents_eq h buffered es x bl
  rw [hs]
  exact .of_nodes rfl rfl

theorem flushData_tracked (hs : Tracked s) (h : FileWriter) {offset length : Nat} (buffered : Bool)
    (hsize : (s.nodes.files h.file).vselectorHint = 0 ∨
      h.pos + length ≤ (s.nodes.files h.file).fnode.size) :
    Tracked (s.flushData h offset length buffered).2.2 := by
  unfold BlueFS.flushData
  split
  · exact hs
  · simp only
    cases (s.nodes.files h.file).fnode.seek offset with
    | none => exact hs
    | some p =>
        obtain ⟨i, x⟩ := p
        obtain ⟨⟨b, hdevs⟩, d, hwriter⟩ := s.writeExtents_eq h buffered
          ((s.nodes.files h.file).fnode.extents.drop i) x (h.buffer.take h.bufferLength)
        have hwrite : Tracked { s with bdev := b } := hs.of_nodes rfl rfl
        simp only [hdevs, hwriter]
        split
        · exact hwrite
        · exact advance_tracked hwrite _ hsize

variable [Allocator A]

/-- The space that a write up to `stop` asks for is counted: there is none, or no level. -/
def Roomy (s : BlueFS RocksDBBlueFSVolumeSelector A) (r : FileRef) (stop : Nat) : Prop :=
  (s.nodes.files r).vselectorHint = 0 ∨ stop ≤ (s.nodes.files r).fnode.allocated ∨
    (s.allocate (VolumeSelector.selectPreferBdev s.vselector (s.nodes.files r).vselectorHint)
      (stop - (s.nodes.files r).fnode.allocated) 0 (s.nodes.files r).fnode).1 < 0

theorem allocate_quiet (s : BlueFS RocksDBBlueFSVolumeSelector A) (prefer len unit : Nat)
    (node : Fnode) : Quiet s (s.allocate prefer len unit node).2.2 := by
  obtain ⟨a, u, heq⟩ := s.allocate_eq prefer len unit node
  rw [heq]
  exact .of_nodes rfl rfl

/-- Whether an allocation succeeds or not, the node keeps its number. -/
theorem allocate_ino (s : BlueFS RocksDBBlueFSVolumeSelector A) (prefer len unit : Nat)
    (node : Fnode) : (s.allocate prefer len unit node).2.1.ino = node.ino := by
  unfold BlueFS.allocate
  simp only
  generalize List.range' prefer (MAX_BDEV - prefer) = ids
  generalize p2roundup len _ = need
  generalize (if unit = 0 then _ else _ : Nat) = u
  induction ids generalizing s with
  | nil => rfl
  | cons id ids ih =>
      unfold BlueFS.allocateFrom
      cases s.bdev id with
      | none => exact ih s
      | some d =>
          simp only
          split
          · exact ih _
          · exact (Fnode.claimExtents_attrs node _).1

theorem growSpace_tracked (hs : Tracked s) {r : FileRef} {stop : Nat} (hroom : Roomy s r stop) :
    Tracked (s.growSpace r stop).2 := by
  unfold BlueFS.growSpace
  simp only
  split
  case isFalse => exact hs
  case isTrue hlt =>
    generalize hprefer : VolumeSelector.selectPreferBdev s.vselector
      (s.nodes.files r).vselectorHint = prefer
    have hquiet := allocate_quiet s prefer (stop - (s.nodes.files r).fnode.allocated) 0
      (s.nodes.files r).fnode
    split
    case isTrue => exact hquiet.tracked hs
    case isFalse hres =>
      rcases hroom with hhint | hle | hfails
      · obtain ⟨a, u, heq⟩ := s.allocate_eq prefer (stop - (s.nodes.files r).fnode.allocated) 0
          (s.nodes.files r).fnode
        rw [heq]
        exact hs.setFile_unleveled rfl hhint ⟨allocate_ino _ _ _ _ _, rfl, rfl, rfl⟩ fun _ => rfl
      · omega
      · rw [hprefer] at hfails
        exact absurd hfails hres

theorem flushFrom_tracked (hs : Tracked s) {h : FileWriter} {offset length : Nat}
    (hlive : (s.nodes.files h.file).deleted = false) (hpos : h.pos ≤ offset)
    (hroom : Roomy s h.file (offset + length)) :
    Tracked (s.flushFrom h offset length).2.2 := by
  have hspace := growSpace_tracked hs hroom
  have hdeleted := (s.growSpace_grows h.file (offset + length)).deleted.trans hlive
  unfold BlueFS.flushFrom
  simp only
  split
  · exact hspace
  · generalize (s.growSpace h.file (offset + length)).2 = s₁ at hspace hdeleted ⊢
    have hplaced : (s₁.nodes.files h.file).vselectorHint = 0 ∨ s₁.nodes.Present h.file := by
      by_cases hhint : (s₁.nodes.files h.file).vselectorHint = 0
      · exact .inl hhint
      · exact .inr (hspace.filed.placed h.file hhint hdeleted)
    have hsize := s₁.le_growSize h.file (offset + length)
    exact flushData_tracked (growSize_tracked hspace hplaced _) h _ (.inr (by omega))

theorem flushRange_tracked (hs : Tracked s) {h : FileWriter} {offset length : Nat}
    (hroom : (s.nodes.files h.file).deleted = false → h.pos < offset + length →
      Roomy s h.file (offset + length)) :
    Tracked (s.flushRange h offset length).2.2 := by
  unfold BlueFS.flushRange
  split
  · exact hs
  case isFalse hlive =>
    have hlive := Bool.not_eq_true _ ▸ hlive
    split
    · exact hs
    case isFalse hbehind =>
      have hroom := hroom hlive (not_le.mp hbehind)
      split
      case isTrue hlt =>
        have hstop : h.pos + (length - (h.pos - offset)) = offset + length := by omega
        exact flushFrom_tracked hs hlive le_rfl (hstop ▸ hroom)
      case isFalse hge => exact flushFrom_tracked hs hlive (not_lt.mp hge) hroom

/-- The writer has bytes that the flush does not leave for later. -/
def Flushes (s : BlueFS RocksDBBlueFSVolumeSelector A) (h : FileWriter) (force : Bool) : Prop :=
  h.bufferLength ≠ 0 ∧ (force = true ∨ s.cfg.minFlushSize ≤ h.bufferLength)

theorem flushF_tracked (hs : Tracked s) {h : FileWriter} {force : Bool}
    (hroom : (s.nodes.files h.file).deleted = false → Flushes s h force →
      Roomy s h.file (h.pos + h.bufferLength)) :
    Tracked (s.flushF h force).2.2 := by
  unfold BlueFS.flushF
  split
  · exact hs
  case isFalse hne =>
    split
    · exact hs
    case isFalse hbig =>
      have hforce : force = true ∨ s.cfg.minFlushSize ≤ h.bufferLength := by
        by_contra hno
        push Not at hno
        exact hbig ⟨by simp [hno.1], hno.2⟩
      have hroom : (s.nodes.files h.file).deleted = false → h.pos < h.pos + h.bufferLength →
          Roomy s h.file (h.pos + h.bufferLength) := fun hlive _ => hroom hlive ⟨hne, hforce⟩
      have hrange := flushRange_tracked hs hroom
      simp only
      split <;> exact hrange

theorem preallocate_tracked (hs : Tracked s) {r : FileRef} {off len : Nat}
    (hroom : (s.nodes.files r).deleted = false → Roomy s r (off + len))
    {out : Int × BlueFS RocksDBBlueFSVolumeSelector A} (hrun : s.preallocate r off len = some out) :
    Tracked out.2 := by
  unfold BlueFS.preallocate at hrun
  simp only at hrun
  split at hrun
  case isTrue =>
    cases hrun
    exact hs
  case isFalse hlive =>
    split at hrun
    case isTrue => exact absurd hrun (by simp)
    case isFalse =>
      split at hrun
      case isFalse =>
        cases hrun
        exact hs
      case isTrue hlt =>
        have hquiet := allocate_quiet s (VolumeSelector.selectPreferBdev s.vselector
          (s.nodes.files r).vselectorHint) (off + len - (s.nodes.files r).fnode.allocated) 0
          (s.nodes.files r).fnode
        split at hrun
        case isTrue =>
          cases hrun
          exact hquiet.tracked hs
        case isFalse hres =>
          rcases hroom (Bool.not_eq_true _ ▸ hlive) with hhint | hle | hfails
          · obtain ⟨a, u, heq⟩ := s.allocate_eq (VolumeSelector.selectPreferBdev s.vselector
              (s.nodes.files r).vselectorHint) (off + len - (s.nodes.files r).fnode.allocated) 0
              (s.nodes.files r).fnode
            have hino := allocate_ino s (VolumeSelector.selectPreferBdev s.vselector
              (s.nodes.files r).vselectorHint) (off + len - (s.nodes.files r).fnode.allocated) 0
              (s.nodes.files r).fnode
            rw [heq] at hrun
            generalize (s.allocate _ _ 0 (s.nodes.files r).fnode).2.1 = fnode at hrun hino
            cases hrun
            have hset : Tracked { s with
                alloc := a
                bluefsUsed := u
                nodes := s.nodes.setFile r { s.nodes.files r with fnode } } :=
              hs.setFile_unleveled rfl hhint ⟨hino, rfl, rfl, rfl⟩ fun _ => rfl
            exact hset.setFile rfl ⟨rfl, rfl, rfl, rfl⟩ ⟨rfl, rfl⟩ rfl
          · omega
          · exact absurd hfails hres

end Data

/-! ## Truncation -/

theorem OnDevices.appendExtent {f : Fnode} (h : OnDevices f.extents) {e : Extent}
    (he : e.bdev < MAX_BDEV) : OnDevices (f.appendExtent e).extents := by
  have happend : OnDevices (f.extents ++ [e]) := by
    intro x hx
    rcases List.mem_append.mp hx with hx | hx
    · exact h x hx
    · rw [List.mem_singleton.mp hx]
      exact he
  unfold Fnode.appendExtent
  cases hlast : f.extents.getLast? with
  | none => exact happend
  | some last =>
      simp only
      split
      · intro x hx
        rcases List.mem_append.mp hx with hx | hx
        · exact h x (List.mem_of_mem_dropLast hx)
        · rw [List.mem_singleton.mp hx]
          exact h last (List.mem_of_getLast? hlast)
      · exact happend

theorem OnDevices.claimExtents {f : Fnode} (h : OnDevices f.extents) {es : List Extent}
    (hes : OnDevices es) : OnDevices (f.claimExtents es).extents := by
  unfold Fnode.claimExtents
  induction es generalizing f with
  | nil => exact h
  | cons e es ih =>
      rw [List.foldl_cons]
      exact ih (h.appendExtent (hes e (by simp))) fun x hx => hes x (by simp [hx])

theorem OnDevices.cutExtents {offset : Nat} (pos : Nat) {es : List Extent} (h : OnDevices es) :
    OnDevices (BlueFS.cutExtents offset pos es).1 := by
  induction es generalizing pos with
  | nil => exact h
  | cons e es ih =>
      have hrest := ih (pos + e.length) fun x hx => h x (by simp [hx])
      unfold BlueFS.cutExtents
      simp only
      split
      · intro x hx
        rcases List.mem_cons.mp hx with rfl | hx
        · exact h e (by simp)
        · exact hrest x hx
      · exact hrest

theorem OnDevices.cutFnode {f : Fnode} (h : OnDevices f.extents) (offset : Nat) :
    OnDevices (BlueFS.cutFnode f offset).extents :=
  OnDevices.claimExtents (fun e he => absurd he (by simp)) (h.cutExtents 0)

section Truncation

variable {s : BlueFS RocksDBBlueFSVolumeSelector A}

/-- The selector after a file of the table was taken off and added anew. -/
theorem value_recount (hs : Tracked s) {r : FileRef} {fnode : Fnode}
    (hdevices : (s.nodes.files r).vselectorHint ≠ 0 → OnDevices fnode.extents) (c : Counter) :
    ((s.vselector.subUsage (s.nodes.files r).vselectorHint (s.nodes.files r).fnode).addUsage
        (s.nodes.files r).vselectorHint fnode).value c + UInt64.ofNat ((s.nodes.files r).weight c) =
      s.vselector.value c + UInt64.ofNat (c.weight (s.nodes.files r).vselectorHint fnode) := by
  have hlevel := hs.filed.level r
  rw [RocksDBBlueFSVolumeSelector.value_addUsage hlevel hdevices,
    RocksDBBlueFSVolumeSelector.value_subUsage hlevel (hs.filed.devices r), File.weight]
  grind

theorem truncateTo_tracked (hs : Tracked s) {r : FileRef} {offset : Nat}
    (hr : (s.nodes.files r).vselectorHint = 0 ∨ s.nodes.Present r) :
    Tracked (s.truncateTo r offset) := by
  -- the state before the record of the file
  generalize hs₁ : ({ s with
    vselector := (s.vselector.subUsage (s.nodes.files r).vselectorHint
      (s.nodes.files r).fnode).addUsage (s.nodes.files r).vselectorHint
        (BlueFS.cutFnode (s.nodes.files r).fnode offset)
    nodes := s.nodes.setFile r { s.nodes.files r with
      fnode := BlueFS.cutFnode (s.nodes.files r).fnode offset
      isDirty := true } } : BlueFS RocksDBBlueFSVolumeSelector A) = s₁
  have hino : (BlueFS.cutFnode (s.nodes.files r).fnode offset).ino = (s.nodes.files r).fnode.ino :=
    (Fnode.claimExtents_attrs _ _).1
  have hcut : Tracked s₁ := by
    have hcount := value_recount hs (r := r) fun hhint =>
      (hs.filed.devices r hhint).cutFnode offset
    subst hs₁
    by_cases hhint : (s.nodes.files r).vselectorHint = 0
    · refine hs.setFile_unleveled rfl hhint ⟨hino, rfl, rfl, rfl⟩ fun c => ?_
      have hvalue := hcount c
      rw [File.weight, hhint, Counter.weight_zero, Counter.weight_zero] at hvalue
      simp only [hhint]
      exact (UInt64.add_left_inj _).mp hvalue
    · refine Moves.tracked (r := r) ⟨.setFile s.nodes ⟨hino, rfl, rfl, rfl⟩,
        fun x hx => s.nodes.setFile_others _ hx, fun hne => ?_, fun _ c => ?_,
        fun habsent => absurd (hr.resolve_left hhint) habsent⟩ hs
      · simp only [Nodes.setFile_files, if_true]
        exact (hs.filed.devices r hne).cutFnode offset
      · simp only [Nodes.setFile_files, if_true]
        exact hcount c
  have hlogged : Tracked ((s₁.pendRelease
      (BlueFS.cutExtents offset 0 (s.nodes.files r).fnode.extents).2).logFileUpdate r) :=
    hcut.setFile rfl ⟨rfl, rfl, rfl, rfl⟩ ⟨rfl, rfl⟩ rfl
  subst hs₁
  exact hlogged

end Truncation

end Clab.Bluefs
