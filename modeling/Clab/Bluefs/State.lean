import Clab.Bluefs.Types
import Clab.Blk.Allocator
import Clab.Blk.KernelDevice

/-!
# The state of BlueFS

The `File` objects live in a heap and are named by references; directories, the
inode table, the log and the dirty-file table refer to them. The volume selector
and the allocators are parameters.
-/

namespace Clab.Bluefs

open Blk

/-- `shared_ptr<File>`, by the number of the object. -/
abbrev FileRef := Nat

/-- `void *vselector_hint`. -/
abbrev Hint := Nat

/-- `BlueFSVolumeSelector`. -/
class VolumeSelector (V : Type) where
  getHintForLog : V → Hint
  getHintByDir : V → Bytes → Hint
  addUsage : V → Hint → Fnode → V
  subUsage : V → Hint → Fnode → V
  addSize : V → Hint → Nat → Bool → V
  subSize : V → Hint → Nat → Bool → V
  selectPreferBdev : V → Hint → Nat

/-- `BDEV_WAL`, `BDEV_DB` and `BDEV_SLOW`. -/
def BDEV_WAL : Nat := 0
def BDEV_DB : Nat := 1
def BDEV_SLOW : Nat := 2

/-- `OriginalVolumeSelector`: a hint is a device, and no usage is counted. -/
structure OriginalVolumeSelector where
  walTotal : Nat
  dbTotal : Nat
  slowTotal : Nat

/-- `get_hint_by_dir`, by the suffixes ".slow" and ".wal". -/
def OriginalVolumeSelector.hintByDir (v : OriginalVolumeSelector) (dirname : Bytes) : Hint :=
  if 5 < dirname.length then
    if dirname.drop (dirname.length - 5) = [46, 115, 108, 111, 119] ∧ 0 < v.slowTotal then BDEV_SLOW
    else if dirname.drop (dirname.length - 4) = [46, 119, 97, 108] ∧ 0 < v.walTotal then BDEV_WAL
    else BDEV_DB
  else BDEV_DB

instance : VolumeSelector OriginalVolumeSelector where
  getHintForLog _ := BDEV_WAL
  getHintByDir := OriginalVolumeSelector.hintByDir
  addUsage v _ _ := v
  subUsage v _ _ := v
  addSize v _ _ _ := v
  subSize v _ _ _ := v
  selectPreferBdev _ hint := hint % 256

/-- `BlueFS::File`. -/
structure File where
  fnode : Fnode := {}
  dirtySeq : Nat := 0
  refs : Int := 0
  locked : Bool := false
  deleted : Bool := false
  isDirty : Bool := false
  vselectorHint : Hint := 0
  deriving DecidableEq, Repr, Inhabited

/-- `BlueFS::Dir`. -/
abbrev Dir := OrderedMap Bytes FileRef

/-- `BlueFS::FileWriter`. -/
structure FileWriter where
  file : FileRef
  pos : Nat := 0
  buffer : Bytes := []
  dirtyDevs : Nat → Bool := fun _ => false

/-- `BlueFSConfig`, the fields BlueFS reads. -/
structure Config where
  allocSize : Nat := 1048576
  maxLogRunway : Nat := 4194304
  minLogRunway : Nat := 1048576
  minFlushSize : Nat := 524288
  bufferedIo : Bool := false

/-- `bluefs_super_t`. -/
structure Super where
  uuid : Bytes := []
  version : Nat := 0
  blockSize : Nat := 4096
  logFnode : Fnode := {}

/-- `log_`. -/
structure Log where
  seqLive : Nat := 1
  writer : Option FileWriter := none
  t : Transaction := {}

/-- `dirty_`. -/
structure Dirty where
  seqStable : Nat := 0
  seqLive : Nat := 1
  files : OrderedMap Nat (List FileRef) := .empty
  pendingRelease : Nat → OrderedMap Nat Nat := fun _ => .empty

/-- `nodes_` and `ino_last_`, with the `File` objects: `files` holds them, `nextRef` is the
number of the next one. -/
structure Nodes where
  dirMap : OrderedMap Bytes Dir := .empty
  fileMap : OrderedMap Nat FileRef := .empty
  inoLast : Nat := 0
  files : FileRef → File := fun _ => {}
  nextRef : FileRef := 0

/-- `BlueFS`. -/
structure BlueFS (V A : Type) where
  cfg : Config
  bdev : Nat → Option KernelDevice
  alloc : Nat → A
  allocSize : Nat → Nat
  sharedAllocId : Option Nat
  bluefsUsed : Nat
  vselector : V
  super : Super
  nodes : Nodes
  log : Log
  dirty : Dirty

/-- `MAX_BDEV`. -/
def MAX_BDEV : Nat := 3

def eexist : Int := 17
def enotempty : Int := 39
def enolck : Int := 37

/-! ## Directories and files -/

namespace Nodes

/-- Write through a file reference. -/
def setFile (n : Nodes) (r : FileRef) (f : File) : Nodes :=
  { n with files := Function.update n.files r f }

/-- The file a directory entry points to. -/
def entry (n : Nodes) (dirname filename : Bytes) : Option FileRef :=
  (n.dirMap.lookup dirname).bind fun dir => dir.lookup filename

/-- `dir_map[dirname]->file_map[filename] = file`. -/
def setEntry (n : Nodes) (dirname filename : Bytes) (r : FileRef) : Nodes :=
  match n.dirMap.lookup dirname with
  | none => n
  | some dir => { n with dirMap := n.dirMap.insert dirname (dir.insert filename r) }

/-- `dir_map[dirname]->file_map.erase(filename)`. -/
def eraseEntry (n : Nodes) (dirname filename : Bytes) : Nodes :=
  match n.dirMap.lookup dirname with
  | none => n
  | some dir => { n with dirMap := n.dirMap.insert dirname (dir.erase filename) }

/-- A new `File` in the inode table. -/
def addFile (n : Nodes) (ino : Nat) (f : File) : FileRef × Nodes :=
  (n.nextRef, { n with
    files := Function.update n.files n.nextRef f
    nextRef := n.nextRef + 1
    fileMap := n.fileMap.insert ino n.nextRef })

/-- A new file with the next inode number, entered under a name. -/
def createFile (n : Nodes) (dirname filename : Bytes) (hint : Hint) : FileRef × Nodes :=
  let ino := n.inoLast + 1
  let (r, n) := { n with inoLast := ino }.addFile ino
    { fnode := { ino }, vselectorHint := hint, refs := 1 }
  (r, n.setEntry dirname filename r)

@[simp] theorem setFile_files (n : Nodes) (r r' : FileRef) (f : File) :
    (n.setFile r f).files r' = if r' = r then f else n.files r' := by
  simp [setFile, Function.update_apply]

/-- Entering or erasing a name changes the directories only. -/
theorem setEntry_eq (n : Nodes) (d f : Bytes) (r : FileRef) :
    n.setEntry d f r = { n with dirMap := (n.setEntry d f r).dirMap } := by
  unfold setEntry
  split <;> rfl

theorem eraseEntry_eq (n : Nodes) (d f : Bytes) :
    n.eraseEntry d f = { n with dirMap := (n.eraseEntry d f).dirMap } := by
  unfold eraseEntry
  split <;> rfl

theorem entry_setEntry {n : Nodes} {d f : Bytes} {r : FileRef} {dir : Dir}
    (hdir : n.dirMap.lookup d = some dir) (d' f' : Bytes) :
    (n.setEntry d f r).entry d' f' = if d' = d ∧ f' = f then some r else n.entry d' f' := by
  simp only [setEntry, hdir, entry, OrderedMap.lookup_insert]
  by_cases hd : d' = d
  · subst hd
    simp [hdir]
  · simp [hd]

theorem entry_eraseEntry (n : Nodes) (d f d' f' : Bytes) :
    (n.eraseEntry d f).entry d' f' = if d' = d ∧ f' = f then none else n.entry d' f' := by
  unfold eraseEntry
  cases hdir : n.dirMap.lookup d with
  | none =>
      by_cases h : d' = d ∧ f' = f
      · rw [if_pos h, h.1]
        simp [entry, hdir]
      · rw [if_neg h]
  | some dir =>
      simp only [entry, OrderedMap.lookup_insert]
      by_cases hd : d' = d
      · subst hd
        simp [hdir]
      · simp [hd]

/-- The number of directory entries that point to a file. -/
def links (n : Nodes) (r : FileRef) : Nat :=
  n.dirMap.sum fun _ dir => dir.sum fun _ r' => if r' = r then 1 else 0

theorem links_congr {n n' : Nodes} (h : n'.dirMap = n.dirMap) (r : FileRef) :
    n'.links r = n.links r := by
  unfold links
  rw [h]

theorem entry_congr {n n' : Nodes} (h : n'.dirMap = n.dirMap) (d f : Bytes) :
    n'.entry d f = n.entry d f := by
  unfold entry
  rw [h]

/-- The weight of a name in the count of the links to `x`. -/
theorem weight_links {n : Nodes} {d f : Bytes} {dir : Dir} (hdir : n.dirMap.lookup d = some dir)
    (x : FileRef) :
    dir.weight (fun _ r' => if r' = x then 1 else 0) f = if n.entry d f = some x then 1 else 0 := by
  unfold OrderedMap.weight entry
  rw [hdir]
  cases hf : dir.lookup f with
  | none => simp [hf]
  | some r => simp [hf]

theorem links_setEntry {n : Nodes} {d f : Bytes} {r : FileRef} {dir : Dir}
    (hdir : n.dirMap.lookup d = some dir) (x : FileRef) :
    (n.setEntry d f r).links x + (if n.entry d f = some x then 1 else 0) =
      n.links x + if r = x then 1 else 0 := by
  have hdirs := n.dirMap.sum_insert (fun _ dir => dir.sum fun _ r' => if r' = x then 1 else 0) d
    (dir.insert f r)
  have hentry := dir.sum_insert (fun _ r' => if r' = x then 1 else 0) f r
  rw [weight_links hdir] at hentry
  simp only [OrderedMap.weight, hdir, Option.map_some, Option.getD_some] at hdirs
  simp only [setEntry, hdir, links]
  omega

theorem links_eraseEntry (n : Nodes) (d f : Bytes) (x : FileRef) :
    (n.eraseEntry d f).links x + (if n.entry d f = some x then 1 else 0) = n.links x := by
  cases hdir : n.dirMap.lookup d with
  | none => simp [eraseEntry, entry, hdir]
  | some dir =>
      have hdirs := n.dirMap.sum_insert (fun _ dir => dir.sum fun _ r' => if r' = x then 1 else 0)
        d (dir.erase f)
      have hentry := dir.sum_erase (fun _ r' => if r' = x then 1 else 0) f
      rw [weight_links hdir] at hentry
      simp only [OrderedMap.weight, hdir, Option.map_some, Option.getD_some] at hdirs
      simp only [eraseEntry, hdir, links]
      omega

theorem links_pos_of_entry {n : Nodes} {d f : Bytes} {r : FileRef} (h : n.entry d f = some r) :
    0 < n.links r := by
  have hlinks := n.links_eraseEntry d f r
  rw [if_pos h] at hlinks
  omega

end Nodes

namespace BlueFS

variable {V A : Type}

/-- Append an operation to `log_.t`. -/
def logOp (s : BlueFS V A) (op : LogOp) : BlueFS V A :=
  { s with log := { s.log with t := s.log.t.push op } }

/-- `log_.t.op_file_update(file->fnode)`. -/
def logFileUpdate (s : BlueFS V A) (r : FileRef) : BlueFS V A :=
  let f := s.nodes.files r
  let (t, fnode) := s.log.t.opFileUpdate f.fnode
  { s with nodes := s.nodes.setFile r { f with fnode }, log := { s.log with t } }

/-- `log_.t.op_file_update_inc(file->fnode)`. -/
def logFileUpdateInc (s : BlueFS V A) (r : FileRef) : BlueFS V A :=
  let f := s.nodes.files r
  let (t, fnode) := s.log.t.opFileUpdateInc f.fnode
  { s with nodes := s.nodes.setFile r { f with fnode }, log := { s.log with t } }

/-- `dirty_.pending_release[e.bdev].insert({e.offset, e.length})` for each extent. -/
def queueRelease (pending : Nat → OrderedMap Nat Nat) (es : List Extent) :
    Nat → OrderedMap Nat Nat :=
  es.foldl (fun p e => Function.update p e.bdev ((p e.bdev).insertNew e.offset e.length)) pending

def pendRelease (s : BlueFS V A) (es : List Extent) : BlueFS V A :=
  { s with dirty := { s.dirty with pendingRelease := queueRelease s.dirty.pendingRelease es } }

end BlueFS

end Clab.Bluefs
