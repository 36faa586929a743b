import Clab.Bluefs.LogFlush
import Clab.Bluefs.Namespace
import Clab.Common.Crc32

/-!
# Mounting, the superblock and compaction

The calls around a mount, with the superblock they write: `mkfs`, `mount` from
where `_replay` returns, `umount`, `sync_metadata`, and the compaction of the
log, which `compactLog_eq` says never to take place. The comparison of sizes in
`_should_compact` is of floating point; its answer is a parameter.
-/

namespace Clab.Bluefs

open Blk Common Codec

def enodev : Int := 19

/-- `SUPER_OFFSET`, `SUPER_LENGTH` and `BLUEFS_LOG_INITIAL`. -/
def SUPER_OFFSET : Nat := 4096
def SUPER_LENGTH : Nat := 4096
def BLUEFS_LOG_INITIAL : Nat := 4194304

/-- `bluefs_super_t::encode`; `osd_uuid` is never set. -/
def Super.encode (super : Super) : Bytes :=
  encodeStruct (encodeUuid super.uuid ++ encodeUuid (List.replicate 16 0) ++ leBytes 8 super.version ++
    leBytes 4 super.blockSize ++ encodeFnode super.logFnode.ino super.logFnode.size
      super.logFnode.mtime super.logFnode.extents)

/-- `_get_file`. -/
def Nodes.getFile (n : Nodes) (ino : Nat) : FileRef × Nodes :=
  match n.fileMap.lookup ino with
  | some r => (r, n)
  | none => n.addFile ino { fnode := { ino } }

namespace BlueFS

variable {V A : Type}

/-! ## The superblock -/

/-- `_write_super`. -/
def writeSuper (s : BlueFS V A) (dev : Nat) : Int × BlueFS V A :=
  match s.bdev dev with
  | none => (-enodev, s)
  | some d =>
      let version := s.super.version + 1
      let bl := { s.super with version }.encode
      let bl := bl ++ leBytes 4 (calcCrc32 bl (BitVec.allOnes 32)).toNat
      if SUPER_LENGTH < bl.length then (-eio, s)
      else
        let (r, d) := d.write SUPER_OFFSET (bl ++ List.replicate (SUPER_LENGTH - bl.length) 0) false
        let s := { s with bdev := Function.update s.bdev dev (some d) }
        if r < 0 then (r, s) else (0, { s with super := { s.super with version } })

/-- `bdev_[BDEV_DB]->flush()`. -/
def flushDb (s : BlueFS V A) : BlueFS V A :=
  { s with bdev := Function.update s.bdev BDEV_DB ((s.bdev BDEV_DB).map fun d => d.flush.2) }

/-- `super_.log_fnode = file->fnode`. -/
def setLogFnode (s : BlueFS V A) (r : FileRef) : BlueFS V A :=
  { s with super := { s.super with logFnode := (s.nodes.files r).fnode } }

/-- `super_.log_fnode = _get_file(1)->fnode` and the write of the superblock. -/
def syncSuper (s : BlueFS V A) : Int × BlueFS V A :=
  let (log, nodes) := s.nodes.getFile 1
  ({ s with nodes }.setLogFnode log).writeSuper BDEV_DB

/-- `_init_alloc`: the allocators that are not shared are made anew. -/
def initAlloc (s : BlueFS V A) (alloc : Nat → A) : BlueFS V A :=
  { s with alloc := fun id => if s.sharedAllocId = some id then s.alloc id else alloc id }

/-! ## Formatting -/

section Space

variable [VolumeSelector V] [Allocator A]

/-- The log of `mkfs`: a file outside of the inode table, with its first extents. -/
def mkfsLog (s : BlueFS V A) (allocSize : Nat) : Int × FileRef × BlueFS V A :=
  let hint := VolumeSelector.getHintForLog s.vselector
  let r := s.nodes.nextRef
  let prefer := VolumeSelector.selectPreferBdev s.vselector hint
  let (res, fnode, s) := s.allocate prefer BLUEFS_LOG_INITIAL allocSize { ino := 1 }
  let nodes := { s.nodes with
    files := Function.update s.nodes.files r { fnode, vselectorHint := hint }
    nextRef := r + 1 }
  if res < 0 then (res, r, { s with nodes })
  else (0, r, { s with nodes, vselector := VolumeSelector.addUsage s.vselector hint fnode })

/-- `mkfs` after `_init_alloc`, with the uuid it generates. -/
def mkfs (s : BlueFS V A) (uuid : Bytes) (allocSize : Nat) : Int × BlueFS V A :=
  let s := { s with super := { s.super with uuid, blockSize := 4096 } }
  let (res, r, s) := s.mkfsLog allocSize
  if res < 0 then (res, s)
  else
    let t := { s.log.t.push .init with uuid, seq := 1 }
    let s := { s with log := { s.log with t } }
    let (_, w, s) := s.flushLogData { file := r, pos := (s.nodes.files r).fnode.size } (s.logBytes t)
    let (w, s) := s.flushBdev w
    let (res, s) := (s.setLogFnode r).writeSuper BDEV_DB
    if res < 0 then (res, { s with log := { s.log with writer := some w } })
    else (0, { s.flushDb with log := { s.log with writer := none } })

/-! ## Mounting -/

/-- A file's extent is taken from the free space of its device. -/
def mountExtent (s : BlueFS V A) (e : Extent) : BlueFS V A :=
  if s.sharedAllocId = some e.bdev then { s with bluefsUsed := s.bluefsUsed + e.length }
  else
    let a := Allocator.initRmFree (s.alloc e.bdev) e.offset e.length
    { s with alloc := Function.update s.alloc e.bdev a }

/-- The body of the loop of `mount` over the files. -/
def mountFile (s : BlueFS V A) (r : FileRef) : BlueFS V A :=
  let f := s.nodes.files r
  let s := f.fnode.extents.foldl mountExtent s
  { s with vselector := VolumeSelector.addUsage s.vselector f.vselectorHint f.fnode }

/-- `mount` from where `_replay` has returned; `log` is the file it made for the log. -/
def mountReplayed (s : BlueFS V A) (log : FileRef) : BlueFS V A :=
  let s := (s.nodes.fileMap.entries.map Prod.snd).foldl mountFile s
  let (r, nodes) := s.nodes.getFile 1
  let f := nodes.files log
  { s with
    nodes := nodes.setFile log { f with fnode := f.fnode.resetDelta }
    log := { s.log with writer := some { file := r, pos := f.fnode.size } } }

end Space

/-- What `umount` drops. The allocators and the selector are gone too, but not read before the
next mount; what is pending stays. -/
def forget (s : BlueFS V A) : BlueFS V A :=
  { s with
    nodes := { s.nodes with fileMap := .empty, dirMap := .empty }
    dirty := { s.dirty with files := .empty, seqStable := 0, seqLive := 1 }
    log := {}
    super := {} }

/-! ## Compaction -/

/-- `_compact_log_dump_metadata`: the records, and the files after them. -/
def compactLogDumpMetadata (s : BlueFS V A) (t : Transaction) : Transaction × BlueFS V A :=
  let dirs := s.nodes.dirMap.entries.flatMap fun dir =>
    .dirCreate dir.1 :: (dir.2.entries.filter fun e => (s.nodes.files e.2).fnode.ino ≠ 1).map
      fun e => LogOp.dirLink dir.1 e.1 (s.nodes.files e.2).fnode.ino
  let t := { t with uuid := s.super.uuid, ops := t.ops ++ dirs }
  let (t, nodes) := (s.nodes.fileMap.entries.filter fun e => e.1 ≠ 1).foldl (fun (t, n) e =>
    let (t, fnode) := t.opFileUpdate (n.files e.2).fnode
    (t, n.setFile e.2 { n.files e.2 with fnode })) (t, s.nodes)
  (t, { s with nodes })

section Space

variable [VolumeSelector V] [Allocator A]

/-- The new extents of the log, with what the selector is told of the old fnode and the new. -/
def compactLogAllocate (s : BlueFS V A) (r : FileRef) (prefer length : Nat) : Int × BlueFS V A :=
  let f := s.nodes.files r
  let hint := f.vselectorHint
  let old := f.fnode.copy
  let vselector :=
    if hint = 0 then s.vselector
    else VolumeSelector.subSize (VolumeSelector.subUsage s.vselector hint old) hint old.size true
  let s := { s with vselector }
  let (res, fnode, s) := s.allocate prefer length s.cfg.allocSize f.fnode.clearExtents
  if res < 0 then (res, { s with nodes := s.nodes.setFile r { f with fnode := old } })
  else
    let vselector :=
      if hint = 0 then s.vselector
      else VolumeSelector.addSize (VolumeSelector.addUsage s.vselector hint fnode) hint fnode.size true
    let fnode := { fnode with size := 0 }
    (0, { s with vselector, nodes := s.nodes.setFile r { f with fnode } })

/-- `_compact_log_async` of the log file `r` under `log_.lock`. -/
def compactLogFile (s : BlueFS V A) (r : FileRef) (curSeq : Nat) : Int × BlueFS V A :=
  let prefer := VolumeSelector.selectPreferBdev s.vselector
    (VolumeSelector.getHintForLog s.vselector)
  let old := (s.nodes.files r).fnode.copy
  let (t, s) := s.compactLogDumpMetadata { seq := 1 }
  let bl := s.logBytes (t.push (.jumpSeq curSeq))
  let (res, s) := s.compactLogAllocate r prefer bl.length
  if res < 0 then (res, s)
  else
    let (res, w, s) := s.flushData { file := r, buffer := bl } 0 bl.length false
    let s := { s with log := { s.log with writer := some { w with buffer := [] } } }
    if res < 0 then (res, s)
    else
      let (w, s) := s.flushBdev { w with buffer := [] }
      let s := { s with log := { s.log with writer := some w } }
      let (res, s) := (s.setLogFnode r).writeSuper BDEV_DB
      if res < 0 then (res, s)
      else
        let s := s.flushDb.pendRelease old.extents
        (0, { s with log := { s.log with t := { uuid := s.super.uuid, seq := s.log.seqLive } } })

omit [VolumeSelector V] [Allocator A] in
/-- `_should_compact` of a log that `log_is_compacting_` says is compacted or not; `due` is what
the sizes say. -/
def shouldCompact (isCompacting due : Bool) : Bool := !isCompacting && due

/-- `_compact_log_async`, where no other thread compacts. It asks `_should_compact` once
`log_is_compacting_` is set. -/
def compactLog (s : BlueFS V A) (due : Bool) : Int × BlueFS V A :=
  if shouldCompact true due then
    let (r, nodes) := s.nodes.getFile 1
    { s with nodes }.compactLogFile r s.log.seqLive
  else (0, s)

/-- The log is never compacted. -/
theorem compactLog_eq (s : BlueFS V A) (due : Bool) : s.compactLog due = (0, s) := rfl

/-- `_maybe_compact_log`. -/
def maybeCompactLog (s : BlueFS V A) (due : Bool) : BlueFS V A :=
  if shouldCompact false due then (s.compactLog due).2 else s

/-! ## Calls -/

/-- `sync_metadata`; `none` is a log without a writer. -/
def syncMetadata (s : BlueFS V A) (avoidCompact due : Bool) : Option (Int × BlueFS V A) :=
  s.log.writer.bind fun w =>
    (s.flushAndSyncLog w 0).map fun (r, s) =>
      if r < 0 then (r, s)
      else
        let (r, s) := s.syncSuper
        if r < 0 then (r, s)
        else
          let s := s.flushDb
          (0, if avoidCompact then s else s.maybeCompactLog due)

/-- `umount`, with the log flush of a BlueFS that is mounted; its results are dropped. -/
def umount (s : BlueFS V A) : Option (BlueFS V A) :=
  match s.log.writer with
  | none => some s.forget
  | some w =>
      (s.flushAndSyncLog w 0).map fun (_, s) =>
        (s.flushBdev (s.log.writer.getD w)).2.syncSuper.2.forget

end Space

end BlueFS

end Clab.Bluefs
