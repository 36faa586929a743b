import Clab.Bluefs.Encoding
import Clab.Bluefs.FileIo

/-!
# The flush of the log

`_flush_and_sync_log` cut at its locks: number the transaction and gather it,
write it, record it as stable, and release what is pending. `flushAndSyncLog` is
the whole call when no other thread runs.
-/

namespace Clab.Bluefs

open Blk Common

namespace BlueFS

variable {V A : Type}

/-! ## Dirty files -/

/-- `_signal_dirty_to_log`. -/
def signalDirtyToLog (s : BlueFS V A) (r : FileRef) : BlueFS V A :=
  let f := s.nodes.files r
  if f.dirtySeq ≤ s.dirty.seqStable ∨ f.dirtySeq = 0 then
    let waiting := (s.dirty.files.lookup s.dirty.seqLive).getD []
    { s with
      nodes := s.nodes.setFile r { f with dirtySeq := s.dirty.seqLive, isDirty := false }
      dirty := { s.dirty with
        files := s.dirty.files.insert s.dirty.seqLive (waiting ++ [r]) } }
  else { s with nodes := s.nodes.setFile r { f with isDirty := false } }

/-- The files whose records wait for transaction `seq`. -/
def waiting (s : BlueFS V A) (seq : Nat) : List FileRef := (s.dirty.files.lookup seq).getD []

/-- `_consume_dirty`. -/
def consumeDirty (s : BlueFS V A) (seq : Nat) : BlueFS V A :=
  (s.waiting seq).foldl logFileUpdateInc s

/-! ## Gathering the transaction -/

/-- The sequence number is taken and both counters move on. -/
def takeSeq (s : BlueFS V A) : Nat × BlueFS V A :=
  let seqLive := s.log.seqLive + 1
  (s.log.seqLive, { s with
    log := { s.log with seqLive }
    dirty := { s.dirty with seqLive } })

/-- The operations move from `log_.t` into the transaction that is written. -/
def takeOps (s : BlueFS V A) (seq : Nat) : Transaction × BlueFS V A :=
  ({ uuid := s.super.uuid, seq, ops := s.log.t.ops },
    { s with log := { s.log with t := { s.log.t with ops := [], seq := s.log.seqLive } } })

/-- The transaction padded to whole blocks. -/
def logBytes (s : BlueFS V A) (t : Transaction) : Bytes :=
  t.encode ++
    List.replicate (p2roundup t.encode.length s.super.blockSize - t.encode.length) 0

section Space

variable [VolumeSelector V] [Allocator A]

/-- `_maybe_extend_log`, with the writer of the log. -/
def maybeExtendLog (s : BlueFS V A) (w : FileWriter) : Int × BlueFS V A :=
  let f := s.nodes.files w.file
  if w.pos + s.cfg.minLogRunway < f.fnode.allocated then (0, s)
  else
    let len := p2roundup (max s.cfg.minLogRunway s.cfg.maxLogRunway) s.cfg.allocSize
    let prefer := VolumeSelector.selectPreferBdev s.vselector
      (VolumeSelector.getHintForLog s.vselector)
    let (r, fnode, s) := s.allocate prefer len s.cfg.allocSize f.fnode
    if r < 0 then (r, s)
    else (0, { s with nodes := s.nodes.setFile w.file { f with fnode } }.logFileUpdateInc w.file)

/-- The steps of `_flush_and_sync_log` from the sequence number to the transaction to write;
a failed extension leaves what was gathered in `log_.t`. -/
def gather (s : BlueFS V A) (w : FileWriter) : Except Int Transaction × BlueFS V A :=
  let (seq, s) := s.takeSeq
  let (r, s) := (s.consumeDirty seq).maybeExtendLog w
  if r < 0 then (.error r, s)
  else
    let (t, s) := s.takeOps seq
    (.ok t, s)

end Space

/-! ## Writing, recording, releasing -/

/-- `_flush_log_data`. -/
def flushLogData (s : BlueFS V A) (w : FileWriter) (bl : Bytes) :
    Int × FileWriter × BlueFS V A :=
  let fnode := (s.nodes.files w.file).fnode
  let (r, w, s) := match fnode.seek w.pos with
    | none => (0, w, s)
    | some (i, x) => s.writeExtents w false (fnode.extents.drop i) x bl
  if r < 0 then (r, w, s)
  else
    let (w, s) := s.advance w bl.length
    (0, w, s)

/-- The write under `log_.lock`: the transaction, the flush of its devices, and the writer kept. -/
def writeLog (s : BlueFS V A) (w : FileWriter) (t : Transaction) : Int × BlueFS V A :=
  let (r, w, s) := s.flushLogData w (s.logBytes t)
  if r < 0 then (r, { s with log := { s.log with writer := some w } })
  else
    let (w, s) := s.flushBdev w
    (0, { s with log := { s.log with writer := some { w with buffer := [] } } })

/-- `dirty_.seq_stable = seq`, and the files of that transaction are clean. -/
def recordStable (s : BlueFS V A) (seq : Nat) : BlueFS V A :=
  { s with
    nodes := (s.waiting seq).foldl
      (fun n r => n.setFile r { n.files r with dirtySeq := 0 }) s.nodes
    dirty := { s.dirty with seqStable := seq, files := s.dirty.files.erase seq } }

/-- What is pending on a device, as extents to release. -/
def releaseVec (s : BlueFS V A) (id : Nat) : List PExtent :=
  (s.dirty.pendingRelease id).entries.map fun e => ⟨e.1, e.2⟩

/-- The `uint64_t` that adds up what is pending on a device. -/
def released (s : BlueFS V A) (id : Nat) : Nat :=
  ((s.releaseVec id).map PExtent.length).sum % 2 ^ 64

/-- The loop over `pending_release`; of a shared device only the counter is told. -/
def drainPending [Allocator A] (s : BlueFS V A) : BlueFS V A :=
  { s with
    alloc := fun id =>
      if id < MAX_BDEV ∧ s.releaseVec id ≠ [] ∧ s.sharedAllocId ≠ some id
      then Allocator.release (s.alloc id) (s.releaseVec id) else s.alloc id
    bluefsUsed := match s.sharedAllocId with
      | some id => dec64 s.bluefsUsed (s.released id)
      | none => s.bluefsUsed
    dirty := { s.dirty with pendingRelease := fun id =>
      if id < MAX_BDEV then .empty else s.dirty.pendingRelease id } }

variable [VolumeSelector V] [Allocator A]

/-- `_flush_and_sync_log` of a mounted BlueFS, whose log has the writer `w`; `none` is a failed
assertion. -/
def flushAndSyncLog (s : BlueFS V A) (w : FileWriter) (wantSeq : Nat) : Option (Int × BlueFS V A) :=
  if wantSeq ≠ 0 ∧ wantSeq ≤ s.dirty.seqStable then some (0, s)
  else if wantSeq ≠ 0 ∧ s.dirty.seqLive < wantSeq then none
  else
    match s.gather w with
    | (.error r, s) => some (r, s)
    | (.ok t, s) =>
        let (r, s) := s.writeLog w t
        if r < 0 then some (r, s)
        else some (0, (s.recordStable t.seq).drainPending)

/-- `fsync` of a file that is not the log; `none` is a failed assertion, or a log without a
writer. -/
def fsync (s : BlueFS V A) (h : FileWriter) : Option (Int × FileWriter × BlueFS V A) :=
  let (r, h, s) := s.flushF h true
  if r < 0 then some (r, h, s)
  else
    let (h, s) := s.flushBdev h
    let s := if (s.nodes.files h.file).isDirty then s.signalDirtyToLog h.file else s
    let oldDirtySeq := (s.nodes.files h.file).dirtySeq
    if s.dirty.seqStable < oldDirtySeq then
      s.log.writer.bind fun w =>
        (s.flushAndSyncLog w oldDirtySeq).map fun (r, s) => (if r < 0 then r else 0, h, s)
    else some (0, h, s)

end BlueFS

end Clab.Bluefs
