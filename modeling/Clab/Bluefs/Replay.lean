import Clab.Bluefs.FnodeDelta
import Clab.Bluefs.Mounting

/-!
# Replaying the log

What `_replay` does with the operations of the transactions it accepts, and the
`mount` that calls it. What the superblock and the log hold, and where the replay
stops reading, are parameters.
-/

namespace Clab.Bluefs

open Blk Common

/-- The files without a link leave the inode table, but for the log. -/
def Nodes.dropOrphans (n : Nodes) : Nodes :=
  { n with fileMap := n.fileMap.filter fun ino =>
      match n.fileMap.lookup ino with
      | none => true
      | some r => ino ≤ 1 ∨ 0 < (n.files r).refs }

namespace BlueFS

variable {V A : Type} [VolumeSelector V]

/-- One operation in the loop of `_replay`; `none` is a failed assertion. The jumps change the
position and the number of the next transaction only. -/
def replayOp (s : BlueFS V A) : LogOp → Option (BlueFS V A)
  | .init | .jump _ _ | .jumpSeq _ => some s
  | .dirCreate dirname =>
      some { s with nodes := { s.nodes with dirMap := s.nodes.dirMap.insert dirname .empty } }
  | .dirRemove dirname =>
      some { s with nodes := { s.nodes with dirMap := s.nodes.dirMap.erase dirname } }
  | .dirLink dirname filename ino =>
      let (r, nodes) := s.nodes.getFile ino
      let f := nodes.files r
      let vselector := VolumeSelector.subUsage s.vselector f.vselectorHint f.fnode
      let vselectorHint := VolumeSelector.getHintByDir vselector dirname
      let vselector := VolumeSelector.addUsage vselector vselectorHint f.fnode
      let nodes := nodes.setFile r { f with vselectorHint, refs := f.refs + 1 }
      let nodes := nodes.setEntry dirname filename r
      some { s with vselector, nodes := { nodes with inoLast := max nodes.inoLast ino } }
  | .dirUnlink dirname filename =>
      match s.nodes.entry dirname filename with
      | none => some s
      | some r =>
          let f := s.nodes.files r
          if 0 < f.refs then
            let nodes := s.nodes.setFile r { f with refs := f.refs - 1 }
            some { s with nodes := nodes.eraseEntry dirname filename }
          else none
  | .fileUpdate ino size mtime extents =>
      let (r, nodes) := s.nodes.getFile ino
      let f := nodes.files r
      let vselector :=
        if f.vselectorHint ≠ 0 then VolumeSelector.subUsage s.vselector f.vselectorHint f.fnode
        else s.vselector
      let fnode := Fnode.decode {} ino size mtime extents
      let vselector :=
        if f.vselectorHint ≠ 0 then VolumeSelector.addUsage vselector f.vselectorHint fnode
        else vselector
      let nodes := nodes.setFile r { f with fnode }
      some { s with vselector, nodes := { nodes with inoLast := max nodes.inoLast ino } }
  | .fileUpdateInc delta =>
      let (r, nodes) := s.nodes.getFile delta.ino
      let f := nodes.files r
      (f.fnode.applyInc delta).map fun fnode =>
        let nodes := nodes.setFile r { f with fnode }
        { s with nodes := { nodes with inoLast := max nodes.inoLast delta.ino } }
  | .fileRemove ino =>
      match s.nodes.fileMap.lookup ino with
      | none => some s
      | some r =>
          let f := s.nodes.files r
          if 0 < f.refs then some { s with nodes := s.nodes.setFile r { f with deleted := true } }
          else some { s with nodes := { s.nodes with fileMap := s.nodes.fileMap.erase ino } }

/-- `_replay` of the log file `log`, of the operations `ops`, up to transaction `logSeq` and
position `pos`. -/
def replay (s : BlueFS V A) (log : FileRef) (ops : List LogOp) (logSeq pos : Nat) :
    Option (BlueFS V A) :=
  if (s.nodes.files log).fnode.extents = [] then some s
  else
    (ops.foldlM replayOp s).map fun s =>
      let f := s.nodes.files log
      { s with
        log := { s.log with seqLive := logSeq + 1 }
        dirty := { s.dirty with seqLive := logSeq + 1, seqStable := logSeq }
        nodes := (s.nodes.setFile log { f with fnode := { f.fnode with size := pos } }).dropOrphans }

/-- The log file that `mount` makes before the replay. -/
def openLog (s : BlueFS V A) : FileRef × BlueFS V A :=
  let (r, nodes) := s.nodes.addFile 1
    { fnode := s.super.logFnode, vselectorHint := VolumeSelector.getHintForLog s.vselector }
  (r, { s with nodes := { nodes with inoLast := 1 } })

/-- `mount` of a BlueFS that has the superblock `super` and the operations `ops` in its log, with
the allocators of `_init_alloc`. -/
def mount [Allocator A] (s : BlueFS V A) (super : Super) (alloc : Nat → A) (ops : List LogOp)
    (logSeq pos : Nat) : Option (BlueFS V A) :=
  let (log, s) := { s with super }.initAlloc alloc |>.openLog
  (s.replay log ops logSeq pos).map fun s => s.mountReplayed log

end BlueFS

end Clab.Bluefs
