import Clab.Common.ByteString
import Clab.Lib.OrderedMap

/-!
# BlueFS types

Extents, fnodes with their incremental deltas, and the operations of the journal.
An fnode keeps beside its extents their running offsets, the allocated length and
the part of it that the journal already knows.
-/

namespace Clab.Bluefs

/-- `bluefs_extent_t`. -/
structure Extent where
  offset : Nat
  length : Nat
  bdev : Nat
  deriving DecidableEq, Repr

/-- `bluefs_extent_t::end`. -/
def Extent.stop (e : Extent) : Nat := e.offset + e.length

/-- `bluefs_fnode_delta_t`. -/
structure FnodeDelta where
  ino : Nat
  size : Nat
  mtime : Nat
  offset : Nat
  extents : List Extent
  deriving DecidableEq, Repr

/-- `bluefs_fnode_t`. -/
structure Fnode where
  ino : Nat := 0
  size : Nat := 0
  mtime : Nat := 0
  extents : List Extent := []
  extentsIndex : List Nat := []
  allocated : Nat := 0
  allocatedCommitted : Nat := 0
  deriving DecidableEq, Repr, Inhabited

namespace Fnode

/-- Does `append_extent` extend the last extent? -/
def merges (last ext : Extent) : Bool :=
  last.stop = ext.offset ∧ last.bdev = ext.bdev ∧ last.length + ext.length < 0xffffffff

/-- `append_extent`. -/
def appendExtent (f : Fnode) (ext : Extent) : Fnode :=
  match f.extents.getLast? with
  | some last =>
      if merges last ext then
        { f with
          extents := f.extents.dropLast ++ [{ last with length := last.length + ext.length }]
          allocated := f.allocated + ext.length }
      else
        { f with
          extentsIndex := f.extentsIndex ++ [f.allocated]
          extents := f.extents ++ [ext]
          allocated := f.allocated + ext.length }
  | none =>
      { f with
        extentsIndex := f.extentsIndex ++ [f.allocated]
        extents := f.extents ++ [ext]
        allocated := f.allocated + ext.length }

/-- `claim_extents`. -/
def claimExtents (f : Fnode) (es : List Extent) : Fnode := es.foldl appendExtent f

/-- `recalc_allocated`. -/
def recalcAllocated (f : Fnode) : Fnode :=
  let total := (f.extents.map Extent.length).sum
  { f with
    extentsIndex := (f.extents.map Extent.length).scanl (· + ·) 0 |>.dropLast
    allocated := total
    allocatedCommitted := total }

/-- `reset_delta`. -/
def resetDelta (f : Fnode) : Fnode := { f with allocatedCommitted := f.allocated }

/-- `clear_extents`. -/
def clearExtents (f : Fnode) : Fnode :=
  { f with extents := [], extentsIndex := [], allocated := 0, allocatedCommitted := 0 }

/-- The copy constructor: the counters are copied before the extents are appended. -/
def copy (f : Fnode) : Fnode :=
  claimExtents { f with extents := [], extentsIndex := [] } f.extents

/-- `clone_extents`. -/
def cloneExtents (f other : Fnode) : Fnode := f.claimExtents other.extents

/-- `pop_front_extent`; it is called on a list that is not empty. -/
def popFrontExtent (f : Fnode) : Fnode :=
  match f.extents with
  | [] => f
  | e :: es =>
      { f with
        extents := es
        extentsIndex := f.extentsIndex.tail.map (· - e.length)
        allocated := f.allocated - e.length }

/-- The fnode with the extents of another, as `swap_extents` leaves it. -/
def withExtentsOf (f other : Fnode) : Fnode :=
  { f with
    extents := other.extents
    extentsIndex := other.extentsIndex
    allocated := other.allocated
    allocatedCommitted := other.allocatedCommitted }

/-- `swap_extents`: both fnodes after it. -/
def swapExtents (f other : Fnode) : Fnode × Fnode := (f.withExtentsOf other, other.withExtentsOf f)

/-- `swap`: both fnodes after it. -/
def swap (f other : Fnode) : Fnode × Fnode :=
  swapExtents { f with ino := other.ino, size := other.size, mtime := other.mtime }
    { other with ino := f.ino, size := f.size, mtime := f.mtime }

/-- `decode` of the encoded fields. -/
def decode (f : Fnode) (ino size mtime : Nat) (extents : List Extent) : Fnode :=
  recalcAllocated { f with ino := ino, size := size, mtime := mtime, extents := extents }

/-- The loop of `make_delta`, from position `pos` on. -/
def extentsFrom (committed : Nat) : Nat → List Extent → List Extent
  | _, [] => []
  | pos, e :: es =>
      if pos + e.length ≤ committed then extentsFrom committed (pos + e.length) es
      else
        let skip := if pos < committed then committed - pos else 0
        let first := if skip = 0 then e else ⟨e.offset + skip, e.length - skip, e.bdev⟩
        first :: extentsFrom committed (pos + e.length) es

/-- `make_delta`. -/
def makeDelta (f : Fnode) : FnodeDelta :=
  ⟨f.ino, f.size, f.mtime, f.allocatedCommitted, extentsFrom f.allocatedCommitted 0 f.extents⟩

/-- `seek`: the number of the extent that holds byte `off`, and the offset in it. -/
def seek (f : Fnode) (off : Nat) : Option (Nat × Nat) :=
  if f.extents = [] ∨ f.allocated ≤ off then none
  else
    -- `upper_bound` on the index
    match (f.extentsIndex.takeWhile (· ≤ off)).length with
    | 0 => none
    | n + 1 => some (n, off - f.extentsIndex.getD n 0)

end Fnode

/-! ## The journal -/

/-- The operations of `bluefs_transaction_t`, with the operands that are encoded. -/
inductive LogOp
  | init
  | dirLink (dir file : Bytes) (ino : Nat)
  | dirUnlink (dir file : Bytes)
  | dirCreate (dir : Bytes)
  | dirRemove (dir : Bytes)
  | fileUpdate (ino size mtime : Nat) (extents : List Extent)
  | fileRemove (ino : Nat)
  | jump (nextSeq offset : Nat)
  | jumpSeq (nextSeq : Nat)
  | fileUpdateInc (delta : FnodeDelta)
  deriving DecidableEq, Repr

/-- `bluefs_transaction_t`; `ops` is what `op_bl` encodes. -/
structure Transaction where
  uuid : Bytes := []
  seq : Nat := 0
  ops : List LogOp := []
  deriving DecidableEq, Repr

namespace Transaction

def push (t : Transaction) (op : LogOp) : Transaction := { t with ops := t.ops ++ [op] }

/-- `op_file_update`: the record, and the fnode after `reset_delta`. -/
def opFileUpdate (t : Transaction) (f : Fnode) : Transaction × Fnode :=
  (t.push (.fileUpdate f.ino f.size f.mtime f.extents), f.resetDelta)

/-- `op_file_update_inc`: the record, and the fnode after `reset_delta`. -/
def opFileUpdateInc (t : Transaction) (f : Fnode) : Transaction × Fnode :=
  (t.push (.fileUpdateInc f.makeDelta), f.resetDelta)

end Transaction

end Clab.Bluefs
