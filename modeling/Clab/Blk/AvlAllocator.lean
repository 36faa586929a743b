import Clab.Blk.Allocator
import Clab.Blk.BlockDevice
import Clab.Common.IntArith
import Clab.Lib.RangeSet

/-!
# The AVL allocator

The free ranges of a device in two trees over the same nodes: `range_tree_` in
order of offsets and `range_size_tree_` in order of lengths. A tree is the list
of its nodes in order, a position in it the nodes before and after. The source
takes a node out of `range_size_tree_` before it changes the node, so here the
two lists hold the same values.

The first loop of `_pick_block_after` reads the start of the node it begins at;
when that is the end of the tree the value is what memory happens to hold,
which is the field `endStart`.
-/

namespace Clab.Blk

open Clab.Common Clab.RangeSet

/-- How a call can fail to return. Running out of fuel stands for a loop that
does not end. -/
inductive AvlFault
  | assertFail
  | divByZero
  | outOfFuel
  deriving DecidableEq, Repr

/-- `range_seg_t`. -/
abbrev RangeSeg := Segment Nat

/-- `range_seg_t::length`. -/
def rangeLength (r : RangeSeg) : Nat := r.stop - r.start

/-- `range_seg_t::shorter_t`. -/
def shorter (lhs rhs : RangeSeg) : Bool :=
  if rangeLength lhs < rangeLength rhs then true
  else if rangeLength lhs > rangeLength rhs then false
  else lhs.start < rhs.start

structure AvlAllocator where
  deviceSize : Nat
  blockSize : Nat
  rangeTree : List RangeSeg := []
  rangeSizeTree : List RangeSeg := []
  numFree : Nat := 0
  lbas : Nat → Nat := fun _ => 0
  rangeCountCap : Nat := 0
  endStart : Nat := 0
  /-- The ranges given to `_spillover_range`, the last first. -/
  spilled : List RangeSeg := []

namespace AvlAllocator

def rangeSizeAllocThreshold : Nat := 128 * 1024
def rangeSizeAllocFreePct : Nat := 4
def maxSearchCount : Nat := 100
def maxSearchBytes : Nat := 16 * 1024 * 1024

/-! ## Searching -/

/-- How the first loop of `_pick_block_after` ends. -/
inductive Scan
  | found (offset : Nat)
  | giveUp
  | atEnd (searchCount searchBytes : Nat)

/-- The first loop of `_pick_block_after`, from `rs_start` on. -/
def scanAfter (size align startOfFirst : Nat) : List RangeSeg → Nat → Nat → Scan
  | [], searchCount, searchBytes => .atEnd searchCount searchBytes
  | rs :: rest, searchCount, _ =>
      let offset := p2roundup rs.start align
      if add64 offset size ≤ rs.stop then .found offset
      else if searchCount + 1 > maxSearchCount then .giveUp
      else
        let searchBytes := sub64 rs.start startOfFirst
        if searchBytes > maxSearchBytes then .giveUp
        else scanAfter size align startOfFirst rest (searchCount + 1) searchBytes

/-- The second loop of `_pick_block_after`, up to `rs_start`. -/
def scanBefore (size align startOfFirst searchBytes : Nat) : List RangeSeg → Nat → Option Nat
  | [], _ => none
  | rs :: rest, searchCount =>
      let offset := p2roundup rs.start align
      if add64 offset size ≤ rs.stop then some offset
      else if searchCount + 1 > maxSearchCount then none
      else if add64 searchBytes (sub64 startOfFirst rs.start) > maxSearchBytes then none
      else scanBefore size align startOfFirst searchBytes rest (searchCount + 1)

/-- The search of `_pick_block_after` from `cursor` on, without the update of
the cursor. -/
def searchAfter (a : AvlAllocator) (cursor size align : Nat) : Option Nat :=
  let before := a.rangeTree.takeWhile fun r => decide (r.stop ≤ cursor)
  let after := a.rangeTree.dropWhile fun r => decide (r.stop ≤ cursor)
  let startOfFirst := (after.head?.map (·.start)).getD a.endStart
  match scanAfter size align startOfFirst after 0 0 with
  | .found offset => some offset
  | .giveUp => none
  | .atEnd searchCount searchBytes =>
      if cursor = 0 then none
      else scanBefore size align startOfFirst searchBytes before searchCount

/-- `_pick_block_after` on `lbas_[i]`; `none` is -1. -/
def pickBlockAfter (a : AvlAllocator) (i size align : Nat) : Option Nat × AvlAllocator :=
  match a.searchAfter (a.lbas i) size align with
  | some offset =>
      (some offset, { a with lbas := Function.update a.lbas i (add64 offset size) })
  | none => (none, a)

/-- The loop of `_pick_block_fits`. -/
def scanFits (size align : Nat) : List RangeSeg → Nat → Option Nat
  | [], _ => none
  | rs :: rest, searchCount =>
      if searchCount + 1 > maxSearchCount then none
      else
        let offset := p2roundup rs.start align
        if add64 offset size ≤ rs.stop then some offset
        else scanFits size align rest (searchCount + 1)

/-- `_pick_block_fits`; `none` is -1. -/
def pickBlockFits (a : AvlAllocator) (size align : Nat) : Option Nat :=
  scanFits size align (a.rangeSizeTree.dropWhile fun r => decide (rangeLength r < size)) 0

/-! ## The two trees -/

/-- `_range_size_tree_rm`. -/
def rangeSizeTreeRm (a : AvlAllocator) (r : RangeSeg) : Except AvlFault AvlAllocator :=
  if a.numFree < rangeLength r then .error .assertFail
  else
    .ok { a with
      numFree := a.numFree - rangeLength r
      rangeSizeTree := a.rangeSizeTree.erase r }

/-- `range_size_tree_.insert(r)` with the count of free bytes. -/
def rangeSizeTreeInsert (a : AvlAllocator) (r : RangeSeg) : AvlAllocator :=
  { a with
    rangeSizeTree := a.rangeSizeTree.orderedInsert (fun x y => shorter x y) r
    numFree := a.numFree + rangeLength r }

/-- `_spillover_range`, which subclasses override. -/
def spilloverRange (a : AvlAllocator) (start stop : Nat) : AvlAllocator :=
  { a with spilled := ⟨start, stop⟩ :: a.spilled }

/-- `_lowest_size_available`. -/
def lowestSizeAvailable (a : AvlAllocator) : Nat :=
  match a.rangeSizeTree with
  | r :: _ => rangeLength r
  | [] => 0

/-- The end of `_try_insert_range`: the smallest range goes. -/
def removeLowest (a : AvlAllocator) : Except AvlFault AvlAllocator :=
  match a.rangeSizeTree with
  | [] => .ok a
  | r :: _ => do
      let a ← a.rangeSizeTreeRm r
      let a := a.spilloverRange r.start r.stop
      .ok { a with rangeTree := a.rangeTree.erase r }

/-- The new node of `_try_insert_range`, when a position is given. -/
def placeRange (a : AvlAllocator) (start stop : Nat) : Option Nat → AvlAllocator
  | none => a
  | some pos =>
      { a with rangeTree := a.rangeTree.insertIdx pos ⟨start, stop⟩ }.rangeSizeTreeInsert
        ⟨start, stop⟩

/-- `_try_insert_range`; the position counts the nodes before it. -/
def tryInsertRange (a : AvlAllocator) (start stop : Nat) (insertPos : Option Nat) :
    Except AvlFault (Bool × AvlAllocator) :=
  if a.rangeCountCap = 0 ∨ a.rangeSizeTree.length < a.rangeCountCap then
    .ok (true, a.placeRange start stop insertPos)
  else if stop - start > a.lowestSizeAvailable then do
    let a ← (a.placeRange start stop insertPos).removeLowest
    .ok (true, a)
  else .ok (false, a.spilloverRange start stop)

/-- `_range_size_tree_try_insert`. -/
def rangeSizeTreeTryInsert (a : AvlAllocator) (r : RangeSeg) : Except AvlFault AvlAllocator := do
  let (res, a) ← a.tryInsertRange r.start r.stop none
  if res then .ok (a.rangeSizeTreeInsert r)
  else .ok { a with rangeTree := a.rangeTree.erase r }

/-- `_add_to_tree`. -/
def addToTree (a : AvlAllocator) (start size : Nat) : Except AvlFault AvlAllocator :=
  if size = 0 then .error .assertFail
  else
    let stop := add64 start size
    let before := a.rangeTree.takeWhile fun r => !decide (stop ≤ r.start)
    let after := a.rangeTree.dropWhile fun r => !decide (stop ≤ r.start)
    let mergeBefore := before.getLast?.filter fun r => r.stop = start
    let mergeAfter := after.head?.filter fun r => r.start = stop
    match mergeBefore, mergeAfter with
    | some rsBefore, some rsAfter => do
        let a ← a.rangeSizeTreeRm rsBefore
        let a ← a.rangeSizeTreeRm rsAfter
        let r : RangeSeg := ⟨rsBefore.start, rsAfter.stop⟩
        { a with rangeTree := before.dropLast ++ r :: after.tail }.rangeSizeTreeTryInsert r
    | some rsBefore, none => do
        let a ← a.rangeSizeTreeRm rsBefore
        let r : RangeSeg := ⟨rsBefore.start, stop⟩
        { a with rangeTree := before.dropLast ++ r :: after }.rangeSizeTreeTryInsert r
    | none, some rsAfter => do
        let a ← a.rangeSizeTreeRm rsAfter
        let r : RangeSeg := ⟨start, rsAfter.stop⟩
        { a with rangeTree := before ++ r :: after.tail }.rangeSizeTreeTryInsert r
    | none, none => do
        let (_, a) ← a.tryInsertRange start stop (some before.length)
        .ok a

/-- `_process_range_removal` of the node `rs` between `before` and `after`. -/
def processRangeRemoval (a : AvlAllocator) (start stop : Nat) (before : List RangeSeg)
    (rs : RangeSeg) (after : List RangeSeg) : Except AvlFault AvlAllocator := do
  let a ← a.rangeSizeTreeRm rs
  if rs.start ≠ start ∧ rs.stop ≠ stop then
    let left : RangeSeg := ⟨rs.start, start⟩
    let a := { a with rangeTree := before ++ left :: after }
    let (_, a) ← a.tryInsertRange stop rs.stop (some (before.length + 1))
    a.rangeSizeTreeTryInsert left
  else if rs.start ≠ start then
    let left : RangeSeg := ⟨rs.start, start⟩
    { a with rangeTree := before ++ left :: after }.rangeSizeTreeTryInsert left
  else if rs.stop ≠ stop then
    let right : RangeSeg := ⟨stop, rs.stop⟩
    { a with rangeTree := before ++ right :: after }.rangeSizeTreeTryInsert right
  else .ok { a with rangeTree := before ++ after }

/-- `_remove_from_tree`; false when the range is not in the tree. -/
def removeFromTree (a : AvlAllocator) (start size : Nat) :
    Except AvlFault (Bool × AvlAllocator) :=
  if size = 0 then .error .assertFail
  else
    let stop := add64 start size
    let before := a.rangeTree.takeWhile fun r => decide (r.stop ≤ start)
    match a.rangeTree.dropWhile fun r => decide (r.stop ≤ start) with
    | [] => .ok (false, a)
    | rs :: after =>
        if stop ≤ rs.start ∨ rs.start > start ∨ rs.stop < stop then .ok (false, a)
        else if a.numFree < size then .error .assertFail
        else do
          let a ← a.processRangeRemoval start stop before rs after
          .ok (true, a)

/-! ## Allocation -/

/-- The loop of `_allocate_single` that halves the size until a block fits. -/
def fitHalving (a : AvlAllocator) (unit : Nat) :
    Nat → Nat → Except AvlFault (Option (Nat × Nat))
  | 0, _ => .error .outOfFuel
  | n + 1, size =>
      match a.pickBlockFits size unit with
      | some start => .ok (some (start, size))
      | none =>
          let size := p2align (size / 2) unit
          if size ≥ unit then a.fitHalving unit n size else .ok none

/-- `_allocate_single` once the size is known: the block, found by the cursor
of its alignment or by size. -/
def chooseBlock (a : AvlAllocator) (size unit : Nat) (bySize : Bool) :
    Except AvlFault (Option (Nat × Nat) × AvlAllocator) :=
  if bySize then do
    let block ← a.fitHalving unit 64 size
    .ok (block, a)
  else
    let align := size &&& sub64 0 size
    if align = 0 then .error .assertFail
    else
      match a.pickBlockAfter (Nat.log2 align) size unit with
      | (some start, a) => .ok (some (start, size), a)
      | (none, a) => do
          let block ← a.fitHalving unit 64 size
          .ok (block, a)

/-- `_allocate_single`; no block is `-ENOSPC`. -/
def allocateSingle (a : AvlAllocator) (size unit : Nat) :
    Except AvlFault (Option (Nat × Nat) × AvlAllocator) :=
  let maxSize := (a.rangeSizeTree.getLast?.map rangeLength).getD 0
  let force := maxSize < size
  if force ∧ maxSize < unit then .ok (none, a)
  else
    let size := if force then p2align maxSize unit else size
    if force ∧ size = 0 then .error .assertFail
    else if a.deviceSize = 0 then .error .divByZero
    else do
      let freePct := a.numFree * 100 % 2 ^ 64 / a.deviceSize
      let bySize := decide (force ∨ maxSize < rangeSizeAllocThreshold ∨
        freePct < rangeSizeAllocFreePct)
      match ← a.chooseBlock size unit bySize with
      | (none, a) => .ok (none, a)
      | (some (start, size), a) => do
          let (_, a) ← a.removeFromTree start size
          .ok (some (start, size), a)

/-- The loop of `_allocate`. The length of a `pextent_t` has 32 bits. -/
def allocateLoop (want unit maxAllocSize : Nat) :
    Nat → Nat → List PExtent → AvlAllocator → Except AvlFault (Nat × List PExtent × AvlAllocator)
  | 0, _, _, _ => .error .outOfFuel
  | n + 1, allocated, extents, a =>
      if allocated < want then do
        match ← a.allocateSingle (min maxAllocSize (want - allocated)) unit with
        | (none, a) => .ok (allocated, extents, a)
        | (some (offset, length), a) =>
            allocateLoop want unit maxAllocSize n (allocated + length)
              (extents ++ [⟨offset, length % 2 ^ 32⟩]) a
      else .ok (allocated, extents, a)

/-- `_allocate`. -/
def allocateInner (a : AvlAllocator) (want unit maxAllocSize : Nat) :
    Except AvlFault (Int × List PExtent × AvlAllocator) := do
  let (allocated, extents, a) ← allocateLoop want unit maxAllocSize (want + 1) 0 [] a
  .ok (if allocated = 0 then -enospc else allocated, extents, a)

/-- The largest `pextent_t::length`. -/
def lengthCap : Nat := 2 ^ 32 - 1

/-- The bound of `allocate` on the length of an extent. The block size need not
be a power of two, so this is the mask of the source. -/
def maxExtent (a : AvlAllocator) (want maxAllocSize : Nat) : Nat :=
  let maxAllocSize := if maxAllocSize = 0 then want else maxAllocSize
  if maxAllocSize ≥ lengthCap then lengthCap &&& sub64 0 a.blockSize else maxAllocSize

/-- `allocate`. -/
def allocate (a : AvlAllocator) (want unit maxAllocSize : Nat) :
    Except AvlFault (Int × List PExtent × AvlAllocator) :=
  if !isp2 unit then .error .assertFail
  else if want % unit ≠ 0 then .error .assertFail
  else a.allocateInner want unit (a.maxExtent want maxAllocSize)

/-! ## Freeing -/

/-- The loop of `_release`. -/
def release (a : AvlAllocator) : IntervalSet → Except AvlFault AvlAllocator
  | [] => .ok a
  | p :: rest =>
      if add64 p.1 p.2 > a.deviceSize then .error .assertFail
      else do
        let a ← a.addToTree p.1 p.2
        a.release rest

/-- `init_add_free`. -/
def initAddFree (a : AvlAllocator) (offset length : Nat) : Except AvlFault AvlAllocator :=
  if length = 0 then .ok a
  else if add64 offset length > a.deviceSize then .error .assertFail
  else a.addToTree offset length

/-- `init_rm_free`. -/
def initRmFree (a : AvlAllocator) (offset length : Nat) : Except AvlFault AvlAllocator :=
  if length = 0 then .ok a
  else if add64 offset length > a.deviceSize then .error .assertFail
  else do
    let (_, a) ← a.removeFromTree offset length
    .ok a

/-- `get_free`. -/
def getFree (a : AvlAllocator) : Nat := a.numFree

/-- A failed assertion ends the process; its callers see no new state. -/
def settle {α : Type} (x : Except AvlFault α) (stopped : α) : α :=
  match x with
  | .ok y => y
  | .error _ => stopped

instance : Allocator AvlAllocator where
  allocate a want unit maxAllocSize _ := settle (a.allocate want unit maxAllocSize) (-enospc, [], a)
  release a releaseVec := settle (a.release (IntervalSet.ofExtents releaseVec)) a
  initAddFree a offset length := settle (a.initAddFree offset length) a
  initRmFree a offset length := settle (a.initRmFree offset length) a
  getFree a := a.getFree
  getCapacity a := a.deviceSize

end AvlAllocator

end Clab.Blk
