import Clab.Common.ByteString

/-!
# Buffer lists

`buffer::list` over raw buffers that lists share. A node is a range of a raw
buffer; the node that `_carriage` points to is marked, and what is appended goes
behind it into the unused tail of its raw buffer. A raw buffer remembers the last
checksum that was computed of a range of it.
-/

namespace Clab.Common

/-- `BUFFER_ALLOC_UNIT`, and `sizeof(raw_combined)` with 64-bit pointers. -/
def bufferAllocUnit : Nat := 4096
def rawCombinedSize : Nat := 88

/-- `BUFFER_ALLOC_UNIT_MAX`. -/
def bufferAllocUnitMax : Nat := 256 * 1024

/-- `round_up_to`. -/
def roundUpTo (n d : Nat) : Nat := if n % d = 0 then n else n + (d - n % d)

/-- `raw`: its memory, and `last_crc_offset` with `last_crc_val` where they are set. -/
structure Raw where
  data : List UInt8 := []
  crc : Option ((Nat × Nat) × BitVec 32 × BitVec 32) := none

/-- The memory of the range. -/
def Raw.slice (r : Raw) (off len : Nat) : List UInt8 := (r.data.drop off).take len

/-- `memcpy` to `off`. -/
def Raw.copyTo (r : Raw) (off : Nat) (src : List UInt8) : Raw :=
  { r with data := r.data.take off ++ src ++ r.data.drop (off + src.length) }

/-- `ptr_node`. -/
structure BufferNode where
  raw : Nat
  off : Nat
  len : Nat
  /-- `_carriage` of the list points to the node. -/
  carriage : Bool := false
  deriving DecidableEq

namespace BufferNode

/-- `end`. -/
def stop (n : BufferNode) : Nat := n.off + n.len

/-- Another node of the same range. -/
def copy (n : BufferNode) : BufferNode := { n with carriage := false }

end BufferNode

/-- `list`; without a marked node `_carriage` is `always_empty_bptr`. -/
structure BufferList where
  nodes : List BufferNode := []
  len : Nat := 0
  num : Nat := 0

/-- All raw buffers and the lists on them. -/
structure Buffers where
  raws : Nat → Raw := fun _ => {}
  nextRaw : Nat := 0
  lists : Nat → BufferList := fun _ => {}

namespace Buffers

/-- The bytes of a node, and of a list. -/
def nodeBytes (b : Buffers) (n : BufferNode) : List UInt8 := (b.raws n.raw).slice n.off n.len
def bytes (b : Buffers) (l : Nat) : List UInt8 := (b.lists l).nodes.flatMap b.nodeBytes

def setList (b : Buffers) (l : Nat) (list : BufferList) : Buffers :=
  { b with lists := Function.update b.lists l list }

def setRaw (b : Buffers) (r : Nat) (raw : Raw) : Buffers :=
  { b with raws := Function.update b.raws r raw }

/-! ## Appending -/

/-- `_carriage`. -/
def carriage (b : Buffers) (l : Nat) : Option BufferNode :=
  (b.lists l).nodes.find? BufferNode.carriage

/-- `_carriage == &_buffers.back()`. -/
def carriageLast (b : Buffers) (l : Nat) : Bool :=
  (b.lists l).nodes.getLast?.any BufferNode.carriage

/-- `get_append_buffer_unused_tail_length`. -/
def unusedTail (b : Buffers) (l : Nat) : Nat :=
  match b.carriage l with
  | none => 0
  | some c => (b.raws c.raw).data.length - c.stop

/-- A node behind the others that becomes the carriage. -/
def pushCarriage (b : Buffers) (l : Nat) (n : BufferNode) : Buffers :=
  b.setList l { b.lists l with
    nodes := (b.lists l).nodes.map BufferNode.copy ++ [{ n with carriage := true }]
    num := (b.lists l).num + 1 }

/-- The carriage is made the last node: an empty node behind it takes its place. -/
def openTail (b : Buffers) (l : Nat) : Buffers :=
  if b.carriageLast l then b
  else
    match b.carriage l with
    | none => b
    | some c => b.pushCarriage l { raw := c.raw, off := c.stop, len := 0 }

/-- `alen` in `refill_append_space`, the size of the raw buffer and its header. -/
def refillLength (b : Buffers) (l len : Nat) : Nat :=
  let alen := roundUpTo (roundUpTo len 8 + rawCombinedSize) bufferAllocUnit
  match b.carriage l with
  | none => alen
  | some c =>
      if b.carriageLast l then
        max alen (min (roundUpTo (b.raws c.raw).data.length bufferAllocUnit * 2) bufferAllocUnitMax)
      else alen

/-- `refill_append_space`. -/
def refillAppendSpace (b : Buffers) (l len : Nat) : Buffers :=
  let raw : Raw := { data := List.replicate (b.refillLength l len - rawCombinedSize) 0 }
  ({ b.setRaw b.nextRaw raw with nextRaw := b.nextRaw + 1 }).pushCarriage l
    { raw := b.nextRaw, off := 0, len := 0 }

/-- `ptr::append` to the last node. -/
def writeTail (b : Buffers) (l : Nat) (data : List UInt8) : Buffers :=
  match (b.lists l).nodes.getLast? with
  | none => b
  | some c =>
      (b.setRaw c.raw ((b.raws c.raw).copyTo c.stop data)).setList l { b.lists l with
        nodes := (b.lists l).nodes.dropLast ++ [{ c with len := c.len + data.length }] }

/-- `append(data, len)`. -/
def append (b : Buffers) (l : Nat) (data : List UInt8) : Buffers :=
  let b := b.setList l { b.lists l with len := (b.lists l).len + data.length }
  let first := min data.length (b.unusedTail l)
  let b := if first = 0 then b else (b.openTail l).writeTail l (data.take first)
  if data.length - first = 0 then b
  else (b.refillAppendSpace l (data.length - first)).writeTail l (data.drop first)

/-- `append(bl)` of another list. -/
def appendList (b : Buffers) (l src : Nat) : Buffers :=
  b.setList l
    { nodes := (b.lists l).nodes ++ (b.lists src).nodes.map BufferNode.copy
      len := (b.lists l).len + (b.lists src).len
      num := (b.lists l).num + (b.lists src).num }

/-- `claim_append(bl)` of another list, which is left empty. -/
def claimAppend (b : Buffers) (l src : Nat) : Buffers :=
  (b.appendList l src).setList src {}

/-! ## Ranges -/

/-- The nodes that end at or before `off`, the rest of `off`, and the other nodes. -/
def seek : Nat → List BufferNode → List BufferNode × Nat × List BufferNode
  | off, [] => ([], off, [])
  | off, n :: ns =>
      if 0 < off ∧ n.len ≤ off then
        let (before, rest, after) := seek (off - n.len) ns
        (n :: before, rest, after)
      else ([], off, n :: ns)

/-- What a loop over `len` bytes from `off` of the first node on takes out: the pieces, the nodes
that are left, and the carriage where it is among what is taken out. -/
def takeOut : Nat → Nat → List BufferNode → List BufferNode × List BufferNode × List BufferNode
  | _, _, [] => ([], [], [])
  | off, len, n :: ns =>
      if len = 0 then ([], n :: ns, [])
      else if off + len < n.len then
        ([{ raw := n.raw, off := n.off + off, len := len }],
          { n with off := n.off + (off + len), len := n.len - (off + len) } :: ns, [])
      else
        let (pieces, left, moved) := takeOut 0 (len - (n.len - off)) ns
        ({ raw := n.raw, off := n.off + off, len := n.len - off } :: pieces, left,
          if n.carriage then { n with off := n.stop, len := 0 } :: moved else moved)

/-- `substr_of`; `none` is an exception or a failed assertion. -/
def substrOf (b : Buffers) (l src off len : Nat) : Option Buffers :=
  if (b.lists src).len < off + len then none
  else
    let (_, rest, nodes) := seek off (b.lists src).nodes
    let pieces := (takeOut rest len nodes).1
    some (b.setList l { nodes := pieces, len := (pieces.map BufferNode.len).sum, num := pieces.length })

/-- `append(bp, off, len)`, where the piece is already cut out. -/
def appendPiece (list : BufferList) (p : BufferNode) : BufferList :=
  match list.nodes.getLast? with
  | none => { list with nodes := [p], len := list.len + p.len, num := list.num + 1 }
  | some last =>
      if last.raw = p.raw ∧ last.stop = p.off then
        { list with
          nodes := list.nodes.dropLast ++ [{ last with len := last.len + p.len }]
          len := list.len + p.len }
      else { list with nodes := list.nodes ++ [p], len := list.len + p.len, num := list.num + 1 }

/-- What `splice` does with a piece where there is `claim_by`. -/
def claimPieces (b : Buffers) (claimBy : Option Nat) (ps : List BufferNode) : Buffers :=
  match claimBy with
  | none => b
  | some m => b.setList m (ps.foldl appendPiece (b.lists m))

/-- `splice` of a range in the list, with `claim_by` another list; `none` is an exception, or a
range that ends behind the list. -/
def splice (b : Buffers) (l off len : Nat) (claimBy : Option Nat) : Option Buffers :=
  let list := b.lists l
  if len = 0 then some b
  else if list.len < off + len then none
  else
    let (before, rest, nodes) := seek off list.nodes
    let front := nodes.head?.toList.filterMap fun n =>
      if 0 < rest then some { raw := n.raw, off := n.off, len := rest } else none
    let (pieces, left, moved) := takeOut rest len nodes
    some ((b.claimPieces claimBy pieces).setList l
      { nodes := before ++ front ++ left ++ moved
        len := list.len - len
        num := list.num + front.length - (nodes.length - left.length - moved.length) })

/-! ## Writing in place -/

/-- `list::iterator::copy_in` from `off` of the first node on, with the checksums reset. Past the
end it throws, after what fits is written. -/
def copyInNodes (raws : Nat → Raw) : List BufferNode → Nat → List UInt8 → Nat → Raw
  | [], _, _ => raws
  | n :: ns, off, src =>
      if src = [] then raws
      else if n.len ≤ off then copyInNodes raws ns (off - n.len) src
      else
        let howmuch := min src.length (n.len - off)
        let raw := { (raws n.raw).copyTo (n.off + off) (src.take howmuch) with crc := none }
        copyInNodes (Function.update raws n.raw raw) ns 0 (src.drop howmuch)

/-- `copy_in` at `off`. -/
def copyIn (b : Buffers) (l off : Nat) (src : List UInt8) : Buffers :=
  { b with raws := copyInNodes b.raws (b.lists l).nodes off src }

end Buffers

end Clab.Common
