import Clab.Bluefs.State
import Clab.Common.IntArith

/-!
# Space and file data

Allocation for a file, the buffered writer with its flush, truncation and
preallocation, and random reads. A writer is a value: a call returns it as it
leaves it. `flushF_spec` says what a flush changes beside the devices.
-/

namespace Clab.Bluefs

open Blk Common

/-- `get_buffer_length`, an `unsigned`. -/
def FileWriter.bufferLength (h : FileWriter) : Nat := h.buffer.length % 2 ^ 32

/-- `append`; the buffer list takes the length as an `unsigned`. -/
def FileWriter.append (h : FileWriter) (buf : Bytes) : FileWriter :=
  { h with buffer := h.buffer ++ buf.take (buf.length % 2 ^ 32) }

namespace BlueFS

variable {V A : Type} [VolumeSelector V] [Allocator A]

/-! ## Allocation -/

/-- The loop of `_allocate` over the devices; every caller passes no hint or a hint of 0. -/
def allocateFrom (s : BlueFS V A) (need unit : Nat) (node : Fnode) :
    List Nat → Int × Fnode × BlueFS V A
  | [] => (-enospc, node, s)
  | id :: ids =>
      match s.bdev id with
      | none => allocateFrom s need unit node ids
      | some _ =>
          let (got, extents, a) := Allocator.allocate (s.alloc id) need unit 0 0
          let s := { s with alloc := Function.update s.alloc id a }
          if got ≤ 0 then allocateFrom s need unit node ids
          else
            let s := if s.sharedAllocId = some id
              then { s with bluefsUsed := s.bluefsUsed + got.toNat } else s
            (0, node.claimExtents (extents.map fun e => ⟨e.offset, e.length, id⟩), s)

/-- `_allocate`. -/
def allocate (s : BlueFS V A) (preferBdev len allocUnit : Nat) (node : Fnode) :
    Int × Fnode × BlueFS V A :=
  let unit :=
    if allocUnit = 0 then
      if s.allocSize preferBdev = 0 then s.cfg.allocSize else s.allocSize preferBdev
    else allocUnit
  s.allocateFrom (p2roundup len unit) unit node (List.range' preferBdev (MAX_BDEV - preferBdev))

/-! ## Writing -/

omit [VolumeSelector V] [Allocator A] in
/-- The write loop of `_flush_data` and `_flush_log_data`: `bl` goes to the extents `es`, into
the first one from `x` on; it stops where either ends. -/
def writeExtents (s : BlueFS V A) (h : FileWriter) (buffered : Bool) :
    List Extent → Nat → Bytes → Int × FileWriter × BlueFS V A
  | [], _, _ => (0, h, s)
  | e :: es, x, bl =>
      if bl = [] then (0, h, s)
      else
        match s.bdev e.bdev with
        | none => (-enoent, h, s)
        | some d =>
            let n := min (e.length - x) bl.length
            let (r, d) := d.write (e.offset + x) (bl.take n) buffered
            let s := { s with bdev := Function.update s.bdev e.bdev (some d) }
            if r < 0 then (r, h, s)
            else
              let h := { h with dirtyDevs := Function.update h.dirtyDevs e.bdev true }
              writeExtents s h buffered es 0 (bl.drop n)

/-- `_flush_bdev`; the results of the flushes are dropped. -/
def flushBdev (s : BlueFS V A) (h : FileWriter) : FileWriter × BlueFS V A :=
  ({ h with dirtyDevs := fun i => h.dirtyDevs i && decide (MAX_BDEV ≤ i) },
    { s with bdev := fun i => (s.bdev i).map fun d =>
        if h.dirtyDevs i ∧ i < MAX_BDEV then d.flush.2 else d })

/-- `h->pos += length` and the size of the file. -/
def advance (s : BlueFS V A) (h : FileWriter) (length : Nat) : FileWriter × BlueFS V A :=
  let pos := h.pos + length
  let f := s.nodes.files h.file
  let fnode := { f.fnode with size := max f.fnode.size pos }
  ({ h with pos := pos }, { s with nodes := s.nodes.setFile h.file { f with fnode } })

/-- `_flush_data`. -/
def flushData (s : BlueFS V A) (h : FileWriter) (offset length : Nat) (buffered : Bool) :
    Int × FileWriter × BlueFS V A :=
  if length = 0 then (0, h, s)
  else
    let fnode := (s.nodes.files h.file).fnode
    match fnode.seek offset with
    | none => (-enoent, h, s)
    | some (i, x) =>
        let (r, h, s) := s.writeExtents h buffered (fnode.extents.drop i) x
          (h.buffer.take h.bufferLength)
        if r < 0 then (r, h, s)
        else
          let (h, s) := s.advance h length
          (0, h, s)

/-- The growth of the file in `_flush_range_F`, to `stop` bytes. -/
def growSize (s : BlueFS V A) (r : FileRef) (stop : Nat) : BlueFS V A :=
  let f := s.nodes.files r
  if f.fnode.size < stop then
    let vselector :=
      if f.vselectorHint ≠ 0
      then VolumeSelector.addSize s.vselector f.vselectorHint (stop - f.fnode.size) false
      else s.vselector
    { s with
      vselector
      nodes := s.nodes.setFile r { f with fnode := { f.fnode with size := stop }, isDirty := true } }
  else s

/-- The allocation in `_flush_range_F`, up to `stop` bytes. -/
def growSpace (s : BlueFS V A) (r : FileRef) (stop : Nat) : Int × BlueFS V A :=
  let f := s.nodes.files r
  if f.fnode.allocated < stop then
    let prefer := VolumeSelector.selectPreferBdev s.vselector f.vselectorHint
    let (res, fnode, s) := s.allocate prefer (stop - f.fnode.allocated) 0 f.fnode
    if res < 0 then (res, s)
    else (0, { s with nodes := s.nodes.setFile r { f with fnode, isDirty := true } })
  else (0, s)

/-- `_flush_range_F` once the bytes before the position are cut off. -/
def flushFrom (s : BlueFS V A) (h : FileWriter) (offset length : Nat) :
    Int × FileWriter × BlueFS V A :=
  let (r, s) := s.growSpace h.file (offset + length)
  if r < 0 then (r, h, s)
  else (s.growSize h.file (offset + length)).flushData h offset length s.cfg.bufferedIo

/-- `_flush_range_F`. -/
def flushRange (s : BlueFS V A) (h : FileWriter) (offset length : Nat) :
    Int × FileWriter × BlueFS V A :=
  if (s.nodes.files h.file).deleted then (0, h, s)
  else if offset + length ≤ h.pos then (0, h, s)
  else if offset < h.pos then s.flushFrom h h.pos (length - (h.pos - offset))
  else s.flushFrom h offset length

/-- `_flush_F`. -/
def flushF (s : BlueFS V A) (h : FileWriter) (force : Bool) : Int × FileWriter × BlueFS V A :=
  if h.bufferLength = 0 then (0, h, s)
  else if !force ∧ h.bufferLength < s.cfg.minFlushSize then (0, h, s)
  else
    let (r, h, s) := s.flushRange h h.pos h.bufferLength
    if r = 0 then (0, { h with buffer := [] }, s) else (r, h, s)

/-- `append_try_flush`. -/
def appendTryFlush (s : BlueFS V A) (h : FileWriter) (buf : Bytes) :
    Int × FileWriter × BlueFS V A :=
  let h := h.append buf
  if s.cfg.minFlushSize ≤ h.bufferLength then s.flushF h false else (0, h, s)

/-! ## Reading -/

omit [VolumeSelector V] [Allocator A] in
/-- The loop of `_read_random`; `none` is a loop that outlives its fuel, or a device that is not
there. -/
def readRandomLoop (s : BlueFS V A) (r : FileRef) : Nat → Nat → Nat →
    Option (Int × Bytes × BlueFS V A)
  | 0, _, len => if len = 0 then some (0, [], s) else none
  | fuel + 1, off, len =>
      if len = 0 then some (0, [], s)
      else
        match (s.nodes.files r).fnode.seek off with
        | none => some (0, [], s)
        | some (i, x) =>
            match (s.nodes.files r).fnode.extents[i]? with
            | none => none
            | some p =>
                match s.bdev p.bdev with
                | none => none
                | some d =>
                    let l := min (min (p.length - x) len) (2 ^ 30)
                    let (res, out, d) := d.readRandom (p.offset + x) l
                    let s := { s with bdev := Function.update s.bdev p.bdev (some d) }
                    if res < 0 then some (res, [], s)
                    else
                      (readRandomLoop s r fuel (off + l) (len - l)).map fun (ret, rest, s) =>
                        (if ret < 0 then ret else l + ret, out ++ rest, s)

omit [VolumeSelector V] [Allocator A] in
/-- `_read_random`: the result, the bytes put in the buffer, and the state. -/
def readRandom (s : BlueFS V A) (r : FileRef) (ignoreEof : Bool) (off len : Nat) :
    Option (Int × Bytes × BlueFS V A) :=
  let size := (s.nodes.files r).fnode.size
  let len := if !ignoreEof ∧ size < off + len then size - off else len
  s.readRandomLoop r len off len

/-! ## Truncation and preallocation -/

/-- The loop of `truncate`: what is kept of the extents, the first of which starts at `pos`,
and what is freed. -/
def cutExtents (offset : Nat) : Nat → List Extent → List Extent × List Extent
  | _, [] => ([], [])
  | pos, e :: es =>
      let (kept, freed) := cutExtents offset (pos + e.length) es
      if pos < offset then
        let keep := min e.length (offset - pos)
        ({ e with length := keep } :: kept,
          if keep < e.length then ⟨e.offset + keep, e.length - keep, e.bdev⟩ :: freed else freed)
      else (kept, e :: freed)

/-- The fnode that `truncate` leaves. -/
def cutFnode (f : Fnode) (offset : Nat) : Fnode :=
  let kept := { f with extents := [], extentsIndex := [], allocated := 0 }.claimExtents
    (cutExtents offset 0 f.extents).1
  { kept with size := offset }

omit [Allocator A] in
/-- The part of `truncate` under `log_.lock`. -/
def truncateTo (s : BlueFS V A) (r : FileRef) (offset : Nat) : BlueFS V A :=
  let f := s.nodes.files r
  let vselector := VolumeSelector.subUsage s.vselector f.vselectorHint f.fnode
  let fnode := cutFnode f.fnode offset
  let vselector := VolumeSelector.addUsage vselector f.vselectorHint fnode
  let s := { s with vselector, nodes := s.nodes.setFile r { f with fnode, isDirty := true } }
  (s.pendRelease (cutExtents offset 0 f.fnode.extents).2).logFileUpdate r

/-- `truncate`. -/
def truncate (s : BlueFS V A) (h : FileWriter) (offset : Nat) : Int × FileWriter × BlueFS V A :=
  let f := s.nodes.files h.file
  if f.deleted then (0, h, s)
  else if f.fnode.ino ≤ 1 then (-einval, h, s)
  else if f.fnode.size < offset then (-einval, h, s)
  else if offset = f.fnode.size then (0, h, s)
  else
    let (r, h, s) := if h.bufferLength ≠ 0 then s.flushF h true else (0, h, s)
    if r < 0 then (r, h, s)
    else
      let (h, s) := s.flushBdev h
      (0, h, s.truncateTo h.file offset)

/-- `preallocate`; `none` is a failed assertion. -/
def preallocate (s : BlueFS V A) (r : FileRef) (off len : Nat) : Option (Int × BlueFS V A) :=
  let f := s.nodes.files r
  if f.deleted then some (0, s)
  else if f.fnode.ino ≤ 1 then none
  else if f.fnode.allocated < off + len then
    let prefer := VolumeSelector.selectPreferBdev s.vselector f.vselectorHint
    let (res, fnode, s) := s.allocate prefer (off + len - f.fnode.allocated) 0 f.fnode
    if res < 0 then some (res, s)
    else some (0, { s with nodes := s.nodes.setFile r { f with fnode } }.logFileUpdateInc r)
  else some (0, s)

end BlueFS

end Clab.Bluefs
