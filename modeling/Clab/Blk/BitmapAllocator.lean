import Clab.Blk.Allocator
import Clab.Blk.BlockDevice
import Clab.Common.IntArith
import Clab.Lib.WordBits

/-!
# The bitmap allocator

Three levels over one device. L0 has a bit for each allocation unit, set when
the unit is free. L1 has a two-bit entry for each 512 units: FULL (nothing
free), FREE (all free) or PARTIAL. L2 has a bit for each 256 entries, set when
there may be something free below.

Sizes, offsets and positions are natural numbers; the 64-bit wrap-around stays
where the source can reach it. Reading or writing a vector outside its size is
undefined in the source and a `Fault` here.
-/

namespace Clab.Blk

open Clab.Common Clab.WordBits

/-- How a call can fail to return. -/
inductive Fault
  | assertFail
  | outOfBounds
  | badShift
  deriving DecidableEq, Repr

/-- `slot_t`. -/
abbrev Slot := Word

/-- `slot_vector_t`. -/
structure SlotVector where
  size : Nat := 0
  slot : Words := fun _ => 0

def slotsPerSlotset : Nat := 8
def bitsPerSlot : Nat := 64
def bitsPerSlotset : Nat := 512
def allSlotSet : Slot := BitVec.allOnes 64
def allSlotClear : Slot := 0

/-- `__builtin_ctzll` of a nonzero slot. -/
def ctz (m : Slot) : Nat := ((List.range 64).find? fun i => m.getLsbD i).getD 64

/-- `find_next_set_bit`; `none` is -1. -/
def findNextSetBit (val : Slot) (start : Nat) : Option Nat :=
  if start ≥ bitsPerSlot then none
  else
    let m := val >>> start
    if m = 0 then none else some (ctz m + start)

/-- Units handed out so far: `*allocated` and `*res`. -/
structure Grant where
  allocated : Nat := 0
  res : List PExtent := []
  deriving DecidableEq, Repr

/-! ## L0 and L1 -/

/-- `AllocatorLevel01Loose`. -/
structure AllocatorLevel01Loose where
  l0 : SlotVector := {}
  l1 : SlotVector := {}
  l0Granularity : Nat := 0
  l1Granularity : Nat := 0
  partialL1Count : Nat := 0
  unallocL1Count : Nat := 0

namespace AllocatorLevel01Loose

def L1_ENTRIES_PER_SLOT : Nat := 32
def L1_ENTRY_FULL : Slot := 0
def L1_ENTRY_PARTIAL : Slot := 1
def L1_ENTRY_FREE : Slot := 3

/-- L0 bit `p`: unit `p` is free. -/
def bit (a : AllocatorLevel01Loose) (p : Nat) : Bool := WordBits.bit a.l0.slot p

/-- L1 entry `e`. -/
def entry (a : AllocatorLevel01Loose) (e : Nat) : Slot :=
  field (a.l1.slot (e / L1_ENTRIES_PER_SLOT)) (e % L1_ENTRIES_PER_SLOT)

/-- The bit-by-bit loops of `_mark_alloc_l0` and `_mark_free_l0`. -/
def bitLoop (one : Words → Nat → Words) : Nat → Nat → Words → Words
  | 0, _, v => v
  | n + 1, p, v => bitLoop one n (p + 1) (one v p)

/-- Their slot-by-slot loop. -/
def slotLoop (word : Slot) : Nat → Nat → Words → Words
  | 0, _, v => v
  | n + 1, p, v => slotLoop word n (p + bitsPerSlot) (Function.update v (p / bitsPerSlot) word)

/-- Both functions: bits up to a slot boundary, whole slots, remaining bits. -/
def markLoops (one : Words → Nat → Words) (word : Slot) (l0Start l0End : Nat) (v : Words) :
    Words :=
  let head := if l0Start % bitsPerSlot = 0 then 0
    else min (l0End - l0Start) (bitsPerSlot - l0Start % bitsPerSlot)
  let v := bitLoop one head l0Start v
  let p := l0Start + head
  let slots := (l0End - p) / bitsPerSlot
  let v := slotLoop word slots p v
  let p := p + slots * bitsPerSlot
  bitLoop one (l0End - p) p v

/-- A pass over L0 bits `[l0Start, l0End)`, inside the vector. -/
def onL0 (a : AllocatorLevel01Loose) (l0Start l0End : Nat) (f : Words → Words) :
    Except Fault AllocatorLevel01Loose :=
  if l0Start < l0End ∧ a.l0.size * bitsPerSlot < l0End then .error .outOfBounds
  else .ok { a with l0 := { a.l0 with slot := f a.l0.slot } }

/-- `_mark_alloc_l0`. -/
def markAllocL0 (a : AllocatorLevel01Loose) (l0Start l0End : Nat) :
    Except Fault AllocatorLevel01Loose :=
  a.onL0 l0Start l0End (markLoops clearBit allSlotClear l0Start l0End)

/-- `_mark_free_l0`. -/
def markFreeL0 (a : AllocatorLevel01Loose) (l0Start l0End : Nat) :
    Except Fault AllocatorLevel01Loose :=
  a.onL0 l0Start l0End (markLoops setBit allSlotSet l0Start l0End)

/-- The L1 value of the eight L0 slots of entry `e`. -/
def summary (v : Words) (e : Nat) : Slot :=
  let slots := (List.range slotsPerSlotset).map fun i => v (e * slotsPerSlotset + i)
  let aggAnd := slots.foldl (· &&& ·) allSlotSet
  let aggOr := slots.foldl (· ||| ·) allSlotClear
  if aggOr = allSlotClear then L1_ENTRY_FULL
  else if aggAnd = allSlotSet then L1_ENTRY_FREE
  else L1_ENTRY_PARTIAL

/-- One round of `_mark_l1_on_l0`. -/
def markEntry (a : AllocatorLevel01Loose) (e : Nat) : AllocatorLevel01Loose :=
  let slot := e / L1_ENTRIES_PER_SLOT
  let off := e % L1_ENTRIES_PER_SLOT
  let old := a.entry e
  let nxt := summary a.l0.slot e
  if old = nxt then a
  else
    let pc := if old = L1_ENTRY_PARTIAL then sub64 a.partialL1Count 1 else a.partialL1Count
    let uc := if old ≠ L1_ENTRY_PARTIAL ∧ old = L1_ENTRY_FREE then sub64 a.unallocL1Count 1
      else a.unallocL1Count
    { a with
      partialL1Count := if nxt = L1_ENTRY_PARTIAL then add64 pc 1 else pc
      unallocL1Count := if nxt ≠ L1_ENTRY_PARTIAL ∧ nxt = L1_ENTRY_FREE then add64 uc 1 else uc
      l1 := { a.l1 with slot := Function.update a.l1.slot slot (setField (a.l1.slot slot) off nxt) } }

def markEntries : Nat → Nat → AllocatorLevel01Loose → AllocatorLevel01Loose
  | 0, _, a => a
  | n + 1, e, a => markEntries n (e + 1) (a.markEntry e)

/-- `_mark_l1_on_l0`. -/
def markL1OnL0 (a : AllocatorLevel01Loose) (l0Start l0End : Nat) :
    Except Fault AllocatorLevel01Loose :=
  let first := p2align l0Start bitsPerSlotset / bitsPerSlotset
  let last := p2roundup l0End bitsPerSlotset / bitsPerSlotset
  if first < last ∧
      (a.l0.size < last * slotsPerSlotset ∨ a.l1.size * L1_ENTRIES_PER_SLOT < last) then
    .error .outOfBounds
  else .ok (markEntries (last - first) first a)

/-- `_mark_alloc_l1_l0`. -/
def markAllocL1L0 (a : AllocatorLevel01Loose) (l0Start l0End : Nat) :
    Except Fault AllocatorLevel01Loose := do
  let a ← a.markAllocL0 l0Start l0End
  a.markL1OnL0 (p2align l0Start bitsPerSlotset) (p2roundup l0End bitsPerSlotset)

/-- `_mark_free_l1_l0`. -/
def markFreeL1L0 (a : AllocatorLevel01Loose) (l0Start l0End : Nat) :
    Except Fault AllocatorLevel01Loose := do
  let a ← a.markFreeL0 l0Start l0End
  a.markL1OnL0 (p2align l0Start bitsPerSlotset) (p2roundup l0End bitsPerSlotset)

/-- `_free_l1`; the length is what it returns. -/
def freeL1 (a : AllocatorLevel01Loose) (offset length : Nat) :
    Except Fault (Nat × AllocatorLevel01Loose) := do
  let ls := offset / a.l0Granularity
  let le := p2roundup (add64 offset length) a.l0Granularity / a.l0Granularity
  let a ← a.markFreeL1L0 ls le
  return (length, a)

/-- `_init`. -/
def init (capacity allocUnit : Nat) (markAsFree : Bool) : Except Fault AllocatorLevel01Loose := do
  let l1Granularity := allocUnit * bitsPerSlotset
  let aligned := p2roundup capacity (l1Granularity * slotsPerSlotset * L1_ENTRIES_PER_SLOT)
  let fill : Words := fun _ => if markAsFree then allSlotSet else allSlotClear
  let l1 : SlotVector := ⟨aligned / l1Granularity / L1_ENTRIES_PER_SLOT, fill⟩
  let l0 : SlotVector := ⟨aligned / allocUnit / bitsPerSlot, fill⟩
  let a : AllocatorLevel01Loose := { l0, l1, l0Granularity := allocUnit, l1Granularity }
  let a ← if markAsFree then pure a
    else a.markAllocL1L0 (p2roundup capacity allocUnit / allocUnit) (aligned / allocUnit)
  return { a with
    partialL1Count := 0
    unallocL1Count := if markAsFree then l1.size * L1_ENTRIES_PER_SLOT * slotsPerSlotset else 0 }

/-- `_is_slot_fully_allocated`. -/
def isSlotFullyAllocated (a : AllocatorLevel01Loose) (idx : Nat) : Except Fault Bool :=
  if a.l0.size < idx * slotsPerSlotset + slotsPerSlotset then .error .outOfBounds
  else .ok ((List.range slotsPerSlotset).all fun i =>
    a.l0.slot (idx * slotsPerSlotset + i) = allSlotClear)

/-- The loop of `_is_empty_l0` from `p` on; the position grows in each of the `n`
rounds. A slot that starts at `p` and ends within the range is tested as a whole. -/
def isEmptyL0Loop (a : AllocatorLevel01Loose) (l0End : Nat) : Nat → Nat → Except Fault Bool
  | 0, _ => .ok true
  | n + 1, p =>
      if p < l0End then
        if a.l0.size ≤ p / bitsPerSlot then .error .outOfBounds
        else if p % bitsPerSlot = 0 ∧ p + bitsPerSlot ≤ l0End then
          if a.l0.slot (p / bitsPerSlot) ≠ 0 then .ok false
          else a.isEmptyL0Loop l0End n (p + bitsPerSlot)
        else if a.l0.slot (p / bitsPerSlot) &&& (1#64 <<< (p % bitsPerSlot)) ≠ 0 then .ok false
        else a.isEmptyL0Loop l0End n (p + 1)
      else .ok true

/-- `_is_empty_l0`. -/
def isEmptyL0 (a : AllocatorLevel01Loose) (l0Start l0End : Nat) : Except Fault Bool :=
  a.isEmptyL0Loop l0End (l0End - l0Start) l0Start

/-- `_is_empty_l1`, over `n` entries from `i` on. -/
def isEmptyL1 (a : AllocatorLevel01Loose) : Nat → Nat → Except Fault Bool
  | 0, _ => .ok true
  | n + 1, i => do
      if ← a.isSlotFullyAllocated i then a.isEmptyL1 n (i + 1) else return false

/-! ### Allocation -/

/-- The loop of `_fragment_and_emplace`. -/
def emplaceLoop (maxLength : Nat) : Nat → Nat → Nat → Grant → Except Fault Grant
  | 0, _, _, g => .ok g
  | n + 1, offset, len, g =>
      if len > 0 then
        let chunk := if maxLength > 0 ∧ len > maxLength then maxLength else len
        if chunk > 2 ^ 32 - 1 then .error .assertFail
        else emplaceLoop maxLength n (offset + chunk) (len - chunk)
          { allocated := g.allocated + chunk, res := g.res ++ [⟨offset, chunk⟩] }
      else .ok g

/-- The last extent of `res`, longer by `len` bytes; lengths have 32 bits. -/
def growLast (res : List PExtent) (last : PExtent) (len : Nat) : List PExtent :=
  res.dropLast ++ [{ last with length := (last.length + len) % 2 ^ 32 }]

/-- `_fragment_and_emplace`. -/
def fragmentAndEmplace (maxLength offset len : Nat) (g : Grant) : Except Fault Grant :=
  match g.res.getLast? with
  | none => emplaceLoop maxLength len offset len g
  | some last =>
      if last.offset + last.length = offset then
        let merged := last.length + len
        if maxLength = 0 ∨ merged ≤ maxLength then
          .ok { allocated := g.allocated + len, res := growLast g.res last len }
        else if last.length < maxLength then
          let take := maxLength - last.length
          emplaceLoop maxLength (len - take) (offset + take) (len - take)
            { allocated := g.allocated + take, res := growLast g.res last take }
        else emplaceLoop maxLength len offset len g
      else emplaceLoop maxLength len offset len g

/-- The inner loop of `_allocate_l0`: the end of the run of set bits at
`runEnd`, at most `n` further on. -/
def runEnd (v : SlotVector) : Nat → Nat → Except Fault Nat
  | 0, e => .ok e
  | n + 1, e =>
      if e / bitsPerSlot < v.size then
        if findNextSetBit (v.slot (e / bitsPerSlot)) (e % bitsPerSlot) = some (e % bitsPerSlot)
        then runEnd v n (e + 1)
        else .ok e
      else .error .outOfBounds

/-- The loop of `_allocate_l0`; the position grows in each of the `n` rounds. -/
def allocateL0Loop (maxLength l0End : Nat) : Nat → Nat → Nat → Grant →
    AllocatorLevel01Loose → Except Fault (Nat × Grant × AllocatorLevel01Loose)
  | 0, _, need, g, a => .ok (need, g, a)
  | n + 1, p, need, g, a =>
      if p < l0End ∧ need > 0 then
        if a.l0.size ≤ p / bitsPerSlot then .error .outOfBounds
        else
          let slot := a.l0.slot (p / bitsPerSlot)
          let boff := p % bitsPerSlot
          if slot = allSlotClear then
            allocateL0Loop maxLength l0End n (p + (bitsPerSlot - boff)) need g a
          else match findNextSetBit slot boff with
            | none => allocateL0Loop maxLength l0End n (p + (bitsPerSlot - boff)) need g a
            | some b => do
                let runStart := p / bitsPerSlot * bitsPerSlot + b
                let e ← runEnd a.l0 need runStart
                let units := min (e - runStart) need
                let g ← fragmentAndEmplace maxLength (runStart * a.l0Granularity)
                  (units * a.l0Granularity) g
                let a ← a.markAllocL0 runStart (runStart + units)
                allocateL0Loop maxLength l0End n (runStart + units) (need - units) g a
      else .ok (need, g, a)

/-- `_allocate_l0`. -/
def allocateL0 (a : AllocatorLevel01Loose) (length maxLength l0Start l0End : Nat) (g : Grant) :
    Except Fault (Int × Grant × AllocatorLevel01Loose) := do
  let (need, g, a) ← allocateL0Loop maxLength l0End (l0End - l0Start) l0Start
    (length / a.l0Granularity) g a
  return (if need > 0 then -enospc else 0, g, a)

/-- The loop of `_allocate_l1`, over `n` entries from `p` on. The remainder
`length - *allocated` never wraps: no step allocates more than remains. -/
def allocateL1Loop (length maxLength : Nat) : Nat → Nat → Grant →
    AllocatorLevel01Loose → Except Fault (Int × Grant × AllocatorLevel01Loose)
  | 0, _, g, a => .ok (if g.allocated ≥ length then 0 else -enospc, g, a)
  | n + 1, p, g, a =>
      if p / L1_ENTRIES_PER_SLOT ≥ a.l1.size then
        .ok (if g.allocated ≥ length then 0 else -enospc, g, a)
      else
        let ent := a.entry p
        if ent = L1_ENTRY_FULL then allocateL1Loop length maxLength n (p + 1) g a
        else
          let l0s := p * bitsPerSlotset
          let l0e := l0s + bitsPerSlotset
          let rem := length - g.allocated
          if rem = 0 then .ok (0, g, a)
          else if ent = L1_ENTRY_FREE ∧ rem ≥ bitsPerSlotset * a.l0Granularity then do
            let g ← fragmentAndEmplace maxLength (l0s * a.l0Granularity)
              (bitsPerSlotset * a.l0Granularity) g
            let a ← a.markAllocL1L0 l0s l0e
            allocateL1Loop length maxLength n (p + 1) g a
          else do
            let (_, g, a) ← a.allocateL0 rem maxLength l0s l0e g
            allocateL1Loop length maxLength n (p + 1) g a

/-- `_allocate_l1`. -/
def allocateL1 (a : AllocatorLevel01Loose) (length maxLength l1Start l1End : Nat) (g : Grant) :
    Except Fault (Int × Grant × AllocatorLevel01Loose) :=
  allocateL1Loop length maxLength (l1End - l1Start) l1Start g a

end AllocatorLevel01Loose

/-! ## L2 -/

/-- `AllocatorLevel02<AllocatorLevel01Loose>`. -/
structure AllocatorLevel02 where
  l1 : AllocatorLevel01Loose := {}
  l2Granularity : Nat := 0
  available : Nat := 0
  lastPos : Nat := 0
  l2 : SlotVector := {}

namespace AllocatorLevel02

open AllocatorLevel01Loose

/-- L2 bits `[l2Pos, l2PosEnd)` changed one by one. -/
def markL2 (one : Words → Nat → Words) (a : AllocatorLevel02) (l2Pos l2PosEnd : Nat) :
    Except Fault AllocatorLevel02 :=
  if l2Pos < l2PosEnd ∧ a.l2.size * bitsPerSlot < l2PosEnd then .error .outOfBounds
  else .ok { a with l2 := { a.l2 with slot := bitLoop one (l2PosEnd - l2Pos) l2Pos a.l2.slot } }

/-- `_mark_l2_free`. -/
def markL2Free : AllocatorLevel02 → Nat → Nat → Except Fault AllocatorLevel02 := markL2 setBit

/-- `_mark_l2_allocated`. -/
def markL2Allocated : AllocatorLevel02 → Nat → Nat → Except Fault AllocatorLevel02 :=
  markL2 clearBit

/-- `_init`. -/
def init (capacity allocUnit : Nat) (markAsFree : Bool) : Except Fault AllocatorLevel02 := do
  let l1 ← AllocatorLevel01Loose.init capacity allocUnit markAsFree
  let l2Granularity := l1.l1Granularity * L1_ENTRIES_PER_SLOT * slotsPerSlotset
  let aligned := p2roundup capacity (l2Granularity * bitsPerSlot)
  let fill : Words := fun _ => if markAsFree then allSlotSet else allSlotClear
  let l2 : SlotVector := ⟨aligned / l2Granularity / bitsPerSlot, fill⟩
  let a : AllocatorLevel02 := { l1, l2Granularity, l2 }
  let l2nu := p2roundup capacity l2Granularity / l2Granularity
  if markAsFree then return { a with available := p2align capacity allocUnit }
  else a.markL2Allocated l2nu (aligned / l2Granularity)

/-- `_mark_free`. -/
def markFree (a : AllocatorLevel02) (offset length : Nat) : Except Fault AllocatorLevel02 := do
  let (_, l1) ← a.l1.freeL1 offset length
  let l2p := offset / a.l2Granularity
  let l2e := p2roundup (add64 offset length) a.l2Granularity / a.l2Granularity
  let a ← { a with l1 := l1 }.markL2Free l2p l2e
  return { a with available := add64 a.available length }

/-- `_mark_allocated`. -/
def markAllocated (a : AllocatorLevel02) (offset length : Nat) :
    Except Fault AllocatorLevel02 := do
  let l0s := offset / a.l1.l0Granularity
  let l0e := p2roundup (add64 offset length) a.l1.l0Granularity / a.l1.l0Granularity
  let l1 ← a.l1.markAllocL1L0 l0s l0e
  let l2p := offset / a.l2Granularity
  let l2e := p2roundup (add64 offset length) a.l2Granularity / a.l2Granularity
  let a ← { a with l1 := l1 }.markL2Allocated l2p l2e
  if a.available ≥ length then return { a with available := a.available - length }
  else throw .assertFail

/-- The loop of `_free_l2`, returning the bytes released. -/
def freeLoop : List (Nat × Nat) → AllocatorLevel02 → Except Fault (Nat × AllocatorLevel02)
  | [], a => .ok (0, a)
  | (o, len) :: rest, a => do
      let (r, l1) ← a.l1.freeL1 o len
      let a ← { a with l1 := l1 }.markL2Free (o / a.l2Granularity)
        (p2roundup (add64 o len) a.l2Granularity / a.l2Granularity)
      let (released, a) ← freeLoop rest a
      return (add64 r released, a)

/-- `_free_l2` of the intervals `rr`. -/
def freeL2 (a : AllocatorLevel02) (rr : List (Nat × Nat)) : Except Fault AllocatorLevel02 := do
  let (released, a) ← freeLoop rr a
  return { a with available := add64 a.available released }

/-- Clear L2 bit `off` of the slot of `idx` when everything below is taken. -/
def noteEmpty (a : AllocatorLevel02) (empty : Bool) (idx off : Nat) :
    Except Fault AllocatorLevel02 :=
  if empty then
    if off ≥ bitsPerSlot then .error .badShift
    else .ok { a with l2 := { a.l2 with
      slot := clearBit a.l2.slot (idx / bitsPerSlot * bitsPerSlot + off) } }
  else .ok a

/-- The loop of `_allocate_l2` over the bits of one L2 slot, whose value was
`val` when the slot was reached. The result says whether `want` is met. -/
def scanSlot (want maxLength idx slotStart scanEnd : Nat) (val : Slot) : Nat → Option Nat →
    Grant → AllocatorLevel02 → Except Fault (Bool × Grant × AllocatorLevel02)
  | 0, _, g, a => .ok (false, g, a)
  | _ + 1, none, g, a => .ok (false, g, a)
  | n + 1, some off, g, a =>
      if off < scanEnd then do
        let b := slotStart + off
        let l1s := b * slotsPerSlotset * L1_ENTRIES_PER_SLOT
        let l1e := l1s + slotsPerSlotset * L1_ENTRIES_PER_SLOT
        let (_, g, l1) ← a.l1.allocateL1 want maxLength l1s l1e g
        let a := { a with l1 := l1 }
        let empty ← l1.isEmptyL1 (l1e - l1s) l1s
        let a ← a.noteEmpty empty idx off
        if g.allocated ≥ want then
          return (true, g, { a with lastPos := b, available := sub64 a.available g.allocated })
        else
          let next := if val = allSlotSet then (if off + 1 < scanEnd then some (off + 1) else none)
            else findNextSetBit (a.l2.slot (idx / bitsPerSlot)) (off + 1)
          scanSlot want maxLength idx slotStart scanEnd val n next g a
      else .ok (false, g, a)

/-- The loop of `_allocate_l2` over L2 positions `[idx, end)`. -/
def scanRound (want maxLength endPos : Nat) : Nat → Nat → Grant → AllocatorLevel02 →
    Except Fault (Bool × Grant × AllocatorLevel02)
  | 0, _, g, a => .ok (false, g, a)
  | n + 1, idx, g, a =>
      if idx < endPos then
        if a.l2.size ≤ idx / bitsPerSlot then .error .outOfBounds
        else
          let val := a.l2.slot (idx / bitsPerSlot)
          if val = allSlotClear then
            scanRound want maxLength endPos n (idx + bitsPerSlot) g a
          else do
            let slotStart := idx / bitsPerSlot * bitsPerSlot
            let scanEnd := min (slotStart + bitsPerSlot) endPos
            let off := if val = allSlotSet then some 0 else findNextSetBit val (idx % bitsPerSlot)
            let (done, g, a) ← scanSlot want maxLength idx slotStart scanEnd val scanEnd off g a
            if done then return (true, g, a)
            else scanRound want maxLength endPos n scanEnd g a
      else .ok (false, g, a)

/-- `_allocate_l2`. -/
def allocateL2 (a : AllocatorLevel02) (want minLength maxLength : Nat) (hint : Int) (g : Grant) :
    Except Fault (Int × Grant × AllocatorLevel02) := do
  let maxLength := if maxLength = 0 then 2 ^ 32 - 1 else maxLength
  let maxLength := p2align maxLength minLength
  let maxLength := if maxLength < minLength then minLength else maxLength
  let positions := a.l2.size * bitsPerSlot
  let pos := if hint > 0 then p2align (hint.toNat / a.l2Granularity) bitsPerSlot else 0
  let pos := if pos ≥ positions then 0 else pos
  let (done, g, a) ← scanRound want maxLength positions positions pos g a
  if done then return (0, g, a)
  else
    let (done, g, a) ← scanRound want maxLength pos positions 0 g a
    if done then return (0, g, a)
    else if g.allocated > 0 then
      return (0, g, { a with available := sub64 a.available g.allocated })
    else return (-enospc, g, a)

end AllocatorLevel02

/-! ## The allocator -/

/-- `BitmapAllocator`. -/
structure BitmapAllocator extends AllocatorLevel02 where
  deviceSize : Nat := 0
  blockSize : Nat := 0

namespace BitmapAllocator

/-- The constructor. -/
def create (capacity allocUnit : Nat) : Except Fault BitmapAllocator := do
  let a ← AllocatorLevel02.init capacity allocUnit false
  return { a with deviceSize := capacity, blockSize := allocUnit }

/-- `allocate`, appending to `extents`. -/
def allocate (a : BitmapAllocator) (want unit maxAllocSize : Nat) (hint : Int)
    (extents : List PExtent) : Except Fault (Int × List PExtent × BitmapAllocator) := do
  if isp2 unit ∧ want % unit = 0 ∧ unit ≥ a.l1.l0Granularity then
    let (r, g, l2) ← a.toAllocatorLevel02.allocateL2 want unit maxAllocSize hint
      { allocated := 0, res := extents }
    return (if r = 0 ∧ g.allocated > 0 then (g.allocated : Int) else -enospc, g.res,
      { a with toAllocatorLevel02 := l2 })
  else throw .assertFail

/-- `release` of the intervals of an interval set. -/
def release (a : BitmapAllocator) (releaseSet : List (Nat × Nat)) :
    Except Fault BitmapAllocator := do
  let l2 ← a.toAllocatorLevel02.freeL2 releaseSet
  return { a with toAllocatorLevel02 := l2 }

/-- `get_free`. -/
def getFree (a : BitmapAllocator) : Nat := a.available

/-- The whole units of `[offset, offset + length)`: the range both `init`
functions work on. -/
def innerRange (a : BitmapAllocator) (offset length : Nat) : Nat × Nat :=
  let off := p2roundup offset a.l1.l0Granularity
  (off, p2align (sub64 (add64 offset length) off) a.l1.l0Granularity)

/-- `init_add_free`. -/
def initAddFree (a : BitmapAllocator) (offset length : Nat) : Except Fault BitmapAllocator := do
  let (off, len) := a.innerRange offset length
  if length = 0 ∨ len = 0 then return a
  else
    let l2 ← a.toAllocatorLevel02.markFree off len
    return { a with toAllocatorLevel02 := l2 }

/-- `init_rm_free`. -/
def initRmFree (a : BitmapAllocator) (offset length : Nat) : Except Fault BitmapAllocator := do
  let (off, len) := a.innerRange offset length
  if length = 0 ∨ len = 0 then return a
  else
    let l2 ← a.toAllocatorLevel02.markAllocated off len
    return { a with toAllocatorLevel02 := l2 }

/-- A result, or the one given where the call does not return. -/
def orElse {α : Type} (x : Except Fault α) (d : α) : α :=
  match x with
  | .ok r => r
  | .error _ => d

/-- The virtual functions of `BitmapAllocator`. A call that does not return
appears as one that fails and changes nothing. -/
instance : Allocator BitmapAllocator where
  allocate a want unit maxAllocSize hint :=
    orElse (a.allocate want unit maxAllocSize hint []) (-enospc, [], a)
  release a releaseVec := orElse (a.release (IntervalSet.ofExtents releaseVec)) a
  initAddFree a offset length := orElse (a.initAddFree offset length) a
  initRmFree a offset length := orElse (a.initRmFree offset length) a
  getFree a := a.getFree
  getCapacity a := a.deviceSize

end BitmapAllocator

end Clab.Blk
