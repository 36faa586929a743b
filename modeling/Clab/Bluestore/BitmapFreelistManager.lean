import Clab.Common.IntArith
import Clab.Lib.Codec

/-!
# The bitmap freelist manager

The allocation state of a device in a key-value store: a key for every 128
blocks, its value a bitmap in which an allocated block has its bit set.
Allocating and releasing are the same merge, an exclusive or; a key that is
missing stands for free blocks. The two prefixes are two key spaces here.

The masks of the source are taken by what they compute for a power of two, and
for zero, to which `bytes_per_key_` can wrap around. An assertion that fails is
`none`.
-/

namespace Clab.Bluestore

open Clab.Common Clab.Codec

/-! ## The store -/

abbrev Key := List UInt8
abbrev Value := List UInt8

/-- `key_encode_u64`. -/
def keyEncodeU64 (val : Nat) : Key := beBytes 8 val

/-- `key_decode_u64`. -/
def keyDecodeU64 (k : Key) : Nat := beNat (k.take 8)

/-- `XorMergeOperator::merge`. -/
def xorMerge (ldata rdata : Value) : Value := List.zipWith (· ^^^ ·) ldata rdata

/-- The keys of one prefix, in order, with their values. -/
abbrev Space := List (Key × Value)

/-- `KeyValueDB` as far as the manager uses it. -/
structure KeyValueDB where
  metaSpace : List (String × Value) := []
  bitmapSpace : Space := []

/-- `merge` on the bitmap prefix; on a key that does not exist it is
`merge_nonexistent`. -/
def Space.merge (k : Key) (v : Value) : Space → Space
  | [] => [(k, v)]
  | (k', v') :: rest =>
      if k < k' then (k, v) :: (k', v') :: rest
      else if k = k' then (k', xorMerge v' v) :: rest
      else (k', v') :: Space.merge k v rest

/-- What a transaction holds, in order. -/
inductive Op
  | set (name : String) (value : Value)
  | merge (k : Key) (v : Value)

/-- `set` on the meta prefix. -/
def setMeta (name : String) (value : Value) : List (String × Value) → List (String × Value)
  | [] => [(name, value)]
  | (n, v) :: rest => if n = name then (name, value) :: rest else (n, v) :: setMeta name value rest

def KeyValueDB.apply (db : KeyValueDB) : Op → KeyValueDB
  | .set name value => { db with metaSpace := setMeta name value db.metaSpace }
  | .merge k v => { db with bitmapSpace := Space.merge k v db.bitmapSpace }

/-- `submit_transaction`. -/
def KeyValueDB.submit (db : KeyValueDB) (txn : List Op) : KeyValueDB := txn.foldl apply db

/-! ## Bits of a value -/

/-- Bit `i` of a value. -/
def valueBit (bl : Value) (i : Nat) : Bool := (bl.getD (i / 8) 0).toBitVec.getLsbD (i % 8)

/-- The loop of the two searches, over the `n` bits from `start` on. -/
def scanBits (p : Nat → Bool) : Nat → Nat → Option Nat
  | 0, _ => none
  | n + 1, start => if p start then some start else scanBits p n (start + 1)

/-- `get_next_clear_bit`; `none` is -1. -/
def getNextClearBit (bl : Value) (start : Nat) : Option Nat :=
  scanBits (fun i => !valueBit bl i) (bl.length * 8 - start) start

/-- `get_next_set_bit`; `none` is -1. -/
def getNextSetBit (bl : Value) (start : Nat) : Option Nat :=
  scanBits (valueBit bl) (bl.length * 8 - start) start

/-- `p[i >> 3] ^= 1ull << (i & 7)`. -/
def flipBit (p : Value) (i : Nat) : Value := p.modify (i / 8) (· ^^^ UInt8.ofNat (1 <<< (i % 8)))

/-- A zeroed buffer of `bytes` bytes with bits `s` to `e - 1` flipped. -/
def flipBits (bytes s e : Nat) : Value :=
  (List.range' s (e - s)).foldl flipBit (List.replicate bytes 0)

/-! ## The manager -/

/-- The iterator and the position of `enumerate_next`. An iterator that is valid
has entries behind the current one. -/
structure Cursor where
  p : Option Space := none
  offset : Nat := 0
  bl : Value := []
  blPos : Nat := 0

structure BitmapFreelistManager where
  size : Nat := 0
  bytesPerBlock : Nat := 0
  blocksPerKey : Nat := 128
  bytesPerKey : Nat := 0
  blocks : Nat := 0
  allSetBl : Value := []
  enumerate : Cursor := {}

namespace BitmapFreelistManager

/-- `_init_misc`. -/
def initMisc (m : BitmapFreelistManager) : BitmapFreelistManager :=
  { m with
    allSetBl := List.replicate (m.blocksPerKey / 8) 0xff
    bytesPerKey := m.bytesPerBlock * m.blocksPerKey % 2 ^ 64 }

/-- `_size_2_block_count`. -/
def size2BlockCount (m : BitmapFreelistManager) (targetSize : Nat) : Nat :=
  let targetBlocks := targetSize / m.bytesPerBlock
  if targetBlocks / m.blocksPerKey * m.blocksPerKey ≠ targetBlocks then
    (targetBlocks / m.blocksPerKey + 1) * m.blocksPerKey % 2 ^ 64
  else targetBlocks

/-- `_get_offset`. -/
def getOffset (m : BitmapFreelistManager) (keyOff bit : Nat) : Nat :=
  (keyOff + bit * m.bytesPerBlock) % 2 ^ 64

/-- The loop over the keys between the first and the last one of `_xor`: the
keys, and where the loop ends. -/
def keysBetween (m : BitmapFreelistManager) (lastKey : Nat) : Nat → Nat → List Nat × Nat
  | 0, firstKey => ([], firstKey)
  | n + 1, firstKey =>
      if firstKey < lastKey then
        let (keys, stop) := m.keysBetween lastKey n (add64 firstKey m.bytesPerKey)
        (firstKey :: keys, stop)
      else ([], firstKey)

/-- `_xor` from bit `s` of the first key to bit `e` of the last. -/
def xorKeys (m : BitmapFreelistManager) (firstKey lastKey s e : Nat) : Option (List Op) :=
  if firstKey = lastKey then
    some [.merge (keyEncodeU64 firstKey) (flipBits (m.blocksPerKey / 8) s (e + 1))]
  else
    let first := .merge (keyEncodeU64 firstKey) (flipBits (m.blocksPerKey / 8) s m.blocksPerKey)
    let (keys, stop) := m.keysBetween lastKey (lastKey / m.bytesPerKey)
      (add64 firstKey m.bytesPerKey)
    if stop ≠ lastKey then none
    else
      some (first :: keys.map (fun k => .merge (keyEncodeU64 k) m.allSetBl) ++
        [.merge (keyEncodeU64 stop) (flipBits (m.blocksPerKey / 8) 0 (e + 1))])

/-- The last byte of a range. -/
def lastByte (offset length : Nat) : Nat := sub64 (add64 offset length) 1

/-- `_xor`: what it adds to the transaction. -/
def xor (m : BitmapFreelistManager) (offset length : Nat) : Option (List Op) :=
  if offset % m.bytesPerBlock ≠ 0 then none
  else if length % m.bytesPerBlock ≠ 0 then none
  else
    m.xorKeys (p2align offset m.bytesPerKey) (p2align (lastByte offset length) m.bytesPerKey)
      (offset % m.bytesPerKey / m.bytesPerBlock)
      (lastByte offset length % m.bytesPerKey / m.bytesPerBlock)

/-- `get_alloc_units() * bytes_per_block_`. -/
def deviceEnd (m : BitmapFreelistManager) : Nat := m.blocks * m.bytesPerBlock % 2 ^ 64

/-- The numbers of `create`. -/
def configure (newSize granularity : Nat) : BitmapFreelistManager :=
  let m : BitmapFreelistManager :=
    { bytesPerBlock := granularity, size := p2align newSize granularity, blocksPerKey := 128 }
  let m := m.initMisc
  { m with blocks := m.size2BlockCount m.size }

/-- The blocks past the end of the device, which `create` records. -/
def xorTail (m : BitmapFreelistManager) : Option (List Op) :=
  if m.deviceEnd > m.size then m.xor m.size (m.deviceEnd - m.size) else some []

/-- `create`: the manager and what it adds to the transaction. -/
def create (newSize granularity : Nat) : Option (BitmapFreelistManager × List Op) :=
  if !isp2 granularity then none
  else do
    let m := configure newSize granularity
    let tail ← m.xorTail
    let head ← m.xor 0 m.bytesPerBlock
    some (m, tail ++ head ++
      [.set "bytes_per_block" (leBytes 8 m.bytesPerBlock),
        .set "blocks_per_key" (leBytes 8 m.blocksPerKey),
        .set "blocks" (leBytes 8 m.blocks), .set "size" (leBytes 8 m.size)])

/-- `allocate`. -/
def allocate (m : BitmapFreelistManager) (offset length : Nat) : Option (List Op) :=
  m.xor offset length

/-- `release`. -/
def release (m : BitmapFreelistManager) (offset length : Nat) : Option (List Op) :=
  m.xor offset length

/-! ## Loading -/

/-- The loop of `_load_from_db`. -/
def loadMeta : List (String × Value) → BitmapFreelistManager → Option BitmapFreelistManager
  | [], m => some m
  | (k, bl) :: rest, m =>
      if k = "bytes_per_block" then
        if bl.length ≠ 8 then none else loadMeta rest { m with bytesPerBlock := leNat bl }
      else if k = "blocks" then
        if bl.length ≠ 8 then none else loadMeta rest { m with blocks := leNat bl }
      else if k = "size" then
        if bl.length ≠ 8 then none else loadMeta rest { m with size := leNat bl }
      else if k = "blocks_per_key" then
        if bl.length ≠ 8 then none else loadMeta rest { m with blocksPerKey := leNat bl }
      else loadMeta rest m

/-- `init` without a configuration to read. -/
def init (db : KeyValueDB) : Option BitmapFreelistManager := do
  let m ← loadMeta db.metaSpace {}
  some m.initMisc

/-! ## Enumerating -/

/-- `enumerate_reset`. -/
def enumerateReset (m : BitmapFreelistManager) : BitmapFreelistManager :=
  { m with enumerate := {} }

/-- The first loop of `enumerate_next`, which skips set bits: `*offset` and the
position. The list is what the iterator has behind the current entry. -/
def skipSet (m : BitmapFreelistManager) : Space → Nat → Value → Nat → Nat × Cursor
  | [], offset, bl, blPos =>
      match getNextClearBit bl blPos with
      | some b => (m.getOffset offset b, ⟨some [], offset, bl, b⟩)
      | none =>
          let offset := add64 offset m.bytesPerKey
          (m.getOffset offset 0, ⟨none, offset, [], 0⟩)
  | (k, v) :: rest, offset, bl, blPos =>
      match getNextClearBit bl blPos with
      | some b => (m.getOffset offset b, ⟨some ((k, v) :: rest), offset, bl, b⟩)
      | none =>
          let next := add64 offset m.bytesPerKey
          let offset := keyDecodeU64 k
          if offset > next then (next, ⟨some rest, offset, v, 0⟩)
          else m.skipSet rest offset v 0

/-- The second loop of `enumerate_next`, which skips clear bits: the end, if a
set bit comes, and the position. -/
def skipClear (m : BitmapFreelistManager) : Space → Nat → Value → Nat → Option Nat × Cursor
  | [], offset, bl, blPos =>
      match getNextSetBit bl blPos with
      | some b => (some (m.getOffset offset b), ⟨some [], offset, bl, b⟩)
      | none => (none, ⟨none, offset, [], 0⟩)
  | (k, v) :: rest, offset, bl, blPos =>
      match getNextSetBit bl blPos with
      | some b => (some (m.getOffset offset b), ⟨some ((k, v) :: rest), offset, bl, b⟩)
      | none => m.skipClear rest (keyDecodeU64 k) v 0

/-- The start of an enumeration: the first key, which is that of block 0. -/
def enumerateStart (db : KeyValueDB) : Option Cursor :=
  match db.bitmapSpace with
  | [] => none
  | (k, v) :: rest =>
      if keyDecodeU64 k ≠ 0 then none
      else if getNextSetBit v 0 ≠ some 0 then none
      else some ⟨some rest, 0, v, 0⟩

/-- The end of `enumerate_next`: the range from `offset` to where the second loop
stopped. -/
def closeRange (m : BitmapFreelistManager) (offset : Nat) :
    Option Nat × Cursor → Option (Nat × Nat) × Cursor
  | (some stop, c) => (some (offset, sub64 (min m.deviceEnd stop) offset), c)
  | (none, c) =>
      if c.offset < m.size then
        (some (offset, sub64 m.deviceEnd offset),
          { c with offset := m.size, blPos := m.blocksPerKey })
      else (none, c)

/-- The second loop, from where the first one stopped, if the iterator is valid. -/
def skipClearFrom (m : BitmapFreelistManager) (c : Cursor) : Option Nat × Cursor :=
  match c.p with
  | some following => m.skipClear following c.offset c.bl c.blPos
  | none => (none, c)

/-- `enumerate_next` from a position: the range, if there is one. -/
def nextRange (m : BitmapFreelistManager) (c : Cursor) : Option (Nat × Nat) × Cursor :=
  if c.offset ≥ m.size then (none, c)
  else
    let start := m.skipSet (c.p.getD []) c.offset c.bl c.blPos
    m.closeRange start.1 (m.skipClearFrom start.2)

/-- `enumerate_next`: the range, or `none` for false. -/
def enumerateNext (m : BitmapFreelistManager) (db : KeyValueDB) :
    Option (Option (Nat × Nat) × BitmapFreelistManager) := do
  let c ← if m.enumerate.offset = 0 ∧ m.enumerate.blPos = 0 then enumerateStart db
    else some m.enumerate
  let (range, c) := m.nextRange c
  some (range, { m with enumerate := c })

end BitmapFreelistManager

end Clab.Bluestore
