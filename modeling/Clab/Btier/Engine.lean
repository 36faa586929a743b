import Clab.Btier.ExtentMap
import Clab.Btier.Journal
import Clab.Btier.KeyMap

/-!
# The engine

`BtierEngine`: `put`, `get`, `del`, checkpoints, start-up and recovery, over
the extent map, the key map, the journal, two devices and two allocators. The
long functions of the source are cut at their comments; every error path
returns the engine as it then stands.
-/

namespace Clab.Btier

open Clab.Blk

/-- `BtierEngine::Impl`, with the counters of its `MigrationEngine`. -/
structure Engine (A : Type) where
  cfg : BtierConfig
  dev : Tier → BlockDevice
  alloc : Tier → A
  extentMap : ExtentMap
  keyMap : KeyMap := {}
  journal : Journal
  stats : MigrationStats := {}

/-- Where `put` has placed a value. -/
structure Placement where
  extentId : Nat
  offset : Nat
  loc : DiskLocation
  newExtentCreated : Bool
  deriving DecidableEq, Repr

namespace Engine

variable {A : Type}

def setDev (s : Engine A) (t : Tier) (d : BlockDevice) : Engine A :=
  { s with dev := Function.update s.dev t d }

/-- A journal operation, which reads and writes the FAST device. -/
def withJournal (s : Engine A) (f : Journal → BlockDevice → Int × Journal × BlockDevice) :
    Int × Engine A :=
  let (r, j, d) := f s.journal (s.dev .FAST)
  (r, { s with journal := j }.setDev .FAST d)

/-- `begin_txn`, `append` for each record, `commit_txn`. -/
def logRecords (s : Engine A) (recs : List JournalRecord) : Int × Engine A :=
  let (txnId, j) := s.journal.beginTxn
  let j := recs.foldl (fun j rec => (j.append txnId rec).2) j
  { s with journal := j }.withJournal fun j d => j.commitTxn d txnId

/-! ## Checkpoints -/

def extentNewRecord (id : Nat) (loc : DiskLocation) : JournalRecord :=
  { op := .OP_EXTENT_NEW, extentId := id, extentLoc := loc }

def keyPutRecord (key : Key) (loc : KeyLocation) : JournalRecord :=
  { op := .OP_KEY_PUT, key, keyLoc := loc }

def keyDelRecord (key : Key) : JournalRecord := { op := .OP_KEY_DEL, key }

def markDeadRecord (loc : KeyLocation) : JournalRecord :=
  { op := .OP_MARK_DEAD, extentId := loc.extentId, deadLength := loc.length }

/-- `build_checkpoint_state`: every extent, followed by the keys in it. -/
def buildCheckpointState (s : Engine A) : List JournalRecord :=
  s.extentMap.snapshot.flatMap fun snap =>
    extentNewRecord snap.extentId snap.location ::
      (s.keyMap.keysInExtent snap.extentId).map fun key =>
        keyPutRecord key ((s.keyMap.lookup key).getD {})

/-- `journal->checkpoint(build_checkpoint_state())`. -/
def checkpoint (s : Engine A) : Engine A :=
  (s.withJournal fun j d => j.checkpoint d s.buildCheckpointState).2

/-! ## Put -/

section Put

variable [Allocator A]

/-- Release the reservation of a failed `put`. -/
def unreserve (s : Engine A) (p : Placement) (size : Nat) : Engine A :=
  { s with extentMap :=
      if p.newExtentCreated then s.extentMap.free p.extentId
      else s.extentMap.markDeadSlot p.extentId size }

/-- A new extent on the FAST tier and its pre-transaction. -/
def newExtent (s : Engine A) (size : Nat) :
    Except Int (Nat × DiskLocation) × Engine A :=
  let (res, em, al, dev) := s.extentMap.allocateExtent s.alloc s.dev .FAST size
  let s := { s with extentMap := em, alloc := al, dev := dev }
  match res with
  | none => (.error (-enospc), s)
  | some (id, loc) =>
      let (r, s) := s.logRecords [extentNewRecord id loc]
      if r < 0 then (.error r, { s with extentMap := s.extentMap.free id })
      else (.ok (id, loc), s)

/-- Write the value into its reserved slot. -/
def writeValue (s : Engine A) (p : Placement) (value : List Byte) : Int × Engine A :=
  let (r, d) := (s.dev p.loc.tier).write (p.loc.offset + HEADER_SIZE + p.offset) value true
  (r, s.setDev p.loc.tier d)

/-- Phase 2 for a large value: a dedicated extent. -/
def placeLarge (s : Engine A) (value : List Byte) : Except Int Placement × Engine A :=
  match s.newExtent (value.length + HEADER_SIZE) with
  | (.error r, s) => (.error r, s)
  | (.ok (id, loc), s) =>
      let (offset, em) := s.extentMap.appendSlot id (u32 value.length)
      let s := { s with extentMap := em }
      if offset = UINT32_MAX then
        (.error (-eio), { s with extentMap := s.extentMap.free id })
      else
        let p : Placement := ⟨id, offset, loc, true⟩
        let (r, s) := s.writeValue p value
        if r < 0 then (.error r, { s with extentMap := s.extentMap.free id })
        else (.ok p, s)

/-- The extent a small value is packed into: one with space, or a new one. -/
def chooseExtent (s : Engine A) (size : Nat) :
    Except Int (Nat × DiskLocation × Bool) × Engine A :=
  let target := s.extentMap.findExtentWithSpace .FAST size
  if target = UINT64_MAX then
    match s.newExtent s.cfg.extentSize with
    | (.error r, s) => (.error r, s)
    | (.ok (id, loc), s) => (.ok (id, loc, true), s)
  else match s.extentMap.getLocation target with
    | none => (.error (-eio), s)
    | some loc => (.ok (target, loc, false), s)

/-- Reserve a slot, retrying once with a fresh extent. -/
def reserveSlot (s : Engine A) (target : Nat × DiskLocation × Bool) (size : Nat) :
    Except Int Placement × Engine A :=
  let (id, loc, created) := target
  let (offset, em) := s.extentMap.appendSlot id size
  let s := { s with extentMap := em }
  if offset ≠ UINT32_MAX then (.ok ⟨id, offset, loc, created⟩, s)
  else
    let s := if created then { s with extentMap := s.extentMap.free id } else s
    match s.newExtent s.cfg.extentSize with
    | (.error r, s) => (.error r, s)
    | (.ok (id, loc), s) =>
        let (offset, em) := s.extentMap.appendSlot id size
        let s := { s with extentMap := em }
        if offset = UINT32_MAX then
          (.error (-eio), { s with extentMap := s.extentMap.free id })
        else (.ok ⟨id, offset, loc, true⟩, s)

/-- Phase 2 for a small value: pack it. -/
def placeSmall (s : Engine A) (value : List Byte) : Except Int Placement × Engine A :=
  match s.chooseExtent (u32 value.length) with
  | (.error r, s) => (.error r, s)
  | (.ok target, s) =>
      match s.reserveSlot target (u32 value.length) with
      | (.error r, s) => (.error r, s)
      | (.ok p, s) =>
          let (r, s) := s.writeValue p value
          if r < 0 then (.error r, s.unreserve p (u32 value.length))
          else (.ok p, s)

/-- Phase 2. -/
def place (s : Engine A) (value : List Byte) : Except Int Placement × Engine A :=
  if value.length ≥ s.cfg.largeValueThreshold then s.placeLarge value else s.placeSmall value

/-- The records of the main transaction. -/
def putRecords (key : Key) (old : Option KeyLocation) (new : KeyLocation) :
    List JournalRecord :=
  (match old with
    | some o => [markDeadRecord o]
    | none => []) ++ [keyPutRecord key new]

/-- Account a slot as dead, freeing an extent left without live bytes. -/
def dropSlot (s : Engine A) (loc : KeyLocation) : Engine A :=
  let em := s.extentMap.markDeadSlot loc.extentId loc.length
  { s with extentMap := if em.getLiveBytes loc.extentId = 0 then em.free loc.extentId else em }

/-- Phase 5: the key map first, then the old slot. -/
def install (s : Engine A) (key : Key) (p : Placement) (size : Nat)
    (old : Option KeyLocation) : Engine A :=
  let lba := p.loc.offset + HEADER_SIZE + p.offset
  let s := { s with keyMap := s.keyMap.put key ⟨p.extentId, p.offset, size⟩ lba }
  match old with
  | some o => s.dropSlot o
  | none => s

/-- Phases 3 to 5. -/
def commitPut (s : Engine A) (key : Key) (p : Placement) (size : Nat)
    (old : Option KeyLocation) (now : Nat) : Int × Engine A :=
  let s := { s with extentMap := s.extentMap.recordIo p.extentId .WRITE now }
  let (r, s) := s.logRecords (putRecords key old ⟨p.extentId, p.offset, size⟩)
  if r < 0 then (r, s.unreserve p size)
  else
    let s := if s.journal.needsCheckpoint then s.checkpoint else s
    (0, s.install key p size old)

/-- `put`. -/
def put (s : Engine A) (key : Key) (value : List Byte) (now : Nat) : Int × Engine A :=
  let s := if s.journal.isNearFull then s.checkpoint else s
  let old := s.keyMap.lookup key
  match s.place value with
  | (.error r, s) => (r, s)
  | (.ok p, s) => s.commitPut key p (u32 value.length) old now

end Put

/-! ## Get and delete -/

/-- `get`: result code and value. -/
def get (s : Engine A) (key : Key) (now : Nat) : Int × List Byte × Engine A :=
  match s.keyMap.lookup key with
  | none => (-enoent, [], s)
  | some kloc =>
      match s.extentMap.getLocation kloc.extentId with
      | none => (-enoent, [], s)
      | some loc =>
          let s := { s with extentMap := s.extentMap.recordIo kloc.extentId .READ now }
          let (r, bl, d) :=
            (s.dev loc.tier).read (loc.offset + HEADER_SIZE + kloc.offset) kloc.length true
          (if r < 0 then r else 0, bl, s.setDev loc.tier d)

/-- `del`. -/
def del (s : Engine A) (key : Key) : Int × Engine A :=
  match s.keyMap.lookup key with
  | none => (-enoent, s)
  | some kloc =>
      let (r, s) := s.logRecords [keyDelRecord key, markDeadRecord kloc]
      if r < 0 then (r, s)
      else (0, { s with keyMap := s.keyMap.erase key }.dropSlot kloc)

/-! ## Recovery -/

/-- Replay the records of one opcode. -/
def replayOp (s : Engine A) (records : List JournalRecord) (op : JournalOp)
    (f : Engine A → JournalRecord → Engine A) : Engine A :=
  records.foldl (fun s rec => if rec.op = op then f s rec else s) s

/-- The sum of the live lengths of an extent, in 32 bits. -/
def totalLive (km : KeyMap) (extentId : Nat) : Nat :=
  (km.keysInExtent extentId).foldl
    (fun total key => u32 (total + ((km.lookup key).getD {}).length)) 0

/-- Recompute one extent's byte counts from the key map, or free it. -/
def recountExtent (s : Engine A) (snap : SnapshotEntry) : Engine A :=
  let live := totalLive s.keyMap snap.extentId
  { s with extentMap :=
      if live = 0 then s.extentMap.free snap.extentId
      else s.extentMap.restoreExtentState snap.extentId live live }

/-- Read an extent's header block: is it there with a wrong checksum? A failed
read and a block without the magic number pass the check. -/
def readHeader (dev : Tier → BlockDevice) (snap : SnapshotEntry) :
    Bool × (Tier → BlockDevice) :=
  let (r, hdr, d) := (dev snap.location.tier).read snap.location.offset HEADER_SIZE true
  (!(decide (r < 0) || decide (hdr.length < HEADER_SIZE)) && headerCorrupt hdr,
    Function.update dev snap.location.tier d)

/-- Verify one extent's header, dropping a corrupt extent and its keys. -/
def verifyHeader (s : Engine A) (snap : SnapshotEntry) : Engine A :=
  let (bad, dev) := readHeader s.dev snap
  let s := { s with dev := dev }
  if bad then
    { s with
      keyMap := (s.keyMap.keysInExtent snap.extentId).foldl KeyMap.erase s.keyMap
      extentMap := s.extentMap.free snap.extentId }
  else s

/-- Replay `OP_EXTENT_NEW`. -/
def extentNewPass (s : Engine A) (records : List JournalRecord) : Engine A :=
  s.replayOp records .OP_EXTENT_NEW fun s rec =>
    { s with extentMap := s.extentMap.createEntryFromJournal rec.extentId rec.extentLoc }

/-- Replay `OP_KEY_PUT`. -/
def keyPutPass (s : Engine A) (records : List JournalRecord) : Engine A :=
  s.replayOp records .OP_KEY_PUT fun s rec =>
    { s with keyMap := s.keyMap.put rec.key rec.keyLoc 0 }

/-- Replay `OP_KEY_DEL`. -/
def keyDelPass (s : Engine A) (records : List JournalRecord) : Engine A :=
  s.replayOp records .OP_KEY_DEL fun s rec => { s with keyMap := s.keyMap.erase rec.key }

/-- Replay `OP_MARK_DEAD`. -/
def markDeadPass (s : Engine A) (records : List JournalRecord) : Engine A :=
  s.replayOp records .OP_MARK_DEAD fun s rec =>
    { s with extentMap := s.extentMap.markDeadSlot rec.extentId rec.deadLength }

/-- Replay `OP_EXTENT_FREE`. -/
def extentFreePass (s : Engine A) (records : List JournalRecord) : Engine A :=
  s.replayOp records .OP_EXTENT_FREE fun s rec =>
    { s with extentMap := s.extentMap.free rec.extentId }

/-- The five replay passes of `recover_internal`, one per opcode. -/
def replayPasses (s : Engine A) (records : List JournalRecord) : Engine A :=
  ((((s.extentNewPass records).keyPutPass records).keyDelPass records).markDeadPass
    records).extentFreePass records

/-- The recount of every extent's used and live bytes. -/
def recountExtents (s : Engine A) : Engine A :=
  s.extentMap.snapshot.foldl recountExtent s

/-- Mark the regions of the extents as used in the allocators. -/
def reserveExtents [Allocator A] (s : Engine A) : Engine A :=
  { s with alloc := s.extentMap.snapshot.foldl (fun al snap =>
      Function.update al snap.location.tier
        (Allocator.initRmFree (al snap.location.tier) snap.location.offset
          snap.location.length)) s.alloc }

/-- The header check of every extent. -/
def verifyHeaders (s : Engine A) : Engine A := s.extentMap.snapshot.foldl verifyHeader s

/-- `recover_internal`. -/
def recoverInternal [Allocator A] (s : Engine A) (records : List JournalRecord) : Engine A :=
  let s := (s.replayPasses records).recountExtents.reserveExtents.verifyHeaders
  { s with extentMap := s.extentMap.clearDeferredFree }

/-- The engine as `init` has it before recovery: nothing mapped. -/
def blank (cfg : BtierConfig) (dev : Tier → BlockDevice) (alloc : Tier → A) (j : Journal) :
    Engine A :=
  { cfg, dev, alloc, journal := j
    extentMap := { blockSize := cfg.blockSize, extentSize := cfg.extentSize } }

/-- `init` on two opened devices and two fresh allocators; `none` is an
exception leaving `Journal::recover`. -/
def init [Allocator A] (cfg : BtierConfig) (dev : Tier → BlockDevice) (alloc : Tier → A) :
    Option (Engine A) :=
  let journalSize := if cfg.journalSize > (dev .FAST).size then (dev .FAST).size / 2
    else cfg.journalSize
  let alloc := fun t => Allocator.initAddFree (alloc t) 0 (Allocator.getCapacity (alloc t))
  let alloc := Function.update alloc .FAST (Allocator.initRmFree (alloc .FAST) 0 journalSize)
  let (j, d) := Journal.create journalSize (dev .FAST)
  let s := blank cfg (Function.update dev .FAST d) alloc j
  let (records, j, d) := s.journal.recover (s.dev .FAST)
  let s := { s with journal := j }.setDev .FAST d
  match records with
  | none => none
  | some [] => some (s.withJournal fun j d => j.checkpoint d []).2
  | some records => some (s.recoverInternal records)

end Engine

end Clab.Btier
