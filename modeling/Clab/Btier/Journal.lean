import Clab.Blk.BlockDevice
import Clab.Btier.JournalRecord
import Mathlib

/-!
# The journal

A ring of 4 KiB-aligned transactions behind a superblock block, on the first
`devSize` bytes of the FAST device. A transaction is `BEGIN | records | COMMIT`
with a checksum over the records; a checkpoint is one more transaction holding
a full snapshot, from which recovery starts scanning.
-/

namespace Clab.Btier

open Clab.Codec Clab.Common Clab.Blk

def kSuperblockSize : Nat := 4096
def kDataStart : Nat := kSuperblockSize
def kTxnAlignment : Nat := 4096

/-- `JournalSuperBlock::MAGIC`. -/
def superblockMagic : Nat := 0x42544A5350423031

/-- `JournalSuperBlock` without its magic and padding. -/
structure JournalSuperBlock where
  checkpointOffset : Nat := 0
  checkpointSeqno : Nat := 0
  writeOffset : Nat := 0
  deriving DecidableEq, Repr

/-- The 4096 bytes of a superblock. -/
def JournalSuperBlock.bytes (sb : JournalSuperBlock) : List Byte :=
  putU64 superblockMagic ++ putU64 sb.checkpointOffset ++ putU64 sb.checkpointSeqno ++
    putU64 sb.writeOffset ++ List.replicate 4064 0

/-- Magic number and fields of the block read back. -/
def JournalSuperBlock.parse (bl : List Byte) : Nat × JournalSuperBlock :=
  (leNat (bl.take 8),
    { checkpointOffset := leNat ((bl.drop 8).take 8)
      checkpointSeqno := leNat ((bl.drop 16).take 8)
      writeOffset := leNat ((bl.drop 24).take 8) })

/-- `TxnBuffer`. -/
structure TxnBuffer where
  txnId : Nat
  records : List JournalRecord := []
  serialized : List Byte := []

/-- `Journal::Impl`; the device is passed to each operation. `history` is not
in the source: it lists the records a recovery should find, those of the last
checkpoint and of the transactions committed since. -/
structure Journal where
  devSize : Nat
  nextTxnId : Nat := 1
  activeTxns : AList (fun _ : Nat => TxnBuffer) := ∅
  superblock : JournalSuperBlock := {}
  writeOffset : Nat := 0
  history : List JournalRecord := []

/-- The checksum of a transaction's serialised records. -/
def txnCrc (serialized : List Byte) : Nat :=
  if serialized.length > 0 then (calcCrc32 serialized 0).toNat else 0

/-- A list of records, serialised. -/
def serializeRecords (recs : List JournalRecord) : List Byte := recs.flatMap serializeRecord

def beginRecord (txnId : Nat) : JournalRecord := { op := .OP_TXN_BEGIN, txnId }

def checkpointRecord : JournalRecord := { op := .OP_CHECKPOINT }

def commitRecord (txnId crc : Nat) : JournalRecord := { op := .OP_TXN_COMMIT, txnId, crc }

namespace Journal

/-- Bytes of the ring. -/
def dataSize (j : Journal) : Nat :=
  if j.devSize > kSuperblockSize then j.devSize - kSuperblockSize else 0

/-- `write_superblock`. -/
def writeSuperblock (j : Journal) (d : BlockDevice) : Int × BlockDevice :=
  let (r, d) := d.write 0 j.superblock.bytes false
  if r < 0 then (r, d) else d.flush

/-- `read_superblock`: a block without the magic number is initialised. -/
def readSuperblock (j : Journal) (d : BlockDevice) : Int × Journal × BlockDevice :=
  let (r, bl, d) := d.read 0 kSuperblockSize false
  if r < 0 then (r, j, d)
  else
    let (magic, sb) := JournalSuperBlock.parse bl
    if magic ≠ superblockMagic then
      let j := { j with superblock := {}, writeOffset := 0 }
      let (r, d) := j.writeSuperblock d
      (r, j, d)
    else (0, { j with superblock := sb, writeOffset := sb.writeOffset }, d)

/-- The constructor: reads or initialises the superblock, ignoring errors. -/
def create (devSize : Nat) (d : BlockDevice) : Journal × BlockDevice :=
  let (_, j, d) := readSuperblock { devSize } d
  (j, d)

/-- The bytes `pad_and_write` puts on the device. -/
def padded (bl : List Byte) : List Byte :=
  let size := if roundUpTo bl.length kTxnAlignment = 0 then kTxnAlignment
    else roundUpTo bl.length kTxnAlignment
  bl ++ List.replicate (size - bl.length) 0

/-- Back to the start of the ring when `len` bytes do not fit before its end. -/
def wrapFor (j : Journal) (len : Nat) : Journal :=
  if j.writeOffset + len > j.dataSize then { j with writeOffset := 0 } else j

/-- Past `len` bytes, and back to the start at the end of the ring. -/
def advance (j : Journal) (len : Nat) : Journal :=
  { j with writeOffset :=
      if j.writeOffset + len ≥ j.dataSize then 0 else j.writeOffset + len }

/-- `pad_and_write`. -/
def padAndWrite (j : Journal) (d : BlockDevice) (bl : List Byte) :
    Int × Journal × BlockDevice :=
  let bl := padded bl
  let j := j.wrapFor bl.length
  let (r, d) := d.write (kDataStart + j.writeOffset) bl false
  if r < 0 then (r, j, d)
  else
    let (r, d) := d.flush
    (r, j.advance bl.length, d)

/-- `begin_txn`. -/
def beginTxn (j : Journal) : Nat × Journal :=
  let tb := (j.activeTxns.lookup j.nextTxnId).getD { txnId := j.nextTxnId }
  (j.nextTxnId, { j with
    nextTxnId := j.nextTxnId + 1
    activeTxns := j.activeTxns.insert j.nextTxnId { tb with txnId := j.nextTxnId } })

/-- A record with the id of its transaction. -/
def stamp (txnId : Nat) (rec : JournalRecord) : JournalRecord := { rec with txnId := txnId }

/-- `append`. -/
def append (j : Journal) (txnId : Nat) (rec : JournalRecord) : Int × Journal :=
  match j.activeTxns.lookup txnId with
  | none => (-enoent, j)
  | some tb =>
      let r := stamp txnId rec
      let tb := { tb with
        serialized := tb.serialized ++ serializeRecord r
        records := tb.records ++ [r] }
      (0, { j with activeTxns := j.activeTxns.insert txnId tb })

/-- The bytes of a committed transaction. -/
def txnBytes (txnId : Nat) (serialized : List Byte) : List Byte :=
  serializeRecord (beginRecord txnId) ++ serialized ++
    serializeRecord (commitRecord txnId (txnCrc serialized))

/-- The second half of `commit_txn`, on the records of the transaction; the
superblock write's result is ignored. -/
def commitBuffer (j : Journal) (d : BlockDevice) (txnId : Nat) (records : List JournalRecord)
    (serialized : List Byte) : Int × Journal × BlockDevice :=
  let (r, j, d) := j.padAndWrite d (txnBytes txnId serialized)
  if r < 0 then (r, j, d)
  else
    let j := { j with
      superblock := { j.superblock with writeOffset := j.writeOffset }
      history := j.history ++ records }
    let (_, d) := j.writeSuperblock d
    (0, j, d)

/-- `commit_txn`. -/
def commitTxn (j : Journal) (d : BlockDevice) (txnId : Nat) : Int × Journal × BlockDevice :=
  match j.activeTxns.lookup txnId with
  | none => (-enoent, j, d)
  | some tb =>
      { j with activeTxns := j.activeTxns.erase txnId }.commitBuffer d txnId tb.records
        tb.serialized

/-- The bytes of a checkpoint. -/
def checkpointBytes (fullState : List JournalRecord) : List Byte :=
  serializeRecord (beginRecord 0) ++ serializeRecord checkpointRecord ++
    serializeRecords fullState ++
    serializeRecord (commitRecord 0 (txnCrc (serializeRecords fullState)))

/-- `checkpoint`. -/
def checkpoint (j : Journal) (d : BlockDevice) (fullState : List JournalRecord) :
    Int × Journal × BlockDevice :=
  let ckptStart := j.writeOffset
  let (r, j, d) := j.padAndWrite d (checkpointBytes fullState)
  if r < 0 then (r, j, d)
  else
    let sb : JournalSuperBlock :=
      { checkpointOffset := ckptStart
        writeOffset := j.writeOffset
        checkpointSeqno := j.superblock.checkpointSeqno + 1 }
    let j := { j with superblock := sb, history := fullState }
    let (_, d) := j.writeSuperblock d
    (0, j, d)

/-! ## Transactions -/

/-- No transaction is open. -/
def Idle (j : Journal) : Prop := ∀ id, j.activeTxns.lookup id = none

/-- Appending records to an open transaction collects them and their bytes. -/
theorem foldl_append (j : Journal) (id : Nat) (recs : List JournalRecord) {tb : TxnBuffer}
    (h : j.activeTxns.lookup id = some tb) :
    ∃ m, recs.foldl (fun j rec => (j.append id rec).2) j = { j with activeTxns := m } ∧
      m.lookup id = some { tb with
        records := tb.records ++ recs.map (stamp id)
        serialized := tb.serialized ++ serializeRecords (recs.map (stamp id)) } ∧
      ∀ i, i ≠ id → m.lookup i = j.activeTxns.lookup i := by
  induction recs generalizing j tb with
  | nil => exact ⟨j.activeTxns, rfl, by simpa [serializeRecords] using h, fun _ _ => rfl⟩
  | cons rec rest ih =>
      have hstep : (j.append id rec).2 = { j with
          activeTxns := j.activeTxns.insert id { tb with
            serialized := tb.serialized ++ serializeRecord (stamp id rec)
            records := tb.records ++ [stamp id rec] } } := by
        unfold append
        simp only [h]
      obtain ⟨m, heq, hid, hother⟩ := ih (j.append id rec).2 (by rw [hstep]; exact AList.lookup_insert _)
      refine ⟨m, ?_, ?_, fun i hi => ?_⟩
      · rw [List.foldl_cons, heq, hstep]
      · rw [hid]
        simp [serializeRecords, List.append_assoc]
      · rw [hother i hi, hstep]
        exact AList.lookup_insert_ne hi

/-- Writing a transaction touches neither the open ones nor the history. -/
theorem padAndWrite_keeps {j j' : Journal} {d d' : BlockDevice} {bl : List Byte} {r : Int}
    (h : j.padAndWrite d bl = (r, j', d')) :
    j'.activeTxns = j.activeTxns ∧ j'.history = j.history := by
  have hwrap : ∀ len, (j.wrapFor len).activeTxns = j.activeTxns ∧
      (j.wrapFor len).history = j.history := by
    intro len
    unfold wrapFor
    split <;> exact ⟨rfl, rfl⟩
  unfold padAndWrite at h
  dsimp only at h
  split at h
  · cases h
    exact hwrap _
  · cases h
    exact hwrap _

/-- A checkpoint leaves the open transactions; the history stays, or becomes
the state that was written. -/
theorem checkpoint_keeps {j j' : Journal} {d d' : BlockDevice} {st : List JournalRecord}
    {r : Int} (h : j.checkpoint d st = (r, j', d')) :
    j'.activeTxns = j.activeTxns ∧ (j'.history = j.history ∨ j'.history = st) := by
  unfold checkpoint at h
  dsimp only at h
  generalize hpad : j.padAndWrite d (checkpointBytes st) = out at h
  obtain ⟨r₁, j₁, d₁⟩ := out
  obtain ⟨htxns, hhist⟩ := padAndWrite_keeps hpad
  dsimp only at h
  split at h
  · cases h
    exact ⟨htxns, .inl hhist⟩
  · cases h
    exact ⟨htxns, .inr rfl⟩

theorem beginTxn_of_idle {j : Journal} (hidle : j.Idle) :
    j.beginTxn = (j.nextTxnId, { j with
      nextTxnId := j.nextTxnId + 1
      activeTxns := j.activeTxns.insert j.nextTxnId { txnId := j.nextTxnId } }) := by
  unfold beginTxn
  rw [hidle]
  rfl

/-- One whole transaction on an idle journal: `begin_txn`, `append` for each
record and `commit_txn` come to one `commitBuffer`. -/
theorem commitTxn_of_idle {j : Journal} (hidle : j.Idle) (d : BlockDevice)
    (recs : List JournalRecord) :
    ∃ m : AList fun _ : Nat => TxnBuffer, (∀ i, m.lookup i = none) ∧
      (recs.foldl (fun j' rec => (j'.append j.nextTxnId rec).2) j.beginTxn.2).commitTxn d
          j.nextTxnId =
        { j with nextTxnId := j.nextTxnId + 1, activeTxns := m }.commitBuffer d j.nextTxnId
          (recs.map (stamp j.nextTxnId)) (serializeRecords (recs.map (stamp j.nextTxnId))) := by
  rw [beginTxn_of_idle hidle]
  obtain ⟨m, heq, hid, hother⟩ := foldl_append { j with
    nextTxnId := j.nextTxnId + 1
    activeTxns := j.activeTxns.insert j.nextTxnId { txnId := j.nextTxnId } }
    j.nextTxnId recs (AList.lookup_insert _)
  refine ⟨m.erase j.nextTxnId, fun i => ?_, ?_⟩
  · by_cases hi : i = j.nextTxnId
    · rw [hi]
      exact AList.lookup_erase _ _
    · rw [AList.lookup_erase_ne hi, hother i hi, AList.lookup_insert_ne hi]
      exact hidle i
  · dsimp only at heq ⊢
    rw [heq]
    unfold commitTxn
    simp only [hid]
    rfl

/-! ## Recovery -/

/-- The loop that reads the scan range in blocks; `none` is the failed
allocation of an unrepresentable length. -/
def readRing (dataSize : Nat) : Nat → Nat → Nat → List Byte → BlockDevice →
    Option (List Byte × BlockDevice)
  | 0, _, _, acc, d => some (acc, d)
  | fuel + 1, remaining, readPos, acc, d =>
      if remaining = 0 then some (acc, d)
      else if readPos > dataSize then none
      else
        let toRead := min kTxnAlignment remaining
        let toRead := if readPos + toRead > dataSize then dataSize - readPos else toRead
        let (r, chunk, d) := d.read (kDataStart + readPos) toRead true
        if r < 0 ∨ chunk.length = 0 then some (acc, d)
        else
          let readPos := readPos + toRead
          readRing dataSize fuel (remaining - toRead)
            (if readPos ≥ dataSize then 0 else readPos) (acc ++ chunk) d

/-- State of the parsing loop. -/
structure ScanState where
  inTxn : Bool := false
  currentTxnId : Nat := 0
  currentTxn : List JournalRecord := []
  result : List JournalRecord := []

/-- One parsed record that is not padding. -/
def scanRecord (st : ScanState) (rec : JournalRecord) : ScanState :=
  match rec.op with
  | .OP_TXN_BEGIN => { st with inTxn := true, currentTxnId := rec.txnId, currentTxn := [] }
  | .OP_TXN_COMMIT =>
      let accept := st.inTxn ∧ rec.txnId = st.currentTxnId ∧
        txnCrc (serializeRecords st.currentTxn) = rec.crc
      { st with
        result := if accept then st.result ++ st.currentTxn else st.result
        inTxn := false
        currentTxn := [] }
  | .OP_CHECKPOINT => st
  | _ => if st.inTxn then { st with currentTxn := st.currentTxn ++ [rec] } else st

/-- The parsing loop over `full` from offset `off`; `none` is an escaping
`end_of_buffer` exception. Every round consumes input, so `full.length` rounds
are enough. -/
def scan (full : List Byte) : Nat → Nat → ScanState → Option ScanState
  | 0, _, st => some st
  | fuel + 1, off, st =>
      if full.length - off < 9 then some st
      else match deserializeRecord.run (full.drop off) with
        | none => none
        | some (rec, rest) =>
            if rec.op = .other 0 then
              let nextBoundary := (off / kTxnAlignment + 1) * kTxnAlignment
              if nextBoundary ≥ full.length then some st
              else scan full fuel nextBoundary st
            else scan full fuel (full.length - rest.length) (scanRecord st rec)

/-- `recover`; `none` is an exception leaving the call. -/
def recover (j : Journal) (d : BlockDevice) :
    Option (List JournalRecord) × Journal × BlockDevice :=
  let (r, j, d) := j.readSuperblock d
  if r < 0 then (some [], j, d)
  else
    let scanStart := j.superblock.checkpointOffset
    let scanEnd := j.writeOffset
    let (empty, d) :=
      if scanStart = scanEnd then
        if scanEnd = 0 then
          let (r, first, d) := d.read kDataStart kTxnAlignment true
          (decide (r < 0) || first.all (· == 0), d)
        else (true, d)
      else (false, d)
    if empty then (some [], j, d)
    else
      let scanLen := if scanEnd ≥ scanStart then scanEnd - scanStart
        else j.dataSize - scanStart + scanEnd
      match readRing j.dataSize scanLen scanLen scanStart [] d with
      | none => (none, j, d)
      | some (full, d) =>
          let records := (scan full (full.length + 1) 0 {}).map ScanState.result
          (records, { j with history := records.getD [] }, d)

/-! ## Space management -/

/-- `get_used_bytes`. -/
def getUsedBytes (j : Journal) : Nat :=
  let cp := j.superblock.checkpointOffset
  let wp := j.writeOffset
  if wp ≥ cp then wp - cp else j.dataSize - cp + wp

/-- `get_usage() >= num / den`: the comparison of the source, whose doubles
represent these quotients up to rounding. -/
def usageAtLeast (j : Journal) (num den : Nat) : Bool :=
  if j.dataSize = 0 then true else j.getUsedBytes * den ≥ num * j.dataSize

/-- `needs_checkpoint`: usage at least 80 %. -/
def needsCheckpoint (j : Journal) : Bool := j.usageAtLeast 80 100

/-- `is_near_full`: usage at least 95 %. -/
def isNearFull (j : Journal) : Bool := j.usageAtLeast 95 100

end Journal

end Clab.Btier
