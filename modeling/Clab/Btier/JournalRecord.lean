import Clab.Lib.Codec
import Clab.Common.Crc32
import Clab.Btier.Types

/-!
# Journal records

The write-ahead journal's record type with its byte serialisation. A record
carries only the fields of its opcode (`carried`); serialising depends on those
alone, and deserialising a serialised record gives them back.
-/

namespace Clab.Btier

open Clab.Codec

/-- `enum JournalOp`; a byte outside the enumeration is kept as `other`. -/
inductive JournalOp
  | OP_TXN_BEGIN
  | OP_KEY_PUT
  | OP_KEY_DEL
  | OP_MARK_DEAD
  | OP_EXTENT_NEW
  | OP_EXTENT_FREE
  | OP_TXN_COMMIT
  | OP_CHECKPOINT
  | other (b : Nat)
  deriving DecidableEq, Repr

/-- The opcode byte. -/
def JournalOp.toByte : JournalOp → Nat
  | .OP_TXN_BEGIN => 1
  | .OP_KEY_PUT => 2
  | .OP_KEY_DEL => 3
  | .OP_MARK_DEAD => 4
  | .OP_EXTENT_NEW => 5
  | .OP_EXTENT_FREE => 6
  | .OP_TXN_COMMIT => 7
  | .OP_CHECKPOINT => 8
  | .other b => b

/-- `(JournalOp)byte`. -/
def JournalOp.ofByte (b : Nat) : JournalOp :=
  if b = 1 then .OP_TXN_BEGIN else if b = 2 then .OP_KEY_PUT
  else if b = 3 then .OP_KEY_DEL else if b = 4 then .OP_MARK_DEAD
  else if b = 5 then .OP_EXTENT_NEW else if b = 6 then .OP_EXTENT_FREE
  else if b = 7 then .OP_TXN_COMMIT else if b = 8 then .OP_CHECKPOINT
  else .other b

/-- `(uint8_t)tier`. -/
def Tier.toByte : Tier → Nat
  | .FAST => 0
  | .SLOW => 1

/-- `(Tier)byte`; only the two enumerators are ever written. -/
def Tier.ofByte (b : Nat) : Tier := if b = 0 then .FAST else .SLOW

/-- `struct JournalRecord`. `tierByte` is the value of `extent_loc.tier`, which
holds any byte that was read. -/
structure JournalRecord where
  op : JournalOp
  txnId : Nat := 0
  key : Key := []
  keyLoc : KeyLocation := {}
  extentId : Nat := 0
  extentLoc : DiskLocation := {}
  tierByte : Nat := extentLoc.tier.toByte
  deadLength : Nat := 0
  crc : Nat := 0
  deriving DecidableEq, Repr

/-! ## Serialisation -/

def putU8 (v : Nat) : List Byte := leBytes 1 v
def putU32 (v : Nat) : List Byte := leBytes 4 v
def putU64 (v : Nat) : List Byte := leBytes 8 v

def putString (s : Key) : List Byte := putU32 s.length ++ s

def putKeyLocation (kl : KeyLocation) : List Byte :=
  putU64 kl.extentId ++ (putU32 kl.offset ++ putU32 kl.length)

def putDiskLocation (dl : DiskLocation) (tierByte : Nat) : List Byte :=
  putU64 dl.offset ++ (putU32 dl.length ++ putU8 tierByte)

/-- The opcode-dependent part of `serialize_record`. -/
def serializeBody (rec : JournalRecord) : List Byte :=
  match rec.op with
  | .OP_KEY_PUT => putString rec.key ++ putKeyLocation rec.keyLoc
  | .OP_KEY_DEL => putString rec.key
  | .OP_MARK_DEAD => putU64 rec.extentId ++ putU32 rec.deadLength
  | .OP_EXTENT_NEW => putU64 rec.extentId ++ putDiskLocation rec.extentLoc rec.tierByte
  | .OP_EXTENT_FREE => putU64 rec.extentId
  | .OP_TXN_COMMIT => putU32 rec.crc
  | _ => []

/-- `serialize_record`. -/
def serializeRecord (rec : JournalRecord) : List Byte :=
  putU8 rec.op.toByte ++ (putU64 rec.txnId ++ serializeBody rec)

/-! ## Deserialisation -/

def getU8 : Decoder Nat := getLe 1
def getU32 : Decoder Nat := getLe 4
def getU64 : Decoder Nat := getLe 8

def getString : Decoder Key := do
  let len ← getU32
  takeBytes len

def getKeyLocation : Decoder KeyLocation := do
  let extentId ← getU64
  let offset ← getU32
  let length ← getU32
  return { extentId, offset, length }

def getDiskLocation : Decoder (DiskLocation × Nat) := do
  let offset ← getU64
  let length ← getU32
  let tier ← getU8
  return ({ offset, length, tier := Tier.ofByte tier }, tier)

/-- The opcode-dependent part of `deserialize_record`. -/
def deserializeBody (op : JournalOp) (txnId : Nat) : Decoder JournalRecord :=
  match op with
  | .OP_KEY_PUT => do
      let key ← getString
      let keyLoc ← getKeyLocation
      return { op, txnId, key, keyLoc }
  | .OP_KEY_DEL => do
      let key ← getString
      return { op, txnId, key }
  | .OP_MARK_DEAD => do
      let extentId ← getU64
      let deadLength ← getU32
      return { op, txnId, extentId, deadLength }
  | .OP_EXTENT_NEW => do
      let extentId ← getU64
      let (extentLoc, tierByte) ← getDiskLocation
      return { op, txnId, extentId, extentLoc, tierByte }
  | .OP_EXTENT_FREE => do
      let extentId ← getU64
      return { op, txnId, extentId }
  | .OP_TXN_COMMIT => do
      let crc ← getU32
      return { op, txnId, crc }
  | _ => return { op, txnId }

/-- `deserialize_record`; failure is the `end_of_buffer` exception. -/
def deserializeRecord : Decoder JournalRecord := do
  let op ← getU8
  let txnId ← getU64
  deserializeBody (JournalOp.ofByte op) txnId

/-! ## Round trip -/

/-- The fields of a record its opcode serialises; the others are default. -/
def JournalRecord.carried (rec : JournalRecord) : JournalRecord :=
  match rec.op with
  | .OP_KEY_PUT => { op := rec.op, txnId := rec.txnId, key := rec.key, keyLoc := rec.keyLoc }
  | .OP_KEY_DEL => { op := rec.op, txnId := rec.txnId, key := rec.key }
  | .OP_MARK_DEAD =>
      { op := rec.op, txnId := rec.txnId, extentId := rec.extentId, deadLength := rec.deadLength }
  | .OP_EXTENT_NEW =>
      { op := rec.op, txnId := rec.txnId, extentId := rec.extentId, extentLoc := rec.extentLoc
        tierByte := rec.tierByte }
  | .OP_EXTENT_FREE => { op := rec.op, txnId := rec.txnId, extentId := rec.extentId }
  | .OP_TXN_COMMIT => { op := rec.op, txnId := rec.txnId, crc := rec.crc }
  | _ => { op := rec.op, txnId := rec.txnId }

@[simp] theorem JournalRecord.carried_op (rec : JournalRecord) : rec.carried.op = rec.op := by
  unfold carried
  split <;> simp

@[simp] theorem JournalRecord.carried_txnId (rec : JournalRecord) :
    rec.carried.txnId = rec.txnId := by
  unfold carried
  split <;> rfl

/-- The opcode is a value of its type, one byte. -/
def JournalOp.WF (op : JournalOp) : Prop := JournalOp.ofByte op.toByte = op ∧ op.toByte < 2 ^ 8

instance (op : JournalOp) : Decidable op.WF := inferInstanceAs (Decidable (_ ∧ _))

/-- Every field fits the width of its type. -/
structure JournalRecord.WF (rec : JournalRecord) : Prop where
  op : rec.op.WF
  txnId : rec.txnId < 2 ^ 64
  key : rec.key.length < 2 ^ 32
  keyLoc : rec.keyLoc.extentId < 2 ^ 64 ∧ rec.keyLoc.offset < 2 ^ 32 ∧
    rec.keyLoc.length < 2 ^ 32
  extentId : rec.extentId < 2 ^ 64
  extentLoc : rec.extentLoc.offset < 2 ^ 64 ∧ rec.extentLoc.length < 2 ^ 32
  tier : rec.extentLoc.tier = Tier.ofByte rec.tierByte ∧ rec.tierByte < 2 ^ 8
  deadLength : rec.deadLength < 2 ^ 32
  crc : rec.crc < 2 ^ 32

theorem serializeRecord_carried (rec : JournalRecord) :
    serializeRecord rec.carried = serializeRecord rec := by
  unfold serializeRecord
  rw [JournalRecord.carried_op, JournalRecord.carried_txnId]
  congr 2
  unfold serializeBody JournalRecord.carried
  cases hop : rec.op <;> simp

theorem getU8_decodes {n : Nat} (h : n < 2 ^ 8) : Decodes getU8 (putU8 n) n :=
  getLe_decodes (by simpa using h)

theorem getU32_decodes {n : Nat} (h : n < 2 ^ 32) : Decodes getU32 (putU32 n) n :=
  getLe_decodes (by simpa using h)

theorem getU64_decodes {n : Nat} (h : n < 2 ^ 64) : Decodes getU64 (putU64 n) n :=
  getLe_decodes (by simpa using h)

theorem getString_decodes {s : Key} (h : s.length < 2 ^ 32) :
    Decodes getString (putString s) s :=
  (getU32_decodes h).bind (takeBytes_decodes s)

theorem getKeyLocation_decodes {kl : KeyLocation}
    (h : kl.extentId < 2 ^ 64 ∧ kl.offset < 2 ^ 32 ∧ kl.length < 2 ^ 32) :
    Decodes getKeyLocation (putKeyLocation kl) kl :=
  (getU64_decodes h.1).bind ((getU32_decodes h.2.1).bind
    (Decodes.map (g := fun n => KeyLocation.mk kl.extentId kl.offset n)
      (getU32_decodes h.2.2)))

theorem Tier.ofByte_toByte (t : Tier) : Tier.ofByte t.toByte = t := by
  cases t <;> rfl

theorem Tier.toByte_lt (t : Tier) : t.toByte < 2 ^ 8 := by
  cases t <;> decide

theorem getDiskLocation_decodes {dl : DiskLocation} {tierByte : Nat}
    (h : dl.offset < 2 ^ 64 ∧ dl.length < 2 ^ 32)
    (ht : dl.tier = Tier.ofByte tierByte ∧ tierByte < 2 ^ 8) :
    Decodes getDiskLocation (putDiskLocation dl tierByte) (dl, tierByte) := by
  have hmap := Decodes.map (g := fun n => (DiskLocation.mk dl.offset dl.length (Tier.ofByte n), n))
    (getU8_decodes ht.2)
  rw [← ht.1] at hmap
  exact (getU64_decodes h.1).bind ((getU32_decodes h.2).bind hmap)

theorem deserializeBody_decodes {rec : JournalRecord} (h : rec.WF) :
    Decodes (deserializeBody rec.op rec.txnId) (serializeBody rec) rec.carried := by
  unfold deserializeBody serializeBody JournalRecord.carried
  cases hop : rec.op with
  | OP_KEY_PUT =>
      exact (getString_decodes h.key).bind (Decodes.map (getKeyLocation_decodes h.keyLoc))
  | OP_KEY_DEL => exact Decodes.map (getString_decodes h.key)
  | OP_MARK_DEAD =>
      exact (getU64_decodes h.extentId).bind (Decodes.map (getU32_decodes h.deadLength))
  | OP_EXTENT_NEW =>
      exact (getU64_decodes h.extentId).bind
        (Decodes.map (getDiskLocation_decodes h.extentLoc h.tier))
  | OP_EXTENT_FREE => exact Decodes.map (getU64_decodes h.extentId)
  | OP_TXN_COMMIT => exact Decodes.map (getU32_decodes h.crc)
  | other b => exact Decodes.pure _
  | OP_TXN_BEGIN => exact Decodes.pure _
  | OP_CHECKPOINT => exact Decodes.pure _

/-- Deserialising a serialised record yields the fields its opcode carries and
consumes exactly its bytes. -/
theorem deserializeRecord_decodes {rec : JournalRecord} (h : rec.WF) :
    Decodes deserializeRecord (serializeRecord rec) rec.carried := by
  refine (getU8_decodes h.op.2).bind ((getU64_decodes h.txnId).bind ?_)
  rw [h.op.1]
  exact deserializeBody_decodes h

theorem serializeRecord_length_ge (rec : JournalRecord) :
    9 ≤ (serializeRecord rec).length := by
  simp only [serializeRecord, putU8, putU64, List.length_append, leBytes_length]
  omega

end Clab.Btier
