import Clab.Bluefs.Types
import Clab.Lib.Codec

/-!
# The encoding of the journal

What `encode` makes of a transaction: a versioned struct is its two version
bytes, the length of its body and the body; a vector, a string and a buffer list
are a length and the items.
-/

namespace Clab.Bluefs

open Codec

/-- `DENC_START(1, 1, p)` to `DENC_FINISH(p)`. -/
def encodeStruct (body : Bytes) : Bytes := [1, 1] ++ leBytes 4 body.length ++ body

/-- `uuid_d::encode`. -/
def encodeUuid (uuid : Bytes) : Bytes := encodeStruct uuid

/-- `denc` of a string or a buffer list. -/
def encodeBytes (bs : Bytes) : Bytes := leBytes 4 bs.length ++ bs

/-- `denc` of a vector of structs. -/
def encodeVector {α : Type} (f : α → Bytes) (xs : List α) : Bytes :=
  leBytes 4 xs.length ++ xs.flatMap f

def Extent.encode (e : Extent) : Bytes :=
  encodeStruct (leBytes 8 e.offset ++ leBytes 4 e.length ++ leBytes 1 e.bdev)

def FnodeDelta.encode (d : FnodeDelta) : Bytes :=
  encodeStruct (leBytes 8 d.ino ++ leBytes 8 d.size ++ leBytes 8 d.mtime ++ leBytes 8 d.offset ++
    encodeVector Extent.encode d.extents)

/-- `bluefs_fnode_t::encode`; the byte between the times and the extents is unused. -/
def encodeFnode (ino size mtime : Nat) (extents : List Extent) : Bytes :=
  encodeStruct (leBytes 8 ino ++ leBytes 8 size ++ leBytes 8 mtime ++ [0] ++
    encodeVector Extent.encode extents)

/-- `op_t`. -/
def LogOp.code : LogOp → UInt8
  | init => 2
  | dirLink .. => 5
  | dirUnlink .. => 6
  | dirCreate _ => 7
  | dirRemove _ => 8
  | fileUpdate .. => 9
  | fileRemove _ => 10
  | jump .. => 11
  | jumpSeq _ => 12
  | fileUpdateInc _ => 13

/-- The operands of an operation. -/
def LogOp.operands : LogOp → Bytes
  | init => []
  | dirLink dir file ino => encodeBytes dir ++ encodeBytes file ++ leBytes 8 ino
  | dirUnlink dir file => encodeBytes dir ++ encodeBytes file
  | dirCreate dir => encodeBytes dir
  | dirRemove dir => encodeBytes dir
  | fileUpdate ino size mtime extents => encodeFnode ino size mtime extents
  | fileRemove ino => leBytes 8 ino
  | jump nextSeq offset => leBytes 8 nextSeq ++ leBytes 8 offset
  | jumpSeq nextSeq => leBytes 8 nextSeq
  | fileUpdateInc delta => delta.encode

def LogOp.encode (op : LogOp) : Bytes := op.code :: op.operands

/-- `encode(t, bl)`. -/
def Transaction.encode (t : Transaction) : Bytes :=
  encodeStruct (encodeUuid t.uuid ++ leBytes 8 t.seq ++ encodeBytes (t.ops.flatMap LogOp.encode))

end Clab.Bluefs
