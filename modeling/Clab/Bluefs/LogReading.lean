import Clab.Bluefs.Replay
import Clab.Bluefs.Visitors

/-!
# Reading the log

`_open_super` and `_replay` on the bytes of the devices: the block with the header
of a transaction, the blocks behind it, the checks of uuid and number, and the
operations one after the other. The lists that are read are their bytes, by
`Denc.decodeFront_eq`.
-/

namespace Clab.Common.Denc

variable {α : Type}

/-- `decode` at the front of a list. -/
def decodeFront (d : Denc α) (bl : Bytes) : Except DecodeError (α × Nat) :=
  if bl = [] then .error .endOfBuffer
  else (d.decode (ofBytes bl)).map fun r => (r.1, r.2.off)

theorem decodeFront_eq (d : Denc α) (l : NodeList) : d.decodeAt l 0 = d.decodeFront l.bytes := by
  have hempty : l.length ≤ 0 ↔ l.bytes = [] := by
    rw [← l.length_bytes, Nat.le_zero, List.length_eq_zero_iff]
  rw [decodeAt_eq, decodeFront, List.drop_zero, if_congr hempty rfl rfl]
  simp only [Nat.zero_add]

/-- What is encoded at the front is decoded. -/
theorem decodeFront_bytes {d : Denc α} (hheaded : d.Headed) (hsolid : d.Solid) {x : α}
    (hx : d.InRange x) (hlength : (d.bytes x).length < 2 ^ 32) (behind : Bytes) :
    d.decodeFront (d.bytes x ++ behind) = .ok (d.norm x, (d.bytes x).length) := by
  have hspells := spells_bytes hsolid hx hlength
  have hpos := spells_length hheaded hspells
  obtain ⟨it, hrun, -, hoff⟩ := d.decode_spells hspells (ofBytes (d.bytes x ++ behind)) behind
    (ofBytes_bytes _)
  unfold decodeFront
  rw [if_neg (by
    intro hnil
    rw [(List.append_eq_nil_iff.mp hnil).1] at hpos
    exact absurd hpos (lt_irrefl 0)), hrun]
  show Except.ok (d.norm x, it.off) = _
  rw [hoff]
  simp [ofBytes]

end Clab.Common.Denc

namespace Clab.Bluefs

open Blk Common Codec

/-! ## Operands -/

/-- `decode` of a string. -/
def decodeString : Common.Decoder Bytes := do
  let len ← Decoder.integer 4
  Decoder.getPosAdd len

/-- The operands of an operation; `none` is a number that is not the number of one. -/
def LogOp.decodeOperands : Nat → Option (Common.Decoder LogOp)
  | 2 => some (return .init)
  | 5 => some do
      let dirname ← decodeString
      let filename ← decodeString
      let ino ← Decoder.integer 8
      return .dirLink dirname filename ino
  | 6 => some do
      let dirname ← decodeString
      let filename ← decodeString
      return .dirUnlink dirname filename
  | 7 => some do
      let dirname ← decodeString
      return .dirCreate dirname
  | 8 => some do
      let dirname ← decodeString
      return .dirRemove dirname
  | 9 => some do
      let fnode ← StoredFnode.denc.decode
      return .fileUpdate fnode.ino fnode.size fnode.mtime fnode.extents
  | 10 => some do
      let ino ← Decoder.integer 8
      return .fileRemove ino
  | 11 => some do
      let nextSeq ← Decoder.integer 8
      let offset ← Decoder.integer 8
      return .jump nextSeq offset
  | 12 => some do
      let nextSeq ← Decoder.integer 8
      return .jumpSeq nextSeq
  | 13 => some do
      let delta ← FnodeDelta.denc.decode
      return .fileUpdateInc delta
  | _ => none

/-- Every operand fits in its field. -/
def LogOp.InRange : LogOp → Prop
  | .init | .dirUnlink _ _ | .dirCreate _ | .dirRemove _ => True
  | .dirLink _ _ ino | .fileRemove ino => ino < 256 ^ 8
  | .fileUpdate ino size mtime extents =>
      StoredFnode.denc.InRange { toFnode := { ino, size, mtime, extents } }
  | .fileUpdateInc delta => FnodeDelta.denc.InRange delta
  | .jump nextSeq offset => nextSeq < 256 ^ 8 ∧ offset < 256 ^ 8
  | .jumpSeq nextSeq => nextSeq < 256 ^ 8

theorem decodeString_decodes {bs : Bytes} (h : bs.length < 2 ^ 32) :
    Decoder.Decodes decodeString (encodeBytes bs) bs :=
  (Decoder.Decodes.integer (by omega)).bind (.getPosAdd bs)

/-- The operands of an operation are decoded. -/
theorem LogOp.operands_decode {op : LogOp} (hop : op.InRange) (hlength : op.encode.length < 2 ^ 32) :
    ∃ d, LogOp.decodeOperands op.code.toNat = some d ∧ Decoder.Decodes d op.operands op := by
  have hoperands : op.operands.length < 2 ^ 32 := by
    rw [LogOp.encode, List.length_cons] at hlength
    omega
  cases op with
  | init => exact ⟨_, rfl, .pure _⟩
  | dirLink dir file ino =>
      rw [LogOp.operands, encodeBytes, encodeBytes] at hoperands
      simp only [List.length_append, leBytes_length] at hoperands
      refine ⟨_, rfl, ?_⟩
      rw [LogOp.operands, List.append_assoc]
      exact (decodeString_decodes (by omega)).bind ((decodeString_decodes (by omega)).bind
        (Decoder.Decodes.integer hop).map)
  | dirUnlink dir file =>
      rw [LogOp.operands, encodeBytes, encodeBytes] at hoperands
      simp only [List.length_append, leBytes_length] at hoperands
      exact ⟨_, rfl, (decodeString_decodes (by omega)).bind (decodeString_decodes (by omega)).map⟩
  | dirCreate dir =>
      rw [LogOp.operands, encodeBytes, List.length_append] at hoperands
      exact ⟨_, rfl, (decodeString_decodes (by omega)).map⟩
  | dirRemove dir =>
      rw [LogOp.operands, encodeBytes, List.length_append] at hoperands
      exact ⟨_, rfl, (decodeString_decodes (by omega)).map⟩
  | fileUpdate ino size mtime extents =>
      refine ⟨_, rfl, ?_⟩
      have hbytes := StoredFnode.denc_bytes { toFnode := { ino, size, mtime, extents } } rfl
      have hspells := Denc.spells_bytes fnode_solid hop (by rw [hbytes]; exact hoperands)
      rw [hbytes] at hspells
      have hdecodes := (StoredFnode.denc.decode_spells hspells).map
        (g := fun fnode => LogOp.fileUpdate fnode.ino fnode.size fnode.mtime fnode.extents)
      rw [StoredFnode.denc_norm] at hdecodes
      exact hdecodes
  | fileRemove ino => exact ⟨_, rfl, (Decoder.Decodes.integer hop).map⟩
  | jump nextSeq offset =>
      exact ⟨_, rfl, (Decoder.Decodes.integer hop.1).bind (Decoder.Decodes.integer hop.2).map⟩
  | jumpSeq nextSeq => exact ⟨_, rfl, (Decoder.Decodes.integer hop).map⟩
  | fileUpdateInc delta =>
      refine ⟨_, rfl, ?_⟩
      have hbytes := FnodeDelta.denc_bytes delta
      have hspells := Denc.spells_bytes (d := FnodeDelta.denc)
        ⟨trivial, trivial, trivial, trivial, ⟨trivial, trivial, trivial⟩, extent_bytes_pos⟩ hop
        (by rw [hbytes]; exact hoperands)
      have hdecodes := (FnodeDelta.denc.decode_spells hspells).map (g := LogOp.fileUpdateInc)
      rw [hbytes, FnodeDelta.denc_norm] at hdecodes
      exact hdecodes

/-! ## The replay -/

/-- What stops a replay. -/
inductive ReplayError
  /-- A code that is returned. -/
  | code (r : Int)
  /-- A failed assertion. -/
  | assertion
  /-- An exception that is not caught. -/
  | thrown (e : DecodeError)
  /-- A call of a device that is not there. -/
  | noDevice
  /-- A loop that outlives its fuel. -/
  | fuel

/-- The variables of `_replay`, with the BlueFS that it fills. -/
structure ReplayState (V A : Type) where
  fs : BlueFS V A
  logSeq : Nat := 0
  pos : Nat := 0
  seenRecs : Bool := false

/-- A decoder that no one catches. -/
def decodeOrThrow {α : Type} (d : Common.Decoder α) (it : PtrIterator) :
    Except ReplayError (α × PtrIterator) :=
  (d it).mapError .thrown

namespace BlueFS

variable {V A : Type}

/-- A read of at most `len` bytes in the extent of position `off` of the log; nothing is behind the
extents. -/
def readBlock (s : BlueFS V A) (log : FileRef) (off len : Nat) :
    Except ReplayError (Option (Bytes × BlueFS V A)) :=
  let fnode := (s.nodes.files log).fnode
  match fnode.seek off with
  | none => .ok none
  | some (i, x) =>
      match fnode.extents[i]? with
      | none => .ok none
      | some e =>
          match s.bdev e.bdev with
          | none => .error .noDevice
          | some d =>
              let (r, bl, d) := d.read (e.offset + x) (min (e.length - x) len) false
              let s := { s with bdev := Function.update s.bdev e.bdev (some d) }
              if r < 0 then .error (.code r) else .ok (some (bl, s))

/-- The loop that reads `more` bytes behind `bl`, which was read at `pos`. -/
def readMore (s : BlueFS V A) (log : FileRef) (pos : Nat) :
    Nat → Nat → Bytes → Except ReplayError (Bytes × BlueFS V A)
  | 0, more, bl => if more = 0 then .ok (bl, s) else .error .fuel
  | fuel + 1, more, bl =>
      if more = 0 then .ok (bl, s)
      else
        let off := add64 pos (bl.length % 2 ^ 32)
        let len := min s.super.blockSize (sub64 (s.nodes.files log).fnode.size off)
        match s.readBlock log off len with
        | .error e => .error e
        | .ok none => .ok (bl, s)
        | .ok (some (block, s)) =>
            s.readMore log pos fuel (sub64 more (p2roundup len s.super.blockSize)) (bl ++ block)

section Replay

variable [VolumeSelector V]

/-- The loop over the operations of a transaction, which are one buffer. The flag says that a jump
was taken. -/
def replayOps (log : FileRef) :
    Nat → PtrIterator → ReplayState V A → Except ReplayError (Bool × ReplayState V A)
  | 0, ops, st => if ops.left = 0 then .ok (false, st) else .error .fuel
  | fuel + 1, ops, st =>
      if ops.left = 0 then .ok (false, st)
      else do
        let (code, ops) ← decodeOrThrow (Decoder.integer 1) ops
        match LogOp.decodeOperands code with
        | none => .error (.code (-eio))
        | some operands =>
            let (op, ops) ← decodeOrThrow operands ops
            match op with
            | .jump nextSeq offset =>
                if nextSeq ≤ st.logSeq then .error (.code (-eio))
                else if (st.fs.nodes.files log).fnode.size ≤ offset then .error (.code (-eio))
                else .ok (true, { st with logSeq := nextSeq - 1, pos := offset })
            | .jumpSeq nextSeq =>
                if nextSeq ≤ st.logSeq then .error (.code (-eio))
                else replayOps log fuel ops { st with logSeq := nextSeq - 1 }
            | op =>
                match st.fs.replayOp op with
                | none => .error .assertion
                | some fs => replayOps log fuel ops { st with fs }

/-- A transaction that is not the next one ends the replay, or fails it when it is the first. -/
def stopReplay (st : ReplayState V A) : Except ReplayError (Bool × ReplayState V A) :=
  if st.seenRecs then .ok (false, st) else .error (.code (-eio))

/-- The body of the loop of `_replay`, from where the blocks of a transaction are read. The flag says
that the loop goes on. -/
def replayTransaction (log : FileRef) (need : Nat) (st : ReplayState V A) (bl : Bytes) :
    Except ReplayError (Bool × ReplayState V A) :=
  match StoredTransaction.denc.decodeFront bl with
  | .error .malformedInput => stopReplay st
  | .error e => .error (.thrown e)
  | .ok (t, _) =>
      if t.uuid ≠ st.fs.super.uuid then stopReplay st
      else if t.seq ≠ add64 st.logSeq 1 then
        if t.seq = st.logSeq then .ok (false, st) else .error (.code (-eio))
      else do
        let ops := Denc.ofBytes t.opBl.flatten
        let (jumped, st) ← replayOps log ops.left ops { st with seenRecs := true }
        if jumped then .ok (true, st)
        else .ok (true, { st with logSeq := add64 st.logSeq 1, pos := add64 st.pos need })

/-- The length that the header at the front of the bytes gives a transaction, in whole blocks. -/
def neededBytes (blockSize : Nat) (bl : Bytes) : Nat :=
  p2roundup (leNat ((bl.drop 2).take 4) + 6) blockSize

/-- The body of the loop of `_replay`, with the first block. -/
def replayRead (log : FileRef) (fuel : Nat) (st : ReplayState V A) (bl : Bytes) :
    Except ReplayError (Bool × ReplayState V A) :=
  -- the header is peeked at; what that throws is not caught
  if bl.length < 6 then .error (.thrown .endOfBuffer)
  else
    let need := neededBytes st.fs.super.blockSize bl
    match st.fs.readMore log st.pos fuel (need - bl.length % 2 ^ 32) bl with
    | .error e => .error e
    | .ok (bl, fs) => replayTransaction log need { st with fs } bl

/-- The body of the loop of `_replay`. -/
def replayStep (log : FileRef) (fuel : Nat) (st : ReplayState V A) :
    Except ReplayError (Bool × ReplayState V A) :=
  let len := min st.fs.super.blockSize ((st.fs.nodes.files log).fnode.size - st.pos)
  match st.fs.readBlock log st.pos len with
  | .error e => .error e
  | .ok none => .ok (false, st)
  | .ok (some (bl, fs)) =>
      if bl = [] then .ok (false, { st with fs }) else replayRead log fuel { st with fs } bl

/-- The loop of `_replay`; each loop in it has the fuel of all. -/
def replayLoop (log : FileRef) (fuel : Nat) : Nat → ReplayState V A →
    Except ReplayError (ReplayState V A)
  | 0, st =>
      if st.pos < (st.fs.nodes.files log).fnode.size then .error .fuel else .ok st
  | n + 1, st =>
      if st.pos < (st.fs.nodes.files log).fnode.size then do
        let (more, st) ← replayStep log fuel st
        if more then replayLoop log fuel n st else .ok st
      else .ok st

/-- What `_replay` does when its loop has ended. -/
def endReplay (s : BlueFS V A) (log : FileRef) (logSeq pos : Nat) : BlueFS V A :=
  let f := s.nodes.files log
  { s with
    log := { s.log with seqLive := logSeq + 1 }
    dirty := { s.dirty with seqLive := logSeq + 1, seqStable := logSeq }
    nodes := (s.nodes.setFile log { f with fnode := { f.fnode with size := pos } }).dropOrphans }

/-- `_replay` of the log file `log`. -/
def replayLog (s : BlueFS V A) (log : FileRef) (fuel : Nat) : Except ReplayError (BlueFS V A) :=
  if (s.nodes.files log).fnode.extents = [] then .ok s
  else (replayLoop log fuel fuel { fs := s }).map fun st => st.fs.endReplay log st.logSeq st.pos

end Replay

/-! ## The superblock -/

/-- What `_open_super` makes of the bytes of the superblock. -/
def decodeSuper (bl : Bytes) : Except ReplayError Super :=
  match StoredSuper.denc.decodeFront bl with
  | .error .malformedInput => .error (.code (-eio))
  | .error e => .error (.thrown e)
  | .ok (super, off) =>
      match (Denc.integer 4).decodeFront (bl.drop off) with
      | .error .malformedInput => .error (.code (-eio))
      | .error e => .error (.thrown e)
      | .ok (expectedCrc, _) =>
          if (calcCrc32 (bl.take off) (BitVec.allOnes 32)).toNat ≠ expectedCrc then
            .error (.code (-eio))
          else
            .ok { uuid := super.uuid, version := super.version, blockSize := super.blockSize
                  logFnode := super.logFnode.toFnode }

/-- `_open_super`. -/
def openSuper (s : BlueFS V A) : Except ReplayError (BlueFS V A) :=
  match s.bdev BDEV_DB with
  | none => .error (.code (-enodev))
  | some d =>
      let (r, bl, d) := d.read SUPER_OFFSET SUPER_LENGTH false
      let s := { s with bdev := Function.update s.bdev BDEV_DB (some d) }
      if r < 0 then .error (.code r)
      else (decodeSuper bl).map fun super => { s with super }

/-- `mount`, with the allocators of `_init_alloc`. -/
def mountDevices [VolumeSelector V] [Allocator A] (s : BlueFS V A) (alloc : Nat → A) (fuel : Nat) :
    Except ReplayError (BlueFS V A) := do
  let s ← s.openSuper
  let (log, s) := (s.initAlloc alloc).openLog
  let s ← s.replayLog log fuel
  return s.mountReplayed log

end BlueFS

end Clab.Bluefs
