import Clab.Bluefs.Encoding
import Clab.Bluefs.Mounting
import Clab.Common.DencReading

/-!
# The visitors of BlueFS

The structs that BlueFS stores, each as the body that DENC visits. All of them
round trip and stay in their input, by the laws of DENC. The limit is the 32-bit
length of a list: a longer encoding gets a space that is too small for it.
-/

namespace Clab.Bluefs

open Common Codec

/-- `uint8_t` in an array. -/
def byteDenc : Denc UInt8 := .fields UInt8.toNat UInt8.ofNat (.integer 1)

/-- `uuid_d`. -/
def uuidDenc : Denc Bytes := .struct 1 1 (.array 16 byteDenc)

/-- `bluefs_extent_t`. -/
def Extent.denc : Denc Extent :=
  .struct 1 1 (.fields (fun v => (v.offset, v.length, v.bdev))
    (fun (offset, length, bdev) => { offset, length, bdev })
    (.pair (.integer 8) (.pair (.integer 4) (.integer 1))))

/-- `bluefs_fnode_delta_t`. -/
def FnodeDelta.denc : Denc FnodeDelta :=
  .struct 1 1 (.fields (fun v => (v.ino, v.size, v.mtime, v.offset, v.extents))
    (fun (ino, size, mtime, offset, extents) => { ino, size, mtime, offset, extents })
    (.pair (.integer 8) (.pair (.integer 8) (.pair (.integer 8) (.pair (.integer 8)
      (.vector Extent.denc))))))

/-- `bluefs_fnode_t` with the byte that nothing but its encoding uses. -/
structure StoredFnode extends Fnode where
  unused : Nat := 0

/-- `bluefs_fnode_t`; `decode` ends with `recalc_allocated`. -/
def StoredFnode.denc : Denc StoredFnode :=
  .fields (fun v => (v.ino, v.size, v.mtime, v.unused, v.extents))
    (fun (ino, size, mtime, unused, extents) =>
      { toFnode := Fnode.decode {} ino size mtime extents, unused })
    (.struct 1 1 (.pair (.integer 8) (.pair (.integer 8) (.pair (.integer 8) (.pair (.integer 1)
      (.vector Extent.denc))))))

/-- `bluefs_super_t`. -/
structure StoredSuper where
  uuid : Bytes
  osdUuid : Bytes
  version : Nat
  blockSize : Nat
  logFnode : StoredFnode

def StoredSuper.denc : Denc StoredSuper :=
  .struct 1 1 (.fields (fun v => (v.uuid, v.osdUuid, v.version, v.blockSize, v.logFnode))
    (fun (uuid, osdUuid, version, blockSize, logFnode) =>
      { uuid, osdUuid, version, blockSize, logFnode })
    (.pair uuidDenc (.pair uuidDenc (.pair (.integer 8) (.pair (.integer 4) StoredFnode.denc)))))

/-- `bluefs_transaction_t`; `op_bl` is its nodes. -/
structure StoredTransaction where
  uuid : Bytes
  seq : Nat
  opBl : List Bytes

def StoredTransaction.denc : Denc StoredTransaction :=
  .struct 1 1 (.fields (fun v => (v.uuid, v.seq, v.opBl)) (fun (uuid, seq, opBl) => { uuid, seq, opBl })
    (.pair uuidDenc (.pair (.integer 8) .bufferList)))

/-! ## The encodings -/

theorem Extent.denc_bytes (e : Extent) : Extent.denc.bytes e = e.encode := by
  simp only [Extent.denc, Denc.bytes, Extent.encode, encodeStruct, List.append_assoc]

example : Extent.denc.bytes ⟨4096, 512, 1⟩ =
    [1, 1, 13, 0, 0, 0, 0, 16, 0, 0, 0, 0, 0, 0, 0, 2, 0, 0, 1] := by decide

theorem vector_bytes (extents : List Extent) :
    (Denc.vector Extent.denc).bytes extents = encodeVector Extent.encode extents := by
  have hitem : Extent.denc.bytes = Extent.encode := funext Extent.denc_bytes
  rw [Denc.bytes, encodeVector, hitem]

theorem FnodeDelta.denc_bytes (d : FnodeDelta) : FnodeDelta.denc.bytes d = d.encode := by
  simp only [FnodeDelta.denc, Denc.bytes, FnodeDelta.encode, encodeStruct, ← vector_bytes,
    List.append_assoc]

theorem uuidDenc_bytes (uuid : Bytes) : uuidDenc.bytes uuid = encodeUuid uuid := by
  have hbyte : ∀ b : UInt8, byteDenc.bytes b = [b] := by
    intro b
    simp [byteDenc, Denc.bytes, leBytes]
  have hbytes : (Denc.array 16 byteDenc).bytes uuid = uuid := by
    rw [Denc.bytes, funext hbyte, List.flatMap_singleton']
  rw [uuidDenc, Denc.bytes, hbytes]
  rfl

theorem StoredFnode.denc_bytes (f : StoredFnode) (hunused : f.unused = 0) :
    StoredFnode.denc.bytes f = encodeFnode f.ino f.size f.mtime f.extents := by
  have hzero : leBytes 1 f.unused = [0] := by rw [hunused]; rfl
  simp only [StoredFnode.denc, Denc.bytes, hzero, encodeFnode, encodeStruct, ← vector_bytes,
    List.append_assoc]

theorem StoredTransaction.denc_bytes (t : Transaction) (opBl : List Bytes)
    (hops : opBl.flatten = t.ops.flatMap LogOp.encode) :
    StoredTransaction.denc.bytes ⟨t.uuid, t.seq, opBl⟩ = t.encode := by
  simp only [StoredTransaction.denc, Denc.bytes, uuidDenc_bytes, hops, Transaction.encode,
    encodeStruct, encodeBytes, List.append_assoc]

theorem StoredSuper.denc_bytes (super : Super) :
    StoredSuper.denc.bytes ⟨super.uuid, List.replicate 16 0, super.version, super.blockSize,
      { toFnode := super.logFnode }⟩ = super.encode := by
  have hfnode := StoredFnode.denc_bytes { toFnode := super.logFnode } rfl
  simp only [StoredSuper.denc, Denc.bytes, uuidDenc_bytes, hfnode, Super.encode, encodeStruct,
    List.append_assoc]

/-! ## What is decoded -/

theorem uuidDenc_norm (uuid : Bytes) : uuidDenc.norm uuid = uuid := by
  have hbyte : byteDenc.norm = id := by
    funext b
    exact UInt8.ofNat_toNat
  rw [uuidDenc, Denc.norm, Denc.norm, hbyte, List.map_id]

theorem vector_norm (extents : List Extent) : (Denc.vector Extent.denc).norm extents = extents := by
  have hitem : Extent.denc.norm = id := rfl
  rw [Denc.norm, hitem, List.map_id]

theorem FnodeDelta.denc_norm (d : FnodeDelta) : FnodeDelta.denc.norm d = d := by
  simp only [FnodeDelta.denc, Denc.norm, List.map_id, show Extent.denc.norm = id from rfl]

theorem StoredFnode.denc_norm (f : StoredFnode) :
    StoredFnode.denc.norm f = { f with toFnode := f.toFnode.recalcAllocated } := by
  simp only [StoredFnode.denc, Denc.norm, List.map_id, show Extent.denc.norm = id from rfl]
  rfl

theorem StoredSuper.denc_norm (v : StoredSuper) :
    StoredSuper.denc.norm v =
      { v with logFnode := { v.logFnode with toFnode := v.logFnode.toFnode.recalcAllocated } } := by
  simp only [StoredSuper.denc, Denc.norm, uuidDenc_norm, StoredFnode.denc_norm]

theorem StoredTransaction.denc_norm (t : StoredTransaction) :
    StoredTransaction.denc.norm t =
      { t with opBl := if t.opBl.flatten = [] then [] else [t.opBl.flatten] } := by
  simp only [StoredTransaction.denc, Denc.norm, uuidDenc_norm]

/-! ## Round trips -/

theorem Extent.denc_sound : Extent.denc.Sound :=
  Denc.sound trivial ⟨trivial, trivial, trivial⟩

theorem extent_bytes_pos (e : Extent) : 0 < (Extent.denc.bytes e).length := by
  rw [Extent.denc, Denc.bytes]
  simp

theorem FnodeDelta.denc_sound : FnodeDelta.denc.Sound :=
  Denc.sound trivial ⟨trivial, trivial, trivial, trivial, ⟨trivial, trivial, trivial⟩, extent_bytes_pos⟩

theorem fnode_solid : StoredFnode.denc.Solid :=
  ⟨trivial, trivial, trivial, trivial, ⟨trivial, trivial, trivial⟩, extent_bytes_pos⟩

theorem StoredFnode.denc_sound : StoredFnode.denc.Sound := Denc.sound trivial fnode_solid

theorem StoredSuper.denc_sound : StoredSuper.denc.Sound :=
  Denc.sound trivial ⟨trivial, trivial, trivial, trivial, fnode_solid⟩

theorem StoredTransaction.denc_sound : StoredTransaction.denc.Sound :=
  Denc.sound trivial ⟨trivial, trivial, trivial⟩

/-- Every struct round trips and stays in its input: what is decoded is the value, with what
`recalc_allocated` computes in an fnode and with the operations in one node. -/
theorem structs_round_trip :
    (Extent.denc.Sound ∧ ∀ e, Extent.denc.norm e = e) ∧
    (FnodeDelta.denc.Sound ∧ ∀ d, FnodeDelta.denc.norm d = d) ∧
    (StoredFnode.denc.Sound ∧ ∀ f, StoredFnode.denc.norm f =
      { f with toFnode := f.toFnode.recalcAllocated }) ∧
    (StoredSuper.denc.Sound ∧ ∀ v, StoredSuper.denc.norm v =
      { v with logFnode := { v.logFnode with toFnode := v.logFnode.toFnode.recalcAllocated } }) ∧
    (StoredTransaction.denc.Sound ∧ ∀ t, StoredTransaction.denc.norm t =
      { t with opBl := if t.opBl.flatten = [] then [] else [t.opBl.flatten] }) :=
  ⟨⟨Extent.denc_sound, fun _ => rfl⟩, ⟨FnodeDelta.denc_sound, FnodeDelta.denc_norm⟩,
    ⟨StoredFnode.denc_sound, StoredFnode.denc_norm⟩, ⟨StoredSuper.denc_sound, StoredSuper.denc_norm⟩,
    StoredTransaction.denc_sound, StoredTransaction.denc_norm⟩

/-! ## Lists that are too long -/

/-- A transaction with as many bytes of operations as a list can have gets one byte less than the
appender writes. -/
theorem encodeTo_full {ops : Bytes} (hops : ops.length = 2 ^ 32 - 1) :
    StoredTransaction.denc.encodeTo ⟨List.replicate 16 0, 0, [ops]⟩ [] 0 = none := by
  have hflat : [ops].flatten = ops := by simp
  have hbound : ∀ p, StoredTransaction.denc.boundEncode ⟨List.replicate 16 0, 0, [ops]⟩ p =
      p + 36 + (4 + ops.length) := by
    intro p
    show p + 36 + (4 + [ops].flatten.length) = _
    rw [hflat]
  obtain ⟨m, hmem, -, hcount, -⟩ :=
    StoredTransaction.denc.encode_appends ⟨List.replicate 16 0, 0, [ops]⟩ {}
  have hlength := hbound 0
  rw [Denc.boundEncode_eq] at hlength
  have hshared : (StoredTransaction.denc.encode ⟨List.replicate 16 0, 0, [ops]⟩ {}).outOfBandOffset =
      0 + [ops].flatten.length := rfl
  have hwritten : (StoredTransaction.denc.encode ⟨List.replicate 16 0, 0, [ops]⟩ {}).mem.length =
      40 := by
    rw [hflat] at hshared
    change m.length + _ = 0 + _ at hcount
    rw [hmem]
    show m.length = 40
    omega
  unfold Denc.encodeTo
  simp only
  rw [hbound, hwritten, hops, if_pos (by decide)]

/-- The operations of a transaction can be too long for its encoding. -/
theorem not_structs_round_trip : ¬ ∀ t : StoredTransaction, StoredTransaction.denc.InRange t →
    ∀ dest tail, ∃ bs, StoredTransaction.denc.encodeTo t dest tail = some (dest ++ bs) ∧
      ∀ (l : NodeList) off s, l.bytes.drop off = bs ++ s →
        StoredTransaction.denc.decodeAt l off =
          .ok ({ t with opBl := [t.opBl.flatten] }, off + bs.length) := by
  intro hall
  have hfull : (List.replicate (2 ^ 32 - 1) (0 : UInt8)).length = 2 ^ 32 - 1 := List.length_replicate
  generalize List.replicate (2 ^ 32 - 1) (0 : UInt8) = ops at hfull
  have hrange : StoredTransaction.denc.InRange ⟨List.replicate 16 0, 0, [ops]⟩ := by
    refine ⟨⟨rfl, fun b _ => b.toNat_lt⟩, ?_, ?_⟩
    · show 0 < 256 ^ 8
      decide
    · show [ops].flatten.length < 2 ^ 32
      rw [List.flatten_singleton, hfull]
      decide
  obtain ⟨bs, hencode, -⟩ := hall _ hrange [] 0
  rw [encodeTo_full hfull] at hencode
  exact absurd hencode (by simp)

end Clab.Bluefs
