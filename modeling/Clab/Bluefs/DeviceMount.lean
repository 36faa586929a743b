import Clab.Bluefs.LogReplay

/-!
# Mounting from the devices

`_open_super` reads back the superblock that `_write_super` wrote, and `mount` makes
of the bytes of the devices what a mount makes of the transactions in the log.
-/

namespace Clab.Bluefs

open Blk Common Codec Segments

variable {V A : Type}

/-! ## The superblock -/

/-- The block that `_write_super` writes. -/
def Super.block (super : Super) : Bytes :=
  let bl := super.encode
  let bl := bl ++ leBytes 4 (calcCrc32 bl (BitVec.allOnes 32)).toNat
  bl ++ List.replicate (SUPER_LENGTH - bl.length) 0

/-- The superblock fits in its fields and in its block. -/
structure Super.Fits (super : Super) : Prop where
  id : super.uuid.length = 16
  version : super.version < 256 ^ 8
  blockSize : super.blockSize < 256 ^ 4
  logFnode : StoredFnode.denc.InRange { toFnode := super.logFnode }
  length : super.encode.length + 4 ≤ SUPER_LENGTH

theorem Super.Fits.block_length {super : Super} (h : super.Fits) :
    super.block.length = SUPER_LENGTH := by
  have hlength := h.length
  unfold Super.block
  simp only [List.length_append, List.length_replicate, leBytes_length]
  omega

theorem decodeFront_integer {w n : Nat} (hw : 0 < w) (hn : n < 256 ^ w) (behind : Bytes) :
    (Denc.integer w).decodeFront (leBytes w n ++ behind) = .ok (n, w) := by
  obtain ⟨it, hrun, -, hoff⟩ := Decoder.Decodes.integer hn (Denc.ofBytes (leBytes w n ++ behind))
    behind (Denc.ofBytes_bytes _)
  have hne : leBytes w n ++ behind ≠ [] := by
    intro hnil
    have hlength := congrArg List.length (List.append_eq_nil_iff.mp hnil).1
    rw [leBytes_length, List.length_nil] at hlength
    omega
  unfold Denc.decodeFront
  rw [if_neg hne]
  show (Decoder.integer w _).map _ = _
  rw [hrun]
  show Except.ok (n, it.off) = _
  rw [hoff, leBytes_length]
  simp [Denc.ofBytes]

/-- A superblock is read back, with what is counted when its fnode is decoded. -/
theorem decodeSuper_block {super : Super} (h : super.Fits) :
    BlueFS.decodeSuper super.block = .ok super.reread := by
  have hbytes := StoredSuper.denc_bytes super
  have hrange : StoredSuper.denc.InRange ⟨super.uuid, List.replicate 16 0, super.version,
      super.blockSize, { toFnode := super.logFnode }⟩ :=
    ⟨⟨h.id, fun b _ => b.toNat_lt⟩, ⟨List.length_replicate, fun b _ => b.toNat_lt⟩, h.version,
      h.blockSize, h.logFnode⟩
  have hlength := h.length
  have hshort : super.encode.length < 2 ^ 32 := by
    unfold SUPER_LENGTH at hlength
    omega
  obtain ⟨zeros, hblock⟩ : ∃ zeros, super.block = super.encode ++
      (leBytes 4 (calcCrc32 super.encode (BitVec.allOnes 32)).toNat ++ zeros) :=
    ⟨_, List.append_assoc _ _ _⟩
  have hdecode := Denc.decodeFront_bytes (d := StoredSuper.denc) trivial
    ⟨trivial, trivial, trivial, trivial, fnode_solid⟩ hrange (by rw [hbytes]; exact hshort)
    (leBytes 4 (calcCrc32 super.encode (BitVec.allOnes 32)).toNat ++ zeros)
  rw [hbytes, ← hblock, StoredSuper.denc_norm] at hdecode
  have hcrc := decodeFront_integer (w := 4) (by decide)
    (calcCrc32 super.encode (BitVec.allOnes 32)).isLt zeros
  unfold BlueFS.decodeSuper
  rw [hdecode]
  simp only
  rw [hblock, List.drop_left, List.take_left, hcrc]
  simp only [ne_eq, not_true, if_false]
  rfl

/-- The device of the database has the superblock, and reads it without a fault. -/
structure HasSuper (s : BlueFS V A) (super : Super) : Prop where
  device : ∃ d, s.bdev BDEV_DB = some d ∧ d.faults = [] ∧ d.blockSize ∣ 4096 ∧
    SUPER_OFFSET + SUPER_LENGTH ≤ d.size ∧
    d.volatile.read SUPER_OFFSET SUPER_LENGTH = super.block

theorem openSuper_block {s : BlueFS V A} {super : Super} (hsuper : super.Fits)
    (h : HasSuper s super) : s.openSuper = .ok { s with super := super.reread } := by
  obtain ⟨d, hd, hfaults, hunit, hsize, hread⟩ := h.device
  have hdirect := read_direct hfaults hsize hunit hunit
  have hsame : Function.update s.bdev BDEV_DB (some d) = s.bdev := by
    rw [← hd, Function.update_eq_self]
  unfold BlueFS.openSuper
  rw [hd]
  simp only
  rw [hdirect]
  simp only
  rw [if_neg (not_lt.mpr (Int.natCast_nonneg _)), hread, decodeSuper_block hsuper, hsame]
  rfl

/-! ## The mount -/

/-- The devices have `data` in the extents of the log, and read its blocks without a fault. -/
structure LogOn (s : BlueFS V A) (fnode : Fnode) (blockSize : Nat) (data : Bytes) : Prop where
  size : fnode.size = data.length
  room : data.length ≤ total Extent.length fnode.extents
  bytes : ∀ i y, i < data.length → place fnode.extents i = some y → s.byte y = data[i]?
  blocks : ∀ e ∈ fnode.extents, blockSize ∣ e.length
  reads : ∀ e ∈ fnode.extents, ∃ d, s.bdev e.bdev = some d ∧ d.faults = [] ∧
    d.blockSize ∣ blockSize ∧ d.blockSize ∣ e.offset ∧ e.offset + e.length ≤ d.size

section Mount

variable [VolumeSelector V] [Allocator A] {base : BlueFS V A} {super : Super}

omit [Allocator A] in
/-- Where the replay of a mount starts. -/
theorem openLog_replayAt (hbase : Pristine base) {data : Bytes}
    (hlog : LogOn base super.logFnode super.blockSize data) (hshort : data.length < 2 ^ 63)
    (alloc : Nat → A) :
    ReplayAt 0 super.blockSize data
      { fs := ({ base with super := super.reread }.initAlloc alloc).openLog.2 } := by
  have hnew := openLog_logOnly hbase super.reread alloc
  have hreread : super.reread.logFnode.extents = super.logFnode.extents := rfl
  have hindexed : super.reread.logFnode.Indexed := (Fnode.recalcAllocated_consistent _).toIndexed
  refine ⟨⟨?_, ?_, ?_, fun i y hi hy => ?_⟩, ⟨?_, ?_⟩, rfl, hshort, Nat.dvd_zero _, ⟨?_, fun ino hino => ?_⟩⟩
  · rw [hnew.fnode]
    exact hindexed
  · rw [hnew.fnode]
    exact hlog.size
  · rw [hnew.fnode, hindexed.allocated]
    exact hlog.room
  · rw [hnew.fnode] at hy
    exact hlog.bytes i y hi hy
  · rw [hnew.fnode]
    exact hlog.blocks
  · rw [hnew.fnode]
    exact hlog.reads
  · rw [hnew.made]
    exact Nat.one_pos
  · rw [hnew.lookup] at hino
    by_contra hne
    rw [if_neg hne] at hino
    exact absurd hino (by simp)

end Mount

/-! ### A log with a torn end -/

/-- The superblock of a log of three blocks. -/
def tornSuper : Super where
  uuid := List.replicate 16 7
  logFnode := Fnode.decode {} 1 12288 0 [⟨1048576, 4194304, 1⟩]

/-- Its second transaction. -/
def tornTx : Transaction where
  uuid := List.replicate 16 7
  seq := 2
  ops := [.dirCreate [100]]

/-- A device that has the superblock, two transactions and the second one once more. -/
def tornDevice : KernelDevice where
  size := 1073741824
  volatile := (Content.write (fun _ => 0) SUPER_OFFSET tornSuper.block).write 1048576
    (logData 4096 [initTx tornSuper.uuid, tornTx] ++ tornTx.padded 4096)

/-- A BlueFS that was just made, on that device. -/
def tornFs : BlueFS OriginalVolumeSelector FreeList :=
  { blankFs with bdev := fun i => if i = BDEV_DB then some tornDevice else none }

end Clab.Bluefs
