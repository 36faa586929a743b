import Clab.Btier.Journal

/-!
# The journal's ring

Where the writes of the journal land. A write goes to the head, or to the start
of the ring when it does not fit before its end; nothing else is compared, so a
call keeps inside the region and off the bytes a recovery reads exactly when
there happens to be room at that place.
-/

namespace Clab.Btier

open Clab.Codec Clab.Blk

namespace Journal

/-! ## Sizes -/

/-- Bytes a write of `n` bytes occupies in the ring. -/
def paddedSize (n : Nat) : Nat :=
  if roundUpTo n kTxnAlignment = 0 then kTxnAlignment else roundUpTo n kTxnAlignment

theorem le_paddedSize (n : Nat) : n ≤ paddedSize n := by
  have := le_roundUpTo n (d := kTxnAlignment) (by decide)
  unfold paddedSize
  split <;> omega

theorem dvd_paddedSize (n : Nat) : kTxnAlignment ∣ paddedSize n := by
  unfold paddedSize
  split
  · exact dvd_rfl
  · exact dvd_roundUpTo n (by decide)

theorem paddedSize_pos (n : Nat) : 0 < paddedSize n := by
  unfold paddedSize
  split
  · decide
  · omega

/-- What fits a block takes one. -/
theorem paddedSize_of_le {n : Nat} (h : n ≤ kTxnAlignment) : paddedSize n = kTxnAlignment := by
  unfold paddedSize roundUpTo kTxnAlignment
  unfold kTxnAlignment at h
  split <;> split at * <;> omega

/-- The padding is at most a block. -/
theorem paddedSize_sub_le (n : Nat) : paddedSize n - n ≤ kTxnAlignment := by
  have := roundUpTo_lt n (d := kTxnAlignment) (by decide)
  unfold paddedSize
  split <;> omega

theorem padded_eq (bl : List Byte) :
    padded bl = bl ++ List.replicate (paddedSize bl.length - bl.length) 0 := rfl

@[simp] theorem padded_length (bl : List Byte) : (padded bl).length = paddedSize bl.length := by
  have := le_paddedSize bl.length
  rw [padded_eq, List.length_append, List.length_replicate]
  omega

/-! ## The superblock on the medium -/

@[simp] theorem superblock_length (sb : JournalSuperBlock) : sb.bytes.length = kSuperblockSize := by
  unfold JournalSuperBlock.bytes putU64 kSuperblockSize
  simp only [List.length_append, leBytes_length, List.length_replicate]

/-- The fields as their words keep them. -/
def stored (sb : JournalSuperBlock) : JournalSuperBlock :=
  { checkpointOffset := sb.checkpointOffset % 2 ^ 64
    checkpointSeqno := sb.checkpointSeqno % 2 ^ 64
    writeOffset := sb.writeOffset % 2 ^ 64 }

theorem parse_bytes (sb : JournalSuperBlock) :
    JournalSuperBlock.parse sb.bytes = (superblockMagic, stored sb) := by
  have hword : ∀ n rest, (putU64 n ++ rest : List Byte).take 8 = putU64 n ∧
      (putU64 n ++ rest : List Byte).drop 8 = rest := fun n rest =>
    ⟨List.take_left' (leBytes_length 8 n), List.drop_left' (leBytes_length 8 n)⟩
  have hnat : ∀ n, leNat (putU64 n) = n % 2 ^ 64 := fun n => by
    rw [putU64, leNat_leBytes, show 256 ^ 8 = 2 ^ 64 by norm_num]
  have h16 : ∀ l : List Byte, l.drop 16 = (l.drop 8).drop 8 := fun l => by rw [List.drop_drop]
  have h24 : ∀ l : List Byte, l.drop 24 = ((l.drop 8).drop 8).drop 8 := fun l => by
    rw [List.drop_drop, List.drop_drop]
  unfold JournalSuperBlock.parse JournalSuperBlock.bytes
  simp only [List.append_assoc, h16, h24, hword, hnat]
  rfl

/-- The superblock on the medium, if there is one. -/
def mediumSuperblock (d : BlockDevice) : Option JournalSuperBlock :=
  let (magic, sb) := JournalSuperBlock.parse (d.content.read 0 kSuperblockSize)
  if magic = superblockMagic then some sb else none

theorem mediumSuperblock_congr {d d' : BlockDevice}
    (h : d'.content.read 0 kSuperblockSize = d.content.read 0 kSuperblockSize) :
    mediumSuperblock d' = mediumSuperblock d := by
  unfold mediumSuperblock
  rw [h]

theorem mediumSuperblock_of_read {d : BlockDevice} {sb : JournalSuperBlock}
    (h : d.content.read 0 kSuperblockSize = sb.bytes) : mediumSuperblock d = some (stored sb) := by
  unfold mediumSuperblock
  rw [h, parse_bytes]
  exact if_pos rfl

/-! ## A device that works -/

/-- No call fails, and the region of the journal is there. -/
structure Serves (d : BlockDevice) (devSize : Nat) : Prop where
  faults : d.faults = []
  aligned : d.blockSize ∣ kTxnAlignment
  fits : devSize ≤ d.size

/-- The device after a write. -/
def written (d : BlockDevice) (off : Nat) (bl : List Byte) : BlockDevice :=
  { d with content := d.content.write off bl, trace := (off, bl) :: d.trace }

theorem mediumSuperblock_written (d : BlockDevice) (sb : JournalSuperBlock) :
    mediumSuperblock (written d 0 sb.bytes) = some (stored sb) := by
  have hread := Content.read_write_same d.content 0 sb.bytes
  rw [superblock_length] at hread
  exact mediumSuperblock_of_read hread

section
variable {d : BlockDevice} {devSize : Nat} (h : Serves d devSize)
include h

theorem Serves.written (off : Nat) (bl : List Byte) : Serves (Journal.written d off bl) devSize :=
  ⟨h.faults, h.aligned, h.fits⟩

theorem Serves.spend : d.spend = d := by
  have hf := h.faults
  unfold BlockDevice.spend
  cases d
  cases hf
  rfl

theorem Serves.fails : d.fails = false := by
  unfold BlockDevice.fails
  rw [h.faults]
  rfl

theorem Serves.isValidIo {off len : Nat} (hoff : kTxnAlignment ∣ off) (hlen : kTxnAlignment ∣ len)
    (hin : off + len ≤ devSize) : d.isValidIo off len = true := by
  have := h.fits
  unfold BlockDevice.isValidIo
  exact decide_eq_true ⟨by omega, Nat.mod_eq_zero_of_dvd (h.aligned.trans hoff),
    Nat.mod_eq_zero_of_dvd (h.aligned.trans hlen)⟩

theorem Serves.write {off : Nat} {bl : List Byte} (hoff : kTxnAlignment ∣ off)
    (hlen : kTxnAlignment ∣ bl.length) (hin : off + bl.length ≤ devSize) :
    d.write off bl false = ((bl.length : Int), Journal.written d off bl) := by
  unfold BlockDevice.write
  rw [h.isValidIo hoff hlen hin, h.fails, h.spend]
  rfl

theorem Serves.flush : d.flush = (0, d) := by
  unfold BlockDevice.flush
  rw [h.fails, h.spend]
  rfl

theorem Serves.read (off len : Nat) :
    d.read off len true = ((len : Int), d.content.read off len, d) := by
  unfold BlockDevice.read
  rw [h.fails, h.spend]
  rfl

theorem Serves.writeSuperblock (hsize : kSuperblockSize ≤ devSize) (j : Journal) :
    j.writeSuperblock d = (0, Journal.written d 0 j.superblock.bytes) := by
  unfold Journal.writeSuperblock
  rw [h.write (dvd_zero _) (by rw [superblock_length]; decide) (by rw [superblock_length]; omega)]
  dsimp only
  rw [if_neg (by omega), (h.written _ _).flush]

/-- Reading the superblock finds the one on the medium, or makes a new one. -/
theorem Serves.readSuperblock (hsize : kSuperblockSize ≤ devSize) (j : Journal) :
    j.readSuperblock d = match mediumSuperblock d with
      | some sb => (0, { j with superblock := sb, writeOffset := sb.writeOffset }, d)
      | none => (0, { j with superblock := {}, writeOffset := 0 },
          Journal.written d 0 ({} : JournalSuperBlock).bytes) := by
  have hread : d.read 0 kSuperblockSize false =
      ((kSuperblockSize : Int), d.content.read 0 kSuperblockSize, d) := by
    have hvalid : d.isValidIo 0 kSuperblockSize = true :=
      h.isValidIo (dvd_zero _) (by decide) (by omega)
    unfold BlockDevice.read
    rw [hvalid, h.fails, h.spend]
    rfl
  unfold Journal.readSuperblock mediumSuperblock
  rw [hread]
  dsimp only
  rw [if_neg (by omega)]
  by_cases hmagic : (JournalSuperBlock.parse (d.content.read 0 kSuperblockSize)).1 = superblockMagic
  · rw [if_neg (not_not.mpr hmagic), if_pos hmagic]
  · rw [if_pos hmagic, if_neg hmagic]
    dsimp only
    rw [h.writeSuperblock hsize]

theorem Serves.create (hsize : kSuperblockSize ≤ devSize) :
    Journal.create devSize d = match mediumSuperblock d with
      | some sb => ({ devSize, superblock := sb, writeOffset := sb.writeOffset }, d)
      | none => ({ devSize }, Journal.written d 0 ({} : JournalSuperBlock).bytes) := by
  unfold Journal.create
  rw [h.readSuperblock hsize]
  cases mediumSuperblock d <;> rfl

end

/-! ## Placement -/

theorem dataSize_eq (j : Journal) : j.dataSize = j.devSize - kSuperblockSize := by
  unfold dataSize
  split <;> omega

/-- Offset at which `len` bytes are written. -/
def writePos (j : Journal) (len : Nat) : Nat := (j.wrapFor len).writeOffset

theorem dataSize_congr {j j' : Journal} (h : j'.devSize = j.devSize) : j'.dataSize = j.dataSize := by
  unfold dataSize
  rw [h]

theorem writePos_congr {j j' : Journal} (hdev : j'.devSize = j.devSize)
    (hoff : j'.writeOffset = j.writeOffset) (len : Nat) : j'.writePos len = j.writePos len := by
  unfold writePos wrapFor
  rw [dataSize_congr hdev, hoff]
  split
  · rfl
  · exact hoff

/-- What `pad_and_write` does to the medium and to the head. -/
theorem padAndWrite_cases {j j' : Journal} {d d' : BlockDevice} {bl : List Byte} {r : Int}
    (h : j.padAndWrite d bl = (r, j', d')) :
    (d.accepts (kDataStart + j.writePos (paddedSize bl.length)) (paddedSize bl.length) = false ∧
      r < 0 ∧ j' = j.wrapFor (paddedSize bl.length) ∧ BlockDevice.Wrote d d' []) ∨
    (d.accepts (kDataStart + j.writePos (paddedSize bl.length)) (paddedSize bl.length) = true ∧
      j' = (j.wrapFor (paddedSize bl.length)).advance (paddedSize bl.length) ∧
      BlockDevice.Wrote d d'
        [(kDataStart + j.writePos (paddedSize bl.length), padded bl)]) := by
  unfold padAndWrite at h
  dsimp only at h
  rw [padded_length] at h
  generalize hwrite : d.write (kDataStart + (j.wrapFor (paddedSize bl.length)).writeOffset)
    (padded bl) false = out at h
  obtain ⟨r₁, d₁⟩ := out
  have hcases := BlockDevice.write_direct hwrite
  rw [padded_length] at hcases
  dsimp only at h
  rcases hcases with ⟨hacc, hr, hw⟩ | ⟨hacc, hr, hw⟩
  · rw [if_pos hr] at h
    cases h
    exact .inl ⟨hacc, hr, rfl, hw⟩
  · rw [if_neg (by omega)] at h
    cases h
    exact .inr ⟨hacc, rfl, hw.trans (BlockDevice.wrote_flush rfl)⟩

/-- The superblock write, whose failure no caller looks at. -/
theorem writeSuperblock_cases (j : Journal) (d : BlockDevice) :
    BlockDevice.Wrote d (j.writeSuperblock d).2 [] ∨
      BlockDevice.Wrote d (j.writeSuperblock d).2 [(0, j.superblock.bytes)] := by
  unfold writeSuperblock
  generalize hwrite : d.write 0 j.superblock.bytes false = out
  obtain ⟨r, d₁⟩ := out
  rcases BlockDevice.write_direct hwrite with ⟨-, hr, hw⟩ | ⟨-, hr, hw⟩
  · left
    dsimp only
    rw [if_pos hr]
    exact hw
  · right
    dsimp only
    rw [if_neg (by omega)]
    exact hw.trans (BlockDevice.wrote_flush rfl)

/-! ## Calls -/

/-- The calls of a writer. -/
inductive Call
  | beginTxn
  | append (txnId : Nat) (rec : JournalRecord)
  | commitTxn (txnId : Nat)
  | checkpoint (fullState : List JournalRecord)

/-- Result, journal and device of one call. -/
def Call.run (j : Journal) (d : BlockDevice) : Call → Int × Journal × BlockDevice
  | .beginTxn => (j.beginTxn.1, j.beginTxn.2, d)
  | .append txnId rec => ((j.append txnId rec).1, (j.append txnId rec).2, d)
  | .commitTxn txnId => j.commitTxn d txnId
  | .checkpoint fullState => j.checkpoint d fullState

/-- The bytes a call hands to `pad_and_write`. -/
def Call.payload (j : Journal) : Call → Option (List Byte)
  | .commitTxn txnId =>
      (j.activeTxns.lookup txnId).map fun tb => txnBytes txnId tb.serialized
  | .checkpoint fullState => some (checkpointBytes fullState)
  | _ => none

/-- A call without bytes to write leaves the device alone. -/
theorem Call.run_idle {j : Journal} {c : Call} (h : c.payload j = none) (d : BlockDevice) :
    (c.run j d).2.2 = d := by
  cases c with
  | beginTxn => rfl
  | append txnId rec => rfl
  | commitTxn txnId =>
      have hnone : j.activeTxns.lookup txnId = none := by simpa [payload] using h
      show (j.commitTxn d txnId).2.2 = d
      unfold Journal.commitTxn
      rw [hnone]
  | checkpoint fullState => cases h

/-- A call with bytes to write is refused by the device, or puts them at the
head; the superblock may follow. -/
theorem Call.run_writes {j : Journal} {c : Call} {bl : List Byte} (h : c.payload j = some bl)
    (d : BlockDevice) :
    (d.accepts (kDataStart + j.writePos (paddedSize bl.length)) (paddedSize bl.length) = false ∧
      (c.run j d).1 < 0 ∧ BlockDevice.Wrote d (c.run j d).2.2 []) ∨
    (d.accepts (kDataStart + j.writePos (paddedSize bl.length)) (paddedSize bl.length) = true ∧
      ∃ w, BlockDevice.Wrote d (c.run j d).2.2
          (w ++ [(kDataStart + j.writePos (paddedSize bl.length), padded bl)]) ∧
        ∀ x ∈ w, x.1 = 0 ∧ x.2.length = kSuperblockSize) := by
  have hsuper : ∀ (j₁ : Journal) (d₁ : BlockDevice), ∃ w,
      BlockDevice.Wrote d₁ (j₁.writeSuperblock d₁).2 w ∧
        ∀ x ∈ w, x.1 = 0 ∧ x.2.length = kSuperblockSize := by
    intro j₁ d₁
    rcases writeSuperblock_cases j₁ d₁ with hw | hw
    · exact ⟨[], hw, by simp⟩
    · exact ⟨_, hw, by simp⟩
  cases c with
  | beginTxn => cases h
  | append txnId rec => cases h
  | commitTxn txnId =>
      obtain ⟨tb, htb, rfl⟩ := Option.map_eq_some_iff.mp h
      have hrun : Call.run j d (.commitTxn txnId) =
          { j with activeTxns := j.activeTxns.erase txnId }.commitBuffer d txnId tb.records
            tb.serialized := by
        show j.commitTxn d txnId = _
        unfold Journal.commitTxn
        rw [htb]
      have hpos : ∀ len, { j with activeTxns := j.activeTxns.erase txnId }.writePos len =
          j.writePos len := writePos_congr rfl rfl
      rw [hrun]
      unfold commitBuffer
      generalize hpad : padAndWrite { j with activeTxns := j.activeTxns.erase txnId } d
        (txnBytes txnId tb.serialized) = out
      obtain ⟨r, j₁, d₁⟩ := out
      have hcases := padAndWrite_cases hpad
      rw [hpos] at hcases
      dsimp only
      rcases hcases with ⟨hacc, hr, -, hw⟩ | ⟨hacc, -, hw⟩
      · rw [if_pos hr]
        exact .inl ⟨hacc, hr, hw⟩
      · refine .inr ⟨hacc, ?_⟩
        split
        · exact ⟨[], hw, by simp⟩
        · obtain ⟨w, hsb, hsize⟩ := hsuper _ d₁
          exact ⟨w, hw.trans hsb, hsize⟩
  | checkpoint fullState =>
      cases h
      show (_ ∧ (j.checkpoint d fullState).1 < 0 ∧ BlockDevice.Wrote d (j.checkpoint d _).2.2 _) ∨
        (_ ∧ ∃ w, BlockDevice.Wrote d (j.checkpoint d _).2.2 _ ∧ _)
      unfold Journal.checkpoint
      dsimp only
      generalize hpad : j.padAndWrite d (checkpointBytes fullState) = out
      obtain ⟨r, j₁, d₁⟩ := out
      dsimp only
      rcases padAndWrite_cases hpad with ⟨hacc, hr, -, hw⟩ | ⟨hacc, -, hw⟩
      · rw [if_pos hr]
        exact .inl ⟨hacc, hr, hw⟩
      · refine .inr ⟨hacc, ?_⟩
        split
        · exact ⟨[], hw, by simp⟩
        · obtain ⟨w, hsb, hsize⟩ := hsuper _ d₁
          exact ⟨w, hw.trans hsb, hsize⟩

/-! ## Staying inside -/

/-- The bytes go into the ring, or the device refuses them. -/
def Contains (j : Journal) (d : BlockDevice) (bl : List Byte) : Prop :=
  d.accepts (kDataStart + j.writePos (paddedSize bl.length)) (paddedSize bl.length) = true →
    paddedSize bl.length ≤ j.dataSize

theorem Contains.congr {j j' : Journal} {d : BlockDevice} {bl : List Byte} (h : j.Contains d bl)
    (hdev : j'.devSize = j.devSize) (hoff : j'.writeOffset = j.writeOffset) :
    j'.Contains d bl := by
  unfold Contains
  rw [writePos_congr hdev hoff, dataSize_congr hdev]
  exact h

/-- What is no larger than the ring fits at its place. -/
theorem writePos_le {j : Journal} {len : Nat} (h : len ≤ j.dataSize) :
    j.writePos len + len ≤ j.dataSize := by
  unfold writePos wrapFor
  split
  · simpa using h
  · omega

/-- A call whose bytes go into the ring writes inside the region. -/
theorem Call.run_inside {j : Journal} {d : BlockDevice} {c : Call} {bl : List Byte}
    (h : c.payload j = some bl) (hfit : j.Contains d bl) :
    ∃ ws, BlockDevice.Wrote d (c.run j d).2.2 ws ∧ ∀ x ∈ ws, x.1 + x.2.length ≤ j.devSize := by
  rcases run_writes h d with ⟨-, -, hw⟩ | ⟨hacc, w, hw, hsuper⟩
  · exact ⟨[], hw, by simp⟩
  · have hpos := paddedSize_pos bl.length
    have hle := hfit hacc
    have hin := writePos_le hle
    have hdata := j.dataSize_eq
    have hstart : kDataStart = kSuperblockSize := rfl
    refine ⟨_, hw, fun x hx => ?_⟩
    rcases List.mem_append.mp hx with hx | hx
    · obtain ⟨hoff, hsize⟩ := hsuper x hx
      omega
    · obtain rfl := List.mem_singleton.mp hx
      rw [padded_length]
      dsimp only
      omega

theorem devSize_padAndWrite (j : Journal) (d : BlockDevice) (bl : List Byte) :
    (j.padAndWrite d bl).2.1.devSize = j.devSize := by
  have hwrap : ∀ len, (j.wrapFor len).devSize = j.devSize := by
    intro len
    unfold wrapFor
    split <;> rfl
  unfold padAndWrite
  dsimp only
  split
  · exact hwrap _
  · exact hwrap _

theorem devSize_checkpoint (j : Journal) (d : BlockDevice) (fullState : List JournalRecord) :
    (j.checkpoint d fullState).2.1.devSize = j.devSize := by
  have hpad := j.devSize_padAndWrite d (checkpointBytes fullState)
  unfold checkpoint
  dsimp only
  split
  · exact hpad
  · exact hpad

theorem devSize_commitTxn (j : Journal) (d : BlockDevice) (txnId : Nat) :
    (j.commitTxn d txnId).2.1.devSize = j.devSize := by
  unfold commitTxn
  split
  · rfl
  · unfold commitBuffer
    dsimp only
    split <;> exact devSize_padAndWrite _ d _

/-! ## Live data -/

/-- Device bytes from offset `cp` of the ring up to offset `wp`, cyclically. -/
def cyclic (dataSize cp wp : Nat) : Set Nat :=
  if cp ≤ wp then Set.Ico (kDataStart + cp) (kDataStart + wp)
  else Set.Ico (kDataStart + cp) (kDataStart + dataSize) ∪ Set.Ico kDataStart (kDataStart + wp)

/-- The bytes `recover` would read: between the offsets of the superblock it
finds. -/
def needed (j : Journal) (d : BlockDevice) : Set Nat :=
  match mediumSuperblock d with
  | some sb => cyclic j.dataSize sb.checkpointOffset sb.writeOffset
  | none => ∅

/-- The device bytes of a write. -/
def occupied (x : Nat × List Byte) : Set Nat := Set.Ico x.1 (x.1 + x.2.length)

/-- `len` bytes at offset `pos` lie in the ring and off the bytes needed. -/
def Places (j : Journal) (d : BlockDevice) (len pos : Nat) : Prop :=
  pos + len ≤ j.dataSize ∧
    Disjoint (Set.Ico (kDataStart + pos) (kDataStart + pos + len)) (j.needed d)

/-- A call damages nothing: its writes lie in the region, its data writes off
the bytes needed before it, and what fits nowhere is refused. -/
def Call.Protects (j : Journal) (d : BlockDevice) (c : Call) : Prop :=
  ∃ w, BlockDevice.Wrote d (c.run j d).2.2 w ∧
    (∀ x ∈ w, x.1 + x.2.length ≤ j.devSize) ∧
    (∀ x ∈ w, kDataStart ≤ x.1 → Disjoint (occupied x) (j.needed d)) ∧
    ∀ bl, c.payload j = some bl → (∀ pos, ¬ j.Places d (padded bl).length pos) →
      (c.run j d).1 < 0

/-- Every call of a run damages nothing. -/
def AllProtect : List Call → Journal → BlockDevice → Prop
  | [], _, _ => True
  | c :: cs, j, d => c.Protects j d ∧ AllProtect cs (c.run j d).2.1 (c.run j d).2.2

/-! ## Room -/

/-- `len` bytes fit between the place of the next write and the end of the
ring, and reach neither the checkpoint nor what follows it. -/
def Room (j : Journal) (d : BlockDevice) (len : Nat) : Prop :=
  j.writePos len + len ≤ j.dataSize ∧
    match mediumSuperblock d with
    | none => True
    | some sb =>
        (sb.checkpointOffset < sb.writeOffset →
          j.writePos len + len ≤ sb.checkpointOffset ∨ sb.writeOffset ≤ j.writePos len) ∧
        (sb.writeOffset < sb.checkpointOffset →
          j.writePos len + len ≤ sb.checkpointOffset ∧ sb.writeOffset ≤ j.writePos len)

/-- There is room for what the call writes, unless the device refuses it. -/
def Call.HasRoom (j : Journal) (d : BlockDevice) (c : Call) : Prop :=
  ∀ bl, c.payload j = some bl →
    d.accepts (kDataStart + j.writePos (paddedSize bl.length)) (paddedSize bl.length) = true →
    j.Room d (paddedSize bl.length)

/-- Every call of a run finds room. -/
def AllRoom : List Call → Journal → BlockDevice → Prop
  | [], _, _ => True
  | c :: cs, j, d => c.HasRoom j d ∧ AllRoom cs (c.run j d).2.1 (c.run j d).2.2

theorem places_iff_room (j : Journal) (d : BlockDevice) {len : Nat} (h : 0 < len) :
    j.Places d len (j.writePos len) ↔ j.Room d len := by
  unfold Places Room needed
  refine and_congr_right fun hin => ?_
  generalize j.writePos len = pos at hin
  cases mediumSuperblock d with
  | none => simp
  | some sb =>
      dsimp only
      unfold cyclic
      split
      · rw [Set.Ico_disjoint_Ico]
        omega
      · rw [Set.disjoint_union_right, Set.Ico_disjoint_Ico, Set.Ico_disjoint_Ico]
        omega

/-- A call damages nothing exactly when there is room for it. -/
theorem Call.protects_iff (j : Journal) (d : BlockDevice) (c : Call) :
    c.Protects j d ↔ c.HasRoom j d := by
  cases hbl : c.payload j with
  | none =>
      refine iff_of_true ⟨[], ?_, by simp, by simp, by simp [hbl]⟩ (by simp [HasRoom, hbl])
      rw [run_idle hbl]
      exact BlockDevice.Wrote.refl d
  | some bl =>
      have hlen := paddedSize_pos bl.length
      have hdata := j.dataSize_eq
      have hstart : kDataStart = kSuperblockSize := rfl
      rcases run_writes hbl d with ⟨hacc, hr, hw⟩ | ⟨hacc, w, hw, hsuper⟩
      · -- the device refuses the write
        refine iff_of_true ⟨[], hw, by simp, by simp, fun _ _ _ => hr⟩ fun bl' hbl' hacc' => ?_
        obtain rfl := Option.some.inj (hbl.symm.trans hbl')
        exact absurd (hacc.symm.trans hacc') (by decide)
      constructor
      · rintro ⟨w', hw', hregion, hdisj, -⟩ bl' hbl' -
        obtain rfl := Option.some.inj (hbl.symm.trans hbl')
        obtain rfl := List.append_cancel_right (hw'.trace.symm.trans hw.trace)
        have hmem : (kDataStart + j.writePos (paddedSize bl.length), padded bl) ∈
            w ++ [(kDataStart + j.writePos (paddedSize bl.length), padded bl)] := by simp
        have hin := hregion _ hmem
        have hoff := hdisj _ hmem (Nat.le_add_right _ _)
        unfold occupied at hoff
        rw [padded_length] at hin hoff
        refine (places_iff_room j d hlen).mp ⟨?_, hoff⟩
        dsimp only at hin
        omega
      · intro hroom
        have hplaces := (places_iff_room j d hlen).mpr (hroom bl hbl hacc)
        have hin := hplaces.1
        refine ⟨_, hw, fun x hx => ?_, fun x hx hge => ?_, fun bl' hbl' hnone => ?_⟩
        · rcases List.mem_append.mp hx with hx | hx
          · obtain ⟨hoff, hsize⟩ := hsuper x hx
            omega
          · obtain rfl := List.mem_singleton.mp hx
            rw [padded_length]
            dsimp only
            omega
        · rcases List.mem_append.mp hx with hx | hx
          · obtain ⟨hoff, -⟩ := hsuper x hx
            exact absurd hge (by rw [hoff]; decide)
          · obtain rfl := List.mem_singleton.mp hx
            unfold occupied
            rw [padded_length]
            exact hplaces.2
        · obtain rfl := Option.some.inj (hbl.symm.trans hbl')
          rw [padded_length] at hnone
          exact absurd hplaces (hnone _)

/-- No call of a run writes outside the region or over what a recovery would
read, and what has no place is refused, exactly when every call finds room. -/
theorem journal_protects_iff_room (cs : List Call) (j : Journal) (d : BlockDevice) :
    AllProtect cs j d ↔ AllRoom cs j d := by
  induction cs generalizing j d with
  | nil => exact Iff.rfl
  | cons c cs ih => exact and_congr (Call.protects_iff j d c) (ih _ _)

/-- A device of four blocks, the first two of which are the journal's. -/
def fourBlocks : BlockDevice := { content := fun _ => 0, size := 16384 }

theorem mediumSuperblock_fourBlocks : mediumSuperblock fourBlocks = none := by decide +kernel

/-- A deletion of a key of 5000 bytes. -/
def longDel : JournalRecord := { op := .OP_KEY_DEL, key := List.replicate 5000 0 }

/-- One transaction larger than the ring is written over what follows it. -/
theorem journal_overruns_region : ¬ AllProtect [.beginTxn, .append 1 longDel, .commitTxn 1]
    (create 8192 fourBlocks).1 (create 8192 fourBlocks).2 := by
  have hserves : Serves fourBlocks 8192 := ⟨rfl, dvd_rfl, by decide⟩
  rw [hserves.create (by decide), mediumSuperblock_fourBlocks]
  rintro ⟨-, -, hcommit, -⟩
  have hroom := (Call.protects_iff _ _ _).mp hcommit
  have hpayload : Call.payload (Call.run (Call.run { devSize := 8192 } fourBlocks .beginTxn).2.1
      fourBlocks (.append 1 longDel)).2.1 (.commitTxn 1) =
        some (txnBytes 1 (serializeRecord (stamp 1 longDel))) := rfl
  have hlen : (txnBytes 1 (serializeRecord (stamp 1 longDel))).length = 5035 := by
    simp only [txnBytes, serializeRecord, serializeBody, beginRecord, commitRecord, stamp, longDel,
      putU8, putU32, putU64, putString, List.length_append, leBytes_length, List.length_replicate,
      List.length_nil]
  have hin := (hroom _ hpayload (by rw [hlen]; decide)).1
  rw [hlen] at hin
  exact absurd hin (by decide)

end Journal

end Clab.Btier
