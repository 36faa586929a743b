import Clab.Btier.JournalRing

/-!
# What a recovery reads back

The ring between the checkpoint and the head as a sequence of frames, each one
write of the journal: a transaction, a checkpoint, or a block of zeros that was
skipped. Scanning frames applies their records in order, so a recovery returns
the records of the last checkpoint and of the transactions since.
-/

namespace Clab.Btier

open Clab.Codec Clab.Blk

namespace Journal

/-! ## Scanning frames -/

/-- A record the parser does not take for padding. -/
structure Parses (rec : JournalRecord) : Prop where
  wf : rec.WF
  notPadding : rec.op ≠ .other 0

theorem serializeRecords_cons (r : JournalRecord) (rs : List JournalRecord) :
    serializeRecords (r :: rs) = serializeRecord r ++ serializeRecords rs := List.flatMap_cons

theorem serializeRecords_append (rs rs' : List JournalRecord) :
    serializeRecords (rs ++ rs') = serializeRecords rs ++ serializeRecords rs' :=
  List.flatMap_append

theorem length_le_serializeRecords (rs : List JournalRecord) :
    rs.length ≤ (serializeRecords rs).length := by
  induction rs with
  | nil => exact le_rfl
  | cons r rs ih =>
      have := serializeRecord_length_ge r
      rw [serializeRecords_cons, List.length_append, List.length_cons]
      omega

/-- The records of a frame, one after the other. -/
theorem scan_records {full : List Byte} {rs : List JournalRecord} (h : ∀ r ∈ rs, Parses r)
    {rest : List Byte} {off : Nat} (hdrop : full.drop off = serializeRecords rs ++ rest)
    (fuel : Nat) (st : ScanState) :
    scan full (rs.length + fuel) off st = scan full fuel (off + (serializeRecords rs).length)
      ((rs.map JournalRecord.carried).foldl scanRecord st) := by
  induction rs generalizing off st with
  | nil => rw [List.length_nil, Nat.zero_add]; rfl
  | cons r rs ih =>
      obtain ⟨hr, hrs⟩ := List.forall_mem_cons.mp h
      rw [serializeRecords_cons, List.append_assoc] at hdrop
      have hlen := congrArg List.length hdrop
      have hge := serializeRecord_length_ge r
      rw [List.length_drop, List.length_append] at hlen
      have hnext : full.length - (serializeRecords rs ++ rest).length =
          off + (serializeRecord r).length := by omega
      rw [List.length_cons, Nat.succ_add_eq_add_succ, Nat.add_succ, scan, if_neg (by omega), hdrop,
        deserializeRecord_decodes hr.wf]
      dsimp only
      rw [JournalRecord.carried_op, if_neg hr.notPadding, hnext, ih hrs]
      · rw [serializeRecords_cons, List.length_append, Nat.add_assoc, List.map_cons, List.foldl_cons]
      · rw [← List.drop_drop, hdrop, List.drop_left]

/-- A zero byte is read as the start of padding. -/
theorem deserializeRecord_zero {bs : List Byte} (h : 8 ≤ bs.length) :
    ∃ rec rest, deserializeRecord.run (0 :: bs) = some (rec, rest) ∧ rec.op = .other 0 := by
  refine ⟨{ op := .other 0, txnId := leNat (bs.take 8) }, bs.drop 8, ?_, rfl⟩
  have hu64 : getU64.run bs = some (leNat (bs.take 8), bs.drop 8) := by
    show (takeBytes 8 >>= fun b => pure (leNat b)).run bs = _
    rw [StateT.run_bind]
    show (takeBytes 8 bs >>= _) = _
    unfold takeBytes
    rw [if_pos h]
    rfl
  show (getU64 >>= fun txnId => deserializeBody (JournalOp.ofByte 0) txnId).run bs = _
  rw [StateT.run_bind, hu64]
  rfl

/-- Padding is skipped up to the next block. -/
theorem scan_padding {full rest : List Byte} {off z : Nat} (hz : z ≤ kTxnAlignment)
    (hdrop : full.drop off = List.replicate z 0 ++ rest) (hoff : off ≤ full.length)
    (hend : kTxnAlignment ∣ off + z) (hrest : kTxnAlignment ∣ rest.length) {fuel : Nat}
    (hfuel : z < fuel) (st : ScanState) :
    ∃ fuel', fuel ≤ fuel' + z ∧ scan full fuel off st = scan full fuel' (off + z) st := by
  rcases Nat.eq_zero_or_pos z with rfl | hpos
  · exact ⟨fuel, le_rfl, rfl⟩
  · obtain ⟨fuel, rfl⟩ : ∃ n, fuel = n + 2 := ⟨fuel - 2, by omega⟩
    have hlen := congrArg List.length hdrop
    rw [List.length_drop, List.length_append, List.length_replicate] at hlen
    refine ⟨fuel + 1, by omega, ?_⟩
    -- at the end of the data there is nothing left to parse
    have hstop : rest = [] → scan full (fuel + 1) (off + z) st = some st := by
      rintro rfl
      rw [scan, if_pos (by rw [List.length_nil] at hlen; omega)]
    have hmore : rest ≠ [] → kTxnAlignment ≤ rest.length := fun hne =>
      Nat.le_of_dvd (List.length_pos_iff.mpr hne) hrest
    have hblock : kTxnAlignment = 4096 := rfl
    rw [scan]
    split
    · rw [hstop]
      by_contra hne
      have := hmore hne
      omega
    · obtain ⟨z, rfl⟩ := Nat.exists_eq_add_of_le' hpos
      obtain ⟨rec, tail, hrun, hop⟩ := @deserializeRecord_zero
        (List.replicate z 0 ++ rest) (by
          rw [List.length_append, List.length_replicate]
          omega)
      have hboundary : (off / kTxnAlignment + 1) * kTxnAlignment = off + (z + 1) := by
        rw [hblock] at hend hz ⊢
        omega
      rw [hdrop, List.replicate_succ, List.cons_append, hrun]
      dsimp only
      rw [if_pos hop, hboundary]
      split
      · rw [hstop]
        refine List.length_eq_zero_iff.mp ?_
        omega
      · rfl

/-- The bytes of one write. -/
def frameBytes (frame : List JournalRecord) : List Byte := padded (serializeRecords frame)

/-- The bytes of consecutive writes. -/
def framesBytes (frames : List (List JournalRecord)) : List Byte := frames.flatMap frameBytes

theorem dvd_framesBytes_length (frames : List (List JournalRecord)) :
    kTxnAlignment ∣ (framesBytes frames).length := by
  induction frames with
  | nil => exact dvd_zero _
  | cons f fs ih =>
      show kTxnAlignment ∣ (frameBytes f ++ framesBytes fs).length
      rw [List.length_append, frameBytes, padded_length]
      exact dvd_add (dvd_paddedSize _) ih

/-- Scanning whole frames applies their records in order. -/
theorem scan_frames {full : List Byte} {frames : List (List JournalRecord)}
    (h : ∀ f ∈ frames, ∀ r ∈ f, Parses r) {off : Nat} (hdrop : full.drop off = framesBytes frames)
    (hoff : off ≤ full.length) (hdvd : kTxnAlignment ∣ off) {fuel : Nat}
    (hfuel : full.length - off < fuel) (st : ScanState) :
    scan full fuel off st =
      some ((frames.flatten.map JournalRecord.carried).foldl scanRecord st) := by
  induction frames generalizing off fuel st with
  | nil =>
      obtain ⟨fuel, rfl⟩ := Nat.exists_eq_add_of_lt hfuel
      have hlen := congrArg List.length hdrop
      rw [List.length_drop] at hlen
      rw [scan, if_pos (hlen.trans_lt (by decide))]
      rfl
  | cons f fs ih =>
      obtain ⟨hf, hfs⟩ := List.forall_mem_cons.mp h
      have hser : f.length ≤ (serializeRecords f).length := length_le_serializeRecords f
      have hlen := congrArg List.length hdrop
      have hsize : (framesBytes (f :: fs)).length =
          paddedSize (serializeRecords f).length + (framesBytes fs).length := by
        show (frameBytes f ++ framesBytes fs).length = _
        rw [List.length_append, frameBytes, padded_length]
      rw [List.length_drop, hsize] at hlen
      have hle := le_paddedSize (serializeRecords f).length
      have hpad := paddedSize_sub_le (serializeRecords f).length
      have hbytes : full.drop off = serializeRecords f ++ (List.replicate
          (paddedSize (serializeRecords f).length - (serializeRecords f).length) 0 ++
            framesBytes fs) := by
        rw [hdrop, ← List.append_assoc]
        rfl
      obtain ⟨fuel, rfl⟩ : ∃ n, fuel = f.length + n := ⟨fuel - f.length, by omega⟩
      rw [scan_records hf hbytes]
      have hrest : full.drop (off + (serializeRecords f).length) = List.replicate
          (paddedSize (serializeRecords f).length - (serializeRecords f).length) 0 ++
            framesBytes fs := by
        rw [← List.drop_drop, hbytes, List.drop_left]
      have hnext : off + (serializeRecords f).length +
          (paddedSize (serializeRecords f).length - (serializeRecords f).length) =
            off + paddedSize (serializeRecords f).length := by omega
      have hleft : paddedSize (serializeRecords f).length - (serializeRecords f).length < fuel := by
        omega
      obtain ⟨fuel', hfuel', heq⟩ := scan_padding hpad hrest (by omega)
        (by rw [hnext]; exact dvd_add hdvd (dvd_paddedSize _)) (dvd_framesBytes_length fs)
        hleft ((f.map JournalRecord.carried).foldl scanRecord st)
      rw [heq, hnext, ih hfs ?_ (by omega) (dvd_add hdvd (dvd_paddedSize _)) (by omega),
        List.flatten_cons, List.map_append, List.foldl_append]
      rw [← hnext, ← List.drop_drop, hrest, List.drop_left' List.length_replicate]

/-! ## What a frame contributes -/

/-- A record that is neither framing nor padding. -/
structure Plain (rec : JournalRecord) : Prop where
  wf : rec.WF
  notBegin : rec.op ≠ .OP_TXN_BEGIN
  notCommit : rec.op ≠ .OP_TXN_COMMIT
  notCheckpoint : rec.op ≠ .OP_CHECKPOINT
  notPadding : rec.op ≠ .other 0

/-- `BEGIN | head | records | COMMIT`, the checksum over the records. -/
def frame (txnId : Nat) (head recs : List JournalRecord) : List JournalRecord :=
  beginRecord txnId :: (head ++ (recs ++ [commitRecord txnId (txnCrc (serializeRecords recs))]))

theorem txnBytes_eq (txnId : Nat) (recs : List JournalRecord) :
    txnBytes txnId (serializeRecords recs) = serializeRecords (frame txnId [] recs) := by
  unfold txnBytes frame
  rw [serializeRecords_cons, List.nil_append, serializeRecords_append, List.append_assoc]
  congr 2

theorem checkpointBytes_eq (fullState : List JournalRecord) :
    checkpointBytes fullState = serializeRecords (frame 0 [checkpointRecord] fullState) := by
  unfold checkpointBytes frame
  rw [serializeRecords_cons, serializeRecords_append, serializeRecords_append, List.append_assoc,
    List.append_assoc]
  congr 2

/-- The parser collects plain records. -/
theorem foldl_scanRecord_plain {recs : List JournalRecord} (h : ∀ r ∈ recs, Plain r)
    {st : ScanState} (hin : st.inTxn = true) :
    (recs.map JournalRecord.carried).foldl scanRecord st =
      { st with currentTxn := st.currentTxn ++ recs.map JournalRecord.carried } := by
  induction recs generalizing st with
  | nil => simp
  | cons r rs ih =>
      obtain ⟨hr, hrs⟩ := List.forall_mem_cons.mp h
      have hstep : scanRecord st r.carried =
          { st with currentTxn := st.currentTxn ++ [r.carried] } := by
        have h₁ := hr.notBegin
        have h₂ := hr.notCommit
        have h₃ := hr.notCheckpoint
        unfold scanRecord
        rw [JournalRecord.carried_op]
        split
        · exact absurd ‹_› h₁
        · exact absurd ‹_› h₂
        · exact absurd ‹_› h₃
        · exact if_pos hin
      rw [List.map_cons, List.foldl_cons, hstep, ih hrs (by exact hin)]
      simp

/-- The frames replay to these records, whatever came before. -/
def Replays (frames : List (List JournalRecord)) (recs : List JournalRecord) : Prop :=
  ∀ st, ((frames.flatten.map JournalRecord.carried).foldl scanRecord st).result = st.result ++ recs

theorem Replays.append {frames frames' : List (List JournalRecord)} {recs recs' : List JournalRecord}
    (h : Replays frames recs) (h' : Replays frames' recs') :
    Replays (frames ++ frames') (recs ++ recs') := by
  intro st
  rw [List.flatten_append, List.map_append, List.foldl_append, h', h, List.append_assoc]

/-- Skipped blocks hold no records. -/
theorem replays_gap (n : Nat) : Replays (List.replicate n []) [] := by
  intro st
  rw [List.flatten_replicate_nil]
  simp

theorem serializeRecords_carried (recs : List JournalRecord) :
    serializeRecords (recs.map JournalRecord.carried) = serializeRecords recs := by
  unfold serializeRecords
  rw [List.flatMap_map]
  exact List.flatMap_congr fun r _ => serializeRecord_carried r

/-- A transaction or a checkpoint replays to its records. -/
theorem replays_frame (txnId : Nat) {head recs : List JournalRecord}
    (hhead : head = [] ∨ head = [checkpointRecord]) (h : ∀ r ∈ recs, Plain r) :
    Replays [frame txnId head recs] (recs.map JournalRecord.carried) := by
  intro st
  have hbegin : ∀ st, (head.map JournalRecord.carried).foldl scanRecord
      (scanRecord st (beginRecord txnId).carried) =
        { st with inTxn := true, currentTxnId := txnId, currentTxn := [] } := by
    intro st
    rcases hhead with rfl | rfl <;> rfl
  rw [List.flatten_singleton, frame, List.map_cons, List.foldl_cons, List.map_append,
    List.foldl_append, hbegin, List.map_append, List.foldl_append, foldl_scanRecord_plain h rfl]
  have hcommit : ∀ st : ScanState, scanRecord st
      (commitRecord txnId (txnCrc (serializeRecords recs))).carried =
        { st with
          result := if st.inTxn ∧ txnId = st.currentTxnId ∧
              txnCrc (serializeRecords st.currentTxn) = txnCrc (serializeRecords recs) then
            st.result ++ st.currentTxn else st.result
          inTxn := false
          currentTxn := [] } := fun _ => rfl
  rw [List.map_singleton, List.foldl_cons, List.foldl_nil, hcommit, List.nil_append]
  dsimp only
  rw [if_pos ⟨rfl, rfl, by rw [serializeRecords_carried]⟩]

theorem txnCrc_lt (bl : List Byte) : txnCrc bl < 2 ^ 32 := by
  unfold txnCrc
  split
  · exact UInt32.toNat_lt _
  · decide

/-- A record with no fields but its transaction and checksum. -/
theorem parses_bare {op : JournalOp} (hop : op.WF) (hne : op ≠ .other 0) {txnId crc : Nat}
    (hid : txnId < 2 ^ 64) (hcrc : crc < 2 ^ 32) : Parses { op, txnId, crc } :=
  ⟨⟨hop, hid, Nat.two_pow_pos _, ⟨Nat.two_pow_pos _, Nat.two_pow_pos _, Nat.two_pow_pos _⟩,
    Nat.two_pow_pos _, ⟨Nat.two_pow_pos _, Nat.two_pow_pos _⟩, ⟨rfl, Nat.two_pow_pos _⟩,
    Nat.two_pow_pos _, hcrc⟩, hne⟩

/-- Every record of a frame parses. -/
theorem parses_frame {txnId : Nat} (hid : txnId < 2 ^ 64) {head recs : List JournalRecord}
    (hhead : head = [] ∨ head = [checkpointRecord]) (h : ∀ r ∈ recs, Plain r) :
    ∀ r ∈ frame txnId head recs, Parses r := by
  intro r hr
  unfold frame at hr
  simp only [List.mem_cons, List.mem_append, List.not_mem_nil, or_false] at hr
  rcases hr with rfl | hr | hr | rfl
  · exact parses_bare (by decide) (by decide) hid (Nat.two_pow_pos _)
  · rcases hhead with rfl | rfl
    · cases hr
    · obtain rfl := List.mem_singleton.mp hr
      exact parses_bare (by decide) (by decide) (Nat.two_pow_pos _) (Nat.two_pow_pos _)
  · exact ⟨(h r hr).wf, (h r hr).notPadding⟩
  · exact parses_bare (by decide) (by decide) hid (txnCrc_lt _)

/-! ## Reading the ring -/

/-- The bytes from offset `cp` of the ring up to offset `wp`, cyclically. -/
def ringBytes (c : Content) (dataSize cp wp : Nat) : List Byte :=
  if cp ≤ wp then c.read (kDataStart + cp) (wp - cp)
  else c.read (kDataStart + cp) (dataSize - cp) ++ c.read kDataStart wp

theorem read_zero (c : Content) (off : Nat) : c.read off 0 = [] := rfl

/-- The loop returns what it has once nothing remains. -/
theorem readRing_done (dataSize fuel pos : Nat) (acc : List Byte) (d : BlockDevice) :
    readRing dataSize fuel 0 pos acc d = some (acc, d) := by
  cases fuel with
  | zero => rfl
  | succ fuel => rw [readRing, if_pos rfl]

section
variable {d : BlockDevice} {devSize : Nat} (h : Serves d devSize)
include h

/-- One round of the loop. -/
theorem readRing_step {dataSize rem pos : Nat} (fuel : Nat) (acc : List Byte) (hrem : 0 < rem)
    (hpos : pos < dataSize) : ∃ n, 0 < n ∧ n ≤ rem ∧ pos + n ≤ dataSize ∧
      readRing dataSize (fuel + 1) rem pos acc d = readRing dataSize fuel (rem - n)
        (if pos + n ≥ dataSize then 0 else pos + n)
        (acc ++ d.content.read (kDataStart + pos) n) d := by
  have hblock : kTxnAlignment = 4096 := rfl
  refine ⟨if pos + min kTxnAlignment rem > dataSize then dataSize - pos else min kTxnAlignment rem,
    ?_, ?_, ?_, ?_⟩
  · split <;> omega
  · split <;> omega
  · split <;> omega
  · rw [readRing, if_neg hrem.ne', if_neg (by omega)]
    dsimp only
    rw [h.read]
    dsimp only
    rw [if_neg]
    rw [Content.read_length, not_or]
    refine ⟨by omega, ?_⟩
    split <;> omega

/-- A range that does not cross the end of the ring. -/
theorem readRing_linear {dataSize fuel rem pos : Nat} (acc : List Byte) (hfuel : rem ≤ fuel)
    (hend : pos + rem ≤ dataSize) : readRing dataSize fuel rem pos acc d =
      some (acc ++ d.content.read (kDataStart + pos) rem, d) := by
  induction fuel generalizing rem pos acc with
  | zero =>
      obtain rfl : rem = 0 := by omega
      rw [readRing_done, read_zero, List.append_nil]
  | succ fuel ih =>
      rcases Nat.eq_zero_or_pos rem with rfl | hrem
      · rw [readRing_done, read_zero, List.append_nil]
      · have hpos : pos < dataSize := by omega
        obtain ⟨n, hn, hle, hin, heq⟩ := readRing_step h fuel acc hrem hpos
        rw [heq]
        obtain ⟨m, rfl⟩ := Nat.exists_eq_add_of_le hle
        rw [Nat.add_sub_cancel_left, Content.read_append, ← List.append_assoc]
        split
        · obtain rfl : m = 0 := by omega
          rw [readRing_done, read_zero, List.append_nil]
        · rw [ih _ (by omega) (by omega), Nat.add_assoc]

/-- A range that goes on at the start of the ring. -/
theorem readRing_wrapped {dataSize fuel rem pos : Nat} (acc : List Byte) (hfuel : rem ≤ fuel)
    (hpos : pos < dataSize) (hwrap : dataSize ≤ pos + rem) (hend : pos + rem ≤ 2 * dataSize) :
    readRing dataSize fuel rem pos acc d =
      some (acc ++ (d.content.read (kDataStart + pos) (dataSize - pos) ++
        d.content.read kDataStart (pos + rem - dataSize)), d) := by
  induction fuel generalizing rem pos acc with
  | zero => omega
  | succ fuel ih =>
      have hrem : 0 < rem := by omega
      obtain ⟨n, hn, hle, hin, heq⟩ := readRing_step h fuel acc hrem hpos
      rw [heq]
      split
      · -- the loop is at the end of the ring
        obtain rfl : n = dataSize - pos := by omega
        have hrest : rem - (dataSize - pos) = pos + rem - dataSize := by omega
        rw [readRing_linear h _ (by omega) (by omega), hrest, Nat.add_zero, List.append_assoc]
      · have hsplit : dataSize - pos = n + (dataSize - (pos + n)) := by omega
        have hrest : pos + n + (rem - n) - dataSize = pos + rem - dataSize := by omega
        rw [ih _ (by omega) (by omega) (by omega) (by omega), hrest, hsplit, Content.read_append]
        simp only [List.append_assoc, Nat.add_assoc]

/-- The whole scan range. -/
theorem readRing_eq {dataSize cp wp : Nat} (hcp : cp = 0 ∨ cp < dataSize)
    (hwp : wp = 0 ∨ wp < dataSize) :
    readRing dataSize (if wp ≥ cp then wp - cp else dataSize - cp + wp)
        (if wp ≥ cp then wp - cp else dataSize - cp + wp) cp [] d =
      some (ringBytes d.content dataSize cp wp, d) := by
  unfold ringBytes
  split
  · rw [readRing_linear h _ le_rfl (by omega)]
    rfl
  · have hwrap : cp + (dataSize - cp + wp) - dataSize = wp := by omega
    rw [readRing_wrapped h _ le_rfl (by omega) (by omega) (by omega), hwrap]
    rfl

end

/-! ## Writing a frame -/

/-- There is space for `len` bytes at the head, seen from checkpoint offset
`cp`: they stay strictly behind it, and a tail that is skipped holds whole
blocks of zeros. -/
def SpaceFrom (cp : Nat) (j : Journal) (d : BlockDevice) (len : Nat) : Prop :=
  if j.writeOffset + len ≤ j.dataSize then
    if cp ≤ j.writeOffset then 0 < cp ∨ j.writeOffset + len < j.dataSize
    else j.writeOffset + len < cp
  else cp ≤ j.writeOffset ∧ len < cp ∧ kTxnAlignment ∣ j.dataSize ∧
    ∀ a, j.writeOffset ≤ a → a < j.dataSize → d.content (kDataStart + a) = 0

/-- Space at the head when the ring does not wrap. -/
theorem SpaceFrom.of_linear {cp len : Nat} {j : Journal} (d : BlockDevice)
    (hcp : cp ≤ j.writeOffset) (h : kSuperblockSize + (j.writeOffset + len) < j.devSize) :
    SpaceFrom cp j d len := by
  have hdata := j.dataSize_eq
  unfold SpaceFrom
  rw [if_pos (by omega), if_pos hcp]
  omega

theorem framesBytes_append (frames frames' : List (List JournalRecord)) :
    framesBytes (frames ++ frames') = framesBytes frames ++ framesBytes frames' :=
  List.flatMap_append

/-- Empty frames are blocks of zeros. -/
theorem framesBytes_gap (n : Nat) :
    framesBytes (List.replicate n []) = List.replicate (kTxnAlignment * n) 0 := by
  induction n with
  | zero => rfl
  | succ n ih =>
      have hone : frameBytes [] = List.replicate kTxnAlignment 0 := rfl
      show framesBytes ([] :: List.replicate n []) = _
      rw [framesBytes, List.flatMap_cons, ← framesBytes, ih, hone, Nat.mul_succ, Nat.add_comm,
        List.replicate_add]

theorem read_zeros {c : Content} {off len : Nat}
    (h : ∀ a, off ≤ a → a < off + len → c a = 0) : c.read off len = List.replicate len 0 := by
  unfold Content.read
  rw [List.eq_replicate_iff]
  refine ⟨by simp, fun b hb => ?_⟩
  obtain ⟨i, hi, rfl⟩ := List.mem_map.mp hb
  exact h _ (Nat.le_add_right _ _) (by have := List.mem_range.mp hi; omega)

theorem writePos_eq (j : Journal) (len : Nat) :
    j.writePos len = if j.writeOffset + len > j.dataSize then 0 else j.writeOffset := by
  unfold writePos wrapFor
  exact apply_ite _ _ _ _

/-- Where the head is after a write. -/
theorem head_eq (j : Journal) (len : Nat) : ((j.wrapFor len).advance len).writeOffset =
    if j.writePos len + len ≥ j.dataSize then 0 else j.writePos len + len := by
  have hsize : (j.wrapFor len).dataSize = j.dataSize := by
    unfold wrapFor
    split <;> rfl
  unfold advance
  rw [hsize]
  rfl

/-- Reading the ring from `cp` after a write gives what it gave before, the
skipped blocks and the bytes written. -/
theorem ringBytes_write {cp : Nat} {j : Journal} {d : BlockDevice} {bl : List Byte}
    (hlen : 0 < bl.length) (hdvd : kTxnAlignment ∣ j.writeOffset)
    (hcp : cp = 0 ∨ cp < j.dataSize) (hwp : j.writeOffset = 0 ∨ j.writeOffset < j.dataSize)
    (h : SpaceFrom cp j d bl.length) :
    ∃ n, ringBytes (d.content.write (kDataStart + j.writePos bl.length) bl) j.dataSize cp
        ((j.wrapFor bl.length).advance bl.length).writeOffset =
      ringBytes d.content j.dataSize cp j.writeOffset ++
        (framesBytes (List.replicate n []) ++ bl) := by
  unfold SpaceFrom at h
  rw [head_eq, writePos_eq]
  generalize j.writeOffset = wp at hdvd hwp h
  generalize j.dataSize = size at hcp hwp h
  have hblock : kTxnAlignment = 4096 := rfl
  have hbefore : ∀ {pos off len}, off + len ≤ kDataStart + pos →
      (d.content.write (kDataStart + pos) bl).read off len = d.content.read off len :=
    fun hle => Content.read_write_before _ _ hle
  have hafter : ∀ {pos off len}, kDataStart + pos + bl.length ≤ off →
      (d.content.write (kDataStart + pos) bl).read off len = d.content.read off len :=
    fun hle => Content.read_write_after _ _ hle
  have hsame : ∀ pos, (d.content.write (kDataStart + pos) bl).read (kDataStart + pos) bl.length =
      bl := fun pos => Content.read_write_same _ _ _
  unfold ringBytes
  split at h
  · rename_i hfit
    rw [if_neg (by omega : ¬ wp + bl.length > size)]
    refine ⟨0, ?_⟩
    show _ = _ ++ ([] ++ bl)
    rw [List.nil_append]
    split at h
    · rename_i hle
      rw [if_pos hle]
      have hsplit : wp + bl.length - cp = (wp - cp) + bl.length := by omega
      have hpos : kDataStart + cp + (wp - cp) = kDataStart + wp := by omega
      have hall : (d.content.write (kDataStart + wp) bl).read (kDataStart + cp)
          (wp + bl.length - cp) = d.content.read (kDataStart + cp) (wp - cp) ++ bl := by
        rw [hsplit, Content.read_append, hbefore (by omega), hpos, hsame]
      by_cases hfull : wp + bl.length ≥ size
      · -- the write ends at the end of the ring
        obtain rfl : wp + bl.length = size := by omega
        rw [if_pos le_rfl, if_neg (by omega), hall, read_zero, List.append_nil]
      · rw [if_neg hfull, if_pos (by omega), hall]
    · rename_i hgt
      have hpos : (d.content.write (kDataStart + wp) bl).read kDataStart (wp + bl.length) =
          d.content.read kDataStart wp ++ bl := by
        rw [Content.read_append, hbefore le_rfl, hsame]
      rw [if_neg (by omega : ¬ wp + bl.length ≥ size), if_neg hgt, if_neg (by omega), hpos,
        hafter (by omega), List.append_assoc]
  · rename_i hskip
    obtain ⟨hle, hlt, hring, hzero⟩ := h
    rw [if_pos (by omega : wp + bl.length > size), Nat.zero_add,
      if_neg (by omega : ¬ bl.length ≥ size), if_neg (by omega), if_pos hle]
    have hgap : kTxnAlignment * ((size - wp) / kTxnAlignment) = size - wp :=
      Nat.mul_div_cancel' (Nat.dvd_sub hring hdvd)
    refine ⟨(size - wp) / kTxnAlignment, ?_⟩
    have hsplit : size - cp = (wp - cp) + (size - wp) := by omega
    have hpos : kDataStart + cp + (wp - cp) = kDataStart + wp := by omega
    have htail : d.content.read (kDataStart + wp) (size - wp) = List.replicate (size - wp) 0 := by
      refine read_zeros fun a hge hlt => ?_
      obtain ⟨b, rfl⟩ := Nat.exists_eq_add_of_le (Nat.le_trans (Nat.le_add_right _ _) hge)
      exact hzero b (by omega) (by omega)
    have hstart := hsame 0
    rw [Nat.add_zero] at hstart
    rw [hafter (by omega), Nat.add_zero, hstart, framesBytes_gap, hgap, hsplit,
      Content.read_append, hpos, htail, List.append_assoc]

/-! ## The medium and the history -/

/-- The ring holds frames that replay to the history, and the superblock says
where they are. -/
structure Holds (j : Journal) (d : BlockDevice) (frames : List (List JournalRecord)) : Prop where
  serves : Serves d j.devSize
  region : kSuperblockSize ≤ j.devSize ∧ j.devSize < 2 ^ 64
  super : ∃ sb, mediumSuperblock d = some sb ∧
    sb.checkpointOffset = j.superblock.checkpointOffset ∧ sb.writeOffset = j.writeOffset
  cp_in : j.superblock.checkpointOffset = 0 ∨ j.superblock.checkpointOffset < j.dataSize
  wp_in : j.writeOffset = 0 ∨ j.writeOffset < j.dataSize
  wp_dvd : kTxnAlignment ∣ j.writeOffset
  bytes : ringBytes d.content j.dataSize j.superblock.checkpointOffset j.writeOffset =
    framesBytes frames
  parses : ∀ f ∈ frames, ∀ r ∈ f, Parses r
  replays : Replays frames (j.history.map JournalRecord.carried)

theorem framesBytes_eq_nil {frames : List (List JournalRecord)} (h : framesBytes frames = []) :
    frames = [] := by
  cases frames with
  | nil => rfl
  | cons f fs =>
      have hlen := congrArg List.length h
      have := paddedSize_pos (serializeRecords f).length
      rw [framesBytes, List.flatMap_cons, List.length_append, frameBytes, padded_length,
        List.length_nil] at hlen
      omega

variable {j : Journal} {d : BlockDevice} {frames : List (List JournalRecord)}

/-- The scan of the ring gives the history. -/
theorem Holds.scan (h : Holds j d frames) :
    (scan (framesBytes frames) ((framesBytes frames).length + 1) 0 {}).map ScanState.result =
      some (j.history.map JournalRecord.carried) := by
  rw [scan_frames h.parses (List.drop_zero ▸ rfl) (Nat.zero_le _) (dvd_zero _) (by omega),
    Option.map_some, h.replays]
  rfl

/-- Re-opening finds the superblock, and recovering reads it again. -/
theorem Serves.found {devSize : Nat} (h : Serves d devSize) (hregion : kSuperblockSize ≤ devSize)
    {sb : JournalSuperBlock} (hsb : mediumSuperblock d = some sb) :
    Journal.create devSize d = ({ devSize, superblock := sb, writeOffset := sb.writeOffset }, d) ∧
      Journal.readSuperblock { devSize, superblock := sb, writeOffset := sb.writeOffset } d =
        (0, { devSize, superblock := sb, writeOffset := sb.writeOffset }, d) := by
  rw [h.create hregion, h.readSuperblock hregion, hsb]
  exact ⟨rfl, rfl⟩

/-- Equal offsets mean that there is nothing to recover, also when the ring is
full. -/
theorem Serves.recover_empty {devSize : Nat} (h : Serves d devSize)
    (hregion : kSuperblockSize ≤ devSize) {sb : JournalSuperBlock}
    (hsb : mediumSuperblock d = some sb) (heq : sb.checkpointOffset = sb.writeOffset) :
    (Journal.create devSize d).1.recover (Journal.create devSize d).2 =
      (some [], { devSize, superblock := sb, writeOffset := sb.writeOffset }, d) := by
  obtain ⟨hcreate, hread⟩ := h.found hregion hsb
  rw [hcreate]
  unfold recover
  dsimp only
  rw [hread]
  dsimp only
  rw [if_neg (by omega), if_pos heq, heq, if_pos le_rfl, Nat.sub_self, readRing_done, h.read]
  by_cases hzero : sb.writeOffset = 0
  · rw [if_pos hzero]
    dsimp only
    split <;> rfl
  · rw [if_neg hzero]
    rfl

/-- Re-opening the device and recovering: the history comes back, and the
journal goes on where it was. -/
theorem Holds.reopen (h : Holds j d frames) :
    ∃ sb, mediumSuperblock d = some sb ∧ (create j.devSize d).1.recover (create j.devSize d).2 =
      (some (j.history.map JournalRecord.carried),
        { devSize := j.devSize, superblock := sb, writeOffset := sb.writeOffset,
          history := j.history.map JournalRecord.carried }, d) := by
  obtain ⟨sb, hsb, hcp, hwp⟩ := h.super
  refine ⟨sb, hsb, ?_⟩
  have hbytes := h.bytes
  rw [← hcp, ← hwp] at hbytes
  have hcpIn := h.cp_in
  have hwpIn := h.wp_in
  rw [← hcp] at hcpIn
  rw [← hwp] at hwpIn
  by_cases heq : sb.checkpointOffset = sb.writeOffset
  · -- nothing was ever written
    have hframes : framesBytes frames = [] := by
      rw [← hbytes, ringBytes, heq, if_pos le_rfl, Nat.sub_self, read_zero]
    have hscan := h.scan
    rw [hframes] at hscan
    have hnil : j.history.map JournalRecord.carried = [] := (Option.some.inj hscan).symm
    rw [h.serves.recover_empty h.region.1 hsb heq, hnil]
  · have hring := @readRing_eq d _ h.serves
      (dataSize { devSize := j.devSize, superblock := sb, writeOffset := sb.writeOffset }) _ _ hcpIn
      hwpIn
    have hbytes' : ringBytes d.content
        (dataSize { devSize := j.devSize, superblock := sb, writeOffset := sb.writeOffset })
          sb.checkpointOffset sb.writeOffset = framesBytes frames := hbytes
    obtain ⟨hcreate, hread⟩ := h.serves.found h.region.1 hsb
    rw [hcreate]
    unfold recover
    dsimp only
    rw [hread]
    dsimp only
    rw [if_neg (by omega), if_neg heq]
    dsimp only
    rw [if_neg Bool.false_ne_true, hring]
    dsimp only
    rw [hbytes', h.scan]
    rfl

/-- The offset a frame is scanned from: the old checkpoint's, or the head. -/
structure From (j : Journal) (d : BlockDevice) (cp : Nat) (frames : List (List JournalRecord))
    (recs : List JournalRecord) : Prop where
  cp_in : cp = 0 ∨ cp < j.dataSize
  bytes : ringBytes d.content j.dataSize cp j.writeOffset = framesBytes frames
  parses : ∀ f ∈ frames, ∀ r ∈ f, Parses r
  replays : Replays frames recs

theorem Holds.fromCheckpoint (h : Holds j d frames) :
    From j d j.superblock.checkpointOffset frames (j.history.map JournalRecord.carried) :=
  ⟨h.cp_in, h.bytes, h.parses, h.replays⟩

theorem Holds.fromHead (h : Holds j d frames) : From j d j.writeOffset [] [] := by
  refine ⟨h.wp_in, ?_, by simp, fun st => by simp⟩
  rw [ringBytes, if_pos le_rfl, Nat.sub_self]
  rfl

theorem SpaceFrom.fits {cp len : Nat} (h : SpaceFrom cp j d len)
    (hwp : j.writeOffset = 0 ∨ j.writeOffset < j.dataSize) :
    j.writePos len + len ≤ j.dataSize := by
  unfold SpaceFrom at h
  rw [writePos_eq]
  split at h
  · rw [if_neg (by omega)]
    assumption
  · rw [if_pos (by omega)]
    omega

theorem ringBytes_congr {c c' : Content} (hc : ∀ a, kDataStart ≤ a → c' a = c a)
    (dataSize cp wp : Nat) : ringBytes c' dataSize cp wp = ringBytes c dataSize cp wp := by
  have hread : ∀ {off} len, kDataStart ≤ off → c'.read off len = c.read off len :=
    fun len hoff => Content.read_congr fun a ha _ => hc a (hoff.trans ha)
  unfold ringBytes
  rw [hread _ (Nat.le_add_right _ _), hread _ (Nat.le_add_right _ _), hread _ le_rfl]

theorem dvd_writePos (h : kTxnAlignment ∣ j.writeOffset) (len : Nat) :
    kTxnAlignment ∣ j.writePos len := by
  rw [writePos_eq]
  split
  · exact dvd_zero _
  · exact h

/-- A write that fits reaches the medium. -/
theorem Serves.padAndWrite (h : Serves d j.devSize) (hdvd : kTxnAlignment ∣ j.writeOffset)
    {bl : List Byte} (hfits : j.writePos (padded bl).length + (padded bl).length ≤ j.dataSize) :
    j.padAndWrite d bl = (0, (j.wrapFor (padded bl).length).advance (padded bl).length,
      Journal.written d (kDataStart + j.writePos (padded bl).length) (padded bl)) := by
  have hlen : (padded bl).length = paddedSize bl.length := padded_length bl
  have hpos := paddedSize_pos bl.length
  have hdata := j.dataSize_eq
  have hput : d.write (kDataStart + (j.wrapFor (padded bl).length).writeOffset) (padded bl) false =
      (((padded bl).length : Int),
        Journal.written d (kDataStart + j.writePos (padded bl).length) (padded bl)) :=
    h.write (dvd_add dvd_rfl (dvd_writePos hdvd _)) (hlen ▸ dvd_paddedSize _) (by
      change kDataStart + j.writePos _ + _ ≤ _
      have hstart : kDataStart = kSuperblockSize := rfl
      omega)
  unfold Journal.padAndWrite
  dsimp only
  rw [hput]
  dsimp only
  rw [if_neg (by omega), (h.written _ _).flush]

/-- Writing a frame and the superblock that counts it. -/
theorem Holds.write (h : Holds j d frames) {cp : Nat} {old : List (List JournalRecord)}
    {recs recs' : List JournalRecord} (hfrom : From j d cp old recs) {f : List JournalRecord}
    (hspace : SpaceFrom cp j d (paddedSize (serializeRecords f).length))
    (hf : ∀ r ∈ f, Parses r) (hreplays : Replays [f] recs') :
    ∃ d₁, j.padAndWrite d (serializeRecords f) =
        (0, (j.wrapFor (paddedSize (serializeRecords f).length)).advance
          (paddedSize (serializeRecords f).length), d₁) ∧
      ∀ j₂ : Journal, j₂.devSize = j.devSize → j₂.superblock.checkpointOffset = cp →
        j₂.superblock.writeOffset = j₂.writeOffset →
        j₂.writeOffset = ((j.wrapFor (paddedSize (serializeRecords f).length)).advance
          (paddedSize (serializeRecords f).length)).writeOffset →
        j₂.history.map JournalRecord.carried = recs ++ recs' →
        ∃ frames', Holds j₂ (j₂.writeSuperblock d₁).2 frames' := by
  have hlen : (padded (serializeRecords f)).length = paddedSize (serializeRecords f).length :=
    padded_length _
  have hpos := paddedSize_pos (serializeRecords f).length
  have hdvd := dvd_paddedSize (serializeRecords f).length
  have hwrite := ringBytes_write (hlen ▸ hpos) h.wp_dvd hfrom.cp_in h.wp_in (hlen ▸ hspace)
  generalize paddedSize (serializeRecords f).length = len at *
  have hfits := hspace.fits h.wp_in
  have hstart : kDataStart = kSuperblockSize := rfl
  have hdata := j.dataSize_eq
  have hserves := h.serves.written (kDataStart + j.writePos len) (padded (serializeRecords f))
  refine ⟨written d (kDataStart + j.writePos len) (padded (serializeRecords f)), ?_, ?_⟩
  · have hpad := h.serves.padAndWrite h.wp_dvd (hlen ▸ hfits)
    rwa [hlen] at hpad
  · intro j₂ hdev hcp hsuper hhead hhist
    have hsize := dataSize_congr hdev
    have hregion : kSuperblockSize ≤ j₂.devSize ∧ j₂.devSize < 2 ^ 64 := by
      rw [hdev]
      exact h.region
    have hwp : j₂.writeOffset = if j.writePos len + len ≥ j.dataSize then 0
        else j.writePos len + len := hhead.trans (head_eq j len)
    have hwpIn : j₂.writeOffset = 0 ∨ j₂.writeOffset < j.dataSize := by
      rw [hwp]
      split <;> omega
    rw [← hdev] at hserves
    rw [hserves.writeSuperblock hregion.1]
    obtain ⟨n, hn⟩ := hwrite
    rw [hlen, ← hhead] at hn
    refine ⟨old ++ (List.replicate n [] ++ [f]), hserves.written _ _, hregion, ?_, ?_, ?_, ?_, ?_, ?_, ?_⟩
    · have hcpIn := hfrom.cp_in
      refine ⟨_, mediumSuperblock_written _ _, ?_, ?_⟩
      · exact Nat.mod_eq_of_lt (by omega)
      · rw [← hsuper]
        exact Nat.mod_eq_of_lt (by omega)
    · rw [hcp, hsize]
      exact hfrom.cp_in
    · rw [hsize]
      exact hwpIn
    · rw [hwp]
      split
      · exact dvd_zero _
      · exact dvd_add (dvd_writePos h.wp_dvd len) hdvd
    · rw [hcp, hsize, framesBytes_append, framesBytes_append, ← hfrom.bytes]
      refine (ringBytes_congr (fun a ha => Content.write_of_ge _ _ ?_) _ _ _).trans (hn.trans ?_)
      · rw [superblock_length]
        omega
      · congr 2
        exact (List.append_nil _).symm
    · intro g hg
      rcases List.mem_append.mp hg with hg | hg
      · exact hfrom.parses g hg
      · rcases List.mem_append.mp hg with hg | hg
        · rw [List.eq_of_mem_replicate hg]
          simp
        · rw [List.mem_singleton.mp hg]
          exact hf
    · rw [hhist]
      exact hfrom.replays.append ((replays_gap n).append hreplays)

/-! ## Runs -/

/-- The open transactions hold plain records and their bytes. -/
def Buffered (j : Journal) : Prop :=
  ∀ id tb, j.activeTxns.lookup id = some tb → id < 2 ^ 64 ∧
    tb.serialized = serializeRecords tb.records ∧ ∀ r ∈ tb.records, Plain r

/-- What a call must find for its effect to be recovered. -/
def Call.Kept (j : Journal) (d : BlockDevice) : Call → Prop
  | .beginTxn => j.nextTxnId < 2 ^ 64
  | .append _ rec => Plain rec
  | .commitTxn txnId => ∀ tb, j.activeTxns.lookup txnId = some tb →
      SpaceFrom j.superblock.checkpointOffset j d (paddedSize (txnBytes txnId tb.serialized).length)
  | .checkpoint fullState => (∀ rec ∈ fullState, Plain rec) ∧
      SpaceFrom j.writeOffset j d (paddedSize (checkpointBytes fullState).length)

/-- Re-opening the device and recovering gives the records of the last
checkpoint and of the transactions committed since. -/
def Recovers (j : Journal) (d : BlockDevice) : Prop :=
  ((create j.devSize d).1.recover (create j.devSize d).2).1 =
    some (j.history.map JournalRecord.carried)

/-- What calls that find their condition, and re-openings, reach. -/
inductive Reaches (devSize : Nat) (d₀ : BlockDevice) : Journal → BlockDevice → Prop
  | start : Reaches devSize d₀ (create devSize d₀).1 (create devSize d₀).2
  | call {j : Journal} {d : BlockDevice} (c : Call) : Reaches devSize d₀ j d → c.Kept j d →
      Reaches devSize d₀ (c.run j d).2.1 (c.run j d).2.2
  | reopen {j : Journal} {d : BlockDevice} : Reaches devSize d₀ j d →
      Reaches devSize d₀ ((create j.devSize d).1.recover (create j.devSize d).2).2.1
        ((create j.devSize d).1.recover (create j.devSize d).2).2.2

theorem Plain.stamp {rec : JournalRecord} (h : Plain rec) {txnId : Nat} (hid : txnId < 2 ^ 64) :
    Plain (stamp txnId rec) :=
  ⟨{ h.wf with txnId := hid }, h.notBegin, h.notCommit, h.notCheckpoint, h.notPadding⟩

theorem Buffered.begin (h : j.Buffered) (hid : j.nextTxnId < 2 ^ 64) : j.beginTxn.2.Buffered := by
  intro id tb htb
  by_cases heq : id = j.nextTxnId
  · subst heq
    obtain rfl := Option.some.inj ((AList.lookup_insert _).symm.trans htb)
    refine ⟨hid, ?_⟩
    cases hold : j.activeTxns.lookup j.nextTxnId with
    | none => exact ⟨rfl, by simp⟩
    | some old => exact (h _ _ hold).2
  · exact h id tb ((AList.lookup_insert_ne heq).symm.trans htb)

theorem Buffered.append (h : j.Buffered) (txnId : Nat) {rec : JournalRecord} (hrec : Plain rec) :
    (j.append txnId rec).2.Buffered := by
  unfold Journal.append
  cases hold : j.activeTxns.lookup txnId with
  | none => exact h
  | some old =>
      obtain ⟨hid, hser, hplain⟩ := h _ _ hold
      intro id tb htb
      by_cases heq : id = txnId
      · subst heq
        obtain rfl := Option.some.inj ((AList.lookup_insert _).symm.trans htb)
        refine ⟨hid, ?_, fun r hr => ?_⟩
        · show old.serialized ++ serializeRecord (Journal.stamp id rec) = _
          rw [serializeRecords_append, hser]
          congr 1
          exact (List.append_nil _).symm
        · rcases List.mem_append.mp hr with hr | hr
          · exact hplain r hr
          · rw [List.mem_singleton.mp hr]
            exact hrec.stamp hid
      · exact h id tb ((AList.lookup_insert_ne heq).symm.trans htb)

theorem lookup_of_erase {m : AList fun _ : Nat => TxnBuffer} {txnId id : Nat} {tb : TxnBuffer}
    (h : (m.erase txnId).lookup id = some tb) : m.lookup id = some tb := by
  by_cases heq : id = txnId
  · rw [heq, AList.lookup_erase] at h
    cases h
  · rwa [AList.lookup_erase_ne heq] at h

theorem Holds.withTxns (h : Holds j d frames) (n : Nat) (m : AList fun _ : Nat => TxnBuffer) :
    Holds { j with nextTxnId := n, activeTxns := m } d frames :=
  ⟨h.serves, h.region, h.super, h.cp_in, h.wp_in, h.wp_dvd, h.bytes, h.parses, h.replays⟩

/-- A write moves the head and nothing else. -/
theorem advance_wrapFor (j : Journal) (len : Nat) :
    ∃ w, (j.wrapFor len).advance len = { j with writeOffset := w } := by
  unfold wrapFor
  split
  · exact ⟨_, rfl⟩
  · exact ⟨_, rfl⟩

/-- A transaction committed where there is space. -/
theorem Holds.commitBuffer (h : Holds j d frames) {txnId : Nat} {tb : TxnBuffer}
    (hid : txnId < 2 ^ 64) (hser : tb.serialized = serializeRecords tb.records)
    (hplain : ∀ r ∈ tb.records, Plain r)
    (hspace : SpaceFrom j.superblock.checkpointOffset j d
      (paddedSize (txnBytes txnId tb.serialized).length)) :
    ∃ frames', Holds (j.commitBuffer d txnId tb.records tb.serialized).2.1
      (j.commitBuffer d txnId tb.records tb.serialized).2.2 frames' ∧
      (j.commitBuffer d txnId tb.records tb.serialized).2.1.activeTxns = j.activeTxns ∧
      (j.commitBuffer d txnId tb.records tb.serialized).2.1.history = j.history ++ tb.records := by
  have hbytes : txnBytes txnId tb.serialized = serializeRecords (frame txnId [] tb.records) := by
    rw [hser, txnBytes_eq]
  rw [hbytes] at hspace
  obtain ⟨d₁, hpad, hwrite⟩ := h.write h.fromCheckpoint hspace
    (parses_frame hid (.inl rfl) hplain) (replays_frame txnId (.inl rfl) hplain)
  unfold Journal.commitBuffer
  rw [hbytes, hpad]
  obtain ⟨w, hw⟩ := advance_wrapFor j (paddedSize (serializeRecords (frame txnId [] tb.records)).length)
  rw [hw] at hwrite ⊢
  dsimp only
  rw [if_neg (by omega)]
  obtain ⟨frames', hholds⟩ := hwrite
    { j with
      superblock := { j.superblock with writeOffset := w }
      writeOffset := w
      history := j.history ++ tb.records } rfl rfl rfl rfl List.map_append
  exact ⟨frames', hholds, rfl, rfl⟩

/-- A commit on a working device, when the write fits before the end of the
ring. -/
theorem Serves.commitBuffer (h : Serves d j.devSize) (hregion : kSuperblockSize ≤ j.devSize)
    (hdvd : kTxnAlignment ∣ j.writeOffset) {txnId : Nat} (recs : List JournalRecord) {bl : List Byte}
    (hfits : j.writeOffset + paddedSize (txnBytes txnId bl).length ≤ j.dataSize) :
    ∃ w d₁, w = (if j.writeOffset + paddedSize (txnBytes txnId bl).length ≥ j.dataSize then 0
        else j.writeOffset + paddedSize (txnBytes txnId bl).length) ∧ Serves d₁ j.devSize ∧
      mediumSuperblock d₁ = some (stored { j.superblock with writeOffset := w }) ∧
      j.commitBuffer d txnId recs bl =
        (0, { j with
          superblock := { j.superblock with writeOffset := w }
          writeOffset := w
          history := j.history ++ recs }, d₁) := by
  have hpos : j.writePos (paddedSize (txnBytes txnId bl).length) = j.writeOffset := by
    rw [writePos_eq, if_neg (by omega)]
  have hpad := @Serves.padAndWrite _ _ h hdvd (txnBytes txnId bl)
    (by rw [padded_length, hpos]; exact hfits)
  rw [padded_length, hpos] at hpad
  have hhead := head_eq j (paddedSize (txnBytes txnId bl).length)
  rw [hpos] at hhead
  obtain ⟨w, hw⟩ := advance_wrapFor j (paddedSize (txnBytes txnId bl).length)
  rw [hw] at hpad hhead
  refine ⟨w, Journal.written
    (Journal.written d (kDataStart + j.writeOffset) (padded (txnBytes txnId bl))) 0
    ({ j.superblock with writeOffset := w } : JournalSuperBlock).bytes, hhead,
    (h.written _ _).written _ _, mediumSuperblock_written _ _, ?_⟩
  unfold Journal.commitBuffer
  rw [hpad]
  dsimp only
  rw [if_neg (by omega), (h.written _ _).writeSuperblock hregion]

/-- A checkpoint written where there is space. -/
theorem Holds.checkpoint (h : Holds j d frames) {fullState : List JournalRecord}
    (hplain : ∀ r ∈ fullState, Plain r)
    (hspace : SpaceFrom j.writeOffset j d (paddedSize (checkpointBytes fullState).length)) :
    ∃ frames', Holds (j.checkpoint d fullState).2.1 (j.checkpoint d fullState).2.2 frames' ∧
      (j.checkpoint d fullState).2.1.activeTxns = j.activeTxns := by
  have hbytes := checkpointBytes_eq fullState
  rw [hbytes] at hspace
  obtain ⟨d₁, hpad, hwrite⟩ := h.write h.fromHead hspace
    (parses_frame (Nat.two_pow_pos _) (.inr rfl) hplain) (replays_frame 0 (.inr rfl) hplain)
  unfold Journal.checkpoint
  rw [hbytes, hpad]
  obtain ⟨w, hw⟩ :=
    advance_wrapFor j (paddedSize (serializeRecords (frame 0 [checkpointRecord] fullState)).length)
  rw [hw] at hwrite ⊢
  dsimp only
  rw [if_neg (by omega)]
  obtain ⟨frames', hholds⟩ := hwrite
    { j with
      superblock :=
        { checkpointOffset := j.writeOffset
          writeOffset := w
          checkpointSeqno := j.superblock.checkpointSeqno + 1 }
      writeOffset := w
      history := fullState } rfl rfl rfl rfl rfl
  exact ⟨frames', hholds, rfl⟩

/-- A call that finds its condition keeps the medium and the history together. -/
theorem Call.run_holds (h : Holds j d frames) (hb : j.Buffered) (c : Call) (hk : c.Kept j d) :
    (∃ frames', Holds (c.run j d).2.1 (c.run j d).2.2 frames') ∧ (c.run j d).2.1.Buffered := by
  cases c with
  | beginTxn => exact ⟨⟨frames, h.withTxns _ _⟩, hb.begin hk⟩
  | append txnId rec =>
      refine ⟨⟨frames, ?_⟩, hb.append txnId hk⟩
      show Holds (j.append txnId rec).2 d frames
      unfold Journal.append
      split
      · exact h
      · exact h.withTxns j.nextTxnId _
  | commitTxn txnId =>
      show (∃ frames', Holds (j.commitTxn d txnId).2.1 (j.commitTxn d txnId).2.2 frames') ∧
        (j.commitTxn d txnId).2.1.Buffered
      unfold Journal.commitTxn
      cases htb : j.activeTxns.lookup txnId with
      | none => exact ⟨⟨frames, h⟩, hb⟩
      | some tb =>
          obtain ⟨hid, hser, hplain⟩ := hb _ _ htb
          obtain ⟨frames', hholds, htxns, -⟩ :=
            (h.withTxns j.nextTxnId (j.activeTxns.erase txnId)).commitBuffer hid hser hplain (hk tb htb)
          refine ⟨⟨frames', hholds⟩, fun id tb' htb' => ?_⟩
          exact hb id tb' (lookup_of_erase ((congrArg _ htxns).symm.trans htb'))
  | checkpoint fullState =>
      obtain ⟨frames', hholds, htxns⟩ := h.checkpoint hk.1 hk.2
      refine ⟨⟨frames', hholds⟩, fun id tb htb => ?_⟩
      exact hb id tb ((congrArg _ htxns).symm.trans htb)

theorem carried_carried (rec : JournalRecord) : rec.carried.carried = rec.carried := by
  unfold JournalRecord.carried
  cases rec.op <;> rfl

/-- The journal a constructor makes of a device without one. -/
theorem holds_create {devSize : Nat} (hserves : Serves d devSize) (hblank : mediumSuperblock d = none)
    (hregion : kSuperblockSize ≤ devSize ∧ devSize < 2 ^ 64) :
    Holds (create devSize d).1 (create devSize d).2 [] ∧ (create devSize d).1.Buffered := by
  have hcreate : create devSize d =
      ({ devSize }, written d 0 ({} : JournalSuperBlock).bytes) := by
    rw [hserves.create hregion.1, hblank]
  rw [hcreate]
  exact ⟨⟨hserves.written _ _, hregion, ⟨_, mediumSuperblock_written _ _, rfl, rfl⟩, .inl rfl,
    .inl rfl, dvd_zero _, rfl, by simp, fun st => by simp⟩, fun id tb htb => by cases htb⟩

theorem Reaches.holds {devSize : Nat} {d₀ : BlockDevice} (h : Reaches devSize d₀ j d)
    (hserves : Serves d₀ devSize) (hblank : mediumSuperblock d₀ = none)
    (hregion : kSuperblockSize ≤ devSize ∧ devSize < 2 ^ 64) :
    (∃ frames, Holds j d frames) ∧ j.Buffered := by
  induction h with
  | start =>
      obtain ⟨hholds, hbuf⟩ := holds_create hserves hblank hregion
      exact ⟨⟨_, hholds⟩, hbuf⟩
  | call c _ hk ih =>
      obtain ⟨⟨frames, hholds⟩, hbuf⟩ := ih
      exact Call.run_holds hholds hbuf c hk
  | reopen _ ih =>
      obtain ⟨⟨frames, hholds⟩, -⟩ := ih
      obtain ⟨sb, hsb, heq⟩ := hholds.reopen
      obtain ⟨sb', hsb', hcp, hwp⟩ := hholds.super
      obtain rfl := Option.some.inj (hsb.symm.trans hsb')
      rw [heq]
      refine ⟨⟨frames, hholds.serves, hholds.region, ⟨sb, hsb, rfl, rfl⟩, ?_, ?_, ?_, ?_,
        hholds.parses, ?_⟩, fun id tb htb => by cases htb⟩
      · rw [hcp]
        exact hholds.cp_in
      · rw [hwp]
        exact hholds.wp_in
      · rw [hwp]
        exact hholds.wp_dvd
      · rw [hcp, hwp]
        exact hholds.bytes
      · have hidem : JournalRecord.carried ∘ JournalRecord.carried = JournalRecord.carried :=
          funext carried_carried
        rw [List.map_map, hidem]
        exact hholds.replays

/-- The deletion of an empty key. -/
def shortDel : JournalRecord := { op := .OP_KEY_DEL }

theorem plain_shortDel : Plain shortDel :=
  ⟨⟨by decide, by decide, by decide, by decide, by decide, by decide, by decide, by decide,
    by decide⟩,
    by decide, by decide, by decide, by decide⟩

/-- The journal of `devSize` bytes on the four blocks. -/
theorem create_fourBlocks {devSize : Nat} (h : kSuperblockSize ≤ devSize) (h' : devSize ≤ 16384) :
    Serves fourBlocks devSize ∧ create devSize fourBlocks =
      ({ devSize }, written fourBlocks 0 ({} : JournalSuperBlock).bytes) := by
  have hserves : Serves fourBlocks devSize := ⟨rfl, dvd_rfl, h'⟩
  refine ⟨hserves, ?_⟩
  rw [hserves.create h, mediumSuperblock_fourBlocks]

theorem shortDel_length : (txnBytes 1 (serializeRecord (stamp 1 shortDel))).length = 35 := by
  simp only [txnBytes, serializeRecord, serializeBody, beginRecord, commitRecord, stamp, shortDel,
    putU8, putU32, putU64, putString, List.length_append, leBytes_length, List.length_nil]

/-- The open transaction with the deletion in it. -/
def oneBuffer : TxnBuffer where
  txnId := 1
  records := [stamp 1 shortDel]
  serialized := serializeRecord (stamp 1 shortDel)

def oneOpen : AList fun _ : Nat => TxnBuffer :=
  AList.insert 1 oneBuffer (AList.insert 1 { txnId := 1 } ∅)

theorem lookup_oneOpen : oneOpen.lookup 1 = some oneBuffer := AList.lookup_insert _

end Journal

end Clab.Btier
