import Clab.Btier.JournalReplay

/-!
# Recovery on arbitrary bytes

What a recovery returns when the bytes between the checkpoint and the head can
be anything. The walk over them is described without the parser's state: which
records are whole, where padding is skipped, where the first record is cut off.
The parser returns the complete transactions of that walk if it meets no record
that is cut off, and otherwise leaves with the exception of the byte reader.
-/

namespace Clab.Btier

open Clab.Codec Clab.Blk

/-! ## The length of a record -/

/-- The opcode of the record that starts here. -/
def opAt (bs : List Byte) : JournalOp := JournalOp.ofByte (leNat (bs.take 1))

/-- Bytes of the opcode-dependent part that starts here; a string's length is
taken from its first four bytes. -/
def bodyLength (op : JournalOp) (bs : List Byte) : Nat :=
  match op with
  | .OP_KEY_PUT => 4 + leNat (bs.take 4) + 16
  | .OP_KEY_DEL => 4 + leNat (bs.take 4)
  | .OP_MARK_DEAD => 12
  | .OP_EXTENT_NEW => 21
  | .OP_EXTENT_FREE => 8
  | .OP_TXN_COMMIT => 4
  | _ => 0

/-- Bytes of the record that starts here. -/
def recordLength (bs : List Byte) : Nat := 9 + bodyLength (opAt bs) (bs.drop 9)

theorem getString_takes (bs : List Byte) : Takes getString bs (4 + leNat (bs.take 4)) := by
  refine (getLe_takes 4 bs).bind fun len hlen => ?_
  rw [← getLe_eq hlen]
  exact takeBytes_takes len _

theorem getKeyLocation_takes (bs : List Byte) : Takes getKeyLocation bs 16 :=
  (getLe_takes 8 bs).bind fun _ _ => (getLe_takes 4 _).bind fun _ _ => (getLe_takes 4 _).map

theorem getDiskLocation_takes (bs : List Byte) : Takes getDiskLocation bs 13 :=
  (getLe_takes 8 bs).bind fun _ _ => (getLe_takes 4 _).bind fun _ _ => (getLe_takes 1 _).map

theorem deserializeBody_takes (op : JournalOp) (txnId : Nat) (bs : List Byte) :
    Takes (deserializeBody op txnId) bs (bodyLength op bs) := by
  cases op with
  | OP_KEY_PUT => exact (getString_takes bs).bind fun _ _ => (getKeyLocation_takes _).map
  | OP_KEY_DEL => exact (getString_takes bs).map
  | OP_MARK_DEAD => exact (getLe_takes 8 bs).bind fun _ _ => (getLe_takes 4 _).map
  | OP_EXTENT_NEW => exact (getLe_takes 8 bs).bind fun _ _ => (getDiskLocation_takes _).map
  | OP_EXTENT_FREE => exact (getLe_takes 8 bs).map
  | OP_TXN_COMMIT => exact (getLe_takes 4 bs).map
  | _ => exact Takes.pure _ bs

/-- Any bytes parse as a record of the length they say, or there are fewer. -/
theorem deserializeRecord_takes (bs : List Byte) :
    Takes deserializeRecord bs (recordLength bs) := by
  have hlen : recordLength bs = 1 + (8 + bodyLength (opAt bs) ((bs.drop 1).drop 8)) := by
    rw [recordLength, List.drop_drop, ← Nat.add_assoc]
  rw [hlen]
  refine (getLe_takes 1 bs).bind fun op hop => (getLe_takes 8 _).bind fun txnId _ => ?_
  rw [opAt, ← getLe_eq hop]
  exact deserializeBody_takes _ txnId _

theorem deserializeBody_op (op : JournalOp) (txnId : Nat) :
    Yields (deserializeBody op txnId) fun rec => rec.op = op := by
  cases op with
  | OP_KEY_PUT =>
      exact Yields.bind fun _ => Yields.bind fun _ => Yields.pure rfl
  | OP_KEY_DEL => exact Yields.bind fun _ => Yields.pure rfl
  | OP_MARK_DEAD => exact Yields.bind fun _ => Yields.bind fun _ => Yields.pure rfl
  | OP_EXTENT_NEW => exact Yields.bind fun _ => Yields.bind fun _ => Yields.pure rfl
  | OP_EXTENT_FREE => exact Yields.bind fun _ => Yields.pure rfl
  | OP_TXN_COMMIT => exact Yields.bind fun _ => Yields.pure rfl
  | _ => exact Yields.pure rfl

theorem deserializeRecord_op {bs rest : List Byte} {rec : JournalRecord}
    (h : deserializeRecord.run bs = some (rec, rest)) : rec.op = opAt bs := by
  change (getU8 >>= fun op => getU64 >>= fun txnId =>
    deserializeBody (JournalOp.ofByte op) txnId).run bs = _ at h
  rw [StateT.run_bind] at h
  cases hop : getU8.run bs with
  | none =>
      rw [hop] at h
      cases h
  | some out =>
      obtain ⟨op, bs'⟩ := out
      rw [hop] at h
      rw [opAt, ← getLe_eq hop]
      exact Yields.bind (fun txnId => deserializeBody_op (JournalOp.ofByte op) txnId) bs' rec rest h

namespace Journal

/-! ## The walk over the scanned bytes -/

/-- The block boundary the parser goes on at after padding. -/
def nextBoundary (off : Nat) : Nat := (off / kTxnAlignment + 1) * kTxnAlignment

/-- The records from `off` on that are whole, in device order, up to the end of
the bytes or to the first record that is cut off. -/
inductive Walk (full : List Byte) : Nat → List JournalRecord → Prop
  | done {off : Nat} : full.length - off < 9 → Walk full off []
  | cut {off : Nat} : 9 ≤ full.length - off →
      full.length - off < recordLength (full.drop off) → Walk full off []
  | paddingEnd {off : Nat} : 9 ≤ full.length - off → opAt (full.drop off) = .other 0 →
      full.length ≤ nextBoundary off → Walk full off []
  | padding {off : Nat} {rs : List JournalRecord} : 9 ≤ full.length - off →
      opAt (full.drop off) = .other 0 → nextBoundary off < full.length →
      Walk full (nextBoundary off) rs → Walk full off rs
  | record {off : Nat} {rec : JournalRecord} {rest : List Byte} {rs : List JournalRecord} :
      9 ≤ full.length - off → opAt (full.drop off) ≠ .other 0 →
      deserializeRecord.run (full.drop off) = some (rec, rest) →
      Walk full (off + recordLength (full.drop off)) rs → Walk full off (rec :: rs)

/-- No record of the walk from `off` on is cut off by the end of the bytes. -/
inductive Whole (full : List Byte) : Nat → Prop
  | done {off : Nat} : full.length - off < 9 → Whole full off
  | paddingEnd {off : Nat} : 9 ≤ full.length - off → opAt (full.drop off) = .other 0 →
      full.length ≤ nextBoundary off → Whole full off
  | padding {off : Nat} : 9 ≤ full.length - off → opAt (full.drop off) = .other 0 →
      nextBoundary off < full.length → Whole full (nextBoundary off) → Whole full off
  | record {off : Nat} : 9 ≤ full.length - off → opAt (full.drop off) ≠ .other 0 →
      recordLength (full.drop off) ≤ full.length - off →
      Whole full (off + recordLength (full.drop off)) → Whole full off

theorem lt_nextBoundary (off : Nat) : off < nextBoundary off := by
  have hblock : kTxnAlignment = 4096 := rfl
  unfold nextBoundary
  rw [hblock]
  omega

theorem recordLength_padding {bs : List Byte} (h : opAt bs = .other 0) : recordLength bs = 9 := by
  rw [recordLength, h]
  rfl

/-- The parser on any bytes: the records of a walk that meets none cut off are
taken one after the other, and one that is cut off ends in the exception. Every
round moves forward, so the rounds suffice. -/
theorem scan_walk (full : List Byte) (fuel off : Nat) (hfuel : full.length < fuel + off) :
    (Whole full off ∧ ∃ rs, Walk full off rs ∧
        ∀ st, scan full fuel off st = some (rs.foldl scanRecord st)) ∨
      (¬ Whole full off ∧ ∀ st, scan full fuel off st = none) := by
  induction fuel generalizing off with
  | zero =>
      have hend : full.length - off < 9 := by omega
      exact .inl ⟨.done hend, [], .done hend, fun _ => rfl⟩
  | succ fuel ih =>
      by_cases hfew : full.length - off < 9
      · refine .inl ⟨.done hfew, [], .done hfew, fun st => ?_⟩
        rw [scan, if_pos hfew]
        rfl
      · have hmany : 9 ≤ full.length - off := by omega
        obtain ⟨hsome, hnone⟩ := deserializeRecord_takes (full.drop off)
        rw [List.length_drop] at hsome hnone
        by_cases hcut : full.length - off < recordLength (full.drop off)
        · -- the byte reader throws
          right
          constructor
          · intro hw
            cases hw with
            | done h => exact hfew h
            | paddingEnd _ hop _ =>
                rw [recordLength_padding hop] at hcut
                omega
            | padding _ hop _ _ =>
                rw [recordLength_padding hop] at hcut
                omega
            | record _ _ h _ => omega
          · intro st
            rw [scan, if_neg hfew, hnone hcut]
        · obtain ⟨rec, hrun⟩ := hsome (by omega)
          have hop := deserializeRecord_op hrun
          by_cases hpad : opAt (full.drop off) = .other 0
          · by_cases hlast : full.length ≤ nextBoundary off
            · refine .inl ⟨.paddingEnd hmany hpad hlast, [], .paddingEnd hmany hpad hlast,
                fun st => ?_⟩
              rw [scan, if_neg hfew, hrun]
              dsimp only
              rw [if_pos (hop.trans hpad)]
              exact if_pos hlast
            · have hlt := lt_nextBoundary off
              have hround : ∀ st, scan full (fuel + 1) off st =
                  scan full fuel (nextBoundary off) st := by
                intro st
                rw [scan, if_neg hfew, hrun]
                dsimp only
                rw [if_pos (hop.trans hpad)]
                exact if_neg hlast
              rcases ih (nextBoundary off) (by omega) with ⟨hw, rs, hwalk, hscan⟩ | ⟨hw, hscan⟩
              · refine .inl ⟨.padding hmany hpad (by omega) hw, rs,
                  .padding hmany hpad (by omega) hwalk, fun st => ?_⟩
                rw [hround, hscan]
              · refine .inr ⟨fun h => ?_, fun st => by rw [hround, hscan]⟩
                cases h with
                | done h => exact hfew h
                | paddingEnd _ _ h => exact hlast h
                | padding _ _ _ h => exact hw h
                | record _ h _ _ => exact h hpad
          · have hround : ∀ st, scan full (fuel + 1) off st =
                scan full fuel (off + recordLength (full.drop off)) (scanRecord st rec) := by
              intro st
              have hnext : full.length - ((full.drop off).drop (recordLength (full.drop off))).length =
                  off + recordLength (full.drop off) := by
                rw [List.length_drop, List.length_drop]
                omega
              rw [scan, if_neg hfew, hrun]
              dsimp only
              rw [if_neg (fun h => hpad (hop.symm.trans h)), hnext]
            have hge : 9 ≤ recordLength (full.drop off) := Nat.le_add_right _ _
            rcases ih (off + recordLength (full.drop off)) (by omega) with
              ⟨hw, rs, hwalk, hscan⟩ | ⟨hw, hscan⟩
            · refine .inl ⟨.record hmany hpad (by omega) hw, rec :: rs,
                .record hmany hpad hrun hwalk, fun st => ?_⟩
              rw [hround, hscan]
              rfl
            · refine .inr ⟨fun h => ?_, fun st => by rw [hround, hscan]⟩
              cases h with
              | done h => exact hfew h
              | paddingEnd _ h _ => exact hpad h
              | padding _ h _ _ => exact hpad h
              | record _ _ _ h => exact hw h

/-! ## Complete transactions -/

/-- The records between positions `b` and `c`, without the checkpoint marks. -/
def between (rs : List JournalRecord) (b c : Nat) : List JournalRecord :=
  ((rs.take c).drop (b + 1)).filter fun r => r.op ≠ .OP_CHECKPOINT

/-- The BEGIN record at `b` has no BEGIN and no COMMIT behind it. -/
structure Open (rs : List JournalRecord) (b : Nat) (first : JournalRecord) : Prop where
  here : rs[b]? = some first
  begins : first.op = .OP_TXN_BEGIN
  inner : ∀ i r, b < i → rs[i]? = some r → r.op ≠ .OP_TXN_BEGIN ∧ r.op ≠ .OP_TXN_COMMIT

/-- The COMMIT record at `c` closes the transaction begun at `b`: it has its id
and the checksum of the records between them. -/
structure Complete (rs : List JournalRecord) (b c : Nat) (first last : JournalRecord) : Prop where
  opened : Open (rs.take c) b first
  here : rs[c]? = some last
  commits : last.op = .OP_TXN_COMMIT
  txnId : last.txnId = first.txnId
  crc : txnCrc (serializeRecords (between rs b c)) = last.crc

/-- `result` holds the records of all complete transactions of `rs`, one
transaction after the other, in the order they have there. -/
def Collects (rs result : List JournalRecord) : Prop :=
  ∃ groups : List (Nat × Nat), (groups.Pairwise fun p q => p.2 < q.1) ∧
    (∀ b c, (b, c) ∈ groups ↔ ∃ first last, Complete rs b c first last) ∧
    result = groups.flatMap fun p => between rs p.1 p.2

theorem Open.lt {rs : List JournalRecord} {b : Nat} {first : JournalRecord}
    (h : Open rs b first) : b < rs.length :=
  (List.getElem?_eq_some_iff.mp h.here).1

theorem Complete.lt {rs : List JournalRecord} {b c : Nat} {first last : JournalRecord}
    (h : Complete rs b c first last) : c < rs.length :=
  (List.getElem?_eq_some_iff.mp h.here).1

theorem Open.unique {rs : List JournalRecord} {b b' : Nat} {first first' : JournalRecord}
    (h : Open rs b first) (h' : Open rs b' first') : b = b' := by
  rcases Nat.lt_trichotomy b b' with hlt | heq | hlt
  · exact absurd h'.begins (h.inner b' first' hlt h'.here).1
  · exact heq
  · exact absurd h.begins (h'.inner b first hlt h.here).1

theorem getElem?_snoc {rs : List JournalRecord} {r x : JournalRecord} {i : Nat}
    (h : (rs ++ [r])[i]? = some x) : rs[i]? = some x ∨ (i = rs.length ∧ x = r) := by
  rcases Nat.lt_trichotomy i rs.length with hlt | rfl | hlt
  · left
    rwa [List.getElem?_append_left hlt] at h
  · right
    rw [List.getElem?_concat_length] at h
    cases h
    exact ⟨rfl, rfl⟩
  · rw [List.getElem?_eq_none (by simp; omega)] at h
    cases h

/-- A record that frames nothing leaves the open transaction open. -/
theorem Open.snoc {rs : List JournalRecord} {b : Nat} {first r : JournalRecord}
    (h : Open rs b first) (hr : r.op ≠ .OP_TXN_BEGIN ∧ r.op ≠ .OP_TXN_COMMIT) :
    Open (rs ++ [r]) b first := by
  refine ⟨?_, h.begins, fun i x hi hx => ?_⟩
  · rw [List.getElem?_append_left h.lt]
    exact h.here
  · rcases getElem?_snoc hx with hx | ⟨-, rfl⟩
    · exact h.inner i x hi hx
    · exact hr

/-- What is open with one more record: what was, or that record. -/
theorem Open.of_snoc {rs : List JournalRecord} {b : Nat} {first r : JournalRecord}
    (h : Open (rs ++ [r]) b first) :
    (b = rs.length ∧ r.op = .OP_TXN_BEGIN) ∨
      (Open rs b first ∧ r.op ≠ .OP_TXN_BEGIN ∧ r.op ≠ .OP_TXN_COMMIT) := by
  rcases getElem?_snoc h.here with hb | ⟨rfl, rfl⟩
  · have hlt := (List.getElem?_eq_some_iff.mp hb).1
    refine .inr ⟨⟨hb, h.begins, fun i x hi hx => h.inner i x hi ?_⟩,
      h.inner rs.length r hlt List.getElem?_concat_length⟩
    rw [List.getElem?_append_left (List.getElem?_eq_some_iff.mp hx).1]
    exact hx
  · exact .inl ⟨rfl, h.begins⟩

theorem open_begin {rs : List JournalRecord} {r : JournalRecord} (hr : r.op = .OP_TXN_BEGIN) :
    Open (rs ++ [r]) rs.length r := by
  refine ⟨List.getElem?_concat_length, hr, fun i x hi hx => ?_⟩
  rcases getElem?_snoc hx with hx | ⟨rfl, -⟩
  · have := (List.getElem?_eq_some_iff.mp hx).1
    omega
  · omega

theorem between_snoc {rs : List JournalRecord} {r : JournalRecord} {b c : Nat}
    (hc : c ≤ rs.length) : between (rs ++ [r]) b c = between rs b c := by
  unfold between
  rw [List.take_append_of_le_length hc]

theorem between_grow {rs : List JournalRecord} {r : JournalRecord} {b : Nat}
    (hb : b < rs.length) : between (rs ++ [r]) b (rs ++ [r]).length =
      between rs b rs.length ++ [r].filter fun r => r.op ≠ .OP_CHECKPOINT := by
  unfold between
  rw [List.take_length, List.take_length, List.drop_append_of_le_length (by omega),
    List.filter_append]

theorem complete_snoc_of_lt {rs : List JournalRecord} {r first last : JournalRecord} {b c : Nat}
    (hc : c < rs.length) :
    Complete (rs ++ [r]) b c first last ↔ Complete rs b c first last := by
  have htake : (rs ++ [r]).take c = rs.take c := List.take_append_of_le_length hc.le
  have hget : (rs ++ [r])[c]? = rs[c]? := List.getElem?_append_left hc
  have hbetween : between (rs ++ [r]) b c = between rs b c := between_snoc hc.le
  constructor
  · intro h
    exact ⟨htake ▸ h.opened, hget ▸ h.here, h.commits, h.txnId, hbetween ▸ h.crc⟩
  · intro h
    exact ⟨htake.symm ▸ h.opened, hget.symm ▸ h.here, h.commits, h.txnId, hbetween.symm ▸ h.crc⟩

/-- Complete with one more record: what was, or the transaction that record
commits. -/
theorem complete_snoc {rs : List JournalRecord} {r : JournalRecord} {b c : Nat} :
    (∃ first last, Complete (rs ++ [r]) b c first last) ↔
      (∃ first last, Complete rs b c first last) ∨
        (c = rs.length ∧ r.op = .OP_TXN_COMMIT ∧ ∃ first, Open rs b first ∧
          r.txnId = first.txnId ∧ txnCrc (serializeRecords (between rs b rs.length)) = r.crc) := by
  have hlast : (rs ++ [r])[rs.length]? = some r := List.getElem?_concat_length
  have htake : (rs ++ [r]).take rs.length = rs := List.take_left
  have hbetween : between (rs ++ [r]) b rs.length = between rs b rs.length :=
    between_snoc le_rfl
  constructor
  · rintro ⟨first, last, h⟩
    have hlt := h.lt
    rw [List.length_append, List.length_singleton] at hlt
    rcases Nat.lt_or_eq_of_le (Nat.lt_succ_iff.mp hlt) with hc | rfl
    · exact .inl ⟨first, last, (complete_snoc_of_lt hc).mp h⟩
    · have heq := hlast.symm.trans h.here
      cases heq
      have hopen := h.opened
      have hcrc := h.crc
      rw [htake] at hopen
      rw [hbetween] at hcrc
      exact .inr ⟨rfl, h.commits, first, hopen, h.txnId, hcrc⟩
  · rintro (⟨first, last, h⟩ | ⟨rfl, hop, first, hopen, hid, hcrc⟩)
    · exact ⟨first, last, (complete_snoc_of_lt h.lt).mpr h⟩
    · exact ⟨first, r, htake.symm ▸ hopen, hlast, hop, hid, hbetween.symm ▸ hcrc⟩

theorem flatMap_between_snoc {rs : List JournalRecord} {r : JournalRecord}
    {groups : List (Nat × Nat)}
    (hg : ∀ b c, (b, c) ∈ groups ↔ ∃ first last, Complete rs b c first last) :
    groups.flatMap (fun p => between (rs ++ [r]) p.1 p.2) =
      groups.flatMap fun p => between rs p.1 p.2 := by
  refine List.flatMap_congr fun p hp => ?_
  obtain ⟨first, last, h⟩ := (hg p.1 p.2).mp hp
  exact between_snoc h.lt.le

/-- A record that completes nothing. -/
theorem Collects.skip {rs result : List JournalRecord} (h : Collects rs result)
    {r : JournalRecord}
    (hr : ∀ b first, r.op = .OP_TXN_COMMIT → Open rs b first → r.txnId = first.txnId →
      txnCrc (serializeRecords (between rs b rs.length)) ≠ r.crc) :
    Collects (rs ++ [r]) result := by
  obtain ⟨groups, hsorted, hg, rfl⟩ := h
  refine ⟨groups, hsorted, fun b c => ?_, (flatMap_between_snoc hg).symm⟩
  rw [complete_snoc, hg]
  constructor
  · exact .inl
  · rintro (h | ⟨-, hop, first, hopen, hid, hcrc⟩)
    · exact h
    · exact absurd hcrc (hr b first hop hopen hid)

/-- A COMMIT record that completes the open transaction. -/
theorem Collects.commit {rs result : List JournalRecord} (h : Collects rs result)
    {r first : JournalRecord} {b : Nat} (hop : r.op = .OP_TXN_COMMIT) (hopen : Open rs b first)
    (hid : r.txnId = first.txnId)
    (hcrc : txnCrc (serializeRecords (between rs b rs.length)) = r.crc) :
    Collects (rs ++ [r]) (result ++ between rs b rs.length) := by
  obtain ⟨groups, hsorted, hg, rfl⟩ := h
  refine ⟨groups ++ [(b, rs.length)], ?_, fun b' c => ?_, ?_⟩
  · refine List.pairwise_append.mpr ⟨hsorted, List.pairwise_singleton _ _, fun p hp q hq => ?_⟩
    obtain rfl := List.mem_singleton.mp hq
    obtain ⟨first', last, hcomplete⟩ := (hg p.1 p.2).mp hp
    -- a COMMIT stands neither behind the open BEGIN nor in its place
    rcases Nat.lt_trichotomy p.2 b with hlt | heq | hlt
    · exact hlt
    · have hsame := hcomplete.here
      rw [heq, hopen.here] at hsame
      cases hsame
      have hne := hopen.begins.symm.trans hcomplete.commits
      cases hne
    · exact absurd hcomplete.commits (hopen.inner p.2 last hlt hcomplete.here).2
  · rw [List.mem_append, List.mem_singleton, complete_snoc, hg]
    refine or_congr Iff.rfl ⟨fun heq => ?_, ?_⟩
    · cases heq
      exact ⟨rfl, hop, first, hopen, hid, hcrc⟩
    · rintro ⟨rfl, -, first', hopen', -⟩
      rw [hopen.unique hopen']
  · rw [List.flatMap_append, flatMap_between_snoc hg, List.flatMap_singleton,
      between_snoc le_rfl]

/-- What the parser's state says of the records it has taken. -/
structure Tracks (rs : List JournalRecord) (st : ScanState) : Prop where
  collects : Collects rs st.result
  opened : st.inTxn = true → ∃ b first, Open rs b first ∧ st.currentTxnId = first.txnId ∧
    st.currentTxn = between rs b rs.length
  closed : st.inTxn = false → ∀ b first, ¬ Open rs b first

theorem Tracks.scanRecord {rs : List JournalRecord} {st : ScanState} (h : Tracks rs st)
    (r : JournalRecord) : Tracks (rs ++ [r]) (scanRecord st r) := by
  by_cases hbegin : r.op = .OP_TXN_BEGIN
  · have hstep : Journal.scanRecord st r =
        { st with inTxn := true, currentTxnId := r.txnId, currentTxn := [] } := by
      unfold Journal.scanRecord
      rw [hbegin]
    rw [hstep]
    refine ⟨h.collects.skip fun b first hop => ?_, fun _ => ⟨rs.length, r, open_begin hbegin, rfl,
      ?_⟩, fun hin => (by cases hin)⟩
    · rw [hbegin] at hop
      cases hop
    · unfold between
      rw [List.take_length, List.drop_eq_nil_of_le (by simp)]
      rfl
  · by_cases hcommit : r.op = .OP_TXN_COMMIT
    · have hclosed : ∀ b first, ¬ Open (rs ++ [r]) b first := by
        intro b first hopen
        rcases hopen.of_snoc with ⟨-, hop⟩ | ⟨-, -, hop⟩
        · exact hbegin hop
        · exact hop hcommit
      unfold Journal.scanRecord
      rw [hcommit]
      dsimp only
      refine ⟨?_, fun hin => (by cases hin), fun _ => hclosed⟩
      cases hin : st.inTxn with
      | false =>
          rw [if_neg (by simp)]
          exact h.collects.skip fun b first _ hopen => absurd hopen (h.closed hin b first)
      | true =>
          obtain ⟨b, first, hopen, hid, htxn⟩ := h.opened hin
          rw [hid, htxn]
          split
          · rename_i haccept
            exact h.collects.commit hcommit hopen haccept.2.1 haccept.2.2
          · rename_i hreject
            refine h.collects.skip fun b' first' _ hopen' hid' hcrc => hreject ?_
            obtain rfl := hopen.unique hopen'
            have heq := hopen.here.symm.trans hopen'.here
            cases heq
            exact ⟨rfl, hid', hcrc⟩
    · have hskip : Collects (rs ++ [r]) st.result :=
        h.collects.skip fun b first hop => absurd hop hcommit
      have hclosed : st.inTxn = false → ∀ b first, ¬ Open (rs ++ [r]) b first := by
        intro hin b first hopen
        rcases hopen.of_snoc with ⟨-, hop⟩ | ⟨hopen, -⟩
        · exact hbegin hop
        · exact h.closed hin b first hopen
      -- the record is collected unless it marks a checkpoint
      have hstep : Journal.scanRecord st r = if st.inTxn then
          { st with currentTxn := st.currentTxn ++ [r].filter fun r => r.op ≠ .OP_CHECKPOINT }
          else st := by
        unfold Journal.scanRecord
        split
        · exact absurd ‹_› hbegin
        · exact absurd ‹_› hcommit
        · rename_i hop
          simp [hop]
        · rename_i hop
          have hne : r.op ≠ .OP_CHECKPOINT := hop
          simp [hne]
      rw [hstep]
      cases hin : st.inTxn with
      | false => exact ⟨hskip, fun hin' => by simp [hin] at hin', fun _ => hclosed hin⟩
      | true =>
          refine ⟨hskip, fun _ => ?_, fun hin' => by simp at hin'⟩
          obtain ⟨b, first, hopen, hid, htxn⟩ := h.opened hin
          refine ⟨b, first, hopen.snoc ⟨hbegin, hcommit⟩, hid, ?_⟩
          rw [between_grow hopen.lt, ← htxn]
          rfl

/-- The parser collects the complete transactions of the records it takes. -/
theorem foldl_scanRecord_collects (rs : List JournalRecord) :
    Collects rs (rs.foldl scanRecord {}).result := by
  suffices h : Tracks rs (rs.foldl Journal.scanRecord {}) from h.collects
  induction rs using List.reverseRecOn with
  | nil =>
      refine ⟨⟨[], List.Pairwise.nil, fun b c => ?_, rfl⟩, fun h => (by cases h), fun _ b first h => ?_⟩
      · constructor
        · intro h
          cases h
        · rintro ⟨first, last, h⟩
          exact absurd h.lt (Nat.not_lt_zero c)
      · exact absurd h.lt (Nat.not_lt_zero b)
  | append_singleton rs r ih =>
      rw [List.foldl_append]
      exact ih.scanRecord r

/-! ## The scan range -/

/-- The bytes a recovery parses: those of the ring from the checkpoint to the
head, none when the superblock cannot be read or says that there are none. -/
def scanned (j : Journal) (d : BlockDevice) : List Byte :=
  let (r, j, d) := j.readSuperblock d
  if r < 0 then []
  else
    let cp := j.superblock.checkpointOffset
    let wp := j.writeOffset
    let d := if cp = wp ∧ wp = 0 then (d.read kDataStart kTxnAlignment true).2.2 else d
    if cp = wp then []
    else
      let len := if wp ≥ cp then wp - cp else j.dataSize - cp + wp
      ((readRing j.dataSize len len cp [] d).getD ([], d)).1

/-- The scan range lies where the source's types can hold it: the checkpoint is
in the ring, and a buffer list's 32-bit length counts the bytes. -/
structure InRange (j : Journal) (d : BlockDevice) : Prop where
  checkpoint : (j.readSuperblock d).2.1.superblock.checkpointOffset ≤
    (j.readSuperblock d).2.1.dataSize
  length : (scanned j d).length < 2 ^ 32

/-- A read that starts in the ring stays in it. -/
theorem readRing_isSome (dataSize fuel rem pos : Nat) (acc : List Byte) (d : BlockDevice)
    (hpos : pos ≤ dataSize) : ∃ out, readRing dataSize fuel rem pos acc d = some out := by
  induction fuel generalizing rem pos acc d with
  | zero => exact ⟨_, rfl⟩
  | succ fuel ih =>
      rw [readRing]
      split
      · exact ⟨_, rfl⟩
      · rw [if_neg (by omega)]
        dsimp only
        generalize d.read _ _ true = out
        obtain ⟨r, chunk, d'⟩ := out
        dsimp only
        split
        · exact ⟨_, rfl⟩
        · refine ih _ _ _ _ ?_
          split <;> split <;> omega

/-- A recovery parses the scan range from its first byte. -/
theorem recover_scanned {j : Journal} {d : BlockDevice} (h : InRange j d) :
    (j.recover d).1 =
      (scan (scanned j d) ((scanned j d).length + 1) 0 {}).map ScanState.result := by
  have hin := h.checkpoint
  have hnone : ∀ n, scan [] (n + 1) 0 {} = some {} := fun n => rfl
  unfold recover scanned
  generalize j.readSuperblock d = out at hin ⊢
  obtain ⟨r, j', d'⟩ := out
  dsimp only at hin ⊢
  split
  · rfl
  · by_cases heq : j'.superblock.checkpointOffset = j'.writeOffset
    · -- no range: the parser has no bytes, whether it is started or not
      rw [if_pos heq, if_pos heq]
      have hlen : (if j'.writeOffset ≥ j'.superblock.checkpointOffset then
          j'.writeOffset - j'.superblock.checkpointOffset
          else j'.dataSize - j'.superblock.checkpointOffset + j'.writeOffset) = 0 := by
        rw [heq, if_pos le_rfl, Nat.sub_self]
      rw [hlen]
      split
      · split <;> rfl
      · rfl
    · obtain ⟨out, hring⟩ := readRing_isSome j'.dataSize (if j'.writeOffset ≥
          j'.superblock.checkpointOffset then j'.writeOffset - j'.superblock.checkpointOffset
          else j'.dataSize - j'.superblock.checkpointOffset + j'.writeOffset) (if j'.writeOffset ≥
          j'.superblock.checkpointOffset then j'.writeOffset - j'.superblock.checkpointOffset
          else j'.dataSize - j'.superblock.checkpointOffset + j'.writeOffset)
          j'.superblock.checkpointOffset [] d' hin
      have hrange : ¬ (j'.superblock.checkpointOffset = j'.writeOffset ∧ j'.writeOffset = 0) :=
        fun h => heq h.1
      rw [if_neg heq, if_neg heq, if_neg hrange, hring]
      rfl

/-- What recovery is asked for: it returns, and what it returns are the complete
transactions of the records before the first one cut off. -/
def Robust (j : Journal) (d : BlockDevice) : Prop :=
  ∃ rs result, Walk (scanned j d) 0 rs ∧ (j.recover d).1 = some result ∧ Collects rs result

/-- A recovery that returns met no record that was cut off. -/
theorem whole_of_recover {j : Journal} {d : BlockDevice} (h : InRange j d)
    {result : List JournalRecord} (hresult : (j.recover d).1 = some result) :
    Whole (scanned j d) 0 := by
  rcases scan_walk (scanned j d) ((scanned j d).length + 1) 0 (by omega) with
    ⟨hw, -⟩ | ⟨-, hnone⟩
  · exact hw
  · rw [recover_scanned h, hnone] at hresult
    cases hresult

/-- The record of a small transaction. -/
def freedSeven : JournalRecord := { op := .OP_EXTENT_FREE, txnId := 1, extentId := 7 }

/-- A ring with that transaction and the first nine bytes of a MARK_DEAD record
behind it, of which the superblock counts `head` bytes. -/
def tornRing (head : Nat) : BlockDevice :=
  { content := Content.write (Content.write (fun _ => 0) 0
        ({ writeOffset := head } : JournalSuperBlock).bytes) kDataStart
      (txnBytes 1 (serializeRecord freedSeven) ++ (putU8 4 ++ putU64 2))
    size := 16384 }

/-- Without the torn record the transaction is returned; with it the call ends
in the exception. -/
theorem tornRing_recover :
    (recover { devSize := 16384 } (tornRing 39)).1 = some [freedSeven] ∧
      (recover { devSize := 16384 } (tornRing 48)).1 = none := by
  constructor
  · decide +kernel
  · decide +kernel

theorem tornRing_inRange : InRange { devSize := 16384 } (tornRing 39) :=
  ⟨by decide +kernel, by decide +kernel⟩

end Journal

end Clab.Btier
