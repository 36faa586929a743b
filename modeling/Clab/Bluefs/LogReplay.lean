import Clab.Bluefs.JournalRuns
import Clab.Bluefs.LogReading

/-!
# The replay of a log that was written

On a log that holds padded transactions, `_replay` reads back what was written: one
transaction after the other, block by block and over the ends of the extents, until
the log ends or comes to what is not the next transaction.
-/

namespace Clab.Bluefs

open Blk Common Codec Segments

variable {V A : Type}

/-! ## Blocks -/

/-- Direct reads of whole blocks in the extents of the file do not fail. -/
structure BlockReads (s : BlueFS V A) (r : FileRef) (blockSize : Nat) : Prop where
  blocks : ∀ e ∈ (s.nodes.files r).fnode.extents, blockSize ∣ e.length
  reads : ∀ e ∈ (s.nodes.files r).fnode.extents, ∃ d, s.bdev e.bdev = some d ∧ d.faults = [] ∧
    d.blockSize ∣ blockSize ∧ d.blockSize ∣ e.offset ∧ e.offset + e.length ≤ d.size

theorem read_direct {d : KernelDevice} (hfaults : d.faults = []) {off len : Nat}
    (hsize : off + len ≤ d.size) (hoff : d.blockSize ∣ off) (hlen : d.blockSize ∣ len) :
    d.read off len false = ((len : Int), d.volatile.read off len, d) := by
  have hvalid : d.isValidIo off len = true :=
    decide_eq_true ⟨hsize, Nat.mod_eq_zero_of_dvd hoff, Nat.mod_eq_zero_of_dvd hlen⟩
  have hfault : d.fault = none := by
    rw [KernelDevice.fault, hfaults]
    rfl
  have hspend : d.spend = d := by
    unfold KernelDevice.spend
    rw [hfaults, List.tail_nil, ← hfaults]
  unfold KernelDevice.read
  rw [hvalid, hfault, hspend]
  rfl

section Reads

variable {s : BlueFS V A} {r : FileRef} {data : Bytes} {blockSize : Nat}

theorem dvd_total {es : List Extent} (h : ∀ e ∈ es, blockSize ∣ e.length) :
    blockSize ∣ total Extent.length es := by
  induction es with
  | nil => exact Nat.dvd_zero _
  | cons e es ih =>
      rw [total_cons]
      exact Nat.dvd_add (h e List.mem_cons_self) (ih fun x hx => h x (List.mem_cons_of_mem _ hx))

/-- A block of the log is read, and nothing changes. -/
theorem readBlock_stored (h : Stored s r data) (hreads : BlockReads s r blockSize) {off : Nat}
    (hoff : blockSize ∣ off) (hin : off + blockSize ≤ data.length) (hpos : 0 < blockSize) :
    s.readBlock r off blockSize = .ok (some ((data.drop off).take blockSize, s)) := by
  obtain ⟨n, x, e, d, hseek, he, hx, hd, hread⟩ := h.segment (show off < data.length by omega)
  have hmem := List.mem_of_getElem? he
  obtain ⟨d', hd', hfaults, hunit, hstart, hsize⟩ := hreads.reads e hmem
  obtain rfl : d = d' := Option.some.inj (hd.symm.trans hd')
  -- the position in the extent is at a block, so the block is in the extent
  have hplace : total Extent.length ((s.nodes.files r).fnode.extents.take n) + x = off := by
    obtain ⟨n', x', e', hseek', he', -, hflat⟩ :=
      h.indexed.seek (lt_of_lt_of_le (show off < data.length by omega) h.room)
    obtain ⟨rfl, rfl⟩ := Prod.mk.inj (Option.some.inj (hseek.symm.trans hseek'))
    exact hflat
  have hbefore : blockSize ∣ total Extent.length ((s.nodes.files r).fnode.extents.take n) :=
    dvd_total fun e he => hreads.blocks e (List.mem_of_mem_take he)
  have hxblock : blockSize ∣ x := by
    have hsum : blockSize ∣ total Extent.length ((s.nodes.files r).fnode.extents.take n) + x := by
      rw [hplace]
      exact hoff
    exact (Nat.dvd_add_right hbefore).mp hsum
  have hblock : x + blockSize ≤ e.length := by
    obtain ⟨a, ha⟩ := hreads.blocks e hmem
    obtain ⟨b, hb⟩ := hxblock
    have hlt : b < a := by
      by_contra hge
      have hmul := Nat.mul_le_mul_left blockSize (not_lt.mp hge)
      omega
    have hmul := Nat.mul_le_mul_left blockSize (Nat.succ_le_of_lt hlt)
    rw [Nat.mul_succ] at hmul
    omega
  have hlen : min (e.length - x) blockSize = blockSize := by omega
  have hdirect := read_direct hfaults
    (show e.offset + x + blockSize ≤ d.size by omega)
    (Nat.dvd_add hstart (hunit.trans hxblock)) hunit
  unfold BlueFS.readBlock
  simp only [hseek, he, hd, hlen, hdirect]
  rw [if_neg (not_lt.mpr (Int.natCast_nonneg _)), hread blockSize (by omega) hin]
  have hsame : Function.update s.bdev e.bdev (some d) = s.bdev := by
    rw [← hd, Function.update_eq_self]
  rw [hsame]

/-- The blocks behind the first one are read. -/
theorem readMore_stored (h : Stored s r data) (hreads : BlockReads s r blockSize)
    (hblock : s.super.blockSize = blockSize) (hpos : 0 < blockSize) (hpow : blockSize ∣ 2 ^ 63)
    (hshort : data.length < 2 ^ 63) {pos : Nat}
    (hat : blockSize ∣ pos) {fuel n m : Nat} (hin : pos + m * blockSize ≤ data.length)
    (hmem : m * blockSize ≤ 2 ^ 32) (hn : n ≤ m) (hfuel : m ≤ n + fuel) :
    s.readMore r pos fuel (m * blockSize - n * blockSize) ((data.drop pos).take (n * blockSize)) =
      .ok ((data.drop pos).take (m * blockSize), s) := by
  induction fuel generalizing n with
  | zero =>
      obtain rfl : n = m := by omega
      unfold BlueFS.readMore
      rw [Nat.sub_self, if_pos rfl]
  | succ fuel ih =>
      unfold BlueFS.readMore
      rcases Nat.eq_or_lt_of_le hn with rfl | hlt
      · rw [Nat.sub_self, if_pos rfl]
      have hnext : (n + 1) * blockSize ≤ m * blockSize := Nat.mul_le_mul_right _ hlt
      rw [Nat.succ_mul] at hnext
      have hlength : ((data.drop pos).take (n * blockSize)).length = n * blockSize := by
        rw [List.length_take, List.length_drop]
        omega
      have hoff : add64 pos (((data.drop pos).take (n * blockSize)).length % 2 ^ 32) =
          pos + n * blockSize := by
        rw [hlength, Nat.mod_eq_of_lt (by omega), add64_of_lt (by omega)]
      have hrest : sub64 (s.nodes.files r).fnode.size (pos + n * blockSize) =
          data.length - (pos + n * blockSize) := by
        rw [h.size, sub64_of_le (by omega) (by omega)]
      have hlen : min blockSize (data.length - (pos + n * blockSize)) = blockSize := by omega
      have hup : p2roundup blockSize blockSize = blockSize := by
        have hle := Nat.le_of_dvd (by decide) hpow
        unfold p2roundup
        rw [show (blockSize + blockSize - 1) / blockSize = 1 by
          rw [show blockSize + blockSize - 1 = blockSize - 1 + 1 * blockSize by omega,
            Nat.add_mul_div_right _ _ hpos, Nat.div_eq_of_lt (by omega)], Nat.one_mul,
          Nat.mod_eq_of_lt (by omega)]
      have hmore : sub64 (m * blockSize - n * blockSize) blockSize =
          m * blockSize - (n + 1) * blockSize := by
        rw [sub64_of_le (by omega) (by omega), Nat.succ_mul]
        omega
      have hread := readBlock_stored h hreads (Nat.dvd_add hat (Nat.dvd_mul_left blockSize n))
        (show pos + n * blockSize + blockSize ≤ data.length by omega) hpos
      have happend : (data.drop pos).take (n * blockSize) ++
          (data.drop (pos + n * blockSize)).take blockSize =
          (data.drop pos).take ((n + 1) * blockSize) := by
        rw [Nat.succ_mul, List.take_add, List.drop_drop]
      rw [if_neg (by omega)]
      simp only [hblock, hoff, hrest, hlen, hread, hup, hmore, happend]
      exact ih hlt (by omega)

end Reads

/-! ## Operations -/

/-- An operation that leaves the log file and the position in it alone. -/
def LogOp.Plain : LogOp → Prop
  | .jump _ _ | .jumpSeq _ => False
  | .fileUpdate ino _ _ _ => ino ≠ 1
  | .fileUpdateInc delta => delta.ino ≠ 1
  | _ => True

/-- Operations that can be written and read back. -/
structure LogOp.Loggable (op : LogOp) : Prop where
  inRange : op.InRange
  plain : op.Plain

/-- The file of the log is in the table under number 1 only. -/
structure LogApart (n : Nodes) (log : FileRef) : Prop where
  made : log < n.nextRef
  only : ∀ ino, n.fileMap.lookup ino = some log → ino = 1

section Operations

variable {n : Nodes} {log : FileRef}

theorem LogApart.setFile (h : LogApart n log) (r : FileRef) (f : File) :
    LogApart (n.setFile r f) log := ⟨h.made, h.only⟩

theorem LogApart.setEntry (h : LogApart n log) (d f : Bytes) (r : FileRef) :
    LogApart (n.setEntry d f r) log := by
  rw [Nodes.setEntry_eq]
  exact ⟨h.made, h.only⟩

theorem LogApart.eraseEntry (h : LogApart n log) (d f : Bytes) :
    LogApart (n.eraseEntry d f) log := by
  rw [Nodes.eraseEntry_eq]
  exact ⟨h.made, h.only⟩

/-- A file that is looked up or made is not the log, unless its number is 1. -/
theorem LogApart.getFile (h : LogApart n log) (ino : Nat) :
    LogApart (n.getFile ino).2 log ∧ (n.getFile ino).2.files log = n.files log ∧
      (ino ≠ 1 → (n.getFile ino).1 ≠ log) := by
  unfold Nodes.getFile
  cases hr : n.fileMap.lookup ino with
  | some r =>
      refine ⟨h, rfl, fun hne heq => hne (h.only ino ?_)⟩
      rw [hr]
      exact congrArg some heq
  | none =>
      have hne : log ≠ n.nextRef := h.made.ne
      refine ⟨⟨Nat.lt_succ_of_lt h.made, fun k hk => ?_⟩, ?_, fun _ heq => hne heq.symm⟩
      · change (n.fileMap.insert ino n.nextRef).lookup k = some log at hk
        rw [OrderedMap.lookup_insert] at hk
        split at hk
        · exact absurd (Option.some.inj hk).symm hne
        · exact h.only k hk
      · exact Function.update_of_ne hne _ _

variable [VolumeSelector V] {s s' : BlueFS V A}

/-- What the replay reads from while it fills the rest. -/
structure KeepsReading (s s' : BlueFS V A) (log : FileRef) : Prop where
  bdev : s'.bdev = s.bdev
  super : s'.super = s.super
  fnode : (s'.nodes.files log).fnode = (s.nodes.files log).fnode
  apart : LogApart s'.nodes log

omit [VolumeSelector V] in
/-- A file gets other fields than the fnode. -/
theorem setFile_fnode (n : Nodes) (r log : FileRef) {f : File}
    (hf : r = log → f.fnode = (n.files log).fnode) :
    ((n.setFile r f).files log).fnode = (n.files log).fnode := by
  rw [Nodes.setFile_files]
  split
  case isTrue heq => exact hf heq.symm
  case isFalse => rfl

theorem replayOp_keepsReading (hs : LogApart s.nodes log) {op : LogOp} (hop : op.Plain)
    (h : s.replayOp op = some s') : KeepsReading s s' log := by
  cases op with
  | init => exact Option.some.inj h ▸ ⟨rfl, rfl, rfl, hs⟩
  | jump nextSeq offset => exact hop.elim
  | jumpSeq nextSeq => exact hop.elim
  | dirCreate d => exact Option.some.inj h ▸ ⟨rfl, rfl, rfl, hs.made, hs.only⟩
  | dirRemove d => exact Option.some.inj h ▸ ⟨rfl, rfl, rfl, hs.made, hs.only⟩
  | dirLink d f ino =>
      obtain ⟨hget, hlog, -⟩ := hs.getFile ino
      simp only [BlueFS.replayOp, Option.some.injEq] at h
      generalize s.nodes.getFile ino = found at *
      obtain ⟨r, m⟩ := found
      subst h
      refine ⟨rfl, rfl, ?_, ?_⟩
      · show (((m.setFile r _).setEntry d f r).files log).fnode = _
        rw [Nodes.setEntry_files, setFile_fnode m r log fun hr => by rw [← hr], hlog]
      · have hkeep := ((hget.setFile r { m.files r with
          vselectorHint := VolumeSelector.getHintByDir (VolumeSelector.subUsage s.vselector
            (m.files r).vselectorHint (m.files r).fnode) d
          refs := (m.files r).refs + 1 }).setEntry d f r)
        exact ⟨hkeep.made, hkeep.only⟩
  | dirUnlink d f =>
      cases hentry : s.nodes.entry d f with
      | none =>
          simp only [BlueFS.replayOp, hentry, Option.some.injEq] at h
          exact h ▸ ⟨rfl, rfl, rfl, hs⟩
      | some r =>
          simp only [BlueFS.replayOp, hentry] at h
          split at h
          case isFalse => exact absurd h (by simp)
          case isTrue =>
            obtain rfl := Option.some.inj h
            refine ⟨rfl, rfl, ?_, (hs.setFile r _).eraseEntry d f⟩
            show (((s.nodes.setFile r _).eraseEntry d f).files log).fnode = _
            rw [Nodes.eraseEntry_files, setFile_fnode s.nodes r log fun hr => by rw [← hr]]
  | fileUpdate ino size mtime extents =>
      obtain ⟨hget, hlog, hne⟩ := hs.getFile ino
      have hne := hne hop
      simp only [BlueFS.replayOp, Option.some.injEq] at h
      generalize s.nodes.getFile ino = found at *
      obtain ⟨r, m⟩ := found
      subst h
      refine ⟨rfl, rfl, ?_, hget.made, hget.only⟩
      show ((m.setFile r _).files log).fnode = _
      rw [setFile_fnode m r log fun hr => absurd hr hne, hlog]
  | fileUpdateInc delta =>
      obtain ⟨hget, hlog, hne⟩ := hs.getFile delta.ino
      have hne := hne hop
      simp only [BlueFS.replayOp] at h
      generalize s.nodes.getFile delta.ino = found at *
      obtain ⟨r, m⟩ := found
      obtain ⟨g, -, rfl⟩ := Option.map_eq_some_iff.mp h
      refine ⟨rfl, rfl, ?_, hget.made, hget.only⟩
      show ((m.setFile r _).files log).fnode = _
      rw [setFile_fnode m r log fun hr => absurd hr hne, hlog]
  | fileRemove ino =>
      cases hr : s.nodes.fileMap.lookup ino with
      | none =>
          simp only [BlueFS.replayOp, hr, Option.some.injEq] at h
          exact h ▸ ⟨rfl, rfl, rfl, hs⟩
      | some r =>
          simp only [BlueFS.replayOp, hr] at h
          split at h
          case isTrue =>
            obtain rfl := Option.some.inj h
            refine ⟨rfl, rfl, setFile_fnode s.nodes r log fun hr => by rw [← hr], hs.setFile r _⟩
          case isFalse =>
            obtain rfl := Option.some.inj h
            refine ⟨rfl, rfl, rfl, hs.made, fun k hk => hs.only k ?_⟩
            change (s.nodes.fileMap.erase ino).lookup k = some log at hk
            rw [OrderedMap.lookup_erase] at hk
            split at hk
            · exact absurd hk (by simp)
            · exact hk

theorem replayed_keepsReading {ops : List LogOp} (hs : LogApart s.nodes log)
    (hops : ∀ op ∈ ops, op.Plain) (h : ops.foldlM BlueFS.replayOp s = some s') :
    KeepsReading s s' log := by
  induction ops generalizing s with
  | nil => exact Option.some.inj h ▸ ⟨rfl, rfl, rfl, hs⟩
  | cons op ops ih =>
      rw [List.foldlM_cons] at h
      obtain ⟨m, hm, hrest⟩ := Option.bind_eq_some_iff.mp h
      have hfirst := replayOp_keepsReading hs (hops op List.mem_cons_self) hm
      have hthen := ih hfirst.apart (fun x hx => hops x (List.mem_cons_of_mem _ hx)) hrest
      exact ⟨hthen.bdev.trans hfirst.bdev, hthen.super.trans hfirst.super,
        hthen.fnode.trans hfirst.fnode, hthen.apart⟩

/-! ### The loop over the operations -/

omit [VolumeSelector V] in
theorem decodeOrThrow_decodes {α : Type} {d : Common.Decoder α} {bs behind : Bytes} {x : α}
    (hd : Decoder.Decodes d bs x) {it : PtrIterator} (hit : it.bytes = bs ++ behind) :
    ∃ it', decodeOrThrow d it = .ok (x, it') ∧ it'.bytes = behind := by
  obtain ⟨it', hrun, hbytes, -⟩ := hd it behind hit
  refine ⟨it', ?_, hbytes⟩
  rw [decodeOrThrow, hrun]
  rfl

omit [VolumeSelector V] in
theorem code_decodes (op : LogOp) :
    Decoder.Decodes (Decoder.integer 1) [op.code] op.code.toNat := by
  have hbyte : leBytes 1 op.code.toNat = [op.code] := by simp [leBytes]
  rw [← hbyte]
  exact .integer op.code.toNat_lt

/-- The operations of a transaction are done one after the other. -/
theorem replayOps_eq (log : FileRef) {ops : List LogOp} (hops : ∀ op ∈ ops, op.Loggable)
    (hlength : (ops.flatMap LogOp.encode).length < 2 ^ 32) (st : ReplayState V A) {fuel : Nat}
    {it : PtrIterator} (hit : it.bytes = ops.flatMap LogOp.encode) (hfuel : it.left ≤ fuel) :
    BlueFS.replayOps log fuel it st =
      match ops.foldlM BlueFS.replayOp st.fs with
      | none => .error .assertion
      | some fs => .ok (false, { st with fs }) := by
  induction ops generalizing st fuel it with
  | nil =>
      have hleft : it.left = 0 := by
        rw [← Decoder.length_bytes, hit]
        rfl
      cases fuel <;> · unfold BlueFS.replayOps; rw [if_pos hleft]; rfl
  | cons op ops ih =>
      have hop := hops op List.mem_cons_self
      rw [List.flatMap_cons] at hit hlength
      rw [List.length_append] at hlength
      have hsplit : it.bytes = [op.code] ++ (op.operands ++ ops.flatMap LogOp.encode) := hit
      have hleft := Decoder.length_bytes it
      rw [hsplit, List.length_append, List.length_singleton] at hleft
      obtain ⟨it₁, hcode, hit₁⟩ := decodeOrThrow_decodes (code_decodes op) hsplit
      obtain ⟨d, hd, hdecodes⟩ := LogOp.operands_decode hop.inRange (by omega)
      obtain ⟨it₂, hoperands, hit₂⟩ := decodeOrThrow_decodes hdecodes hit₁
      have hleft₂ := Decoder.length_bytes it₂
      rw [hit₂] at hleft₂
      rw [List.length_append] at hleft
      cases fuel with
      | zero => omega
      | succ fuel =>
          have hrest : ∀ fs : BlueFS V A, BlueFS.replayOps log fuel it₂ { st with fs } =
              match ops.foldlM BlueFS.replayOp fs with
              | none => .error .assertion
              | some fs => .ok (false, { st with fs }) := fun fs =>
            ih (fun x hx => hops x (List.mem_cons_of_mem _ hx)) (by omega) { st with fs } hit₂
              (by omega)
          have hone : BlueFS.replayOps log (fuel + 1) it st =
              match st.fs.replayOp op with
              | none => .error .assertion
              | some fs => BlueFS.replayOps log fuel it₂ { st with fs } := by
            have hplain := hop.plain
            conv_lhs => unfold BlueFS.replayOps
            rw [if_neg (by omega), hcode]
            dsimp only [bind, Except.bind]
            rw [hd]
            dsimp only
            rw [hoperands]
            cases op with
            | jump nextSeq offset => exact hplain.elim
            | jumpSeq nextSeq => exact hplain.elim
            | _ => rfl
          rw [hone, List.foldlM_cons]
          cases st.fs.replayOp op with
          | none => rfl
          | some fs => exact hrest fs

end Operations

/-! ## Transactions -/

/-- The next transaction of the log can be written and read back. -/
structure Transaction.Written (t : Transaction) (uuid : Bytes) : Prop where
  named : t.uuid = uuid
  id : uuid.length = 16
  seq : t.seq < 2 ^ 64 - 1
  ops : ∀ op ∈ t.ops, op.Loggable
  length : t.encode.length < 2 ^ 32

theorem Transaction.Written.opsLength {t : Transaction} {uuid : Bytes} (ht : t.Written uuid) :
    (t.ops.flatMap LogOp.encode).length < 2 ^ 32 := by
  have hlength := ht.length
  unfold Transaction.encode encodeStruct encodeBytes at hlength
  simp only [List.length_append, leBytes_length] at hlength
  omega

/-- The block size of a superblock: a header is in one block. -/
structure BlockSize (blockSize : Nat) : Prop where
  header : 6 ≤ blockSize
  power : blockSize ∣ 2 ^ 31

namespace BlockSize

variable {blockSize : Nat}

theorem pos (h : BlockSize blockSize) : 0 < blockSize := by
  have := h.header
  omega

theorem short (h : BlockSize blockSize) : blockSize ≤ 2 ^ 31 := Nat.le_of_dvd (by decide) h.power

theorem dvd (h : BlockSize blockSize) : blockSize ∣ 2 ^ 63 := h.power.trans (by decide)

/-- A transaction takes whole blocks. -/
theorem roundup (h : BlockSize blockSize) {x : Nat} (hx : x ≤ 2 ^ 63) :
    x ≤ p2roundup x blockSize ∧ blockSize ∣ p2roundup x blockSize :=
  ⟨(p2roundup_bounds hx h.pos h.dvd).1, p2roundup_dvd h.dvd⟩

theorem roundup_le (h : BlockSize blockSize) {x : Nat} (hx : x ≤ 2 ^ 32) :
    p2roundup x blockSize ≤ 2 ^ 32 := by
  have hlt : p2roundup x blockSize < x + blockSize := p2roundup_lt h.pos
  obtain ⟨k, hk⟩ := (h.roundup (show x ≤ 2 ^ 63 by omega)).2
  obtain ⟨c, hc⟩ : blockSize ∣ 2 ^ 32 := h.power.trans (by decide)
  have hkc : k < c + 1 := by
    by_contra hge
    have hmul := Nat.mul_le_mul_left blockSize (not_lt.mp hge)
    rw [Nat.mul_succ] at hmul
    omega
  have hmul := Nat.mul_le_mul_left blockSize (Nat.le_of_lt_succ hkc)
  omega

end BlockSize

section Transactions

variable {blockSize : Nat}

theorem room_eq (h : BlockSize blockSize) {t : Transaction} (ht : t.encode.length < 2 ^ 32) :
    t.room blockSize = p2roundup t.encode.length blockSize := by
  have hle := (h.roundup (show t.encode.length ≤ 2 ^ 63 by omega)).1
  unfold Transaction.room Transaction.padded
  rw [List.length_append, List.length_replicate]
  omega

theorem leNat_lt (bs : Bytes) : leNat bs < 256 ^ bs.length := by
  induction bs with
  | nil => exact Nat.one_pos
  | cons b bs ih =>
      have hb := b.toNat_lt
      rw [leNat, List.length_cons, Nat.pow_succ]
      omega

theorem neededBytes_blocks (h : BlockSize blockSize) (bl : Bytes) :
    6 ≤ BlueFS.neededBytes blockSize bl ∧ blockSize ∣ BlueFS.neededBytes blockSize bl := by
  have hlt := leNat_lt ((bl.drop 2).take 4)
  have hbytes : ((bl.drop 2).take 4).length ≤ 4 := List.length_take_le 4 _
  have hpow := Nat.pow_le_pow_right (show 0 < 256 by decide) hbytes
  obtain ⟨hup, hdvd⟩ := h.roundup (show leNat ((bl.drop 2).take 4) + 6 ≤ 2 ^ 63 by omega)
  exact ⟨(Nat.le_add_left _ _).trans hup, hdvd⟩

/-- The header of a transaction gives the room that it takes. -/
theorem neededBytes_padded (h : BlockSize blockSize) {t : Transaction}
    (ht : t.encode.length < 2 ^ 32) (behind : Bytes) :
    BlueFS.neededBytes blockSize ((t.padded blockSize ++ behind).take blockSize) =
      t.room blockSize := by
  have hheader := h.header
  obtain ⟨body, hencode⟩ : ∃ body, t.encode = [1, 1] ++ (leBytes 4 body.length ++ body) :=
    ⟨_, List.append_assoc _ _ _⟩
  have hlength : t.encode.length = body.length + 6 := by
    rw [hencode]
    simp only [List.length_append, List.length_cons, List.length_nil, leBytes_length]
    omega
  rw [room_eq h ht, hlength, BlueFS.neededBytes, List.drop_take, List.take_take,
    min_eq_left (show 4 ≤ blockSize - 2 by omega), Transaction.padded, hencode]
  simp only [List.append_assoc]
  show p2roundup (leNat ((leBytes 4 body.length ++ _).take 4) + 6) blockSize = _
  rw [List.take_left' (leBytes_length 4 body.length), leNat_leBytes_of_lt (by omega)]

variable [VolumeSelector V] {log : FileRef} {data : Bytes} {st : ReplayState V A} {fuel : Nat}

/-- The replay is at a block of a log that can be read. -/
structure ReplayAt (log : FileRef) (blockSize : Nat) (data : Bytes) (st : ReplayState V A) :
    Prop where
  stored : Stored st.fs log data
  reads : BlockReads st.fs log blockSize
  blocks : st.fs.super.blockSize = blockSize
  short : data.length < 2 ^ 63
  pos : blockSize ∣ st.pos
  apart : LogApart st.fs.nodes log

/-- All the blocks that the header asks for are read, and decoded as one. -/
theorem replayStep_reads (h : BlockSize blockSize) (hst : ReplayAt log blockSize data st) {need : Nat}
    (hneed : BlueFS.neededBytes blockSize ((data.drop st.pos).take blockSize) = need)
    (hin : st.pos + need ≤ data.length) (hmem : need ≤ 2 ^ 32) (hfuel : need ≤ fuel) :
    BlueFS.replayStep log fuel st =
      BlueFS.replayTransaction log need st ((data.drop st.pos).take need) := by
  have hheader := h.header
  have hpos := h.pos
  have hsmall := h.short
  obtain ⟨hup, hdvd⟩ := neededBytes_blocks h ((data.drop st.pos).take blockSize)
  rw [hneed] at hup hdvd
  obtain ⟨m, rfl⟩ := hdvd
  have hone : 1 ≤ m := by
    by_contra hzero
    obtain rfl : m = 0 := by omega
    omega
  have hblock : blockSize * 1 ≤ blockSize * m := Nat.mul_le_mul_left _ hone
  rw [Nat.mul_one] at hblock
  have hlen : min blockSize (data.length - st.pos) = blockSize := by omega
  have hfirst := readBlock_stored hst.stored hst.reads hst.pos (by omega) hpos
  have hlength : ((data.drop st.pos).take blockSize).length = blockSize := by
    rw [List.length_take, List.length_drop]
    omega
  have hturns : m ≤ 1 + fuel := by
    have := Nat.le_mul_of_pos_left m hpos
    omega
  have hmore := readMore_stored hst.stored hst.reads hst.blocks hpos h.dvd
    hst.short hst.pos (by rw [Nat.mul_comm]; exact hin) (by rw [Nat.mul_comm]; exact hmem) hone
    hturns
  rw [Nat.one_mul, Nat.mul_comm m] at hmore
  unfold BlueFS.replayStep
  simp only [hst.blocks, hst.stored.size, hlen, hfirst]
  rw [if_neg (by intro hnil; rw [hnil] at hlength; simp at hlength; omega)]
  unfold BlueFS.replayRead
  rw [hlength, if_neg (by omega), Nat.mod_eq_of_lt (by omega)]
  simp only [hst.blocks, hneed, hmore]

/-- A transaction is decoded from its blocks, its operations in one buffer or none. -/
theorem decodeFront_padded {t : Transaction} {uuid : Bytes} (ht : t.Written uuid) (blockSize : Nat) :
    ∃ opBl, opBl.flatten = t.ops.flatMap LogOp.encode ∧
      StoredTransaction.denc.decodeFront (t.padded blockSize) =
        .ok (⟨t.uuid, t.seq, opBl⟩, t.encode.length) := by
  have hbytes := StoredTransaction.denc_bytes t [t.ops.flatMap LogOp.encode] (by simp)
  have hops := ht.opsLength
  have hrange : StoredTransaction.denc.InRange ⟨t.uuid, t.seq, [t.ops.flatMap LogOp.encode]⟩ := by
    have hseq := ht.seq
    refine ⟨⟨by rw [ht.named]; exact ht.id, fun b _ => b.toNat_lt⟩, ?_, ?_⟩
    · show t.seq < 256 ^ 8
      omega
    · show [t.ops.flatMap LogOp.encode].flatten.length < 2 ^ 32
      rw [List.flatten_singleton]
      exact hops
  have hdecode := Denc.decodeFront_bytes (d := StoredTransaction.denc) trivial
    ⟨trivial, trivial, trivial⟩ hrange (by rw [hbytes]; exact ht.length)
    (List.replicate (p2roundup t.encode.length blockSize - t.encode.length) 0)
  rw [hbytes, StoredTransaction.denc_norm] at hdecode
  refine ⟨_, ?_, hdecode⟩
  simp only [List.flatten_singleton]
  split
  case isTrue hnil => rw [hnil]; rfl
  case isFalse => exact List.flatten_singleton

/-- The next transaction is taken, and its operations are done. -/
theorem replayTransaction_written {t : Transaction} (ht : t.Written st.fs.super.uuid)
    (hseq : t.seq = st.logSeq + 1) (hlog : st.pos + t.room blockSize < 2 ^ 63) :
    BlueFS.replayTransaction log (t.room blockSize) st (t.padded blockSize) =
      match t.ops.foldlM BlueFS.replayOp st.fs with
      | none => .error .assertion
      | some fs => .ok (true,
          { fs, logSeq := st.logSeq + 1, pos := st.pos + t.room blockSize, seenRecs := true }) := by
  obtain ⟨opBl, hflat, hdecode⟩ := decodeFront_padded ht blockSize
  have hops := ht.opsLength
  have hadd : add64 st.logSeq 1 = st.logSeq + 1 := add64_of_lt (by have := ht.seq; omega)
  have hrun := replayOps_eq log ht.ops hops { st with seenRecs := true }
    (Denc.ofBytes_bytes (t.ops.flatMap LogOp.encode)) le_rfl
  unfold BlueFS.replayTransaction
  rw [hdecode]
  simp only [hflat, ht.named, hseq, hadd, ne_eq, not_true, if_false]
  rw [hrun]
  simp only
  cases t.ops.foldlM BlueFS.replayOp st.fs with
  | none => rfl
  | some fs =>
      show Except.ok (true, (ReplayState.mk fs (add64 st.logSeq 1)
        (add64 st.pos (t.room blockSize)) true : ReplayState V A)) = _
      rw [hadd, add64_of_lt (show st.pos + t.room blockSize < 2 ^ 64 by omega)]

end Transactions

/-! ## The log -/

/-- The bytes behind the last transaction are not the next one: they are malformed, carry another
uuid, or are the last one once more. -/
def Rejected (blockSize : Nat) (uuid : Bytes) (seq : Nat) (tail : Bytes) : Prop :=
  match StoredTransaction.denc.decodeFront
    (tail.take (BlueFS.neededBytes blockSize (tail.take blockSize))) with
  | .error e => e = .malformedInput
  | .ok (t, _) => t.uuid ≠ uuid ∨ t.seq = seq

/-- The log ends behind transaction `seq`, or goes on with bytes that are rejected. -/
inductive LogEnds (blockSize : Nat) (uuid : Bytes) (seq : Nat) : Bytes → Prop
  | nothing : LogEnds blockSize uuid seq []
  | rejected {tail : Bytes} (seen : 0 < seq)
      (needed : BlueFS.neededBytes blockSize (tail.take blockSize) ≤ tail.length)
      (short : BlueFS.neededBytes blockSize (tail.take blockSize) ≤ 2 ^ 32)
      (other : Rejected blockSize uuid seq tail) : LogEnds blockSize uuid seq tail

/-- The last transaction written once more is rejected. -/
theorem LogEnds.again {blockSize : Nat} (h : BlockSize blockSize) {t : Transaction} {uuid : Bytes}
    (ht : t.Written uuid) (hseq : 0 < t.seq) :
    LogEnds blockSize uuid t.seq (t.padded blockSize) := by
  have hneed : BlueFS.neededBytes blockSize ((t.padded blockSize).take blockSize) =
      t.room blockSize := by
    have hpadded := neededBytes_padded h ht.length []
    rwa [List.append_nil] at hpadded
  have hshort := h.roundup_le (show t.encode.length ≤ 2 ^ 32 from ht.length.le)
  obtain ⟨opBl, -, hdecode⟩ := decodeFront_padded ht blockSize
  refine .rejected hseq (by rw [hneed]; exact le_rfl) (by rw [hneed, room_eq h ht.length]; exact hshort)
    ?_
  unfold Rejected
  rw [hneed, Transaction.room, List.take_length, hdecode]
  exact .inr rfl

/-- The bytes of transactions in the log. -/
def logData (blockSize : Nat) (ts : List Transaction) : Bytes :=
  ts.flatMap fun t => t.padded blockSize

/-- Transactions that follow number `seq` in the log of `uuid`. -/
structure InOrder (uuid : Bytes) (seq : Nat) (ts : List Transaction) : Prop where
  written : ∀ t ∈ ts, t.Written uuid
  numbered : ∀ i t, ts[i]? = some t → t.seq = seq + i + 1

section Log

variable [VolumeSelector V] {blockSize : Nat} {log : FileRef} {data : Bytes}

theorem logData_length (blockSize : Nat) (ts : List Transaction) :
    (logData blockSize ts).length = total (Transaction.room blockSize) ts := by
  induction ts with
  | nil => rfl
  | cons t ts ih =>
      rw [logData, List.flatMap_cons, List.length_append, total_cons, ← ih]
      rfl

theorem InOrder.tail {uuid : Bytes} {seq : Nat} {t : Transaction} {ts : List Transaction}
    (h : InOrder uuid seq (t :: ts)) : InOrder uuid (seq + 1) ts := by
  refine ⟨fun x hx => h.written x (List.mem_cons_of_mem _ hx), fun i x hx => ?_⟩
  have hseq := h.numbered (i + 1) x (by rw [List.getElem?_cons_succ]; exact hx)
  omega

omit [VolumeSelector V] in
/-- The replay reads on where it has read. -/
theorem ReplayAt.keeps {st : ReplayState V A} (h : ReplayAt log blockSize data st) {fs : BlueFS V A}
    (hfs : KeepsReading st.fs fs log) (logSeq : Nat) {pos : Nat} (hpos : blockSize ∣ pos)
    (seenRecs : Bool) : ReplayAt log blockSize data { fs, logSeq, pos, seenRecs } := by
  have hbyte : ∀ y, fs.byte y = st.fs.byte y := fun y => by
    rw [BlueFS.byte, BlueFS.byte, hfs.bdev]
  refine ⟨⟨?_, ?_, ?_, fun i y hi hy => ?_⟩, ⟨?_, ?_⟩, ?_, h.short, hpos, hfs.apart⟩
  · show (fs.nodes.files log).fnode.Indexed
    rw [hfs.fnode]
    exact h.stored.indexed
  · show (fs.nodes.files log).fnode.size = _
    rw [hfs.fnode]
    exact h.stored.size
  · show _ ≤ (fs.nodes.files log).fnode.allocated
    rw [hfs.fnode]
    exact h.stored.room
  · change place (fs.nodes.files log).fnode.extents i = some y at hy
    rw [hfs.fnode] at hy
    exact (hbyte y).trans (h.stored.bytes i y hi hy)
  · show ∀ e ∈ (fs.nodes.files log).fnode.extents, _
    rw [hfs.fnode]
    exact h.reads.blocks
  · show ∀ e ∈ (fs.nodes.files log).fnode.extents, ∃ d, fs.bdev e.bdev = some d ∧ _
    rw [hfs.fnode, hfs.bdev]
    exact h.reads.reads
  · show fs.super.blockSize = blockSize
    rw [hfs.super]
    exact h.blocks

/-- Bytes that are rejected end the replay, and change nothing. -/
theorem replayTransaction_rejected {st : ReplayState V A} {uuid tail : Bytes}
    (huuid : st.fs.super.uuid = uuid) (hseen : st.seenRecs = true) (hseq : st.logSeq < 2 ^ 64 - 1)
    (h : Rejected blockSize uuid st.logSeq tail) :
    BlueFS.replayTransaction log (BlueFS.neededBytes blockSize (tail.take blockSize)) st
      (tail.take (BlueFS.neededBytes blockSize (tail.take blockSize))) = .ok (false, st) := by
  have hstop : BlueFS.stopReplay st = .ok (false, st) := if_pos hseen
  unfold Rejected at h
  unfold BlueFS.replayTransaction
  cases hdecode : StoredTransaction.denc.decodeFront
      (tail.take (BlueFS.neededBytes blockSize (tail.take blockSize))) with
  | error e =>
      rw [hdecode] at h
      obtain rfl : e = .malformedInput := h
      exact hstop
  | ok r =>
      rw [hdecode] at h
      obtain ⟨t, off⟩ := r
      simp only
      by_cases hother : t.uuid ≠ st.fs.super.uuid
      · rw [if_pos hother]
        exact hstop
      · have hlast : t.seq = st.logSeq := by
          rcases h with h | h
          · rw [← huuid] at h
            exact absurd h hother
          · exact h
        rw [if_neg hother, if_pos (by rw [hlast, add64_of_lt (by omega)]; omega), if_pos hlast]

/-- The loop of the replay, by induction on the transactions that are still to be read. -/
theorem replayLoop_written (h : BlockSize blockSize) {ts : List Transaction} {tail : Bytes}
    {st : ReplayState V A} (hst : ReplayAt log blockSize data st)
    (hdata : data.drop st.pos = logData blockSize ts ++ tail) (hpos : st.pos ≤ data.length)
    (hts : InOrder st.fs.super.uuid st.logSeq ts) (hseen : 0 < st.logSeq → st.seenRecs = true)
    (hcount : st.logSeq + ts.length < 2 ^ 64 - 1)
    (htail : LogEnds blockSize st.fs.super.uuid (st.logSeq + ts.length) tail) {fuel n : Nat}
    (hfuel : data.length ≤ fuel) (hn : ts.length < n) :
    (BlueFS.replayLoop log fuel n st).map (fun st => st.fs.endReplay log st.logSeq st.pos) =
      match (ts.flatMap Transaction.ops).foldlM BlueFS.replayOp st.fs with
      | none => .error .assertion
      | some fs => .ok (fs.endReplay log (st.logSeq + ts.length)
          (st.pos + total (Transaction.room blockSize) ts)) := by
  induction ts generalizing st n with
  | nil =>
      cases n with
      | zero => exact absurd hn (Nat.not_lt_zero _)
      | succ n =>
          change data.drop st.pos = tail at hdata
          have hend : ∀ st' : ReplayState V A, st' = st →
              (Except.ok st' : Except ReplayError _).map (fun st : ReplayState V A =>
                st.fs.endReplay log st.logSeq st.pos) =
              .ok (st.fs.endReplay log (st.logSeq + 0) (st.pos + 0)) := by
            rintro _ rfl
            rfl
          unfold BlueFS.replayLoop
          rw [hst.stored.size]
          cases htail with
          | nothing =>
              have hlength := congrArg List.length hdata
              rw [List.length_drop, List.length_nil] at hlength
              rw [if_neg (by omega)]
              exact hend st rfl
          | rejected seen needed short other =>
              rw [← hdata] at needed short other
              have hlength := needed
              rw [List.length_drop] at hlength
              have hturns : BlueFS.neededBytes blockSize ((data.drop st.pos).take blockSize) ≤ fuel :=
                by omega
              have hstep := replayStep_reads h hst rfl (by omega) short hturns
              have hraw := (neededBytes_blocks h ((data.drop st.pos).take blockSize)).1
              rw [if_pos (by omega), hstep, replayTransaction_rejected rfl (hseen seen) hcount other]
              exact hend st rfl
  | cons t ts ih =>
      have ht := hts.written t List.mem_cons_self
      have hseq : t.seq = st.logSeq + 1 := hts.numbered 0 t rfl
      have hroom := t.room_pos blockSize
      have hround := h.roundup (show t.encode.length ≤ 2 ^ 63 by have := ht.length; omega)
      have hmem := h.roundup_le (show t.encode.length ≤ 2 ^ 32 by have := ht.length; omega)
      rw [← room_eq h ht.length] at hround hmem
      have hsplit : data.drop st.pos = t.padded blockSize ++ (logData blockSize ts ++ tail) := by
        rw [hdata, logData, List.flatMap_cons, List.append_assoc]
        rfl
      have hlength := congrArg List.length hsplit
      rw [List.length_drop, List.length_append] at hlength
      change _ = t.room blockSize + _ at hlength
      have hneed : BlueFS.neededBytes blockSize ((data.drop st.pos).take blockSize) =
          t.room blockSize := by
        rw [hsplit]
        exact neededBytes_padded h ht.length _
      have htake : (data.drop st.pos).take (t.room blockSize) = t.padded blockSize := by
        rw [hsplit]
        exact List.take_left
      have hshort := hst.short
      have hturns : t.room blockSize ≤ fuel := by omega
      have hstep := replayStep_reads h hst hneed (by omega) hmem hturns
      rw [htake, replayTransaction_written ht hseq (by omega)] at hstep
      have hdrop : data.drop (st.pos + t.room blockSize) = logData blockSize ts ++ tail := by
        rw [← List.drop_drop, hsplit]
        exact List.drop_left
      cases n with
      | zero => exact absurd hn (Nat.not_lt_zero _)
      | succ n =>
          unfold BlueFS.replayLoop
          rw [if_pos (by rw [hst.stored.size]; omega), hstep, List.flatMap_cons, List.foldlM_append]
          cases hops : t.ops.foldlM BlueFS.replayOp st.fs with
          | none => rfl
          | some fs =>
              have hkeep := replayed_keepsReading hst.apart (fun op hop => (ht.ops op hop).plain) hops
              have hnext := ih (n := n)
                (hst.keeps hkeep (st.logSeq + 1) (Nat.dvd_add hst.pos hround.2) true) hdrop
                (by show st.pos + _ ≤ _; omega)
                (by
                  show InOrder fs.super.uuid _ _
                  rw [hkeep.super]
                  exact hts.tail)
                (fun _ => rfl)
                (by rw [List.length_cons] at hcount; show st.logSeq + 1 + _ < _; omega)
                (by
                  show LogEnds blockSize fs.super.uuid (st.logSeq + 1 + _) tail
                  rw [hkeep.super, Nat.add_assoc, Nat.add_comm 1]
                  exact htail)
                (by rw [List.length_cons] at hn; omega)
              have hseqs : st.logSeq + 1 + ts.length = st.logSeq + (ts.length + 1) := by omega
              rw [total_cons, List.length_cons, ← hseqs, ← Nat.add_assoc]
              exact hnext

theorem count_le_logData (blockSize : Nat) (ts : List Transaction) :
    ts.length ≤ (logData blockSize ts).length := by
  rw [logData_length]
  induction ts with
  | nil => exact Nat.zero_le _
  | cons t ts ih =>
      have hroom := t.room_pos blockSize
      rw [total_cons, List.length_cons]
      omega

/-- `_replay` does the operations of the transactions that were written, and of nothing else. -/
theorem replayLog_eq (h : BlockSize blockSize) {s : BlueFS V A} {ts : List Transaction}
    {tail : Bytes} (hs : ReplayAt log blockSize (logData blockSize ts ++ tail) { fs := s })
    (hts : InOrder s.super.uuid 0 ts) (htail : LogEnds blockSize s.super.uuid ts.length tail)
    {fuel : Nat} (hfuel : (logData blockSize ts ++ tail).length < fuel) :
    s.replayLog log fuel =
      match s.replay log (ts.flatMap Transaction.ops) ts.length
        (total (Transaction.room blockSize) ts) with
      | none => .error .assertion
      | some s' => .ok s' := by
  unfold BlueFS.replayLog BlueFS.replay
  split
  case isTrue => rfl
  case isFalse =>
    have hshort : (logData blockSize ts ++ tail).length < 2 ^ 63 := hs.short
    have hcount := count_le_logData blockSize ts
    have hlength : (logData blockSize ts ++ tail).length =
        (logData blockSize ts).length + tail.length := List.length_append
    have hends : LogEnds blockSize s.super.uuid (0 + ts.length) tail := by
      rw [Nat.zero_add]
      exact htail
    have hloop := replayLoop_written (n := fuel) h hs rfl (Nat.zero_le _) hts
      (fun hpos => absurd hpos (lt_irrefl 0)) (show 0 + ts.length < 2 ^ 64 - 1 by omega) hends
      hfuel.le (by omega)
    rw [hloop]
    show (match (ts.flatMap Transaction.ops).foldlM BlueFS.replayOp s with
      | none => _ | some fs => _) = _
    cases (ts.flatMap Transaction.ops).foldlM BlueFS.replayOp s with
    | none => rfl
    | some fs =>
        show Except.ok (fs.endReplay log (0 + ts.length) (0 + _)) = _
        rw [Nat.zero_add, Nat.zero_add]
        rfl

end Log

end Clab.Bluefs
