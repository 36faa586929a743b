import Clab.Bluefs.AppendRead
import Clab.Bluefs.FnodeIndex

/-!
# Sequential reads

`_read` goes through a buffer that starts at a block and is refilled from the one
extent that holds the start of that block. It returns what `_read_random` returns
for every range of a file exactly when every extent starts at a block of the file.
-/

namespace Clab.Bluefs

open Blk Common Segments

/-- `FileReaderBuffer`. -/
structure FileReaderBuffer where
  blOff : Nat := 0
  bl : Bytes := []
  pos : Nat := 0
  maxPrefetch : Nat := 0

/-- `get_buf_end`. -/
def FileReaderBuffer.bufEnd (b : FileReaderBuffer) : Nat := b.blOff + b.bl.length

/-- `get_buf_remaining`. -/
def FileReaderBuffer.bufRemaining (b : FileReaderBuffer) (p : Nat) : Nat :=
  if b.blOff ≤ p ∧ p < b.blOff + b.bl.length then b.blOff + b.bl.length - p else 0

/-- `off & block_mask`, where the block size is a power of two. -/
def blockStart (blockSize off : Nat) : Nat := off - off % blockSize

/-- The length of the read on a miss at `off`, from position `x` of extent `p` on. -/
def Fnode.refillLength (f : Fnode) (blockSize maxPrefetch : Nat) (ignoreEof : Bool)
    (off len x : Nat) (p : Extent) : Nat :=
  let want := max (p2roundup (len + off % blockSize) blockSize) maxPrefetch
  let l := min (min (p.length - x) want) (2 ^ 30)
  let eofOffset := p2roundup f.size blockSize
  if !ignoreEof ∧ eofOffset < blockStart blockSize off + l
  then eofOffset - blockStart blockSize off else l

/-! ## Blocks -/

section Blocks

variable {blockSize off m : Nat}

theorem blockStart_dvd (blockSize off : Nat) : blockSize ∣ blockStart blockSize off :=
  Nat.dvd_sub_mod off

theorem blockStart_le (blockSize off : Nat) : blockStart blockSize off ≤ off := Nat.sub_le _ _

theorem blockStart_add (blockSize off : Nat) :
    blockStart blockSize off + off % blockSize = off :=
  Nat.sub_add_cancel (Nat.mod_le _ _)

/-- A block border at or before a position is at or before its block. -/
theorem le_blockStart (hm : blockSize ∣ m) (hle : m ≤ off) : m ≤ blockStart blockSize off := by
  obtain ⟨q, rfl⟩ := hm
  have hdiv := Nat.div_add_mod off blockSize
  have hstart := blockStart_add blockSize off
  rcases Nat.eq_zero_or_pos blockSize with rfl | hpos
  · rw [Nat.zero_mul]
    exact Nat.zero_le _
  · have hq : q ≤ off / blockSize := (Nat.le_div_iff_mul_le hpos).mpr (by rwa [Nat.mul_comm])
    have hmul := Nat.mul_le_mul_left blockSize hq
    omega

/-- A block border behind a position is behind its block. -/
theorem blockStart_add_le (hm : blockSize ∣ m) (hlt : off < m) :
    blockStart blockSize off + blockSize ≤ m := by
  obtain ⟨q, rfl⟩ := hm
  have hdiv := Nat.div_add_mod off blockSize
  have hstart := blockStart_add blockSize off
  have hq : off / blockSize + 1 ≤ q := by
    by_contra hno
    have hmul := Nat.mul_le_mul_left blockSize (show q ≤ off / blockSize by omega)
    have hmod := Nat.mod_le off blockSize
    omega
  have hmul := Nat.mul_le_mul_left blockSize hq
  rw [Nat.mul_add, Nat.mul_one] at hmul
  omega

end Blocks

variable {V A : Type}

namespace BlueFS

/-- Are reads of the file buffered? The log is read directly. -/
def usesBuffered (s : BlueFS V A) (r : FileRef) : Bool :=
  if (s.nodes.files r).fnode.ino = 1 then false else s.cfg.bufferedIo

/-- The loop of `_read`: the result, the bytes put out, the buffer and the state; `none` is a loop
that outlives its fuel, or a device that is not there. -/
def readLoop (s : BlueFS V A) (r : FileRef) (ignoreEof : Bool) :
    Nat → FileReaderBuffer → Nat → Nat → Option (Int × Bytes × FileReaderBuffer × BlueFS V A)
  | 0, buf, _, len => if len = 0 then some (0, [], buf, s) else none
  | fuel + 1, buf, off, len =>
      if len = 0 then some (0, [], buf, s)
      else if off < buf.blOff ∨ buf.bufEnd ≤ off then
        -- a miss: the buffer is cleared and refilled, and the loop tries again
        let fnode := (s.nodes.files r).fnode
        let buf := { buf with bl := [], blOff := blockStart s.super.blockSize off }
        match fnode.seek buf.blOff with
        | none => some (0, [], buf, s)
        | some (i, x) =>
            match fnode.extents[i]? with
            | none => none
            | some p =>
                match s.bdev p.bdev with
                | none => none
                | some d =>
                    let l := fnode.refillLength s.super.blockSize buf.maxPrefetch ignoreEof off len x p
                    let (res, bytes, d) := d.read (p.offset + x) l (s.usesBuffered r)
                    let s := s.setDevice p.bdev d
                    if res < 0 then some (res, [], { buf with bl := bytes }, s)
                    else readLoop s r ignoreEof fuel { buf with bl := bytes } off len
      else
        let n := min len (buf.bufRemaining off)
        (readLoop s r ignoreEof fuel { buf with pos := buf.pos + n } (off + n) (len - n)).map
          fun (ret, rest, buf', s) =>
            (if ret < 0 then ret else n + ret, (buf.bl.drop (off - buf.blOff)).take n ++ rest, buf', s)

/-- `_read`. -/
def read (s : BlueFS V A) (r : FileRef) (ignoreEof : Bool) (fuel : Nat) (buf : FileReaderBuffer)
    (off len : Nat) : Option (Int × Bytes × FileReaderBuffer × BlueFS V A) :=
  let size := (s.nodes.files r).fnode.size
  let len := if !ignoreEof ∧ size < off + len then size - off else len
  s.readLoop r ignoreEof fuel buf off len

end BlueFS

/-! ## Extents by their positions -/

namespace Fnode

/-- Extent `i` is `e`, and starts at position `start`. -/
structure Segment (f : Fnode) (i start : Nat) (e : Extent) : Prop where
  get : f.extents[i]? = some e
  sum : total Extent.length (f.extents.take i) = start

namespace Segment

variable {f : Fnode} {i j start start' off : Nat} {e e' : Extent}

theorem place_eq (h : f.Segment i start e) (hle : start ≤ off) (hlt : off < start + e.length) :
    place f.extents off = some (e.bdev, e.offset + (off - start)) := by
  have hplace := place_extent h.get (show off - start < e.length by omega)
  rwa [h.sum, Nat.add_sub_cancel' hle] at hplace

/-- A segment before another ends where that starts, or earlier. -/
theorem le_of_lt (h : f.Segment i start e) (h' : f.Segment j start' e') (hij : i < j) :
    start + e.length ≤ start' := by
  have hle := total_take_le hij h.get
  rwa [h.sum, h'.sum] at hle

theorem unique (h : f.Segment i start e) (h' : f.Segment j start' e') (hle : start ≤ off)
    (hlt : off < start + e.length) (hle' : start' ≤ off) (hlt' : off < start' + e'.length) :
    start = start' ∧ e = e' := by
  rcases Nat.lt_trichotomy i j with hij | rfl | hji
  · have := h.le_of_lt h' hij
    omega
  · exact ⟨h.sum.symm.trans h'.sum, Option.some.inj (h.get.symm.trans h'.get)⟩
  · have := h'.le_of_lt h hji
    omega

end Segment

/-- `seek` finds the segment of a position. -/
theorem Indexed.seek_segment {f : Fnode} (h : f.Indexed) {off : Nat} (hoff : off < f.allocated) :
    ∃ i start e, f.Segment i start e ∧ start ≤ off ∧ off < start + e.length ∧
      f.seek off = some (i, off - start) := by
  obtain ⟨i, x, e, hseek, he, hx, hflat⟩ := h.seek hoff
  exact ⟨i, _, e, ⟨he, rfl⟩, by omega, by omega, by rw [hseek]; congr 2; omega⟩

end Fnode

/-! ## A read that cannot go on -/

namespace Fnode

/-- A refill reads no further than its extent. -/
theorem refillLength_le (f : Fnode) (blockSize maxPrefetch : Nat) (ignoreEof : Bool)
    (off len x : Nat) (p : Extent) :
    f.refillLength blockSize maxPrefetch ignoreEof off len x p ≤ p.length - x := by
  unfold refillLength
  simp only
  split <;> omega

end Fnode

theorem read_length_le (d : KernelDevice) (off len : Nat) (buffered : Bool) :
    (d.read off len buffered).2.1.length ≤ len := by
  unfold KernelDevice.read
  split
  · exact Nat.zero_le _
  · cases d.fault with
    | none => exact (Content.read_length _ _ _).le
    | some n => exact Nat.zero_le _

section Stuck

variable {s : BlueFS V A} {r : FileRef} {f : Fnode} {i start : Nat} {e : Extent}

/-- At the start of an extent inside a block, every refill ends where it is needed. -/
theorem readLoop_stuck (hfile : (s.nodes.files r).fnode = f) (hindexed : f.Indexed)
    (hseg : f.Segment i start e) (hinside : ¬ s.super.blockSize ∣ start)
    (hstart : start < f.allocated) {fuel : Nat} {buf buf' : FileReaderBuffer}
    (hmiss : start < buf.blOff ∨ buf.bufEnd ≤ start) {ret : Int} {out : Bytes} {s' : BlueFS V A}
    (hread : s.readLoop r false fuel buf start 1 = some (ret, out, buf', s')) : ret < 0 := by
  induction fuel generalizing s buf with
  | zero => rw [BlueFS.readLoop, if_neg Nat.one_ne_zero] at hread; cases hread
  | succ fuel ih =>
      have hbefore : blockStart s.super.blockSize start < start := by
        refine lt_of_le_of_ne (blockStart_le _ _) fun heq => hinside ?_
        rw [← heq]
        exact blockStart_dvd _ _
      obtain ⟨j, start', e', hseg', hle, hlt, hseek⟩ :=
        hindexed.seek_segment (lt_trans hbefore hstart)
      -- the extent of the block is one before
      have hend : start' + e'.length ≤ start := by
        rcases Nat.lt_trichotomy j i with hji | rfl | hij
        · exact hseg'.le_of_lt hseg hji
        · have := hseg.sum.symm.trans hseg'.sum
          omega
        · have := hseg.le_of_lt hseg' hij
          omega
      unfold BlueFS.readLoop at hread
      rw [if_neg Nat.one_ne_zero, if_pos hmiss] at hread
      simp only [hfile, hseek, hseg'.get] at hread
      cases hd : s.bdev e'.bdev with
      | none => rw [hd] at hread; cases hread
      | some d =>
          rw [hd] at hread
          generalize hl : f.refillLength s.super.blockSize buf.maxPrefetch false start 1
            (blockStart s.super.blockSize start - start') e' = l at hread
          have hlen := f.refillLength_le s.super.blockSize buf.maxPrefetch false start 1
            (blockStart s.super.blockSize start - start') e'
          have hbytes := read_length_le d (e'.offset + (blockStart s.super.blockSize start - start')) l
            (s.usesBuffered r)
          simp only at hread
          split at hread
          case isTrue hneg =>
            obtain ⟨rfl, -⟩ := Prod.mk.inj (Option.some.inj hread)
            exact hneg
          case isFalse =>
            have hend' : blockStart s.super.blockSize start + (d.read (e'.offset +
                (blockStart s.super.blockSize start - start')) l (s.usesBuffered r)).2.1.length ≤
              start := by omega
            refine ih (s := s.setDevice e'.bdev _) hfile hinside ?_ hread
            exact .inr hend'

/-- A refill that the device does not take ends the read. -/
theorem readLoop_invalid {fuel off : Nat} {buf buf' : FileReaderBuffer}
    (hmiss : off < buf.blOff ∨ buf.bufEnd ≤ off) {x : Nat} {d : KernelDevice}
    (hseek : (s.nodes.files r).fnode.seek (blockStart s.super.blockSize off) = some (i, x))
    (hget : (s.nodes.files r).fnode.extents[i]? = some e) (hd : s.bdev e.bdev = some d)
    (hdirect : s.usesBuffered r = false)
    (hinvalid : d.isValidIo (e.offset + x) ((s.nodes.files r).fnode.refillLength s.super.blockSize
      buf.maxPrefetch false off 1 x e) = false) {ret : Int} {out : Bytes} {s' : BlueFS V A}
    (hread : s.readLoop r false fuel buf off 1 = some (ret, out, buf', s')) : ret < 0 := by
  cases fuel with
  | zero => rw [BlueFS.readLoop, if_neg Nat.one_ne_zero] at hread; cases hread
  | succ fuel =>
      unfold BlueFS.readLoop at hread
      rw [if_neg Nat.one_ne_zero, if_pos hmiss] at hread
      simp only [hseek, hget, hd, KernelDevice.read, hdirect, hinvalid] at hread
      rw [if_pos (show (!false && !false) = true from rfl),
        if_pos (show -einval < (0 : Int) by decide)] at hread
      obtain ⟨rfl, -⟩ := Prod.mk.inj (Option.some.inj hread)
      exact show -einval < (0 : Int) by decide

end Stuck

/-! ## What the buffer holds -/

section Filled

variable {s : BlueFS V A} {r : FileRef} {buf : FileReaderBuffer}

/-- The buffer is empty, or it holds bytes of one extent from a block on, as the device gave
them. -/
def Filled (s : BlueFS V A) (r : FileRef) (buf : FileReaderBuffer) : Prop :=
  buf.bl = [] ∨ ∃ i start e, (s.nodes.files r).fnode.Segment i start e ∧
    s.super.blockSize ∣ buf.blOff ∧ start ≤ buf.blOff ∧ buf.bufEnd ≤ start + e.length ∧
    (∀ k < buf.bl.length, s.byte (e.bdev, e.offset + (buf.blOff + k - start)) = buf.bl[k]?) ∧
    (s.usesBuffered r = true ∨ ∀ d, s.bdev e.bdev = some d →
      d.isValidIo (e.offset + (buf.blOff - start)) buf.bl.length = true)

/-- A device that was read has its bytes and its size. -/
structure SameMedium (d d' : KernelDevice) : Prop where
  volatile : d'.volatile = d.volatile
  valid : d'.isValidIo = d.isValidIo

theorem read_sameMedium (d : KernelDevice) (off len : Nat) (buffered : Bool) :
    SameMedium d (d.read off len buffered).2.2 := by
  unfold KernelDevice.read
  split
  · exact ⟨rfl, rfl⟩
  · cases d.fault <;> exact ⟨rfl, rfl⟩

theorem SameMedium.byte {d d' : KernelDevice} (h : SameMedium d d') {id : Nat}
    (hd : s.bdev id = some d) (y : Nat × Nat) : (s.setDevice id d').byte y = s.byte y := by
  unfold BlueFS.byte BlueFS.setDevice
  simp only
  by_cases hid : y.1 = id
  · rw [hid, Function.update_self, hd, Option.map_some, Option.map_some, h.volatile]
  · rw [Function.update_of_ne hid]

/-- A device after a read takes what it took before. -/
theorem SameMedium.takes {d d' : KernelDevice} (h : SameMedium d d') {id id' : Nat}
    (hd : s.bdev id = some d) {off len : Nat}
    (htakes : ∀ d, s.bdev id' = some d → d.isValidIo off len = true) (d₁ : KernelDevice)
    (hd₁ : (s.setDevice id d').bdev id' = some d₁) : d₁.isValidIo off len = true := by
  unfold BlueFS.setDevice at hd₁
  simp only at hd₁
  by_cases hid : id' = id
  · rw [hid, Function.update_self] at hd₁
    rw [← Option.some.inj hd₁, h.valid]
    exact htakes d (by rw [hid]; exact hd)
  · rw [Function.update_of_ne hid] at hd₁
    exact htakes d₁ hd₁

theorem Filled.after_read {d d' : KernelDevice} (h : Filled s r buf) (hsame : SameMedium d d')
    {id : Nat} (hd : s.bdev id = some d) : Filled (s.setDevice id d') r buf := by
  rcases h with hempty | ⟨i, start, e, hseg, hblock, hle, hend, hbytes, htakes⟩
  · exact .inl hempty
  · refine .inr ⟨i, start, e, hseg, hblock, hle, hend, fun k hk => ?_, ?_⟩
    · rw [hsame.byte hd]
      exact hbytes k hk
    · rcases htakes with hbuffered | htakes
      · exact .inl hbuffered
      · exact .inr (hsame.takes hd htakes)

/-- A refill fills the buffer. -/
theorem filled_refill {i start off l : Nat} {e : Extent} {d : KernelDevice}
    (hseg : (s.nodes.files r).fnode.Segment i start e)
    (hle : start ≤ blockStart s.super.blockSize off)
    (hl : l ≤ e.length - (blockStart s.super.blockSize off - start))
    (hlt : blockStart s.super.blockSize off < start + e.length) (hd : s.bdev e.bdev = some d)
    (buf : FileReaderBuffer) :
    Filled (s.setDevice e.bdev (d.read (e.offset + (blockStart s.super.blockSize off - start)) l
      (s.usesBuffered r)).2.2) r
      { buf with
        blOff := blockStart s.super.blockSize off
        bl := (d.read (e.offset + (blockStart s.super.blockSize off - start)) l
          (s.usesBuffered r)).2.1 } := by
  have hsame := read_sameMedium d (e.offset + (blockStart s.super.blockSize off - start)) l
    (s.usesBuffered r)
  generalize hb : blockStart s.super.blockSize off = b at *
  have hblock : s.super.blockSize ∣ b := by
    rw [← hb]
    exact blockStart_dvd _ _
  by_cases hempty : (d.read (e.offset + (b - start)) l (s.usesBuffered r)).2.1 = []
  · exact .inl hempty
  -- the device gave all that it was asked for
  have hread : (d.read (e.offset + (b - start)) l (s.usesBuffered r)).2.1 =
      d.volatile.read (e.offset + (b - start)) l ∧
      (s.usesBuffered r = true ∨ d.isValidIo (e.offset + (b - start)) l = true) := by
    unfold KernelDevice.read at hempty ⊢
    split
    case isTrue hinvalid => rw [if_pos hinvalid] at hempty; exact absurd rfl hempty
    case isFalse hvalid =>
      rw [if_neg hvalid] at hempty
      cases hfault : d.fault with
      | some n => rw [hfault] at hempty; exact absurd rfl hempty
      | none => exact ⟨rfl, by simpa [or_iff_not_imp_left] using hvalid⟩
  obtain ⟨hbytes, htakes⟩ := hread
  have hlength : (d.read (e.offset + (b - start)) l (s.usesBuffered r)).2.1.length = l := by
    rw [hbytes, Content.read_length]
  refine .inr ⟨i, start, e, hseg, hblock, hle, ?_, fun k hk => ?_, ?_⟩
  · show b + _ ≤ start + e.length
    rw [hlength]
    omega
  · simp only at hk ⊢
    rw [hlength] at hk
    rw [hsame.byte hd, BlueFS.byte, hd, Option.map_some, hbytes, Content.read, List.getElem?_map,
      List.getElem?_range hk, Option.map_some]
    congr 2
    omega
  · rcases htakes with hbuffered | hvalid
    · exact .inl hbuffered
    · refine .inr (hsame.takes hd fun d₁ hd₁ => ?_)
      obtain rfl : d = d₁ := Option.some.inj (hd.symm.trans hd₁)
      rw [hlength]
      exact hvalid

/-- Every read leaves the buffer filled from the file. -/
theorem readLoop_filled (hindexed : (s.nodes.files r).fnode.Indexed) (hbuf : Filled s r buf)
    {ignoreEof : Bool} {fuel off len : Nat} {ret : Int} {out : Bytes} {buf' : FileReaderBuffer}
    {s' : BlueFS V A}
    (hread : s.readLoop r ignoreEof fuel buf off len = some (ret, out, buf', s')) :
    Filled s' r buf' := by
  induction fuel generalizing s buf off len ret out with
  | zero =>
      rw [BlueFS.readLoop] at hread
      split at hread
      · obtain ⟨-, -, rfl, rfl⟩ := by simpa only [Option.some.injEq, Prod.mk.injEq] using hread
        exact hbuf
      · cases hread
  | succ fuel ih =>
      unfold BlueFS.readLoop at hread
      split at hread
      · obtain ⟨-, -, rfl, rfl⟩ := by simpa only [Option.some.injEq, Prod.mk.injEq] using hread
        exact hbuf
      · split at hread
        case isTrue =>
          simp only at hread
          by_cases hend : blockStart s.super.blockSize off < (s.nodes.files r).fnode.allocated
          · obtain ⟨i, start, e, hseg, hle, hlt, hseek⟩ := hindexed.seek_segment hend
            rw [hseek] at hread
            simp only [hseg.get] at hread
            cases hd : s.bdev e.bdev with
            | none => rw [hd] at hread; cases hread
            | some d =>
                rw [hd] at hread
                have hfilled := filled_refill hseg hle ((s.nodes.files r).fnode.refillLength_le
                  s.super.blockSize buf.maxPrefetch ignoreEof off len
                  (blockStart s.super.blockSize off - start) e) hlt hd buf
                simp only at hread
                split at hread
                · obtain ⟨-, -, rfl, rfl⟩ := by
                    simpa only [Option.some.injEq, Prod.mk.injEq] using hread
                  exact hfilled
                · exact ih (s := s.setDevice e.bdev _) hindexed hfilled hread
          · have hnone : (s.nodes.files r).fnode.seek (blockStart s.super.blockSize off) = none :=
              if_pos (.inr (Nat.le_of_not_lt hend))
            rw [hnone] at hread
            obtain ⟨-, -, rfl, rfl⟩ := by simpa only [Option.some.injEq, Prod.mk.injEq] using hread
            exact .inl rfl
        case isFalse =>
          obtain ⟨⟨ret', out', buf₁, s₁⟩, hrest, heq⟩ := Option.map_eq_some_iff.mp hread
          obtain ⟨-, -, rfl, rfl⟩ := by simpa only [Prod.mk.injEq] using heq
          refine ih hindexed ?_ hrest
          exact hbuf

end Filled

/-! ## A file in blocks -/

/-- Every extent that starts below the size starts at a block of the file, and the device takes a
direct read of what it holds below the end of the last block. -/
def InBlocks (s : BlueFS V A) (r : FileRef) : Prop :=
  let f := (s.nodes.files r).fnode
  ∀ i start e, f.Segment i start e → start < f.size → s.super.blockSize ∣ start ∧
    (s.usesBuffered r = true ∨ ∀ d, s.bdev e.bdev = some d →
      d.isValidIo e.offset (min e.length (p2roundup f.size s.super.blockSize - start)) = true)

/-- A file that holds its data on devices that answer; blocks are those of the devices. -/
structure Readable (s : BlueFS V A) (r : FileRef) (data : Bytes) : Prop where
  stored : Stored s r data
  full : Fnode.Full (s.nodes.files r).fnode.extents
  block : ∃ k ≤ 30, s.super.blockSize = 2 ^ k
  short : data.length + s.super.blockSize ≤ 2 ^ 63
  device : ∀ e ∈ (s.nodes.files r).fnode.extents, ∀ d, s.bdev e.bdev = some d →
    d.blockSize = s.super.blockSize ∧ e.offset + e.length ≤ d.size
  quiet : NoFaults s

section Reads

variable {s : BlueFS V A} {r : FileRef} {data : Bytes} {buf : FileReaderBuffer}

theorem Readable.block_dvd (h : Readable s r data) :
    0 < s.super.blockSize ∧ s.super.blockSize ∣ 2 ^ 30 ∧ s.super.blockSize ∣ 2 ^ 63 ∧
      s.super.blockSize ≤ 2 ^ 30 := by
  obtain ⟨k, hk, heq⟩ := h.block
  rw [heq]
  exact ⟨Nat.two_pow_pos k, Nat.pow_dvd_pow 2 hk, Nat.pow_dvd_pow 2 (by omega),
    Nat.pow_le_pow_right (by decide) hk⟩

theorem Readable.spend (h : Readable s r data) {id : Nat} {d : KernelDevice}
    (hd : s.bdev id = some d) : Readable (s.setDevice id d.spend) r data := by
  refine ⟨h.stored.spend hd, h.full, h.block, h.short, fun e he d₁ hd₁ => ?_, h.quiet.of_spend hd⟩
  unfold BlueFS.setDevice at hd₁
  simp only at hd₁
  by_cases hid : e.bdev = id
  · rw [hid, Function.update_self] at hd₁
    rw [← Option.some.inj hd₁]
    exact h.device e he d (by rw [hid]; exact hd)
  · rw [Function.update_of_ne hid] at hd₁
    exact h.device e he d₁ hd₁

theorem InBlocks.spend (h : InBlocks s r) {id : Nat} {d : KernelDevice}
    (hd : s.bdev id = some d) : InBlocks (s.setDevice id d.spend) r := by
  intro i start e hseg hlt
  obtain ⟨hblock, htakes⟩ := h i start e hseg hlt
  have hsame : SameMedium d d.spend := ⟨rfl, rfl⟩
  exact ⟨hblock, htakes.imp_right (hsame.takes hd)⟩

/-- The device of a position of the file is there, and its next call succeeds. -/
theorem Readable.segment (h : Readable s r data) {off : Nat} (hoff : off < data.length) :
    ∃ i start e d, (s.nodes.files r).fnode.Segment i start e ∧ start ≤ off ∧
      off < start + e.length ∧ (s.nodes.files r).fnode.seek off = some (i, off - start) ∧
      s.bdev e.bdev = some d ∧ d.fault = none := by
  obtain ⟨i, start, e, hseg, hle, hlt, hseek⟩ :=
    h.stored.indexed.seek_segment (lt_of_lt_of_le hoff h.stored.room)
  have hbyte := h.stored.bytes off _ hoff (hseg.place_eq hle hlt)
  cases hd : s.bdev e.bdev with
  | none =>
      rw [BlueFS.byte, hd, List.getElem?_eq_getElem hoff] at hbyte
      exact absurd hbyte (by simp)
  | some d =>
      refine ⟨i, start, e, d, hseg, hle, hlt, hseek, hd, ?_⟩
      have hquiet := h.quiet e.bdev d hd
      unfold KernelDevice.fault
      cases hfaults : d.faults with
      | nil => rfl
      | cons f fs => exact hquiet f (by rw [hfaults]; exact List.mem_cons_self)

/-- A refill from the extent of the position covers it, and the device takes it. -/
theorem Readable.refill (h : Readable s r data) (hin : InBlocks s r) {i start off len : Nat}
    {e : Extent} (hseg : (s.nodes.files r).fnode.Segment i start e) (hle : start ≤ off)
    (hlt : off < start + e.length) (hlen : off + len ≤ data.length) (hpos : 0 < len)
    {maxPrefetch : Nat} (hprefetch : s.super.blockSize ∣ maxPrefetch) {l : Nat}
    (hl : (s.nodes.files r).fnode.refillLength s.super.blockSize maxPrefetch false off len
      (blockStart s.super.blockSize off - start) e = l) :
    off < blockStart s.super.blockSize off + l ∧
      (s.usesBuffered r = true ∨ ∀ d, s.bdev e.bdev = some d →
        d.isValidIo (e.offset + (blockStart s.super.blockSize off - start)) l = true) := by
  have hsize := h.stored.size
  have hshort := h.short
  obtain ⟨hblock, htakes⟩ := hin i start e hseg (by omega)
  obtain ⟨hB, h30, h63, hB30⟩ := h.block_dvd
  generalize hBdef : s.super.blockSize = B at *
  have hfirst := le_blockStart hblock hle
  have hb := blockStart_dvd B off
  have hadd := blockStart_add B off
  have hmod := Nat.mod_lt off hB
  obtain ⟨hwant, -⟩ := p2roundup_bounds (show len + off % B ≤ 2 ^ 63 by omega) hB h63
  obtain ⟨heof, -⟩ := p2roundup_bounds (show (s.nodes.files r).fnode.size ≤ 2 ^ 63 by omega) hB h63
  have hwant_dvd : B ∣ p2roundup (len + off % B) B := p2roundup_dvd h63
  have heof_dvd : B ∣ p2roundup (s.nodes.files r).fnode.size B := p2roundup_dvd h63
  unfold Fnode.refillLength at hl
  simp only [Bool.not_false, true_and] at hl
  generalize hwdef : max (p2roundup (len + off % B) B) maxPrefetch = want at hl
  have hwant' : B ∣ want := by
    rw [← hwdef]
    rcases max_choice (p2roundup (len + off % B) B) maxPrefetch with heq | heq <;> rw [heq]
    · exact hwant_dvd
    · exact hprefetch
  generalize p2roundup (s.nodes.files r).fnode.size B = eof at *
  generalize blockStart B off = b at *
  have hlow : len + off % B ≤ want := by omega
  refine ⟨by split at hl <;> omega, htakes.imp_right fun htakes d hd => ?_⟩
  have hmem : e ∈ (s.nodes.files r).fnode.extents := List.mem_of_getElem? hseg.get
  obtain ⟨hdB, hfits⟩ := h.device e hmem d hd
  rw [hBdef] at hdB
  have hvalid := of_decide_eq_true (htakes d hd)
  rw [hdB] at hvalid
  obtain ⟨-, hoffset, hpart⟩ := hvalid
  have hoffset := Nat.dvd_of_mod_eq_zero hoffset
  have hpart := Nat.dvd_of_mod_eq_zero hpart
  have hx : B ∣ b - start := Nat.dvd_sub hb hblock
  -- whatever ends the read is a whole number of blocks away
  have hl_dvd : B ∣ l := by
    split at hl
    case isTrue => rw [← hl]; exact Nat.dvd_sub heof_dvd hb
    case isFalse hclip =>
      rw [← hl]
      rcases min_choice (min (e.length - (b - start)) want) (2 ^ 30) with heq | heq
      · rw [heq]
        rcases min_choice (e.length - (b - start)) want with heq' | heq'
        · rw [heq']
          have hmin : min e.length (eof - start) = e.length := by omega
          rw [hmin] at hpart
          exact Nat.dvd_sub hpart hx
        · rw [heq']
          exact hwant'
      · rw [heq]
        exact h30
  have hreach : b - start + l ≤ e.length := by split at hl <;> omega
  refine decide_eq_true ⟨by omega, ?_, ?_⟩
  · rw [hdB]
    exact Nat.mod_eq_zero_of_dvd (Nat.dvd_add hoffset hx)
  · rw [hdB]
    exact Nat.mod_eq_zero_of_dvd hl_dvd

/-- The buffer holds the data of the file. -/
theorem Filled.bytes (hbuf : Filled s r buf) (hs : Stored s r data) {off n : Nat}
    (hle : buf.blOff ≤ off) (hend : off + n ≤ buf.bufEnd) (hlen : off + n ≤ data.length) :
    (buf.bl.drop (off - buf.blOff)).take n = (data.drop off).take n := by
  unfold FileReaderBuffer.bufEnd at hend
  rcases hbuf with hempty | ⟨i, start, e, hseg, -, hstart, hwithin, hbytes, -⟩
  · rw [hempty, List.length_nil] at hend
    obtain rfl : n = 0 := by omega
    rfl
  · unfold FileReaderBuffer.bufEnd at hwithin
    refine List.ext_getElem? fun k => ?_
    rcases Nat.lt_or_ge k n with hk | hk
    · rw [List.getElem?_take, if_pos hk, List.getElem?_take, if_pos hk, List.getElem?_drop,
        List.getElem?_drop, ← hbytes _ (by omega)]
      have hplace := hseg.place_eq (show start ≤ off + k by omega) (by omega)
      rw [← hs.bytes (off + k) _ (by omega) hplace]
      congr 3
      omega
    · rw [List.getElem?_eq_none (by rw [List.length_take]; omega),
        List.getElem?_eq_none (by rw [List.length_take]; omega)]

/-- In a file in blocks the loop ends, and puts out the data. -/
theorem readLoop_reads (h : Readable s r data) (hin : InBlocks s r) (hbuf : Filled s r buf)
    (hprefetch : s.super.blockSize ∣ buf.maxPrefetch) {fuel off len : Nat}
    (hlen : off + len ≤ data.length)
    (hfuel : 2 * len + (if off < buf.blOff ∨ buf.bufEnd ≤ off then 1 else 0) ≤ fuel) :
    ∃ buf' s', s.readLoop r false fuel buf off len =
      some ((len : Int), (data.drop off).take len, buf', s') := by
  induction fuel generalizing s buf off len with
  | zero =>
      obtain rfl : len = 0 := by omega
      exact ⟨buf, s, rfl⟩
  | succ fuel ih =>
      unfold BlueFS.readLoop
      by_cases hzero : len = 0
      · subst hzero
        exact ⟨buf, s, rfl⟩
      rw [if_neg hzero]
      by_cases hmiss : off < buf.blOff ∨ buf.bufEnd ≤ off
      · -- the extent of the position holds the start of its block
        obtain ⟨i, start, e, d, hseg, hle, hlt, -, hd, hfault⟩ :=
          h.segment (show off < data.length by omega)
        have hblock := (hin i start e hseg (by rw [h.stored.size]; omega)).1
        have hfirst := le_blockStart hblock hle
        have hbefore := blockStart_le s.super.blockSize off
        obtain ⟨i', start', e', hseg', hle', hlt', hseek⟩ := h.stored.indexed.seek_segment
          (show blockStart s.super.blockSize off < (s.nodes.files r).fnode.allocated by
            have hroom := h.stored.room
            omega)
        obtain ⟨rfl, rfl⟩ := hseg'.unique hseg hle' hlt' hfirst (by omega)
        rw [if_pos hmiss] at hfuel ⊢
        simp only [hseek, hseg'.get, hd]
        generalize hl : (s.nodes.files r).fnode.refillLength s.super.blockSize buf.maxPrefetch false
          off len (blockStart s.super.blockSize off - start') e' = l
        obtain ⟨hcovers, htakes⟩ := h.refill hin hseg hle hlt hlen (by omega) hprefetch hl
        have hlmax := (s.nodes.files r).fnode.refillLength_le s.super.blockSize buf.maxPrefetch false
          off len (blockStart s.super.blockSize off - start') e'
        rw [hl] at hlmax
        have hfilled := filled_refill hseg hle' hlmax hlt' hd buf
        have hread : d.read (e'.offset + (blockStart s.super.blockSize off - start')) l
            (s.usesBuffered r) = ((l : Int), d.volatile.read (e'.offset +
              (blockStart s.super.blockSize off - start')) l, d.spend) := by
          unfold KernelDevice.read
          rw [if_neg, hfault]
          rcases htakes with hbuffered | htakes
          · rw [hbuffered]
            simp
          · rw [htakes d hd]
            simp
        rw [hread] at hfilled ⊢
        simp only [if_neg (not_lt.mpr (Int.natCast_nonneg l))]
        refine ih (h.spend hd) (hin.spend hd) hfilled hprefetch hlen ?_
        rw [if_neg]
        · omega
        · unfold FileReaderBuffer.bufEnd
          rw [Content.read_length]
          show ¬ (off < blockStart s.super.blockSize off ∨ blockStart s.super.blockSize off + l ≤ off)
          omega
      · rw [if_neg hmiss] at hfuel ⊢
        rw [not_or, not_lt, not_le] at hmiss
        obtain ⟨hle, hlt⟩ := hmiss
        have hleft : buf.bufRemaining off = buf.bufEnd - off := if_pos ⟨hle, hlt⟩
        generalize hn : min len (buf.bufRemaining off) = n
        have hmoved : Filled s r { buf with pos := buf.pos + n } := hbuf
        obtain ⟨buf', s', hrest⟩ := ih h hin hmoved hprefetch
          (show off + n + (len - n) ≤ data.length by omega)
          (by split <;> omega)
        dsimp only
        rw [hrest]
        refine ⟨buf', s', ?_⟩
        rw [Option.map_some, if_neg (not_lt.mpr (Int.natCast_nonneg _)),
          hbuf.bytes h.stored hle (show off + n ≤ buf.bufEnd by omega) (by omega),
          ← List.drop_drop, ← List.take_add, Nat.add_sub_cancel' (by omega)]
        congr 2
        omega

/-! ## The two reads -/

/-- `_read` of the range ends, and it and `_read_random` return the bytes that the file has
there. -/
def ReadsAlike (s : BlueFS V A) (r : FileRef) (data : Bytes) (buf : FileReaderBuffer)
    (off len : Nat) : Prop :=
  ∃ fuel buf' s' s'',
    s.read r false fuel buf off len =
      some ((((data.drop off).take len).length : Int), (data.drop off).take len, buf', s') ∧
    s.readRandom r false off len =
      some ((((data.drop off).take len).length : Int), (data.drop off).take len, s'')

/-- The length that both reads are left with at the end of the file. -/
theorem clip_length (hs : Stored s r data) (off len : Nat) :
    (if !false ∧ (s.nodes.files r).fnode.size < off + len
      then (s.nodes.files r).fnode.size - off else len) = ((data.drop off).take len).length := by
  simp only [Bool.not_false, true_and]
  rw [hs.size, List.length_take, List.length_drop]
  split <;> omega

theorem take_clip (off len : Nat) :
    (data.drop off).take ((data.drop off).take len).length = (data.drop off).take len := by
  rw [List.length_take, ← List.take_take, List.take_length]

theorem readRandom_alike (h : Readable s r data) (off len : Nat) :
    ∃ s'', s.readRandom r false off len =
      some ((((data.drop off).take len).length : Int), (data.drop off).take len, s'') := by
  have hclip := clip_length h.stored off len
  have htake := @take_clip data off len
  unfold BlueFS.readRandom
  simp only [hclip]
  rcases Nat.eq_zero_or_pos ((data.drop off).take len).length with hzero | hpos
  · rw [hzero]
    refine ⟨s, ?_⟩
    rw [List.length_eq_zero_iff.mp hzero]
    rfl
  · have hwithin : off + ((data.drop off).take len).length ≤ data.length := by
      rw [List.length_take, List.length_drop] at hpos ⊢
      omega
    obtain ⟨ret, out, s', hloop, hout⟩ := readRandomLoop_stored h.stored hwithin le_rfl
    rcases hout with ⟨rfl, rfl⟩ | ⟨-, hfaults⟩
    · exact ⟨s', by rw [hloop, htake]⟩
    · exact absurd h.quiet hfaults

/-- The buffer where it holds a position of an extent. -/
theorem Filled.here (hbuf : Filled s r buf) {i start off : Nat} {e : Extent}
    (hseg : (s.nodes.files r).fnode.Segment i start e) (hle : start ≤ off)
    (hlt : off < start + e.length) (hhit : ¬ (off < buf.blOff ∨ buf.bufEnd ≤ off)) :
    s.super.blockSize ∣ buf.blOff ∧ start ≤ buf.blOff ∧ buf.bufEnd ≤ start + e.length ∧
      (s.usesBuffered r = true ∨ ∀ d, s.bdev e.bdev = some d →
        d.isValidIo (e.offset + (buf.blOff - start)) buf.bl.length = true) := by
  rw [not_or, not_lt, not_le] at hhit
  obtain ⟨hfrom, hto⟩ := hhit
  rcases hbuf with hempty | ⟨i', start', e', hseg', hblock, hle', hend, -, htakes⟩
  · unfold FileReaderBuffer.bufEnd at hto
    rw [hempty, List.length_nil] at hto
    omega
  · obtain ⟨rfl, rfl⟩ := hseg'.unique hseg (hle'.trans hfrom) (lt_of_lt_of_le hto hend) hle hlt
    exact ⟨hblock, hle', hend, htakes⟩

/-- A read of one byte that returns it has not failed. -/
theorem ReadsAlike.one (hs : Stored s r data) {off : Nat} (hoff : off < data.length)
    (hall : ReadsAlike s r data buf off 1) :
    ∃ fuel ret out buf' s', s.readLoop r false fuel buf off 1 = some (ret, out, buf', s') ∧
      0 ≤ ret := by
  obtain ⟨fuel, buf', s', -, hread, -⟩ := hall
  have hclip := clip_length hs off 1
  have hone : ((data.drop off).take 1).length = 1 := by
    rw [List.length_take, List.length_drop]
    omega
  unfold BlueFS.read at hread
  simp only [hclip, hone] at hread
  exact ⟨fuel, _, _, buf', s', hread, Int.natCast_nonneg 1⟩

theorem ReadsAlike.inBlocks (h : Readable s r data) (hbuf : Filled s r buf)
    (hall : ∀ off len, ReadsAlike s r data buf off len) : InBlocks s r := by
  have hsize := h.stored.size
  have hroom := h.stored.room
  have hshort := h.short
  obtain ⟨hB, h30, h63, hB30⟩ := h.block_dvd
  -- an extent that starts inside a block stops the read of its first byte
  have hstarts : ∀ i start e, (s.nodes.files r).fnode.Segment i start e → start < data.length →
      s.super.blockSize ∣ start := by
    intro i start e hseg hlt
    by_contra hinside
    have hlong : 0 < e.length := h.full e (List.mem_of_getElem? hseg.get)
    obtain ⟨fuel, ret, out, buf', s', hread, hret⟩ := (hall start 1).one h.stored hlt
    refine absurd (readLoop_stuck rfl h.stored.indexed hseg hinside (by omega) ?_ hread)
      (not_lt.mpr hret)
    by_contra hhit
    obtain ⟨hblock, hfirst, -, -⟩ := hbuf.here hseg le_rfl (by omega) hhit
    rw [not_or, not_lt] at hhit
    exact hinside (by rwa [le_antisymm hfirst hhit.1])
  intro i start e hseg hlt
  rw [hsize] at hlt
  have hblock := hstarts i start e hseg hlt
  refine ⟨hblock, or_iff_not_imp_left.mpr fun hdirect d hd => ?_⟩
  rw [Bool.not_eq_true] at hdirect
  have hmem : e ∈ (s.nodes.files r).fnode.extents := List.mem_of_getElem? hseg.get
  have hlong : 0 < e.length := h.full e hmem
  obtain ⟨hdB, hfits⟩ := h.device e hmem d hd
  -- a read of one byte from the block `b` of the extent is one that the device takes
  have htaken : ∀ off, off < data.length → start ≤ off → off < start + e.length →
      (off < buf.blOff ∨ buf.bufEnd ≤ off) →
      d.isValidIo (e.offset + (blockStart s.super.blockSize off - start))
        ((s.nodes.files r).fnode.refillLength s.super.blockSize buf.maxPrefetch false off 1
          (blockStart s.super.blockSize off - start) e) = true := by
    intro off hoff hle hend hmiss
    have hfirst := le_blockStart hblock hle
    have hbefore := blockStart_le s.super.blockSize off
    obtain ⟨i', start', e', hseg', hle', hlt', hseek⟩ := h.stored.indexed.seek_segment
      (show blockStart s.super.blockSize off < (s.nodes.files r).fnode.allocated by omega)
    obtain ⟨rfl, rfl⟩ := hseg'.unique hseg hle' hlt' hfirst (by omega)
    obtain ⟨fuel, ret, out, buf', s', hread, hret⟩ := (hall off 1).one h.stored hoff
    by_contra hinvalid
    rw [Bool.not_eq_true] at hinvalid
    exact absurd (readLoop_invalid hmiss hseek hseg'.get hd hdirect hinvalid hread)
      (not_lt.mpr hret)
  have haligned : ∀ off len, d.isValidIo off len = true →
      s.super.blockSize ∣ off ∧ s.super.blockSize ∣ len := by
    intro off len hvalid
    obtain ⟨-, hoff, hlen⟩ := of_decide_eq_true hvalid
    rw [hdB] at hoff hlen
    exact ⟨Nat.dvd_of_mod_eq_zero hoff, Nat.dvd_of_mod_eq_zero hlen⟩
  have hoffset : s.super.blockSize ∣ e.offset := by
    by_cases hmiss : start < buf.blOff ∨ buf.bufEnd ≤ start
    · have hvalid := (haligned _ _ (htaken start hlt le_rfl (by omega) hmiss)).1
      have hfirst := le_blockStart hblock (le_refl start)
      have hbefore := blockStart_le s.super.blockSize start
      rwa [le_antisymm hbefore hfirst, Nat.sub_self, Nat.add_zero] at hvalid
    · obtain ⟨-, hfirst, -, htakes⟩ := hbuf.here hseg le_rfl (by omega) hmiss
      have hvalid := (haligned _ _ ((htakes.resolve_left (by rw [hdirect]; simp)) d hd)).1
      rw [not_or, not_lt] at hmiss
      rwa [le_antisymm hmiss.1 hfirst, Nat.sub_self, Nat.add_zero] at hvalid
  have hpart : s.super.blockSize ∣
      min e.length (p2roundup (s.nodes.files r).fnode.size s.super.blockSize - start) := by
    have heof_dvd : s.super.blockSize ∣
        p2roundup (s.nodes.files r).fnode.size s.super.blockSize := p2roundup_dvd h63
    obtain ⟨heof, -⟩ := p2roundup_bounds (show (s.nodes.files r).fnode.size ≤ 2 ^ 63 by omega) hB h63
    have heof_lt := p2roundup_lt (x := (s.nodes.files r).fnode.size) hB
    rw [hsize] at heof heof_dvd heof_lt ⊢
    rcases Nat.lt_or_ge e.length (p2roundup data.length s.super.blockSize - start) with hless | hmore
    · rw [min_eq_left hless.le]
      rcases Nat.lt_or_ge (start + e.length) data.length with hinner | hlast
      · -- the next extent starts at a block
        obtain ⟨i', start', e', hseg', hle', hlt', -⟩ := h.stored.indexed.seek_segment
          (show start + e.length < (s.nodes.files r).fnode.allocated by omega)
        have hlong' : 0 < e'.length := h.full e' (List.mem_of_getElem? hseg'.get)
        have hnext : start' = start + e.length := by
          rcases Nat.lt_trichotomy i i' with hii | rfl | hii
          · have := hseg.le_of_lt hseg' hii
            omega
          · have := hseg.sum.symm.trans hseg'.sum
            have := Option.some.inj (hseg.get.symm.trans hseg'.get)
            subst this
            omega
          · have := hseg'.le_of_lt hseg hii
            omega
        have hdvd := hstarts i' start' e' hseg' (by omega)
        rw [hnext] at hdvd
        exact (Nat.dvd_add_right hblock).mp hdvd
      · -- the last byte of the file is read up to the end of the extent
        have hlastlt : data.length - 1 < start + e.length := by omega
        have hadd := blockStart_add s.super.blockSize (data.length - 1)
        have hmod := Nat.mod_lt (data.length - 1) hB
        have hfirst := le_blockStart hblock (show start ≤ data.length - 1 by omega)
        have hb := blockStart_dvd s.super.blockSize (data.length - 1)
        have heof_eq : p2roundup data.length s.super.blockSize =
            blockStart s.super.blockSize (data.length - 1) + s.super.blockSize := by
          have hge := blockStart_add_le heof_dvd (show data.length - 1 < _ by omega)
          have hdvd := Nat.dvd_sub heof_dvd hb
          obtain ⟨c, hc⟩ := hdvd
          have hc1 : c < 2 := by
            by_contra hno
            have := Nat.mul_le_mul_left s.super.blockSize (not_lt.mp hno)
            omega
          have hc0 : c ≠ 0 := by
            rintro rfl
            omega
          obtain rfl : c = 1 := by omega
          omega
        by_cases hmiss : data.length - 1 < buf.blOff ∨ buf.bufEnd ≤ data.length - 1
        · have hvalid := (haligned _ _ (htaken _ (by omega) (by omega) hlastlt hmiss)).2
          have hwant : s.super.blockSize ≤
              p2roundup (1 + (data.length - 1) % s.super.blockSize) s.super.blockSize := by
            have hdvd : s.super.blockSize ∣
                p2roundup (1 + (data.length - 1) % s.super.blockSize) s.super.blockSize :=
              p2roundup_dvd h63
            obtain ⟨hge, -⟩ := p2roundup_bounds
              (show 1 + (data.length - 1) % s.super.blockSize ≤ 2 ^ 63 by omega) hB h63
            exact Nat.le_of_dvd (by omega) hdvd
          unfold Fnode.refillLength at hvalid
          simp only [Bool.not_false, true_and, hsize] at hvalid
          rw [if_neg (by omega)] at hvalid
          have hrest : min (min (e.length - (blockStart s.super.blockSize (data.length - 1) - start))
              (max (p2roundup (1 + (data.length - 1) % s.super.blockSize) s.super.blockSize)
                buf.maxPrefetch)) (2 ^ 30) =
              e.length - (blockStart s.super.blockSize (data.length - 1) - start) := by omega
          rw [hrest] at hvalid
          have hx : s.super.blockSize ∣ blockStart s.super.blockSize (data.length - 1) - start :=
            Nat.dvd_sub hb hblock
          have hsum := Nat.dvd_add hvalid hx
          rwa [Nat.sub_add_cancel (by omega)] at hsum
        · -- a buffer that holds it ends at the next block, which the extent does not reach
          obtain ⟨hblock', -, hend, htakes⟩ := hbuf.here hseg (by omega) hlastlt hmiss
          have hvalid := (haligned _ _ ((htakes.resolve_left (by rw [hdirect]; simp)) d hd)).2
          rw [not_or, not_le] at hmiss
          have hge := blockStart_add_le (Nat.dvd_add hblock' hvalid) hmiss.2
          unfold FileReaderBuffer.bufEnd at hend
          omega
    · rw [min_eq_right hmore]
      exact Nat.dvd_sub heof_dvd hblock
  refine decide_eq_true ⟨by omega, ?_, ?_⟩
  · rw [hdB]
    exact Nat.mod_eq_zero_of_dvd hoffset
  · rw [hdB]
    exact Nat.mod_eq_zero_of_dvd hpart

end Reads

/-! ## A device of zeros -/

/-- BlueFS on a device of a mebibyte of zeros, with buffered reads and one file. -/
def zeroFs (f : Fnode) : BlueFS OriginalVolumeSelector FreeList :=
  { listFs [] with
    cfg := { (listFs []).cfg with bufferedIo := true }
    nodes := { (listFs []).nodes with files := fun _ => { fnode := f }, nextRef := 2 } }

theorem zeroFs_readable {f : Fnode} (hindexed : f.Indexed) (hroom : f.size ≤ f.allocated)
    (hshort : f.size ≤ 1048576)
    (hextents : ∀ e ∈ f.extents, e.bdev = BDEV_DB ∧ 0 < e.length ∧ e.offset + e.length ≤ 1048576) :
    Readable (zeroFs f) 1 (List.replicate f.size 0) := by
  have hlength : (List.replicate f.size (0 : UInt8)).length = f.size := List.length_replicate
  have hdevice : ∀ id d, (zeroFs f).bdev id = some d →
      d = { size := 1048576 } := by
    intro id d hd
    have hd : (if id = BDEV_DB then some ({ size := 1048576 } : KernelDevice) else none) = some d := hd
    split at hd
    · exact (Option.some.inj hd).symm
    · cases hd
  refine ⟨⟨hindexed, hlength.symm, by rw [hlength]; exact hroom, fun i y hi hy => ?_⟩,
    fun e he => (hextents e he).2.1, ⟨12, by decide, rfl⟩, ?_, fun e he d hd => ?_, ?_⟩
  · obtain ⟨e, o, hloc, rfl⟩ := place_eq_some.mp hy
    obtain ⟨hmem, -, -⟩ := locate_spec hloc
    rw [hlength] at hi
    rw [(hextents e hmem).1, List.getElem?_replicate, if_pos hi]
    rfl
  · rw [hlength]
    show f.size + 4096 ≤ 2 ^ 63
    omega
  · rw [hdevice _ d hd]
    exact ⟨rfl, (hextents e he).2.2⟩
  · intro id d hd fault hfault
    rw [hdevice id d hd] at hfault
    exact absurd hfault (by simp)

/-- A hundred bytes of a page, and a file that was cut at a hundred bytes and then grew. -/
def pageFnode : Fnode :=
  { ino := 2, size := 100, extents := [⟨524288, 4096, 1⟩], extentsIndex := [0], allocated := 4096 }

def seamFnode : Fnode :=
  { ino := 2, size := 4196, extents := [⟨524288, 100, 1⟩, ⟨528384, 4096, 1⟩]
    extentsIndex := [0, 100], allocated := 4196 }

end Clab.Bluefs
