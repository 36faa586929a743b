import Clab.Blk.KernelDevice

/-!
# Short transfers

The system calls below `KernelDevice::write` and `KernelDevice::read`. A `pwritev`
may write any part of what it is given: the loop goes on with the rest of the
vector until all is written. A `pread` that returns less leaves the buffer at the
length asked for.
-/

namespace Clab.Blk

/-- The most entries that one `pwritev` takes. -/
def IOV_MAX : Nat := 1024

/-! ## Buffer lists -/

/-- A node of a buffer list, and whether its memory starts at a multiple of the block size. -/
structure PtrNode where
  data : List UInt8
  aligned : Bool

/-- `is_aligned` and `is_n_align_sized`. -/
def PtrNode.fits (p : PtrNode) (align : Nat) : Bool :=
  p.aligned && decide (p.data.length % align = 0)

abbrev BufferList := List PtrNode

namespace BufferList

/-- The bytes of the list. -/
def bytes (bl : BufferList) : List UInt8 := bl.flatMap PtrNode.data

@[simp] theorem bytes_nil : bytes [] = [] := rfl

@[simp] theorem bytes_cons (p : PtrNode) (bl : BufferList) :
    bytes (p :: bl) = p.data ++ bytes bl := rfl

theorem bytes_append (bl bl' : BufferList) : bytes (bl ++ bl') = bytes bl ++ bytes bl' :=
  List.flatMap_append

/-- `length`, an `unsigned`. -/
def len (bl : BufferList) : Nat := bl.bytes.length % 2 ^ 32

/-- The nodes that the inner loop of `rebuild_aligned_size_and_memory` takes out behind the first
one, of which `offset` bytes are taken out already, and the nodes behind them. -/
def unalignedRun (align : Nat) : Nat → BufferList → BufferList × BufferList
  | _, [] => ([], [])
  | offset, p :: ps =>
      if !p.fits align || decide (offset % align ≠ 0) then
        let (run, after) := unalignedRun align (offset + p.data.length) ps
        (p :: run, after)
      else ([], p :: ps)

/-- What the nodes taken out are replaced by. -/
def rebuildRun (run : BufferList) : BufferList :=
  if run.length ≤ 1 ∧ run.head?.any PtrNode.aligned then run
  else if run.bytes = [] then []
  else [⟨run.bytes, true⟩]

theorem unalignedRun_split (align offset : Nat) (bl : BufferList) :
    (unalignedRun align offset bl).1 ++ (unalignedRun align offset bl).2 = bl := by
  induction bl generalizing offset with
  | nil => rfl
  | cons p ps ih =>
      unfold unalignedRun
      split
      · simp [ih]
      · rfl

/-- `rebuild_aligned`. -/
def rebuildAligned (align : Nat) : BufferList → BufferList
  | [] => []
  | p :: ps =>
      if p.fits align then p :: rebuildAligned align ps
      else
        let taken := unalignedRun align p.data.length ps
        rebuildRun (p :: taken.1) ++ rebuildAligned align taken.2
termination_by bl => bl.length
decreasing_by
  · simp
  · have hsplit := congrArg List.length (unalignedRun_split align p.data.length ps)
    rw [List.length_append] at hsplit
    simp only [List.length_cons]
    omega

theorem bytes_rebuildRun (run : BufferList) : bytes (rebuildRun run) = bytes run := by
  unfold rebuildRun
  split
  · rfl
  · split
    case isTrue hempty => rw [hempty, bytes_nil]
    case isFalse => simp

/-- Rebuilding changes the nodes and not the bytes. -/
theorem bytes_rebuildAligned (align : Nat) (bl : BufferList) :
    bytes (rebuildAligned align bl) = bytes bl := by
  induction bl using rebuildAligned.induct align with
  | case1 => rw [rebuildAligned]
  | case2 p ps hfits ih =>
      rw [rebuildAligned, if_pos hfits, bytes_cons, bytes_cons, ih]
  | case3 p ps hfits taken ih =>
      rw [rebuildAligned, if_neg hfits]
      simp only
      rw [bytes_append, bytes_rebuildRun, ih, ← bytes_append, List.cons_append,
        unalignedRun_split]

/-- Nodes that fit stay as they are. -/
theorem rebuildAligned_of_fits {align : Nat} {bl : BufferList} (hfits : ∀ p ∈ bl, p.fits align) :
    rebuildAligned align bl = bl := by
  induction bl with
  | nil => rw [rebuildAligned]
  | cons p ps ih =>
      rw [rebuildAligned, if_pos (hfits p List.mem_cons_self),
        ih fun q hq => hfits q (List.mem_cons_of_mem _ hq)]

/-- `prepare_iov`; `none` is a failed assertion. -/
def prepareIov (bl : BufferList) : Option (List (List UInt8)) :=
  if bl.length ≤ IOV_MAX then some (bl.map PtrNode.data) else none

end BufferList

/-! ## System calls -/

/-- What the system calls of one run return: the bytes that the `pwritev` of each number writes of
a vector, the bytes that a `pread` reads, none where the call fails. -/
structure SysCalls where
  pwritev : Nat → Nat → Option Nat
  pread : Nat → Option Nat
  errno : Nat

/-- A call fails, or transfers a part that is not empty unless it was given nothing. -/
structure ShortTransfers (sys : SysCalls) : Prop where
  pwritev : ∀ {k n r : Nat}, sys.pwritev k n = some r → r ≤ n ∧ (0 < n → 0 < r)
  pread : ∀ {n r : Nat}, sys.pread n = some r → r ≤ n ∧ (0 < n → 0 < r)
  errno : 0 < sys.errno

/-- The inner loop of `write`: full entries are passed over, and the next one is trimmed. -/
def consume : List (List UInt8) → Nat → List (List UInt8)
  | [], _ => []
  | b :: iov, written =>
      if written = 0 then b :: iov
      else if written < b.length then b.drop written :: iov
      else consume iov (written - b.length)

theorem consume_flatten (iov : List (List UInt8)) (written : Nat) :
    (consume iov written).flatten = iov.flatten.drop written := by
  induction iov generalizing written with
  | nil => simp [consume]
  | cons b iov ih =>
      unfold consume
      split
      case isTrue hzero => rw [hzero, List.drop_zero]
      case isFalse =>
        split
        case isTrue hlt =>
          rw [List.flatten_cons, List.flatten_cons, List.drop_append_of_le_length hlt.le]
        case isFalse hge =>
          rw [ih, List.flatten_cons, List.drop_append, List.drop_eq_nil_of_le (not_lt.mp hge),
            List.nil_append]

/-- The outer loop of `write`, from call `k` on; `none` is a loop that outlives its fuel. -/
def writeLoop (sys : SysCalls) (fuel k : Nat) (iov : List (List UInt8)) (left o : Nat)
    (c : Content) : Option (Int × Content) :=
  if left = 0 then some (0, c)
  else
    match fuel with
    | 0 => none
    | fuel + 1 =>
        match sys.pwritev k iov.flatten.length with
        | none => some (-sys.errno, c)
        | some r => writeLoop sys fuel (k + 1) (consume iov r) ((left + 2 ^ 64 - r) % 2 ^ 64) (o + r)
            (c.write o (iov.flatten.take r))

/-- Two writes one behind the other are one. -/
theorem Content.write_append (c : Content) (o : Nat) (bs bs' : List UInt8) :
    (c.write o bs).write (o + bs.length) bs' = c.write o (bs ++ bs') := by
  funext a
  simp only [Content.write, List.length_append]
  by_cases hfirst : o ≤ a ∧ a < o + bs.length
  · rw [if_neg (by omega), if_pos hfirst, if_pos (by omega),
      List.getD_append _ _ _ _ (by omega)]
  · by_cases hsecond : o + bs.length ≤ a ∧ a < o + bs.length + bs'.length
    · rw [if_pos hsecond, if_pos (by omega), List.getD_append_right _ _ _ _ (by omega)]
      congr 1
      omega
    · rw [if_neg hsecond, if_neg hfirst, if_neg (by omega)]

@[simp] theorem Content.write_nil (c : Content) (o : Nat) : c.write o [] = c := by
  funext a
  exact if_neg (by simp)

/-- The vector and the bytes left of it after a call that writes `written`. -/
theorem left_consume {iov : List (List UInt8)} {left written : Nat}
    (hleft : iov.flatten.length = left) (hsize : left < 2 ^ 64) (hle : written ≤ left) :
    (consume iov written).flatten.length = (left + 2 ^ 64 - written) % 2 ^ 64 ∧
      (left + 2 ^ 64 - written) % 2 ^ 64 = left - written := by
  have hrest : (left + 2 ^ 64 - written) % 2 ^ 64 = left - written := by omega
  rw [consume_flatten, List.length_drop, hleft, hrest]
  exact ⟨rfl, rfl⟩

/-- The loop ends: every call that does not fail leaves less. -/
theorem writeLoop_ends {sys : SysCalls} (hsys : ShortTransfers sys) {fuel k : Nat}
    {iov : List (List UInt8)} {left o : Nat} {c : Content} (hleft : iov.flatten.length = left)
    (hfuel : left ≤ fuel) (hsize : left < 2 ^ 64) :
    ∃ out, writeLoop sys fuel k iov left o c = some out := by
  induction fuel generalizing k iov left o c with
  | zero =>
      obtain rfl : left = 0 := by omega
      exact ⟨(0, c), by simp [writeLoop]⟩
  | succ fuel ih =>
      unfold writeLoop
      split
      case isTrue => exact ⟨_, rfl⟩
      case isFalse hzero =>
        simp only
        rcases hcall : sys.pwritev k iov.flatten.length with _ | written
        · exact ⟨_, rfl⟩
        · obtain ⟨hle, hpos⟩ := hsys.pwritev hcall
          have hpos := hpos (by omega)
          obtain ⟨hnext, hrest⟩ := left_consume hleft hsize (hleft ▸ hle)
          exact ih hnext (by omega) (by omega)

/-- A loop that ends has written all, or returns an error. -/
theorem writeLoop_written {sys : SysCalls} (hsys : ShortTransfers sys) {fuel k : Nat}
    {iov : List (List UInt8)} {left o : Nat} {c c' : Content} {r : Int}
    (hleft : iov.flatten.length = left) (hsize : left < 2 ^ 64)
    (hloop : writeLoop sys fuel k iov left o c = some (r, c')) :
    r = 0 ∧ c' = c.write o iov.flatten ∨ r = -sys.errno := by
  induction fuel generalizing k iov left o c with
  | zero =>
      unfold writeLoop at hloop
      split at hloop
      case isFalse => exact absurd hloop (by simp)
      case isTrue hzero =>
        obtain ⟨rfl, rfl⟩ := Prod.mk.inj (Option.some.inj hloop)
        rw [List.length_eq_zero_iff.mp (hleft.trans hzero), Content.write_nil]
        exact .inl ⟨rfl, rfl⟩
  | succ fuel ih =>
      unfold writeLoop at hloop
      split at hloop
      case isTrue hzero =>
        obtain ⟨rfl, rfl⟩ := Prod.mk.inj (Option.some.inj hloop)
        rw [List.length_eq_zero_iff.mp (hleft.trans hzero), Content.write_nil]
        exact .inl ⟨rfl, rfl⟩
      case isFalse hzero =>
        simp only at hloop
        rcases hcall : sys.pwritev k iov.flatten.length with _ | written
        · rw [hcall] at hloop
          obtain ⟨rfl, -⟩ := Prod.mk.inj (Option.some.inj hloop)
          exact .inr rfl
        · rw [hcall] at hloop
          obtain ⟨hle, -⟩ := hsys.pwritev hcall
          obtain ⟨hnext, hrest⟩ := left_consume hleft hsize (hleft ▸ hle)
          refine (ih hnext (by omega) hloop).imp (fun ⟨hr, hc'⟩ => ⟨hr, ?_⟩) id
          -- the rest is written behind what this call wrote
          have hlength : (iov.flatten.take written).length = written := by
            rw [List.length_take]
            omega
          have happend := c.write_append o (iov.flatten.take written) (iov.flatten.drop written)
          rw [hlength, List.take_append_drop] at happend
          rw [hc', consume_flatten, happend]

namespace KernelDevice

/-- `write` over its system calls; `none` is a failed assertion, or a loop that outlives its
fuel. -/
def writeCalls (sys : SysCalls) (fuel : Nat) (d : KernelDevice) (off : Nat) (bl : BufferList)
    (buffered : Bool) : Option (Int × KernelDevice) :=
  if !buffered && !d.isValidIo off bl.len then some (-einval, d)
  else
    (BufferList.prepareIov (if buffered then bl else bl.rebuildAligned d.blockSize)).bind fun iov =>
      (writeLoop sys fuel 0 iov bl.len off d.volatile).map fun (r, c) =>
        if r < 0 then (r, { d with volatile := c })
        else (Int.bmod bl.len (2 ^ 32), { d with volatile := c, ioSinceFlush := true })

/-- `read` over its system call: the result, and what is put behind the buffer list. The buffer
takes its length as an `unsigned`, the result of the call is made an `int`, and `junk` is what
the memory held; `none` is a call that writes past the end of the buffer. -/
def readCalls (sys : SysCalls) (junk : Nat → UInt8) (d : KernelDevice) (off len : Nat)
    (buffered : Bool) : Option (Int × List UInt8) :=
  if !buffered && !d.isValidIo off len then some (-einval, [])
  else
    match sys.pread len with
    | none => some (-sys.errno, [])
    | some r =>
        if len % 2 ^ 32 < r then none
        else if Int.bmod r (2 ^ 32) < 0 then some (-sys.errno, [])
        else some (Int.bmod r (2 ^ 32),
          d.volatile.read off r ++ (List.range (len % 2 ^ 32 - r)).map junk)

/-- The write ends, and unless it returns an error it has written the bytes of the list and
changed nothing else. -/
def WritesExactly (sys : SysCalls) (d : KernelDevice) (off : Nat) (bl : BufferList)
    (buffered : Bool) : Prop :=
  ∃ fuel r d', writeCalls sys fuel d off bl buffered = some (r, d') ∧
    (0 ≤ r → d' = { d with volatile := d.volatile.write off bl.bytes, ioSinceFlush := true })

/-- Unless the read returns an error it puts as many bytes behind the list as it returns, and they
are those of the device. -/
def ReadsExactly (sys : SysCalls) (junk : Nat → UInt8) (d : KernelDevice) (off len : Nat)
    (buffered : Bool) : Prop :=
  ∃ r out, readCalls sys junk d off len buffered = some (r, out) ∧
    (0 ≤ r → (out.length : Int) = r ∧ out = d.volatile.read off r.toNat)

variable {sys : SysCalls} {d : KernelDevice} {off len : Nat} {bl : BufferList} {buffered : Bool}

theorem bytes_nodes (d : KernelDevice) (bl : BufferList) (buffered : Bool) :
    BufferList.bytes (if buffered then bl else bl.rebuildAligned d.blockSize) = bl.bytes := by
  cases buffered
  · exact BufferList.bytes_rebuildAligned _ _
  · rfl

/-- A write that returns no error has written the bytes of the list and nothing else. -/
theorem writeCalls_written (hsys : ShortTransfers sys) (hvalid : d.isValidIo off bl.len = true)
    (hlen : bl.bytes.length < 2 ^ 32) {fuel : Nat} {r : Int} {d' : KernelDevice}
    (hwrite : writeCalls sys fuel d off bl buffered = some (r, d')) (hr : 0 ≤ r) :
    r = Int.bmod bl.len (2 ^ 32) ∧
      d' = { d with volatile := d.volatile.write off bl.bytes, ioSinceFlush := true } := by
  have hbytes := bytes_nodes d bl buffered
  have hleft : bl.len = bl.bytes.length := Nat.mod_eq_of_lt hlen
  have herrno := hsys.errno
  unfold writeCalls at hwrite
  rw [if_neg (by simp [hvalid])] at hwrite
  generalize (if buffered then bl else bl.rebuildAligned d.blockSize) = nodes at *
  obtain ⟨iov, hiov, hloop⟩ := Option.bind_eq_some_iff.mp hwrite
  obtain ⟨⟨res, c⟩, hloop, hout⟩ := Option.map_eq_some_iff.mp hloop
  unfold BufferList.prepareIov at hiov
  split at hiov
  case isFalse => exact absurd hiov (by simp)
  case isTrue =>
    have hflat : iov.flatten = bl.bytes := by
      rw [← Option.some.inj hiov, ← hbytes]
      rfl
    have hwritten := writeLoop_written hsys (by rw [hflat, hleft]) (by omega) hloop
    rw [hflat] at hwritten
    simp only at hout
    split at hout
    case isTrue hneg =>
      obtain ⟨rfl, -⟩ := Prod.mk.inj hout
      omega
    case isFalse hok =>
      obtain ⟨rfl, rfl⟩ := Prod.mk.inj hout
      rcases hwritten with ⟨-, rfl⟩ | rfl
      · exact ⟨rfl, rfl⟩
      · omega

/-- A write that gets through is one write of the bytes of the list. -/
theorem writeCalls_write (hsys : ShortTransfers sys) (hvalid : d.isValidIo off bl.len = true)
    (hlen : bl.bytes.length < 2 ^ 32) {fuel : Nat} {r : Int} {d' : KernelDevice}
    (hwrite : writeCalls sys fuel d off bl buffered = some (r, d')) (hr : 0 ≤ r)
    (hfaults : d.faults = []) : d.write off bl.bytes buffered = (r, d') := by
  obtain ⟨hres, hd⟩ := writeCalls_written hsys hvalid hlen hwrite hr
  have hleft : bl.len = bl.bytes.length := Nat.mod_eq_of_lt hlen
  rw [hleft] at hvalid hres
  have hfault : d.fault = none := by rw [fault, hfaults]; rfl
  have hspend : d.spend = d := by
    rw [spend, hfaults, List.tail_nil, ← hfaults]
  unfold KernelDevice.write
  rw [if_neg (by simp [hvalid]), hfault, hspend, hres, hd]

/-- A vector of too many entries stops the program, any other is written. -/
theorem writesExactly_iff (hsys : ShortTransfers sys) (hvalid : d.isValidIo off bl.len = true)
    (hlen : bl.bytes.length < 2 ^ 32) :
    WritesExactly sys d off bl buffered ↔
      (if buffered then bl else bl.rebuildAligned d.blockSize).length ≤ IOV_MAX := by
  have hbytes := bytes_nodes d bl buffered
  have hleft : bl.len = bl.bytes.length := Nat.mod_eq_of_lt hlen
  constructor
  · rintro ⟨fuel, r, d', hwrite, -⟩
    unfold writeCalls at hwrite
    rw [if_neg (by simp [hvalid])] at hwrite
    obtain ⟨iov, hiov, -⟩ := Option.bind_eq_some_iff.mp hwrite
    unfold BufferList.prepareIov at hiov
    by_contra hmany
    rw [if_neg hmany] at hiov
    exact absurd hiov (by simp)
  · intro hfew
    obtain ⟨⟨res, c⟩, hloop⟩ := writeLoop_ends hsys (k := 0) (o := off) (c := d.volatile)
      (show ((if buffered then bl else bl.rebuildAligned d.blockSize).map
        PtrNode.data).flatten.length = bl.len by rw [hleft, ← hbytes]; rfl) le_rfl (by omega)
    have hwrite : ∃ out, writeCalls sys bl.len d off bl buffered = some out := by
      unfold writeCalls
      rw [if_neg (by simp [hvalid]), BufferList.prepareIov, if_pos hfew, Option.bind_some, hloop]
      exact ⟨_, rfl⟩
    obtain ⟨⟨r, d'⟩, hwrite⟩ := hwrite
    exact ⟨bl.len, r, d', hwrite, fun hr => (writeCalls_written hsys hvalid hlen hwrite hr).2⟩

/-- The `pread` fails, or reads all there is room for; one that reads 2 GiB or more counts as
failed. -/
def ReadsWhole (sys : SysCalls) (len : Nat) : Prop :=
  ∀ r, sys.pread len = some r → r ≤ len % 2 ^ 32 ∧ (r < 2 ^ 31 → r = len % 2 ^ 32)

theorem readsExactly_iff (hsys : ShortTransfers sys) (junk : Nat → UInt8)
    (hvalid : d.isValidIo off len = true) :
    ReadsExactly sys junk d off len buffered ↔ ReadsWhole sys len := by
  have herrno := hsys.errno
  unfold ReadsExactly ReadsWhole readCalls
  rw [if_neg (by simp [hvalid])]
  rcases hcall : sys.pread len with _ | got
  · refine ⟨fun _ r hr => absurd hr (by simp), fun _ => ⟨_, [], rfl, fun hpos => ?_⟩⟩
    omega
  · have hbmod : Int.bmod got (2 ^ 32) < 0 ↔ 2 ^ 31 ≤ got % 2 ^ 32 := by
      rw [Int.bmod_def]
      omega
    simp only [Option.some.injEq, forall_eq']
    by_cases hroom : len % 2 ^ 32 < got
    · rw [if_pos hroom]
      constructor
      · rintro ⟨r, out, hr, -⟩
        exact absurd hr (by simp)
      · rintro ⟨hle, -⟩
        omega
    · rw [if_neg hroom]
      have hsmall : got % 2 ^ 32 = got := by omega
      rw [hsmall] at hbmod
      by_cases hneg : Int.bmod got (2 ^ 32) < 0
      · rw [if_pos hneg]
        have hbig := hbmod.mp hneg
        refine ⟨fun _ => ⟨not_lt.mp hroom, fun hlt => by omega⟩, fun _ => ⟨_, [], rfl, fun hpos => ?_⟩⟩
        omega
      · rw [if_neg hneg]
        have hlow : got < 2 ^ 31 := by
          by_contra hge
          exact hneg (hbmod.mpr (not_lt.mp hge))
        have hint : Int.bmod got (2 ^ 32) = got := by
          rw [Int.bmod_def]
          omega
        rw [hint]
        constructor
        · rintro ⟨r, out, hr, hexact⟩
          obtain ⟨rfl, rfl⟩ := Prod.mk.inj (Option.some.inj hr)
          obtain ⟨hlength, -⟩ := hexact (Int.natCast_nonneg got)
          simp only [List.length_append, Content.read_length, List.length_map,
            List.length_range] at hlength
          exact ⟨not_lt.mp hroom, fun _ => by omega⟩
        · rintro ⟨-, hwhole⟩
          have hrest : len % 2 ^ 32 - got = 0 := by
            have hwhole := hwhole hlow
            omega
          refine ⟨_, _, rfl, fun _ => ?_⟩
          rw [hrest]
          simp

/-- **Short transfers are survived exactly where the vector is not too long and the read is not
short.** -/
theorem transfers_exact_iff (hsys : ShortTransfers sys) (junk : Nat → UInt8) {woff : Nat}
    (hwrite : d.isValidIo woff bl.len = true) (hlen : bl.bytes.length < 2 ^ 32)
    (hread : d.isValidIo off len = true) {wbuffered : Bool} :
    WritesExactly sys d woff bl wbuffered ∧ ReadsExactly sys junk d off len buffered ↔
      (if wbuffered then bl else bl.rebuildAligned d.blockSize).length ≤ IOV_MAX ∧
        ReadsWhole sys len :=
  and_congr (writesExactly_iff hsys hwrite hlen) (readsExactly_iff hsys junk hread)

/-! ## A page, and too many of them -/

/-- Writes a byte at a time, and reads all that is asked for. -/
def slowWrites : SysCalls where
  pwritev _ n := some (min n 1)
  pread n := some n
  errno := 5

theorem slowWrites_short : ShortTransfers slowWrites where
  pwritev := by
    intro k n r hr
    obtain rfl : min n 1 = r := Option.some.inj hr
    exact ⟨Nat.min_le_left n 1, fun hn => by omega⟩
  pread := by
    intro n r hr
    obtain rfl : n = r := Option.some.inj hr
    exact ⟨le_rfl, id⟩
  errno := by decide

/-- Reads a byte at a time. -/
def slowReads : SysCalls where
  pwritev _ n := some n
  pread n := some (min n 1)
  errno := 5

theorem slowReads_short : ShortTransfers slowReads where
  pwritev := by
    intro k n r hr
    obtain rfl : n = r := Option.some.inj hr
    exact ⟨le_rfl, id⟩
  pread := by
    intro n r hr
    obtain rfl : min n 1 = r := Option.some.inj hr
    exact ⟨Nat.min_le_left n 1, fun hn => by omega⟩
  errno := by decide

/-- `n` pages in aligned memory. -/
def pages (n : Nat) : BufferList := List.replicate n ⟨List.replicate 4096 7, true⟩

theorem pages_length (n : Nat) : (pages n).bytes.length = n * 4096 := by
  induction n with
  | zero => rfl
  | succ n ih =>
      have hcons : pages (n + 1) = ⟨List.replicate 4096 7, true⟩ :: pages n := List.replicate_succ
      rw [hcons, BufferList.bytes_cons, List.length_append, ih, List.length_replicate]
      omega

theorem pages_rebuilt (n : Nat) : (pages n).rebuildAligned 4096 = pages n := by
  refine BufferList.rebuildAligned_of_fits fun p hp => ?_
  rw [(List.mem_replicate.mp hp).2, PtrNode.fits, List.length_replicate]
  rfl

theorem pages_valid {n : Nat} (hn : n < 2048) :
    isValidIo { size := 8388608 } 0 (pages n).len = true := by
  rw [BufferList.len, pages_length, isValidIo, decide_eq_true_eq]
  refine ⟨?_, Nat.zero_mod _, ?_⟩
  · show 0 + n * 4096 % 2 ^ 32 ≤ 8388608
    omega
  · show n * 4096 % 2 ^ 32 % 4096 = 0
    omega

/-- A page is written a byte at a time, and read whole. -/
theorem transfers_exact_page :
    WritesExactly slowWrites { size := 8388608 } 0 (pages 1) false ∧
      ReadsExactly slowWrites (fun _ => 0) { size := 8388608 } 0 4096 false := by
  refine (transfers_exact_iff slowWrites_short _ (pages_valid (by decide))
    (by rw [pages_length]; decide) (by decide)).mpr ⟨?_, fun r hr => ?_⟩
  · rw [if_neg (by decide), pages_rebuilt]
    decide
  · obtain rfl : 4096 = r := Option.some.inj hr
    exact ⟨le_rfl, fun _ => rfl⟩

/-- 1025 pages are one too many for a vector; and a read of a page that returns one byte puts a
page behind the list. -/
theorem transfers_not_exact :
    (¬ ∀ (sys : SysCalls) (d : KernelDevice) (off : Nat) (bl : BufferList) (buffered : Bool),
      ShortTransfers sys → d.isValidIo off bl.len = true → bl.bytes.length < 2 ^ 32 →
      WritesExactly sys d off bl buffered) ∧
    ¬ ∀ (sys : SysCalls) (junk : Nat → UInt8) (d : KernelDevice) (off len : Nat) (buffered : Bool),
      ShortTransfers sys → d.isValidIo off len = true → ReadsExactly sys junk d off len buffered := by
  constructor
  · intro hclaim
    have hwrite := hclaim slowWrites { size := 8388608 } 0 (pages 1025) false slowWrites_short
      (pages_valid (by decide)) (by rw [pages_length]; decide)
    have hfew := (writesExactly_iff slowWrites_short (pages_valid (by decide))
      (by rw [pages_length]; decide)).mp hwrite
    rw [if_neg (by decide), pages_rebuilt, pages, List.length_replicate] at hfew
    exact absurd hfew (by decide)
  · intro hclaim
    have hread := hclaim slowReads (fun _ => 0) { size := 8388608 } 0 4096 false slowReads_short
      (by decide)
    have hwhole := (readsExactly_iff slowReads_short _ (by decide)).mp hread 1 rfl
    exact absurd (hwhole.2 (by decide)) (by decide)

end KernelDevice

end Clab.Blk
