import Clab.Common.Crc32

/-!
# The algebra of CRC-32C

The register is fed one byte after the other, and its changes are linear: a change
of the seed adds what zeros make of the change. Both ends invert the register, so
that the checksum of zeros is linear only up to the checksum of zeros with seed 0.
-/

namespace Clab.Common

/-- A step of the loop of `calc_crc32` for a null pointer, which feeds a zero byte. -/
def crc32Zero (crc : BitVec 32) : BitVec 32 := (crc >>> 8) ^^^ crc32Table (crc &&& 0xFF#32)

/-- `calc_crc32(NULL, length, previous_crc)`. -/
def calcCrc32Null (length : Nat) (previousCrc : BitVec 32) : BitVec 32 :=
  if length = 0 then previousCrc else ~~~ crc32Zero^[length] (~~~ previousCrc)

/-! ## Linearity -/

theorem crc32Shift_eq (a : BitVec 32) :
    crc32Shift a = (a >>> 1) ^^^ (if a.getLsbD 0 then polyCastagnoli else 0#32) := by
  unfold crc32Shift
  split
  · rfl
  · rw [BitVec.xor_zero]

theorem crc32Shift_xor (a b : BitVec 32) :
    crc32Shift (a ^^^ b) = crc32Shift a ^^^ crc32Shift b := by
  have hpoly : (if (a ^^^ b).getLsbD 0 then polyCastagnoli else 0#32) =
      (if a.getLsbD 0 then polyCastagnoli else 0#32) ^^^
        (if b.getLsbD 0 then polyCastagnoli else 0#32) := by
    rw [BitVec.getLsbD_xor]
    cases a.getLsbD 0 <;> cases b.getLsbD 0 <;> simp
  rw [crc32Shift_eq, crc32Shift_eq, crc32Shift_eq, hpoly, BitVec.ushiftRight_xor_distrib]
  ac_rfl

theorem crc32Table_xor (a b : BitVec 32) :
    crc32Table (a ^^^ b) = crc32Table a ^^^ crc32Table b := by
  simp only [crc32Table, crc32Shift_xor]

theorem and_xor_distrib_right (a b c : BitVec 32) :
    (a ^^^ b) &&& c = (a &&& c) ^^^ (b &&& c) := by
  ext i
  simp only [BitVec.getElem_xor, BitVec.getElem_and]
  exact Bool.and_xor_distrib_right _ _ _

theorem crc32Zero_xor (a b : BitVec 32) : crc32Zero (a ^^^ b) = crc32Zero a ^^^ crc32Zero b := by
  unfold crc32Zero
  rw [BitVec.ushiftRight_xor_distrib, and_xor_distrib_right, crc32Table_xor]
  ac_rfl

/-- A byte makes of a changed register what it makes of the register, and the change what a zero
makes of it. -/
theorem crc32Step_xor (a b : BitVec 32) (x : UInt8) :
    crc32Step (a ^^^ b) x = crc32Step a x ^^^ crc32Zero b := by
  have hbyte : a ^^^ b ^^^ BitVec.ofNat 32 x.toNat = (a ^^^ BitVec.ofNat 32 x.toNat) ^^^ b := by
    ac_rfl
  unfold crc32Step crc32Zero
  rw [hbyte, BitVec.ushiftRight_xor_distrib, and_xor_distrib_right, crc32Table_xor]
  ac_rfl

theorem foldl_crc32Step_xor (data : List UInt8) (a b : BitVec 32) :
    data.foldl crc32Step (a ^^^ b) = data.foldl crc32Step a ^^^ crc32Zero^[data.length] b := by
  induction data generalizing a b with
  | nil => rfl
  | cons x data ih =>
      rw [List.foldl_cons, List.foldl_cons, crc32Step_xor, ih, List.length_cons,
        Function.iterate_succ_apply]

theorem iterate_crc32Zero_xor (n : Nat) (a b : BitVec 32) :
    crc32Zero^[n] (a ^^^ b) = crc32Zero^[n] a ^^^ crc32Zero^[n] b := by
  induction n generalizing a b with
  | zero => rfl
  | succ n ih => simp only [Function.iterate_succ_apply, crc32Zero_xor, ih]

/-! ## Checksums -/

theorem not_eq_xor (a : BitVec 32) : ~~~ a = a ^^^ BitVec.allOnes 32 := by
  rw [BitVec.xor_allOnes]

theorem not_xor_cancel (a b : BitVec 32) : ~~~ (a ^^^ b) = ~~~ a ^^^ b := by
  rw [not_eq_xor, not_eq_xor]
  ac_rfl

/-- The checksum of two pieces is that of the second with the first as its seed. -/
theorem calcCrc32_append (x y : List UInt8) (seed : BitVec 32) :
    calcCrc32 (x ++ y) seed = calcCrc32 y (calcCrc32 x seed) := by
  cases x with
  | nil => rfl
  | cons a x =>
      cases y with
      | nil => rw [List.append_nil]; rfl
      | cons b y =>
          show ~~~ ((a :: x) ++ (b :: y)).foldl crc32Step (~~~ seed) =
            ~~~ (b :: y).foldl crc32Step (~~~ ~~~ (a :: x).foldl crc32Step (~~~ seed))
          rw [List.foldl_append, BitVec.not_not]

/-- Another seed changes the checksum by what zeros make of the change. -/
theorem calcCrc32_xor (data : List UInt8) (seed change : BitVec 32) :
    calcCrc32 data (seed ^^^ change) = calcCrc32 data seed ^^^ crc32Zero^[data.length] change := by
  cases data with
  | nil => rfl
  | cons a data =>
      show ~~~ (a :: data).foldl crc32Step (~~~ (seed ^^^ change)) =
        ~~~ (a :: data).foldl crc32Step (~~~ seed) ^^^ _
      rw [not_xor_cancel, foldl_crc32Step_xor, not_xor_cancel]

/-- The checksum of zeros is linear up to the one with seed 0. -/
theorem calcCrc32Null_eq {n : Nat} (hn : n ≠ 0) (seed : BitVec 32) :
    calcCrc32Null n seed = crc32Zero^[n] seed ^^^ calcCrc32Null n 0#32 := by
  unfold calcCrc32Null
  rw [if_neg hn, if_neg hn]
  show ~~~ crc32Zero^[n] (~~~ seed) = crc32Zero^[n] seed ^^^ ~~~ crc32Zero^[n] (~~~ 0#32)
  have hseed : ~~~ seed = seed ^^^ ~~~ 0#32 := by
    rw [not_eq_xor, not_eq_xor, BitVec.zero_xor]
  rw [hseed, iterate_crc32Zero_xor, BitVec.xor_comm, not_xor_cancel]
  ac_rfl

/-- A checksum adjusted to another seed is off by the checksum of as many zeros with seed 0. -/
theorem calcCrc32_adjust {data : List UInt8} (hdata : data ≠ []) (seed seed' : BitVec 32) :
    calcCrc32 data seed ^^^ calcCrc32Null data.length (seed ^^^ seed') =
      calcCrc32 data seed' ^^^ calcCrc32Null data.length 0#32 := by
  have hseed : seed' = seed ^^^ (seed ^^^ seed') := by
    rw [← BitVec.xor_assoc, BitVec.xor_self, BitVec.zero_xor]
  have hadjusted : calcCrc32 data seed' =
      calcCrc32 data seed ^^^ crc32Zero^[data.length] (seed ^^^ seed') := by
    rw [← calcCrc32_xor, ← hseed]
  rw [hadjusted, calcCrc32Null_eq (by simpa using hdata)]
  ac_rfl

/-- An adjusted checksum is right exactly where that of the zeros vanishes. -/
theorem calcCrc32_adjust_iff {data : List UInt8} (hdata : data ≠ []) (seed seed' : BitVec 32) :
    calcCrc32 data seed ^^^ calcCrc32Null data.length (seed ^^^ seed') = calcCrc32 data seed' ↔
      calcCrc32Null data.length 0#32 = 0#32 := by
  rw [calcCrc32_adjust hdata]
  constructor
  · intro heq
    have hcancel := congrArg (calcCrc32 data seed' ^^^ ·) heq
    simpa [← BitVec.xor_assoc] using hcancel
  · intro hzero
    rw [hzero, BitVec.xor_zero]

end Clab.Common
