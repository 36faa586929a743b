import Mathlib

/-!
# Integer arithmetic

`common/intarith.h` on natural numbers standing for 64-bit unsigned integers.
The alignment functions of the source mask with `-align`, so they are defined
here by what the mask computes for a power of two.
-/

namespace Clab.Common

/-- `isp2`. -/
def isp2 (x : Nat) : Bool := decide (x > 0) && x &&& (x - 1) == 0

/-- `p2align`. -/
def p2align (x align : Nat) : Nat := x / align * align

/-- `p2roundup`, in 64 bits. -/
def p2roundup (x align : Nat) : Nat := (x + align - 1) / align * align % 2 ^ 64

/-- `cbits`: the number of bits of `v`. -/
def cbits (v : Nat) : Nat := if v = 0 then 0 else Nat.log2 v + 1

/-- Unsigned 64-bit addition. -/
def add64 (a b : Nat) : Nat := (a + b) % 2 ^ 64

/-- Unsigned 64-bit subtraction. -/
def sub64 (a b : Nat) : Nat := (a + 2 ^ 64 - b) % 2 ^ 64

/-- `a -= b` of a 64-bit counter, which wraps below zero. -/
def dec64 (a b : Nat) : Nat := if b ≤ a then a - b else a + 2 ^ 64 - b

theorem dec64_of_le {a b : Nat} (h : b ≤ a) : dec64 a b = a - b := if_pos h

theorem dec64_eq_self {a b : Nat} (hb : b < 2 ^ 64) : dec64 a b = a ↔ b = 0 := by
  unfold dec64
  split <;> omega

theorem add64_of_lt {a b : Nat} (h : a + b < 2 ^ 64) : add64 a b = a + b := Nat.mod_eq_of_lt h

theorem sub64_of_le {a b : Nat} (hb : b ≤ a) (ha : a < 2 ^ 64) : sub64 a b = a - b := by
  unfold sub64
  omega

theorem p2align_le (x align : Nat) : p2align x align ≤ x := Nat.div_mul_le_self x align

theorem lt_p2align_add (x : Nat) {align : Nat} (h : 0 < align) : x < p2align x align + align := by
  unfold p2align
  have := Nat.div_add_mod x align
  have := Nat.mod_lt x h
  rw [Nat.mul_comm]
  omega

theorem p2align_mod (x align : Nat) : p2align x align % align = 0 := Nat.mul_mod_left _ _

/-- The lowest set bit, which the source isolates as `x & -x`. -/
theorem lowbit_ne_zero {x : Nat} (h₀ : 0 < x) (hx : x < 2 ^ 64) : x &&& sub64 0 x ≠ 0 := by
  intro hand
  have hsub : sub64 0 x = 2 ^ 64 - x := by
    unfold sub64
    omega
  rw [hsub] at hand
  have hbits : BitVec.ofNat 65 x &&& BitVec.ofNat 65 (2 ^ 64 - x) = 0#65 := by
    apply BitVec.eq_of_toNat_eq
    rw [BitVec.toNat_and, BitVec.toNat_ofNat, BitVec.toNat_ofNat, Nat.mod_eq_of_lt (by omega),
      Nat.mod_eq_of_lt (by omega), hand]
    rfl
  have hadd := congrArg BitVec.toNat (BitVec.add_eq_or_of_and_eq_zero _ _ hbits)
  rw [BitVec.toNat_add, BitVec.toNat_or, BitVec.toNat_ofNat, BitVec.toNat_ofNat,
    Nat.mod_eq_of_lt (a := x) (by omega), Nat.mod_eq_of_lt (a := 2 ^ 64 - x) (by omega)] at hadd
  have hlt := Nat.or_lt_two_pow hx (show 2 ^ 64 - x < 2 ^ 64 by omega)
  omega

theorem isp2_iff {x : Nat} : isp2 x = true ↔ ∃ k, x = 2 ^ k := by
  rw [← Nat.isPowerOfTwo, ← Nat.ne_zero_and_sub_one_eq_zero_iff_isPowerOfTwo]
  simp [isp2, Nat.pos_iff_ne_zero]

theorem isp2_dvd {x : Nat} (h : isp2 x = true) (hx : x < 2 ^ 64) : x ∣ 2 ^ 63 := by
  obtain ⟨k, rfl⟩ := isp2_iff.mp h
  have := (Nat.pow_lt_pow_iff_right (by decide)).mp hx
  exact Nat.pow_dvd_pow 2 (by omega)

theorem p2roundup_bounds {x align : Nat} (hx : x ≤ 2 ^ 63) (ha : 0 < align) (hd : align ∣ 2 ^ 63) :
    x ≤ p2roundup x align ∧ p2roundup x align ≤ 2 ^ 63 := by
  obtain ⟨c, hc⟩ := hd
  have hdiv := Nat.div_add_mod (x + align - 1) align
  have hmod := Nat.mod_lt (x + align - 1) ha
  have hle : (x + align - 1) / align ≤ c := by
    rw [← Nat.lt_succ_iff, Nat.div_lt_iff_lt_mul ha, Nat.succ_mul, Nat.mul_comm, ← hc]
    omega
  have hmul : (x + align - 1) / align * align ≤ 2 ^ 63 := by
    rw [hc, Nat.mul_comm align]
    exact Nat.mul_le_mul_right _ hle
  have heq : p2roundup x align = (x + align - 1) / align * align := by
    unfold p2roundup
    exact Nat.mod_eq_of_lt (by omega)
  rw [heq]
  rw [Nat.mul_comm] at hdiv
  omega

theorem p2roundup_dvd {x align : Nat} (hd : align ∣ 2 ^ 63) : align ∣ p2roundup x align := by
  have h64 : align ∣ 2 ^ 64 := hd.trans (by decide)
  exact (Nat.dvd_mod_iff h64).mpr (Nat.dvd_mul_left _ _)

theorem p2roundup_lt {x align : Nat} (ha : 0 < align) : p2roundup x align < x + align := by
  have hmod : p2roundup x align ≤ (x + align - 1) / align * align := Nat.mod_le _ _
  have hmul := Nat.div_mul_le_self (x + align - 1) align
  omega

end Clab.Common
