import Mathlib

/-!
# Bits in 64-bit words

A vector of words read as one long row of bits, with the masks that set and
clear a bit, and a word read as 32 fields of two bits.
-/

namespace Clab.WordBits

/-- A machine word. -/
abbrev Word := BitVec 64

/-- The contents of a vector of words. -/
abbrev Words := Nat → Word

/-- Bit `p` of the row. -/
def bit (v : Words) (p : Nat) : Bool := (v (p / 64)).getLsbD (p % 64)

/-- `v[p / 64] |= 1 << (p % 64)`. -/
def setBit (v : Words) (p : Nat) : Words :=
  Function.update v (p / 64) (v (p / 64) ||| 1#64 <<< (p % 64))

/-- `v[p / 64] &= ~(1 << (p % 64))`. -/
def clearBit (v : Words) (p : Nat) : Words :=
  Function.update v (p / 64) (v (p / 64) &&& ~~~(1#64 <<< (p % 64)))

/-- Field `off` of a word. -/
def field (w : Word) (off : Nat) : Word := (w >>> (off * 2)) &&& 3#64

/-- The word with field `off` replaced. -/
def setField (w : Word) (off : Nat) (x : Word) : Word :=
  (w &&& ~~~(3#64 <<< (off * 2))) ||| (x <<< (off * 2))

/-! ## Single bits -/

/-- Replacing one word of the row. -/
theorem bit_update (v : Words) (i : Nat) (w : Word) (q : Nat) :
    bit (Function.update v i w) q = if q / 64 = i then w.getLsbD (q % 64) else bit v q := by
  unfold bit
  rw [Function.update_apply]
  split <;> rfl

/-- A shifted one has the one bit. -/
theorem getLsbD_one_shiftLeft {i j : Nat} (hi : i < 64) :
    (1#64 <<< i).getLsbD j = decide (j = i) := by
  simp only [BitVec.getLsbD_shiftLeft, BitVec.getLsbD_one]
  by_cases hj : j = i
  · subst hj
    simp [hi]
  · have : j < i ∨ i < j := by omega
    rcases this with h | h
    · simp [h, hj]
    · have : j - i ≠ 0 := by omega
      simp [hj, this]

theorem div_mod_eq {p q d : Nat} (h : q / d = p / d) (h' : q % d = p % d) : q = p := by
  rw [← Nat.div_add_mod q d, ← Nat.div_add_mod p d, h, h']

theorem bit_setBit (v : Words) (p q : Nat) :
    bit (setBit v p) q = if q = p then true else bit v q := by
  unfold setBit
  rw [bit_update]
  by_cases hw : q / 64 = p / 64
  · rw [if_pos hw, BitVec.getLsbD_or, getLsbD_one_shiftLeft (Nat.mod_lt p (by decide))]
    by_cases hq : q = p
    · subst hq
      simp
    · have hm : q % 64 ≠ p % 64 := fun hm => hq (div_mod_eq hw hm)
      simp [hq, hm, bit, hw]
  · have hq : q ≠ p := fun hq => hw (by rw [hq])
    rw [if_neg hw, if_neg hq]

theorem bit_clearBit (v : Words) (p q : Nat) :
    bit (clearBit v p) q = if q = p then false else bit v q := by
  unfold clearBit
  rw [bit_update]
  by_cases hw : q / 64 = p / 64
  · have hlt : q % 64 < 64 := Nat.mod_lt q (by decide)
    rw [if_pos hw, BitVec.getLsbD_and, BitVec.getLsbD_not,
      getLsbD_one_shiftLeft (Nat.mod_lt p (by decide))]
    by_cases hq : q = p
    · subst hq
      simp
    · have hm : q % 64 ≠ p % 64 := fun hm => hq (div_mod_eq hw hm)
      simp [hq, hm, bit, hw, hlt]
  · have hq : q ≠ p := fun hq => hw (by rw [hq])
    rw [if_neg hw, if_neg hq]

/-! ## Two-bit fields -/

theorem getLsbD_three (j : Nat) : (3#64).getLsbD j = decide (j < 2) := by
  by_cases hj : j < 64
  · revert j
    decide
  · have : ¬ j < 2 := by omega
    simp [BitVec.getLsbD_of_ge _ j (by omega : 64 ≤ j), this]

/-- Writing one field leaves the others. -/
theorem field_setField {w x : Word} {off off' : Nat} (hoff : off < 32) (hoff' : off' < 32)
    (hx : x &&& 3#64 = x) :
    field (setField w off x) off' = if off' = off then x else field w off' := by
  have hxj : ∀ j, 2 ≤ j → x.getLsbD j = false := by
    intro j hj
    rw [← hx, BitVec.getLsbD_and, getLsbD_three]
    simp [show ¬ j < 2 by omega]
  refine BitVec.eq_of_getLsbD_eq fun j hj => ?_
  have hl : (field (setField w off x) off').getLsbD j =
      (((w.getLsbD (off' * 2 + j) &&
            !(decide (off * 2 ≤ off' * 2 + j ∧ off' * 2 + j < off * 2 + 2))) ||
          (decide (off * 2 ≤ off' * 2 + j) && decide (off' * 2 + j < 64) &&
            x.getLsbD (off' * 2 + j - off * 2))) &&
        decide (j < 2)) := by
    unfold field setField
    simp only [BitVec.getLsbD_and, BitVec.getLsbD_ushiftRight, BitVec.getLsbD_or,
      BitVec.getLsbD_not, BitVec.getLsbD_shiftLeft, getLsbD_three]
    by_cases h2 : j < 2
    · have : off' * 2 + j < 64 := by omega
      by_cases ha : off * 2 ≤ off' * 2 + j
      · have : ¬ (off' * 2 + j < off * 2) := by omega
        simp [*]
        congr 2
        simp
        omega
      · have : off' * 2 + j < off * 2 := by omega
        simp [*]
    · simp [h2]
  rw [hl]
  by_cases h2 : j < 2
  · by_cases ho : off' = off
    · subst ho
      have : off' * 2 + j < 64 := by omega
      simp [h2, this]
    · rw [if_neg ho]
      unfold field
      rw [BitVec.getLsbD_and, BitVec.getLsbD_ushiftRight, getLsbD_three]
      have hn : ¬ (off * 2 ≤ off' * 2 + j ∧ off' * 2 + j < off * 2 + 2) := by omega
      by_cases ha : off * 2 ≤ off' * 2 + j
      · have := hxj (off' * 2 + j - off * 2) (by omega)
        simp [h2, hn, this]
      · simp [h2, ha]
  · by_cases ho : off' = off
    · simp [h2, ho, hxj j (by omega)]
    · rw [if_neg ho]
      unfold field
      rw [BitVec.getLsbD_and, getLsbD_three]
      simp [h2]

end Clab.WordBits
