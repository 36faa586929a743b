import Clab.Common.DencTraits
import Clab.Common.VarintRoundTrip

/-!
# What the bounds of DENC cover

The bound of a value covers what is written of it. The bounds of the variable-length
formats are constants: they cover every argument whose encoder ends, but for
`denc_varint` of 64 bits, which may write one byte more.
-/

namespace Clab.Common

namespace Varint

/-! ## How long a variable-length integer is -/

theorem encodeVarint_pos {rounds : Nat} {v : Int} {bs : Bytes}
    (h : encodeVarint rounds v = some bs) : 0 < bs.length := by
  cases rounds with
  | zero => cases h
  | succ rounds =>
      rw [encodeVarint] at h
      split at h
      · rw [← Option.some.inj h]
        exact Nat.one_pos
      · obtain ⟨more, -, rfl⟩ := Option.map_eq_some_iff.mp h
        exact Nat.succ_pos _

/-- As many bytes as there are groups of seven bits. -/
theorem encodeVarint_length {rounds n : Nat} {bs : Bytes} (h : encodeVarint rounds n = some bs)
    (k : Nat) : bs.length ≤ k + 1 ↔ n < 128 ^ (k + 1) := by
  induction rounds generalizing n bs k with
  | zero => cases h
  | succ rounds ih =>
      rw [encodeVarint_succ] at h
      split at h
      case isTrue hlast =>
        obtain rfl := Option.some.inj h
        have hpow : 128 ^ 1 ≤ 128 ^ (k + 1) := Nat.pow_le_pow_right (by decide) (by omega)
        exact iff_of_true (by simp) (by omega)
      case isFalse hmore =>
        obtain ⟨more, hrest, rfl⟩ := Option.map_eq_some_iff.mp h
        rw [List.length_cons]
        cases k with
        | zero =>
            have hpos := encodeVarint_pos hrest
            exact iff_of_false (by omega) (by omega)
        | succ k =>
            rw [Nat.succ_le_succ_iff, ih hrest k, Nat.div_lt_iff_lt_mul (by decide), ← Nat.pow_succ]

/-- The encoder ends, and writes no more than the bound. -/
def CoveredBy (bound : Nat) (encode : Nat → Option Bytes) : Prop :=
  ∃ rounds bs, encode rounds = some bs ∧ bs.length ≤ bound

theorem encodeVarint_coveredBy_iff (v : Int) (k : Nat) :
    CoveredBy (k + 1) (fun rounds => encodeVarint rounds v) ↔ 0 ≤ v ∧ v < 128 ^ (k + 1) := by
  constructor
  · rintro ⟨rounds, bs, hbs, hlength⟩
    have hpos : 0 ≤ v := by
      by_contra hneg
      cases (encodeVarint_neg (not_le.mp hneg) rounds).symm.trans hbs
    obtain ⟨n, rfl⟩ := Int.eq_ofNat_of_zero_le hpos
    exact ⟨hpos, by exact_mod_cast (encodeVarint_length hbs k).mp hlength⟩
  · rintro ⟨hpos, hlt⟩
    obtain ⟨n, rfl⟩ := Int.eq_ofNat_of_zero_le hpos
    have hlt : n < 128 ^ (k + 1) := by exact_mod_cast hlt
    obtain ⟨bs, hbs⟩ := encodeVarint_terminates hlt
    exact ⟨k + 1, bs, hbs _ le_rfl, (encodeVarint_length (hbs _ le_rfl) k).mpr hlt⟩

theorem not_coveredBy_none (bound : Nat) : ¬ CoveredBy bound fun _ => none := by
  rintro ⟨rounds, bs, hbs, -⟩
  cases hbs

/-! ## The formats -/

/-- `sizeof(T) + 1`. -/
def boundVarint (width : Nat) : Nat := width + 1

/-- `sizeof(v) + 2`, for every other format. -/
def boundOther : Nat := 8 + 2

/-- What is left to `denc_varint` has 64 bits at most, and 10 groups are enough for them. -/
theorem coveredBy_other_iff {v : Int} (hv : v < 2 ^ 64) :
    CoveredBy boundOther (fun rounds => encodeVarint rounds v) ↔ 0 ≤ v := by
  have hwide : v < 128 ^ (9 + 1) := by
    rw [show (128 : Int) ^ (9 + 1) = 2 ^ 70 from rfl]
    omega
  exact (encodeVarint_coveredBy_iff v 9).trans (and_iff_left hwide)

theorem toInt64_lt (x : Int) : toInt64 x < 2 ^ 63 := by
  rw [toInt64_eq]
  split <;> omega

theorem signedVarint_coveredBy_iff {v : Int} (hlo : -2 ^ 63 ≤ v) (hhi : v < 2 ^ 63) :
    CoveredBy boundOther (fun rounds => encodeSignedVarint rounds v) ↔
      -2 ^ 62 < v ∧ v < 2 ^ 62 := by
  unfold encodeSignedVarint negate
  by_cases hneg : v < 0
  · simp only [if_pos hneg]
    by_cases hmin : v = -2 ^ 63
    · simp only [if_pos hmin, Option.map_none, Option.bind_eq_bind, Option.bind_none]
      exact iff_of_false (not_coveredBy_none _) (by omega)
    · simp only [if_neg hmin, Option.map_some, Option.bind_eq_bind, Option.bind_some]
      have hlt := toInt64_lt (-v * 2)
      rw [coveredBy_other_iff (by omega), toInt64_eq]
      split <;> omega
  · simp only [if_neg hneg, Option.bind_eq_bind, Option.bind_some]
    have hlt := toInt64_lt (v * 2)
    rw [coveredBy_other_iff (by omega), toInt64_eq]
    split <;> omega

theorem varintLowz_coveredBy (v : Nat) :
    CoveredBy boundOther (fun rounds => encodeVarintLowz rounds v) := by
  have hnib : min (nibbles v) 3 < 2 ^ 64 := by omega
  have hword := Nat.or_lt_two_pow
    (Nat.mod_lt ((v >>> (min (nibbles v) 3 * 4)) <<< 2) (by decide : 0 < 2 ^ 64)) hnib
  refine (coveredBy_other_iff ?_).mpr (Int.natCast_nonneg _)
  exact_mod_cast hword

theorem signedVarintLowz_coveredBy_iff {v : Int} (hlo : -2 ^ 63 ≤ v) (hhi : v < 2 ^ 63) :
    CoveredBy boundOther (fun rounds => encodeSignedVarintLowz rounds v) ↔
      v ≠ -2 ^ 63 ∧ (16 ∣ v ∨ v.natAbs % 2 ^ 61 < 2 ^ 60) := by
  by_cases hmin : v = -2 ^ 63
  · have hnone : magnitude v = none := by
      unfold magnitude negate
      rw [if_pos (by omega), if_pos hmin]
    unfold encodeSignedVarintLowz
    simp only [hnone, Option.bind_eq_bind, Option.bind_none]
    exact iff_of_false (not_coveredBy_none _) fun h => h.1 hmin
  · have hm : (if v < 0 then -v else v) = (v.natAbs : Int) := by
      split <;> omega
    simp only [encodeSignedVarintLowz_eq hm hmin]
    have hn : min (nibbles v.natAbs) 3 ≤ 3 := Nat.min_le_right _ _
    rw [coveredBy_other_iff (lowzWord_lt _ hn _), lowzWord_nonneg_iff _ hn]
    rcases shifted_cases (v := v.natAbs) (by omega) rfl with ⟨hzero, hsame, hno⟩ | ⟨-, hdvd, hle⟩
    · rw [hsame]
      omega
    · omega

/-- The first word, and what is behind it. -/
theorem coveredBy_word {word more rest : Nat} (hrest : rest < 128 ^ (5 + 1)) :
    CoveredBy boundOther (fun rounds =>
      if rest = 0 then some (Codec.leBytes 4 word)
      else (encodeVarint rounds rest).map (Codec.leBytes 4 more ++ ·)) := by
  by_cases hzero : rest = 0
  · exact ⟨0, _, if_pos hzero, by rw [Codec.leBytes_length]; decide⟩
  · obtain ⟨bs, hbs⟩ := encodeVarint_terminates hrest
    have hlength := (encodeVarint_length (hbs _ le_rfl) 5).mpr hrest
    refine ⟨5 + 1, Codec.leBytes 4 more ++ bs, ?_, ?_⟩
    · simp only [if_neg hzero, hbs _ le_rfl, Option.map_some]
    · rw [List.length_append, Codec.leBytes_length]
      show _ ≤ 8 + 2
      omega

theorem lba_coveredBy {v : Nat} (hv : v < 2 ^ 64) :
    CoveredBy boundOther (fun rounds => encodeLba rounds v) := by
  have hshift : ∀ k l, 22 ≤ k + l → (v >>> k) >>> l < 128 ^ (5 + 1) := by
    intro k l hkl
    rw [← Nat.shiftRight_add, Nat.shiftRight_eq_div_pow, Nat.div_lt_iff_lt_mul (Nat.two_pow_pos _)]
    calc v < 2 ^ 42 * 2 ^ 22 := hv
      _ ≤ 128 ^ (5 + 1) * 2 ^ (k + l) :=
        Nat.mul_le_mul (by decide) (Nat.pow_le_pow_right (by decide) hkl)
  unfold encodeLba
  simp only
  by_cases hlow : nibbles v < 3
  · simp only [if_pos hlow]
    exact coveredBy_word (hshift 0 (31 - 3) (by decide))
  · simp only [if_neg hlow]
    by_cases hmid : nibbles v - 3 < 3
    · simp only [if_pos hmid]
      exact coveredBy_word (hshift _ _ (by omega))
    · simp only [if_neg hmid]
      exact coveredBy_word (hshift _ _ (by decide))

end Varint

/-! ## Every encoder -/

/-- What is encoded: a value of a type, to a list whose last node has `tail` unused bytes, or an
argument of a variable-length format. `varint` is of an integer type of `width` bytes. -/
inductive Encodable : Type 1 where
  | value {α : Type} (t : Traits α) (x : α) (tail : Nat)
  | varint (width : Nat) (v : Int)
  | signedVarint (v : Int64)
  | varintLowz (v : UInt64)
  | signedVarintLowz (v : Int64)
  | lba (v : UInt64)

namespace Encodable

open Varint

/-- No more is written than the bound adds, and a value not past the space reserved for it. -/
def Covered : Encodable → Prop
  | value t x tail =>
      (∀ a p, (t.encode x a).mem.length - a.mem.length ≤ t.boundEncode x p - p) ∧
        (t.encodeInto x tail).isSome
  | varint width v => CoveredBy (boundVarint width) fun rounds => encodeVarint rounds v
  | signedVarint v => CoveredBy boundOther fun rounds => encodeSignedVarint rounds v.toInt
  | varintLowz v => CoveredBy boundOther fun rounds => encodeVarintLowz rounds v.toNat
  | signedVarintLowz v => CoveredBy boundOther fun rounds => encodeSignedVarintLowz rounds v.toInt
  | lba v => CoveredBy boundOther fun rounds => encodeLba rounds v.toNat

/-- Where the bound is large enough. -/
def Small : Encodable → Prop
  | value t x tail => t.inBand x ≤ max tail (Traits.unsigned (t.inBand x + t.outOfBand x))
  | varint width v => 0 ≤ v ∧ v < 128 ^ (width + 1)
  | signedVarint v => -2 ^ 62 < v.toInt ∧ v.toInt < 2 ^ 62
  | varintLowz _ => True
  | signedVarintLowz v =>
      v.toInt ≠ -2 ^ 63 ∧ (16 ∣ v.toInt ∨ v.toInt.natAbs % 2 ^ 61 < 2 ^ 60)
  | lba _ => True

/-- **The bound covers what is written exactly where the value is small enough.** -/
theorem covered_iff (i : Encodable) : i.Covered ↔ i.Small := by
  cases i with
  | value t x tail =>
      have hbound : ∀ (a : Appender) p,
          (t.encode x a).mem.length - a.mem.length ≤ t.boundEncode x p - p := by
        intro a p
        rw [t.encode_length, t.boundEncode_eq]
        omega
      exact (and_iff_right hbound).trans (t.encodeInto_isSome_iff x tail)
  | varint width v => exact encodeVarint_coveredBy_iff v width
  | signedVarint v => exact signedVarint_coveredBy_iff v.le_toInt v.toInt_lt
  | varintLowz v => exact iff_of_true (varintLowz_coveredBy v.toNat) trivial
  | signedVarintLowz v => exact signedVarintLowz_coveredBy_iff v.le_toInt v.toInt_lt
  | lba v => exact iff_of_true (lba_coveredBy v.toNat_lt) trivial

/-- The largest `uint64_t` takes 10 bytes, and its bound is 9. -/
theorem not_covered : ¬ ∀ i : Encodable, i.Covered := by
  intro hclaim
  have hcovered := hclaim (.varint 8 (2 ^ 64 - 1))
  have hsmall := ((encodeVarint_coveredBy_iff _ 8).mp hcovered).2
  exact absurd hsmall (by decide)

end Encodable

end Clab.Common
