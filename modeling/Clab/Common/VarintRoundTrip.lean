import Clab.Common.Varint

/-!
# Which integers come back

For each variable-length format, the values that its decoder gives back. All of
them do for `denc_varint` and `denc_lba`; the others shift two or three bits in,
and the value must have as many to spare once its low zero nibbles are gone.
-/

namespace Clab.Common.Varint

open Codec

/-! ## Low zero nibbles -/

theorem two_pow_dvd_iff {v k : Nat} : 2 ^ k ∣ v ↔ ∀ i, i < k → v.testBit i = false := by
  constructor
  · rintro ⟨m, rfl⟩ i hi
    rw [Nat.testBit_two_pow_mul, decide_eq_false (by omega), Bool.false_and]
  · intro h
    refine Nat.dvd_of_mod_eq_zero (Nat.eq_of_testBit_eq fun i => ?_)
    rw [Nat.testBit_mod_two_pow, Nat.zero_testBit]
    by_cases hi : i < k
    · rw [h i hi, Bool.and_false]
    · rw [decide_eq_false hi, Bool.false_and]

theorem ctz_spec {v : Nat} (hv : v ≠ 0) (hlt : v < 2 ^ 64) :
    v.testBit (ctz v) = true ∧ ∀ i, i < ctz v → v.testBit i = false := by
  unfold ctz
  cases hf : (List.range 64).find? v.testBit with
  | none =>
      refine absurd (Nat.eq_of_testBit_eq fun i => ?_) hv
      rw [Nat.zero_testBit]
      by_cases hi : i < 64
      · simpa using List.find?_eq_none.mp hf i (List.mem_range.mpr hi)
      · exact Nat.testBit_lt_two_pow (hlt.trans_le (Nat.pow_le_pow_right (by decide) (by omega)))
  | some i =>
      refine ⟨List.find?_some hf, fun j hj => ?_⟩
      simpa using (List.find?_range_eq_some.mp hf).2.2 j hj

theorem le_nibbles_iff {v k : Nat} (hv : v ≠ 0) (hlt : v < 2 ^ 64) :
    k ≤ nibbles v ↔ 2 ^ (k * 4) ∣ v := by
  obtain ⟨hbit, hlow⟩ := ctz_spec hv hlt
  unfold nibbles
  rw [if_neg hv, two_pow_dvd_iff, Nat.le_div_iff_mul_le (by decide)]
  constructor
  · intro hk i hi
    exact hlow i (by omega)
  · intro h
    by_contra hlt
    rw [h _ (by omega)] at hbit
    cases hbit

/-- What is shifted out is zero. -/
theorem shift_nibbles {v n : Nat} (hlt : v < 2 ^ 64) (hn : n ≤ nibbles v) :
    v >>> (n * 4) * 2 ^ (n * 4) = v := by
  rw [Nat.shiftRight_eq_div_pow]
  refine Nat.div_mul_cancel ?_
  by_cases hv : v = 0
  · rw [hv]
    exact dvd_zero _
  · exact (le_nibbles_iff hv hlt).mp hn

theorem nibbles_eq_zero_iff {v : Nat} (hlt : v < 2 ^ 64) : nibbles v = 0 ↔ v = 0 ∨ ¬ 16 ∣ v := by
  by_cases hv : v = 0
  · simp [hv, nibbles]
  · have h := le_nibbles_iff (k := 1) hv hlt
    rw [or_iff_right hv, show (16 : Nat) = 2 ^ (1 * 4) from rfl, ← h]
    omega

/-- The nibbles that are counted, three at most, are shifted out: none, or enough to
make room. -/
theorem shifted_cases {v n : Nat} (hlt : v < 2 ^ 64) (hn : min (nibbles v) 3 = n) :
    (n = 0 ∧ v >>> (n * 4) = v ∧ (v = 0 ∨ ¬ 16 ∣ v)) ∨
    (n ≠ 0 ∧ 16 ∣ v ∧ v >>> (n * 4) * 16 ≤ v) := by
  have hshift := shift_nibbles hlt (hn ▸ Nat.min_le_left (nibbles v) 3)
  have hzero := nibbles_eq_zero_iff hlt
  by_cases h0 : n = 0
  · refine .inl ⟨h0, ?_, hzero.mp (by omega)⟩
    rw [h0]
    exact Nat.shiftRight_zero
  · refine .inr ⟨h0, ?_, ?_⟩
    · by_contra hno
      have := hzero.mpr (.inr hno)
      omega
    · have hpow : 2 ^ 4 ≤ 2 ^ (n * 4) := Nat.pow_le_pow_right (by decide) (by omega)
      calc v >>> (n * 4) * 16 ≤ v >>> (n * 4) * 2 ^ (n * 4) := Nat.mul_le_mul_left _ hpow
        _ = v := hshift

/-! ## One value of `denc_varint` -/

theorem decodes_unique {α : Type} {d : Codec.Decoder α} {bs : Bytes} {x y : α}
    (hx : Codec.Decodes d bs x) (hy : Codec.Decodes d bs y) : x = y := by
  have h := (hx []).symm.trans (hy [])
  injection h with hpair
  injection hpair

/-- A format that leaves `i` to `denc_varint` and makes a value of what it reads. -/
theorem roundTrips_iff {β : Type} (f : Nat → β) {x : β} {i : Int} (hi : i < 2 ^ 64) :
    RoundTrips (fun rounds => encodeVarint rounds i)
        (decodeVarint >>= fun n => Pure.pure (f n)) x ↔ 0 ≤ i ∧ f i.toNat = x := by
  constructor
  · rintro ⟨bs, enough, hbs, hdec⟩
    have hpos : 0 ≤ i := by
      by_contra hneg
      have := (hbs enough (Nat.le_refl _)).symm.trans (encodeVarint_neg (by omega) enough)
      cases this
    obtain ⟨n, rfl⟩ := Int.eq_ofNat_of_zero_le hpos
    have hn := decodeVarint_encode (hbs enough (Nat.le_refl _)) (by omega)
    exact ⟨hpos, decodes_unique (Codec.Decodes.map hn) hdec⟩
  · rintro ⟨hpos, rfl⟩
    obtain ⟨n, rfl⟩ := Int.eq_ofNat_of_zero_le hpos
    obtain ⟨bs, hbs⟩ := encodeVarint_terminates (k := 9) (n := n)
      (by rw [show 128 ^ (9 + 1) = 2 ^ 70 from rfl]; omega)
    exact ⟨bs, 10, hbs, Codec.Decodes.map (decodeVarint_encode (hbs 10 (Nat.le_refl _)) (by omega))⟩

theorem not_roundTrips_none {β : Type} {d : Codec.Decoder β} {x : β} :
    ¬ RoundTrips (fun _ => none) d x := by
  rintro ⟨bs, enough, hbs, -⟩
  cases hbs enough (Nat.le_refl _)

theorem toInt64_eq (x : Int) :
    toInt64 x = if x % 2 ^ 64 < 2 ^ 63 then x % 2 ^ 64 else x % 2 ^ 64 - 2 ^ 64 := by
  unfold toInt64
  rw [Int.bmod_def]
  rfl

/-! ## The formats -/

theorem varint_roundTrips {v : Nat} (hv : v < 2 ^ 64) :
    RoundTrips (fun rounds => encodeVarint rounds v) decodeVarint v := by
  have h := (roundTrips_iff (fun n => n) (x := v) (i := v) (by omega)).mpr ⟨by omega, by omega⟩
  rwa [bind_pure] at h

theorem signedVarint_roundTrips_iff {v : Int} (hlo : -2 ^ 63 ≤ v) (hhi : v < 2 ^ 63) :
    RoundTrips (fun rounds => encodeSignedVarint rounds v) decodeSignedVarint v ↔
      -2 ^ 62 < v ∧ v < 2 ^ 62 := by
  have hbound : ∀ x, toInt64 x < 2 ^ 63 := by
    intro x
    rw [toInt64_eq]
    split <;> omega
  unfold encodeSignedVarint decodeSignedVarint negate
  by_cases hneg : v < 0
  · simp only [if_pos hneg]
    by_cases hmin : v = -2 ^ 63
    · simp only [if_pos hmin, Option.map_none, Option.bind_eq_bind, Option.bind_none]
      exact iff_of_false not_roundTrips_none (by omega)
    · simp only [if_neg hmin, Option.map_some, Option.bind_eq_bind, Option.bind_some]
      refine (roundTrips_iff (fun n : Nat => let i := toInt64 n; if i % 2 = 1 then -(i / 2) else i / 2)
        (by have := hbound (-v * 2); omega)).trans ?_
      dsimp only
      rw [toInt64_eq (-v * 2)]
      split
      · rw [toInt64_eq]
        constructor
        · intro h
          omega
        · intro h
          refine ⟨by omega, ?_⟩
          split <;> split <;> omega
      · omega
  · simp only [if_neg hneg, Option.bind_eq_bind, Option.bind_some]
    refine (roundTrips_iff (fun n : Nat => let i := toInt64 n; if i % 2 = 1 then -(i / 2) else i / 2)
      (by have := hbound (v * 2); omega)).trans ?_
    dsimp only
    rw [toInt64_eq (v * 2)]
    split
    · rw [toInt64_eq]
      constructor
      · intro h
        omega
      · intro h
        refine ⟨by omega, ?_⟩
        split <;> split <;> omega
    · omega

theorem varintLowz_roundTrips_iff {v : Nat} (hv : v < 2 ^ 64) :
    RoundTrips (fun rounds => encodeVarintLowz rounds v) decodeVarintLowz v ↔
      v < 2 ^ 62 ∨ 16 ∣ v := by
  have hshift := shift_nibbles hv (Nat.min_le_left (nibbles v) 3)
  unfold encodeVarintLowz decodeVarintLowz
  dsimp only
  generalize hn : min (nibbles v) 3 = n at hshift
  have hcases := shifted_cases hv hn
  have hn3 : n ≤ 3 := hn ▸ Nat.min_le_right _ _
  clear hn
  generalize v >>> (n * 4) = w at hshift hcases
  have hword : w <<< 2 % 2 ^ 64 ||| n = w % 2 ^ 62 * 4 + n := by
    have hw : w <<< 2 % 2 ^ 64 = (w % 2 ^ 62) <<< 2 := by
      rw [Nat.shiftLeft_eq, Nat.shiftLeft_eq]
      omega
    rw [hw, or_low (by omega), show 2 ^ 2 = 4 from rfl]
  rw [hword]
  refine (roundTrips_iff (fun i : Nat => (i >>> 2) <<< ((i &&& 3) * 4) % 2 ^ 64) (by omega)).trans ?_
  have hlow : (w % 2 ^ 62 * 4 + n) &&& 3 = n := by
    rw [show (3 : Nat) = 2 ^ 2 - 1 from rfl, Nat.and_two_pow_sub_one_eq_mod]
    omega
  have hhigh : (w % 2 ^ 62 * 4 + n) >>> 2 = w % 2 ^ 62 := by
    rw [Nat.shiftRight_eq_div_pow]
    omega
  rw [Int.toNat_natCast, hlow, hhigh, Nat.shiftLeft_eq]
  rcases hcases with ⟨rfl, rfl, hno⟩ | ⟨-, hdvd, hle⟩
  · rw [Nat.zero_mul, pow_zero, Nat.mul_one]
    omega
  · rw [Nat.mod_eq_of_lt (show w < 2 ^ 62 by omega), hshift, Nat.mod_eq_of_lt hv]
    exact iff_of_true ⟨by omega, rfl⟩ (.inr hdvd)

/-- The word of `denc_signed_varint_lowz`, of a magnitude shifted to `w`. -/
def lowzWord (w n : Nat) (sign : Bool) : Int :=
  toInt64 ((w : Int) * 8) + n * 2 + if sign then 1 else 0

/-- A word that is not negative is read back without its three top bits. -/
theorem lowzWord_read {w n : Nat} {sign : Bool} (hn : n ≤ 3) (hpos : 0 ≤ lowzWord w n sign) :
    let i := toInt64 ((lowzWord w n sign).toNat : Int)
    i / 8 = (w % 2 ^ 61 : Nat) ∧ (i % 8 / 2).toNat = n ∧ (i % 2 = 1 ↔ sign = true) := by
  have hsign : (if sign then (1 : Int) else 0) = if sign = true then 1 else 0 := rfl
  have hword : toInt64 ((lowzWord w n sign).toNat : Int) =
      (w % 2 ^ 61 : Nat) * 8 + n * 2 + (if sign then 1 else 0) := by
    unfold lowzWord at hpos ⊢
    rw [toInt64_eq ((w : Int) * 8)] at hpos ⊢
    split at hpos
    · rename_i hlt
      rw [if_pos hlt, toInt64_eq]
      cases sign <;> simp only [Bool.false_eq_true, if_true, if_false] at hpos ⊢
      · rw [if_pos (by omega)]
        omega
      · rw [if_pos (by omega)]
        omega
    · cases sign <;> simp only [Bool.false_eq_true, if_true, if_false] at hpos ⊢ <;> omega
  dsimp only
  rw [hword]
  cases sign <;> simp only [Bool.false_eq_true, if_true, if_false, iff_true, iff_false]
  · exact ⟨by omega, by omega, by omega⟩
  · exact ⟨by omega, by omega, by omega⟩

theorem lowzWord_nonneg_iff (w : Nat) {n : Nat} (hn : n ≤ 3) (sign : Bool) :
    0 ≤ lowzWord w n sign ↔ w % 2 ^ 61 < 2 ^ 60 := by
  unfold lowzWord
  rw [toInt64_eq]
  cases sign <;> simp only [Bool.false_eq_true, if_true, if_false] <;> split <;> omega

theorem lowzWord_lt (w : Nat) {n : Nat} (hn : n ≤ 3) (sign : Bool) :
    lowzWord w n sign < 2 ^ 64 := by
  unfold lowzWord
  rw [toInt64_eq]
  cases sign <;> simp only [Bool.false_eq_true, if_true, if_false] <;> split <;> omega

/-- The magnitude and the sign of `denc_signed_varint_lowz`. -/
theorem magnitude_roundTrips_iff {m : Nat} (hm : m < 2 ^ 63) {n : Nat}
    (hn : min (nibbles m) 3 = n) (sign : Bool) :
    RoundTrips (fun rounds => encodeVarint rounds (lowzWord (m >>> (n * 4)) n sign))
        decodeSignedVarintLowz (if sign then -(m : Int) else m) ↔ m < 2 ^ 60 ∨ 16 ∣ m := by
  have hshift := shift_nibbles (by omega) (Nat.min_le_left (nibbles m) 3)
  rw [hn] at hshift
  have hcases := shifted_cases (by omega) hn
  have hn3 : n ≤ 3 := hn ▸ Nat.min_le_right _ _
  clear hn
  generalize m >>> (n * 4) = w at hshift hcases
  refine (roundTrips_iff (fun k : Nat =>
    let i := toInt64 k
    let a := toInt64 (i / 8 * 2 ^ ((i % 8 / 2).toNat * 4))
    if i % 2 = 1 then -a else a) (lowzWord_lt w hn3 sign)).trans ?_
  rw [lowzWord_nonneg_iff w hn3]
  have hvalue : w % 2 ^ 61 < 2 ^ 60 → ((let i := toInt64 ((lowzWord w n sign).toNat : Int)
      let a := toInt64 (i / 8 * 2 ^ ((i % 8 / 2).toNat * 4))
      if i % 2 = 1 then -a else a) = (if sign then -(m : Int) else m) ↔
        toInt64 ((w % 2 ^ 61 : Nat) * 2 ^ (n * 4)) = m) := by
    intro hpos
    obtain ⟨hhigh, hlow, hbit⟩ := lowzWord_read hn3 ((lowzWord_nonneg_iff w hn3 sign).mpr hpos)
    dsimp only
    rw [hhigh, hlow]
    simp only [hbit]
    cases sign <;> simp
  rcases hcases with ⟨rfl, rfl, hno⟩ | ⟨-, hdvd, hle⟩
  · constructor
    · rintro ⟨hpos, heq⟩
      have hback := (hvalue hpos).mp heq
      rw [toInt64_eq, Nat.zero_mul, pow_zero, mul_one] at hback
      split at hback <;> omega
    · intro h
      have hpos : w % 2 ^ 61 < 2 ^ 60 := by omega
      refine ⟨hpos, (hvalue hpos).mpr ?_⟩
      rw [toInt64_eq, Nat.zero_mul, pow_zero, mul_one, if_pos (by omega)]
      omega
  · have hpos : w % 2 ^ 61 < 2 ^ 60 := by omega
    refine iff_of_true ⟨hpos, (hvalue hpos).mpr ?_⟩ (.inr hdvd)
    have hcast : ((w % 2 ^ 61 : Nat) : Int) * 2 ^ (n * 4) = m := by
      rw [Nat.mod_eq_of_lt (show w < 2 ^ 61 by omega), ← hshift]
      push_cast
      rfl
    rw [hcast, toInt64_eq, if_pos (by omega)]
    omega

/-- The word that is left to `denc_varint`. -/
theorem encodeSignedVarintLowz_eq {v : Int} {m : Nat} (hm : (if v < 0 then -v else v) = m)
    (hmin : v ≠ -2 ^ 63) (rounds : Nat) :
    encodeSignedVarintLowz rounds v = encodeVarint rounds
      (lowzWord (m >>> (min (nibbles m) 3 * 4)) (min (nibbles m) 3) (decide (v < 0))) := by
  have hsome : magnitude v = some (m : Int) := by
    unfold magnitude negate
    rw [if_neg hmin, ← hm]
    split <;> rfl
  have hdiv : (m : Int) / 2 ^ (min (nibbles m) 3 * 4) =
      ((m >>> (min (nibbles m) 3 * 4) : Nat) : Int) := by
    rw [Nat.shiftRight_eq_div_pow]
    push_cast
    rfl
  unfold encodeSignedVarintLowz lowzWord
  simp only [hsome, Option.bind_eq_bind, Option.bind_some, Int.toNat_natCast, hdiv,
    decide_eq_true_eq]

theorem signedVarintLowz_roundTrips_iff {v : Int} (hlo : -2 ^ 63 ≤ v) (hhi : v < 2 ^ 63) :
    RoundTrips (fun rounds => encodeSignedVarintLowz rounds v) decodeSignedVarintLowz v ↔
      v ≠ -2 ^ 63 ∧ (-2 ^ 60 < v ∧ v < 2 ^ 60 ∨ 16 ∣ v) := by
  by_cases hmin : v = -2 ^ 63
  · have hnone : magnitude v = none := by
      unfold magnitude negate
      rw [if_pos (by omega), if_pos hmin]
    unfold encodeSignedVarintLowz
    simp only [hnone, Option.bind_eq_bind, Option.bind_none]
    exact iff_of_false not_roundTrips_none fun h => h.1 hmin
  · obtain ⟨m, hm⟩ : ∃ m : Nat, (if v < 0 then -v else v) = m := by
      refine Int.eq_ofNat_of_zero_le ?_
      split <;> omega
    have hv : v = if decide (v < 0) then -(m : Int) else m := by
      rw [← hm]
      by_cases hneg : v < 0 <;> simp [hneg]
    have h := magnitude_roundTrips_iff (m := m) (by split at hm <;> omega) rfl (decide (v < 0))
    rw [← hv] at h
    simp only [encodeSignedVarintLowz_eq hm hmin]
    refine h.trans ?_
    split at hm <;> omega

/-! ## `denc_lba` -/

theorem lba_word {v pos tag : Nat} (hpos : pos ≤ 31) (htag : tag < 2 ^ pos) :
    tag ||| (v <<< pos &&& 0x7fffffff) = tag + v % 2 ^ (31 - pos) * 2 ^ pos := by
  have hmask : v <<< pos &&& 0x7fffffff = (v % 2 ^ (31 - pos)) <<< pos := by
    rw [show (0x7fffffff : Nat) = 2 ^ 31 - 1 from rfl, Nat.and_two_pow_sub_one_eq_mod,
      Nat.shiftLeft_eq, Nat.shiftLeft_eq]
    conv_lhs => rw [show 31 = 31 - pos + pos by omega, Nat.pow_add]
    exact Nat.mul_mod_mul_right _ _ _
  rw [hmask, or_low' htag]

/-- The low bits of the first word say where its value stands. -/
theorem lbaStart_eq (word : Nat) :
    (word % 2 = 0 → lbaStart word = (word % 2 ^ 31 / 2 * 2 ^ 12, 42)) ∧
    (word % 4 = 1 → lbaStart word = (word % 2 ^ 31 / 4 * 2 ^ 16, 45)) ∧
    (word % 8 = 3 → lbaStart word = (word % 2 ^ 31 / 8 * 2 ^ 20, 48)) ∧
    (word % 8 = 7 → lbaStart word = (word % 2 ^ 31 / 8, 28)) := by
  have hseven : word &&& 7 = word % 8 := Nat.and_two_pow_sub_one_eq_mod word 3
  have hmask : ∀ k, k ≤ 31 →
      word &&& (2 ^ (31 - k) - 1) <<< k = word % 2 ^ 31 / 2 ^ k * 2 ^ k := by
    intro k hk
    rw [and_shiftLeft, Nat.and_two_pow_sub_one_eq_mod, Nat.shiftRight_eq_div_pow, Nat.shiftLeft_eq]
    conv_rhs => rw [show 31 = k + (31 - k) by omega, Nat.pow_add, Nat.mod_mul_right_div_self]
  have h₁ : word &&& 0x7ffffffe = word % 2 ^ 31 / 2 * 2 := hmask 1 (by decide)
  have h₂ : word &&& 0x7ffffffc = word % 2 ^ 31 / 4 * 4 := hmask 2 (by decide)
  have h₃ : word &&& 0x7ffffff8 = word % 2 ^ 31 / 8 * 8 := hmask 3 (by decide)
  have hmod : word % 8 < 8 := Nat.mod_lt _ (by decide)
  unfold lbaStart
  rw [hseven, h₁, h₂, h₃, Nat.shiftLeft_eq, Nat.shiftLeft_eq, Nat.shiftLeft_eq,
    Nat.shiftRight_eq_div_pow]
  refine ⟨fun h => ?_, fun h => ?_, fun h => ?_, fun h => ?_⟩
  · obtain h | h | h | h : word % 8 = 0 ∨ word % 8 = 2 ∨ word % 8 = 4 ∨ word % 8 = 6 := by omega
    all_goals
      rw [h]
      simp only [Nat.mul_assoc]
      rfl
  · obtain h | h : word % 8 = 1 ∨ word % 8 = 5 := by omega
    all_goals
      rw [h]
      simp only [Nat.mul_assoc]
      rfl
  · rw [h]
    simp only [Nat.mul_assoc]
    rfl
  · rw [h]
    simp only
    rw [Nat.mul_div_cancel _ (by decide)]

/-- A value shifted to `v`, with its tag in the low bits of the word. -/
theorem lba_tail (v pos tag base : Nat) (hpos : pos ≤ 31) (htag : tag < 2 ^ pos)
    (hfit : v * 2 ^ base < 2 ^ 64)
    (hstart : ∀ word, word % 2 ^ pos = tag →
      lbaStart word = (word % 2 ^ 31 / 2 ^ pos * 2 ^ base, base + (31 - pos))) :
    RoundTrips (fun rounds =>
        let word := tag ||| (v <<< pos &&& 0x7fffffff)
        let v := v >>> (31 - pos)
        if v = 0 then some (leBytes 4 word)
        else (encodeVarint rounds v).map (leBytes 4 (word ||| 0x80000000) ++ ·))
      decodeLba (v * 2 ^ base) := by
  dsimp only
  rw [lba_word hpos htag, Nat.shiftRight_eq_div_pow]
  have hpow : 2 ^ 31 = 2 ^ (31 - pos) * 2 ^ pos := by
    rw [← Nat.pow_add]
    congr 1
    omega
  have hlow := Nat.mod_lt v (Nat.two_pow_pos (31 - pos))
  have hdiv := Nat.div_add_mod v (2 ^ (31 - pos))
  generalize v % 2 ^ (31 - pos) = d at hlow hdiv
  generalize v / 2 ^ (31 - pos) = n at hdiv
  have hword : tag + d * 2 ^ pos < 2 ^ 31 := by
    have : (d + 1) * 2 ^ pos ≤ 2 ^ (31 - pos) * 2 ^ pos := Nat.mul_le_mul_right _ hlow
    rw [Nat.succ_mul] at this
    omega
  -- with or without the sign of more bytes, the word has its tag and its data
  have hparts : ∀ word, word = tag + d * 2 ^ pos ∨ word = tag + d * 2 ^ pos + 2 ^ 31 →
      lbaStart word = (d * 2 ^ base, base + (31 - pos)) := by
    intro word hw
    have hmod31 : word % 2 ^ 31 = tag + d * 2 ^ pos := by omega
    have hmodpos : word % 2 ^ pos = tag := by
      rw [← Nat.mod_mod_of_dvd word (Dvd.intro_left _ hpow.symm), hmod31, Nat.add_mul_mod_self_right,
        Nat.mod_eq_of_lt htag]
    rw [hstart word hmodpos, hmod31, Nat.add_mul_div_right _ _ (Nat.two_pow_pos pos),
      Nat.div_eq_of_lt htag, Nat.zero_add]
  have hlt : d * 2 ^ base < 2 ^ (base + (31 - pos)) := by
    rw [Nat.add_comm, Nat.pow_add]
    exact Nat.mul_lt_mul_of_pos_right hlow (Nat.two_pow_pos base)
  have hvalue : v * 2 ^ base = d * 2 ^ base + n * 2 ^ (base + (31 - pos)) := by
    rw [← hdiv, Nat.pow_add]
    ring
  by_cases hn : n = 0
  · subst hn
    refine ⟨leBytes 4 (tag + d * 2 ^ pos), 0, fun rounds _ => if_pos rfl, fun rest => ?_⟩
    show (getLe 4 >>= fun word => _).run _ = _
    rw [StateT.run_bind, getLe_decodes (by omega) rest]
    show moreVarint _ _ _ rest = _
    rw [hparts _ (.inl rfl), hvalue, Nat.zero_mul, Nat.add_zero]
    have hend : (tag + d * 2 ^ pos) >>> 24 &&& 0x80 = 0 := by
      rw [Nat.shiftRight_eq_div_pow, and_0x80 (by omega)]
      omega
    cases rest <;> rw [moreVarint, if_pos hend]
  · have hn64 : n < 128 ^ (9 + 1) := by
      have : n * 1 ≤ n * 2 ^ (base + (31 - pos)) := Nat.mul_le_mul_left _ (Nat.two_pow_pos _)
      rw [show 128 ^ (9 + 1) = 2 ^ 70 from rfl]
      omega
    obtain ⟨bs, hbs⟩ := encodeVarint_terminates hn64
    have htop : tag + d * 2 ^ pos ||| 0x80000000 = tag + d * 2 ^ pos + 2 ^ 31 :=
      or_low' (m := 1) (k := 31) hword
    rw [htop]
    refine ⟨leBytes 4 (tag + d * 2 ^ pos + 2 ^ 31) ++ bs, 10, fun rounds hr => ?_, fun rest => ?_⟩
    · refine (if_neg hn).trans ?_
      rw [hbs rounds hr]
      rfl
    · rw [List.append_assoc]
      show (getLe 4 >>= fun word => _).run _ = _
      rw [StateT.run_bind, getLe_decodes (by omega) (bs ++ rest)]
      show moreVarint _ _ _ (bs ++ rest) = _
      have hmore : (tag + d * 2 ^ pos + 2 ^ 31) >>> 24 &&& 0x80 ≠ 0 := by
        rw [Nat.shiftRight_eq_div_pow, and_0x80 (by omega)]
        omega
      rw [hparts _ (.inr rfl), moreVarint_encode (hbs 10 (Nat.le_refl _)) hmore hlt (by omega)
        (by omega), hvalue]

theorem lba_roundTrips {v : Nat} (hv : v < 2 ^ 64) :
    RoundTrips (fun rounds => encodeLba rounds v) decodeLba v := by
  unfold encodeLba
  have hexact := fun n (hn : n ≤ nibbles v) => shift_nibbles hv hn
  by_cases h3 : nibbles v < 3
  · simp only [if_pos h3]
    have h := lba_tail v 3 7 0 (by decide) (by decide)
      (by omega) fun word htag => by
        rw [(lbaStart_eq word).2.2.2 htag]
        simp
    rwa [pow_zero, Nat.mul_one] at h
  · simp only [if_neg h3]
    obtain hn | hn | hn | hn : nibbles v = 3 ∨ nibbles v = 4 ∨ nibbles v = 5 ∨ 6 ≤ nibbles v := by
      omega
    · have hback := hexact 3 (by omega)
      have h := lba_tail (v >>> 12) 1 0 12 (by decide) (by decide)
        (hback.trans_lt hv) fun word htag => (lbaStart_eq word).1 htag
      rw [show v >>> 12 * 2 ^ 12 = v from hback] at h
      rw [hn]
      exact h
    · have hback := hexact 4 (by omega)
      have h := lba_tail (v >>> 16) 2 1 16 (by decide) (by decide)
        (hback.trans_lt hv) fun word htag => (lbaStart_eq word).2.1 htag
      rw [show v >>> 16 * 2 ^ 16 = v from hback] at h
      rw [hn]
      exact h
    · have hback := hexact 5 (by omega)
      have h := lba_tail (v >>> 20) 3 3 20 (by decide) (by decide)
        (hback.trans_lt hv) fun word htag => (lbaStart_eq word).2.2.1 htag
      rw [show v >>> 20 * 2 ^ 20 = v from hback] at h
      rw [hn]
      exact h
    · have hback := hexact 5 (by omega)
      have h := lba_tail (v >>> 20) 3 3 20 (by decide) (by decide)
        (hback.trans_lt hv) fun word htag => (lbaStart_eq word).2.2.1 htag
      rw [show v >>> 20 * 2 ^ 20 = v from hback] at h
      rw [if_neg (by omega)]
      exact h

/-! ## All formats -/

/-- For every 64-bit value the formats `denc_varint` and `denc_lba` come back; the
signed one does for magnitudes below 2^62, the two that cut off low zero nibbles for
values with the bits to spare that they shift in, or with a low nibble to cut off. -/
theorem varints_round_trip_iff {u : Nat} (hu : u < 2 ^ 64) {v : Int} (hlo : -2 ^ 63 ≤ v)
    (hhi : v < 2 ^ 63) :
    RoundTrips (fun rounds => encodeVarint rounds u) decodeVarint u ∧
    RoundTrips (fun rounds => encodeLba rounds u) decodeLba u ∧
    (RoundTrips (fun rounds => encodeVarintLowz rounds u) decodeVarintLowz u ↔
      u < 2 ^ 62 ∨ 16 ∣ u) ∧
    (RoundTrips (fun rounds => encodeSignedVarint rounds v) decodeSignedVarint v ↔
      -2 ^ 62 < v ∧ v < 2 ^ 62) ∧
    (RoundTrips (fun rounds => encodeSignedVarintLowz rounds v) decodeSignedVarintLowz v ↔
      v ≠ -2 ^ 63 ∧ (-2 ^ 60 < v ∧ v < 2 ^ 60 ∨ 16 ∣ v)) :=
  ⟨varint_roundTrips hu, lba_roundTrips hu, varintLowz_roundTrips_iff hu,
    signedVarint_roundTrips_iff hlo hhi, signedVarintLowz_roundTrips_iff hlo hhi⟩

/-- The largest unsigned value comes back from two formats, the least power of two
with the sign bit behind it does not come back from the signed one. -/
theorem varints_round_trip_ends :
    RoundTrips (fun rounds => encodeLba rounds (2 ^ 64 - 1 : Nat)) decodeLba (2 ^ 64 - 1) ∧
      ¬ RoundTrips (fun rounds => encodeSignedVarint rounds (2 ^ 62)) decodeSignedVarint (2 ^ 62) := by
  have h := varints_round_trip_iff (u := 2 ^ 64 - 1) (by decide) (v := 2 ^ 62) (by decide) (by decide)
  exact ⟨h.2.1, fun hback => absurd (h.2.2.2.1.mp hback).2 (by decide)⟩

/-- The encoder of 2^62 never ends, and 2^62 + 1 loses its top bit with two low bits
for the count of nibbles. -/
theorem not_varints_round_trip :
    (∀ rounds, encodeSignedVarint rounds (2 ^ 62) = none) ∧
      ¬ RoundTrips (fun rounds => encodeVarintLowz rounds (2 ^ 62 + 1)) decodeVarintLowz
        (2 ^ 62 + 1) := by
  constructor
  · intro rounds
    have hneg : toInt64 (2 ^ 62 * 2) = -2 ^ 63 := by decide
    unfold encodeSignedVarint
    rw [if_neg (by decide), hneg]
    exact encodeVarint_neg (by decide) rounds
  · rw [varintLowz_roundTrips_iff (by decide)]
    decide

end Clab.Common.Varint
