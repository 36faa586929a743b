import Clab.Btier.Types

/-!
# The packed metrics word

`ExtentMetrics` keeps the counters, the state and the generation of an extent in
one 64-bit word. Each field reads back what was packed, cut to its width, so the
word is the record `ExtentMetrics` of the sequential model.
-/

namespace Clab.Btier

abbrev Raw := BitVec 64

namespace Raw

/-- `ExtentMetrics::pack`. -/
def pack (access write random state gen : Raw) : Raw :=
  (access &&& 0xFFF) ||| ((write &&& 0xFFF) <<< 12) ||| ((random &&& 0x3F) <<< 24) |||
    ((state &&& 0x3) <<< 30) ||| ((gen &&& 0xFFFFFFFF) <<< 32)

/-- `ExtentMetrics::access_count`. -/
def accessCount (v : Raw) : Raw := v &&& 0xFFF

/-- `ExtentMetrics::write_count`. -/
def writeCount (v : Raw) : Raw := (v >>> 12) &&& 0xFFF

/-- `ExtentMetrics::randomness`. -/
def randomness (v : Raw) : Raw := (v >>> 24) &&& 0x3F

/-- `ExtentMetrics::state`. -/
def state (v : Raw) : Raw := (v >>> 30) &&& 0x3

/-- `ExtentMetrics::generation`. -/
def generation (v : Raw) : Raw := v >>> 32

/-- `ACTIVE` as a field of the word. -/
def active : Raw := 0

/-- `MIGRATING` as a field of the word. -/
def migrating : Raw := 1

/-! ## Bits of the word -/

theorem getLsbD_mask (n i : Nat) (h : i < 64) :
    (BitVec.ofNat 64 (2 ^ n - 1)).getLsbD i = decide (i < n) := by
  rw [BitVec.getLsbD_ofNat, Nat.testBit_two_pow_sub_one]
  simp [h]

/-- The low `n` bits of `v`, shifted to `lo`. -/
def placed (v : Raw) (n lo : Nat) : Raw := (v &&& BitVec.ofNat 64 (2 ^ n - 1)) <<< lo

/-- The `n` bits of `v` from `lo` on. -/
def field (v : Raw) (n lo : Nat) : Raw := (v >>> lo) &&& BitVec.ofNat 64 (2 ^ n - 1)

theorem getLsbD_placed (v : Raw) (n lo i : Nat) (h : i < 64) :
    (placed v n lo).getLsbD i = (decide (lo ≤ i ∧ i < lo + n) && v.getLsbD (i - lo)) := by
  rw [placed, BitVec.getLsbD_shiftLeft, BitVec.getLsbD_and, getLsbD_mask n (i - lo) (by omega)]
  by_cases hlo : lo ≤ i
  · by_cases hn : i < lo + n
    · simp [h, hlo, hn, show i - lo < n by omega, show ¬ i < lo by omega]
    · simp [hn, show ¬ i - lo < n by omega]
  · simp [hlo, show i < lo by omega]

theorem pack_eq (a w r s g : Raw) :
    pack a w r s g = placed a 12 0 ||| placed w 12 12 ||| placed r 6 24 ||| placed s 2 30 |||
      placed g 32 32 := by
  simp [pack, placed]

theorem getLsbD_pack (a w r s g : Raw) (i : Nat) (h : i < 64) :
    (pack a w r s g).getLsbD i =
      if i < 12 then a.getLsbD i else if i < 24 then w.getLsbD (i - 12)
      else if i < 30 then r.getLsbD (i - 24) else if i < 32 then s.getLsbD (i - 30)
      else g.getLsbD (i - 32) := by
  simp only [pack_eq, BitVec.getLsbD_or, getLsbD_placed _ _ _ i h]
  split_ifs <;> simp <;> grind

/-- A field reads back the value whose bits stand there. -/
theorem toNat_field {v x : Raw} {n lo : Nat} (hn : n ≤ 64)
    (h : ∀ i < n, v.getLsbD (lo + i) = x.getLsbD i) : (field v n lo).toNat = x.toNat % 2 ^ n := by
  have hbits : field v n lo = x &&& BitVec.ofNat 64 (2 ^ n - 1) := by
    apply BitVec.eq_of_getLsbD_eq
    intro i hi
    rw [field, BitVec.getLsbD_and, BitVec.getLsbD_and, BitVec.getLsbD_ushiftRight,
      getLsbD_mask n i hi]
    by_cases hin : i < n
    · rw [h i hin]
    · simp [hin]
  have hmask : 2 ^ n - 1 < 2 ^ 64 := by
    have hle : 2 ^ n ≤ 2 ^ 64 := Nat.pow_le_pow_right (by omega) hn
    omega
  rw [hbits, BitVec.toNat_and, BitVec.toNat_ofNat, Nat.mod_eq_of_lt hmask]
  exact Nat.and_two_pow_sub_one_eq_mod x.toNat n

theorem accessCount_pack (a w r s g : Raw) :
    (accessCount (pack a w r s g)).toNat = a.toNat % 2 ^ 12 := by
  have hfield : accessCount (pack a w r s g) = field (pack a w r s g) 12 0 := by
    simp [accessCount, field]
  rw [hfield]
  refine toNat_field (by omega) fun i hi => ?_
  rw [getLsbD_pack _ _ _ _ _ _ (by omega), if_pos (by omega), Nat.zero_add]

theorem writeCount_pack (a w r s g : Raw) :
    (writeCount (pack a w r s g)).toNat = w.toNat % 2 ^ 12 := by
  show (field (pack a w r s g) 12 12).toNat = _
  refine toNat_field (by omega) fun i hi => ?_
  rw [getLsbD_pack _ _ _ _ _ _ (by omega), if_neg (by omega), if_pos (by omega),
    Nat.add_sub_cancel_left]

theorem randomness_pack (a w r s g : Raw) :
    (randomness (pack a w r s g)).toNat = r.toNat % 2 ^ 6 := by
  show (field (pack a w r s g) 6 24).toNat = _
  refine toNat_field (by omega) fun i hi => ?_
  rw [getLsbD_pack _ _ _ _ _ _ (by omega), if_neg (by omega), if_neg (by omega),
    if_pos (by omega), Nat.add_sub_cancel_left]

theorem state_pack (a w r s g : Raw) : (state (pack a w r s g)).toNat = s.toNat % 2 ^ 2 := by
  show (field (pack a w r s g) 2 30).toNat = _
  refine toNat_field (by omega) fun i hi => ?_
  rw [getLsbD_pack _ _ _ _ _ _ (by omega), if_neg (by omega), if_neg (by omega),
    if_neg (by omega), if_pos (by omega), Nat.add_sub_cancel_left]

theorem generation_lt (v : Raw) : (generation v).toNat < 2 ^ 32 := by
  have hv := v.isLt
  simp only [generation, BitVec.toNat_ushiftRight, Nat.shiftRight_eq_div_pow]
  omega

theorem generation_pack (a w r s g : Raw) :
    (generation (pack a w r s g)).toNat = g.toNat % 2 ^ 32 := by
  have hfield : (generation (pack a w r s g)).toNat = (field (pack a w r s g) 32 32).toNat := by
    rw [field, BitVec.toNat_and]
    exact ((Nat.and_two_pow_sub_one_eq_mod _ 32).trans (Nat.mod_eq_of_lt (generation_lt _))).symm
  rw [hfield]
  refine toNat_field (by omega) fun i hi => ?_
  rw [getLsbD_pack _ _ _ _ _ _ (by omega), if_neg (by omega), if_neg (by omega),
    if_neg (by omega), if_neg (by omega), Nat.add_sub_cancel_left]

/-- A state taken from a word packs to itself. -/
theorem state_pack_state (a w r v g : Raw) : state (pack a w r (state v) g) = state v := by
  have hlt : (state v).toNat < 4 := by
    rw [state, BitVec.toNat_and]
    exact Nat.and_lt_two_pow _ (n := 2) (by decide)
  apply BitVec.eq_of_toNat_eq
  rw [state_pack]
  exact Nat.mod_eq_of_lt hlt

/-- A generation taken from a word packs to itself. -/
theorem generation_pack_generation (a w r s v : Raw) :
    generation (pack a w r s (generation v)) = generation v := by
  apply BitVec.eq_of_toNat_eq
  rw [generation_pack]
  exact Nat.mod_eq_of_lt (generation_lt v)

/-- The next generation, in 32 bits. -/
theorem generation_pack_succ (a w r s v : Raw) :
    (generation (pack a w r s (generation v + 1))).toNat =
      ((generation v).toNat + 1) % 2 ^ 32 := by
  have hlt := generation_lt v
  rw [generation_pack, BitVec.toNat_add]
  have hone : (1 : Raw).toNat = 1 := rfl
  rw [hone, Nat.mod_mod_of_dvd _ (by decide)]

/-! ## The record -/

/-- The state as a field. -/
def ofState : ExtentState → Raw
  | .ACTIVE => active
  | .MIGRATING => migrating

/-- The record a word packs. -/
def unpack (v : Raw) : ExtentMetrics where
  accessCount := (accessCount v).toNat
  writeCount := (writeCount v).toNat
  randomness := (randomness v).toNat
  state := if state v = migrating then .MIGRATING else .ACTIVE
  generation := (generation v).toNat

/-- The packed word and the record of the sequential model hold the same. -/
theorem unpack_pack (a w r g : Raw) (s : ExtentState) :
    unpack (pack a w r (ofState s) g) = .pack a.toNat w.toNat r.toNat s g.toNat := by
  have hstate : (if state (pack a w r (ofState s) g) = migrating then ExtentState.MIGRATING
      else .ACTIVE) = s := by
    have hs := state_pack a w r (ofState s) g
    cases s with
    | ACTIVE => exact if_neg fun h => by rw [h] at hs; exact absurd hs (by decide)
    | MIGRATING => exact if_pos (BitVec.eq_of_toNat_eq hs)
  simp only [unpack, ExtentMetrics.pack, accessCount_pack, writeCount_pack, randomness_pack,
    generation_pack, hstate]

end Raw

end Clab.Btier
