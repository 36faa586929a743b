import Clab.Bluefs.RocksDBVolumeSelector

/-!
# The levels simulated by the selector's constructor

The constructor adds up the sizes of the levels until they pass the DB device.
All of it is arithmetic modulo `2 ^ 64`, so the sums need not grow; the loop
ends exactly when one of them, so reduced, does reach the device's size.
-/

namespace Clab.Bluefs

namespace RocksDBBlueFSVolumeSelector

/-- The constructor's loop; it returns `cur_threshold`, and `none` is a loop
still running after `fuel` rounds. -/
def levelLoop (dbTotal levelMultiplier : UInt64) : Nat → UInt64 → UInt64 → UInt64 → Option UInt64
  | 0, _, _, _ => none
  | fuel + 1, prevLevels, curLevel, curThreshold =>
      let nextLevel := curLevel * levelMultiplier
      let nextThreshold := prevLevels + curLevel + nextLevel
      if dbTotal ≤ nextThreshold then some curThreshold
      else levelLoop dbTotal levelMultiplier fuel (prevLevels + curLevel) nextLevel nextThreshold

/-- What is left of the DB device. -/
def leftOf (dbTotal reserved : UInt64) : UInt64 :=
  if reserved < dbTotal then dbTotal - reserved else 0

/-- The constructor. `scale` is the multiplication by `reserved_factor`, carried
out in floating point and converted back. -/
def create (scale : UInt64 → UInt64) (fuel : Nat)
    (walTotal dbTotal slowTotal level0Size levelBase levelMultiplier reserved : UInt64)
    (useDbExtra : Bool) : Option RocksDBBlueFSVolumeSelector :=
  let totals : Nat → UInt64 := fun pos =>
    if pos = RDB_LEVEL_WAL - RDB_LEVEL_FIRST then walTotal
    else if pos = RDB_LEVEL_DB - RDB_LEVEL_FIRST then dbTotal
    else if pos = RDB_LEVEL_SLOW - RDB_LEVEL_FIRST then slowTotal
    else 0
  if !useDbExtra then some { lTotals := totals }
  else if reserved = 0 then
    match levelLoop dbTotal levelMultiplier fuel level0Size levelBase (level0Size + levelBase) with
    | none => none
    | some threshold =>
        some { lTotals := totals, dbAvail4slow := leftOf dbTotal (scale threshold) }
  else some { lTotals := totals, dbAvail4slow := leftOf dbTotal reserved }

theorem leftOf_le (dbTotal reserved : UInt64) : leftOf dbTotal reserved ≤ dbTotal := by
  unfold leftOf
  split
  · rename_i hlt
    rw [UInt64.le_iff_toNat_le, UInt64.toNat_sub_of_le _ _ (UInt64.le_of_lt hlt)]
    omega
  · exact UInt64.zero_le

/-! ## The sums of the levels -/

/-- Level 0 and the next `n` levels, unreduced. -/
def levelSum (level0Size levelBase levelMultiplier n : Nat) : Nat :=
  level0Size + levelBase * ∑ i ∈ Finset.range n, levelMultiplier ^ i

variable {l0 base mult : Nat}

theorem levelSum_succ (l0 base mult n : Nat) :
    levelSum l0 base mult (n + 1) = levelSum l0 base mult n + base * mult ^ n := by
  unfold levelSum
  rw [Finset.sum_range_succ]
  ring

theorem levelSum_mono (l0 base mult : Nat) {m n : Nat} (h : m ≤ n) :
    levelSum l0 base mult m ≤ levelSum l0 base mult n := by
  induction n, h using Nat.le_induction with
  | base => exact le_rfl
  | succ n _ ih =>
      rw [levelSum_succ]
      omega

/-- The loop ends when a sum of at least two levels more than it has added,
reduced, reaches the device's size. -/
theorem levelLoop_isSome_iff (dbTotal level0Size levelBase levelMultiplier : UInt64) (fuel k : Nat)
    (prevLevels curLevel curThreshold : UInt64)
    (hprev : prevLevels.toNat =
      levelSum level0Size.toNat levelBase.toNat levelMultiplier.toNat k % 2 ^ 64)
    (hcur : curLevel.toNat = levelBase.toNat * levelMultiplier.toNat ^ k % 2 ^ 64) :
    (levelLoop dbTotal levelMultiplier fuel prevLevels curLevel curThreshold).isSome ↔
      ∃ n, k + 2 ≤ n ∧ n < k + 2 + fuel ∧ dbTotal.toNat ≤
        levelSum level0Size.toNat levelBase.toNat levelMultiplier.toNat n % 2 ^ 64 := by
  induction fuel generalizing k prevLevels curLevel curThreshold with
  | zero =>
      constructor
      · intro h
        cases h
      · rintro ⟨n, hle, hlt, -⟩
        omega
  | succ fuel ih =>
      have hprev' : (prevLevels + curLevel).toNat =
          levelSum level0Size.toNat levelBase.toNat levelMultiplier.toNat (k + 1) % 2 ^ 64 := by
        rw [UInt64.toNat_add, hprev, hcur, levelSum_succ, ← Nat.add_mod]
      have hnext : (curLevel * levelMultiplier).toNat =
          levelBase.toNat * levelMultiplier.toNat ^ (k + 1) % 2 ^ 64 := by
        rw [UInt64.toNat_mul, hcur, Nat.mod_mul_mod, pow_succ levelMultiplier.toNat, Nat.mul_assoc]
      have hthreshold : (prevLevels + curLevel + curLevel * levelMultiplier).toNat =
          levelSum level0Size.toNat levelBase.toNat levelMultiplier.toNat (k + 2) % 2 ^ 64 := by
        rw [UInt64.toNat_add, hprev', hnext, levelSum_succ _ _ _ (k + 1), ← Nat.add_mod]
      rw [levelLoop]
      split
      · rename_i hle
        rw [UInt64.le_iff_toNat_le, hthreshold] at hle
        exact ⟨fun _ => ⟨k + 2, le_rfl, by omega, hle⟩, fun _ => rfl⟩
      · rename_i hlt
        rw [UInt64.le_iff_toNat_le, hthreshold] at hlt
        rw [ih (k + 1) _ _ _ hprev' hnext]
        constructor
        · rintro ⟨n, hge, hn, hle⟩
          exact ⟨n, by omega, by omega, hle⟩
        · rintro ⟨n, hge, hn, hle⟩
          refine ⟨n, ?_, by omega, hle⟩
          rcases Nat.lt_or_eq_of_le hge with h | rfl
          · omega
          · exact absurd hle hlt

/-! ## Where the sums are found -/

/-- A sequence over a finite type in which equal values have equal successors
takes each of its values within as many steps as there are values. -/
theorem exists_early {α : Type*} [Fintype α] (x : Nat → α)
    (hstep : ∀ i j, x i = x j → x (i + 1) = x (j + 1)) (a n : Nat) (h : a ≤ n) :
    ∃ m, a ≤ m ∧ m < a + Fintype.card α ∧ x m = x n := by
  induction n using Nat.strong_induction_on with
  | _ n ih =>
      by_cases hn : n < a + Fintype.card α
      · exact ⟨n, h, hn, rfl⟩
      · obtain ⟨i, j, hne, heq⟩ := Fintype.exists_ne_map_eq_of_card_lt
          (fun i : Fin (Fintype.card α + 1) => x (a + i)) (by simp)
        have hshift : ∀ i j, x i = x j → ∀ k, x (i + k) = x (j + k) := by
          intro i j hij k
          induction k with
          | zero => exact hij
          | succ k ihk => exact hstep _ _ ihk
        -- from the later of the two on, the sequence repeats what followed the earlier
        have hback : ∀ i j : Fin (Fintype.card α + 1), i < j → x (a + i) = x (a + j) →
            ∃ m, a ≤ m ∧ m < a + Fintype.card α ∧ x m = x n := by
          intro i j hij heq
          have hi := i.isLt
          have hj := j.isLt
          have hlt : (i : Nat) < j := hij
          obtain ⟨m, hm, hcard, hx⟩ := ih (n - (j - i)) (by omega) (by omega)
          refine ⟨m, hm, hcard, hx.trans ?_⟩
          have hk := hshift _ _ heq (n - (a + j))
          have hl : a + i + (n - (a + j)) = n - (j - i) := by omega
          have hr : a + j + (n - (a + j)) = n := by omega
          rw [hl, hr] at hk
          exact hk
        rcases Nat.lt_or_gt_of_ne (fun hij => hne (Fin.ext hij)) with hlt | hlt
        · exact hback i j hlt heq
        · exact hback j i hlt heq.symm

/-- Every reduced sum is one of the first `2 ^ 64`. -/
theorem levelSum_early (l0 base mult : Nat) {n : Nat} (h : 2 ≤ n) :
    ∃ m, 2 ≤ m ∧ m < 2 + 2 ^ 64 ∧
      levelSum l0 base mult m % 2 ^ 64 = levelSum l0 base mult n % 2 ^ 64 := by
  have hpos : 0 < 2 ^ 64 := Nat.two_pow_pos 64
  let x : Nat → Fin (2 ^ 64) := fun n => ⟨levelSum l0 base mult n % 2 ^ 64, Nat.mod_lt _ hpos⟩
  have hstep : ∀ i j, x i = x j → x (i + 1) = x (j + 1) := by
    intro i j hij
    have hmod : levelSum l0 base mult i ≡ levelSum l0 base mult j [MOD 2 ^ 64] :=
      congrArg Fin.val hij
    have hsum : ∀ n, levelSum l0 base mult (n + 1) = l0 + (base +
        mult * (base * ∑ i ∈ Finset.range n, mult ^ i)) := by
      intro n
      unfold levelSum
      rw [geom_sum_succ]
      ring
    refine Fin.ext ?_
    show levelSum l0 base mult (i + 1) ≡ levelSum l0 base mult (j + 1) [MOD 2 ^ 64]
    rw [hsum, hsum]
    exact ((hmod.add_left_cancel' l0).mul_left mult).add_left base |>.add_left l0
  obtain ⟨m, hm, hlt, heq⟩ := exists_early x hstep 2 n h
  rw [Fintype.card_fin] at hlt
  exact ⟨m, hm, hlt, congrArg Fin.val heq⟩

/-- Where levels grow and neither the first two nor a device and a level's worth
of it again overflow, a sum reaches the device's size without a reduction. -/
theorem levelSum_reaches {db : Nat} (hbase : 0 < base) (hmult : 0 < mult)
    (hfirst : levelSum l0 base mult 2 < 2 ^ 64) (hroom : (mult + 1) * db ≤ 2 ^ 64) :
    ∃ n, 2 ≤ n ∧ db ≤ levelSum l0 base mult n % 2 ^ 64 := by
  have hgrows : ∀ n, n ≤ levelSum l0 base mult n := by
    intro n
    induction n with
    | zero => exact Nat.zero_le _
    | succ n ih =>
        have hlevel : 0 < base * mult ^ n := Nat.mul_pos hbase (Nat.pow_pos hmult)
        rw [levelSum_succ]
        omega
  have hex : ∃ n, 2 ≤ n ∧ db ≤ levelSum l0 base mult n :=
    ⟨db + 2, by omega, le_trans (by omega) (hgrows (db + 2))⟩
  classical
  obtain ⟨hge, hle⟩ := Nat.find_spec hex
  refine ⟨Nat.find hex, hge, ?_⟩
  rw [Nat.mod_eq_of_lt]
  · exact hle
  · -- the sum before this one is below the device's size, and the last level is a multiple of less
    rcases Nat.lt_or_eq_of_le hge with hlt | heq
    · obtain ⟨n, hn⟩ : ∃ n, Nat.find hex = n + 2 := ⟨Nat.find hex - 2, by omega⟩
      have hbefore : levelSum l0 base mult (n + 1) < db := by
        by_contra hnot
        exact Nat.find_min hex (show n + 1 < Nat.find hex by omega) ⟨by omega, by omega⟩
      have hlast : base * mult ^ (n + 1) ≤ mult * levelSum l0 base mult (n + 1) := by
        rw [levelSum_succ, Nat.mul_add, pow_succ]
        have : base * (mult ^ n * mult) = mult * (base * mult ^ n) := by ring
        omega
      have hmul : mult * levelSum l0 base mult (n + 1) ≤ mult * db :=
        Nat.mul_le_mul_left mult hbefore.le
      rw [hn, levelSum_succ]
      have : (mult + 1) * db = mult * db + db := by ring
      omega
    · rw [← heq]
      exact hfirst

/-! ## The constructor -/

/-- The constructor returns, and leaves no more for the slow level than the DB
device has. -/
def Simulates (scale : UInt64 → UInt64) (walTotal dbTotal slowTotal level0Size levelBase
    levelMultiplier : UInt64) : Prop :=
  (∃ fuel v, create scale fuel walTotal dbTotal slowTotal level0Size levelBase levelMultiplier 0
      true = some v) ∧
    ∀ fuel v, create scale fuel walTotal dbTotal slowTotal level0Size levelBase levelMultiplier 0
      true = some v → v.dbAvail4slow ≤ dbTotal

theorem create_eq_some {scale : UInt64 → UInt64} {fuel : Nat}
    {walTotal dbTotal slowTotal level0Size levelBase levelMultiplier : UInt64} :
    (∃ v, create scale fuel walTotal dbTotal slowTotal level0Size levelBase levelMultiplier 0
        true = some v) ↔
      (levelLoop dbTotal levelMultiplier fuel level0Size levelBase
        (level0Size + levelBase)).isSome := by
  unfold create
  simp only [Bool.not_true, Bool.false_eq_true, if_false, if_true]
  cases levelLoop dbTotal levelMultiplier fuel level0Size levelBase (level0Size + levelBase) with
  | none => simp
  | some threshold => simp

theorem create_dbAvail4slow {scale : UInt64 → UInt64} {fuel : Nat}
    {walTotal dbTotal slowTotal level0Size levelBase levelMultiplier : UInt64}
    {v : RocksDBBlueFSVolumeSelector}
    (h : create scale fuel walTotal dbTotal slowTotal level0Size levelBase levelMultiplier 0
      true = some v) : v.dbAvail4slow ≤ dbTotal := by
  unfold create at h
  simp only [Bool.not_true, Bool.false_eq_true, if_false, if_true] at h
  split at h
  · cases h
  · cases h
    exact leftOf_le _ _

/-- The loop ends at the start of the levels' sums. -/
theorem levelLoop_start (dbTotal level0Size levelBase levelMultiplier : UInt64) (fuel : Nat) :
    (levelLoop dbTotal levelMultiplier fuel level0Size levelBase
        (level0Size + levelBase)).isSome ↔
      ∃ n, 2 ≤ n ∧ n < 2 + fuel ∧ dbTotal.toNat ≤
        levelSum level0Size.toNat levelBase.toNat levelMultiplier.toNat n % 2 ^ 64 := by
  have hprev : level0Size.toNat =
      levelSum level0Size.toNat levelBase.toNat levelMultiplier.toNat 0 % 2 ^ 64 := by
    rw [levelSum, Finset.sum_range_zero, Nat.mul_zero, Nat.add_zero,
      Nat.mod_eq_of_lt level0Size.toNat_lt]
  have hcur : levelBase.toNat = levelBase.toNat * levelMultiplier.toNat ^ 0 % 2 ^ 64 := by
    rw [pow_zero, Nat.mul_one, Nat.mod_eq_of_lt levelBase.toNat_lt]
  have h := levelLoop_isSome_iff dbTotal level0Size levelBase levelMultiplier fuel 0 level0Size
    levelBase (level0Size + levelBase) hprev hcur
  simpa only [Nat.zero_add] using h

/-- The constructor ends, and then with the bound, exactly when one of the first
`2 ^ 64` sums of levels reaches the DB device's size modulo `2 ^ 64`. -/
theorem create_simulates_iff (scale : UInt64 → UInt64)
    (walTotal dbTotal slowTotal level0Size levelBase levelMultiplier : UInt64) :
    Simulates scale walTotal dbTotal slowTotal level0Size levelBase levelMultiplier ↔
      ∃ n, 2 ≤ n ∧ n < 2 + 2 ^ 64 ∧ dbTotal.toNat ≤
        levelSum level0Size.toNat levelBase.toNat levelMultiplier.toNat n % 2 ^ 64 := by
  constructor
  · rintro ⟨⟨fuel, hreturns⟩, -⟩
    obtain ⟨n, hge, -, hle⟩ := (levelLoop_start _ _ _ _ fuel).mp (create_eq_some.mp hreturns)
    obtain ⟨m, hm, hlt, heq⟩ := levelSum_early level0Size.toNat levelBase.toNat
      levelMultiplier.toNat hge
    exact ⟨m, hm, hlt, heq ▸ hle⟩
  · rintro ⟨n, hge, hlt, hle⟩
    have hloop := (levelLoop_start dbTotal level0Size levelBase levelMultiplier (2 ^ 64)).mpr
      ⟨n, hge, hlt, hle⟩
    exact ⟨⟨2 ^ 64, create_eq_some.mpr hloop⟩, fun fuel v => create_dbAvail4slow⟩

/-- With no base size the levels do not grow. -/
theorem create_stalls (scale : UInt64 → UInt64) (levelMultiplier : UInt64) (fuel : Nat) :
    create scale fuel 0 1 0 0 0 levelMultiplier 0 true = none := by
  cases h : create scale fuel 0 1 0 0 0 levelMultiplier 0 true with
  | none => rfl
  | some v =>
      obtain ⟨n, -, -, hle⟩ := (levelLoop_start 1 0 0 levelMultiplier fuel).mp
        (create_eq_some.mp ⟨v, h⟩)
      have hzero : levelSum (0 : UInt64).toNat (0 : UInt64).toNat levelMultiplier.toNat n = 0 := by
        simp [levelSum]
      rw [hzero] at hle
      exact absurd hle (by decide)

theorem not_simulates_zeroBase : ¬ Simulates (fun threshold => threshold) 0 1 0 0 0 10 := by
  rintro ⟨⟨fuel, v, h⟩, -⟩
  rw [create_stalls] at h
  cases h

end RocksDBBlueFSVolumeSelector

end Clab.Bluefs
