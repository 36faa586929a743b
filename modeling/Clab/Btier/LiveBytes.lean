import Clab.Btier.Engine
import Clab.Lib.Tiling

/-!
# The live bytes of an extent

The slots of an extent's keys, apart from each other, as a finite family on a
line: their total length is what recovery counts, and it fits the extent.
-/

namespace Clab.Btier.Engine

open Clab.Tiling

theorem foldl_u32 (f : Key → Nat) (keys : List Key) (total : Nat) (h : total < 2 ^ 32) :
    keys.foldl (fun total key => u32 (total + f key)) total =
      u32 (total + (keys.map f).sum) := by
  induction keys generalizing total with
  | nil => simp [u32_of_lt h]
  | cons key rest ih =>
      rw [List.foldl_cons, ih _ (u32_lt _), List.map_cons, List.sum_cons]
      unfold u32
      omega

section Total

/-- Where the key map puts a key; only used at keys it has. -/
def slotOf (km : KeyMap) (key : Key) : KeyLocation := (km.lookup key).getD {}

theorem slotOf_of_lookup {km : KeyMap} {k : Key} {loc : KeyLocation}
    (h : km.lookup k = some loc) : slotOf km k = loc := by
  simp [slotOf, h]

variable {km : KeyMap} {id m : Nat} (hc : km.Coherent) (hm : m < 2 ^ 32)
  (hend : ∀ k loc, km.lookup k = some loc → loc.extentId = id → loc.slotEnd ≤ m)
  (hapart : ∀ k k' loc loc', k ≠ k' → km.lookup k = some loc → km.lookup k' = some loc' →
    loc.extentId = id → loc'.extentId = id →
      loc.slotEnd ≤ loc'.offset ∨ loc'.slotEnd ≤ loc.offset)

include hc

theorem mem_keysIn (k : Key) : k ∈ (km.keysInExtent id).toFinset ↔
    km.lookup k = some (slotOf km k) ∧ (slotOf km k).extentId = id := by
  rw [List.mem_toFinset, hc.mem_iff]
  constructor
  · rintro ⟨loc, hl, hid⟩
    rw [slotOf_of_lookup hl]
    exact ⟨hl, hid⟩
  · rintro ⟨hl, hid⟩
    exact ⟨_, hl, hid⟩

include hapart

theorem apart_keysIn : Apart (km.keysInExtent id).toFinset (fun k => (slotOf km k).offset)
    fun k => (slotOf km k).length := by
  intro k hk k' hk' hne
  obtain ⟨hl, hid⟩ := (mem_keysIn hc k).mp hk
  obtain ⟨hl', hid'⟩ := (mem_keysIn hc k').mp hk'
  exact hapart k k' _ _ hne hl hl' hid hid'

include hend

theorem sum_length_le : ∑ k ∈ (km.keysInExtent id).toFinset, (slotOf km k).length ≤ m := by
  refine sum_len_le (apart_keysIn hc hapart) fun k hk => ?_
  obtain ⟨hl, hid⟩ := (mem_keysIn hc k).mp hk
  exact hend k _ hl hid

include hm

/-- The live total of an extent is the sum over its slots, when they are apart
and end in 32 bits. -/
theorem totalLive_eq_sum :
    totalLive km id = ∑ k ∈ (km.keysInExtent id).toFinset, (slotOf km k).length := by
  have hle := sum_length_le hc hend hapart
  unfold totalLive
  rw [foldl_u32 _ _ 0 (by norm_num), Nat.zero_add, ← List.sum_toFinset _ (hc.nodup id)]
  exact u32_of_lt (lt_of_le_of_lt hle hm)

theorem totalLive_le : totalLive km id ≤ m := by
  rw [totalLive_eq_sum hc hm hend hapart]
  exact sum_length_le hc hend hapart

/-- The live total reaches the end of every slot exactly when the slots leave
no gap. -/
theorem slotEnd_le_totalLive_iff :
    (∀ k loc, km.lookup k = some loc → loc.extentId = id → loc.slotEnd ≤ totalLive km id) ↔
      ∀ k loc, km.lookup k = some loc → loc.extentId = id → ∀ b < loc.slotEnd,
        ∃ k' loc', km.lookup k' = some loc' ∧ loc'.extentId = id ∧ loc'.offset ≤ b ∧
          b < loc'.slotEnd := by
  rw [totalLive_eq_sum hc hm hend hapart]
  have hiff := end_le_sum_iff (apart_keysIn hc hapart)
  have hmem : ∀ k loc, km.lookup k = some loc → loc.extentId = id →
      k ∈ (km.keysInExtent id).toFinset := by
    intro k loc hl hid
    refine (mem_keysIn hc k).mpr ?_
    rw [slotOf_of_lookup hl]
    exact ⟨hl, hid⟩
  constructor
  · intro hle k loc hl hid b hb
    have hgap := hiff.mp fun k hk =>
      hle k _ ((mem_keysIn hc k).mp hk).1 ((mem_keysIn hc k).mp hk).2
    obtain ⟨k', hk', hlo, hhi⟩ := hgap k (hmem k loc hl hid) b (by
      dsimp only
      rw [slotOf_of_lookup hl]
      exact hb)
    exact ⟨k', _, ((mem_keysIn hc k').mp hk').1, ((mem_keysIn hc k').mp hk').2, hlo, hhi⟩
  · intro hgap k loc hl hid
    have hend' := hiff.mpr (fun k hk b hb => by
      obtain ⟨k', loc', hl', hid', hlo, hhi⟩ :=
        hgap k _ ((mem_keysIn hc k).mp hk).1 ((mem_keysIn hc k).mp hk).2 b hb
      refine ⟨k', hmem k' loc' hl' hid', ?_⟩
      dsimp only
      rw [slotOf_of_lookup hl']
      exact ⟨hlo, hhi⟩) k (hmem k loc hl hid)
    rw [slotOf_of_lookup hl] at hend'
    exact hend'

end Total

end Clab.Btier.Engine
