import Clab.Lib.RangeSet

/-!
# Sets of whole blocks

Numbers are grouped into blocks of a fixed size. A set that has all of a block
or nothing of it is made of whole blocks; a list of ranges that describes such
a set starts and ends every range at the edge of a block.
-/

namespace Clab.RangeSet

variable {unit : Nat}

/-- The set has all numbers of a block or none. -/
def Whole (unit : Nat) (s : Set Nat) : Prop := ∀ x y, x / unit = y / unit → x ∈ s → y ∈ s

theorem whole_Ico {s e : Nat} (hu : 0 < unit) (hs : unit ∣ s) (he : unit ∣ e) :
    Whole unit (Set.Ico s e) := by
  obtain ⟨m, rfl⟩ := hs
  obtain ⟨n, rfl⟩ := he
  intro x y hxy hx
  have hlow : m ≤ x / unit := (Nat.le_div_iff_mul_le hu).mpr (by rw [Nat.mul_comm]; exact hx.1)
  have hhigh : x / unit < n := (Nat.div_lt_iff_lt_mul hu).mpr (by rw [Nat.mul_comm]; exact hx.2)
  rw [hxy] at hlow hhigh
  constructor
  · rw [Nat.mul_comm]
    exact (Nat.le_div_iff_mul_le hu).mp hlow
  · rw [Nat.mul_comm]
    exact (Nat.div_lt_iff_lt_mul hu).mp hhigh

theorem Whole.sdiff {s t : Set Nat} (hs : Whole unit s) (ht : Whole unit t) :
    Whole unit (s \ t) := by
  intro x y hxy hx
  exact ⟨hs x y hxy hx.1, fun hy => hx.2 (ht y x hxy.symm hy)⟩

theorem whole_covered {l : List (Segment Nat)} (hu : 0 < unit)
    (h : ∀ r ∈ l, unit ∣ r.start ∧ unit ∣ r.stop) : Whole unit (covered l) := by
  rintro x y hxy ⟨r, hr, hx⟩
  exact ⟨r, hr, whole_Ico hu (h r hr).1 (h r hr).2 x y hxy hx⟩

/-- A number that is no multiple has its predecessor in the same block. -/
theorem pred_div_eq {x : Nat} (h : ¬ unit ∣ x) : (x - 1) / unit = x / unit := by
  have hpos : 0 < x := by
    rcases Nat.eq_zero_or_pos x with rfl | hpos
    · exact absurd (Nat.dvd_zero unit) h
    · exact hpos
  obtain ⟨y, rfl⟩ : ∃ y, x = y + 1 := ⟨x - 1, by omega⟩
  rw [Nat.add_sub_cancel, Nat.succ_div_of_not_dvd h]

namespace Canonical

variable {l : List (Segment Nat)}

/-- Nothing of the set is just before a range. -/
theorem pred_start_notMem (h : Canonical l) {r : Segment Nat} (hr : r ∈ l) (hpos : 0 < r.start) :
    r.start - 1 ∉ covered l := by
  obtain ⟨before, after, rfl⟩ := List.append_of_mem hr
  obtain ⟨-, hrr, hb, ha⟩ := h.split
  rintro ⟨p, hp, hle, hlt⟩
  rcases List.mem_append.mp hp with hp | hp
  · have := hb p hp
    omega
  rcases List.mem_cons.mp hp with rfl | hp
  · omega
  · have := ha p hp
    omega

/-- Ranges that make up whole blocks start and end at their edges. -/
theorem dvd_of_whole (h : Canonical l) (hw : Whole unit (covered l))
    {r : Segment Nat} (hr : r ∈ l) : unit ∣ r.start ∧ unit ∣ r.stop := by
  have hne := h.nonempty r hr
  constructor
  · by_contra hn
    have hpos : 0 < r.start := Nat.pos_of_ne_zero fun hz => hn (hz ▸ Nat.dvd_zero unit)
    exact h.pred_start_notMem hr hpos (hw _ _ (pred_div_eq hn).symm ⟨r, hr, le_rfl, hne⟩)
  · by_contra hn
    obtain ⟨before, after, rfl⟩ := List.append_of_mem hr
    exact h.stop_notMem (hw _ _ (pred_div_eq hn) ⟨r, hr, by omega, by omega⟩)

/-- A run of numbers of the set lies inside one range. -/
theorem exists_of_run (h : Canonical l) {s e : Nat} (hse : s < e)
    (hrun : Set.Ico s e ⊆ covered l) : ∃ r ∈ l, r.start ≤ s ∧ e ≤ r.stop := by
  obtain ⟨r, hr, hle, hlt⟩ := hrun ⟨le_rfl, hse⟩
  obtain ⟨before, after, rfl⟩ := List.append_of_mem hr
  exact ⟨r, hr, hle, h.run_le_stop hlt hrun⟩

theorem finite_covered (l : List (Segment Nat)) : (covered l).Finite := by
  induction l with
  | nil => simp
  | cons r l ih =>
      rw [covered_cons]
      exact (Set.finite_Ico _ _).union ih

/-- The lengths add up to the size of the set. -/
theorem ncard_covered (h : Canonical l) :
    (covered l).ncard = (l.map fun r => r.stop - r.start).sum := by
  induction l with
  | nil => simp
  | cons r l ih =>
      obtain ⟨-, hl, hr⟩ := cons_iff.mp h
      have hdisjoint : Disjoint (Set.Ico r.start r.stop) (covered l) := by
        refine Set.disjoint_left.mpr ?_
        rintro x hx ⟨p, hp, hle, -⟩
        have := hr p hp
        have := hx.2
        omega
      rw [covered_cons, Set.ncard_union_eq hdisjoint (Set.finite_Ico _ _) (finite_covered l),
        ih hl, List.map_cons, List.sum_cons, ← Finset.coe_Ico, Set.ncard_coe_finset, Nat.card_Ico]

end Canonical

end Clab.RangeSet
