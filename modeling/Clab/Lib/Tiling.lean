import Mathlib

/-!
# Slots in a row

Finitely many pairwise disjoint slots on a line of natural numbers. Their total
length reaches the end of every slot exactly when there is no gap below one.
-/

namespace Clab.Tiling

variable {ι : Type*}

/-- No position below the end of a slot is outside all slots. -/
def GapFree (s : Finset ι) (start len : ι → ℕ) : Prop :=
  ∀ i ∈ s, ∀ b < start i + len i, ∃ j ∈ s, start j ≤ b ∧ b < start j + len j

/-- Different slots do not overlap. -/
def Apart (s : Finset ι) (start len : ι → ℕ) : Prop :=
  ∀ i ∈ s, ∀ j ∈ s, i ≠ j → start i + len i ≤ start j ∨ start j + len j ≤ start i

/-- The positions taken by the slots. -/
def taken (s : Finset ι) (start len : ι → ℕ) : Finset ℕ :=
  s.biUnion fun i => Finset.Ico (start i) (start i + len i)

variable {s : Finset ι} {start len : ι → ℕ}

theorem mem_taken {b : ℕ} :
    b ∈ taken s start len ↔ ∃ i ∈ s, start i ≤ b ∧ b < start i + len i := by
  simp [taken]

theorem card_taken (h : Apart s start len) : (taken s start len).card = ∑ i ∈ s, len i := by
  unfold taken
  rw [Finset.card_biUnion]
  · exact Finset.sum_congr rfl fun i _ => by rw [Nat.card_Ico]; omega
  · intro i hi j hj hij
    refine Finset.disjoint_left.mpr fun b hb hb' => ?_
    rw [Finset.mem_Ico] at hb hb'
    rcases h i hi j hj hij with hlt | hlt <;> omega

/-- Slots that end by `m` have a total length of at most `m`. -/
theorem sum_len_le (h : Apart s start len) {m : ℕ} (hm : ∀ i ∈ s, start i + len i ≤ m) :
    ∑ i ∈ s, len i ≤ m := by
  have hsub : taken s start len ⊆ Finset.range m := by
    intro b hb
    obtain ⟨i, hi, -, hlt⟩ := mem_taken.mp hb
    have := hm i hi
    exact Finset.mem_range.mpr (by omega)
  have hcard := Finset.card_le_card hsub
  rwa [card_taken h, Finset.card_range] at hcard

/-- The total length reaches every slot's end exactly when there is no gap. -/
theorem end_le_sum_iff (h : Apart s start len) :
    (∀ i ∈ s, start i + len i ≤ ∑ j ∈ s, len j) ↔ GapFree s start len := by
  constructor
  · intro hle i hi b hb
    -- the positions below the total are as many as the taken ones, so all are taken
    have hsub : taken s start len ⊆ Finset.range (∑ j ∈ s, len j) := by
      intro x hx
      obtain ⟨j, hj, -, hlt⟩ := mem_taken.mp hx
      have := hle j hj
      exact Finset.mem_range.mpr (by omega)
    have heq : taken s start len = Finset.range (∑ j ∈ s, len j) :=
      Finset.eq_of_subset_of_card_le hsub (by rw [card_taken h, Finset.card_range])
    have hb' : b ∈ Finset.range (∑ j ∈ s, len j) :=
      Finset.mem_range.mpr (lt_of_lt_of_le hb (hle i hi))
    rw [← heq] at hb'
    exact mem_taken.mp hb'
  · intro hgap i hi
    have hsub : Finset.range (start i + len i) ⊆ taken s start len := by
      intro b hb
      exact mem_taken.mpr (hgap i hi b (Finset.mem_range.mp hb))
    have hcard := Finset.card_le_card hsub
    rwa [card_taken h, Finset.card_range] at hcard

end Clab.Tiling
