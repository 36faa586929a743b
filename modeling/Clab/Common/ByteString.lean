import Mathlib

/-!
# Byte strings

`std::string` as a list of bytes; two strings compare byte by byte as unsigned
numbers.
-/

namespace Clab

abbrev Bytes := List UInt8

/-- Bytes compare as unsigned numbers. -/
instance byteLinearOrder : LinearOrder UInt8 where
  le_refl := UInt8.le_refl
  le_trans _ _ _ := UInt8.le_trans
  le_antisymm _ _ := UInt8.le_antisymm
  le_total := UInt8.le_total
  lt_iff_le_not_ge a b := by simp only [UInt8.le_iff_toNat_le, UInt8.lt_iff_toNat_lt]; omega
  toDecidableLE := inferInstance
  toDecidableLT := inferInstance
  toDecidableEq := inferInstance

theorem cons_le_cons_iff {a b : UInt8} {x y : Bytes} :
    a :: x ≤ b :: y ↔ a < b ∨ a = b ∧ x ≤ y := by
  rw [← not_lt, List.cons_lt_cons_iff, ← not_lt]
  constructor
  · intro h
    rcases lt_trichotomy a b with hab | hab | hab
    · exact .inl hab
    · exact .inr ⟨hab, fun hyx => h (.inr ⟨hab.symm, hyx⟩)⟩
    · exact absurd (.inl hab) h
  · rintro (hab | ⟨rfl, hxy⟩) (hba | ⟨hba, hyx⟩)
    · exact lt_asymm hab hba
    · exact (ne_of_lt hab) hba.symm
    · exact lt_irrefl _ hba
    · exact hxy hyx

theorem nil_le (x : Bytes) : [] ≤ x := not_lt.mp (List.not_lt_nil x)

/-- The byte strings from `pre ++ lo` up to `pre ++ hi` all extend `pre`. -/
theorem between_append_iff {pre lo hi x : Bytes} :
    pre ++ lo ≤ x ∧ x < pre ++ hi ↔ ∃ y, x = pre ++ y ∧ lo ≤ y ∧ y < hi := by
  induction pre generalizing x with
  | nil => simp
  | cons a pre ih =>
      constructor
      · rintro ⟨hlo, hhi⟩
        cases x with
        | nil => exact absurd (List.nil_lt_cons _ _) (not_lt.mpr hlo)
        | cons b x =>
            rw [List.cons_append, cons_le_cons_iff] at hlo
            rw [List.cons_append, List.cons_lt_cons_iff] at hhi
            rcases hlo with hab | ⟨rfl, hlo⟩
            · -- a first byte past that of `pre` is past the upper end too
              rcases hhi with hba | ⟨hba, -⟩
              · exact absurd hba (lt_asymm hab)
              · exact absurd hba.symm (ne_of_lt hab)
            · have hhi' : x < pre ++ hi := by
                rcases hhi with h | ⟨-, h⟩
                · exact absurd h (lt_irrefl _)
                · exact h
              obtain ⟨y, rfl, hy⟩ := ih.mp ⟨hlo, hhi'⟩
              exact ⟨y, rfl, hy⟩
      · rintro ⟨y, rfl, hy⟩
        obtain ⟨hlo, hhi⟩ := ih.mpr ⟨y, rfl, hy⟩
        exact ⟨cons_le_cons_iff.mpr (.inr ⟨rfl, hlo⟩), List.cons_lt_cons_iff.mpr (.inr ⟨rfl, hhi⟩)⟩

theorem le_of_isPrefix {s x : Bytes} (h : s <+: x) : s ≤ x := by
  obtain ⟨t, rfl⟩ := h
  induction s with
  | nil => exact nil_le _
  | cons a s ih => exact cons_le_cons_iff.mpr (.inr ⟨rfl, ih⟩)

/-- The strings with a given prefix come first among those not below it. -/
theorem isPrefix_of_lt {s a b : Bytes} (hlo : s ≤ a) (hab : a < b) (hb : s <+: b) : s <+: a := by
  obtain ⟨t, rfl⟩ := hb
  have hmem : s ++ [] ≤ a ∧ a < s ++ t := ⟨by rwa [List.append_nil], hab⟩
  obtain ⟨y, rfl, -⟩ := between_append_iff.mp hmem
  exact List.prefix_append s y

end Clab
