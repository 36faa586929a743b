import Mathlib

/-!
# Handing out resources

A pool of resources, of which some are free, and the list of grants made from
it, each standing for a set of resources. `HandsOut` relates a pool and its
grants before and after some work: nothing becomes free, and each resource is
covered by at most one grant more, by none unless it was free and no longer is.
The relation composes, so a loop hands out soundly when each round does.
-/

namespace Clab.HandOut

variable {α β : Type}

/-- How many grants of `xs` contain the resource `b`. -/
def cover (mem : α → β → Bool) (xs : List α) (b : β) : Nat := xs.countP fun x => mem x b

@[simp] theorem cover_nil (mem : α → β → Bool) (b : β) : cover mem [] b = 0 := rfl

theorem cover_append (mem : α → β → Bool) (xs ys : List α) (b : β) :
    cover mem (xs ++ ys) b = cover mem xs b + cover mem ys b :=
  List.countP_append

theorem cover_singleton (mem : α → β → Bool) (x : α) (b : β) :
    cover mem [x] b = if mem x b then 1 else 0 := by
  simp [cover, List.countP_cons]

/-- Sound progress from the pool `free₀` with grants `xs₀` to `free` with `xs`. -/
structure HandsOut (mem : α → β → Bool) (free₀ free : β → Bool) (xs₀ xs : List α) : Prop where
  shrinks : ∀ b, free b = true → free₀ b = true
  covered : ∀ b, cover mem xs b ≤
    cover mem xs₀ b + if free₀ b = true ∧ free b = false then 1 else 0

variable {mem : α → β → Bool} {free₀ free₁ free₂ : β → Bool} {xs₀ xs₁ xs₂ : List α}

theorem HandsOut.refl (mem : α → β → Bool) (free₀ : β → Bool) (xs₀ : List α) :
    HandsOut mem free₀ free₀ xs₀ xs₀ :=
  ⟨fun _ h => h, fun _ => Nat.le_add_right _ _⟩

theorem HandsOut.trans (h₁ : HandsOut mem free₀ free₁ xs₀ xs₁)
    (h₂ : HandsOut mem free₁ free₂ xs₁ xs₂) : HandsOut mem free₀ free₂ xs₀ xs₂ := by
  refine ⟨fun b hb => h₁.shrinks b (h₂.shrinks b hb), fun b => ?_⟩
  have hs₁ := h₁.shrinks b
  have hs₂ := h₂.shrinks b
  have hc₁ := h₁.covered b
  have hc₂ := h₂.covered b
  -- a resource is given away in at most one of the two halves
  cases hf₀ : free₀ b <;> cases hf₁ : free₁ b <;> cases hf₂ : free₂ b <;>
    simp_all <;> omega

/-- A resource with more grants than before was free and is free no longer. -/
theorem HandsOut.taken (h : HandsOut mem free₀ free₁ xs₀ xs₁) {b : β}
    (hb : cover mem xs₀ b < cover mem xs₁ b) : free₀ b = true ∧ free₁ b = false := by
  have hc := h.covered b
  by_contra hn
  rw [if_neg hn] at hc
  omega

theorem HandsOut.cover_le (h : HandsOut mem free₀ free₁ xs₀ xs₁) (b : β) :
    cover mem xs₁ b ≤ cover mem xs₀ b + 1 := by
  have hc := h.covered b
  split at hc <;> omega

/-- Grants that cover each resource at most once are pairwise disjoint. -/
theorem pairwise_of_cover_le_one {xs : List α} (h : ∀ b, cover mem xs b ≤ 1) :
    xs.Pairwise fun x y => ∀ b, ¬ (mem x b = true ∧ mem y b = true) := by
  induction xs with
  | nil => exact List.Pairwise.nil
  | cons x rest ih =>
      have hsplit : ∀ b, cover mem (x :: rest) b = (if mem x b then 1 else 0) + cover mem rest b :=
        fun b => by rw [← cover_singleton, ← cover_append]; rfl
      refine List.Pairwise.cons ?_ (ih fun b => ?_)
      · rintro y hy b ⟨hx, hyb⟩
        have hpos : 0 < cover mem rest b := List.countP_pos_iff.mpr ⟨y, hy, hyb⟩
        have hle := h b
        rw [hsplit, if_pos hx] at hle
        omega
      · have hle := h b
        rw [hsplit] at hle
        omega

/-- Starting without grants, the grants made are pairwise disjoint. -/
theorem HandsOut.pairwise (h : HandsOut mem free₀ free₁ [] xs₁) :
    xs₁.Pairwise fun x y => ∀ b, ¬ (mem x b = true ∧ mem y b = true) :=
  pairwise_of_cover_le_one h.cover_le

end Clab.HandOut
