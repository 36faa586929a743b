import Clab.Blk.Allocator

/-!
# A list of free extents

The simplest allocator that is lawful: it answers with its first extent, which may
be shorter than what it is asked for.
-/

namespace Clab.Blk

/-- The free extents. -/
structure FreeList where
  extents : List PExtent
  deriving DecidableEq

namespace FreeList

/-- The first extent, or as much of it as is wanted. -/
def allocate (a : FreeList) (want : Nat) : Int × List PExtent × FreeList :=
  match a.extents with
  | [] => (-28, [], a)
  | e :: es =>
      if want < e.length then
        (want, [⟨e.offset, want⟩], ⟨⟨e.offset + want, e.length - want⟩ :: es⟩)
      else (e.length, [e], ⟨es⟩)

instance : Allocator FreeList where
  allocate a want _ _ _ := a.allocate want
  release a releaseVec := ⟨releaseVec ++ a.extents⟩
  initAddFree a offset length := ⟨⟨offset, length⟩ :: a.extents⟩
  initRmFree a _ _ := a
  getFree a := (a.extents.map PExtent.length).sum
  getCapacity a := (a.extents.map PExtent.length).sum

/-- The bytes of the list are free, each of them once. -/
def Holds (a : FreeList) (free : Set Nat) : Prop :=
  ∀ x, coverCount a.extents x = inPool free x

theorem coverCount_cons (e : PExtent) (es : List PExtent) (x : Nat) :
    coverCount (e :: es) x = coverCount [e] x + coverCount es x := by
  unfold coverCount
  rw [List.countP_cons, List.countP_cons, List.countP_nil]
  omega

theorem coverCount_one (e : PExtent) (x : Nat) :
    coverCount [e] x = if e.offset ≤ x ∧ x < e.offset + e.length then 1 else 0 := by
  simp [coverCount, PExtent.has, List.countP_cons]

/-- Extents that hold a byte once at most hold the bytes of a set. -/
theorem holds_covered {es : List PExtent} (h : ∀ x, coverCount es x ≤ 1) :
    Holds ⟨es⟩ {x | 0 < coverCount es x} := by
  intro x
  have hle := h x
  unfold inPool
  by_cases hx : 0 < coverCount es x
  · have hmem : x ∈ {x | 0 < coverCount es x} := hx
    rw [if_pos hmem]
    show coverCount es x = 1
    omega
  · have hmem : x ∉ {x | 0 < coverCount es x} := hx
    rw [if_neg hmem]
    exact Nat.eq_zero_of_not_pos hx

theorem allocate_holds {a : FreeList} {free : Set Nat} (h : Holds a free) (want : Nat) :
    if 0 < (a.allocate want).1 then
      (∀ e ∈ (a.allocate want).2.1, 0 < e.length) ∧ ∃ free', Holds (a.allocate want).2.2 free' ∧
        ∀ x, coverCount (a.allocate want).2.1 x + inPool free' x = inPool free x
    else Holds (a.allocate want).2.2 free := by
  obtain ⟨es⟩ := a
  unfold allocate
  cases es with
  | nil => exact h
  | cons e es =>
      have hsum : ∀ x, coverCount [e] x + coverCount es x = inPool free x := fun x => by
        rw [← coverCount_cons]
        exact h x
      simp only
      -- what stays in the list, and what is granted, are what was free
      have hgrant : ∀ (g : PExtent) (rest : List PExtent),
          (∀ x, coverCount [g] x + coverCount rest x = coverCount [e] x + coverCount es x) →
          Holds ⟨rest⟩ {x | 0 < coverCount rest x} ∧
            ∀ x, coverCount [g] x + inPool {x | 0 < coverCount rest x} x = inPool free x := by
        intro g rest hsplit
        have hholds : Holds ⟨rest⟩ {x | 0 < coverCount rest x} := holds_covered fun x => by
          have hle := inPool_le free x
          have hx := hsplit x
          have hx' := hsum x
          omega
        refine ⟨hholds, fun x => ?_⟩
        rw [← hholds x, hsplit, hsum]
      split
      case isTrue hlt =>
        have hsplit : ∀ x, coverCount [⟨e.offset, want⟩] x +
            coverCount (⟨e.offset + want, e.length - want⟩ :: es) x =
            coverCount [e] x + coverCount es x := by
          intro x
          rw [coverCount_cons ⟨e.offset + want, _⟩, coverCount_one, coverCount_one, coverCount_one]
          simp only
          split_ifs <;> omega
        obtain ⟨hholds, hcount⟩ := hgrant _ _ hsplit
        by_cases hzero : want = 0
        · subst hzero
          rw [if_neg (by simp)]
          intro x
          have hx := h x
          rw [coverCount_cons, coverCount_one] at hx ⊢
          simpa using hx
        · rw [if_pos (by simp; omega)]
          refine ⟨fun g hg => ?_, _, hholds, hcount⟩
          rw [List.mem_singleton.mp hg]
          exact Nat.pos_of_ne_zero hzero
      case isFalse hge =>
        obtain ⟨hholds, hcount⟩ := hgrant e es fun _ => rfl
        by_cases hzero : e.length = 0
        · rw [if_neg (by simp [hzero])]
          intro x
          rw [← hsum x, coverCount_one, if_neg (by omega), Nat.zero_add]
        · rw [if_pos (by simp; omega)]
          refine ⟨fun g hg => ?_, _, hholds, hcount⟩
          rw [List.mem_singleton.mp hg]
          exact Nat.pos_of_ne_zero hzero

theorem lawful : LawfulAllocator Holds where
  allocate := by
    intro a a' free want unit maxAllocSize hint r extents h hal
    have hspec := allocate_holds h want
    have hal : a.allocate want = (r, extents, a') := hal
    rw [hal] at hspec
    exact hspec
  release := by
    intro a free releaseVec h hone
    have happend : ∀ x, coverCount (releaseVec ++ a.extents) x =
        coverCount releaseVec x + inPool free x := fun x => by
      rw [← h x]
      exact List.countP_append
    have hholds : Holds ⟨releaseVec ++ a.extents⟩ {x | 0 < coverCount (releaseVec ++ a.extents) x} :=
      holds_covered fun x => by
        rw [happend]
        exact hone x
    refine ⟨_, hholds, fun x => ?_⟩
    rw [← hholds x, happend]

end FreeList

end Clab.Blk
