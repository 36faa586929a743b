import Mathlib

/-!
# Maximal runs of a row of flags

A row of flags, read from the left, and the runs of set flags that cannot be
made longer. A scan knows two things about the flags it has passed: the length
of the run it is in, and the runs that a clear flag has ended.
-/

namespace Clab.MaximalRuns

variable {f : Nat → Bool}

/-- The flags `[start, start + len)` are a run that cannot be made longer
inside `[0, n)`. -/
structure IsRun (f : Nat → Bool) (n start len : Nat) : Prop where
  pos : 0 < len
  le : start + len ≤ n
  set : ∀ i, start ≤ i → i < start + len → f i = true
  left : start = 0 ∨ f (start - 1) = false
  right : start + len = n ∨ f (start + len) = false

/-- The length of the run that ends just before `n`. -/
def openRun (f : Nat → Bool) : Nat → Nat
  | 0 => 0
  | n + 1 => if f n then openRun f n + 1 else 0

/-- The runs that a clear flag before `n` ends, from left to right. -/
def closedRuns (f : Nat → Bool) : Nat → List (Nat × Nat)
  | 0 => []
  | n + 1 =>
      if f n = false ∧ 0 < openRun f n then
        closedRuns f n ++ [(n - openRun f n, openRun f n)]
      else closedRuns f n

/-- The runs of `[0, n)`. -/
def runs (f : Nat → Bool) (n : Nat) : List (Nat × Nat) :=
  if 0 < openRun f n then closedRuns f n ++ [(n - openRun f n, openRun f n)] else closedRuns f n

/-! ## The run in progress -/

@[simp] theorem openRun_zero : openRun f 0 = 0 := rfl

theorem openRun_set {n : Nat} (h : f n = true) : openRun f (n + 1) = openRun f n + 1 := if_pos h

theorem openRun_clear {n : Nat} (h : f n = false) : openRun f (n + 1) = 0 := by
  simp [openRun, h]

theorem openRun_le (f : Nat → Bool) (n : Nat) : openRun f n ≤ n := by
  induction n with
  | zero => exact Nat.le_refl 0
  | succ n ih =>
      unfold openRun
      split <;> omega

theorem openRun_flags {n i : Nat} (hi : n - openRun f n ≤ i) (hn : i < n) : f i = true := by
  induction n with
  | zero => omega
  | succ n ih =>
      cases hf : f n with
      | false =>
          rw [openRun_clear hf] at hi
          omega
      | true =>
          rw [openRun_set hf] at hi
          by_cases he : i = n
          · rw [he, hf]
          · exact ih (by omega) (by omega)

theorem openRun_left (f : Nat → Bool) (n : Nat) :
    n - openRun f n = 0 ∨ f (n - openRun f n - 1) = false := by
  induction n with
  | zero => exact Or.inl rfl
  | succ n ih =>
      cases hf : f n with
      | false =>
          rw [openRun_clear hf]
          exact Or.inr hf
      | true =>
          rw [openRun_set hf, Nat.add_sub_add_right]
          exact ih

/-- What identifies the run in progress. -/
theorem openRun_eq {n len : Nat} (hle : len ≤ n) (hset : ∀ i, n - len ≤ i → i < n → f i = true)
    (hleft : n - len = 0 ∨ f (n - len - 1) = false) : len = openRun f n := by
  have hopen := openRun_le f n
  rcases Nat.lt_trichotomy len (openRun f n) with hlt | heq | hgt
  · rcases hleft with hzero | hclear
    · omega
    · have hset : f (n - len - 1) = true := openRun_flags (n := n) (by omega) (by omega)
      rw [hset] at hclear
      cases hclear
  · exact heq
  · rcases openRun_left f n with hzero | hclear
    · omega
    · rw [hset _ (by omega) (by omega)] at hclear
      cases hclear

/-- A stretch of set flags makes the run longer. -/
theorem openRun_add {n : Nat} {m : Nat} (h : ∀ i, n ≤ i → i < n + m → f i = true) :
    openRun f (n + m) = openRun f n + m := by
  induction m with
  | zero => rfl
  | succ m ih =>
      show openRun f (n + m + 1) = _
      rw [openRun_set (h _ (by omega) (by omega)), ih fun i hi hm => h i hi (by omega)]
      rfl

/-- After a stretch of clear flags there is no run. -/
theorem openRun_gap {n m : Nat} (hm : 0 < m) (h : ∀ i, n ≤ i → i < n + m → f i = false) :
    openRun f (n + m) = 0 := by
  obtain ⟨k, rfl⟩ : ∃ k, m = k + 1 := ⟨m - 1, by omega⟩
  exact openRun_clear (h (n + k) (by omega) (by omega))

/-! ## The runs passed -/

@[simp] theorem closedRuns_zero : closedRuns f 0 = [] := rfl

theorem closedRuns_add {n m : Nat} (h : ∀ i, n ≤ i → i < n + m → f i = true) :
    closedRuns f (n + m) = closedRuns f n := by
  induction m with
  | zero => rfl
  | succ m ih =>
      show closedRuns f (n + m + 1) = _
      rw [closedRuns, if_neg, ih fun i hi hm => h i hi (by omega)]
      rw [h (n + m) (by omega) (by omega)]
      simp

/-- A stretch of clear flags ends the run in progress. -/
theorem closedRuns_gap {n m : Nat} (hm : 0 < m) (h : ∀ i, n ≤ i → i < n + m → f i = false) :
    closedRuns f (n + m) = runs f n := by
  obtain ⟨k, rfl⟩ : ∃ k, m = k + 1 := ⟨m - 1, by omega⟩
  clear hm
  induction k with
  | zero =>
      show closedRuns f (n + 1) = _
      rw [closedRuns, h n (by omega) (by omega)]
      simp [runs]
  | succ k ih =>
      show closedRuns f (n + (k + 1) + 1) = _
      have hopen : openRun f (n + (k + 1)) = 0 :=
        openRun_gap (Nat.succ_pos k) fun i hi hk => h i hi (by omega)
      rw [closedRuns, hopen, if_neg (by omega)]
      exact ih fun i hi hk => h i hi (by omega)

theorem openRun_isRun {n : Nat} (h : 0 < openRun f n) {m : Nat} (hm : n ≤ m)
    (hright : n = m ∨ f n = false) : IsRun f m (n - openRun f n) (openRun f n) := by
  have hle := openRun_le f n
  have hend : n - openRun f n + openRun f n = n := Nat.sub_add_cancel hle
  refine ⟨h, by omega, fun i hi hn => openRun_flags hi (by omega), openRun_left f n, ?_⟩
  rw [hend]
  exact hright

theorem IsRun.eq_openRun {n start len : Nat} (h : IsRun f n start len) :
    len = openRun f (start + len) := by
  refine openRun_eq (Nat.le_add_left _ _) ?_ ?_
  · intro i hi hn
    exact h.set i (by omega) hn
  · rw [Nat.add_sub_cancel]
    exact h.left

theorem mem_closedRuns {n : Nat} {r : Nat × Nat} :
    r ∈ closedRuns f n ↔ IsRun f n r.1 r.2 ∧ r.1 + r.2 < n := by
  obtain ⟨start, len⟩ := r
  induction n with
  | zero => simp
  | succ n ih =>
      -- a run that ends before `n` is the same one flag further on
      have hstep : (IsRun f n start len ∧ start + len < n) ↔
          IsRun f (n + 1) start len ∧ start + len < n := by
        constructor
        · rintro ⟨h, hlt⟩
          exact ⟨⟨h.pos, by omega, h.set, h.left, Or.inr (h.right.resolve_left (by omega))⟩, hlt⟩
        · rintro ⟨h, hlt⟩
          exact ⟨⟨h.pos, by omega, h.set, h.left, Or.inr (h.right.resolve_left (by omega))⟩, hlt⟩
      have hold : (start, len) ∈ closedRuns f n ↔
          IsRun f (n + 1) start len ∧ start + len < n := ih.trans hstep
      rw [closedRuns]
      split
      · rename_i hn
        rw [List.mem_append, hold, List.mem_singleton, Prod.mk.injEq]
        constructor
        · rintro (⟨h, hlt⟩ | ⟨rfl, rfl⟩)
          · exact ⟨h, by omega⟩
          · have hle := openRun_le f n
            exact ⟨openRun_isRun hn.2 (Nat.le_succ n) (Or.inr hn.1), by dsimp only; omega⟩
        · rintro ⟨h, hlt⟩
          dsimp only at h hlt
          by_cases he : start + len = n
          · have hlen := h.eq_openRun
            rw [he] at hlen
            exact Or.inr ⟨by omega, hlen⟩
          · exact Or.inl ⟨h, by omega⟩
      · rename_i hn
        rw [hold]
        constructor
        · rintro ⟨h, hlt⟩
          exact ⟨h, by dsimp only; omega⟩
        · rintro ⟨h, hlt⟩
          dsimp only at h hlt
          refine ⟨h, ?_⟩
          by_contra hge
          have he : start + len = n := by omega
          have hlen := h.eq_openRun
          have hclear := h.right.resolve_left (by omega)
          have hpos := h.pos
          rw [he] at hlen hclear
          exact hn ⟨hclear, by omega⟩

/-- The list has every run of `[0, n)`. -/
theorem mem_runs {n : Nat} {r : Nat × Nat} : r ∈ runs f n ↔ IsRun f n r.1 r.2 := by
  obtain ⟨start, len⟩ := r
  have hlast : IsRun f n start len → start + len = n →
      start = n - openRun f n ∧ len = openRun f n := by
    intro h he
    have hlen := h.eq_openRun
    rw [he] at hlen
    exact ⟨by omega, hlen⟩
  unfold runs
  split
  · rename_i hopen
    rw [List.mem_append, mem_closedRuns, List.mem_singleton, Prod.mk.injEq]
    constructor
    · rintro (⟨h, -⟩ | ⟨rfl, rfl⟩)
      · exact h
      · exact openRun_isRun hopen (Nat.le_refl n) (Or.inl rfl)
    · intro h
      have hle := h.le
      dsimp only at h hle
      by_cases he : start + len = n
      · exact Or.inr (hlast h he)
      · exact Or.inl ⟨h, by dsimp only; omega⟩
  · rename_i hopen
    rw [mem_closedRuns]
    constructor
    · exact fun h => h.1
    · intro h
      have hle := h.le
      have hpos := h.pos
      dsimp only at h hle hpos
      refine ⟨h, ?_⟩
      by_contra hge
      have := (hlast h (by dsimp only at hge; omega)).2
      omega

theorem nodup_closedRuns (f : Nat → Bool) (n : Nat) : (closedRuns f n).Nodup := by
  induction n with
  | zero => exact List.nodup_nil
  | succ n ih =>
      rw [closedRuns]
      split
      · refine List.Nodup.append ih (List.nodup_singleton _) ?_
        intro r hr hlast
        have hle := openRun_le f n
        have hlt := (mem_closedRuns.mp hr).2
        rw [List.mem_singleton.mp hlast] at hlt
        dsimp only at hlt
        omega
      · exact ih

theorem nodup_runs (f : Nat → Bool) (n : Nat) : (runs f n).Nodup := by
  unfold runs
  split
  · refine List.Nodup.append (nodup_closedRuns f n) (List.nodup_singleton _) ?_
    intro r hr hlast
    have hle := openRun_le f n
    have hlt := (mem_closedRuns.mp hr).2
    rw [List.mem_singleton.mp hlast] at hlt
    dsimp only at hlt
    omega
  · exact nodup_closedRuns f n

/-- Counting in the list counts runs. -/
theorem countP_runs (n : Nat) (p : Nat → Bool) :
    (runs f n).countP (fun r => p r.2) = {r : Nat × Nat | IsRun f n r.1 r.2 ∧ p r.2}.ncard := by
  have hset : {r : Nat × Nat | IsRun f n r.1 r.2 ∧ p r.2} =
      ((runs f n).filter fun r => p r.2).toFinset := by
    ext r
    simp [mem_runs]
  rw [hset, Set.ncard_coe_finset, List.toFinset_card_of_nodup ((nodup_runs f n).filter _),
    List.countP_eq_length_filter]

end Clab.MaximalRuns
