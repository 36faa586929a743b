import Mathlib

/-!
# Sets as lists of ranges

A set of points of a linear order, kept as the list of its maximal runs. The
list is canonical when its ranges are non-empty, in order and do not touch. The
lemmas say what inserting a range between two others and carving one out of
another do to the list and to the set.
-/

namespace Clab.RangeSet

/-- The points from `start` up to, without, `stop`. -/
structure Segment (α : Type) where
  start : α
  stop : α
  deriving DecidableEq, Repr

variable {α : Type} [LinearOrder α]

/-- The points of the ranges. -/
def covered (l : List (Segment α)) : Set α := {x | ∃ r ∈ l, r.start ≤ x ∧ x < r.stop}

/-- Non-empty ranges in order, with a point missing between any two. -/
structure Canonical (l : List (Segment α)) : Prop where
  nonempty : ∀ r ∈ l, r.start < r.stop
  apart : l.Pairwise fun r s => r.stop < s.start

@[simp] theorem mem_covered {l : List (Segment α)} {x : α} :
    x ∈ covered l ↔ ∃ r ∈ l, r.start ≤ x ∧ x < r.stop := Iff.rfl

@[simp] theorem covered_nil : covered ([] : List (Segment α)) = ∅ := by
  ext x
  simp

theorem covered_cons (r : Segment α) (l : List (Segment α)) :
    covered (r :: l) = Set.Ico r.start r.stop ∪ covered l := by
  ext x
  simp [Set.mem_Ico]

theorem covered_append (l m : List (Segment α)) : covered (l ++ m) = covered l ∪ covered m := by
  ext x
  simp only [mem_covered, Set.mem_union, List.mem_append]
  constructor
  · rintro ⟨r, hr | hr, hx⟩
    · exact .inl ⟨r, hr, hx⟩
    · exact .inr ⟨r, hr, hx⟩
  · rintro (⟨r, hr, hx⟩ | ⟨r, hr, hx⟩)
    · exact ⟨r, .inl hr, hx⟩
    · exact ⟨r, .inr hr, hx⟩

theorem covered_perm {l m : List (Segment α)} (h : l.Perm m) : covered l = covered m := by
  ext x
  simp [h.mem_iff]

namespace Canonical

theorem nil : Canonical ([] : List (Segment α)) := ⟨by simp, List.Pairwise.nil⟩

variable {before after : List (Segment α)} {r : Segment α} {s e : α}

theorem append_iff : Canonical (before ++ after) ↔ Canonical before ∧ Canonical after ∧
    ∀ p ∈ before, ∀ q ∈ after, p.stop < q.start := by
  constructor
  · intro h
    obtain ⟨hb, ha, hx⟩ := List.pairwise_append.mp h.apart
    exact ⟨⟨fun p hp => h.nonempty p (List.mem_append_left _ hp), hb⟩,
      ⟨fun p hp => h.nonempty p (List.mem_append_right _ hp), ha⟩, hx⟩
  · rintro ⟨hb, ha, hx⟩
    refine ⟨fun p hp => ?_, List.pairwise_append.mpr ⟨hb.apart, ha.apart, hx⟩⟩
    rcases List.mem_append.mp hp with hp | hp
    · exact hb.nonempty p hp
    · exact ha.nonempty p hp

theorem cons_iff : Canonical (r :: after) ↔
    r.start < r.stop ∧ Canonical after ∧ ∀ q ∈ after, r.stop < q.start := by
  constructor
  · intro h
    obtain ⟨hx, ha⟩ := List.pairwise_cons.mp h.apart
    exact ⟨h.nonempty r (List.mem_cons_self ..),
      ⟨fun p hp => h.nonempty p (List.mem_cons_of_mem _ hp), ha⟩, hx⟩
  · rintro ⟨hr, ha, hx⟩
    refine ⟨fun p hp => ?_, List.pairwise_cons.mpr ⟨hx, ha.apart⟩⟩
    rcases List.mem_cons.mp hp with rfl | hp
    · exact hr
    · exact ha.nonempty p hp

/-- What surrounds a range of the list. -/
theorem split (h : Canonical (before ++ r :: after)) :
    Canonical (before ++ after) ∧ r.start < r.stop ∧ (∀ p ∈ before, p.stop < r.start) ∧
      ∀ q ∈ after, r.stop < q.start := by
  obtain ⟨hb, hra, hx⟩ := append_iff.mp h
  obtain ⟨hr, ha, hxa⟩ := cons_iff.mp hra
  refine ⟨append_iff.mpr ⟨hb, ha, fun p hp q hq => ?_⟩, hr, fun p hp => hx p hp r (by simp), hxa⟩
  exact hx p hp q (List.mem_cons_of_mem _ hq)

/-- A range that touches neither neighbour goes between them. -/
theorem insert (h : Canonical (before ++ after)) (hse : s < e) (hb : ∀ p ∈ before, p.stop < s)
    (ha : ∀ q ∈ after, e < q.start) : Canonical (before ++ ⟨s, e⟩ :: after) := by
  obtain ⟨hcb, hca, hx⟩ := append_iff.mp h
  refine append_iff.mpr ⟨hcb, cons_iff.mpr ⟨hse, hca, ha⟩, fun p hp q hq => ?_⟩
  rcases List.mem_cons.mp hq with rfl | hq
  · exact hb p hp
  · exact hx p hp q hq

theorem nodup {l : List (Segment α)} (h : Canonical l) : l.Nodup := by
  refine List.Pairwise.imp_of_mem (fun hp hq hlt heq => ?_) h.apart
  subst heq
  exact lt_asymm hlt (h.nonempty _ hp)

/-- Nothing outside a range of the list is next to it. -/
theorem stop_notMem (h : Canonical (before ++ r :: after)) :
    r.stop ∉ covered (before ++ r :: after) := by
  obtain ⟨-, hr, hb, ha⟩ := h.split
  rintro ⟨p, hp, hle, hlt⟩
  rcases List.mem_append.mp hp with hp | hp
  · exact absurd (hlt.trans (hb p hp)) (not_lt.mpr hr.le)
  rcases List.mem_cons.mp hp with rfl | hp
  · exact lt_irrefl _ hlt
  · exact absurd (ha p hp) (not_lt.mpr hle)

/-- The first range that ends behind `x` is the one that contains it. -/
theorem bound_of_mem {l : List (Segment α)} {x : α} (h : Canonical l) (hx : x ∈ covered l) :
    ∃ r after, (l.dropWhile fun p => decide (p.stop ≤ x)) = r :: after ∧
      r.start ≤ x ∧ x < r.stop := by
  induction l with
  | nil => simp at hx
  | cons p rest ih =>
      obtain ⟨-, hrest, hp⟩ := cons_iff.mp h
      rw [List.dropWhile_cons]
      split
      · rename_i hle
        refine ih hrest ?_
        obtain ⟨q, hq, hge, hlt⟩ := hx
        rcases List.mem_cons.mp hq with rfl | hq
        · exact absurd hlt (not_lt.mpr (of_decide_eq_true hle))
        · exact ⟨q, hq, hge, hlt⟩
      · rename_i hgt
        refine ⟨p, rest, rfl, ?_, not_le.mp fun hle => hgt (decide_eq_true hle)⟩
        obtain ⟨q, hq, hge, hlt⟩ := hx
        rcases List.mem_cons.mp hq with rfl | hq
        · exact hge
        · exact absurd (decide_eq_true ((hp q hq).le.trans hge)) hgt

/-- A run of points of the set lies inside one range. -/
theorem run_le_stop (h : Canonical (before ++ r :: after)) (hse : s < r.stop)
    (hrun : Set.Ico s e ⊆ covered (before ++ r :: after)) : e ≤ r.stop :=
  not_lt.mp fun hlt => h.stop_notMem (hrun ⟨hse.le, hlt⟩)

/-- The ranges on both sides of a run outside the set, split where a range
first starts behind the run. -/
theorem gap {l : List (Segment α)} (h : Canonical l) (hse : s < e)
    (hfree : Disjoint (Set.Ico s e) (covered l)) :
    (∀ p ∈ l.takeWhile fun q => !decide (e ≤ q.start), p.stop ≤ s) ∧
      ∀ q ∈ l.dropWhile fun q => !decide (e ≤ q.start), e ≤ q.start := by
  constructor
  · intro p hp
    have hlt : p.start < e := by simpa using List.mem_takeWhile_imp hp
    have hmem : p ∈ l := (List.takeWhile_sublist _).mem hp
    by_contra hgt
    have hin : max p.start s ∈ Set.Ico s e := ⟨le_max_right .., max_lt hlt hse⟩
    exact Set.disjoint_left.mp hfree hin
      ⟨p, hmem, le_max_left .., max_lt (h.nonempty p hmem) (not_le.mp hgt)⟩
  · intro q hq
    rw [← List.takeWhile_append_dropWhile (p := fun q => !decide (e ≤ q.start)) (l := l)] at h
    generalize l.takeWhile (fun q => !decide (e ≤ q.start)) = before at h
    cases hdrop : l.dropWhile fun q => !decide (e ≤ q.start) with
    | nil =>
        rw [hdrop] at hq
        exact absurd hq List.not_mem_nil
    | cons first rest =>
        have hfirst : e ≤ first.start := by
          have := List.head?_dropWhile_not (fun q : Segment α => !decide (e ≤ q.start)) l
          rw [hdrop] at this
          simpa using this
        rw [hdrop] at hq h
        rcases List.mem_cons.mp hq with rfl | hq
        · exact hfirst
        · obtain ⟨-, hr, -, ha⟩ := h.split
          exact hfirst.trans (hr.le.trans (ha q hq).le)

end Canonical

/-! ## Carving -/

/-- What is left of `r` without the points from `s` to `e`. -/
def leftovers (r : Segment α) (s e : α) : List (Segment α) :=
  (if r.start = s then [] else [⟨r.start, s⟩]) ++ if r.stop = e then [] else [⟨e, r.stop⟩]

variable {before after : List (Segment α)} {r : Segment α} {s e : α}

theorem mem_leftovers_bounds (hs : r.start ≤ s) (hse : s < e) (he : e ≤ r.stop) {p : Segment α}
    (hp : p ∈ leftovers r s e) : r.start ≤ p.start ∧ p.stop ≤ r.stop ∧ p.start < p.stop := by
  unfold leftovers at hp
  rcases List.mem_append.mp hp with hp | hp
  · split at hp
    · simp at hp
    · rename_i hne
      obtain rfl : p = ⟨r.start, s⟩ := by simpa using hp
      exact ⟨le_rfl, hse.le.trans he, lt_of_le_of_ne hs hne⟩
  · split at hp
    · simp at hp
    · rename_i hne
      obtain rfl : p = ⟨e, r.stop⟩ := by simpa using hp
      exact ⟨hs.trans hse.le, le_rfl, lt_of_le_of_ne he (Ne.symm hne)⟩

theorem Canonical.leftovers (hs : r.start ≤ s) (hse : s < e) (he : e ≤ r.stop) :
    Canonical (leftovers r s e) := by
  refine ⟨fun p hp => (mem_leftovers_bounds hs hse he hp).2.2, ?_⟩
  unfold RangeSet.leftovers
  split <;> split <;> simp [hse]

theorem Canonical.carve (h : Canonical (before ++ r :: after)) (hs : r.start ≤ s) (hse : s < e)
    (he : e ≤ r.stop) : Canonical (before ++ (RangeSet.leftovers r s e ++ after)) := by
  obtain ⟨hba, -, hb, ha⟩ := h.split
  obtain ⟨hcb, hca, hx⟩ := append_iff.mp hba
  have hin := fun p hp => mem_leftovers_bounds (p := p) hs hse he hp
  refine append_iff.mpr ⟨hcb, append_iff.mpr ⟨.leftovers hs hse he, hca, ?_⟩, ?_⟩
  · intro p hp q hq
    exact (hin p hp).2.1.trans_lt (ha q hq)
  · intro p hp q hq
    rcases List.mem_append.mp hq with hq | hq
    · exact (hb p hp).trans_le (hin q hq).1
    · exact hx p hp q hq

theorem covered_leftovers (hs : r.start ≤ s) (hse : s < e) (he : e ≤ r.stop) :
    covered (leftovers r s e) = Set.Ico r.start r.stop \ Set.Ico s e := by
  ext x
  rw [leftovers, covered_append, Set.mem_union, Set.mem_sdiff, Set.mem_Ico, Set.mem_Ico]
  have hleft : x ∈ covered (if r.start = s then [] else [⟨r.start, s⟩]) ↔ r.start ≤ x ∧ x < s := by
    split
    · rename_i heq
      rw [covered_nil, heq]
      exact ⟨fun h => h.elim, fun ⟨h₁, h₂⟩ => absurd h₂ (not_lt.mpr h₁)⟩
    · simp
  have hright : x ∈ covered (if r.stop = e then [] else [⟨e, r.stop⟩]) ↔ e ≤ x ∧ x < r.stop := by
    split
    · rename_i heq
      rw [covered_nil, heq]
      exact ⟨fun h => h.elim, fun ⟨h₁, h₂⟩ => absurd h₂ (not_lt.mpr h₁)⟩
    · simp
  rw [hleft, hright]
  constructor
  · rintro (⟨h₁, h₂⟩ | ⟨h₁, h₂⟩)
    · exact ⟨⟨h₁, h₂.trans_le (hse.le.trans he)⟩, fun h => absurd h₂ (not_lt.mpr h.1)⟩
    · exact ⟨⟨(hs.trans hse.le).trans h₁, h₂⟩, fun h => absurd h.2 (not_lt.mpr h₁)⟩
  · rintro ⟨⟨h₁, h₂⟩, hout⟩
    rcases lt_or_ge x s with hlt | hge
    · exact .inl ⟨h₁, hlt⟩
    · exact .inr ⟨not_lt.mp fun hlt => hout ⟨hge, hlt⟩, h₂⟩

/-- Carving a range out of the list carves its points out of the set. -/
theorem covered_carve (h : Canonical (before ++ r :: after)) (hs : r.start ≤ s) (hse : s < e)
    (he : e ≤ r.stop) : covered (before ++ (leftovers r s e ++ after)) =
      covered (before ++ r :: after) \ Set.Ico s e := by
  obtain ⟨-, hr, hb, ha⟩ := h.split
  have hbefore : Disjoint (covered before) (Set.Ico s e) := by
    refine Set.disjoint_left.mpr ?_
    rintro x ⟨p, hp, -, hlt⟩ ⟨hge, -⟩
    exact absurd (hlt.trans ((hb p hp).trans_le hs)) (not_lt.mpr hge)
  have hafter : Disjoint (covered after) (Set.Ico s e) := by
    refine Set.disjoint_left.mpr ?_
    rintro x ⟨q, hq, hge, -⟩ ⟨-, hlt⟩
    exact absurd (hlt.trans_le (he.trans (ha q hq).le)) (not_lt.mpr hge)
  rw [covered_append, covered_append, covered_leftovers hs hse he, covered_append, covered_cons,
    Set.union_sdiff_distrib, Set.union_sdiff_distrib, hbefore.sdiff_eq_left,
    hafter.sdiff_eq_left]

end Clab.RangeSet
