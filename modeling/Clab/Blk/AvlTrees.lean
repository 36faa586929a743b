import Clab.Blk.AvlAllocator

/-!
# The trees of the AVL allocator

Without a cap on the number of ranges, the two trees and the count of free
bytes describe one set. Adding a range to the trees is union, and removing one
is difference.
-/

namespace Clab.Blk

open Clab.Common Clab.RangeSet

theorem shorter_of_not_shorter {r s : RangeSeg} (hr : r.start < r.stop) (hs : s.start < s.stop)
    (hne : r ≠ s) (h : shorter r s = false) : shorter s r = true := by
  unfold shorter rangeLength at *
  obtain ⟨a, b⟩ := r
  obtain ⟨c, d⟩ := s
  simp only [ne_eq, Segment.mk.injEq, not_and] at *
  grind

theorem shorter_trans {r s t : RangeSeg} (h₁ : shorter r s = true) (h₂ : shorter s t = true) :
    shorter r t = true := by
  unfold shorter at *
  grind

namespace AvlAllocator

/-- What every operation leaves alone. -/
structure SameConfig (a a' : AvlAllocator) : Prop where
  deviceSize : a'.deviceSize = a.deviceSize
  blockSize : a'.blockSize = a.blockSize
  rangeCountCap : a'.rangeCountCap = a.rangeCountCap

theorem SameConfig.refl (a : AvlAllocator) : SameConfig a a := ⟨rfl, rfl, rfl⟩

theorem SameConfig.trans {a₁ a₂ a₃ : AvlAllocator} (h : SameConfig a₁ a₂)
    (h' : SameConfig a₂ a₃) : SameConfig a₁ a₃ :=
  ⟨h'.deviceSize.trans h.deviceSize, h'.blockSize.trans h.blockSize,
    h'.rangeCountCap.trans h.rangeCountCap⟩

theorem SameConfig.ofTree {a a' : AvlAllocator} {tree : List RangeSeg}
    (h : SameConfig { a with rangeTree := tree } a') : SameConfig a a' :=
  ⟨h.deviceSize, h.blockSize, h.rangeCountCap⟩

/-- `range_size_tree_` holds the ranges `l`, in order of lengths, and `num_free_`
counts their bytes. -/
structure Tracks (a : AvlAllocator) (l : List RangeSeg) : Prop where
  same : a.rangeSizeTree.Perm l
  bySize : a.rangeSizeTree.Pairwise fun r s => shorter r s = true
  numFree : a.numFree = (l.map rangeLength).sum

namespace Tracks

variable {a : AvlAllocator} {l m : List RangeSeg} {r : RangeSeg}

theorem perm (h : Tracks a l) (hp : l.Perm m) : Tracks a m :=
  ⟨h.same.trans hp, h.bySize, by rw [h.numFree, (hp.map rangeLength).sum_eq]⟩

theorem withRangeTree (h : Tracks a l) (tree : List RangeSeg) :
    Tracks { a with rangeTree := tree } l := ⟨h.same, h.bySize, h.numFree⟩

/-- `_range_size_tree_rm` of a range that is there. -/
theorem rangeSizeTreeRm (h : Tracks a (r :: l)) : ∃ a', a.rangeSizeTreeRm r = .ok a' ∧
    Tracks a' l ∧ a'.rangeTree = a.rangeTree ∧ SameConfig a a' := by
  have hsum : a.numFree = rangeLength r + (l.map rangeLength).sum := by
    rw [h.numFree, List.map_cons, List.sum_cons]
  refine ⟨_, if_neg (by omega), ⟨?_, h.bySize.sublist List.erase_sublist, ?_⟩, rfl, rfl, rfl, rfl⟩
  · have := h.same.erase r
    rwa [List.erase_cons_head] at this
  · show a.numFree - rangeLength r = _
    omega

/-- A range that is not there goes into `range_size_tree_`. -/
theorem rangeSizeTreeInsert (h : Tracks a l) (hr : r.start < r.stop)
    (hl : ∀ s ∈ l, s.start < s.stop ∧ s ≠ r) : Tracks (a.rangeSizeTreeInsert r) (r :: l) := by
  refine ⟨(List.perm_orderedInsert _ r _).trans (h.same.cons r), ?_, ?_⟩
  · have hmem : ∀ s ∈ a.rangeSizeTree, s.start < s.stop ∧ s ≠ r :=
      fun s hs => hl s (h.same.mem_iff.mp hs)
    have hsorted := h.bySize
    show (a.rangeSizeTree.orderedInsert (fun x y => shorter x y) r).Pairwise _
    generalize a.rangeSizeTree = tree at hmem hsorted
    induction tree with
    | nil => simp
    | cons s rest ih =>
        obtain ⟨hs, hrest⟩ := List.pairwise_cons.mp hsorted
        rw [List.orderedInsert_cons]
        split
        · rename_i hlt
          refine List.pairwise_cons.mpr ⟨fun t ht => ?_, hsorted⟩
          rcases List.mem_cons.mp ht with rfl | ht
          · exact hlt
          · exact shorter_trans hlt (hs t ht)
        · rename_i hge
          have hrest' := ih (fun t ht => hmem t (List.mem_cons_of_mem _ ht)) hrest
          refine List.pairwise_cons.mpr ⟨fun t ht => ?_, hrest'⟩
          rcases List.mem_cons.mp ((List.perm_orderedInsert _ r _).mem_iff.mp ht) with rfl | ht
          · obtain ⟨hs₁, hs₂⟩ := hmem s (List.mem_cons_self ..)
            exact shorter_of_not_shorter hr hs₁ (Ne.symm hs₂) (by simpa using hge)
          · exact hs t ht
  · show a.numFree + rangeLength r = _
    rw [h.numFree, List.map_cons, List.sum_cons, Nat.add_comm]

end Tracks

/-! ## The invariant -/

/-- The allocator describes the set `free`. -/
structure Holds (a : AvlAllocator) (free : Set Nat) : Prop where
  canonical : Canonical a.rangeTree
  tracks : Tracks a a.rangeTree
  covers : covered a.rangeTree = free
  inside : ∀ r ∈ a.rangeTree, r.stop ≤ a.deviceSize
  uncapped : a.rangeCountCap = 0
  device : a.deviceSize < 2 ^ 63

section Uncapped

variable {a : AvlAllocator}

theorem tryInsertRange_uncapped (h : a.rangeCountCap = 0) (start stop : Nat) (pos : Option Nat) :
    a.tryInsertRange start stop pos = .ok (true, a.placeRange start stop pos) :=
  if_pos (.inl h)

theorem rangeSizeTreeTryInsert_uncapped (h : a.rangeCountCap = 0) (r : RangeSeg) :
    a.rangeSizeTreeTryInsert r = .ok (a.rangeSizeTreeInsert r) := by
  unfold rangeSizeTreeTryInsert
  rw [tryInsertRange_uncapped h]
  rfl

variable {before after : List RangeSeg} {r : RangeSeg}

/-- The ranges around `r` are other ranges. -/
theorem others_of_canonical (h : Canonical (before ++ r :: after)) :
    ∀ s ∈ before ++ after, s.start < s.stop ∧ s ≠ r := by
  intro s hs
  have hmid := (List.nodup_middle.mp h.nodup)
  obtain ⟨hnot, -⟩ := List.nodup_cons.mp hmid
  exact ⟨h.split.1.nonempty s hs, fun heq => hnot (heq ▸ hs)⟩

/-- A range of `range_tree_` goes back into `range_size_tree_`. -/
theorem Tracks.tryInsert (h : Tracks a (before ++ after)) (hcap : a.rangeCountCap = 0)
    (hcan : Canonical (before ++ r :: after)) (htree : a.rangeTree = before ++ r :: after) :
    ∃ a', a.rangeSizeTreeTryInsert r = .ok a' ∧ Tracks a' (before ++ r :: after) ∧
      a'.rangeTree = before ++ r :: after ∧ SameConfig a a' := by
  have hr := hcan.split.2.1
  refine ⟨_, rangeSizeTreeTryInsert_uncapped hcap r, ?_, htree, rfl, rfl, rfl⟩
  exact (h.rangeSizeTreeInsert hr (others_of_canonical hcan)).perm List.perm_middle.symm

/-- A range goes back into both trees between `before` and `after`. -/
theorem Tracks.reinsert (h : Tracks a (before ++ after)) (hcap : a.rangeCountCap = 0)
    (hcan : Canonical (before ++ r :: after)) :
    ∃ a', { a with rangeTree := before ++ r :: after }.rangeSizeTreeTryInsert r = .ok a' ∧
      Tracks a' (before ++ r :: after) ∧ a'.rangeTree = before ++ r :: after ∧
      SameConfig a a' := by
  obtain ⟨a', hins, ht, htree, hsame⟩ :=
    (h.withRangeTree (before ++ r :: after)).tryInsert hcap hcan rfl
  exact ⟨a', hins, ht, htree, .ofTree hsame⟩

theorem insertIdx_length (pre post : List RangeSeg) (r : RangeSeg) :
    (pre ++ post).insertIdx pre.length r = pre ++ r :: post := by
  induction pre with
  | nil => rfl
  | cons p pre ih => simp [ih]

/-- A new range goes into both trees at its position. -/
theorem Tracks.tryInsertRange (h : Tracks a (before ++ after)) (hcap : a.rangeCountCap = 0)
    (hcan : Canonical (before ++ r :: after)) {pre post : List RangeSeg}
    (htree : a.rangeTree = pre ++ post) :
    ∃ a', a.tryInsertRange r.start r.stop (some pre.length) = .ok (true, a') ∧
      Tracks a' (before ++ r :: after) ∧ a'.rangeTree = pre ++ r :: post ∧ SameConfig a a' := by
  have hr := hcan.split.2.1
  refine ⟨_, tryInsertRange_uncapped hcap _ _ _, ?_, ?_, rfl, rfl, rfl⟩
  · have hins := (h.withRangeTree (a.rangeTree.insertIdx pre.length r)).rangeSizeTreeInsert hr
      (others_of_canonical hcan)
    exact hins.perm List.perm_middle.symm
  · show a.rangeTree.insertIdx pre.length r = _
    rw [htree, insertIdx_length]

end Uncapped

/-! ## Adding a range -/

section Adding

variable {a : AvlAllocator} {free : Set Nat} {start size : Nat}

/-- `mergeBefore` is none: nothing ends at `start`. -/
theorem before_lt {before : List RangeSeg} (h : Canonical before)
    (hle : ∀ p ∈ before, p.stop ≤ start)
    (hnone : before.getLast?.filter (fun r => r.stop = start) = none) :
    ∀ p ∈ before, p.stop < start := by
  intro p hp
  cases hlast : before.getLast? with
  | none =>
      rw [List.getLast?_eq_none_iff.mp hlast] at hp
      exact absurd hp List.not_mem_nil
  | some q =>
      obtain ⟨init, rfl⟩ := List.getLast?_eq_some_iff.mp hlast
      have hq : q.stop ≠ start := by simpa [hlast, Option.filter] using hnone
      have hqle := hle q (by simp)
      rcases List.mem_append.mp hp with hp | hp
      · obtain ⟨-, hqq, hx, -⟩ := Canonical.split h
        have := hx p hp
        omega
      · obtain rfl : p = q := by simpa using hp
        omega

/-- `mergeAfter` is none: nothing starts at `stop`. -/
theorem lt_after {stop : Nat} {after : List RangeSeg} (h : Canonical after)
    (hge : ∀ q ∈ after, stop ≤ q.start)
    (hnone : after.head?.filter (fun r => r.start = stop) = none) :
    ∀ q ∈ after, stop < q.start := by
  intro q hq
  cases after with
  | nil => exact absurd hq List.not_mem_nil
  | cons p rest =>
      have hp : p.start ≠ stop := by simpa [Option.filter] using hnone
      have hple := hge p (by simp)
      obtain ⟨hpp, -, hx⟩ := Canonical.cons_iff.mp h
      rcases List.mem_cons.mp hq with rfl | hq
      · omega
      · have := hx q hq
        omega

/-- The range that ends at `start`, and those before it. -/
theorem exists_before {before : List RangeSeg} {p : RangeSeg} (h : Canonical before)
    (hsome : before.getLast?.filter (fun r => r.stop = start) = some p) :
    ∃ init, before = init ++ [p] ∧ p.stop = start ∧ p.start < p.stop ∧
      ∀ q ∈ init, q.stop < p.start := by
  obtain ⟨hlast, hp⟩ := Option.filter_eq_some_iff.mp hsome
  obtain ⟨init, rfl⟩ := List.getLast?_eq_some_iff.mp hlast
  obtain ⟨-, hpp, hx, -⟩ := Canonical.split h
  exact ⟨init, rfl, by simpa using hp, hpp, hx⟩

/-- The range that starts at `stop`, and those after it. -/
theorem exists_after {stop : Nat} {after : List RangeSeg} {p : RangeSeg} (h : Canonical after)
    (hsome : after.head?.filter (fun r => r.start = stop) = some p) :
    ∃ rest, after = p :: rest ∧ p.start = stop ∧ p.start < p.stop ∧
      ∀ q ∈ rest, p.stop < q.start := by
  obtain ⟨hhead, hp⟩ := Option.filter_eq_some_iff.mp hsome
  cases after with
  | nil => simp at hhead
  | cons q rest =>
      obtain rfl : q = p := by simpa using hhead
      obtain ⟨hqq, -, hx⟩ := Canonical.cons_iff.mp h
      exact ⟨rest, rfl, by simpa using hp, hqq, hx⟩

/-- `_add_to_tree` of a range outside the set. -/
theorem addToTree_spec (h : Holds a free) (hsize : 0 < size)
    (hin : start + size ≤ a.deviceSize) (hfree : Disjoint (Set.Ico start (start + size)) free) :
    ∃ a', a.addToTree start size = .ok a' ∧
      Holds a' (free ∪ Set.Ico start (start + size)) ∧ SameConfig a a' := by
  have hdev := h.device
  have hstop : add64 start size = start + size := add64_of_lt (by omega)
  unfold addToTree
  rw [if_neg (by omega), hstop]
  dsimp only
  rw [← h.covers] at hfree
  obtain ⟨hle, hge⟩ := h.canonical.gap (by omega) hfree
  have htree := (List.takeWhile_append_dropWhile
    (p := fun q : RangeSeg => !decide (start + size ≤ q.start)) (l := a.rangeTree)).symm
  generalize a.rangeTree.takeWhile (fun q => !decide (start + size ≤ q.start)) = before at *
  generalize a.rangeTree.dropWhile (fun q => !decide (start + size ≤ q.start)) = after at *
  have hcan := h.canonical
  have htracks := h.tracks
  have hinside := h.inside
  have hcovers := h.covers
  rw [htree] at hcan htracks hinside hcovers
  obtain ⟨hcb, hca, hx⟩ := Canonical.append_iff.mp hcan
  -- it is enough to reach a list with one range between what was before and after
  have hdone : ∀ {a₁ a' : AvlAllocator} {pre post : List RangeSeg} {r : RangeSeg},
      Canonical (pre ++ r :: post) → Tracks a' (pre ++ r :: post) →
      a'.rangeTree = pre ++ r :: post →
      covered (pre ++ r :: post) = covered (before ++ after) ∪ Set.Ico start (start + size) →
      (∀ s ∈ pre ++ post, s ∈ before ++ after) → r.stop ≤ a.deviceSize →
      SameConfig a a₁ → SameConfig a₁ a' →
      Holds a' (free ∪ Set.Ico start (start + size)) ∧ SameConfig a a' := by
    intro a₁ a' pre post r hc ht htree' hcov hsub hr hsame₁ hsame₂
    have hsame := hsame₁.trans hsame₂
    refine ⟨⟨htree' ▸ hc, htree' ▸ ht, ?_, ?_, hsame.rangeCountCap.trans h.uncapped,
      hsame.deviceSize ▸ h.device⟩, hsame⟩
    · rw [htree', hcov, hcovers]
    · intro s hs
      rw [hsame.deviceSize]
      rw [htree'] at hs
      rcases List.mem_append.mp hs with hs | hs
      · exact hinside s (hsub s (List.mem_append_left _ hs))
      rcases List.mem_cons.mp hs with rfl | hs
      · exact hr
      · exact hinside s (hsub s (List.mem_append_right _ hs))
  cases hb : before.getLast?.filter (fun r => r.stop = start) with
  | some p =>
      obtain ⟨init, rfl, hpstop, hpp, hbx⟩ := exists_before hcb hb
      rw [List.dropLast_concat]
      have hflat : ∀ l, init ++ [p] ++ l = init ++ p :: l := fun l => by simp
      rw [hflat] at hcan htracks hinside hdone
      obtain ⟨a₁, hrm, ht₁, -, hsame₁⟩ := (htracks.perm List.perm_middle).rangeSizeTreeRm
      have hcap₁ : a₁.rangeCountCap = 0 := hsame₁.rangeCountCap.trans h.uncapped
      cases ha : after.head?.filter (fun r => r.start = start + size) with
      | some q =>
          obtain ⟨rest, rfl, hqstart, hqq, hax⟩ := exists_after hca ha
          have hcan' : Canonical (init ++ ⟨p.start, q.stop⟩ :: rest) :=
            hcan.split.1.split.1.insert (show p.start < q.stop by omega) hbx hax
          obtain ⟨a₂, hrm₂, ht₂, -, hsame₂⟩ := (ht₁.perm List.perm_middle).rangeSizeTreeRm
          obtain ⟨a', hins, ht', htree', hsame'⟩ :=
            ht₂.reinsert (hsame₂.rangeCountCap.trans hcap₁) hcan'
          refine ⟨a', ?_, hdone hcan' ht' htree' ?_ ?_ ?_ (hsame₁.trans hsame₂) hsame'⟩
          · show (a.rangeSizeTreeRm p).bind _ = _
            rw [hrm]
            show (a₁.rangeSizeTreeRm q).bind _ = _
            rw [hrm₂]
            exact hins
          · have hleft := Set.Ico_union_Ico_eq_Ico (show p.start ≤ start by omega)
              (show start ≤ q.stop by omega)
            have hright := Set.Ico_union_Ico_eq_Ico (Nat.le_add_right start size)
              (show start + size ≤ q.stop by omega)
            simp only [covered_append, covered_cons, hqstart, hpstop, ← hleft, ← hright]
            ac_rfl
          · intro s hs
            simp at hs ⊢
            tauto
          · exact hinside q (by simp)
      | none =>
          have hlt' := lt_after hca hge ha
          have hcan' : Canonical (init ++ ⟨p.start, start + size⟩ :: after) :=
            hcan.split.1.insert (show p.start < start + size by omega) hbx hlt'
          obtain ⟨a', hins, ht', htree', hsame'⟩ := ht₁.reinsert hcap₁ hcan'
          refine ⟨a', ?_, hdone hcan' ht' htree' ?_ ?_ hin hsame₁ hsame'⟩
          · show (a.rangeSizeTreeRm p).bind _ = _
            rw [hrm]
            exact hins
          · have hjoin := Set.Ico_union_Ico_eq_Ico (show p.start ≤ start by omega)
              (Nat.le_add_right start size)
            simp only [covered_append, covered_cons, hpstop, ← hjoin]
            ac_rfl
          · intro s hs
            simp at hs ⊢
            tauto
  | none =>
      have hlt := before_lt hcb hle hb
      cases ha : after.head?.filter (fun r => r.start = start + size) with
      | some q =>
          obtain ⟨rest, rfl, hqstart, hqq, hax⟩ := exists_after hca ha
          have hcan' : Canonical (before ++ ⟨start, q.stop⟩ :: rest) :=
            hcan.split.1.insert (show start < q.stop by omega) hlt hax
          obtain ⟨a₁, hrm, ht₁, -, hsame₁⟩ := (htracks.perm List.perm_middle).rangeSizeTreeRm
          obtain ⟨a', hins, ht', htree', hsame'⟩ :=
            ht₁.reinsert (hsame₁.rangeCountCap.trans h.uncapped) hcan'
          refine ⟨a', ?_, hdone hcan' ht' htree' ?_ ?_ ?_ hsame₁ hsame'⟩
          · show (a.rangeSizeTreeRm q).bind _ = _
            rw [hrm]
            exact hins
          · have hjoin := Set.Ico_union_Ico_eq_Ico (Nat.le_add_right start size)
              (show start + size ≤ q.stop by omega)
            simp only [covered_append, covered_cons, hqstart, ← hjoin]
            ac_rfl
          · intro s hs
            simp at hs ⊢
            tauto
          · exact hinside q (by simp)
      | none =>
          have hlt' := lt_after hca hge ha
          have hcan' : Canonical (before ++ ⟨start, start + size⟩ :: after) :=
            hcan.insert (by omega) hlt hlt'
          obtain ⟨a', hins, ht', htree', hsame'⟩ :=
            htracks.tryInsertRange h.uncapped hcan' htree
          refine ⟨a', ?_, hdone hcan' ht' htree' ?_ (fun s hs => hs) hin (.refl a) hsame'⟩
          · show (a.tryInsertRange start (start + size) (some before.length)).bind _ = _
            rw [hins]
            rfl
          · rw [covered_append, covered_cons, covered_append]
            ac_rfl

end Adding

/-! ## Removing a range -/

section Removing

variable {a : AvlAllocator} {free : Set Nat} {start size stop : Nat}
  {before after : List RangeSeg} {rs : RangeSeg}

/-- `_process_range_removal` of a part of the node `rs`. -/
theorem processRangeRemoval_spec (h : Tracks a (before ++ rs :: after))
    (hcan : Canonical (before ++ rs :: after)) (hcap : a.rangeCountCap = 0)
    (hs : rs.start ≤ start) (hse : start < stop) (he : stop ≤ rs.stop) :
    ∃ a', a.processRangeRemoval start stop before rs after = .ok a' ∧
      Tracks a' (before ++ (leftovers rs start stop ++ after)) ∧
      a'.rangeTree = before ++ (leftovers rs start stop ++ after) ∧ SameConfig a a' := by
  obtain ⟨a₁, hrm, ht₁, -, hsame₁⟩ := (h.perm List.perm_middle).rangeSizeTreeRm
  have hcap₁ : a₁.rangeCountCap = 0 := hsame₁.rangeCountCap.trans hcap
  have hcarve := hcan.carve hs hse he
  unfold processRangeRemoval
  rw [hrm]
  dsimp only [bind, Except.bind]
  unfold leftovers at hcarve ⊢
  by_cases hl : rs.start = start
  · rw [if_pos hl, List.nil_append] at hcarve ⊢
    rw [if_neg (fun hn => hn.1 hl), if_neg (fun hn => hn hl)]
    by_cases hr : rs.stop = stop
    · rw [if_pos hr]
      rw [if_neg (fun hn => hn hr)]
      exact ⟨_, rfl, ht₁.withRangeTree _, rfl, hsame₁.trans ⟨rfl, rfl, rfl⟩⟩
    · rw [if_neg hr] at hcarve ⊢
      rw [if_pos hr]
      obtain ⟨a', hins, ht', htree', hsame'⟩ := ht₁.reinsert hcap₁ hcarve
      exact ⟨a', hins, ht', htree', hsame₁.trans hsame'⟩
  · rw [if_neg hl] at hcarve ⊢
    by_cases hr : rs.stop = stop
    · rw [if_pos hr] at hcarve ⊢
      rw [if_neg (fun hn => hn.2 hr), if_pos hl]
      obtain ⟨a', hins, ht', htree', hsame'⟩ := ht₁.reinsert hcap₁ hcarve
      exact ⟨a', hins, ht', htree', hsame₁.trans hsame'⟩
    · rw [if_neg hr] at hcarve ⊢
      rw [if_pos ⟨hl, hr⟩]
      -- the right part goes in as a new node, then the shortened node goes back
      have hright : Canonical (before ++ ⟨stop, rs.stop⟩ :: after) := by
        obtain ⟨hrest, hnode, hb, ha⟩ := hcan.split
        refine hrest.insert (lt_of_le_of_ne he (Ne.symm hr)) (fun p hp => ?_) ha
        have := hb p hp
        omega
      obtain ⟨a₂, hins₂, ht₂, htree₂, hsame₂⟩ :=
        (ht₁.withRangeTree (before ++ ⟨rs.start, start⟩ :: after)).tryInsertRange hcap₁ hright
          (List.append_cons before ⟨rs.start, start⟩ after)
      have hlen : (before ++ [(⟨rs.start, start⟩ : RangeSeg)]).length = before.length + 1 := by
        simp
      rw [hlen] at hins₂
      rw [hins₂]
      obtain ⟨a', hins, ht', htree', hsame'⟩ :=
        ht₂.tryInsert (hsame₂.rangeCountCap.trans hcap₁) hcarve (htree₂.trans (by simp))
      exact ⟨a', hins, ht', htree', (hsame₁.trans (.ofTree hsame₂)).trans hsame'⟩

theorem length_le_numFree (h : Holds a free) {r : RangeSeg} (hr : r ∈ a.rangeTree) :
    rangeLength r ≤ a.numFree := by
  rw [h.tracks.numFree]
  exact List.le_sum_of_mem (List.mem_map_of_mem hr)

/-- `_remove_from_tree` of a range of free bytes. -/
theorem removeFromTree_spec (h : Holds a free) (hsize : 0 < size)
    (hin : start + size ≤ a.deviceSize) (hfree : Set.Ico start (start + size) ⊆ free) :
    ∃ a', a.removeFromTree start size = .ok (true, a') ∧
      Holds a' (free \ Set.Ico start (start + size)) ∧ SameConfig a a' := by
  have hdev := h.device
  have hstop : add64 start size = start + size := add64_of_lt (by omega)
  have hcan := h.canonical
  have hmem : start ∈ covered a.rangeTree := by
    rw [h.covers]
    exact hfree ⟨le_rfl, by omega⟩
  obtain ⟨rs, after, hdrop, hle, hlt⟩ := hcan.bound_of_mem hmem
  have htree := (List.takeWhile_append_dropWhile
    (p := fun q : RangeSeg => decide (q.stop ≤ start)) (l := a.rangeTree)).symm
  have htracks := h.tracks
  have hcovers := h.covers
  have hinside := h.inside
  have hnum := fun hr => length_le_numFree h (r := rs) hr
  unfold removeFromTree
  rw [if_neg (by omega), hstop]
  dsimp only
  rw [hdrop] at htree ⊢
  generalize a.rangeTree.takeWhile (fun q => decide (q.stop ≤ start)) = before at *
  rw [htree] at hcan htracks hcovers hinside hnum
  have hend : start + size ≤ rs.stop := hcan.run_le_stop hlt (hcovers ▸ hfree)
  have hlen : rangeLength rs ≤ a.numFree := hnum (by simp)
  dsimp only [rangeLength] at hlen
  obtain ⟨a', hproc, ht', htree', hsame⟩ :=
    processRangeRemoval_spec htracks hcan h.uncapped hle (by omega) hend
  show ∃ a', (if start + size ≤ rs.start ∨ rs.start > start ∨ rs.stop < start + size then _
    else _) = _ ∧ _
  rw [if_neg (by omega), if_neg (by omega), hproc]
  refine ⟨a', rfl, ⟨?_, htree' ▸ ht', ?_, ?_, hsame.rangeCountCap.trans h.uncapped,
    hsame.deviceSize ▸ hdev⟩, hsame⟩
  · rw [htree']
    exact hcan.carve hle (by omega) hend
  · rw [htree', covered_carve hcan hle (by omega) hend, hcovers]
  · intro r hr
    rw [htree'] at hr
    rw [hsame.deviceSize]
    rcases List.mem_append.mp hr with hr | hr
    · exact hinside r (by simp [hr])
    rcases List.mem_append.mp hr with hr | hr
    · have := (mem_leftovers_bounds hle (by omega) hend hr).2.1
      have := hinside rs (by simp)
      omega
    · exact hinside r (by simp [hr])

end Removing

end AvlAllocator

end Clab.Blk
