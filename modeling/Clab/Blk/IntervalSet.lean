import Clab.Lib.OrderedMap
import Clab.Lib.RangeSet
import Clab.Blk.Allocator

/-!
# `interval_set` as a set of numbers

`erase`, and what `insert` and `erase` do to the numbers an interval set stands
for. Both keep the map canonical. `erase` takes exactly the range away; `insert`
adds it unless an interval reaches past the range on both sides, whose end it cuts.
-/

namespace Clab.Blk

open RangeSet

/-- `m_[key] = len`. -/
def IntervalSet.assign (s : IntervalSet) (key len : Nat) : IntervalSet :=
  s.takeWhile (fun p => p.1 < key) ++ (key, len) :: s.dropWhile fun p => p.1 ≤ key

/-- `m_[key] = len` in a map that an iterator splits in two. -/
def assignAround (before rest : IntervalSet) (key len : Nat) : IntervalSet × IntervalSet :=
  match rest with
  | [] => (before.assign key len, [])
  | p :: _ =>
      if key < p.1 then (before.assign key len, rest) else (before, rest.assign key len)

/-- The loop of `erase` from its iterator on; it ends after one turn for each interval. -/
def eraseFollowing (stop : Nat) : Nat → IntervalSet → IntervalSet
  | turns + 1, p :: rest =>
      if p.1 < stop then
        let rest := if stop < p.1 + p.2 then
            IntervalSet.assign rest stop (p.1 + p.2 - stop)
          else rest
        eraseFollowing stop turns rest
      else p :: rest
  | _, s => s

/-- `interval_set::erase`. -/
def IntervalSet.erase (s : IntervalSet) (off len : Nat) : IntervalSet :=
  if len = 0 then s
  else
    let before := s.takeWhile fun p => p.1 < off
    let rest := s.dropWhile fun p => p.1 < off
    let (before, rest) := match before.getLast? with
      | some prev =>
          if off < prev.1 + prev.2 ∧ prev.1 < off then
            let trimmed := before.dropLast ++ [(prev.1, off - prev.1)]
            if off + len < prev.1 + prev.2 then
              assignAround trimmed rest (off + len) (prev.1 + prev.2 - (off + len))
            else (trimmed, rest)
          else (before, rest)
      | none => (before, rest)
    before ++ eraseFollowing (off + len) rest.length rest

namespace IntervalSet

/-- The intervals as segments. -/
def segments (s : IntervalSet) : List (Segment Nat) := s.map fun p => ⟨p.1, p.1 + p.2⟩

/-- The numbers an interval set stands for. -/
def points (s : IntervalSet) : Set Nat := covered s.segments

@[simp] theorem segments_cons (p : Nat × Nat) (s : IntervalSet) :
    segments (p :: s) = ⟨p.1, p.1 + p.2⟩ :: segments s := rfl

@[simp] theorem segments_append (s t : IntervalSet) :
    segments (s ++ t) = segments s ++ segments t := List.map_append

theorem mem_points {s : IntervalSet} {x : Nat} :
    x ∈ s.points ↔ ∃ p ∈ s, p.1 ≤ x ∧ x < p.1 + p.2 := by
  simp [points, segments]

theorem points_cons (p : Nat × Nat) (s : IntervalSet) :
    points (p :: s) = Set.Ico p.1 (p.1 + p.2) ∪ s.points := covered_cons _ _

theorem points_append (s t : IntervalSet) : points (s ++ t) = s.points ∪ t.points := by
  rw [points, segments_append, covered_append]
  rfl

theorem canonical_cons {p : Nat × Nat} {s : IntervalSet} : Canonical (segments (p :: s)) ↔
    0 < p.2 ∧ Canonical s.segments ∧ ∀ q ∈ s, p.1 + p.2 < q.1 := by
  rw [segments_cons, Canonical.cons_iff]
  simp only [segments, List.forall_mem_map, Nat.lt_add_right_iff_pos]

theorem canonical_append {s t : IntervalSet} : Canonical (segments (s ++ t)) ↔
    Canonical s.segments ∧ Canonical t.segments ∧ ∀ p ∈ s, ∀ q ∈ t, p.1 + p.2 < q.1 := by
  rw [segments_append, Canonical.append_iff]
  simp only [segments, List.forall_mem_map]

/-- The parts of the map before and from `lower_bound(off)`. -/
theorem lower_bound_split {s : IntervalSet} (h : Canonical s.segments) (off : Nat) :
    ∃ before rest : IntervalSet, s.takeWhile (fun p => p.1 < off) = before ∧
      s.dropWhile (fun p => p.1 < off) = rest ∧ s = before ++ rest ∧
      (∀ p ∈ before, p.1 < off) ∧ ∀ p ∈ rest, off ≤ p.1 := by
  refine ⟨_, _, rfl, rfl, List.takeWhile_append_dropWhile.symm, ?_, ?_⟩
  · intro p hp
    simpa using List.mem_takeWhile_imp hp
  · have hsorted : s.Pairwise fun a b => decide (b.1 < off) → decide (a.1 < off) := by
      have hapart := List.pairwise_map.mp h.apart
      refine hapart.imp fun {a b} hab hb => ?_
      have hb' : b.1 < off := of_decide_eq_true hb
      have hab' : a.1 + a.2 < b.1 := hab
      exact decide_eq_true (by omega)
    intro p hp
    rw [(OrderedMap.dropWhile_eq_filter hsorted).2] at hp
    simpa using (List.mem_filter.mp hp).2

/-! ## `insert` -/

/-- The loop of `insert` grows the range by the intervals it absorbs. -/
theorem mergeFollowing_spec {off len : Nat} {rest : IntervalSet} (h : Canonical rest.segments)
    (hlow : ∀ p ∈ rest, off ≤ p.1) :
    len ≤ (mergeFollowing off len rest).1 ∧ (mergeFollowing off len rest).2.Sublist rest ∧
      Canonical (segments (mergeFollowing off len rest).2) ∧
      (∀ q ∈ (mergeFollowing off len rest).2, off + (mergeFollowing off len rest).1 < q.1) ∧
      Set.Ico off (off + (mergeFollowing off len rest).1) ∪ points (mergeFollowing off len rest).2 =
        Set.Ico off (off + len) ∪ rest.points := by
  induction rest generalizing len with
  | nil => exact ⟨le_rfl, .refl _, h, by simp [mergeFollowing], rfl⟩
  | cons p rest ih =>
      obtain ⟨hp, hrest, hapart⟩ := canonical_cons.mp h
      rw [mergeFollowing]
      split
      case isTrue htouch =>
        obtain ⟨hgrow, hsub, hcanon, habove, hpoints⟩ :=
          @ih (max len (p.1 + p.2 - off)) hrest fun q hq => hlow q (List.mem_cons_of_mem _ hq)
        refine ⟨(le_max_left _ _).trans hgrow, hsub.cons p, hcanon, habove, ?_⟩
        rw [hpoints, points_cons, ← Set.union_assoc]
        congr 1
        ext x
        have hoff := hlow p List.mem_cons_self
        simp only [Set.mem_Ico, Set.mem_union]
        omega
      case isFalse hgap =>
        refine ⟨le_rfl, .refl _, h, fun q hq => ?_, rfl⟩
        rcases List.mem_cons.mp hq with rfl | hq
        · omega
        · have := hapart q hq
          omega

/-- No interval reaches past the range on both sides. -/
def Inside (s : IntervalSet) (off len : Nat) : Prop :=
  ∀ p ∈ s, ¬ (p.1 < off ∧ off + len < p.1 + p.2)

theorem insert_spec {s : IntervalSet} {off len : Nat} (h : Canonical s.segments) (hlen : 0 < len)
    (hfit : s.Inside off len) :
    Canonical (s.insert off len).segments ∧
      (s.insert off len).points = s.points ∪ Set.Ico off (off + len) := by
  obtain ⟨before, rest, hbefore, hrest, hs, hlow, hhigh⟩ := lower_bound_split h off
  rw [hs] at h
  obtain ⟨hcb, hcr, hx⟩ := canonical_append.mp h
  obtain ⟨hgrow, hsub, hcanon, habove, hpoints⟩ := @mergeFollowing_spec off len rest hcr hhigh
  unfold IntervalSet.insert
  rw [if_neg (by omega), hbefore, hrest]
  generalize mergeFollowing off len rest = m at hgrow hsub hcanon habove hpoints ⊢
  obtain ⟨len', rest'⟩ := m
  dsimp only at hgrow hsub hcanon habove hpoints ⊢
  have hset : s.points ∪ Set.Ico off (off + len) =
      before.points ∪ (Set.Ico off (off + len') ∪ points rest') := by
    rw [hpoints, hs, points_append, Set.union_assoc, Set.union_comm rest.points]
  have hnew : Canonical (segments ((off, len') :: rest')) :=
    canonical_cons.mpr ⟨by dsimp only; omega, hcanon, habove⟩
  rcases List.eq_nil_or_concat before with rfl | ⟨front, prev, rfl⟩
  · refine ⟨hnew, ?_⟩
    rw [hset]
    show points ((off, len') :: rest') = _
    rw [points_cons]
    simp [points, segments]
  · rw [List.concat_eq_append] at hs hcb hx hset hlow ⊢
    obtain ⟨hcf, hcp, hxf⟩ := canonical_append.mp hcb
    obtain ⟨hprev, -, -⟩ := canonical_cons.mp hcp
    have hprevlow := hlow prev (by simp)
    have hprevfit := hfit prev (by simp [hs])
    rw [List.getLast?_concat, List.dropLast_concat]
    dsimp only
    split
    case isTrue htouch =>
      have hend : prev.1 + max len' (off + len' - prev.1) = off + len' := by omega
      constructor
      · refine canonical_append.mpr ⟨hcf, canonical_cons.mpr ⟨by dsimp only; omega, hcanon, ?_⟩, ?_⟩
        · intro q hq
          dsimp only
          rw [hend]
          exact habove q hq
        · intro p hp q hq
          rcases List.mem_cons.mp hq with rfl | hq
          · exact hxf p hp prev (by simp)
          · have := hxf p hp prev (by simp)
            have := habove q hq
            omega
      · rw [hset, points_append, points_append, points_cons, points_cons, Set.union_assoc]
        congr 1
        rw [← Set.union_assoc]
        dsimp only
        rw [hend]
        congr 1
        ext x
        simp only [Set.mem_Ico, Set.mem_union, mem_points, List.not_mem_nil, false_and,
          exists_false, or_false]
        omega
    case isFalse hgap =>
      constructor
      · refine canonical_append.mpr ⟨hcb, hnew, fun p hp q hq => ?_⟩
        have hpend : p.1 + p.2 < off := by
          rcases List.mem_append.mp hp with hp | hp
          · have := hxf p hp prev (by simp)
            omega
          · obtain rfl := List.mem_singleton.mp hp
            omega
        rcases List.mem_cons.mp hq with rfl | hq
        · exact hpend
        · have := habove q hq
          omega
      · rw [hset, points_append, points_cons]

/-- An interval that reaches past the range on both sides loses what is behind it. -/
theorem insert_cuts {s : IntervalSet} {off len : Nat} (h : Canonical s.segments) (hlen : 0 < len)
    (hfit : ¬ s.Inside off len) : off + len ∈ s.points ∧ off + len ∉ (s.insert off len).points := by
  obtain ⟨p, hp, hplow, hpend⟩ : ∃ p ∈ s, p.1 < off ∧ off + len < p.1 + p.2 := by
    simpa [Inside] using hfit
  refine ⟨mem_points.mpr ⟨p, hp, by omega, hpend⟩, ?_⟩
  obtain ⟨before, rest, hbefore, hrest, hs, hlow, hhigh⟩ := lower_bound_split h off
  obtain ⟨front, back, rfl⟩ := List.append_of_mem hp
  obtain ⟨hcf, hcp, hxf⟩ := canonical_append.mp h
  obtain ⟨hpos, hcb, hxb⟩ := canonical_cons.mp hcp
  -- the interval is the last that starts before the range
  have hfront : ∀ q ∈ front, decide (q.1 < off) = true := by
    intro q hq
    have := hxf q hq p List.mem_cons_self
    exact decide_eq_true (by omega)
  have hback : ∀ q ∈ back, ¬ q.1 < off := by
    intro q hq
    have := hxb q hq
    omega
  have htake : (front ++ p :: back).takeWhile (fun q => q.1 < off) = front ++ [p] := by
    rw [List.takeWhile_append_of_pos hfront, List.takeWhile_cons, if_pos (decide_eq_true hplow)]
    cases back with
    | nil => rfl
    | cons q back => simp [hback q List.mem_cons_self]
  have hdrop : (front ++ p :: back).dropWhile (fun q => q.1 < off) = back := by
    rw [List.dropWhile_append_of_pos hfront, List.dropWhile_cons, if_pos (decide_eq_true hplow)]
    cases back with
    | nil => rfl
    | cons q back => simp [hback q List.mem_cons_self]
  have hmerge : mergeFollowing off len back = (len, back) := by
    cases back with
    | nil => rfl
    | cons q back =>
        have := hxb q List.mem_cons_self
        rw [mergeFollowing, if_neg (by omega)]
  have hinsert : IntervalSet.insert (front ++ p :: back) off len =
      front ++ (p.1, max len (off + len - p.1)) :: back := by
    unfold IntervalSet.insert
    rw [if_neg (by omega), htake, hdrop, hmerge]
    dsimp only
    rw [List.getLast?_concat, List.dropLast_concat]
    dsimp only
    rw [if_pos (by omega)]
  rw [hinsert, mem_points]
  rintro ⟨q, hq, hle, hlt⟩
  rcases List.mem_append.mp hq with hq | hq
  · have := hxf q hq p List.mem_cons_self
    omega
  rcases List.mem_cons.mp hq with rfl | hq
  · dsimp only at hle hlt
    omega
  · have := hxb q hq
    omega

/-! ## `erase` -/

/-- A number below every key goes first. -/
theorem assign_of_lt {s : IntervalSet} {key len : Nat} (h : ∀ p ∈ s, key < p.1) :
    s.assign key len = (key, len) :: s := by
  cases s with
  | nil => rfl
  | cons p s =>
      have hp := h p List.mem_cons_self
      simp [assign, not_lt.mpr hp.le, not_le.mpr hp]

theorem assign_of_gt {s : IntervalSet} {key len : Nat} (h : ∀ p ∈ s, p.1 < key) :
    s.assign key len = s ++ [(key, len)] := by
  have htake : s.takeWhile (fun p => p.1 < key) = s :=
    List.takeWhile_eq_self_iff.mpr fun p hp => decide_eq_true (h p hp)
  have hdrop : s.dropWhile (fun p => p.1 ≤ key) = [] :=
    List.dropWhile_eq_nil_iff.mpr fun p hp => decide_eq_true (h p hp).le
  rw [assign, htake, hdrop]

theorem eraseFollowing_of_le {stop : Nat} {s : IntervalSet} (h : ∀ p ∈ s, stop ≤ p.1)
    (turns : Nat) : eraseFollowing stop turns s = s := by
  cases turns with
  | zero => rfl
  | succ turns =>
      cases s with
      | nil => rfl
      | cons p s => rw [eraseFollowing, if_neg (not_lt.mpr (h p List.mem_cons_self))]

/-- The loop of `erase` takes away what is below the end of the range. -/
theorem eraseFollowing_spec {stop turns : Nat} {rest : IntervalSet} (h : Canonical rest.segments)
    (hturns : rest.length ≤ turns) :
    Canonical (segments (eraseFollowing stop turns rest)) ∧
      (∀ q ∈ eraseFollowing stop turns rest, stop ≤ q.1) ∧
      points (eraseFollowing stop turns rest) = rest.points \ Set.Iio stop := by
  induction turns generalizing rest with
  | zero =>
      obtain rfl := List.eq_nil_of_length_eq_zero (by omega : rest.length = 0)
      exact ⟨h, by simp [eraseFollowing], by simp [eraseFollowing, points, segments]⟩
  | succ turns ih =>
      cases rest with
      | nil => exact ⟨h, by simp [eraseFollowing], by simp [eraseFollowing, points, segments]⟩
      | cons p rest =>
          obtain ⟨hp, hrest, hapart⟩ := canonical_cons.mp h
          rw [List.length_cons] at hturns
          rw [eraseFollowing]
          dsimp only
          split
          case isTrue hlow =>
            split
            case isTrue hover =>
              -- the part behind the range is put back and ends the loop
              rw [assign_of_lt fun q hq => by have := hapart q hq; omega,
                eraseFollowing_of_le]
              · refine ⟨canonical_cons.mpr ⟨by dsimp only; omega, hrest, fun q hq => ?_⟩, ?_, ?_⟩
                · have := hapart q hq
                  dsimp only
                  omega
                · intro q hq
                  rcases List.mem_cons.mp hq with rfl | hq
                  · exact le_rfl
                  · have := hapart q hq
                    omega
                · ext x
                  have hout : x ∈ points rest → p.1 + p.2 < x := by
                    rintro hx
                    obtain ⟨q, hq, hle, -⟩ := mem_points.mp hx
                    have := hapart q hq
                    omega
                  rw [points_cons, points_cons]
                  simp only [Set.mem_union, Set.mem_Ico, Set.mem_sdiff, Set.mem_Iio]
                  by_cases hx : x ∈ points rest
                  · have := hout hx
                    simp only [hx, or_true, true_and, true_iff]
                    omega
                  · simp only [hx, or_false]
                    omega
              · intro q hq
                rcases List.mem_cons.mp hq with rfl | hq
                · exact le_rfl
                · have := hapart q hq
                  omega
            case isFalse hunder =>
              obtain ⟨hcanon, habove, hpoints⟩ := ih hrest (by omega)
              refine ⟨hcanon, habove, ?_⟩
              rw [hpoints, points_cons, Set.union_sdiff_distrib]
              have hgone : Set.Ico p.1 (p.1 + p.2) \ Set.Iio stop = ∅ := by
                refine Set.eq_empty_iff_forall_notMem.mpr ?_
                rintro x ⟨⟨-, hlt⟩, hge⟩
                exact hge (Set.mem_Iio.mpr (by omega))
              rw [hgone, Set.empty_union]
          case isFalse hhigh =>
            have hall : ∀ q ∈ p :: rest, stop ≤ q.1 := by
              intro q hq
              rcases List.mem_cons.mp hq with rfl | hq
              · omega
              · have := hapart q hq
                omega
            refine ⟨h, hall, ?_⟩
            refine (sdiff_eq_left.mpr (Set.disjoint_left.mpr fun x hx hlt => ?_)).symm
            obtain ⟨q, hq, hle, -⟩ := mem_points.mp hx
            have := hall q hq
            exact absurd (Set.mem_Iio.mp hlt) (by omega)

/-- The loop of `erase` behind intervals that end before the range. -/
theorem append_eraseFollowing {left rest : IntervalSet} {off len : Nat} (hlen : 0 < len)
    (hleft : Canonical left.segments) (hends : ∀ p ∈ left, p.1 + p.2 ≤ off)
    (hrest : Canonical rest.segments) (hlow : ∀ p ∈ rest, off ≤ p.1) :
    Canonical (segments (left ++ eraseFollowing (off + len) rest.length rest)) ∧
      points (left ++ eraseFollowing (off + len) rest.length rest) =
        left.points ∪ rest.points \ Set.Ico off (off + len) := by
  obtain ⟨hcanon, habove, hpoints⟩ := @eraseFollowing_spec (off + len) _ _ hrest le_rfl
  constructor
  · refine canonical_append.mpr ⟨hleft, hcanon, fun p hp q hq => ?_⟩
    have := hends p hp
    have := habove q hq
    omega
  · rw [points_append, hpoints]
    congr 1
    ext x
    simp only [Set.mem_sdiff, Set.mem_Iio, Set.mem_Ico]
    refine and_congr_right fun hx => ?_
    obtain ⟨q, hq, hle, -⟩ := mem_points.mp hx
    have := hlow q hq
    omega

/-- Intervals that end before the range lose nothing. -/
theorem points_sdiff_of_le {left : IntervalSet} {off stop : Nat}
    (hends : ∀ p ∈ left, p.1 + p.2 ≤ off) : left.points \ Set.Ico off stop = left.points := by
  refine sdiff_eq_left.mpr (Set.disjoint_left.mpr fun x hx hin => ?_)
  obtain ⟨p, hp, -, hlt⟩ := mem_points.mp hx
  have := hends p hp
  exact absurd hin.1 (by omega)

theorem points_sdiff_of_ge {right : IntervalSet} {off stop : Nat}
    (hstarts : ∀ p ∈ right, stop ≤ p.1) : right.points \ Set.Ico off stop = right.points := by
  refine sdiff_eq_left.mpr (Set.disjoint_left.mpr fun x hx hin => ?_)
  obtain ⟨p, hp, hle, -⟩ := mem_points.mp hx
  have := hstarts p hp
  exact absurd hin.2 (by omega)

theorem points_singleton (p : Nat × Nat) : points [p] = Set.Ico p.1 (p.1 + p.2) := by
  rw [points_cons]
  simp [points, segments]

theorem erase_spec {s : IntervalSet} {off len : Nat} (h : Canonical s.segments) (hlen : 0 < len) :
    Canonical (s.erase off len).segments ∧
      (s.erase off len).points = s.points \ Set.Ico off (off + len) := by
  obtain ⟨before, rest, hbefore, hrest, hs, hlow, hhigh⟩ := lower_bound_split h off
  rw [hs] at h
  obtain ⟨hcb, hcr, hx⟩ := canonical_append.mp h
  have hset : s.points \ Set.Ico off (off + len) =
      before.points \ Set.Ico off (off + len) ∪ rest.points \ Set.Ico off (off + len) := by
    rw [hs, points_append, Set.union_sdiff_distrib]
  unfold erase
  rw [if_neg (by omega), hbefore, hrest, hset]
  clear hbefore hrest hs hset
  dsimp only
  rcases List.eq_nil_or_concat before with rfl | ⟨front, prev, rfl⟩
  · have hjoin := @append_eraseFollowing [] rest off len hlen hcb (by simp) hcr hhigh
    simpa [points, segments] using hjoin
  rw [List.concat_eq_append] at hcb hx hlow ⊢
  obtain ⟨hcf, hcp, hxf⟩ := canonical_append.mp hcb
  obtain ⟨hprev, -, -⟩ := canonical_cons.mp hcp
  have hprevlow : prev.1 < off := hlow prev (by simp)
  have hfront : ∀ p ∈ front, p.1 + p.2 ≤ off := by
    intro p hp
    have := hxf p hp prev (by simp)
    omega
  rw [List.getLast?_concat, List.dropLast_concat]
  dsimp only
  split
  case isFalse hbelow =>
    have hends : ∀ p ∈ front ++ [prev], p.1 + p.2 ≤ off := by
      intro p hp
      rcases List.mem_append.mp hp with hp | hp
      · exact hfront p hp
      · obtain rfl := List.mem_singleton.mp hp
        omega
    obtain ⟨hcanon, hpoints⟩ := append_eraseFollowing hlen hcb hends hcr hhigh
    exact ⟨hcanon, by rw [hpoints, points_sdiff_of_le hends]⟩
  case isTrue haround =>
    have htrim : Canonical (segments (front ++ [(prev.1, off - prev.1)])) := by
      refine canonical_append.mpr ⟨hcf, canonical_cons.mpr ⟨by dsimp only; omega, .nil, by simp⟩, ?_⟩
      intro p hp q hq
      obtain rfl := List.mem_singleton.mp hq
      exact hxf p hp prev (by simp)
    have hends : ∀ p ∈ front ++ [(prev.1, off - prev.1)], p.1 + p.2 ≤ off := by
      intro p hp
      rcases List.mem_append.mp hp with hp | hp
      · exact hfront p hp
      · obtain rfl := List.mem_singleton.mp hp
        dsimp only
        omega
    split
    case isTrue hover =>
      -- the part behind the range goes between the two halves of the map
      have hbehind : ∀ p ∈ rest, prev.1 + prev.2 < p.1 := hx prev (by simp)
      have hassign : assignAround (front ++ [(prev.1, off - prev.1)]) rest (off + len)
          (prev.1 + prev.2 - (off + len)) =
          (front ++ [(prev.1, off - prev.1)] ++
            [(off + len, prev.1 + prev.2 - (off + len))], rest) := by
        have hkeys : ∀ p ∈ front ++ [(prev.1, off - prev.1)], p.1 < off + len := by
          intro p hp
          have := hends p hp
          omega
        cases rest with
        | nil => rw [assignAround, assign_of_gt hkeys]
        | cons q rest =>
            have := hbehind q List.mem_cons_self
            rw [assignAround, if_pos (by omega), assign_of_gt hkeys]
      rw [hassign]
      dsimp only
      rw [eraseFollowing_of_le fun p hp => by have := hbehind p hp; omega]
      constructor
      · refine canonical_append.mpr ⟨canonical_append.mpr ⟨htrim,
          canonical_cons.mpr ⟨by dsimp only; omega, .nil, by simp⟩, ?_⟩, hcr, ?_⟩
        · intro p hp q hq
          obtain rfl := List.mem_singleton.mp hq
          have := hends p hp
          dsimp only
          omega
        · intro p hp q hq
          have hq' := hbehind q hq
          rcases List.mem_append.mp hp with hp | hp
          · have := hends p hp
            omega
          · obtain rfl := List.mem_singleton.mp hp
            dsimp only
            omega
      · rw [points_append, points_append, points_append, points_append, points_singleton,
          points_singleton, points_singleton, Set.union_sdiff_distrib, points_sdiff_of_le hfront,
          points_sdiff_of_ge fun p hp => by have := hbehind p hp; omega]
        congr 1
        rw [Set.union_assoc]
        congr 1
        ext x
        simp only [Set.mem_union, Set.mem_Ico, Set.mem_sdiff]
        omega
    case isFalse hunder =>
      obtain ⟨hcanon, hpoints⟩ := append_eraseFollowing hlen htrim hends hcr hhigh
      refine ⟨hcanon, ?_⟩
      dsimp only
      rw [hpoints, points_append, points_append, points_singleton, points_singleton,
        Set.union_sdiff_distrib, points_sdiff_of_le hfront]
      congr 2
      ext x
      simp only [Set.mem_Ico, Set.mem_sdiff]
      omega

/-! ## Runs -/

/-- A call on an interval set. -/
inductive Call
  | insert (off len : Nat)
  | erase (off len : Nat)
  deriving DecidableEq

/-- The map after a call. -/
def call (s : IntervalSet) : Call → IntervalSet
  | .insert off len => s.insert off len
  | .erase off len => s.erase off len

/-- What a call is to do to the set. -/
def Call.apply (points : Set Nat) : Call → Set Nat
  | insert off len => points ∪ Set.Ico off (off + len)
  | erase off len => points \ Set.Ico off (off + len)

/-- The map after some calls on an empty one. -/
def run (calls : List Call) : IntervalSet := calls.foldl call []

/-- The set some calls are to build. -/
def built (calls : List Call) : Set Nat := calls.foldl Call.apply ∅

/-- After each call of a run the map is canonical and stands for the set the calls build. -/
def IsSet (calls : List Call) : Prop :=
  ∀ n ≤ calls.length, Canonical (run (calls.take n)).segments ∧
    (run (calls.take n)).points = built (calls.take n)

/-- No interval of the map reaches past an inserted range on both sides. -/
def Call.Inside (s : IntervalSet) : Call → Prop
  | insert off len => 0 < len → s.Inside off len
  | erase _ _ => True

theorem call_spec {s : IntervalSet} (h : Canonical s.segments) (c : Call) (hin : c.Inside s) :
    Canonical (s.call c).segments ∧ (s.call c).points = c.apply s.points := by
  cases c with
  | insert off len =>
      rcases Nat.eq_zero_or_pos len with rfl | hlen
      · exact ⟨h, by simp [call, IntervalSet.insert, Call.apply]⟩
      · exact insert_spec h hlen (hin hlen)
  | erase off len =>
      rcases Nat.eq_zero_or_pos len with rfl | hlen
      · exact ⟨h, by simp [call, erase, Call.apply]⟩
      · exact erase_spec h hlen

theorem call_not_spec {s : IntervalSet} (h : Canonical s.segments) {c : Call}
    (hin : ¬ c.Inside s) : (s.call c).points ≠ c.apply s.points := by
  cases c with
  | insert off len =>
      obtain ⟨hlen, hover⟩ := Classical.not_imp.mp hin
      obtain ⟨hbefore, hafter⟩ := insert_cuts h hlen hover
      intro heq
      exact hafter (heq ▸ Or.inl hbefore)
  | erase off len => exact absurd trivial hin

/-- An interval set is the set its calls build, in every state of a run, exactly when no
inserted range lies within an interval that goes on at both of its ends. -/
theorem isSet_iff (calls : List Call) :
    IsSet calls ↔ ∀ n (c : Call), calls[n]? = some c → c.Inside (run (calls.take n)) := by
  have htake : ∀ {n : Nat} {c : Call}, calls[n]? = some c →
      run (calls.take (n + 1)) = (run (calls.take n)).call c ∧
        built (calls.take (n + 1)) = c.apply (built (calls.take n)) := by
    intro n c hc
    rw [List.take_add_one, hc]
    simp [run, built]
  constructor
  · intro h n c hc
    have hn : n < calls.length := (List.getElem?_eq_some_iff.mp hc).1
    by_contra hin
    obtain ⟨hcanon, hpoints⟩ := h n hn.le
    have hnext := (h (n + 1) hn).2
    rw [(htake hc).1, (htake hc).2, ← hpoints] at hnext
    exact call_not_spec hcanon hin hnext
  · intro h n hn
    induction n with
    | zero => exact ⟨.nil, by simp [run, built, points, segments]⟩
    | succ n ih =>
        obtain ⟨hcanon, hpoints⟩ := ih (by omega)
        have hc : calls[n]? = some calls[n] := List.getElem?_eq_getElem (by omega)
        obtain ⟨hcanon', hpoints'⟩ := call_spec hcanon calls[n] (h n _ hc)
        rw [(htake hc).1, (htake hc).2, ← hpoints]
        exact ⟨hcanon', hpoints'⟩

/-- A range inserted into a longer interval cuts off the end of it. -/
theorem not_isSet_inner : ¬ IsSet [.insert 0 100, .insert 10 5] := by
  intro h
  obtain ⟨-, hpoints⟩ := h 2 le_rfl
  have hin : 50 ∈ built [.insert 0 100, .insert 10 5] := by
    simp [built, Call.apply]
  have hrun : run [.insert 0 100, .insert 10 5] = [(0, 15)] := by decide
  have hout : 50 ∈ points [(0, 15)] := by
    rw [← hrun]
    exact hpoints ▸ hin
  rw [points_singleton] at hout
  exact absurd hout.2 (by decide)

end IntervalSet

end Clab.Blk
