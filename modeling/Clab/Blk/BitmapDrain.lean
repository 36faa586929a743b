import Clab.Blk.BitmapBounds

/-!
# What allocation can reach

`init_rm_free` clears the L2 bits of all regions that it touches, also over
units that stay free; they are out of reach until something in their region is
freed. All other free units are reached: a call returns what is wanted, or all
that is there.
-/

namespace Clab.Blk

open Clab.Common Clab.WordBits Clab.Outcome

namespace AllocatorLevel02

open AllocatorLevel01Loose

/-! ## Counting along the scan -/

/-- Entry `e` reads FREE although one of its units is taken. -/
def Stale (l : AllocatorLevel01Loose) (e : Nat) : Prop :=
  l.entry e = L1_ENTRY_FREE ∧ ∃ q, q / 512 = e ∧ l.bit q = false

/-- The units that a call has passed when it comes to unit `x`. -/
def before (a : AllocatorLevel02) (hint : Int) (x : Nat) : Finset Nat :=
  if a.startPos hint * 131072 ≤ x then a.scanned (a.startPos hint * 131072) x
  else a.scanned (a.startPos hint * 131072) (a.l2.size * 64 * 131072) ∪ a.scanned 0 x

/-- No stale entry is taken as a whole: less than an entry is missing when the
call comes to one. -/
def Fresh (a : AllocatorLevel02) (want : Nat) (hint : Int) : Prop :=
  ∀ e, WordBits.bit a.l2.slot (e / 256) = true → Stale a.l1 e →
    want < (a.l1.freeIn (a.before hint (e * 512)) + 512) * a.l1.l0Granularity

/-- In a round over `[lo, hi)` that began with `c` units granted, the grant at
unit `x` is what was free so far. -/
def Counting (a : AllocatorLevel02) (c lo hi x : Nat) (g : Grant) : Prop :=
  lo ≤ x ∧ (x ≤ hi → g.allocated = (c + a.l1.freeIn (a.scanned lo x)) * a.l1.l0Granularity)

section Counting

variable {a : AllocatorLevel02} {want maxLength c lo hi : Nat} {hint : Int}

theorem freeIn_scanned (a : AllocatorLevel02) (lo x : Nat) :
    a.l1.freeIn (a.scanned lo x) =
      ((Finset.Ico lo x).filter fun q => a.visible q = true).card := by
  unfold freeIn scanned visible
  rw [Finset.filter_filter]
  congr 1
  refine Finset.filter_congr fun q _ => ?_
  rw [Bool.and_eq_true]

theorem freeIn_scanned_add {x y : Nat} (hlo : lo ≤ x) (hxy : x ≤ y) :
    a.l1.freeIn (a.scanned lo y) = a.l1.freeIn (a.scanned lo x) +
      ((Finset.Ico x y).filter fun q => a.visible q = true).card := by
  rw [freeIn_scanned, freeIn_scanned, card_filter_split a.visible hlo hxy]

theorem seen_free {e : Nat} (h : a.seen e = L1_ENTRY_FREE) :
    WordBits.bit a.l2.slot (e / 256) = true ∧ a.l1.entry e = L1_ENTRY_FREE := by
  unfold seen at h
  split at h
  · rename_i hset
    exact ⟨hset, h⟩
  · cases h

/-- With no stale entry taken as a whole the grant counts the free units. -/
theorem follows_counting (hu : 0 < a.l1.l0Granularity)
    (hfresh : ∀ e, lo ≤ e * 512 → e * 512 < hi → WordBits.bit a.l2.slot (e / 256) = true →
      Stale a.l1 e →
      want < (c + a.l1.freeIn (a.scanned lo (e * 512)) + 512) * a.l1.l0Granularity) :
    Follows a.visible a.seen a.l1.l0Granularity want maxLength (a.Counting c lo hi) := by
  constructor
  · rintro x y g ⟨hlo, hcount⟩ hxy hclear
    refine ⟨hlo.trans hxy, fun hy => ?_⟩
    rw [hcount (hxy.trans hy), freeIn_scanned_add hlo hxy, card_filter_none hclear, Nat.add_zero]
  · rintro x n g g' ⟨hlo, hcount⟩ hrun hrem hemp
    refine ⟨by omega, fun hy => ?_⟩
    have hx := hcount (by omega)
    have hall : ∀ q, x ≤ q → q < x + n → a.visible q = true := by
      rcases hrun with hall | ⟨rfl, hmod, hfree⟩
      · exact hall
      · obtain ⟨hset, hentry⟩ := seen_free hfree
        intro q hq hlt
        have hq' : q / 512 = x / 512 := by omega
        unfold visible
        rw [show q / 131072 = x / 512 / 256 by omega, hset, Bool.true_and]
        by_contra hne
        have hwant := hfresh (x / 512) (by omega) (by omega) hset
          ⟨hentry, q, hq', by simpa using hne⟩
        rw [show x / 512 * 512 = x by omega, Nat.add_mul, ← hx] at hwant
        omega
    have hadd := @freeIn_scanned_add a lo x (x + n) hlo (by omega)
    rw [card_filter_all hall] at hadd
    rw [(fragmentAndEmplace_spec hemp).1, hx, hadd, ← Nat.add_mul]
    congr 1
    omega

/-- The two rounds of a call. -/
theorem Fresh.first (h : Fresh a want hint) (hu : 0 < a.l1.l0Granularity) :
    Follows a.visible a.seen a.l1.l0Granularity want maxLength
      (a.Counting 0 (a.startPos hint * 131072) (a.l2.size * 64 * 131072)) := by
  refine follows_counting hu fun e hlo _ hset hstale => ?_
  have hwant := h e hset hstale
  unfold before at hwant
  rwa [if_pos hlo, ← Nat.zero_add (a.l1.freeIn _)] at hwant

/-- No unit is passed twice. -/
theorem freeIn_rounds {x : Nat} (hx : x ≤ a.startPos hint * 131072) :
    a.l1.freeIn (a.scanned (a.startPos hint * 131072) (a.l2.size * 64 * 131072) ∪ a.scanned 0 x) =
      a.l1.freeIn (a.scanned (a.startPos hint * 131072) (a.l2.size * 64 * 131072)) +
        a.l1.freeIn (a.scanned 0 x) := by
  unfold freeIn
  rw [Finset.filter_union, Finset.card_union_of_disjoint]
  refine Finset.disjoint_filter_filter (Finset.disjoint_left.mpr fun q hq hin => ?_)
  have hlo := (mem_scanned.mp hq).1.1
  have hhi := (mem_scanned.mp hin).1.2
  omega

theorem Fresh.second (h : Fresh a want hint) (hu : 0 < a.l1.l0Granularity) :
    Follows a.visible a.seen a.l1.l0Granularity want maxLength
      (a.Counting
        (a.l1.freeIn (a.scanned (a.startPos hint * 131072) (a.l2.size * 64 * 131072))) 0
        (a.startPos hint * 131072)) := by
  refine follows_counting hu fun e _ hlt hset hstale => ?_
  have hwant := h e hset hstale
  unfold before at hwant
  rwa [if_neg (by omega), freeIn_rounds hlt.le] at hwant

theorem Counting.start (a : AllocatorLevel02) (lo hi : Nat) (res : List PExtent) :
    a.Counting 0 lo hi lo ⟨0, res⟩ := by
  refine ⟨le_rfl, fun _ => ?_⟩
  rw [scanned_self]
  simp [freeIn]

theorem Counting.wrap {g : Grant} (h : a.Counting 0 lo hi hi g) (hi' : Nat) :
    a.Counting (a.l1.freeIn (a.scanned lo hi)) 0 hi' 0 g := by
  refine ⟨le_rfl, fun _ => ?_⟩
  have hcount := h.2 le_rfl
  rw [Nat.zero_add] at hcount
  rw [scanned_self, hcount]
  simp [freeIn]

end Counting

end AllocatorLevel02

namespace BitmapAllocator

open AllocatorLevel01Loose AllocatorLevel02

/-! ## Runs that hide nothing unknown -/

/-- The first whole unit from `offset` on. -/
def firstUnit (geo : Geometry) (offset : Nat) : Nat := (offset + geo.unit - 1) / geo.unit

/-- The end of the whole units before `offset + length`. -/
def endUnit (geo : Geometry) (offset length : Nat) : Nat := (offset + length) / geo.unit

/-- The L2 positions over the units `[s, e)`. -/
def regions (s e : Nat) : Finset Nat := (Finset.Ico s e).image (· / 131072)

/-- The regions of what is released. -/
def releasedRegions (geo : Geometry) (releaseSet : List (Nat × Nat)) : Finset Nat :=
  releaseSet.foldr (fun p R => regions (p.1 / geo.unit) ((p.1 + p.2) / geo.unit) ∪ R) ∅

/-- The regions whose L2 bit is clear over free units: what `init_rm_free` touched
and nothing was freed into since. -/
def Call.hides (geo : Geometry) (H : Finset Nat) : Call → Finset Nat
  | .initAddFree offset length => H \ regions (firstUnit geo offset) (endUnit geo offset length)
  | .initRmFree offset length => H ∪ regions (firstUnit geo offset) (endUnit geo offset length)
  | .release releaseSet => H \ releasedRegions geo releaseSet
  | .allocate .. => H

/-- What is freed was taken and what is removed was free; an `allocate` call is
contained and takes no stale entry. -/
def SoundCall (geo : Geometry) (a : BitmapAllocator) : Call → Prop
  | .initAddFree offset length => length = 0 ∨
      firstUnit geo offset ≤ endUnit geo offset length ∧
        ∀ q, firstUnit geo offset ≤ q → q < endUnit geo offset length → a.l1.bit q = false
  | .initRmFree offset length => length = 0 ∨
      firstUnit geo offset ≤ endUnit geo offset length ∧
        ∀ q, firstUnit geo offset ≤ q → q < endUnit geo offset length → a.l1.bit q = true
  | .release releaseSet =>
      releaseSet.Pairwise (fun p p' => p.1 + p.2 ≤ p'.1 ∨ p'.1 + p'.2 ≤ p.1) ∧
        ∀ p ∈ releaseSet, 0 < p.2 ∧
          ∀ q, p.1 / geo.unit ≤ q → q < (p.1 + p.2) / geo.unit → a.l1.bit q = false
  | .allocate want _ _ hint _ =>
      Contained a.toAllocatorLevel02 want hint ∧ Fresh a.toAllocatorLevel02 want hint

/-- The states of a run of sound calls, with the regions that are hidden. -/
inductive SoundRun (geo : Geometry) : BitmapAllocator → Finset Nat → Prop
  | create {a : BitmapAllocator} : create geo.capacity geo.unit = .ok a → SoundRun geo a ∅
  | step {a a' : BitmapAllocator} {H : Finset Nat} {c : Call} : SoundRun geo a H →
      c.InDevice geo → SoundCall geo a c → c.Steps a a' → SoundRun geo a' (c.hides geo H)

/-! ## What the levels say of the free units -/

/-- A free unit is below a clear L2 bit exactly when its region is hidden. -/
structure Shown (geo : Geometry) (H : Finset Nat) (a : AllocatorLevel02) : Prop where
  fit : Fit geo a
  shown : ∀ q, a.l1.bit q = true → (WordBits.bit a.l2.slot (q / 131072) = true ↔ q / 131072 ∉ H)

/-- And `available` counts the free units. -/
structure Accounted (geo : Geometry) (H : Finset Nat) (a : AllocatorLevel02) : Prop
    extends Shown geo H a where
  available : a.available = geo.unit * (freeUnits geo a.l1.l0.slot).card

/-- The free bytes outside the hidden regions. -/
def shownFree (geo : Geometry) (H : Finset Nat) (a : AllocatorLevel02) : Nat :=
  geo.unit * ((freeUnits geo a.l1.l0.slot).filter fun q => q / 131072 ∉ H).card

section Units

variable {geo : Geometry} {H : Finset Nat} {a a' : AllocatorLevel02} {s e : Nat}

theorem mem_freeUnits {q : Nat} (h : Fit geo a) :
    q ∈ freeUnits geo a.l1.l0.slot ↔ a.l1.bit q = true := by
  unfold freeUnits
  rw [Finset.mem_filter, Finset.mem_range]
  refine ⟨fun hq => hq.2, fun hq => ⟨?_, hq⟩⟩
  have hin := (h.inv.inside q hq).trans geo.capacity_le
  exact Nat.le_of_mul_le_mul_right hin geo.unit_pos

theorem freeUnits_bytes (h : Fit geo a) :
    geo.unit * (freeUnits geo a.l1.l0.slot).card ≤ geo.capacity := by
  have hsub : freeUnits geo a.l1.l0.slot ⊆ Finset.range (geo.capacity / geo.unit) := by
    intro q hq
    have hin := h.inv.inside q ((mem_freeUnits h).mp hq)
    rw [Finset.mem_range]
    exact (Nat.le_div_iff_mul_le geo.unit_pos).mpr hin
  have hcard := Finset.card_le_card hsub
  rw [Finset.card_range] at hcard
  exact (Nat.mul_le_mul_left _ hcard).trans (Nat.mul_div_le _ _)

theorem Accounted.available_le (h : Accounted geo H a) : a.available ≤ geo.capacity :=
  h.available.trans_le (freeUnits_bytes h.fit)

/-- The units of a range that is freed are added to the count. -/
theorem Freed.card (h : Freed geo s e a a') (hfit : Fit geo a)
    (htaken : ∀ q, s ≤ q → q < e → a.l1.bit q = false) :
    (freeUnits geo a'.l1.l0.slot).card = (freeUnits geo a.l1.l0.slot).card + (e - s) := by
  have hunion : freeUnits geo a'.l1.l0.slot = freeUnits geo a.l1.l0.slot ∪ Finset.Ico s e := by
    ext q
    rw [Finset.mem_union, mem_freeUnits h.fit, mem_freeUnits hfit, Finset.mem_Ico, h.bit]
    by_cases hq : s ≤ q ∧ q < e
    · simp [hq]
    · simp [hq]
  rw [hunion, Finset.card_union_of_disjoint, Nat.card_Ico]
  refine Finset.disjoint_left.mpr fun q hq hin => ?_
  rw [Finset.mem_Ico] at hin
  rw [mem_freeUnits hfit, htaken q hin.1 hin.2] at hq
  cases hq

/-- The units of a range that is removed are gone from the count. -/
theorem Removed.card (h : Removed geo s e a a') (hfit : Fit geo a)
    (hfree : ∀ q, s ≤ q → q < e → a.l1.bit q = true) :
    (freeUnits geo a'.l1.l0.slot).card + (e - s) = (freeUnits geo a.l1.l0.slot).card := by
  rcases Nat.lt_or_ge s e with hlt | hge
  · have hlast := (mem_freeUnits hfit).mpr (hfree (e - 1) (by omega) (by omega))
    unfold freeUnits at hlast
    rw [Finset.mem_filter, Finset.mem_range] at hlast
    exact card_freeUnits_claimed ⟨hfree, h.bit⟩ (by omega)
  · have hsame : freeUnits geo a'.l1.l0.slot = freeUnits geo a.l1.l0.slot := by
      ext q
      rw [mem_freeUnits h.fit, mem_freeUnits hfit, h.bit, if_neg (by omega)]
    rw [hsame]
    omega

theorem mem_regions {p : Nat} (hse : s < e) :
    p ∈ regions s e ↔ s / 131072 ≤ p ∧ p < (e + 131071) / 131072 := by
  unfold regions
  rw [Finset.mem_image]
  constructor
  · rintro ⟨q, hq, rfl⟩
    rw [Finset.mem_Ico] at hq
    omega
  · rintro ⟨hle, hlt⟩
    refine ⟨max s (p * 131072), Finset.mem_Ico.mpr ⟨by omega, by omega⟩, by omega⟩

/-- Freeing shows the regions of its range. -/
theorem Shown.freed (h : Shown geo H a) (hf : Freed geo s e a a') (hse : s < e) :
    Shown geo (H \ regions s e) a' := by
  refine ⟨hf.fit, fun q hq => ?_⟩
  rw [hf.l2, Finset.mem_sdiff, mem_regions hse]
  rw [hf.bit] at hq
  by_cases hp : s / 131072 ≤ q / 131072 ∧ q / 131072 < (e + 131071) / 131072
  · simp [hp]
  · rw [if_neg (by omega)] at hq
    simp only [hp, if_false, not_false_eq_true, and_true]
    exact h.shown q hq

/-- Removing hides the regions of its range. -/
theorem Shown.removed (h : Shown geo H a) (hr : Removed geo s e a a') (hse : s < e) :
    Shown geo (H ∪ regions s e) a' := by
  refine ⟨hr.fit, fun q hq => ?_⟩
  rw [hr.l2, Finset.mem_union, mem_regions hse]
  rw [hr.bit] at hq
  by_cases hp : s / 131072 ≤ q / 131072 ∧ q / 131072 < (e + 131071) / 131072
  · simp [hp]
  · rw [if_neg (by omega)] at hq
    simp only [hp, if_false, or_false]
    exact h.shown q hq

theorem regions_empty (h : e ≤ s) : regions s e = ∅ := by
  unfold regions
  rw [Finset.Ico_eq_empty (by omega), Finset.image_empty]

end Units

/-! ## Every call keeps the account -/

section Calls

variable {geo : Geometry} {H : Finset Nat} {a a' : BitmapAllocator} {offset length : Nat}

/-- The range of an `init` call that does not wrap. -/
theorem innerRange_whole (hu : a.l1.l0Granularity = geo.unit) (hcap : offset + length ≤ geo.capacity)
    (hle : firstUnit geo offset ≤ endUnit geo offset length) :
    (a.innerRange offset length).1 / geo.unit = firstUnit geo offset ∧
      a.innerEnd offset length = endUnit geo offset length ∧
      (a.innerRange offset length).2 =
        geo.unit * (endUnit geo offset length - firstUnit geo offset) := by
  have hpos := geo.unit_pos
  have hunit := geo.unit_le
  have hcap' := geo.capacity_lt
  have hround : geo.unit * firstUnit geo offset ≤ offset + geo.unit - 1 := Nat.mul_div_le _ _
  have hend : geo.unit * endUnit geo offset length ≤ offset + length := Nat.mul_div_le _ _
  have hfirst : geo.unit * firstUnit geo offset ≤ geo.unit * endUnit geo offset length :=
    Nat.mul_le_mul_left _ hle
  have hoff : p2roundup offset geo.unit = geo.unit * firstUnit geo offset := by
    unfold p2roundup firstUnit
    rw [Nat.mul_comm geo.unit] at *
    exact Nat.mod_eq_of_lt (by unfold firstUnit at hround; omega)
  have hlen : p2align (sub64 (add64 offset length) (geo.unit * firstUnit geo offset)) geo.unit =
      geo.unit * (endUnit geo offset length - firstUnit geo offset) := by
    rw [add64_of_lt (by omega), sub64_of_le (by omega) (by omega)]
    unfold p2align endUnit
    rw [Nat.sub_mul_div, Nat.mul_comm]
  have hrange : a.innerRange offset length = (geo.unit * firstUnit geo offset,
      geo.unit * (endUnit geo offset length - firstUnit geo offset)) := by
    unfold innerRange
    dsimp only
    rw [hu, hoff, hlen]
  have hsum : geo.unit * firstUnit geo offset +
      geo.unit * (endUnit geo offset length - firstUnit geo offset) =
        geo.unit * endUnit geo offset length := by
    rw [← Nat.mul_add]
    congr 1
    omega
  refine ⟨?_, ?_, by rw [hrange]⟩
  · rw [hrange]
    exact Nat.mul_div_cancel_left _ hpos
  · unfold innerEnd
    rw [hrange, hu]
    dsimp only
    rw [add64_of_lt (by omega), hsum]
    exact Nat.mul_div_cancel_left _ hpos

theorem endUnit_le_firstUnit (geo : Geometry) (offset : Nat) :
    endUnit geo offset 0 ≤ firstUnit geo offset := by
  have hpos := geo.unit_pos
  exact Nat.div_le_div_right (by omega)

/-- A sound `init` call that does nothing has no whole unit in its range. -/
theorem endUnit_le_of_none (hu : a.l1.l0Granularity = geo.unit) (hcap : offset + length ≤ geo.capacity)
    (hle : length = 0 ∨ firstUnit geo offset ≤ endUnit geo offset length)
    (hnone : length = 0 ∨ (a.innerRange offset length).2 = 0) :
    endUnit geo offset length ≤ firstUnit geo offset := by
  by_cases hzero : length = 0
  · rw [hzero]
    exact endUnit_le_firstUnit geo offset
  · have hlen := hnone.resolve_left hzero
    rw [(innerRange_whole hu hcap (hle.resolve_left hzero)).2.2] at hlen
    have := (Nat.mul_eq_zero.mp hlen).resolve_left geo.unit_pos.ne'
    omega

theorem Accounted.initAddFree (h : Accounted geo H a.toAllocatorLevel02)
    (hcap : offset + length ≤ geo.capacity) (hsound : SoundCall geo a (.initAddFree offset length))
    (hstep : a.initAddFree offset length = .ok a') :
    Accounted geo (H \ regions (firstUnit geo offset) (endUnit geo offset length))
      a'.toAllocatorLevel02 := by
  rcases initAddFree_spec h.fit hcap hstep with ⟨rfl, hnone⟩ | ⟨hsome, l2, hfreed, heq⟩
  · have hempty := endUnit_le_of_none h.fit.unit hcap (hsound.imp_right And.left) hnone
    rw [regions_empty hempty, Finset.sdiff_empty]
    exact h
  · rw [not_or] at hsome
    obtain ⟨hle, htaken⟩ := hsound.resolve_left hsome.1
    obtain ⟨hfirst, hend, hlen⟩ := innerRange_whole h.fit.unit hcap hle
    rw [hfirst, hend] at hfreed
    rw [hlen] at hsome heq
    have hlt : firstUnit geo offset < endUnit geo offset length := by
      refine lt_of_le_of_ne hle fun hsame => hsome.2 ?_
      rw [hsame, Nat.sub_self, Nat.mul_zero]
    have hshown := h.toShown.freed hfreed hlt
    have hcard := hfreed.card h.fit htaken
    have hbytes := freeUnits_bytes hfreed.fit
    have hcap' := geo.capacity_lt
    rw [hcard, Nat.mul_add, ← h.available] at hbytes
    rw [heq]
    refine ⟨⟨hfreed.fit.withAvailable _, hshown.shown⟩, ?_⟩
    show add64 a.available _ = geo.unit * (freeUnits geo l2.l1.l0.slot).card
    rw [hcard, Nat.mul_add, ← h.available]
    exact add64_of_lt (by omega)

theorem Accounted.initRmFree (h : Accounted geo H a.toAllocatorLevel02)
    (hcap : offset + length ≤ geo.capacity) (hsound : SoundCall geo a (.initRmFree offset length))
    (hstep : a.initRmFree offset length = .ok a') :
    Accounted geo (H ∪ regions (firstUnit geo offset) (endUnit geo offset length))
      a'.toAllocatorLevel02 := by
  rcases initRmFree_spec h.fit hcap hstep with ⟨rfl, hnone⟩ | ⟨hsome, l2, hremoved, -, heq⟩
  · have hempty := endUnit_le_of_none h.fit.unit hcap (hsound.imp_right And.left) hnone
    rw [regions_empty hempty, Finset.union_empty]
    exact h
  · rw [not_or] at hsome
    obtain ⟨hle, hfree⟩ := hsound.resolve_left hsome.1
    obtain ⟨hfirst, hend, hlen⟩ := innerRange_whole h.fit.unit hcap hle
    rw [hfirst, hend] at hremoved
    rw [hlen] at hsome heq
    have hlt : firstUnit geo offset < endUnit geo offset length := by
      refine lt_of_le_of_ne hle fun hsame => hsome.2 ?_
      rw [hsame, Nat.sub_self, Nat.mul_zero]
    have hshown := h.toShown.removed hremoved hlt
    have hcard := hremoved.card h.fit hfree
    rw [heq]
    refine ⟨⟨hremoved.fit.withAvailable _, hshown.shown⟩, ?_⟩
    show a.available - _ = geo.unit * (freeUnits geo l2.l1.l0.slot).card
    rw [h.available, ← hcard, Nat.mul_add, Nat.add_sub_cancel]

/-- The loop of `_free_l2` frees its ranges one after the other. -/
theorem Shown.freeLoop {rr : List (Nat × Nat)} {a a' : AllocatorLevel02} {n : Nat}
    (h : Shown geo H a)
    (hin : ∀ p ∈ rr, p.1 % geo.unit = 0 ∧ p.2 % geo.unit = 0 ∧ p.1 + p.2 ≤ geo.capacity)
    (hapart : rr.Pairwise fun p p' => p.1 + p.2 ≤ p'.1 ∨ p'.1 + p'.2 ≤ p.1)
    (htaken : ∀ p ∈ rr, 0 < p.2 ∧
      ∀ q, p.1 / geo.unit ≤ q → q < (p.1 + p.2) / geo.unit → a.l1.bit q = false)
    (hstep : AllocatorLevel02.freeLoop rr a = .ok (n, a')) :
    Shown geo (H \ releasedRegions geo rr) a' ∧ a'.available = a.available ∧
      geo.unit * (freeUnits geo a'.l1.l0.slot).card =
        geo.unit * (freeUnits geo a.l1.l0.slot).card + n := by
  have hpos := geo.unit_pos
  have hcap := geo.capacity_lt
  induction rr generalizing H a n with
  | nil =>
      cases hstep
      have hnil : H \ releasedRegions geo [] = H := Finset.sdiff_empty
      rw [hnil]
      exact ⟨h, rfl, (Nat.add_zero _).symm⟩
  | cons p rest ih =>
      obtain ⟨a₁, n', hfreed, hrest, hn⟩ := freeLoop_cons h.fit (hin p List.mem_cons_self) hstep
      obtain ⟨hp, hp'⟩ := List.pairwise_cons.mp hapart
      obtain ⟨hlen, hhead⟩ := htaken p List.mem_cons_self
      obtain ⟨hoff, hmod, hle⟩ := hin p List.mem_cons_self
      have hdvd : geo.unit ∣ p.2 := Nat.dvd_of_mod_eq_zero hmod
      have hlt : p.1 / geo.unit < (p.1 + p.2) / geo.unit := by
        rw [Nat.add_div_of_dvd_left hdvd]
        have := Nat.div_pos (Nat.le_of_dvd hlen hdvd) hpos
        omega
      have hunits : geo.unit * ((p.1 + p.2) / geo.unit - p.1 / geo.unit) = p.2 := by
        rw [Nat.add_div_of_dvd_left hdvd, Nat.add_sub_cancel_left, Nat.mul_div_cancel' hdvd]
      have hcard := hfreed.card h.fit hhead
      have htail : ∀ r ∈ rest, 0 < r.2 ∧
          ∀ q, r.1 / geo.unit ≤ q → q < (r.1 + r.2) / geo.unit → a₁.l1.bit q = false := by
        intro r hr
        obtain ⟨hlen', hrest'⟩ := htaken r (List.mem_cons_of_mem _ hr)
        refine ⟨hlen', fun q hq hq' => ?_⟩
        rw [hfreed.bit, if_neg, hrest' q hq hq']
        rintro ⟨hge, hlt'⟩
        rcases hp r hr with hbefore | hafter
        · have := @Nat.div_le_div_right _ _ geo.unit hbefore
          omega
        · have := @Nat.div_le_div_right _ _ geo.unit hafter
          omega
      obtain ⟨hshown, havail, hbytes⟩ := ih (h.freed hfreed hlt)
        (fun r hr => hin r (List.mem_cons_of_mem _ hr)) hp' htail hrest
      have hsum := freeUnits_bytes hshown.fit
      rw [hcard, Nat.mul_add, hunits] at hbytes
      have hcons : releasedRegions geo (p :: rest) =
          regions (p.1 / geo.unit) ((p.1 + p.2) / geo.unit) ∪ releasedRegions geo rest := rfl
      rw [hcons, ← Finset.sup_eq_union, ← sdiff_sdiff_left]
      refine ⟨hshown, havail.trans hfreed.available, ?_⟩
      rw [hn, add64_of_lt (by omega), hbytes, Nat.add_assoc]

theorem Accounted.release {releaseSet : List (Nat × Nat)} (h : Accounted geo H a.toAllocatorLevel02)
    (hin : (Call.release releaseSet).InDevice geo) (hsound : SoundCall geo a (.release releaseSet))
    (hstep : a.release releaseSet = .ok a') :
    Accounted geo (H \ releasedRegions geo releaseSet) a'.toAllocatorLevel02 := by
  have hcap := geo.capacity_lt
  obtain ⟨l2, hfree, hstep⟩ := bind_eq_ok hstep
  cases hstep
  obtain ⟨⟨n, l2'⟩, hloop, hfree⟩ := bind_eq_ok hfree
  cases hfree
  obtain ⟨hshown, havail, hbytes⟩ := h.toShown.freeLoop hin hsound.1 hsound.2 hloop
  have hle := freeUnits_bytes hshown.fit
  rw [hbytes, ← h.available] at hle
  refine ⟨⟨hshown.fit.withAvailable _, hshown.shown⟩, ?_⟩
  show add64 l2'.available n = geo.unit * (freeUnits geo l2'.l1.l0.slot).card
  rw [hbytes, havail, ← h.available]
  exact add64_of_lt (by omega)

/-! ### Allocation -/

section Allocation

variable {want : Nat} {hint : Int} {D : Finset Nat} {a a' : AllocatorLevel02} {g : Grant}

theorem Fit.scan {J : Nat → Grant → Prop} {x : Nat} (h : Fit geo a) (hs : Scan a want J D x a' g) :
    Fit geo a' := by
  have hsweep := hs.sweep
  refine ⟨⟨hsweep.unit.trans h.unit, hs.l2Granularity.trans h.l2Granularity,
    hsweep.l0Size.trans h.l0Size, hsweep.l1Size.trans h.l1Size, hs.l2Size.symm ▸ h.l2Size⟩,
    ⟨hsweep.unit.trans h.unit, ?_, hsweep.sound, fun q hq => h.inv.inside q (hsweep.shrinks hq)⟩,
    fun p hp => h.l2 p (hs.kept p hp)⟩
  rw [hsweep.l0Size]
  exact h.inv.size

/-- The units passed are gone from the free units. -/
theorem freeUnits_scan {J : Nat → Grant → Prop} {x : Nat} (h : Fit geo a)
    (hs : Scan a want J D x a' g) :
    freeUnits geo a'.l1.l0.slot =
      freeUnits geo a.l1.l0.slot \ D.filter fun q => a.l1.bit q = true := by
  ext q
  rw [Finset.mem_sdiff, mem_freeUnits (h.scan hs), mem_freeUnits h, Finset.mem_filter,
    hs.sweep.bit]
  by_cases hq : q ∈ D
  · simp [hq]
  · simp [hq]

/-- The free units that a call can see. -/
theorem Shown.mem_shown (h : Shown geo H a) {q : Nat} :
    q ∈ (freeUnits geo a.l1.l0.slot).filter (fun q => q / 131072 ∉ H) ↔
      a.l1.bit q = true ∧ WordBits.bit a.l2.slot (q / 131072) = true := by
  rw [Finset.mem_filter, mem_freeUnits h.fit]
  exact and_congr_right fun hq => (h.shown q hq).symm

/-- What a call has done that was granted exactly the free units it passed. -/
structure Drained (geo : Geometry) (H : Finset Nat) (want : Nat) (a a' : AllocatorLevel02)
    (n : Nat) : Prop where
  accounted : Accounted geo H a'
  granted : n = min want (shownFree geo H a)
  left : shownFree geo H a' + n = shownFree geo H a
  available : a'.available + n = a.available

theorem Accounted.scan {J : Nat → Grant → Prop} {x : Nat} (h : Accounted geo H a)
    (hs : Scan a want J D x a' g) (hset : ∀ q ∈ D, WordBits.bit a.l2.slot (q / 131072) = true)
    (hexact : g.allocated = a.l1.freeIn D * a.l1.l0Granularity)
    (hall : g.allocated = want ∨ ∀ q, a.l1.bit q = true →
      WordBits.bit a.l2.slot (q / 131072) = true → q ∈ D)
    (havail : a'.available = sub64 a.available g.allocated) :
    Drained geo H want a a' g.allocated := by
  have hcap := geo.capacity_lt
  have hle := h.available_le
  have hrest := freeUnits_scan h.fit hs
  have hbytes : g.allocated = geo.unit * (D.filter fun q => a.l1.bit q = true).card := by
    rw [hexact, h.fit.unit, Nat.mul_comm]
    rfl
  have hsub : (D.filter fun q => a.l1.bit q = true) ⊆
      (freeUnits geo a.l1.l0.slot).filter fun q => q / 131072 ∉ H := by
    intro q hq
    obtain ⟨hD, hbit⟩ := Finset.mem_filter.mp hq
    exact h.mem_shown.mpr ⟨hbit, hset q hD⟩
  have hcard := Finset.card_sdiff_add_card_eq_card (hsub.trans (Finset.filter_subset _ _))
  rw [← hrest] at hcard
  have hsum : geo.unit * (freeUnits geo a'.l1.l0.slot).card + g.allocated = a.available := by
    rw [h.available, ← hcard, Nat.mul_add, hbytes]
  rw [sub64_of_le (by omega) (by omega)] at havail
  have hleft : shownFree geo H a' + g.allocated = shownFree geo H a := by
    have hsplit := Finset.card_sdiff_add_card_eq_card hsub
    have hshown : (freeUnits geo a'.l1.l0.slot).filter (fun q => q / 131072 ∉ H) =
        (freeUnits geo a.l1.l0.slot).filter (fun q => q / 131072 ∉ H) \
          D.filter fun q => a.l1.bit q = true := by
      rw [hrest]
      ext q
      simp only [Finset.mem_filter, Finset.mem_sdiff]
      tauto
    unfold shownFree
    rw [hshown, hbytes, ← Nat.mul_add, hsplit]
  refine ⟨⟨⟨h.fit.scan hs, fun q hq => ?_⟩, by omega⟩, ?_, hleft, by omega⟩
  · rw [← h.shown q (hs.sweep.shrinks hq)]
    refine ⟨hs.kept _, fun hbit => ?_⟩
    by_contra hclear
    rw [hs.emptied _ hbit (by simpa using hclear) q rfl] at hq
    cases hq
  · have hwant := hs.sweep.le
    rcases hall with heq | hall
    · omega
    · have heq : (freeUnits geo a.l1.l0.slot).filter (fun q => q / 131072 ∉ H) =
          D.filter fun q => a.l1.bit q = true := by
        refine Finset.Subset.antisymm (fun q hq => ?_) hsub
        obtain ⟨hbit, hbit₂⟩ := h.mem_shown.mp hq
        exact Finset.mem_filter.mpr ⟨hall q hbit hbit₂, hbit⟩
      have hshown : shownFree geo H a = g.allocated := by
        unfold shownFree
        rw [heq, hbytes]
      omega

/-- A call that took no stale entry. -/
theorem Accounted.outcome {r : Int × Grant × AllocatorLevel02} (h : Accounted geo H a)
    (hout : Outcome a want hint
      (a.Counting 0 (a.startPos hint * 131072) (a.l2.size * 64 * 131072))
      (a.Counting (a.l1.freeIn (a.scanned (a.startPos hint * 131072) (a.l2.size * 64 * 131072))) 0
        (a.startPos hint * 131072)) r) :
    Drained geo H want a r.2.2 r.2.1.allocated ∧ (0 < r.2.1.allocated → r.1 = 0) := by
  have hcap := geo.capacity_lt
  have hle := h.available_le
  obtain ⟨result, g, a'⟩ := r
  rcases hout with ⟨hzero, hfirst | hsecond⟩ | ⟨hscan, hresult, havail⟩
  · obtain ⟨x, hlo, hhi, hscan⟩ := hfirst.scan
    rw [Finset.empty_union] at hscan
    have hcount := hscan.sweep.follows.2 hhi
    rw [Nat.zero_add] at hcount
    refine ⟨h.scan hscan (fun q hq => (mem_scanned.mp hq).2) hcount (Or.inl hfirst.allocated) ?_,
      fun _ => hzero⟩
    have havail := hfirst.available
    rwa [← hfirst.allocated] at havail
  · obtain ⟨x, hlo, hhi, hscan⟩ := hsecond.scan
    have hcount := hscan.sweep.follows.2 hhi
    rw [← freeIn_rounds hhi] at hcount
    refine ⟨h.scan hscan (fun q hq => ?_) hcount (Or.inl hsecond.allocated) ?_, fun _ => hzero⟩
    · rcases Finset.mem_union.mp hq with hq | hq
      · exact (mem_scanned.mp hq).2
      · exact (mem_scanned.mp hq).2
    · have havail := hsecond.available
      rwa [← hsecond.allocated] at havail
  · have hcount := hscan.sweep.follows.2 le_rfl
    rw [← freeIn_rounds le_rfl] at hcount
    refine ⟨h.scan hscan (fun q hq => ?_) hcount (Or.inr fun q hbit hset => ?_) ?_, fun hpos => ?_⟩
    · rcases Finset.mem_union.mp hq with hq | hq
      · exact (mem_scanned.mp hq).2
      · exact (mem_scanned.mp hq).2
    · -- every set bit lies in one of the two rounds
      have hin := h.fit.l2 _ hset
      have hsize := h.fit.l2Size
      rcases Nat.lt_or_ge q (a.startPos hint * 131072) with hlt | hge
      · exact Finset.mem_union_right _ (mem_scanned.mpr ⟨⟨Nat.zero_le q, hlt⟩, hset⟩)
      · refine Finset.mem_union_left _ (mem_scanned.mpr ⟨⟨hge, ?_⟩, hset⟩)
        have : q < (q / 131072 + 1) * 131072 := by omega
        exact this.trans_le (Nat.mul_le_mul_right _ (by omega))
    · by_cases hpos : 0 < g.allocated
      · rwa [if_pos hpos] at havail
      · rw [if_neg hpos] at havail
        rw [show g.allocated = 0 by omega, sub64_of_le (Nat.zero_le _) (by omega), Nat.sub_zero]
        exact havail
    · rwa [if_pos hpos] at hresult

end Allocation

end Calls

/-! ## What a call returns -/

theorem le_maxRun (minLength maxLength : Nat) : minLength ≤ maxRun minLength maxLength := by
  unfold maxRun
  dsimp only
  generalize (if maxLength = 0 then 2 ^ 32 - 1 else maxLength) = m
  split
  · exact le_rfl
  · rename_i hge
    exact Nat.le_of_not_lt hge

/-- `_allocate_l2` for a sound call whose assertions hold. -/
theorem Accounted.allocateL2 {geo : Geometry} {H : Finset Nat} {a : AllocatorLevel02}
    {fails : Fault → Prop} {want unit maxAllocSize : Nat} {hint : Int} (extents : List PExtent)
    (h : Accounted geo H a) (hu : isp2 unit = true) (hmod : want % unit = 0)
    (hle : unit ≥ a.l1.l0Granularity) (hcontained : Contained a want hint) (hfresh : Fresh a want hint)
    (hmax : MaxFits fails (min want (512 * a.l1.l0Granularity)) (maxRun unit maxAllocSize)) :
    Returns fails (a.allocateL2 want unit maxAllocSize hint ⟨0, extents⟩) fun r =>
      Drained geo H want a r.2.2 r.2.1.allocated ∧ (0 < r.2.1.allocated → r.1 = 0) := by
  have hpos : 0 < a.l1.l0Granularity := by
    rw [h.fit.unit]
    exact geo.unit_pos
  have hwant : a.l1.l0Granularity ∣ want := by
    rw [h.fit.unit] at hle ⊢
    exact unit_dvd_want hu hmod hle
  refine (allocateL2_sweep h.fit.shaped hwant hcontained (hfresh.first hpos) (hfresh.second hpos)
    (fun g hg => hg.wrap _) hmax (Counting.start a _ _ extents)).1.mono fun r hout => h.outcome hout

theorem Accounted.create {geo : Geometry} {a : BitmapAllocator}
    (h : BitmapAllocator.create geo.capacity geo.unit = .ok a) :
    Accounted geo ∅ a.toAllocatorLevel02 := by
  have hfit := Fit.create h
  obtain ⟨hbit, -, havail⟩ := create_clear h
  refine ⟨⟨hfit, fun q hq => ?_⟩, ?_⟩
  · cases (hbit q).symm.trans hq
  · have hnone : freeUnits geo a.l1.l0.slot = ∅ := by
      rw [Finset.eq_empty_iff_forall_notMem]
      intro q hq
      cases (hbit q).symm.trans ((mem_freeUnits hfit).mp hq)
    rw [hnone, Finset.card_empty, Nat.mul_zero]
    exact havail

theorem Accounted.step {geo : Geometry} {H : Finset Nat} {a a' : BitmapAllocator} {c : Call}
    (h : Accounted geo H a.toAllocatorLevel02) (hin : c.InDevice geo) (hsound : SoundCall geo a c)
    (hstep : c.Steps a a') : Accounted geo (c.hides geo H) a'.toAllocatorLevel02 := by
  cases c with
  | initAddFree offset length => exact h.initAddFree hin hsound hstep
  | initRmFree offset length => exact h.initRmFree hin hsound hstep
  | release releaseSet => exact h.release hin hsound hstep
  | allocate want unit maxAllocSize hint extents =>
      obtain ⟨r, res, hstep⟩ := hstep
      unfold BitmapAllocator.allocate at hstep
      split at hstep
      · rename_i hcall
        obtain ⟨⟨r', g, l2⟩, hl2, hstep⟩ := bind_eq_ok hstep
        cases hstep
        have hmax : MaxFits (· = .assertFail) (min want (512 * a.l1.l0Granularity))
            (maxRun unit maxAllocSize) := Or.inl rfl
        have hret := h.allocateL2 extents hcall.1 hcall.2.1 hcall.2.2 hsound.1 hsound.2 hmax
        exact (hret.of_ok hl2).1.accounted
      · cases hstep

theorem SoundRun.accounted {geo : Geometry} {a : BitmapAllocator} {H : Finset Nat}
    (h : SoundRun geo a H) : Accounted geo H a.toAllocatorLevel02 := by
  induction h with
  | create hc => exact Accounted.create hc
  | step _ hin hsound hstep ih => exact ih.step hin hsound hstep

/-- `available` counts the free units, and a call for units of the smallest size
returns all that is wanted, or all that is free outside the hidden regions; what it
returns is no longer there. -/
structure Drains (geo : Geometry) (H : Finset Nat) (a : BitmapAllocator) (want maxAllocSize : Nat)
    (hint : Int) : Prop where
  counted : a.available = geo.unit * (freeUnits geo a.l1.l0.slot).card
  returns : 0 < min want (shownFree geo H a.toAllocatorLevel02) →
    ∃ res a', a.allocate want geo.unit maxAllocSize hint [] =
        .ok ((min want (shownFree geo H a.toAllocatorLevel02) : Nat), res, a') ∧
      shownFree geo H a'.toAllocatorLevel02 + min want (shownFree geo H a.toAllocatorLevel02) =
        shownFree geo H a.toAllocatorLevel02

/-- In every run of sound calls a sound call drains what is not hidden. -/
theorem allocate_drains {geo : Geometry} {H : Finset Nat} {a : BitmapAllocator}
    {want maxAllocSize : Nat} {hint : Int} (h : SoundRun geo a H) (hwant : want % geo.unit = 0)
    (hsound : SoundCall geo a (.allocate want geo.unit maxAllocSize hint []))
    (hfits : min (min want (512 * geo.unit)) (maxRun geo.unit maxAllocSize) < 2 ^ 32) :
    Drains geo H a want maxAllocSize hint := by
  have hacc := h.accounted
  have hpow : isp2 geo.unit = true := isp2_iff.mpr ⟨geo.shift, rfl⟩
  have hunit := hacc.fit.unit
  refine ⟨hacc.available, fun hpos => ?_⟩
  have hmax : MaxFits (fun _ => False) (min want (512 * a.l1.l0Granularity))
      (maxRun geo.unit maxAllocSize) := by
    rw [hunit]
    exact Or.inr ⟨geo.unit_pos.trans_le (le_maxRun _ _), hfits⟩
  have hret := hacc.allocateL2 [] hpow hwant hunit.le hsound.1 hsound.2 hmax
  cases hl2 : a.toAllocatorLevel02.allocateL2 want geo.unit maxAllocSize hint ⟨0, []⟩ with
  | error f =>
      rw [hl2] at hret
      exact hret.elim
  | ok r =>
      obtain ⟨hdrained, hzero⟩ := hret.of_ok hl2
      have hgranted := hdrained.granted
      rw [← hgranted] at hpos
      refine ⟨r.2.1.res, { a with toAllocatorLevel02 := r.2.2 }, ?_, ?_⟩
      · unfold BitmapAllocator.allocate
        rw [if_pos ⟨hpow, hwant, hunit.le⟩, hl2, ← hgranted]
        show Except.ok (if r.1 = 0 ∧ r.2.1.allocated > 0 then _ else _, _, _) = _
        rw [if_pos ⟨hzero hpos, hpos⟩]
      · rw [← hgranted]
        exact hdrained.left

/-- The first unit of a device with two FREE entries. -/
theorem allocate_drains_first : ∃ (a : BitmapAllocator) (H : Finset Nat), SoundRun halfGiB a H ∧
    0 < min 4096 (shownFree halfGiB H a.toAllocatorLevel02) ∧ Drains halfGiB H a 4096 0 0 := by
  have hrun : (do
      let a ← create halfGiB.capacity halfGiB.unit
      let _ ← a.initAddFree 0 (1024 * 4096)
      return ()) = Except.ok () := by
    decide +kernel
  obtain ⟨b, hcreate, hrun⟩ := bind_eq_ok hrun
  obtain ⟨a, hadd, -⟩ := bind_eq_ok hrun
  obtain ⟨hbit, hcontained⟩ := twoEntries hcreate hadd
  have hsound : SoundCall halfGiB b (.initAddFree 0 (1024 * 4096)) :=
    Or.inr ⟨by decide, fun q _ _ => (create_clear hcreate).1 q⟩
  have ha := (SoundRun.create hcreate).step (c := .initAddFree 0 (1024 * 4096))
    (show _ ≤ _ by decide) hsound hadd
  have hacc := ha.accounted
  have hsound' : SoundCall halfGiB a (.allocate 4096 halfGiB.unit 0 0 []) := by
    refine ⟨hcontained, fun e _ _ => ?_⟩
    rw [hacc.fit.unit]
    have hpos : 4096 < 512 * halfGiB.unit := by decide
    exact hpos.trans_le (Nat.mul_le_mul_right _ (by omega))
  refine ⟨a, _, ha, ?_, allocate_drains ha (by decide) hsound' (by decide)⟩
  -- unit 0 is free and not hidden
  have hmem : 0 ∈ (freeUnits halfGiB a.l1.l0.slot).filter fun q =>
      q / 131072 ∉ (Call.initAddFree 0 (1024 * 4096)).hides halfGiB ∅ := by
    refine Finset.mem_filter.mpr ⟨(mem_freeUnits hacc.fit).mpr ((hbit 0).mpr (by decide)), ?_⟩
    exact fun hin => Finset.notMem_empty _ (Finset.mem_sdiff.mp hin).1
  have hcard := Finset.card_pos.mpr ⟨0, hmem⟩
  exact Nat.lt_min.mpr ⟨by decide, Nat.mul_pos (Geometry.unit_pos _) hcard⟩

/-- One unit of a free region is removed: the other 1023 are out of reach. -/
theorem allocate_not_drains : ∃ a : BitmapAllocator, Run halfGiB a ∧
    0 < min 4096 a.available ∧
      ¬ ∃ res a', a.allocate 4096 halfGiB.unit 0 0 [] =
        .ok ((min 4096 a.available : Nat), res, a') := by
  have hrun : (do
      let a ← create halfGiB.capacity halfGiB.unit
      let a ← a.initAddFree 0 (1024 * 4096)
      let a ← a.initRmFree 0 4096
      let (r, _) ← a.allocate 4096 halfGiB.unit 0 0 []
      return (a.available, r)) = Except.ok (1023 * 4096, -enospc) := by
    decide +kernel
  obtain ⟨c, hcreate, hrun⟩ := bind_eq_ok hrun
  obtain ⟨b, hadd, hrun⟩ := bind_eq_ok hrun
  obtain ⟨a, hrm, hrun⟩ := bind_eq_ok hrun
  obtain ⟨⟨r, res, a'⟩, halloc, hrun⟩ := bind_eq_ok hrun
  have hout := Except.ok.inj hrun
  rw [Prod.mk.injEq] at hout
  have hone : Run halfGiB b :=
    (Run.create hcreate).step (c := .initAddFree 0 (1024 * 4096)) (show _ ≤ _ by decide) hadd
  refine ⟨a, hone.step (c := .initRmFree 0 4096) (show _ ≤ _ by decide) hrm, ?_, ?_⟩
  · rw [hout.1]
    decide
  · rintro ⟨res', a'', halloc'⟩
    rw [halloc'] at halloc
    cases halloc
    have hr := hout.2
    rw [hout.1] at hr
    exact absurd hr (by decide)

end BitmapAllocator

end Clab.Blk
