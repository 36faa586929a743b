import Clab.Blk.AvlSearch
import Clab.Lib.WholeBlocks

/-!
# What the AVL allocator hands out of whole units

When every free range starts and ends on a multiple of the unit, a range that
is long enough always has an aligned block at its start, so the search by size
succeeds at once and `allocate` goes on until it has what was wanted or nothing
is left.
-/

namespace Clab.Blk

open Clab.Common Clab.RangeSet

namespace AvlAllocator

variable {a : AvlAllocator} {free : Set Nat} {size unit : Nat}

/-- `max_size` of `_allocate_single`. -/
def maxSize (a : AvlAllocator) : Nat := (a.rangeSizeTree.getLast?.map rangeLength).getD 0

/-- `num_free_` counts the free bytes. -/
theorem Holds.numFree_eq (h : Holds a free) : a.numFree = free.ncard := by
  rw [h.tracks.numFree, ← h.covers, h.canonical.ncard_covered]
  rfl

theorem Holds.free_finite (h : Holds a free) : free.Finite := by
  rw [← h.covers]
  exact Canonical.finite_covered _

theorem Holds.free_empty (h : Holds a free) (hnil : a.rangeTree = []) : free = ∅ := by
  rw [← h.covers, hnil, covered_nil]

/-! ## The longest range -/

theorem Holds.length_le_maxSize (h : Holds a free) {r : RangeSeg} (hr : r ∈ a.rangeTree) :
    rangeLength r ≤ a.maxSize := by
  have hmem : r ∈ a.rangeSizeTree := h.tracks.same.mem_iff.mpr hr
  have hsorted := h.tracks.bySize
  unfold maxSize
  cases hlast : a.rangeSizeTree.getLast? with
  | none =>
      rw [List.getLast?_eq_none_iff.mp hlast] at hmem
      exact absurd hmem List.not_mem_nil
  | some m =>
      obtain ⟨init, hinit⟩ := List.getLast?_eq_some_iff.mp hlast
      rw [hinit] at hmem hsorted
      show rangeLength r ≤ rangeLength m
      rcases List.mem_append.mp hmem with hr | hr
      · have hshort := (List.pairwise_append.mp hsorted).2.2 r hr m (by simp)
        unfold shorter at hshort
        by_contra hgt
        rw [if_neg (by omega), if_pos (by omega)] at hshort
        cases hshort
      · rw [List.mem_singleton.mp hr]

theorem Holds.exists_maxSize (h : Holds a free) (hne : a.rangeTree ≠ []) :
    ∃ r ∈ a.rangeTree, rangeLength r = a.maxSize := by
  unfold maxSize
  cases hlast : a.rangeSizeTree.getLast? with
  | none =>
      have hnil := h.tracks.same
      rw [List.getLast?_eq_none_iff.mp hlast] at hnil
      exact absurd hnil.nil_eq.symm hne
  | some m => exact ⟨m, h.tracks.same.mem_iff.mp (List.mem_of_getLast? hlast), rfl⟩

theorem Holds.maxSize_nil (h : Holds a free) (hnil : a.rangeTree = []) : a.maxSize = 0 := by
  have hsame := h.tracks.same
  rw [hnil] at hsame
  unfold maxSize
  rw [hsame.eq_nil]
  rfl

theorem Holds.maxSize_lt (h : Holds a free) : a.maxSize < 2 ^ 63 := by
  have hdev := h.device
  by_cases hne : a.rangeTree = []
  · rw [h.maxSize_nil hne]
    exact Nat.two_pow_pos 63
  · obtain ⟨r, hr, hlen⟩ := h.exists_maxSize hne
    have hin := h.inside r hr
    rw [← hlen]
    unfold rangeLength
    omega

/-! ## Whole units -/

section Whole

variable (hw : Whole unit free) (hu : 0 < unit) (hd : unit ∣ 2 ^ 63)
include hw

theorem Holds.range_dvd (h : Holds a free) {r : RangeSeg} (hr : r ∈ a.rangeTree) :
    unit ∣ r.start ∧ unit ∣ r.stop := by
  rw [← h.covers] at hw
  exact h.canonical.dvd_of_whole hw hr

theorem Holds.dvd_maxSize (h : Holds a free) : unit ∣ a.maxSize := by
  by_cases hne : a.rangeTree = []
  · rw [h.maxSize_nil hne]
    exact Nat.dvd_zero unit
  · obtain ⟨r, hr, hlen⟩ := h.exists_maxSize hne
    obtain ⟨hstart, hstop⟩ := h.range_dvd hw hr
    rw [← hlen]
    exact Nat.dvd_sub hstop hstart

include hu

/-- The start of a range is aligned as it is. -/
theorem Holds.roundup_start (h : Holds a free) {r : RangeSeg} (hr : r ∈ a.rangeTree) :
    p2roundup r.start unit = r.start := by
  have hdev := h.device
  have hin := h.inside r hr
  have hne := h.canonical.nonempty r hr
  obtain ⟨k, hk⟩ := (h.range_dvd hw hr).1
  unfold p2roundup
  have hdiv : (r.start + unit - 1) / unit = k := by
    rw [hk, Nat.add_sub_assoc hu, Nat.mul_add_div hu, Nat.div_eq_of_lt (by omega), Nat.add_zero]
  rw [hdiv, Nat.mul_comm, ← hk, Nat.mod_eq_of_lt (by omega)]

/-- The first range that is long enough has a block. -/
theorem pickBlockFits_whole (h : Holds a free) {r : RangeSeg} (hr : r ∈ a.rangeTree)
    (hlen : size ≤ rangeLength r) : ∃ offset, a.pickBlockFits size unit = some offset := by
  have hdev := h.device
  unfold pickBlockFits
  cases hdrop : a.rangeSizeTree.dropWhile fun r => decide (rangeLength r < size) with
  | nil =>
      have hall := List.dropWhile_eq_nil_iff.mp hdrop r (h.tracks.same.mem_iff.mpr hr)
      have := of_decide_eq_true hall
      omega
  | cons s rest =>
      have hlong : ¬ rangeLength s < size := by
        have := List.head?_dropWhile_not (fun r => decide (rangeLength r < size)) a.rangeSizeTree
        rw [hdrop] at this
        simpa using this
      have hs : s ∈ a.rangeTree := by
        have hmem : s ∈ a.rangeSizeTree.dropWhile fun r => decide (rangeLength r < size) := by
          rw [hdrop]
          exact List.mem_cons_self
        exact h.tracks.same.mem_iff.mp ((List.dropWhile_sublist _).mem hmem)
      have hin := h.inside s hs
      have hne := h.canonical.nonempty s hs
      unfold rangeLength at hlong
      refine ⟨s.start, ?_⟩
      rw [scanFits, if_neg (by decide)]
      dsimp only
      rw [h.roundup_start hw hu hs, add64_of_lt (by omega), if_pos (by omega)]

include hd

/-- Whichever way it searches, a block of the size is found. -/
theorem chooseBlock_whole (h : Holds a free) (h₀ : 0 < size) (hle : size ≤ a.maxSize)
    (bySize : Bool) :
    ∃ start f, a.chooseBlock size unit bySize = .ok (some (start, size), { a with lbas := f }) ∧
      unit ∣ start ∧ Set.Ico start (start + size) ⊆ free ∧ start + size ≤ a.deviceSize := by
  have hlt := h.maxSize_lt
  have hne : a.rangeTree ≠ [] := by
    intro hnil
    have := h.maxSize_nil hnil
    omega
  obtain ⟨r, hr, hlen⟩ := h.exists_maxSize hne
  obtain ⟨offset, hpick⟩ := pickBlockFits_whole hw hu h hr (hle.trans_eq hlen.symm)
  have hfit : a.fitHalving unit 64 size = .ok (some (offset, size)) := by
    rw [fitHalving, hpick]
  have hfits := (pickBlockFits_some hpick).mono fun _ hr => h.tracks.same.mem_iff.mp hr
  have hblock := (hfits.blockAt h (by omega) hu hd).1.1
  obtain ⟨hfree, hin⟩ := hfits.bytes_free h (by omega) hu hd
  have hby : (do
      let block ← a.fitHalving unit 64 size
      .ok (block, a) : Except AvlFault _) = .ok (some (offset, size), { a with lbas := a.lbas }) := by
    rw [hfit]
    rfl
  unfold chooseBlock
  cases bySize with
  | true => exact ⟨offset, a.lbas, hby, hblock, hfree, hin⟩
  | false =>
      rw [if_neg Bool.false_ne_true]
      dsimp only
      rw [if_neg (lowbit_ne_zero h₀ (by omega))]
      unfold pickBlockAfter
      cases hs : a.searchAfter (a.lbas (Nat.log2 (size &&& sub64 0 size))) size unit with
      | some start =>
          have hafter := searchAfter_some hs
          obtain ⟨hfree', hin'⟩ := hafter.bytes_free h (by omega) hu hd
          exact ⟨start, _, rfl, (hafter.blockAt h (by omega) hu hd).1.1, hfree', hin'⟩
      | none => exact ⟨offset, a.lbas, hby, hblock, hfree, hin⟩

/-- While something is free, `_allocate_single` takes what it is asked for or
the longest range. -/
theorem allocateSingle_whole (h : Holds a free) (h₀ : 0 < size) (hne : a.rangeTree ≠ []) :
    ∃ start a', a.allocateSingle size unit = .ok (some (start, min size a.maxSize), a') ∧
      unit ∣ start ∧ Set.Ico start (start + min size a.maxSize) ⊆ free ∧
      Holds a' (free \ Set.Ico start (start + min size a.maxSize)) ∧ SameConfig a a' := by
  have hlt := h.maxSize_lt
  have hdev := h.device
  obtain ⟨r, hr, hlen⟩ := h.exists_maxSize hne
  have hrange := h.canonical.nonempty r hr
  have hin := h.inside r hr
  have hpos : 0 < a.maxSize := by
    rw [← hlen]
    unfold rangeLength
    omega
  have hdvd := h.dvd_maxSize hw
  have hunit : unit ≤ a.maxSize := Nat.le_of_dvd hpos hdvd
  have halign : p2align a.maxSize unit = a.maxSize := Nat.div_mul_cancel hdvd
  have hsize : (if a.maxSize < size then p2align a.maxSize unit else size) =
      min size a.maxSize := by
    rw [halign]
    split <;> omega
  have hmax : (a.rangeSizeTree.getLast?.map rangeLength).getD 0 = a.maxSize := rfl
  unfold allocateSingle
  dsimp only
  rw [hmax, hsize, if_neg (by omega), if_neg (by omega), if_neg (by omega)]
  obtain ⟨start, f, hchoose, hstart, hfree, hend⟩ := @chooseBlock_whole a free
    (min size a.maxSize) unit hw hu hd h (by omega) (Nat.min_le_right _ _)
    (decide (a.maxSize < size ∨ a.maxSize < rangeSizeAllocThreshold ∨
      a.numFree * 100 % 2 ^ 64 / a.deviceSize < rangeSizeAllocFreePct))
  obtain ⟨a', hrem, hholds, hsame⟩ :=
    removeFromTree_spec (h.withLbas f) (by omega) hend hfree
  refine ⟨start, a', ?_, hstart, hfree, hholds,
    ⟨hsame.deviceSize, hsame.blockSize, hsame.rangeCountCap⟩⟩
  rw [hchoose]
  show ({ a with lbas := f }.removeFromTree start (min size a.maxSize)).bind _ = _
  rw [hrem]
  rfl

end Whole

/-- With nothing free it takes nothing. -/
theorem allocateSingle_empty (h : Holds a free) (h₀ : 0 < size) (hu : 0 < unit)
    (hnil : a.rangeTree = []) : a.allocateSingle size unit = .ok (none, a) := by
  have hmax : (a.rangeSizeTree.getLast?.map rangeLength).getD 0 = 0 := h.maxSize_nil hnil
  unfold allocateSingle
  dsimp only
  rw [hmax, if_pos ⟨h₀, hu⟩]

/-! ## The loop -/

/-- The extents handed out are made of whole units and not longer than `bound`. -/
def WholeExtents (unit bound : Nat) (extents : List PExtent) : Prop :=
  ∀ e ∈ extents, unit ∣ e.offset ∧ unit ∣ e.length ∧ e.length ≤ bound

/-- The bound does not cut a unit: it is a multiple itself, or nothing longer is
wanted, or nothing longer is free. -/
def CutsNoUnit (free : Set Nat) (want unit bound : Nat) : Prop :=
  unit ∣ bound ∨ want ≤ bound ∨ ∀ s, ¬ Set.Ico s (s + bound) ⊆ free

theorem CutsNoUnit.mono {free' : Set Nat} {want bound : Nat}
    (h : CutsNoUnit free want unit bound) (hsub : free' ⊆ free) :
    CutsNoUnit free' want unit bound := by
  rcases h with hdvd | hwant | hshort
  · exact Or.inl hdvd
  · exact Or.inr (Or.inl hwant)
  · exact Or.inr (Or.inr fun s hs => hshort s (hs.trans hsub))

/-- What is taken next is whole units. -/
theorem CutsNoUnit.dvd_taken {want bound rest : Nat} (hcut : CutsNoUnit free want unit bound)
    (h : Holds a free) (hw : Whole unit free) (hu : 0 < unit) (hne : a.rangeTree ≠ [])
    (hrest : unit ∣ rest) (hle : rest ≤ want) : unit ∣ min (min bound rest) a.maxSize := by
  have hdvd := h.dvd_maxSize hw
  have hdvd_min : unit ∣ min rest a.maxSize := by
    rcases Nat.le_total rest a.maxSize with hmin | hmin
    · rwa [Nat.min_eq_left hmin]
    · rwa [Nat.min_eq_right hmin]
  rcases hcut with hbound | hwant | hshort
  · rw [Nat.min_assoc]
    rcases Nat.le_total bound (min rest a.maxSize) with hmin | hmin
    · rwa [Nat.min_eq_left hmin]
    · rwa [Nat.min_eq_right hmin]
  · rwa [Nat.min_eq_right (hle.trans hwant)]
  · obtain ⟨r, hr, hlen⟩ := h.exists_maxSize hne
    -- a range as long as the bound would be a free run of that length
    have hlt : a.maxSize < bound := by
      by_contra hge
      unfold rangeLength at hlen
      refine hshort r.start fun x hx => ?_
      have hlow : r.start ≤ x := hx.1
      have hhigh : x < r.start + bound := hx.2
      rw [← h.covers]
      exact ⟨r, hr, hlow, by omega⟩
    rwa [show min (min bound rest) a.maxSize = min rest a.maxSize by omega]

/-- The loop of `_allocate` takes all that is wanted or all that is free. -/
theorem allocateLoop_whole {want bound : Nat} (hu : 0 < unit) (hd : unit ∣ 2 ^ 63)
    (hpos : 0 < bound) (hbound : bound < 2 ^ 32) {n allocated : Nat} {extents : List PExtent}
    (h : Holds a free) (hw : Whole unit free) (hcut : CutsNoUnit free want unit bound)
    (hal : unit ∣ want - allocated) (hle : allocated ≤ want) (hfuel : want < allocated + n) :
    ∃ new a', allocateLoop want unit bound n allocated extents a =
        .ok (allocated + min (want - allocated) a.numFree, extents ++ new, a') ∧
      (new.map (·.length)).sum = min (want - allocated) a.numFree ∧
      WholeExtents unit bound new := by
  induction n generalizing allocated extents a free with
  | zero => omega
  | succ n ih =>
      have hstop : min (want - allocated) a.numFree = 0 → ∃ new a', Except.ok (allocated, extents, a)
          = (Except.ok (allocated + min (want - allocated) a.numFree, extents ++ new, a') :
            Except AvlFault _) ∧
          (new.map (·.length)).sum = min (want - allocated) a.numFree ∧
          WholeExtents unit bound new := by
        intro hzero
        rw [hzero]
        exact ⟨[], a, by simp, rfl, by simp [WholeExtents]⟩
      rw [allocateLoop]
      split
      · rename_i hlt
        have hask : 0 < min bound (want - allocated) := by omega
        by_cases hne : a.rangeTree = []
        · rw [allocateSingle_empty h hask hu hne]
          refine hstop ?_
          rw [h.numFree_eq, h.free_empty hne, Set.ncard_empty, Nat.min_zero]
        · obtain ⟨start, a₁, hsingle, hstart, hsub, hholds, -⟩ :=
            allocateSingle_whole hw hu hd h hask hne
          have hdvd := hcut.dvd_taken h hw hu hne hal (Nat.sub_le want allocated)
          have hlenpos : 0 < a.maxSize := by
            obtain ⟨r, hr, hlen⟩ := h.exists_maxSize hne
            have := h.canonical.nonempty r hr
            unfold rangeLength at hlen
            omega
          generalize hlen : min (min bound (want - allocated)) a.maxSize = len at *
          have hlen32 : len % 2 ^ 32 = len := Nat.mod_eq_of_lt (by omega)
          -- the bytes taken are gone from the count
          have hcount : a₁.numFree + len = a.numFree := by
            have hsplit := Set.ncard_sdiff_add_ncard_of_subset hsub h.free_finite
            rw [← Finset.coe_Ico, Set.ncard_coe_finset, Nat.card_Ico, Nat.add_sub_cancel_left,
              Finset.coe_Ico] at hsplit
            rw [hholds.numFree_eq, h.numFree_eq]
            exact hsplit
          have hwhole : Whole unit (Set.Ico start (start + len)) :=
            whole_Ico hu hstart (Nat.dvd_add hstart hdvd)
          have hrest : unit ∣ want - (allocated + len) := by
            rw [← Nat.sub_sub]
            exact Nat.dvd_sub hal hdvd
          obtain ⟨new, a', hloop, hsum, hnew⟩ := @ih a₁ _ (allocated + len)
            (extents ++ [⟨start, len⟩]) hholds (hw.sdiff hwhole) (hcut.mono Set.sdiff_subset) hrest
            (by omega) (by omega)
          have htotal : len + min (want - (allocated + len)) a₁.numFree =
              min (want - allocated) a.numFree := by omega
          refine ⟨⟨start, len⟩ :: new, a', ?_, ?_, ?_⟩
          · rw [hsingle]
            show allocateLoop want unit bound n (allocated + len)
              (extents ++ [⟨start, len % 2 ^ 32⟩]) a₁ = _
            rw [hlen32, hloop, Nat.add_assoc, htotal, List.append_assoc]
            rfl
          · rw [List.map_cons, List.sum_cons, hsum, htotal]
          · intro e he
            rcases List.mem_cons.mp he with rfl | he
            · exact ⟨hstart, hdvd, by dsimp only; omega⟩
            · exact hnew e he
      · exact hstop (by omega)

/-! ## The whole call -/

/-- What is asked of a call for whole units: all that is wanted or all that is
free, `-ENOSPC` standing for nothing, in aligned extents that keep to the
maximum and whose lengths are not cut to 32 bits. -/
def Fulfils (a : AvlAllocator) (want unit maxAllocSize : Nat) : Prop :=
  ∃ r extents a', a.allocate want unit maxAllocSize = .ok (r, extents, a') ∧
    r = (if min want a.numFree = 0 then -enospc else (min want a.numFree : Nat)) ∧
    (extents.map (·.length)).sum = min want a.numFree ∧
    ∀ e ∈ extents, unit ∣ e.offset ∧ unit ∣ e.length ∧ e.length < 2 ^ 32 ∧
      (maxAllocSize ≠ 0 → e.length ≤ maxAllocSize)

/-- An extent can reach 4 GiB less one block, and the unit is longer than a
block; or a block is that long itself, so that an extent has no length left. -/
def Uneven (a : AvlAllocator) (want unit maxAllocSize : Nat) : Prop :=
  (lengthCap ≤ if maxAllocSize = 0 then want else maxAllocSize) ∧
    (a.blockSize < 2 ^ 32 → unit ≠ a.blockSize ∧ 2 ^ 32 ≤ want + a.blockSize ∧
      ∃ r ∈ a.rangeTree, 2 ^ 32 ≤ rangeLength r + a.blockSize) ∧
    (2 ^ 32 ≤ a.blockSize → a.deviceSize = 0 ∨ a.rangeTree ≠ [])

section Call

variable {want maxAllocSize : Nat}

/-- The bound on extents when 4 GiB are in reach. -/
theorem maxExtent_capped
    (hcap : lengthCap ≤ if maxAllocSize = 0 then want else maxAllocSize) :
    a.maxExtent want maxAllocSize = sub64 0 a.blockSize % 2 ^ 32 := by
  unfold maxExtent
  dsimp only
  rw [if_pos hcap, lengthCap, Nat.and_comm, Nat.and_two_pow_sub_one_eq_mod]

theorem maxExtent_uncapped
    (hcap : ¬ lengthCap ≤ if maxAllocSize = 0 then want else maxAllocSize) :
    a.maxExtent want maxAllocSize = if maxAllocSize = 0 then want else maxAllocSize := by
  unfold maxExtent
  dsimp only
  rw [if_neg hcap]

theorem maxExtent_smallBlock (hb₀ : 0 < a.blockSize) (hb : a.blockSize < 2 ^ 32)
    (hcap : lengthCap ≤ if maxAllocSize = 0 then want else maxAllocSize) :
    a.maxExtent want maxAllocSize = 2 ^ 32 - a.blockSize := by
  rw [maxExtent_capped hcap]
  unfold sub64
  omega

/-- A block size of 4 GiB or more leaves no length. -/
theorem maxExtent_largeBlock (hb : 2 ^ 32 ≤ a.blockSize) (hb64 : a.blockSize < 2 ^ 64)
    (hp : ∃ k, a.blockSize = 2 ^ k)
    (hcap : lengthCap ≤ if maxAllocSize = 0 then want else maxAllocSize) :
    a.maxExtent want maxAllocSize = 0 := by
  rw [maxExtent_capped hcap]
  obtain ⟨k, hk⟩ := hp
  have hk32 : 32 ≤ k := by
    rw [hk] at hb
    exact (Nat.pow_le_pow_iff_right (by decide)).mp hb
  have hdvd : 2 ^ 32 ∣ a.blockSize := by
    rw [hk]
    exact Nat.pow_dvd_pow 2 hk32
  obtain ⟨c, hc⟩ := hdvd
  unfold sub64
  omega

/-- The bound never exceeds a maximum that is given. -/
theorem maxExtent_le (hmax : maxAllocSize ≠ 0) : a.maxExtent want maxAllocSize ≤ maxAllocSize := by
  unfold maxExtent
  dsimp only
  rw [if_neg hmax]
  split
  · exact Nat.and_le_left.trans ‹_›
  · exact le_rfl

/-- Asked for nothing, `_allocate_single` fails where a search by size finds a place. -/
theorem allocateSingle_zero_fails {offset : Nat} (hdev : a.deviceSize ≠ 0)
    (hpick : a.pickBlockFits 0 unit = some offset) :
    ∃ f, a.allocateSingle 0 unit = .error f := by
  unfold allocateSingle
  dsimp only
  rw [if_neg (by omega), if_neg (by omega), if_neg hdev, if_neg (Nat.not_lt_zero _)]
  unfold chooseBlock
  split
  · rw [fitHalving, hpick]
    exact ⟨.assertFail, rfl⟩
  · exact ⟨.assertFail, rfl⟩

theorem allocateSingle_zero_whole (h : Holds a free) (hw : Whole unit free) (hu : 0 < unit)
    (hne : a.rangeTree ≠ []) : ∃ f, a.allocateSingle 0 unit = .error f := by
  obtain ⟨r, hr, -⟩ := h.exists_maxSize hne
  have hin := h.inside r hr
  have hrange := h.canonical.nonempty r hr
  obtain ⟨offset, hpick⟩ := pickBlockFits_whole hw hu h hr (Nat.zero_le _)
  exact allocateSingle_zero_fails (by omega) hpick

/-- With nothing free it takes nothing, whatever it is asked for. -/
theorem allocateSingle_nothing (h : Holds a free) (hu : 0 < unit) (hnil : a.rangeTree = [])
    (hdev : a.deviceSize ≠ 0) (size : Nat) : a.allocateSingle size unit = .ok (none, a) := by
  have hsize : a.rangeSizeTree = [] := by
    have hsame := h.tracks.same
    rw [hnil] at hsame
    exact hsame.eq_nil
  rcases Nat.eq_zero_or_pos size with rfl | hpos
  · unfold allocateSingle
    dsimp only
    rw [if_neg (by omega), if_neg (by omega), if_neg hdev, if_neg (Nat.not_lt_zero _), hsize]
    unfold chooseBlock
    rw [if_pos (by simp [rangeSizeAllocThreshold]), fitHalving]
    have hpick : a.pickBlockFits 0 unit = none := by
      unfold pickBlockFits
      rw [hsize]
      rfl
    have hsmall : ¬ p2align (0 / 2) unit ≥ unit := by
      have := p2align_le (0 / 2) unit
      omega
    rw [hpick]
    dsimp only
    rw [if_neg hsmall]
    rfl
  · exact allocateSingle_empty h hpos hu hnil

/-- A call that does not cut a unit does what is asked. -/
theorem fulfils_of_cutsNoUnit (h : Holds a free) (hw : Whole unit free)
    (hu : isp2 unit = true) (hu64 : unit < 2 ^ 64) (hwant : unit ∣ want)
    (hpos : 0 < a.maxExtent want maxAllocSize)
    (hcut : CutsNoUnit free want unit (a.maxExtent want maxAllocSize)) :
    a.Fulfils want unit maxAllocSize := by
  have hd := isp2_dvd hu hu64
  have hu₀ : 0 < unit := Nat.pos_of_dvd_of_pos hd (by decide)
  obtain ⟨new, a', hloop, hsum, hnew⟩ := @allocateLoop_whole a free unit want _ hu₀ hd hpos
    (a.maxExtent_lt want maxAllocSize) (want + 1) 0 [] h hw hcut
    (by rwa [Nat.sub_zero]) (Nat.zero_le want) (by omega)
  rw [Nat.zero_add, Nat.sub_zero] at hloop
  rw [Nat.sub_zero] at hsum
  refine ⟨_, new, a', ?_, rfl, hsum, fun e he => ?_⟩
  · unfold allocate
    rw [hu, if_neg (by decide), if_neg (fun hn => hn (Nat.mod_eq_zero_of_dvd hwant))]
    unfold allocateInner
    rw [hloop]
    rfl
  · obtain ⟨hoff, hlen, hle⟩ := hnew e he
    have hlt := a.maxExtent_lt want maxAllocSize
    exact ⟨hoff, hlen, by omega, fun hmax => hle.trans (maxExtent_le hmax)⟩

/-- With nothing free the call reports so, if it can divide by the size of the
device. -/
theorem fulfils_of_empty (h : Holds a free) (hu : isp2 unit = true) (hu₀ : 0 < unit)
    (hwant₀ : 0 < want) (hwant : unit ∣ want) (hnil : a.rangeTree = [])
    (hdev : a.deviceSize ≠ 0) : a.Fulfils want unit maxAllocSize := by
  have hnum : a.numFree = 0 := by
    rw [h.numFree_eq, h.free_empty hnil, Set.ncard_empty]
  refine ⟨_, [], a, ?_, rfl, ?_, by simp⟩
  · unfold allocate
    rw [hu, if_neg (by decide), if_neg (fun hn => hn (Nat.mod_eq_zero_of_dvd hwant))]
    unfold allocateInner
    rw [allocateLoop, if_pos hwant₀, allocateSingle_nothing h hu₀ hnil hdev, hnum, Nat.min_zero]
    rfl
  · rw [hnum, Nat.min_zero]
    rfl

/-- A block size of 4 GiB or more lets no call with something free return. -/
theorem not_fulfils_largeBlock (h : Holds a free) (hw : Whole unit free) (hu₀ : 0 < unit)
    (hwant₀ : 0 < want) (hzero : a.maxExtent want maxAllocSize = 0)
    (hsome : a.deviceSize = 0 ∨ a.rangeTree ≠ []) : ¬ a.Fulfils want unit maxAllocSize := by
  have hsingle : ∃ f, a.allocateSingle 0 unit = .error f := by
    by_cases hne : a.rangeTree = []
    · refine ⟨.divByZero, ?_⟩
      unfold allocateSingle
      dsimp only
      rw [if_neg (by omega), if_neg (by omega), if_pos (hsome.resolve_right fun hn => hn hne)]
    · exact allocateSingle_zero_whole h hw hu₀ hne
  obtain ⟨f, hf⟩ := hsingle
  rintro ⟨r, extents, a', hcall, -⟩
  unfold allocate at hcall
  split at hcall
  · cases hcall
  split at hcall
  · cases hcall
  unfold allocateInner at hcall
  rw [hzero, allocateLoop, if_pos hwant₀, Nat.zero_min, hf] at hcall
  cases hcall

/-- A bound that is no multiple of the unit is the length of the first extent
when as much is wanted and one range has it. -/
theorem not_fulfils_cut (h : Holds a free) (hw : Whole unit free) (hu₀ : 0 < unit)
    (hd : unit ∣ 2 ^ 63) (hpos : 0 < a.maxExtent want maxAllocSize)
    (hcut : ¬ unit ∣ a.maxExtent want maxAllocSize) (hle : a.maxExtent want maxAllocSize ≤ want)
    {r : RangeSeg} (hr : r ∈ a.rangeTree) (hlen : a.maxExtent want maxAllocSize ≤ rangeLength r) :
    ¬ a.Fulfils want unit maxAllocSize := by
  have hlt := a.maxExtent_lt want maxAllocSize
  have hmax := h.length_le_maxSize hr
  obtain ⟨start, a₁, hsingle, -, -, hholds, -⟩ := @allocateSingle_whole a free
    (min (a.maxExtent want maxAllocSize) (want - 0)) unit hw hu₀ hd h (by omega) (List.ne_nil_of_mem hr)
  rw [show min (min (a.maxExtent want maxAllocSize) (want - 0)) a.maxSize =
    a.maxExtent want maxAllocSize by omega] at hsingle hholds
  obtain ⟨new, a', hloop, -⟩ := @allocateLoop_spec a₁ _ unit want _ hu₀ hd hpos hlt want
    (0 + a.maxExtent want maxAllocSize)
    ([] ++ [⟨start, a.maxExtent want maxAllocSize % 2 ^ 32⟩]) hholds
    (by omega) (by omega)
  rintro ⟨res, extents, a'', hcall, -, -, hall⟩
  unfold allocate at hcall
  split at hcall
  · cases hcall
  split at hcall
  · cases hcall
  unfold allocateInner at hcall
  rw [allocateLoop, if_pos (by omega), hsingle] at hcall
  change (allocateLoop want unit (a.maxExtent want maxAllocSize) want
    (0 + a.maxExtent want maxAllocSize)
    ([] ++ [⟨start, a.maxExtent want maxAllocSize % 2 ^ 32⟩]) a₁ >>= _) = _ at hcall
  rw [hloop] at hcall
  cases hcall
  have hfirst := (hall ⟨start, a.maxExtent want maxAllocSize % 2 ^ 32⟩ (by simp)).2.1
  rw [Nat.mod_eq_of_lt hlt] at hfirst
  exact hcut hfirst

/-- A power of two below 4 GiB that divides another divides 4 GiB less the
first only if the two are equal. -/
theorem dvd_cap_iff {block : Nat} (hu : isp2 unit = true) (hmul : block ∣ unit) (hb₀ : 0 < block)
    (hb : block < 2 ^ 32) : unit ∣ 2 ^ 32 - block ↔ unit = block := by
  obtain ⟨j, rfl⟩ := isp2_iff.mp hu
  obtain ⟨k, -, rfl⟩ := (Nat.dvd_prime_pow Nat.prime_two).mp hmul
  have hk : k < 32 := (Nat.pow_lt_pow_iff_right (by decide)).mp hb
  have hcap : 2 ^ k ∣ 2 ^ 32 := Nat.pow_dvd_pow 2 (by omega)
  constructor
  · intro hdvd
    have hle := Nat.le_of_dvd (by omega) hdvd
    have hj : j ≤ 32 := by
      by_contra hgt
      have := Nat.pow_le_pow_right (show 0 < 2 by decide) (show 32 ≤ j by omega)
      omega
    have hself : 2 ^ j ∣ 2 ^ k := by
      have := Nat.dvd_sub (Nat.pow_dvd_pow 2 hj) hdvd
      rwa [Nat.sub_sub_self hb.le] at this
    exact Nat.dvd_antisymm hself hmul
  · intro heq
    rw [heq]
    exact Nat.dvd_sub hcap dvd_rfl

/-- In every state reached whose ranges are made of whole units, a call for
whole units does what is asked, unless the cap on the length of an extent, cut
down to whole blocks only, comes into play. -/
theorem fulfils_iff {deviceSize blockSize endStart : Nat} (hdev : deviceSize < 2 ^ 63)
    (hblock : blockSize < 2 ^ 63) (hr : Reaches (create deviceSize blockSize endStart) a free)
    (hu : isp2 unit = true) (hu64 : unit < 2 ^ 64) (hmul : blockSize ∣ unit)
    (hranges : ∀ r ∈ a.rangeTree, unit ∣ r.start ∧ unit ∣ r.stop)
    (hwant₀ : 0 < want) (hwant : unit ∣ want) (hmax : unit ∣ maxAllocSize) :
    a.Fulfils want unit maxAllocSize ↔ ¬ a.Uneven want unit maxAllocSize := by
  obtain ⟨h, hsame⟩ := hr.holds (holds_create hdev blockSize endStart)
    (show blockSize < 2 ^ 64 by omega)
  have hbs : a.blockSize = blockSize := hsame.blockSize
  have hd := isp2_dvd hu hu64
  have hu₀ : 0 < unit := Nat.pos_of_dvd_of_pos hd (by decide)
  have hb₀ : 0 < a.blockSize := by
    rw [hbs]
    exact Nat.pos_of_dvd_of_pos hmul hu₀
  have hw : Whole unit free := by
    rw [← h.covers]
    exact whole_covered hu₀ hranges
  have hp2 : ∃ k, a.blockSize = 2 ^ k := by
    obtain ⟨j, hj⟩ := isp2_iff.mp hu
    rw [hbs]
    rw [hj] at hmul
    obtain ⟨k, -, hk⟩ := (Nat.dvd_prime_pow Nat.prime_two).mp hmul
    exact ⟨k, hk⟩
  rw [← hbs] at hmul hblock
  constructor
  · rintro hful ⟨hcap, hsmall, hlarge⟩
    by_cases hb : a.blockSize < 2 ^ 32
    · obtain ⟨hne, hwant32, r, hr, hlen⟩ := hsmall hb
      have hm := maxExtent_smallBlock hb₀ hb hcap
      refine not_fulfils_cut h hw hu₀ hd ?_ ?_ ?_ hr ?_ hful
      · rw [hm]
        omega
      · rw [hm, dvd_cap_iff hu hmul hb₀ hb]
        exact hne
      · rw [hm]
        omega
      · rw [hm]
        omega
    · have hb' : 2 ^ 32 ≤ a.blockSize := by omega
      exact not_fulfils_largeBlock h hw hu₀ hwant₀
        (maxExtent_largeBlock hb' (by omega) hp2 hcap) (hlarge hb') hful
  · intro hnot
    by_cases hcap : lengthCap ≤ if maxAllocSize = 0 then want else maxAllocSize
    · by_cases hb : a.blockSize < 2 ^ 32
      · have hm := maxExtent_smallBlock hb₀ hb hcap
        refine fulfils_of_cutsNoUnit h hw hu hu64 hwant (by rw [hm]; omega) ?_
        rw [hm]
        -- one of the three reasons for the cap to do no harm holds
        by_cases hne : unit = a.blockSize
        · exact Or.inl ((dvd_cap_iff hu hmul hb₀ hb).mpr hne)
        · by_cases hwant32 : 2 ^ 32 ≤ want + a.blockSize
          · refine Or.inr (Or.inr fun s hs => ?_)
            rw [← h.covers] at hs
            obtain ⟨r, hr, hle, hge⟩ := h.canonical.exists_of_run (by omega) hs
            refine hnot ⟨hcap, fun _ => ⟨hne, hwant32, r, hr, ?_⟩, fun hb' => by omega⟩
            unfold rangeLength
            omega
          · exact Or.inr (Or.inl (by omega))
      · have hb' : 2 ^ 32 ≤ a.blockSize := by omega
        have hneither : a.deviceSize ≠ 0 ∧ a.rangeTree = [] := by
          by_contra hsome
          refine hnot ⟨hcap, fun hlt => by omega, fun _ => ?_⟩
          tauto
        exact fulfils_of_empty h hu hu₀ hwant₀ hwant hneither.2 hneither.1
    · have hm := maxExtent_uncapped (a := a) hcap
      refine fulfils_of_cutsNoUnit h hw hu hu64 hwant ?_ ?_
      · rw [hm]
        split <;> omega
      · rw [hm]
        refine Or.inl ?_
        split
        · exact hwant
        · exact hmax

end Call

/-- A device of 8 GiB, all of it free. -/
def eightGiB : AvlAllocator :=
  { create (2 ^ 33) 4096 0 with
    rangeTree := [⟨0, 2 ^ 33⟩], rangeSizeTree := [⟨0, 2 ^ 33⟩], numFree := 2 ^ 33 }

theorem eightGiB_reached :
    Reaches (create (2 ^ 33) 4096 0) eightGiB (∅ ∪ Set.Ico 0 (0 + 2 ^ 33)) :=
  @Reaches.initAddFree _ _ _ ∅ 0 (2 ^ 33) .start (by decide) (by simp) rfl

theorem fulfils_iff_eightGiB :
    eightGiB.Fulfils (2 ^ 32) 65536 0 ↔ ¬ eightGiB.Uneven (2 ^ 32) 65536 0 :=
  fulfils_iff (by decide) (by decide) eightGiB_reached (by decide) (by decide) (by decide)
    (by decide) (by decide) (by decide) (by decide)

/-- 4 GiB in units of 64 KiB: the first extent is one block short of that. -/
theorem eightGiB_not_fulfils : (∃ free, Reaches (create (2 ^ 33) 4096 0) eightGiB free) ∧
    ¬ eightGiB.Fulfils (2 ^ 32) 65536 0 := by
  refine ⟨⟨_, eightGiB_reached⟩, ?_⟩
  have h : Holds eightGiB (∅ ∪ Set.Ico 0 (0 + 2 ^ 33)) :=
    (eightGiB_reached.holds (holds_create (by decide) 4096 0) (by decide)).1
  have hw : Whole 65536 (∅ ∪ Set.Ico 0 (0 + 2 ^ 33) : Set Nat) := by
    rw [Set.empty_union]
    exact whole_Ico (by decide) (by decide) (by decide)
  have hm : eightGiB.maxExtent (2 ^ 32) 0 = 2 ^ 32 - 4096 := by decide
  refine not_fulfils_cut h hw (by decide) (by decide) ?_ ?_ ?_
    (r := ⟨0, 2 ^ 33⟩) (List.mem_singleton.mpr rfl) ?_ <;> rw [hm] <;> decide

end AvlAllocator

end Clab.Blk
