import Clab.Blk.AvlTrees

/-!
# The AVL allocator refines a set of free bytes

The searches find only blocks of free bytes, so allocating takes disjoint
extents out of the set, and every run of calls keeps the trees and the set
together.
-/

namespace Clab.Blk

open Clab.Common Clab.RangeSet

namespace AvlAllocator

/-! ## Searching for a block -/

section Searching

variable {a : AvlAllocator} {free : Set Nat} {size unit : Nat}

/-- A block of `size` bytes at `offset`, aligned up from the start of a range of
`l`, seems to fit. -/
def Fits (l : List RangeSeg) (size align offset : Nat) : Prop :=
  ∃ r ∈ l, offset = p2roundup r.start align ∧ add64 offset size ≤ r.stop

theorem Fits.mono {l m : List RangeSeg} {align offset : Nat} (h : Fits l size align offset)
    (hsub : ∀ r ∈ l, r ∈ m) : Fits m size align offset := by
  obtain ⟨r, hr, hoff, hle⟩ := h
  exact ⟨r, hsub r hr, hoff, hle⟩

theorem scanAfter_found {align first c b offset : Nat} {l : List RangeSeg}
    (h : scanAfter size align first l c b = .found offset) : Fits l size align offset := by
  induction l generalizing c b with
  | nil => cases h
  | cons rs rest ih =>
      rw [scanAfter] at h
      split at h
      · rename_i hle
        cases h
        exact ⟨rs, by simp, rfl, hle⟩
      split at h
      · cases h
      dsimp only at h
      split at h
      · cases h
      · exact (ih h).mono (fun r hr => List.mem_cons_of_mem _ hr)

theorem scanBefore_some {align first b c offset : Nat} {l : List RangeSeg}
    (h : scanBefore size align first b l c = some offset) : Fits l size align offset := by
  induction l generalizing c with
  | nil => cases h
  | cons rs rest ih =>
      rw [scanBefore] at h
      split at h
      · rename_i hle
        cases h
        exact ⟨rs, by simp, rfl, hle⟩
      split at h
      · cases h
      split at h
      · cases h
      · exact (ih h).mono (fun r hr => List.mem_cons_of_mem _ hr)

theorem scanFits_some {align c offset : Nat} {l : List RangeSeg}
    (h : scanFits size align l c = some offset) : Fits l size align offset := by
  induction l generalizing c with
  | nil => cases h
  | cons rs rest ih =>
      rw [scanFits] at h
      split at h
      · cases h
      dsimp only at h
      split at h
      · rename_i hle
        cases h
        exact ⟨rs, by simp, rfl, hle⟩
      · exact (ih h).mono (fun r hr => List.mem_cons_of_mem _ hr)

theorem searchAfter_some {cursor align offset : Nat}
    (h : a.searchAfter cursor size align = some offset) :
    Fits a.rangeTree size align offset := by
  unfold searchAfter at h
  dsimp only at h
  split at h
  · rename_i hscan
    cases h
    exact (scanAfter_found hscan).mono fun _ hr => (List.dropWhile_sublist _).mem hr
  · cases h
  · split at h
    · cases h
    · exact (scanBefore_some h).mono fun _ hr => (List.takeWhile_sublist _).mem hr

theorem pickBlockFits_some {align offset : Nat} (h : a.pickBlockFits size align = some offset) :
    Fits a.rangeSizeTree size align offset :=
  (scanFits_some h).mono fun _ hr => (List.dropWhile_sublist _).mem hr

/-- A block that seems to fit does: nothing wraps around. -/
theorem Fits.bytes_free {align offset : Nat} (h : Holds a free) (hf : Fits a.rangeTree size align offset)
    (hsize : size < 2 ^ 63) (hu : 0 < align) (hd : align ∣ 2 ^ 63) :
    Set.Ico offset (offset + size) ⊆ free ∧ offset + size ≤ a.deviceSize := by
  obtain ⟨r, hr, rfl, hle⟩ := hf
  have hdev := h.device
  have hin := h.inside r hr
  have hne := h.canonical.nonempty r hr
  obtain ⟨hlow, hhigh⟩ := p2roundup_bounds (x := r.start) (by omega) hu hd
  rw [add64_of_lt (by omega)] at hle
  refine ⟨fun x hx => ?_, by omega⟩
  rw [← h.covers]
  exact ⟨r, hr, hlow.trans hx.1, hx.2.trans_le hle⟩

theorem Holds.withLbas (h : Holds a free) (f : Nat → Nat) : Holds { a with lbas := f } free :=
  ⟨h.canonical, ⟨h.tracks.same, h.tracks.bySize, h.tracks.numFree⟩, h.covers, h.inside,
    h.uncapped, h.device⟩

/-- The halving loop ends, with a block by size or with none. -/
theorem fitHalving_spec {n : Nat} (h : size < 2 ^ (n + 1)) (h₀ : 0 < size) (hu : 0 < unit) :
    ∃ block, a.fitHalving unit (n + 1) size = .ok block ∧ ∀ start len,
      block = some (start, len) → 0 < len ∧ len ≤ size ∧ Fits a.rangeSizeTree len unit start := by
  induction n generalizing size with
  | zero =>
      obtain rfl : size = 1 := by omega
      rw [fitHalving]
      cases hp : a.pickBlockFits 1 unit with
      | some offset =>
          refine ⟨_, rfl, fun start len heq => ?_⟩
          cases heq
          exact ⟨by decide, le_rfl, pickBlockFits_some hp⟩
      | none =>
          have hsmall : ¬ p2align (1 / 2) unit ≥ unit := by
            have := p2align_le (1 / 2) unit
            omega
          refine ⟨none, ?_, fun start len heq => by cases heq⟩
          exact if_neg hsmall
  | succ n ih =>
      rw [fitHalving]
      cases hp : a.pickBlockFits size unit with
      | some offset =>
          refine ⟨_, rfl, fun start len heq => ?_⟩
          cases heq
          exact ⟨h₀, le_rfl, pickBlockFits_some hp⟩
      | none =>
          have hle := p2align_le (size / 2) unit
          dsimp only
          split
          · rename_i hge
            obtain ⟨block, heq, hblock⟩ := @ih (p2align (size / 2) unit)
              (by rw [pow_succ] at h; omega) (by omega)
            refine ⟨block, heq, fun start len hsome => ?_⟩
            obtain ⟨hpos, hlen, hfits⟩ := hblock start len hsome
            exact ⟨hpos, by omega, hfits⟩
          · exact ⟨none, rfl, fun start len heq => by cases heq⟩

/-- Either search gives a block of free bytes or changes nothing. -/
theorem chooseBlock_spec (h : Holds a free) (h₀ : 0 < size) (hsize : size < 2 ^ 63)
    (hu : 0 < unit) (hd : unit ∣ 2 ^ 63) (bySize : Bool) :
    (∃ start len f, a.chooseBlock size unit bySize =
        .ok (some (start, len), { a with lbas := f }) ∧ 0 < len ∧ len ≤ size ∧
        Set.Ico start (start + len) ⊆ free ∧ start + len ≤ a.deviceSize) ∨
      a.chooseBlock size unit bySize = .ok (none, a) := by
  -- what the search by size gives
  have hfit : (∃ start len, a.fitHalving unit 64 size = .ok (some (start, len)) ∧ 0 < len ∧
      len ≤ size ∧ Set.Ico start (start + len) ⊆ free ∧ start + len ≤ a.deviceSize) ∨
      a.fitHalving unit 64 size = .ok none := by
    obtain ⟨block, heq, hblock⟩ := fitHalving_spec (a := a) (n := 63) (by omega) h₀ hu
    cases block with
    | none => exact .inr heq
    | some b =>
        obtain ⟨hpos, hlen, hfits⟩ := hblock b.1 b.2 rfl
        obtain ⟨hfree, hin⟩ := Fits.bytes_free h
          (hfits.mono fun r hr => h.tracks.same.mem_iff.mp hr) (by omega) hu hd
        exact .inl ⟨b.1, b.2, heq, hpos, hlen, hfree, hin⟩
  have hby : (∃ start len f, (do
        let block ← a.fitHalving unit 64 size
        .ok (block, a) : Except AvlFault _) = .ok (some (start, len), { a with lbas := f }) ∧
        0 < len ∧ len ≤ size ∧ Set.Ico start (start + len) ⊆ free ∧
        start + len ≤ a.deviceSize) ∨
      (do let block ← a.fitHalving unit 64 size
          .ok (block, a) : Except AvlFault _) = .ok (none, a) := by
    rcases hfit with ⟨start, len, heq, hrest⟩ | heq
    · exact .inl ⟨start, len, a.lbas, by rw [heq]; rfl, hrest⟩
    · exact .inr (by rw [heq]; rfl)
  unfold chooseBlock
  cases bySize with
  | true => exact hby
  | false =>
      rw [if_neg Bool.false_ne_true]
      dsimp only
      rw [if_neg (lowbit_ne_zero h₀ (by omega))]
      unfold pickBlockAfter
      cases hs : a.searchAfter (a.lbas (Nat.log2 (size &&& sub64 0 size))) size unit with
      | some offset =>
          obtain ⟨hfree, hin⟩ := Fits.bytes_free h (searchAfter_some hs) hsize hu hd
          exact .inl ⟨offset, size, _, rfl, h₀, le_rfl, hfree, hin⟩
      | none => exact hby

end Searching

/-! ## Allocating -/

/-- The bytes of an extent. -/
def extentBytes (e : PExtent) : Set Nat := Set.Ico e.offset (e.offset + e.length)

/-- The bytes of a list of extents. -/
def grantedBytes (extents : List PExtent) : Set Nat := {x | ∃ e ∈ extents, x ∈ extentBytes e}

/-- Non-empty and pairwise disjoint extents of free bytes. -/
structure Granted (free : Set Nat) (extents : List PExtent) : Prop where
  nonempty : ∀ e ∈ extents, 0 < e.length
  disjoint : extents.Pairwise fun e e' => Disjoint (extentBytes e) (extentBytes e')
  wasFree : grantedBytes extents ⊆ free

theorem grantedBytes_nil : grantedBytes [] = ∅ := by
  ext x
  simp [grantedBytes]

theorem grantedBytes_cons (e : PExtent) (extents : List PExtent) :
    grantedBytes (e :: extents) = extentBytes e ∪ grantedBytes extents := by
  ext x
  simp [grantedBytes]

theorem Granted.nil (free : Set Nat) : Granted free [] :=
  ⟨by simp, List.Pairwise.nil, by simp [grantedBytes_nil]⟩

theorem Granted.cons {free : Set Nat} {e : PExtent} {extents : List PExtent}
    (hpos : 0 < e.length) (he : extentBytes e ⊆ free) (h : Granted (free \ extentBytes e) extents) :
    Granted free (e :: extents) := by
  refine ⟨?_, List.pairwise_cons.mpr ⟨fun e' he' => ?_, h.disjoint⟩, ?_⟩
  · intro e' he'
    rcases List.mem_cons.mp he' with rfl | he'
    · exact hpos
    · exact h.nonempty e' he'
  · refine Set.disjoint_right.mpr fun x hx => ?_
    exact (h.wasFree ⟨e', he', hx⟩).2
  · rw [grantedBytes_cons]
    exact Set.union_subset he (h.wasFree.trans Set.sdiff_subset)

section Allocating

variable {a : AvlAllocator} {free : Set Nat} {size unit : Nat}

/-- `_allocate_single` takes one block of free bytes, or changes nothing. -/
theorem allocateSingle_spec (h : Holds a free) (h₀ : 0 < size) (hu : 0 < unit)
    (hd : unit ∣ 2 ^ 63) :
    (∃ start len a', a.allocateSingle size unit = .ok (some (start, len), a') ∧ 0 < len ∧
        len ≤ size ∧ Set.Ico start (start + len) ⊆ free ∧
        Holds a' (free \ Set.Ico start (start + len)) ∧ SameConfig a a') ∨
      a.allocateSingle size unit = .ok (none, a) := by
  have hmax : (a.rangeSizeTree.getLast?.map rangeLength).getD 0 ≤ a.deviceSize := by
    cases hlast : a.rangeSizeTree.getLast? with
    | none => exact Nat.zero_le _
    | some r =>
        have hr := h.tracks.same.mem_iff.mp (List.mem_of_getLast? hlast)
        have := h.inside r hr
        show r.stop - r.start ≤ a.deviceSize
        omega
  have hdev := h.device
  unfold allocateSingle
  dsimp only
  generalize (a.rangeSizeTree.getLast?.map rangeLength).getD 0 = maxSize at *
  split
  · exact .inr rfl
  rename_i hroom
  have halign := lt_p2align_add maxSize hu
  have hale := p2align_le maxSize unit
  have halign₀ : unit ≤ maxSize → 0 < p2align maxSize unit := by
    intro hle
    show 0 < maxSize / unit * unit
    exact Nat.mul_pos (Nat.div_pos hle hu) hu
  rw [if_neg (by split <;> omega), if_neg (by omega)]
  generalize hsz : (if maxSize < size then p2align maxSize unit else size) = sz
  have hszpos : 0 < sz ∧ sz ≤ size ∧ sz < 2 ^ 63 := by
    rw [← hsz]
    split
    · have := halign₀ (by omega)
      omega
    · omega
  rcases chooseBlock_spec h hszpos.1 hszpos.2.2 hu hd (decide (maxSize < size ∨
    maxSize < rangeSizeAllocThreshold ∨
      a.numFree * 100 % 2 ^ 64 / a.deviceSize < rangeSizeAllocFreePct)) with
    ⟨start, len, f, hchoose, hpos, hlen, hfree, hin⟩ | hchoose
  · obtain ⟨a', hrem, hholds, hsame⟩ := removeFromTree_spec (h.withLbas f) hpos hin hfree
    refine .inl ⟨start, len, a', ?_, hpos, by omega, hfree, hholds, ⟨hsame.deviceSize,
      hsame.blockSize, hsame.rangeCountCap⟩⟩
    rw [hchoose]
    show ({ a with lbas := f }.removeFromTree start len).bind _ = _
    rw [hrem]
    rfl
  · refine .inr ?_
    rw [hchoose]
    rfl

theorem chooseBlock_zero (a : AvlAllocator) (hu : 0 < unit) (bySize : Bool) :
    (∃ f, a.chooseBlock 0 unit bySize = .error f) ∨
      (∃ start, a.chooseBlock 0 unit bySize = .ok (some (start, 0), a)) ∨
      a.chooseBlock 0 unit bySize = .ok (none, a) := by
  cases bySize with
  | false => exact .inl ⟨.assertFail, rfl⟩
  | true =>
      unfold chooseBlock
      rw [if_pos rfl, fitHalving]
      cases a.pickBlockFits 0 unit with
      | some start => exact .inr (.inl ⟨start, rfl⟩)
      | none =>
          have hsmall : ¬ p2align (0 / 2) unit ≥ unit := by
            have := p2align_le (0 / 2) unit
            omega
          refine .inr (.inr ?_)
          dsimp only
          rw [if_neg hsmall]
          rfl

/-- Asked for nothing, `_allocate_single` fails in one way or another. -/
theorem allocateSingle_zero (a : AvlAllocator) (hu : 0 < unit) :
    (∃ f, a.allocateSingle 0 unit = .error f) ∨ a.allocateSingle 0 unit = .ok (none, a) := by
  have hchoose := a.chooseBlock_zero hu
  unfold allocateSingle
  simp only [Nat.not_lt_zero, false_and, false_or, if_false]
  split
  · exact .inl ⟨_, rfl⟩
  rcases hchoose (decide ((a.rangeSizeTree.getLast?.map rangeLength).getD 0 <
    rangeSizeAllocThreshold ∨ a.numFree * 100 % 2 ^ 64 / a.deviceSize < rangeSizeAllocFreePct))
    with ⟨f, heq⟩ | ⟨start, heq⟩ | heq
  · refine .inl ⟨f, ?_⟩
    rw [heq]
    rfl
  · refine .inl ⟨.assertFail, ?_⟩
    rw [heq]
    rfl
  · refine .inr ?_
    rw [heq]
    rfl

/-- The loop of `_allocate` ends and has taken the extents it added. -/
theorem allocateLoop_spec {want maxAllocSize : Nat} (hu : 0 < unit) (hd : unit ∣ 2 ^ 63)
    (hmax₀ : 0 < maxAllocSize) (hmax : maxAllocSize < 2 ^ 32) {n allocated : Nat}
    {extents : List PExtent} (h : Holds a free) (hle : allocated ≤ want)
    (hfuel : want < allocated + n) :
    ∃ new a', allocateLoop want unit maxAllocSize n allocated extents a =
        .ok (allocated + (new.map (·.length)).sum, extents ++ new, a') ∧
      Granted free new ∧ Holds a' (free \ grantedBytes new) ∧ SameConfig a a' ∧
      (new = [] → a' = a) ∧ allocated + (new.map (·.length)).sum ≤ want := by
  induction n generalizing allocated extents a free with
  | zero => omega
  | succ n ih =>
      have hstop : ∃ new a', Except.ok (allocated, extents, a) = (Except.ok
            (allocated + (new.map (·.length)).sum, extents ++ new, a') : Except AvlFault _) ∧
          Granted free new ∧ Holds a' (free \ grantedBytes new) ∧ SameConfig a a' ∧
          (new = [] → a' = a) ∧ allocated + (new.map (·.length)).sum ≤ want := by
        refine ⟨[], a, by simp, .nil free, ?_, .refl a, fun _ => rfl, by simpa using hle⟩
        rwa [grantedBytes_nil, Set.sdiff_empty]
      rw [allocateLoop]
      split
      · rename_i hlt
        have hask : 0 < min maxAllocSize (want - allocated) := by omega
        rcases allocateSingle_spec h hask hu hd
          with ⟨start, len, a₁, hsingle, hpos, hlen, hfree, hholds, hsame⟩ | hsingle
        · have hlen32 : len % 2 ^ 32 = len := Nat.mod_eq_of_lt (by omega)
          obtain ⟨new, a', hloop, hgranted, hholds', hsame', -, hle'⟩ :=
            @ih a₁ _ (allocated + len) (extents ++ [⟨start, len⟩]) hholds (by omega) (by omega)
          have hsum : allocated + (((⟨start, len⟩ : PExtent) :: new).map (·.length)).sum =
              allocated + len + (new.map (·.length)).sum := by
            rw [List.map_cons, List.sum_cons, Nat.add_assoc]
          refine ⟨⟨start, len⟩ :: new, a', ?_, .cons hpos hfree hgranted, ?_,
            hsame.trans hsame', fun hnil => (List.cons_ne_nil _ _ hnil).elim, ?_⟩
          · rw [hsingle, hsum]
            show allocateLoop want unit maxAllocSize n (allocated + len)
              (extents ++ [⟨start, len % 2 ^ 32⟩]) a₁ = _
            rw [hlen32, hloop, List.append_assoc]
            rfl
          · rw [grantedBytes_cons, ← Set.sdiff_sdiff]
            exact hholds'
          · rw [hsum]
            exact hle'
        · rw [hsingle]
          exact hstop
      · exact hstop

theorem maxExtent_lt (a : AvlAllocator) (want maxAllocSize : Nat) :
    a.maxExtent want maxAllocSize < 2 ^ 32 := by
  unfold maxExtent lengthCap
  dsimp only
  generalize (if maxAllocSize = 0 then want else maxAllocSize) = bound
  split
  · exact Nat.lt_succ_of_le Nat.and_le_left
  · omega

/-- Extents have some length unless the block size is a multiple of 4 GiB. -/
theorem maxExtent_pos {want : Nat} (maxAllocSize : Nat) (hw : 0 < want)
    (hb : a.blockSize < 2 ^ 64)
    (h : a.maxExtent want maxAllocSize = 0) :
    2 ^ 32 ∣ a.blockSize ∧ lengthCap ≤ if maxAllocSize = 0 then want else maxAllocSize := by
  have hbound : 0 < if maxAllocSize = 0 then want else maxAllocSize := by
    split <;> omega
  unfold maxExtent at h
  dsimp only at h
  generalize (if maxAllocSize = 0 then want else maxAllocSize) = bound at *
  split at h
  · rename_i hcap
    refine ⟨?_, hcap⟩
    rw [lengthCap, Nat.and_comm, Nat.and_two_pow_sub_one_eq_mod] at h
    unfold sub64 at h
    omega
  · omega

/-- What `allocate` promises: extents of free bytes, the sum of their lengths
and the bytes gone from the free set, or nothing at all. -/
structure AllocateSpec (a : AvlAllocator) (free : Set Nat) (want : Nat) (r : Int)
    (extents : List PExtent) (a' : AvlAllocator) : Prop where
  granted : Granted free extents
  holds : Holds a' (free \ grantedBytes extents)
  config : SameConfig a a'
  result : (r = -enospc ∧ extents = [] ∧ a' = a) ∨
    (0 < r ∧ r ≤ want ∧ r = (extents.map (·.length)).sum)

theorem AllocateSpec.refused (h : Holds a free) (want : Nat) :
    AllocateSpec a free want (-enospc) [] a := by
  refine ⟨.nil free, ?_, .refl a, .inl ⟨rfl, rfl, rfl⟩⟩
  rwa [grantedBytes_nil, Set.sdiff_empty]

/-- `allocate` does as promised, unless the block size is a multiple of 4 GiB
and an extent would be cut to length zero, which an assertion refuses. -/
theorem allocate_spec {want : Nat} (h : Holds a free) (hu : isp2 unit = true)
    (hu64 : unit < 2 ^ 64) (hmod : want % unit = 0) (maxAllocSize : Nat)
    (hb : a.blockSize < 2 ^ 64) :
    (∃ r extents a', a.allocate want unit maxAllocSize = .ok (r, extents, a') ∧
        AllocateSpec a free want r extents a') ∨
      ((∃ f, a.allocate want unit maxAllocSize = .error f) ∧ 2 ^ 32 ∣ a.blockSize ∧
        lengthCap ≤ if maxAllocSize = 0 then want else maxAllocSize) := by
  have hd := isp2_dvd hu hu64
  have hpos : 0 < unit := Nat.pos_of_dvd_of_pos hd (by decide)
  unfold allocate
  rw [hu]
  rw [if_neg (by decide), if_neg (fun hn => hn hmod)]
  rcases Nat.eq_zero_or_pos (a.maxExtent want maxAllocSize) with hz | hmax
  · rcases Nat.eq_zero_or_pos want with rfl | hw
    · exact .inl ⟨_, _, _, rfl, AllocateSpec.refused h 0⟩
    · unfold allocateInner
      rw [hz, allocateLoop, if_pos hw, Nat.zero_min]
      rcases a.allocateSingle_zero hpos with ⟨f, heq⟩ | heq
      · refine .inr ⟨⟨f, ?_⟩, maxExtent_pos maxAllocSize hw hb hz⟩
        rw [heq]
        rfl
      · refine .inl ⟨-enospc, [], a, ?_, AllocateSpec.refused h want⟩
        rw [heq]
        rfl
  · obtain ⟨new, a', hloop, hgranted, hholds, hsame, hnil, hle⟩ := allocateLoop_spec hpos hd hmax
      (a.maxExtent_lt want maxAllocSize) h (Nat.zero_le want) (Nat.lt_of_lt_of_eq
      (Nat.lt_succ_self want) (Nat.zero_add (want + 1)).symm)
    refine .inl ⟨if 0 + (new.map (·.length)).sum = 0 then -enospc
      else ((0 + (new.map (·.length)).sum : Nat) : Int), new, a', ?_, hgranted, hholds, hsame, ?_⟩
    · unfold allocateInner
      rw [hloop]
      rfl
    · rw [Nat.zero_add] at hle ⊢
      split
      · rename_i hsum
        -- no extent has length zero, so there is none
        cases new with
        | nil => exact .inl ⟨rfl, rfl, hnil rfl⟩
        | cons e rest =>
            have := hgranted.nonempty e (by simp)
            rw [List.map_cons, List.sum_cons] at hsum
            omega
      · exact .inr ⟨by omega, by omega, rfl⟩

end Allocating

/-! ## Freeing -/

section Freeing

variable {a : AvlAllocator} {free : Set Nat}

/-- The bytes of an interval set. -/
def intervalBytes (s : IntervalSet) : Set Nat := {x | ∃ p ∈ s, x ∈ Set.Ico p.1 (p.1 + p.2)}

/-- Non-empty, disjoint intervals of the device, as an `interval_set` keeps
them, none of whose bytes is free. -/
structure Releasable (a : AvlAllocator) (free : Set Nat) (s : IntervalSet) : Prop where
  nonempty : ∀ p ∈ s, 0 < p.2
  disjoint : s.Pairwise fun p q => Disjoint (Set.Ico p.1 (p.1 + p.2)) (Set.Ico q.1 (q.1 + q.2))
  inside : ∀ p ∈ s, p.1 + p.2 ≤ a.deviceSize
  notFree : Disjoint (intervalBytes s) free

theorem initAddFree_spec (h : Holds a free) {offset length : Nat}
    (hin : offset + length ≤ a.deviceSize)
    (hfree : Disjoint (Set.Ico offset (offset + length)) free) :
    ∃ a', a.initAddFree offset length = .ok a' ∧
      Holds a' (free ∪ Set.Ico offset (offset + length)) ∧ SameConfig a a' := by
  have hdev := h.device
  unfold initAddFree
  rcases Nat.eq_zero_or_pos length with rfl | hpos
  · refine ⟨a, rfl, ?_, .refl a⟩
    rwa [Nat.add_zero, Set.Ico_self, Set.union_empty]
  · rw [if_neg (by omega), add64_of_lt (by omega), if_neg (by omega)]
    exact addToTree_spec h hpos hin hfree

theorem initRmFree_spec (h : Holds a free) {offset length : Nat}
    (hin : offset + length ≤ a.deviceSize) (hfree : Set.Ico offset (offset + length) ⊆ free) :
    ∃ a', a.initRmFree offset length = .ok a' ∧
      Holds a' (free \ Set.Ico offset (offset + length)) ∧ SameConfig a a' := by
  have hdev := h.device
  unfold initRmFree
  rcases Nat.eq_zero_or_pos length with rfl | hpos
  · refine ⟨a, rfl, ?_, .refl a⟩
    rwa [Nat.add_zero, Set.Ico_self, Set.sdiff_empty]
  · rw [if_neg (by omega), add64_of_lt (by omega), if_neg (by omega)]
    obtain ⟨a', hrem, hholds, hsame⟩ := removeFromTree_spec h hpos hin hfree
    rw [hrem]
    exact ⟨a', rfl, hholds, hsame⟩

theorem release_spec {s : IntervalSet} (h : Holds a free) (hs : Releasable a free s) :
    ∃ a', a.release s = .ok a' ∧ Holds a' (free ∪ intervalBytes s) ∧ SameConfig a a' := by
  induction s generalizing a free with
  | nil =>
      refine ⟨a, rfl, ?_, .refl a⟩
      have hnone : intervalBytes [] = ∅ := by
        ext x
        simp [intervalBytes]
      rwa [hnone, Set.union_empty]
  | cons p rest ih =>
      have hdev := h.device
      have hin := hs.inside p (by simp)
      have hsplit : intervalBytes (p :: rest) = Set.Ico p.1 (p.1 + p.2) ∪ intervalBytes rest := by
        ext x
        simp [intervalBytes]
      have hnot := hs.notFree
      rw [hsplit, Set.disjoint_union_left] at hnot
      obtain ⟨hx, hpair⟩ := List.pairwise_cons.mp hs.disjoint
      obtain ⟨a₁, hadd, hholds, hsame⟩ := addToTree_spec h (hs.nonempty p (by simp)) hin hnot.1
      have hrest : Releasable a₁ (free ∪ Set.Ico p.1 (p.1 + p.2)) rest := by
        refine ⟨fun q hq => hs.nonempty q (by simp [hq]), hpair, fun q hq => ?_, ?_⟩
        · rw [hsame.deviceSize]
          exact hs.inside q (by simp [hq])
        · refine Set.disjoint_union_right.mpr ⟨hnot.2, Set.disjoint_left.mpr ?_⟩
          rintro x ⟨q, hq, hxq⟩ hxp
          exact Set.disjoint_left.mp (hx q hq) hxp hxq
      obtain ⟨a', hrel, hholds', hsame'⟩ := ih hholds hrest
      refine ⟨a', ?_, ?_, hsame.trans hsame'⟩
      · rw [release, if_neg (by rw [add64_of_lt (by omega)]; omega), hadd]
        exact hrel
      · rwa [hsplit, ← Set.union_assoc]

end Freeing

/-! ## Runs -/

/-- The constructor. `endStart` is what memory holds behind the tree. -/
def create (deviceSize blockSize endStart : Nat) : AvlAllocator :=
  { deviceSize, blockSize, endStart }

/-- The states that calls lead to from `a₀`, each with the set it stands for:
ranges added or released were not free, ranges removed were, and the unit of an
allocation is a power of two that divides what is wanted. The memory behind the
tree may change between calls. -/
inductive Reaches (a₀ : AvlAllocator) : AvlAllocator → Set Nat → Prop
  | start : Reaches a₀ a₀ ∅
  | memory {a : AvlAllocator} {free : Set Nat} (value : Nat) :
      Reaches a₀ a free → Reaches a₀ { a with endStart := value } free
  | initAddFree {a a' : AvlAllocator} {free : Set Nat} {offset length : Nat} :
      Reaches a₀ a free → offset + length ≤ a.deviceSize →
      Disjoint (Set.Ico offset (offset + length)) free → a.initAddFree offset length = .ok a' →
      Reaches a₀ a' (free ∪ Set.Ico offset (offset + length))
  | release {a a' : AvlAllocator} {free : Set Nat} {s : IntervalSet} :
      Reaches a₀ a free → Releasable a free s → a.release s = .ok a' →
      Reaches a₀ a' (free ∪ intervalBytes s)
  | initRmFree {a a' : AvlAllocator} {free : Set Nat} {offset length : Nat} :
      Reaches a₀ a free → offset + length ≤ a.deviceSize →
      Set.Ico offset (offset + length) ⊆ free → a.initRmFree offset length = .ok a' →
      Reaches a₀ a' (free \ Set.Ico offset (offset + length))
  | allocate {a a' : AvlAllocator} {free : Set Nat} {want unit maxAllocSize : Nat} {r : Int}
      {extents : List PExtent} :
      Reaches a₀ a free → isp2 unit = true → unit < 2 ^ 64 → want % unit = 0 →
      a.allocate want unit maxAllocSize = .ok (r, extents, a') →
      Reaches a₀ a' (free \ grantedBytes extents)

theorem holds_create {deviceSize : Nat} (h : deviceSize < 2 ^ 63) (blockSize endStart : Nat) :
    Holds (create deviceSize blockSize endStart) ∅ :=
  ⟨.nil, ⟨.refl _, .nil, rfl⟩, covered_nil, by simp [create], rfl, h⟩

/-- Every state reached stands for its set. -/
theorem Reaches.holds {a₀ a : AvlAllocator} {free : Set Nat} (h : Reaches a₀ a free)
    (h₀ : Holds a₀ ∅) (hb : a₀.blockSize < 2 ^ 64) : Holds a free ∧ SameConfig a₀ a := by
  induction h with
  | start => exact ⟨h₀, .refl a₀⟩
  | memory value _ ih =>
      have hold := ih.1
      exact ⟨⟨hold.canonical, ⟨hold.tracks.same, hold.tracks.bySize, hold.tracks.numFree⟩,
        hold.covers, hold.inside, hold.uncapped, hold.device⟩, ih.2.trans ⟨rfl, rfl, rfl⟩⟩
  | initAddFree _ hin hfree hop ih =>
      obtain ⟨a', heq, hholds, hsame⟩ := initAddFree_spec ih.1 hin hfree
      cases hop.symm.trans heq
      exact ⟨hholds, ih.2.trans hsame⟩
  | release _ hs hop ih =>
      obtain ⟨a', heq, hholds, hsame⟩ := release_spec ih.1 hs
      cases hop.symm.trans heq
      exact ⟨hholds, ih.2.trans hsame⟩
  | initRmFree _ hin hfree hop ih =>
      obtain ⟨a', heq, hholds, hsame⟩ := initRmFree_spec ih.1 hin hfree
      cases hop.symm.trans heq
      exact ⟨hholds, ih.2.trans hsame⟩
  | allocate _ hu hu64 hmod hop ih =>
      rename_i maxAllocSize _ _ _
      rcases allocate_spec ih.1 hu hu64 hmod maxAllocSize (ih.2.blockSize ▸ hb) with
        ⟨r, extents, a', heq, hspec⟩ | ⟨⟨f, heq⟩, -⟩
      · cases hop.symm.trans heq
        exact ⟨hspec.holds, ih.2.trans hspec.config⟩
      · cases hop.symm.trans heq

/-- In every state that calls lead to, the trees describe the free set, and each
further call acts on it as union, as difference, or by handing out extents. -/
theorem avl_refines_free_set {deviceSize blockSize : Nat} (hdev : deviceSize < 2 ^ 63)
    (hblock : blockSize < 2 ^ 63) (endStart : Nat) {a : AvlAllocator} {free : Set Nat}
    (h : Reaches (create deviceSize blockSize endStart) a free) :
    (Canonical a.rangeTree ∧ a.rangeSizeTree.Perm a.rangeTree ∧
      a.numFree = (a.rangeTree.map rangeLength).sum ∧ covered a.rangeTree = free) ∧
    (∀ offset length, offset + length ≤ deviceSize →
      Disjoint (Set.Ico offset (offset + length)) free →
      ∃ a', a.initAddFree offset length = .ok a' ∧
        Holds a' (free ∪ Set.Ico offset (offset + length))) ∧
    (∀ s, Releasable a free s →
      ∃ a', a.release s = .ok a' ∧ Holds a' (free ∪ intervalBytes s)) ∧
    (∀ offset length, offset + length ≤ deviceSize →
      Set.Ico offset (offset + length) ⊆ free →
      ∃ a', a.initRmFree offset length = .ok a' ∧
        Holds a' (free \ Set.Ico offset (offset + length))) ∧
    ∀ want unit maxAllocSize, isp2 unit = true → unit < 2 ^ 64 → want % unit = 0 →
      (∃ r extents a', a.allocate want unit maxAllocSize = .ok (r, extents, a') ∧
        AllocateSpec a free want r extents a') ∨
      ((∃ f, a.allocate want unit maxAllocSize = .error f) ∧ 2 ^ 32 ∣ blockSize ∧
        lengthCap ≤ if maxAllocSize = 0 then want else maxAllocSize) := by
  obtain ⟨hholds, hsame⟩ := h.holds (holds_create hdev blockSize endStart)
    (show blockSize < 2 ^ 64 by omega)
  have hsize : a.deviceSize = deviceSize := hsame.deviceSize
  have hblk : a.blockSize = blockSize := hsame.blockSize
  refine ⟨⟨hholds.canonical, hholds.tracks.same, hholds.tracks.numFree, hholds.covers⟩,
    fun offset length hin hfree => ?_, fun s hs => ?_, fun offset length hin hfree => ?_,
    fun want unit maxAllocSize hu hu64 hmod => ?_⟩
  · obtain ⟨a', heq, hspec, -⟩ := initAddFree_spec hholds (hsize ▸ hin) hfree
    exact ⟨a', heq, hspec⟩
  · obtain ⟨a', heq, hspec, -⟩ := release_spec hholds hs
    exact ⟨a', heq, hspec⟩
  · obtain ⟨a', heq, hspec, -⟩ := initRmFree_spec hholds (hsize ▸ hin) hfree
    exact ⟨a', heq, hspec⟩
  · rw [← hblk]
    exact allocate_spec hholds hu hu64 hmod maxAllocSize (by omega)

/-- A device of 1 MiB with its first 64 KiB free. -/
def someFree : AvlAllocator :=
  { create 1048576 4096 0 with
    rangeTree := [⟨0, 65536⟩], rangeSizeTree := [⟨0, 65536⟩], numFree := 65536 }

theorem avl_refines_free_set_someFree : ∃ r extents a',
    someFree.allocate 8192 4096 0 = .ok (r, extents, a') ∧
      AllocateSpec someFree (∅ ∪ Set.Ico 0 65536) 8192 r extents a' := by
  have hreach : Reaches (create 1048576 4096 0) someFree (∅ ∪ Set.Ico 0 (0 + 65536)) :=
    @Reaches.initAddFree _ _ _ ∅ 0 65536 .start (by decide) (by simp) rfl
  obtain ⟨-, -, -, -, hallocate⟩ := avl_refines_free_set (by decide) (by decide) 0 hreach
  rcases hallocate 8192 4096 0 (by decide) (by decide) (by decide) with hok | ⟨-, hblock, -⟩
  · exact hok
  · exact absurd hblock (by decide)

end AvlAllocator

end Clab.Blk
