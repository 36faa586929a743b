import Clab.Blk.AvlRefinement

/-!
# The searches of the AVL allocator, read by read

`_pick_block_after` keeps the iterator its first loop starts from and reads
the node behind it in both loops. Here that read is a step that fails when the
iterator is the end of the tree, so that a search that returns has read nodes
of the tree only.
-/

namespace Clab.Blk

open Clab.Common Clab.RangeSet

namespace AvlAllocator

/-- Reading a node through the end iterator of `range_tree_`. -/
inductive TreeFault
  | endRead
  deriving DecidableEq, Repr

/-- `rs->start`; `none` is the end iterator. -/
def readStart : Option RangeSeg → Except TreeFault Nat
  | some rs => .ok rs.start
  | none => .error .endRead

/-- The first loop of `_pick_block_after`. -/
def scanAfterReads (size align : Nat) (rsStart : Option RangeSeg) :
    List RangeSeg → Nat → Nat → Except TreeFault Scan
  | [], searchCount, searchBytes => .ok (.atEnd searchCount searchBytes)
  | rs :: rest, searchCount, _ => do
      let offset := p2roundup rs.start align
      if add64 offset size ≤ rs.stop then return .found offset
      else if searchCount + 1 > maxSearchCount then return .giveUp
      else
        let startOfFirst ← readStart rsStart
        let searchBytes := sub64 rs.start startOfFirst
        if searchBytes > maxSearchBytes then return .giveUp
        else scanAfterReads size align rsStart rest (searchCount + 1) searchBytes

/-- The second loop of `_pick_block_after`. -/
def scanBeforeReads (size align : Nat) (rsStart : Option RangeSeg) (searchBytes : Nat) :
    List RangeSeg → Nat → Except TreeFault (Option Nat)
  | [], _ => .ok none
  | rs :: rest, searchCount => do
      let offset := p2roundup rs.start align
      if add64 offset size ≤ rs.stop then return some offset
      else if searchCount + 1 > maxSearchCount then return none
      else
        let startOfFirst ← readStart rsStart
        if add64 searchBytes (sub64 startOfFirst rs.start) > maxSearchBytes then return none
        else scanBeforeReads size align rsStart searchBytes rest (searchCount + 1)

/-- `_pick_block_after`: what it returns, and `*cursor` afterwards. -/
def pickBlockAfterReads (a : AvlAllocator) (cursor size align : Nat) :
    Except TreeFault (Option Nat × Nat) := do
  let before := a.rangeTree.takeWhile fun r => decide (r.stop ≤ cursor)
  let after := a.rangeTree.dropWhile fun r => decide (r.stop ≤ cursor)
  match ← scanAfterReads size align after.head? after 0 0 with
  | .found offset => return (some offset, add64 offset size)
  | .giveUp => return (none, cursor)
  | .atEnd searchCount searchBytes =>
      if cursor = 0 then return (none, cursor)
      else
        match ← scanBeforeReads size align after.head? searchBytes before searchCount with
        | some offset => return (some offset, add64 offset size)
        | none => return (none, cursor)

/-! ## The two accounts of one search -/

section Reads

variable {a : AvlAllocator} {size align : Nat}

theorem readStart_bind {α : Type} (r : RangeSeg) (f : Nat → Except TreeFault α) :
    (readStart (some r) >>= f) = f r.start := rfl

theorem scanAfterReads_some (r : RangeSeg) (l : List RangeSeg) (c b : Nat) :
    scanAfterReads size align (some r) l c b = .ok (scanAfter size align r.start l c b) := by
  induction l generalizing c b with
  | nil => rfl
  | cons rs rest ih =>
      rw [scanAfterReads, scanAfter]
      dsimp only
      split
      · rfl
      split
      · rfl
      rw [readStart_bind]
      split
      · rfl
      · exact ih _ _

theorem scanBeforeReads_some (r : RangeSeg) (b : Nat) (l : List RangeSeg) (c : Nat) :
    scanBeforeReads size align (some r) b l c = .ok (scanBefore size align r.start b l c) := by
  induction l generalizing c with
  | nil => rfl
  | cons rs rest ih =>
      rw [scanBeforeReads, scanBefore]
      split
      · rfl
      split
      · rfl
      rw [readStart_bind]
      split
      · rfl
      · exact ih _

/-- From the end of the tree the second loop tries the first range, and fails
when it has to go on. -/
theorem scanBeforeReads_end (b : Nat) (rs : RangeSeg) (rest : List RangeSeg) :
    scanBeforeReads size align none b (rs :: rest) 0 =
      if add64 (p2roundup rs.start align) size ≤ rs.stop
      then .ok (some (p2roundup rs.start align)) else .error .endRead := by
  rw [scanBeforeReads]
  split
  · rfl
  · rw [if_neg (show ¬ 0 + 1 > maxSearchCount by decide)]
    rfl

/-- What `_pick_block_after` finds, with the cursor after it. -/
def pickResult (cursor size : Nat) : Option Nat → Option Nat × Nat
  | some offset => (some offset, add64 offset size)
  | none => (none, cursor)

/-- The search starts at the end of the tree, and has to pass the first range. -/
def StartsAtEnd (a : AvlAllocator) (cursor size align : Nat) : Prop :=
  cursor ≠ 0 ∧ (∀ r ∈ a.rangeTree, r.stop ≤ cursor) ∧
    ∃ r, a.rangeTree.head? = some r ∧ r.stop < p2roundup r.start align + size

/-- Started inside the tree, the search reads only nodes of the tree. -/
theorem pickBlockAfterReads_inside {cursor : Nat} {r : RangeSeg}
    (h : (a.rangeTree.dropWhile fun r => decide (r.stop ≤ cursor)).head? = some r) :
    a.pickBlockAfterReads cursor size align =
      .ok (pickResult cursor size (a.searchAfter cursor size align)) := by
  unfold pickBlockAfterReads searchAfter
  dsimp only
  rw [h, scanAfterReads_some]
  show (match scanAfter size align r.start _ 0 0 with
    | .found offset => _ | .giveUp => _ | .atEnd _ _ => _) = _
  rw [Option.map_some, Option.getD_some]
  cases scanAfter size align r.start _ 0 0 with
  | found offset => rfl
  | giveUp => rfl
  | atEnd c b =>
      dsimp only
      split
      · rfl
      · rw [scanBeforeReads_some]
        show (match scanBefore size align r.start b _ c with
          | some offset => _ | none => _) = _
        cases scanBefore size align r.start b _ c <;> rfl

/-- Started at the end of the tree, it tries the first range at most. -/
theorem pickBlockAfterReads_end {cursor : Nat}
    (h : ∀ r ∈ a.rangeTree, r.stop ≤ cursor) :
    a.pickBlockAfterReads cursor size align =
      if cursor = 0 then .ok (none, cursor)
      else match a.rangeTree with
      | [] => .ok (none, cursor)
      | r :: _ => if add64 (p2roundup r.start align) size ≤ r.stop
          then .ok (some (p2roundup r.start align), add64 (p2roundup r.start align) size)
          else .error .endRead := by
  have hall : ∀ r ∈ a.rangeTree, decide (r.stop ≤ cursor) = true :=
    fun r hr => decide_eq_true (h r hr)
  unfold pickBlockAfterReads
  dsimp only
  rw [List.dropWhile_eq_nil_iff.mpr hall, List.takeWhile_eq_self_iff.mpr hall]
  show (if cursor = 0 then _ else _) = _
  split
  · rfl
  · cases a.rangeTree with
    | nil => rfl
    | cons r rest =>
        show (scanBeforeReads size align none 0 (r :: rest) 0).bind _ = _
        rw [scanBeforeReads_end]
        dsimp only
        split <;> rfl

/-- A search that returns is the one of `pickBlockAfter`, whatever memory holds
behind the tree. -/
theorem pickBlockAfter_of_reads {i : Nat} {block : Option Nat} {cursor : Nat}
    (h : a.pickBlockAfterReads (a.lbas i) size align = .ok (block, cursor)) :
    a.pickBlockAfter i size align = (block, { a with lbas := Function.update a.lbas i cursor }) := by
  have hresult : (block, cursor) = pickResult (a.lbas i) size (a.searchAfter (a.lbas i) size align) := by
    cases hhead : (a.rangeTree.dropWhile fun r => decide (r.stop ≤ a.lbas i)).head? with
    | some r =>
        rw [pickBlockAfterReads_inside hhead] at h
        exact (Except.ok.inj h).symm
    | none =>
        have hnil := List.head?_eq_none_iff.mp hhead
        have hall : ∀ r ∈ a.rangeTree, decide (r.stop ≤ a.lbas i) = true :=
          List.dropWhile_eq_nil_iff.mp hnil
        rw [pickBlockAfterReads_end fun r hr => of_decide_eq_true (hall r hr)] at h
        unfold searchAfter
        dsimp only
        rw [hnil, List.takeWhile_eq_self_iff.mpr hall]
        show _ = pickResult _ _ (if a.lbas i = 0 then none else _)
        split at h
        · rename_i hzero
          rw [if_pos hzero]
          exact (Except.ok.inj h).symm
        · rename_i hzero
          rw [if_neg hzero]
          cases htree : a.rangeTree with
          | nil =>
              rw [htree] at h
              exact (Except.ok.inj h).symm
          | cons r rest =>
              rw [htree] at h
              dsimp only at h
              rw [scanBefore]
              split at h
              · rename_i hfits
                rw [if_pos hfits]
                exact (Except.ok.inj h).symm
              · cases h
  unfold pickBlockAfter
  cases hs : a.searchAfter (a.lbas i) size align with
  | some offset =>
      rw [hs] at hresult
      cases hresult
      rfl
  | none =>
      rw [hs] at hresult
      cases hresult
      rw [Function.update_eq_self]

end Reads

/-! ## Blocks found -/

section Safety

variable {a : AvlAllocator} {free : Set Nat} {size align : Nat}

/-- `offset` begins an aligned block of `size` bytes inside one free range. -/
def BlockAt (a : AvlAllocator) (size align offset : Nat) : Prop :=
  align ∣ offset ∧ ∃ r ∈ a.rangeTree, r.start ≤ offset ∧ offset + size ≤ r.stop

/-- Both searches read nodes of the tree only and return, with an aligned block
of one free range or with none; a block found after the cursor moves the cursor
behind it. -/
structure SearchSafe (a : AvlAllocator) (cursor size align : Nat) : Prop where
  after : ∃ block cursor', a.pickBlockAfterReads cursor size align = .ok (block, cursor') ∧
    ((block = none ∧ cursor' = cursor) ∨
      ∃ offset, block = some offset ∧ BlockAt a size align offset ∧ cursor' = offset + size)
  fits : ∀ offset, a.pickBlockFits size align = some offset → BlockAt a size align offset

/-- The start of a range of the device rounds up without wrapping around. -/
theorem roundup_range (h : Holds a free) (hu : 0 < align) (hd : align ∣ 2 ^ 63) {r : RangeSeg}
    (hr : r ∈ a.rangeTree) : r.start ≤ p2roundup r.start align ∧
      p2roundup r.start align ≤ 2 ^ 63 := by
  have hdev := h.device
  have hin := h.inside r hr
  have hne := h.canonical.nonempty r hr
  exact p2roundup_bounds (by omega) hu hd

theorem Fits.blockAt (h : Holds a free) (hsize : size < 2 ^ 63) (hu : 0 < align)
    (hd : align ∣ 2 ^ 63) {offset : Nat} (hf : Fits a.rangeTree size align offset) :
    BlockAt a size align offset ∧ add64 offset size = offset + size := by
  obtain ⟨r, hr, rfl, hle⟩ := hf
  obtain ⟨hlow, hhigh⟩ := roundup_range h hu hd hr
  have hadd : add64 (p2roundup r.start align) size = p2roundup r.start align + size :=
    add64_of_lt (by omega)
  rw [hadd] at hle
  exact ⟨⟨p2roundup_dvd hd, r, hr, hlow, hle⟩, hadd⟩

/-- The search by size never goes wrong. -/
theorem pickBlockFits_blockAt (h : Holds a free) (hsize : size < 2 ^ 63) (hu : 0 < align)
    (hd : align ∣ 2 ^ 63) {offset : Nat} (hp : a.pickBlockFits size align = some offset) :
    BlockAt a size align offset :=
  (((pickBlockFits_some hp).mono fun _ hr => h.tracks.same.mem_iff.mp hr).blockAt h hsize hu hd).1

/-- The result of a search that starts inside the tree. -/
theorem searchSafe_inside (h : Holds a free) (hsize : size < 2 ^ 63) (hu : 0 < align)
    (hd : align ∣ 2 ^ 63) {cursor : Nat} {r : RangeSeg}
    (hhead : (a.rangeTree.dropWhile fun r => decide (r.stop ≤ cursor)).head? = some r) :
    SearchSafe a cursor size align := by
  refine ⟨?_, fun offset hp => pickBlockFits_blockAt h hsize hu hd hp⟩
  rw [pickBlockAfterReads_inside hhead]
  cases hs : a.searchAfter cursor size align with
  | none => exact ⟨none, cursor, rfl, Or.inl ⟨rfl, rfl⟩⟩
  | some offset =>
      obtain ⟨hblock, hadd⟩ := (searchAfter_some hs).blockAt h hsize hu hd
      exact ⟨some offset, _, rfl, Or.inr ⟨offset, rfl, hblock, hadd⟩⟩

/-- A search that starts at the end and has to pass the first range reads
through the end iterator. -/
theorem StartsAtEnd.not_searchSafe (h : Holds a free) (hsize : size < 2 ^ 63) (hu : 0 < align)
    (hd : align ∣ 2 ^ 63) {cursor : Nat} (he : StartsAtEnd a cursor size align) :
    ¬ SearchSafe a cursor size align := by
  obtain ⟨hzero, hall, r, hhead, hlt⟩ := he
  rintro ⟨⟨block, cursor', hret, -⟩, -⟩
  obtain ⟨rest, htree⟩ := List.head?_eq_some_iff.mp hhead
  obtain ⟨-, hhigh⟩ := roundup_range h hu hd (r := r) (by rw [htree]; exact List.mem_cons_self)
  rw [pickBlockAfterReads_end hall, if_neg hzero, htree] at hret
  dsimp only at hret
  rw [if_neg] at hret
  · cases hret
  · rw [add64_of_lt (by omega)]
    omega

/-- The searches are safe except from a cursor past every free range when the
first range has no aligned block of the size. The caller asks for no more than
the length of a range, so `size` is far from 64 bits. -/
theorem searchSafe_iff {deviceSize blockSize endStart : Nat} (hdev : deviceSize < 2 ^ 63)
    (hblock : blockSize < 2 ^ 63)
    (hr : Reaches (create deviceSize blockSize endStart) a free) (cursor : Nat)
    (hsize : size < 2 ^ 63) (halign : isp2 align = true) (halign64 : align < 2 ^ 64) :
    SearchSafe a cursor size align ↔ ¬ StartsAtEnd a cursor size align := by
  have h : Holds a free :=
    (hr.holds (holds_create hdev blockSize endStart) (show blockSize < 2 ^ 64 by omega)).1
  have hd := isp2_dvd halign halign64
  have hu : 0 < align := Nat.pos_of_dvd_of_pos hd (by decide)
  constructor
  · intro hsafe he
    exact he.not_searchSafe h hsize hu hd hsafe
  · intro hnot
    cases hhead : (a.rangeTree.dropWhile fun r => decide (r.stop ≤ cursor)).head? with
    | some r => exact searchSafe_inside h hsize hu hd hhead
    | none =>
        have hnil := List.head?_eq_none_iff.mp hhead
        have hall : ∀ r ∈ a.rangeTree, r.stop ≤ cursor :=
          fun r hr => of_decide_eq_true (List.dropWhile_eq_nil_iff.mp hnil r hr)
        refine ⟨?_, fun offset hp => pickBlockFits_blockAt h hsize hu hd hp⟩
        rw [pickBlockAfterReads_end hall]
        split
        · exact ⟨none, cursor, rfl, Or.inl ⟨rfl, rfl⟩⟩
        · rename_i hzero
          cases htree : a.rangeTree with
          | nil => exact ⟨none, cursor, rfl, Or.inl ⟨rfl, rfl⟩⟩
          | cons r rest =>
              have hmem : r ∈ a.rangeTree := by
                rw [htree]
                exact List.mem_cons_self
              obtain ⟨-, hhigh⟩ := roundup_range h hu hd hmem
              -- the first range must take the block, or the search would go on
              have hfits : add64 (p2roundup r.start align) size ≤ r.stop := by
                by_contra hgt
                rw [add64_of_lt (by omega)] at hgt
                exact hnot ⟨hzero, hall, r, by rw [htree]; rfl, by omega⟩
              obtain ⟨hblock, hadd⟩ := Fits.blockAt h hsize hu hd ⟨r, hmem, rfl, hfits⟩
              dsimp only
              rw [if_pos hfits]
              exact ⟨_, _, rfl, Or.inr ⟨_, rfl, hblock, hadd⟩⟩

end Safety

/-- A device of 224 blocks, all of it in one extent, the cursor of that extent
behind it. -/
def allTaken : AvlAllocator :=
  { create 917504 4096 0 with lbas := Function.update (fun _ => 0) 17 917504 }

/-- The same with two ranges released, the first one the shorter. -/
def twoReleased : AvlAllocator :=
  { allTaken with
    rangeTree := [⟨0, 65536⟩, ⟨131072, 393216⟩]
    rangeSizeTree := [⟨0, 65536⟩, ⟨131072, 393216⟩]
    numFree := 327680 }

theorem twoReleased_reached : ∃ free, Reaches (create 917504 4096 0) twoReleased free := by
  have hfree : Reaches (create 917504 4096 0)
      { create 917504 4096 0 with
        rangeTree := [⟨0, 917504⟩], rangeSizeTree := [⟨0, 917504⟩], numFree := 917504 }
      (∅ ∪ Set.Ico 0 (0 + 917504)) :=
    @Reaches.initAddFree _ _ _ ∅ 0 917504 .start (by decide) (by simp) rfl
  have htaken : Reaches (create 917504 4096 0) allTaken
      ((∅ ∪ Set.Ico 0 (0 + 917504)) \ grantedBytes [⟨0, 917504⟩]) :=
    @Reaches.allocate _ _ _ _ 917504 4096 0 917504 _ hfree (by decide) (by decide) (by decide) rfl
  refine ⟨_, @Reaches.release _ _ twoReleased _ [(0, 65536), (131072, 262144)] htaken ?_ rfl⟩
  refine ⟨by decide, ?_, by decide, ?_⟩
  · simp [Set.disjoint_left]
    omega
  · refine Set.disjoint_left.mpr ?_
    rintro x - ⟨hx, hnot⟩
    apply hnot
    rw [grantedBytes_cons, grantedBytes_nil, Set.union_empty]
    simpa [extentBytes] using hx

theorem searchSafe_iff_twoReleased :
    SearchSafe twoReleased 0 131072 4096 ↔ ¬ StartsAtEnd twoReleased 0 131072 4096 := by
  obtain ⟨free, hreach⟩ := twoReleased_reached
  exact searchSafe_iff (by decide) (by decide) hreach 0 (by decide) (by decide) (by decide)

/-- From the cursor that the extent left behind, the search for 128 KiB reads
through the end iterator. -/
theorem twoReleased_not_searchSafe :
    (∃ free, Reaches (create 917504 4096 0) twoReleased free) ∧
      ¬ SearchSafe twoReleased (twoReleased.lbas 17) 131072 4096 := by
  refine ⟨twoReleased_reached, ?_⟩
  rintro ⟨⟨block, cursor', hret, -⟩, -⟩
  have hfault : twoReleased.pickBlockAfterReads (twoReleased.lbas 17) 131072 4096 =
      .error .endRead := rfl
  rw [hfault] at hret
  cases hret

end AvlAllocator

end Clab.Blk
