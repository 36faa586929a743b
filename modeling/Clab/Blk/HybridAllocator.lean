import Clab.Blk.AvlCompleteness
import Clab.Blk.BitmapClaim

/-!
# The hybrid allocator

An AVL allocator with a cap on the number of its ranges and a bitmap allocator
for what does not fit under the cap. A range that is added takes the bitmap's
free runs on both sides along, so that the two never hold touching space for
long. What the AVL part spills goes to the bitmap, in the order of the calls of
`_spillover_range`; the AVL part does not look at the bitmap meanwhile.
-/

namespace Clab.Blk

open Clab.Common Clab.RangeSet Clab.WordBits

/-- How a call of either part can fail to return. -/
inductive HybridFault
  | avl (f : AvlFault)
  | child (f : Fault)
  deriving DecidableEq, Repr

/-- `HybridAllocator`; `child` is `child_`. -/
structure HybridAllocator where
  avl : AvlAllocator
  child : BitmapAllocator

namespace HybridAllocator

/-- A call of the AVL part. -/
def onAvl {α : Type} : Except AvlFault α → Except HybridFault α
  | .ok x => .ok x
  | .error f => .error (.avl f)

/-- A call of the child. -/
def onChild {α : Type} : Except Fault α → Except HybridFault α
  | .ok x => .ok x
  | .error f => .error (.child f)

/-- The constructor. `rangeCountCap` is `max_mem / sizeof(range_seg_t)`. -/
def create (deviceSize blockSize rangeCountCap endStart : Nat) :
    Except HybridFault HybridAllocator := do
  let child ← onChild (BitmapAllocator.create deviceSize blockSize)
  return { avl := { deviceSize, blockSize, rangeCountCap, endStart }, child }

/-- `_spillover_range`, for ranges in the order given. -/
def spillTo (child : BitmapAllocator) : List RangeSeg → Except HybridFault BitmapAllocator
  | [] => .ok child
  | r :: rest => do
      let child ← onChild (child.initAddFree r.start (r.stop - r.start))
      spillTo child rest

/-- The state after a call of the AVL part, its spilled ranges handed on. -/
def afterAvl (avl : AvlAllocator) (child : BitmapAllocator) :
    Except HybridFault HybridAllocator := do
  let child ← spillTo child avl.spilled.reverse
  return { avl := { avl with spilled := [] }, child }

/-- `_add_to_tree`. -/
def addToTree (h : HybridAllocator) (start size : Nat) : Except HybridFault HybridAllocator := do
  let (head, child) ← onChild (h.child.claimFreeToLeft start)
  let (tail, child) ← onChild (AllocatorLevel02.claimFreeToRight child (add64 start size))
  let avl ← onAvl (h.avl.addToTree (sub64 start head) (add64 size (add64 head tail)))
  afterAvl avl { h.child with toAllocatorLevel02 := child }

/-- `allocate`, appending to `extents`. -/
def allocate (h : HybridAllocator) (want unit maxAllocSize : Nat) (hint : Int)
    (extents : List PExtent) : Except HybridFault (Int × List PExtent × HybridAllocator) := do
  let (r, avlExtents, avl) ← onAvl (h.avl.allocateInner want unit maxAllocSize)
  let h ← afterAvl avl h.child
  let (allocated, extents) := if r > 0 then (r.toNat, extents ++ avlExtents) else (0, extents)
  if allocated < want then
    let (r, childExtents, child) ←
      onChild (h.child.allocate (want - allocated) unit maxAllocSize hint [])
    let h := { h with child }
    let (allocated, extents) :=
      if r > 0 then (allocated + r.toNat, extents ++ childExtents) else (allocated, extents)
    return (if allocated ≠ 0 then (allocated : Int) else -enospc, extents, h)
  else return (if allocated ≠ 0 then (allocated : Int) else -enospc, extents, h)

/-- The loop of `AvlAllocator::_release`, over the overridden `_add_to_tree`. -/
def release (h : HybridAllocator) : IntervalSet → Except HybridFault HybridAllocator
  | [] => .ok h
  | p :: rest =>
      if add64 p.1 p.2 > h.avl.deviceSize then .error (.avl .assertFail)
      else do
        let h ← h.addToTree p.1 p.2
        h.release rest

/-- `init_add_free`. -/
def initAddFree (h : HybridAllocator) (offset length : Nat) :
    Except HybridFault HybridAllocator :=
  if length = 0 then .ok h
  else if add64 offset length > h.avl.deviceSize then .error (.avl .assertFail)
  else h.addToTree offset length

/-- `init_rm_free`. -/
def initRmFree (h : HybridAllocator) (offset length : Nat) :
    Except HybridFault HybridAllocator :=
  if length = 0 then .ok h
  else if add64 offset length > h.avl.deviceSize then .error (.avl .assertFail)
  else do
    let (removed, avl) ← onAvl (h.avl.removeFromTree offset length)
    let h ← afterAvl avl h.child
    if removed then return h
    else
      let child ← onChild (h.child.initRmFree offset length)
      return { h with child }

/-- `get_free`. -/
def getFree (h : HybridAllocator) : Nat := add64 h.avl.getFree h.child.getFree

/-- A result, or the one given where the call does not return. -/
def orStay {α : Type} (x : Except HybridFault α) (stopped : α) : α :=
  match x with
  | .ok y => y
  | .error _ => stopped

instance : Allocator HybridAllocator where
  allocate h want unit maxAllocSize hint :=
    orStay (h.allocate want unit maxAllocSize hint []) (-enospc, [], h)
  release h releaseVec := orStay (h.release (IntervalSet.ofExtents releaseVec)) h
  initAddFree h offset length := orStay (h.initAddFree offset length) h
  initRmFree h offset length := orStay (h.initRmFree offset length) h
  getFree h := h.getFree
  getCapacity h := h.avl.deviceSize

end HybridAllocator

/-! ## A bitmap with nothing free -/

namespace BitmapAllocator

open AllocatorLevel01Loose AllocatorLevel02

/-- Nothing is free, at any level. -/
structure Empty (c : BitmapAllocator) : Prop where
  l0 : ∀ q, q < c.l1.l0.size * 64 → c.l1.bit q = false
  l1 : ∀ e, e < c.l1.l1.size * 32 → c.l1.entry e = L1_ENTRY_FULL
  l2 : ∀ p, p < c.l2.size * 64 → WordBits.bit c.l2.slot p = false
  available : c.available = 0

/-- The constructor leaves nothing free. -/
theorem Empty.create {capacity allocUnit : Nat} {c : BitmapAllocator}
    (h : BitmapAllocator.create capacity allocUnit = .ok c) : Empty c := by
  obtain ⟨l2, hl2, h⟩ := bind_eq_ok h
  cases h
  obtain ⟨hclear, hfull, hl2clear, havail, -⟩ := init_spec hl2
  exact ⟨fun q _ => hclear q, fun e _ => hfull e, fun p _ => hl2clear p, havail⟩

/-- A search over L2 passes clear slots only. -/
theorem Empty.scanRound {c : BitmapAllocator} (h : Empty c) (want maxLength n idx : Nat)
    (g : Grant) {endPos : Nat} (hend : endPos ≤ c.l2.size * 64) :
    AllocatorLevel02.scanRound want maxLength endPos n idx g c.toAllocatorLevel02 =
      .ok (false, g, c.toAllocatorLevel02) := by
  induction n generalizing idx with
  | zero => rfl
  | succ n ih =>
      unfold AllocatorLevel02.scanRound bitsPerSlot
      split
      · rename_i hlt
        have hclear : c.l2.slot (idx / 64) = allSlotClear := by
          refine slot_eq_clear_iff.mpr fun i hi => ?_
          have hbit := h.l2 (idx / 64 * 64 + i) (by omega)
          unfold WordBits.bit at hbit
          rwa [show (idx / 64 * 64 + i) / 64 = idx / 64 by omega,
            show (idx / 64 * 64 + i) % 64 = i by omega] at hbit
        rw [if_neg (by omega)]
        dsimp only
        rw [hclear, if_pos rfl]
        exact ih _
      · rfl

/-- An empty bitmap has nothing to give and stays as it is. -/
theorem Empty.allocate {c : BitmapAllocator} (h : Empty c) (want unit maxAllocSize : Nat)
    (hint : Int) : c.allocate want unit maxAllocSize hint [] =
      if isp2 unit ∧ want % unit = 0 ∧ unit ≥ c.l1.l0Granularity then .ok (-enospc, [], c)
      else .error .assertFail := by
  unfold BitmapAllocator.allocate
  split
  · have hpos : ∀ pos : Nat,
        (if pos ≥ c.l2.size * bitsPerSlot then 0 else pos) ≤ c.l2.size * 64 := by
      intro pos
      unfold bitsPerSlot
      split <;> omega
    have hscan : c.toAllocatorLevel02.allocateL2 want unit maxAllocSize hint ⟨0, []⟩ =
        .ok (-enospc, ⟨0, []⟩, c.toAllocatorLevel02) := by
      unfold AllocatorLevel02.allocateL2
      dsimp only
      rw [h.scanRound _ _ _ _ _ (show c.l2.size * bitsPerSlot ≤ c.l2.size * 64 from le_rfl)]
      show (AllocatorLevel02.scanRound _ _ _ _ _ _ c.toAllocatorLevel02 >>= _) = _
      rw [h.scanRound _ _ _ _ _ (hpos _)]
      rfl
    rw [hscan]
    rfl
  · rfl

end BitmapAllocator

end Clab.Blk
