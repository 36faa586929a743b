import Clab.Bluefs.FileData

/-!
# The index of an fnode

`extents_index` and `allocated` are kept by hand next to the extents. Every operation
on fnodes keeps them right but two: a copy construction starts from the length it
copied and counts the extents again, and `pop_front_extent` leaves the committed
length as it was.
-/

namespace Clab.Bluefs

open Segments

namespace Fnode

/-- Extent `i` holds position `off` by the index. -/
def HoldsAt (f : Fnode) (i off : Nat) : Prop :=
  ∃ start e, f.extentsIndex[i]? = some start ∧ f.extents[i]? = some e ∧ start ≤ off ∧
    off < start + e.length

/-- The derived fields are right, and `seek` finds the one extent of every position. -/
structure Consistent (f : Fnode) : Prop extends Indexed f where
  committed : f.allocatedCommitted ≤ f.allocated
  found : ∀ off < f.allocated, ∃ i x, f.seek off = some (i, x) ∧ f.HoldsAt i off ∧
    x = off - f.extentsIndex.getD i 0 ∧ ∀ j, f.HoldsAt j off → j = i
  ended : ∀ off, f.allocated ≤ off → f.seek off = none

theorem starts_getElem? {es : List Extent} {base i start : Nat}
    (h : (starts Extent.length base es)[i]? = some start) :
    i < es.length ∧ start = base + total Extent.length (es.take i) := by
  obtain ⟨hi, hget⟩ := List.getElem?_eq_some_iff.mp h
  rw [starts_length] at hi
  refine ⟨hi, ?_⟩
  rw [← starts_getD base hi, List.getD_eq_getElem?_getD, h]
  rfl

/-- The extents before one end where it starts, or earlier. -/
theorem total_take_le {es : List Extent} {i j : Nat} {e : Extent} (hij : i < j)
    (he : es[i]? = some e) :
    total Extent.length (es.take i) + e.length ≤ total Extent.length (es.take j) := by
  obtain ⟨hi, rfl⟩ := List.getElem?_eq_some_iff.mp he
  have hnext : total Extent.length (es.take (i + 1)) =
      total Extent.length (es.take i) + es[i].length := by
    rw [List.take_succ_eq_append_getElem hi, total_append]
    rfl
  have hsplit : es.take j = es.take (i + 1) ++ (es.drop (i + 1)).take (j - (i + 1)) := by
    rw [← List.take_add, Nat.add_sub_cancel' hij]
  rw [← hnext, hsplit, total_append]
  exact Nat.le_add_right _ _

/-- At most one extent holds a position. -/
theorem Indexed.holdsAt_unique {f : Fnode} (h : f.Indexed) {i j off : Nat}
    (hi : f.HoldsAt i off) (hj : f.HoldsAt j off) : i = j := by
  obtain ⟨si, ei, hsi, hei, hlei, hlti⟩ := hi
  obtain ⟨sj, ej, hsj, hej, hlej, hltj⟩ := hj
  rw [h.index] at hsi hsj
  obtain ⟨-, rfl⟩ := starts_getElem? hsi
  obtain ⟨-, rfl⟩ := starts_getElem? hsj
  rcases Nat.lt_trichotomy i j with hlt | heq | hgt
  · have := total_take_le hlt hei
    omega
  · exact heq
  · have := total_take_le hgt hej
    omega

theorem Indexed.consistent {f : Fnode} (h : f.Indexed)
    (hcommitted : f.allocatedCommitted ≤ f.allocated) : f.Consistent where
  toIndexed := h
  committed := hcommitted
  found := by
    intro off hoff
    obtain ⟨i, x, e, hseek, he, hx, hpos⟩ := h.seek hoff
    obtain ⟨hi, -⟩ := List.getElem?_eq_some_iff.mp he
    have hstart : f.extentsIndex.getD i 0 = total Extent.length (f.extents.take i) := by
      rw [h.index, starts_getD 0 hi, Nat.zero_add]
    have hget : f.extentsIndex[i]? = some (total Extent.length (f.extents.take i)) := by
      have hlen : i < f.extentsIndex.length := by rwa [h.index, starts_length]
      rw [← hstart, List.getD_eq_getElem?_getD, List.getElem?_eq_getElem hlen]
      rfl
    have hholds : f.HoldsAt i off := ⟨_, e, hget, he, by omega, by omega⟩
    exact ⟨i, x, hseek, hholds, by omega, fun j hj => h.holdsAt_unique hj hholds⟩
  ended := fun off hoff => if_pos (.inr hoff)

theorem indexed_nil {f : Fnode} (hindex : f.extentsIndex = []) (hextents : f.extents = [])
    (hallocated : f.allocated = 0) : f.Indexed :=
  ⟨by rw [hindex, hextents]; rfl, by rw [hallocated, hextents]; rfl⟩

/-! ## The operations -/

theorem appendExtent_counters (f : Fnode) (e : Extent) :
    (f.appendExtent e).allocated = f.allocated + e.length ∧
      (f.appendExtent e).allocatedCommitted = f.allocatedCommitted := by
  unfold appendExtent
  split
  · split <;> exact ⟨rfl, rfl⟩
  · exact ⟨rfl, rfl⟩

theorem claimExtents_counters (f : Fnode) (es : List Extent) :
    (f.claimExtents es).allocated = f.allocated + total Extent.length es ∧
      (f.claimExtents es).allocatedCommitted = f.allocatedCommitted := by
  unfold claimExtents
  induction es generalizing f with
  | nil => exact ⟨rfl, rfl⟩
  | cons e es ih =>
      obtain ⟨hallocated, hcommitted⟩ := ih (f.appendExtent e)
      obtain ⟨hstep, hstep'⟩ := f.appendExtent_counters e
      rw [List.foldl_cons, total_cons]
      exact ⟨by rw [hallocated, hstep, Nat.add_assoc], hcommitted.trans hstep'⟩

theorem Consistent.claimExtents {f : Fnode} (h : f.Consistent) (es : List Extent) :
    (f.claimExtents es).Consistent := by
  obtain ⟨hallocated, hcommitted⟩ := f.claimExtents_counters es
  refine (h.toIndexed.claimExtents es).consistent ?_
  rw [hallocated, hcommitted]
  exact Nat.le_add_right_of_le h.committed

/-- The running sums of the lengths are the starts. -/
theorem scanl_lengths (es : List Extent) (base : Nat) :
    ((es.map Extent.length).scanl (· + ·) base).dropLast = starts Extent.length base es := by
  induction es generalizing base with
  | nil => rfl
  | cons e es ih =>
      rw [List.map_cons, List.scanl_cons, starts, ← ih, List.dropLast_cons_of_ne_nil]
      simp

theorem recalcAllocated_consistent (f : Fnode) : f.recalcAllocated.Consistent :=
  Indexed.consistent ⟨scanl_lengths f.extents 0, rfl⟩ le_rfl

theorem starts_sub (es : List Extent) (base d : Nat) :
    (starts Extent.length (base + d) es).map (· - d) = starts Extent.length base es := by
  induction es generalizing base with
  | nil => rfl
  | cons e es ih =>
      rw [starts, List.map_cons, Nat.add_sub_cancel, Nat.add_right_comm, ih, starts]

theorem Indexed.popFrontExtent {f : Fnode} (h : f.Indexed) : f.popFrontExtent.Indexed := by
  unfold Fnode.popFrontExtent
  cases hes : f.extents with
  | nil => exact h
  | cons e es =>
      constructor
      · show f.extentsIndex.tail.map (· - e.length) = starts Extent.length 0 es
        rw [h.index, hes, starts, List.tail_cons, starts_sub]
      · show f.allocated - e.length = total Extent.length es
        rw [h.allocated, hes, total_cons, Nat.add_sub_cancel_left]

/-- A fnode with the extent fields of a consistent one is consistent. -/
theorem Consistent.congr {f g : Fnode} (h : f.Consistent) (hextents : g.extents = f.extents)
    (hindex : g.extentsIndex = f.extentsIndex) (hallocated : g.allocated = f.allocated)
    (hcommitted : g.allocatedCommitted = f.allocatedCommitted) : g.Consistent := by
  refine Indexed.consistent ⟨?_, ?_⟩ ?_
  · rw [hindex, hextents, h.index]
  · rw [hallocated, hextents, h.allocated]
  · rw [hcommitted, hallocated]
    exact h.committed

theorem Consistent.withExtentsOf {other : Fnode} (h : other.Consistent) (f : Fnode) :
    (f.withExtentsOf other).Consistent := h.congr rfl rfl rfl rfl

/-- A copy counts the extents on top of the length it copied. -/
theorem copy_consistent_iff {f : Fnode} (h : f.Consistent) :
    f.copy.Consistent ↔ f.allocated = 0 := by
  obtain ⟨hallocated, hcommitted⟩ :=
    claimExtents_counters { f with extents := [], extentsIndex := [] } f.extents
  have htotal : total Extent.length f.copy.extents = total Extent.length f.extents := by
    rw [copy, total_claimExtents, total_nil, Nat.zero_add]
  constructor
  · intro hcopy
    have hsum := hcopy.allocated
    have hlen : f.copy.allocated = f.allocated + total Extent.length f.extents := hallocated
    rw [htotal, hlen] at hsum
    omega
  · intro hzero
    have hbase := @indexed_nil { f with extents := [], extentsIndex := [] } rfl rfl hzero
    refine (hbase.claimExtents f.extents).consistent ?_
    rw [hallocated, hcommitted]
    exact Nat.le_add_right_of_le h.committed

theorem popFrontExtent_consistent_iff {f : Fnode} (h : f.Consistent) :
    f.popFrontExtent.Consistent ↔
      ∀ e, f.extents.head? = some e → f.allocatedCommitted + e.length ≤ f.allocated := by
  have hfirst : ∀ e, f.extents.head? = some e →
      f.popFrontExtent.allocated + e.length = f.allocated ∧
        f.popFrontExtent.allocatedCommitted = f.allocatedCommitted := by
    intro e he
    obtain ⟨es, hes⟩ := List.head?_eq_some_iff.mp he
    have hsum := h.allocated
    rw [hes, total_cons] at hsum
    rw [popFrontExtent, hes]
    exact ⟨by dsimp only; omega, rfl⟩
  constructor
  · intro hpop e he
    obtain ⟨hlen, hsame⟩ := hfirst e he
    have hle := hpop.committed
    omega
  · intro hle
    refine h.toIndexed.popFrontExtent.consistent ?_
    cases hes : f.extents with
    | nil =>
        rw [popFrontExtent, hes]
        exact h.committed
    | cons e es =>
        obtain ⟨hlen, hsame⟩ := hfirst e (by rw [hes]; rfl)
        have := hle e (by rw [hes]; rfl)
        omega

end Fnode

/-! ## Runs -/

/-- The operations on fnodes, each on the variables it names. -/
inductive FnodeCall
  | create (v ino size mtime : Nat)
  | appendExtent (v : Nat) (e : Extent)
  | claimExtents (v : Nat) (es : List Extent)
  | cloneExtents (v other : Nat)
  | copyConstruct (v other : Nat)
  | copyAssign (v other : Nat)
  | swap (v other : Nat)
  | swapExtents (v other : Nat)
  | popFrontExtent (v : Nat)
  | clearExtents (v : Nat)
  | recalcAllocated (v : Nat)
  | resetDelta (v : Nat)
  | decode (v ino size mtime : Nat) (extents : List Extent)

namespace FnodeCall

open Function

/-- The variables after an operation. -/
def apply (σ : Nat → Fnode) : FnodeCall → Nat → Fnode
  | create v ino size mtime => update σ v { ino := ino, size := size, mtime := mtime }
  | appendExtent v e => update σ v ((σ v).appendExtent e)
  | claimExtents v es => update σ v ((σ v).claimExtents es)
  | cloneExtents v w => update σ v ((σ v).cloneExtents (σ w))
  | copyConstruct v w => update σ v (σ w).copy
  | copyAssign v w => update σ v (σ w)
  | swap v w => update (update σ v ((σ v).swap (σ w)).1) w ((σ v).swap (σ w)).2
  | swapExtents v w =>
      update (update σ v ((σ v).swapExtents (σ w)).1) w ((σ v).swapExtents (σ w)).2
  | popFrontExtent v => update σ v (σ v).popFrontExtent
  | clearExtents v => update σ v (σ v).clearExtents
  | recalcAllocated v => update σ v (σ v).recalcAllocated
  | resetDelta v => update σ v (σ v).resetDelta
  | decode v ino size mtime extents => update σ v ((σ v).decode ino size mtime extents)

/-- A copy is constructed from an fnode without allocated bytes only, and an extent popped
only if what is committed fits in the rest. -/
def Sound (σ : Nat → Fnode) : FnodeCall → Prop
  | copyConstruct _ w => (σ w).allocated = 0
  | popFrontExtent v => ∀ e, (σ v).extents.head? = some e →
      (σ v).allocatedCommitted + e.length ≤ (σ v).allocated
  | _ => True

/-- The variables after some operations on default fnodes. -/
def run (calls : List FnodeCall) : Nat → Fnode := calls.foldl apply fun _ => {}

theorem update_consistent {σ : Nat → Fnode} (h : ∀ u, (σ u).Consistent) (v : Nat) {f : Fnode}
    (hf : f.Consistent) (u : Nat) : (update σ v f u).Consistent := by
  rcases eq_or_ne u v with rfl | hne
  · rwa [update_self]
  · rw [update_of_ne hne]
    exact h u

theorem apply_consistent {σ : Nat → Fnode} (h : ∀ u, (σ u).Consistent) {c : FnodeCall}
    (hsound : c.Sound σ) : ∀ u, (c.apply σ u).Consistent := by
  cases c with
  | create v ino size mtime =>
      exact update_consistent h v ((Fnode.indexed_nil rfl rfl rfl).consistent le_rfl)
  | appendExtent v e => exact update_consistent h v ((h v).claimExtents [e])
  | claimExtents v es => exact update_consistent h v ((h v).claimExtents es)
  | cloneExtents v w => exact update_consistent h v ((h v).claimExtents (σ w).extents)
  | copyConstruct v w =>
      exact update_consistent h v ((Fnode.copy_consistent_iff (h w)).mpr hsound)
  | copyAssign v w => exact update_consistent h v (h w)
  | swap v w =>
      exact update_consistent (update_consistent h v ((h w).congr rfl rfl rfl rfl)) w
        ((h v).congr rfl rfl rfl rfl)
  | swapExtents v w =>
      exact update_consistent (update_consistent h v ((h w).withExtentsOf (σ v))) w
        ((h v).withExtentsOf (σ w))
  | popFrontExtent v =>
      exact update_consistent h v ((Fnode.popFrontExtent_consistent_iff (h v)).mpr hsound)
  | clearExtents v =>
      exact update_consistent h v ((Fnode.indexed_nil rfl rfl rfl).consistent le_rfl)
  | recalcAllocated v => exact update_consistent h v (Fnode.recalcAllocated_consistent _)
  | resetDelta v =>
      have hindexed : (σ v).resetDelta.Indexed := ⟨(h v).index, (h v).allocated⟩
      exact update_consistent h v (hindexed.consistent le_rfl)
  | decode v ino size mtime extents =>
      exact update_consistent h v (Fnode.recalcAllocated_consistent _)

theorem apply_not_consistent {σ : Nat → Fnode} (h : ∀ u, (σ u).Consistent) {c : FnodeCall}
    (hsound : ¬ c.Sound σ) : ∃ u, ¬ (c.apply σ u).Consistent := by
  cases c with
  | copyConstruct v w =>
      refine ⟨v, fun hcopy => hsound ?_⟩
      rw [apply, update_self] at hcopy
      exact (Fnode.copy_consistent_iff (h w)).mp hcopy
  | popFrontExtent v =>
      refine ⟨v, fun hpop => hsound ?_⟩
      rw [apply, update_self] at hpop
      exact (Fnode.popFrontExtent_consistent_iff (h v)).mp hpop
  | _ => exact absurd trivial hsound

theorem run_take_succ {calls : List FnodeCall} {n : Nat} {c : FnodeCall} (hc : calls[n]? = some c) :
    run (calls.take (n + 1)) = c.apply (run (calls.take n)) := by
  rw [List.take_add_one, hc]
  simp [run]

/-- The fnodes of a run are consistent in every state exactly when no operation copies
allocated bytes by construction or pops an extent that is committed. -/
theorem run_consistent_iff (calls : List FnodeCall) :
    (∀ n ≤ calls.length, ∀ v, (run (calls.take n) v).Consistent) ↔
      ∀ n (c : FnodeCall), calls[n]? = some c → c.Sound (run (calls.take n)) := by
  constructor
  · intro h n c hc
    have hn : n < calls.length := (List.getElem?_eq_some_iff.mp hc).1
    by_contra hsound
    obtain ⟨v, hv⟩ := apply_not_consistent (h n hn.le) hsound
    rw [← run_take_succ hc] at hv
    exact hv (h (n + 1) hn v)
  · intro h n hn
    induction n with
    | zero => exact fun v => (Fnode.indexed_nil rfl rfl rfl).consistent le_rfl
    | succ n ih =>
        have hc : calls[n]? = some calls[n] := List.getElem?_eq_getElem (by omega)
        rw [run_take_succ hc]
        exact apply_consistent (ih (by omega)) (h n _ hc)

/-- The copy of an fnode with one extent counts it twice. -/
theorem not_consistent_copy :
    ¬ ∀ n ≤ 2, ∀ v, (run ([appendExtent 0 ⟨0, 4096, 0⟩, copyConstruct 1 0].take n) v).Consistent := by
  intro h
  have hsum := (h 2 le_rfl 1).allocated
  exact absurd hsum (by decide)

end FnodeCall

end Clab.Bluefs
