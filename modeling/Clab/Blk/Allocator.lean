import Mathlib

/-!
# The allocator interface

The operations of the abstract class `Allocator` that its clients call, over an
arbitrary state type, and the interval sets they are given to release.
-/

namespace Clab.Blk

/-- `pextent_t`. -/
structure PExtent where
  offset : Nat
  length : Nat
  deriving DecidableEq, Repr

/-- Does the extent contain byte `x`? -/
def PExtent.has (e : PExtent) (x : Nat) : Bool := e.offset ≤ x ∧ x < e.offset + e.length

/-- The virtual functions of `Allocator`. `allocate` is given
`(want, block_size, max_alloc_size, hint)` and returns the result code and the
extents. -/
class Allocator (A : Type) where
  allocate : A → Nat → Nat → Nat → Int → Int × List PExtent × A
  release : A → List PExtent → A
  initAddFree : A → Nat → Nat → A
  initRmFree : A → Nat → Nat → A
  getFree : A → Nat
  getCapacity : A → Nat

/-- The extents that hold byte `x`. -/
def coverCount (es : List PExtent) (x : Nat) : Nat := es.countP fun e => e.has x

open Classical in
/-- Is byte `x` in the set? -/
noncomputable def inPool (free : Set Nat) (x : Nat) : Nat := if x ∈ free then 1 else 0

theorem inPool_le (free : Set Nat) (x : Nat) : inPool free x ≤ 1 := by
  unfold inPool
  split <;> omega

/-- What a client relies on of an allocator: `holds a free` says that `a` gives out bytes of
`free` only. What it grants leaves the set, and what it is given back joins it. -/
structure LawfulAllocator {A : Type} [Allocator A] (holds : A → Set Nat → Prop) : Prop where
  allocate : ∀ {a a' : A} {free : Set Nat} {want unit maxAllocSize : Nat} {hint r : Int}
    {extents : List PExtent}, holds a free →
    Allocator.allocate a want unit maxAllocSize hint = (r, extents, a') →
    if 0 < r then
      (∀ e ∈ extents, 0 < e.length) ∧ ∃ free', holds a' free' ∧
        ∀ x, coverCount extents x + inPool free' x = inPool free x
    else holds a' free
  release : ∀ {a : A} {free : Set Nat} {releaseVec : List PExtent}, holds a free →
    (∀ x, coverCount releaseVec x + inPool free x ≤ 1) →
    ∃ free', holds (Allocator.release a releaseVec) free' ∧
      ∀ x, inPool free' x = coverCount releaseVec x + inPool free x

/-! ## Interval sets -/

/-- `interval_set`: the map from starts to lengths, in order of starts. -/
abbrev IntervalSet := List (Nat × Nat)

/-- The loop of `insert` that absorbs the intervals starting in
`[off, off + len]`. -/
def mergeFollowing (off : Nat) : Nat → IntervalSet → Nat × IntervalSet
  | len, [] => (len, [])
  | len, p :: rest =>
      if p.1 ≤ off + len then mergeFollowing off (max len (p.1 + p.2 - off)) rest
      else (len, p :: rest)

/-- `interval_set::insert`. -/
def IntervalSet.insert (s : IntervalSet) (off len : Nat) : IntervalSet :=
  if len = 0 then s
  else
    let before := s.takeWhile fun p => p.1 < off
    let (len, rest) := mergeFollowing off len (s.dropWhile fun p => p.1 < off)
    match before.getLast? with
    | some prev =>
        if prev.1 + prev.2 ≥ off then
          before.dropLast ++ (prev.1, max len (off + len - prev.1)) :: rest
        else before ++ (off, len) :: rest
    | none => (off, len) :: rest

/-- The set `Allocator::release` builds from a vector of extents. -/
def IntervalSet.ofExtents (releaseVec : List PExtent) : IntervalSet :=
  releaseVec.foldl (fun s e => s.insert e.offset e.length) []

end Clab.Blk
