import Clab.Common.BufferRanges

/-!
# Buffer lists are byte strings

In every run of calls the lists are the byte strings that the calls make of them
one by one, whatever raw buffers they share. Only a write in place is restricted:
nobody else may have the bytes that it changes.
-/

namespace Clab.Common

namespace Buffers

/-- The loop of `operator[]`. -/
def byteAtNodes (b : Buffers) : List BufferNode → Nat → Option UInt8
  | [], _ => none
  | n :: ns, i =>
      if n.len ≤ i then byteAtNodes b ns (i - n.len) else (b.nodeBytes n)[i]?

/-- `operator[]`; `none` is an exception. -/
def byteAt (b : Buffers) (l i : Nat) : Option UInt8 :=
  if (b.lists l).len ≤ i then none else b.byteAtNodes (b.lists l).nodes i

/-- A call that edits lists. -/
inductive Edit where
  | append (l : Nat) (data : List UInt8)
  | appendChar (l : Nat) (c : UInt8)
  | appendZero (l n : Nat)
  | appendHole (l : Nat) (data : List UInt8)
  | appendContiguous (l room : Nat) (data : List UInt8)
  | appendPtr (l m i off len : Nat)
  | appendList (l src : Nat)
  | claimAppend (l src : Nat)
  | prependZero (l n : Nat)
  | pushBack (l : Nat) (data : List UInt8)
  | pushBackMoved (l : Nat) (data : List UInt8)
  | pushBackRaw (l : Nat) (data : List UInt8)
  | copyFrom (l src : Nat)
  | moveFrom (l src : Nat)
  | swap (l m : Nat)
  | clear (l : Nat)
  | reserve (l prealloc : Nat)
  | rebuild (l : Nat)
  | substrOf (l src off len : Nat)
  | splice (l off len : Nat) (claimBy : Option Nat)
  | copyIn (l off : Nat) (src : List UInt8)
  | invalidateCrc (l : Nat)
  | crc32c (l : Nat) (seed : BitVec 32)

namespace Edit

/-- The lists after the call. `none` where the call fails, where it does not return (a list that is
appended to itself), or where a list claims its own range. -/
def run (b : Buffers) : Edit → Option Buffers
  | append l data => some (b.append l data)
  | appendChar l c => some (b.appendChar l c)
  | appendZero l n => some (b.appendZero l n)
  | appendHole l data => b.appendHole l data
  | appendContiguous l room data => b.appendContiguous l room data
  | appendPtr l m i off len => (b.lists m).nodes[i]?.bind fun bp => b.appendPtr l bp off len
  | appendList l src => if l = src then none else some (b.appendList l src)
  | claimAppend l src => some (if l = src then b.clear l else b.claimAppend l src)
  | prependZero l n => some (b.prependZero l n)
  | pushBack l data => some (b.pushBack l data)
  | pushBackMoved l data => some (b.pushBackMoved l data)
  | pushBackRaw l data => some (b.pushBackRaw l data)
  | copyFrom l src => some (b.copyFrom l src)
  | moveFrom l src => some (b.moveFrom l src)
  | swap l m => some (b.swap l m)
  | clear l => some (b.clear l)
  | reserve l prealloc => some (b.reserve l prealloc)
  | rebuild l => some (b.rebuild l)
  | substrOf l src off len =>
      -- the list is cleared before its nodes are gone over
      if l = src then if off = 0 ∧ len = 0 then some (b.clear l) else none
      else b.substrOf l src off len
  | splice l off len claimBy => if claimBy = some l then none else b.splice l off len claimBy
  | copyIn l off src =>
      if (b.lists l).len < off + src.length then none else some (b.copyIn l off src)
  | invalidateCrc l => some (b.invalidateCrc l)
  | crc32c l seed => some (b.crc32c l seed).2

/-- What the call makes of the byte strings. What is in a `ptr` is looked up in the lists. -/
def effect (b : Buffers) (v : Nat → List UInt8) : Edit → Nat → List UInt8
  | append l data | appendHole l data | appendContiguous l _ data | pushBack l data
  | pushBackMoved l data | pushBackRaw l data => appended v l data
  | appendChar l c => appended v l [c]
  | appendZero l n => appended v l (List.replicate n 0)
  | appendPtr l m i off len =>
      appended v l (((((b.lists m).nodes[i]?.map b.nodeBytes).getD []).drop off).take len)
  | appendList l src => appended v l (v src)
  | claimAppend l src => Function.update (appended v l (v src)) src []
  | prependZero l n => Function.update v l (List.replicate n 0 ++ v l)
  | copyFrom l src => Function.update v l (v src)
  | moveFrom l src => Function.update (Function.update v l (v src)) src []
  | swap l m => Function.update (Function.update v l (v m)) m (v l)
  | clear l => Function.update v l []
  | reserve _ _ | rebuild _ | invalidateCrc _ | crc32c _ _ => v
  | substrOf l src off len => Function.update v l (((v src).drop off).take len)
  | splice l off len claimBy => spliced (claimed v l off len claimBy) l off len
  | copyIn l off src => Function.update v l (overwrite (v l) off src)

/-- A write in place changes bytes that only its list has. -/
def Fits (b : Buffers) : Edit → Prop
  | copyIn l _ _ => Apart b l
  | _ => True

/-- The ranges lie in the byte strings, a list is not read while it is written, and there is room
asked for. -/
def InRange (b : Buffers) (v : Nat → List UInt8) : Edit → Prop
  | appendHole _ data => data ≠ []
  | appendContiguous _ room data => data.length ≤ room ∧ room ≠ 0
  | appendPtr _ m i off len => ∃ bp ∈ (b.lists m).nodes[i]?, len + off ≤ (b.nodeBytes bp).length
  | appendList l src => l ≠ src
  | substrOf l src off len => l ≠ src ∧ off + len ≤ (v src).length
  | splice l off len claimBy => claimBy ≠ some l ∧ (len = 0 ∨ off + len ≤ (v l).length)
  | copyIn l off src => off + src.length ≤ (v l).length
  | _ => True

end Edit

/-- The lists after some calls, from none, and the byte strings they should be. -/
inductive EditRun : Buffers → (Nat → List UInt8) → Prop where
  | start : EditRun {} fun _ => []
  | step {b b' : Buffers} {v : Nat → List UInt8} (e : Edit) : EditRun b v → e.Fits b →
      e.run b = some b' → EditRun b' (e.effect b v)

variable {b b' : Buffers} {l : Nat} {v : Nat → List UInt8}

/-! ## Reading -/

theorem byteAtNodes_eq {ns : List BufferNode} (hns : b.Whole ns) (i : Nat) :
    b.byteAtNodes ns i = (b.spread ns)[i]? := by
  induction ns generalizing i with
  | nil => rfl
  | cons n ns ih =>
      have hlen := hns n List.mem_cons_self
      have htail : b.Whole ns := fun x hx => hns x (List.mem_cons_of_mem n hx)
      unfold byteAtNodes
      rw [spread_cons]
      split
      case isTrue hle =>
        rw [ih htail, List.getElem?_append_right (by omega), hlen]
      case isFalse hlt => rw [List.getElem?_append_left (by omega)]

theorem Refines.byteAt (h : Refines b v) (l i : Nat) : b.byteAt l i = (v l)[i]? := by
  unfold Buffers.byteAt
  rw [h.length]
  split
  case isTrue hle => exact (List.getElem?_eq_none hle).symm
  case isFalse =>
    rw [byteAtNodes_eq (h.coherent.whole l), ← h.bytes]
    rfl

/-! ## One call -/

theorem Refines.appendZero (h : Refines b v) (l n : Nat) :
    Refines (b.appendZero l n) (appended v l (List.replicate n 0)) :=
  h.append l _

theorem Refines.claimAppend (h : Refines b v) (l src : Nat) :
    Refines (b.claimAppend l src) (Function.update (appended v l (v src)) src []) := by
  have hdone := (h.appendList l src).clear src
  have hsame : (b.appendList l src).clear src = b.claimAppend l src := rfl
  rwa [hsame] at hdone

theorem moveFrom_self (b : Buffers) (l : Nat) : b.moveFrom l l = b.clear l := by
  unfold moveFrom Buffers.clear
  rw [Coherent.setList_setList]

/-- What a `ptr` of a list has. -/
theorem Refines.appendNode (h : Refines b v) {m i off len : Nat}
    (hrun : ((b.lists m).nodes[i]?.bind fun bp => b.appendPtr l bp off len) = some b') :
    Refines b' (appended v l
      (((((b.lists m).nodes[i]?.map b.nodeBytes).getD []).drop off).take len)) := by
  obtain ⟨bp, hbp, hrun⟩ := Option.bind_eq_some_iff.mp hrun
  rw [hbp]
  exact h.appendPtr (List.mem_of_getElem? hbp) hrun

/-- Every call makes of the byte strings what it should. -/
theorem Refines.step (h : Refines b v) (e : Edit) (hfits : e.Fits b)
    (hrun : e.run b = some b') : Refines b' (e.effect b v) := by
  cases e with
  | append l data => rw [← Option.some.inj hrun]; exact h.append l data
  | appendChar l c => rw [← Option.some.inj hrun]; exact h.appendChar l c
  | appendZero l n => rw [← Option.some.inj hrun]; exact h.appendZero l n
  | appendHole l data => exact h.appendHole hrun
  | appendContiguous l room data => exact h.appendContiguous hrun
  | appendPtr l m i off len => exact h.appendNode hrun
  | appendList l src =>
      simp only [Edit.run] at hrun
      split at hrun
      · exact absurd hrun (by simp)
      · rw [← Option.some.inj hrun]
        exact h.appendList l src
  | claimAppend l src =>
      rw [← Option.some.inj hrun]
      split
      case isTrue heq =>
        have hcleared : Edit.effect b v (.claimAppend l src) = Function.update v l [] := by
          simp only [Edit.effect, appended, heq, Function.update_idem]
        rw [hcleared]
        exact h.clear l
      case isFalse => exact h.claimAppend l src
  | prependZero l n => rw [← Option.some.inj hrun]; exact h.prependZero l n
  | pushBack l data => rw [← Option.some.inj hrun]; exact h.pushBack l data
  | pushBackMoved l data => rw [← Option.some.inj hrun]; exact h.pushBackMoved l data
  | pushBackRaw l data => rw [← Option.some.inj hrun]; exact h.pushBackRaw l data
  | copyFrom l src => rw [← Option.some.inj hrun]; exact h.copyFrom l src
  | moveFrom l src =>
      rw [← Option.some.inj hrun]
      by_cases hne : l = src
      · rw [hne, moveFrom_self]
        simpa [Edit.effect] using h.clear src
      · exact h.moveFrom hne
  | swap l m => rw [← Option.some.inj hrun]; exact h.swap l m
  | clear l => rw [← Option.some.inj hrun]; exact h.clear l
  | reserve l prealloc => rw [← Option.some.inj hrun]; exact h.reserve l prealloc
  | rebuild l => rw [← Option.some.inj hrun]; exact h.rebuild l
  | substrOf l src off len =>
      simp only [Edit.run] at hrun
      split at hrun
      case isTrue =>
        split at hrun
        case isTrue hnone =>
          rw [← Option.some.inj hrun]
          simpa [Edit.effect, hnone.2] using h.clear l
        case isFalse => exact absurd hrun (by simp)
      case isFalse => exact h.substrOf hrun
  | splice l off len claimBy =>
      simp only [Edit.run] at hrun
      split at hrun
      case isTrue => exact absurd hrun (by simp)
      case isFalse hne => exact h.splice hne hrun
  | copyIn l off src =>
      simp only [Edit.run] at hrun
      split at hrun
      case isTrue => exact absurd hrun (by simp)
      case isFalse hin =>
        rw [← Option.some.inj hrun]
        exact h.copyIn hfits (by omega)
  | invalidateCrc l => rw [← Option.some.inj hrun]; exact h.invalidateCrc l
  | crc32c l seed => rw [← Option.some.inj hrun]; exact h.crc32c l seed

/-- A call in range returns. -/
theorem Refines.returns (h : Refines b v) (e : Edit) (hin : e.InRange b v) :
    (e.run b).isSome := by
  cases e with
  | appendHole l data =>
      have hpos : 0 < data.length := List.length_pos_iff.mpr hin
      simp only [Edit.run, Buffers.appendHole]
      split
      · rfl
      case isFalse htail =>
        rw [if_neg (carriage_of_unusedTail (by omega))]
        rfl
  | appendContiguous l room data =>
      obtain ⟨hroom, hne⟩ := hin
      simp only [Edit.run, Buffers.appendContiguous, if_neg (show ¬ room < data.length by omega)]
      split
      · rfl
      case isFalse htail =>
        rw [if_neg (carriage_of_unusedTail (by omega))]
        rfl
  | appendPtr l m i off len =>
      obtain ⟨bp, hbp, hlen⟩ := hin
      rw [h.coherent.length_nodeBytes (List.mem_of_getElem? hbp)] at hlen
      have hnode : (b.lists m).nodes[i]? = some bp := hbp
      simp only [Edit.run, hnode, Option.bind_some, Buffers.appendPtr,
        if_neg (show ¬ bp.len < len + off by omega)]
      rfl
  | appendList l src =>
      simp only [Edit.run, if_neg (show ¬ l = src from hin)]
      rfl
  | substrOf l src off len =>
      obtain ⟨hne, hlen⟩ := hin
      rw [← h.length] at hlen
      simp only [Edit.run, if_neg hne, Buffers.substrOf,
        if_neg (show ¬ (b.lists src).len < off + len by omega)]
      rfl
  | splice l off len claimBy =>
      obtain ⟨hne, hlen⟩ := hin
      rw [← h.length] at hlen
      simp only [Edit.run, if_neg hne, Buffers.splice]
      split
      · rfl
      · rw [if_neg (by omega)]
        rfl
  | copyIn l off src =>
      have hlen : off + src.length ≤ (v l).length := hin
      rw [← h.length] at hlen
      simp only [Edit.run, if_neg (show ¬ (b.lists l).len < off + src.length by omega)]
      rfl
  | _ => rfl

/-! ## Runs -/

theorem EditRun.refines (hrun : EditRun b v) : Refines b v := by
  induction hrun with
  | start => exact refines_empty
  | step e _ hfits hrun ih => exact ih.step e hfits hrun

/-- A list, a copy of it, and what is appended to the list behind the bytes that both have. -/
def sharing : Buffers :=
  (((({} : Buffers).append 0 [1, 2]).copyFrom 1 0).append 0 [3])

theorem sharing_run : EditRun sharing
    (Edit.effect ((({} : Buffers).append 0 [1, 2]).copyFrom 1 0)
      (Edit.effect (({} : Buffers).append 0 [1, 2])
        (Edit.effect {} (fun _ => []) (.append 0 [1, 2])) (.copyFrom 1 0)) (.append 0 [3])) :=
  .step (.append 0 [3]) (.step (.copyFrom 1 0) (.step (.append 0 [1, 2]) .start trivial rfl)
    trivial rfl) trivial rfl

end Buffers

end Clab.Common
