import Clab.Common.CrcCache

/-!
# Checksums in runs

Any calls on any lists keep what the raw buffers remember right, also after a
wrong result. A call gives the checksum of the bytes behind each of its nodes
exactly where no remembered value is adjusted, lengths apart whose zeros have
checksum 0.
-/

namespace Clab.Common

namespace Buffers

variable {b : Buffers} {l : Nat} {n : BufferNode} {crc : BitVec 32}

/-! ## One pass over the nodes -/

/-- What the raw buffers remember behind the node, where `crc` is the checksum before it. -/
def noted (b : Buffers) (n : BufferNode) (crc : BitVec 32) : Buffers :=
  if n.len ≠ 0 ∧ b.getCrc n = none then b.setCrc n (crc, calcCrc32 (b.nodeBytes n) crc) else b

theorem crcNode_snd (b : Buffers) (n : BufferNode) (crc : BitVec 32) :
    (b.crcNode n crc).2 = b.noted n crc := by
  unfold crcNode noted
  split
  case isTrue hlen => rw [if_neg (fun h => h.1 hlen)]
  case isFalse hlen =>
    rcases hget : b.getCrc n with _ | ⟨seed, val⟩
    · simp [hlen]
    · simp only
      split <;> simp

@[simp] theorem noted_lists (b : Buffers) (n : BufferNode) (crc : BitVec 32) :
    (b.noted n crc).lists = b.lists := by
  unfold noted
  split <;> rfl

theorem noted_data (b : Buffers) (n : BufferNode) (crc : BitVec 32) (r : Nat) :
    ((b.noted n crc).raws r).data = (b.raws r).data := by
  unfold noted
  split
  · rw [setCrc, setRaw_raws]
    split
    case isTrue hr => rw [hr]
    case isFalse => rfl
  · rfl

@[simp] theorem noted_nodeBytes (b : Buffers) (n : BufferNode) (crc : BitVec 32) :
    (b.noted n crc).nodeBytes = b.nodeBytes := by
  funext m
  simp only [nodeBytes, Raw.slice, noted_data]

theorem Coherent.noted (hb : Coherent b) (hn : n ∈ (b.lists l).nodes) (crc : BitVec 32) :
    Coherent (b.noted n crc) := by
  unfold Buffers.noted
  split
  · exact hb.setCrc hn crc
  · exact hb

theorem Coherent.length_nodeBytes (hb : Coherent b) (hn : n ∈ (b.lists l).nodes) :
    (b.nodeBytes n).length = n.len := by
  have hfits := (hb.fits l n hn).2
  unfold BufferNode.stop at hfits
  rw [nodeBytes, Raw.slice, List.length_take, List.length_drop]
  omega

/-- What is found for a node is the checksum of its bytes with the seed it was computed with. -/
theorem Coherent.getCrc_eq (hb : Coherent b) {seed val : BitVec 32}
    (hget : b.getCrc n = some (seed, val)) : val = calcCrc32 (b.nodeBytes n) seed := by
  obtain ⟨⟨ofs, ccrc⟩, hcrc, hfound⟩ := Option.bind_eq_some_iff.mp hget
  simp only at hfound
  split at hfound
  case isFalse => exact absurd hfound (by simp)
  case isTrue hofs =>
    have hval := (hb.cached n.raw ofs ccrc hcrc).2.2
    rw [Option.some.inj hfound, hofs] at hval
    simp only [BufferNode.stop, Nat.add_sub_cancel_left] at hval
    exact hval

/-- The checksum of the node is not remembered with another seed, a length apart whose zeros have
checksum 0. -/
def NodeUnadjusted (b : Buffers) (n : BufferNode) (crc : BitVec 32) : Prop :=
  ∀ seed val, b.getCrc n = some (seed, val) → n.len ≠ 0 → seed ≠ crc →
    calcCrc32Null n.len 0#32 = 0#32

theorem Coherent.crcNode_fst_iff (hb : Coherent b) (hn : n ∈ (b.lists l).nodes) :
    (b.crcNode n crc).1 = calcCrc32 (b.nodeBytes n) crc ↔ b.NodeUnadjusted n crc := by
  have hlength := hb.length_nodeBytes hn
  unfold crcNode NodeUnadjusted
  split
  case isTrue hlen =>
    have hnil : b.nodeBytes n = [] := List.eq_nil_of_length_eq_zero (by rw [hlength, hlen])
    rw [hnil]
    exact ⟨fun _ seed val hget hne => absurd hlen hne, fun _ => rfl⟩
  case isFalse hlen =>
    have hdata : b.nodeBytes n ≠ [] := fun hnil => hlen (by rw [← hlength, hnil]; rfl)
    rcases hget : b.getCrc n with _ | ⟨seed, val⟩
    · exact ⟨fun _ seed val hnone => absurd hnone (by simp), fun _ => rfl⟩
    · have hval := hb.getCrc_eq hget
      simp only
      split
      case isTrue hseed =>
        refine ⟨fun _ seed' val' hsome _ hne => ?_, fun _ => by rw [hval, hseed]⟩
        obtain ⟨rfl, -⟩ := Prod.mk.inj (Option.some.inj hsome)
        exact absurd hseed hne
      case isFalse hseed =>
        rw [hval, ← hlength, calcCrc32_adjust_iff hdata seed crc]
        constructor
        · intro hzero seed' val' hsome hne hother
          exact hzero
        · intro hunadjusted
          exact hunadjusted seed val (by rw [hval]) (by rw [hlength]; exact hlen) hseed

/-- No remembered checksum is adjusted where the loop goes over the nodes, lengths apart whose zeros
have checksum 0. -/
def Unadjusted : List BufferNode → Buffers → BitVec 32 → Prop
  | [], _, _ => True
  | n :: ns, b, crc =>
      b.NodeUnadjusted n crc ∧ Unadjusted ns (b.noted n crc) (calcCrc32 (b.nodeBytes n) crc)

theorem crcNodes_cons (n : BufferNode) (ns : List BufferNode) (b : Buffers) (crc : BitVec 32) :
    crcNodes (n :: ns) b crc = crcNodes ns (b.noted n crc) (b.crcNode n crc).1 := by
  rw [← crcNode_snd]
  rfl

/-- Behind each node the loop has the checksum of the bytes so far exactly where nothing is
adjusted. -/
theorem Coherent.crcNodes_take_iff (hb : Coherent b) {ns : List BufferNode}
    (hns : ∀ n ∈ ns, n ∈ (b.lists l).nodes) :
    (∀ k, (crcNodes (ns.take k) b crc).1 = calcCrc32 ((ns.take k).flatMap b.nodeBytes) crc) ↔
      Unadjusted ns b crc := by
  induction ns generalizing b crc with
  | nil => simp [Unadjusted, crcNodes, calcCrc32]
  | cons n ns ih =>
      have hn := hns n List.mem_cons_self
      have hnode : (b.crcNode n crc).1 = calcCrc32 (b.nodeBytes n) crc ↔ b.NodeUnadjusted n crc :=
        hb.crcNode_fst_iff hn
      have hrest := @ih (b.noted n crc) (calcCrc32 (b.nodeBytes n) crc) (hb.noted hn crc) fun m hm => by
        rw [noted_lists]
        exact hns m (List.mem_cons_of_mem n hm)
      rw [noted_nodeBytes] at hrest
      constructor
      · intro hall
        have hfirst := hall 1
        simp only [List.take_succ_cons, List.take_zero, crcNodes_cons, List.flatMap_cons,
          List.flatMap_nil, List.append_nil] at hfirst
        refine ⟨hnode.mp hfirst, hrest.mp fun k => ?_⟩
        have hnext := hall (k + 1)
        rw [List.take_succ_cons, crcNodes_cons, List.flatMap_cons, calcCrc32_append] at hnext
        rw [← hnext]
        exact congrArg (fun c => (crcNodes (ns.take k) (b.noted n crc) c).1) hfirst.symm
      · rintro ⟨hfirst, hafter⟩ k
        cases k with
        | zero => rfl
        | succ k =>
            rw [List.take_succ_cons, crcNodes_cons, List.flatMap_cons, calcCrc32_append,
              hnode.mpr hfirst]
            exact hrest.mpr hafter k

theorem Coherent.crcNodes_snd (hb : Coherent b) {ns : List BufferNode}
    (hns : ∀ n ∈ ns, n ∈ (b.lists l).nodes) (crc : BitVec 32) : Coherent (crcNodes ns b crc).2 := by
  induction ns generalizing b crc with
  | nil => exact hb
  | cons n ns ih =>
      rw [crcNodes_cons]
      refine ih (hb.noted (hns n List.mem_cons_self) crc) (fun m hm => ?_) _
      rw [noted_lists]
      exact hns m (List.mem_cons_of_mem n hm)

/-! ## Runs -/

/-- `invalidate_crc` of the raw buffers of nodes. -/
def invalidateCrc (b : Buffers) (l : Nat) : Buffers :=
  (b.lists l).nodes.foldl (fun b n => b.setRaw n.raw { b.raws n.raw with crc := none }) b

theorem Coherent.invalidateCrc (hb : Coherent b) (l : Nat) : Coherent (b.invalidateCrc l) := by
  have hnodes : ∀ ns : List BufferNode, ∀ b : Buffers, Coherent b →
      (∀ n ∈ ns, n ∈ (b.lists l).nodes) →
      Coherent (ns.foldl (fun b n => b.setRaw n.raw { b.raws n.raw with crc := none }) b) := by
    intro ns
    induction ns with
    | nil => exact fun b hb _ => hb
    | cons n ns ih =>
        intro b hb hns
        refine ih _ ?_ fun m hm => hns m (List.mem_cons_of_mem n hm)
        exact hb.setRaw rfl (hb.fits l n (hns n List.mem_cons_self)).1
          (fun ofs ccrc hcrc => absurd hcrc (by simp))
          fun m c hc hmark hraw ofs ccrc hcrc => absurd hcrc (by simp)
  exact hnodes _ b hb fun n hn => hn

/-- A call on the lists. -/
inductive BufferCall where
  | append (l : Nat) (data : List UInt8)
  | appendList (l src : Nat)
  | claimAppend (l src : Nat)
  | substrOf (l src off len : Nat)
  | splice (l off len : Nat) (claimBy : Option Nat)
  | copyIn (l off : Nat) (src : List UInt8)
  | invalidateCrc (l : Nat)
  | crc32c (l : Nat) (seed : BitVec 32)

/-- The lists after the call. `none` where the call fails, where it does not return (a list that is
appended to itself), or where a list claims its own range. -/
def BufferCall.run (b : Buffers) : BufferCall → Option Buffers
  | .append l data => some (b.append l data)
  | .appendList l src => if l = src then none else some (b.appendList l src)
  | .claimAppend l src => some (if l = src then b.setList l {} else b.claimAppend l src)
  | .substrOf l src off len =>
      -- the list is cleared before its nodes are gone over
      if l = src then if off = 0 ∧ len = 0 then some (b.setList l {}) else none
      else b.substrOf l src off len
  | .splice l off len claimBy => if claimBy = some l then none else b.splice l off len claimBy
  | .copyIn l off src => some (b.copyIn l off src)
  | .invalidateCrc l => some (b.invalidateCrc l)
  | .crc32c l seed => some (b.crc32c l seed).2

theorem Coherent.run (hb : Coherent b) (call : BufferCall) {b' : Buffers}
    (hrun : call.run b = some b') : Coherent b' := by
  cases call with
  | append l data => rw [← Option.some.inj hrun]; exact hb.append data
  | appendList l src =>
      simp only [BufferCall.run] at hrun
      split at hrun
      · exact absurd hrun (by simp)
      · rw [← Option.some.inj hrun]; exact hb.appendList l src
  | claimAppend l src =>
      rw [← Option.some.inj hrun]
      split
      · exact hb.clear l
      · exact (hb.appendList l src).clear src
  | substrOf l src off len =>
      simp only [BufferCall.run] at hrun
      split at hrun
      · split at hrun
        · rw [← Option.some.inj hrun]; exact hb.clear l
        · exact absurd hrun (by simp)
      · exact hb.substrOf hrun
  | splice l off len claimBy =>
      simp only [BufferCall.run] at hrun
      split at hrun
      case isTrue => exact absurd hrun (by simp)
      case isFalse hne => exact hb.splice hne hrun
  | copyIn l off src =>
      rw [← Option.some.inj hrun]
      exact hb.copyInNodes (fun n hn => ⟨l, hn⟩) off src
  | invalidateCrc l => rw [← Option.some.inj hrun]; exact hb.invalidateCrc l
  | crc32c l seed => rw [← Option.some.inj hrun]; exact hb.crcNodes_snd (fun n hn => hn) seed

/-- The lists after some calls, from none. -/
inductive BufferRun : Buffers → Prop where
  | start : BufferRun {}
  | step {b b' : Buffers} (call : BufferCall) : BufferRun b → call.run b = some b' → BufferRun b'

theorem BufferRun.coherent {b : Buffers} (hb : BufferRun b) : Coherent b := by
  induction hb with
  | start => exact coherent_empty
  | step call hb hrun ih => exact ih.run call hrun

/-- In every run the checksum is that of the bytes behind each node exactly where no remembered one
is adjusted; checksums compose over concatenation. -/
theorem crc32c_exact_iff (b : Buffers) (hb : BufferRun b) (l : Nat) (seed : BitVec 32) :
    ((∀ k, (crcNodes ((b.lists l).nodes.take k) b seed).1 =
        calcCrc32 (((b.lists l).nodes.take k).flatMap b.nodeBytes) seed) ↔
      Unadjusted (b.lists l).nodes b seed) ∧
    (Unadjusted (b.lists l).nodes b seed → (b.crc32c l seed).1 = calcCrc32 (b.bytes l) seed) ∧
    ∀ x y : List UInt8, ∀ s, calcCrc32 (x ++ y) s = calcCrc32 y (calcCrc32 x s) := by
  have hiff := @Coherent.crcNodes_take_iff b l seed hb.coherent (b.lists l).nodes fun n hn => hn
  refine ⟨hiff, fun hunadjusted => ?_, calcCrc32_append⟩
  have hall := hiff.mpr hunadjusted (b.lists l).nodes.length
  rw [List.take_length] at hall
  exact hall

/-- A list that is summed with seed 0. -/
def summed : Buffers := ((({} : Buffers).append 0 [1, 2, 3]).crc32c 0 0#32).2

theorem summed_run : BufferRun summed :=
  .step (.crc32c 0 0#32) (.step (.append 0 [1, 2, 3]) .start rfl) rfl

/-- With seed 0 again the sum is the one remembered. -/
theorem crc32c_exact_again : (summed.crc32c 0 0#32).1 = calcCrc32 (summed.bytes 0) 0#32 := by
  have hnodes : (summed.lists 0).nodes = [{ raw := 0, off := 0, len := 3, carriage := true }] := by
    decide +kernel
  have hseed : (summed.getCrc { raw := 0, off := 0, len := 3, carriage := true }).map Prod.fst =
      some 0#32 := by
    decide +kernel
  refine (crc32c_exact_iff summed summed_run 0 0#32).2.1 ?_
  rw [hnodes]
  refine ⟨fun seed val hget hlen hne => ?_, trivial⟩
  rw [hget] at hseed
  exact absurd (Option.some.inj hseed) hne

/-- With seed 1 the remembered sum is adjusted, and the result is another one. -/
theorem not_crc32c_exact : ¬ ∀ b, BufferRun b → ∀ l seed,
    (b.crc32c l seed).1 = calcCrc32 (b.bytes l) seed := by
  intro hall
  have hsum := hall summed summed_run 0 1#32
  revert hsum
  decide +kernel

end Buffers

end Clab.Common
