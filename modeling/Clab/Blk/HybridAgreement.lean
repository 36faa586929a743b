import Clab.Blk.HybridAllocator

/-!
# Where the hybrid allocator agrees with its AVL part

`HybridAllocator::allocate` calls the loop of the AVL allocator without what
`AvlAllocator::allocate` does first: a maximum of 0 is not replaced by what is
wanted, one of 4 GiB is not cut down, and the arguments are checked only if the
child is asked for the rest.
-/

namespace Clab.Blk

open Clab.Common Clab.RangeSet

namespace AvlAllocator

/-! ## Any run of the loop -/

section Loop

variable {a a' : AvlAllocator} {size unit start len : Nat}

theorem fitHalving_len {n : Nat} (h : a.fitHalving unit n size = .ok (some (start, len))) :
    len ≤ size ∧ (len = size ∨ unit ∣ len) := by
  induction n generalizing size with
  | zero => cases h
  | succ n ih =>
      rw [fitHalving] at h
      cases hp : a.pickBlockFits size unit with
      | some offset =>
          rw [hp] at h
          cases h
          exact ⟨le_rfl, Or.inl rfl⟩
      | none =>
          rw [hp] at h
          dsimp only at h
          split at h
          · have hle := p2align_le (size / 2) unit
            obtain ⟨hlen, hdvd⟩ := ih h
            refine ⟨by omega, Or.inr ?_⟩
            rcases hdvd with heq | hdvd
            · rw [heq]
              exact Nat.dvd_mul_left unit _
            · exact hdvd
          · cases h

/-- What a search gives, and what it leaves alone. -/
theorem chooseBlock_result {bySize : Bool} {block : Option (Nat × Nat)}
    (h : a.chooseBlock size unit bySize = .ok (block, a')) :
    (∀ start len, block = some (start, len) → len ≤ size ∧ (len = size ∨ unit ∣ len)) ∧
      (block = none → a' = a) ∧ a'.spilled = a.spilled ∧ a'.rangeCountCap = a.rangeCountCap := by
  have hby : (do
      let block ← a.fitHalving unit 64 size
      .ok (block, a) : Except AvlFault _) = .ok (block, a') →
      (∀ start len, block = some (start, len) → len ≤ size ∧ (len = size ∨ unit ∣ len)) ∧
        (block = none → a' = a) ∧ a'.spilled = a.spilled ∧
        a'.rangeCountCap = a.rangeCountCap := by
    intro h
    obtain ⟨found, hfound, h⟩ := bind_eq_ok h
    cases h
    refine ⟨fun start len heq => ?_, fun _ => rfl, rfl, rfl⟩
    rw [heq] at hfound
    exact fitHalving_len hfound
  unfold chooseBlock at h
  split at h
  · exact hby h
  · dsimp only at h
    split at h
    · cases h
    · unfold pickBlockAfter at h
      cases hs : a.searchAfter (a.lbas (Nat.log2 (size &&& sub64 0 size))) size unit with
      | some offset =>
          rw [hs] at h
          cases h
          refine ⟨fun start len heq => ?_, fun heq => (by cases heq), rfl, rfl⟩
          cases heq
          exact ⟨le_rfl, Or.inl rfl⟩
      | none =>
          rw [hs] at h
          exact hby h

/-- A range taken out of uncapped trees spills nothing. -/
theorem rangeSizeTreeRm_spilled {r : RangeSeg} (h : a.rangeSizeTreeRm r = .ok a') :
    a'.spilled = a.spilled ∧ a'.rangeCountCap = a.rangeCountCap := by
  unfold rangeSizeTreeRm at h
  split at h
  · cases h
  · cases h
    exact ⟨rfl, rfl⟩

theorem processRangeRemoval_spilled {stop : Nat} {before after : List RangeSeg} {rs : RangeSeg}
    (hcap : a.rangeCountCap = 0)
    (h : a.processRangeRemoval start stop before rs after = .ok a') :
    a'.spilled = a.spilled ∧ a'.rangeCountCap = a.rangeCountCap := by
  obtain ⟨a₁, hrm, h⟩ := bind_eq_ok h
  obtain ⟨hs₁, hc₁⟩ := rangeSizeTreeRm_spilled hrm
  rw [← hs₁, ← hc₁]
  rw [← hc₁] at hcap
  split at h
  · obtain ⟨⟨b, a₂⟩, hins, h⟩ := bind_eq_ok h
    rw [tryInsertRange_uncapped (by exact hcap)] at hins
    cases hins
    dsimp only at h
    rw [rangeSizeTreeTryInsert_uncapped (by exact hcap)] at h
    cases h
    exact ⟨rfl, rfl⟩
  split at h
  · dsimp only at h
    rw [rangeSizeTreeTryInsert_uncapped (by exact hcap)] at h
    cases h
    exact ⟨rfl, rfl⟩
  split at h
  · dsimp only at h
    rw [rangeSizeTreeTryInsert_uncapped (by exact hcap)] at h
    cases h
    exact ⟨rfl, rfl⟩
  · cases h
    exact ⟨rfl, rfl⟩

theorem removeFromTree_spilled {b : Bool} (hcap : a.rangeCountCap = 0)
    (h : a.removeFromTree start size = .ok (b, a')) :
    a'.spilled = a.spilled ∧ a'.rangeCountCap = a.rangeCountCap := by
  unfold removeFromTree at h
  split at h
  · cases h
  dsimp only at h
  split at h
  · cases h
    exact ⟨rfl, rfl⟩
  · split at h
    · cases h
      exact ⟨rfl, rfl⟩
    split at h
    · cases h
    obtain ⟨a₁, hproc, h⟩ := bind_eq_ok h
    cases h
    exact processRangeRemoval_spilled hcap hproc

theorem removeFromTree_pos {b : Bool} (h : a.removeFromTree start size = .ok (b, a')) :
    0 < size := by
  unfold removeFromTree at h
  split at h
  · cases h
  · omega

/-- A block taken is what was asked for, or whole units. -/
theorem allocateSingle_result {block : Option (Nat × Nat)}
    (h : a.allocateSingle size unit = .ok (block, a')) :
    (∀ start len, block = some (start, len) →
      0 < len ∧ len ≤ size ∧ (len = size ∨ unit ∣ len)) ∧
      (block = none → a' = a) ∧
      (a.rangeCountCap = 0 → a'.spilled = a.spilled ∧ a'.rangeCountCap = 0) := by
  unfold allocateSingle at h
  dsimp only at h
  generalize (a.rangeSizeTree.getLast?.map rangeLength).getD 0 = maxSize at h
  have halign := p2align_le maxSize unit
  have hdvd : unit ∣ p2align maxSize unit := Nat.dvd_mul_left unit _
  generalize hsz : (if maxSize < size then p2align maxSize unit else size) = sz at h
  have hle : sz ≤ size ∧ (sz = size ∨ unit ∣ sz) := by
    rw [← hsz]
    split
    · exact ⟨by omega, Or.inr hdvd⟩
    · exact ⟨le_rfl, Or.inl rfl⟩
  by_cases hnone : maxSize < size ∧ maxSize < unit
  · rw [if_pos hnone] at h
    cases h
    exact ⟨fun _ _ heq => (by cases heq), fun _ => rfl, fun hcap => ⟨rfl, hcap⟩⟩
  rw [if_neg hnone] at h
  by_cases hfail : maxSize < size ∧ sz = 0
  · rw [if_pos hfail] at h
    cases h
  rw [if_neg hfail] at h
  by_cases hdev : a.deviceSize = 0
  · rw [if_pos hdev] at h
    cases h
  rw [if_neg hdev] at h
  obtain ⟨⟨found, a₁⟩, hchoose, h⟩ := bind_eq_ok h
  obtain ⟨hlen, hsame, hs, hc⟩ := chooseBlock_result hchoose
  cases found with
  | none =>
      cases h
      exact ⟨fun _ _ heq => (by cases heq), fun _ => hsame rfl, fun hcap => ⟨hs, hc.trans hcap⟩⟩
  | some found =>
      obtain ⟨⟨b, a₂⟩, hrem, h⟩ := bind_eq_ok h
      cases h
      refine ⟨fun start len heq => ?_, fun heq => (by cases heq), fun hcap => ?_⟩
      · cases heq
        obtain ⟨hlt, heq⟩ := hlen _ _ rfl
        refine ⟨removeFromTree_pos hrem, by omega, ?_⟩
        rcases heq with heq | hd
        · rw [heq]
          exact hle.2
        · exact Or.inr hd
      · obtain ⟨hs', hc'⟩ := removeFromTree_spilled (hc.trans hcap) hrem
        exact ⟨hs'.trans hs, hc'.trans (hc.trans hcap)⟩

/-- What the loop of `_allocate` adds, whatever the state is. -/
structure Added (want unit bound allocated : Nat) (extents : List PExtent) (a : AvlAllocator)
    (allocated' : Nat) (extents' : List PExtent) (a' : AvlAllocator) : Prop where
  appended : ∃ new, extents' = extents ++ new ∧
    allocated + (new.map (·.length)).sum ≤ allocated' ∧
    (bound < 2 ^ 32 → allocated' = allocated + (new.map (·.length)).sum)
  le : allocated ≤ want → allocated' ≤ want
  grows : extents' = extents ∨ allocated < allocated'
  dvd : unit ∣ bound ∨ want ≤ bound → unit ∣ want - allocated → unit ∣ want - allocated'
  spilled : a.rangeCountCap = 0 → a'.spilled = a.spilled

theorem allocateLoop_added {want bound n allocated allocated' : Nat}
    {extents extents' : List PExtent}
    (h : allocateLoop want unit bound n allocated extents a = .ok (allocated', extents', a')) :
    Added want unit bound allocated extents a allocated' extents' a' := by
  induction n generalizing allocated extents a with
  | zero => cases h
  | succ n ih =>
      have hstop : Added want unit bound allocated extents a allocated extents a :=
        ⟨⟨[], by simp, by simp, by simp⟩, fun hle => hle, Or.inl rfl, fun _ hd => hd,
          fun _ => rfl⟩
      rw [allocateLoop] at h
      split at h
      · rename_i hlt
        obtain ⟨⟨block, a₁⟩, hsingle, h⟩ := bind_eq_ok h
        obtain ⟨hlen, hnone, hspill⟩ := allocateSingle_result hsingle
        cases block with
        | none =>
            cases h
            rw [hnone rfl]
            exact hstop
        | some block =>
            obtain ⟨start, len⟩ := block
            obtain ⟨hpos, hle, hdvd⟩ := hlen start len rfl
            obtain ⟨⟨new, hnew, hsum, hexact⟩, hle', -, hdvd', hspilled⟩ := ih h
            have htotal : ((⟨start, len % 2 ^ 32⟩ :: new : List PExtent).map (·.length)).sum =
                len % 2 ^ 32 + (new.map (·.length)).sum := by
              rw [List.map_cons, List.sum_cons]
            have hcut : len % 2 ^ 32 ≤ len := Nat.mod_le _ _
            refine ⟨⟨⟨start, len % 2 ^ 32⟩ :: new, ?_, ?_, fun hb => ?_⟩, fun hw => ?_,
              Or.inr (by omega), fun hb hd => ?_, fun hcap => ?_⟩
            · rw [hnew, List.append_assoc]
              rfl
            · rw [htotal]
              omega
            · rw [htotal, Nat.mod_eq_of_lt (by omega), hexact hb]
              omega
            · exact hle' (by omega)
            · refine hdvd' hb ?_
              rw [← Nat.sub_sub]
              refine Nat.dvd_sub hd ?_
              rcases hdvd with heq | hdvd
              · rw [heq]
                rcases hb with hb | hb
                · rcases Nat.le_total bound (want - allocated) with hmin | hmin
                  · rwa [Nat.min_eq_left hmin]
                  · rwa [Nat.min_eq_right hmin]
                · rwa [Nat.min_eq_right (by omega)]
              · exact hdvd
            · exact (hspilled (hspill hcap).2).trans (hspill hcap).1
      · cases h
        exact hstop

/-- Only the smaller of the bound and what is wanted counts. -/
theorem allocateLoop_congr {want b b' : Nat} (h : min b want = min b' want) (n allocated : Nat)
    (extents : List PExtent) (a : AvlAllocator) :
    allocateLoop want unit b n allocated extents a =
      allocateLoop want unit b' n allocated extents a := by
  induction n generalizing allocated extents a with
  | zero => rfl
  | succ n ih =>
      rw [allocateLoop, allocateLoop, show min b (want - allocated) = min b' (want - allocated) by
        omega]
      simp only [ih]

end Loop

/-- `allocate` on the arguments it accepts. -/
theorem allocate_accepted (a : AvlAllocator) {want unit : Nat} (hu : isp2 unit = true)
    (hwant : want % unit = 0) (maxAllocSize : Nat) :
    a.allocate want unit maxAllocSize =
      a.allocateInner want unit (a.maxExtent want maxAllocSize) := by
  unfold allocate
  rw [hu, if_neg (by decide), if_neg (fun hn => hn hwant)]

theorem allocateInner_of_loop {a a' : AvlAllocator} {want unit bound allocated : Nat}
    {extents : List PExtent}
    (h : allocateLoop want unit bound (want + 1) 0 [] a = .ok (allocated, extents, a')) :
    a.allocateInner want unit bound =
      .ok (if allocated = 0 then -enospc else allocated, extents, a') := by
  unfold allocateInner
  rw [h]
  rfl

end AvlAllocator

namespace HybridAllocator

open AvlAllocator

variable {avl a : AvlAllocator} {child : BitmapAllocator} {want unit maxAllocSize : Nat}

/-! ## The call after the loop -/

/-- With nothing spilled and an empty child the result is that of the loop,
unless the child is asked for the rest and refuses the arguments. -/
theorem allocate_of_loop {allocated : Nat} {extents : List PExtent}
    (hloop : allocateLoop want unit maxAllocSize (want + 1) 0 [] avl = .ok (allocated, extents, a))
    (hspill : a.spilled = []) (hchild : child.Empty) (hext : allocated = 0 → extents = [])
    (hint : Int) : allocate ⟨avl, child⟩ want unit maxAllocSize hint [] =
      if allocated < want ∧
          ¬ (isp2 unit ∧ (want - allocated) % unit = 0 ∧ unit ≥ child.l1.l0Granularity) then
        .error (.child .assertFail)
      else .ok (if allocated = 0 then -enospc else allocated, extents, ⟨a, child⟩) := by
  have hafter : afterAvl a child = .ok ⟨a, child⟩ := by
    unfold afterAvl
    rw [hspill]
    cases a
    cases hspill
    rfl
  unfold allocate
  dsimp only
  rw [allocateInner_of_loop hloop]
  show (afterAvl a child >>= _) = _
  rw [hafter]
  generalize hr : (if allocated = 0 then -(enospc : Int) else allocated) = r
  have hkeep : (if r > 0 then (r.toNat, ([] : List PExtent) ++ extents) else (0, [])) =
      (allocated, extents) := by
    rcases Nat.eq_zero_or_pos allocated with h₀ | hpos
    · rw [← hr, hext h₀, h₀]
      rfl
    · rw [if_neg (by omega)] at hr
      rw [← hr, if_pos (by omega)]
      rfl
  have hresult : (if allocated ≠ 0 then (allocated : Int) else -enospc) = r := by
    rw [← hr, ite_not]
  dsimp only [Except.bind, bind]
  rw [hkeep]
  dsimp only
  by_cases hlt : allocated < want
  · rw [if_pos hlt, hchild.allocate]
    by_cases hok : isp2 unit ∧ (want - allocated) % unit = 0 ∧ unit ≥ child.l1.l0Granularity
    · rw [if_pos hok, if_neg (fun hn => hn.2 hok), ← hresult]
      rfl
    · rw [if_neg hok, if_pos ⟨hlt, hok⟩]
      rfl
  · rw [if_neg hlt, hresult, if_neg (fun hn => hlt hn.1)]
    rfl

/-- A call that returns has the result of the loop. -/
theorem loop_of_allocate {r : Int} {extents : List PExtent} {h' : HybridAllocator} {hint : Int}
    (hok : allocate ⟨avl, child⟩ want unit maxAllocSize hint [] = .ok (r, extents, h'))
    (hchild : child.Empty) (hcap : avl.rangeCountCap = 0) (hspill : avl.spilled = []) :
    ∃ allocated a, allocateLoop want unit maxAllocSize (want + 1) 0 [] avl =
      .ok (allocated, extents, a) ∧ r = if allocated = 0 then -enospc else allocated := by
  cases hloop : allocateLoop want unit maxAllocSize (want + 1) 0 [] avl with
  | error f =>
      unfold allocate allocateInner at hok
      dsimp only at hok
      rw [hloop] at hok
      cases hok
  | ok result =>
      obtain ⟨allocated, extents', a⟩ := result
      have hadded := allocateLoop_added hloop
      rw [allocate_of_loop hloop ((hadded.spilled hcap).trans hspill) hchild
        (fun h₀ => hadded.grows.resolve_right (by omega))] at hok
      split at hok
      · cases hok
      · cases hok
        exact ⟨allocated, a, rfl, rfl⟩

/-! ## Agreement -/

/-- The free set is held in the AVL part, under a cap that the call does not
reach. -/
structure InAvl (avl : AvlAllocator) (want unit maxAllocSize : Nat) : Prop where
  holds : ∃ free, Holds { avl with rangeCountCap := 0 } free
  spilled : avl.spilled = []
  capNotReached : ∀ {r extents a}, avl.allocate want unit maxAllocSize = .ok (r, extents, a) →
    a.spilled = []

/-- `allocate` gives what the AVL allocator alone gives and leaves what it
leaves, and no length is cut to 32 bits. -/
def Agrees (h : HybridAllocator) (want unit maxAllocSize : Nat) (hint : Int) : Prop :=
  ∀ {r extents a}, h.avl.allocate want unit maxAllocSize = .ok (r, extents, a) →
    ∃ h', h.allocate want unit maxAllocSize hint [] = .ok (r, extents, h') ∧
      covered h'.avl.rangeTree = covered a.rangeTree ∧ h'.child.Empty ∧
      (0 < r → r = (extents.map (·.length)).sum)

/-- The maximum needs no normalisation: the unit is whole blocks of the child,
the maximum does not cut a unit, and the AVL allocator would use the same one. -/
def Suits (block want unit maxAllocSize : Nat) : Prop :=
  want = 0 ∨ (block ≤ unit ∧ (unit ∣ maxAllocSize ∨ want ≤ maxAllocSize) ∧
    min maxAllocSize want = min ((AvlAllocator.create 0 block 0).maxExtent want maxAllocSize) want)

instance (block want unit maxAllocSize : Nat) : Decidable (Suits block want unit maxAllocSize) :=
  inferInstanceAs (Decidable (_ ∨ _))

theorem agrees_of_suits (hu : isp2 unit = true) (hwant : unit ∣ want)
    (hchild : child.Empty) (hblock : child.l1.l0Granularity = avl.blockSize)
    (hs : Suits avl.blockSize want unit maxAllocSize) (hin : InAvl avl want unit maxAllocSize)
    (hint : Int) : Agrees ⟨avl, child⟩ want unit maxAllocSize hint := by
  intro r extents a hok
  have hspill := hin.capNotReached hok
  rw [allocate_accepted avl hu (Nat.mod_eq_zero_of_dvd hwant)] at hok
  obtain ⟨⟨allocated, extents', a'⟩, hloop, hok⟩ := bind_eq_ok hok
  cases hok
  have hadded := allocateLoop_added hloop
  obtain ⟨new, hnew, -, hexact⟩ := hadded.appended
  have hsum := hexact (avl.maxExtent_lt want maxAllocSize)
  rw [List.nil_append] at hnew
  rw [Nat.zero_add] at hsum
  have hext : allocated = 0 → extents = [] := by
    intro h₀
    exact hadded.grows.resolve_right (by omega)
  have hmin : want = 0 ∨ min (avl.maxExtent want maxAllocSize) want = min maxAllocSize want := by
    rcases hs with h₀ | ⟨-, -, hmin⟩
    · exact Or.inl h₀
    · exact Or.inr hmin.symm
  have hloop' : allocateLoop want unit maxAllocSize (want + 1) 0 [] avl =
      .ok (allocated, extents, a) := by
    rw [← hloop]
    rcases hmin with rfl | hmin
    · rfl
    · exact allocateLoop_congr hmin.symm _ _ _ _
  refine ⟨⟨a, child⟩, ?_, rfl, hchild, fun hr => ?_⟩
  · rw [allocate_of_loop hloop' hspill hchild hext, if_neg]
    rintro ⟨hlt, hrefuse⟩
    rcases hs with h₀ | ⟨hle, hcut, -⟩
    · omega
    · refine hrefuse ⟨hu, Nat.mod_eq_zero_of_dvd ?_, by omega⟩
      exact (allocateLoop_added hloop').dvd hcut (by rwa [Nat.sub_zero])
  · rw [hnew, ← hsum]
    split at hr
    · exact absurd hr (by decide)
    · rw [if_neg ‹_›]

/-! ## Where it does not suit -/

/-- A device of 4 EiB whose first `length` bytes are free. -/
def startFree (block length : Nat) : AvlAllocator :=
  { AvlAllocator.create (2 ^ 62) block 0 with
    rangeTree := [⟨0, length⟩], rangeSizeTree := [⟨0, length⟩], numFree := length }

section StartFree

variable {block length size : Nat}

theorem holds_startFree (h₀ : 0 < length) (hle : length ≤ 2 ^ 62) :
    Holds (startFree block length) (Set.Ico 0 length) := by
  refine ⟨⟨by simpa [startFree] using h₀, by simp [startFree]⟩,
    ⟨List.Perm.refl _, by simp [startFree], ?_⟩, ?_, ?_, rfl, show 2 ^ 62 < 2 ^ 63 by decide⟩
  · simp [startFree, rangeLength]
  · ext x
    simp [startFree, covered]
  · intro r hr
    rw [List.mem_singleton.mp hr]
    exact hle

theorem inAvl_of_holds {free : Set Nat} (h : Holds avl free) (hspill : avl.spilled = [])
    (hu : isp2 unit = true) (hwant : unit ∣ want) : InAvl avl want unit maxAllocSize := by
  have hcap := h.uncapped
  refine ⟨⟨free, ?_⟩, hspill, fun hok => ?_⟩
  · cases avl
    cases hcap
    exact h
  · rw [allocate_accepted avl hu (Nat.mod_eq_zero_of_dvd hwant)] at hok
    obtain ⟨⟨allocated, extents, a⟩, hloop, hok⟩ := bind_eq_ok hok
    cases hok
    rw [(allocateLoop_added hloop).spilled hcap, hspill]

theorem p2roundup_zero (unit : Nat) : p2roundup 0 unit = 0 := by
  unfold p2roundup
  rcases Nat.eq_zero_or_pos unit with rfl | hu
  · rfl
  · rw [Nat.div_eq_of_lt (by omega), Nat.zero_mul, Nat.zero_mod]

theorem startFree_pickBlockFits (hle : size ≤ length) (hlen : length ≤ 2 ^ 62) (unit : Nat) :
    (startFree block length).pickBlockFits size unit = some 0 := by
  have hdrop : (startFree block length).rangeSizeTree.dropWhile
      (fun r => decide (rangeLength r < size)) = [⟨0, length⟩] := by
    show List.dropWhile _ [(⟨0, length⟩ : RangeSeg)] = _
    rw [List.dropWhile_cons_of_neg]
    simpa [rangeLength] using hle
  unfold pickBlockFits
  rw [hdrop, scanFits, if_neg (by decide)]
  dsimp only
  rw [p2roundup_zero, add64_of_lt (by omega), Nat.zero_add, if_pos hle]

/-- A block that fits is found at the start. -/
theorem startFree_chooseBlock (h₀ : 0 < size) (hle : size ≤ length) (hlen : length ≤ 2 ^ 62)
    (unit : Nat) (bySize : Bool) : ∃ f, (startFree block length).chooseBlock size unit bySize =
      .ok (some (0, size), { startFree block length with lbas := f }) := by
  have hfit : (startFree block length).fitHalving unit 64 size = .ok (some (0, size)) := by
    rw [fitHalving, startFree_pickBlockFits hle hlen]
  unfold chooseBlock
  cases bySize with
  | true =>
      refine ⟨(startFree block length).lbas, ?_⟩
      rw [if_pos rfl, hfit]
      rfl
  | false =>
      rw [if_neg Bool.false_ne_true]
      dsimp only
      rw [if_neg (lowbit_ne_zero h₀ (by omega))]
      have hsearch : (startFree block length).searchAfter 0 size unit = some 0 := by
        unfold searchAfter startFree
        dsimp only
        rw [List.dropWhile_cons_of_neg (by simp; omega), scanAfter]
        dsimp only
        rw [p2roundup_zero, add64_of_lt (by omega), Nat.zero_add, if_pos hle]
      unfold pickBlockAfter
      rw [show (startFree block length).lbas (Nat.log2 (size &&& sub64 0 size)) = 0 from rfl,
        hsearch]
      exact ⟨_, rfl⟩

theorem startFree_maxSize (block length : Nat) :
    ((startFree block length).rangeSizeTree.getLast?.map rangeLength).getD 0 = length := rfl

/-- The first block is as long as what is asked for, or all that is free. -/
theorem startFree_allocateSingle (h₀ : 0 < size) (hfree : 0 < length) (hlen : length ≤ 2 ^ 62)
    (hunit : size ≤ length ∨ unit ∣ length) :
    ∃ a', (startFree block length).allocateSingle size unit = .ok (some (0, min size length), a') ∧
      Holds a' (Set.Ico 0 length \ Set.Ico 0 (min size length)) ∧
      a'.deviceSize = 2 ^ 62 := by
  have h := @holds_startFree block length hfree hlen
  have hdev : (startFree block length).deviceSize = 2 ^ 62 := rfl
  have hsize : (if length < size then p2align length unit else size) = min size length := by
    split
    · rw [p2align, Nat.div_mul_cancel (hunit.resolve_left (by omega)), Nat.min_eq_right (by omega)]
    · rw [Nat.min_eq_left (by omega)]
  have hunit' : ¬ (length < size ∧ length < unit) := by
    rintro ⟨hlt, hlt'⟩
    have := Nat.le_of_dvd hfree (hunit.resolve_left (by omega))
    omega
  unfold allocateSingle
  dsimp only
  rw [startFree_maxSize, hsize, if_neg hunit', if_neg (by omega), if_neg (by omega)]
  obtain ⟨f, hchoose⟩ := @startFree_chooseBlock block length (min size length) (by omega)
    (Nat.min_le_right _ _) hlen unit
    (decide (length < size ∨ length < rangeSizeAllocThreshold ∨
      (startFree block length).numFree * 100 % 2 ^ 64 / (startFree block length).deviceSize <
        rangeSizeAllocFreePct))
  rw [hchoose]
  obtain ⟨a', hrem, hholds, hsame⟩ := removeFromTree_spec (h.withLbas f)
    (show 0 < min size length by omega) (show 0 + min size length ≤ 2 ^ 62 by omega)
    (Set.Ico_subset_Ico_right (by omega))
  rw [Nat.zero_add] at hholds
  refine ⟨a', ?_, hholds, hsame.deviceSize.trans hdev⟩
  show (AvlAllocator.removeFromTree _ _ _ >>= _) = _
  rw [hrem]
  rfl

end StartFree

section Disagreement

variable (hu : isp2 unit = true) (hwant : unit ∣ want) (h₀ : 0 < want)
include hu hwant h₀

/-- With nothing free the child is asked, and refuses a unit below a block. -/
theorem not_agrees_smallUnit {block : Nat} (hchild : child.Empty)
    (hlt : unit < child.l1.l0Granularity) (hint : Int) :
    ¬ Agrees ⟨AvlAllocator.create (2 ^ 62) block 0, child⟩ want unit maxAllocSize hint := by
  have hu₀ : 0 < unit := Nat.pos_of_dvd_of_pos hwant h₀
  have h : Holds (AvlAllocator.create (2 ^ 62) block 0) ∅ := holds_create (by decide) block 0
  have hloop (bound : Nat) :
      allocateLoop want unit bound (want + 1) 0 [] (AvlAllocator.create (2 ^ 62) block 0) =
        .ok (0, [], AvlAllocator.create (2 ^ 62) block 0) := by
    rw [allocateLoop, if_pos h₀, allocateSingle_nothing h hu₀ rfl (by simp [AvlAllocator.create])]
    rfl
  intro hagrees
  obtain ⟨h', hok, -⟩ := hagrees ((allocate_accepted _ hu (Nat.mod_eq_zero_of_dvd hwant) _).trans
    (allocateInner_of_loop (hloop _)))
  rw [allocate_of_loop (hloop _) rfl hchild (fun _ => rfl),
    if_pos ⟨h₀, fun hn => absurd hn.2.2 (by omega)⟩] at hok
  cases hok

/-- A maximum of 0 asks for a block of no bytes. -/
theorem not_agrees_zero {free : Set Nat} {offset : Nat} (hu64 : unit < 2 ^ 64)
    (h : Holds avl free) (hdev : avl.deviceSize ≠ 0)
    (hpick : avl.pickBlockFits 0 unit = some offset) (hpos : 0 < avl.maxExtent want 0)
    (hint : Int) : ¬ Agrees ⟨avl, child⟩ want unit 0 hint := by
  have hd := isp2_dvd hu hu64
  have hu₀ : 0 < unit := Nat.pos_of_dvd_of_pos hwant h₀
  obtain ⟨new, a', hloop, -⟩ := @allocateLoop_spec _ _ unit want _ hu₀ hd hpos
    (maxExtent_lt _ want 0) (want + 1) 0 [] h (Nat.zero_le want) (by omega)
  obtain ⟨f, hf⟩ := allocateSingle_zero_fails hdev hpick
  have hfails : avl.allocateInner want unit 0 = .error f := by
    unfold allocateInner
    rw [allocateLoop, if_pos h₀, Nat.zero_min, hf]
    rfl
  intro hagrees
  obtain ⟨h', hok, -⟩ := hagrees ((allocate_accepted _ hu (Nat.mod_eq_zero_of_dvd hwant) _).trans
    (allocateInner_of_loop hloop))
  unfold allocate at hok
  dsimp only at hok
  rw [hfails] at hok
  cases hok

/-- A maximum that is no multiple of the unit leaves a rest that is none, which
the child refuses. -/
theorem not_agrees_cut {block : Nat} (hchild : child.Empty)
    (hsame : (startFree block maxAllocSize).maxExtent want maxAllocSize = maxAllocSize)
    (hcut : ¬ unit ∣ maxAllocSize) (hlt : maxAllocSize < want) (hint : Int) :
    ¬ Agrees ⟨startFree block maxAllocSize, child⟩ want unit maxAllocSize hint := by
  have hu₀ : 0 < unit := Nat.pos_of_dvd_of_pos hwant h₀
  have hmax₀ : 0 < maxAllocSize := by
    rcases Nat.eq_zero_or_pos maxAllocSize with rfl | hpos
    · exact absurd (Nat.dvd_zero unit) hcut
    · exact hpos
  have hmax := maxExtent_lt (startFree block maxAllocSize) want maxAllocSize
  rw [hsame] at hmax
  obtain ⟨a', hsingle, hholds, hdev⟩ := @startFree_allocateSingle unit block maxAllocSize
    maxAllocSize hmax₀ hmax₀ (by omega) (Or.inl le_rfl)
  rw [Nat.min_self] at hsingle hholds
  rw [Set.sdiff_self] at hholds
  have hnil : a'.rangeTree = [] := by
    by_contra hne
    obtain ⟨r, hr, -⟩ := hholds.exists_maxSize hne
    have hmem : r.start ∈ covered a'.rangeTree :=
      ⟨r, hr, le_rfl, hholds.canonical.nonempty r hr⟩
    rw [hholds.covers] at hmem
    exact hmem
  have hloop : allocateLoop want unit maxAllocSize (want + 1) 0 []
      (startFree block maxAllocSize) = .ok (maxAllocSize, [⟨0, maxAllocSize⟩], a') := by
    rw [allocateLoop, if_pos h₀, Nat.sub_zero, Nat.min_eq_left hlt.le, hsingle]
    show allocateLoop want unit maxAllocSize want (0 + maxAllocSize)
      ([] ++ [⟨0, maxAllocSize % 2 ^ 32⟩]) a' = _
    obtain ⟨n, rfl⟩ : ∃ n, want = n + 1 := ⟨want - 1, by omega⟩
    rw [allocateLoop, if_pos (by omega), allocateSingle_nothing hholds hu₀ hnil (by omega),
      Nat.mod_eq_of_lt hmax, Nat.zero_add]
    rfl
  have hspill : a'.spilled = [] := (allocateLoop_added hloop).spilled rfl
  intro hagrees
  obtain ⟨h', hok, -⟩ := hagrees ((allocate_accepted _ hu (Nat.mod_eq_zero_of_dvd hwant) _).trans
    (allocateInner_of_loop (by rw [hsame]; exact hloop)))
  have hrefuse : ¬ unit ∣ want - maxAllocSize := by
    intro hd
    have := Nat.dvd_sub hwant hd
    rw [Nat.sub_sub_self hlt.le] at this
    exact hcut this
  rw [allocate_of_loop hloop hspill hchild (by omega),
    if_pos ⟨hlt, fun hn => hrefuse (Nat.dvd_of_mod_eq_zero hn.2.1)⟩] at hok
  cases hok

/-- A longer first block is a longer extent, or one whose length is cut to 32
bits and no longer tells what was taken. -/
theorem not_agrees_longer {block : Nat} (hu64 : unit < 2 ^ 64) (hchild : child.Empty)
    (hpos : 0 < (startFree block (2 ^ 62)).maxExtent want maxAllocSize)
    (hlt : (startFree block (2 ^ 62)).maxExtent want maxAllocSize < min maxAllocSize want)
    (hint : Int) :
    ¬ Agrees ⟨startFree block (2 ^ 62), child⟩ want unit maxAllocSize hint := by
  have hd := isp2_dvd hu hu64
  have hu₀ : 0 < unit := Nat.pos_of_dvd_of_pos hwant h₀
  have h := @holds_startFree block (2 ^ 62) (by decide) le_rfl
  have hbound := maxExtent_lt (startFree block (2 ^ 62)) want maxAllocSize
  obtain ⟨new, a', hloop, -⟩ := @allocateLoop_spec _ _ unit want _ hu₀ hd hpos hbound (want + 1) 0
    [] h (Nat.zero_le want) (by omega)
  have haccepted := (allocate_accepted _ hu (Nat.mod_eq_zero_of_dvd hwant) _).trans
    (allocateInner_of_loop hloop)
  generalize (startFree block (2 ^ 62)).maxExtent want maxAllocSize = m at *
  -- the first extent of the AVL allocator is as long as its bound
  obtain ⟨a₁, hsingle, -⟩ := @startFree_allocateSingle unit block (2 ^ 62) m hpos (by decide) le_rfl
    (Or.inl (by omega))
  rw [Nat.min_eq_left (by omega)] at hsingle
  rw [allocateLoop, if_pos h₀, Nat.min_eq_left (by omega), hsingle] at hloop
  obtain ⟨rest, hnew, -⟩ := (allocateLoop_added (by exact hloop)).appended
  rw [List.nil_append, List.nil_append, List.singleton_append, Nat.mod_eq_of_lt hbound] at hnew
  have hsum : (new.map (·.length)).sum = m + (rest.map (·.length)).sum := by
    rw [hnew, List.map_cons, List.sum_cons]
  intro hagrees
  obtain ⟨h', hok, -⟩ := hagrees haccepted
  obtain ⟨allocated, a, hloop', hr⟩ := loop_of_allocate hok hchild rfl rfl
  rw [Nat.zero_add, if_neg (by omega)] at hr
  have hcount : allocated = (new.map (·.length)).sum := by
    split at hr
    · have : (0 : Int) < enospc := by decide
      omega
    · omega
  rw [allocateLoop, if_pos h₀, Nat.sub_zero] at hloop'
  by_cases hfits : min maxAllocSize want ≤ 2 ^ 62 ∨ unit ∣ 2 ^ 62
  · obtain ⟨a₂, hsingle', -⟩ := @startFree_allocateSingle unit block (2 ^ 62)
      (min maxAllocSize want) (by omega) (by decide) le_rfl hfits
    rw [hsingle'] at hloop'
    obtain ⟨rest', hnew', hle, -⟩ := (allocateLoop_added (by exact hloop')).appended
    rw [List.nil_append, List.nil_append, List.singleton_append, hnew] at hnew'
    obtain ⟨-, rfl⟩ := List.cons.inj hnew'
    omega
  · -- nothing is as long as the unit
    obtain ⟨k, rfl⟩ := isp2_iff.mp hu
    have hlong : 2 ^ 62 < 2 ^ k := by
      by_contra hle
      refine hfits (Or.inr (Nat.pow_dvd_pow 2 ?_))
      exact (Nat.pow_le_pow_iff_right (show 1 < 2 by decide)).mp (not_lt.mp hle)
    have hnone : (startFree block (2 ^ 62)).allocateSingle (min maxAllocSize want) (2 ^ k) =
        .ok (none, startFree block (2 ^ 62)) := by
      unfold allocateSingle
      dsimp only
      rw [startFree_maxSize, if_pos ⟨by omega, hlong⟩]
    rw [hnone] at hloop'
    cases hloop'
    omega

end Disagreement

theorem suits_of_agrees (hu : isp2 unit = true) (hu64 : unit < 2 ^ 64) (hwant : unit ∣ want)
    (hchild : child.Empty)
    (hpos : 0 < (AvlAllocator.create 0 child.l1.l0Granularity 0).maxExtent want maxAllocSize)
    (hagrees : ∀ avl, avl.blockSize = child.l1.l0Granularity → InAvl avl want unit maxAllocSize →
      ∀ hint, Agrees ⟨avl, child⟩ want unit maxAllocSize hint) :
    Suits child.l1.l0Granularity want unit maxAllocSize := by
  rcases Nat.eq_zero_or_pos want with rfl | h₀
  · exact Or.inl rfl
  have hsame (length : Nat) :
      (startFree child.l1.l0Granularity length).maxExtent want maxAllocSize =
        (AvlAllocator.create 0 child.l1.l0Granularity 0).maxExtent want maxAllocSize := rfl
  have hlt := maxExtent_lt (AvlAllocator.create 0 child.l1.l0Granularity 0) want maxAllocSize
  have hstart (length : Nat) (hl₀ : 0 < length) (hl : length ≤ 2 ^ 62) :
      Agrees ⟨startFree child.l1.l0Granularity length, child⟩ want unit maxAllocSize 0 :=
    hagrees _ rfl (inAvl_of_holds (holds_startFree hl₀ hl) rfl hu hwant) 0
  by_contra hns
  unfold Suits at hns
  generalize hm : (AvlAllocator.create 0 child.l1.l0Granularity 0).maxExtent want maxAllocSize = m
    at *
  by_cases hunit : unit < child.l1.l0Granularity
  · exact not_agrees_smallUnit hu hwant h₀ hchild hunit 0
      (hagrees _ rfl (inAvl_of_holds (holds_create (by decide) _ 0) rfl hu hwant) 0)
  rcases Nat.eq_zero_or_pos maxAllocSize with rfl | hmax₀
  · exact not_agrees_zero hu hwant h₀ hu64 (holds_startFree (by decide) le_rfl)
      (show 2 ^ 62 ≠ 0 by decide) (startFree_pickBlockFits (Nat.zero_le _) le_rfl unit)
      (by rw [hsame]; exact hpos) 0 (hstart _ (by decide) le_rfl)
  have hle : m ≤ maxAllocSize := by
    rw [← hm]
    exact maxExtent_le (by omega)
  by_cases hmin : min maxAllocSize want = min m want
  · -- the bounds agree, so the maximum cuts a unit
    have hcut : ¬ (unit ∣ maxAllocSize ∨ want ≤ maxAllocSize) := by
      intro hcut
      exact hns (Or.inr ⟨by omega, hcut, hmin⟩)
    rw [not_or] at hcut
    have heq : m = maxAllocSize := by omega
    exact not_agrees_cut hu hwant h₀ hchild ((hsame _).trans heq) hcut.1 (by omega) 0
      (hstart _ hmax₀ (by omega))
  · refine not_agrees_longer hu hwant h₀ hu64 hchild ?_ ?_ 0 (hstart _ (by decide) le_rfl)
    · rw [hsame]
      exact hpos
    · rw [hsame]
      omega

/-- On arguments that the AVL allocator accepts, the hybrid one agrees with it
on every free set held in its AVL part if the maximum needs no normalisation,
and on some it does not if the maximum does, as long as the block size leaves
the AVL allocator an extent to hand out. -/
theorem agrees_iff_suits (hu : isp2 unit = true) (hu64 : unit < 2 ^ 64) (hwant : unit ∣ want)
    (hchild : child.Empty) :
    (Suits child.l1.l0Granularity want unit maxAllocSize →
      ∀ avl, avl.blockSize = child.l1.l0Granularity → InAvl avl want unit maxAllocSize →
        ∀ hint, Agrees ⟨avl, child⟩ want unit maxAllocSize hint) ∧
    (0 < (AvlAllocator.create 0 child.l1.l0Granularity 0).maxExtent want maxAllocSize →
      (∀ avl, avl.blockSize = child.l1.l0Granularity → InAvl avl want unit maxAllocSize →
        ∀ hint, Agrees ⟨avl, child⟩ want unit maxAllocSize hint) →
      Suits child.l1.l0Granularity want unit maxAllocSize) := by
  constructor
  · intro hs avl hblock hin hint
    rw [← hblock] at hs
    exact agrees_of_suits hu hwant hchild hblock.symm hs hin hint
  · exact suits_of_agrees hu hu64 hwant hchild

/-- The first 8 KiB of a device of 512 MiB. -/
def twoBlocks : AvlAllocator :=
  { AvlAllocator.create (2 ^ 29) 4096 0 with
    rangeTree := [⟨0, 8192⟩], rangeSizeTree := [⟨0, 8192⟩], numFree := 8192 }

theorem twoBlocks_reached :
    Reaches (AvlAllocator.create (2 ^ 29) 4096 0) twoBlocks (∅ ∪ Set.Ico 0 (0 + 8192)) :=
  @Reaches.initAddFree _ _ _ ∅ 0 8192 .start (by decide) (by simp) rfl

/-- The child of that device. -/
theorem create_halfGiB : ∃ child, BitmapAllocator.create (2 ^ 29) 4096 = .ok child ∧
    child.Empty ∧ child.l1.l0Granularity = 4096 := by
  have hrun : (do
      let child ← BitmapAllocator.create (2 ^ 29) 4096
      return child.l1.l0Granularity) = Except.ok 4096 := by
    decide +kernel
  obtain ⟨child, hcreate, hrun⟩ := bind_eq_ok hrun
  exact ⟨child, hcreate, .create hcreate, Except.ok.inj hrun⟩

theorem agrees_iff_suits_halfGiB : ∃ child, BitmapAllocator.create (2 ^ 29) 4096 = .ok child ∧
    (Suits child.l1.l0Granularity 8192 4096 4096 →
      ∀ avl, avl.blockSize = child.l1.l0Granularity → InAvl avl 8192 4096 4096 →
        ∀ hint, Agrees ⟨avl, child⟩ 8192 4096 4096 hint) ∧
    (0 < (AvlAllocator.create 0 child.l1.l0Granularity 0).maxExtent 8192 4096 →
      (∀ avl, avl.blockSize = child.l1.l0Granularity → InAvl avl 8192 4096 4096 →
        ∀ hint, Agrees ⟨avl, child⟩ 8192 4096 4096 hint) →
      Suits child.l1.l0Granularity 8192 4096 4096) := by
  obtain ⟨child, hcreate, hempty, -⟩ := create_halfGiB
  exact ⟨child, hcreate, agrees_iff_suits (by decide) (by decide) (by decide) hempty⟩

/-- With no maximum the hybrid allocator does not hand out what the AVL part has. -/
theorem twoBlocks_not_agrees : ∃ child, BitmapAllocator.create (2 ^ 29) 4096 = .ok child ∧
    child.Empty ∧ child.l1.l0Granularity = twoBlocks.blockSize ∧ InAvl twoBlocks 8192 4096 0 ∧
    ¬ Agrees ⟨twoBlocks, child⟩ 8192 4096 0 0 := by
  obtain ⟨child, hcreate, hempty, hgran⟩ := create_halfGiB
  have hholds := (twoBlocks_reached.holds (holds_create (by decide) 4096 0) (by decide)).1
  refine ⟨child, hcreate, hempty, hgran, inAvl_of_holds hholds rfl (by decide) (by decide), ?_⟩
  exact not_agrees_zero (by decide) (by decide) (by decide) (by decide) hholds
    (show 2 ^ 29 ≠ 0 by decide) (show twoBlocks.pickBlockFits 0 4096 = some 0 by decide)
    (by decide) 0

end HybridAllocator

end Clab.Blk
