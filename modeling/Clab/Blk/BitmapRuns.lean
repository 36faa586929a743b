import Clab.Blk.BitmapSafety

/-!
# Runs of the bitmap allocator

The states a `BitmapAllocator` reaches from its constructor, and what an
`allocate` call hands out in them.
-/

namespace Clab.Blk

open Clab.Common Clab.HandOut

/-- What the constructor is given: a capacity in 63 bits and a unit that is a
power of two, as the alignment functions need. -/
structure Geometry where
  capacity : Nat
  shift : Nat
  capacity_lt : capacity < 2 ^ 63
  shift_le : shift ≤ 40

/-- The allocation unit. -/
def Geometry.unit (geo : Geometry) : Nat := 2 ^ geo.shift

theorem Geometry.unit_pos (geo : Geometry) : 0 < geo.unit := Nat.two_pow_pos _

theorem Geometry.unit_le (geo : Geometry) : geo.unit ≤ 2 ^ 40 :=
  Nat.pow_le_pow_right (by decide) geo.shift_le

/-- The unit divides the range of a 64-bit integer. -/
theorem Geometry.unit_dvd (geo : Geometry) : geo.unit ∣ 2 ^ 64 :=
  Nat.pow_dvd_pow 2 (Nat.le_trans geo.shift_le (by decide))

namespace AllocatorLevel02

open AllocatorLevel01Loose

variable {want : Nat} {a₀ : AllocatorLevel01Loose} {g₀ g g' : Grant} {a a' : AllocatorLevel02}

theorem l1_noteEmpty {empty : Bool} {idx off : Nat} (h : a.noteEmpty empty idx off = .ok a') :
    a'.l1 = a.l1 := by
  unfold noteEmpty at h
  split at h
  · split at h
    · cases h
    · cases h
      rfl
  · cases h
    rfl

theorem progress_scanSlot {maxLength idx slotStart scanEnd n : Nat} {val : Slot}
    {off : Option Nat} {done : Bool} (hp : Progress want a₀ g₀ a.l1 g)
    (h : scanSlot want maxLength idx slotStart scanEnd val n off g a = .ok (done, g', a')) :
    Progress want a₀ g₀ a'.l1 g' := by
  induction n generalizing off g a with
  | zero =>
      cases h
      exact hp
  | succ n ih =>
      cases off with
      | none =>
          cases h
          exact hp
      | some off =>
          unfold scanSlot at h
          split at h
          · obtain ⟨⟨r, g₁, l1⟩, halloc, h⟩ := bind_eq_ok h
            obtain ⟨empty, -, h⟩ := bind_eq_ok h
            obtain ⟨a₁, hempty, h⟩ := bind_eq_ok h
            have hp₁ : Progress want a₀ g₀ a₁.l1 g₁ := by
              rw [l1_noteEmpty hempty]
              exact hp.allocateL1Loop halloc
            split at h
            · cases h
              exact hp₁
            · exact ih hp₁ h
          · cases h
            exact hp

theorem progress_scanRound {maxLength endPos n idx : Nat} {done : Bool}
    (hp : Progress want a₀ g₀ a.l1 g)
    (h : scanRound want maxLength endPos n idx g a = .ok (done, g', a')) :
    Progress want a₀ g₀ a'.l1 g' := by
  induction n generalizing idx g a with
  | zero =>
      cases h
      exact hp
  | succ n ih =>
      unfold scanRound at h
      split at h
      · split at h
        · cases h
        · dsimp only at h
          split at h
          · exact ih hp h
          · obtain ⟨⟨done₁, g₁, a₁⟩, hslot, h⟩ := bind_eq_ok h
            have hp₁ := progress_scanSlot hp hslot
            dsimp only at h
            split at h
            · cases h
              exact hp₁
            · exact ih hp₁ h
      · cases h
        exact hp

theorem progress_allocateL2 {minLength maxLength : Nat} {hint r : Int}
    (hp : Progress want a₀ g₀ a.l1 g)
    (h : a.allocateL2 want minLength maxLength hint g = .ok (r, g', a')) :
    Progress want a₀ g₀ a'.l1 g' := by
  obtain ⟨⟨done₁, g₁, a₁⟩, hfirst, h⟩ := bind_eq_ok h
  have hp₁ := progress_scanRound hp hfirst
  dsimp only at h
  split at h
  · cases h
    exact hp₁
  · obtain ⟨⟨done₂, g₂, a₂⟩, hsecond, h⟩ := bind_eq_ok h
    have hp₂ := progress_scanRound hp₁ hsecond
    dsimp only at h
    split at h
    · cases h
      exact hp₂
    · split at h
      · cases h
        exact hp₂
      · cases h
        exact hp₂

theorem l1_markL2 {one : WordBits.Words → Nat → WordBits.Words} {s e : Nat}
    (h : markL2 one a s e = .ok a') :
    a'.l1 = a.l1 := by
  unfold markL2 at h
  split at h
  · cases h
  · cases h
    rfl

end AllocatorLevel02

namespace BitmapAllocator

open AllocatorLevel01Loose AllocatorLevel02

/-- The condition on an `allocate` call under which it takes no stale entry. -/
def SafeCall (a : BitmapAllocator) (want : Nat) : Prop := SafeRemaining a.l1 want

/-- The states reached when every `allocate` call meets `Allowed`. Ranges lie
inside the device; whether they are free does not matter. -/
inductive Reachable (geo : Geometry) (Allowed : BitmapAllocator → Nat → Prop) :
    BitmapAllocator → Prop
  | create {a : BitmapAllocator} : create geo.capacity geo.unit = .ok a → Reachable geo Allowed a
  | initAddFree {a a' : BitmapAllocator} {offset length : Nat} : Reachable geo Allowed a →
      offset + length ≤ geo.capacity → a.initAddFree offset length = .ok a' →
      Reachable geo Allowed a'
  | initRmFree {a a' : BitmapAllocator} {offset length : Nat} : Reachable geo Allowed a →
      offset + length ≤ geo.capacity → a.initRmFree offset length = .ok a' →
      Reachable geo Allowed a'
  | allocate {a a' : BitmapAllocator} {want unit maxAllocSize : Nat} {hint r : Int}
      {extents res : List PExtent} : Reachable geo Allowed a → Allowed a want →
      a.allocate want unit maxAllocSize hint extents = .ok (r, res, a') → Reachable geo Allowed a'
  | release {a a' : BitmapAllocator} {releaseSet : List (Nat × Nat)} : Reachable geo Allowed a →
      (∀ p ∈ releaseSet, (p.1 + p.2) % geo.unit = 0 ∧ p.1 + p.2 ≤ geo.capacity) →
      a.release releaseSet = .ok a' → Reachable geo Allowed a'

/-- What holds of L0 and L1 in every state reached. -/
structure Inv (geo : Geometry) (a : AllocatorLevel01Loose) : Prop where
  unit : a.l0Granularity = geo.unit
  size : a.l0.size * 64 ≤ 2 ^ 64 - 1024
  sound : L1Sound a
  inside : ∀ q, a.bit q = true → (q + 1) * geo.unit ≤ geo.capacity

/-! ## The constructor -/

theorem p2roundup_le (x : Nat) {m : Nat} (h : 1024 ∣ m) : p2roundup x m ≤ 2 ^ 64 - 1024 := by
  unfold p2roundup
  have hd : 1024 ∣ (x + m - 1) / m * m % 2 ^ 64 :=
    (Nat.dvd_mod_iff (by decide)).mpr (Nat.dvd_mul_left_of_dvd h _)
  have hlt : (x + m - 1) / m * m % 2 ^ 64 < 2 ^ 64 := Nat.mod_lt _ (by decide)
  omega

/-- `_init` of a device of which nothing is free. -/
theorem init_spec {capacity allocUnit : Nat} {a : AllocatorLevel02}
    (h : AllocatorLevel02.init capacity allocUnit false = .ok a) :
    (∀ q, a.l1.bit q = false) ∧ (∀ e, a.l1.entry e = L1_ENTRY_FULL) ∧
      (∀ p, WordBits.bit a.l2.slot p = false) ∧ a.available = 0 ∧
      a.l1.l0Granularity = allocUnit ∧ a.l2Granularity = allocUnit * 512 * 32 * 8 ∧
      a.l1.l0.size = p2roundup capacity (allocUnit * 512 * 8 * 32) / allocUnit / 64 ∧
      a.l1.l1.size = p2roundup capacity (allocUnit * 512 * 8 * 32) / (allocUnit * 512) / 32 ∧
      a.l2.size = p2roundup capacity (allocUnit * 512 * 32 * 8 * 64) /
        (allocUnit * 512 * 32 * 8) / 64 := by
  have hfresh : ∀ p, WordBits.bit (fun _ => allSlotClear) p = false := fun p =>
    slot_eq_clear_iff.mp rfl _ (Nat.mod_lt p (by decide))
  obtain ⟨l1, hl1, h⟩ := bind_eq_ok h
  obtain ⟨l0, hmark, hl1⟩ := bind_eq_ok hl1
  rw [if_neg (by decide)] at hmark
  cases hl1
  -- L0 is clear after `_mark_alloc_l0`, so L1 stays FULL
  obtain ⟨m, hm, href⟩ := bind_eq_ok hmark
  obtain ⟨hsame, -, hbit⟩ := markAllocL0_spec hm
  obtain ⟨hl0, hunit, hsize, hent⟩ := markL1OnL0_spec href
  have hclear : ∀ q, l0.bit q = false := by
    intro q
    unfold AllocatorLevel01Loose.bit
    rw [hl0]
    refine (hbit q).trans ?_
    split
    · rfl
    · exact hfresh q
  have hfull : ∀ e, l0.entry e = L1_ENTRY_FULL := by
    intro e
    rw [hent e]
    split
    · rcases summary_cases m.l0.slot e with ⟨h, -⟩ | ⟨-, h⟩ | ⟨-, ⟨q, -, h⟩, -⟩
      · exact h
      · rw [← hl0] at h
        exact absurd ((hclear _).symm.trans (h (e * 512) (by omega))) (by decide)
      · rw [← hl0] at h
        exact absurd ((hclear q).symm.trans h) (by decide)
    · rw [hsame.entry]
      show WordBits.field allSlotClear _ = _
      simp [WordBits.field, allSlotClear, L1_ENTRY_FULL]
  have hgran : l0.l1Granularity = allocUnit * 512 := by
    rw [l1Granularity_markL1OnL0 href, (onL0_eq_ok hm).1]
    rfl
  change AllocatorLevel02.markL2Allocated _ _ _ = _ at h
  unfold AllocatorLevel02.markL2Allocated AllocatorLevel02.markL2 at h
  dsimp only at h
  split at h
  · cases h
  · cases h
    refine ⟨hclear, hfull, fun p => ?_, rfl, hunit.trans hsame.l0Granularity, ?_, ?_, ?_, ?_⟩
    · show WordBits.bit (bitLoop WordBits.clearBit _ _ fun _ => allSlotClear) p = false
      rw [bit_bitLoop WordBits.bit_clearBit, hfresh p, ite_self]
    · show l0.l1Granularity * 32 * 8 = _
      rw [hgran]
    · show l0.l0.size = _
      rw [hl0, hsame.l0Size]
      rfl
    · show l0.l1.size = _
      rw [hsize, hsame.l1]
      rfl
    · show p2roundup capacity (l0.l1Granularity * 32 * 8 * 64) / (l0.l1Granularity * 32 * 8) / 64 = _
      rw [hgran]

theorem Inv.create {geo : Geometry} {a : BitmapAllocator}
    (h : BitmapAllocator.create geo.capacity geo.unit = .ok a) : Inv geo a.l1 := by
  obtain ⟨l2, hl2, h⟩ := bind_eq_ok h
  cases h
  obtain ⟨hclear, hfull, -, -, hunit, -, hsize, -⟩ := init_spec hl2
  refine ⟨hunit, ?_, ⟨fun e => .inl (hfull e), fun e _ q _ => hclear q, fun e he => ?_⟩, fun q hq => ?_⟩
  · show l2.l1.l0.size * 64 ≤ 2 ^ 64 - 1024
    rw [hsize]
    have haligned := @p2roundup_le geo.capacity (geo.unit * 512 * 8 * 32) ⟨geo.unit * 128, by omega⟩
    exact ((Nat.div_mul_le_self _ 64).trans (Nat.div_le_self _ _)).trans haligned
  · exact absurd ((hfull e).symm.trans he) (by decide)
  · cases (hclear q).symm.trans hq

/-! ## Marking steps -/

/-- The end of a range of whole units, as the code computes it. -/
theorem p2roundup_end (geo : Geometry) {x : Nat} (hx : x % geo.unit = 0)
    (hcap : x ≤ geo.capacity) : p2roundup x geo.unit / geo.unit = x / geo.unit := by
  have hpos := geo.unit_pos
  have hcap' := geo.capacity_lt
  obtain ⟨k, rfl⟩ := Nat.dvd_of_mod_eq_zero hx
  unfold p2roundup
  have hdiv : (geo.unit * k + geo.unit - 1) / geo.unit = k := by
    rw [Nat.add_sub_assoc hpos, Nat.mul_add_div hpos, Nat.div_eq_of_lt (by omega), Nat.add_zero]
  rw [hdiv, Nat.mod_eq_of_lt (by rw [Nat.mul_comm]; omega), Nat.mul_div_cancel _ hpos,
    Nat.mul_div_cancel_left _ hpos]

section Steps

variable {geo : Geometry} {l l' : AllocatorLevel01Loose} {offset length : Nat}

theorem Inv.freeL1 (hi : Inv geo l) (hend : add64 offset length % geo.unit = 0)
    (hcap : add64 offset length ≤ geo.capacity) {n : Nat}
    (h : l.freeL1 offset length = .ok (n, l')) : Inv geo l' := by
  obtain ⟨l₁, hmark, h⟩ := bind_eq_ok h
  cases h
  rw [hi.unit, p2roundup_end geo hend hcap] at hmark
  have hcap' := geo.capacity_lt
  have hle : add64 offset length / geo.unit ≤ add64 offset length := Nat.div_le_self _ _
  obtain ⟨hshape, -, hbit, hent⟩ := markFreeL1L0_spec (by omega) hmark
  refine ⟨hshape.l0Granularity.trans hi.unit, by rw [hshape.l0Size]; exact hi.size,
    hi.sound.of_refreshed (fun q hq => by rw [hbit, if_neg hq]) hent, fun q hq => ?_⟩
  rw [hbit] at hq
  split at hq
  · rename_i hin
    have hmul : (q + 1) * geo.unit ≤ add64 offset length / geo.unit * geo.unit :=
      Nat.mul_le_mul_right _ hin.2
    exact Nat.le_trans hmul (Nat.le_trans (Nat.div_mul_le_self _ _) hcap)
  · exact hi.inside q hq

theorem Inv.markAllocL1L0 (hi : Inv geo l) {s e : Nat} (he : e ≤ 2 ^ 64 - 1024)
    (h : l.markAllocL1L0 s e = .ok l') : Inv geo l' := by
  obtain ⟨hshape, -, hbit, hent⟩ := markAllocL1L0_spec he h
  refine ⟨hshape.l0Granularity.trans hi.unit, by rw [hshape.l0Size]; exact hi.size,
    hi.sound.of_refreshed (fun q hq => by rw [hbit, if_neg hq]) hent, fun q hq => ?_⟩
  rw [hbit] at hq
  split at hq
  · cases hq
  · exact hi.inside q hq

end Steps

/-- The range of an `init` call ends at a unit boundary inside the request,
also when the source's subtraction wraps. -/
theorem innerRange_end {geo : Geometry} {a : BitmapAllocator} {offset length : Nat}
    (hu : a.l1.l0Granularity = geo.unit) (hcap : offset + length ≤ geo.capacity) :
    add64 (a.innerRange offset length).1 (a.innerRange offset length).2 % geo.unit = 0 ∧
      add64 (a.innerRange offset length).1 (a.innerRange offset length).2 ≤
        offset + length := by
  have hpos := geo.unit_pos
  have hle := geo.unit_le
  have hcap' := geo.capacity_lt
  obtain ⟨m, hm⟩ := geo.unit_dvd
  unfold innerRange
  dsimp only
  rw [hu, add64_of_lt (by omega : offset + length < 2 ^ 64)]
  generalize hU : geo.unit = U at *
  -- the start, rounded up
  have hround : (offset + U - 1) / U * U ≤ offset + U - 1 := Nat.div_mul_le_self _ _
  have hoff : p2roundup offset U = U * ((offset + U - 1) / U) := by
    unfold p2roundup
    rw [Nat.mod_eq_of_lt (by omega), Nat.mul_comm]
  rw [hoff]
  generalize (offset + U - 1) / U = x at *
  rw [Nat.mul_comm] at hround
  unfold p2align
  by_cases hwrap : U * x ≤ offset + length
  · rw [sub64_of_le hwrap (by omega)]
    have hlen := Nat.div_mul_le_self (offset + length - U * x) U
    have hsum : U * x + (offset + length - U * x) / U * U ≤ offset + length := by omega
    rw [add64_of_lt (by omega)]
    refine ⟨?_, hsum⟩
    rw [Nat.mul_comm _ U, ← Nat.mul_add, Nat.mul_mod_right]
  · -- the subtraction wraps, and so does the addition that follows
    have hsub : sub64 (offset + length) (U * x) = offset + length + 2 ^ 64 - U * x :=
      Nat.mod_eq_of_lt (by omega)
    rw [hsub]
    have hlo := Nat.div_mul_le_self (offset + length + 2 ^ 64 - U * x) U
    have hhi := Nat.lt_div_mul_add (a := offset + length + 2 ^ 64 - U * x) hpos
    generalize (offset + length + 2 ^ 64 - U * x) / U = y at *
    rw [Nat.mul_comm y U] at *
    have hge : m ≤ x + y := by
      by_contra hlt
      have hmul : U * (x + y + 1) ≤ U * m := Nat.mul_le_mul_left _ (by omega)
      rw [Nat.mul_add, Nat.mul_add] at hmul
      omega
    obtain ⟨z, hz⟩ := Nat.exists_eq_add_of_le hge
    have hsum : U * x + U * y = 2 ^ 64 + U * z := by
      rw [← Nat.mul_add, hz, Nat.mul_add, hm]
    have hadd : add64 (U * x) (U * y) = U * z := by
      unfold add64
      rw [hsum, Nat.add_mod_left, Nat.mod_eq_of_lt (by omega)]
    rw [hadd]
    exact ⟨Nat.mul_mod_right _ _, by omega⟩

theorem Inv.initAddFree {geo : Geometry} {a a' : BitmapAllocator} {offset length : Nat}
    (hi : Inv geo a.l1) (hcap : offset + length ≤ geo.capacity)
    (h : a.initAddFree offset length = .ok a') : Inv geo a'.l1 := by
  obtain ⟨hend, hle⟩ := innerRange_end hi.unit hcap
  unfold BitmapAllocator.initAddFree at h
  generalize a.innerRange offset length = range at *
  obtain ⟨off, len⟩ := range
  dsimp only at h hend hle
  split at h
  · cases h
    exact hi
  · obtain ⟨l2, hmark, h⟩ := bind_eq_ok h
    cases h
    obtain ⟨⟨n, l1⟩, hfree, hmark⟩ := bind_eq_ok hmark
    obtain ⟨l2', hl2, hmark⟩ := bind_eq_ok hmark
    cases hmark
    show Inv geo l2'.l1
    rw [l1_markL2 hl2]
    exact hi.freeL1 hend (Nat.le_trans hle hcap) hfree

theorem Inv.initRmFree {geo : Geometry} {a a' : BitmapAllocator} {offset length : Nat}
    (hi : Inv geo a.l1) (hcap : offset + length ≤ geo.capacity)
    (h : a.initRmFree offset length = .ok a') : Inv geo a'.l1 := by
  obtain ⟨hend, hle⟩ := innerRange_end hi.unit hcap
  have hcap' := geo.capacity_lt
  unfold BitmapAllocator.initRmFree at h
  generalize a.innerRange offset length = range at *
  obtain ⟨off, len⟩ := range
  dsimp only at h hend hle
  split at h
  · cases h
    exact hi
  · obtain ⟨l2, hmark, h⟩ := bind_eq_ok h
    cases h
    obtain ⟨l1, halloc, hmark⟩ := bind_eq_ok hmark
    obtain ⟨l2', hl2, hmark⟩ := bind_eq_ok hmark
    split at hmark
    · cases hmark
      show Inv geo l2'.l1
      rw [l1_markL2 hl2]
      rw [hi.unit, p2roundup_end geo hend (Nat.le_trans hle hcap)] at halloc
      have hdiv : add64 off len / geo.unit ≤ add64 off len := Nat.div_le_self _ _
      exact hi.markAllocL1L0 (by omega) halloc
    · cases hmark

theorem Inv.freeLoop {geo : Geometry} {rr : List (Nat × Nat)} {a a' : AllocatorLevel02}
    (hi : Inv geo a.l1)
    (hin : ∀ p ∈ rr, (p.1 + p.2) % geo.unit = 0 ∧ p.1 + p.2 ≤ geo.capacity) {n : Nat}
    (h : freeLoop rr a = .ok (n, a')) : Inv geo a'.l1 := by
  induction rr generalizing a n with
  | nil =>
      cases h
      exact hi
  | cons p rest ih =>
      obtain ⟨⟨r, l1⟩, hfree, h⟩ := bind_eq_ok h
      obtain ⟨a₁, hl2, h⟩ := bind_eq_ok h
      obtain ⟨⟨n', a₂⟩, hrest, h⟩ := bind_eq_ok h
      cases h
      obtain ⟨hend, hcap⟩ := hin p List.mem_cons_self
      have hcap' := geo.capacity_lt
      have hadd : add64 p.1 p.2 = p.1 + p.2 := add64_of_lt (by omega)
      have hi₁ : Inv geo l1 := hi.freeL1 (by rw [hadd]; exact hend) (by rw [hadd]; exact hcap) hfree
      refine ih ?_ (fun q hq => hin q (List.mem_cons_of_mem _ hq)) hrest
      rw [l1_markL2 hl2]
      exact hi₁

/-! ## Allocation -/

theorem progress_allocate {geo : Geometry} {a a' : BitmapAllocator}
    {want unit maxAllocSize : Nat} {hint r : Int} {extents res : List PExtent}
    (hi : Inv geo a.l1) (hsafe : SafeCall a want)
    (h : a.allocate want unit maxAllocSize hint extents = .ok (r, res, a')) :
    ∃ n, Progress want a.l1 ⟨0, extents⟩ a'.l1 ⟨n, res⟩ := by
  unfold BitmapAllocator.allocate at h
  split at h
  · obtain ⟨⟨r', g, l2⟩, hl2, h⟩ := bind_eq_ok h
    cases h
    have hstart := Progress.start hi.sound hsafe (hi.unit ▸ geo.unit_pos) hi.size extents
    exact ⟨g.allocated, progress_allocateL2 hstart hl2⟩
  · cases h

theorem Inv.of_progress {geo : Geometry} {want : Nat} {l l' : AllocatorLevel01Loose}
    {g g' : Grant} (hi : Inv geo l) (hp : Progress want l g l' g') : Inv geo l' := by
  refine ⟨hp.shape.l0Granularity.trans hi.unit, hp.size, hp.sound, fun q hq => ?_⟩
  exact hi.inside q
    (bit_of_handsOut (hi.unit ▸ geo.unit_pos) hp.shape.l0Granularity hp.handsOut hq)

theorem Reachable.inv {geo : Geometry} {a : BitmapAllocator} (h : Reachable geo SafeCall a) :
    Inv geo a.l1 := by
  induction h with
  | create hc => exact Inv.create hc
  | initAddFree _ hcap hstep ih => exact ih.initAddFree hcap hstep
  | initRmFree _ hcap hstep ih => exact ih.initRmFree hcap hstep
  | allocate _ hsafe hstep ih =>
      obtain ⟨n, hp⟩ := progress_allocate ih hsafe hstep
      exact ih.of_progress hp
  | release _ hin hstep ih =>
      obtain ⟨l2, hfree, hstep⟩ := bind_eq_ok hstep
      cases hstep
      obtain ⟨⟨n, l2'⟩, hloop, hfree⟩ := bind_eq_ok hfree
      cases hfree
      have hi := Inv.freeLoop ih hin hloop
      exact hi

/-- What an `allocate` call appends to `extents`, giving `res`: extents that are
disjoint, inside the device, made of units free before and taken after. -/
structure HandsOutFree (geo : Geometry) (a a' : BitmapAllocator) (extents res : List PExtent) :
    Prop where
  once : ∀ x, cover PExtent.has res x ≤ cover PExtent.has extents x + 1
  disjoint : extents = [] → res.Pairwise fun e f => ∀ x, ¬ (e.has x = true ∧ f.has x = true)
  inside : ∀ x, cover PExtent.has extents x < cover PExtent.has res x → x < geo.capacity
  wasFree : ∀ x, cover PExtent.has extents x < cover PExtent.has res x →
    a.l1.bit (x / geo.unit) = true
  nowTaken : ∀ x, cover PExtent.has extents x < cover PExtent.has res x →
    a'.l1.bit (x / geo.unit) = false

/-- In a run whose calls are all safe, every call hands out free units, each
once. -/
theorem allocate_handsOutFree {geo : Geometry} {a a' : BitmapAllocator}
    {want unit maxAllocSize : Nat} {hint r : Int} {extents res : List PExtent}
    (ha : Reachable geo SafeCall a) (hsafe : SafeCall a want)
    (h : a.allocate want unit maxAllocSize hint extents = .ok (r, res, a')) :
    HandsOutFree geo a a' extents res := by
  have hi := ha.inv
  obtain ⟨n, hp⟩ := progress_allocate hi hsafe h
  have hout := hp.handsOut
  have htaken : ∀ x, cover PExtent.has extents x < cover PExtent.has res x →
      a.l1.bit (x / geo.unit) = true ∧ a'.l1.bit (x / geo.unit) = false := by
    intro x hx
    have ht := hout.taken hx
    unfold freeAt at ht
    rwa [hp.shape.l0Granularity, hi.unit] at ht
  refine ⟨hout.cover_le, ?_, fun x hx => ?_, fun x hx => (htaken x hx).1,
    fun x hx => (htaken x hx).2⟩
  · rintro rfl
    exact hout.pairwise
  · have hin := hi.inside _ (htaken x hx).1
    have hlt := Nat.lt_mul_div_succ x geo.unit_pos
    rw [Nat.mul_comm] at hlt
    omega

/-- A 512 MiB device with 4 KiB units. -/
def halfGiB : Geometry := ⟨131072 * 4096, 12, by decide, by decide⟩

/-- The first `allocate` of one unit on a device with 1024 free units. -/
theorem allocate_handsOutFree_first : ∃ a a' : BitmapAllocator,
    a.allocate 4096 4096 0 0 [] = .ok (4096, [⟨0, 4096⟩], a') ∧
      HandsOutFree halfGiB a a' [] [⟨0, 4096⟩] := by
  have hrun : (do
      let a ← create halfGiB.capacity halfGiB.unit
      let a ← a.initAddFree 0 (1024 * 4096)
      let (r, res, _) ← a.allocate 4096 4096 0 0 []
      return (r, res)) = Except.ok (4096, [⟨0, 4096⟩]) := by
    decide +kernel
  obtain ⟨a₀, hcreate, hrun⟩ := bind_eq_ok hrun
  obtain ⟨a, hadd, hrun⟩ := bind_eq_ok hrun
  obtain ⟨⟨r, res, a'⟩, halloc, hrun⟩ := bind_eq_ok hrun
  cases hrun
  have ha : Reachable halfGiB SafeCall a := (Reachable.create hcreate).initAddFree (by decide) hadd
  have hsafe : SafeCall a 4096 := by
    refine .inl ?_
    rw [ha.inv.unit]
    decide
  exact ⟨a, a', halloc, allocate_handsOutFree ha hsafe halloc⟩

/-- After one unit of a FREE entry is allocated, a request for 512 units gets
the whole entry, the allocated unit included. -/
theorem allocate_not_handsOutFree : ∃ a₀ a a' : BitmapAllocator,
    Reachable halfGiB (fun _ _ => True) a₀ ∧
      a₀.allocate 4096 4096 0 0 [] = .ok (4096, [⟨0, 4096⟩], a) ∧
      a.allocate (512 * 4096) 4096 0 0 [] = .ok (512 * 4096, [⟨0, 512 * 4096⟩], a') ∧
      ¬ HandsOutFree halfGiB a a' [] [⟨0, 512 * 4096⟩] := by
  have hrun : (do
      let a ← create halfGiB.capacity halfGiB.unit
      let a ← a.initAddFree 0 (1024 * 4096)
      let (r₁, res₁, a) ← a.allocate 4096 4096 0 0 []
      let (r₂, res₂, _) ← a.allocate (512 * 4096) 4096 0 0 []
      return (r₁, res₁, r₂, res₂, a.l1.bit 0)) =
        Except.ok (4096, [⟨0, 4096⟩], 512 * 4096, [⟨0, 512 * 4096⟩], false) := by
    decide +kernel
  obtain ⟨b, hcreate, hrun⟩ := bind_eq_ok hrun
  obtain ⟨a₀, hadd, hrun⟩ := bind_eq_ok hrun
  obtain ⟨⟨r₁, res₁, a⟩, hfirst, hrun⟩ := bind_eq_ok hrun
  obtain ⟨⟨r₂, res₂, a'⟩, hsecond, hrun⟩ := bind_eq_ok hrun
  have hout := Except.ok.inj hrun
  simp only [Prod.mk.injEq] at hout
  obtain ⟨rfl, rfl, rfl, rfl, hbit⟩ := hout
  refine ⟨a₀, a, a', (Reachable.create hcreate).initAddFree (by decide) hadd, hfirst, hsecond,
    fun hout => ?_⟩
  have hfree := hout.wasFree 0 (by decide)
  exact absurd (hbit.symm.trans hfree) (by decide)

end BitmapAllocator

end Clab.Blk
