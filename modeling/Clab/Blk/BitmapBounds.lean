import Clab.Blk.BitmapScan

/-!
# The bitmap allocator and its vectors

Every state a run reaches has vectors that fit its geometry and no bit set
behind the device. In such a state a call that is contained reads and writes
inside the vectors, shifts by less than the width of a word, and takes no run
that leaves the entry it was found in.
-/

namespace Clab.Blk

open Clab.Common Clab.WordBits Clab.Outcome

/-- A length rounded up to whole granules, in smaller pieces. -/
theorem Geometry.roundup_granules (geo : Geometry) (n : Nat) {m : Nat} (hm : m ≤ 2 ^ 63) {d : Nat}
    (hd : 0 < d) (hn : m = d * n) :
    p2roundup geo.capacity m / d = (geo.capacity + m - 1) / m * n := by
  have hcap := geo.capacity_lt
  have hround : (geo.capacity + m - 1) / m * m ≤ geo.capacity + m - 1 := Nat.div_mul_le_self _ _
  unfold p2roundup
  rw [Nat.mod_eq_of_lt (by omega)]
  generalize (geo.capacity + m - 1) / m = k
  rw [hn, show k * (d * n) = d * (k * n) by ac_rfl, Nat.mul_div_cancel_left _ hd]

/-- The L2 positions up to the end of the device. -/
theorem Geometry.granules_of_units (geo : Geometry) {e : Nat} (he : geo.unit * e ≤ geo.capacity) :
    (e + 131071) / 131072 ≤ geo.granules := by
  have hle := he.trans geo.capacity_le
  rw [show geo.granules * 131072 * geo.unit = geo.unit * (geo.granules * 131072) by ac_rfl] at hle
  have := Nat.le_of_mul_le_mul_left hle geo.unit_pos
  omega

namespace BitmapAllocator

open AllocatorLevel01Loose AllocatorLevel02

/-! ## Runs -/

/-- A call of a `BitmapAllocator`. -/
inductive Call
  | initAddFree (offset length : Nat)
  | initRmFree (offset length : Nat)
  | release (releaseSet : List (Nat × Nat))
  | allocate (want unit maxAllocSize : Nat) (hint : Int) (extents : List PExtent)

/-- What a call that returns does. -/
def Call.Steps (a a' : BitmapAllocator) : Call → Prop
  | .initAddFree offset length => a.initAddFree offset length = .ok a'
  | .initRmFree offset length => a.initRmFree offset length = .ok a'
  | .release releaseSet => a.release releaseSet = .ok a'
  | .allocate want unit maxAllocSize hint extents =>
      ∃ r res, a.allocate want unit maxAllocSize hint extents = .ok (r, res, a')

/-- Ranges lie inside the device, and what is released is made of whole units. -/
def Call.InDevice (geo : Geometry) : Call → Prop
  | .initAddFree offset length => offset + length ≤ geo.capacity
  | .initRmFree offset length => offset + length ≤ geo.capacity
  | .release releaseSet =>
      ∀ p ∈ releaseSet, p.1 % geo.unit = 0 ∧ p.2 % geo.unit = 0 ∧ p.1 + p.2 ≤ geo.capacity
  | .allocate .. => True

/-- The states reached by calls that return. -/
inductive Run (geo : Geometry) : BitmapAllocator → Prop
  | create {a : BitmapAllocator} : create geo.capacity geo.unit = .ok a → Run geo a
  | step {a a' : BitmapAllocator} {c : Call} : Run geo a → c.InDevice geo → c.Steps a a' →
      Run geo a'

/-! ## The geometry of a state -/

/-- The vectors fit the capacity and nothing is set behind the device. -/
structure Fit (geo : Geometry) (a : AllocatorLevel02) : Prop extends Fitted geo a where
  inv : Inv geo a.l1
  l2 : ∀ p, WordBits.bit a.l2.slot p = true → p < geo.granules

theorem Fit.shaped {geo : Geometry} {a : AllocatorLevel02} (h : Fit geo a) : Shaped a := by
  have hle := geo.granules_le
  have hl1 := h.l1Size
  have hl2 := h.l2Size
  have hl1' : a.l1.l1.size / 8 = geo.granules := by
    rw [hl1]
    exact Nat.mul_div_cancel _ (by decide)
  refine ⟨?_, ?_, fun e he => ?_, fun p hp => ?_, ?_, h.inv.sound⟩
  · rw [h.unit]
    exact geo.unit_pos
  · rw [h.l0Size, hl1, Nat.mul_assoc]
  · have hin : e * 512 + 512 ≤ geo.granules * 131072 := by
      clear hle
      omega
    exact hin.trans hle
  · rw [hl1']
    exact h.l2 p hp
  · rw [hl1']
    exact hl2

section Passes

variable {geo : Geometry} {l l' : AllocatorLevel01Loose} {s e : Nat}

theorem l1Size_markAllocL1L0 (h : l.markAllocL1L0 s e = .ok l') : l'.l1.size = l.l1.size := by
  obtain ⟨l₁, hmark, h⟩ := bind_eq_ok h
  exact (markL1OnL0_spec h).2.2.1.trans (congrArg SlotVector.size (markAllocL0_spec hmark).1.l1)

theorem l1Size_markFreeL1L0 (h : l.markFreeL1L0 s e = .ok l') : l'.l1.size = l.l1.size := by
  obtain ⟨l₁, hmark, h⟩ := bind_eq_ok h
  exact (markL1OnL0_spec h).2.2.1.trans (congrArg SlotVector.size (markFreeL0_spec hmark).1.l1)

theorem l1Size_freeL1 {offset length n : Nat} (h : l.freeL1 offset length = .ok (n, l')) :
    l'.l1.size = l.l1.size := by
  obtain ⟨l₁, hmark, h⟩ := bind_eq_ok h
  cases h
  exact l1Size_markFreeL1L0 hmark

theorem bit_markL2Free {a a' : AllocatorLevel02} (h : a.markL2Free s e = .ok a') :
    a'.l1 = a.l1 ∧ a'.l2Granularity = a.l2Granularity ∧ a'.l2.size = a.l2.size ∧
      a'.available = a.available ∧
      ∀ p, WordBits.bit a'.l2.slot p = if s ≤ p ∧ p < e then true else WordBits.bit a.l2.slot p := by
  unfold AllocatorLevel02.markL2Free markL2 at h
  split at h
  · cases h
  · cases h
    refine ⟨rfl, rfl, rfl, rfl, fun p => ?_⟩
    show WordBits.bit (bitLoop setBit (e - s) s a.l2.slot) p = _
    rw [bit_bitLoop bit_setBit]
    by_cases hp : s ≤ p ∧ p < e
    · rw [if_pos hp, if_pos (by omega)]
    · rw [if_neg hp, if_neg (by omega)]

theorem bit_markL2Allocated {a a' : AllocatorLevel02} (h : a.markL2Allocated s e = .ok a') :
    a'.l1 = a.l1 ∧ a'.l2Granularity = a.l2Granularity ∧ a'.l2.size = a.l2.size ∧
      a'.available = a.available ∧
      ∀ p, WordBits.bit a'.l2.slot p =
        if s ≤ p ∧ p < e then false else WordBits.bit a.l2.slot p := by
  unfold AllocatorLevel02.markL2Allocated markL2 at h
  split at h
  · cases h
  · cases h
    refine ⟨rfl, rfl, rfl, rfl, fun p => ?_⟩
    show WordBits.bit (bitLoop clearBit (e - s) s a.l2.slot) p = _
    rw [bit_bitLoop bit_clearBit]
    by_cases hp : s ≤ p ∧ p < e
    · rw [if_pos hp, if_pos (by omega)]
    · rw [if_neg hp, if_neg (by omega)]

end Passes

/-! ## The constructor -/

theorem Fit.create {geo : Geometry} {a : BitmapAllocator}
    (h : BitmapAllocator.create geo.capacity geo.unit = .ok a) : Fit geo a.toAllocatorLevel02 := by
  have hinv := Inv.create h
  have hpos := geo.unit_pos
  have hle := geo.unit_le
  obtain ⟨l2, hl2, h⟩ := bind_eq_ok h
  cases h
  obtain ⟨-, -, hclear, -, hunit, hgran, hl0, hl1, hsize⟩ := init_spec hl2
  refine ⟨⟨hunit, hgran.trans (by omega), ?_, ?_, ?_⟩, hinv, fun p hp => ?_⟩
  · show l2.l1.l0.size = geo.granules * 2048
    rw [hl0, Nat.div_div_eq_div_mul, geo.roundup_granules 2048 (by omega) (by omega) (by omega),
      show geo.unit * 512 * 8 * 32 = geo.unit * 131072 by omega]
    rfl
  · show l2.l1.l1.size = geo.granules * 8
    rw [hl1, Nat.div_div_eq_div_mul, geo.roundup_granules 8 (by omega) (by omega) (by omega),
      show geo.unit * 512 * 8 * 32 = geo.unit * 131072 by omega]
    rfl
  · show geo.granules ≤ l2.l2.size * 64
    rw [hsize, Nat.div_div_eq_div_mul, geo.roundup_granules 1 (by omega) (by omega) (by omega),
      show geo.unit * 512 * 32 * 8 * 64 = geo.unit * 131072 * 64 by omega]
    unfold Geometry.granules
    rw [Nat.mul_one]
    generalize hg : geo.unit * 131072 = granule
    have hg' : 0 < granule := by omega
    have hlt := Nat.lt_div_mul_add (a := geo.capacity + granule * 64 - 1)
      (show 0 < granule * 64 by omega)
    generalize (geo.capacity + granule * 64 - 1) / (granule * 64) = k at hlt
    refine Nat.lt_succ_iff.mp ((Nat.div_lt_iff_lt_mul hg').mpr ?_)
    have hmul : k * (granule * 64) = k * 64 * granule := by ac_rfl
    rw [Nat.succ_mul]
    omega
  · cases (hclear p).symm.trans hp

theorem create_clear {capacity allocUnit : Nat} {a : BitmapAllocator}
    (h : BitmapAllocator.create capacity allocUnit = .ok a) :
    (∀ q, a.l1.bit q = false) ∧ (∀ p, WordBits.bit a.l2.slot p = false) ∧ a.available = 0 := by
  obtain ⟨l2, hl2, h⟩ := bind_eq_ok h
  cases h
  obtain ⟨hbit, -, hclear, havail, -⟩ := init_spec hl2
  exact ⟨hbit, hclear, havail⟩

/-! ## Freeing and taking a range -/

section Ranges

variable {geo : Geometry} {a a' : AllocatorLevel02} {s e : Nat}

/-- The units `[s, e)` are free in `a'` and the L2 bits over them set. -/
structure Freed (geo : Geometry) (s e : Nat) (a a' : AllocatorLevel02) : Prop where
  fit : Fit geo a'
  bit : ∀ q, a'.l1.bit q = if s ≤ q ∧ q < e then true else a.l1.bit q
  l2 : ∀ p, WordBits.bit a'.l2.slot p =
    if s / 131072 ≤ p ∧ p < (e + 131071) / 131072 then true else WordBits.bit a.l2.slot p
  available : a'.available = a.available

/-- The units `[s, e)` are taken in `a'` and the L2 bits over them clear. -/
structure Removed (geo : Geometry) (s e : Nat) (a a' : AllocatorLevel02) : Prop where
  fit : Fit geo a'
  bit : ∀ q, a'.l1.bit q = if s ≤ q ∧ q < e then false else a.l1.bit q
  l2 : ∀ p, WordBits.bit a'.l2.slot p =
    if s / 131072 ≤ p ∧ p < (e + 131071) / 131072 then false else WordBits.bit a.l2.slot p
  available : a'.available = a.available

/-- `_free_l1` and `_mark_l2_free` over a range that ends at a unit of the device. -/
theorem Fit.free (h : Fit geo a) {off len n : Nat} {l1 : AllocatorLevel01Loose}
    (hoff : off / geo.unit = s) (hend : add64 off len = geo.unit * e)
    (hcap : geo.unit * e ≤ geo.capacity) (hfree : a.l1.freeL1 off len = .ok (n, l1))
    (hmark : { a with l1 := l1 }.markL2Free (off / a.l2Granularity)
      (p2roundup (add64 off len) a.l2Granularity / a.l2Granularity) = .ok a') :
    n = len ∧ Freed geo s e a a' := by
  have hinv := h.inv.freeL1 (by rw [hend]; exact Nat.mul_mod_right _ _) (by rwa [hend]) hfree
  have hsize := l1Size_freeL1 hfree
  have hle := geo.granules_of_units hcap
  have hcap' := geo.capacity_lt
  have hmul : e ≤ geo.unit * e := Nat.le_mul_of_pos_left e geo.unit_pos
  obtain ⟨l₁, hl1, hfree⟩ := bind_eq_ok hfree
  cases hfree
  rw [h.unit, hoff, p2roundup_end geo (by rw [hend]; exact Nat.mul_mod_right _ _) (by rwa [hend]),
    hend, Nat.mul_div_cancel_left _ geo.unit_pos] at hl1
  obtain ⟨hshape, -, hbit, -⟩ := markFreeL1L0_spec (by omega) hl1
  rw [hend, h.l2Granularity, geo.roundup_units hcap, ← Nat.div_div_eq_div_mul, hoff] at hmark
  obtain ⟨hsame, hgran, hl2size, havail, hl2⟩ := bit_markL2Free hmark
  refine ⟨rfl, ⟨⟨⟨?_, hgran, ?_, ?_, hl2size.symm ▸ h.l2Size⟩, ?_, fun p hp => ?_⟩, fun q => ?_, hl2,
    havail⟩⟩
  · rw [hsame]
    exact hinv.unit
  · rw [hsame]
    exact hshape.l0Size.trans h.l0Size
  · rw [hsame]
    exact hsize.trans h.l1Size
  · rwa [hsame]
  · rw [hl2] at hp
    split at hp
    · omega
    · exact h.l2 p hp
  · rw [hsame]
    exact hbit q

/-- `_mark_alloc_l1_l0` and `_mark_l2_allocated` over a range that ends at a unit
of the device. -/
theorem Fit.remove (h : Fit geo a) {l1 : AllocatorLevel01Loose}
    (hcap : geo.unit * e ≤ geo.capacity) (hl1 : a.l1.markAllocL1L0 s e = .ok l1)
    (hmark : { a with l1 := l1 }.markL2Allocated (s / 131072) ((e + 131071) / 131072) = .ok a') :
    Removed geo s e a a' := by
  have hcap' := geo.capacity_lt
  have hmul : e ≤ geo.unit * e := Nat.le_mul_of_pos_left e geo.unit_pos
  have hinv := h.inv.markAllocL1L0 (by omega) hl1
  have hsize := l1Size_markAllocL1L0 hl1
  obtain ⟨hshape, -, hbit, -⟩ := markAllocL1L0_spec (by omega) hl1
  obtain ⟨hsame, hgran, hl2size, havail, hl2⟩ := bit_markL2Allocated hmark
  refine ⟨⟨⟨?_, hgran.trans h.l2Granularity, ?_, ?_, hl2size.symm ▸ h.l2Size⟩, ?_, fun p hp => ?_⟩,
    fun q => ?_, hl2, havail⟩
  · rw [hsame]
    exact hinv.unit
  · rw [hsame]
    exact hshape.l0Size.trans h.l0Size
  · rw [hsame]
    exact hsize.trans h.l1Size
  · rwa [hsame]
  · rw [hl2] at hp
    split at hp
    · cases hp
    · exact h.l2 p hp
  · rw [hsame]
    exact hbit q

end Ranges

/-! ## Calls keep the geometry -/

section Calls

variable {geo : Geometry} {a a' : BitmapAllocator} {offset length : Nat}

/-- The end of the range of an `init` call, in units. -/
def innerEnd (a : BitmapAllocator) (offset length : Nat) : Nat :=
  add64 (a.innerRange offset length).1 (a.innerRange offset length).2 / a.l1.l0Granularity

theorem innerEnd_spec (hu : a.l1.l0Granularity = geo.unit) (hcap : offset + length ≤ geo.capacity) :
    add64 (a.innerRange offset length).1 (a.innerRange offset length).2 =
        geo.unit * a.innerEnd offset length ∧
      geo.unit * a.innerEnd offset length ≤ geo.capacity := by
  obtain ⟨hmod, hle⟩ := innerRange_end hu hcap
  have heq : geo.unit * a.innerEnd offset length =
      add64 (a.innerRange offset length).1 (a.innerRange offset length).2 := by
    unfold innerEnd
    rw [hu]
    exact Nat.mul_div_cancel' (Nat.dvd_of_mod_eq_zero hmod)
  rw [heq]
  exact ⟨rfl, hle.trans hcap⟩

/-- `init_add_free` does nothing, or frees its range. -/
theorem initAddFree_spec (h : Fit geo a.toAllocatorLevel02) (hcap : offset + length ≤ geo.capacity)
    (hstep : a.initAddFree offset length = .ok a') :
    (a' = a ∧ (length = 0 ∨ (a.innerRange offset length).2 = 0)) ∨
      ¬ (length = 0 ∨ (a.innerRange offset length).2 = 0) ∧
      ∃ l2, Freed geo ((a.innerRange offset length).1 / geo.unit) (a.innerEnd offset length)
          a.toAllocatorLevel02 l2 ∧
        a'.toAllocatorLevel02 =
          { l2 with available := add64 a.available (a.innerRange offset length).2 } := by
  obtain ⟨hend, hin⟩ := innerEnd_spec h.unit hcap
  unfold BitmapAllocator.initAddFree at hstep
  dsimp only at hstep
  split at hstep
  · rename_i hnone
    cases hstep
    exact Or.inl ⟨rfl, hnone⟩
  · rename_i hsome
    obtain ⟨l2, hmark, hstep⟩ := bind_eq_ok hstep
    cases hstep
    obtain ⟨⟨n, l1⟩, hfree, hmark⟩ := bind_eq_ok hmark
    obtain ⟨l2', hl2, hmark⟩ := bind_eq_ok hmark
    cases hmark
    obtain ⟨-, hfreed⟩ := h.free rfl hend hin hfree hl2
    exact Or.inr ⟨hsome, l2', hfreed, by rw [← hfreed.available]⟩

/-- `init_rm_free` does nothing, or takes its range. -/
theorem initRmFree_spec (h : Fit geo a.toAllocatorLevel02) (hcap : offset + length ≤ geo.capacity)
    (hstep : a.initRmFree offset length = .ok a') :
    (a' = a ∧ (length = 0 ∨ (a.innerRange offset length).2 = 0)) ∨
      ¬ (length = 0 ∨ (a.innerRange offset length).2 = 0) ∧
      ∃ l2, Removed geo ((a.innerRange offset length).1 / geo.unit) (a.innerEnd offset length)
          a.toAllocatorLevel02 l2 ∧ (a.innerRange offset length).2 ≤ a.available ∧
        a'.toAllocatorLevel02 =
          { l2 with available := a.available - (a.innerRange offset length).2 } := by
  obtain ⟨hend, hin⟩ := innerEnd_spec h.unit hcap
  have hpos := geo.unit_pos
  unfold BitmapAllocator.initRmFree at hstep
  dsimp only at hstep
  split at hstep
  · rename_i hnone
    cases hstep
    exact Or.inl ⟨rfl, hnone⟩
  · rename_i hsome
    obtain ⟨l2, hmark, hstep⟩ := bind_eq_ok hstep
    cases hstep
    obtain ⟨l1, halloc, hmark⟩ := bind_eq_ok hmark
    obtain ⟨l2', hl2, hmark⟩ := bind_eq_ok hmark
    rw [h.unit, p2roundup_end geo (by rw [hend]; exact Nat.mul_mod_right _ _) (by rwa [hend]), hend,
      Nat.mul_div_cancel_left _ hpos] at halloc
    rw [hend, h.l2Granularity, geo.roundup_units hin, ← Nat.div_div_eq_div_mul] at hl2
    rw [← h.l2Granularity] at hl2
    have hremoved := h.remove hin halloc hl2
    split at hmark
    · rename_i hle
      cases hmark
      rw [hremoved.available] at hle
      exact Or.inr ⟨hsome, l2', hremoved, hle, by rw [← hremoved.available]⟩
    · cases hmark

theorem Fit.withAvailable {a : AllocatorLevel02} (h : Fit geo a) (n : Nat) :
    Fit geo { a with available := n } :=
  ⟨⟨h.unit, h.l2Granularity, h.l0Size, h.l1Size, h.l2Size⟩, h.inv, h.l2⟩

theorem Fit.initAddFree (h : Fit geo a.toAllocatorLevel02) (hcap : offset + length ≤ geo.capacity)
    (hstep : a.initAddFree offset length = .ok a') : Fit geo a'.toAllocatorLevel02 := by
  rcases initAddFree_spec h hcap hstep with ⟨rfl, -⟩ | ⟨-, l2, hfreed, heq⟩
  · exact h
  · rw [heq]
    exact hfreed.fit.withAvailable _

theorem Fit.initRmFree (h : Fit geo a.toAllocatorLevel02) (hcap : offset + length ≤ geo.capacity)
    (hstep : a.initRmFree offset length = .ok a') : Fit geo a'.toAllocatorLevel02 := by
  rcases initRmFree_spec h hcap hstep with ⟨rfl, -⟩ | ⟨-, l2, hremoved, -, heq⟩
  · exact h
  · rw [heq]
    exact hremoved.fit.withAvailable _

/-- One round of `_free_l2`. -/
theorem freeLoop_cons {a a' : AllocatorLevel02} {p : Nat × Nat} {rest : List (Nat × Nat)} {n : Nat}
    (h : Fit geo a) (hal : p.1 % geo.unit = 0 ∧ p.2 % geo.unit = 0 ∧ p.1 + p.2 ≤ geo.capacity)
    (hstep : freeLoop (p :: rest) a = .ok (n, a')) :
    ∃ a₁ n', Freed geo (p.1 / geo.unit) ((p.1 + p.2) / geo.unit) a a₁ ∧
      freeLoop rest a₁ = .ok (n', a') ∧ n = add64 p.2 n' := by
  obtain ⟨hoff, hlen, hcap⟩ := hal
  have hcap' := geo.capacity_lt
  have hadd : add64 p.1 p.2 = p.1 + p.2 := add64_of_lt (by omega)
  have hend : geo.unit * ((p.1 + p.2) / geo.unit) = p.1 + p.2 :=
    Nat.mul_div_cancel' (Nat.dvd_add (Nat.dvd_of_mod_eq_zero hoff) (Nat.dvd_of_mod_eq_zero hlen))
  obtain ⟨⟨r, l1⟩, hfree, hstep⟩ := bind_eq_ok hstep
  obtain ⟨a₁, hl2, hstep⟩ := bind_eq_ok hstep
  obtain ⟨⟨n', a₂⟩, hrest, hstep⟩ := bind_eq_ok hstep
  cases hstep
  obtain ⟨rfl, hfreed⟩ := h.free rfl (hadd.trans hend.symm) (by rwa [hend]) hfree hl2
  exact ⟨a₁, n', hfreed, hrest, rfl⟩

theorem Fit.freeLoop {rr : List (Nat × Nat)} {a a' : AllocatorLevel02} (h : Fit geo a)
    (hin : ∀ p ∈ rr, p.1 % geo.unit = 0 ∧ p.2 % geo.unit = 0 ∧ p.1 + p.2 ≤ geo.capacity) {n : Nat}
    (hstep : AllocatorLevel02.freeLoop rr a = .ok (n, a')) : Fit geo a' := by
  induction rr generalizing a n with
  | nil =>
      cases hstep
      exact h
  | cons p rest ih =>
      obtain ⟨a₁, n', hfreed, hrest, -⟩ := freeLoop_cons h (hin p List.mem_cons_self) hstep
      exact ih hfreed.fit (fun q hq => hin q (List.mem_cons_of_mem _ hq)) hrest

/-! ### Allocation, whatever the state -/

/-- What `_allocate_l1` keeps. -/
structure Keeps (geo : Geometry) (l l' : AllocatorLevel01Loose) : Prop where
  inv : Inv geo l'
  l0Size : l'.l0.size = l.l0.size
  l1Size : l'.l1.size = l.l1.size

theorem Keeps.trans {l₁ l₂ l₃ : AllocatorLevel01Loose} (h : Keeps geo l₁ l₂) (h' : Keeps geo l₂ l₃) :
    Keeps geo l₁ l₃ :=
  ⟨h'.inv, h'.l0Size.trans h.l0Size, h'.l1Size.trans h.l1Size⟩

/-- Runs taken from one entry, and from the next ones where they lead on. -/
theorem keeps_allocateL0 {l l' : AllocatorLevel01Loose} {want maxLength s e : Nat} {g g' : Grant}
    {r : Int} (h : Inv geo l) (hstep : l.allocateL0 want maxLength s e g = .ok (r, g', l')) :
    Keeps geo l l' := by
  have hpos : 0 < l.l0Granularity := by
    rw [h.unit]
    exact geo.unit_pos
  obtain ⟨⟨need, g₁, l₁⟩, hloop, hstep⟩ := bind_eq_ok hstep
  cases hstep
  obtain ⟨-, -, hsame, hout⟩ := allocateL0Loop_spec hpos hloop
  have hshrink : ∀ q, l'.bit q = true → l.bit q = true := fun q hq =>
    bit_of_handsOut hpos hsame.l0Granularity hout hq
  refine ⟨⟨hsame.l0Granularity.trans h.unit, ?_, h.sound.of_sameL1 hsame hshrink,
    fun q hq => h.inside q (hshrink q hq)⟩, hsame.l0Size, congrArg SlotVector.size hsame.l1⟩
  rw [hsame.l0Size]
  exact h.size

theorem keeps_allocateL1Loop {l l' : AllocatorLevel01Loose} {want maxLength n p : Nat} {g g' : Grant}
    {r : Int} (h : Inv geo l) (hstep : allocateL1Loop want maxLength n p g l = .ok (r, g', l')) :
    Keeps geo l l' := by
  induction n generalizing p g l with
  | zero =>
      cases hstep
      exact ⟨h, rfl, rfl⟩
  | succ n ih =>
      unfold allocateL1Loop at hstep
      split at hstep
      · cases hstep
        exact ⟨h, rfl, rfl⟩
      · dsimp only at hstep
        split at hstep
        · exact ih h hstep
        · split at hstep
          · cases hstep
            exact ⟨h, rfl, rfl⟩
          · split at hstep
            · obtain ⟨g₁, -, hstep⟩ := bind_eq_ok hstep
              obtain ⟨l₁, hmark, hstep⟩ := bind_eq_ok hstep
              unfold bitsPerSlotset at hmark
              have hin : p * 512 + 512 ≤ l.l0.size * 64 := by
                obtain ⟨l₂, hl0, -⟩ := bind_eq_ok hmark
                exact (markAllocL0_spec hl0).2.1 (by omega)
              have hend := hin.trans h.size
              have hkeeps : Keeps geo l l₁ := ⟨h.markAllocL1L0 hend hmark,
                (markAllocL1L0_spec hend hmark).1.l0Size, l1Size_markAllocL1L0 hmark⟩
              exact hkeeps.trans (ih hkeeps.inv hstep)
            · obtain ⟨⟨r₁, g₁, l₁⟩, hl0, hstep⟩ := bind_eq_ok hstep
              have hkeeps := keeps_allocateL0 h hl0
              exact hkeeps.trans (ih hkeeps.inv hstep)

theorem Fit.withL1 {a : AllocatorLevel02} {l1 : AllocatorLevel01Loose} (h : Fit geo a)
    (hk : Keeps geo a.l1 l1) : Fit geo { a with l1 := l1 } :=
  ⟨⟨hk.inv.unit, h.l2Granularity, hk.l0Size.trans h.l0Size, hk.l1Size.trans h.l1Size, h.l2Size⟩,
    hk.inv, h.l2⟩

theorem Fit.noteEmpty {a a' : AllocatorLevel02} {empty : Bool} {idx off : Nat} (h : Fit geo a)
    (hstep : a.noteEmpty empty idx off = .ok a') : Fit geo a' := by
  unfold AllocatorLevel02.noteEmpty at hstep
  split at hstep
  · split at hstep
    · cases hstep
    · cases hstep
      refine ⟨⟨h.unit, h.l2Granularity, h.l0Size, h.l1Size, h.l2Size⟩, h.inv, fun p hp => h.l2 p ?_⟩
      rw [bit_clearBit] at hp
      split at hp
      · cases hp
      · exact hp
  · cases hstep
    exact h

theorem Fit.scanSlot {a a' : AllocatorLevel02} {want maxLength idx slotStart scanEnd n : Nat}
    {val : Slot} {off : Option Nat} {g g' : Grant} {done : Bool} (h : Fit geo a)
    (hstep : AllocatorLevel02.scanSlot want maxLength idx slotStart scanEnd val n off g a =
      .ok (done, g', a')) : Fit geo a' := by
  induction n generalizing off g a with
  | zero =>
      cases hstep
      exact h
  | succ n ih =>
      cases off with
      | none =>
          cases hstep
          exact h
      | some off =>
          unfold AllocatorLevel02.scanSlot at hstep
          split at hstep
          · obtain ⟨⟨r, g₁, l1⟩, halloc, hstep⟩ := bind_eq_ok hstep
            obtain ⟨empty, -, hstep⟩ := bind_eq_ok hstep
            obtain ⟨a₁, hempty, hstep⟩ := bind_eq_ok hstep
            have h₁ : Fit geo a₁ := (h.withL1 (keeps_allocateL1Loop h.inv halloc)).noteEmpty hempty
            split at hstep
            · cases hstep
              exact ⟨⟨h₁.unit, h₁.l2Granularity, h₁.l0Size, h₁.l1Size, h₁.l2Size⟩, h₁.inv, h₁.l2⟩
            · exact ih h₁ hstep
          · cases hstep
            exact h

theorem Fit.scanRound {a a' : AllocatorLevel02} {want maxLength endPos n idx : Nat} {g g' : Grant}
    {done : Bool} (h : Fit geo a)
    (hstep : AllocatorLevel02.scanRound want maxLength endPos n idx g a = .ok (done, g', a')) :
    Fit geo a' := by
  induction n generalizing idx g a with
  | zero =>
      cases hstep
      exact h
  | succ n ih =>
      unfold AllocatorLevel02.scanRound at hstep
      split at hstep
      · split at hstep
        · cases hstep
        · dsimp only at hstep
          split at hstep
          · exact ih h hstep
          · obtain ⟨⟨done₁, g₁, a₁⟩, hslot, hstep⟩ := bind_eq_ok hstep
            have h₁ := h.scanSlot hslot
            dsimp only at hstep
            split at hstep
            · cases hstep
              exact h₁
            · exact ih h₁ hstep
      · cases hstep
        exact h

theorem Fit.allocate {a' : BitmapAllocator} {want unit maxAllocSize : Nat} {hint r : Int}
    {extents res : List PExtent} (h : Fit geo a.toAllocatorLevel02)
    (hstep : a.allocate want unit maxAllocSize hint extents = .ok (r, res, a')) :
    Fit geo a'.toAllocatorLevel02 := by
  unfold BitmapAllocator.allocate at hstep
  split at hstep
  · obtain ⟨⟨r', g, l2⟩, hl2, hstep⟩ := bind_eq_ok hstep
    cases hstep
    show Fit geo l2
    obtain ⟨⟨done₁, g₁, a₁⟩, hfirst, hl2⟩ := bind_eq_ok hl2
    have h₁ := h.scanRound hfirst
    dsimp only at hl2
    split at hl2
    · cases hl2
      exact h₁
    · obtain ⟨⟨done₂, g₂, a₂⟩, hsecond, hl2⟩ := bind_eq_ok hl2
      have h₂ := h₁.scanRound hsecond
      dsimp only at hl2
      split at hl2
      · cases hl2
        exact h₂
      · split at hl2
        · cases hl2
          exact h₂.withAvailable _
        · cases hl2
          exact h₂
  · cases hstep

end Calls

/-! ## Inside the vectors -/

/-- Every index of the call lies in its vector and every shift is below the width
of a word, and no call of `_allocate_l0` touches the units from the end of its
range on. -/
structure InBounds (a : BitmapAllocator) (want unit maxAllocSize : Nat) (hint : Int)
    (extents : List PExtent) : Prop where
  returns : Returns (· = .assertFail) (a.allocate want unit maxAllocSize hint extents)
    fun _ => True
  inside : isp2 unit ∧ want % unit = 0 ∧ unit ≥ a.l1.l0Granularity →
    Inside a.toAllocatorLevel02 want unit maxAllocSize hint ⟨0, extents⟩

section InBounds

variable {geo : Geometry} {a : BitmapAllocator} {want unit maxAllocSize : Nat} {hint : Int}
  {extents : List PExtent}

/-- A call whose assertions hold asks for whole units. -/
theorem unit_dvd_want (hu : isp2 unit = true) (hmod : want % unit = 0) (hle : geo.unit ≤ unit) :
    geo.unit ∣ want := by
  obtain ⟨k, rfl⟩ := isp2_iff.mp hu
  have hshift : geo.shift ≤ k := (Nat.pow_le_pow_iff_right (by decide)).mp hle
  exact (Nat.pow_dvd_pow 2 hshift).trans (Nat.dvd_of_mod_eq_zero hmod)

theorem follows_trivial (v : Nat → Bool) (entry : Nat → Slot) (granularity want maxLength : Nat) :
    Follows v entry granularity want maxLength fun _ _ => True :=
  ⟨fun _ _ _ => trivial, fun _ _ _ _ => trivial⟩

/-- `_allocate_l2` for a call whose assertions hold. -/
theorem Fit.allocateL2 (h : Fit geo a.toAllocatorLevel02)
    (hcall : isp2 unit ∧ want % unit = 0 ∧ unit ≥ a.l1.l0Granularity)
    (hc : Contained a.toAllocatorLevel02 want hint) :
    Returns (· = .assertFail)
        (a.toAllocatorLevel02.allocateL2 want unit maxAllocSize hint ⟨0, extents⟩)
        (Outcome a.toAllocatorLevel02 want hint (fun _ _ => True) fun _ _ => True) ∧
      Inside a.toAllocatorLevel02 want unit maxAllocSize hint ⟨0, extents⟩ := by
  obtain ⟨hu, hmod, hle⟩ := hcall
  rw [h.unit] at hle
  have hwant : a.l1.l0Granularity ∣ want := by
    rw [h.unit]
    exact unit_dvd_want hu hmod hle
  have hmax : MaxFits (· = .assertFail) (min want (512 * a.l1.l0Granularity))
      (maxRun unit maxAllocSize) := Or.inl rfl
  exact allocateL2_sweep h.shaped hwant hc (follows_trivial _ _ _ _ _) (follows_trivial _ _ _ _ _)
    (fun _ _ => trivial) hmax trivial

theorem Fit.inBounds (h : Fit geo a.toAllocatorLevel02)
    (hc : Contained a.toAllocatorLevel02 want hint) :
    InBounds a want unit maxAllocSize hint extents := by
  refine ⟨?_, fun hcall => (h.allocateL2 hcall hc).2⟩
  unfold BitmapAllocator.allocate
  split
  · rename_i hcall
    exact (h.allocateL2 hcall hc).1.bind fun _ _ _ => trivial
  · exact rfl

end InBounds

theorem Fit.step {geo : Geometry} {a a' : BitmapAllocator} {c : Call}
    (h : Fit geo a.toAllocatorLevel02) (hin : c.InDevice geo) (hstep : c.Steps a a') :
    Fit geo a'.toAllocatorLevel02 := by
  cases c with
  | initAddFree offset length => exact h.initAddFree hin hstep
  | initRmFree offset length => exact h.initRmFree hin hstep
  | release releaseSet =>
      obtain ⟨l2, hfree, hstep⟩ := bind_eq_ok hstep
      cases hstep
      obtain ⟨⟨n, l2'⟩, hloop, hfree⟩ := bind_eq_ok hfree
      cases hfree
      exact (h.freeLoop hin hloop).withAvailable _
  | allocate want unit maxAllocSize hint extents =>
      obtain ⟨r, res, hstep⟩ := hstep
      exact h.allocate hstep

theorem Run.fit {geo : Geometry} {a : BitmapAllocator} (h : Run geo a) :
    Fit geo a.toAllocatorLevel02 := by
  induction h with
  | create hc => exact Fit.create hc
  | step _ hin hstep ih => exact ih.step hin hstep

/-- In every state reached a call that is contained stays inside the vectors, shifts
by less than the width of a word and takes no run that leaves its range. -/
theorem allocate_inBounds {geo : Geometry} {a : BitmapAllocator} {want unit maxAllocSize : Nat}
    {hint : Int} {extents : List PExtent} (h : Run geo a)
    (hc : Contained a.toAllocatorLevel02 want hint) :
    InBounds a want unit maxAllocSize hint extents :=
  h.fit.inBounds hc

/-- A device on which the first two entries are free. -/
theorem twoEntries {a b : BitmapAllocator} (hcreate : create halfGiB.capacity halfGiB.unit = .ok b)
    (hadd : b.initAddFree 0 (1024 * 4096) = .ok a) :
    (∀ q, a.l1.bit q = true ↔ q < 1024) ∧ Contained a.toAllocatorLevel02 4096 0 := by
  have hfit := Fit.create hcreate
  have hfit' := hfit.initAddFree (show _ ≤ _ by decide) hadd
  have hrange : b.innerRange 0 (1024 * 4096) = (0, 1024 * 4096) := by
    unfold innerRange
    rw [hfit.unit]
    decide
  have hend : b.innerEnd 0 (1024 * 4096) = 1024 := by
    unfold innerEnd
    rw [hrange, hfit.unit]
    decide
  have hbit : ∀ q, a.l1.bit q = true ↔ q < 1024 := by
    intro q
    rcases initAddFree_spec hfit (by decide) hadd with ⟨-, hnone⟩ | ⟨-, l2, hfreed, heq⟩
    · rw [hrange] at hnone
      omega
    · have hq := hfreed.bit q
      rw [hrange, hend, (create_clear hcreate).1 q, Nat.zero_div] at hq
      have hsame : a.l1 = l2.l1 := by rw [heq]
      rw [hsame, hq]
      by_cases hlt : q < 1024
      · rw [if_pos ⟨Nat.zero_le q, hlt⟩]
        exact iff_of_true rfl hlt
      · rw [if_neg fun h => hlt h.2]
        exact iff_of_false Bool.false_ne_true hlt
  refine ⟨hbit, fun e _ hcut => ?_, fun w hw hlt hall => ?_⟩
  · -- an entry whose last unit is free is free as a whole
    obtain ⟨hlast, -, q, hq, hclear⟩ := hcut
    have hlt := (hbit _).mp hlast
    rw [(hbit q).mpr (by omega)] at hclear
    cases hclear
  · have hgranules : halfGiB.granules = 1 := by decide
    have hset : WordBits.bit a.l2.slot (w * 64) = true := by
      unfold WordBits.bit
      rw [Nat.mul_div_cancel _ (by decide), Nat.mul_mod_left]
      exact slot_eq_set_iff.mp hall 0 (by decide)
    have := hfit'.l2 _ hset
    omega

/-- The first `allocate` of one unit on a device with two FREE entries. -/
theorem allocate_inBounds_first : ∃ a : BitmapAllocator, Run halfGiB a ∧
    Contained a.toAllocatorLevel02 4096 0 ∧ InBounds a 4096 4096 0 0 [] := by
  have hrun : (do
      let a ← create halfGiB.capacity halfGiB.unit
      let _ ← a.initAddFree 0 (1024 * 4096)
      return ()) = Except.ok () := by
    decide +kernel
  obtain ⟨b, hcreate, hrun⟩ := bind_eq_ok hrun
  obtain ⟨a, hadd, -⟩ := bind_eq_ok hrun
  have ha : Run halfGiB a :=
    (Run.create hcreate).step (c := .initAddFree 0 (1024 * 4096)) (show _ ≤ _ by decide) hadd
  have hc := (twoEntries hcreate hadd).2
  exact ⟨a, ha, hc, allocate_inBounds ha hc⟩

/-- Two units are free at the end of the device and three are asked for: the
search for the end of the run leaves L0. -/
theorem allocate_not_inBounds : ∃ a : BitmapAllocator, Run halfGiB a ∧
    ¬ InBounds a (3 * 4096) 4096 0 0 [] := by
  have hrun : (do
      let a ← create halfGiB.capacity halfGiB.unit
      let a ← a.initAddFree (131070 * 4096) (2 * 4096)
      return match a.allocate (3 * 4096) 4096 0 0 [] with
        | .error f => some f
        | .ok _ => none) = Except.ok (some Fault.outOfBounds) := by
    decide +kernel
  obtain ⟨b, hcreate, hrun⟩ := bind_eq_ok hrun
  obtain ⟨a, hadd, hrun⟩ := bind_eq_ok hrun
  refine ⟨a, (Run.create hcreate).step (c := .initAddFree (131070 * 4096) (2 * 4096))
    (show _ ≤ _ by decide) hadd, fun hin => ?_⟩
  cases halloc : a.allocate (3 * 4096) 4096 0 0 [] with
  | ok r =>
      rw [halloc] at hrun
      cases hrun
  | error f =>
      rw [halloc] at hrun
      cases hrun
      cases hin.returns.of_error halloc

end BitmapAllocator

end Clab.Blk
