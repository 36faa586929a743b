import Clab.Blk.BitmapClaim

/-!
# Agreement of the three levels

A bitmap state is coherent when its vectors fit the capacity, every L1 entry
says what its 512 bits are, every L2 bit says whether an entry below is not
FULL, and `available` counts the free units. Claiming neighbours keeps this.
-/

namespace Clab.Blk

open Clab.Common Clab.WordBits

/-- The number of L2 positions that the capacity needs. -/
def Geometry.granules (geo : Geometry) : Nat :=
  (geo.capacity + geo.unit * 131072 - 1) / (geo.unit * 131072)

theorem Geometry.capacity_le (geo : Geometry) :
    geo.capacity ≤ geo.granules * 131072 * geo.unit := by
  have hpos := geo.unit_pos
  unfold Geometry.granules
  have hdiv := Nat.div_add_mod (geo.capacity + geo.unit * 131072 - 1) (geo.unit * 131072)
  have hmod := Nat.mod_lt (geo.capacity + geo.unit * 131072 - 1)
    (show 0 < geo.unit * 131072 by omega)
  generalize (geo.capacity + geo.unit * 131072 - 1) / (geo.unit * 131072) = n at *
  rw [show n * 131072 * geo.unit = geo.unit * 131072 * n by ac_rfl]
  omega

theorem Geometry.granules_le (geo : Geometry) : geo.granules * 131072 ≤ 2 ^ 64 - 1024 := by
  have hpos := geo.unit_pos
  have hle := geo.unit_le
  have hcap := geo.capacity_lt
  have hmul : geo.granules * (geo.unit * 131072) ≤ geo.capacity + geo.unit * 131072 - 1 :=
    Nat.div_mul_le_self _ _
  have hunit : geo.granules * 131072 ≤ geo.granules * (geo.unit * 131072) :=
    Nat.mul_le_mul_left _ (by omega)
  omega

/-- A position of L2, rounded up from a unit. -/
theorem Geometry.roundup_units (geo : Geometry) {p : Nat} (hp : geo.unit * p ≤ geo.capacity) :
    p2roundup (geo.unit * p) (geo.unit * 131072) / (geo.unit * 131072) =
      (p + 131071) / 131072 := by
  have hpos := geo.unit_pos
  have hle := geo.unit_le
  have hcap := geo.capacity_lt
  have hdiv : (geo.unit * p + geo.unit * 131072 - 1) / (geo.unit * 131072) =
      (p + 131071) / 131072 := by
    have hlast : geo.unit * p + geo.unit * 131072 - 1 =
        geo.unit * (p + 131071) + (geo.unit - 1) := by
      rw [Nat.mul_add]
      omega
    have hunits : (geo.unit * (p + 131071) + (geo.unit - 1)) / geo.unit = p + 131071 := by
      rw [Nat.mul_add_div hpos, Nat.div_eq_of_lt (show geo.unit - 1 < geo.unit by omega),
        Nat.add_zero]
    rw [← Nat.div_div_eq_div_mul, hlast, hunits]
  have hmul : (geo.unit * p + geo.unit * 131072 - 1) / (geo.unit * 131072) *
      (geo.unit * 131072) ≤ geo.unit * p + geo.unit * 131072 - 1 := Nat.div_mul_le_self _ _
  unfold p2roundup
  rw [Nat.mod_eq_of_lt (by omega), Nat.mul_div_cancel _ (by omega), hdiv]

namespace AllocatorLevel02

open AllocatorLevel01Loose

/-- The vectors are as long as `_init` makes them. -/
structure Fitted (geo : Geometry) (a : AllocatorLevel02) : Prop where
  unit : a.l1.l0Granularity = geo.unit
  l2Granularity : a.l2Granularity = geo.unit * 131072
  l0Size : a.l1.l0.size = geo.granules * 2048
  l1Size : a.l1.l1.size = geo.granules * 8
  l2Size : geo.granules ≤ a.l2.size * 64

/-- The free units of L0. -/
def freeUnits (geo : Geometry) (v : Words) : Finset Nat :=
  (Finset.range (geo.granules * 131072)).filter fun q => WordBits.bit v q

/-- The three levels agree. -/
structure Coherent (geo : Geometry) (a : AllocatorLevel02) : Prop extends Fitted geo a where
  inside : ∀ q, q < geo.granules * 131072 → a.l1.bit q = true → (q + 1) * geo.unit ≤ geo.capacity
  entries : ∀ e, e < geo.granules * 256 → a.l1.entry e = summary a.l1.l0.slot e
  l2 : ∀ p, p < geo.granules →
    (WordBits.bit a.l2.slot p = true ↔ ∃ e, e / 256 = p ∧ a.l1.entry e ≠ L1_ENTRY_FULL)
  available : a.available = geo.unit * (freeUnits geo a.l1.l0.slot).card

/-! ## Refreshing the summaries -/

theorem summary_congr {v v' : Words} {e : Nat}
    (h : ∀ q, q / 512 = e → WordBits.bit v q = WordBits.bit v' q) : summary v e = summary v' e := by
  have hslot : ∀ i, i < 8 → v (e * 8 + i) = v' (e * 8 + i) := by
    intro i hi
    refine BitVec.eq_of_getLsbD_eq fun j hj => ?_
    have hb := h ((e * 8 + i) * 64 + j) (by omega)
    unfold WordBits.bit at hb
    rwa [show ((e * 8 + i) * 64 + j) / 64 = e * 8 + i by omega,
      show ((e * 8 + i) * 64 + j) % 64 = j by omega] at hb
  have hmap : (List.range slotsPerSlotset).map (fun i => v (e * slotsPerSlotset + i)) =
      (List.range slotsPerSlotset).map fun i => v' (e * slotsPerSlotset + i) :=
    List.map_congr_left fun i hi => hslot i (List.mem_range.mp hi)
  unfold summary
  rw [hmap]

theorem anyEntry_spec {l : AllocatorLevel01Loose} {n i : Nat} (h : i + n ≤ l.l1.size * 32) :
    ∃ b, l.anyEntry n i = .ok b ∧
      (b = true ↔ ∃ e, i ≤ e ∧ e < i + n ∧ l.entry e ≠ L1_ENTRY_FULL) := by
  induction n generalizing i with
  | zero => exact ⟨false, rfl, by simp; omega⟩
  | succ n ih =>
      unfold anyEntry
      rw [if_neg (by unfold L1_ENTRIES_PER_SLOT; omega)]
      by_cases hent : l.entry i ≠ L1_ENTRY_FULL
      · rw [if_pos hent]
        exact ⟨true, rfl, fun _ => ⟨i, le_rfl, by omega, hent⟩, fun _ => rfl⟩
      · rw [if_neg hent]
        obtain ⟨b, hb, hiff⟩ := ih (i := i + 1) (by omega)
        refine ⟨b, hb, hiff.trans ⟨?_, ?_⟩⟩
        · rintro ⟨e, hle, hlt, he⟩
          exact ⟨e, by omega, by omega, he⟩
        · rintro ⟨e, hle, hlt, he⟩
          have hne : e ≠ i := by
            rintro rfl
            exact hent he
          exact ⟨e, by omega, by omega, he⟩

/-- `_mark_l2_on_l1` computes the bits of its range anew. -/
theorem markL2OnL1_spec {n p : Nat} {a : AllocatorLevel02} (hl1 : (p + n) * 8 ≤ a.l1.l1.size)
    (hl2 : p + n ≤ a.l2.size * 64) : ∃ v, markL2OnL1 n p a =
        .ok { a with l2 := { a.l2 with slot := v } } ∧
      (∀ q, p ≤ q → q < p + n →
        (WordBits.bit v q = true ↔ ∃ e, e / 256 = q ∧ a.l1.entry e ≠ L1_ENTRY_FULL)) ∧
      ∀ q, ¬ (p ≤ q ∧ q < p + n) → WordBits.bit v q = WordBits.bit a.l2.slot q := by
  induction n generalizing p a with
  | zero => exact ⟨a.l2.slot, rfl, fun q hp hn => by omega, fun _ _ => rfl⟩
  | succ n ih =>
      obtain ⟨b, hb, hiff⟩ := anyEntry_spec (l := a.l1) (n := 256) (i := p * 256) (by omega)
      have hone : a.markL2Bit p = .ok { a with l2 := { a.l2 with
          slot := if b then setBit a.l2.slot p else clearBit a.l2.slot p } } := by
        have hentries : L1_ENTRIES_PER_SLOT * slotsPerSlotset = 256 := rfl
        unfold markL2Bit bitsPerSlot
        dsimp only
        rw [hentries, hb]
        show (if a.l2.size ≤ p / 64 then _ else _) = _
        rw [if_neg (by omega)]
        rfl
      have hbit : ∀ q, WordBits.bit (if b then setBit a.l2.slot p else clearBit a.l2.slot p) q =
          if q = p then b else WordBits.bit a.l2.slot q := by
        intro q
        cases b with
        | true => exact bit_setBit _ _ _
        | false => exact bit_clearBit _ _ _
      obtain ⟨v, hv, hin, hout⟩ := @ih (p + 1) { a with l2 := { a.l2 with
        slot := if b then setBit a.l2.slot p else clearBit a.l2.slot p } }
        (by show (p + 1 + n) * 8 ≤ a.l1.l1.size; omega)
        (by show p + 1 + n ≤ a.l2.size * 64; omega)
      refine ⟨v, ?_, fun q hp hn => ?_, fun q hq => ?_⟩
      · unfold markL2OnL1
        rw [hone]
        exact hv
      · by_cases hq : q = p
        · subst hq
          rw [hout q (by omega), hbit, if_pos rfl, hiff]
          constructor
          · rintro ⟨e, hle, hlt, he⟩
            exact ⟨e, by omega, he⟩
          · rintro ⟨e, hdiv, he⟩
            exact ⟨e, by omega, by omega, he⟩
        · exact hin q (by omega) (by omega)
      · rw [hout q (by omega), hbit, if_neg (by omega)]

/-- L1 over the units taken. -/
theorem finishClaim_spec {geo : Geometry} {l : AllocatorLevel01Loose} {s e : Nat}
    (hunit : l.l0Granularity = geo.unit) (hl0 : l.l0.size = geo.granules * 2048)
    (hl1 : l.l1.size = geo.granules * 8) (he : geo.unit * e ≤ geo.capacity)
    (hin : e ≤ geo.granules * 131072) :
    ∃ l', l.finishClaim s e = .ok (geo.unit * (e - s), l') ∧ l'.l0 = l.l0 ∧
      l'.l0Granularity = l.l0Granularity ∧ l'.l1.size = l.l1.size ∧
      ∀ i, l'.entry i =
        if s < e ∧ s / 512 ≤ i ∧ i < (e + 511) / 512 then summary l.l0.slot i else l.entry i := by
  have hcap := geo.capacity_lt
  have hle : e ≤ 2 ^ 64 - 1024 := hin.trans geo.granules_le
  unfold finishClaim
  split
  · rename_i hlt
    have hfirst : p2align (p2align s 512) 512 / 512 = s / 512 := by
      rw [p2align_of_mod (p2align_mod s 512), p2align, Nat.mul_div_cancel _ (by decide)]
    have hlast : p2roundup (p2roundup e 512) 512 / 512 = (e + 511) / 512 := by
      have hup := p2roundup_512 (show e ≤ 2 ^ 64 - 512 by omega)
      rw [hup, p2roundup_512 (by omega)]
      omega
    have hmark : ∃ l', l.markL1OnL0 (p2align s bitsPerSlotset) (p2roundup e bitsPerSlotset) =
        .ok l' := by
      unfold markL1OnL0
      dsimp only
      unfold bitsPerSlotset slotsPerSlotset L1_ENTRIES_PER_SLOT
      rw [hfirst, hlast, if_neg (by omega)]
      exact ⟨_, rfl⟩
    obtain ⟨l', hmark⟩ := hmark
    obtain ⟨h₀, h₁, h₂, hent⟩ := markL1OnL0_spec hmark
    refine ⟨l', ?_, h₀, h₁, h₂, fun i => ?_⟩
    · rw [hmark]
      show Except.ok (l'.l0Granularity * (e - s) % 2 ^ 64, l') = _
      have hbytes : geo.unit * (e - s) ≤ geo.unit * e := Nat.mul_le_mul_left _ (Nat.sub_le e s)
      rw [h₁, hunit, Nat.mod_eq_of_lt (by omega)]
    · have hi := hent i
      unfold bitsPerSlotset at hi
      rw [hfirst, hlast] at hi
      rw [hi]
      by_cases hr : s / 512 ≤ i ∧ i < (e + 511) / 512
      · rw [if_pos hr, if_pos ⟨hlt, hr⟩]
      · rw [if_neg hr, if_neg fun h => hr h.2]
  · rename_i hlt
    refine ⟨l, ?_, rfl, rfl, rfl, fun i => ?_⟩
    · rw [show e - s = 0 by omega]
      rfl
    · rw [if_neg fun h => hlt h.1]

/-! ## Taking a run of free units -/

/-- The units taken are gone from the count. -/
theorem card_freeUnits_claimed {geo : Geometry} {v v' : Words} {s e : Nat}
    (h : Claimed v v' s e) (he : e ≤ geo.granules * 131072) :
    (freeUnits geo v').card + (e - s) = (freeUnits geo v).card := by
  have hsub : Finset.Ico s e ⊆ freeUnits geo v := by
    intro q hq
    rw [Finset.mem_Ico] at hq
    exact Finset.mem_filter.mpr ⟨Finset.mem_range.mpr (by omega), h.set q hq.1 hq.2⟩
  have hrest : freeUnits geo v' = freeUnits geo v \ Finset.Ico s e := by
    ext q
    unfold freeUnits
    rw [Finset.mem_sdiff, Finset.mem_filter, Finset.mem_filter, Finset.mem_Ico, h.now q]
    by_cases hq : s ≤ q ∧ q < e
    · simp [hq]
    · simp [hq]
  rw [hrest, ← Nat.card_Ico s e]
  exact Finset.card_sdiff_add_card_eq_card hsub

/-- `x` returns the bytes of the units `[s, e)`, which are gone from L0 and from
`available`; the levels agree afterwards. -/
def Takes (geo : Geometry) (a : AllocatorLevel02) (s e : Nat)
    (x : Except Fault (Nat × AllocatorLevel02)) : Prop :=
  ∃ a', x = .ok (geo.unit * (e - s), a') ∧
    (∀ q, a'.l1.bit q = (a.l1.bit q && !decide (s ≤ q ∧ q < e))) ∧
    a'.available + geo.unit * (e - s) = a.available ∧ Coherent geo a'

/-- What both claims do once the run is known. -/
theorem Coherent.take {geo : Geometry} {a : AllocatorLevel02} (h : Coherent geo a) {v : Words}
    {s e : Nat} (hse : s ≤ e) (he : geo.unit * e ≤ geo.capacity)
    (hclaim : Claimed a.l1.l0.slot v s e) :
    ∃ l1, ({ a.l1 with l0 := { a.l1.l0 with slot := v } } : AllocatorLevel01Loose).finishClaim s e =
        .ok (geo.unit * (e - s), l1) ∧ geo.unit * (e - s) ≤ a.available ∧
      ∃ a', markL2OnL1 ((e + 131071) / 131072 - s / 131072) (s / 131072)
          { a with l1 := l1, available := a.available - geo.unit * (e - s) } = .ok a' ∧
        (∀ q, a'.l1.bit q = (a.l1.bit q && !decide (s ≤ q ∧ q < e))) ∧
        a'.available + geo.unit * (e - s) = a.available ∧ Coherent geo a' := by
  have hpos := geo.unit_pos
  have hin : e ≤ geo.granules * 131072 := by
    have hcap := geo.capacity_le
    rw [Nat.mul_comm] at he
    exact Nat.le_of_mul_le_mul_right (he.trans hcap) hpos
  obtain ⟨l1, hfinish, hl0, hgran, hsize, hent⟩ := finishClaim_spec (s := s)
    (l := { a.l1 with l0 := { a.l1.l0 with slot := v } }) h.unit h.l0Size h.l1Size he hin
  have hcard := card_freeUnits_claimed hclaim hin
  have hmul := congrArg (geo.unit * ·) hcard
  simp only [Nat.mul_add, ← h.available] at hmul
  -- the entries all say again what their bits are
  have hentries : ∀ i, i < geo.granules * 256 → l1.entry i = summary v i := by
    intro i hi
    rw [hent i]
    split
    · rfl
    · rename_i hout
      refine (h.entries i hi).trans (summary_congr fun q hq => ?_)
      rw [hclaim.now q, if_neg (by omega)]
  have hout : ∀ i, ¬ (s / 131072 ≤ i / 256 ∧ i / 256 < (e + 131071) / 131072) →
      l1.entry i = a.l1.entry i := by
    intro i hi
    rw [hent i, if_neg (by omega)]
    rfl
  obtain ⟨w, hmark, hl2in, hl2out⟩ := markL2OnL1_spec
    (n := (e + 131071) / 131072 - s / 131072) (p := s / 131072)
    (a := { a with l1 := l1, available := a.available - geo.unit * (e - s) })
    (by have := h.l1Size; rw [← hsize] at this; dsimp only at this ⊢; omega)
    (by have := h.l2Size; dsimp only; omega)
  refine ⟨l1, hfinish, by omega, _, hmark, fun q => ?_, by dsimp only; omega,
    ⟨⟨hgran.trans h.unit, h.l2Granularity, ?_, hsize.trans h.l1Size, h.l2Size⟩,
      fun q hq hb => ?_, fun i hi => ?_, fun p hp => ?_, ?_⟩⟩
  · show WordBits.bit l1.l0.slot q = _
    rw [hl0]
    show WordBits.bit v q = _
    rw [hclaim.now q]
    by_cases hq : s ≤ q ∧ q < e
    · simp [hq]
    · rw [if_neg hq, decide_eq_false hq, Bool.not_false, Bool.and_true]
      rfl
  · show l1.l0.size = _
    rw [hl0]
    exact h.l0Size
  · refine h.inside q hq ?_
    have hb' : WordBits.bit v q = true := by
      rw [← hb]
      show _ = WordBits.bit l1.l0.slot q
      rw [hl0]
    rw [hclaim.now q] at hb'
    split at hb'
    · cases hb'
    · exact hb'
  · show l1.entry i = summary l1.l0.slot i
    rw [hl0]
    exact hentries i hi
  · show WordBits.bit w p = true ↔ ∃ i, i / 256 = p ∧ l1.entry i ≠ L1_ENTRY_FULL
    by_cases hpr : s / 131072 ≤ p ∧ p < (e + 131071) / 131072
    · exact hl2in p hpr.1 (by omega)
    · rw [hl2out p (by omega)]
      refine (h.l2 p hp).trans ⟨?_, ?_⟩
      · rintro ⟨i, hi, hne⟩
        exact ⟨i, hi, by rwa [hout i (by rw [hi]; exact hpr)]⟩
      · rintro ⟨i, hi, hne⟩
        exact ⟨i, hi, by rwa [hout i (by rw [hi]; exact hpr)] at hne⟩
  · show a.available - geo.unit * (e - s) = geo.unit * (freeUnits geo l1.l0.slot).card
    rw [hl0]
    show _ = geo.unit * (freeUnits geo v).card
    omega

/-! ## The two claims -/

/-- The longest run of set bits that ends just before bit `p` has `len` bits. -/
structure RunBefore (f : Nat → Bool) (p len : Nat) : Prop where
  le : len ≤ p
  set : ∀ q, p - len ≤ q → q < p → f q = true
  longest : len = p ∨ f (p - len - 1) = false

/-- The longest run of set bits among the first `n` that starts at bit `p`. -/
structure RunFrom (f : Nat → Bool) (n p len : Nat) : Prop where
  le : p + len ≤ n
  set : ∀ q, p ≤ q → q < p + len → f q = true
  longest : p + len = n ∨ f (p + len) = false

/-- Both claims at `offset` take exactly the free run that touches it. -/
structure ClaimsNeighbours (geo : Geometry) (a : AllocatorLevel02) (offset : Nat) : Prop where
  left : ∃ len, RunBefore a.l1.bit (offset / geo.unit) len ∧
    Takes geo a (offset / geo.unit - len) (offset / geo.unit) (a.claimFreeToLeft offset)
  right : ∃ len, RunFrom a.l1.bit (a.l1.l0.size * 64) (offset / geo.unit) len ∧
    Takes geo a (offset / geo.unit) (offset / geo.unit + len) (a.claimFreeToRight offset)

section Claims

variable {geo : Geometry} {a : AllocatorLevel02} {p : Nat}

/-- A unit of the device is a bit of L0. -/
theorem Coherent.unit_le (h : Coherent geo a) (hp : geo.unit * p ≤ geo.capacity) :
    p ≤ a.l1.l0.size * 64 := by
  have hcap := geo.capacity_le
  rw [Nat.mul_comm] at hp
  have hle := Nat.le_of_mul_le_mul_right (hp.trans hcap) geo.unit_pos
  rw [h.l0Size]
  omega

theorem Coherent.takesLeft (h : Coherent geo a) (hp : geo.unit * p ≤ geo.capacity)
    (hpos : 0 < p) : ∃ len, RunBefore a.l1.bit p len ∧
      Takes geo a (p - len) p (a.claimFreeToLeft (geo.unit * p)) := by
  have hunit := geo.unit_pos
  have hcap := geo.capacity_lt
  obtain ⟨e, v, hl0, hle, hclaim, hend⟩ := claimFreeToLeftL0_spec (a := a.l1) hpos (h.unit_le hp)
  obtain ⟨l1, hfinish, havail, a', hmark, hbits, hcount, hcoh⟩ := h.take hle hp hclaim
  have hlen : p - (p - e) = e := by omega
  refine ⟨p - e, ⟨by omega, fun q hq hlt => ?_, ?_⟩, a', ?_, ?_, ?_, hcoh⟩
  · rw [hlen] at hq
    exact hclaim.set q hq hlt
  · rw [hlen]
    rcases hend with hzero | hclear
    · exact Or.inl (by omega)
    · exact Or.inr hclear
  · -- the bytes before the run, at an L2 position
    have hstart : sub64 (geo.unit * p) (geo.unit * (p - e)) = geo.unit * e := by
      have hmul : geo.unit * (p - e) + geo.unit * e = geo.unit * p := by
        rw [← Nat.mul_add]
        congr 1
        omega
      rw [sub64_of_le (by omega) (by omega)]
      omega
    have hfirst : sub64 (geo.unit * p) (geo.unit * (p - e)) / a.l2Granularity = e / 131072 := by
      rw [hstart, h.l2Granularity, Nat.mul_div_mul_left e 131072 hunit]
    have hlast : p2roundup (geo.unit * p) a.l2Granularity / a.l2Granularity =
        (p + 131071) / 131072 := by
      rw [h.l2Granularity, geo.roundup_units hp]
    unfold claimFreeToLeft claimFreeToLeftL1
    dsimp only
    rw [h.unit, Nat.mul_div_cancel_left _ hunit, hl0]
    show (AllocatorLevel01Loose.finishClaim _ e p >>= _) = _
    rw [hfinish]
    show (if a.available ≥ geo.unit * (p - e) then _ else _) = _
    rw [if_pos havail]
    dsimp only
    rw [hfirst, hlast, hmark, hlen]
    rfl
  · rw [hlen]
    exact hbits
  · rw [hlen]
    exact hcount

theorem Coherent.takesRight (h : Coherent geo a) (hp : geo.unit * p ≤ geo.capacity) :
    ∃ len, RunFrom a.l1.bit (a.l1.l0.size * 64) p len ∧
      Takes geo a p (p + len) (a.claimFreeToRight (geo.unit * p)) := by
  have hunit := geo.unit_pos
  have hcap := geo.capacity_lt
  obtain ⟨e, v, hl0, hle, hsize, hclaim, hend⟩ :=
    claimFreeToRightL0_spec (a := a.l1) (h.unit_le hp)
  have hin : geo.unit * e ≤ geo.capacity := by
    rcases Nat.lt_or_ge p e with hlt | hge
    · -- the last unit of the run is one of the device
      have hlast := h.inside (e - 1) (by rw [h.l0Size] at hsize; omega)
        (hclaim.set (e - 1) (by omega) (by omega))
      rwa [Nat.sub_add_cancel (by omega), Nat.mul_comm] at hlast
    · rwa [show e = p by omega]
  obtain ⟨l1, hfinish, havail, a', hmark, hbits, hcount, hcoh⟩ := h.take hle hin hclaim
  have hlen : p + (e - p) = e := by omega
  refine ⟨e - p, ⟨by omega, fun q hq hlt => ?_, ?_⟩, a', ?_, ?_, ?_, hcoh⟩
  · rw [hlen] at hlt
    exact hclaim.set q hq hlt
  · rw [hlen]
    exact hend
  · have hstop : add64 (geo.unit * p) (geo.unit * (e - p)) = geo.unit * e := by
      have hmul : geo.unit * p + geo.unit * (e - p) = geo.unit * e := by
        rw [← Nat.mul_add, hlen]
      rw [add64_of_lt (by omega), hmul]
    have hfirst : geo.unit * p / a.l2Granularity = p / 131072 := by
      rw [h.l2Granularity, Nat.mul_div_mul_left p 131072 hunit]
    have hlast : p2roundup (add64 (geo.unit * p) (geo.unit * (e - p))) a.l2Granularity /
        a.l2Granularity = (e + 131071) / 131072 := by
      rw [hstop, h.l2Granularity, geo.roundup_units hin]
    unfold claimFreeToRight claimFreeToRightL1
    dsimp only
    rw [h.unit, Nat.mul_div_cancel_left _ hunit, hl0]
    dsimp only
    rw [hfinish]
    show (if a.available ≥ geo.unit * (e - p) then _ else _) = _
    rw [if_pos havail]
    dsimp only
    rw [hfirst, hlast, hmark, hlen]
    rfl
  · rw [hlen]
    exact hbits
  · rw [hlen]
    exact hcount

/-- At offset 0 there is no bit on the left to start from. -/
theorem claimFreeToLeft_zero (a : AllocatorLevel02) : a.claimFreeToLeft 0 = .error .badShift := by
  unfold claimFreeToLeft claimFreeToLeftL1
  rw [Nat.zero_div]
  rfl

/-- Everywhere but at offset 0 the claims take the runs on both sides. -/
theorem claimsNeighbours_iff {offset : Nat} (h : Coherent geo a) (hal : offset % geo.unit = 0)
    (hcap : offset ≤ geo.capacity) : ClaimsNeighbours geo a offset ↔ offset ≠ 0 := by
  obtain ⟨p, rfl⟩ := Nat.dvd_of_mod_eq_zero hal
  have hdiv : geo.unit * p / geo.unit = p := Nat.mul_div_cancel_left p geo.unit_pos
  constructor
  · rintro ⟨⟨len, -, a', htake, -⟩, -⟩ hzero
    rw [hzero, claimFreeToLeft_zero] at htake
    cases htake
  · intro hne
    have hpos : 0 < p := Nat.pos_of_ne_zero fun hz => hne (by rw [hz, Nat.mul_zero])
    refine ⟨?_, ?_⟩
    · rw [hdiv]
      exact h.takesLeft hcap hpos
    · rw [hdiv]
      exact h.takesRight hcap

end Claims

/-- One granule of units of one byte, all free. -/
def oneGranule : AllocatorLevel02 where
  l1 := { l0 := ⟨2048, fun _ => allSlotSet⟩, l1 := ⟨8, fun _ => allSlotSet⟩, l0Granularity := 1 }
  l2Granularity := 131072
  available := 131072
  l2 := ⟨1, fun _ => allSlotSet⟩

def oneGranuleGeometry : Geometry := ⟨131072, 0, by decide, by decide⟩

theorem oneGranule_coherent : Coherent oneGranuleGeometry oneGranule := by
  have hgranules : oneGranuleGeometry.granules = 1 := by decide
  have hbit : ∀ q, WordBits.bit (fun _ => allSlotSet) q = true := by
    intro q
    exact slot_eq_set_iff.mp rfl _ (Nat.mod_lt q (by decide))
  have hentry : ∀ e, oneGranule.l1.entry e = L1_ENTRY_FREE := by
    intro e
    have hoff : e % 32 < 32 := Nat.mod_lt e (by decide)
    show field allSlotSet (e % 32) = 3
    generalize e % 32 = off at hoff
    revert off
    decide
  refine ⟨⟨rfl, rfl, by rw [hgranules]; rfl, by rw [hgranules]; rfl, by rw [hgranules]; decide⟩,
    fun q hq _ => ?_, fun e _ => ?_, fun p _ => ?_, ?_⟩
  · rw [hgranules] at hq
    show (q + 1) * 1 ≤ 131072
    omega
  · rw [hentry]
    rcases summary_cases oneGranule.l1.l0.slot e with ⟨-, h⟩ | ⟨h, -⟩ | ⟨-, -, q, -, h⟩
    · exact absurd ((hbit _).symm.trans (h (e * 512) (by omega))) (by decide)
    · exact h.symm
    · exact absurd ((hbit q).symm.trans h) (by decide)
  · constructor
    · intro _
      exact ⟨p * 256, by omega, by rw [hentry]; decide⟩
    · intro _
      exact hbit p
  · have hall : freeUnits oneGranuleGeometry oneGranule.l1.l0.slot = Finset.range 131072 := by
      unfold freeUnits
      rw [hgranules]
      exact Finset.filter_true_of_mem fun q _ => hbit q
    rw [hall, Finset.card_range]
    rfl

theorem claimsNeighbours_iff_oneGranule :
    ClaimsNeighbours oneGranuleGeometry oneGranule 512 ↔ 512 ≠ 0 :=
  claimsNeighbours_iff oneGranule_coherent (by decide) (by decide)

theorem oneGranule_not_claimsNeighbours :
    Coherent oneGranuleGeometry oneGranule ∧ ¬ ClaimsNeighbours oneGranuleGeometry oneGranule 0 := by
  refine ⟨oneGranule_coherent, ?_⟩
  rintro ⟨⟨len, -, a', htake, -⟩, -⟩
  rw [claimFreeToLeft_zero] at htake
  cases htake

end AllocatorLevel02

end Clab.Blk
