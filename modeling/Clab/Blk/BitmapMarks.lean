import Clab.Blk.BitmapBounds

/-!
# Marking by words and by bits

The passes over L0 go slot by slot where they can, and the pass over L1 adjusts
two counters by case. Neither shows: a range is marked or tested bit by bit,
whatever its alignment, and the counters follow the classes of the entries.
-/

namespace Clab.Blk

open Clab.Common Clab.WordBits

namespace AllocatorLevel01Loose

variable {a : AllocatorLevel01Loose} {s e : Nat}

/-- The vectors of one device: eight L0 slots for each L1 entry, and positions
that are 64-bit integers. -/
structure Paired (a : AllocatorLevel01Loose) : Prop where
  l0Size : a.l0.size = a.l1.size * 256
  positions : a.l0.size * 64 < 2 ^ 64

/-- Every state of a device has such vectors. -/
theorem Paired.of_fitted {geo : Geometry} {a : AllocatorLevel02}
    (h : AllocatorLevel02.Fitted geo a) : Paired a.l1 := by
  have hle := geo.granules_le
  have hl0 := h.l0Size
  have hl1 := h.l1Size
  constructor
  · rw [hl0, hl1, Nat.mul_assoc]
  · rw [hl0]
    generalize geo.granules = n at hle
    omega

theorem Paired.congr {a' : AllocatorLevel01Loose} (h : Paired a) (hsame : SameL1 a a') :
    Paired a' := by
  constructor
  · rw [hsame.l0Size, hsame.l1]
    exact h.l0Size
  · rw [hsame.l0Size]
    exact h.positions

/-! ## Testing a range -/

theorem and_one_shiftLeft_eq_zero {w : Slot} {i : Nat} (hi : i < 64) :
    w &&& (1#64 <<< i) = 0 ↔ w.getLsbD i = false := by
  refine (slot_eq_clear_iff (w := w &&& (1#64 <<< i))).trans ?_
  constructor
  · intro h
    have hbit := h i hi
    rw [BitVec.getLsbD_and, getLsbD_one_shiftLeft hi] at hbit
    simpa using hbit
  · intro h j _
    rw [BitVec.getLsbD_and, getLsbD_one_shiftLeft hi]
    by_cases hj : j = i
    · rw [hj, h]
      rfl
    · simp [hj]

/-- The bits of a range are clear when those up to `m` and those from `m` on are. -/
theorem clear_split {f : Nat → Bool} {p m stop : Nat} (hm : p ≤ m)
    (h : ∀ q, p ≤ q → q < m → f q = false) :
    (∀ q, m ≤ q → q < stop → f q = false) ↔ ∀ q, p ≤ q → q < stop → f q = false := by
  constructor
  · intro hrest q hp hq
    by_cases hqm : q < m
    · exact h q hp hqm
    · exact hrest q (by omega) hq
  · intro hall q hq
    exact hall q (hm.trans hq)

theorem isEmptyL0Loop_spec (he : e ≤ a.l0.size * 64) (n p : Nat) (hn : e - p ≤ n) :
    ∃ b, a.isEmptyL0Loop e n p = .ok b ∧
      (b = true ↔ ∀ q, p ≤ q → q < e → a.bit q = false) := by
  induction n generalizing p with
  | zero =>
      refine ⟨true, rfl, ?_⟩
      simp only [true_iff]
      intro q hp hq
      omega
  | succ n ih =>
      unfold isEmptyL0Loop
      split
      · rename_i hp
        rw [if_neg (by unfold bitsPerSlot; omega)]
        split
        · -- a whole slot
          rename_i hword
          unfold bitsPerSlot at hword ⊢
          split
          · rename_i hne
            refine ⟨false, rfl, ?_⟩
            simp only [Bool.false_eq_true, false_iff]
            intro hall
            refine hne (slot_eq_clear_iff.mpr fun i hi => ?_)
            have hbit := hall (p + i) (by omega) (by omega)
            unfold bit WordBits.bit at hbit
            rwa [show (p + i) / 64 = p / 64 by omega, show (p + i) % 64 = i by omega] at hbit
          · rename_i hzero
            obtain ⟨b, hrun, hb⟩ := ih (p + 64) (by omega)
            refine ⟨b, hrun, hb.trans (clear_split (by omega) fun q hpq hq => ?_)⟩
            have hslot : a.l0.slot (p / 64) = allSlotClear := not_not.mp hzero
            unfold bit WordBits.bit
            rw [show q / 64 = p / 64 by omega, hslot]
            simp [allSlotClear]
        · -- one bit
          unfold bitsPerSlot
          split
          · rename_i hne
            refine ⟨false, rfl, ?_⟩
            simp only [Bool.false_eq_true, false_iff]
            intro hall
            exact hne ((and_one_shiftLeft_eq_zero (Nat.mod_lt p (by decide))).mpr
              (hall p (Nat.le_refl p) hp))
          · rename_i hzero
            obtain ⟨b, hrun, hb⟩ := ih (p + 1) (by omega)
            refine ⟨b, hrun, hb.trans (clear_split (by omega) fun q hpq hq => ?_)⟩
            obtain rfl : q = p := by omega
            exact (and_one_shiftLeft_eq_zero (Nat.mod_lt q (by decide))).mp (not_not.mp hzero)
      · rename_i hp
        refine ⟨true, rfl, ?_⟩
        simp only [true_iff]
        intro q hpq hq
        omega

/-! ## The counters of the classes -/

/-- How many of the entries `es` are `x` in `a'` and were not in `a`. -/
def entered (a a' : AllocatorLevel01Loose) (x : Slot) (es : List Nat) : Nat :=
  es.countP fun i => a.entry i ≠ x ∧ a'.entry i = x

/-- A counter of the entries that are `x`, when one entry changes. -/
theorem counter_modEq {old nxt : Slot} (hne : old ≠ nxt) (x : Slot) (c : Nat) :
    (if nxt = x then add64 (if old = x then sub64 c 1 else c) 1
        else if old = x then sub64 c 1 else c) +
        (if nxt ≠ x ∧ old = x then 1 else 0) ≡
      c + (if old ≠ x ∧ nxt = x then 1 else 0) [MOD 2 ^ 64] := by
  unfold Nat.ModEq add64 sub64
  by_cases hnxt : nxt = x
  · have hold : old ≠ x := by
      rintro rfl
      exact hne hnxt.symm
    simp only [hnxt, hold, if_true, if_false, ne_eq, not_true_eq_false, not_false_eq_true,
      false_and, true_and]
    omega
  · by_cases hold : old = x
    · simp only [hnxt, hold, if_true, if_false, ne_eq, not_true_eq_false, not_false_eq_true,
        false_and, true_and]
      omega
    · simp [hnxt, hold]

/-- The two counters when entry `e` is recomputed. -/
theorem counts_markEntry (a : AllocatorLevel01Loose) (e : Nat) :
    (a.markEntry e).partialL1Count + entered (a.markEntry e) a L1_ENTRY_PARTIAL [e] ≡
        a.partialL1Count + entered a (a.markEntry e) L1_ENTRY_PARTIAL [e] [MOD 2 ^ 64] ∧
      (a.markEntry e).unallocL1Count + entered (a.markEntry e) a L1_ENTRY_FREE [e] ≡
        a.unallocL1Count + entered a (a.markEntry e) L1_ENTRY_FREE [e] [MOD 2 ^ 64] := by
  have hentry : (a.markEntry e).entry e = summary a.l0.slot e := by
    rw [entry_markEntry, if_pos rfl]
  simp only [entered, List.countP_cons, List.countP_nil, Nat.zero_add, hentry, decide_eq_true_eq]
  unfold markEntry
  dsimp only
  split
  · rename_i hold
    rw [hold]
    exact ⟨Nat.ModEq.rfl, Nat.ModEq.rfl⟩
  · rename_i hne
    -- the tests of the two classes exclude each other
    have hfree : ∀ x : Slot, (x ≠ L1_ENTRY_PARTIAL ∧ x = L1_ENTRY_FREE) = (x = L1_ENTRY_FREE) := by
      intro x
      refine propext ⟨And.right, fun h => ⟨?_, h⟩⟩
      rw [h]
      decide
    simp only [hfree]
    exact ⟨counter_modEq hne L1_ENTRY_PARTIAL _, counter_modEq hne L1_ENTRY_FREE _⟩

theorem entered_congr {a a' b b' : AllocatorLevel01Loose} {es : List Nat} (x : Slot)
    (h : ∀ i ∈ es, a.entry i = b.entry i) (h' : ∀ i ∈ es, a'.entry i = b'.entry i) :
    entered a a' x es = entered b b' x es := by
  refine List.countP_congr fun i hi => ?_
  rw [h i hi, h' i hi]

theorem entered_cons (a a' : AllocatorLevel01Loose) (x : Slot) (i : Nat) (es : List Nat) :
    entered a a' x (i :: es) = entered a a' x es + entered a a' x [i] := by
  simp only [entered, List.countP_cons, List.countP_nil, Nat.zero_add]

/-- A counter over a step and the steps after it. -/
theorem modEq_step {c c₁ c' l l₁ g g₁ m : Nat} (hstep : c₁ + l ≡ c + g [MOD m])
    (hrest : c' + l₁ ≡ c₁ + g₁ [MOD m]) : c' + (l₁ + l) ≡ c + (g₁ + g) [MOD m] :=
  calc c' + (l₁ + l) = c' + l₁ + l := (Nat.add_assoc _ _ _).symm
    _ ≡ c₁ + g₁ + l [MOD m] := hrest.add_right l
    _ = c₁ + l + g₁ := Nat.add_right_comm _ _ _
    _ ≡ c + g + g₁ [MOD m] := hstep.add_right g₁
    _ = c + (g₁ + g) := by rw [Nat.add_assoc, Nat.add_comm g]

/-- The two counters over a pass. -/
theorem counts_markEntries (n e : Nat) (a : AllocatorLevel01Loose) :
    (markEntries n e a).partialL1Count +
          entered (markEntries n e a) a L1_ENTRY_PARTIAL (List.range' e n) ≡
        a.partialL1Count + entered a (markEntries n e a) L1_ENTRY_PARTIAL (List.range' e n)
          [MOD 2 ^ 64] ∧
      (markEntries n e a).unallocL1Count +
          entered (markEntries n e a) a L1_ENTRY_FREE (List.range' e n) ≡
        a.unallocL1Count + entered a (markEntries n e a) L1_ENTRY_FREE (List.range' e n)
          [MOD 2 ^ 64] := by
  induction n generalizing e a with
  | zero => exact ⟨Nat.ModEq.rfl, Nat.ModEq.rfl⟩
  | succ n ih =>
      obtain ⟨hpart, hfree⟩ := ih (e + 1) (a.markEntry e)
      obtain ⟨hpart₁, hfree₁⟩ := counts_markEntry a e
      show (markEntries n (e + 1) (a.markEntry e)).partialL1Count +
          entered (markEntries n (e + 1) (a.markEntry e)) a _ _ ≡ _ [MOD 2 ^ 64] ∧
        (markEntries n (e + 1) (a.markEntry e)).unallocL1Count +
          entered (markEntries n (e + 1) (a.markEntry e)) a _ _ ≡ _ [MOD 2 ^ 64]
      simp only [markEntries]
      generalize hfin : markEntries n (e + 1) (a.markEntry e) = fin at hpart hfree ⊢
      -- entry `e` is final after its round, the entries behind it are as before
      have hhead : ∀ i ∈ [e], fin.entry i = (a.markEntry e).entry i := by
        intro i hi
        rw [← hfin, entry_markEntries, if_neg (by rw [List.mem_singleton] at hi; omega)]
      have hrest : ∀ i ∈ List.range' (e + 1) n, (a.markEntry e).entry i = a.entry i := by
        intro i hi
        rw [entry_markEntry, if_neg (by rw [List.mem_range'_1] at hi; omega)]
      have hin : ∀ x, entered a fin x (List.range' e (n + 1)) =
          entered (a.markEntry e) fin x (List.range' (e + 1) n) +
            entered a (a.markEntry e) x [e] := by
        intro x
        rw [List.range'_succ, entered_cons, entered_congr x (fun _ _ => rfl) hhead,
          entered_congr x hrest (fun _ _ => rfl)]
      have hout : ∀ x, entered fin a x (List.range' e (n + 1)) =
          entered fin (a.markEntry e) x (List.range' (e + 1) n) +
            entered (a.markEntry e) a x [e] := by
        intro x
        rw [List.range'_succ, entered_cons, entered_congr x hhead (fun _ _ => rfl),
          entered_congr x (fun _ _ => rfl) hrest]
      rw [hin, hin, hout, hout]
      exact ⟨modEq_step hpart₁ hpart, modEq_step hfree₁ hfree⟩

/-! ## The passes over a range of the device -/

/-- The L1 value `x` says of the 512 bits of entry `e` what it should. -/
def Summarises (a : AllocatorLevel01Loose) (e : Nat) (x : Slot) : Prop :=
  (x = L1_ENTRY_FULL ∧ ∀ q, q / 512 = e → a.bit q = false) ∨
  (x = L1_ENTRY_FREE ∧ ∀ q, q / 512 = e → a.bit q = true) ∨
  (x = L1_ENTRY_PARTIAL ∧ (∃ q, q / 512 = e ∧ a.bit q = true) ∧
    ∃ q, q / 512 = e ∧ a.bit q = false)

theorem markAllocL0_eq (he : e ≤ a.l0.size * 64) : ∃ a', a.markAllocL0 s e = .ok a' := by
  unfold markAllocL0 onL0 bitsPerSlot
  rw [if_neg (by omega)]
  exact ⟨_, rfl⟩

theorem markFreeL0_eq (he : e ≤ a.l0.size * 64) : ∃ a', a.markFreeL0 s e = .ok a' := by
  unfold markFreeL0 onL0 bitsPerSlot
  rw [if_neg (by omega)]
  exact ⟨_, rfl⟩

/-- The entries `_mark_l1_on_l0` covers. -/
def covered (s e : Nat) : List Nat := List.range' (s / 512) ((e + 511) / 512 - s / 512)

theorem mem_covered {i : Nat} : i ∈ covered s e ↔ s / 512 ≤ i ∧ i < (e + 511) / 512 := by
  unfold covered
  rw [List.mem_range'_1]
  omega

/-- Inside the device the rounding does not wrap, and the pass stays inside both vectors. -/
theorem markL1OnL0_eq (h : Paired a) (he : e ≤ a.l0.size * 64) :
    a.markL1OnL0 s e = .ok (markEntries ((e + 511) / 512 - s / 512) (s / 512) a) := by
  have hl0 := h.l0Size
  have hpos := h.positions
  have hfirst : p2align s bitsPerSlotset / bitsPerSlotset = s / 512 :=
    Nat.mul_div_cancel _ (by decide)
  have hlast : p2roundup e bitsPerSlotset / bitsPerSlotset = (e + 511) / 512 := by
    unfold p2roundup bitsPerSlotset
    omega
  unfold markL1OnL0
  rw [hfirst, hlast, if_neg]
  unfold slotsPerSlotset L1_ENTRIES_PER_SLOT
  omega

end AllocatorLevel01Loose

open AllocatorLevel01Loose

/-- Marking by words is marking by bits: over any range of the device the two
passes of L0 change exactly the bits of the range, the test sees exactly those
bits, and the pass over L1 gives each covered entry the summary of its bits and
moves both counters by the entries that entered and left each class. -/
theorem marks_bitwise {a : AllocatorLevel01Loose} (h : Paired a) {s e : Nat}
    (he : e ≤ a.l0.size * 64) :
    (∃ a', a.markAllocL0 s e = .ok a' ∧ SameL1 a a' ∧ Paired a' ∧
      ∀ q, a'.bit q = if s ≤ q ∧ q < e then false else a.bit q) ∧
    (∃ a', a.markFreeL0 s e = .ok a' ∧ SameL1 a a' ∧ Paired a' ∧
      ∀ q, a'.bit q = if s ≤ q ∧ q < e then true else a.bit q) ∧
    (∃ b, a.isEmptyL0 s e = .ok b ∧ (b = true ↔ ∀ q, s ≤ q → q < e → a.bit q = false)) ∧
    ∃ a', a.markL1OnL0 s e = .ok a' ∧ a'.l0 = a.l0 ∧
      (∀ i ∈ covered s e, Summarises a i (a'.entry i)) ∧
      (∀ i, i ∉ covered s e → a'.entry i = a.entry i) ∧
      a'.partialL1Count + entered a' a L1_ENTRY_PARTIAL (covered s e) ≡
        a.partialL1Count + entered a a' L1_ENTRY_PARTIAL (covered s e) [MOD 2 ^ 64] ∧
      a'.unallocL1Count + entered a' a L1_ENTRY_FREE (covered s e) ≡
        a.unallocL1Count + entered a a' L1_ENTRY_FREE (covered s e) [MOD 2 ^ 64] := by
  refine ⟨?_, ?_, isEmptyL0Loop_spec he _ _ (Nat.le_refl _), ?_⟩
  · obtain ⟨a', hmark⟩ := markAllocL0_eq he
    obtain ⟨hsame, -, hbit⟩ := markAllocL0_spec hmark
    exact ⟨a', hmark, hsame, h.congr hsame, hbit⟩
  · obtain ⟨a', hmark⟩ := markFreeL0_eq he
    obtain ⟨hsame, -, hbit⟩ := markFreeL0_spec hmark
    exact ⟨a', hmark, hsame, h.congr hsame, hbit⟩
  · obtain ⟨hpart, hfree⟩ := counts_markEntries ((e + 511) / 512 - s / 512) (s / 512) a
    refine ⟨_, markL1OnL0_eq h he, (l0_markEntries _ _ a).1, fun i hi => ?_, fun i hi => ?_,
      hpart, hfree⟩
    · rw [mem_covered] at hi
      rw [entry_markEntries, if_pos (by omega)]
      exact summary_cases a.l0.slot i
    · rw [mem_covered] at hi
      rw [entry_markEntries, if_neg (by omega)]

/-- One L2 position of a device with nothing free. -/
def fullSlotset : AllocatorLevel01Loose where
  l0 := { size := 256 }
  l1 := { size := 1 }
  l0Granularity := 4096
  l1Granularity := 4096 * 512

/-- Freeing units 3 to 129 takes part of two slots and one whole one. -/
theorem marks_bitwise_fullSlotset :
    ∃ a', fullSlotset.markFreeL0 3 130 = .ok a' ∧ a'.bit 64 = true ∧ a'.bit 130 = false := by
  obtain ⟨-, ⟨a', hmark, -, -, hbit⟩, -⟩ :=
    marks_bitwise (a := fullSlotset) (s := 3) (e := 130) ⟨rfl, by decide⟩ (by decide)
  refine ⟨a', hmark, hbit 64, ?_⟩
  rw [hbit 130]
  decide

end Clab.Blk
