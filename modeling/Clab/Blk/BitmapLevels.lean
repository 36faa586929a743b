import Clab.Blk.BitmapAllocator
import Mathlib

/-!
# What the bitmap passes compute

One specification lemma for each marking pass of L0 and L1: the bits a pass
sets or clears, the entries it recomputes, and the parts of the state it
leaves alone. Later modules never unfold a pass.
-/

namespace Clab.Blk

open Clab.Common Clab.WordBits

/-- Take a bind of calls that may fault apart. -/
theorem bind_eq_ok {ε α β : Type} {x : Except ε α} {f : α → Except ε β} {b : β}
    (h : x >>= f = .ok b) : ∃ a, x = .ok a ∧ f a = .ok b := by
  cases x with
  | error e => cases h
  | ok a => exact ⟨a, rfl, h⟩

/-! ## Searching a slot -/

theorem slot_eq_clear_iff {w : Slot} :
    w = allSlotClear ↔ ∀ i, i < 64 → w.getLsbD i = false := by
  constructor
  · rintro rfl i _
    simp [allSlotClear]
  · intro h
    refine BitVec.eq_of_getLsbD_eq fun i hi => ?_
    rw [h i hi]
    simp [allSlotClear]

theorem slot_eq_set_iff {w : Slot} :
    w = allSlotSet ↔ ∀ i, i < 64 → w.getLsbD i = true := by
  constructor
  · rintro rfl i hi
    unfold allSlotSet
    rw [BitVec.getLsbD_allOnes, decide_eq_true hi]
  · intro h
    refine BitVec.eq_of_getLsbD_eq fun i hi => ?_
    unfold allSlotSet
    rw [h i hi, BitVec.getLsbD_allOnes, decide_eq_true hi]

theorem ctz_spec {m : Slot} (hm : m ≠ 0) : ctz m < 64 ∧ m.getLsbD (ctz m) = true ∧
    ∀ i, i < ctz m → m.getLsbD i = false := by
  unfold ctz
  cases hf : (List.range 64).find? fun i => m.getLsbD i with
  | none =>
      have hzero : m = allSlotClear := by
        refine slot_eq_clear_iff.mpr fun i hi => ?_
        have := List.find?_eq_none.mp hf i (List.mem_range.mpr hi)
        simpa using this
      exact absurd hzero hm
  | some i =>
      have hmem := List.mem_range.mp (List.mem_of_find?_eq_some hf)
      have hbit := List.find?_some hf
      refine ⟨hmem, hbit, fun j hj => ?_⟩
      have hmin := (List.find?_range_eq_some.mp hf).2.2 j hj
      simpa using hmin

/-- `find_next_set_bit` finds the first set bit from `start` on. -/
theorem findNextSetBit_some {w : Slot} {start b : Nat} (h : findNextSetBit w start = some b) :
    start ≤ b ∧ b < 64 ∧ w.getLsbD b = true ∧ ∀ i, start ≤ i → i < b → w.getLsbD i = false := by
  unfold findNextSetBit at h
  split at h
  · cases h
  · dsimp only at h
    split at h
    · cases h
    · rename_i hstart hm
      obtain ⟨-, hbit, hmin⟩ := ctz_spec hm
      cases h
      rw [BitVec.getLsbD_ushiftRight, Nat.add_comm] at hbit
      have hlt : ctz (w >>> start) + start < 64 := by
        by_contra hge
        rw [BitVec.getLsbD_of_ge _ _ (by omega)] at hbit
        cases hbit
      refine ⟨by omega, hlt, hbit, fun i hs hi => ?_⟩
      have := hmin (i - start) (by omega)
      rwa [BitVec.getLsbD_ushiftRight, Nat.add_sub_cancel' hs] at this

theorem findNextSetBit_none {w : Slot} {start : Nat} (h : findNextSetBit w start = none) :
    ∀ i, start ≤ i → w.getLsbD i = false := by
  intro i hi
  unfold findNextSetBit at h
  split at h
  · exact BitVec.getLsbD_of_ge _ _ (by unfold bitsPerSlot at *; omega)
  · dsimp only at h
    split at h
    · rename_i hm
      have hz : (w >>> start).getLsbD (i - start) = false := by
        rw [hm]
        simp
      rwa [BitVec.getLsbD_ushiftRight, Nat.add_sub_cancel' hi] at hz
    · cases h

/-- The test of the run loop: is bit `i` itself set? -/
theorem findNextSetBit_eq_self_iff {w : Slot} {i : Nat} :
    findNextSetBit w i = some i ↔ w.getLsbD i = true := by
  constructor
  · intro h
    exact (findNextSetBit_some h).2.2.1
  · intro hbit
    cases h : findNextSetBit w i with
    | none =>
        rw [findNextSetBit_none h i (Nat.le_refl i)] at hbit
        cases hbit
    | some b =>
        obtain ⟨hle, -, -, hmin⟩ := findNextSetBit_some h
        rcases Nat.lt_or_ge i b with hlt | hge
        · rw [hmin i (Nat.le_refl i) hlt] at hbit
          cases hbit
        · rw [Nat.le_antisymm hge hle]

namespace AllocatorLevel01Loose

/-! ## Marking L0 -/

section Loops

variable {one : Words → Nat → Words} {word : Slot} {b : Bool}

theorem bit_bitLoop (hone : ∀ v p q, WordBits.bit (one v p) q = if q = p then b else WordBits.bit v q)
    (n p : Nat) (v : Words) (q : Nat) :
    WordBits.bit (bitLoop one n p v) q = if p ≤ q ∧ q < p + n then b else WordBits.bit v q := by
  induction n generalizing p v with
  | zero => rw [if_neg (by omega)]; rfl
  | succ n ih =>
      show WordBits.bit (bitLoop one n (p + 1) (one v p)) q = _
      rw [ih, hone]
      by_cases hq : q = p
      · rw [if_neg (by omega), if_pos hq, if_pos (by omega)]
      · by_cases hr : p + 1 ≤ q ∧ q < p + 1 + n
        · rw [if_pos hr, if_pos (by omega)]
        · rw [if_neg hr, if_neg hq, if_neg (by omega)]

theorem bit_slotLoop (hword : ∀ i, i < 64 → word.getLsbD i = b) (n : Nat) {p : Nat}
    (hp : p % 64 = 0) (v : Words) (q : Nat) :
    WordBits.bit (slotLoop word n p v) q =
      if p ≤ q ∧ q < p + n * 64 then b else WordBits.bit v q := by
  induction n generalizing p v with
  | zero => rw [if_neg (by omega)]; rfl
  | succ n ih =>
      show WordBits.bit (slotLoop word n (p + 64) (Function.update v (p / 64) word)) q = _
      rw [ih (by omega), bit_update]
      by_cases hq : q / 64 = p / 64
      · rw [if_neg (by omega), if_pos hq, if_pos (by omega)]
        exact hword _ (Nat.mod_lt q (by decide))
      · by_cases hr : p + 64 ≤ q ∧ q < p + 64 + n * 64
        · rw [if_pos hr, if_pos (by omega)]
        · rw [if_neg hr, if_neg hq, if_neg (by omega)]

/-- The three loops together change exactly the bits of the range. -/
theorem bit_markLoops
    (hone : ∀ v p q, WordBits.bit (one v p) q = if q = p then b else WordBits.bit v q)
    (hword : ∀ i, i < 64 → word.getLsbD i = b) (s e : Nat) (v : Words) (q : Nat) :
    WordBits.bit (markLoops one word s e v) q =
      if s ≤ q ∧ q < e then b else WordBits.bit v q := by
  unfold markLoops
  dsimp only
  generalize hhead : (if s % bitsPerSlot = 0 then 0
    else min (e - s) (bitsPerSlot - s % bitsPerSlot)) = head
  unfold bitsPerSlot at hhead ⊢
  rw [bit_bitLoop hone]
  -- the slot loop starts at a slot boundary, or does nothing
  have hslots : ∀ q, WordBits.bit (slotLoop word ((e - (s + head)) / 64) (s + head)
      (bitLoop one head s v)) q =
        if s + head ≤ q ∧ q < s + head + (e - (s + head)) / 64 * 64 then b
        else WordBits.bit (bitLoop one head s v) q := by
    intro q
    by_cases hal : (s + head) % 64 = 0
    · exact bit_slotLoop hword _ hal _ q
    · have hz : (e - (s + head)) / 64 = 0 := by
        split at hhead <;> omega
      rw [hz, if_neg (by omega)]
      rfl
  rw [hslots, bit_bitLoop hone]
  have hdiv : (e - (s + head)) / 64 * 64 ≤ e - (s + head) := Nat.div_mul_le_self _ _
  generalize (e - (s + head)) / 64 * 64 = m at hdiv ⊢
  have hle : head ≤ e - s := by split at hhead <;> omega
  by_cases hr : s ≤ q ∧ q < e
  · rw [if_pos hr]
    by_cases h₁ : s + head + m ≤ q ∧ q < s + head + m + (e - (s + head + m))
    · rw [if_pos h₁]
    · rw [if_neg h₁]
      by_cases h₂ : s + head ≤ q ∧ q < s + head + m
      · rw [if_pos h₂]
      · rw [if_neg h₂, if_pos (by omega)]
  · rw [if_neg hr, if_neg (by omega), if_neg (by omega), if_neg (by omega)]

end Loops

variable {a a' : AllocatorLevel01Loose} {s e : Nat}

theorem onL0_eq_ok {f : Words → Words} (h : a.onL0 s e f = .ok a') :
    a' = { a with l0 := { a.l0 with slot := f a.l0.slot } } ∧
      (s < e → e ≤ a.l0.size * 64) := by
  unfold onL0 at h
  split at h
  · cases h
  · rename_i hin
    refine ⟨by cases h; rfl, fun hse => ?_⟩
    unfold bitsPerSlot at hin
    omega

/-- What the marking passes of L0 leave alone. -/
structure SameL1 (a a' : AllocatorLevel01Loose) : Prop where
  l1 : a'.l1 = a.l1
  l0Size : a'.l0.size = a.l0.size
  l0Granularity : a'.l0Granularity = a.l0Granularity

theorem SameL1.refl (a : AllocatorLevel01Loose) : SameL1 a a := ⟨rfl, rfl, rfl⟩

theorem SameL1.trans {a₁ a₂ a₃ : AllocatorLevel01Loose} (h : SameL1 a₁ a₂) (h' : SameL1 a₂ a₃) :
    SameL1 a₁ a₃ :=
  ⟨h'.l1.trans h.l1, h'.l0Size.trans h.l0Size, h'.l0Granularity.trans h.l0Granularity⟩

theorem SameL1.entry (h : SameL1 a a') (i : Nat) : a'.entry i = a.entry i := by
  unfold AllocatorLevel01Loose.entry
  rw [h.l1]

theorem markAllocL0_spec (h : a.markAllocL0 s e = .ok a') :
    SameL1 a a' ∧ (s < e → e ≤ a.l0.size * 64) ∧
      ∀ q, a'.bit q = if s ≤ q ∧ q < e then false else a.bit q := by
  obtain ⟨rfl, hin⟩ := onL0_eq_ok h
  exact ⟨⟨rfl, rfl, rfl⟩, hin, bit_markLoops bit_clearBit
    (fun i hi => slot_eq_clear_iff.mp rfl i hi) s e a.l0.slot⟩

theorem markFreeL0_spec (h : a.markFreeL0 s e = .ok a') :
    SameL1 a a' ∧ (s < e → e ≤ a.l0.size * 64) ∧
      ∀ q, a'.bit q = if s ≤ q ∧ q < e then true else a.bit q := by
  obtain ⟨rfl, hin⟩ := onL0_eq_ok h
  exact ⟨⟨rfl, rfl, rfl⟩, hin, bit_markLoops bit_setBit
    (fun i hi => slot_eq_set_iff.mp rfl i hi) s e a.l0.slot⟩

/-! ## Summarising L0 in L1 -/

theorem foldl_or_eq_zero {ws : List Slot} {w : Slot} :
    ws.foldl (· ||| ·) w = 0 ↔ w = 0 ∧ ∀ x ∈ ws, x = 0 := by
  induction ws generalizing w with
  | nil => simp
  | cons x rest ih =>
      rw [List.foldl_cons, ih, List.forall_mem_cons, ← and_assoc]
      exact and_congr_left' BitVec.or_eq_zero_iff

theorem foldl_and_eq_allOnes {ws : List Slot} {w : Slot} :
    ws.foldl (· &&& ·) w = BitVec.allOnes 64 ↔
      w = BitVec.allOnes 64 ∧ ∀ x ∈ ws, x = BitVec.allOnes 64 := by
  induction ws generalizing w with
  | nil => simp
  | cons x rest ih =>
      rw [List.foldl_cons, ih, BitVec.and_eq_allOnes_iff, List.forall_mem_cons, ← and_assoc]

/-- The slots of entry `e` hold the bits `q` with `q / 512 = e`. -/
theorem forall_slots_iff (v : Words) (e : Nat) (b : Bool) :
    (∀ x ∈ (List.range slotsPerSlotset).map (fun i => v (e * slotsPerSlotset + i)),
        ∀ i, i < 64 → x.getLsbD i = b) ↔
      ∀ q, q / 512 = e → WordBits.bit v q = b := by
  simp only [List.mem_map, List.mem_range, slotsPerSlotset]
  constructor
  · intro h q hq
    exact h _ ⟨q / 64 - e * 8, by omega, rfl⟩ (q % 64) (Nat.mod_lt q (by decide)) |> fun hb => by
      rwa [show e * 8 + (q / 64 - e * 8) = q / 64 by omega] at hb
  · rintro h x ⟨j, hj, rfl⟩ i hi
    have := h ((e * 8 + j) * 64 + i) (by omega)
    unfold WordBits.bit at this
    rwa [show ((e * 8 + j) * 64 + i) / 64 = e * 8 + j by omega,
      show ((e * 8 + j) * 64 + i) % 64 = i by omega] at this

theorem or_eq_clear_iff (v : Words) (e : Nat) :
    ((List.range slotsPerSlotset).map fun i => v (e * slotsPerSlotset + i)).foldl (· ||| ·)
        allSlotClear = allSlotClear ↔
      ∀ q, q / 512 = e → WordBits.bit v q = false := by
  rw [← forall_slots_iff]
  refine foldl_or_eq_zero.trans ⟨fun h x hx => slot_eq_clear_iff.mp (h.2 x hx),
    fun h => ⟨rfl, fun x hx => slot_eq_clear_iff.mpr (h x hx)⟩⟩

theorem and_eq_set_iff (v : Words) (e : Nat) :
    ((List.range slotsPerSlotset).map fun i => v (e * slotsPerSlotset + i)).foldl (· &&& ·)
        allSlotSet = allSlotSet ↔
      ∀ q, q / 512 = e → WordBits.bit v q = true := by
  rw [← forall_slots_iff]
  refine foldl_and_eq_allOnes.trans ⟨fun h x hx => slot_eq_set_iff.mp (h.2 x hx),
    fun h => ⟨rfl, fun x hx => slot_eq_set_iff.mpr (h x hx)⟩⟩

/-- The three values of a summary and what each says of the 512 bits. -/
theorem summary_cases (v : Words) (e : Nat) :
    (summary v e = L1_ENTRY_FULL ∧ ∀ q, q / 512 = e → WordBits.bit v q = false) ∨
    (summary v e = L1_ENTRY_FREE ∧ ∀ q, q / 512 = e → WordBits.bit v q = true) ∨
    (summary v e = L1_ENTRY_PARTIAL ∧ (∃ q, q / 512 = e ∧ WordBits.bit v q = true) ∧
      ∃ q, q / 512 = e ∧ WordBits.bit v q = false) := by
  unfold summary
  dsimp only
  split
  · rename_i hor
    exact .inl ⟨rfl, (or_eq_clear_iff v e).mp hor⟩
  · rename_i hor
    split
    · rename_i hand
      exact .inr (.inl ⟨rfl, (and_eq_set_iff v e).mp hand⟩)
    · rename_i hand
      rw [or_eq_clear_iff] at hor
      rw [and_eq_set_iff] at hand
      push Not at hor hand
      simp only [ne_eq, Bool.not_eq_false] at hor
      simp only [ne_eq, Bool.not_eq_true] at hand
      exact .inr (.inr ⟨rfl, hor, hand⟩)

theorem summary_mask (v : Words) (e : Nat) : summary v e &&& 3#64 = summary v e := by
  rcases summary_cases v e with ⟨h, -⟩ | ⟨h, -⟩ | ⟨h, -⟩ <;> rw [h] <;> decide

theorem l0_markEntry (a : AllocatorLevel01Loose) (e : Nat) :
    (a.markEntry e).l0 = a.l0 ∧ (a.markEntry e).l0Granularity = a.l0Granularity ∧
      (a.markEntry e).l1.size = a.l1.size := by
  unfold markEntry
  dsimp only
  split <;> exact ⟨rfl, rfl, rfl⟩

theorem entry_markEntry (a : AllocatorLevel01Loose) (e i : Nat) :
    (a.markEntry e).entry i = if i = e then summary a.l0.slot e else a.entry i := by
  unfold markEntry
  dsimp only
  split
  · rename_i hold
    by_cases hi : i = e
    · rw [if_pos hi, ← hold, hi]
    · rw [if_neg hi]
  · unfold AllocatorLevel01Loose.entry
    simp only [L1_ENTRIES_PER_SLOT, Function.update_apply]
    by_cases hw : i / 32 = e / 32
    · rw [if_pos hw, field_setField (Nat.mod_lt e (by decide)) (Nat.mod_lt i (by decide))
        (summary_mask _ _), hw]
      by_cases hi : i = e
      · rw [if_pos hi, if_pos (by rw [hi])]
      · rw [if_neg hi, if_neg fun hm => hi (div_mod_eq hw hm)]
    · rw [if_neg hw, if_neg fun hi => hw (by rw [hi])]

theorem l0_markEntries (n e : Nat) (a : AllocatorLevel01Loose) :
    (markEntries n e a).l0 = a.l0 ∧ (markEntries n e a).l0Granularity = a.l0Granularity ∧
      (markEntries n e a).l1.size = a.l1.size := by
  induction n generalizing e a with
  | zero => exact ⟨rfl, rfl, rfl⟩
  | succ n ih =>
      obtain ⟨h₀, h₁, h₂⟩ := ih (e + 1) (a.markEntry e)
      obtain ⟨g₀, g₁, g₂⟩ := l0_markEntry a e
      exact ⟨h₀.trans g₀, h₁.trans g₁, h₂.trans g₂⟩

theorem entry_markEntries (n e : Nat) (a : AllocatorLevel01Loose) (i : Nat) :
    (markEntries n e a).entry i =
      if e ≤ i ∧ i < e + n then summary a.l0.slot i else a.entry i := by
  induction n generalizing e a with
  | zero => rw [if_neg (by omega)]; rfl
  | succ n ih =>
      show (markEntries n (e + 1) (a.markEntry e)).entry i = _
      rw [ih, entry_markEntry, (l0_markEntry a e).1]
      by_cases hi : i = e
      · rw [if_neg (by omega), if_pos hi, if_pos (by omega), hi]
      · by_cases hr : e + 1 ≤ i ∧ i < e + 1 + n
        · rw [if_pos hr, if_pos (by omega)]
        · rw [if_neg hr, if_neg hi, if_neg (by omega)]

theorem l1Granularity_markEntries (n e : Nat) (a : AllocatorLevel01Loose) :
    (markEntries n e a).l1Granularity = a.l1Granularity := by
  induction n generalizing e a with
  | zero => rfl
  | succ n ih =>
      refine (ih (e + 1) (a.markEntry e)).trans ?_
      unfold markEntry
      dsimp only
      split <;> rfl

theorem l1Granularity_markL1OnL0 (h : a.markL1OnL0 s e = .ok a') :
    a'.l1Granularity = a.l1Granularity := by
  unfold markL1OnL0 at h
  dsimp only at h
  split at h
  · cases h
  · cases h
    exact l1Granularity_markEntries _ _ a

/-- `_mark_l1_on_l0` recomputes the entries of its range and changes no bit. -/
theorem markL1OnL0_spec (h : a.markL1OnL0 s e = .ok a') :
    a'.l0 = a.l0 ∧ a'.l0Granularity = a.l0Granularity ∧ a'.l1.size = a.l1.size ∧
      ∀ i, a'.entry i =
        if p2align s 512 / 512 ≤ i ∧ i < p2roundup e 512 / 512 then summary a.l0.slot i
        else a.entry i := by
  unfold markL1OnL0 at h
  dsimp only at h
  split at h
  · cases h
  · cases h
    obtain ⟨h₀, h₁, h₂⟩ := l0_markEntries (p2roundup e bitsPerSlotset / bitsPerSlotset -
      p2align s bitsPerSlotset / bitsPerSlotset) (p2align s bitsPerSlotset / bitsPerSlotset) a
    refine ⟨h₀, h₁, h₂, fun i => ?_⟩
    rw [entry_markEntries]
    show (if p2align s 512 / 512 ≤ i ∧ i < p2align s 512 / 512 +
      (p2roundup e 512 / 512 - p2align s 512 / 512) then _ else _) = _
    by_cases hr : p2align s 512 / 512 ≤ i ∧ i < p2roundup e 512 / 512
    · rw [if_pos hr, if_pos (by omega)]
    · rw [if_neg hr, if_neg (by omega)]

end AllocatorLevel01Loose

end Clab.Blk
