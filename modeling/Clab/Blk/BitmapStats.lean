import Clab.Blk.BitmapLevels
import Clab.Lib.MaximalRuns

/-!
# Statistics of free runs

`collect_stats` reads L0 word by word and counts the maximal runs of free
units by the logarithm of their length. A run may go on in the next slot, so
its length is carried along. The loop over a slot is run for a given number of
rounds; a call that needs more rounds than any number does not return.
-/

namespace Clab.Blk

open Clab.Common Clab.WordBits Clab.MaximalRuns

/-- `free_seq` and `bins_overall`; a bin that is absent counts 0. -/
structure Stats where
  freeSeq : Nat := 0
  bins : Nat → Nat := fun _ => 0

/-- The end of a run, if there is one. -/
def Stats.close (st : Stats) : Stats :=
  if st.freeSeq = 0 then st
  else
    let bin := cbits st.freeSeq - 1
    { freeSeq := 0, bins := Function.update st.bins bin (st.bins bin + 1) }

namespace AllocatorLevel01Loose

/-- The body of the loop over a slot that is neither full nor empty. -/
def collectStep (slot : Slot) (pos : Nat) (st : Stats) : Nat × Stats :=
  match findNextSetBit slot pos with
  | some pos1 =>
      (pos1 + 1,
        if pos1 = pos then { st with freeSeq := st.freeSeq + 1 }
        else { st.close with freeSeq := 1 })
  | none => (0, st.close) -- `pos1` is -1

/-- That loop, for `fuel` rounds at most. -/
def collectBits (slot : Slot) : Nat → Nat → Stats → Option Stats
  | 0, _, _ => none
  | fuel + 1, pos, st =>
      let (pos, st) := collectStep slot pos st
      if pos < bitsPerSlot then collectBits slot fuel pos st else some st

/-- One round of the loop over the slots. -/
def collectSlot (fuel : Nat) (slot : Slot) (st : Stats) : Option Stats :=
  if slot = allSlotSet then some { st with freeSeq := st.freeSeq + bitsPerSlot }
  else if slot ≠ allSlotClear then collectBits slot fuel 0 st
  else some st.close

/-- The loop over `n` slots from slot `i` on. -/
def collectSlots (fuel : Nat) (v : Words) : Nat → Nat → Stats → Option Stats
  | 0, _, st => some st
  | n + 1, i, st => do
      let st ← collectSlot fuel (v i) st
      collectSlots fuel v n (i + 1) st

/-- `collect_stats`. -/
def collectStats (a : AllocatorLevel01Loose) (fuel : Nat) (bins : Nat → Nat) :
    Option (Nat → Nat) := do
  let st ← collectSlots fuel a.l0.slot a.l0.size 0 { bins }
  return st.close.bins

/-- The slot does not end in a clear bit, unless it is all clear. -/
def EndsSet (slot : Slot) : Prop := slot = allSlotClear ∨ slot.getLsbD 63 = true

/-! ## What is counted -/

/-- Bin `k` is for the lengths from `2 ^ k` to below `2 ^ (k + 1)`. -/
def inBin (k n : Nat) : Bool := decide (2 ^ k ≤ n ∧ n < 2 ^ (k + 1))

theorem inBin_iff {n : Nat} (hn : 0 < n) (k : Nat) : inBin k n = true ↔ k = cbits n - 1 := by
  have hbits : cbits n - 1 = Nat.log2 n := by
    unfold cbits
    rw [if_neg (by omega)]
    rfl
  rw [hbits]
  unfold inBin
  rw [decide_eq_true_iff, eq_comm, Nat.log2_eq_iff (by omega)]

/-- The state of the scan after `n` bits of the row `f`. -/
structure Counted (bins : Nat → Nat) (f : Nat → Bool) (n : Nat) (st : Stats) : Prop where
  freeSeq : st.freeSeq = openRun f n
  bins : ∀ k, st.bins k = bins k + (closedRuns f n).countP fun r => inBin k r.2

section Scan

variable {bins : Nat → Nat} {f : Nat → Bool} {n : Nat} {st : Stats}

theorem Counted.start : Counted bins f 0 { bins } :=
  ⟨rfl, fun _ => rfl⟩

/-- Ending the run in progress puts it into its bin. -/
theorem Counted.close (h : Counted bins f n st) :
    st.close.freeSeq = 0 ∧
      ∀ k, st.close.bins k = bins k + (runs f n).countP fun r => inBin k r.2 := by
  unfold Stats.close runs
  rw [h.freeSeq]
  by_cases hopen : openRun f n = 0
  · rw [if_pos hopen, if_neg (by omega)]
    exact ⟨by rw [h.freeSeq, hopen], h.bins⟩
  · have hpos : 0 < openRun f n := by omega
    rw [if_neg hopen, if_pos hpos]
    refine ⟨rfl, fun k => ?_⟩
    have hbin := inBin_iff hpos k
    rw [List.countP_append, List.countP_singleton, ← Nat.add_assoc, ← h.bins k]
    dsimp only
    rw [Function.update_apply]
    by_cases hk : k = cbits (openRun f n) - 1
    · rw [if_pos hk, if_pos (hbin.mpr hk), ← hk]
    · rw [if_neg hk, if_neg (fun hin => hk (hbin.mp hin))]
      rfl

/-- Set bits make the run in progress longer. -/
theorem Counted.set (h : Counted bins f n st) {m : Nat}
    (hset : ∀ i, n ≤ i → i < n + m → f i = true) :
    Counted bins f (n + m) { st with freeSeq := st.freeSeq + m } := by
  refine ⟨?_, fun k => ?_⟩
  · rw [openRun_add hset, ← h.freeSeq]
  · rw [closedRuns_add hset]
    exact h.bins k

/-- Clear bits end it. -/
theorem Counted.gap (h : Counted bins f n st) {m : Nat} (hm : 0 < m)
    (hclear : ∀ i, n ≤ i → i < n + m → f i = false) : Counted bins f (n + m) st.close := by
  refine ⟨?_, fun k => ?_⟩
  · rw [openRun_gap hm hclear, h.close.1]
  · rw [closedRuns_gap hm hclear]
    exact h.close.2 k

end Scan

/-! ## One slot -/

section Slot

variable {bins : Nat → Nat} {v : Words} {i : Nat} {st : Stats}

theorem bit_slot (v : Words) (i : Nat) {j : Nat} (hj : j < 64) :
    WordBits.bit v (i * 64 + j) = (v i).getLsbD j := by
  unfold WordBits.bit
  rw [show (i * 64 + j) / 64 = i by omega, show (i * 64 + j) % 64 = j by omega]

/-- The bits of slot `i`, all alike. -/
theorem bit_whole {b : Bool} (h : ∀ j, j < 64 → (v i).getLsbD j = b) :
    ∀ q, i * 64 ≤ q → q < i * 64 + 64 → WordBits.bit v q = b := by
  intro q hq hlt
  rw [show q = i * 64 + (q - i * 64) by omega, bit_slot v i (by omega)]
  exact h _ (by omega)

/-- A round of the loop over a slot passes the bits up to the one it finds. -/
theorem Counted.collectStep {pos pos1 : Nat}
    (h : Counted bins (WordBits.bit v) (i * 64 + pos) st)
    (hfind : findNextSetBit (v i) pos = some pos1) :
    Counted bins (WordBits.bit v) (i * 64 + (pos1 + 1))
      (AllocatorLevel01Loose.collectStep (v i) pos st).2 := by
  obtain ⟨hle, hlt, hbit, hclear⟩ := findNextSetBit_some hfind
  unfold AllocatorLevel01Loose.collectStep
  rw [hfind]
  dsimp only
  have hset : ∀ q, i * 64 + pos1 ≤ q → q < i * 64 + pos1 + 1 → WordBits.bit v q = true := by
    intro q hq hq'
    rw [show q = i * 64 + pos1 by omega, bit_slot v i hlt]
    exact hbit
  by_cases heq : pos1 = pos
  · subst heq
    rw [if_pos rfl]
    exact h.set hset
  · rw [if_neg heq]
    have hgap := h.gap (m := pos1 - pos) (by omega) fun q hq hq' => by
      rw [show q = i * 64 + (q - i * 64) by omega, bit_slot v i (by omega)]
      exact hclear _ (by omega) (by omega)
    rw [show i * 64 + pos + (pos1 - pos) = i * 64 + pos1 by omega] at hgap
    have hone := hgap.set hset
    rwa [h.close.1] at hone

/-- With its last bit set the loop over a slot ends, at the end of the slot. -/
theorem collectBits_set (hend : (v i).getLsbD 63 = true) {fuel pos : Nat} (hpos : pos < 64)
    (hfuel : 64 ≤ fuel + pos) (h : Counted bins (WordBits.bit v) (i * 64 + pos) st) :
    ∃ st', collectBits (v i) fuel pos st = some st' ∧
      Counted bins (WordBits.bit v) (i * 64 + 64) st' := by
  induction fuel generalizing pos st with
  | zero => omega
  | succ fuel ih =>
      cases hfind : findNextSetBit (v i) pos with
      | none =>
          rw [findNextSetBit_none hfind 63 (by omega)] at hend
          cases hend
      | some pos1 =>
          have hnext := h.collectStep hfind
          obtain ⟨hle, hlt, -, -⟩ := findNextSetBit_some hfind
          have hstep : (collectStep (v i) pos st).1 = pos1 + 1 := by
            unfold collectStep
            rw [hfind]
          unfold collectBits
          dsimp only
          rw [hstep]
          unfold bitsPerSlot
          by_cases hlast : pos1 + 1 < 64
          · rw [if_pos hlast]
            exact ih hlast (by omega) hnext
          · rw [if_neg hlast]
            rw [show pos1 + 1 = 64 by omega] at hnext
            exact ⟨_, rfl, hnext⟩

/-- With its last bit clear it does not end: the search finds nothing at the
end of the slot and the loop goes back to its beginning. -/
theorem collectBits_clear {slot : Slot} (hend : slot.getLsbD 63 = false) (fuel pos : Nat)
    (st : Stats) : collectBits slot fuel pos st = none := by
  induction fuel generalizing pos st with
  | zero => rfl
  | succ fuel ih =>
      unfold collectBits
      dsimp only
      have hlt : (collectStep slot pos st).1 < bitsPerSlot := by
        unfold collectStep
        cases hfind : findNextSetBit slot pos with
        | none => exact Nat.succ_pos 63
        | some pos1 =>
            obtain ⟨-, hle, hbit, -⟩ := findNextSetBit_some hfind
            have hne : pos1 ≠ 63 := by
              rintro rfl
              rw [hend] at hbit
              cases hbit
            show pos1 + 1 < 64
            omega
      rw [if_pos hlt]
      exact ih _ _

theorem collectSlot_endsSet (hend : EndsSet (v i)) {fuel : Nat} (hfuel : 64 ≤ fuel)
    (h : Counted bins (WordBits.bit v) (i * 64) st) :
    ∃ st', collectSlot fuel (v i) st = some st' ∧
      Counted bins (WordBits.bit v) (i * 64 + 64) st' := by
  unfold collectSlot
  split
  · rename_i hfull
    exact ⟨_, rfl, h.set (bit_whole (slot_eq_set_iff.mp hfull))⟩
  · split
    · rename_i hclear
      exact collectBits_set (hend.resolve_left hclear) (by decide) hfuel h
    · rename_i hclear
      rw [not_not] at hclear
      exact ⟨_, rfl, h.gap (by decide) (bit_whole (slot_eq_clear_iff.mp hclear))⟩

theorem collectSlot_stuck {slot : Slot} (hend : ¬ EndsSet slot) (fuel : Nat) (st : Stats) :
    collectSlot fuel slot st = none := by
  unfold EndsSet at hend
  rw [not_or, Bool.not_eq_true] at hend
  unfold collectSlot
  rw [if_neg, if_pos hend.1]
  · exact collectBits_clear hend.2 fuel 0 st
  · intro hfull
    rw [slot_eq_set_iff.mp hfull 63 (by decide)] at hend
    exact absurd hend.2 (by decide)

end Slot

/-! ## All slots -/

theorem collectSlots_endsSet {bins : Nat → Nat} {v : Words} {fuel n i : Nat} {st : Stats}
    (hend : ∀ j, i ≤ j → j < i + n → EndsSet (v j)) (hfuel : 64 ≤ fuel)
    (h : Counted bins (WordBits.bit v) (i * 64) st) :
    ∃ st', collectSlots fuel v n i st = some st' ∧
      Counted bins (WordBits.bit v) ((i + n) * 64) st' := by
  induction n generalizing i st with
  | zero => exact ⟨st, rfl, h⟩
  | succ n ih =>
      obtain ⟨st₁, hslot, hst₁⟩ :=
        collectSlot_endsSet (hend i (Nat.le_refl i) (by omega)) hfuel h
      rw [← Nat.succ_mul] at hst₁
      obtain ⟨st', hrest, hst'⟩ := ih (fun j hj hlt => hend j (by omega) (by omega)) hst₁
      refine ⟨st', ?_, ?_⟩
      · unfold collectSlots
        rw [hslot]
        exact hrest
      · rwa [show i + (n + 1) = i + 1 + n by omega]

theorem endsSet_of_collectSlots {v : Words} {fuel n i : Nat} {st st' : Stats}
    (h : collectSlots fuel v n i st = some st') : ∀ j, i ≤ j → j < i + n → EndsSet (v j) := by
  induction n generalizing i st with
  | zero => intro j hj hlt; omega
  | succ n ih =>
      unfold collectSlots at h
      obtain ⟨st₁, hslot, hrest⟩ := Option.bind_eq_some_iff.mp h
      intro j hj hlt
      by_cases he : j = i
      · subst he
        by_contra hstuck
        rw [collectSlot_stuck hstuck] at hslot
        cases hslot
      · exact ih hrest j (by omega) (by omega)

/-- `collect_stats` returns and counts every maximal run of set bits once, in
the bin of its length. -/
def CountsRuns (a : AllocatorLevel01Loose) (bins : Nat → Nat) : Prop :=
  ∃ fuel bins', a.collectStats fuel bins = some bins' ∧
    ∀ k, bins' k = bins k +
      {r : Nat × Nat | IsRun a.bit (a.l0.size * 64) r.1 r.2 ∧ inBin k r.2}.ncard

theorem CountsRuns.endsSet {a : AllocatorLevel01Loose} {bins : Nat → Nat}
    (h : a.CountsRuns bins) : ∀ i, i < a.l0.size → EndsSet (a.l0.slot i) := by
  obtain ⟨fuel, bins', hrun, -⟩ := h
  intro i hi
  unfold collectStats at hrun
  obtain ⟨st, hslots, -⟩ := Option.bind_eq_some_iff.mp hrun
  exact endsSet_of_collectSlots hslots i (Nat.zero_le i) (by omega)

/-- It does so when no slot ends in clear bits, all-clear slots apart; it does
not return otherwise. -/
theorem collectStats_countsRuns (a : AllocatorLevel01Loose) (bins : Nat → Nat) :
    a.CountsRuns bins ↔ ∀ i, i < a.l0.size → EndsSet (a.l0.slot i) := by
  constructor
  · exact CountsRuns.endsSet
  · intro hend
    have hzero : Counted bins (WordBits.bit a.l0.slot) (0 * 64) { bins } := by
      rw [Nat.zero_mul]
      exact Counted.start
    obtain ⟨st, hslots, hst⟩ := collectSlots_endsSet (n := a.l0.size)
      (fun j _ hj => hend j (by omega)) (Nat.le_refl 64) hzero
    rw [Nat.zero_add] at hst
    refine ⟨64, st.close.bins, ?_, fun k => ?_⟩
    · unfold collectStats
      rw [hslots]
      rfl
    · rw [hst.close.2 k, countP_runs]
      rfl

/-- An L0 whose only free unit is the first. -/
theorem collectStats_not_countsRuns :
    ¬ ({ l0 := ⟨256, Function.update (fun _ => allSlotClear) 0 1⟩ } :
      AllocatorLevel01Loose).CountsRuns fun _ => 0 := by
  intro h
  have hone : EndsSet (1 : Slot) := h.endsSet 0 (by decide)
  rcases hone with hclear | hset
  · exact absurd hclear (by decide)
  · exact absurd hset (by decide)

end AllocatorLevel01Loose

end Clab.Blk
