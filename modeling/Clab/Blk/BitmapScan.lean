import Clab.Blk.BitmapSweep

/-!
# How a call scans L2

A round goes over the words of L2 and in a word over its set bits; each bit
leads to a sweep over the 256 entries below it. The scan stays inside the
vectors as long as it does not leave a word whose bits are all set, other than
the first word, through its last bit.
-/

namespace Clab.Blk

open Clab.Common Clab.WordBits Clab.Outcome

namespace AllocatorLevel02

open AllocatorLevel01Loose

/-- The units of `[lo, hi)` below a set L2 bit. -/
def scanned (a : AllocatorLevel02) (lo hi : Nat) : Finset Nat :=
  (Finset.Ico lo hi).filter fun q => WordBits.bit a.l2.slot (q / 131072) = true

/-- Unit `q` is free and below a set L2 bit. -/
def visible (a : AllocatorLevel02) (q : Nat) : Bool :=
  WordBits.bit a.l2.slot (q / 131072) && a.l1.bit q

/-- Entry `e` as a call sees it: nothing is below a clear L2 bit. -/
def seen (a : AllocatorLevel02) (e : Nat) : Slot :=
  if WordBits.bit a.l2.slot (e / 256) then a.l1.entry e else L1_ENTRY_FULL

/-- A call that began in `a₀` and has passed the units `D`, as for `Sweep`; an
L2 bit is cleared only above units that are all taken. -/
structure Scan (a₀ : AllocatorLevel02) (want : Nat) (J : Nat → Grant → Prop) (D : Finset Nat)
    (x : Nat) (a : AllocatorLevel02) (g : Grant) : Prop where
  sweep : Sweep a₀.l1 want J D x a.l1 g
  l2Size : a.l2.size = a₀.l2.size
  l2Granularity : a.l2Granularity = a₀.l2Granularity
  kept : ∀ p, WordBits.bit a.l2.slot p = true → WordBits.bit a₀.l2.slot p = true
  emptied : ∀ p, WordBits.bit a₀.l2.slot p = true → WordBits.bit a.l2.slot p = false →
    ∀ q, q / 131072 = p → a.l1.bit q = false

/-- A call at L2 position `p` of a round that began at the unit `lo`; the units
`base` were passed before. -/
structure At (a₀ : AllocatorLevel02) (want : Nat) (J : Nat → Grant → Prop) (base : Finset Nat)
    (lo p : Nat) (a : AllocatorLevel02) (g : Grant) : Prop where
  scan : Scan a₀ want J (base ∪ a₀.scanned lo (p * 131072)) (p * 131072) a g
  ahead : ∀ p', p' * 131072 ∉ base ∪ a₀.scanned lo (p * 131072) →
    WordBits.bit a.l2.slot p' = WordBits.bit a₀.l2.slot p'
  available : a.available = a₀.available

/-- A call that has all that is wanted, in a round that began at `lo` and was to
go on to `hi`. -/
structure Finished (a₀ : AllocatorLevel02) (want : Nat) (J : Nat → Grant → Prop)
    (base : Finset Nat) (lo hi : Nat) (a : AllocatorLevel02) (g : Grant) : Prop where
  scan : ∃ x, lo ≤ x ∧ x ≤ hi ∧ Scan a₀ want J (base ∪ a₀.scanned lo x) x a g
  allocated : g.allocated = want
  available : a.available = sub64 a₀.available want

theorem Finished.mono {a₀ a : AllocatorLevel02} {want lo hi hi' : Nat} {J : Nat → Grant → Prop}
    {base : Finset Nat} {g : Grant} (h : Finished a₀ want J base lo hi a g) (hle : hi ≤ hi') :
    Finished a₀ want J base lo hi' a g := by
  obtain ⟨x, hlo, hhi, hscan⟩ := h.scan
  exact ⟨⟨x, hlo, hhi.trans hle, hscan⟩, h.allocated, h.available⟩

/-! ## Reading what is below -/

theorem isEmptyL1_spec {l : AllocatorLevel01Loose} {n i : Nat} (h : (i + n) * 8 ≤ l.l0.size) :
    ∃ b, l.isEmptyL1 n i = .ok b ∧
      (b = true → ∀ q, i ≤ q / 512 → q / 512 < i + n → l.bit q = false) := by
  induction n generalizing i with
  | zero => exact ⟨true, rfl, fun _ q hq hlt => by omega⟩
  | succ n ih =>
      unfold isEmptyL1 isSlotFullyAllocated slotsPerSlotset
      rw [if_neg (by omega)]
      cases hall : (List.range 8).all fun j => decide (l.l0.slot (i * 8 + j) = allSlotClear) with
      | false => exact ⟨false, rfl, fun hb => by cases hb⟩
      | true =>
          obtain ⟨b, hb, hclear⟩ := ih (i := i + 1) (by omega)
          refine ⟨b, hb, fun htrue q hq hlt => ?_⟩
          by_cases heq : q / 512 = i
          · have hslot := List.all_eq_true.mp hall (q / 64 - i * 8) (List.mem_range.mpr (by omega))
            rw [decide_eq_true_eq, show i * 8 + (q / 64 - i * 8) = q / 64 by omega] at hslot
            exact slot_eq_clear_iff.mp hslot _ (Nat.mod_lt q (by decide))
          · exact hclear htrue q (by omega) (by omega)

section Scanning

variable {fails : Fault → Prop} {maxLength want lo hi : Nat} {J : Nat → Grant → Prop}
  {a₀ a a' : AllocatorLevel02} {base : Finset Nat} {g g' : Grant}

theorem mem_scanned {q : Nat} :
    q ∈ a.scanned lo hi ↔ (lo ≤ q ∧ q < hi) ∧ WordBits.bit a.l2.slot (q / 131072) = true := by
  unfold scanned
  rw [Finset.mem_filter, Finset.mem_Ico]

theorem scanned_mono {x y : Nat} (h : x ≤ y) : a.scanned lo x ⊆ a.scanned lo y := by
  intro q hq
  obtain ⟨⟨hlo, hlt⟩, hset⟩ := mem_scanned.mp hq
  exact mem_scanned.mpr ⟨⟨hlo, by omega⟩, hset⟩

/-- Positions with a clear bit add nothing. -/
theorem scanned_skip {p p' : Nat} (hle : p ≤ p')
    (hclear : ∀ i, p ≤ i → i < p' → WordBits.bit a.l2.slot i = false) :
    a.scanned lo (p' * 131072) = a.scanned lo (p * 131072) := by
  ext q
  rw [mem_scanned, mem_scanned]
  constructor
  · rintro ⟨⟨hq, hlt⟩, hset⟩
    refine ⟨⟨hq, ?_⟩, hset⟩
    by_contra hge
    rw [hclear (q / 131072) (by omega) (by omega)] at hset
    cases hset
  · rintro ⟨⟨hq, hlt⟩, hset⟩
    exact ⟨⟨hq, hlt.trans_le (Nat.mul_le_mul_right _ hle)⟩, hset⟩

/-- Below a set bit every unit counts. -/
theorem scanned_region {b y : Nat} (hset : WordBits.bit a.l2.slot b = true)
    (hlo : lo ≤ b * 131072) (hy : b * 131072 ≤ y) (hle : y ≤ b * 131072 + 131072) :
    a.scanned lo y = a.scanned lo (b * 131072) ∪ Finset.Ico (b * 131072) y := by
  ext q
  rw [Finset.mem_union, mem_scanned, mem_scanned, Finset.mem_Ico]
  constructor
  · rintro ⟨⟨hq, hlt⟩, hs⟩
    by_cases hb : q < b * 131072
    · exact Or.inl ⟨⟨hq, hb⟩, hs⟩
    · exact Or.inr ⟨by omega, hlt⟩
  · rintro (⟨⟨hq, hlt⟩, hs⟩ | ⟨hq, hlt⟩)
    · exact ⟨⟨hq, by omega⟩, hs⟩
    · refine ⟨⟨by omega, hlt⟩, ?_⟩
      rwa [show q / 131072 = b by omega]

/-- Positions with a clear bit are passed. -/
theorem At.skip {p p' : Nat} (h : At a₀ want J base lo p a g)
    (hJ : Follows a₀.visible a₀.seen a₀.l1.l0Granularity want maxLength J) (hle : p ≤ p')
    (hclear : ∀ i, p ≤ i → i < p' → WordBits.bit a₀.l2.slot i = false) :
    At a₀ want J base lo p' a g := by
  have hsame := @scanned_skip lo a₀ p p' hle hclear
  obtain ⟨⟨hsweep, hsize, hgran, hkept, hemptied⟩, hahead, havail⟩ := h
  refine ⟨⟨?_, hsize, hgran, hkept, hemptied⟩, by rwa [hsame], havail⟩
  rw [hsame]
  refine ⟨hsweep.l0Size, hsweep.l1Size, hsweep.unit, hsweep.sound, hsweep.bit, hsweep.entry,
    hsweep.counted, hsweep.le, hsweep.dvd, hJ.skip hsweep.follows (by omega) ?_⟩
  intro q hq hlt
  unfold visible
  rw [hclear (q / 131072) (by omega) (by omega), Bool.false_and]

/-- What a round needs to know of the state that the call began in: its vectors
fit, and what is wanted is there before the end of an entry that is cut. -/
structure Ready (a₀ : AllocatorLevel02) (want : Nat) (base : Finset Nat) (lo hi : Nat) : Prop where
  unit : 0 < a₀.l1.l0Granularity
  want_dvd : a₀.l1.l0Granularity ∣ want
  sizes : a₀.l1.l0.size = a₀.l1.l1.size * 256
  bound : ∀ e, e < a₀.l1.l1.size * 32 → e * 512 + 512 ≤ 2 ^ 64 - 1024
  l2 : ∀ p, WordBits.bit a₀.l2.slot p = true → p < a₀.l1.l1.size / 8
  apart : ∀ q ∈ base, ¬ (lo ≤ q ∧ q < hi)
  entries : ∀ e, WordBits.bit a₀.l2.slot (e / 256) = true → lo ≤ e * 512 → e * 512 < hi →
    Cut a₀.l1 e →
    want ≤ a₀.l1.freeIn (base ∪ a₀.scanned lo ((e + 1) * 512)) * a₀.l1.l0Granularity
  words : ∀ w, 1 ≤ w → a₀.l2.slot w = allSlotSet → lo ≤ w * 64 * 131072 → w * 64 * 131072 < hi →
    want ≤ a₀.l1.freeIn (base ∪ a₀.scanned lo ((w * 64 + 64) * 131072)) * a₀.l1.l0Granularity

/-- The bits from `p` to the end of the round are as they were. -/
theorem At.unread {p p' : Nat} (h : At a₀ want J base lo p a g) (hr : Ready a₀ want base lo hi)
    (hlo : lo ≤ p' * 131072) (hle : p ≤ p') (hhi : p' * 131072 < hi) :
    WordBits.bit a.l2.slot p' = WordBits.bit a₀.l2.slot p' := by
  refine h.ahead p' fun hmem => ?_
  rcases Finset.mem_union.mp hmem with hmem | hmem
  · exact hr.apart _ hmem ⟨hlo, hhi⟩
  · have := (mem_scanned.mp hmem).1.2
    omega

set_option maxRecDepth 4000 in
/-- The entries below a set bit are swept. -/
theorem At.region {b : Nat} (h : At a₀ want J base lo b a g) (hr : Ready a₀ want base lo hi)
    (hJ : Follows a₀.visible a₀.seen a₀.l1.l0Granularity want maxLength J)
    (hmax : MaxFits fails (min want (512 * a₀.l1.l0Granularity)) maxLength)
    (hset : WordBits.bit a₀.l2.slot b = true)
    (hlo : lo ≤ b * 131072) (hhi : (b + 1) * 131072 ≤ hi) :
    Returns fails (a.l1.allocateL1 want maxLength (b * 256) (b * 256 + 256) g) (fun r =>
      ∃ y, b * 131072 ≤ y ∧ y ≤ (b + 1) * 131072 ∧
        Sweep a₀.l1 want J (base ∪ a₀.scanned lo y) y r.2.2 r.2.1 ∧
        (r.2.1.allocated = want ∨ y = (b + 1) * 131072)) ∧
      RunsInside want maxLength 256 (b * 256) g a.l1 := by
  have hb := hr.l2 b hset
  have hsweep := h.scan.sweep
  rw [show b * 131072 = b * 256 * 512 by omega] at hsweep
  have hjoin : ∀ y, b * 131072 ≤ y → y ≤ b * 131072 + 131072 →
      base ∪ a₀.scanned lo (b * 256 * 512) ∪ Finset.Ico (b * 256 * 512) y =
        base ∪ a₀.scanned lo y := by
    intro y hy hle
    rw [show b * 256 * 512 = b * 131072 by omega, Finset.union_assoc,
      ← scanned_region hset hlo hy hle]
  have hloop := allocateL1Loop_sweep hJ hmax hr.unit hr.want_dvd hr.sizes hr.bound hsweep
    (show b * 256 + 256 ≤ _ by omega) (fun q hq hlt => ?_) (fun e he hlt => ?_)
    (fun q hq hlt hmem => ?_) (fun e he hlt hc => ?_)
  · unfold allocateL1
    rw [show b * 256 + 256 - b * 256 = 256 by omega]
    refine ⟨hloop.1.mono ?_, hloop.2⟩
    rintro r ⟨y, hfrom, hto, hs, hdone⟩
    rw [hjoin y (by lia) (by lia)] at hs
    exact ⟨y, by lia, by lia, hs, hdone.imp_right (by lia)⟩
  · unfold visible
    rw [show q / 131072 = b by omega, hset, Bool.true_and]
  · unfold seen
    rw [show e / 256 = b by omega, if_pos hset]
  · rcases Finset.mem_union.mp hmem with hmem | hmem
    · exact hr.apart q hmem ⟨by lia, by lia⟩
    · rw [mem_scanned] at hmem
      lia
  · rw [hjoin _ (by lia) (by lia)]
    refine hr.entries e ?_ (by lia) (by lia) hc
    rwa [show e / 256 = b by omega]

/-- After the sweep below bit `off` of word `w`, noted in L2 when nothing is left. -/
theorem At.noted {w off b : Nat} {l1 : AllocatorLevel01Loose} {empty : Bool}
    (h : At a₀ want J base lo b a g) (hr : Ready a₀ want base lo hi) (hb : b = w * 64 + off)
    (hoff : off < 64) (hset : WordBits.bit a₀.l2.slot b = true) {idx : Nat} (hidx : idx / 64 = w)
    {D : Finset Nat} {x : Nat} (hsub : base ∪ a₀.scanned lo (b * 131072) ⊆ D)
    (hs : Sweep a₀.l1 want J D x l1 g')
    (hempty : l1.isEmptyL1 256 (b * 256) = .ok empty) :
    ∃ a', { a with l1 := l1 }.noteEmpty empty idx off = .ok a' ∧ a'.l1 = l1 ∧
      a'.available = a₀.available ∧ Scan a₀ want J D x a' g' ∧
      ∀ p, p ≠ b → WordBits.bit a'.l2.slot p = WordBits.bit a.l2.slot p := by
  have hbound := hr.l2 b hset
  have hshrinks : ∀ q, a.l1.bit q = false → l1.bit q = false := by
    intro q hq
    rw [hs.bit]
    split
    · rfl
    · rename_i hout
      rwa [← h.scan.sweep.bit_of_notMem fun hmem => hout (hsub hmem)]
  have hplain : Scan a₀ want J D x { a with l1 := l1 } g' :=
    ⟨hs, h.scan.l2Size, h.scan.l2Granularity, h.scan.kept,
      fun p hp hclear q hq => hshrinks q (h.scan.emptied p hp hclear q hq)⟩
  unfold noteEmpty bitsPerSlot
  cases empty with
  | false => exact ⟨_, rfl, rfl, h.available, hplain, fun _ _ => rfl⟩
  | true =>
      rw [if_pos rfl, if_neg (by omega), hidx, ← hb]
      refine ⟨_, rfl, rfl, h.available, ⟨hs, h.scan.l2Size, h.scan.l2Granularity, fun p hp => ?_,
        fun p hp hclear q hq => ?_⟩, fun p hp => ?_⟩
      · rw [bit_clearBit] at hp
        split at hp
        · cases hp
        · exact h.scan.kept p hp
      · rw [bit_clearBit] at hclear
        split at hclear
        · rename_i hpb
          have hl0 : (b * 256 + 256) * 8 ≤ l1.l0.size := by
            rw [hs.l0Size, hr.sizes]
            omega
          obtain ⟨c, hc, hall⟩ := isEmptyL1_spec hl0
          cases hc.symm.trans hempty
          exact hall rfl q (by omega) (by omega)
        · exact hshrinks q (h.scan.emptied p hp hclear q hq)
      · show WordBits.bit (clearBit a.l2.slot b) p = _
        rw [bit_clearBit, if_neg hp]

/-- Where `scanSlot` goes on in a word: at a set bit, or behind the word. -/
def Onward (a₀ : AllocatorLevel02) (want : Nat) (J : Nat → Grant → Prop) (base : Finset Nat)
    (lo w n : Nat) (off : Option Nat) (a : AllocatorLevel02) (g : Grant) : Prop :=
  match off with
  | some o => o < 64 ∧ WordBits.bit a₀.l2.slot (w * 64 + o) = true ∧ 64 ≤ o + n ∧
      At a₀ want J base lo (w * 64 + o) a g
  | none => At a₀ want J base lo (w * 64 + 64) a g

/-- From position `w * 64 + o` on, the next set bit of a word as it was. -/
theorem At.onward {w o n : Nat} {word : Slot} (h : At a₀ want J base lo (w * 64 + o) a g)
    (hJ : Follows a₀.visible a₀.seen a₀.l1.l0Granularity want maxLength J)
    (ho : o ≤ 64) (hn : 64 ≤ o + n)
    (hword : ∀ i, o ≤ i → i < 64 → word.getLsbD i = WordBits.bit a₀.l2.slot (w * 64 + i)) :
    Onward a₀ want J base lo w n (findNextSetBit word o) a g := by
  cases hnext : findNextSetBit word o with
  | none =>
      refine h.skip hJ (by omega) fun i hi hlt => ?_
      rw [show i = w * 64 + (i - w * 64) by omega, ← hword _ (by omega) (by omega)]
      exact findNextSetBit_none hnext _ (by omega)
  | some o' =>
      obtain ⟨hle, hlt, hset, hmin⟩ := findNextSetBit_some hnext
      refine ⟨hlt, by rw [← hword o' hle hlt]; exact hset, by omega, ?_⟩
      refine h.skip hJ (by omega) fun i hi hlt' => ?_
      rw [show i = w * 64 + (i - w * 64) by omega, ← hword _ (by omega) (by omega)]
      exact hmin _ (by omega) (by omega)

end Scanning

/-- In the loop over the bits of an L2 word no call of `_allocate_l0` touches the
units from the end of its range on. -/
def SlotInside (want maxLength idx slotStart scanEnd : Nat) (val : Slot) : Nat → Option Nat →
    Grant → AllocatorLevel02 → Prop
  | 0, _, _, _ => True
  | _ + 1, none, _, _ => True
  | n + 1, some off, g, a =>
      if off < scanEnd then
        let b := slotStart + off
        let l1s := b * slotsPerSlotset * L1_ENTRIES_PER_SLOT
        let l1e := l1s + slotsPerSlotset * L1_ENTRIES_PER_SLOT
        RunsInside want maxLength (l1e - l1s) l1s g a.l1 ∧
          ∀ r g' l1 empty a', a.l1.allocateL1 want maxLength l1s l1e g = .ok (r, g', l1) →
            l1.isEmptyL1 (l1e - l1s) l1s = .ok empty →
            { a with l1 := l1 }.noteEmpty empty idx off = .ok a' → ¬ g'.allocated ≥ want →
            SlotInside want maxLength idx slotStart scanEnd val n
              (if val = allSlotSet then (if off + 1 < scanEnd then some (off + 1) else none)
              else findNextSetBit (a'.l2.slot (idx / bitsPerSlot)) (off + 1)) g' a'
      else True

section Slots

variable {fails : Fault → Prop} {maxLength want lo hi : Nat} {J : Nat → Grant → Prop}
  {a₀ a a' : AllocatorLevel02} {base : Finset Nat} {g g' : Grant}

/-- What the scan of word `w` leaves behind. -/
def Left (a₀ : AllocatorLevel02) (want : Nat) (J : Nat → Grant → Prop) (base : Finset Nat)
    (lo p : Nat) (r : Bool × Grant × AllocatorLevel02) : Prop :=
  if r.1 then Finished a₀ want J base lo (p * 131072) r.2.2 r.2.1
  else At a₀ want J base lo p r.2.2 r.2.1

theorem onward_none {w n : Nat} (h : At a₀ want J base lo (w * 64 + 64) a g) :
    Onward a₀ want J base lo w n none a g := h

/-- The bit after `o` in a word, when not all that is wanted was found there. -/
theorem At.next {w o n idx scanEnd : Nat} (h : At a₀ want J base lo (w * 64 + o + 1) a g)
    (hr : Ready a₀ want base lo hi)
    (hJ : Follows a₀.visible a₀.seen a₀.l1.l0Granularity want maxLength J) (hidx : idx / 64 = w)
    (ho : o < 64) (hn : 64 ≤ o + 1 + n) (hscan : 64 ≤ scanEnd) (hfirst : w = 0 → scanEnd = 64)
    (hlo : lo ≤ w * 64 * 131072) (hhi : (w * 64 + 64) * 131072 ≤ hi) (hless : g.allocated < want) :
    Onward a₀ want J base lo w n
      (if a₀.l2.slot w = allSlotSet then (if o + 1 < scanEnd then some (o + 1) else none)
      else findNextSetBit (a.l2.slot (idx / 64)) (o + 1)) a g := by
  by_cases hall : a₀.l2.slot w = allSlotSet
  · rw [if_pos hall]
    by_cases hlast : o + 1 < 64
    · rw [if_pos (by omega)]
      refine ⟨hlast, ?_, hn, h⟩
      have hbit := slot_eq_set_iff.mp hall (o + 1) hlast
      unfold WordBits.bit
      rwa [show (w * 64 + (o + 1)) / 64 = w by omega, show (w * 64 + (o + 1)) % 64 = o + 1 by omega]
    · have hstop : ¬ o + 1 < scanEnd := by
        rcases Nat.eq_zero_or_pos w with hw | hw
        · have := hfirst hw
          omega
        · -- behind the last bit of a full word all that is wanted is found
          have hwant := hr.words w hw hall hlo (by lia)
          have hcounted := h.scan.sweep.counted
          rw [show w * 64 + o + 1 = w * 64 + 64 by omega] at hcounted
          omega
      rw [if_neg hstop]
      rwa [show w * 64 + o + 1 = w * 64 + 64 by omega] at h
  · rw [if_neg hall, hidx]
    refine At.onward h hJ (by omega) hn fun i hi hlt => ?_
    have hsame : WordBits.bit a.l2.slot (w * 64 + i) = WordBits.bit a₀.l2.slot (w * 64 + i) :=
      h.unread hr (by lia) (by omega) (by lia)
    rw [← hsame]
    unfold WordBits.bit
    rw [show (w * 64 + i) / 64 = w by omega, show (w * 64 + i) % 64 = i by omega]

/-- The scan of a word. -/
theorem scanSlot_sweep (hr : Ready a₀ want base lo hi)
    (hJ : Follows a₀.visible a₀.seen a₀.l1.l0Granularity want maxLength J)
    (hmax : MaxFits fails (min want (512 * a₀.l1.l0Granularity)) maxLength)
    {w idx scanEnd n : Nat} {off : Option Nat} (hidx : idx / 64 = w)
    (hscan : 64 ≤ scanEnd) (hfirst : w = 0 → scanEnd = 64) (hlo : lo ≤ w * 64 * 131072)
    (hhi : (w * 64 + 64) * 131072 ≤ hi) (h : Onward a₀ want J base lo w n off a g) :
    Returns fails (scanSlot want maxLength idx (w * 64) scanEnd (a₀.l2.slot w) n off g a)
        (Left a₀ want J base lo (w * 64 + 64)) ∧
      SlotInside want maxLength idx (w * 64) scanEnd (a₀.l2.slot w) n off g a := by
  induction n generalizing off g a with
  | zero =>
      cases off with
      | none => exact ⟨h, trivial⟩
      | some o =>
          obtain ⟨ho, -, hn, -⟩ := h
          omega
  | succ n ih =>
      cases off with
      | none => exact ⟨h, trivial⟩
      | some o =>
          obtain ⟨ho, hset, hn, hat⟩ := h
          have hl1s : (w * 64 + o) * slotsPerSlotset * L1_ENTRIES_PER_SLOT = (w * 64 + o) * 256 := by
            unfold slotsPerSlotset L1_ENTRIES_PER_SLOT
            omega
          have h256 : slotsPerSlotset * L1_ENTRIES_PER_SLOT = 256 := rfl
          have hlen : ∀ y : Nat, y + 256 - y = 256 := fun y => by omega
          have hregion := hat.region hr hJ hmax hset (by lia) (by lia)
          -- one bit, in the order of the code
          have hstep : ∀ {r g' l1 empty a'}, a.l1.allocateL1 want maxLength ((w * 64 + o) * 256)
              ((w * 64 + o) * 256 + 256) g = .ok (r, g', l1) →
              l1.isEmptyL1 256 ((w * 64 + o) * 256) = .ok empty →
              { a with l1 := l1 }.noteEmpty empty idx o = .ok a' →
              (g'.allocated ≥ want → Finished a₀ want J base lo ((w * 64 + 64) * 131072)
                { a' with lastPos := w * 64 + o, available := sub64 a'.available g'.allocated } g') ∧
              (¬ g'.allocated ≥ want → Onward a₀ want J base lo w n
                (if a₀.l2.slot w = allSlotSet then (if o + 1 < scanEnd then some (o + 1) else none)
                else findNextSetBit (a'.l2.slot (idx / 64)) (o + 1)) a' g') := by
            intro r g' l1 empty a' hok hempty hnote
            obtain ⟨y, hfrom, hto, hs, hdone⟩ := hregion.1.of_ok hok
            obtain ⟨a'', hnote', -, havail, hscan', hother⟩ := hat.noted hr rfl ho hset hidx
              (Finset.union_subset_union_right (scanned_mono hfrom)) hs hempty
            cases hnote'.symm.trans hnote
            constructor
            · intro hge
              have heq : g'.allocated = want := Nat.le_antisymm hs.le hge
              refine ⟨⟨y, by lia, by lia, hscan'.sweep, hscan'.l2Size, hscan'.l2Granularity,
                hscan'.kept, hscan'.emptied⟩, heq, ?_⟩
              show sub64 a'.available g'.allocated = _
              rw [havail, heq]
            · intro hless
              obtain rfl := hdone.resolve_left (fun heq => hless heq.ge)
              suffices hat' : At a₀ want J base lo (w * 64 + o + 1) a' g' from
                hat'.next hr hJ hidx ho (by omega) hscan hfirst hlo hhi (by omega)
              refine ⟨hscan', fun p hp => ?_, havail⟩
              have hmem : (w * 64 + o) * 131072 ∈ a₀.scanned lo ((w * 64 + o + 1) * 131072) :=
                mem_scanned.mpr ⟨⟨by lia, by lia⟩, by rwa [Nat.mul_div_cancel _ (by decide)]⟩
              rw [hother p fun heq => hp (Finset.mem_union_right _ (by rw [heq]; exact hmem))]
              refine hat.ahead p fun hmem' => hp (Finset.union_subset_union_right ?_ hmem')
              intro q hq
              obtain ⟨⟨hq, hlt⟩, hbit⟩ := mem_scanned.mp hq
              exact mem_scanned.mpr ⟨⟨hq, by lia⟩, hbit⟩
          constructor
          · unfold scanSlot
            rw [if_pos (by omega)]
            dsimp only
            rw [hl1s, h256, hlen]
            refine hregion.1.bind ?_
            rintro ⟨r, g', l1⟩ hok ⟨y, hfrom, -, hs, -⟩
            have hbound := hr.l2 _ hset
            obtain ⟨empty, hempty, -⟩ := @isEmptyL1_spec l1 256 ((w * 64 + o) * 256) (by
              rw [hs.l0Size, hr.sizes]
              omega)
            obtain ⟨a', hnote, -⟩ := hat.noted hr rfl ho hset hidx
              (Finset.union_subset_union_right (scanned_mono hfrom)) hs hempty
            obtain ⟨hdone, hmore⟩ := hstep hok hempty hnote
            dsimp only
            rw [hempty]
            show Returns fails (AllocatorLevel02.noteEmpty _ _ _ _ >>= _) _
            rw [hnote]
            show Returns fails (if g'.allocated ≥ want then _ else _) _
            by_cases hge : g'.allocated ≥ want
            · rw [if_pos hge]
              exact hdone hge
            · rw [if_neg hge]
              exact (ih (hmore hge)).1
          · unfold SlotInside
            rw [if_pos (by omega)]
            dsimp only
            rw [hl1s, h256, hlen]
            refine ⟨hregion.2, fun r g' l1 empty a' hok hempty hnote hless => ?_⟩
            exact (ih ((hstep hok hempty hnote).2 hless)).2

end Slots

/-- In the loop over the words of L2 no call of `_allocate_l0` touches the units
from the end of its range on. -/
def RoundInside (want maxLength endPos : Nat) : Nat → Nat → Grant → AllocatorLevel02 → Prop
  | 0, _, _, _ => True
  | n + 1, idx, g, a =>
      if idx < endPos then
        if a.l2.size ≤ idx / bitsPerSlot then True
        else
          let val := a.l2.slot (idx / bitsPerSlot)
          if val = allSlotClear then RoundInside want maxLength endPos n (idx + bitsPerSlot) g a
          else
            let slotStart := idx / bitsPerSlot * bitsPerSlot
            let scanEnd := min (slotStart + bitsPerSlot) endPos
            let off := if val = allSlotSet then some 0 else findNextSetBit val (idx % bitsPerSlot)
            SlotInside want maxLength idx slotStart scanEnd val scanEnd off g a ∧
              ∀ g' a', scanSlot want maxLength idx slotStart scanEnd val scanEnd off g a =
                .ok (false, g', a') → RoundInside want maxLength endPos n scanEnd g' a'
      else True

section Rounds

variable {fails : Fault → Prop} {maxLength want lo hi : Nat} {J : Nat → Grant → Prop}
  {a₀ a : AllocatorLevel02} {base : Finset Nat} {g : Grant}

theorem slot_eq_of_bits {v v' : Words} {w : Nat}
    (h : ∀ i, i < 64 → WordBits.bit v (w * 64 + i) = WordBits.bit v' (w * 64 + i)) : v w = v' w := by
  refine BitVec.eq_of_getLsbD_eq fun i hi => ?_
  have hbit := h i hi
  unfold WordBits.bit at hbit
  rwa [show (w * 64 + i) / 64 = w by omega, show (w * 64 + i) % 64 = i by omega] at hbit

/-- A round over the words of L2. -/
theorem scanRound_sweep {endPos : Nat} (hr : Ready a₀ want base lo (endPos * 131072))
    (hJ : Follows a₀.visible a₀.seen a₀.l1.l0Granularity want maxLength J)
    (hmax : MaxFits fails (min want (512 * a₀.l1.l0Granularity)) maxLength) (hend : endPos % 64 = 0) (hsize : endPos ≤ a₀.l2.size * 64)
    {n w : Nat} (hn : endPos ≤ w * 64 + n) (hw : w * 64 ≤ endPos) (hlo : lo ≤ w * 64 * 131072)
    (h : At a₀ want J base lo (w * 64) a g) :
    Returns fails (scanRound want maxLength endPos n (w * 64) g a) (Left a₀ want J base lo endPos) ∧
      RoundInside want maxLength endPos n (w * 64) g a := by
  induction n generalizing w g a with
  | zero =>
      have heq : w * 64 = endPos := by omega
      rw [heq] at h
      exact ⟨h, trivial⟩
  | succ n ih =>
      unfold scanRound RoundInside bitsPerSlot
      by_cases hlt : w * 64 < endPos
      swap
      · have heq : w * 64 = endPos := by omega
        rw [if_neg hlt, if_neg hlt]
        rw [heq] at h
        exact ⟨h, trivial⟩
      have hdiv : w * 64 / 64 = w := by omega
      have hmod : w * 64 % 64 = 0 := by omega
      have hslot : ¬ a.l2.size ≤ w := by
        rw [h.scan.l2Size]
        omega
      have hval : a.l2.slot w = a₀.l2.slot w :=
        slot_eq_of_bits fun i hi => h.unread hr (by lia) (by omega) (by lia)
      have hmin : min (w * 64 + 64) endPos = (w + 1) * 64 := by omega
      have hone : (w + 1) * 64 = w * 64 + 64 := by omega
      rw [if_pos hlt, if_pos hlt, hdiv, hmod, if_neg hslot, if_neg hslot]
      dsimp only
      rw [hval, hmin]
      by_cases hclear : a₀.l2.slot w = allSlotClear
      · rw [if_pos hclear, if_pos hclear, ← hone]
        refine ih (by omega) (by omega) (by lia) (h.skip hJ (by omega) fun i hi hlt' => ?_)
        have hbit := slot_eq_clear_iff.mp hclear (i % 64) (Nat.mod_lt i (by decide))
        unfold WordBits.bit
        rwa [show i / 64 = w by omega]
      · rw [if_neg hclear, if_neg hclear]
        have hstart : Onward a₀ want J base lo w ((w + 1) * 64)
            (if a₀.l2.slot w = allSlotSet then some 0 else findNextSetBit (a₀.l2.slot w) 0) a g := by
          by_cases hall : a₀.l2.slot w = allSlotSet
          · rw [if_pos hall]
            refine ⟨by decide, ?_, by omega, h⟩
            have hbit := slot_eq_set_iff.mp hall 0 (by decide)
            unfold WordBits.bit
            rwa [show (w * 64 + 0) / 64 = w by omega, show (w * 64 + 0) % 64 = 0 by omega]
          · rw [if_neg hall]
            refine At.onward h hJ (by omega) (by omega) fun i _ hi => ?_
            unfold WordBits.bit
            rw [show (w * 64 + i) / 64 = w by omega, show (w * 64 + i) % 64 = i by omega]
        have hscan := scanSlot_sweep hr hJ hmax hdiv (show 64 ≤ (w + 1) * 64 by omega)
          (fun hw₀ => by omega) hlo (by lia) hstart
        have hnext : ∀ {g' a'}, scanSlot want maxLength (w * 64) (w * 64) ((w + 1) * 64)
            (a₀.l2.slot w) ((w + 1) * 64)
            (if a₀.l2.slot w = allSlotSet then some 0 else findNextSetBit (a₀.l2.slot w) 0) g a =
              .ok (false, g', a') →
            Returns fails (scanRound want maxLength endPos n ((w + 1) * 64) g' a')
                (Left a₀ want J base lo endPos) ∧
              RoundInside want maxLength endPos n ((w + 1) * 64) g' a' := by
          intro g' a' hok
          have hat : At a₀ want J base lo (w * 64 + 64) a' g' := hscan.1.of_ok hok
          rw [← hone] at hat
          exact ih (by omega) (by omega) (by lia) hat
        refine ⟨hscan.1.bind ?_, hscan.2, fun g' a' hok => (hnext hok).2⟩
        rintro ⟨done, g', a'⟩ hok hleft
        cases done with
        | true =>
            have hfinished : Finished a₀ want J base lo ((w * 64 + 64) * 131072) a' g' := hleft
            exact hfinished.mono (Nat.mul_le_mul_right _ (by omega))
        | false => exact (hnext hok).1

end Rounds

/-! ## The whole call -/

/-- The L2 position at which `_allocate_l2` begins. -/
def startPos (a : AllocatorLevel02) (hint : Int) : Nat :=
  let pos := if hint > 0 then p2align (hint.toNat / a.l2Granularity) bitsPerSlot else 0
  if pos ≥ a.l2.size * bitsPerSlot then 0 else pos

/-- The normalised maximum of `_allocate_l2`. -/
def maxRun (minLength maxLength : Nat) : Nat :=
  let maxLength := if maxLength = 0 then 2 ^ 32 - 1 else maxLength
  let maxLength := p2align maxLength minLength
  if maxLength < minLength then minLength else maxLength

/-- In both rounds no call of `_allocate_l0` touches the units from the end of its
range on. -/
def Inside (a : AllocatorLevel02) (want minLength maxLength : Nat) (hint : Int) (g : Grant) : Prop :=
  RoundInside want (maxRun minLength maxLength) (a.l2.size * bitsPerSlot) (a.l2.size * bitsPerSlot)
      (a.startPos hint) g a ∧
    ∀ g' a', scanRound want (maxRun minLength maxLength) (a.l2.size * bitsPerSlot)
        (a.l2.size * bitsPerSlot) (a.startPos hint) g a = .ok (false, g', a') →
      RoundInside want (maxRun minLength maxLength) (a.startPos hint) (a.l2.size * bitsPerSlot) 0 g'
        a'

/-- The units that a call has passed when it reaches unit `x`. -/
def passed (a : AllocatorLevel02) (hint : Int) (x : Nat) : Finset Nat :=
  if a.startPos hint * 131072 < x then a.scanned (a.startPos hint * 131072) x
  else a.scanned (a.startPos hint * 131072) (a.l2.size * 64 * 131072) ∪ a.scanned 0 x

/-- All that is wanted is there before the call comes to the end of an entry that
is cut, or to the end of a full L2 word other than the first. -/
structure Contained (a : AllocatorLevel02) (want : Nat) (hint : Int) : Prop where
  entries : ∀ e, WordBits.bit a.l2.slot (e / 256) = true → Cut a.l1 e →
    want ≤ a.l1.freeIn (a.passed hint ((e + 1) * 512)) * a.l1.l0Granularity
  words : ∀ w, 1 ≤ w → w < a.l2.size → a.l2.slot w = allSlotSet →
    want ≤ a.l1.freeIn (a.passed hint ((w * 64 + 64) * 131072)) * a.l1.l0Granularity

/-- The shape of a state that a call can begin in. -/
structure Shaped (a : AllocatorLevel02) : Prop where
  unit : 0 < a.l1.l0Granularity
  sizes : a.l1.l0.size = a.l1.l1.size * 256
  bound : ∀ e, e < a.l1.l1.size * 32 → e * 512 + 512 ≤ 2 ^ 64 - 1024
  l2 : ∀ p, WordBits.bit a.l2.slot p = true → p < a.l1.l1.size / 8
  fits : a.l1.l1.size / 8 ≤ a.l2.size * 64
  sound : L1Sound a.l1

section Call

variable {fails : Fault → Prop} {want minLength maxAllocSize : Nat} {hint : Int}
  {J J' : Nat → Grant → Prop} {a : AllocatorLevel02}

theorem startPos_mod (a : AllocatorLevel02) (hint : Int) : a.startPos hint % 64 = 0 := by
  have hpos : (if hint > 0 then p2align (hint.toNat / a.l2Granularity) bitsPerSlot else 0) % 64 =
      0 := by
    split
    · exact p2align_mod _ 64
    · rfl
  unfold startPos
  generalize (if hint > 0 then p2align (hint.toNat / a.l2Granularity) bitsPerSlot else 0) = pos at *
  dsimp only
  split
  · rfl
  · exact hpos

theorem startPos_le (a : AllocatorLevel02) (hint : Int) : a.startPos hint ≤ a.l2.size * 64 := by
  unfold startPos
  generalize (if hint > 0 then p2align (hint.toNat / a.l2Granularity) bitsPerSlot else 0) = pos
  dsimp only
  split
  · exact Nat.zero_le _
  · rename_i hlt
    exact (Nat.lt_of_not_le hlt).le

theorem scanned_self (a : AllocatorLevel02) (x : Nat) : a.scanned x x = ∅ := by
  unfold scanned
  rw [Finset.Ico_self, Finset.filter_empty]

/-- The first round can begin. -/
theorem Shaped.first (h : Shaped a) (hwant : a.l1.l0Granularity ∣ want)
    (hc : Contained a want hint) :
    Ready a want ∅ (a.startPos hint * 131072) (a.l2.size * 64 * 131072) := by
  refine ⟨h.unit, hwant, h.sizes, h.bound, h.l2, by simp, fun e hset hlo hhi hcut => ?_,
    fun w hw hall hlo hhi => ?_⟩
  · have := hc.entries e hset hcut
    unfold passed at this
    rwa [if_pos (by lia), ← Finset.empty_union (a.scanned _ _)] at this
  · have := hc.words w hw (by lia) hall
    unfold passed at this
    rwa [if_pos (by lia), ← Finset.empty_union (a.scanned _ _)] at this

/-- So can the second, after the first. -/
theorem Shaped.second (h : Shaped a) (hwant : a.l1.l0Granularity ∣ want)
    (hc : Contained a want hint) :
    Ready a want (a.scanned (a.startPos hint * 131072) (a.l2.size * 64 * 131072)) 0
      (a.startPos hint * 131072) := by
  have hstart := startPos_mod a hint
  have hle := startPos_le a hint
  refine ⟨h.unit, hwant, h.sizes, h.bound, h.l2, fun q hq hlt => ?_, fun e hset hlo hhi hcut => ?_,
    fun w hw hall hlo hhi => ?_⟩
  · have := (mem_scanned.mp hq).1.1
    omega
  · have := hc.entries e hset hcut
    unfold passed at this
    rwa [if_neg (by lia)] at this
  · have := hc.words w hw (by lia) hall
    unfold passed at this
    rwa [if_neg (by lia)] at this

/-- The start of a call. -/
theorem Shaped.start (h : Shaped a) (want : Nat) {x : Nat} {res : List PExtent} (hj : J x ⟨0, res⟩) :
    Sweep a.l1 want J ∅ x a.l1 ⟨0, res⟩ := by
  refine ⟨rfl, rfl, rfl, h.sound, fun q => by simp, fun _ _ => rfl, ?_, Nat.zero_le _,
    Nat.dvd_zero _, hj⟩
  simp [freeIn]

theorem Scan.withAvailable {a₀ : AllocatorLevel02} {D : Finset Nat} {x : Nat} {g : Grant}
    (h : Scan a₀ want J D x a g) (n : Nat) : Scan a₀ want J D x { a with available := n } g :=
  ⟨h.sweep, h.l2Size, h.l2Granularity, h.kept, h.emptied⟩

/-- What a call leaves behind: it has all that is wanted, or has taken all it
could see. `J` is kept in the first round and `J'` in the second. -/
def Outcome (a : AllocatorLevel02) (want : Nat) (hint : Int) (J J' : Nat → Grant → Prop)
    (r : Int × Grant × AllocatorLevel02) : Prop :=
  (r.1 = 0 ∧ (Finished a want J ∅ (a.startPos hint * 131072) (a.l2.size * 64 * 131072) r.2.2 r.2.1 ∨
      Finished a want J' (a.scanned (a.startPos hint * 131072) (a.l2.size * 64 * 131072)) 0
        (a.startPos hint * 131072) r.2.2 r.2.1)) ∨
    (Scan a want J' (a.scanned (a.startPos hint * 131072) (a.l2.size * 64 * 131072) ∪
        a.scanned 0 (a.startPos hint * 131072)) (a.startPos hint * 131072) r.2.2 r.2.1 ∧
      (r.1 = if 0 < r.2.1.allocated then 0 else -enospc) ∧
      r.2.2.available =
        if 0 < r.2.1.allocated then sub64 a.available r.2.1.allocated else a.available)

/-- `_allocate_l2` in terms of its two rounds. -/
theorem allocateL2_rounds (a : AllocatorLevel02) (want minLength maxAllocSize : Nat) (hint : Int)
    (g : Grant) : a.allocateL2 want minLength maxAllocSize hint g =
      (scanRound want (maxRun minLength maxAllocSize) (a.l2.size * bitsPerSlot)
        (a.l2.size * bitsPerSlot) (a.startPos hint) g a >>= fun r =>
      if r.1 then .ok (0, r.2.1, r.2.2)
      else
        scanRound want (maxRun minLength maxAllocSize) (a.startPos hint) (a.l2.size * bitsPerSlot) 0
          r.2.1 r.2.2 >>= fun r =>
        if r.1 then .ok (0, r.2.1, r.2.2)
        else if r.2.1.allocated > 0 then
          .ok (0, r.2.1, { r.2.2 with available := sub64 r.2.2.available r.2.1.allocated })
        else .ok (-enospc, r.2.1, r.2.2)) := by
  unfold allocateL2 maxRun startPos
  rfl

/-- `_allocate_l2` in a state that contains the call. -/
theorem allocateL2_sweep (h : Shaped a) (hwant : a.l1.l0Granularity ∣ want)
    (hc : Contained a want hint)
    (hJ : Follows a.visible a.seen a.l1.l0Granularity want (maxRun minLength maxAllocSize) J)
    (hJ' : Follows a.visible a.seen a.l1.l0Granularity want (maxRun minLength maxAllocSize) J')
    (hwrap : ∀ g, J (a.l2.size * 64 * 131072) g → J' 0 g)
    (hmax : MaxFits fails (min want (512 * a.l1.l0Granularity)) (maxRun minLength maxAllocSize))
    {res : List PExtent}
    (hj : J (a.startPos hint * 131072) ⟨0, res⟩) :
    Returns fails (a.allocateL2 want minLength maxAllocSize hint ⟨0, res⟩) (Outcome a want hint J J') ∧
      Inside a want minLength maxAllocSize hint ⟨0, res⟩ := by
  have hmod := startPos_mod a hint
  have hle := startPos_le a hint
  obtain ⟨w, hw⟩ : ∃ w, a.startPos hint = w * 64 := ⟨a.startPos hint / 64, by omega⟩
  have hstart : At a want J ∅ (a.startPos hint * 131072) (w * 64) a ⟨0, res⟩ := by
    have hnone : (∅ : Finset Nat) ∪ a.scanned (a.startPos hint * 131072) (w * 64 * 131072) = ∅ := by
      rw [hw, scanned_self, Finset.empty_union]
    refine ⟨⟨?_, rfl, rfl, fun _ hp => hp, fun p hp hclear => ?_⟩, fun _ _ => rfl, rfl⟩
    · rw [hnone, ← hw]
      exact h.start want hj
    · rw [hp] at hclear
      cases hclear
  have hfirst := scanRound_sweep (n := a.l2.size * 64) (h.first hwant hc) hJ hmax
    (Nat.mul_mod_left _ _) le_rfl (by omega) (by omega) (by rw [hw]) hstart
  rw [← hw] at hfirst
  have hsecond : ∀ {g' a'}, scanRound want (maxRun minLength maxAllocSize) (a.l2.size * 64)
      (a.l2.size * 64) (a.startPos hint) ⟨0, res⟩ a = .ok (false, g', a') →
      Returns fails (scanRound want (maxRun minLength maxAllocSize) (a.startPos hint)
          (a.l2.size * 64) 0 g' a')
        (Left a want J' (a.scanned (a.startPos hint * 131072) (a.l2.size * 64 * 131072)) 0
          (a.startPos hint)) ∧
        RoundInside want (maxRun minLength maxAllocSize) (a.startPos hint) (a.l2.size * 64) 0 g'
          a' := by
    intro g' a' hok
    obtain ⟨⟨hsweep, hsize, hgran, hkept, hemptied⟩, hahead, havail⟩ :
      At a want J ∅ (a.startPos hint * 131072) (a.l2.size * 64) a' g' := hfirst.1.of_ok hok
    rw [Finset.empty_union] at hsweep hahead
    have hat : At a want J' (a.scanned (a.startPos hint * 131072) (a.l2.size * 64 * 131072)) 0
        (0 * 64) a' g' := by
      refine ⟨⟨?_, hsize, hgran, hkept, hemptied⟩, ?_, havail⟩
      · rw [Nat.zero_mul, scanned_self, Finset.union_empty]
        exact ⟨hsweep.l0Size, hsweep.l1Size, hsweep.unit, hsweep.sound, hsweep.bit, hsweep.entry,
          hsweep.counted, hsweep.le, hsweep.dvd, hwrap _ hsweep.follows⟩
      · rw [Nat.zero_mul, scanned_self, Finset.union_empty]
        exact hahead
    have hround := scanRound_sweep (n := a.l2.size * 64) (h.second hwant hc) hJ' hmax hmod hle
      (by omega) (by omega) (Nat.zero_le _) hat
    rwa [Nat.zero_mul] at hround
  constructor
  · rw [allocateL2_rounds]
    refine hfirst.1.bind ?_
    rintro ⟨done, g', a'⟩ hok hleft
    cases done with
    | true =>
        have hfinished : Finished a want J ∅ (a.startPos hint * 131072) (a.l2.size * 64 * 131072)
          a' g' := hleft
        dsimp only
        rw [if_pos rfl]
        exact Returns.ok (Or.inl ⟨rfl, Or.inl hfinished⟩)
    | false =>
        have hround := (hsecond hok).1
        dsimp only
        rw [if_neg Bool.false_ne_true]
        refine hround.bind ?_
        rintro ⟨done', g'', a''⟩ - hleft'
        cases done' with
        | true =>
            have hfinished : Finished a want J'
              (a.scanned (a.startPos hint * 131072) (a.l2.size * 64 * 131072)) 0
              (a.startPos hint * 131072) a'' g'' := hleft'
            dsimp only
            rw [if_pos rfl]
            exact Returns.ok (Or.inl ⟨rfl, Or.inr hfinished⟩)
        | false =>
            obtain ⟨hscan, -, havail⟩ :
              At a want J' (a.scanned (a.startPos hint * 131072) (a.l2.size * 64 * 131072)) 0
                (a.startPos hint) a'' g'' := hleft'
            dsimp only
            rw [if_neg Bool.false_ne_true, havail]
            by_cases hpos : g''.allocated > 0
            · have hscan' := hscan.withAvailable (sub64 a.available g''.allocated)
              rw [if_pos hpos]
              generalize hv : sub64 a.available g''.allocated = v at hscan' ⊢
              refine Returns.ok (Or.inr ⟨hscan', (if_pos hpos).symm, ?_⟩)
              rw [if_pos hpos, hv]
            · rw [if_neg hpos]
              exact Returns.ok
                (Or.inr ⟨hscan, (if_neg hpos).symm, havail.trans (if_neg hpos).symm⟩)
  · exact ⟨hfirst.2, fun g' a' hok => (hsecond hok).2⟩

end Call

end AllocatorLevel02

end Clab.Blk
