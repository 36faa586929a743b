import Clab.Blk.BitmapCoherence
import Clab.Lib.Outcome

/-!
# How a call sweeps over the free units

A call of `allocate` passes over the units of the regions whose L2 bit is set,
in order from the hint on and then from the start. As long as no run leaves the
entry it was found in, the units passed are taken, the others are as they were,
and the call ends early only when it has all that was wanted.
-/

namespace Clab.Blk

open Clab.Common Clab.WordBits Clab.Outcome

namespace AllocatorLevel01Loose

/-! ## Emplacing -/

section Emplace

variable {fails : Fault → Prop} {longest maxLength : Nat}

/-- No piece of at most `longest` bytes is 4 GiB long, or the assertion on the length
of an extent may fail. -/
def MaxFits (fails : Fault → Prop) (longest maxLength : Nat) : Prop :=
  fails .assertFail ∨ 0 < maxLength ∧ min longest maxLength < 2 ^ 32

theorem emplaceLoop_returns (hmax : MaxFits fails longest maxLength) (n offset len : Nat)
    (g : Grant) (hlen : len ≤ longest) :
    Returns fails (emplaceLoop maxLength n offset len g) fun _ => True := by
  induction n generalizing offset len g with
  | zero => exact trivial
  | succ n ih =>
      unfold emplaceLoop
      split
      · dsimp only
        generalize hchunk : (if maxLength > 0 ∧ len > maxLength then maxLength else len) = chunk
        by_cases hbig : chunk > 2 ^ 32 - 1
        · rw [if_pos hbig]
          refine hmax.resolve_right ?_
          rintro ⟨hpos, hlt⟩
          split at hchunk <;> omega
        · rw [if_neg hbig]
          exact ih _ _ _ (by omega)
      · exact trivial

theorem fragmentAndEmplace_returns (hmax : MaxFits fails longest maxLength) (offset len : Nat)
    (g : Grant) (hlen : len ≤ longest) :
    Returns fails (fragmentAndEmplace maxLength offset len g)
      fun g' => g'.allocated = g.allocated + len := by
  have hreturns : Returns fails (fragmentAndEmplace maxLength offset len g) fun _ => True := by
    unfold fragmentAndEmplace
    split
    · exact emplaceLoop_returns hmax _ _ _ _ hlen
    · split
      · dsimp only
        split
        · exact trivial
        · split
          · exact emplaceLoop_returns hmax _ _ _ _ (by omega)
          · exact emplaceLoop_returns hmax _ _ _ _ hlen
      · exact emplaceLoop_returns hmax _ _ _ _ hlen
  cases hx : fragmentAndEmplace maxLength offset len g with
  | ok g' => exact (fragmentAndEmplace_spec hx).1
  | error e =>
      rw [hx] at hreturns
      exact hreturns

end Emplace

/-! ## One entry, run by run -/

/-- What a call keeps while it moves on: `J x g` holds when all units before `x`
are passed. Units that are not free may be skipped, a free run or a FREE entry
may be taken. -/
structure Follows (v : Nat → Bool) (entry : Nat → Slot) (granularity want maxLength : Nat)
    (J : Nat → Grant → Prop) : Prop where
  skip : ∀ {x y g}, J x g → x ≤ y → (∀ q, x ≤ q → q < y → v q = false) → J y g
  take : ∀ {x n g g'}, J x g →
    (∀ q, x ≤ q → q < x + n → v q = true) ∨ n = 512 ∧ x % 512 = 0 ∧ entry (x / 512) = L1_ENTRY_FREE →
    n * granularity ≤ want - g.allocated →
    fragmentAndEmplace maxLength (x * granularity) (n * granularity) g = .ok g' → J (x + n) g'

/-- A run that reaches the end of the range, where the next unit is free or the
vector ends, is as long as needed there. -/
def Room (l : AllocatorLevel01Loose) (p l0End need : Nat) : Prop :=
  l.bit (l0End - 1) = true → l.l0.size * 64 ≤ l0End ∨ l.bit l0End = true →
    need ≤ ((Finset.Ico p l0End).filter fun q => l.bit q = true).card

/-- Where the loop over the runs of `[p, l0End)` stops. -/
structure Stopped (J : Nat → Grant → Prop) (l : AllocatorLevel01Loose) (p l0End need : Nat)
    (g : Grant) (y need' : Nat) (g' : Grant) (l' : AllocatorLevel01Loose) : Prop where
  same : SameL1 l l'
  from_le : p ≤ y
  le_end : y ≤ l0End
  bit : ∀ q, l'.bit q = if p ≤ q ∧ q < y then false else l.bit q
  taken : need = need' + ((Finset.Ico p y).filter fun q => l.bit q = true).card
  allocated : g'.allocated = g.allocated + (need - need') * l.l0Granularity
  follows : J y g'
  ends : need' = 0 ∨ y = l0End

section Runs

variable {fails : Fault → Prop} {maxLength want l0End : Nat} {v : Nat → Bool} {entry : Nat → Slot}
  {J : Nat → Grant → Prop}

theorem card_filter_split {p m y : Nat} (b : Nat → Bool) (hpm : p ≤ m) (hmy : m ≤ y) :
    ((Finset.Ico p y).filter fun q => b q = true).card =
      ((Finset.Ico p m).filter fun q => b q = true).card +
        ((Finset.Ico m y).filter fun q => b q = true).card := by
  rw [← Finset.Ico_union_Ico_eq_Ico hpm hmy, Finset.filter_union, Finset.card_union_of_disjoint]
  exact Finset.disjoint_filter_filter (Finset.Ico_disjoint_Ico_consecutive p m y)

theorem card_filter_none {p y : Nat} {b : Nat → Bool} (h : ∀ q, p ≤ q → q < y → b q = false) :
    ((Finset.Ico p y).filter fun q => b q = true).card = 0 := by
  rw [Finset.card_eq_zero, Finset.filter_eq_empty_iff]
  intro q hq
  rw [Finset.mem_Ico] at hq
  rw [h q hq.1 hq.2]
  decide

theorem card_filter_all {p y : Nat} {b : Nat → Bool} (h : ∀ q, p ≤ q → q < y → b q = true) :
    ((Finset.Ico p y).filter fun q => b q = true).card = y - p := by
  rw [Finset.filter_true_of_mem, Nat.card_Ico]
  intro q hq
  rw [Finset.mem_Ico] at hq
  exact h q hq.1 hq.2

theorem card_filter_congr {p y : Nat} {b b' : Nat → Bool} (h : ∀ q, p ≤ q → q < y → b q = b' q) :
    ((Finset.Ico p y).filter fun q => b q = true).card =
      ((Finset.Ico p y).filter fun q => b' q = true).card := by
  congr 1
  refine Finset.filter_congr fun q hq => ?_
  rw [Finset.mem_Ico] at hq
  rw [h q hq.1 hq.2]

/-- Nothing is free up to `m`: the loop goes on from there. -/
theorem Stopped.skip {l l' : AllocatorLevel01Loose} {p m need y need' : Nat} {g g' : Grant}
    (h : Stopped J l m l0End need g y need' g' l') (hpm : p ≤ m)
    (hclear : ∀ q, p ≤ q → q < m → l.bit q = false) :
    Stopped J l p l0End need g y need' g' l' := by
  refine ⟨h.same, hpm.trans h.from_le, h.le_end, fun q => ?_, ?_, h.allocated, h.follows, h.ends⟩
  · rw [h.bit]
    by_cases hq : m ≤ q ∧ q < y
    · rw [if_pos hq, if_pos (by omega)]
    · rw [if_neg hq]
      by_cases hp : p ≤ q ∧ q < y
      · rw [if_pos hp]
        exact hclear q hp.1 (by omega)
      · rw [if_neg hp]
  · rw [card_filter_split l.bit hpm h.from_le, card_filter_none hclear, Nat.zero_add]
    exact h.taken

theorem Room.skip {l : AllocatorLevel01Loose} {p m need : Nat} (h : Room l p l0End need)
    (hpm : p ≤ m) (hm : m ≤ l0End) (hclear : ∀ q, p ≤ q → q < m → l.bit q = false) :
    Room l m l0End need := by
  intro hlast hnext
  have := h hlast hnext
  rwa [card_filter_split l.bit hpm hm, card_filter_none hclear, Nat.zero_add] at this

/-- The search for the end of a run leaves the vector only when the rest of it is
free and more is asked for. -/
theorem runEnd_error {l0 : SlotVector} {n e : Nat} {f : Fault} (h : runEnd l0 n e = .error f)
    (he : e ≤ l0.size * 64) :
    (∀ q, e ≤ q → q < l0.size * 64 → WordBits.bit l0.slot q = true) ∧ l0.size * 64 < e + n := by
  induction n generalizing e with
  | zero => cases h
  | succ n ih =>
      unfold runEnd bitsPerSlot at h
      split at h
      · split at h
        · rename_i hin hself
          have hset : WordBits.bit l0.slot e = true := findNextSetBit_eq_self_iff.mp hself
          obtain ⟨hall, hlong⟩ := ih h (by omega)
          refine ⟨fun q hq hlt => ?_, by omega⟩
          rcases Nat.eq_or_lt_of_le hq with rfl | hgt
          · exact hset
          · exact hall q hgt hlt
        · cases h
      · exact ⟨fun q hq hlt => by omega, by omega⟩

theorem markAllocL0_ok (l : AllocatorLevel01Loose) {s e : Nat} (he : e ≤ l.l0.size * 64) :
    ∃ l', l.markAllocL0 s e = .ok l' := by
  unfold markAllocL0 onL0 bitsPerSlot
  rw [if_neg (by omega)]
  exact ⟨_, rfl⟩

/-- The run found from `s` on. -/
theorem run_spec {l : AllocatorLevel01Loose} {s e need : Nat} (h : runEnd l.l0 need s = .ok e) :
    s ≤ e ∧ e ≤ s + need ∧ (∀ q, s ≤ q → q < e → l.bit q = true) ∧
      (e = s + need ∨ l.bit e = false) :=
  runEnd_spec h

/-- With room no run leaves the range. -/
theorem Room.runEnd_le {l : AllocatorLevel01Loose} {s e need : Nat} (h : Room l s l0End need)
    (hs : s < l0End) (hrun : runEnd l.l0 need s = .ok e) : e ≤ l0End := by
  obtain ⟨hle, hmax, hset, -⟩ := run_spec hrun
  by_contra hgt
  have hneed := h (hset _ (by omega) (by omega)) (Or.inr (hset _ (by omega) (by omega)))
  rw [card_filter_all fun q hq hlt => hset q hq (by omega)] at hneed
  omega

/-- With room the search for the end of a run returns. -/
theorem Room.runEnd_ok {l : AllocatorLevel01Loose} {s need : Nat} (h : Room l s l0End need)
    (hs : s < l0End) (hsize : l0End ≤ l.l0.size * 64) : ∃ e, runEnd l.l0 need s = .ok e := by
  cases hrun : runEnd l.l0 need s with
  | ok e => exact ⟨e, rfl⟩
  | error f =>
      obtain ⟨hall, hlong⟩ := runEnd_error hrun (by omega)
      have hset : ∀ q, s ≤ q → q < l0End → l.bit q = true := fun q hq hlt => hall q hq (by omega)
      have hneed := h (hset _ (by omega) (by omega)) (by
        by_cases hend : l.l0.size * 64 ≤ l0End
        · exact Or.inl hend
        · exact Or.inr (hall _ (by omega) (by omega)))
      rw [card_filter_all hset] at hneed
      omega

/-- A run taken leaves room for the rest. -/
theorem Room.taken {l l₁ : AllocatorLevel01Loose} {s e need : Nat} (h : Room l s l0End need)
    (hse : s ≤ e) (he : e ≤ l0End) (hset : ∀ q, s ≤ q → q < e → l.bit q = true)
    (hsize : l₁.l0.size = l.l0.size)
    (hbit : ∀ q, l₁.bit q = if s ≤ q ∧ q < e then false else l.bit q) :
    Room l₁ e l0End (need - (e - s)) := by
  intro hlast hnext
  have hshrink : ∀ q, l₁.bit q = true → l.bit q = true := by
    intro q hq
    rw [hbit] at hq
    split at hq
    · cases hq
    · exact hq
  have hneed := h (hshrink _ hlast) (hnext.imp (fun hend => by omega) (hshrink _))
  rw [card_filter_split l.bit hse he, card_filter_all hset] at hneed
  have hrest : ∀ q, e ≤ q → q < l0End → l₁.bit q = l.bit q := by
    intro q hq _
    rw [hbit, if_neg (by omega)]
  rw [card_filter_congr hrest]
  omega

/-- The loop of `_allocate_l0` passes its units in order and takes the free ones. -/
theorem allocateL0Loop_sweep {granularity : Nat}
    (hJ : Follows v entry granularity want maxLength J)
    (hmax : MaxFits fails (min want (512 * granularity)) maxLength) (h64 : l0End % 64 = 0) {n p need : Nat} {g : Grant} {l : AllocatorLevel01Loose}
    (hg : l.l0Granularity = granularity) (hn : l0End ≤ p + n) (hp : p ≤ l0End) (h512 : l0End ≤ p + 512)
    (hsize : l0End ≤ l.l0.size * 64) (hv : ∀ q, p ≤ q → q < l0End → l.bit q = v q)
    (hroom : Room l p l0End need) (hneed : need * granularity ≤ want - g.allocated) (hj : J p g) :
    Returns fails (allocateL0Loop maxLength l0End n p need g l)
      fun r => ∃ y, Stopped J l p l0End need g y r.1 r.2.1 r.2.2 := by
  induction n generalizing p need g l with
  | zero =>
      have hend : p = l0End := by omega
      refine ⟨p, SameL1.refl l, le_rfl, hp, fun q => ?_, by simp, by simp, hj, Or.inr hend⟩
      rw [if_neg (by omega)]
  | succ n ih =>
      unfold allocateL0Loop
      by_cases hgo : p < l0End ∧ need > 0
      swap
      · rw [if_neg hgo]
        refine ⟨p, SameL1.refl l, le_rfl, hp, fun q => ?_, by simp, by simp, hj, by omega⟩
        rw [if_neg (by omega)]
      rw [if_pos hgo]
      unfold bitsPerSlot
      rw [if_neg (by omega)]
      dsimp only
      -- nothing free up to `m`: go on from there
      have hskip : ∀ m, p < m → m ≤ l0End → (∀ q, p ≤ q → q < m → l.bit q = false) →
          Returns fails (allocateL0Loop maxLength l0End n m need g l)
            fun r => ∃ y, Stopped J l p l0End need g y r.1 r.2.1 r.2.2 := by
        intro m hpm hm hclear
        have hjm : J m g := hJ.skip hj hpm.le fun q hq hlt => by
          rw [← hv q hq (by omega), hclear q hq hlt]
        refine (ih hg (by omega) hm (by omega) hsize (fun q hq hlt => hv q (by omega) hlt)
          (hroom.skip hpm.le hm hclear) hneed hjm).mono ?_
        rintro r ⟨y, hy⟩
        exact ⟨y, hy.skip hpm.le hclear⟩
      by_cases hzero : l.l0.slot (p / 64) = allSlotClear
      · rw [if_pos hzero]
        refine hskip _ (by omega) (by omega) fun q hq hlt => ?_
        have hbit := slot_eq_clear_iff.mp hzero (q % 64) (Nat.mod_lt q (by decide))
        unfold AllocatorLevel01Loose.bit WordBits.bit
        rwa [show q / 64 = p / 64 by omega]
      rw [if_neg hzero]
      cases hfind : findNextSetBit (l.l0.slot (p / 64)) (p % 64) with
      | none =>
          refine hskip _ (by omega) (by omega) fun q hq hlt => ?_
          have hbit := findNextSetBit_none hfind (q % 64) (by omega)
          unfold AllocatorLevel01Loose.bit WordBits.bit
          rwa [show q / 64 = p / 64 by omega]
      | some b =>
          dsimp only
          obtain ⟨hb₁, hb₂, hbset, hbmin⟩ := findNextSetBit_some hfind
          generalize hs : p / 64 * 64 + b = s
          have hdiv : s / 64 = p / 64 := by omega
          have hmod : s % 64 = b := by omega
          have hsset : l.bit s = true := by
            unfold AllocatorLevel01Loose.bit WordBits.bit
            rw [hdiv, hmod]
            exact hbset
          have hclear : ∀ q, p ≤ q → q < s → l.bit q = false := by
            intro q hq hlt
            unfold AllocatorLevel01Loose.bit WordBits.bit
            rw [show q / 64 = p / 64 by omega]
            exact hbmin _ (by omega) (by omega)
          have hroom' := hroom.skip (show p ≤ s by omega) (by omega) hclear
          obtain ⟨e, hrun⟩ := hroom'.runEnd_ok (by omega) hsize
          have hend := hroom'.runEnd_le (by omega) hrun
          obtain ⟨hle, hlong, hset, hstop⟩ := run_spec hrun
          have hlt : s < e := by
            rcases hstop with hstop | hstop
            · omega
            · rcases Nat.eq_or_lt_of_le hle with rfl | hlt
              · rw [hsset] at hstop
                cases hstop
              · exact hlt
          rw [hrun]
          show Returns fails (fragmentAndEmplace maxLength _ _ g >>= _) _
          rw [show min (e - s) need = e - s by omega, hg]
          have hmul : (e - s) * granularity ≤ need * granularity :=
            Nat.mul_le_mul_right _ (by omega)
          have hlong' : (e - s) * granularity ≤ 512 * granularity :=
            Nat.mul_le_mul_right _ (by omega)
          refine (fragmentAndEmplace_returns hmax _ _ g (by omega)).bind fun g₁ hemp hcount => ?_
          have hjs : J s g := hJ.skip hj (by omega) fun q hq hlt' => by
            rw [← hv q hq (by omega), hclear q hq hlt']
          have hje : J (s + (e - s)) g₁ := hJ.take hjs
            (Or.inl fun q hq hlt' => by rw [← hv q (by omega) (by omega)]; exact hset q hq (by omega))
            (by omega) hemp
          obtain ⟨l₁, hmark⟩ := l.markAllocL0_ok (s := s) (e := s + (e - s)) (by omega)
          rw [hmark]
          obtain ⟨hsame, -, hbit⟩ := markAllocL0_spec hmark
          rw [show s + (e - s) = e by omega] at hbit hje ⊢
          have hrest := @ih e (need - (e - s)) g₁ l₁ (hsame.l0Granularity.trans hg) (by omega) hend
            (by omega) (by rw [hsame.l0Size]; exact hsize)
            (fun q hq hlt' => by rw [hbit, if_neg (by omega)]; exact hv q (by omega) hlt')
            (hroom'.taken hle hend hset hsame.l0Size hbit)
            (by rw [Nat.sub_mul, hcount]; omega) hje
          refine hrest.mono ?_
          rintro r ⟨y, hy⟩
          have hfrom := hy.from_le
          refine ⟨y, hsame.trans hy.same, by omega, hy.le_end, fun q => ?_, ?_, ?_, hy.follows,
            hy.ends⟩
          · rw [hy.bit, hbit]
            by_cases hq : e ≤ q ∧ q < y
            · rw [if_pos hq, if_pos (by omega)]
            · rw [if_neg hq]
              by_cases hq' : s ≤ q ∧ q < e
              · rw [if_pos hq', if_pos (by omega)]
              · rw [if_neg hq']
                by_cases hpq : p ≤ q ∧ q < y
                · rw [if_pos hpq]
                  exact hclear q hpq.1 (by omega)
                · rw [if_neg hpq]
          · have htaken := hy.taken
            have hrest' : ∀ q, e ≤ q → q < y → l₁.bit q = l.bit q := by
              intro q hq _
              rw [hbit, if_neg (by omega)]
            rw [card_filter_congr hrest'] at htaken
            rw [card_filter_split l.bit (show p ≤ s by omega) (show s ≤ y by omega),
              card_filter_none hclear, card_filter_split l.bit hle hfrom, card_filter_all hset]
            omega
          · have htaken := hy.taken
            have hcount' := hy.allocated
            rw [hsame.l0Granularity] at hcount'
            rw [hcount', hcount, ← hg, Nat.add_assoc, ← Nat.add_mul]
            congr 2
            omega

end Runs

/-! ## Entry by entry -/

/-- The free units among `D`. -/
def freeIn (l : AllocatorLevel01Loose) (D : Finset Nat) : Nat :=
  (D.filter fun q => l.bit q = true).card

/-- Entry `e` is not free as a whole, and a free run leads out of it or up to the
end of the vector. -/
def Cut (l : AllocatorLevel01Loose) (e : Nat) : Prop :=
  l.bit (e * 512 + 511) = true ∧
    (l.l0.size * 64 ≤ e * 512 + 512 ∨ l.bit (e * 512 + 512) = true) ∧
    ∃ q, q / 512 = e ∧ l.bit q = false

/-- The state `l` and the grant `g` of a call that began in `l₀`, wants `want`
bytes, has passed the units `D` and goes on at `x`. -/
structure Sweep (l₀ : AllocatorLevel01Loose) (want : Nat) (J : Nat → Grant → Prop)
    (D : Finset Nat) (x : Nat) (l : AllocatorLevel01Loose) (g : Grant) : Prop where
  l0Size : l.l0.size = l₀.l0.size
  l1Size : l.l1.size = l₀.l1.size
  unit : l.l0Granularity = l₀.l0Granularity
  sound : L1Sound l
  bit : ∀ q, l.bit q = if q ∈ D then false else l₀.bit q
  entry : ∀ e, e * 512 ∉ D → l.entry e = l₀.entry e
  counted : l₀.freeIn D * l₀.l0Granularity ≤ g.allocated
  le : g.allocated ≤ want
  dvd : l₀.l0Granularity ∣ g.allocated
  follows : J x g

section Entries

variable {fails : Fault → Prop} {maxLength want e : Nat} {v : Nat → Bool} {entry : Nat → Slot}
  {J : Nat → Grant → Prop} {l₀ l l' : AllocatorLevel01Loose} {D : Finset Nat} {x : Nat}
  {g g' : Grant}

theorem freeIn_union (l : AllocatorLevel01Loose) {D : Finset Nat} {s y : Nat}
    (h : ∀ q, s ≤ q → q < y → q ∉ D) :
    l.freeIn (D ∪ Finset.Ico s y) =
      l.freeIn D + ((Finset.Ico s y).filter fun q => l.bit q = true).card := by
  unfold freeIn
  rw [Finset.filter_union, Finset.card_union_of_disjoint]
  refine Finset.disjoint_filter_filter (Finset.disjoint_left.mpr fun q hq hin => ?_)
  rw [Finset.mem_Ico] at hin
  exact h q hin.1 hin.2 hq

theorem Sweep.bit_of_notMem (h : Sweep l₀ want J D x l g) {q : Nat} (hq : q ∉ D) :
    l.bit q = l₀.bit q := by
  rw [h.bit, if_neg hq]

theorem Sweep.shrinks (h : Sweep l₀ want J D x l g) {q : Nat} (hq : l.bit q = true) :
    l₀.bit q = true := by
  rw [h.bit] at hq
  split at hq
  · cases hq
  · exact hq

/-- A FULL entry is passed. -/
theorem Sweep.full (h : Sweep l₀ want J D x l g)
    (hJ : Follows v entry l₀.l0Granularity want maxLength J) (hx : x = e * 512)
    (hv : ∀ q, x ≤ q → q < x + 512 → v q = l₀.bit q)
    (hnew : ∀ q, x ≤ q → q < x + 512 → q ∉ D) (hfull : l.entry e = L1_ENTRY_FULL) :
    Sweep l₀ want J (D ∪ Finset.Ico x (x + 512)) (x + 512) l g := by
  have hclear : ∀ q, x ≤ q → q < x + 512 → l.bit q = false := fun q hq hlt =>
    h.sound.full e hfull q (by omega)
  have hclear₀ : ∀ q, x ≤ q → q < x + 512 → l₀.bit q = false := fun q hq hlt => by
    rw [← h.bit_of_notMem (hnew q hq hlt), hclear q hq hlt]
  have hcount : l₀.freeIn (D ∪ Finset.Ico x (x + 512)) = l₀.freeIn D := by
    rw [freeIn_union l₀ hnew, card_filter_none hclear₀, Nat.add_zero]
  refine ⟨h.l0Size, h.l1Size, h.unit, h.sound, fun q => ?_, fun i hi => ?_, ?_, h.le,
    h.dvd, hJ.skip h.follows (by omega) fun q hq hlt => (hv q hq hlt).trans (hclear₀ q hq hlt)⟩
  · by_cases hq : x ≤ q ∧ q < x + 512
    · rw [if_pos (Finset.mem_union_right _ (Finset.mem_Ico.mpr hq)), hclear q hq.1 hq.2]
    · rw [h.bit]
      simp only [Finset.mem_union, Finset.mem_Ico, hq, or_false]
  · exact h.entry i fun hmem => hi (Finset.mem_union_left _ hmem)
  · rw [hcount]
    exact h.counted

/-- A FREE entry is taken as a whole. -/
theorem Sweep.whole (h : Sweep l₀ want J D x l g)
    (hJ : Follows v entry l₀.l0Granularity want maxLength J) (hx : x = e * 512)
    (hnew : ∀ q, x ≤ q → q < x + 512 → q ∉ D) (hfree : l.entry e = L1_ENTRY_FREE)
    (hentry : entry e = l₀.entry e) (hrem : 512 * l₀.l0Granularity ≤ want - g.allocated)
    (hemp : fragmentAndEmplace maxLength (x * l₀.l0Granularity) (512 * l₀.l0Granularity) g = .ok g')
    (hin : x + 512 ≤ 2 ^ 64 - 1024) (hmark : l.markAllocL1L0 x (x + 512) = .ok l')
    (hl1 : l'.l1.size = l.l1.size) :
    Sweep l₀ want J (D ∪ Finset.Ico x (x + 512)) (x + 512) l' g' := by
  obtain ⟨hcount, -⟩ := fragmentAndEmplace_spec hemp
  obtain ⟨hshape, -, hbit, hent⟩ := markAllocL1L0_spec hin hmark
  have hent₀ : l₀.entry e = L1_ENTRY_FREE := by
    rw [← h.entry e (by rw [← hx]; exact hnew x le_rfl (by omega)), hfree]
  have hle : ((Finset.Ico x (x + 512)).filter fun q => l₀.bit q = true).card ≤ 512 := by
    refine (Finset.card_filter_le _ _).trans ?_
    rw [Nat.card_Ico]
    omega
  refine ⟨hshape.l0Size.trans h.l0Size, hl1.trans h.l1Size, hshape.l0Granularity.trans h.unit,
    h.sound.of_refreshed (fun q hq => by rw [hbit, if_neg hq]) hent, fun q => ?_, fun i hi => ?_,
    ?_, ?_, ?_, hJ.take h.follows (Or.inr ⟨rfl, by omega, ?_⟩) hrem hemp⟩
  · rw [hbit, h.bit]
    by_cases hq : x ≤ q ∧ q < x + 512
    · rw [if_pos hq, if_pos (Finset.mem_union_right _ (Finset.mem_Ico.mpr hq))]
    · rw [if_neg hq]
      simp only [Finset.mem_union, Finset.mem_Ico, hq, or_false]
  · have hne : i ≠ e := by
      rintro rfl
      exact hi (Finset.mem_union_right _ (Finset.mem_Ico.mpr (by omega)))
    rw [hent i, if_neg (by omega)]
    exact h.entry i fun hmem => hi (Finset.mem_union_left _ hmem)
  · rw [freeIn_union l₀ hnew, hcount, Nat.add_mul]
    exact Nat.add_le_add h.counted (Nat.mul_le_mul_right _ hle)
  · rw [hcount]
    have := h.le
    omega
  · rw [hcount]
    exact Nat.dvd_add h.dvd (Nat.dvd_mul_left _ _)
  · rw [hx, Nat.mul_div_cancel _ (by decide), hentry, hent₀]

/-- There is room in an entry that is cut only after all that is wanted. -/
theorem Sweep.room (h : Sweep l₀ want J D x l g) (hx : x = e * 512)
    (hnew : ∀ q, x ≤ q → q < x + 512 → q ∉ D) (hu : 0 < l₀.l0Granularity)
    (hfull : l.entry e ≠ L1_ENTRY_FULL)
    (hslow : ¬ (l.entry e = L1_ENTRY_FREE ∧ want - g.allocated ≥ 512 * l₀.l0Granularity))
    (hcut : Cut l₀ e → want ≤ l₀.freeIn (D ∪ Finset.Ico x (x + 512)) * l₀.l0Granularity) :
    Room l x (x + 512) ((want - g.allocated) / l₀.l0Granularity) := by
  intro hlast hnext
  have hbits : ∀ q, x ≤ q → q < x + 512 → l.bit q = l₀.bit q := fun q hq hlt =>
    h.bit_of_notMem (hnew q hq hlt)
  rw [show x + 512 - 1 = e * 512 + 511 by omega] at hlast
  rw [h.l0Size] at hnext
  rw [card_filter_congr hbits]
  by_cases hall : ∀ q, q / 512 = e → l₀.bit q = true
  · -- all of it is free, so less than an entry is wanted
    rw [card_filter_all fun q hq hlt => hall q (by omega)]
    have hfree : l.entry e = L1_ENTRY_FREE := by
      rcases h.sound.values e with hv | hv | hv
      · exact absurd hv hfull
      · obtain ⟨q, hq, hclear⟩ := h.sound.partly e hv
        rw [hbits q (by omega) (by omega), hall q hq] at hclear
        cases hclear
      · exact hv
    have hfew : want - g.allocated < 512 * l₀.l0Granularity := by
      by_contra hge
      exact hslow ⟨hfree, by omega⟩
    have := (Nat.div_lt_iff_lt_mul hu).mpr hfew
    omega
  · push Not at hall
    obtain ⟨q, hq, hne⟩ := hall
    have hwant := hcut ⟨h.shrinks hlast, by
      rw [← hx]
      exact hnext.imp id h.shrinks, q, hq, by simpa using hne⟩
    rw [freeIn_union l₀ hnew, Nat.add_mul] at hwant
    have hcounted := h.counted
    refine Nat.div_le_of_le_mul ?_
    rw [Nat.mul_comm]
    omega

/-- An entry is passed run by run, or the call has what it wants. -/
theorem Sweep.runs (h : Sweep l₀ want J D x l g)
    (hJ : Follows v entry l₀.l0Granularity want maxLength J)
    (hmax : MaxFits fails (min want (512 * l₀.l0Granularity)) maxLength) (hx : x = e * 512) (hv : ∀ q, x ≤ q → q < x + 512 → v q = l₀.bit q)
    (hnew : ∀ q, x ≤ q → q < x + 512 → q ∉ D) (hu : 0 < l₀.l0Granularity)
    (hsize : x + 512 ≤ l₀.l0.size * 64) (hwant : l₀.l0Granularity ∣ want)
    (hfull : l.entry e ≠ L1_ENTRY_FULL)
    (hslow : ¬ (l.entry e = L1_ENTRY_FREE ∧ want - g.allocated ≥ 512 * l₀.l0Granularity))
    (hcut : Cut l₀ e → want ≤ l₀.freeIn (D ∪ Finset.Ico x (x + 512)) * l₀.l0Granularity) :
    Returns fails (l.allocateL0 (want - g.allocated) maxLength x (x + 512) g) fun r =>
      (∀ q, x + 512 ≤ q → r.2.2.bit q = l.bit q) ∧
      ∃ y, x ≤ y ∧ y ≤ x + 512 ∧ Sweep l₀ want J (D ∪ Finset.Ico x y) y r.2.2 r.2.1 ∧
        (r.2.1.allocated = want ∨ y = x + 512) := by
  have hle := h.le
  have hrest : l₀.l0Granularity ∣ want - g.allocated := Nat.dvd_sub hwant h.dvd
  have hneed : (want - g.allocated) / l₀.l0Granularity * l₀.l0Granularity = want - g.allocated :=
    Nat.div_mul_cancel hrest
  have hbits : ∀ q, x ≤ q → q < x + 512 → l.bit q = l₀.bit q := fun q hq hlt =>
    h.bit_of_notMem (hnew q hq hlt)
  unfold allocateL0
  rw [h.unit, show x + 512 - x = 512 by omega]
  refine (allocateL0Loop_sweep hJ hmax (by omega) h.unit le_rfl (by omega) le_rfl
    (by rw [h.l0Size]; exact hsize)
    (fun q hq hlt => (hbits q hq hlt).trans (hv q hq hlt).symm) (h.room hx hnew hu hfull hslow hcut) (by omega)
    h.follows).bind ?_
  rintro ⟨need', g', l'⟩ - ⟨y, hy⟩
  have htaken := hy.taken
  have hfrom := hy.from_le
  have hend := hy.le_end
  have hcount : g'.allocated = g.allocated +
      ((want - g.allocated) / l₀.l0Granularity - need') * l₀.l0Granularity := by
    have hcount := hy.allocated
    rwa [h.unit] at hcount
  rw [card_filter_congr fun q hq hlt => hbits q hq (by omega)] at htaken
  have hnew' : ∀ q, x ≤ q → q < y → q ∉ D := fun q hq hlt => hnew q hq (by omega)
  have hunits : (want - g.allocated) / l₀.l0Granularity - need' =
      ((Finset.Ico x y).filter fun q => l₀.bit q = true).card := by omega
  have hbit : ∀ q, l'.bit q = if x ≤ q ∧ q < y then false else l.bit q := hy.bit
  have hfewer : ((want - g.allocated) / l₀.l0Granularity - need') * l₀.l0Granularity ≤
      want - g.allocated :=
    (Nat.mul_le_mul_right _ (Nat.sub_le _ _)).trans_eq hneed
  refine ⟨fun q hq => ?_, y, hfrom, hend, ⟨hy.same.l0Size.trans h.l0Size,
    (congrArg SlotVector.size hy.same.l1).trans h.l1Size, hy.same.l0Granularity.trans h.unit,
    h.sound.of_sameL1 hy.same fun q hq => ?_, fun q => ?_, fun i hi => ?_, ?_, ?_, ?_, hy.follows⟩, ?_⟩
  · show l'.bit q = l.bit q
    rw [hbit, if_neg (by omega)]
  · rw [hbit] at hq
    split at hq
    · cases hq
    · exact hq
  · rw [hbit, h.bit]
    by_cases hq : x ≤ q ∧ q < y
    · rw [if_pos hq, if_pos (Finset.mem_union_right _ (Finset.mem_Ico.mpr hq))]
    · rw [if_neg hq]
      simp only [Finset.mem_union, Finset.mem_Ico, hq, or_false]
  · show l'.entry i = _
    rw [hy.same.entry]
    exact h.entry i fun hmem => hi (Finset.mem_union_left _ hmem)
  · show _ ≤ g'.allocated
    rw [freeIn_union l₀ hnew', hcount, hunits, Nat.add_mul]
    exact Nat.add_le_add_right h.counted _
  · show g'.allocated ≤ want
    rw [hcount]
    omega
  · show _ ∣ g'.allocated
    rw [hcount]
    exact Nat.dvd_add h.dvd (Nat.dvd_mul_left _ _)
  · refine hy.ends.imp_left fun hdone => ?_
    show g'.allocated = want
    have hzero : need' = 0 := hdone
    rw [hcount, hzero, Nat.sub_zero, hneed]
    omega

/-- The passes over one entry inside the vectors return. -/
theorem markAllocL1L0_ok (l : AllocatorLevel01Loose) {e : Nat} (hl0 : e * 512 + 512 ≤ l.l0.size * 64)
    (hl1 : e < l.l1.size * 32) (hin : e * 512 + 512 ≤ 2 ^ 64 - 1024) :
    ∃ l', l.markAllocL1L0 (e * 512) (e * 512 + 512) = .ok l' ∧ l'.l1.size = l.l1.size := by
  obtain ⟨l₁, hmark⟩ := l.markAllocL0_ok (s := e * 512) hl0
  obtain ⟨hsame, -, -⟩ := markAllocL0_spec hmark
  have hfirst : p2align (p2align (e * 512) 512) 512 / 512 = e := by
    rw [p2align_of_mod (p2align_mod _ 512), p2align, Nat.mul_div_cancel _ (by decide)]
    omega
  have hlast : p2roundup (p2roundup (e * 512 + 512) 512) 512 / 512 = e + 1 := by
    have hround : p2roundup (e * 512 + 512) 512 = e * 512 + 512 := by
      rw [p2roundup_512 (hin.trans (by decide))]
      omega
    rw [hround, hround]
    omega
  have hrefresh : ∃ l', l₁.markL1OnL0 (p2align (e * 512) bitsPerSlotset)
      (p2roundup (e * 512 + 512) bitsPerSlotset) = .ok l' := by
    unfold markL1OnL0
    dsimp only
    unfold bitsPerSlotset slotsPerSlotset L1_ENTRIES_PER_SLOT
    rw [hfirst, hlast, hsame.l0Size, hsame.l1, if_neg (by omega)]
    exact ⟨_, rfl⟩
  obtain ⟨l', hrefresh⟩ := hrefresh
  refine ⟨l', ?_, (markL1OnL0_spec hrefresh).2.2.1.trans (congrArg SlotVector.size hsame.l1)⟩
  unfold markAllocL1L0
  rw [hmark]
  exact hrefresh

end Entries

/-- Every call of `_allocate_l0` from the loop of `_allocate_l1` leaves the units
from the end of its range on as they are. -/
def RunsInside (length maxLength : Nat) : Nat → Nat → Grant → AllocatorLevel01Loose → Prop
  | 0, _, _, _ => True
  | n + 1, p, g, a =>
      if p / L1_ENTRIES_PER_SLOT ≥ a.l1.size then True
      else if a.entry p = L1_ENTRY_FULL then RunsInside length maxLength n (p + 1) g a
      else
        let l0s := p * bitsPerSlotset
        let l0e := l0s + bitsPerSlotset
        let rem := length - g.allocated
        if rem = 0 then True
        else if a.entry p = L1_ENTRY_FREE ∧ rem ≥ bitsPerSlotset * a.l0Granularity then
          ∀ g' a', fragmentAndEmplace maxLength (l0s * a.l0Granularity)
              (bitsPerSlotset * a.l0Granularity) g = .ok g' →
            a.markAllocL1L0 l0s l0e = .ok a' → RunsInside length maxLength n (p + 1) g' a'
        else
          ∀ r g' a', a.allocateL0 rem maxLength l0s l0e g = .ok (r, g', a') →
            (∀ q, l0e ≤ q → a'.bit q = a.bit q) ∧ RunsInside length maxLength n (p + 1) g' a'

section Region

variable {fails : Fault → Prop} {maxLength want : Nat} {v : Nat → Bool} {entry : Nat → Slot}
  {J : Nat → Grant → Prop} {l₀ l : AllocatorLevel01Loose} {D : Finset Nat} {g : Grant}

/-- With all that is wanted nothing more happens. -/
theorem allocateL1Loop_done (h : g.allocated = want) (n p : Nat) (l : AllocatorLevel01Loose) :
    (∃ r, allocateL1Loop want maxLength n p g l = .ok (r, g, l)) ∧
      RunsInside want maxLength n p g l := by
  induction n generalizing p with
  | zero => exact ⟨⟨_, rfl⟩, trivial⟩
  | succ n ih =>
      unfold allocateL1Loop RunsInside
      split
      · exact ⟨⟨_, rfl⟩, trivial⟩
      · dsimp only
        split
        · exact ih (p + 1)
        · rw [if_pos (by omega), if_pos (by omega)]
          exact ⟨⟨_, rfl⟩, trivial⟩

set_option maxRecDepth 4000 in
/-- The loop of `_allocate_l1` passes its entries in order, and no run leaves
the entry it was found in. -/
theorem allocateL1Loop_sweep
    (hJ : Follows v entry l₀.l0Granularity want maxLength J)
    (hmax : MaxFits fails (min want (512 * l₀.l0Granularity)) maxLength) (hu : 0 < l₀.l0Granularity) (hwant : l₀.l0Granularity ∣ want)
    (hsizes : l₀.l0.size = l₀.l1.size * 256)
    (hbound : ∀ e, e < l₀.l1.size * 32 → e * 512 + 512 ≤ 2 ^ 64 - 1024) {n p : Nat}
    (h : Sweep l₀ want J D (p * 512) l g) (hin : p + n ≤ l₀.l1.size * 32)
    (hv : ∀ q, p * 512 ≤ q → q < (p + n) * 512 → v q = l₀.bit q)
    (hentry : ∀ e, p ≤ e → e < p + n → entry e = l₀.entry e)
    (hnew : ∀ q, p * 512 ≤ q → q < (p + n) * 512 → q ∉ D)
    (hcut : ∀ e, p ≤ e → e < p + n → Cut l₀ e →
      want ≤ l₀.freeIn (D ∪ Finset.Ico (p * 512) ((e + 1) * 512)) * l₀.l0Granularity) :
    Returns fails (allocateL1Loop want maxLength n p g l) (fun r =>
      ∃ y, p * 512 ≤ y ∧ y ≤ (p + n) * 512 ∧
        Sweep l₀ want J (D ∪ Finset.Ico (p * 512) y) y r.2.2 r.2.1 ∧
        (r.2.1.allocated = want ∨ y = (p + n) * 512)) ∧
      RunsInside want maxLength n p g l := by
  induction n generalizing p l g D with
  | zero =>
      refine ⟨⟨p * 512, le_rfl, le_rfl, ?_, Or.inr rfl⟩, trivial⟩
      rwa [Finset.Ico_self, Finset.union_empty]
  | succ n ih =>
      have hnew₀ : ∀ q, p * 512 ≤ q → q < p * 512 + 512 → q ∉ D := fun q hq hlt =>
        hnew q hq (by omega)
      have hv₀ : ∀ q, p * 512 ≤ q → q < p * 512 + 512 → v q = l₀.bit q := fun q hq hlt =>
        hv q hq (by omega)
      -- what is left to do after the entry
      have hrest : ∀ {l' g'}, Sweep l₀ want J (D ∪ Finset.Ico (p * 512) (p * 512 + 512))
          (p * 512 + 512) l' g' →
          Returns fails (allocateL1Loop want maxLength n (p + 1) g' l') (fun r =>
            ∃ y, p * 512 ≤ y ∧ y ≤ (p + (n + 1)) * 512 ∧
              Sweep l₀ want J (D ∪ Finset.Ico (p * 512) y) y r.2.2 r.2.1 ∧
              (r.2.1.allocated = want ∨ y = (p + (n + 1)) * 512)) ∧
            RunsInside want maxLength n (p + 1) g' l' := by
        intro l' g' h'
        rw [show p * 512 + 512 = (p + 1) * 512 by omega] at h'
        have hjoin : ∀ y, (p + 1) * 512 ≤ y → D ∪ Finset.Ico (p * 512) ((p + 1) * 512) ∪
            Finset.Ico ((p + 1) * 512) y = D ∪ Finset.Ico (p * 512) y := by
          intro y hy
          rw [Finset.union_assoc, Finset.Ico_union_Ico_eq_Ico (by omega) hy]
        have hih := ih h' (by omega) (fun q hq hlt => hv q (by omega) (by omega))
          (fun e he hlt => hentry e (by omega) (by omega)) (fun q hq hlt hmem => ?_) (fun e he hlt hc => ?_)
        · refine ⟨hih.1.mono ?_, hih.2⟩
          rintro r ⟨y, hfrom, hto, hs, hdone⟩
          rw [hjoin y hfrom] at hs
          exact ⟨y, by omega, by omega, hs, hdone.imp_right (by omega)⟩
        · rcases Finset.mem_union.mp hmem with hmem | hmem
          · exact hnew q (by omega) (by omega) hmem
          · rw [Finset.mem_Ico] at hmem
            omega
        · rw [hjoin _ (by omega)]
          exact hcut e (by omega) (by omega) hc
      have hslot : ¬ p / 32 ≥ l.l1.size := by
        rw [h.l1Size]
        omega
      unfold allocateL1Loop RunsInside L1_ENTRIES_PER_SLOT
      rw [if_neg hslot, if_neg hslot]
      dsimp only
      by_cases hfull : l.entry p = L1_ENTRY_FULL
      · rw [if_pos hfull, if_pos hfull]
        exact hrest (h.full hJ rfl hv₀ hnew₀ hfull)
      rw [if_neg hfull, if_neg hfull]
      by_cases hrem : want - g.allocated = 0
      · rw [if_pos hrem, if_pos hrem]
        have hle := h.le
        refine ⟨⟨p * 512, le_rfl, by omega, ?_, Or.inl (by dsimp only; omega)⟩, trivial⟩
        rwa [Finset.Ico_self, Finset.union_empty]
      rw [if_neg hrem, if_neg hrem]
      unfold bitsPerSlotset
      rw [h.unit]
      have hl0 : p * 512 + 512 ≤ l₀.l0.size * 64 := by omega
      by_cases hwhole : l.entry p = L1_ENTRY_FREE ∧ want - g.allocated ≥ 512 * l₀.l0Granularity
      · rw [if_pos hwhole, if_pos hwhole]
        obtain ⟨l', hmark, hl1⟩ := l.markAllocL1L0_ok (e := p) (by rw [h.l0Size]; exact hl0)
          (by rw [h.l1Size]; omega) (hbound p (by omega))
        have hnext : ∀ g', fragmentAndEmplace maxLength (p * 512 * l₀.l0Granularity)
            (512 * l₀.l0Granularity) g = .ok g' → Sweep l₀ want J
              (D ∪ Finset.Ico (p * 512) (p * 512 + 512)) (p * 512 + 512) l' g' := fun g' hemp =>
          h.whole hJ rfl hnew₀ hwhole.1 (hentry p le_rfl (by omega)) hwhole.2 hemp
            (hbound p (by omega)) hmark hl1
        constructor
        · have hlen := hwhole.2
          refine (fragmentAndEmplace_returns hmax _ _ g (by omega)).bind fun g' hemp _ => ?_
          rw [hmark]
          exact (hrest (hnext g' hemp)).1
        · intro g' a' hemp hmark'
          cases hmark.symm.trans hmark'
          exact (hrest (hnext g' hemp)).2
      · rw [if_neg hwhole, if_neg hwhole]
        have hruns := h.runs hJ hmax rfl hv₀ hnew₀ hu hl0 hwant hfull hwhole (fun hc => by
          have := hcut p le_rfl (by omega) hc
          rwa [show (p + 1) * 512 = p * 512 + 512 by omega] at this)
        have hnext : ∀ {r g' l'}, l.allocateL0 (want - g.allocated) maxLength (p * 512)
            (p * 512 + 512) g = .ok (r, g', l') →
            Returns fails (allocateL1Loop want maxLength n (p + 1) g' l') (fun r =>
              ∃ y, p * 512 ≤ y ∧ y ≤ (p + (n + 1)) * 512 ∧
                Sweep l₀ want J (D ∪ Finset.Ico (p * 512) y) y r.2.2 r.2.1 ∧
                (r.2.1.allocated = want ∨ y = (p + (n + 1)) * 512)) ∧
              RunsInside want maxLength n (p + 1) g' l' := by
          intro r g' l' hok
          obtain ⟨-, y, hfrom, hto, hs, hdone | rfl⟩ := hruns.of_ok hok
          · obtain ⟨⟨r', hr'⟩, hinside⟩ := @allocateL1Loop_done maxLength want g' hdone n (p + 1) l'
            rw [hr']
            exact ⟨⟨y, hfrom, by omega, hs, Or.inl hdone⟩, hinside⟩
          · exact hrest hs
        constructor
        · refine hruns.bind ?_
          rintro ⟨r, g', l'⟩ hok -
          exact (hnext hok).1
        · intro r g' a' hok
          exact ⟨(hruns.of_ok hok).1, (hnext hok).2⟩

end Region

end AllocatorLevel01Loose

end Clab.Blk
