import Clab.Blk.BitmapRuns

/-!
# Claiming neighbours

`claim_free_to_left` and `claim_free_to_right` take the free run that touches an
offset out of the bitmap: bit by bit up to a slot boundary, then whole free
slots, then bit by bit inside the slot where the run ends. The summaries above
the run are computed anew.
-/

namespace Clab.Blk

open Clab.Common Clab.WordBits

namespace AllocatorLevel01Loose

/-! ## The code -/

/-- The loop over the bits of a slot of `_claim_free_to_left_l0`, downwards from
below `e` for `n` bits; true when a clear bit ends it. -/
def claimLeftBits : Nat → Nat → Words → Bool × Nat × Words
  | 0, e, v => (false, e, v)
  | n + 1, e, v =>
      if WordBits.bit v (e - 1) = false then (true, e, v)
      else claimLeftBits n (e - 1) (clearBit v (e - 1))

/-- The loop over full slots, downwards from slot `n - 1`; the first number of the
result is one more than the slot it ends at. -/
def claimLeftSlots : Nat → Nat → Words → Nat × Nat × Words
  | 0, e, v => (0, e, v)
  | n + 1, e, v =>
      if v n = allSlotSet then
        claimLeftSlots n (e - bitsPerSlot) (Function.update v n allSlotClear)
      else (n + 1, e, v)

/-- `_claim_free_to_left_l0`. For position 0 the source shifts by -1. -/
def claimFreeToLeftL0 (a : AllocatorLevel01Loose) (l0PosStart : Nat) :
    Except Fault (Nat × AllocatorLevel01Loose) :=
  if l0PosStart = 0 then .error .badShift
  else
    let pos := l0PosStart - 1
    if a.l0.size ≤ pos / bitsPerSlot then .error .outOfBounds
    else
      let (stop, e, v) := claimLeftBits (pos % bitsPerSlot + 1) l0PosStart a.l0.slot
      if stop then .ok (e, { a with l0 := { a.l0 with slot := v } })
      else
        let (n, e, v) := claimLeftSlots (pos / bitsPerSlot) e v
        if n > 0 ∧ v (n - 1) ≠ allSlotSet ∧ v (n - 1) ≠ allSlotClear then
          let (_, e, v) := claimLeftBits ((e - 1) % bitsPerSlot + 1) e v
          .ok (e, { a with l0 := { a.l0 with slot := v } })
        else .ok (e, { a with l0 := { a.l0 with slot := v } })

/-- The loop over the bits of a slot of `_claim_free_to_right_l0`, upwards from
`p` for `n` bits. -/
def claimRightBits : Nat → Nat → Words → Bool × Nat × Words
  | 0, p, v => (false, p, v)
  | n + 1, p, v =>
      if WordBits.bit v p = false then (true, p, v) else claimRightBits n (p + 1) (clearBit v p)

/-- The loop over full slots, upwards from slot `idx` for `n` slots. -/
def claimRightSlots : Nat → Nat → Nat → Words → Nat × Nat × Words
  | 0, idx, p, v => (idx, p, v)
  | n + 1, idx, p, v =>
      if v idx = allSlotSet then
        claimRightSlots n (idx + 1) (p + bitsPerSlot) (Function.update v idx allSlotClear)
      else (idx, p, v)

/-- `_claim_free_to_right_l0`. -/
def claimFreeToRightL0 (a : AllocatorLevel01Loose) (l0PosStart : Nat) :
    Nat × AllocatorLevel01Loose :=
  let idx := l0PosStart / bitsPerSlot
  if idx ≥ a.l0.size then (l0PosStart, a)
  else
    let (stop, p, v) :=
      claimRightBits (bitsPerSlot - l0PosStart % bitsPerSlot) l0PosStart a.l0.slot
    if stop then (p, { a with l0 := { a.l0 with slot := v } })
    else
      let (idx, p, v) := claimRightSlots (a.l0.size - (idx + 1)) (idx + 1) p v
      if idx < a.l0.size ∧ v idx ≠ allSlotSet ∧ v idx ≠ allSlotClear then
        let (_, p, v) := claimRightBits (bitsPerSlot - p % bitsPerSlot) p v
        (p, { a with l0 := { a.l0 with slot := v } })
      else (p, { a with l0 := { a.l0 with slot := v } })

/-- The end of both `claim_free_to_left_l1` and `claim_free_to_right_l1`: L1 over
the units taken, and their bytes. -/
def finishClaim (a : AllocatorLevel01Loose) (l0PosStart l0PosEnd : Nat) :
    Except Fault (Nat × AllocatorLevel01Loose) :=
  if l0PosStart < l0PosEnd then do
    let a ← a.markL1OnL0 (p2align l0PosStart bitsPerSlotset) (p2roundup l0PosEnd bitsPerSlotset)
    return (a.l0Granularity * (l0PosEnd - l0PosStart) % 2 ^ 64, a)
  else .ok (0, a)

/-- `claim_free_to_left_l1`. -/
def claimFreeToLeftL1 (a : AllocatorLevel01Loose) (offs : Nat) :
    Except Fault (Nat × AllocatorLevel01Loose) := do
  let l0PosEnd := offs / a.l0Granularity
  let (l0PosStart, a) ← a.claimFreeToLeftL0 l0PosEnd
  a.finishClaim l0PosStart l0PosEnd

/-- `claim_free_to_right_l1`. -/
def claimFreeToRightL1 (a : AllocatorLevel01Loose) (offs : Nat) :
    Except Fault (Nat × AllocatorLevel01Loose) :=
  let l0PosStart := offs / a.l0Granularity
  let (l0PosEnd, a) := a.claimFreeToRightL0 l0PosStart
  a.finishClaim l0PosStart l0PosEnd

/-- The inner loop of `_mark_l2_on_l1`: is one of `n` entries from `i` on not FULL? -/
def anyEntry (a : AllocatorLevel01Loose) : Nat → Nat → Except Fault Bool
  | 0, _ => .ok false
  | n + 1, i =>
      if a.l1.size ≤ i / L1_ENTRIES_PER_SLOT then .error .outOfBounds
      else if a.entry i ≠ L1_ENTRY_FULL then .ok true
      else a.anyEntry n (i + 1)

end AllocatorLevel01Loose

namespace AllocatorLevel02

open AllocatorLevel01Loose

/-- One round of `_mark_l2_on_l1`. -/
def markL2Bit (a : AllocatorLevel02) (p : Nat) : Except Fault AllocatorLevel02 := do
  let entries := L1_ENTRIES_PER_SLOT * slotsPerSlotset
  let free ← a.l1.anyEntry entries (p * entries)
  if a.l2.size ≤ p / bitsPerSlot then throw .outOfBounds
  else
    let slot := if free then setBit a.l2.slot p else clearBit a.l2.slot p
    return { a with l2 := { a.l2 with slot } }

/-- `_mark_l2_on_l1`, over `n` positions from `p` on. -/
def markL2OnL1 : Nat → Nat → AllocatorLevel02 → Except Fault AllocatorLevel02
  | 0, _, a => .ok a
  | n + 1, p, a => do markL2OnL1 n (p + 1) (← a.markL2Bit p)

/-- `claim_free_to_left`. -/
def claimFreeToLeft (a : AllocatorLevel02) (offset : Nat) :
    Except Fault (Nat × AllocatorLevel02) := do
  let (allocated, l1) ← a.l1.claimFreeToLeftL1 offset
  if a.available ≥ allocated then
    let a := { a with l1 := l1, available := a.available - allocated }
    let l2Pos := sub64 offset allocated / a.l2Granularity
    let l2PosEnd := p2roundup offset a.l2Granularity / a.l2Granularity
    let a ← markL2OnL1 (l2PosEnd - l2Pos) l2Pos a
    return (allocated, a)
  else throw .assertFail

/-- `claim_free_to_right`. -/
def claimFreeToRight (a : AllocatorLevel02) (offset : Nat) :
    Except Fault (Nat × AllocatorLevel02) := do
  let (allocated, l1) ← a.l1.claimFreeToRightL1 offset
  if a.available ≥ allocated then
    let a := { a with l1 := l1, available := a.available - allocated }
    let l2Pos := offset / a.l2Granularity
    let l2PosEnd := p2roundup (add64 offset allocated) a.l2Granularity / a.l2Granularity
    let a ← markL2OnL1 (l2PosEnd - l2Pos) l2Pos a
    return (allocated, a)
  else throw .assertFail

end AllocatorLevel02

namespace AllocatorLevel01Loose

/-! ## The scans over L0 -/

/-- The bits of `[s, e)` were set and are clear now; the others are as before. -/
structure Claimed (v v' : Words) (s e : Nat) : Prop where
  set : ∀ q, s ≤ q → q < e → WordBits.bit v q = true
  now : ∀ q, WordBits.bit v' q = if s ≤ q ∧ q < e then false else WordBits.bit v q

section Claims

variable {v v' v'' : Words} {s m e : Nat}

theorem Claimed.refl (v : Words) (s : Nat) : Claimed v v s s := by
  refine ⟨fun q hs he => by omega, fun q => ?_⟩
  rw [if_neg (by omega)]

/-- Claiming a piece and then the one next to it, on either side. -/
theorem Claimed.join {s' e' : Nat} (h : Claimed v v' s e) (h' : Claimed v' v'' s' e')
    (hnext : e' = s ∨ e = s') :
    Claimed v v'' (min s s') (max e e') := by
  constructor
  · intro q hs he
    by_cases hin : s ≤ q ∧ q < e
    · exact h.set q hin.1 hin.2
    · have hset := h'.set q (by omega) (by omega)
      rwa [h.now q, if_neg hin] at hset
  · intro q
    rw [h'.now q, h.now q]
    by_cases hin : s ≤ q ∧ q < e
    · rw [if_pos hin, ite_self, if_pos (by omega)]
    · by_cases hin' : s' ≤ q ∧ q < e'
      · rw [if_pos hin', if_pos (by omega)]
      · rw [if_neg hin', if_neg hin, if_neg (by omega)]

/-- Claiming one bit. -/
theorem claimed_bit {p : Nat} (h : WordBits.bit v p = true) : Claimed v (clearBit v p) p (p + 1) := by
  constructor
  · intro q hs he
    rwa [show q = p by omega]
  · intro q
    rw [bit_clearBit]
    by_cases hq : q = p
    · rw [if_pos hq, if_pos (by omega)]
    · rw [if_neg hq, if_neg (by omega)]

/-- Claiming a full slot. -/
theorem claimed_slot {i : Nat} (h : v i = allSlotSet) :
    Claimed v (Function.update v i allSlotClear) (i * 64) (i * 64 + 64) := by
  constructor
  · intro q hs he
    unfold WordBits.bit
    rw [show q / 64 = i by omega]
    exact slot_eq_set_iff.mp h _ (Nat.mod_lt q (by decide))
  · intro q
    rw [bit_update]
    by_cases hq : q / 64 = i
    · rw [if_pos hq, if_pos (by omega)]
      exact slot_eq_clear_iff.mp rfl _ (Nat.mod_lt q (by decide))
    · rw [if_neg hq, if_neg (by omega)]

/-- The bits outside are as they were. -/
theorem Claimed.outside (h : Claimed v v' s e) {q : Nat} (hq : q < s ∨ e ≤ q) :
    WordBits.bit v' q = WordBits.bit v q := by
  rw [h.now q, if_neg (by omega)]

theorem claimLeftBits_spec {n : Nat} (hn : n ≤ e) : ∃ k stop v',
    claimLeftBits n e v = (stop, e - k, v') ∧ k ≤ n ∧ Claimed v v' (e - k) e ∧
      (stop = true → k < n ∧ WordBits.bit v (e - k - 1) = false) ∧ (stop = false → k = n) := by
  induction n generalizing e v with
  | zero => exact ⟨0, false, v, rfl, le_rfl, .refl v e, by simp, fun _ => rfl⟩
  | succ n ih =>
      unfold claimLeftBits
      cases hb : WordBits.bit v (e - 1) with
      | false =>
          rw [if_pos rfl]
          exact ⟨0, true, v, rfl, Nat.zero_le _, .refl v e, fun _ => ⟨Nat.succ_pos n, hb⟩,
            fun h => by cases h⟩
      | true =>
          rw [if_neg (by decide)]
          have hone := claimed_bit hb
          rw [Nat.sub_add_cancel (by omega)] at hone
          obtain ⟨k, stop, v', heq, hk, hclaim, hstop, hrun⟩ := ih (e := e - 1)
            (v := clearBit v (e - 1)) (by omega)
          refine ⟨k + 1, stop, v', ?_, by omega, ?_, fun h => ?_, fun h => ?_⟩
          · rw [heq, show e - 1 - k = e - (k + 1) by omega]
          · have hjoin := hone.join hclaim (Or.inl rfl)
            rwa [show min (e - 1) (e - 1 - k) = e - (k + 1) by omega,
              show max e (e - 1) = e by omega] at hjoin
          · obtain ⟨hlt, hclear⟩ := hstop h
            refine ⟨by omega, ?_⟩
            rwa [hone.outside (by omega), show e - 1 - k - 1 = e - (k + 1) - 1 by omega] at hclear
          · rw [hrun h]

theorem claimLeftSlots_spec (n : Nat) (v : Words) : ∃ k v',
    claimLeftSlots n (n * 64) v = (k, k * 64, v') ∧ k ≤ n ∧ Claimed v v' (k * 64) (n * 64) ∧
      (0 < k → v' (k - 1) ≠ allSlotSet) := by
  induction n generalizing v with
  | zero => exact ⟨0, v, rfl, le_rfl, .refl v 0, fun h => absurd h (Nat.lt_irrefl 0)⟩
  | succ n ih =>
      unfold claimLeftSlots
      by_cases hfull : v n = allSlotSet
      · rw [if_pos hfull, show (n + 1) * 64 - bitsPerSlot = n * 64 by unfold bitsPerSlot; omega]
        obtain ⟨k, v', heq, hk, hclaim, hstop⟩ := ih (Function.update v n allSlotClear)
        have hjoin := (claimed_slot hfull).join hclaim (Or.inl rfl)
        rw [show min (n * 64) (k * 64) = k * 64 by omega,
          show max (n * 64 + 64) (n * 64) = (n + 1) * 64 by omega] at hjoin
        exact ⟨k, v', heq, by omega, hjoin, hstop⟩
      · rw [if_neg hfull]
        exact ⟨n + 1, v, rfl, le_rfl, .refl v _, fun _ => hfull⟩

theorem claimRightBits_spec (n p : Nat) (v : Words) : ∃ k stop v',
    claimRightBits n p v = (stop, p + k, v') ∧ k ≤ n ∧ Claimed v v' p (p + k) ∧
      (stop = true → k < n ∧ WordBits.bit v (p + k) = false) ∧ (stop = false → k = n) := by
  induction n generalizing p v with
  | zero => exact ⟨0, false, v, rfl, le_rfl, .refl v p, by simp, fun _ => rfl⟩
  | succ n ih =>
      unfold claimRightBits
      cases hb : WordBits.bit v p with
      | false =>
          rw [if_pos rfl]
          exact ⟨0, true, v, rfl, Nat.zero_le _, .refl v p, fun _ => ⟨Nat.succ_pos n, hb⟩,
            fun h => by cases h⟩
      | true =>
          rw [if_neg (by decide)]
          have hone := claimed_bit hb
          obtain ⟨k, stop, v', heq, hk, hclaim, hstop, hrun⟩ := ih (p + 1) (clearBit v p)
          refine ⟨k + 1, stop, v', ?_, by omega, ?_, fun h => ?_, fun h => ?_⟩
          · rw [heq, show p + 1 + k = p + (k + 1) by omega]
          · have hjoin := hone.join hclaim (Or.inr rfl)
            rwa [show min p (p + 1) = p by omega,
              show max (p + 1) (p + 1 + k) = p + (k + 1) by omega] at hjoin
          · obtain ⟨hlt, hclear⟩ := hstop h
            refine ⟨by omega, ?_⟩
            rwa [hone.outside (by omega), show p + 1 + k = p + (k + 1) by omega] at hclear
          · rw [hrun h]

theorem claimRightSlots_spec (n idx : Nat) (v : Words) : ∃ k v',
    claimRightSlots n idx (idx * 64) v = (idx + k, (idx + k) * 64, v') ∧ k ≤ n ∧
      Claimed v v' (idx * 64) ((idx + k) * 64) ∧ (k < n → v' (idx + k) ≠ allSlotSet) := by
  induction n generalizing idx v with
  | zero => exact ⟨0, v, rfl, le_rfl, .refl v _, fun h => absurd h (Nat.lt_irrefl 0)⟩
  | succ n ih =>
      unfold claimRightSlots
      by_cases hfull : v idx = allSlotSet
      · rw [if_pos hfull, show idx * 64 + bitsPerSlot = (idx + 1) * 64 by unfold bitsPerSlot; omega]
        obtain ⟨k, v', heq, hk, hclaim, hstop⟩ := ih (idx + 1) (Function.update v idx allSlotClear)
        have hjoin := (claimed_slot hfull).join hclaim (Or.inr (by omega))
        rw [show min (idx * 64) ((idx + 1) * 64) = idx * 64 by omega,
          show max (idx * 64 + 64) ((idx + 1 + k) * 64) = (idx + (k + 1)) * 64 by omega] at hjoin
        refine ⟨k + 1, v', ?_, by omega, hjoin, fun hlt => ?_⟩
        · rw [heq, show idx + 1 + k = idx + (k + 1) by omega]
        · have := hstop (by omega)
          rwa [show idx + 1 + k = idx + (k + 1) by omega] at this
      · rw [if_neg hfull]
        exact ⟨0, v, rfl, Nat.zero_le _, .refl v _, fun _ => hfull⟩

/-- A slot whose bits are all set is a full one. -/
theorem slot_full {i : Nat} (h : ∀ q, i * 64 ≤ q → q < i * 64 + 64 → WordBits.bit v q = true) :
    v i = allSlotSet := by
  refine slot_eq_set_iff.mpr fun j hj => ?_
  have hb := h (i * 64 + j) (by omega) (by omega)
  unfold WordBits.bit at hb
  rwa [show (i * 64 + j) / 64 = i by omega, show (i * 64 + j) % 64 = j by omega] at hb

theorem slot_clear_bit {i q : Nat} (h : v i = allSlotClear) (hq : q / 64 = i) :
    WordBits.bit v q = false := by
  unfold WordBits.bit
  rw [hq]
  exact slot_eq_clear_iff.mp h _ (Nat.mod_lt q (by decide))

end Claims

section Levels

variable {a : AllocatorLevel01Loose}

/-- `_claim_free_to_left_l0` takes the free run that ends before `p`. -/
theorem claimFreeToLeftL0_spec {p : Nat} (hp : 0 < p) (hin : p ≤ a.l0.size * 64) :
    ∃ e v, a.claimFreeToLeftL0 p = .ok (e, { a with l0 := { a.l0 with slot := v } }) ∧ e ≤ p ∧
      Claimed a.l0.slot v e p ∧ (e = 0 ∨ a.bit (e - 1) = false) := by
  unfold claimFreeToLeftL0
  rw [if_neg (by omega)]
  dsimp only
  unfold bitsPerSlot
  rw [if_neg (by omega)]
  obtain ⟨k, stop, v₁, hbits, hk, hclaim₁, hstop, hrun⟩ :=
    claimLeftBits_spec (v := a.l0.slot) (show (p - 1) % 64 + 1 ≤ p by omega)
  rw [hbits]
  dsimp only
  cases stop with
  | true =>
      rw [if_pos rfl]
      exact ⟨p - k, v₁, rfl, by omega, hclaim₁, Or.inr (hstop rfl).2⟩
  | false =>
      have hfirst := hrun rfl
      rw [if_neg (by decide), show p - k = (p - 1) / 64 * 64 by omega]
      rw [show p - k = (p - 1) / 64 * 64 by omega] at hclaim₁
      obtain ⟨n, v₂, hslots, hn, hclaim₂, hend⟩ := claimLeftSlots_spec ((p - 1) / 64) v₁
      have hclaim := hclaim₁.join hclaim₂ (Or.inl rfl)
      rw [show min ((p - 1) / 64 * 64) (n * 64) = n * 64 by omega,
        show max p ((p - 1) / 64 * 64) = p by omega] at hclaim
      rw [hslots]
      dsimp only
      split
      · rename_i hmixed
        obtain ⟨hpos, hfull, -⟩ := hmixed
        obtain ⟨k₃, stop₃, v₃, hbits₃, hk₃, hclaim₃, hstop₃, hrun₃⟩ :=
          claimLeftBits_spec (v := v₂) (show (n * 64 - 1) % 64 + 1 ≤ n * 64 by omega)
        rw [hbits₃]
        -- a slot that is not full ends the run
        have hstopped : stop₃ = true := by
          by_contra hno
          rw [Bool.not_eq_true] at hno
          have hall := hrun₃ hno
          refine hfull (slot_full fun q hq hlt => hclaim₃.set q ?_ ?_) <;> omega
        have hjoin := hclaim.join hclaim₃ (Or.inl rfl)
        rw [show min (n * 64) (n * 64 - k₃) = n * 64 - k₃ by omega,
          show max p (n * 64) = p by omega] at hjoin
        refine ⟨n * 64 - k₃, v₃, rfl, by omega, hjoin, Or.inr ?_⟩
        obtain ⟨hlt, hclear⟩ := hstop₃ hstopped
        rwa [hclaim.outside (by omega)] at hclear
      · rename_i hmixed
        refine ⟨n * 64, v₂, rfl, by omega, hclaim, ?_⟩
        rcases Nat.eq_zero_or_pos n with rfl | hpos
        · exact Or.inl rfl
        · have hempty : v₂ (n - 1) = allSlotClear := by
            by_contra hne
            exact hmixed ⟨hpos, hend hpos, hne⟩
          have hclear := slot_clear_bit (q := n * 64 - 1) hempty (by omega)
          rw [hclaim.outside (by omega)] at hclear
          exact Or.inr hclear

/-- `_claim_free_to_right_l0` takes the free run that starts at `p`. -/
theorem claimFreeToRightL0_spec {p : Nat} (hin : p ≤ a.l0.size * 64) :
    ∃ e v, a.claimFreeToRightL0 p = (e, { a with l0 := { a.l0 with slot := v } }) ∧ p ≤ e ∧
      e ≤ a.l0.size * 64 ∧ Claimed a.l0.slot v p e ∧
      (e = a.l0.size * 64 ∨ a.bit e = false) := by
  unfold claimFreeToRightL0
  dsimp only
  unfold bitsPerSlot
  split
  · exact ⟨p, a.l0.slot, rfl, le_rfl, hin, .refl _ p, Or.inl (by omega)⟩
  obtain ⟨k, stop, v₁, hbits, hk, hclaim₁, hstop, hrun⟩ :=
    claimRightBits_spec (64 - p % 64) p a.l0.slot
  rw [hbits]
  dsimp only
  cases stop with
  | true =>
      rw [if_pos rfl]
      exact ⟨p + k, v₁, rfl, by omega, by omega, hclaim₁, Or.inr (hstop rfl).2⟩
  | false =>
      have hfirst := hrun rfl
      rw [if_neg (by decide), show p + k = (p / 64 + 1) * 64 by omega]
      rw [show p + k = (p / 64 + 1) * 64 by omega] at hclaim₁
      obtain ⟨n, v₂, hslots, hn, hclaim₂, hend⟩ :=
        claimRightSlots_spec (a.l0.size - (p / 64 + 1)) (p / 64 + 1) v₁
      have hclaim := hclaim₁.join hclaim₂ (Or.inr rfl)
      rw [show min p ((p / 64 + 1) * 64) = p by omega,
        show max ((p / 64 + 1) * 64) ((p / 64 + 1 + n) * 64) = (p / 64 + 1 + n) * 64 by omega]
        at hclaim
      rw [hslots]
      dsimp only
      generalize hi : p / 64 + 1 + n = i at *
      split
      · rename_i hmixed
        obtain ⟨hlt, hfull, -⟩ := hmixed
        obtain ⟨k₃, stop₃, v₃, hbits₃, hk₃, hclaim₃, hstop₃, hrun₃⟩ :=
          claimRightBits_spec (64 - i * 64 % 64) (i * 64) v₂
        rw [hbits₃]
        have hstopped : stop₃ = true := by
          by_contra hno
          rw [Bool.not_eq_true] at hno
          have hall := hrun₃ hno
          refine hfull (slot_full fun q hq hlt => hclaim₃.set q ?_ ?_) <;> omega
        have hjoin := hclaim.join hclaim₃ (Or.inr rfl)
        rw [show min p (i * 64) = p by omega,
          show max (i * 64) (i * 64 + k₃) = i * 64 + k₃ by omega] at hjoin
        refine ⟨i * 64 + k₃, v₃, rfl, by omega, by omega, hjoin, Or.inr ?_⟩
        obtain ⟨hk, hclear⟩ := hstop₃ hstopped
        rwa [hclaim.outside (by omega)] at hclear
      · rename_i hmixed
        refine ⟨i * 64, v₂, rfl, by omega, by omega, hclaim, ?_⟩
        by_cases hlt : i < a.l0.size
        · have hempty : v₂ i = allSlotClear := by
            by_contra hne
            exact hmixed ⟨hlt, hend (by omega), hne⟩
          have hclear := slot_clear_bit (q := i * 64) hempty (by omega)
          rw [hclaim.outside (by omega)] at hclear
          exact Or.inr hclear
        · exact Or.inl (by omega)

end Levels

end AllocatorLevel01Loose

end Clab.Blk
