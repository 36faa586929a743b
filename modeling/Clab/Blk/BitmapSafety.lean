import Clab.Blk.BitmapLevels
import Clab.Lib.HandOut

/-!
# What the bitmap allocator hands out

`allocate` takes units from L0 in two ways: run by run, looking at the bits,
or a whole L1 entry at a time, looking at the entry alone. The first is sound in
every state. The second is sound while no FREE entry is stale, and the run by
run path leaves stale entries behind, because it clears bits without
recomputing L1. `SafeRemaining` is the condition under which a call never takes
a stale entry whole.
-/

namespace Clab.Blk

open Clab.Common Clab.HandOut

namespace AllocatorLevel01Loose

/-- The free bytes of L0. -/
def freeAt (a : AllocatorLevel01Loose) (x : Nat) : Bool := a.bit (x / a.l0Granularity)

/-- The L1 entries say nothing false about FULL and PARTIAL. -/
structure L1Sound (a : AllocatorLevel01Loose) : Prop where
  values : ∀ e, a.entry e = L1_ENTRY_FULL ∨ a.entry e = L1_ENTRY_PARTIAL ∨
    a.entry e = L1_ENTRY_FREE
  full : ∀ e, a.entry e = L1_ENTRY_FULL → ∀ q, q / 512 = e → a.bit q = false
  partly : ∀ e, a.entry e = L1_ENTRY_PARTIAL → ∃ q, q / 512 = e ∧ a.bit q = false

/-- Every FREE entry has all its L0 bits set. -/
def NoStale (a : AllocatorLevel01Loose) : Prop :=
  ∀ e, a.entry e = L1_ENTRY_FREE → ∀ q, q / 512 = e → a.bit q = true

/-- No run of free units leads from a PARTIAL entry into a FREE one. -/
def NoSpill (a : AllocatorLevel01Loose) : Prop :=
  ∀ e, a.entry e = L1_ENTRY_PARTIAL → a.bit (e * 512 + 511) = true →
    a.entry (e + 1) ≠ L1_ENTRY_FREE

/-- With `remaining` bytes to allocate, no stale entry will be taken whole. -/
def SafeRemaining (a : AllocatorLevel01Loose) (remaining : Nat) : Prop :=
  remaining < 512 * a.l0Granularity ∨
    (NoStale a ∧ (remaining ≤ 1024 * a.l0Granularity ∨ NoSpill a))

/-! ## Emplacing extents -/

/-- A range of bytes is its first part followed by the rest. -/
theorem indicator_split {offset m len : Nat} (hm : m ≤ len) (x : Nat) :
    (if offset ≤ x ∧ x < offset + m then 1 else 0) +
      (if offset + m ≤ x ∧ x < offset + m + (len - m) then 1 else 0) =
        if offset ≤ x ∧ x < offset + len then 1 else 0 := by
  by_cases h₁ : offset ≤ x ∧ x < offset + m
  · rw [if_pos h₁, if_neg (by omega), if_pos (by omega)]
  · by_cases h₂ : offset + m ≤ x ∧ x < offset + m + (len - m)
    · rw [if_neg h₁, if_pos h₂, if_pos (by omega)]
    · rw [if_neg h₁, if_neg h₂, if_neg (by omega)]

theorem emplaceLoop_spec {maxLength n offset len : Nat} {g g' : Grant} (hn : len ≤ n)
    (h : emplaceLoop maxLength n offset len g = .ok g') :
    g'.allocated = g.allocated + len ∧
      ∀ x, cover PExtent.has g'.res x ≤
        cover PExtent.has g.res x + if offset ≤ x ∧ x < offset + len then 1 else 0 := by
  induction n generalizing offset len g with
  | zero =>
      cases h
      exact ⟨by omega, fun x => Nat.le_add_right _ _⟩
  | succ n ih =>
      unfold emplaceLoop at h
      split at h
      · dsimp only at h
        generalize hchunk : (if maxLength > 0 ∧ len > maxLength then maxLength else len) = chunk at h
        have hpos : 0 < chunk ∧ chunk ≤ len := by split at hchunk <;> omega
        split at h
        · cases h
        · obtain ⟨halloc, hcov⟩ := ih (by omega) h
          refine ⟨by rw [halloc]; simp only; omega, fun x => ?_⟩
          refine Nat.le_trans (hcov x) ?_
          rw [cover_append, cover_singleton, Nat.add_assoc, ← indicator_split hpos.2 x]
          simp [PExtent.has]
      · cases h
        exact ⟨by omega, fun x => Nat.le_add_right _ _⟩

theorem cover_growLast {res : List PExtent} {last : PExtent} (hl : res.getLast? = some last)
    (len x : Nat) :
    cover PExtent.has (growLast res last len) x ≤ cover PExtent.has res x +
      if last.offset + last.length ≤ x ∧ x < last.offset + last.length + len then 1 else 0 := by
  have hres : res = res.dropLast ++ [last] := (List.dropLast_append_getLast? _ hl).symm
  have hcov : cover PExtent.has res x =
      cover PExtent.has res.dropLast x + if PExtent.has last x then 1 else 0 := by
    conv_lhs => rw [hres]
    rw [cover_append, cover_singleton]
  have hmod : (last.length + len) % 2 ^ 32 ≤ last.length + len := Nat.mod_le _ _
  unfold growLast
  rw [cover_append, cover_singleton, hcov]
  simp only [PExtent.has, decide_eq_true_eq]
  generalize (last.length + len) % 2 ^ 32 = m at hmod ⊢
  split
  · by_cases h₁ : last.offset ≤ x ∧ x < last.offset + last.length
    · rw [if_pos h₁]
      omega
    · have hnew : last.offset + last.length ≤ x ∧ x < last.offset + last.length + len := by omega
      simp only [if_neg h₁, if_pos hnew]
      omega
  · omega

/-- `_fragment_and_emplace` counts `len` bytes and covers no byte outside
`[offset, offset + len)` and none of those twice. -/
theorem fragmentAndEmplace_spec {maxLength offset len : Nat} {g g' : Grant}
    (h : fragmentAndEmplace maxLength offset len g = .ok g') :
    g'.allocated = g.allocated + len ∧
      ∀ x, cover PExtent.has g'.res x ≤
        cover PExtent.has g.res x + if offset ≤ x ∧ x < offset + len then 1 else 0 := by
  unfold fragmentAndEmplace at h
  split at h
  · exact emplaceLoop_spec (Nat.le_refl _) h
  · rename_i last hl
    split at h
    · rename_i hend
      dsimp only at h
      split at h
      · cases h
        refine ⟨rfl, fun x => ?_⟩
        have := cover_growLast hl len x
        rwa [hend] at this
      · rename_i hbig
        split at h
        · obtain ⟨halloc, hcov⟩ := emplaceLoop_spec (Nat.le_refl _) h
          refine ⟨by rw [halloc]; simp only; omega, fun x => Nat.le_trans (hcov x) ?_⟩
          have hgrow := cover_growLast hl (maxLength - last.length) x
          have htake : maxLength - last.length ≤ len := by omega
          rw [hend] at hgrow
          rw [← indicator_split htake x, ← Nat.add_assoc]
          exact Nat.add_le_add_right hgrow _
        · exact emplaceLoop_spec (Nat.le_refl _) h
    · exact emplaceLoop_spec (Nat.le_refl _) h

/-- Handing out units `[s, s + n)`, all free, and clearing their bits. -/
theorem handsOut_of_units {a a' : AllocatorLevel01Loose} {g g' : Grant} {s n : Nat}
    (hu : 0 < a.l0Granularity) (hg : a'.l0Granularity = a.l0Granularity)
    (hfree : ∀ q, s ≤ q → q < s + n → a.bit q = true)
    (hbit : ∀ q, a'.bit q = if s ≤ q ∧ q < s + n then false else a.bit q)
    (hcov : ∀ x, cover PExtent.has g'.res x ≤ cover PExtent.has g.res x +
      if s * a.l0Granularity ≤ x ∧ x < s * a.l0Granularity + n * a.l0Granularity then 1 else 0) :
    HandsOut PExtent.has a.freeAt a'.freeAt g.res g'.res := by
  have hunit : ∀ x, (s * a.l0Granularity ≤ x ∧
      x < s * a.l0Granularity + n * a.l0Granularity) ↔
        s ≤ x / a.l0Granularity ∧ x / a.l0Granularity < s + n := by
    intro x
    rw [Nat.le_div_iff_mul_le hu, Nat.div_lt_iff_lt_mul hu, Nat.add_mul]
  refine ⟨fun x hx => ?_, fun x => Nat.le_trans (hcov x) ?_⟩
  · unfold freeAt at hx ⊢
    rw [hg, hbit] at hx
    split at hx
    · cases hx
    · exact hx
  · by_cases hin : s ≤ x / a.l0Granularity ∧ x / a.l0Granularity < s + n
    · have htaken : a.freeAt x = true ∧ a'.freeAt x = false := by
        unfold freeAt
        rw [hg, hbit, if_pos hin]
        exact ⟨hfree _ hin.1 hin.2, rfl⟩
      refine Nat.le_of_eq ?_
      rw [if_pos ((hunit x).mpr hin), if_pos htaken]
    · rw [if_neg fun hx => hin ((hunit x).mp hx)]
      omega

/-! ## Run by run -/

/-- The run found is a run of set bits that ends at a clear bit or is as long
as asked. -/
theorem runEnd_spec {v : SlotVector} {n e e' : Nat} (h : runEnd v n e = .ok e') :
    e ≤ e' ∧ e' ≤ e + n ∧ (∀ q, e ≤ q → q < e' → WordBits.bit v.slot q = true) ∧
      (e' = e + n ∨ WordBits.bit v.slot e' = false) := by
  induction n generalizing e with
  | zero =>
      cases h
      exact ⟨Nat.le_refl _, Nat.le_refl _, fun q h₁ h₂ => by omega, .inl rfl⟩
  | succ n ih =>
      unfold runEnd at h
      split at h
      · split at h
        · rename_i hself
          obtain ⟨h₁, h₂, h₃, h₄⟩ := ih h
          refine ⟨by omega, by omega, fun q hq hq' => ?_, ?_⟩
          · rcases Nat.eq_or_lt_of_le hq with rfl | hlt
            · exact findNextSetBit_eq_self_iff.mp hself
            · exact h₃ q hlt hq'
          · rcases h₄ with h₄ | h₄
            · exact .inl (by omega)
            · exact .inr h₄
        · rename_i hself
          cases h
          refine ⟨Nat.le_refl _, by omega, fun q h₁ h₂ => by omega, .inr ?_⟩
          exact Bool.eq_false_iff.mpr fun hb => hself (findNextSetBit_eq_self_iff.mpr hb)
      · cases h

theorem freeAt_unit (a : AllocatorLevel01Loose) (hu : 0 < a.l0Granularity) (q : Nat) :
    a.freeAt (q * a.l0Granularity) = a.bit q := by
  unfold freeAt
  rw [Nat.mul_div_cancel q hu]

theorem bit_of_handsOut {a a' : AllocatorLevel01Loose} {xs ys : List PExtent}
    (hu : 0 < a.l0Granularity) (hg : a'.l0Granularity = a.l0Granularity)
    (h : HandsOut PExtent.has a.freeAt a'.freeAt xs ys) {q : Nat} (hq : a'.bit q = true) :
    a.bit q = true := by
  have hx := h.shrinks (q * a.l0Granularity)
  rw [← hg, freeAt_unit a' (hg ▸ hu), hg, freeAt_unit a hu] at hx
  exact hx hq

/-- What a run by run pass does, whatever the state. -/
theorem allocateL0Loop_spec {maxLength l0End n p need : Nat} {g : Grant}
    {a : AllocatorLevel01Loose} (hu : 0 < a.l0Granularity) {need' : Nat} {g' : Grant}
    {a' : AllocatorLevel01Loose}
    (h : allocateL0Loop maxLength l0End n p need g a = .ok (need', g', a')) :
    need' ≤ need ∧ g'.allocated = g.allocated + (need - need') * a.l0Granularity ∧
      SameL1 a a' ∧ HandsOut PExtent.has a.freeAt a'.freeAt g.res g'.res := by
  induction n generalizing p need g a with
  | zero =>
      cases h
      exact ⟨Nat.le_refl _, by simp, SameL1.refl _, HandsOut.refl _ _ _⟩
  | succ n ih =>
      unfold allocateL0Loop at h
      split at h
      · split at h
        · cases h
        · dsimp only at h
          split at h
          · exact ih hu h
          · split at h
            · exact ih hu h
            · rename_i b _
              obtain ⟨e, hrun, h⟩ := bind_eq_ok h
              obtain ⟨g₁, hemp, h⟩ := bind_eq_ok h
              obtain ⟨a₁, hmark, h⟩ := bind_eq_ok h
              obtain ⟨hle, hmax, hset, -⟩ := runEnd_spec hrun
              obtain ⟨halloc, hcov⟩ := fragmentAndEmplace_spec hemp
              obtain ⟨hsame, -, hbit⟩ := markAllocL0_spec hmark
              generalize hs : p / bitsPerSlot * bitsPerSlot + b = s at *
              have hunits : min (e - s) need = e - s := by omega
              rw [hunits] at *
              have hstep : HandsOut PExtent.has a.freeAt a₁.freeAt g.res g₁.res :=
                handsOut_of_units hu hsame.l0Granularity
                  (fun q h₁ h₂ => hset q h₁ (by omega)) hbit hcov
              obtain ⟨hneed, halloc', hsame', hrest⟩ := ih (hsame.l0Granularity ▸ hu) h
              refine ⟨by omega, ?_, hsame.trans hsame', hstep.trans hrest⟩
              rw [halloc', halloc, hsame.l0Granularity, Nat.add_assoc, ← Nat.add_mul]
              congr 2
              omega
      · cases h
        exact ⟨Nat.le_refl _, by simp, SameL1.refl _, HandsOut.refl _ _ _⟩

/-- Clearing bits without touching L1 keeps what L1 says of FULL and PARTIAL. -/
theorem L1Sound.of_sameL1 {a a' : AllocatorLevel01Loose} (hs : L1Sound a) (h : SameL1 a a')
    (hbit : ∀ q, a'.bit q = true → a.bit q = true) : L1Sound a' := by
  have hclear : ∀ q, a.bit q = false → a'.bit q = false := by
    intro q hq
    by_contra hne
    rw [hbit q (Bool.not_eq_false _ ▸ hne)] at hq
    cases hq
  refine ⟨fun e => ?_, fun e he q hq => ?_, fun e he => ?_⟩
  · rw [h.entry]
    exact hs.values e
  · rw [h.entry] at he
    exact hclear q (hs.full e he q hq)
  · rw [h.entry] at he
    obtain ⟨q, hq, hb⟩ := hs.partly e he
    exact ⟨q, hq, hclear q hb⟩

theorem NoSpill.of_sameL1 {a a' : AllocatorLevel01Loose} (hs : NoSpill a) (h : SameL1 a a')
    (hbit : ∀ q, a'.bit q = true → a.bit q = true) : NoSpill a' := by
  intro e he hlast
  rw [h.entry] at he ⊢
  exact hs e he (hbit _ hlast)

/-- Taking one run that starts in a PARTIAL entry: afterwards fewer than 512
units are needed, or there still is no stale entry. -/
theorem noStale_of_run {a a' : AllocatorLevel01Loose} {s e need : Nat} (hs : L1Sound a)
    (hpart : a.entry (s / 512) = L1_ENTRY_PARTIAL) (hns : NoStale a)
    (hcase : need ≤ 1024 ∨ NoSpill a) (hset : ∀ q, s ≤ q → q < e → a.bit q = true)
    (hend : e = s + need ∨ a.bit e = false) (hsame : SameL1 a a')
    (hbit : ∀ q, a'.bit q = if s ≤ q ∧ q < e then false else a.bit q) :
    need - (e - s) < 512 ∨ NoStale a' := by
  by_cases hfew : need - (e - s) < 512
  · exact .inl hfew
  refine .inr fun f hf q hq => ?_
  rw [hsame.entry] at hf
  rw [hbit]
  by_cases hin : s ≤ q ∧ q < e
  · exfalso
    -- the run left its own entry and reached the FREE entry `f`, so it covers `f`
    have hne : f ≠ s / 512 := by
      rintro rfl
      rw [hpart] at hf
      exact absurd hf (by decide)
    have hclear : a.bit e = false := hend.resolve_left fun he => hfew (by omega)
    have hpast : e / 512 ≠ f := by
      intro he
      rw [hns f hf e he] at hclear
      cases hclear
    rcases hcase with hsmall | hspill
    · omega
    · have hlast : a.bit (s / 512 * 512 + 511) = true := hset _ (by omega) (by omega)
      have hnext := hspill _ hpart hlast
      have hfar : f ≠ s / 512 + 1 := fun h => hnext (h ▸ hf)
      have hall : ∀ q, q / 512 = s / 512 + 1 → a.bit q = true :=
        fun q hq => hset q (by omega) (by omega)
      rcases hs.values (s / 512 + 1) with hv | hv | hv
      · have := hs.full _ hv ((s / 512 + 1) * 512) (by omega)
        rw [hall _ (by omega)] at this
        cases this
      · obtain ⟨q, hq, hb⟩ := hs.partly _ hv
        rw [hall q hq] at hb
        cases hb
      · exact hnext hv
  · rw [if_neg hin]
    exact hns f hf q hq

theorem noStale_of_allocateL0Loop {maxLength l0End n p need i : Nat} {g : Grant}
    {a : AllocatorLevel01Loose} (hu : 0 < a.l0Granularity) (hs : L1Sound a)
    (hpart : a.entry i = L1_ENTRY_PARTIAL) (hstart : i * 512 ≤ p) (hstop : l0End = i * 512 + 512)
    (hns : NoStale a) (hcase : need ≤ 1024 ∨ NoSpill a) {need' : Nat} {g' : Grant}
    {a' : AllocatorLevel01Loose}
    (h : allocateL0Loop maxLength l0End n p need g a = .ok (need', g', a')) :
    need' < 512 ∨ NoStale a' := by
  induction n generalizing p need g a with
  | zero =>
      cases h
      exact .inr hns
  | succ n ih =>
      unfold allocateL0Loop at h
      split at h
      · rename_i hp
        split at h
        · cases h
        · dsimp only at h
          split at h
          · exact ih hu hs hpart (by unfold bitsPerSlot; omega) hns hcase h
          · split at h
            · exact ih hu hs hpart (by unfold bitsPerSlot; omega) hns hcase h
            · rename_i b hb
              obtain ⟨e, hrun, h⟩ := bind_eq_ok h
              obtain ⟨g₁, -, h⟩ := bind_eq_ok h
              obtain ⟨a₁, hmark, h⟩ := bind_eq_ok h
              obtain ⟨hle, hmax, hset, hend⟩ := runEnd_spec hrun
              obtain ⟨hsame, -, hbit⟩ := markAllocL0_spec hmark
              obtain ⟨hb₁, hb₂, -, -⟩ := findNextSetBit_some hb
              unfold bitsPerSlot at *
              generalize hrs : p / 64 * 64 + b = s at *
              have hentry : s / 512 = i := by omega
              have hunits : min (e - s) need = e - s := by omega
              rw [hunits] at h hmark hbit
              rw [Nat.add_sub_cancel' hle] at hbit
              have hkeep := noStale_of_run hs (hentry.symm ▸ hpart) hns hcase hset hend hsame hbit
              have hshrink : ∀ q, a₁.bit q = true → a.bit q = true := by
                intro q hq
                rw [hbit] at hq
                split at hq
                · cases hq
                · exact hq
              rcases hkeep with hfew | hns'
              · have hneed := (allocateL0Loop_spec (hsame.l0Granularity ▸ hu) h).1
                exact .inl (by omega)
              · refine ih (hsame.l0Granularity ▸ hu) (hs.of_sameL1 hsame hshrink)
                  (by rw [hsame.entry]; exact hpart) (by omega) hns' ?_ h
                rcases hcase with hsmall | hspill
                · exact .inl (by omega)
                · exact .inr (hspill.of_sameL1 hsame hshrink)
      · cases h
        exact .inr hns

/-! ## Whole entries -/

theorem p2align_of_mod {x m : Nat} (h : x % m = 0) : p2align x m = x := by
  unfold p2align
  exact Nat.div_mul_cancel (Nat.dvd_of_mod_eq_zero h)

theorem p2roundup_512 {x : Nat} (hx : x ≤ 2 ^ 64 - 512) :
    p2roundup x 512 = (x + 511) / 512 * 512 := by
  unfold p2roundup
  rw [Nat.mod_eq_of_lt (by omega)]
  omega

/-- The shape of the two levels, which no operation changes. -/
structure SameShape (a a' : AllocatorLevel01Loose) : Prop where
  l0Size : a'.l0.size = a.l0.size
  l0Granularity : a'.l0Granularity = a.l0Granularity

theorem SameShape.trans {a₁ a₂ a₃ : AllocatorLevel01Loose} (h : SameShape a₁ a₂)
    (h' : SameShape a₂ a₃) : SameShape a₁ a₃ :=
  ⟨h'.l0Size.trans h.l0Size, h'.l0Granularity.trans h.l0Granularity⟩

theorem SameL1.sameShape {a a' : AllocatorLevel01Loose} (h : SameL1 a a') : SameShape a a' :=
  ⟨h.l0Size, h.l0Granularity⟩

/-- L1 recomputed over the entries of units `[s, e)`. -/
def Refreshed (a a' : AllocatorLevel01Loose) (s e : Nat) : Prop :=
  ∀ i, a'.entry i =
    if s / 512 ≤ i ∧ i < (e + 511) / 512 then summary a'.l0.slot i else a.entry i

/-- Recomputing the entries of all changed bits keeps L1 sound. -/
theorem L1Sound.of_refreshed {a a' : AllocatorLevel01Loose} (hs : L1Sound a) {s e : Nat}
    (hbit : ∀ q, ¬ (s ≤ q ∧ q < e) → a'.bit q = a.bit q) (hent : Refreshed a a' s e) :
    L1Sound a' := by
  have hsame : ∀ i, ¬ (s / 512 ≤ i ∧ i < (e + 511) / 512) → ∀ q, q / 512 = i →
      a'.bit q = a.bit q := by
    intro i hi q hq
    exact hbit q fun hin => hi (by omega)
  refine ⟨fun i => ?_, fun i hi q hq => ?_, fun i hi => ?_⟩
  · rw [hent i]
    split
    · rcases summary_cases a'.l0.slot i with ⟨h, -⟩ | ⟨h, -⟩ | ⟨h, -⟩
      · exact .inl h
      · exact .inr (.inr h)
      · exact .inr (.inl h)
    · exact hs.values i
  · rw [hent i] at hi
    split at hi
    · rcases summary_cases a'.l0.slot i with ⟨-, h⟩ | ⟨h, -⟩ | ⟨h, -⟩
      · exact h q hq
      · rw [h] at hi
        exact absurd hi (by decide)
      · rw [h] at hi
        exact absurd hi (by decide)
    · rename_i hout
      rw [hsame i hout q hq]
      exact hs.full i hi q hq
  · rw [hent i] at hi
    split at hi
    · rcases summary_cases a'.l0.slot i with ⟨h, -⟩ | ⟨h, -⟩ | ⟨-, -, h⟩
      · rw [h] at hi
        exact absurd hi (by decide)
      · rw [h] at hi
        exact absurd hi (by decide)
      · exact h
    · rename_i hout
      obtain ⟨q, hq, hb⟩ := hs.partly i hi
      exact ⟨q, hq, (hsame i hout q hq).trans hb⟩

section Marking

variable {a a' : AllocatorLevel01Loose} {s e : Nat}

theorem refreshed_of_markL1OnL0 {a₁ : AllocatorLevel01Loose} (he : e ≤ 2 ^ 64 - 1024)
    (hsame : SameL1 a a₁)
    (h : a₁.markL1OnL0 (p2align s bitsPerSlotset) (p2roundup e bitsPerSlotset) = .ok a') :
    SameShape a a' ∧ a'.l0 = a₁.l0 ∧ Refreshed a a' s e := by
  obtain ⟨hl0, hg, -, hent⟩ := markL1OnL0_spec h
  refine ⟨⟨by rw [hl0, hsame.l0Size], hg.trans hsame.l0Granularity⟩, hl0, fun i => ?_⟩
  have hfirst : p2align (p2align s 512) 512 / 512 = s / 512 := by
    rw [p2align_of_mod (p2align_mod s 512), p2align, Nat.mul_div_cancel _ (by decide)]
  have hlast : p2roundup (p2roundup e 512) 512 / 512 = (e + 511) / 512 := by
    have hup := p2roundup_512 (show e ≤ 2 ^ 64 - 512 by omega)
    rw [hup, p2roundup_512 (by omega)]
    omega
  have hi := hent i
  unfold bitsPerSlotset at hi
  rw [hfirst, hlast, hsame.entry] at hi
  rw [hi, hl0]

theorem markAllocL1L0_spec (he : e ≤ 2 ^ 64 - 1024) (h : a.markAllocL1L0 s e = .ok a') :
    SameShape a a' ∧ (s < e → e ≤ a.l0.size * 64) ∧
      (∀ q, a'.bit q = if s ≤ q ∧ q < e then false else a.bit q) ∧ Refreshed a a' s e := by
  obtain ⟨a₁, hmark, h⟩ := bind_eq_ok h
  obtain ⟨hsame, hin, hbit⟩ := markAllocL0_spec hmark
  obtain ⟨hshape, hl0, href⟩ := refreshed_of_markL1OnL0 he hsame h
  refine ⟨hshape, hin, fun q => ?_, href⟩
  rw [← hbit]
  unfold AllocatorLevel01Loose.bit
  rw [hl0]

theorem markFreeL1L0_spec (he : e ≤ 2 ^ 64 - 1024) (h : a.markFreeL1L0 s e = .ok a') :
    SameShape a a' ∧ (s < e → e ≤ a.l0.size * 64) ∧
      (∀ q, a'.bit q = if s ≤ q ∧ q < e then true else a.bit q) ∧ Refreshed a a' s e := by
  obtain ⟨a₁, hmark, h⟩ := bind_eq_ok h
  obtain ⟨hsame, hin, hbit⟩ := markFreeL0_spec hmark
  obtain ⟨hshape, hl0, href⟩ := refreshed_of_markL1OnL0 he hsame h
  refine ⟨hshape, hin, fun q => ?_, href⟩
  rw [← hbit]
  unfold AllocatorLevel01Loose.bit
  rw [hl0]

end Marking

/-- What the levels keep from the start `a₀`, `g₀` of a call on: sound progress
towards `want`, and no stale entry ahead. -/
structure Progress (want : Nat) (a₀ : AllocatorLevel01Loose) (g₀ : Grant)
    (a : AllocatorLevel01Loose) (g : Grant) : Prop where
  handsOut : HandsOut PExtent.has a₀.freeAt a.freeAt g₀.res g.res
  sound : L1Sound a
  safe : SafeRemaining a (want - g.allocated)
  shape : SameShape a₀ a
  unit : 0 < a.l0Granularity
  size : a.l0.size * 64 ≤ 2 ^ 64 - 1024

variable {want : Nat} {a₀ a : AllocatorLevel01Loose} {g₀ g : Grant}

theorem Progress.start (hs : L1Sound a) (hsafe : SafeRemaining a want)
    (hu : 0 < a.l0Granularity) (hsize : a.l0.size * 64 ≤ 2 ^ 64 - 1024) (res : List PExtent) :
    Progress want a ⟨0, res⟩ a ⟨0, res⟩ :=
  ⟨HandsOut.refl _ _ _, hs, hsafe, ⟨rfl, rfl⟩, hu, hsize⟩

/-- A FREE entry taken whole. -/
theorem Progress.whole (hp : Progress want a₀ g₀ a g) {maxLength i : Nat} {g' : Grant}
    {a' : AllocatorLevel01Loose} (hfree : a.entry i = L1_ENTRY_FREE)
    (hrem : want - g.allocated ≥ 512 * a.l0Granularity)
    (hemp : fragmentAndEmplace maxLength (i * 512 * a.l0Granularity) (512 * a.l0Granularity) g =
      .ok g')
    (hin : i * 512 + 512 ≤ 2 ^ 64 - 1024)
    (hmark : a.markAllocL1L0 (i * 512) (i * 512 + 512) = .ok a') : Progress want a₀ g₀ a' g' := by
  obtain ⟨halloc, hcov⟩ := fragmentAndEmplace_spec hemp
  obtain ⟨hshape, -, hbit, hent⟩ := markAllocL1L0_spec hin hmark
  obtain ⟨hns, hcase⟩ := hp.safe.resolve_left (by omega)
  have hstep : HandsOut PExtent.has a.freeAt a'.freeAt g.res g'.res :=
    handsOut_of_units hp.unit hshape.l0Granularity
      (fun q h₁ h₂ => hns i hfree q (by omega)) hbit hcov
  -- the entry now reads FULL and the others are as before
  have hfull : a'.entry i = L1_ENTRY_FULL := by
    have hclear : a'.bit (i * 512) = false := by rw [hbit, if_pos (by omega)]
    have hi := hent i
    rw [if_pos (by omega)] at hi
    rcases summary_cases a'.l0.slot i with ⟨h, -⟩ | ⟨-, h⟩ | ⟨-, ⟨q, hq, h⟩, -⟩
    · exact hi.trans h
    · have := h (i * 512) (by omega)
      exact absurd (hclear.symm.trans this) (by decide)
    · have hq' := hbit q
      rw [if_pos (by omega)] at hq'
      exact absurd (hq'.symm.trans h) (by decide)
  have hother : ∀ j, j ≠ i → a'.entry j = a.entry j := fun j hj => by
    rw [hent j, if_neg (by omega)]
  have hkeep : ∀ q, q / 512 ≠ i → a'.bit q = a.bit q := fun q hq => by
    rw [hbit, if_neg (by omega)]
  have hns' : NoStale a' := by
    intro j hj q hq
    have hne : j ≠ i := by
      rintro rfl
      rw [hfull] at hj
      exact absurd hj (by decide)
    rw [hkeep q (by omega)]
    exact hns j (hother j hne ▸ hj) q hq
  refine ⟨hp.handsOut.trans hstep, hp.sound.of_refreshed (fun q hq => ?_) hent, ?_,
    hp.shape.trans hshape, hshape.l0Granularity ▸ hp.unit, hshape.l0Size ▸ hp.size⟩
  · rw [hbit, if_neg hq]
  · right
    refine ⟨hns', ?_⟩
    rw [hshape.l0Granularity]
    rcases hcase with hsmall | hspill
    · exact .inl (by omega)
    · refine .inr fun j hj hlast => ?_
      have hne : j ≠ i := by
        rintro rfl
        rw [hfull] at hj
        exact absurd hj (by decide)
      by_cases hnext : j + 1 = i
      · rw [hnext, hfull]
        decide
      · rw [hother _ hnext]
        rw [hkeep _ (by omega)] at hlast
        exact hspill j (hother j hne ▸ hj) hlast

/-- One entry allocated from run by run. -/
theorem Progress.runs (hp : Progress want a₀ g₀ a g) {maxLength i : Nat} {r : Int} {g' : Grant}
    {a' : AllocatorLevel01Loose} (hfull : a.entry i ≠ L1_ENTRY_FULL)
    (hslow : ¬ (a.entry i = L1_ENTRY_FREE ∧ want - g.allocated ≥ 512 * a.l0Granularity))
    (h : a.allocateL0 (want - g.allocated) maxLength (i * 512) (i * 512 + 512) g =
      .ok (r, g', a')) : Progress want a₀ g₀ a' g' := by
  obtain ⟨⟨need', g₁, a₁⟩, hloop, h⟩ := bind_eq_ok h
  cases h
  obtain ⟨hneed, halloc, hsame, hstep⟩ := allocateL0Loop_spec hp.unit hloop
  have hu := hp.unit
  have hshrink : ∀ q, a'.bit q = true → a.bit q = true :=
    fun q hq => bit_of_handsOut hu hsame.l0Granularity hstep hq
  generalize hrem : want - g.allocated = remaining at *
  have hleft : want - g'.allocated =
      remaining - (remaining / a.l0Granularity - need') * a.l0Granularity := by omega
  -- what is left is what was still needed, plus less than one unit
  have hbound : want - g'.allocated ≤
      need' * a.l0Granularity + remaining % a.l0Granularity := by
    have hdiv := Nat.div_add_mod remaining a.l0Granularity
    rw [hleft, Nat.sub_mul, Nat.mul_comm (remaining / a.l0Granularity)]
    have hle : need' * a.l0Granularity ≤ a.l0Granularity * (remaining / a.l0Granularity) := by
      rw [Nat.mul_comm a.l0Granularity]
      exact Nat.mul_le_mul_right _ hneed
    omega
  have hmod : remaining % a.l0Granularity < a.l0Granularity := Nat.mod_lt _ hu
  have hless : want - g'.allocated ≤ remaining := by omega
  refine ⟨hp.handsOut.trans hstep, hp.sound.of_sameL1 hsame hshrink, ?_,
    hp.shape.trans hsame.sameShape, hsame.l0Granularity ▸ hu, hsame.l0Size ▸ hp.size⟩
  unfold SafeRemaining
  rw [hsame.l0Granularity]
  rcases hp.safe with hfew | ⟨hns, hcase⟩
  · exact .inl (by rw [hrem] at hfew; omega)
  rw [hrem] at hcase
  by_cases hpart : a.entry i = L1_ENTRY_PARTIAL
  · have hcase' : remaining / a.l0Granularity ≤ 1024 ∨ NoSpill a := by
      refine hcase.imp (fun hsmall => ?_) id
      exact Nat.div_le_of_le_mul (by rw [Nat.mul_comm]; exact hsmall)
    rcases noStale_of_allocateL0Loop hu hp.sound hpart (Nat.le_refl _) rfl hns hcase' hloop with
      hfew | hns'
    · have hmul : need' * a.l0Granularity ≤ 511 * a.l0Granularity :=
        Nat.mul_le_mul_right _ (by omega)
      exact .inl (by omega)
    · refine .inr ⟨hns', hcase.imp (fun hsmall => by omega) fun hspill => ?_⟩
      exact hspill.of_sameL1 hsame hshrink
  · -- a FREE entry is allocated from run by run only when little is left
    have hfree := ((hp.sound.values i).resolve_left hfull).resolve_left hpart
    have hfew : remaining < 512 * a.l0Granularity :=
      Nat.lt_of_not_le fun hge => hslow ⟨hfree, hge⟩
    exact .inl (by omega)

theorem Progress.allocateL1Loop (hp : Progress want a₀ g₀ a g) {maxLength n i : Nat} {r : Int}
    {g' : Grant} {a' : AllocatorLevel01Loose}
    (h : allocateL1Loop want maxLength n i g a = .ok (r, g', a')) :
    Progress want a₀ g₀ a' g' := by
  induction n generalizing i g a with
  | zero =>
      cases h
      exact hp
  | succ n ih =>
      unfold AllocatorLevel01Loose.allocateL1Loop at h
      split at h
      · cases h
        exact hp
      · dsimp only at h
        split at h
        · exact ih hp h
        · rename_i hfull
          split at h
          · cases h
            exact hp
          · split at h
            · rename_i hwhole
              obtain ⟨g₁, hemp, h⟩ := bind_eq_ok h
              obtain ⟨a₁, hmark, h⟩ := bind_eq_ok h
              unfold bitsPerSlotset at hwhole hemp hmark
              have hin : i * 512 + 512 ≤ a.l0.size * 64 := by
                obtain ⟨a₂, hl0, -⟩ := bind_eq_ok hmark
                exact (markAllocL0_spec hl0).2.1 (by omega)
              have hsize := hp.size
              exact ih (hp.whole hwhole.1 hwhole.2 hemp (by omega) hmark) h
            · rename_i hslow
              obtain ⟨⟨r₁, g₁, a₁⟩, hl0, h⟩ := bind_eq_ok h
              exact ih (hp.runs hfull hslow hl0) h

end AllocatorLevel01Loose

end Clab.Blk
