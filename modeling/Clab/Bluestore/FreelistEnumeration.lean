import Clab.Bluestore.FreelistRuns
import Clab.Lib.RangeSet

/-!
# Enumerating the freelist

Where the position of an enumeration stands, the first loop of `enumerate_next`
finds the next free block and the second the next allocated one behind it. So a
whole enumeration returns the maximal runs of free blocks, as long as the end of
the device, rounded up to whole keys, is a number of 64 bits.
-/

namespace Clab.Bluestore

open Clab.Common Clab.Codec Clab.RangeSet

namespace BitmapFreelistManager

variable {m : BitmapFreelistManager}

/-! ## The two loops -/

theorem getNextClearBit_some {v : Value} (hv : v.length = 16) {pos b : Nat}
    (h : getNextClearBit v pos = some b) :
    pos ≤ b ∧ b < 128 ∧ valueBit v b = false ∧ ∀ i, pos ≤ i → i < b → valueBit v i = true := by
  obtain ⟨h₁, h₂, h₃, h₄⟩ := scanBits_some h
  rw [hv] at h₂
  refine ⟨h₁, by omega, by simpa using h₃, fun i hi hlt => ?_⟩
  simpa using h₄ i hi hlt

theorem getNextClearBit_none {v : Value} (hv : v.length = 16) {pos : Nat}
    (h : getNextClearBit v pos = none) : ∀ i, pos ≤ i → i < 128 → valueBit v i = true := by
  intro i hi hlt
  have := scanBits_none h i hi (by rw [hv]; omega)
  simpa using this

theorem getNextSetBit_some {v : Value} (hv : v.length = 16) {pos b : Nat}
    (h : getNextSetBit v pos = some b) :
    pos ≤ b ∧ b < 128 ∧ valueBit v b = true ∧ ∀ i, pos ≤ i → i < b → valueBit v i = false := by
  obtain ⟨h₁, h₂, h₃, h₄⟩ := scanBits_some h
  rw [hv] at h₂
  exact ⟨h₁, by omega, h₃, h₄⟩

theorem getNextSetBit_none {v : Value} (hv : v.length = 16) {pos : Nat}
    (h : getNextSetBit v pos = none) : ∀ i, pos ≤ i → i < 128 → valueBit v i = false := by
  intro i hi hlt
  exact scanBits_none h i hi (by rw [hv]; omega)

/-- The key of entry `j` is the offset of its first block. -/
theorem Configured.key_eq (h : Configured m) {j : Nat} (hj : j < m.keyCount) :
    j * m.bytesPerKey = 128 * j * m.bytesPerBlock := by
  rcases h.span_cases with ⟨hspan, -⟩ | ⟨hspan, -⟩
  · rw [hspan]
    ring
  · have hone : j = 0 := by
      by_contra hne
      have := h.keysFit.apart (by omega)
      omega
    rw [hone]
    omega

/-- The next key, in 64 bits. -/
theorem Configured.next_key (h : Configured m) {j : Nat} (hj : j < m.keyCount) :
    add64 (j * m.bytesPerKey) m.bytesPerKey = 128 * (j + 1) * m.bytesPerBlock % 2 ^ 64 := by
  rw [add64, h.key_eq hj, h.bytesPerKey, Nat.add_mod_mod]
  congr 1
  ring

theorem Configured.getOffset_eq (h : Configured m) {j : Nat} (hj : j < m.keyCount) (b : Nat) :
    m.getOffset (j * m.bytesPerKey) b = (128 * j + b) * m.bytesPerBlock % 2 ^ 64 := by
  rw [getOffset, h.key_eq hj]
  congr 1
  ring

/-- Keys of the key space start inside the device. -/
theorem Configured.key_lt_size (h : Configured m) {j : Nat} (hj : j < m.keyCount)
    (hsize : 0 < m.size) : j * m.bytesPerKey < m.size := by
  have hunits : 0 < m.units := h.div_lt_units (x := 0) hsize |>.trans_le' (Nat.zero_le _)
  have hlt : 128 * j < m.units := by
    unfold keyCount rounded at hj
    omega
  have := Nat.mul_lt_mul_of_pos_right hlt h.unit_pos
  rw [h.key_eq hj, ← h.size_eq]
  exact this

theorem blockBit_behind {j : Nat} {v : Value} {rest : Entries} {i : Nat} (hi : 128 * (j + 1) ≤ i) :
    blockBit ((j, v) :: rest) i = blockBit rest i := by
  rw [blockBit_cons, if_neg (by omega)]

/-- Where the first loop ends: at free block `s`, with the position at or behind
it, or behind all keys. -/
inductive FreeFound (m : BitmapFreelistManager) (l : Entries) (s : Nat) : Cursor → Prop
  | key {j : Nat} {v : Value} {rest : Entries} {pos : Nat} :
      WellFormed m.keyCount ((j, v) :: rest) →
      (∀ i, 128 * j + pos ≤ i → blockBit l i = blockBit ((j, v) :: rest) i) →
      s ≤ 128 * j + pos → pos ≤ 128 → s < 128 * (j + 1) →
      (∀ i, s ≤ i → i < 128 * j + pos → blockBit l i = false) → blockBit l s = false →
      FreeFound m l s ⟨some (toSpace m.bytesPerKey rest), j * m.bytesPerKey, v, pos⟩
  | behind {j : Nat} : j < m.keyCount → s = 128 * (j + 1) → (∀ i, s ≤ i → blockBit l i = false) →
      FreeFound m l s ⟨none, s * m.bytesPerBlock % 2 ^ 64, [], 0⟩

theorem FreeFound.congr {l l' : Entries} {s : Nat} {c : Cursor} (h : FreeFound m l s c)
    (hl : ∀ i, s ≤ i → blockBit l' i = blockBit l i) : FreeFound m l' s c := by
  cases h with
  | key hw hagree hle hpos hlt hclear hs =>
      refine .key hw (fun i hi => (hl i (by omega)).trans (hagree i hi)) hle hpos hlt
        (fun i hi hlt => ?_) ?_
      · rw [hl i hi]
        exact hclear i hi hlt
      · rw [hl s le_rfl]
        exact hs
  | behind hj hs hclear =>
      refine .behind hj hs fun i hi => ?_
      rw [hl i hi]
      exact hclear i hi

theorem blockBit_here {j : Nat} {v : Value} {rest : Entries} {i : Nat} (h₁ : 128 * j ≤ i)
    (h₂ : i < 128 * (j + 1)) : blockBit ((j, v) :: rest) i = valueBit v (i - 128 * j) := by
  rw [blockBit_cons, if_pos (by omega)]
  congr 1
  omega

/-- The first loop stops in the key it is at. -/
theorem freeFound_here {j : Nat} {v : Value} {rest : Entries} {pos b : Nat}
    (hw : WellFormed m.keyCount ((j, v) :: rest)) (hb : getNextClearBit v pos = some b) :
    128 * j + pos ≤ 128 * j + b ∧
      (∀ i, 128 * j + pos ≤ i → i < 128 * j + b → blockBit ((j, v) :: rest) i = true) ∧
      FreeFound m ((j, v) :: rest) (128 * j + b)
        ⟨some (toSpace m.bytesPerKey rest), j * m.bytesPerKey, v, b⟩ := by
  obtain ⟨h₁, h₂, h₃, h₄⟩ := getNextClearBit_some (hw.length (j, v) (by simp)) hb
  refine ⟨by omega, fun i hi hlt => ?_, .key hw (fun i _ => rfl) le_rfl
    h₂.le (by omega) (fun i hi hlt => by omega) ?_⟩
  · rw [blockBit_here (by omega) (by omega)]
    exact h₄ _ (by omega) (by omega)
  · rw [blockBit_here (by omega) (by omega), Nat.add_sub_cancel_left]
    exact h₃

/-- The first loop skips the allocated blocks. -/
theorem skipSet_spec (h : Configured m) {j : Nat} {v : Value} {rest : Entries} {pos : Nat}
    (hw : WellFormed m.keyCount ((j, v) :: rest)) (hpos : pos ≤ 128) :
    ∃ s c, m.skipSet (toSpace m.bytesPerKey rest) (j * m.bytesPerKey) v pos =
        (s * m.bytesPerBlock % 2 ^ 64, c) ∧ 128 * j + pos ≤ s ∧
      (∀ i, 128 * j + pos ≤ i → i < s → blockBit ((j, v) :: rest) i = true) ∧
      FreeFound m ((j, v) :: rest) s c := by
  induction rest generalizing j v pos with
  | nil =>
      have hj : j < m.keyCount := hw.below (j, v) (by simp)
      rw [toSpace_nil, skipSet]
      cases hb : getNextClearBit v pos with
      | some b =>
          obtain ⟨h₁, h₂, h₃⟩ := freeFound_here hw hb
          exact ⟨_, _, by rw [← h.getOffset_eq hj]; rfl, h₁, h₂, h₃⟩
      | none =>
          have hset := getNextClearBit_none (hw.length (j, v) (by simp)) hb
          refine ⟨128 * (j + 1), _, ?_, by omega, fun i hi hlt => ?_,
            .behind hj rfl fun i hi => ?_⟩
          · show (m.getOffset (add64 _ _) 0, (⟨none, add64 _ _, [], 0⟩ : Cursor)) = _
            rw [h.next_key hj, getOffset, Nat.zero_mul, Nat.add_zero, Nat.mod_mod]
          · rw [blockBit_here (by omega) hlt]
            exact hset _ (by omega) (by omega)
          · rw [blockBit_behind hi]
            rfl
  | cons p rest ih =>
      obtain ⟨j', v'⟩ := p
      have hj : j < m.keyCount := hw.below (j, v) (by simp)
      have hj' : j' < m.keyCount := hw.below (j', v') (by simp)
      have hjj : j < j' := (List.pairwise_cons.mp hw.ordered).1 (j', v') (by simp)
      rw [toSpace_cons, skipSet]
      cases hb : getNextClearBit v pos with
      | some b =>
          obtain ⟨h₁, h₂, h₃⟩ := freeFound_here hw hb
          exact ⟨_, _, by rw [← h.getOffset_eq hj]; rfl, h₁, h₂, h₃⟩
      | none =>
          have hset := getNextClearBit_none (hw.length (j, v) (by simp)) hb
          have hskip : ∀ i, 128 * j + pos ≤ i → i < 128 * (j + 1) →
              blockBit ((j, v) :: (j', v') :: rest) i = true := by
            intro i hi hlt
            rw [blockBit_here (by omega) hlt]
            exact hset _ (by omega) (by omega)
          -- the end of this key does not wrap around, as there is a key behind it
          have hnext : 128 * (j + 1) * m.bytesPerBlock ≤ j' * m.bytesPerKey := by
            rw [h.key_eq hj']
            exact Nat.mul_le_mul_right _ (by omega)
          have hbelow := h.keysFit.below j' hj'
          have hend : 128 * (j + 1) * m.bytesPerBlock % 2 ^ 64 =
              128 * (j + 1) * m.bytesPerBlock := Nat.mod_eq_of_lt (by omega)
          simp only [h.next_key hj, h.keysFit.decode hj', hend]
          split
          · rename_i hgap
            rw [h.key_eq hj'] at hgap
            have hlt : j + 1 < j' := by
              have := Nat.lt_of_mul_lt_mul_right hgap
              omega
            have hmissing : ∀ i, 128 * (j + 1) ≤ i → i < 128 * j' →
                blockBit ((j, v) :: (j', v') :: rest) i = false := by
              intro i hi hi'
              rw [blockBit_behind hi]
              refine blockBit_of_lt fun q hq => ?_
              rcases List.mem_cons.mp hq with rfl | hq
              · exact show i / 128 < j' by omega
              · have := (List.pairwise_cons.mp hw.tail.ordered).1 q hq
                omega
            refine ⟨128 * (j + 1), _, by rw [hend], by omega, hskip, .key hw.tail
              (fun i hi => blockBit_behind (by omega)) (by omega) (Nat.zero_le _) (by omega)
              (fun i hi hi' => hmissing i hi (by omega)) (hmissing _ le_rfl (by omega))⟩
          · rename_i hgap
            have hsame : j' = j + 1 := by
              by_contra hne
              refine hgap ?_
              rw [h.key_eq hj']
              exact Nat.mul_lt_mul_of_pos_right (by omega) h.unit_pos
            obtain ⟨s, c, heq, hle, hset', hfound⟩ := ih hw.tail (Nat.zero_le 128)
            refine ⟨s, c, heq, by omega, fun i hi hlt => ?_, ?_⟩
            · rcases Nat.lt_or_ge i (128 * (j + 1)) with hin | hout
              · exact hskip i hi hin
              · rw [blockBit_behind hout]
                exact hset' i (by omega) hlt
            · exact hfound.congr fun i hi => blockBit_behind (by omega)

/-- The second loop skips the free blocks. -/
theorem skipClear_spec (h : Configured m) {j : Nat} {v : Value} {rest : Entries} {pos : Nat}
    (hw : WellFormed m.keyCount ((j, v) :: rest)) (hpos : pos ≤ 128) :
    (∃ j' v' rest' pos', m.skipClear (toSpace m.bytesPerKey rest) (j * m.bytesPerKey) v pos =
        (some ((128 * j' + pos') * m.bytesPerBlock % 2 ^ 64),
          ⟨some (toSpace m.bytesPerKey rest'), j' * m.bytesPerKey, v', pos'⟩) ∧
      128 * j + pos ≤ 128 * j' + pos' ∧ pos' ≤ 128 ∧
      (∀ i, 128 * j + pos ≤ i → i < 128 * j' + pos' →
        blockBit ((j, v) :: rest) i = false) ∧
      blockBit ((j, v) :: rest) (128 * j' + pos') = true ∧
      WellFormed m.keyCount ((j', v') :: rest') ∧
      ∀ i, 128 * j' + pos' ≤ i → blockBit ((j, v) :: rest) i = blockBit ((j', v') :: rest') i) ∨
    ∃ j' < m.keyCount, m.skipClear (toSpace m.bytesPerKey rest) (j * m.bytesPerKey) v pos =
        (none, ⟨none, j' * m.bytesPerKey, [], 0⟩) ∧
      ∀ i, 128 * j + pos ≤ i → blockBit ((j, v) :: rest) i = false := by
  induction rest generalizing j v pos with
  | nil =>
      have hj : j < m.keyCount := hw.below (j, v) (by simp)
      rw [toSpace_nil, skipClear]
      cases hb : getNextSetBit v pos with
      | some b =>
          obtain ⟨h₁, h₂, h₃, h₄⟩ := getNextSetBit_some (hw.length (j, v) (by simp)) hb
          refine .inl ⟨j, v, [], b, by rw [← h.getOffset_eq hj]; rfl, by omega, by omega,
            fun i hi hlt => ?_, ?_, hw, fun i _ => rfl⟩
          · rw [blockBit_here (by omega) (by omega)]
            exact h₄ _ (by omega) (by omega)
          · rw [blockBit_here (by omega) (by omega), Nat.add_sub_cancel_left]
            exact h₃
      | none =>
          have hclear := getNextSetBit_none (hw.length (j, v) (by simp)) hb
          refine .inr ⟨j, hj, rfl, fun i hi => ?_⟩
          rcases Nat.lt_or_ge i (128 * (j + 1)) with hin | hout
          · rw [blockBit_here (by omega) hin]
            exact hclear _ (by omega) (by omega)
          · rw [blockBit_behind hout]
            rfl
  | cons p rest ih =>
      obtain ⟨j', v'⟩ := p
      have hj : j < m.keyCount := hw.below (j, v) (by simp)
      have hj' : j' < m.keyCount := hw.below (j', v') (by simp)
      have hjj : j < j' := (List.pairwise_cons.mp hw.ordered).1 (j', v') (by simp)
      rw [toSpace_cons, skipClear]
      cases hb : getNextSetBit v pos with
      | some b =>
          obtain ⟨h₁, h₂, h₃, h₄⟩ := getNextSetBit_some (hw.length (j, v) (by simp)) hb
          refine .inl ⟨j, v, (j', v') :: rest, b, by rw [← h.getOffset_eq hj]; rfl, by omega,
            by omega, fun i hi hlt => ?_, ?_, hw, fun i _ => rfl⟩
          · rw [blockBit_here (by omega) (by omega)]
            exact h₄ _ (by omega) (by omega)
          · rw [blockBit_here (by omega) (by omega), Nat.add_sub_cancel_left]
            exact h₃
      | none =>
          have hclear := getNextSetBit_none (hw.length (j, v) (by simp)) hb
          -- this key is clear from here on, and there is nothing up to the next
          have hhere : ∀ i, 128 * j + pos ≤ i → i < 128 * j' →
              blockBit ((j, v) :: (j', v') :: rest) i = false := by
            intro i hi hlt
            rcases Nat.lt_or_ge i (128 * (j + 1)) with hin | hout
            · rw [blockBit_here (by omega) hin]
              exact hclear _ (by omega) (by omega)
            · rw [blockBit_behind hout]
              refine blockBit_of_lt fun q hq => ?_
              rcases List.mem_cons.mp hq with rfl | hq
              · exact show i / 128 < j' by omega
              · have := (List.pairwise_cons.mp hw.tail.ordered).1 q hq
                omega
          have hbehind : ∀ i, 128 * j' ≤ i → blockBit ((j, v) :: (j', v') :: rest) i =
              blockBit ((j', v') :: rest) i := fun i hi => blockBit_behind (by omega)
          simp only [h.keysFit.decode hj']
          rcases ih hw.tail (Nat.zero_le 128) with
            ⟨j₂, v₂, rest₂, pos₂, heq, hle, hpos₂, hfree, hset, hw₂, hagree⟩ |
            ⟨j₂, hj₂, heq, hfree⟩
          · refine .inl ⟨j₂, v₂, rest₂, pos₂, heq, by omega, hpos₂, fun i hi hlt => ?_, ?_, hw₂,
              fun i hi => ?_⟩
            · rcases Nat.lt_or_ge i (128 * j') with hin | hout
              · exact hhere i hi hin
              · rw [hbehind i hout]
                exact hfree i (by omega) hlt
            · rw [hbehind _ (by omega)]
              exact hset
            · rw [hbehind i (by omega)]
              exact hagree i hi
          · refine .inr ⟨j₂, hj₂, heq, fun i hi => ?_⟩
            rcases Nat.lt_or_ge i (128 * j') with hin | hout
            · exact hhere i hi hin
            · rw [hbehind i hout]
              exact hfree i (by omega)

/-! ## One range -/

/-- The position stands at block `p`. -/
def At (m : BitmapFreelistManager) (l : Entries) (c : Cursor) (p : Nat) : Prop :=
  ∃ j v rest pos, c = ⟨some (toSpace m.bytesPerKey rest), j * m.bytesPerKey, v, pos⟩ ∧
    p = 128 * j + pos ∧ pos ≤ 128 ∧ WellFormed m.keyCount ((j, v) :: rest) ∧
    ∀ i, p ≤ i → blockBit l i = blockBit ((j, v) :: rest) i

/-- What `enumerate_next` finds from block `p` on, when rounding up the device
leaves its end in 64 bits. -/
inductive NextRange (m : BitmapFreelistManager) (l : Entries) (p : Nat) :
    Option (Nat × Nat) → Cursor → Prop
  | range {s e : Nat} {c : Cursor} :
      p ≤ s → s < e → e ≤ m.units → (∀ i, p ≤ i → i < s → blockBit l i = true) →
      (∀ i, s ≤ i → i < e → blockBit l i = false) →
      (At m l c e ∧ blockBit l e = true ∨ m.size ≤ c.offset ∧ e = m.units) →
      NextRange m l p (some (s * m.bytesPerBlock, (e - s) * m.bytesPerBlock)) c
  | stop {c : Cursor} :
      m.size ≤ c.offset → (∀ i, p ≤ i → i < m.units → blockBit l i = true) →
      NextRange m l p none c

/-- The first loop, from where the position stands. -/
theorem At.skipSet (h : Configured m) {l : Entries} {c : Cursor} {p : Nat} (hat : At m l c p) :
    ∃ s c₁, m.skipSet (c.p.getD []) c.offset c.bl c.blPos =
        (s * m.bytesPerBlock % 2 ^ 64, c₁) ∧ p ≤ s ∧
      (∀ i, p ≤ i → i < s → blockBit l i = true) ∧ FreeFound m l s c₁ := by
  obtain ⟨j, v, rest, pos, rfl, rfl, hpos, hw, hagree⟩ := hat
  obtain ⟨s, c₁, heq, hle, hset, hfound⟩ := skipSet_spec h hw hpos
  refine ⟨s, c₁, heq, hle, fun i hi hlt => ?_, hfound.congr fun i hi => hagree i (by omega)⟩
  rw [hagree i hi]
  exact hset i hi hlt

theorem At.offset_lt (h : Configured m) (hsize : 0 < m.size) {l : Entries} {c : Cursor} {p : Nat}
    (hat : At m l c p) : c.offset < m.size := by
  obtain ⟨j, v, rest, pos, rfl, -, -, hw, -⟩ := hat
  exact h.key_lt_size (hw.below (j, v) (by simp)) hsize

/-- The second loop, from where the first one stopped. -/
theorem FreeFound.skipClear (h : Configured m) (hsize : 0 < m.size) {l : Entries} {s : Nat}
    {c : Cursor} (hf : FreeFound m l s c) :
    (∃ e c', m.skipClearFrom c = (some (e * m.bytesPerBlock % 2 ^ 64), c') ∧ s < e ∧
      (∀ i, s ≤ i → i < e → blockBit l i = false) ∧ blockBit l e = true ∧ At m l c' e) ∨
    (∃ c', m.skipClearFrom c = (none, c') ∧ (∀ i, s ≤ i → blockBit l i = false) ∧
      (c'.offset < m.size ∧ s < m.rounded ∨
        s ≤ m.rounded ∧ s % 128 = 0 ∧ c'.offset = s * m.bytesPerBlock % 2 ^ 64)) := by
  have hrounded : ∀ {j}, j < m.keyCount → 128 * (j + 1) ≤ m.rounded := by
    intro j hj
    have hunits : 0 < m.units := h.div_lt_units (x := 0) hsize |>.trans_le' (Nat.zero_le _)
    unfold keyCount rounded at *
    omega
  cases hf with
  | key hw hagree hle hpos hlt hclear hs =>
      rename_i j v rest pos
      have hj : j < m.keyCount := hw.below (j, v) (by simp)
      rcases skipClear_spec h hw hpos with
        ⟨j', v', rest', pos', heq, hle', hpos', hfree, hset, hw', hagree'⟩ | ⟨j', hj', heq, hfree⟩
      · have hfree' : ∀ i, s ≤ i → i < 128 * j' + pos' → blockBit l i = false := by
          intro i hi hlt
          rcases Nat.lt_or_ge i (128 * j + pos) with hin | hout
          · exact hclear i hi hin
          · rw [hagree i hout]
            exact hfree i hout hlt
        have hset' : blockBit l (128 * j' + pos') = true := by
          rw [hagree _ hle']
          exact hset
        have hne : s ≠ 128 * j' + pos' := by
          intro heq
          rw [heq, hset'] at hs
          exact absurd hs (by decide)
        refine .inl ⟨128 * j' + pos', _, heq, by omega, hfree', hset', j', v', rest', pos', rfl,
          rfl, hpos', hw', fun i hi => ?_⟩
        rw [hagree i (by omega)]
        exact hagree' i hi
      · refine .inr ⟨_, heq, fun i hi => ?_, .inl ⟨h.key_lt_size hj' hsize, ?_⟩⟩
        rcases Nat.lt_or_ge i (128 * j + pos) with hin | hout
        · exact hclear i hi hin
        · rw [hagree i hout]
          exact hfree i hout
        · have := hrounded hj
          omega
  | behind hj hs hclear => exact .inr ⟨_, rfl, hclear, .inr ⟨hs ▸ hrounded hj, by omega, rfl⟩⟩

/-- There are no keys behind the device. -/
theorem blockBit_of_ge_keyCount {l : Entries} (hw : WellFormed m.keyCount l) (hunits : 0 < m.units)
    {i : Nat} (hi : m.rounded ≤ i) : blockBit l i = false := by
  unfold blockBit
  rw [List.find?_eq_none.mpr]
  intro p hp
  have hlt := hw.below p hp
  unfold keyCount rounded at *
  simp
  omega

theorem nextRange_spec (h : Configured m) (hround : RoundsUp m) {l : Entries}
    (hw : WellFormed m.keyCount l)
    (hpad : ∀ b, m.units ≤ b → b < m.rounded → blockBit l b = true) (hsize : 0 < m.size)
    {c : Cursor} {p : Nat} (hat : At m l c p) :
    NextRange m l p (m.nextRange c).1 (m.nextRange c).2 := by
  have hunit := h.unit_pos
  have hunits : 0 < m.units := h.div_lt_units (x := 0) hsize |>.trans_le' (Nat.zero_le _)
  have hsizeEq : m.units * m.bytesPerBlock = m.size := h.size_eq
  have hend : m.deviceEnd = m.rounded * m.bytesPerBlock :=
    h.deviceEnd_eq.trans (Nat.mod_eq_of_lt hround)
  have hrounded := m.units_le_rounded
  -- blocks up to the rounded end have offsets in 64 bits
  have hin64 : ∀ i, i ≤ m.rounded → i * m.bytesPerBlock % 2 ^ 64 = i * m.bytesPerBlock :=
    fun i hi => Nat.mod_eq_of_lt ((Nat.mul_le_mul_right _ hi).trans_lt hround)
  obtain ⟨s, c₁, hskip, hps, hset, hfound⟩ := hat.skipSet h
  unfold nextRange
  rw [if_neg (Nat.not_le.mpr (hat.offset_lt h hsize)), hskip]
  show NextRange m l p (m.closeRange (s * m.bytesPerBlock % 2 ^ 64) (m.skipClearFrom c₁)).1
    (m.closeRange (s * m.bytesPerBlock % 2 ^ 64) (m.skipClearFrom c₁)).2
  have hmul : ∀ {i j}, i ≤ j → i * m.bytesPerBlock ≤ j * m.bytesPerBlock :=
    fun hij => Nat.mul_le_mul_right _ hij
  rcases hfound.skipClear h hsize with
    ⟨e, c', heq, hse, hfree, hbit, hat'⟩ | ⟨c', heq, hfree, hoff⟩
  · have he : e < m.rounded := by
      by_contra hge
      have hnone : blockBit l e = false := blockBit_of_ge_keyCount hw hunits (by omega)
      exact absurd (hbit.symm.trans hnone) (by decide)
    have hes : e ≤ m.units := by
      by_contra hgt
      have hset' := hpad (max s m.units) (by omega) (by omega)
      have hclear := hfree (max s m.units) (by omega) (by omega)
      exact absurd (hset'.symm.trans hclear) (by decide)
    have hlen : sub64 (min m.deviceEnd (e * m.bytesPerBlock)) (s * m.bytesPerBlock) =
        (e - s) * m.bytesPerBlock := by
      have h₁ := hmul he.le
      have h₂ := hmul hse.le
      rw [hend, Nat.min_eq_right h₁, sub64_of_le h₂ (h₁.trans_lt hround), ← Nat.sub_mul]
    rw [heq, hin64 s (by omega), hin64 e he.le]
    show NextRange m l p (some (_, sub64 (min _ _) _)) c'
    rw [hlen]
    exact .range hps hse hes hset hfree (.inl ⟨hat', hbit⟩)
  · -- nothing is allocated from `s` on, so the device is a whole number of keys
    have hwhole : s < m.rounded → m.units = m.rounded := by
      intro hlt
      by_contra hne
      have hset' := hpad (m.rounded - 1) (by omega) (by omega)
      have hclear := hfree (m.rounded - 1) (by omega)
      exact absurd (hset'.symm.trans hclear) (by decide)
    have hrange : s < m.rounded → c'.offset < m.size →
        NextRange m l p (m.closeRange (s * m.bytesPerBlock) (none, c')).1
          (m.closeRange (s * m.bytesPerBlock) (none, c')).2 := by
      intro hs hlt
      have hu := hwhole hs
      have hlen : sub64 m.deviceEnd (s * m.bytesPerBlock) = (m.units - s) * m.bytesPerBlock := by
        rw [hend, sub64_of_le (hmul hs.le) hround, ← Nat.sub_mul, hu]
      rw [closeRange, if_pos hlt, hlen]
      exact .range hps (by omega) le_rfl hset (fun i hi _ => hfree i hi) (.inr ⟨le_rfl, rfl⟩)
    rw [heq]
    rcases hoff with ⟨hlt, hs⟩ | ⟨hs, -, hoff⟩
    · rw [hin64 s hs.le]
      exact hrange hs hlt
    · rw [hin64 s hs] at hoff ⊢
      by_cases hlt : c'.offset < m.size
      · refine hrange ?_ hlt
        rw [hoff, ← hsizeEq] at hlt
        exact (Nat.lt_of_mul_lt_mul_right hlt).trans_le hrounded
      · rw [closeRange, if_neg hlt]
        refine .stop (Nat.not_lt.mp hlt) fun i hi hiu => hset i hi ?_
        rw [hoff, ← hsizeEq] at hlt
        have := Nat.le_of_mul_le_mul_right (Nat.not_lt.mp hlt) hunit
        omega

/-! ## A whole enumeration -/

/-- Calling `enumerate_next` until it returns false: the ranges. -/
inductive Enumerates (db : KeyValueDB) :
    BitmapFreelistManager → List (Segment Nat) → BitmapFreelistManager → Prop
  | done {m m' : BitmapFreelistManager} :
      m.enumerateNext db = some (none, m') → Enumerates db m [] m'
  | next {m m₁ m' : BitmapFreelistManager} {offset length : Nat} {ranges : List (Segment Nat)} :
      m.enumerateNext db = some (some (offset, length), m₁) → Enumerates db m₁ ranges m' →
      Enumerates db m (⟨offset, offset + length⟩ :: ranges) m'

/-- The bytes of the device from block `p` on whose blocks are not allocated. -/
def freeFrom (m : BitmapFreelistManager) (l : Entries) (p : Nat) : Set Nat :=
  {x | p * m.bytesPerBlock ≤ x ∧ x < m.size ∧ blockBit l (x / m.bytesPerBlock) = false}

theorem freeFrom_range (h : Configured m) {l : Entries} {p s e : Nat} (hps : p ≤ s) (hse : s < e)
    (he : e ≤ m.units) (hset : ∀ i, p ≤ i → i < s → blockBit l i = true)
    (hfree : ∀ i, s ≤ i → i < e → blockBit l i = false) :
    freeFrom m l p = Set.Ico (s * m.bytesPerBlock) (s * m.bytesPerBlock +
      (e - s) * m.bytesPerBlock) ∪ freeFrom m l e := by
  have hunit := h.unit_pos
  have hend : s * m.bytesPerBlock + (e - s) * m.bytesPerBlock = e * m.bytesPerBlock := by
    rw [← Nat.add_mul, Nat.add_sub_cancel' hse.le]
  have hsize : e * m.bytesPerBlock ≤ m.size := by
    rw [← h.size_eq]
    exact Nat.mul_le_mul_right _ he
  have hse' : s * m.bytesPerBlock ≤ e * m.bytesPerBlock := Nat.mul_le_mul_right _ hse.le
  have hps' : p * m.bytesPerBlock ≤ s * m.bytesPerBlock := Nat.mul_le_mul_right _ hps
  rw [hend]
  ext x
  have hblock := fun {a} => Nat.le_div_iff_mul_le (x := a) (y := x) hunit
  have hblock' := fun {a} => Nat.div_lt_iff_lt_mul (x := x) (y := a) hunit
  constructor
  · rintro ⟨h₁, h₂, h₃⟩
    rcases Nat.lt_or_ge x (e * m.bytesPerBlock) with hlt | hge
    · refine .inl ⟨?_, hlt⟩
      by_contra hlow
      have := hset _ (hblock.mpr h₁) (hblock'.mpr (Nat.not_le.mp hlow))
      exact absurd (this.symm.trans h₃) (by decide)
    · exact .inr ⟨hge, h₂, h₃⟩
  · rintro (⟨h₁, h₂⟩ | ⟨h₁, h₂, h₃⟩)
    · exact ⟨hps'.trans h₁, h₂.trans_le hsize, hfree _ (hblock.mpr h₁) (hblock'.mpr h₂)⟩
    · exact ⟨(hps'.trans hse').trans h₁, h₂, h₃⟩

/-- The position is behind the device. -/
theorem nextRange_behind {c : Cursor} (h : m.size ≤ c.offset) : m.nextRange c = (none, c) := if_pos h

theorem skipSet_enumerate (m : BitmapFreelistManager) (c : Cursor) (rest : Space)
    (offset : Nat) (bl : Value) (blPos : Nat) :
    { m with enumerate := c }.skipSet rest offset bl blPos = m.skipSet rest offset bl blPos := by
  induction rest generalizing offset bl blPos with
  | nil => rfl
  | cons p rest ih =>
      rw [skipSet, skipSet]
      simp only [ih]
      rfl

theorem skipClear_enumerate (m : BitmapFreelistManager) (c : Cursor) (rest : Space)
    (offset : Nat) (bl : Value) (blPos : Nat) :
    { m with enumerate := c }.skipClear rest offset bl blPos =
      m.skipClear rest offset bl blPos := by
  induction rest generalizing offset bl blPos with
  | nil => rfl
  | cons p rest ih =>
      rw [skipClear, skipClear]
      simp only [ih]
      rfl

theorem nextRange_enumerate (m : BitmapFreelistManager) (c c' : Cursor) :
    { m with enumerate := c }.nextRange c' = m.nextRange c' := by
  have hfrom : ∀ c₁, { m with enumerate := c }.skipClearFrom c₁ = m.skipClearFrom c₁ := by
    intro c₁
    unfold skipClearFrom
    cases c₁.p with
    | none => rfl
    | some following => exact skipClear_enumerate ..
  have hclose : ∀ offset out, { m with enumerate := c }.closeRange offset out =
      m.closeRange offset out := by
    rintro offset ⟨_ | stop, c₁⟩ <;> rfl
  unfold nextRange
  simp only [skipSet_enumerate, hfrom, hclose]

/-- Once started, `enumerate_next` goes on from its position. -/
theorem enumerateNext_eq {db : KeyValueDB} {c : Cursor}
    (h : ¬ (c.offset = 0 ∧ c.blPos = 0)) :
    { m with enumerate := c }.enumerateNext db =
      some ((m.nextRange c).1, { m with enumerate := (m.nextRange c).2 }) := by
  unfold enumerateNext
  rw [if_neg h]
  show some (({ m with enumerate := c }.nextRange c).1,
    { m with enumerate := ({ m with enumerate := c }.nextRange c).2 }) = _
  rw [nextRange_enumerate]

theorem At.not_start (h : Configured m) {l : Entries} {c : Cursor} {p : Nat} (hat : At m l c p)
    (hp : 0 < p) : ¬ (c.offset = 0 ∧ c.blPos = 0) := by
  obtain ⟨j, v, rest, pos, rfl, rfl, -, hw, -⟩ := hat
  rintro ⟨hoff, hpos⟩
  change j * m.bytesPerKey = 0 at hoff
  change pos = 0 at hpos
  have hj : j < m.keyCount := hw.below (j, v) (by simp)
  have hspan := h.keysFit.apart (by omega)
  rcases Nat.mul_eq_zero.mp hoff with h₀ | h₀ <;> omega

theorem freeFrom_empty (h : Configured m) {l : Entries} {p : Nat}
    (hset : ∀ i, p ≤ i → i < m.units → blockBit l i = true) : freeFrom m l p = ∅ := by
  ext x
  refine ⟨?_, fun hx => hx.elim⟩
  rintro ⟨h₁, h₂, h₃⟩
  have hp := (Nat.le_div_iff_mul_le h.unit_pos).mpr h₁
  exact absurd ((hset _ hp (h.div_lt_units h₂)).symm.trans h₃) (by decide)

/-- A range before free blocks that an allocated block sets apart. -/
theorem canonical_cons_range (h : Configured m) {l : Entries} {s e : Nat} (hse : s < e)
    (hbit : blockBit l e = true ∨ e = m.units) {ranges : List (Segment Nat)}
    (hc : Canonical ranges) (hcov : covered ranges = freeFrom m l e) :
    Canonical (⟨s * m.bytesPerBlock, s * m.bytesPerBlock + (e - s) * m.bytesPerBlock⟩ ::
      ranges) := by
  have hunit := h.unit_pos
  have hend : s * m.bytesPerBlock + (e - s) * m.bytesPerBlock = e * m.bytesPerBlock := by
    rw [← Nat.add_mul, Nat.add_sub_cancel' hse.le]
  have hlt : s * m.bytesPerBlock < e * m.bytesPerBlock := Nat.mul_lt_mul_of_pos_right hse hunit
  refine Canonical.cons_iff.mpr ⟨by dsimp only; omega, hc, fun q hq => ?_⟩
  have hq₀ : q.start ∈ covered ranges := ⟨q, hq, le_rfl, hc.nonempty q hq⟩
  rw [hcov] at hq₀
  obtain ⟨h₁, h₂, h₃⟩ := hq₀
  show s * m.bytesPerBlock + (e - s) * m.bytesPerBlock < q.start
  rw [hend]
  refine lt_of_le_of_ne h₁ fun heq => ?_
  rcases hbit with hbit | rfl
  · rw [← heq, Nat.mul_div_cancel _ hunit, hbit] at h₃
    exact absurd h₃ (by decide)
  · rw [← heq, units, h.size_eq] at h₂
    exact lt_irrefl _ h₂

/-- From a position on, an enumeration returns the maximal runs of free blocks. -/
theorem enumerates_from (h : Configured m) (hround : RoundsUp m) {l : Entries}
    (hw : WellFormed m.keyCount l)
    (hpad : ∀ b, m.units ≤ b → b < m.rounded → blockBit l b = true) (hsize : 0 < m.size)
    {db : KeyValueDB} {p : Nat} {c : Cursor} (hat : At m l c p)
    {m₁ : BitmapFreelistManager} (hm₁ : m₁.enumerateNext db =
      some ((m.nextRange c).1, { m with enumerate := (m.nextRange c).2 })) :
    ∃ ranges m', Enumerates db m₁ ranges m' ∧ m'.enumerateNext db = some (none, m') ∧
      Canonical ranges ∧ covered ranges = freeFrom m l p := by
  have hbehind : ∀ {c' : Cursor}, m.size ≤ c'.offset →
      { m with enumerate := c' }.enumerateNext db = some (none, { m with enumerate := c' }) := by
    intro c' hoff
    rw [enumerateNext_eq (by omega), nextRange_behind hoff]
  have hspec := nextRange_spec h hround hw hpad hsize hat
  generalize (m.nextRange c).1 = out at hspec hm₁
  generalize (m.nextRange c).2 = c' at hspec hm₁
  cases hspec with
  | stop hoff hset =>
      exact ⟨[], _, .done hm₁, hbehind hoff, .nil, by rw [covered_nil, freeFrom_empty h hset]⟩
  | @range s e _ hps hse he hset hfree hnext =>
      have hsplit := freeFrom_range h hps hse he hset hfree
      rcases hnext with ⟨hat', hbit⟩ | ⟨hoff, rfl⟩
      · obtain ⟨ranges, m', hrun, hfalse, hc, hcov⟩ := enumerates_from h hround hw hpad hsize hat'
          (enumerateNext_eq (hat'.not_start h (by omega)))
        refine ⟨_, m', .next hm₁ hrun, hfalse, canonical_cons_range h hse (.inl hbit) hc hcov, ?_⟩
        rw [covered_cons, hcov, hsplit]
      · have hnone : freeFrom m l m.units = ∅ := freeFrom_empty h fun i h₁ h₂ => by omega
        refine ⟨_, _, .next hm₁ (.done (hbehind hoff)), hbehind hoff,
          canonical_cons_range h hse (.inr rfl) .nil (by rw [covered_nil, hnone]), ?_⟩
        rw [covered_cons, covered_nil, hsplit, hnone]
termination_by m.units - p
decreasing_by omega

/-- The start of an enumeration stands at block 0. -/
theorem enumerateStart_eq {db : KeyValueDB} {l : Entries} {free : Set Nat}
    (h : Configured m) (hr : Represents m db l free) :
    ∃ c, enumerateStart db = some c ∧ At m l c 0 ∧ c.offset = 0 ∧ c.blPos = 0 := by
  have hw := hr.stores.wellFormed
  have hfirst := hr.first
  cases l with
  | nil => exact absurd hfirst (by decide)
  | cons p rest =>
      obtain ⟨j, v⟩ := p
      obtain ⟨hx, -⟩ := List.pairwise_cons.mp hw.ordered
      have hj : j = 0 := by
        by_contra hne
        have hnone : blockBit ((j, v) :: rest) 0 = false := by
          refine blockBit_of_lt fun p hp => ?_
          rcases List.mem_cons.mp hp with rfl | hp
          · exact Nat.pos_of_ne_zero hne
          · exact Nat.zero_lt_of_lt (hx p hp)
        exact absurd (hfirst.symm.trans hnone) (by decide)
      subst hj
      have hbit : valueBit v 0 = true := by
        rw [← hfirst, blockBit_cons, if_pos rfl]
      have hset : getNextSetBit v 0 = some 0 := by
        unfold getNextSetBit
        rw [hw.length (0, v) (by simp)]
        exact if_pos hbit
      have hdecode := h.keysFit.decode (hw.below (0, v) (by simp))
      rw [Nat.zero_mul] at hdecode
      refine ⟨⟨some (toSpace m.bytesPerKey rest), 0, v, 0⟩, ?_,
        ⟨0, v, rest, 0, by rw [Nat.zero_mul], rfl, Nat.zero_le _, hw, fun i _ => rfl⟩, rfl, rfl⟩
      unfold enumerateStart
      rw [hr.stores.space, toSpace_cons, Nat.zero_mul]
      simp only [hdecode, hset]
      rfl

/-- The first call of `enumerate_next`. -/
theorem enumerateNext_first {db : KeyValueDB} {c₀ c : Cursor} (h₀ : c₀.offset = 0 ∧ c₀.blPos = 0)
    (hc : enumerateStart db = some c) : { m with enumerate := c₀ }.enumerateNext db =
      some ((m.nextRange c).1, { m with enumerate := (m.nextRange c).2 }) := by
  unfold enumerateNext
  rw [if_pos h₀, hc]
  show some (({ m with enumerate := c₀ }.nextRange c).1,
    { m with enumerate := ({ m with enumerate := c₀ }.nextRange c).2 }) = _
  rw [nextRange_enumerate]

theorem Represents.freeFrom_eq {db : KeyValueDB} {l : Entries}
    {free : Set Nat} (hr : Represents m db l free) : freeFrom m l 0 = free := by
  ext x
  constructor
  · rintro ⟨-, hx, hbit⟩
    refine (hr.bits x ?_ hx).mpr hbit
    by_contra hlt
    rw [Nat.div_eq_of_lt (Nat.not_le.mp hlt), hr.first] at hbit
    exact absurd hbit (by decide)
  · intro hx
    obtain ⟨hlo, hhi⟩ := hr.inside hx
    exact ⟨by omega, hhi, (hr.bits x hlo hhi).mp hx⟩

/-- The ranges of an enumeration of the database: non-empty, in order, apart
from each other, and together the free bytes. Behind them it stays at false. -/
def EnumeratesFree (m : BitmapFreelistManager) (db : KeyValueDB) (free : Set Nat) : Prop :=
  ∃ ranges m', Enumerates db m.enumerateReset ranges m' ∧
    m'.enumerateNext db = some (none, m') ∧ Canonical ranges ∧ covered ranges = free

theorem enumeratesFree_of_roundsUp (h : Configured m) (hround : RoundsUp m) {db : KeyValueDB}
    {l : Entries} {free : Set Nat} (hr : Represents m db l free) : EnumeratesFree m db free := by
  obtain ⟨c, hstart, hat, hoff, hpos⟩ := enumerateStart_eq h hr
  have hfirst := @enumerateNext_first m _ {} c ⟨rfl, rfl⟩ hstart
  rcases Nat.eq_zero_or_pos m.size with hzero | hsize
  · -- an empty device: every call starts again and returns false
    have hnone := nextRange_behind (m := m) (c := c) (by omega)
    have hagain := @enumerateNext_first m _ c c ⟨hoff, hpos⟩ hstart
    rw [hnone] at hfirst hagain
    refine ⟨[], _, .done hfirst, hagain, .nil, ?_⟩
    · rw [covered_nil, ← hr.freeFrom_eq]
      ext x
      refine ⟨fun hx => hx.elim, ?_⟩
      rintro ⟨-, hx, -⟩
      omega
  · obtain ⟨ranges, m', hrun, hfalse, hc, hcov⟩ := enumerates_from h hround hr.stores.wellFormed
      (fun b hb hbb => (hr.padding b hb hbb).trans (decide_eq_true hround)) hsize hat hfirst
    exact ⟨ranges, m', hrun, hfalse, hc, hcov.trans (hr.freeFrom_eq)⟩

/-- When rounding up leaves 64 bits, the first range already runs to 2^64. -/
theorem nextRange_of_wrapped (h : Configured m) (hround : ¬ RoundsUp m) {db : KeyValueDB}
    {l : Entries} {free : Set Nat} (hr : Represents m db l free) {c : Cursor}
    (hat : At m l c 0) : ∃ s, (m.nextRange c).1 =
      some (s * m.bytesPerBlock, 2 ^ 64 - s * m.bytesPerBlock) ∧
      s * m.bytesPerBlock < 2 ^ 64 := by
  have hunit := h.unit_pos
  have hlt64 := h.size_lt
  have hsizeEq : m.units * m.bytesPerBlock = m.size := h.size_eq
  have hle := m.units_le_rounded
  have hne : m.units ≠ m.rounded := by
    intro heq
    rw [RoundsUp, ← heq, hsizeEq] at hround
    exact hround hlt64
  have hunits : 0 < m.units := by
    by_contra hzero
    unfold rounded at hne
    omega
  have hsize : 0 < m.size := by
    rw [← hsizeEq]
    exact Nat.mul_pos hunits hunit
  have hpad : blockBit l m.units = false := by
    rw [hr.padding m.units le_rfl (by omega)]
    exact decide_eq_false hround
  obtain ⟨s, c₁, hskip, -, hset, hfound⟩ := hat.skipSet h
  have hs : s ≤ m.units := by
    by_contra hgt
    exact absurd ((hset _ (Nat.zero_le _) (Nat.not_le.mp hgt)).symm.trans hpad) (by decide)
  have hfree : blockBit l s = false := by
    cases hfound with
    | key _ _ _ _ _ _ hs => exact hs
    | behind _ _ hclear => exact hclear s le_rfl
  have hpos : 0 < s := by
    refine Nat.pos_of_ne_zero ?_
    rintro rfl
    exact absurd (hr.first.symm.trans hfree) (by decide)
  have hoffset : s * m.bytesPerBlock ≤ m.size := hsizeEq ▸ Nat.mul_le_mul_right _ hs
  have hoffset₀ : 0 < s * m.bytesPerBlock := Nat.mul_pos hpos hunit
  have hmod : s * m.bytesPerBlock % 2 ^ 64 = s * m.bytesPerBlock := Nat.mod_eq_of_lt (by omega)
  have hlength : sub64 0 (s * m.bytesPerBlock) = 2 ^ 64 - s * m.bytesPerBlock := by
    unfold sub64
    omega
  refine ⟨s, ?_, by omega⟩
  unfold nextRange
  rw [if_neg (Nat.not_le.mpr (hat.offset_lt h hsize)), hskip]
  show (m.closeRange (s * m.bytesPerBlock % 2 ^ 64) (m.skipClearFrom c₁)).1 = _
  rw [hmod]
  rcases hfound.skipClear h hsize with
    ⟨e, c', heq, -, -, -, -⟩ | ⟨c', heq, -, hoff⟩
  · rw [heq, closeRange, h.wrapped hround, Nat.zero_min, hlength]
  · have hin : c'.offset < m.size := by
      rcases hoff with ⟨hin, -⟩ | ⟨-, hwhole, hoff⟩
      · exact hin
      · -- the device would be a whole number of keys
        have hlt : s < m.units := by
          refine lt_of_le_of_ne hs fun heq => hne ?_
          unfold rounded
          omega
        rw [hoff, hmod, ← hsizeEq]
        exact Nat.mul_lt_mul_of_pos_right hlt hunit
    rw [heq, closeRange, if_pos hin, h.wrapped hround, hlength]

theorem not_enumeratesFree (h : Configured m) (hround : ¬ RoundsUp m) {db : KeyValueDB}
    {l : Entries} {free : Set Nat} (hr : Represents m db l free) : ¬ EnumeratesFree m db free := by
  rintro ⟨ranges, m', hrun, -, hc, hcov⟩
  obtain ⟨c, hstart, hat, -⟩ := enumerateStart_eq h hr
  have hfirst := @enumerateNext_first m _ {} c ⟨rfl, rfl⟩ hstart
  obtain ⟨s, hrange, hs⟩ := nextRange_of_wrapped h hround hr hat
  rw [hrange] at hfirst
  cases hrun with
  | done hfalse => cases hfalse.symm.trans hfirst
  | next hnext hrest =>
      cases hnext.symm.trans hfirst
      have hlast : 2 ^ 64 - 1 ∈ free := by
        rw [← hcov]
        refine ⟨_, List.mem_cons_self .., ?_, ?_⟩
        · show s * m.bytesPerBlock ≤ 2 ^ 64 - 1
          omega
        · show 2 ^ 64 - 1 < s * m.bytesPerBlock + (2 ^ 64 - s * m.bytesPerBlock)
          omega
      have hin := (hr.inside hlast).2
      have := h.size_lt
      omega

/-- A freelist enumerates its free space, after any run of transactions, exactly
when the size, rounded up to whole keys of 128 blocks, is a number of 64 bits. -/
theorem freelist_enumerates_iff {newSize granularity : Nat} (hsize : newSize < 2 ^ 64)
    (hgranularity : granularity < 2 ^ 64) {m : BitmapFreelistManager} {txn : List Op}
    (hcreate : create newSize granularity = some (m, txn)) {db : KeyValueDB} {free : Set Nat}
    (hreach : Reaches m (({} : KeyValueDB).submit txn) db free) :
    EnumeratesFree m db free ↔
      (newSize / granularity + 127) / 128 * 128 * granularity < 2 ^ 64 := by
  have hu : isp2 granularity = true := by
    by_contra hne
    rw [create, Bool.eq_false_iff.mpr hne] at hcreate
    cases hcreate
  obtain ⟨m', txn', l₀, hcreate', hc, hm, hg, -, h₀⟩ := create_represents hu hgranularity hsize
  cases hcreate.symm.trans hcreate'
  obtain ⟨l, hr⟩ := hreach.represents hc h₀
  have hunits : m.units = newSize / granularity := by
    rw [units, hm, hg, p2align, Nat.mul_div_cancel _ (hg ▸ hc.unit_pos)]
  have hiff : RoundsUp m ↔ (newSize / granularity + 127) / 128 * 128 * granularity < 2 ^ 64 := by
    rw [RoundsUp, rounded, hunits, hg]
  rw [← hiff]
  exact ⟨fun he => by_contra fun hne => not_enumeratesFree hc hne hr he,
    fun hround => enumeratesFree_of_roundsUp hc hround hr⟩

/-- Ten blocks of 4 KiB, of which block 1 is allocated. -/
theorem freelist_enumerates_ten_blocks : ∃ m txn ops, create 40960 4096 = some (m, txn) ∧
    m.allocate 4096 4096 = some ops ∧
    EnumeratesFree m ((({} : KeyValueDB).submit txn).submit ops)
      (Set.Ico m.bytesPerBlock m.size \ Set.Ico 4096 (4096 + 4096)) := by
  obtain ⟨m, txn, l, hcreate, hc, hsize, hg, -, hr⟩ :=
    @create_represents 40960 4096 (by decide) (by decide) (by decide)
  have hsize' : m.size = 40960 := hsize.trans (by decide)
  have hlegal : (Request.allocate 4096 4096).Legal m (Set.Ico m.bytesPerBlock m.size) := by
    refine ⟨by rw [hg], by rw [hg], by decide, ?_⟩
    rw [hg, hsize']
    exact Set.Ico_subset_Ico le_rfl (by decide)
  obtain ⟨ops, -, hops, -⟩ := hr.request hc hlegal
  refine ⟨m, txn, ops, hcreate, hops, ?_⟩
  have hreach := Reaches.commit (@Reaches.start m (({} : KeyValueDB).submit txn))
    (.request _ (.nil _) hlegal hops)
  exact (freelist_enumerates_iff (by decide) (by decide) hcreate hreach).mpr (by decide)

/-- A device whose end, rounded up to whole keys, is 2^64. -/
theorem freelist_runs_past_end : ∃ m txn, create (2 ^ 64 - 4096) 4096 = some (m, txn) ∧
    ¬ EnumeratesFree m (({} : KeyValueDB).submit txn) (Set.Ico m.bytesPerBlock m.size) := by
  obtain ⟨m, txn, l, hcreate, hc, hsize, hg, -, hr⟩ :=
    @create_represents (2 ^ 64 - 4096) 4096 (by decide) (by decide) (by decide)
  refine ⟨m, txn, hcreate, not_enumeratesFree hc ?_ hr⟩
  rw [RoundsUp, rounded, units, hsize, hg]
  decide

end BitmapFreelistManager

end Clab.Bluestore
