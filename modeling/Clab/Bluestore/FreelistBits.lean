import Clab.Bluestore.BitmapFreelistManager

/-!
# The bits behind the freelist

The bitmap key space read as one bit for each block. A merge flips bits of one
key, so what `_xor` adds to a transaction flips exactly the bits of its range.
-/

namespace Clab.Bluestore

open Clab.Common Clab.Codec

/-! ## Bits of a value -/

theorem valueBit_xorMerge {a b : Value} (ha : a.length = 16) (hb : b.length = 16) {i : Nat}
    (hi : i < 128) : valueBit (xorMerge a b) i = (valueBit a i ^^ valueBit b i) := by
  have hia : i / 8 < a.length := by omega
  have hib : i / 8 < b.length := by omega
  unfold valueBit xorMerge
  rw [List.getD_eq_getElem _ _ hia, List.getD_eq_getElem _ _ hib,
    List.getD_eq_getElem _ _ (by rw [List.length_zipWith]; omega), List.getElem_zipWith,
    UInt8.toBitVec_xor, BitVec.getLsbD_xor]

theorem xorMerge_length {a b : Value} (ha : a.length = 16) (hb : b.length = 16) :
    (xorMerge a b).length = 16 := by
  simp [xorMerge, ha, hb]

theorem bit_ofNat_shift : ∀ k < 8, ∀ j < 8,
    (UInt8.ofNat (1 <<< k)).toBitVec.getLsbD j = decide (j = k) := by
  decide

theorem valueBit_flipBit {p : Value} {n i : Nat} (hn : n / 8 < p.length) :
    valueBit (flipBit p n) i = (valueBit p i ^^ decide (i = n)) := by
  unfold valueBit flipBit
  by_cases hbyte : i / 8 = n / 8
  · have hbit := bit_ofNat_shift (n % 8) (by omega) (i % 8) (by omega)
    have hiff : decide (i % 8 = n % 8) = decide (i = n) := by
      rw [decide_eq_decide]
      omega
    rw [hbyte, List.getD_eq_getElem _ _ hn,
      List.getD_eq_getElem _ _ (by rw [List.length_modify]; exact hn), List.getElem_modify_eq,
      UInt8.toBitVec_xor, BitVec.getLsbD_xor, hbit, hiff]
  · have hne : ¬ i = n := by
      rintro rfl
      exact hbyte rfl
    rw [decide_eq_false hne, Bool.xor_false, List.getD_eq_getElem?_getD,
      List.getElem?_modify_ne _ _ (Ne.symm hbyte), ← List.getD_eq_getElem?_getD]

theorem flipBit_length (p : Value) (n : Nat) : (flipBit p n).length = p.length :=
  List.length_modify ..

/-- The loop over the bits of a range flips each of them once. -/
theorem foldl_flipBit {p : Value} {s n : Nat} (h : s + n ≤ p.length * 8) :
    ((List.range' s n).foldl flipBit p).length = p.length ∧
      ∀ i, valueBit ((List.range' s n).foldl flipBit p) i =
        (valueBit p i ^^ decide (s ≤ i ∧ i < s + n)) := by
  induction n generalizing p s with
  | zero =>
      refine ⟨rfl, fun i => ?_⟩
      have hout : ¬ (s ≤ i ∧ i < s + 0) := by omega
      rw [decide_eq_false hout, Bool.xor_false]
      rfl
  | succ n ih =>
      rw [List.range'_succ, List.foldl_cons]
      obtain ⟨hlen, hbit⟩ := ih (p := flipBit p s) (s := s + 1)
        (by rw [flipBit_length]; omega)
      refine ⟨hlen.trans (flipBit_length p s), fun i => ?_⟩
      rw [hbit i, valueBit_flipBit (by omega), Bool.xor_assoc]
      congr 1
      by_cases hi : i = s
      · subst hi
        have h₁ : ¬ (i + 1 ≤ i ∧ i < i + 1 + n) := by omega
        have h₂ : i ≤ i ∧ i < i + (n + 1) := by omega
        rw [decide_eq_true rfl, decide_eq_false h₁, decide_eq_true h₂]
        rfl
      · rw [decide_eq_false hi, Bool.false_xor, decide_eq_decide]
        omega

theorem valueBit_replicate_zero (n i : Nat) : valueBit (List.replicate n 0) i = false := by
  unfold valueBit
  rw [List.getD_eq_getElem?_getD, List.getElem?_replicate]
  split <;> simp

theorem flipBits_length {s e : Nat} (he : e ≤ 128) (hse : s ≤ e) : (flipBits 16 s e).length = 16 := by
  unfold flipBits
  rw [(foldl_flipBit (by rw [List.length_replicate]; omega)).1, List.length_replicate]

theorem valueBit_flipBits {s e : Nat} (he : e ≤ 128) (hse : s ≤ e) (i : Nat) :
    valueBit (flipBits 16 s e) i = decide (s ≤ i ∧ i < e) := by
  unfold flipBits
  rw [(foldl_flipBit (by rw [List.length_replicate]; omega)).2, valueBit_replicate_zero,
    Bool.false_xor, decide_eq_decide]
  omega

theorem valueBit_allSet {i : Nat} (hi : i < 128) :
    valueBit (List.replicate 16 0xff) i = true := by
  have hbits : ∀ j < 8, (0xff : UInt8).toBitVec.getLsbD j = true := by decide
  unfold valueBit
  rw [List.getD_eq_getElem _ _ (by rw [List.length_replicate]; omega), List.getElem_replicate]
  exact hbits _ (by omega)

/-! ## Searching a value -/

theorem scanBits_some {p : Nat → Bool} {n start b : Nat} (h : scanBits p n start = some b) :
    start ≤ b ∧ b < start + n ∧ p b = true ∧ ∀ i, start ≤ i → i < b → p i = false := by
  induction n generalizing start with
  | zero => cases h
  | succ n ih =>
      rw [scanBits] at h
      split at h
      · rename_i hp
        cases h
        exact ⟨le_rfl, by omega, hp, fun i h₁ h₂ => by omega⟩
      · rename_i hp
        obtain ⟨h₁, h₂, h₃, h₄⟩ := ih h
        refine ⟨by omega, by omega, h₃, fun i hi hlt => ?_⟩
        rcases Nat.lt_or_eq_of_le hi with hi | rfl
        · exact h₄ i hi hlt
        · simpa using hp

theorem scanBits_none {p : Nat → Bool} {n start : Nat} (h : scanBits p n start = none) :
    ∀ i, start ≤ i → i < start + n → p i = false := by
  induction n generalizing start with
  | zero =>
      intro i h₁ h₂
      omega
  | succ n ih =>
      intro i hi hlt
      rw [scanBits] at h
      split at h
      · cases h
      · rename_i hp
        rcases Nat.lt_or_eq_of_le hi with hi | rfl
        · exact ih h i hi (by omega)
        · simpa using hp

/-! ## The bits of the key space -/

/-- The bitmap key space by key index: key `j` is that of block `128 * j`. -/
abbrev Entries := List (Nat × Value)

/-- The key space with these entries, when a key spans `span` bytes. -/
def toSpace (span : Nat) (l : Entries) : Space :=
  l.map fun p => (keyEncodeU64 (p.1 * span), p.2)

@[simp] theorem toSpace_nil (span : Nat) : toSpace span [] = [] := rfl

@[simp] theorem toSpace_cons (span : Nat) (p : Nat × Value) (l : Entries) :
    toSpace span (p :: l) = (keyEncodeU64 (p.1 * span), p.2) :: toSpace span l := rfl

/-- Block `i` is allocated. A missing key stands for free blocks. -/
def blockBit (l : Entries) (i : Nat) : Bool :=
  match l.find? fun p => decide (p.1 = i / 128) with
  | some p => valueBit p.2 (i % 128)
  | none => false

/-- The first `count` keys lie below 2^64, and no two are the same. -/
structure KeysFit (span count : Nat) : Prop where
  below : ∀ j < count, j * span < 2 ^ 64
  apart : 1 < count → 0 < span

/-- Entries in order, of the right length, among the first `count` keys. -/
structure WellFormed (count : Nat) (l : Entries) : Prop where
  ordered : l.Pairwise fun p q => p.1 < q.1
  length : ∀ p ∈ l, p.2.length = 16
  below : ∀ p ∈ l, p.1 < count

theorem WellFormed.tail {count : Nat} {p : Nat × Value} {rest : Entries}
    (h : WellFormed count (p :: rest)) : WellFormed count rest :=
  ⟨(List.pairwise_cons.mp h.ordered).2, fun q hq => h.length q (by simp [hq]),
    fun q hq => h.below q (by simp [hq])⟩

theorem KeysFit.encode_lt {span count a b : Nat} (h : KeysFit span count) (hab : a < b)
    (hb : b < count) : keyEncodeU64 (a * span) < keyEncodeU64 (b * span) := by
  have hspan := h.apart (by omega)
  exact beBytes_lt (Nat.mul_lt_mul_of_pos_right hab hspan) (h.below b hb)

theorem KeysFit.decode {span count j : Nat} (h : KeysFit span count) (hj : j < count) :
    keyDecodeU64 (keyEncodeU64 (j * span)) = j * span := by
  unfold keyDecodeU64 keyEncodeU64
  rw [List.take_of_length_le (by rw [beBytes_length]), beNat_beBytes]
  exact Nat.mod_eq_of_lt (h.below j hj)

/-- `merge` on the entries. -/
def mergeAt (j : Nat) (v : Value) : Entries → Entries
  | [] => [(j, v)]
  | (j', v') :: rest =>
      if j < j' then (j, v) :: (j', v') :: rest
      else if j = j' then (j', xorMerge v' v) :: rest
      else (j', v') :: mergeAt j v rest

theorem toSpace_merge {span count j : Nat} {v : Value} {l : Entries} (h : KeysFit span count)
    (hj : j < count) (hl : ∀ p ∈ l, p.1 < count) :
    Space.merge (keyEncodeU64 (j * span)) v (toSpace span l) = toSpace span (mergeAt j v l) := by
  induction l with
  | nil => rfl
  | cons p rest ih =>
      obtain ⟨j', v'⟩ := p
      have hj' : j' < count := hl (j', v') (by simp)
      show Space.merge _ v ((keyEncodeU64 (j' * span), v') :: toSpace span rest) = _
      rw [Space.merge, mergeAt]
      rcases Nat.lt_trichotomy j j' with hlt | rfl | hgt
      · rw [if_pos (h.encode_lt hlt hj'), if_pos hlt]
        rfl
      · rw [if_neg (List.lt_irrefl _), if_pos rfl, if_neg (Nat.lt_irrefl _), if_pos rfl]
        rfl
      · have hgt' := h.encode_lt hgt hj
        rw [if_neg (List.lt_asymm hgt'), if_neg (fun heq => List.lt_irrefl _ (heq ▸ hgt')),
          if_neg (by omega), if_neg (by omega), ih fun p hp => hl p (by simp [hp])]
        rfl

theorem mem_mergeAt {j : Nat} {v : Value} {l : Entries} {p : Nat × Value}
    (h : p ∈ mergeAt j v l) : p.1 = j ∨ p ∈ l := by
  induction l with
  | nil =>
      obtain rfl : p = (j, v) := by simpa [mergeAt] using h
      exact .inl rfl
  | cons q rest ih =>
      obtain ⟨j', v'⟩ := q
      rw [mergeAt] at h
      split at h
      · rcases List.mem_cons.mp h with rfl | h
        · exact .inl rfl
        · exact .inr h
      split at h
      · rename_i heq
        rcases List.mem_cons.mp h with rfl | h
        · exact .inl heq.symm
        · exact .inr (List.mem_cons_of_mem _ h)
      · rcases List.mem_cons.mp h with rfl | h
        · exact .inr (List.mem_cons_self ..)
        · exact (ih h).imp_right (List.mem_cons_of_mem _)

theorem WellFormed.mergeAt {count j : Nat} {v : Value} {l : Entries} (h : WellFormed count l)
    (hj : j < count) (hv : v.length = 16) : WellFormed count (mergeAt j v l) := by
  induction l with
  | nil =>
      refine ⟨List.pairwise_singleton _ _, ?_, ?_⟩ <;> simp [Bluestore.mergeAt, hv, hj]
  | cons q rest ih =>
      obtain ⟨j', v'⟩ := q
      obtain ⟨hx, hr⟩ := List.pairwise_cons.mp h.ordered
      have hrest : WellFormed count rest :=
        ⟨hr, fun p hp => h.length p (by simp [hp]), fun p hp => h.below p (by simp [hp])⟩
      have hv' : v'.length = 16 := h.length (j', v') (by simp)
      rw [Bluestore.mergeAt]
      split
      · rename_i hlt
        refine ⟨List.pairwise_cons.mpr ⟨fun p hp => ?_, h.ordered⟩, fun p hp => ?_, fun p hp => ?_⟩
        · rcases List.mem_cons.mp hp with rfl | hp
          · exact hlt
          · exact Nat.lt_trans hlt (hx p hp)
        · rcases List.mem_cons.mp hp with rfl | hp
          · exact hv
          · exact h.length p hp
        · rcases List.mem_cons.mp hp with rfl | hp
          · exact hj
          · exact h.below p hp
      split
      · refine ⟨List.pairwise_cons.mpr ⟨hx, hr⟩, fun p hp => ?_, fun p hp => ?_⟩
        · rcases List.mem_cons.mp hp with rfl | hp
          · exact xorMerge_length hv' hv
          · exact hrest.length p hp
        · rcases List.mem_cons.mp hp with rfl | hp
          · exact h.below (j', v') (by simp)
          · exact hrest.below p hp
      · have hmerged := ih hrest
        refine ⟨List.pairwise_cons.mpr ⟨fun p hp => ?_, hmerged.ordered⟩, fun p hp => ?_,
          fun p hp => ?_⟩
        · rcases mem_mergeAt hp with heq | hp
          · rw [heq]
            omega
          · exact hx p hp
        · rcases List.mem_cons.mp hp with rfl | hp
          · exact hv'
          · exact hmerged.length p hp
        · rcases List.mem_cons.mp hp with rfl | hp
          · exact h.below (j', v') (by simp)
          · exact hmerged.below p hp

theorem blockBit_cons (j : Nat) (v : Value) (rest : Entries) (i : Nat) :
    blockBit ((j, v) :: rest) i =
      if j = i / 128 then valueBit v (i % 128) else blockBit rest i := by
  unfold blockBit
  rw [List.find?_cons]
  by_cases h : j = i / 128
  · simp [h]
  · simp [h]

/-- Nothing is recorded below the first key. -/
theorem blockBit_of_lt {l : Entries} {i : Nat} (h : ∀ p ∈ l, i / 128 < p.1) :
    blockBit l i = false := by
  unfold blockBit
  rw [List.find?_eq_none.mpr fun p hp => by have := h p hp; simp; omega]

/-- A merge flips the bits of one key. -/
theorem blockBit_mergeAt {count j : Nat} {v : Value} {l : Entries} (h : WellFormed count l)
    (hv : v.length = 16) (i : Nat) : blockBit (mergeAt j v l) i =
      (blockBit l i ^^ (decide (j = i / 128) && valueBit v (i % 128))) := by
  induction l with
  | nil =>
      rw [mergeAt, blockBit_cons]
      by_cases hj : j = i / 128
      · simp [hj, blockBit]
      · simp [hj, blockBit]
  | cons q rest ih =>
      obtain ⟨j', v'⟩ := q
      obtain ⟨hx, hr⟩ := List.pairwise_cons.mp h.ordered
      have hrest : WellFormed count rest :=
        ⟨hr, fun p hp => h.length p (by simp [hp]), fun p hp => h.below p (by simp [hp])⟩
      have hv' : v'.length = 16 := h.length (j', v') (by simp)
      rw [mergeAt]
      split
      · rename_i hlt
        rw [blockBit_cons]
        by_cases hj : j = i / 128
        · have hnone : blockBit ((j', v') :: rest) i = false := by
            refine blockBit_of_lt fun p hp => ?_
            rcases List.mem_cons.mp hp with rfl | hp
            · exact hj ▸ hlt
            · exact hj ▸ Nat.lt_trans hlt (hx p hp)
          simp [hj, hnone]
        · simp [hj]
      split
      · rename_i heq
        subst heq
        rw [blockBit_cons, blockBit_cons]
        by_cases hj : j = i / 128
        · simp [hj, valueBit_xorMerge hv' hv (show i % 128 < 128 by omega)]
        · simp [hj]
      · rename_i hge hne
        rw [blockBit_cons, blockBit_cons, ih hrest]
        by_cases hj : j' = i / 128
        · have : ¬ j = i / 128 := by omega
          simp [hj, this]
        · simp [hj]

end Clab.Bluestore
