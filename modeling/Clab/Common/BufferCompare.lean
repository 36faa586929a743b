import Mathlib.Data.List.DropRight
import Clab.Common.ByteString

/-!
# Comparing buffer lists

`contents_equal` walks the nodes of two lists in step and watches the end of the
first one only. It is exact unless the contents agree and the first list has more
empty nodes behind its last byte than the second one has.
-/

namespace Clab.Common

/-- How a comparison does not return. -/
inductive CompareFault
  /-- a node behind the last one is looked at -/
  | pastEnd
  /-- a failed assertion -/
  | assertFail
  /-- the rounds given do not suffice -/
  | rounds
  deriving DecidableEq, Repr

/-- The nodes of a list, each as its bytes. -/
abbrev Segments := List Bytes

namespace Segments

/-- The bytes of the list. -/
def bytes (a : Segments) : Bytes := a.flatten

/-- `length`, an `unsigned`. -/
def length (a : Segments) : Nat := a.bytes.length % 2 ^ 32

/-- Where an iterator is after `len` bytes of node `x` from `off` on. -/
def advance (x : Bytes) (rest : Segments) (off len : Nat) : Segments × Nat :=
  if off + len = x.length then (rest, 0) else (x :: rest, off + len)

/-- The loop of `contents_equal` from offsets `aoff` and `boff` of the first nodes on. -/
def compareLoop : Nat → Segments → Nat → Segments → Nat → Except CompareFault Bool
  | _, [], _, _, _ => .ok true
  | 0, _ :: _, _, _, _ => .error .rounds
  | _ + 1, _ :: _, _, [], _ => .error .pastEnd
  | n + 1, x :: a, aoff, y :: b, boff =>
      let len := min (x.length - aoff) (y.length - boff)
      if (x.drop aoff).take len ≠ (y.drop boff).take len then .ok false
      else
        let (a', aoff') := advance x a aoff len
        let (b', boff') := advance y b boff len
        compareLoop n a' aoff' b' boff'

/-- `contents_equal(other)`. Every round leaves a node of one of the lists behind. -/
def contentsEqual (a b : Segments) : Except CompareFault Bool :=
  if a.length ≠ b.length then .ok false
  else compareLoop (List.length a + List.length b) a 0 b 0

/-- The loop of `contents_equal(other, length)`. -/
def compareBuffer : Segments → Bytes → Except CompareFault Bool
  | [], _ => .ok true
  | x :: a, other =>
      if other.length < x.length then .error .assertFail
      else if x ≠ other.take x.length then .ok false
      else compareBuffer a (other.drop x.length)

/-- `contents_equal(other, length)`, where `other` has `length` bytes. -/
def contentsEqualBuffer (a : Segments) (other : Bytes) : Except CompareFault Bool :=
  if a.length ≠ other.length then .ok false else compareBuffer a other

/-! ## Empty nodes at the end -/

/-- How many nodes behind the last byte are empty. -/
def trailing (a : Segments) : Nat := (a.rtakeWhile List.isEmpty).length

@[simp] theorem bytes_nil : bytes [] = [] := rfl

@[simp] theorem bytes_cons (x : Bytes) (a : Segments) : bytes (x :: a) = x ++ bytes a := rfl

theorem bytes_eq_nil_iff {a : Segments} : a.bytes = [] ↔ ∀ x ∈ a, x = [] := List.flatten_eq_nil_iff

/-- Where no bytes are left, all nodes that are left count. -/
theorem trailing_of_bytes_nil {a : Segments} (h : a.bytes = []) :
    a.trailing = List.length a := by
  unfold trailing
  rw [List.rtakeWhile_eq_self_iff.mpr]
  intro x hx
  rw [bytes_eq_nil_iff.mp h x hx]
  rfl

/-- A node with bytes, or with bytes behind it, does not count. -/
theorem trailing_cons {x : Bytes} {a : Segments} (h : x ++ a.bytes ≠ []) :
    trailing (x :: a) = a.trailing := by
  unfold trailing List.rtakeWhile
  rw [List.reverse_cons, List.length_reverse, List.length_reverse]
  by_cases ha : a.bytes = []
  · have hx : x.isEmpty = false := by
      rw [ha, List.append_nil] at h
      simpa using h
    rw [List.takeWhile_append_of_pos]
    · simp [hx]
      rw [List.takeWhile_eq_self_iff.mpr]
      · simp
      · intro y hy
        rw [bytes_eq_nil_iff.mp ha y (List.mem_reverse.mp hy)]
        rfl
    · intro y hy
      rw [bytes_eq_nil_iff.mp ha y (List.mem_reverse.mp hy)]
      rfl
  · rw [List.takeWhile_append, if_neg]
    intro hall
    refine ha (bytes_eq_nil_iff.mpr fun y hy => ?_)
    have := List.takeWhile_eq_self_iff.mp
      (List.IsPrefix.eq_of_length (List.takeWhile_prefix _) hall) y (List.mem_reverse.mpr hy)
    simpa using this

/-! ## The walk -/

/-- An iterator: at the end, at the start of a node, or inside one. -/
def At : Segments → Nat → Prop
  | [], off => off = 0
  | x :: _, off => off = 0 ∨ off < x.length

/-- The bytes an iterator has before it. -/
theorem bytes_drop {x : Bytes} {a : Segments} {off : Nat} (h : At (x :: a) off) :
    (bytes (x :: a)).drop off = x.drop off ++ a.bytes := by
  rw [bytes_cons, List.drop_append_of_le_length]
  rcases h with rfl | h <;> omega

theorem bytes_advance {x : Bytes} {a : Segments} {off len : Nat} (h : At (x :: a) off)
    (hlen : len ≤ x.length - off) :
    (advance x a off len).1.bytes.drop (advance x a off len).2 =
        ((bytes (x :: a)).drop off).drop len ∧
      At (advance x a off len).1 (advance x a off len).2 := by
  rw [bytes_drop h]
  have hoff : off ≤ x.length := by rcases h with rfl | h <;> omega
  unfold advance
  split
  · rename_i hend
    constructor
    · have hx : (x.drop off).drop len = [] := by
        rw [List.drop_drop]
        exact List.drop_eq_nil_of_le (by omega)
      rw [List.drop_append, hx, List.length_drop, show len - (x.length - off) = 0 by omega]
      rfl
    · cases a with
      | nil => rfl
      | cons y a => exact .inl rfl
  · rename_i hend
    constructor
    · rw [List.drop_append_of_le_length (by rw [List.length_drop]; omega), List.drop_drop,
        bytes_drop (.inr (by omega))]
    · exact .inr (by omega)

/-- With bytes left, a step leaves no trailing node behind. -/
theorem trailing_advance {x : Bytes} {a : Segments} {off len : Nat}
    (h : (bytes (x :: a)).drop off ≠ []) :
    (advance x a off len).1.trailing = trailing (x :: a) := by
  unfold advance
  split
  · refine (trailing_cons fun hnil => h ?_).symm
    rw [bytes_cons, hnil, List.drop_nil]
  · rfl

/-- What the walk returns for the bytes and the trailing nodes that are left. -/
def verdict (A B : Bytes) (ka kb : Nat) : Except CompareFault Bool :=
  if ¬(A <+: B ∨ B <+: A) then .ok false
  else if A.length < B.length then .ok true
  else if B.length < A.length then .error .pastEnd
  else if ka ≤ kb then .ok true
  else .error .pastEnd

theorem verdict_of_ne {A B : Bytes} {len ka kb : Nat} (hA : len ≤ A.length) (hB : len ≤ B.length)
    (hne : A.take len ≠ B.take len) : verdict A B ka kb = .ok false := by
  unfold verdict
  rw [if_pos]
  rintro (⟨t, rfl⟩ | ⟨t, rfl⟩)
  · exact hne (List.take_append_of_le_length hA).symm
  · exact hne (List.take_append_of_le_length hB)

/-- Equal bytes in front change nothing. -/
theorem verdict_append (P A B : Bytes) {ka kb ka' kb' : Nat}
    (h : A.length = B.length → (ka ≤ kb ↔ ka' ≤ kb')) :
    verdict (P ++ A) (P ++ B) ka kb = verdict A B ka' kb' := by
  unfold verdict
  simp only [List.prefix_append_right_inj, List.length_append, Nat.add_lt_add_iff_left]
  split
  · rfl
  · split
    · rfl
    · split
      · rfl
      · rename_i hlt hgt
        simp only [h (by omega)]

/-- The walk from two iterators, with a round for each node that is left. -/
theorem compareLoop_eq {n : Nat} {a b : Segments} {aoff boff : Nat}
    (hn : List.length a + List.length b ≤ n) (ha : At a aoff) (hb : At b boff) :
    compareLoop n a aoff b boff =
      verdict (a.bytes.drop aoff) (b.bytes.drop boff) a.trailing b.trailing := by
  induction n generalizing a b aoff boff with
  | zero =>
      obtain rfl : a = [] := List.length_eq_zero_iff.mp (by omega)
      obtain rfl : b = [] := by simpa using hn
      cases ha
      cases hb
      rfl
  | succ n ih =>
      cases a with
      | nil =>
          cases ha
          simp only [compareLoop, verdict, bytes_nil, List.drop_nil, List.nil_prefix, true_or,
            not_true_eq_false, if_false, List.length_nil, Nat.not_lt_zero]
          split
          · rfl
          · rw [if_pos]
            exact Nat.zero_le _
      | cons x a =>
          cases b with
          | nil =>
              cases hb
              simp only [compareLoop, verdict, bytes_nil, List.drop_nil, List.nil_prefix, or_true,
                not_true_eq_false, if_false, List.length_nil, Nat.not_lt_zero]
              split
              · rfl
              · -- only empty nodes are left, and one at least
                rename_i hnil
                have hzero : (bytes (x :: a)).drop aoff = [] := List.length_eq_zero_iff.mp (by omega)
                have hoff : aoff = 0 := by
                  rcases ha with rfl | ha
                  · rfl
                  · rw [List.drop_eq_nil_iff, bytes_cons, List.length_append] at hzero
                    omega
                rw [hoff, List.drop_zero] at hzero
                rw [trailing_of_bytes_nil hzero, if_neg]
                show ¬ List.length a + 1 ≤ 0
                omega
          | cons y b =>
              have haoff : aoff ≤ x.length := by rcases ha with rfl | ha <;> omega
              have hboff : boff ≤ y.length := by rcases hb with rfl | hb <;> omega
              simp only [compareLoop]
              generalize hlen : min (x.length - aoff) (y.length - boff) = len
              have hlx : len ≤ (x.drop aoff).length := by rw [List.length_drop]; omega
              have hly : len ≤ (y.drop boff).length := by rw [List.length_drop]; omega
              have hA := bytes_drop ha
              have hB := bytes_drop hb
              have htakeA : ((bytes (x :: a)).drop aoff).take len = (x.drop aoff).take len := by
                rw [hA, List.take_append_of_le_length hlx]
              have htakeB : ((bytes (y :: b)).drop boff).take len = (y.drop boff).take len := by
                rw [hB, List.take_append_of_le_length hly]
              have hlenA : len ≤ ((bytes (x :: a)).drop aoff).length := by
                rw [hA, List.length_append]; omega
              have hlenB : len ≤ ((bytes (y :: b)).drop boff).length := by
                rw [hB, List.length_append]; omega
              split
              · rename_i hne
                rw [verdict_of_ne hlenA hlenB]
                rwa [htakeA, htakeB]
              · rename_i heq
                rw [List.length_drop] at hlx hly
                obtain ⟨hdropA, hatA⟩ := bytes_advance ha hlx
                obtain ⟨hdropB, hatB⟩ := bytes_advance hb hly
                have hrounds : List.length (advance x a aoff len).1 +
                    List.length (advance y b boff len).1 ≤ n := by
                  unfold advance
                  simp only [List.length_cons] at hn
                  split <;> split <;> simp only [List.length_cons] <;> omega
                rw [ih hrounds hatA hatB, hdropA, hdropB]
                conv_rhs =>
                  rw [← List.take_append_drop len ((bytes (x :: a)).drop aoff),
                    ← List.take_append_drop len ((bytes (y :: b)).drop boff), htakeA, htakeB,
                    not_not.mp heq]
                refine (verdict_append _ _ _ fun hsame => ?_).symm
                simp only [List.length_drop] at hsame hlenA hlenB
                by_cases hnil : (bytes (x :: a)).drop aoff = []
                · -- both lists have only empty nodes left, and each loses one
                  have hnilB : (bytes (y :: b)).drop boff = [] := by
                    rw [List.drop_eq_nil_iff] at hnil ⊢
                    omega
                  have hzx : aoff = 0 ∧ x = [] := by
                    rw [hA, List.append_eq_nil_iff, List.drop_eq_nil_iff] at hnil
                    rcases ha with rfl | ha
                    · exact ⟨rfl, List.length_eq_zero_iff.mp (by omega)⟩
                    · omega
                  have hzy : boff = 0 ∧ y = [] := by
                    rw [hB, List.append_eq_nil_iff, List.drop_eq_nil_iff] at hnilB
                    rcases hb with rfl | hb
                    · exact ⟨rfl, List.length_eq_zero_iff.mp (by omega)⟩
                    · omega
                  obtain ⟨rfl, rfl⟩ := hzx
                  obtain ⟨rfl, rfl⟩ := hzy
                  obtain rfl : len = 0 := by simpa using hlen.symm
                  rw [List.drop_zero] at hnil hnilB
                  rw [trailing_of_bytes_nil hnil, trailing_of_bytes_nil hnilB]
                  show _ ↔ trailing a ≤ trailing b
                  rw [trailing_of_bytes_nil (a := a) hnil, trailing_of_bytes_nil (a := b) hnilB,
                    List.length_cons, List.length_cons]
                  omega
                · have hnilB : ¬ (bytes (y :: b)).drop boff = [] := by
                    rw [List.drop_eq_nil_iff] at hnil ⊢
                    omega
                  rw [trailing_advance hnil, trailing_advance hnilB]

/-! ## The walk along a buffer -/

/-- Some leading nodes are not longer than `other` and differ from its start. -/
def Differs (a : Segments) (other : Bytes) : Prop :=
  ∃ k, (bytes (a.take k)).length ≤ other.length ∧ ¬ bytes (a.take k) <+: other

theorem compareBuffer_false_iff (a : Segments) (other : Bytes) :
    compareBuffer a other = .ok false ↔ Differs a other := by
  induction a generalizing other with
  | nil =>
      constructor
      · intro h
        cases h
      · rintro ⟨k, -, hk⟩
        rw [List.take_nil] at hk
        exact absurd (List.nil_prefix) hk
  | cons x a ih =>
      unfold compareBuffer
      split
      · rename_i hlt
        constructor
        · intro h
          cases h
        · rintro ⟨k, hfit, hk⟩
          cases k with
          | zero => exact absurd (List.nil_prefix) hk
          | succ k =>
              rw [List.take_succ_cons, bytes_cons, List.length_append] at hfit
              omega
      · rename_i hge
        split
        · rename_i hne
          refine ⟨fun _ => ⟨1, ?_, ?_⟩, fun _ => rfl⟩
          · rw [List.take_succ_cons, List.take_zero, bytes_cons, bytes_nil, List.append_nil]
            omega
          · rw [List.take_succ_cons, List.take_zero, bytes_cons, bytes_nil, List.append_nil]
            exact fun hpre => hne (List.prefix_iff_eq_take.mp hpre)
        · rename_i heq
          rw [ih]
          have hsplit : other = x ++ other.drop x.length := by
            conv_lhs => rw [← List.take_append_drop x.length other, ← not_not.mp heq]
          constructor
          · rintro ⟨k, hfit, hk⟩
            refine ⟨k + 1, ?_, ?_⟩
            · rw [List.length_drop] at hfit
              rw [List.take_succ_cons, bytes_cons, List.length_append]
              omega
            · rw [List.take_succ_cons, bytes_cons, hsplit, List.prefix_append_right_inj]
              exact hk
          · rintro ⟨k, hfit, hk⟩
            cases k with
            | zero => exact absurd (List.nil_prefix) hk
            | succ k =>
                rw [List.take_succ_cons, bytes_cons] at hfit hk
                rw [List.length_append] at hfit
                refine ⟨k, ?_, ?_⟩
                · rw [List.length_drop]
                  omega
                · rwa [hsplit, List.prefix_append_right_inj] at hk

theorem compareBuffer_self (a : Segments) : compareBuffer a a.bytes = .ok true := by
  induction a with
  | nil => rfl
  | cons x a ih =>
      unfold compareBuffer
      rw [bytes_cons, if_neg (by rw [List.length_append]; omega), List.take_left,
        if_neg (not_not.mpr rfl), List.drop_left]
      exact ih

/-! ## Exactness -/

/-- A byte of the common part of the two lists differs. -/
def Diverge (a b : Segments) : Prop := ¬(a.bytes <+: b.bytes ∨ b.bytes <+: a.bytes)

/-- `contents_equal` returns, looks at no node behind the end of a list and tells
whether the bytes are equal exactly when the lists differ in length or in a
byte, or agree and the first has no more empty nodes at its end than the second.
Against a buffer it does so for every list whose length an `unsigned` holds; for
a longer one, when the lengths differ with the bytes or some leading nodes do. -/
theorem contents_equal_exact_iff (a b : Segments) (other : Bytes) :
    (contentsEqual a b = .ok (decide (a.bytes = b.bytes)) ↔
      a.length ≠ b.length ∨ Diverge a b ∨ (a.bytes = b.bytes ∧ a.trailing ≤ b.trailing)) ∧
    (contentsEqualBuffer a other = .ok (decide (a.bytes = other)) ↔
      a.bytes.length < 2 ^ 32 ∨ (a.length ≠ other.length ∧ a.bytes ≠ other) ∨
        (a.length = other.length ∧ Differs a other)) := by
  constructor
  · unfold contentsEqual
    split
    · rename_i hlen
      refine iff_of_true ?_ (.inl hlen)
      rw [decide_eq_false]
      intro hbytes
      exact hlen (congrArg (·.length % 2 ^ 32) hbytes)
    · rename_i hlen
      have hstart : ∀ c : Segments, At c 0 := by
        intro c
        cases c with
        | nil => rfl
        | cons x c => exact .inl rfl
      rw [compareLoop_eq (Nat.le_refl _) (hstart a) (hstart b), List.drop_zero, List.drop_zero,
        or_iff_right hlen]
      unfold verdict
      split
      · rename_i hdiv
        refine iff_of_true ?_ (.inl hdiv)
        rw [decide_eq_false]
        intro hbytes
        exact hdiv (.inl (hbytes ▸ List.prefix_rfl))
      · rename_i hpre
        rw [or_iff_right (show ¬ Diverge a b from hpre)]
        split
        · rename_i hlt
          have hne : a.bytes ≠ b.bytes := fun h => by rw [h] at hlt; omega
          simp [hne]
        · split
          · rename_i hlt
            have hne : a.bytes ≠ b.bytes := fun h => by rw [h] at hlt; omega
            simp [hne]
          · have heq : a.bytes = b.bytes := by
              rcases not_not.mp hpre with h | h
              · exact h.eq_of_length (by omega)
              · exact (h.eq_of_length (by omega)).symm
            split <;> simp [*]
  · unfold contentsEqualBuffer
    split
    · rename_i hlen
      by_cases hbytes : a.bytes = other
      · have hbig : ¬ a.bytes.length < 2 ^ 32 := by
          intro hlt
          refine hlen ?_
          rw [← hbytes]
          exact Nat.mod_eq_of_lt hlt
        have hne : Except.ok false ≠ (Except.ok (decide (a.bytes = other)) : Except CompareFault Bool) := by
          simp [hbytes]
        refine iff_of_false hne ?_
        rintro (h | ⟨-, h⟩ | ⟨h, -⟩)
        · exact hbig h
        · exact h hbytes
        · exact hlen h
      · refine iff_of_true ?_ (.inr (.inl ⟨hlen, hbytes⟩))
        rw [decide_eq_false hbytes]
    · rename_i hlen
      have hlen := not_not.mp hlen
      by_cases hbytes : a.bytes = other
      · have hlt : a.bytes.length < 2 ^ 32 := by
          rw [hbytes, ← hlen]
          exact Nat.mod_lt _ (by decide)
        refine iff_of_true ?_ (.inl hlt)
        rw [← hbytes, compareBuffer_self]
        simp
      · rw [decide_eq_false hbytes, compareBuffer_false_iff]
        constructor
        · intro h
          exact .inr (.inr ⟨hlen, h⟩)
        · rintro (hlt | ⟨hne, -⟩ | ⟨-, h⟩)
          · -- all nodes together are as long as the buffer
            have heq : a.bytes.length = other.length := by
              rw [← hlen]
              exact (Nat.mod_eq_of_lt hlt).symm
            refine ⟨List.length a, ?_, ?_⟩
            · rw [List.take_length, heq]
            · rw [List.take_length]
              exact fun hpre => hbytes (hpre.eq_of_length heq)
          · exact absurd hlen hne
          · exact h

/-- One byte and an empty node behind it, as `reserve` leaves it, against the
same byte: the loop looks behind the end of the second list. -/
theorem not_contents_equal_exact :
    contentsEqual [[120], []] [[120]] = .error .pastEnd ∧
      ¬ ∀ a b : Segments, contentsEqual a b = .ok (decide (a.bytes = b.bytes)) := by
  have hfault : contentsEqual [[120], []] [[120]] = .error .pastEnd := by decide
  refine ⟨hfault, fun h => ?_⟩
  have := h [[120], []] [[120]]
  rw [hfault] at this
  cases this

end Segments

end Clab.Common
