import Clab.Common.ByteString

/-!
# Keys, merge operators and transactions of `KeyValueDB`

A (prefix, key) pair is flattened to `prefix ++ NUL ++ key`. Both back ends order
the flat keys by their bytes, so a set of keys is selected either by a string
prefix or by an interval of byte strings; the lemmas on `encodeKey` say which
flat keys each selects.
-/

namespace Clab.Kv

/-- `encode_key`. -/
def encodeKey (pre key : Bytes) : Bytes := pre ++ 0 :: key

/-- `decode_key(..).first`: what stands before the first NUL. -/
def keyPrefix (fullKey : Bytes) : Bytes := fullKey.takeWhile (· ≠ 0)

def NulFree (pre : Bytes) : Prop := 0 ∉ pre

/-- `MergeOperator`. -/
structure MergeOperator where
  mergeNonexistent : Bytes → Bytes
  merge : Bytes → Bytes → Bytes

/-- `merge_ops_`. -/
abbrev MergeOps := List (Bytes × MergeOperator)

/-- The first operator registered for the prefix. -/
def findOp (mops : MergeOps) (pre : Bytes) : Option MergeOperator :=
  (mops.find? fun e => e.1 = pre).map Prod.snd

/-- The calls of `TransactionImpl`. -/
inductive Op
  | set (pre key value : Bytes)
  | rmkey (pre key : Bytes)
  | rmkeysByPrefix (pre : Bytes)
  | rmRangeKeys (pre start stop : Bytes)
  | merge (pre key value : Bytes)

/-- One step of a merge: on the value of a key, or on none. -/
def MergeOperator.merged (mop : MergeOperator) (cur : Option Bytes) (rdata : Bytes) : Bytes :=
  match cur with
  | none => mop.mergeNonexistent rdata
  | some ldata => mop.merge ldata rdata

/-- The prefix a call names. -/
def Op.pre : Op → Bytes
  | set p _ _ | rmkey p _ | rmkeysByPrefix p | rmRangeKeys p _ _ | merge p _ _ => p

/-! ## Flat keys -/

theorem keyPrefix_encodeKey {pre : Bytes} (h : NulFree pre) (key : Bytes) :
    keyPrefix (encodeKey pre key) = pre := by
  unfold keyPrefix encodeKey
  rw [List.takeWhile_append_of_pos]
  · simp
  · intro b hb
    simpa using fun h0 : b = 0 => h (h0 ▸ hb)

theorem encodeKey_inj {p q k l : Bytes} (hp : NulFree p) (hq : NulFree q)
    (h : encodeKey p k = encodeKey q l) : p = q ∧ k = l := by
  have hpq : p = q := by
    rw [← keyPrefix_encodeKey hp k, h, keyPrefix_encodeKey hq l]
  subst hpq
  exact ⟨rfl, by simpa [encodeKey] using h⟩

theorem exists_encodeKey {x : Bytes} (h : 0 ∈ x) :
    ∃ pre key, NulFree pre ∧ x = encodeKey pre key := by
  induction x with
  | nil => simp at h
  | cons b x ih =>
      by_cases hb : b = 0
      · exact ⟨[], x, by simp [NulFree], by rw [hb]; rfl⟩
      · obtain ⟨pre, key, hpre, rfl⟩ := ih (by
          rcases List.mem_cons.mp h with h | h
          · exact absurd h.symm hb
          · exact h)
        refine ⟨b :: pre, key, ?_, rfl⟩
        intro h0
        rcases List.mem_cons.mp h0 with h0 | h0
        · exact hb h0.symm
        · exact hpre h0

theorem encodeKey_isPrefix_iff {p q k : Bytes} (hp : NulFree p) (hq : NulFree q) :
    encodeKey p [] <+: encodeKey q k ↔ q = p := by
  constructor
  · rintro ⟨t, ht⟩
    have henc : encodeKey p t = encodeKey q k := by
      rw [← ht]
      simp [encodeKey]
    exact (encodeKey_inj hp hq henc).1.symm
  · rintro rfl
    exact ⟨k, by simp [encodeKey]⟩

/-- A NUL-free start of a flat key that goes on is a start of its prefix. -/
theorem prefix_of_encodeKey {s q k y : Bytes} (hs : NulFree s) (hq : NulFree q)
    (h : encodeKey q k = s ++ y) : ∃ r, q = s ++ r := by
  refine ⟨keyPrefix y, ?_⟩
  rw [← keyPrefix_encodeKey hq k, h, keyPrefix, List.takeWhile_append_of_pos]
  · rfl
  · intro b hb
    simpa using fun h0 : b = 0 => hs (h0 ▸ hb)

/-! ## Intervals of flat keys -/

/-- The bounds `pre\0` and `pre\xff` also take in the keys of a longer prefix. -/
theorem between_bounds_iff {pre x : Bytes} :
    encodeKey pre [] ≤ x ∧ x < pre ++ [0xff] ↔ ∃ c y, x = pre ++ c :: y ∧ c < 0xff := by
  rw [encodeKey, between_append_iff]
  constructor
  · rintro ⟨y, rfl, hlo, hhi⟩
    cases y with
    | nil => exact absurd (List.nil_lt_cons _ _) (not_lt.mpr hlo)
    | cons c y =>
        rcases List.cons_lt_cons_iff.mp hhi with hc | ⟨-, hy⟩
        · exact ⟨c, y, rfl, hc⟩
        · exact absurd hy (List.not_lt_nil y)
  · rintro ⟨c, y, rfl, hc⟩
    refine ⟨c :: y, rfl, cons_le_cons_iff.mpr ?_, List.cons_lt_cons_iff.mpr (.inl hc)⟩
    by_cases h0 : c = 0
    · exact .inr ⟨h0.symm, nil_le y⟩
    · exact .inl (UInt8.pos_iff_ne_zero.mpr h0)

end Clab.Kv
