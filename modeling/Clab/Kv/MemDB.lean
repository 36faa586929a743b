import Clab.Lib.OrderedMap
import Clab.Kv.KeyValueDB

/-!
# `MemDB`

`MemDB` keeps the flat keys in a `std::map` and applies the operations of a
transaction one after the other. What one operation does to the value of a key is
`Op.result`; a merge without an operator stops the transaction.
-/

namespace Clab.Kv

structure MemDB where
  db : OrderedMap Bytes Bytes
  seqno : Nat

/-- `-ENOENT`. -/
def enoent : Int := -2

namespace MemDB

/-- `++seqno_` over the new map. -/
def bump (d : MemDB) (db : OrderedMap Bytes Bytes) : MemDB :=
  { db := db, seqno := (d.seqno + 1) % 2 ^ 64 }

/-- `_set_key`. -/
def setKey (d : MemDB) (fullKey bl : Bytes) : MemDB := d.bump (d.db.insert fullKey bl)

/-- `_rmkey`. -/
def rmkey (d : MemDB) (fullKey : Bytes) : MemDB := d.bump (d.db.erase fullKey)

/-- `_rmkeys_by_prefix`. -/
def rmkeysByPrefix (d : MemDB) (pre : Bytes) : MemDB :=
  let start := encodeKey pre []
  d.bump (d.db.eraseWhile start fun key => start.isPrefixOf key)

/-- `_rm_range_keys`. -/
def rmRangeKeys (d : MemDB) (pre start stop : Bytes) : MemDB :=
  d.bump (d.db.eraseWhile (encodeKey pre start) fun key => key < encodeKey pre stop)

/-- `_merge`. -/
def merge (mops : MergeOps) (d : MemDB) (pre fullKey rdata : Bytes) : Int × MemDB :=
  match findOp mops pre with
  | none => (enoent, d)
  | some mop => (0, d.bump (d.db.insert fullKey (mop.merged (d.db.lookup fullKey) rdata)))

/-- One turn of the loop of `submit_transaction`. -/
def applyOp (mops : MergeOps) (op : Op) (d : MemDB) : Int × MemDB :=
  match op with
  | .set pre key value => (0, d.setKey (encodeKey pre key) value)
  | .rmkey pre key => (0, d.rmkey (encodeKey pre key))
  | .rmkeysByPrefix pre => (0, d.rmkeysByPrefix pre)
  | .rmRangeKeys pre start stop => (0, d.rmRangeKeys pre start stop)
  | .merge pre key value => d.merge mops pre (encodeKey pre key) value

/-- `submit_transaction`; what was applied before a failing merge stays. -/
def submitTransaction (mops : MergeOps) : List Op → MemDB → Int × MemDB
  | [], d => (0, d)
  | op :: ops, d =>
      let step := applyOp mops op d
      if step.1 ≠ 0 then step else submitTransaction mops ops step.2

end MemDB

/-! ## What an operation does to the value of a key -/

/-- A merge has its operator. -/
def Op.Mergeable (mops : MergeOps) : Op → Prop
  | merge pre _ _ => (findOp mops pre).isSome
  | _ => True

/-- The value of the flat key `x` after the operation, from its value before. -/
def Op.result (mops : MergeOps) (op : Op) (x : Bytes) (cur : Option Bytes) : Option Bytes :=
  match op with
  | set pre key value => if x = encodeKey pre key then some value else cur
  | rmkey pre key => if x = encodeKey pre key then none else cur
  | rmkeysByPrefix pre => if encodeKey pre [] <+: x then none else cur
  | rmRangeKeys pre start stop =>
      if encodeKey pre start ≤ x ∧ x < encodeKey pre stop then none else cur
  | merge pre key value =>
      if x = encodeKey pre key then (findOp mops pre).map fun mop => mop.merged cur value
      else cur

namespace MemDB

theorem rmkeysByPrefix_lookup (d : MemDB) (pre x : Bytes) :
    (d.rmkeysByPrefix pre).db.lookup x =
      if encodeKey pre [] <+: x then none else d.db.lookup x := by
  have hrun : ∀ a b, encodeKey pre [] ≤ a → a < b → (encodeKey pre []).isPrefixOf b →
      (encodeKey pre []).isPrefixOf a := by
    intro a b hlo hab hb
    exact List.isPrefixOf_iff_prefix.mpr
      (isPrefix_of_lt hlo hab (List.isPrefixOf_iff_prefix.mp hb))
  show (d.db.eraseWhile _ _).lookup x = _
  rw [OrderedMap.lookup_eraseWhile _ hrun]
  simp only [List.isPrefixOf_iff_prefix]
  exact if_congr (and_iff_right_of_imp le_of_isPrefix) rfl rfl

theorem rmRangeKeys_lookup (d : MemDB) (pre start stop x : Bytes) :
    (d.rmRangeKeys pre start stop).db.lookup x =
      if encodeKey pre start ≤ x ∧ x < encodeKey pre stop then none else d.db.lookup x := by
  show (d.db.eraseWhile _ _).lookup x = _
  rw [OrderedMap.lookup_eraseWhile]
  · simp only [decide_eq_true_eq]
  · intro a b _ hab hb
    exact decide_eq_true (hab.trans (of_decide_eq_true hb))

/-- An operation succeeds unless it is a merge without an operator. -/
theorem applyOp_eq_zero_iff {mops : MergeOps} {op : Op} {d : MemDB} :
    (applyOp mops op d).1 = 0 ↔ op.Mergeable mops := by
  cases op with
  | merge pre key value =>
      simp only [applyOp, merge, Op.Mergeable]
      cases findOp mops pre with
      | none => simp [enoent]
      | some mop => simp
  | _ => simp [applyOp, Op.Mergeable]

theorem applyOp_lookup {mops : MergeOps} {op : Op} (h : op.Mergeable mops) (d : MemDB)
    (x : Bytes) : (applyOp mops op d).2.db.lookup x = op.result mops x (d.db.lookup x) := by
  cases op with
  | set pre key value => simp [applyOp, setKey, bump, Op.result]
  | rmkey pre key => simp [applyOp, rmkey, bump, Op.result]
  | rmkeysByPrefix pre => exact rmkeysByPrefix_lookup d pre x
  | rmRangeKeys pre start stop => exact rmRangeKeys_lookup d pre start stop x
  | merge pre key value =>
      obtain ⟨mop, hmop⟩ := Option.isSome_iff_exists.mp h
      simp only [applyOp, merge, hmop, Op.result, bump, OrderedMap.lookup_insert, Option.map_some]
      by_cases hx : x = encodeKey pre key
      · rw [if_pos hx, if_pos hx, hx]
      · rw [if_neg hx, if_neg hx]

theorem submitTransaction_append (mops : MergeOps) (ops : List Op) (op : Op) (d : MemDB) :
    submitTransaction mops (ops ++ [op]) d =
      if (submitTransaction mops ops d).1 = 0
      then applyOp mops op (submitTransaction mops ops d).2
      else submitTransaction mops ops d := by
  induction ops generalizing d with
  | nil =>
      by_cases h : (applyOp mops op d).1 = 0
      · simp [submitTransaction, h, Prod.ext_iff]
      · simp [submitTransaction, h]
  | cons o ops ih =>
      by_cases h : (applyOp mops o d).1 = 0
      · simp [submitTransaction, h, ih]
      · simp [submitTransaction, h]

end MemDB

/-! ## Stored keys -/

/-- Every stored key is a flat one. -/
def Keyed (m : OrderedMap Bytes Bytes) : Prop := ∀ key value, (key, value) ∈ m.entries → 0 ∈ key

theorem Keyed.applyOp {mops : MergeOps} {d : MemDB} (h : Keyed d.db) {op : Op}
    (hop : op.Mergeable mops) : Keyed (MemDB.applyOp mops op d).2.db := by
  intro key value hmem
  rw [← OrderedMap.lookup_eq_some, MemDB.applyOp_lookup hop] at hmem
  have hflat : ∀ pre k, (0 : UInt8) ∈ encodeKey pre k := fun pre k => by simp [encodeKey]
  by_cases hkey : ∃ pre k, key = encodeKey pre k
  · obtain ⟨pre, k, rfl⟩ := hkey
    exact hflat pre k
  · -- a key that no operation can name keeps its value or loses it
    have hne : ∀ pre k, key ≠ encodeKey pre k := fun pre k hk => hkey ⟨pre, k, hk⟩
    have hold : d.db.lookup key = some value := by
      cases op with
      | set pre k v => simpa [Op.result, hne] using hmem
      | rmkey pre k => simpa [Op.result, hne] using hmem
      | rmkeysByPrefix pre => exact (Option.ite_none_left_eq_some.mp hmem).2
      | rmRangeKeys pre start stop => exact (Option.ite_none_left_eq_some.mp hmem).2
      | merge pre k v => simpa [Op.result, hne] using hmem
    exact h key value (OrderedMap.lookup_eq_some.mp hold)

/-! ## Failed transactions -/

instance (mops : MergeOps) (op : Op) : Decidable (op.Mergeable mops) :=
  match op with
  | .merge pre _ _ => inferInstanceAs (Decidable ((findOp mops pre).isSome = true))
  | .set _ _ _ | .rmkey _ _ | .rmkeysByPrefix _ | .rmRangeKeys _ _ _ => isTrue trivial

/-- The operations before the first merge without an operator. -/
def beforeFailure (mops : MergeOps) (ops : List Op) : List Op :=
  ops.takeWhile fun op => op.Mergeable mops

/-- The value of the flat key `x` after the operations, from its value before. -/
def netResult (mops : MergeOps) (ops : List Op) (x : Bytes) (cur : Option Bytes) : Option Bytes :=
  ops.foldl (fun value op => op.result mops x value) cur

namespace MemDB

/-- A transaction fails exactly on a merge without an operator. -/
theorem submitTransaction_eq_zero_iff {mops : MergeOps} {ops : List Op} {d : MemDB} :
    (submitTransaction mops ops d).1 = 0 ↔ ∀ op ∈ ops, op.Mergeable mops := by
  induction ops generalizing d with
  | nil => simp [submitTransaction]
  | cons op ops ih =>
      rw [List.forall_mem_cons, ← applyOp_eq_zero_iff (d := d)]
      by_cases h : (applyOp mops op d).1 = 0
      · rw [and_iff_right h, ← ih (d := (applyOp mops op d).2)]
        simp [submitTransaction, h]
      · simp [submitTransaction, h]

theorem applyOp_of_not_mergeable {mops : MergeOps} {op : Op} (h : ¬ op.Mergeable mops)
    (d : MemDB) : (applyOp mops op d).2 = d := by
  cases op with
  | merge pre key value =>
      have hnone : findOp mops pre = none := by simpa [Op.Mergeable] using h
      simp [applyOp, merge, hnone]
  | _ => exact absurd trivial h

/-- A transaction leaves what the operations before the failing one made of each key. -/
theorem submitTransaction_lookup (mops : MergeOps) (ops : List Op) (d : MemDB) (x : Bytes) :
    (submitTransaction mops ops d).2.db.lookup x =
      netResult mops (beforeFailure mops ops) x (d.db.lookup x) := by
  induction ops generalizing d with
  | nil => rfl
  | cons op ops ih =>
      by_cases h : op.Mergeable mops
      · have hok : (applyOp mops op d).1 = 0 := applyOp_eq_zero_iff.mpr h
        have hhead : beforeFailure mops (op :: ops) = op :: beforeFailure mops ops := by
          simp [beforeFailure, h]
        have hstep : submitTransaction mops (op :: ops) d =
            submitTransaction mops ops (applyOp mops op d).2 := by simp [submitTransaction, hok]
        rw [hhead, netResult, List.foldl_cons, ← applyOp_lookup h, hstep]
        exact ih (applyOp mops op d).2
      · have hfail : (applyOp mops op d).1 ≠ 0 := fun h0 => h (applyOp_eq_zero_iff.mp h0)
        have hhead : beforeFailure mops (op :: ops) = [] := by simp [beforeFailure, h]
        rw [hhead]
        simp [submitTransaction, hfail, applyOp_of_not_mergeable h, netResult]

/-- A failed transaction leaves the map as it was exactly when the operations before the
failing one change no key. -/
theorem failed_unchanged_iff (mops : MergeOps) (ops : List Op) (d : MemDB) :
    ((submitTransaction mops ops d).1 ≠ 0 → (submitTransaction mops ops d).2.db = d.db) ↔
      (∀ op ∈ ops, op.Mergeable mops) ∨
        ∀ x, netResult mops (beforeFailure mops ops) x (d.db.lookup x) = d.db.lookup x := by
  have hsame : (submitTransaction mops ops d).2.db = d.db ↔
      ∀ x, netResult mops (beforeFailure mops ops) x (d.db.lookup x) = d.db.lookup x := by
    constructor
    · intro h x
      rw [← submitTransaction_lookup, h]
    · intro h
      refine OrderedMap.ext_lookup fun x => ?_
      rw [submitTransaction_lookup, h x]
  rw [hsame, ← submitTransaction_eq_zero_iff (d := d), ne_eq, imp_iff_not_or, not_not]

/-- A value is replaced before the merge of the same transaction is refused. -/
theorem failed_not_unchanged :
    ¬ ((submitTransaction [] [.set [97] [1] [7], .merge [98] [1] [7]] ⟨.empty, 0⟩).1 ≠ 0 →
      (submitTransaction [] [.set [97] [1] [7], .merge [98] [1] [7]] ⟨.empty, 0⟩).2.db =
        OrderedMap.empty) := by
  intro h
  have hdb := h (by decide)
  have hentries := congrArg OrderedMap.entries hdb
  exact absurd hentries (by decide)

end MemDB

end Clab.Kv
