import Clab.Kv.MemDB

/-!
# `RocksDBStore` and its agreement with `MemDB`

A transaction is a write batch. The store keeps for each key the base value and
the merge operands put on it since; a read folds them through the merge adapter.
`rmkeys_by_prefix` deletes an interval of flat keys that reaches past the prefix,
so the two back ends agree exactly while no key of a longer prefix is in it.
-/

namespace Clab.Kv

/-- The records of `rocksdb::WriteBatch`. -/
inductive BatchOp
  | put (key value : Bytes)
  | delete (key : Bytes)
  | deleteRange (first last : Bytes)
  | merge (key value : Bytes)

/-- `RDBTransactionImpl`. -/
structure RDBTransaction where
  batch : List BatchOp
  deleteRangeThreshold : Nat

namespace RDBTransaction

def push (t : RDBTransaction) (op : BatchOp) : RDBTransaction :=
  { t with batch := t.batch ++ [op] }

def set (t : RDBTransaction) (pre k bl : Bytes) : RDBTransaction :=
  t.push (.put (encodeKey pre k) bl)

def rmkey (t : RDBTransaction) (pre k : Bytes) : RDBTransaction :=
  t.push (.delete (encodeKey pre k))

/-- `rmkeys_by_prefix`: from `pre + '\0'` up to `pre + '\xff'`. -/
def rmkeysByPrefix (t : RDBTransaction) (pre : Bytes) : RDBTransaction :=
  t.push (.deleteRange (pre ++ [0]) (pre ++ [0xff]))

/-- `rm_range_keys`; a small range falls back to the same deletion. -/
def rmRangeKeys (t : RDBTransaction) (pre start stop : Bytes) : RDBTransaction :=
  let s := encodeKey pre start
  let e := encodeKey pre stop
  if 0 < t.deleteRangeThreshold ∧
      (e.length + 2 ^ 64 - s.length) % 2 ^ 64 ≤ t.deleteRangeThreshold then
    t.push (.deleteRange s e)
  else
    t.push (.deleteRange s e)

def merge (t : RDBTransaction) (pre k value : Bytes) : RDBTransaction :=
  t.push (.merge (encodeKey pre k) value)

/-- The call on the transaction. -/
def call (t : RDBTransaction) : Op → RDBTransaction
  | .set pre k value => t.set pre k value
  | .rmkey pre k => t.rmkey pre k
  | .rmkeysByPrefix pre => t.rmkeysByPrefix pre
  | .rmRangeKeys pre start stop => t.rmRangeKeys pre start stop
  | .merge pre k value => t.merge pre k value

/-- The transaction after a sequence of calls. -/
def ofOps (threshold : Nat) (ops : List Op) : RDBTransaction :=
  ops.foldl call ⟨[], threshold⟩

end RDBTransaction

/-! ## The store -/

/-- What the store holds under a key: the base value and the operands merged onto it. -/
structure KeyState where
  existing : Option Bytes
  operands : List Bytes

abbrev RocksDB := Bytes → KeyState

/-- `rocksdb::Status::Corruption`, the result of a failed merge. -/
inductive Status
  | corruption
  deriving DecidableEq

/-- `RocksDBMergeAdapter::FullMergeV2`; `none` is the return of `false`. -/
def fullMergeV2 (mops : MergeOps) (key : Bytes) (existing : Option Bytes)
    (operands : List Bytes) : Option Bytes :=
  if 0 ∉ key then none
  else match findOp mops (keyPrefix key), operands with
    | none, _ => none
    | some _, [] => none
    | some mop, operand :: rest =>
        some (rest.foldl (fun value rdata => mop.merge value rdata)
          (mop.merged existing operand))

/-- What a read makes of the state of a key. -/
def KeyState.read (mops : MergeOps) (key : Bytes) (s : KeyState) : Except Status (Option Bytes) :=
  if s.operands = [] then .ok s.existing
  else match fullMergeV2 mops key s.existing s.operands with
    | none => .error .corruption
    | some value => .ok (some value)

namespace RocksDB

/-- The store with the content of a map. -/
def ofMap (m : OrderedMap Bytes Bytes) : RocksDB := fun key => ⟨m.lookup key, []⟩

/-- One record of a write batch. -/
def apply (db : RocksDB) (op : BatchOp) : RocksDB := fun key =>
  match op with
  | .put k v => if key = k then ⟨some v, []⟩ else db key
  | .delete k => if key = k then ⟨none, []⟩ else db key
  | .deleteRange first last => if first ≤ key ∧ key < last then ⟨none, []⟩ else db key
  | .merge k v =>
      if key = k then ⟨(db key).existing, (db key).operands ++ [v]⟩ else db key

/-- `Write` of a batch. -/
def write (db : RocksDB) (t : RDBTransaction) : RocksDB := t.batch.foldl apply db

/-- `Get`. -/
def get (mops : MergeOps) (db : RocksDB) (key : Bytes) : Except Status (Option Bytes) :=
  KeyState.read mops key (db key)

end RocksDB

/-! ## What a record does to the value of a key -/

theorem fullMergeV2_singleton {mops : MergeOps} {key : Bytes} (hnul : 0 ∈ key)
    (existing : Option Bytes) (rdata : Bytes) :
    fullMergeV2 mops key existing [rdata] =
      (findOp mops (keyPrefix key)).map fun mop => mop.merged existing rdata := by
  unfold fullMergeV2
  rw [if_neg (not_not.mpr hnul)]
  cases findOp mops (keyPrefix key) <;> simp

theorem fullMergeV2_append {mops : MergeOps} {key value : Bytes} {existing : Option Bytes}
    {operands : List Bytes} (h : fullMergeV2 mops key existing operands = some value)
    (rdata : Bytes) :
    fullMergeV2 mops key existing (operands ++ [rdata]) =
      (findOp mops (keyPrefix key)).map fun mop => mop.merged (some value) rdata := by
  unfold fullMergeV2 at h ⊢
  split at h
  case isTrue hnul => simp at h
  case isFalse hnul =>
    rw [if_neg hnul]
    cases hop : findOp mops (keyPrefix key) with
    | none => simp [hop] at h
    | some mop =>
        cases operands with
        | nil => simp [hop] at h
        | cons operand rest =>
            simp only [hop, Option.some.injEq] at h
            subst h
            simp [List.foldl_append, MergeOperator.merged]

/-- A merge onto a readable key applies the operator to its value. -/
theorem KeyState.read_merge {mops : MergeOps} {key rdata : Bytes} {s : KeyState}
    {cur : Option Bytes} (hnul : 0 ∈ key) (h : s.read mops key = .ok cur) :
    KeyState.read mops key ⟨s.existing, s.operands ++ [rdata]⟩ =
      match findOp mops (keyPrefix key) with
      | none => .error .corruption
      | some mop => .ok (some (mop.merged cur rdata)) := by
  have hfold : fullMergeV2 mops key s.existing (s.operands ++ [rdata]) =
      (findOp mops (keyPrefix key)).map fun mop => mop.merged cur rdata := by
    unfold KeyState.read at h
    split at h
    case isTrue hnil =>
      obtain rfl : s.existing = cur := by simpa using h
      rw [hnil]
      exact fullMergeV2_singleton hnul s.existing rdata
    case isFalse hne =>
      cases hval : fullMergeV2 mops key s.existing s.operands with
      | none => simp [hval] at h
      | some value =>
          obtain rfl : some value = cur := by simpa [hval] using h
          exact fullMergeV2_append hval rdata
  simp only [KeyState.read, hfold, List.append_eq_nil_iff, List.cons_ne_nil, and_false, if_false]
  cases findOp mops (keyPrefix key) <;> rfl

/-! ## One operation on both back ends -/

/-- The record a call adds to the batch. -/
def Op.record : Op → BatchOp
  | set pre k v => .put (encodeKey pre k) v
  | rmkey pre k => .delete (encodeKey pre k)
  | rmkeysByPrefix pre => .deleteRange (pre ++ [0]) (pre ++ [0xff])
  | rmRangeKeys pre start stop => .deleteRange (encodeKey pre start) (encodeKey pre stop)
  | merge pre k v => .merge (encodeKey pre k) v

theorem RDBTransaction.call_batch (t : RDBTransaction) (op : Op) :
    (t.call op).batch = t.batch ++ [op.record] := by
  cases op with
  | rmRangeKeys pre start stop =>
      show (t.rmRangeKeys pre start stop).batch = _
      simp only [rmRangeKeys]
      split <;> rfl
  | _ => rfl

theorem RDBTransaction.ofOps_append (threshold : Nat) (ops : List Op) (op : Op) :
    (ofOps threshold (ops ++ [op])).batch = (ofOps threshold ops).batch ++ [op.record] := by
  rw [ofOps, List.foldl_append]
  exact call_batch _ op

/-- The stored keys of another prefix that `rmkeys_by_prefix` deletes on RocksDB:
those that extend the prefix by a byte below `0xff`. -/
def Op.Overreaches (op : Op) (m : OrderedMap Bytes Bytes) : Prop :=
  ∃ pre c r key value, op = rmkeysByPrefix pre ∧ (encodeKey (pre ++ c :: r) key, value) ∈ m.entries ∧
    NulFree (pre ++ c :: r) ∧ c < 0xff

/-- Every key reads the same on both back ends. -/
def SameMap (mops : MergeOps) (d : MemDB) (db : RocksDB) : Prop :=
  ∀ key, db.get mops key = .ok (d.db.lookup key)

theorem get_deleteRange {mops : MergeOps} {db : RocksDB} (first last key : Bytes) :
    (db.apply (.deleteRange first last)).get mops key =
      if first ≤ key ∧ key < last then .ok none else db.get mops key := by
  unfold RocksDB.get RocksDB.apply
  dsimp only
  split <;> rfl

/-- Without an operator the key of a merge cannot be read any more. -/
theorem SameMap.not_mergeable {mops : MergeOps} {d d' : MemDB} {db : RocksDB} {op : Op}
    (h : SameMap mops d db) (hpre : NulFree op.pre) (hop : ¬ op.Mergeable mops) :
    ¬ SameMap mops d' (db.apply op.record) := by
  intro hsame
  cases op with
  | merge pre k v =>
      have hnone : findOp mops pre = none := by simpa [Op.Mergeable] using hop
      have hkey : keyPrefix (encodeKey pre k) = pre := keyPrefix_encodeKey hpre k
      have hread := hsame (encodeKey pre k)
      rw [RocksDB.get, Op.record, RocksDB.apply, if_pos rfl,
        KeyState.read_merge (by simp [encodeKey]) (h (encodeKey pre k)),
        hkey, hnone] at hread
      exact absurd hread (by simp)
  | _ => exact hop trivial

/-- Away from `rmkeys_by_prefix` an operation does the same on RocksDB. -/
theorem get_apply_record {mops : MergeOps} {db : RocksDB} {op : Op} {key : Bytes}
    {cur : Option Bytes} (h : db.get mops key = .ok cur) (hpre : NulFree op.pre)
    (hop : op.Mergeable mops) (hne : ∀ pre, op ≠ .rmkeysByPrefix pre) :
    (db.apply op.record).get mops key = .ok (op.result mops key cur) := by
  cases op with
  | set pre k v =>
      simp only [RocksDB.get, RocksDB.apply, Op.record, Op.result]
      split
      · rfl
      · exact h
  | rmkey pre k =>
      simp only [RocksDB.get, RocksDB.apply, Op.record, Op.result]
      split
      · rfl
      · exact h
  | rmkeysByPrefix pre => exact absurd rfl (hne pre)
  | rmRangeKeys pre start stop =>
      simp only [Op.record, get_deleteRange, Op.result]
      split
      · rfl
      · exact h
  | merge pre k v =>
      obtain ⟨mop, hmop⟩ := Option.isSome_iff_exists.mp hop
      simp only [RocksDB.get, RocksDB.apply, Op.record, Op.result]
      split
      case isTrue hk =>
        subst hk
        have hkey : keyPrefix (encodeKey pre k) = pre := keyPrefix_encodeKey hpre k
        rw [KeyState.read_merge (by simp [encodeKey]) h, hkey, hmop]
        rfl
      case isFalse => exact h

/-- `rmkeys_by_prefix` agrees when no stored key of a longer prefix is in its interval. -/
theorem SameMap.rmkeysByPrefix_iff {mops : MergeOps} {d : MemDB} {db : RocksDB} {pre : Bytes}
    (h : SameMap mops d db) (hkeyed : Keyed d.db) (hpre : NulFree pre) :
    SameMap mops (d.rmkeysByPrefix pre) (db.apply (.deleteRange (pre ++ [0]) (pre ++ [0xff]))) ↔
      ¬ (Op.rmkeysByPrefix pre).Overreaches d.db := by
  have hread : ∀ key, (db.apply (.deleteRange (pre ++ [0]) (pre ++ [0xff]))).get mops key =
      if encodeKey pre [] ≤ key ∧ key < pre ++ [0xff] then .ok none
      else .ok (d.db.lookup key) := by
    intro key
    rw [get_deleteRange, h key]
    rfl
  constructor
  · rintro hsame ⟨_, c, r, k, value, heq, hmem, hfree, hc⟩
    obtain rfl := Op.rmkeysByPrefix.inj heq
    have hkey := hsame (encodeKey (pre ++ c :: r) k)
    have hin : encodeKey pre [] ≤ encodeKey (pre ++ c :: r) k ∧ _ := between_bounds_iff.mpr
      ⟨c, r ++ 0 :: k, by simp [encodeKey], hc⟩
    have hout : ¬ encodeKey pre [] <+: encodeKey (pre ++ c :: r) k := by
      rw [encodeKey_isPrefix_iff hpre hfree]
      simp
    rw [hread, if_pos hin, MemDB.rmkeysByPrefix_lookup, if_neg hout,
      OrderedMap.lookup_eq_some.mpr hmem] at hkey
    exact absurd hkey (by simp)
  · intro hno key
    rw [hread, MemDB.rmkeysByPrefix_lookup]
    by_cases hstart : encodeKey pre [] <+: key
    · obtain ⟨t, rfl⟩ := hstart
      have hin : encodeKey pre [] ≤ encodeKey pre [] ++ t ∧ _ := between_bounds_iff.mpr
        ⟨0, t, by simp [encodeKey], by decide⟩
      rw [if_pos hin, if_pos (List.prefix_append _ t)]
    · rw [if_neg hstart]
      split
      case isFalse => rfl
      case isTrue hin =>
        obtain ⟨c, y, rfl, hc⟩ := between_bounds_iff.mp hin
        -- a stored key there would belong to a longer prefix
        rw [OrderedMap.lookup_eq_none]
        intro value hmem
        obtain ⟨q, k, hq, heq⟩ := exists_encodeKey (hkeyed _ _ hmem)
        have hc0 : c ≠ 0 := by
          rintro rfl
          exact hstart ⟨y, by simp [encodeKey]⟩
        have hfree : NulFree (pre ++ [c]) := by
          intro h0
          rcases List.mem_append.mp h0 with h0 | h0
          · exact hpre h0
          · exact hc0 (List.mem_singleton.mp h0).symm
        obtain ⟨r, rfl⟩ := prefix_of_encodeKey (y := y) hfree hq (by simpa using heq.symm)
        refine hno ⟨pre, c, r, k, value, rfl, ?_, by simpa using hq, hc⟩
        rw [heq] at hmem
        simpa using hmem

/-- What keeps the two back ends together over one operation: a merge has its operator,
and `rmkeys_by_prefix` meets no stored key of a longer prefix in its interval. -/
def Op.Separated (mops : MergeOps) (op : Op) (m : OrderedMap Bytes Bytes) : Prop :=
  op.Mergeable mops ∧ ¬ op.Overreaches m

theorem SameMap.step_iff {mops : MergeOps} {d : MemDB} {db : RocksDB} {op : Op}
    (h : SameMap mops d db) (hkeyed : Keyed d.db) (hpre : NulFree op.pre) :
    SameMap mops (MemDB.applyOp mops op d).2 (db.apply op.record) ↔ op.Separated mops d.db := by
  by_cases hop : op.Mergeable mops
  · rw [Op.Separated, and_iff_right hop]
    by_cases hrm : ∃ pre, op = .rmkeysByPrefix pre
    · obtain ⟨pre, rfl⟩ := hrm
      exact h.rmkeysByPrefix_iff hkeyed hpre
    · refine iff_of_true (fun key => ?_) ?_
      · rw [MemDB.applyOp_lookup hop]
        exact get_apply_record (h key) hpre hop fun pre heq => hrm ⟨pre, heq⟩
      · rintro ⟨pre, _, _, _, _, rfl, -⟩
        exact hrm ⟨pre, rfl⟩
  · exact iff_of_false (h.not_mergeable hpre hop) fun hsep => hop hsep.1

/-! ## A transaction on both back ends -/

section Transaction

variable (mops : MergeOps) (threshold : Nat) (ops : List Op) (d : MemDB)

/-- `MemDB` after the first `n` operations. -/
def memAfter (n : Nat) : Int × MemDB := d.submitTransaction mops (ops.take n)

/-- RocksDB, with the same content at first, after a batch of the first `n` operations. -/
def rocksAfter (n : Nat) : RocksDB :=
  (RocksDB.ofMap d.db).write (.ofOps threshold (ops.take n))

/-- The back ends hold the same map after every initial part of the transaction, and each
`rmkeys_by_prefix` removes the keys of its prefix and no others from both. -/
structure SameDeletions : Prop where
  same : ∀ n ≤ ops.length, SameMap mops (memAfter mops ops d n).2 (rocksAfter threshold ops d n)
  exactOnMemDB : ∀ n pre, ops[n]? = some (.rmkeysByPrefix pre) → ∀ q k, NulFree q →
    (memAfter mops ops d (n + 1)).2.db.lookup (encodeKey q k) =
      if q = pre then none else (memAfter mops ops d n).2.db.lookup (encodeKey q k)
  exactOnRocksDB : ∀ n pre, ops[n]? = some (.rmkeysByPrefix pre) → ∀ q k, NulFree q →
    (rocksAfter threshold ops d (n + 1)).get mops (encodeKey q k) =
      if q = pre then .ok none else (rocksAfter threshold ops d n).get mops (encodeKey q k)

variable {mops threshold ops d}

theorem take_of_getElem? {n : Nat} {op : Op} (h : ops[n]? = some op) :
    ops.take (n + 1) = ops.take n ++ [op] := by
  rw [List.take_add_one, h]
  rfl

theorem memAfter_succ {n : Nat} {op : Op} (h : ops[n]? = some op)
    (hok : (memAfter mops ops d n).1 = 0) :
    memAfter mops ops d (n + 1) = MemDB.applyOp mops op (memAfter mops ops d n).2 := by
  rw [memAfter, take_of_getElem? h, MemDB.submitTransaction_append]
  exact if_pos hok

theorem rocksAfter_succ {n : Nat} {op : Op} (h : ops[n]? = some op) :
    rocksAfter threshold ops d (n + 1) = (rocksAfter threshold ops d n).apply op.record := by
  rw [rocksAfter, take_of_getElem? h, RocksDB.write, RDBTransaction.ofOps_append,
    List.foldl_append]
  rfl

/-- While the operations are separated `MemDB` applies them all and the maps are the same. -/
theorem same_of_separated (threshold : Nat) (hkeyed : Keyed d.db) (hpre : ∀ op ∈ ops, NulFree op.pre) (n : Nat)
    (hn : n ≤ ops.length)
    (hsep : ∀ i (op : Op), i < n → ops[i]? = some op → op.Separated mops (memAfter mops ops d i).2.db) :
    (memAfter mops ops d n).1 = 0 ∧ Keyed (memAfter mops ops d n).2.db ∧
      SameMap mops (memAfter mops ops d n).2 (rocksAfter threshold ops d n) := by
  induction n with
  | zero => exact ⟨rfl, hkeyed, fun key => rfl⟩
  | succ n ih =>
      obtain ⟨hok, hkeys, hsame⟩ := ih (by omega) fun i op hi => hsep i op (by omega)
      have hop : ops[n]? = some ops[n] := List.getElem?_eq_getElem hn
      have hs := hsep n ops[n] (by omega) hop
      rw [memAfter_succ hop hok, rocksAfter_succ hop]
      refine ⟨MemDB.applyOp_eq_zero_iff.mpr hs.1, hkeys.applyOp hs.1, ?_⟩
      exact (hsame.step_iff hkeys (hpre _ (List.getElem_mem _))).mpr hs

/-- On equal maps before and after, `rmkeys_by_prefix` has removed exactly its prefix. -/
theorem sameDeletions_of_separated (hkeyed : Keyed d.db) (hpre : ∀ op ∈ ops, NulFree op.pre)
    (hsep : ∀ i (op : Op), ops[i]? = some op → op.Separated mops (memAfter mops ops d i).2.db) :
    SameDeletions mops threshold ops d := by
  have hrun : ∀ n ≤ ops.length, _ := fun n hn =>
    same_of_separated threshold hkeyed hpre n hn fun i op _ => hsep i op
  have hmem : ∀ n pre, ops[n]? = some (.rmkeysByPrefix pre) → ∀ q k, NulFree q →
      (memAfter mops ops d (n + 1)).2.db.lookup (encodeKey q k) =
        if q = pre then none else (memAfter mops ops d n).2.db.lookup (encodeKey q k) := by
    intro n pre hop q k hq
    obtain ⟨hn, hget⟩ := List.getElem?_eq_some_iff.mp hop
    have hp : NulFree pre := hpre (.rmkeysByPrefix pre) (hget ▸ List.getElem_mem hn)
    rw [memAfter_succ hop (hrun n (by omega)).1]
    show (MemDB.rmkeysByPrefix _ pre).db.lookup _ = _
    rw [MemDB.rmkeysByPrefix_lookup]
    exact if_congr (encodeKey_isPrefix_iff hp hq) rfl rfl
  refine ⟨fun n hn => (hrun n hn).2.2, hmem, fun n pre hop q k hq => ?_⟩
  obtain ⟨hn, -⟩ := List.getElem?_eq_some_iff.mp hop
  rw [(hrun (n + 1) (by omega)).2.2, (hrun n (by omega)).2.2, hmem n pre hop q k hq]
  split <;> rfl

/-- **The back ends delete the same keys exactly on separated transactions**: each merge
has its operator, and no `rmkeys_by_prefix(p)` meets a stored key whose prefix is `p`
followed by a byte below `0xff`. -/
theorem same_deletions_iff (hkeyed : Keyed d.db) (hpre : ∀ op ∈ ops, NulFree op.pre) :
    SameDeletions mops threshold ops d ↔
      ∀ n (op : Op), ops[n]? = some op → op.Separated mops (memAfter mops ops d n).2.db := by
  constructor
  · intro h n
    -- the first operation that is not separated would leave different maps
    induction n using Nat.strong_induction_on with
    | _ n ih =>
        intro op hop
        obtain ⟨hn, hget⟩ := List.getElem?_eq_some_iff.mp hop
        obtain ⟨hok, hkeys, hsame⟩ := same_of_separated threshold hkeyed hpre n
          (by omega) fun i op' hi => ih i hi op'
        have hnext := h.same (n + 1) (by omega)
        rw [memAfter_succ hop hok, rocksAfter_succ hop] at hnext
        exact (hsame.step_iff hkeys (hpre op (hget ▸ List.getElem_mem hn))).mp hnext
  · exact sameDeletions_of_separated hkeyed hpre

end Transaction

/-- One key of prefix `ab`. -/
def extendedPrefix : MemDB where
  db := ⟨[(encodeKey [97, 98] [107], [1])], List.pairwise_singleton _ _⟩
  seqno := 0

/-- `rmkeys_by_prefix("a")` deletes the key of prefix `ab` on RocksDB and keeps it in `MemDB`. -/
theorem deletes_extended_prefix :
    ¬ SameDeletions [] 0 [.rmkeysByPrefix [97]] extendedPrefix := by
  intro h
  have hread := h.same 1 (by decide) (encodeKey [97, 98] [107])
  exact absurd hread (by decide)

/-- On a prefix that no stored prefix extends the back ends agree. -/
theorem same_deletions_separate :
    (Keyed extendedPrefix.db ∧ ∀ op ∈ [Op.rmkeysByPrefix [97, 98]], NulFree op.pre) ∧
      (SameDeletions [] 0 [.rmkeysByPrefix [97, 98]] extendedPrefix ↔
        ∀ n (op : Op), [Op.rmkeysByPrefix [97, 98]][n]? = some op →
          op.Separated [] (memAfter [] [.rmkeysByPrefix [97, 98]] extendedPrefix n).2.db) := by
  have hkeyed : Keyed extendedPrefix.db := by
    intro key value hmem
    obtain rfl := (Prod.ext_iff.mp (List.mem_singleton.mp hmem)).1
    decide
  have hpre : ∀ op ∈ [Op.rmkeysByPrefix [97, 98]], NulFree op.pre := by
    intro op hop
    obtain rfl := List.mem_singleton.mp hop
    show (0 : UInt8) ∉ [97, 98]
    decide
  exact ⟨⟨hkeyed, hpre⟩, same_deletions_iff hkeyed hpre⟩

end Clab.Kv
