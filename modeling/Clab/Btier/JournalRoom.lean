import Clab.Btier.StoredValues

/-!
# Room in the ring

How many bytes of the ring a `put` or `del` may need: those of its transaction,
and those of a checkpoint of the store with one more extent. Both depend on the
keys and on the number of extents alone, so a bound found before the call holds
at every write the call makes.
-/

namespace Clab.Btier.Engine

variable {A : Type} {s s' : Engine A}

/-! ## Lengths of records -/

/-- The record of a new extent. -/
def extentRecordLength : Nat := (serializeRecord (extentNewRecord 0 {})).length

/-- The record of a located key. -/
def keyRecordLength (key : Key) : Nat := (serializeRecord (keyPutRecord key {})).length

theorem extentNewRecord_length (id : Nat) (loc : DiskLocation) :
    (serializeRecord (extentNewRecord id loc)).length = extentRecordLength := by
  simp [extentRecordLength, serializeRecord, serializeBody, extentNewRecord, putU8, putU32,
    putU64, putDiskLocation]

theorem keyPutRecord_length (key : Key) (loc : KeyLocation) :
    (serializeRecord (keyPutRecord key loc)).length = keyRecordLength key := by
  simp [keyRecordLength, serializeRecord, serializeBody, keyPutRecord, putU8, putU32, putU64,
    putString, putKeyLocation]

theorem commitRecord_length (txnId crc : Nat) :
    (serializeRecord (commitRecord txnId crc)).length = 13 := by
  simp [serializeRecord, serializeBody, commitRecord, putU8, putU32, putU64]

theorem length_serializeRecords (recs : List JournalRecord) :
    (serializeRecords recs).length = (recs.map fun rec => (serializeRecord rec).length).sum := by
  unfold serializeRecords
  rw [List.length_flatMap]

/-! ## Checkpoints -/

/-- The bytes of a checkpoint of the store. -/
def checkpointLength (s : Engine A) : Nat :=
  (Journal.checkpointBytes s.buildCheckpointState).length

/-- What a checkpoint spends on an extent and its keys. -/
def extentShare (km : KeyMap) (id : Nat) : Nat :=
  extentRecordLength + ((km.keysInExtent id).map keyRecordLength).sum

theorem extentShare_of_vacant {km : KeyMap} {id : Nat} (h : km.keysInExtent id = []) :
    extentShare km id = extentRecordLength := by
  unfold extentShare
  rw [h, List.map_nil, List.sum_nil, Nat.add_zero]

theorem checkpointBytes_length (recs : List JournalRecord) :
    (Journal.checkpointBytes recs).length =
      (Journal.checkpointBytes []).length + (serializeRecords recs).length := by
  have hnil : (serializeRecords []).length = 0 := rfl
  unfold Journal.checkpointBytes
  simp only [List.length_append, commitRecord_length, hnil]
  omega

/-- The extents of the map. -/
def extentIds (em : ExtentMap) : Finset Nat := em.entries.keys.toFinset

theorem mem_extentIds {em : ExtentMap} {id : Nat} :
    id ∈ extentIds em ↔ ∃ e, em.lookup id = some e := by
  unfold extentIds ExtentMap.lookup
  rw [List.mem_toFinset, ← AList.mem_keys, ← AList.lookup_isSome, Option.isSome_iff_exists]

theorem checkpointLength_eq (s : Engine A) : s.checkpointLength =
    (Journal.checkpointBytes []).length +
      ∑ id ∈ extentIds s.extentMap, extentShare s.keyMap id := by
  have hsum : ∑ id ∈ extentIds s.extentMap, extentShare s.keyMap id =
      (s.extentMap.entries.keys.map (extentShare s.keyMap)).sum :=
    List.sum_toFinset _ s.extentMap.entries.keys_nodup
  unfold checkpointLength
  rw [checkpointBytes_length, hsum]
  congr 1
  unfold buildCheckpointState ExtentMap.snapshot AList.keys List.keys serializeRecords
  rw [List.map_map, List.flatMap_map, List.flatMap_assoc, List.length_flatMap]
  refine congrArg List.sum (List.map_congr_left fun snap _ => ?_)
  -- one extent and its keys
  show (serializeRecords (extentNewRecord _ _ :: List.map _ _)).length = _
  rw [length_serializeRecords, List.map_cons, List.sum_cons, extentNewRecord_length, List.map_map]
  unfold extentShare
  congr 2
  refine List.map_congr_left fun key _ => ?_
  exact keyPutRecord_length key _

/-- A checkpoint of fewer extents with the same keys is no longer. -/
theorem checkpointLength_mono (hkm : s'.keyMap = s.keyMap)
    (hids : ∀ id e', s'.extentMap.lookup id = some e' → ∃ e, s.extentMap.lookup id = some e) :
    s'.checkpointLength ≤ s.checkpointLength := by
  have hsub : extentIds s'.extentMap ⊆ extentIds s.extentMap := by
    intro id hid
    obtain ⟨e', he'⟩ := mem_extentIds.mp hid
    exact mem_extentIds.mpr (hids id e' he')
  rw [checkpointLength_eq, checkpointLength_eq, hkm]
  have := Finset.sum_le_sum_of_subset (f := extentShare s.keyMap) hsub
  omega

/-- One new extent without keys costs its record. -/
theorem checkpointLength_grown {new : Nat} (hkm : s'.keyMap = s.keyMap)
    (hvacant : s.keyMap.keysInExtent new = [])
    (hids : ∀ id e', s'.extentMap.lookup id = some e' →
      id = new ∨ ∃ e, s.extentMap.lookup id = some e) :
    s'.checkpointLength ≤ s.checkpointLength + extentRecordLength := by
  have hsub : extentIds s'.extentMap ⊆ insert new (extentIds s.extentMap) := by
    intro id hid
    obtain ⟨e', he'⟩ := mem_extentIds.mp hid
    rcases hids id e' he' with rfl | h
    · exact Finset.mem_insert_self _ _
    · exact Finset.mem_insert_of_mem (mem_extentIds.mpr h)
  rw [checkpointLength_eq, checkpointLength_eq, hkm]
  have hle := Finset.sum_le_sum_of_subset (f := extentShare s.keyMap) hsub
  by_cases hnew : new ∈ extentIds s.extentMap
  · rw [Finset.insert_eq_of_mem hnew] at hle
    omega
  · rw [Finset.sum_insert hnew, extentShare_of_vacant hvacant] at hle
    omega

/-! ## Transactions -/

/-- The transaction of a `put` that replaces a value of `key`. -/
def putLength (key : Key) : Nat :=
  (Journal.txnBytes 0 (serializeRecords (putRecords key (some {}) {}))).length

theorem txnBytes_length (txnId : Nat) (recs : List JournalRecord) :
    (Journal.txnBytes txnId (serializeRecords (recs.map (Journal.stamp txnId)))).length =
      (Journal.txnBytes 0 []).length + (serializeRecords recs).length := by
  have hstamp : (serializeRecords (recs.map (Journal.stamp txnId))).length =
      (serializeRecords recs).length := by
    rw [length_serializeRecords, length_serializeRecords, List.map_map]
    refine congrArg List.sum (List.map_congr_left fun rec _ => ?_)
    simp [serializeRecord, Journal.stamp, putU8, putU64]
    rfl
  have hbegin : (serializeRecord (beginRecord txnId)).length =
      (serializeRecord (beginRecord 0)).length := by
    simp [serializeRecord, serializeBody, beginRecord, putU8, putU64]
  unfold Journal.txnBytes
  simp only [List.length_append, commitRecord_length, hstamp, hbegin, List.length_nil]
  omega

theorem markDeadRecord_length (kloc : KeyLocation) :
    (serializeRecord (markDeadRecord kloc)).length = 21 := by
  simp [serializeRecord, serializeBody, markDeadRecord, putU8, putU32, putU64]

theorem putLength_eq (key : Key) :
    putLength key = (Journal.txnBytes 0 []).length + (21 + keyRecordLength key) := by
  have hrecords : (serializeRecords (putRecords key (some {}) {})).length =
      21 + keyRecordLength key := by
    simp only [putRecords, length_serializeRecords, List.cons_append, List.nil_append,
      List.map_cons, List.map_nil, List.sum_cons, List.sum_nil, keyPutRecord_length,
      markDeadRecord_length, Nat.add_zero]
  unfold putLength Journal.txnBytes
  simp only [List.length_append, commitRecord_length, hrecords, List.length_nil]
  omega

theorem putRecords_length_le (key : Key) (old : Option KeyLocation) (new : KeyLocation) :
    (s.logBytes (putRecords key old new)).length ≤ putLength key := by
  unfold logBytes
  rw [txnBytes_length, putLength_eq]
  cases old with
  | none =>
      simp only [putRecords, length_serializeRecords, List.nil_append, List.map_cons, List.map_nil,
        List.sum_cons, List.sum_nil, keyPutRecord_length]
      omega
  | some o =>
      simp only [putRecords, length_serializeRecords, List.cons_append, List.nil_append,
        List.map_cons, List.map_nil, List.sum_cons, List.sum_nil, keyPutRecord_length,
        markDeadRecord_length]
      omega

theorem delRecords_length_le (key : Key) (kloc : KeyLocation) :
    (s.logBytes [keyDelRecord key, markDeadRecord kloc]).length ≤ putLength key := by
  have hdel : (serializeRecord (keyDelRecord key)).length ≤ keyRecordLength key := by
    simp [keyRecordLength, serializeRecord, serializeBody, keyDelRecord, keyPutRecord, putU8,
      putU32, putU64, putString, putKeyLocation]
  unfold logBytes
  rw [txnBytes_length, putLength_eq]
  simp only [length_serializeRecords, List.map_cons, List.map_nil, List.sum_cons, List.sum_nil,
    markDeadRecord_length]
  omega

/-! ## Room -/

/-- The ring has room for a transaction on `key` and for a checkpoint with one
more extent. -/
structure Roomy (s : Engine A) (key : Key) : Prop where
  transaction : Journal.paddedSize (putLength key) ≤ s.journal.dataSize
  checkpoint : Journal.paddedSize (s.checkpointLength + extentRecordLength) ≤ s.journal.dataSize

theorem paddedSize_mono {m n : Nat} (h : m ≤ n) : Journal.paddedSize m ≤ Journal.paddedSize n := by
  unfold Journal.paddedSize roundUpTo kTxnAlignment
  split <;> split <;> split at * <;> split at * <;> omega

theorem kTxnAlignment_le_paddedSize (n : Nat) : kTxnAlignment ≤ Journal.paddedSize n :=
  Nat.le_of_dvd (Journal.paddedSize_pos n) (Journal.dvd_paddedSize n)

variable {key : Key}

theorem Roomy.block (h : s.Roomy key) : kTxnAlignment ≤ s.journal.dataSize :=
  (kTxnAlignment_le_paddedSize _).trans h.transaction

theorem Roomy.congr (h : s.Roomy key) (hsize : s'.journal.devSize = s.journal.devSize)
    (hlength : s'.checkpointLength ≤ s.checkpointLength) : s'.Roomy key := by
  have hdata := Journal.dataSize_congr hsize
  refine ⟨hdata ▸ h.transaction, ?_⟩
  rw [hdata]
  exact (paddedSize_mono (by omega)).trans h.checkpoint

theorem Roomy.logFits (h : s.Roomy key) (hsize : s'.journal.devSize = s.journal.devSize)
    {recs : List JournalRecord} (hle : (s'.logBytes recs).length ≤ putLength key) :
    s'.LogFits recs := by
  intro _
  rw [Journal.dataSize_congr hsize]
  exact (paddedSize_mono hle).trans h.transaction

/-- A checkpoint during the call, after at most one new extent. -/
theorem Roomy.checkpointFits (h : s.Roomy key) (hsize : s'.journal.devSize = s.journal.devSize)
    (hlength : s'.checkpointLength ≤ s.checkpointLength + extentRecordLength) :
    s'.CheckpointFits := by
  intro _
  rw [Journal.dataSize_congr hsize]
  exact (paddedSize_mono hlength).trans h.checkpoint

end Clab.Btier.Engine
