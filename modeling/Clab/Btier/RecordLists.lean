import Clab.Btier.JournalReplay

/-!
# Lists of journal records

Records are written one behind the other with nothing between them. Each says
where it ends: reading records while bytes are left gives back the list that
was written, and no record's bytes begin another's.
-/

namespace Clab.Btier

open Clab.Codec

/-- `deserialize_record` while bytes are left. Each record has a byte at least,
so the bytes bound the rounds. -/
def deserializeRecords (bs : List Byte) : Option (List JournalRecord) :=
  decodeAll deserializeRecord bs.length bs

theorem serializeRecord_ne_nil (rec : JournalRecord) : serializeRecord rec ≠ [] := by
  intro h
  have hlen := serializeRecord_length_ge rec
  rw [h] at hlen
  exact absurd hlen (by decide)

theorem deserializeRecords_serializeRecords {recs : List JournalRecord}
    (h : ∀ rec ∈ recs, rec.WF) :
    deserializeRecords (serializeRecords recs) = some (recs.map JournalRecord.carried) :=
  decodeAll_flatMap (fun rec _ => serializeRecord_ne_nil rec)
    (fun rec hrec => deserializeRecord_decodes (h rec hrec)) (Journal.length_le_serializeRecords recs)

/-- Journal records come back from the bytes of a list of them, to the last
byte; so they do when other bytes follow; and no record's bytes begin those of
a record that carries something else. -/
theorem records_self_delimiting :
    (∀ recs : List JournalRecord, (∀ rec ∈ recs, rec.WF) →
      deserializeRecords (serializeRecords recs) = some (recs.map JournalRecord.carried) ∧
      ∀ suffix, (recs.mapM fun _ => deserializeRecord).run (serializeRecords recs ++ suffix) =
        some (recs.map JournalRecord.carried, suffix)) ∧
    (∀ rec rec' : JournalRecord, rec.WF → rec'.WF →
      serializeRecord rec <+: serializeRecord rec' →
      serializeRecord rec = serializeRecord rec' ∧ rec.carried = rec'.carried) := by
  constructor
  · intro recs h
    refine ⟨deserializeRecords_serializeRecords h, ?_⟩
    exact Decodes.replicateM fun rec hrec => deserializeRecord_decodes (h rec hrec)
  · intro rec rec' h h' hprefix
    exact (deserializeRecord_decodes h).eq_of_isPrefix (deserializeRecord_decodes h') hprefix

/-- A deletion of the empty key, the shortest record with a string, ends where the
next one starts. -/
theorem records_self_delimiting_pair :
    (deserializeRecords (serializeRecords
        [{ op := .OP_KEY_DEL, txnId := 7 }, { op := .OP_TXN_COMMIT, txnId := 7, crc := 9 }]) =
      some [{ op := .OP_KEY_DEL, txnId := 7 }, { op := .OP_TXN_COMMIT, txnId := 7, crc := 9 }]) ∧
    (serializeRecord { op := .OP_KEY_DEL, txnId := 7 } <+:
        serializeRecord { op := .OP_KEY_DEL, txnId := 7, extentId := 3 } →
      serializeRecord { op := .OP_KEY_DEL, txnId := 7 } =
          serializeRecord { op := .OP_KEY_DEL, txnId := 7, extentId := 3 } ∧
        (JournalRecord.carried { op := .OP_KEY_DEL, txnId := 7 }) =
          JournalRecord.carried { op := .OP_KEY_DEL, txnId := 7, extentId := 3 }) := by
  constructor
  · refine (records_self_delimiting.1 _ fun rec hrec => ?_).1
    rw [List.mem_pair] at hrec
    rcases hrec with rfl | rfl <;> constructor <;> decide
  · refine records_self_delimiting.2 _ _ ?_ ?_ <;> constructor <;> decide

end Clab.Btier
