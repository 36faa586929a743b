import Clab.Btier.FreeLists
import Clab.Btier.Recovery

/-!
# Slots never overlap

The key map of a running store and the journal behind it both locate keys in
slots of extents. `SlotInv` says of the two together that slots of different
keys are apart and lie below the used bytes of their extent, which stay inside
the extent. Here are the changes of the three parts that keep it.
-/

namespace Clab.Btier

open Clab.Blk Clab.EventLog

/-- Some record of the journal announces the extent at that location. -/
def Announced (history : List JournalRecord) (id : Nat) (loc : DiskLocation) : Prop :=
  ∃ rec ∈ history, rec.op = .OP_EXTENT_NEW ∧ rec.extentId = id ∧ rec.extentLoc = loc

/-- Where the key map or a recovery from the journal finds a key. -/
def Located (km : KeyMap) (history : List JournalRecord) (k : Key) (loc : KeyLocation) : Prop :=
  km.lookup k = some loc ∨ replayByKind (keyEvents history) k = some loc

/-- Slots are apart and accounted for. -/
structure SlotInv (km : KeyMap) (em : ExtentMap) (history : List JournalRecord) : Prop where
  coherent : km.Coherent
  mirrored : em.Mirrored
  known : ∀ id e, em.lookup id = some e → id < em.nextExtentId
  within : ∀ id e, em.lookup id = some e → e.usedBytes ≤ ExtentMap.capacity e.location
  announced : ∀ id e, em.lookup id = some e → Announced history id e.location
  dated : ∀ id l, Announced history id l → id < em.nextExtentId
  unique : ∀ id l l', Announced history id l → Announced history id l' → l = l'
  historic : ∀ k loc, replayByKind (keyEvents history) k = some loc →
    ∃ l, Announced history loc.extentId l ∧ loc.slotEnd ≤ ExtentMap.capacity l
  fresh : ∀ k loc, Located km history k loc → loc.extentId < em.nextExtentId
  below : ∀ k loc e, Located km history k loc → em.lookup loc.extentId = some e →
    loc.slotEnd ≤ e.usedBytes
  apart : ∀ k k' loc loc', k ≠ k' → Located km history k loc → Located km history k' loc' →
    loc.extentId = loc'.extentId → loc.slotEnd ≤ loc'.offset ∨ loc'.slotEnd ≤ loc.offset

theorem announced_append {history recs : List JournalRecord} {id : Nat} {l : DiskLocation} :
    Announced (history ++ recs) id l ↔ Announced history id l ∨ Announced recs id l := by
  unfold Announced
  simp only [List.mem_append, or_and_right, exists_or]

theorem SlotInv.lookup_next {km : KeyMap} {em : ExtentMap} {history : List JournalRecord}
    (hi : SlotInv km em history) : em.lookup em.nextExtentId = none := by
  cases he : em.lookup em.nextExtentId with
  | none => rfl
  | some e => exact absurd (hi.known _ e he) (Nat.lt_irrefl _)

/-! ## Changes of the extent map -/

/-- Extents disappear or stay in place with at least their used bytes, and none
is new. -/
structure Evolves (em em' : ExtentMap) : Prop where
  next : em.nextExtentId ≤ em'.nextExtentId
  entry : ∀ id e', em'.lookup id = some e' → ∃ e, em.lookup id = some e ∧
    e'.location = e.location ∧ e.usedBytes ≤ e'.usedBytes ∧
    (e.usedBytes ≤ ExtentMap.capacity e.location →
      e'.usedBytes ≤ ExtentMap.capacity e.location)
  mirrored : em.Mirrored → em'.Mirrored

namespace Evolves

variable {em em' em'' : ExtentMap}

theorem refl (em : ExtentMap) : Evolves em em :=
  ⟨Nat.le_refl _, fun _ e he => ⟨e, he, rfl, Nat.le_refl _, id⟩, id⟩

theorem trans (h : Evolves em em') (h' : Evolves em' em'') : Evolves em em'' := by
  refine ⟨h.next.trans h'.next, fun id e'' he'' => ?_, fun hm => h'.mirrored (h.mirrored hm)⟩
  obtain ⟨e', he', hl', hle', hc'⟩ := h'.entry id e'' he''
  obtain ⟨e, he, hl, hle, hc⟩ := h.entry id e' he'
  rw [hl] at hl' hc'
  exact ⟨e, he, hl', hle.trans hle', fun hcap => hc' (hc hcap)⟩

theorem free (em : ExtentMap) (id : Nat) : Evolves em (em.free id) := by
  refine ⟨(ExtentMap.nextExtentId_free em id).ge, fun i e' he' => ?_, fun hm => hm.free id⟩
  rw [ExtentMap.lookup_free] at he'
  split at he'
  · cases he'
  · exact ⟨e', he', rfl, Nat.le_refl _, fun h => h⟩

theorem markDeadSlot (em : ExtentMap) (id len : Nat) : Evolves em (em.markDeadSlot id len) := by
  refine ⟨(ExtentMap.nextExtentId_markDeadSlot em id len).ge, fun i e' he' => ?_,
    fun hm => hm.markDeadSlot id len⟩
  rw [ExtentMap.lookup_markDeadSlot] at he'
  split at he'
  · rename_i hi
    obtain ⟨e, he, rfl⟩ := Option.map_eq_some_iff.mp he'
    exact ⟨e, hi ▸ he, rfl, Nat.le_refl _, fun h => h⟩
  · exact ⟨e', he', rfl, Nat.le_refl _, fun h => h⟩

theorem recordIo (em : ExtentMap) (id : Nat) (op : IoOp) (now : Nat) :
    Evolves em (em.recordIo id op now) := by
  refine ⟨(ExtentMap.nextExtentId_recordIo em id op now).ge, fun i e' he' => ?_,
    fun hm => hm.recordIo id op now⟩
  obtain ⟨e, he, hused, -, hloc⟩ := ExtentMap.lookup_recordIo em id op now i he'
  exact ⟨e, he, hloc, hused.ge, fun h => hused.symm ▸ h⟩

theorem appendSlot {id size off : Nat}
    (hn : ∀ e, em.lookup id = some e → e.usedBytes + size < 2 ^ 32)
    (h : em.appendSlot id size = (off, em')) : Evolves em em' := by
  have hmir := fun hm : em.Mirrored => hm.appendSlot h
  rcases ExtentMap.appendSlot_cases h with ⟨-, rfl⟩ |
    ⟨e, e', he, -, hfit, -, hused, -, hloc, -, hnext, hlook⟩
  · exact refl _
  rw [u32_of_lt (hn e he)] at hused hfit
  refine ⟨hnext.ge, fun i f hf => ?_, hmir⟩
  rw [hlook] at hf
  split at hf
  · rename_i hi
    cases hf
    exact ⟨e, hi ▸ he, hloc, by omega, fun _ => by omega⟩
  · exact ⟨f, hf, rfl, Nat.le_refl _, fun h => h⟩

/-- A new extent that is freed again leaves no trace but its id. -/
theorem newFreed (em : ExtentMap) (loc : DiskLocation) (hnew : em.lookup em.nextExtentId = none) :
    Evolves em ((ExtentMap.addEntry { em with nextExtentId := em.nextExtentId + 1 }
      em.nextExtentId loc).free em.nextExtentId) := by
  refine ⟨?_, fun i e' he' => ?_, fun hm => ?_⟩
  · rw [ExtentMap.nextExtentId_free]
    exact Nat.le_succ _
  · rw [ExtentMap.lookup_free] at he'
    split at he'
    · cases he'
    · rename_i hi
      rw [ExtentMap.lookup_addEntry, if_neg hi] at he'
      exact ⟨e', he', rfl, Nat.le_refl _, fun h => h⟩
  · exact (hm.allocated hnew loc).free _

end Evolves

namespace SlotInv

variable {km km' : KeyMap} {em em' : ExtentMap} {history history' : List JournalRecord}

theorem evolves (hi : SlotInv km em history) (h : Evolves em em') : SlotInv km em' history := by
  refine ⟨hi.coherent, h.mirrored hi.mirrored, fun id e' he' => ?_, fun id e' he' => ?_,
    fun id e' he' => ?_, fun id l hl => (hi.dated id l hl).trans_le h.next, hi.unique, hi.historic,
    fun k loc hl => (hi.fresh k loc hl).trans_le h.next, fun k loc e' hl he' => ?_, hi.apart⟩
  · obtain ⟨e, he, -⟩ := h.entry id e' he'
    exact (hi.known id e he).trans_le h.next
  · obtain ⟨e, he, hl, -, hc⟩ := h.entry id e' he'
    rw [hl]
    exact hc (hi.within id e he)
  · obtain ⟨e, he, hl, -⟩ := h.entry id e' he'
    rw [hl]
    exact hi.announced id e he
  · obtain ⟨e, he, -, hle, -⟩ := h.entry _ e' he'
    exact (hi.below k loc e hl he).trans hle

/-- A key map and a journal that locate and announce no more than before. -/
theorem shrinks (hi : SlotInv km em history) (hc : km'.Coherent)
    (hl : ∀ k loc, Located km' history' k loc → Located km history k loc)
    (hann : ∀ id e, em.lookup id = some e → Announced history' id e.location)
    (hsub : ∀ id l, Announced history' id l → Announced history id l)
    (hhist : ∀ k loc, replayByKind (keyEvents history') k = some loc →
      ∃ l, Announced history' loc.extentId l ∧ loc.slotEnd ≤ ExtentMap.capacity l) :
    SlotInv km' em history' :=
  ⟨hc, hi.mirrored, hi.known, hi.within, hann, fun id l h => hi.dated id l (hsub id l h),
    fun id l l' h h' => hi.unique id l l' (hsub id l h) (hsub id l' h'), hhist,
    fun k loc h => hi.fresh k loc (hl k loc h), fun k loc e h => hi.below k loc e (hl k loc h),
    fun k k' loc loc' hk h h' => hi.apart k k' loc loc' hk (hl k loc h) (hl k' loc' h')⟩

/-- A new extent, once the journal announces it. -/
theorem newExtent (hi : SlotInv km em history) (loc : DiskLocation)
    (hl : ∀ k l, replayByKind (keyEvents history') k = some l →
      replayByKind (keyEvents history) k = some l)
    (hann : ∀ id l, Announced history' id l ↔
      Announced history id l ∨ (id = em.nextExtentId ∧ l = loc)) :
    SlotInv km (ExtentMap.addEntry { em with nextExtentId := em.nextExtentId + 1 }
      em.nextExtentId loc) history' := by
  have hloc : ∀ k l, Located km history' k l → Located km history k l :=
    fun k l h => h.imp id (hl k l)
  have hentry : ∀ id e, (ExtentMap.addEntry { em with nextExtentId := em.nextExtentId + 1 }
      em.nextExtentId loc).lookup id = some e →
      (id = em.nextExtentId ∧ e = { location := loc }) ∨ em.lookup id = some e := by
    intro id e he
    rw [ExtentMap.lookup_addEntry] at he
    split at he
    · rename_i hid
      cases he
      exact .inl ⟨hid, rfl⟩
    · exact .inr he
  refine ⟨hi.coherent, hi.mirrored.allocated hi.lookup_next loc, fun id e he => ?_, fun id e he => ?_, fun id e he => ?_,
    fun id l h => ?_, fun id l l' h h' => ?_, fun k l h => ?_,
    fun k l h => Nat.lt_succ_of_lt (hi.fresh k l (hloc k l h)), fun k l e h he => ?_,
    fun k k' l l' hk h h' => hi.apart k k' l l' hk (hloc k l h) (hloc k' l' h')⟩
  · show id < em.nextExtentId + 1
    rcases hentry id e he with ⟨rfl, -⟩ | he
    · exact Nat.lt_succ_self _
    · exact Nat.lt_succ_of_lt (hi.known id e he)
  · rcases hentry id e he with ⟨-, rfl⟩ | he
    · exact Nat.zero_le _
    · exact hi.within id e he
  · rcases hentry id e he with ⟨rfl, rfl⟩ | he
    · exact (hann _ _).mpr (.inr ⟨rfl, rfl⟩)
    · exact (hann _ _).mpr (.inl (hi.announced id e he))
  · show id < em.nextExtentId + 1
    rcases (hann id l).mp h with h | ⟨rfl, -⟩
    · exact Nat.lt_succ_of_lt (hi.dated id l h)
    · exact Nat.lt_succ_self _
  · -- an old announcement never names the new id
    rcases (hann id l).mp h with h | ⟨rfl, rfl⟩
    · rcases (hann id l').mp h' with h' | ⟨rfl, -⟩
      · exact hi.unique id l l' h h'
      · exact absurd (hi.dated _ l h) (Nat.lt_irrefl _)
    · rcases (hann _ l').mp h' with h' | ⟨-, rfl⟩
      · exact absurd (hi.dated _ l' h') (Nat.lt_irrefl _)
      · rfl
  · obtain ⟨l', ha, hle⟩ := hi.historic k l (hl k l h)
    exact ⟨l', (hann _ _).mpr (.inl ha), hle⟩
  · rcases hentry _ e he with ⟨hid, -⟩ | he
    · have hlt := hi.fresh k l (hloc k l h)
      omega
    · exact hi.below k l e (hloc k l h) he

end SlotInv

/-- A slot set aside for `key`: above all located slots of its extent. -/
structure Reserved (km : KeyMap) (em : ExtentMap) (history : List JournalRecord) (key : Key)
    (new : KeyLocation) : Prop where
  fresh : new.extentId < em.nextExtentId
  announced : ∃ l, Announced history new.extentId l ∧ new.slotEnd ≤ ExtentMap.capacity l
  below : ∀ e, em.lookup new.extentId = some e → new.slotEnd ≤ e.usedBytes
  above : ∀ k loc, Located km history k loc → loc.extentId = new.extentId →
    loc.slotEnd ≤ new.offset ∨ (k = key ∧ loc = new)

section Install

variable {km km' : KeyMap} {em em' : ExtentMap} {history history' : List JournalRecord}
  {key : Key} {new : KeyLocation}

theorem Reserved.evolves (hr : Reserved km em history key new) (h : Evolves em em') :
    Reserved km em' history key new := by
  refine ⟨hr.fresh.trans_le h.next, hr.announced, fun e' he' => ?_, hr.above⟩
  obtain ⟨e, he, -, hle, -⟩ := h.entry _ e' he'
  exact (hr.below e he).trans hle

/-- Locating `key` in its reserved slot keeps slots apart. -/
theorem SlotInv.install (hi : SlotInv km em history) (hr : Reserved km em history key new)
    (hc : km'.Coherent)
    (hl : ∀ k loc, Located km' history' k loc → Located km history k loc ∨ (k = key ∧ loc = new))
    (hann : ∀ id l, Announced history' id l ↔ Announced history id l)
    (hhist : ∀ k loc, replayByKind (keyEvents history') k = some loc →
      replayByKind (keyEvents history) k = some loc ∨ loc = new) : SlotInv km' em history' := by
  refine ⟨hc, hi.mirrored, hi.known, hi.within,
    fun id e he => (hann _ _).mpr (hi.announced id e he),
    fun id l h => hi.dated id l ((hann id l).mp h),
    fun id l l' h h' => hi.unique id l l' ((hann id l).mp h) ((hann id l').mp h'),
    fun k loc h => ?_, fun k loc h => ?_, fun k loc e h he => ?_,
    fun k k' loc loc' hk h h' hid => ?_⟩
  · have hold : ∃ l, Announced history loc.extentId l ∧
        loc.slotEnd ≤ ExtentMap.capacity l := by
      rcases hhist k loc h with h | rfl
      · exact hi.historic k loc h
      · exact hr.announced
    obtain ⟨l, ha, hle⟩ := hold
    exact ⟨l, (hann _ _).mpr ha, hle⟩
  · rcases hl k loc h with h | ⟨-, rfl⟩
    · exact hi.fresh k loc h
    · exact hr.fresh
  · rcases hl k loc h with h | ⟨-, rfl⟩
    · exact hi.below k loc e h he
    · exact hr.below e he
  · rcases hl k loc h with h | ⟨rfl, rfl⟩
    · rcases hl k' loc' h' with h' | ⟨rfl, rfl⟩
      · exact hi.apart k k' loc loc' hk h h' hid
      · exact .inl ((hr.above k loc h hid).resolve_right fun heq => hk heq.1)
    · rcases hl k' loc' h' with h' | ⟨rfl, rfl⟩
      · exact .inr ((hr.above k' loc' h' hid.symm).resolve_right fun heq => hk heq.1.symm)
      · exact absurd rfl hk

theorem Reserved.install (hr : Reserved km em history key new)
    (hl : ∀ k loc, Located km' history' k loc → Located km history k loc ∨ (k = key ∧ loc = new))
    (hann : ∃ l, Announced history' new.extentId l ∧ new.slotEnd ≤ ExtentMap.capacity l) :
    Reserved km' em history' key new := by
  refine ⟨hr.fresh, hann, hr.below, fun k loc h hid => ?_⟩
  rcases hl k loc h with h | heq
  · exact hr.above k loc h hid
  · exact .inr heq

end Install

namespace Engine

variable {A : Type}

/-! ## Journal operations -/

theorem keyEvents_stamp (id : Nat) (recs : List JournalRecord) :
    keyEvents (recs.map (Journal.stamp id)) = keyEvents recs := by
  unfold keyEvents
  rw [List.filterMap_map]
  rfl

theorem announced_stamp {id txnId : Nat} {recs : List JournalRecord} {l : DiskLocation} :
    Announced (recs.map (Journal.stamp txnId)) id l ↔ Announced recs id l := by
  unfold Announced
  simp only [List.mem_map, exists_exists_and_eq_and]
  rfl

/-- A logged transaction joins the history exactly when the call succeeds. -/
theorem logRecords_spec {s s' : Engine A} {recs : List JournalRecord} {r : Int}
    (hidle : s.journal.Idle) (h : s.logRecords recs = (r, s')) :
    s'.keyMap = s.keyMap ∧ s'.extentMap = s.extentMap ∧ s'.cfg = s.cfg ∧ s'.alloc = s.alloc ∧
      s'.journal.Idle ∧
      ((r < 0 ∧ s'.journal.history = s.journal.history) ∨
        (0 ≤ r ∧ s'.journal.history =
          s.journal.history ++ recs.map (Journal.stamp s.journal.nextTxnId))) := by
  obtain ⟨m, hm, hcommit⟩ := Journal.commitTxn_of_idle hidle (s.dev .FAST) recs
  unfold logRecords withJournal at h
  rw [Journal.beginTxn_of_idle hidle] at h hcommit
  dsimp only at h hcommit
  rw [hcommit] at h
  unfold Journal.commitBuffer at h
  generalize hpad : Journal.padAndWrite _ _ _ = out at h
  obtain ⟨r₁, j₁, d₁⟩ := out
  obtain ⟨htxns, hhist⟩ := Journal.padAndWrite_keeps hpad
  have hclosed : ∀ i, j₁.activeTxns.lookup i = none := fun i => by rw [htxns]; exact hm i
  dsimp only at h
  split at h
  · rename_i hneg
    cases h
    exact ⟨rfl, rfl, rfl, rfl, hclosed, .inl ⟨hneg, hhist⟩⟩
  · cases h
    refine ⟨rfl, rfl, rfl, rfl, hclosed, .inr ⟨Int.le_refl 0, ?_⟩⟩
    show j₁.history ++ _ = _
    rw [hhist]

theorem replayByKind_logged {es fs : List (Event Key KeyLocation)}
    (hfs : ∀ k v, Event.put k v ∉ fs) {k : Key} {v : KeyLocation}
    (h : replayByKind (es ++ fs) k = some v) : replayByKind es k = some v := by
  obtain ⟨hdel, hput⟩ := replay_of_replayByKind h
  rw [replay_append] at hput
  have hno : Event.del k ∉ es := fun hm => hdel (List.mem_append_left _ hm)
  rw [(replayByKind_eq_replay_iff es k).mpr fun _ => hno]
  exact (mem_of_replayFrom hput).resolve_right (hfs k v)

end Engine

end Clab.Btier
