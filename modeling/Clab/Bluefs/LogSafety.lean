import Clab.Blk.AvlAllocator
import Clab.Bluefs.LogProtocol

/-!
# Safety of the log flush protocol

`Shared.Good` says where the record of every changed file and the drop of every
pending extent stand; `Knows` says what a thread knows of the version its `fsync`
is for; `Later` is what every step grants the other threads.
-/

namespace Clab.Bluefs.LogProtocol

open Interleaving Blk

variable {V A : Type}

/-! ## The invariant -/

/-- The flags of a file. -/
abbrev Shared.file (s : Shared V A) (r : FileRef) : File := s.fs.nodes.files r

/-- The number of the next transaction. -/
abbrev Shared.live (s : Shared V A) : Nat := s.fs.log.seqLive

/-- Version `v` of `r` is written, or in an operation still to be written, or the next
transaction, `old`, will carry it. -/
def Shared.Due (s : Shared V A) (r : FileRef) (v old : Nat) : Prop :=
  s.Stored r v ∨ Has (s.ops ++ s.flight) r v ∨
    ((s.file r).dirtySeq = s.live ∧ old = s.live ∧ v ≤ s.version r)

/-- Version `v` of `r` is not lost. -/
def Shared.Recorded (s : Shared V A) (r : FileRef) (v : Nat) : Prop := ∃ old, s.Due r v old

/-- What holds of BlueFS between the steps. -/
structure Shared.Good (s : Shared V A) : Prop where
  live : s.fs.dirty.seqLive = s.live
  newest : s.newest < s.live
  stable : s.fs.dirty.seqStable ≤ s.newest
  dirtySeq : ∀ r, (s.file r).dirtySeq ≤ s.live
  waits : ∀ r, (s.file r).dirtySeq = s.live → r ∈ s.fs.waiting s.live
  owed : ∀ seq r, s.fs.dirty.seqStable < seq → r ∈ s.fs.waiting seq → (s.file r).dirtySeq = seq
  unowned : s.owner = none → s.flight = []
  tracked : ∀ r, (s.file r).isDirty = true ∨ s.Recorded r (s.version r)
  queued : ∀ b o, (s.fs.dirty.pendingRelease b).lookup o ≠ none →
    .drop (s.queuedBy b o) ∈ s.ops ++ s.flight ∨ .drop (s.queuedBy b o) ∈ s.written
  released : ∀ k ∈ s.released, .drop k ∈ s.written

/-- What is known of the version an `fsync` is for, if there is one. -/
def For (k : Option (FileRef × Nat)) (P : FileRef → Nat → Prop) : Prop :=
  ∀ r v, k = some (r, v) → P r v

/-- What a thread knows at its place. -/
def Knows (t : Nat) (s : Shared V A) : Pc → Prop
  | .idle | .truncating _ _ => True
  | .flushed r v => v ≤ s.version r
  | .clearing r v | .signalled r v => s.Recorded r v
  | .read r v old => s.Due r v old
  | .entering k want => For k fun r v => s.Due r v want
  | .locking k => For k s.Recorded
  | .writing k tx => s.owner = some t ∧ s.newest < tx.seq ∧ tx.seq < s.live ∧
      For k fun r v => s.Stored r v ∨ Has s.flight r v
  | .recording k seq => seq ≤ s.newest ∧ For k s.Stored
  | .draining k => For k s.Stored
  | .returned r v => s.Stored r v

/-! ## What the others rely on -/

/-- Nothing recorded gets lost and nothing written is taken back. -/
structure Later (s s' : Shared V A) : Prop where
  deleted : ∀ r, (s.file r).deleted = true → (s'.file r).deleted = true
  written : ∀ m ∈ s.written, m ∈ s'.written
  version : ∀ r, s.version r ≤ s'.version r
  newest : s.newest ≤ s'.newest
  marks : ∀ m ∈ s.ops ++ s.flight, m ∈ s'.ops ++ s'.flight ∨ m ∈ s'.written
  awaited : ∀ r, (s.file r).dirtySeq = s.live → (s'.file r).deleted = true ∨
    ((s'.file r).dirtySeq = s'.live ∧ s'.live = s.live) ∨
    Has (s'.ops ++ s'.flight) r (s.version r) ∨ Has s'.written r (s.version r)

/-- What a step grants thread `u`: while it holds the lock, its transaction is its own. -/
structure Relied (u : Nat) (s : Shared V A) (q : Pc) (s' : Shared V A) : Prop where
  later : Later s s'
  owned : s.owner = some u → s'.owner = some u ∧ s'.flight = s.flight ∧ s'.newest = s.newest ∧
    s'.live = s.live

variable {s s' : Shared V A}

theorem Has.mono {ms ms' : List Mark} {r : FileRef} {v : Nat} (h : Has ms r v)
    (hsub : ∀ m ∈ ms, m ∈ ms') : Has ms' r v := by
  obtain ⟨v', hle, hmem⟩ := h
  exact ⟨v', hle, hsub _ hmem⟩

theorem Has.le {ms : List Mark} {r : FileRef} {v v' : Nat} (h : Has ms r v) (hle : v' ≤ v) :
    Has ms r v' := by
  obtain ⟨w, hw, hmem⟩ := h
  exact ⟨w, hle.trans hw, hmem⟩

namespace Later

theorem stored (h : Later s s') {r : FileRef} {v : Nat} (hs : s.Stored r v) : s'.Stored r v := by
  rcases hs with hdel | hzero | hhas
  · exact .inl (h.deleted r hdel)
  · exact .inr (.inl hzero)
  · exact .inr (.inr (hhas.mono h.written))

theorem due (h : Later s s') {r : FileRef} {v old : Nat} (hs : s.Due r v old) :
    s'.Due r v old := by
  rcases hs with hstored | ⟨w, hle, hmem⟩ | ⟨hseq, hold, hv⟩
  · exact .inl (h.stored hstored)
  · rcases h.marks _ hmem with hops | hwritten
    · exact .inr (.inl ⟨w, hle, hops⟩)
    · exact .inl (.inr (.inr ⟨w, hle, hwritten⟩))
  · rcases h.awaited r hseq with hdel | ⟨hseq', hlive⟩ | hmark | hwritten
    · exact .inl (.inl hdel)
    · exact .inr (.inr ⟨hseq', hold.trans hlive.symm, hv.trans (h.version r)⟩)
    · exact .inr (.inl (hmark.le hv))
    · exact .inl (.inr (.inr (hwritten.le hv)))

theorem trans {s'' : Shared V A} (h : Later s s') (h' : Later s' s'') : Later s s'' := by
  have hmarks : ∀ r, Has (s'.ops ++ s'.flight) r (s.version r) →
      Has (s''.ops ++ s''.flight) r (s.version r) ∨ Has s''.written r (s.version r) := by
    rintro r ⟨w, hle, hmem⟩
    exact (h'.marks _ hmem).imp (fun hm => ⟨w, hle, hm⟩) fun hm => ⟨w, hle, hm⟩
  constructor
  case deleted => exact fun r hr => h'.deleted r (h.deleted r hr)
  case written => exact fun m hm => h'.written m (h.written m hm)
  case version => exact fun r => (h.version r).trans (h'.version r)
  case newest => exact h.newest.trans h'.newest
  case marks =>
    intro m hm
    rcases h.marks m hm with hops | hwritten
    · exact h'.marks m hops
    · exact .inr (h'.written m hwritten)
  case awaited =>
    intro r hr
    rcases h.awaited r hr with hdel | ⟨hseq, hlive⟩ | hmark | hwritten
    · exact .inl (h'.deleted r hdel)
    · rcases h'.awaited r hseq with hdel | ⟨hseq', hlive'⟩ | hmark | hwritten
      · exact .inl hdel
      · exact .inr (.inl ⟨hseq', hlive'.trans hlive⟩)
      · exact .inr (.inr (.inl (hmark.le (h.version r))))
      · exact .inr (.inr (.inr (hwritten.le (h.version r))))
    · exact .inr (.inr (hmarks r hmark))
    · exact .inr (.inr (.inr (hwritten.mono h'.written)))

theorem recorded (h : Later s s') {r : FileRef} {v : Nat} (hs : s.Recorded r v) :
    s'.Recorded r v := by
  obtain ⟨old, hdue⟩ := hs
  exact ⟨old, h.due hdue⟩

end Later

theorem For.mono {k : Option (FileRef × Nat)} {P Q : FileRef → Nat → Prop} (h : For k P)
    (hpq : ∀ r v, P r v → Q r v) : For k Q :=
  fun r v hk => hpq r v (h r v hk)

theorem Knows.stable {u : Nat} {q : Pc} (hrely : Relied u s q s') (h : Knows u s q) :
    Knows u s' q := by
  obtain ⟨hlater, howned⟩ := hrely
  cases q with
  | idle | truncating => trivial
  | flushed r v => exact h.trans (hlater.version r)
  | clearing r v => exact hlater.recorded h
  | signalled r v => exact hlater.recorded h
  | read r v old => exact hlater.due h
  | entering k want => exact For.mono h fun _ _ => hlater.due
  | locking k => exact For.mono h fun _ _ => hlater.recorded
  | writing k tx =>
      obtain ⟨howner, hnew, hlive, hk⟩ := h
      obtain ⟨howner', hflight, hnewest, hlive'⟩ := howned howner
      refine ⟨howner', hnewest ▸ hnew, hlive' ▸ hlive, hk.mono fun r v hrv => ?_⟩
      rw [hflight]
      exact hrv.imp_left hlater.stored
  | recording k seq => exact ⟨h.1.trans hlater.newest, h.2.mono fun _ _ => hlater.stored⟩
  | draining k => exact For.mono h fun _ _ => hlater.stored
  | returned r v => exact hlater.stored h

/-! ## What each step does -/

/-- File data flushed. -/
theorem flushed_later {fs : BlueFS V A} {r : FileRef} (hg : s.fs.Grows fs r) :
    Later s (s.flushed fs r) ∧ ∀ x, ((s.flushed fs r).file x).dirtySeq = (s.file x).dirtySeq := by
  have hseq : ∀ x, ((s.flushed fs r).file x).dirtySeq = (s.file x).dirtySeq := by
    intro x
    by_cases hx : x = r
    · subst hx
      exact hg.dirtySeq
    · exact congrArg File.dirtySeq (hg.others x hx)
  refine ⟨⟨fun x hx => ?_, fun _ => id, fun x => ?_, le_rfl, fun _ => .inl, fun x hx => ?_⟩, hseq⟩
  · by_cases hxr : x = r
    · subst hxr
      exact hg.deleted.trans hx
    · exact (congrArg File.deleted (hg.others x hxr)).trans hx
  · show s.version x ≤ (if _ then s.version else _) x
    split
    case isTrue => exact le_rfl
    case isFalse =>
      rw [Function.update_apply]
      split
      case isTrue h => rw [h]; exact Nat.le_succ _
      case isFalse => exact le_rfl
  · exact .inr (.inl ⟨(hseq x).trans (hx.trans hg.seqLive.symm), hg.seqLive⟩)

theorem flushed_good {fs : BlueFS V A} {r : FileRef} (h : s.Good) (hg : s.fs.Grows fs r) :
    (s.flushed fs r).Good := by
  obtain ⟨hlater, hseq⟩ := flushed_later hg
  have hwaiting : ∀ seq, fs.waiting seq = s.fs.waiting seq := fun seq => by
    rw [BlueFS.waiting, hg.dirty]
    rfl
  have hlive : (s.flushed fs r).live = s.live := hg.seqLive
  constructor
  case live => rw [hlive, ← h.live]; exact congrArg Dirty.seqLive hg.dirty
  case newest => rw [hlive]; exact h.newest
  case stable => exact (congrArg Dirty.seqStable hg.dirty).le.trans h.stable
  case dirtySeq => intro x; rw [hseq, hlive]; exact h.dirtySeq x
  case waits => intro x hx; rw [hseq, hlive] at hx; rw [hlive]; exact hwaiting _ ▸ h.waits x hx
  case owed =>
    intro k x hk hx
    rw [hseq]
    refine h.owed k x ?_ (hwaiting k ▸ hx)
    exact (congrArg Dirty.seqStable hg.dirty).symm.le.trans_lt hk
  case unowned => exact h.unowned
  case tracked =>
    intro x
    have hkeep : (s.flushed fs r).file x = s.file x →
        (s.flushed fs r).version x = s.version x →
        ((s.flushed fs r).file x).isDirty = true ∨
          (s.flushed fs r).Recorded x ((s.flushed fs r).version x) := by
      intro hfile hversion
      rw [hfile, hversion]
      exact (h.tracked x).imp_right hlater.recorded
    by_cases hx : x = r
    · subst hx
      rcases hg.grew with hdirty | hsame
      · exact .inl hdirty
      · refine hkeep hsame ?_
        exact congrFun (if_pos (congrArg File.fnode hsame)) x
    · refine hkeep (hg.others x hx) ?_
      show (if _ then s.version else _) x = _
      split
      · rfl
      · rw [Function.update_of_ne hx]
  case queued =>
    intro b o hpending
    refine h.queued b o ?_
    rwa [← congrArg Dirty.pendingRelease hg.dirty]
  case released => exact h.released

/-- An operation under the lock. -/
theorem dropped_later {fs : BlueFS V A} {r : FileRef} (h : s.Good) (hd : s.fs.Drops fs r) :
    Later s (s.dropped fs) := by
  have hlive : (s.dropped fs).live = s.live := hd.seqLive
  have hstable : s.fs.dirty.seqStable < s.live := h.stable.trans_lt h.newest
  refine ⟨fun x hx => ?_, fun _ => id, fun _ => le_rfl, le_rfl, fun m hm => .inl ?_,
    fun x hx => ?_⟩
  · by_cases hxr : x = r
    · subst hxr
      exact hd.deleted hx
    · exact (hd.others x hxr).deleted.trans hx
  · rcases List.mem_append.mp hm with hops | hflight
    · exact List.mem_append_left _ (List.mem_append_left _ hops)
    · exact List.mem_append_right _ hflight
  · by_cases hxr : x = r
    · subst hxr
      rcases hd.kept s.live x (h.waits x hx) with hkept | ⟨-, hdel, -⟩
      · -- still in the list of the next transaction, so its number is the same
        refine .inr (.inl ⟨?_, hlive⟩)
        rw [hlive]
        exact hd.retracted s.live hstable hx hkept
      · exact .inl hdel
    · exact .inr (.inl ⟨(hd.others x hxr).dirtySeq.trans (hx.trans hlive.symm), hlive⟩)

theorem dropped_good {fs : BlueFS V A} {r : FileRef} (h : s.Good) (hd : s.fs.Drops fs r)
    (hdirty : (fs.nodes.files r).isDirty = true ∨
      (fs.nodes.files r).isDirty = (s.file r).isDirty) : (s.dropped fs).Good := by
  have hlater := dropped_later h hd
  have hlive : (s.dropped fs).live = s.live := hd.seqLive
  have hstable : fs.dirty.seqStable < s.live := hd.seqStable ▸ h.stable.trans_lt h.newest
  constructor
  case live => rw [hlive, ← h.live]; exact hd.dirtyLive
  case newest => rw [hlive]; exact h.newest
  case stable => exact hd.seqStable.le.trans h.stable
  case dirtySeq =>
    intro x
    rw [hlive]
    by_cases hx : x = r
    · subst hx
      rcases hd.dirtySeq with hsame | hle
      · exact hsame.le.trans (h.dirtySeq x)
      · exact hle.trans (hd.seqStable ▸ hstable.le)
    · exact (hd.others x hx).dirtySeq.le.trans (h.dirtySeq x)
  case waits =>
    intro x hx
    rw [hlive] at hx ⊢
    have hold : (s.file x).dirtySeq = s.live := by
      by_cases hxr : x = r
      · subst hxr
        rcases hd.dirtySeq with hsame | hle
        · exact hsame.symm.trans hx
        · exact absurd (hx.symm.le.trans hle) (not_le.mpr (hd.seqStable ▸ hstable))
      · exact (hd.others x hxr).dirtySeq.symm.trans hx
    rcases hd.kept s.live x (h.waits x hold) with hkept | ⟨rfl, -, hle⟩
    · exact hkept
    · exact absurd (hx.symm.le.trans hle) (not_le.mpr (hd.seqStable ▸ hstable))
  case owed =>
    intro k x hk hx
    have hk : s.fs.dirty.seqStable < k := hd.seqStable ▸ hk
    have hold := h.owed k x hk (hd.waiting k x hx)
    by_cases hxr : x = r
    · subst hxr
      exact hd.retracted k hk hold hx
    · exact (hd.others x hxr).dirtySeq.trans hold
  case unowned => exact h.unowned
  case tracked =>
    intro x
    have hkeep : ((s.dropped fs).file x).isDirty = (s.file x).isDirty →
        ((s.dropped fs).file x).isDirty = true ∨
          (s.dropped fs).Recorded x ((s.dropped fs).version x) := by
      intro hsame
      rw [hsame]
      exact (h.tracked x).imp_right hlater.recorded
    by_cases hx : x = r
    · subst hx
      exact hdirty.elim .inl hkeep
    · exact hkeep (hd.others x hx).isDirty
  case queued =>
    intro b o _
    by_cases hnew : (s.fs.dirty.pendingRelease b).lookup o = none
    · -- queued by this drop
      left
      have hby : (s.dropped fs).queuedBy b o = s.drops := if_pos hnew
      rw [hby]
      exact List.mem_append_left _ (List.mem_append_right _ (List.mem_singleton.mpr rfl))
    · have hby : (s.dropped fs).queuedBy b o = s.queuedBy b o := if_neg hnew
      rw [hby]
      rcases h.queued b o hnew with hmem | hmem
      · exact hlater.marks _ hmem
      · exact .inr hmem
  case released => exact h.released

/-- The record of a file under the lock. -/
theorem updated_later (s : Shared V A) (r : FileRef) : Later s (s.updated r) := by
  have hmem : ∀ m ∈ s.ops ++ s.flight, m ∈ (s.updated r).ops ++ (s.updated r).flight := by
    intro m hm
    rcases List.mem_append.mp hm with hops | hflight
    · exact List.mem_append_left _ (List.mem_append_left _ hops)
    · exact List.mem_append_right _ hflight
  refine ⟨fun _ => id, fun _ => id, fun x => ?_, le_rfl, fun m hm => .inl (hmem m hm),
    fun x hx => .inr (.inl ⟨hx, rfl⟩)⟩
  show s.version x ≤ Function.update s.version r _ x
  rw [Function.update_apply]
  split
  case isTrue hx => rw [hx]; exact Nat.le_succ _
  case isFalse => exact le_rfl

theorem updated_good (h : s.Good) (r : FileRef) : (s.updated r).Good := by
  have hlater := updated_later s r
  refine { h with tracked := fun x => ?_, queued := fun b o hb => ?_ }
  · by_cases hx : x = r
    · subst hx
      refine .inr ⟨0, .inr (.inl ⟨_, le_rfl, ?_⟩)⟩
      have hversion : (s.updated x).version x = s.version x + 1 := Function.update_self _ _ _
      rw [hversion]
      exact List.mem_append_left _ (List.mem_append_right _ (List.mem_singleton.mpr rfl))
    · have hversion : (s.updated r).version x = s.version x := Function.update_of_ne hx _ _
      rw [hversion]
      exact (h.tracked x).imp_right hlater.recorded
  · rcases h.queued b o hb with hmem | hmem
    · exact hlater.marks _ hmem
    · exact .inr hmem

/-- A dirty file signalled, when it waits for no transaction already numbered. -/
theorem signal_dirtySeq (h : s.Good) {r : FileRef}
    (hlate : (s.file r).dirtySeq ≤ s.fs.dirty.seqStable ∨ (s.file r).dirtySeq = 0 ∨
      (s.file r).dirtySeq = s.fs.dirty.seqLive) :
    ((s.fs.signalDirtyToLog r).nodes.files r).dirtySeq = s.live := by
  rw [BlueFS.signalDirtyToLog_files, if_pos rfl]
  show (if _ then s.fs.dirty.seqLive else _) = _
  rw [← h.live]
  split
  · rfl
  · rename_i hnot
    exact (hlate.resolve_left fun hle => hnot (.inl hle)).resolve_left fun hz => hnot (.inr hz)

theorem signal_later (h : s.Good) (r : FileRef) :
    Later s { s with fs := s.fs.signalDirtyToLog r } := by
  obtain ⟨hlog, -⟩ := s.fs.signalDirtyToLog_dirty r
  have hlive : (s.fs.signalDirtyToLog r).log.seqLive = s.live := congrArg Log.seqLive hlog
  refine ⟨fun x hx => ?_, fun _ => id, fun _ => le_rfl, le_rfl, fun _ => .inl,
    fun x hx => .inr (.inl ⟨?_, hlive⟩)⟩
  · show ((s.fs.signalDirtyToLog r).nodes.files x).deleted = true
    rw [BlueFS.signalDirtyToLog_files]
    split
    case isTrue hxr => rw [hxr] at hx; exact hx
    case isFalse => exact hx
  · show ((s.fs.signalDirtyToLog r).nodes.files x).dirtySeq =
      (s.fs.signalDirtyToLog r).log.seqLive
    rw [hlive]
    by_cases hxr : x = r
    · subst hxr
      exact signal_dirtySeq h (.inr (.inr (hx.trans h.live.symm)))
    · rw [BlueFS.signalDirtyToLog_files, if_neg hxr]
      exact hx

theorem signal_good (h : s.Good) {r : FileRef}
    (hlate : (s.file r).dirtySeq ≤ s.fs.dirty.seqStable ∨ (s.file r).dirtySeq = 0 ∨
      (s.file r).dirtySeq = s.fs.dirty.seqLive) :
    ({ s with fs := s.fs.signalDirtyToLog r } : Shared V A).Good := by
  obtain ⟨hlog, hdirtyLive, hstable, hpending⟩ := s.fs.signalDirtyToLog_dirty r
  have hlater := signal_later h r
  have hlive : (s.fs.signalDirtyToLog r).log.seqLive = s.live := congrArg Log.seqLive hlog
  have hself := signal_dirtySeq h hlate
  have hothers : ∀ x, x ≠ r → (s.fs.signalDirtyToLog r).nodes.files x = s.file x := by
    intro x hx
    rw [BlueFS.signalDirtyToLog_files, if_neg hx]
  constructor
  case live => exact (hdirtyLive.trans h.live).trans hlive.symm
  case newest => exact h.newest.trans_eq hlive.symm
  case stable => exact hstable.le.trans h.stable
  case dirtySeq =>
    intro x
    refine le_trans ?_ hlive.symm.le
    by_cases hx : x = r
    · rw [hx]
      exact hself.le
    · show ((s.fs.signalDirtyToLog r).nodes.files x).dirtySeq ≤ _
      rw [hothers x hx]
      exact h.dirtySeq x
  case waits =>
    intro x hx
    have hx : ((s.fs.signalDirtyToLog r).nodes.files x).dirtySeq = s.live := hx.trans hlive
    show x ∈ (s.fs.signalDirtyToLog r).waiting (s.fs.signalDirtyToLog r).log.seqLive
    rw [hlive, BlueFS.signalDirtyToLog_waiting]
    by_cases hxr : x = r
    · subst hxr
      rcases hlate with hle | hzero | heq
      · exact .inr ⟨rfl, h.live.symm, .inl hle⟩
      · exact .inr ⟨rfl, h.live.symm, .inr hzero⟩
      · exact .inl (h.waits x (heq.trans h.live))
    · rw [hothers x hxr] at hx
      exact .inl (h.waits x hx)
  case owed =>
    intro k x hk hx
    have hk : s.fs.dirty.seqStable < k := hstable ▸ hk
    have hx : x ∈ (s.fs.signalDirtyToLog r).waiting k := hx
    show ((s.fs.signalDirtyToLog r).nodes.files x).dirtySeq = k
    rw [BlueFS.signalDirtyToLog_waiting] at hx
    rcases hx with hold | ⟨rfl, hseq, -⟩
    · have hold := h.owed k x hk hold
      by_cases hxr : x = r
      · subst hxr
        rw [hself, ← hold]
        -- a number above `seqStable` that may be signalled is the live one
        rcases hlate with hle | hzero | heq
        · omega
        · omega
        · exact (heq.trans h.live).symm
      · rw [hothers x hxr]
        exact hold
    · rw [hself, hseq, h.live]
  case unowned => exact h.unowned
  case tracked =>
    intro x
    by_cases hx : x = r
    · subst hx
      exact .inr ⟨s.live, .inr (.inr ⟨hself.trans hlive.symm, hlive.symm, le_rfl⟩)⟩
    · show ((s.fs.signalDirtyToLog r).nodes.files x).isDirty = true ∨ _
      rw [hothers x hx]
      exact (h.tracked x).imp_right hlater.recorded
  case queued =>
    intro b o hb
    exact h.queued b o (hpending ▸ hb)
  case released => exact h.released

/-- The transaction gathered, whether the operations go into it or stay in `log_.t`. -/
structure Gathered (s s' : Shared V A) : Prop where
  gathers : s.fs.Gathers s'.fs
  marks : ∀ m ∈ s.ops ++ s.flight ++ s.consumed, m ∈ s'.ops ++ s'.flight
  written : s'.written = s.written
  version : s'.version = s.version
  newest : s'.newest = s.newest
  queuedBy : s'.queuedBy = s.queuedBy
  released : s'.released = s.released
  unowned : s'.owner = none → s'.flight = []

theorem Gathered.later (hg : Gathered s s') (h : s.Good) : Later s s' := by
  refine ⟨fun x hx => (hg.gathers.files x).deleted.trans hx, fun m hm => hg.written ▸ hm,
    fun x => by rw [hg.version], hg.newest.ge, fun m hm => .inl ?_, fun x hx => ?_⟩
  · exact hg.marks m (List.mem_append_left _ hm)
  · -- the next transaction takes the record of `x`
    refine .inr (.inr (.inl ⟨s.version x, le_rfl, hg.marks _ (List.mem_append_right _ ?_)⟩))
    exact List.mem_map.mpr ⟨x, h.waits x hx, rfl⟩

theorem Gathered.good (hg : Gathered s s') (h : s.Good) : s'.Good := by
  have hlater := hg.later h
  have hlive : s'.live = s.live + 1 := hg.gathers.seqLive
  have hstable : s'.fs.dirty.seqStable = s.fs.dirty.seqStable := by rw [hg.gathers.dirty]
  have hwaiting : ∀ k, s'.fs.waiting k = s.fs.waiting k := fun k => by
    rw [BlueFS.waiting, hg.gathers.dirty]
    rfl
  constructor
  case live =>
    rw [hlive]
    exact congrArg Dirty.seqLive hg.gathers.dirty
  case newest => rw [hg.newest, hlive]; exact h.newest.trans (Nat.lt_succ_self _)
  case stable => rw [hstable, hg.newest]; exact h.stable
  case dirtySeq =>
    intro x
    rw [hlive]
    exact (hg.gathers.files x).dirtySeq.le.trans ((h.dirtySeq x).trans (Nat.le_succ _))
  case waits =>
    intro x hx
    have hle := h.dirtySeq x
    have hseq : (s'.file x).dirtySeq = (s.file x).dirtySeq := (hg.gathers.files x).dirtySeq
    omega
  case owed =>
    intro k x hk hx
    rw [hwaiting] at hx
    exact (hg.gathers.files x).dirtySeq.trans (h.owed k x (hstable ▸ hk) hx)
  case unowned => exact hg.unowned
  case tracked =>
    intro x
    have hdirty : (s'.file x).isDirty = (s.file x).isDirty := (hg.gathers.files x).isDirty
    rw [hdirty, hg.version]
    exact (h.tracked x).imp_right hlater.recorded
  case queued =>
    intro b o hb
    have hpending : s'.fs.dirty.pendingRelease = s.fs.dirty.pendingRelease := by
      rw [hg.gathers.dirty]
    rw [hpending] at hb
    rw [hg.queuedBy]
    rcases h.queued b o hb with hmem | hmem
    · exact hlater.marks _ hmem
    · exact .inr (hlater.written _ hmem)
  case released =>
    intro k hk
    rw [hg.released] at hk
    exact hlater.written _ (h.released k hk)

/-- The transaction of the lock holder written, or its write failed with nothing to carry. -/
structure Unlocked (s s' : Shared V A) : Prop where
  books : s.fs.SameBooks s'.fs
  ops : s'.ops = s.ops
  flight : s'.flight = []
  carried : ∀ m ∈ s.flight, m ∈ s'.written
  written : ∀ m ∈ s.written, m ∈ s'.written
  version : s'.version = s.version
  newest : s.newest ≤ s'.newest
  below : s'.newest < s.live
  queuedBy : s'.queuedBy = s.queuedBy
  released : s'.released = s.released

theorem Unlocked.later (hu : Unlocked s s') : Later s s' := by
  refine ⟨fun x hx => (hu.books.files x).deleted.trans hx, hu.written, fun x => by rw [hu.version],
    hu.newest, fun m hm => ?_, fun x hx => .inr (.inl ⟨?_, hu.books.seqLive⟩)⟩
  · rcases List.mem_append.mp hm with hops | hflight
    · rw [← hu.ops] at hops
      exact .inl (List.mem_append_left _ hops)
    · exact .inr (hu.carried m hflight)
  · exact (hu.books.files x).dirtySeq.trans (hx.trans hu.books.seqLive.symm)

theorem Unlocked.good (hu : Unlocked s s') (h : s.Good) : s'.Good := by
  have hlater := hu.later
  have hlive : s'.live = s.live := hu.books.seqLive
  have hdirty := hu.books.dirty
  have hwaiting : ∀ k, s'.fs.waiting k = s.fs.waiting k := fun k => by
    rw [BlueFS.waiting, hdirty]
    rfl
  constructor
  case live => rw [hlive, hdirty]; exact h.live
  case newest => rw [hlive]; exact hu.below
  case stable => rw [hdirty]; exact h.stable.trans hu.newest
  case dirtySeq =>
    intro x
    rw [hlive]
    exact (hu.books.files x).dirtySeq.le.trans (h.dirtySeq x)
  case waits =>
    intro x hx
    rw [hlive] at hx ⊢
    rw [hwaiting]
    exact h.waits x ((hu.books.files x).dirtySeq.symm.trans hx)
  case owed =>
    intro k x hk hx
    rw [hdirty] at hk
    rw [hwaiting] at hx
    exact (hu.books.files x).dirtySeq.trans (h.owed k x hk hx)
  case unowned => exact fun _ => hu.flight
  case tracked =>
    intro x
    have hsame : (s'.file x).isDirty = (s.file x).isDirty := (hu.books.files x).isDirty
    rw [hsame, hu.version]
    exact (h.tracked x).imp_right hlater.recorded
  case queued =>
    intro b o hb
    rw [hdirty] at hb
    rw [hu.queuedBy]
    rcases h.queued b o hb with hmem | hmem
    · exact hlater.marks _ hmem
    · exact .inr (hu.written _ hmem)
  case released =>
    intro k hk
    rw [hu.released] at hk
    exact hu.written _ (h.released k hk)

/-- The transaction recorded as stable, in the order of the numbers. -/
theorem record_dirtySeq (h : s.Good) {seq : Nat} (hseq : s.fs.dirty.seqStable < seq)
    (hle : seq ≤ s.newest) {x : FileRef} (hx : (s.file x).dirtySeq = s.live) :
    x ∉ s.fs.waiting seq := by
  intro hmem
  have howed := h.owed seq x hseq hmem
  have hlt := h.newest
  omega

theorem record_later (h : s.Good) {seq : Nat} (hseq : s.fs.dirty.seqStable < seq)
    (hle : seq ≤ s.newest) : Later s { s with fs := s.fs.recordStable seq } := by
  refine ⟨fun x hx => ?_, fun _ => id, fun _ => le_rfl, le_rfl, fun _ => .inl,
    fun x hx => .inr (.inl ⟨?_, rfl⟩)⟩
  · show ((s.fs.recordStable seq).nodes.files x).deleted = true
    rw [BlueFS.recordStable_files]
    split <;> exact hx
  · show ((s.fs.recordStable seq).nodes.files x).dirtySeq = s.live
    rw [BlueFS.recordStable_files, if_neg (record_dirtySeq h hseq hle hx)]
    exact hx

theorem record_good (h : s.Good) {seq : Nat} (hseq : s.fs.dirty.seqStable < seq)
    (hle : seq ≤ s.newest) : ({ s with fs := s.fs.recordStable seq } : Shared V A).Good := by
  have hlater := record_later h hseq hle
  have hlt := h.newest
  constructor
  case live => exact h.live
  case newest => exact h.newest
  case stable => exact hle
  case dirtySeq =>
    intro x
    show ((s.fs.recordStable seq).nodes.files x).dirtySeq ≤ s.live
    rw [BlueFS.recordStable_files]
    split
    · exact Nat.zero_le _
    · exact h.dirtySeq x
  case waits =>
    intro x hx
    have hx : ((s.fs.recordStable seq).nodes.files x).dirtySeq = s.live := hx
    show x ∈ (s.fs.recordStable seq).waiting s.live
    rw [BlueFS.recordStable_files] at hx
    rw [BlueFS.recordStable_waiting, if_neg (by omega)]
    split at hx
    case isTrue =>
      have hzero : 0 = s.live := hx
      omega
    case isFalse => exact h.waits x hx
  case owed =>
    intro k x hk hx
    have hk : seq < k := hk
    have hx : x ∈ (s.fs.recordStable seq).waiting k := hx
    show ((s.fs.recordStable seq).nodes.files x).dirtySeq = k
    rw [BlueFS.recordStable_waiting, if_neg (by omega)] at hx
    have hold := h.owed k x (by omega) hx
    rw [BlueFS.recordStable_files, if_neg]
    · exact hold
    · intro hmem
      have := h.owed seq x hseq hmem
      omega
  case unowned => exact h.unowned
  case tracked =>
    intro x
    have hsame : ((s.fs.recordStable seq).nodes.files x).isDirty = (s.file x).isDirty := by
      rw [BlueFS.recordStable_files]
      split <;> rfl
    show ((s.fs.recordStable seq).nodes.files x).isDirty = true ∨ _
    rw [hsame]
    exact (h.tracked x).imp_right hlater.recorded
  case queued => exact h.queued
  case released => exact h.released

/-- What is pending was queued by drops that the state knows of. -/
theorem pendingDrops_queued (h : s.Good) {k : Nat} (hk : k ∈ s.pendingDrops) :
    .drop k ∈ s.ops ++ s.flight ∨ .drop k ∈ s.written := by
  obtain ⟨b, -, hb⟩ := List.mem_flatMap.mp hk
  obtain ⟨⟨o, len⟩, he, rfl⟩ := List.mem_map.mp hb
  refine h.queued b o ?_
  rw [OrderedMap.lookup_eq_some.mpr he]
  simp

variable [Allocator A]

theorem drain_later (s : Shared V A) (ks : List Nat) :
    Later s { s with fs := s.fs.drainPending, released := s.released ++ ks } :=
  ⟨fun _ => id, fun _ => id, fun _ => le_rfl, le_rfl, fun _ => .inl,
    fun _ hx => .inr (.inl ⟨hx, rfl⟩)⟩

theorem drain_good (h : s.Good) (hdue : ∀ k ∈ s.pendingDrops, .drop k ∉ s.ops ++ s.flight) :
    ({ s with
      fs := s.fs.drainPending
      released := s.released ++ s.pendingDrops } : Shared V A).Good := by
  refine { h with queued := fun b o hb => ?_, released := fun k hk => ?_ }
  · refine h.queued b o fun hnone => hb ?_
    show ((if b < MAX_BDEV then OrderedMap.empty else s.fs.dirty.pendingRelease b).lookup o) = none
    split
    · rfl
    · exact hnone
  · rcases List.mem_append.mp hk with hold | hnew
    · exact h.released k hold
    · exact (pendingDrops_queued h hnew).resolve_left (hdue k hnew)

/-! ## The steps -/

variable [VolumeSelector V] {t : Nat} {p p' : Pc}

omit [Allocator A] [VolumeSelector V] in
theorem flushBdev_grows (s : BlueFS V A) (h : FileWriter) (r : FileRef) :
    s.Grows (s.flushBdev h).2 r :=
  .of_eq rfl rfl rfl

theorem syncData_grows (s : BlueFS V A) (h : FileWriter) : s.Grows (syncData s h).2 h.file := by
  have hflush := s.flushF_grows h true
  unfold syncData
  simp only
  split
  · exact hflush
  · exact hflush.trans (flushBdev_grows _ _ _)

omit [Allocator A] [VolumeSelector V] in
theorem clearDirty_eq {fs : BlueFS V A} {r : FileRef} (h : (fs.nodes.files r).isDirty = false) :
    clearDirty fs r = fs := by
  have hfile : { fs.nodes.files r with isDirty := false } = fs.nodes.files r := by rw [← h]
  unfold clearDirty
  rw [hfile, Nodes.setFile, Function.update_eq_self]

omit [Allocator A] [VolumeSelector V] in
/-- A record that is due and not in an unwritten operation is written. -/
theorem Shared.Due.stored (h : s.Good) {r : FileRef} {v old : Nat} (hdue : s.Due r v old)
    (hold : old ≤ s.fs.dirty.seqStable) (hops : ¬ Has (s.ops ++ s.flight) r v) :
    s.Stored r v := by
  have hlt := h.newest
  have hle := h.stable
  rcases hdue with hstored | hhas | ⟨-, heq, -⟩
  · exact hstored
  · exact absurd hhas hops
  · omega

omit [Allocator A] [VolumeSelector V] in
theorem Shared.Due.le {r : FileRef} {v v' old : Nat} (hdue : s.Due r v old) (hle : v' ≤ v) :
    s.Due r v' old := by
  rcases hdue with (hdel | hzero | hhas) | hhas | ⟨hseq, hold, hv⟩
  · exact .inl (.inl hdel)
  · exact .inl (.inr (.inl (Nat.le_zero.mp (hzero ▸ hle))))
  · exact .inl (.inr (.inr (hhas.le hle)))
  · exact .inr (.inl (hhas.le hle))
  · exact .inr (.inr ⟨hseq, hold, hle.trans hv⟩)

/-- What the gathered transaction carries. -/
theorem gathered (h : s.Good) (howner : s.owner = none) (w : FileWriter) (owner : Option Nat)
    (ops flight : List Mark) (hmarks : ops ++ flight = s.ops ++ s.consumed)
    (hunowned : owner = none → flight = []) :
    Gathered s { s with fs := (s.fs.gather w).2, owner, ops, flight } := by
  refine ⟨(s.fs.gather_gathers w).1, fun m hm => ?_, rfl, rfl, rfl, rfl, rfl, hunowned⟩
  show m ∈ ops ++ flight
  rw [hmarks]
  rwa [h.unowned howner, List.append_nil] at hm

/-- The invariant, what the thread knows and what it grants the others, after its step. -/
structure Kept (t : Nat) (s s' : Shared V A) (p' : Pc) : Prop where
  good : s'.Good
  knows : Knows t s' p'
  later : Later s s'

omit [Allocator A] [VolumeSelector V] in
/-- The thread that finishes knows that its version is written. -/
theorem knows_finish {k : Option (FileRef × Nat)} (h : For k s.Stored) :
    Knows t s (.finish k) := by
  cases k with
  | none => trivial
  | some rv =>
      obtain ⟨r, v⟩ := rv
      exact h r v rfl

/-- A careful step keeps the invariant. -/
theorem Acts.kept (hact : Acts t s p s' p') (h : s.Good) (hknows : Knows t s p)
    (hcareful : Careful s p) : Kept t s s' p' := by
  have hrefl : Later s s :=
    ⟨fun _ => id, fun _ => id, fun _ => le_rfl, le_rfl, fun _ => .inl,
      fun _ hx => .inr (.inl ⟨hx, rfl⟩)⟩
  cases hact with
  | @unlink d f r howner hentry =>
      obtain ⟨hd, hdirty⟩ := BlueFS.unlink_drops hentry
      exact ⟨dropped_good h hd (.inr hdirty), trivial, dropped_later h hd⟩
  | @openForWrite d f r howner hentry =>
      obtain ⟨hd, hdirty⟩ := BlueFS.openForWrite_drops hentry
      exact ⟨updated_good (dropped_good h hd (.inr hdirty)) r, trivial,
        (dropped_later h hd).trans (updated_later _ r)⟩
  | truncateFlush hw _ _ _ _ =>
      exact ⟨flushed_good h (syncData_grows s.fs hw), trivial,
        (flushed_later (syncData_grows s.fs hw)).1⟩
  | @truncate r offset howner =>
      obtain ⟨hd, hdirty⟩ := s.fs.truncateTo_drops r offset
      exact ⟨updated_good (dropped_good h hd (.inl hdirty)) r, trivial,
        (dropped_later h hd).trans (updated_later _ r)⟩
  | flush hw force =>
      exact ⟨flushed_good h (s.fs.flushF_grows hw force), trivial,
        (flushed_later (s.fs.flushF_grows hw force)).1⟩
  | fsync hw _ =>
      exact ⟨flushed_good h (syncData_grows s.fs hw), le_rfl,
        (flushed_later (syncData_grows s.fs hw)).1⟩
  | flushFail hw _ =>
      exact ⟨flushed_good h (syncData_grows s.fs hw), trivial,
        (flushed_later (syncData_grows s.fs hw)).1⟩
  | @signal r v hdirty =>
      have hgood := signal_good h (hcareful hdirty)
      have hlater := signal_later h r
      refine ⟨hgood, ⟨s.live, .inr (.inr ⟨?_, ?_, hknows⟩)⟩, hlater⟩
      all_goals
        have hlog := (s.fs.signalDirtyToLog_dirty r).1
      · exact (signal_dirtySeq h (hcareful hdirty)).trans (congrArg Log.seqLive hlog).symm
      · exact (congrArg Log.seqLive hlog).symm
  | @clean r v hclean =>
      refine ⟨h, ?_, hrefl⟩
      obtain ⟨old, hdue⟩ := (h.tracked r).resolve_left (by rw [hclean]; simp)
      exact ⟨old, hdue.le hknows⟩
  | @clear r v =>
      have hsame : ({ s with fs := clearDirty s.fs r } : Shared V A) = s := by
        rw [clearDirty_eq hcareful]
      rw [hsame]
      exact ⟨h, hknows, hrefl⟩
  | @readSeq r v =>
      refine ⟨h, ?_, hrefl⟩
      obtain ⟨old, hdue⟩ := hknows
      rcases hdue with hstored | hhas | ⟨hseq, -, hv⟩
      · exact .inl hstored
      · exact .inr (.inl hhas)
      · exact .inr (.inr ⟨hseq, hseq, hv⟩)
  | stable hold => exact ⟨h, Shared.Due.stored h hknows hold (hcareful hold), hrefl⟩
  | unstable _ =>
      refine ⟨h, fun r v hk => ?_, hrefl⟩
      cases hk
      exact hknows
  | sync => exact ⟨h, fun _ _ hk => absurd hk (by simp), hrefl⟩
  | @enterStable k want hne hold =>
      refine ⟨h, knows_finish fun r v hk => ?_, hrefl⟩
      subst hk
      exact Shared.Due.stored h (hknows r v rfl) hold (hcareful hold)
  | enter _ _ => exact ⟨h, For.mono hknows fun _ _ hdue => ⟨_, hdue⟩, hrefl⟩
  | @gather k w tx howner hw hok =>
      have hg := gathered h howner w (some t) [] (s.ops ++ s.consumed) rfl (by simp)
      have hgood := hg.good h
      have hlater := hg.later h
      have hseq := (s.fs.gather_gathers w).2 tx hok
      refine ⟨hgood, ⟨rfl, ?_, ?_, For.mono hknows fun r v hrec => ?_⟩, hlater⟩
      · rw [hseq]
        exact h.newest
      · rw [hseq]
        exact Nat.lt_of_lt_of_eq (Nat.lt_succ_self _) hg.gathers.seqLive.symm
      · obtain ⟨old, hdue⟩ := hlater.recorded hrec
        rcases hdue with hstored | hhas | ⟨heq, -, -⟩
        · exact .inl hstored
        · exact .inr hhas
        · -- no file waits for the number after the one just taken
          have hle := h.dirtySeq r
          have hseq : s.live + 1 = (s.file r).dirtySeq :=
            (hg.gathers.seqLive.symm.trans heq.symm).trans (hg.gathers.files r).dirtySeq
          omega
  | @gatherFail k w e howner hw herr =>
      have hg := gathered h howner w s.owner (s.ops ++ s.consumed) s.flight
        (by rw [h.unowned howner, List.append_nil]) h.unowned
      exact ⟨hg.good h, trivial, hg.later h⟩
  | @write k w tx hw hres =>
      obtain ⟨howner, hnew, hlive, hk⟩ := hknows
      have hu : Unlocked s { s with
          fs := (s.fs.writeLog w tx).2
          owner := none
          flight := []
          written := s.written ++ s.flight
          newest := tx.seq } :=
        ⟨s.fs.writeLog_sameBooks w tx, rfl, rfl, fun m hm => List.mem_append_right _ hm,
          fun m hm => List.mem_append_left _ hm, rfl, hnew.le, hlive, rfl, rfl⟩
      refine ⟨hu.good h, ⟨le_rfl, hk.mono fun r v hrv => ?_⟩, hu.later⟩
      rcases hrv with hstored | hhas
      · exact hu.later.stored hstored
      · exact .inr (.inr (hhas.mono hu.carried))
  | @writeFail k w tx hw hres =>
      have hnil : s.flight = [] := hcareful w hw hres
      have hu : Unlocked s { s with
          fs := (s.fs.writeLog w tx).2
          owner := none
          flight := [] } :=
        ⟨s.fs.writeLog_sameBooks w tx, rfl, rfl, fun m hm => by rw [hnil] at hm; simp at hm,
          fun m hm => hm, rfl, le_rfl, h.newest, rfl, rfl⟩
      exact ⟨hu.good h, trivial, hu.later⟩
  | @record k seq =>
      obtain ⟨hle, hk⟩ := hknows
      have hlater := record_later h hcareful hle
      exact ⟨record_good h hcareful hle, hk.mono fun _ _ => hlater.stored, hlater⟩
  | @drain k =>
      have hlater := drain_later s s.pendingDrops
      exact ⟨drain_good h hcareful, knows_finish (For.mono hknows fun _ _ => hlater.stored), hlater⟩
  | ret => exact ⟨h, trivial, hrefl⟩

/-- A step leaves the transaction of another thread that holds the lock alone. -/
theorem Acts.owned (hact : Acts t s p s' p') (hknows : Knows t s p) {u : Nat} (hne : u ≠ t)
    (howner : s.owner = some u) : s'.owner = some u ∧ s'.flight = s.flight ∧
      s'.newest = s.newest ∧ s'.live = s.live := by
  have hnone : s.owner ≠ none := by
    rw [howner]
    simp
  cases hact with
  | truncateFlush hw _ _ _ _ => exact ⟨howner, rfl, rfl, (syncData_grows s.fs hw).seqLive⟩
  | flush hw force => exact ⟨howner, rfl, rfl, (s.fs.flushF_grows hw force).seqLive⟩
  | fsync hw _ => exact ⟨howner, rfl, rfl, (syncData_grows s.fs hw).seqLive⟩
  | flushFail hw _ => exact ⟨howner, rfl, rfl, (syncData_grows s.fs hw).seqLive⟩
  | @signal r v _ =>
      exact ⟨howner, rfl, rfl, congrArg Log.seqLive (s.fs.signalDirtyToLog_dirty r).1⟩
  | unlink hfree _ => exact absurd hfree hnone
  | openForWrite hfree _ => exact absurd hfree hnone
  | truncate hfree => exact absurd hfree hnone
  | gather hfree _ _ => exact absurd hfree hnone
  | gatherFail hfree _ _ => exact absurd hfree hnone
  | write _ _ => exact absurd (Option.some.inj (howner.symm.trans hknows.1)) hne
  | writeFail _ _ => exact absurd (Option.some.inj (howner.symm.trans hknows.1)) hne
  | _ => exact ⟨howner, rfl, rfl, rfl⟩

/-- A careful step never lowers `seq_stable`. -/
theorem Acts.seqStable (hact : Acts t s p s' p') (hcareful : Careful s p) :
    s.fs.dirty.seqStable ≤ s'.fs.dirty.seqStable := by
  cases hact with
  | unlink _ hentry => exact (BlueFS.unlink_drops hentry).1.seqStable.ge
  | openForWrite _ hentry => exact (BlueFS.openForWrite_drops hentry).1.seqStable.ge
  | @truncate r offset _ => exact (s.fs.truncateTo_drops r offset).1.seqStable.ge
  | truncateFlush hw _ _ _ _ => exact (congrArg Dirty.seqStable (syncData_grows s.fs hw).dirty).ge
  | flush hw force => exact (congrArg Dirty.seqStable (s.fs.flushF_grows hw force).dirty).ge
  | fsync hw _ => exact (congrArg Dirty.seqStable (syncData_grows s.fs hw).dirty).ge
  | flushFail hw _ => exact (congrArg Dirty.seqStable (syncData_grows s.fs hw).dirty).ge
  | @signal r v _ => exact (s.fs.signalDirtyToLog_dirty r).2.2.1.ge
  | @gather k w tx _ _ _ =>
      show _ ≤ (s.fs.gather w).2.dirty.seqStable
      rw [(s.fs.gather_gathers w).1.dirty]
  | @gatherFail k w e _ _ _ =>
      show _ ≤ (s.fs.gather w).2.dirty.seqStable
      rw [(s.fs.gather_gathers w).1.dirty]
  | @write k w tx _ _ => exact (congrArg Dirty.seqStable (s.fs.writeLog_sameBooks w tx).dirty).ge
  | @writeFail k w tx _ _ =>
      exact (congrArg Dirty.seqStable (s.fs.writeLog_sameBooks w tx).dirty).ge
  | record => exact Nat.le_of_lt hcareful
  | _ => exact le_rfl

/-! ## Runs -/

abbrev Invariant : System V A → Prop := Holds Shared.Good Knows

omit [Allocator A] [VolumeSelector V] in
theorem Initial.invariant {c : System V A} (h : Initial c) : Invariant c := by
  have hlive := h.seqLive
  refine ⟨?_, fun t => ?_⟩
  · constructor
    case live => exact h.dirtyLive
    case newest => have := h.newest; show c.shared.newest < c.shared.fs.log.seqLive; omega
    case stable => exact h.newest.ge
    case dirtySeq => intro r; exact (h.files r).le.trans (Nat.zero_le _)
    case waits =>
      intro r hr
      have hzero : 0 = c.shared.fs.log.seqLive := (h.files r).symm.trans hr
      omega
    case owed => intro seq r _ hr; rw [h.waiting] at hr; simp at hr
    case unowned => exact fun _ => h.flight
    case tracked => exact fun r => .inr ⟨0, .inl (.inr (.inl (h.version r)))⟩
    case queued => intro b o hb; rw [h.pending] at hb; simp at hb
    case released => rw [h.released]; simp
  · rw [h.idle t]
    trivial

theorem Invariant.step {c c' : System V A} (h : Invariant c) (hstep : CarefulStep c t c') :
    Invariant c' := by
  obtain ⟨⟨hact⟩, hcareful⟩ := hstep
  have hkept := hact.kept h.shared (h.threads t) hcareful
  exact h.act (fun u s q s' => Knows.stable) ⟨hkept.good, hkept.knows⟩ fun u hne =>
    ⟨hkept.later, hact.owned (h.threads t) hne⟩

omit [Allocator A] [VolumeSelector V] in
theorem Invariant.safe {c : System V A} (h : Invariant c) : Safe c := by
  refine ⟨h.shared.released, fun t r v hpc => ?_⟩
  have hknows := h.threads t
  rw [hpc] at hknows
  exact hknows

/-- A step of thread `t` from where it stands. -/
theorem acts {c : System V A} {s : Shared V A} (hpc : c.pc t = p) (h : Acts t c.shared p s p') : Step Acts c t (c.act t s p') :=
  Step.of_pc hpc h


section Flush

variable {fs fs₁ fs₂ : BlueFS V A} {w w₁ : FileWriter} {tx : Transaction}

/-- A thread that flushes the log alone. -/
theorem flush_alone (n : Nat) (hwriter : fs.log.writer = some w)
    (hgather : (fs.gather w).1 = .ok tx) (hfs₁ : (fs.gather w).2 = fs₁)
    (hwriter₁ : fs₁.log.writer = some w₁) (hwrite : 0 ≤ (fs₁.writeLog w₁ tx).1)
    (hfs₂ : (fs₁.writeLog w₁ tx).2 = fs₂) (hstable : fs₂.dirty.seqStable < tx.seq) :
    ∃ c, Run CarefulStep ⟨{ fs, newest := n }, fun _ => .idle⟩ c ∧
      c.shared.newest = tx.seq ∧ c.shared.fs.dirty.seqStable = tx.seq := by
  subst hfs₁ hfs₂
  have hsucceeds : ∀ w', (fs.gather w).2.log.writer = some w' →
      ((fs.gather w).2.writeLog w' tx).1 < 0 → ∀ ms : List Mark, ms = [] := by
    intro w' hw' hlt
    rw [hwriter₁] at hw'
    obtain rfl := Option.some.inj hw'
    exact absurd hlt (not_lt.mpr hwrite)
  have hrun := (Run.refl _ : Run CarefulStep
      (⟨{ fs, newest := n }, fun _ => .idle⟩ : System V A) _)
    |>.snoc 0 ⟨acts rfl .sync, trivial⟩
    |>.snoc 0 ⟨acts rfl (.enter (by simp) (Nat.zero_le _)), trivial⟩
    |>.snoc 0 ⟨acts rfl (.gather rfl hwriter hgather), trivial⟩
    |>.snoc 0 ⟨acts rfl (.write hwriter₁ hwrite), fun w' hw' hlt => hsucceeds w' hw' hlt _⟩
    |>.snoc 0 ⟨acts rfl .record, hstable⟩
  refine ⟨_, hrun, rfl, rfl⟩

/-- The extents that thread 1 drops after thread 0 wrote its transaction go back to the
allocator when thread 0 releases what is pending. -/
theorem dropped_before_drain (n : Nat) {d f : Bytes} {r : FileRef} {b o len : Nat}
    (hwriter : fs.log.writer = some w) (hgather : (fs.gather w).1 = .ok tx)
    (hfs₁ : (fs.gather w).2 = fs₁) (hwriter₁ : fs₁.log.writer = some w₁)
    (hwrite : 0 ≤ (fs₁.writeLog w₁ tx).1) (hfs₂ : (fs₁.writeLog w₁ tx).2 = fs₂)
    (hentry : fs₂.nodes.entry d f = some r)
    (hnone : (fs₂.dirty.pendingRelease b).lookup o = none) (hb : b < MAX_BDEV)
    (hqueued : ((fs₂.unlink d f).2.dirty.pendingRelease b).lookup o = some len) :
    ∃ c, Run (Step Acts) ⟨{ fs, newest := n }, fun _ => .idle⟩ c ∧
      0 ∈ c.shared.released ∧ .drop 0 ∉ c.shared.written := by
  subst hfs₁ hfs₂
  have hwritten := (Run.refl _ : Run (Step Acts)
      (⟨{ fs, newest := n }, fun _ => .idle⟩ : System V A) _)
    |>.snoc 0 (acts rfl .sync)
    |>.snoc 0 (acts rfl (.enter (by simp) (Nat.zero_le _)))
    |>.snoc 0 (acts rfl (.gather rfl hwriter hgather))
    |>.snoc 0 (acts rfl (.write hwriter₁ hwrite))
  have hunlinked := hwritten.snoc 1 (acts rfl (.unlink rfl hentry))
  have hdrained := hunlinked
    |>.snoc 0 (acts rfl .record)
    |>.snoc 0 (acts rfl .drain)
  refine ⟨_, hdrained, ?_, fun hmem => ?_⟩
  · refine List.mem_append_right _ (List.mem_flatMap.mpr ⟨b, List.mem_range.mpr hb, ?_⟩)
    exact List.mem_map.mpr ⟨(o, len), OrderedMap.lookup_eq_some.mp hqueued, if_pos hnone⟩
  · -- the transaction carries no drop
    obtain ⟨x, -, hx⟩ := List.mem_map.mp hmem
    exact absurd hx (by simp)

end Flush

/-- The file of the log, of which one block is written. -/
def logFile : File :=
  { fnode :=
      { ino := 1
        size := 4096
        extents := [⟨1048576, 4194304, 1⟩]
        extentsIndex := [0]
        allocated := 4194304
        allocatedCommitted := 4194304 } }

/-- A file of one allocation unit. -/
def oldFile : File :=
  { fnode :=
      { ino := 2
        size := 4096
        extents := [⟨8388608, 1048576, 1⟩]
        extentsIndex := [0]
        allocated := 1048576
        allocatedCommitted := 1048576 }
    refs := 1 }

/-- A mounted BlueFS on one device, with a file `a` in a directory `d`. -/
def mountedFs : BlueFS OriginalVolumeSelector AvlAllocator where
  cfg := {}
  bdev i := if i = BDEV_DB then some { size := 1073741824 } else none
  alloc _ := { deviceSize := 1073741824, blockSize := 1048576 }
  allocSize _ := 0
  sharedAllocId := none
  bluefsUsed := 0
  vselector := ⟨0, 1073741824, 0⟩
  super := {}
  nodes :=
    { dirMap := OrderedMap.empty.insert [100] (OrderedMap.empty.insert [97] 1)
      fileMap := (OrderedMap.empty.insert 1 0).insert 2 1
      inoLast := 2
      files := fun r => if r = 0 then logFile else if r = 1 then oldFile else {}
      nextRef := 2 }
  log := { seqLive := 2, writer := some { file := 0, pos := 4096 } }
  dirty := { seqStable := 1, seqLive := 2 }

def mounted : System OriginalVolumeSelector AvlAllocator where
  shared := { fs := mountedFs, newest := 1 }
  pc _ := .idle

theorem mounted_initial : Initial mounted := by
  refine ⟨fun _ => rfl, rfl, fun r => ?_, fun _ => rfl, rfl, rfl, rfl, fun _ => rfl, rfl,
    fun _ => rfl, rfl⟩
  show (if r = 0 then logFile else if r = 1 then oldFile else {} : File).dirtySeq = 0
  split
  · rfl
  · split <;> rfl

/-- The writer of the log, behind its first block. -/
def logWriter : FileWriter := { file := 0, pos := 4096 }

/-- The transaction of the first flush. -/
def firstTx : Transaction := { seq := 2 }

theorem mounted_gather : (mountedFs.gather logWriter).1 = .ok firstTx := rfl

theorem mounted_writer : (mountedFs.gather logWriter).2.log.writer = some logWriter := rfl

theorem mounted_write : 0 ≤ ((mountedFs.gather logWriter).2.writeLog logWriter firstTx).1 := by
  decide +kernel

end Clab.Bluefs.LogProtocol
