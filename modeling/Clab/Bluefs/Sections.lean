import Clab.Bluefs.Mounting
import Clab.Bluefs.NameRuns
import Clab.Bluefs.SequentialRead

/-!
# The sections of the calls

A call on a mounted BlueFS is cut where another thread may act. What is proved of
every run of sections holds of every run of calls, by `Sections.of_fsync` and the
theorems beside it, and of every interleaving of calls.
-/

namespace Clab.Bluefs

open Blk Common

/-- What a call does between two points where another thread may act. -/
inductive Section
  | name (c : NameCall)
  | flushF (h : FileWriter) (force : Bool)
  | flushRange (h : FileWriter) (offset length : Nat)
  | preallocate (r : FileRef) (off len : Nat)
  | truncateTo (r : FileRef) (offset : Nat)
  | signalDirty (r : FileRef)
  | gather (w : FileWriter)
  | writeLog (w : FileWriter) (t : Transaction)
  | recordStable (seq : Nat)
  | drainPending
  | syncSuper
  /-- Reads and flushes of devices. -/
  | devices (bdev : Nat → Option KernelDevice)

variable {V A : Type}

/-! ## Reads -/

theorem readRandomLoop_devices {s s' : BlueFS V A} {r : FileRef} {fuel off len : Nat} {res : Int}
    {out : Bytes} (hread : s.readRandomLoop r fuel off len = some (res, out, s')) :
    ∃ bdev, s' = { s with bdev } := by
  induction fuel generalizing s off len res out with
  | zero =>
      unfold BlueFS.readRandomLoop at hread
      split at hread
      case isTrue =>
        cases hread
        exact ⟨s'.bdev, rfl⟩
      case isFalse => exact absurd hread (by simp)
  | succ fuel ih =>
      unfold BlueFS.readRandomLoop at hread
      split at hread
      case isTrue =>
        cases hread
        exact ⟨s'.bdev, rfl⟩
      case isFalse =>
        split at hread
        · cases hread
          exact ⟨s'.bdev, rfl⟩
        split at hread
        · exact absurd hread (by simp)
        split at hread
        · exact absurd hread (by simp)
        simp only at hread
        split at hread
        · cases hread
          exact ⟨_, rfl⟩
        · obtain ⟨⟨ret, rest, s₁⟩, hrest, hout⟩ := Option.map_eq_some_iff.mp hread
          cases hout
          obtain ⟨bdev, rfl⟩ := ih hrest
          exact ⟨bdev, rfl⟩

theorem readLoop_devices {s s' : BlueFS V A} {r : FileRef} {ignoreEof : Bool} {fuel off len : Nat}
    {buf buf' : FileReaderBuffer} {res : Int} {out : Bytes}
    (hread : s.readLoop r ignoreEof fuel buf off len = some (res, out, buf', s')) :
    ∃ bdev, s' = { s with bdev } := by
  induction fuel generalizing s buf off len res out with
  | zero =>
      unfold BlueFS.readLoop at hread
      split at hread
      case isTrue =>
        cases hread
        exact ⟨s'.bdev, rfl⟩
      case isFalse => exact absurd hread (by simp)
  | succ fuel ih =>
      unfold BlueFS.readLoop at hread
      split at hread
      case isTrue =>
        cases hread
        exact ⟨s'.bdev, rfl⟩
      case isFalse =>
        split at hread
        case isTrue =>
          simp only at hread
          split at hread
          · cases hread
            exact ⟨s'.bdev, rfl⟩
          split at hread
          · exact absurd hread (by simp)
          split at hread
          · exact absurd hread (by simp)
          split at hread
          · cases hread
            exact ⟨_, rfl⟩
          · obtain ⟨bdev, rfl⟩ := ih hread
            exact ⟨bdev, rfl⟩
        case isFalse =>
          obtain ⟨⟨ret, rest, buf₁, s₁⟩, hrest, hout⟩ := Option.map_eq_some_iff.mp hread
          cases hout
          exact ih hrest

variable [VolumeSelector V] [Allocator A]

/-- The state after a section; `none` is a failed assertion. -/
def Section.run (s : BlueFS V A) : Section → Option (BlueFS V A)
  | name c => (c.run s).map Prod.snd
  | flushF h force => some (s.flushF h force).2.2
  | flushRange h offset length => some (s.flushRange h offset length).2.2
  | preallocate r off len => (s.preallocate r off len).map Prod.snd
  | truncateTo r offset => some (s.truncateTo r offset)
  | signalDirty r => some (s.signalDirtyToLog r)
  | gather w => some (s.gather w).2
  | writeLog w t => some (s.writeLog w t).2
  | recordStable seq => some (s.recordStable seq)
  | drainPending => some s.drainPending
  | syncSuper => some s.syncSuper.2
  | devices bdev => some { s with bdev }

/-- Section after section. -/
def Sections : BlueFS V A → BlueFS V A → Prop :=
  Relation.ReflTransGen fun s s' => ∃ c : Section, c.run s = some s'

namespace Sections

variable {s s' s'' : BlueFS V A}

theorem one (c : Section) (h : c.run s = some s') : Sections s s' :=
  Relation.ReflTransGen.single ⟨c, h⟩

theorem refl (s : BlueFS V A) : Sections s s := Relation.ReflTransGen.refl

theorem trans (h : Sections s s') (h' : Sections s' s'') : Sections s s'' :=
  Relation.ReflTransGen.trans h h'

/-! ## Calls on data -/

theorem of_flushBdev (s : BlueFS V A) (h : FileWriter) : Sections s (s.flushBdev h).2 :=
  one (.devices (s.flushBdev h).2.bdev) rfl

theorem of_appendTryFlush (s : BlueFS V A) (h : FileWriter) (buf : Bytes) :
    Sections s (s.appendTryFlush h buf).2.2 := by
  unfold BlueFS.appendTryFlush
  simp only
  split
  · exact one (.flushF _ false) rfl
  · exact refl s

theorem of_truncate (s : BlueFS V A) (h : FileWriter) (offset : Nat) :
    Sections s (s.truncate h offset).2.2 := by
  have hflush : Sections s (s.flushF h true).2.2 := one (.flushF h true) rfl
  unfold BlueFS.truncate
  simp only
  split
  · exact refl s
  split
  · exact refl s
  split
  · exact refl s
  split
  · exact refl s
  split
  case isTrue =>
    split
    · exact hflush
    · exact (hflush.trans (of_flushBdev _ _)).trans (one (.truncateTo _ offset) rfl)
  case isFalse =>
    split
    · exact refl s
    · exact (of_flushBdev s h).trans (one (.truncateTo _ offset) rfl)

theorem of_readRandom {r : FileRef} {ignoreEof : Bool} {off len : Nat} {res : Int} {out : Bytes}
    (hread : s.readRandom r ignoreEof off len = some (res, out, s')) : Sections s s' := by
  obtain ⟨bdev, rfl⟩ := readRandomLoop_devices hread
  exact one (.devices bdev) rfl

theorem of_read {r : FileRef} {ignoreEof : Bool} {fuel off len : Nat} {buf buf' : FileReaderBuffer}
    {res : Int} {out : Bytes}
    (hread : s.read r ignoreEof fuel buf off len = some (res, out, buf', s')) : Sections s s' := by
  obtain ⟨bdev, rfl⟩ := readLoop_devices hread
  exact one (.devices bdev) rfl

/-! ## The flush of the log -/

theorem of_flushAndSyncLog {w : FileWriter} {wantSeq : Nat} {res : Int}
    (hflush : s.flushAndSyncLog w wantSeq = some (res, s')) : Sections s s' := by
  unfold BlueFS.flushAndSyncLog at hflush
  split at hflush
  case isTrue =>
    obtain ⟨-, rfl⟩ := Prod.mk.inj (Option.some.inj hflush)
    exact refl s
  case isFalse =>
    split at hflush
    case isTrue => exact absurd hflush (by simp)
    case isFalse =>
      have hgather : Sections s (s.gather w).2 := one (.gather w) rfl
      rcases hg : s.gather w with ⟨result, s₁⟩
      rw [hg] at hgather hflush
      cases result with
      | error e =>
          obtain ⟨-, rfl⟩ := Prod.mk.inj (Option.some.inj hflush)
          exact hgather
      | ok t =>
          have hwrite : Sections s (s₁.writeLog w t).2 := hgather.trans (one (.writeLog w t) rfl)
          simp only at hflush
          split at hflush
          case isTrue =>
            obtain ⟨-, rfl⟩ := Prod.mk.inj (Option.some.inj hflush)
            exact hwrite
          case isFalse =>
            obtain ⟨-, rfl⟩ := Prod.mk.inj (Option.some.inj hflush)
            exact (hwrite.trans (one (.recordStable t.seq) rfl)).trans (one .drainPending rfl)

theorem of_fsync {h h' : FileWriter} {res : Int} (hsync : s.fsync h = some (res, h', s')) :
    Sections s s' := by
  have hflush : Sections s (s.flushF h true).2.2 := one (.flushF h true) rfl
  unfold BlueFS.fsync at hsync
  simp only at hsync
  split at hsync
  case isTrue =>
    obtain ⟨-, hrest⟩ := Prod.mk.inj (Option.some.inj hsync)
    obtain ⟨-, rfl⟩ := Prod.mk.inj hrest
    exact hflush
  case isFalse =>
    have hdevs := hflush.trans (of_flushBdev (s.flushF h true).2.2 (s.flushF h true).2.1)
    generalize ((s.flushF h true).2.2.flushBdev (s.flushF h true).2.1).1 = h₁ at hsync
    generalize ((s.flushF h true).2.2.flushBdev (s.flushF h true).2.1).2 = s₁ at hsync hdevs
    have hsignal : Sections s
        (if (s₁.nodes.files h₁.file).isDirty = true then s₁.signalDirtyToLog h₁.file else s₁) := by
      split
      · exact hdevs.trans (one (.signalDirty h₁.file) rfl)
      · exact hdevs
    generalize (if (s₁.nodes.files h₁.file).isDirty = true then s₁.signalDirtyToLog h₁.file
      else s₁) = s₂ at hsync hsignal
    split at hsync
    case isTrue =>
      obtain ⟨w, -, hcall⟩ := Option.bind_eq_some_iff.mp hsync
      obtain ⟨⟨r, s₃⟩, hlog, hout⟩ := Option.map_eq_some_iff.mp hcall
      obtain ⟨-, hrest⟩ := Prod.mk.inj hout
      obtain ⟨-, rfl⟩ := Prod.mk.inj hrest
      exact hsignal.trans (of_flushAndSyncLog hlog)
    case isFalse =>
      obtain ⟨-, hrest⟩ := Prod.mk.inj (Option.some.inj hsync)
      obtain ⟨-, rfl⟩ := Prod.mk.inj hrest
      exact hsignal

theorem of_syncMetadata {avoidCompact due : Bool} {res : Int}
    (hsync : s.syncMetadata avoidCompact due = some (res, s')) : Sections s s' := by
  obtain ⟨w, -, hcall⟩ := Option.bind_eq_some_iff.mp hsync
  obtain ⟨⟨r, s₁⟩, hlog, hout⟩ := Option.map_eq_some_iff.mp hcall
  have hflush := of_flushAndSyncLog hlog
  simp only at hout
  split at hout
  case isTrue =>
    obtain ⟨-, rfl⟩ := Prod.mk.inj hout
    exact hflush
  case isFalse =>
    have hsuper : Sections s s₁.syncSuper.2 := hflush.trans (one .syncSuper rfl)
    split at hout
    case isTrue =>
      obtain ⟨-, rfl⟩ := Prod.mk.inj hout
      exact hsuper
    case isFalse =>
      obtain ⟨-, rfl⟩ := Prod.mk.inj hout
      have hdb : Sections s s₁.syncSuper.2.flushDb :=
        hsuper.trans (one (.devices s₁.syncSuper.2.flushDb.bdev) rfl)
      split
      · exact hdb
      · unfold BlueFS.maybeCompactLog
        split
        · rw [BlueFS.compactLog_eq]
          exact hdb
        · exact hdb

theorem of_umount (hcall : s.umount = some s') : ∃ s₁, Sections s s₁ ∧ s' = s₁.forget := by
  unfold BlueFS.umount at hcall
  cases hwriter : s.log.writer with
  | none =>
      rw [hwriter] at hcall
      cases hcall
      exact ⟨s, refl s, rfl⟩
  | some w =>
      rw [hwriter] at hcall
      obtain ⟨⟨r, s₁⟩, hlog, rfl⟩ := Option.map_eq_some_iff.mp hcall
      have hdevs := (of_flushAndSyncLog hlog).trans (of_flushBdev s₁ (s₁.log.writer.getD w))
      exact ⟨_, hdevs.trans (one .syncSuper rfl), rfl⟩

end Sections

end Clab.Bluefs
