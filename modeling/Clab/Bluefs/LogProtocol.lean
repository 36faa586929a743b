import Clab.Lib.Interleaving
import Clab.Bluefs.Bookkeeping

/-!
# The log flush protocol

Threads that unlink, truncate, flush and fsync files and flush the log, as
interleaved steps on one BlueFS. An operation under `log_.lock` is one step; the
log flush is cut where it takes and drops the lock. `Shared` adds to BlueFS the
holder of the lock and a history: which operations the transactions carry, which
of them have been written, and who queued each extent pending release.
-/

namespace Clab.Bluefs.LogProtocol

open Interleaving Blk

/-- What an operation of the log stands for: a drop of extents, or a version of a file. -/
inductive Mark
  | drop (k : Nat)
  | update (r : FileRef) (v : Nat)
  deriving DecidableEq

/-- BlueFS, the holder of `log_.lock`, and the history: the drops are numbered, `queuedBy` is
the drop that queued the extent pending at a device and an offset, `released` the drops whose
extents went back to an allocator; `version` counts the changes of a file's metadata; `ops`,
`flight` and `written` are the marks of `log_.t`, of the transaction under the lock and of the
written ones, the newest of which is `newest`. -/
structure Shared (V A : Type) where
  fs : BlueFS V A
  owner : Option Nat := none
  drops : Nat := 0
  queuedBy : Nat → Nat → Nat := fun _ _ => 0
  released : List Nat := []
  version : FileRef → Nat := fun _ => 0
  ops : List Mark := []
  flight : List Mark := []
  written : List Mark := []
  newest : Nat := 0

/-- Where a thread stands; `k` is the file and the version an `fsync` is for. -/
inductive Pc
  | idle
  | truncating (r : FileRef) (offset : Nat)
  | flushed (r : FileRef) (v : Nat)
  | clearing (r : FileRef) (v : Nat)
  | signalled (r : FileRef) (v : Nat)
  | read (r : FileRef) (v : Nat) (oldDirtySeq : Nat)
  | entering (k : Option (FileRef × Nat)) (wantSeq : Nat)
  | locking (k : Option (FileRef × Nat))
  | writing (k : Option (FileRef × Nat)) (t : Transaction)
  | recording (k : Option (FileRef × Nat)) (seq : Nat)
  | draining (k : Option (FileRef × Nat))
  | returned (r : FileRef) (v : Nat)

/-- `_flush_and_sync_log` returns 0. -/
def Pc.finish : Option (FileRef × Nat) → Pc
  | none => .idle
  | some (r, v) => .returned r v

variable {V A : Type}

namespace Shared

/-- An operation under the lock dropped extents. -/
def dropped (s : Shared V A) (fs : BlueFS V A) : Shared V A :=
  { s with
    fs
    drops := s.drops + 1
    queuedBy := fun b o =>
      if (s.fs.dirty.pendingRelease b).lookup o = none then s.drops else s.queuedBy b o
    ops := s.ops ++ [.drop s.drops] }

/-- An operation under the lock recorded a file. -/
def updated (s : Shared V A) (r : FileRef) : Shared V A :=
  { s with
    version := Function.update s.version r (s.version r + 1)
    ops := s.ops ++ [.update r (s.version r + 1)] }

/-- File data was flushed, and the file grew or not. -/
def flushed (s : Shared V A) (fs : BlueFS V A) (r : FileRef) : Shared V A :=
  { s with
    fs
    version :=
      if (fs.nodes.files r).fnode = (s.fs.nodes.files r).fnode then s.version
      else Function.update s.version r (s.version r + 1) }

/-- The records that `_consume_dirty` adds. -/
def consumed (s : Shared V A) : List Mark :=
  (s.fs.waiting s.fs.log.seqLive).map fun r => .update r (s.version r)

/-- The drops that queued what is pending. -/
def pendingDrops (s : Shared V A) : List Nat :=
  (List.range MAX_BDEV).flatMap fun b =>
    (s.fs.dirty.pendingRelease b).entries.map fun e => s.queuedBy b e.1

end Shared

/-- `_flush_F(h, true)` and `_flush_bdev(h)`. -/
def syncData [VolumeSelector V] [Allocator A] (s : BlueFS V A) (h : FileWriter) :
    Int × BlueFS V A :=
  let (r, h, s) := s.flushF h true
  if r < 0 then (r, s) else (r, (s.flushBdev h).2)

/-- `h->file->is_dirty = false`. -/
def clearDirty (s : BlueFS V A) (r : FileRef) : BlueFS V A :=
  { s with nodes := s.nodes.setFile r { s.nodes.files r with isDirty := false } }

variable [VolumeSelector V] [Allocator A]

/-- The steps of a thread. -/
inductive Acts (t : Nat) (s : Shared V A) : Pc → Shared V A → Pc → Prop
  | unlink {d f : Bytes} {r : FileRef} : s.owner = none → s.fs.nodes.entry d f = some r →
      Acts t s .idle (s.dropped (s.fs.unlink d f).2) .idle
  | openForWrite {d f : Bytes} {r : FileRef} : s.owner = none → s.fs.nodes.entry d f = some r →
      Acts t s .idle ((s.dropped (s.fs.openForWrite d f false).2.2).updated r) .idle
  | truncateFlush (h : FileWriter) {offset : Nat} : (s.fs.nodes.files h.file).deleted = false →
      1 < (s.fs.nodes.files h.file).fnode.ino → offset < (s.fs.nodes.files h.file).fnode.size →
      0 ≤ (syncData s.fs h).1 →
      Acts t s .idle (s.flushed (syncData s.fs h).2 h.file) (.truncating h.file offset)
  | truncate {r : FileRef} {offset : Nat} : s.owner = none →
      Acts t s (.truncating r offset) ((s.dropped (s.fs.truncateTo r offset)).updated r) .idle
  | flush (h : FileWriter) (force : Bool) :
      Acts t s .idle (s.flushed (s.fs.flushF h force).2.2 h.file) .idle
  | fsync (h : FileWriter) : 0 ≤ (syncData s.fs h).1 →
      Acts t s .idle (s.flushed (syncData s.fs h).2 h.file)
        (.flushed h.file ((s.flushed (syncData s.fs h).2 h.file).version h.file))
  | flushFail (h : FileWriter) : (syncData s.fs h).1 < 0 →
      Acts t s .idle (s.flushed (syncData s.fs h).2 h.file) .idle
  | signal {r : FileRef} {v : Nat} : (s.fs.nodes.files r).isDirty = true →
      Acts t s (.flushed r v) { s with fs := s.fs.signalDirtyToLog r } (.clearing r v)
  | clean {r : FileRef} {v : Nat} : (s.fs.nodes.files r).isDirty = false →
      Acts t s (.flushed r v) s (.signalled r v)
  | clear {r : FileRef} {v : Nat} :
      Acts t s (.clearing r v) { s with fs := clearDirty s.fs r } (.signalled r v)
  | readSeq {r : FileRef} {v : Nat} :
      Acts t s (.signalled r v) s (.read r v (s.fs.nodes.files r).dirtySeq)
  | stable {r : FileRef} {v old : Nat} : old ≤ s.fs.dirty.seqStable →
      Acts t s (.read r v old) s (.returned r v)
  | unstable {r : FileRef} {v old : Nat} : s.fs.dirty.seqStable < old →
      Acts t s (.read r v old) s (.entering (some (r, v)) old)
  | sync : Acts t s .idle s (.entering none 0)
  | enterStable {k : Option (FileRef × Nat)} {want : Nat} : want ≠ 0 →
      want ≤ s.fs.dirty.seqStable → Acts t s (.entering k want) s (.finish k)
  | enter {k : Option (FileRef × Nat)} {want : Nat} : ¬ (want ≠ 0 ∧ want ≤ s.fs.dirty.seqStable) →
      want ≤ s.fs.dirty.seqLive → Acts t s (.entering k want) s (.locking k)
  | gather {k : Option (FileRef × Nat)} {w : FileWriter} {tx : Transaction} : s.owner = none →
      s.fs.log.writer = some w → (s.fs.gather w).1 = .ok tx →
      Acts t s (.locking k)
        { s with
          fs := (s.fs.gather w).2
          owner := some t
          ops := []
          flight := s.ops ++ s.consumed } (.writing k tx)
  | gatherFail {k : Option (FileRef × Nat)} {w : FileWriter} {e : Int} : s.owner = none →
      s.fs.log.writer = some w → (s.fs.gather w).1 = .error e →
      Acts t s (.locking k)
        { s with fs := (s.fs.gather w).2, ops := s.ops ++ s.consumed } .idle
  | write {k : Option (FileRef × Nat)} {w : FileWriter} {tx : Transaction} :
      s.fs.log.writer = some w → 0 ≤ (s.fs.writeLog w tx).1 →
      Acts t s (.writing k tx)
        { s with
          fs := (s.fs.writeLog w tx).2
          owner := none
          flight := []
          written := s.written ++ s.flight
          newest := tx.seq } (.recording k tx.seq)
  | writeFail {k : Option (FileRef × Nat)} {w : FileWriter} {tx : Transaction} :
      s.fs.log.writer = some w → (s.fs.writeLog w tx).1 < 0 →
      Acts t s (.writing k tx)
        { s with fs := (s.fs.writeLog w tx).2, owner := none, flight := [] } .idle
  | record {k : Option (FileRef × Nat)} {seq : Nat} :
      Acts t s (.recording k seq) { s with fs := s.fs.recordStable seq } (.draining k)
  | drain {k : Option (FileRef × Nat)} :
      Acts t s (.draining k)
        { s with fs := s.fs.drainPending, released := s.released ++ s.pendingDrops } (.finish k)
  | ret {r : FileRef} {v : Nat} : Acts t s (.returned r v) s .idle

/-- BlueFS and its threads. -/
abbrev System (V A : Type) := Interleaving.Config (Shared V A) Pc

/-! ## What is asked -/

/-- Some mark records version `v` of `r` or a later one. -/
def Has (ms : List Mark) (r : FileRef) (v : Nat) : Prop := ∃ v', v ≤ v' ∧ .update r v' ∈ ms

/-- The file is gone, or its version has been written to the log. -/
def Shared.Stored (s : Shared V A) (r : FileRef) (v : Nat) : Prop :=
  (s.fs.nodes.files r).deleted = true ∨ v = 0 ∨ Has s.written r v

/-- Extents are handed back after their drop was written, and `fsync` returns 0 after its
version was. -/
structure Safe (c : System V A) : Prop where
  released : ∀ k ∈ c.shared.released, .drop k ∈ c.shared.written
  returned : ∀ t r v, c.pc t = .returned r v → c.shared.Stored r v

/-- The step of a thread is taken where the code is right: a dirty file that is signalled
waits for no transaction already numbered; no other thread changed it before its flag is
cleared; an `fsync` that need not flush the log finds no record of its file unwritten; a write
that fails carries nothing; the transactions are recorded in their order; and no drop whose
extents are about to be released is still to be written. -/
def Careful (s : Shared V A) : Pc → Prop
  | .flushed r _ => (s.fs.nodes.files r).isDirty = true →
      (s.fs.nodes.files r).dirtySeq ≤ s.fs.dirty.seqStable ∨ (s.fs.nodes.files r).dirtySeq = 0 ∨
        (s.fs.nodes.files r).dirtySeq = s.fs.dirty.seqLive
  | .clearing r _ => (s.fs.nodes.files r).isDirty = false
  | .read r v old | .entering (some (r, v)) old =>
      old ≤ s.fs.dirty.seqStable → ¬ Has (s.ops ++ s.flight) r v
  | .writing _ tx => ∀ w, s.fs.log.writer = some w → (s.fs.writeLog w tx).1 < 0 → s.flight = []
  | .recording _ seq => s.fs.dirty.seqStable < seq
  | .draining _ => ∀ k ∈ s.pendingDrops, .drop k ∉ s.ops ++ s.flight
  | _ => True

/-- A step that is taken where the code is right. -/
def CarefulStep (c : System V A) (t : Nat) (c' : System V A) : Prop :=
  Step Acts c t c' ∧ Careful c.shared (c.pc t)

/-- A mounted BlueFS before the first call. -/
structure Initial (c : System V A) : Prop where
  idle : ∀ t, c.pc t = .idle
  owner : c.shared.owner = none
  files : ∀ r, (c.shared.fs.nodes.files r).dirtySeq = 0
  waiting : ∀ seq, c.shared.fs.waiting seq = []
  dirtyLive : c.shared.fs.dirty.seqLive = c.shared.fs.log.seqLive
  seqLive : c.shared.fs.log.seqLive = c.shared.fs.dirty.seqStable + 1
  newest : c.shared.newest = c.shared.fs.dirty.seqStable
  pending : ∀ b, c.shared.fs.dirty.pendingRelease b = .empty
  released : c.shared.released = []
  version : ∀ r, c.shared.version r = 0
  flight : c.shared.flight = []

end Clab.Bluefs.LogProtocol
