import Clab.Blk.KernelDevice
import Clab.Lib.Interleaving

/-!
# The threads of a kernel device

`KernelDevice` as interleaved steps of the threads that queue, submit, write, wait
and flush, of the completion thread, and of the kernel. A thread uses one
`IOContext` at a time, which carries the trace of what has become of its
operations. Of the medium there is the list of the pieces that were written and
which of them are durable; the kernel may make any piece durable at any time.
-/

namespace Clab.Blk.Protocol

open Clab.Interleaving

def eagain : Int := 11

/-- The most events that one call of `get_next_completed` returns. -/
def kMaxReap : Nat := 256

/-- `aio_t`: the context it belongs to and the transfer it asks for. -/
structure Aio where
  priv : Nat
  write : Bool
  offset : Nat
  bl : List UInt8
  length : Nat
  deriving DecidableEq

/-- Who holds the `lock` of a context. -/
inductive Holder
  | client
  | reaper
  deriving DecidableEq

/-- `IOContext`. `callback` says that there is a callback for it, `sleeping` that its
thread is inside `cond.wait`. The rest is the trace. -/
structure IOContext where
  callback : Bool := false
  r : Int := 0
  pendingAios : List Aio := []
  runningAios : List Aio := []
  numPending : Int := 0
  numRunning : Int := 0
  lock : Option Holder := none
  sleeping : Bool := false
  /-- Spliced, and `num_running` does not count them yet. -/
  uncounted : Nat := 0
  /-- Of the batch, what `io_submit` has not accepted. -/
  unsubmitted : List Aio := []
  /-- Given up by `submit_batch`. -/
  dropped : List Aio := []
  /-- Completed with an error or in part. -/
  refused : List Aio := []
  /-- Completed in full, and `num_running` lowered. -/
  completed : List Aio := []
  /-- The batches that were submitted. -/
  batches : Nat := 0
  /-- The calls of the callback. -/
  fired : Nat := 0

/-- Where the completion thread stands. -/
inductive Reaper
  | reaping
  | handling
  | examining
  | calling (ctx : Nat)
  | subtracting
  | notifying (ctx : Nat)
  | unlocking (ctx : Nat)
  /-- It goes through entries that nobody filled in. -/
  | astray (entries : Nat)
  deriving DecidableEq

/-- A device and the contexts of its threads. -/
structure Device where
  size : Nat
  blockSize : Nat
  ctx : Nat → IOContext
  /-- Accepted by the kernel. -/
  kernel : List Aio := []
  /-- Completed, with their results, and not reaped. -/
  events : List (Aio × Int) := []
  reaper : Reaper := .reaping
  /-- The events of the last call, not handled yet. -/
  batch : List (Aio × Int) := []
  /-- `io_since_flush_`. -/
  ioSinceFlush : Bool := false
  /-- `flush_mutex_`. -/
  flushMutex : Option Nat := none
  /-- The pieces that were written, with their offsets. -/
  written : List (Nat × List UInt8) := []
  /-- Which of them a crash keeps. -/
  durable : Set Nat := ∅
  /-- The pieces there were when the flag was last set. -/
  settled : Nat := 0
  /-- The writes that were acknowledged. -/
  acked : List (Nat × List UInt8) := []
  /-- A flush has cleared the flag and not finished `fdatasync`. -/
  syncing : Bool := false
  /-- An `fdatasync` has failed. -/
  syncFailed : Bool := false

/-- What there was when `flush` was called. -/
structure Since where
  acked : Nat
  settled : Nat

/-- Where a thread stands. -/
inductive Pc
  | idle
  -- `aio_submit`
  | loaded (num : Nat)
  | spliced (num : Nat)
  | counted
  | submitting (attempts : Nat) (r : Int)
  | submitted (r : Int)
  -- `aio_wait`
  | locking
  | checking
  | dozing
  | asleep
  | waited
  -- `write`: what is left, and the pieces written so far
  | writing (off : Nat) (bl : List UInt8) (left : List UInt8) (pieces : List Nat)
  -- `flush`
  | flushing (since : Since)
  | casing (since : Since)
  | clearing (since : Since)
  | syncing (since : Since) (start : Nat)
  | returning (since : Since) (r : Int)
  | flushed (since : Since) (r : Int)
  -- the completion thread and the kernel
  | device

variable {s s' : Device} {t : Nat}

namespace Device

/-- `is_valid_io`. -/
def isValidIo (s : Device) (off len : Nat) : Bool :=
  ({ size := s.size, blockSize := s.blockSize } : KernelDevice).isValidIo off len

def withCtx (s : Device) (t : Nat) (c : IOContext) : Device :=
  { s with ctx := Function.update s.ctx t c }

/-- The operations that the device has of them: in the kernel, completed or reaped. -/
def inFlight (s : Device) : List Aio :=
  s.kernel ++ s.events.map Prod.fst ++ s.batch.map Prod.fst

/-- `io_since_flush_.store(true)`. -/
def touch (s : Device) : Device :=
  { s with ioSinceFlush := true, settled := s.written.length }

/-- The write that an operation which was transferred in full acknowledges. -/
def acknowledge (s : Device) (a : Aio) : Device :=
  if a.write then { s with acked := s.acked ++ [(a.offset, a.bl)] } else s

end Device

namespace IOContext

/-- `pending_aios.emplace_back` and the count. -/
def queue (c : IOContext) (a : Aio) : IOContext :=
  { c with pendingAios := c.pendingAios ++ [a], numPending := c.numPending + 1 }

/-- The `splice` of `aio_submit`. -/
def splice (c : IOContext) : IOContext :=
  { c with
    runningAios := c.pendingAios ++ c.runningAios
    pendingAios := []
    unsubmitted := c.pendingAios
    uncounted := c.pendingAios.length }

/-- `num_running.fetch_add(num)`. -/
def count (c : IOContext) (num : Nat) : IOContext :=
  { c with numRunning := c.numRunning + num, uncounted := 0, batches := c.batches + 1 }

/-- `num_running.fetch_sub(1)` after an operation was transferred in full. -/
def complete (c : IOContext) (a : Aio) : IOContext :=
  { c with numRunning := c.numRunning - 1, completed := c.completed ++ [a] }

/-- `submit_batch` gives up. -/
def giveUp (c : IOContext) : IOContext :=
  { c with dropped := c.dropped ++ c.unsubmitted, unsubmitted := [] }

/-- A completion that is not the whole transfer; `num_running` stays. -/
def refuse (c : IOContext) (a : Aio) : IOContext :=
  { c with r := -eio, refused := c.refused ++ [a] }

/-- The end of `aio_submit`: an error is kept. -/
def returned (c : IOContext) (r : Int) : IOContext :=
  if r < 0 then { c with r := r } else c

/-- `release_running_aios`, behind its assertion. -/
def release (c : IOContext) : IOContext :=
  { c with runningAios := [], completed := [] }

end IOContext

/-- What one client thread does. A call that fails its checks or finds nothing to do
changes nothing and is no step. -/
inductive Client (t : Nat) (s : Device) : Pc → Device → Pc → Prop
  | aioRead {off len : Nat} : s.isValidIo off len →
      Client t s .idle (s.withCtx t ((s.ctx t).queue ⟨t, false, off, [], len⟩)) .idle
  | aioWrite {off : Nat} {bl : List UInt8} : s.isValidIo off bl.length →
      Client t s .idle (s.withCtx t ((s.ctx t).queue ⟨t, true, off, bl, bl.length⟩)) .idle
  | load {num : Nat} : (s.ctx t).numPending = num → num ≠ 0 →
      Client t s .idle s (.loaded num)
  | splice {num : Nat} :
      Client t s (.loaded num) (s.withCtx t (s.ctx t).splice) (.spliced num)
  | count {num : Nat} :
      Client t s (.spliced num) (s.withCtx t ((s.ctx t).count num)) .counted
  | clear : Client t s .counted (s.withCtx t { s.ctx t with numPending := 0 }) (.submitting 16 0)
  | accept {attempts : Nat} {r : Int} {xs ys : List Aio} :
      (s.ctx t).unsubmitted ≠ [] → (s.ctx t).unsubmitted = xs ++ ys →
      Client t s (.submitting attempts r)
        { s.withCtx t { s.ctx t with unsubmitted := ys } with kernel := s.kernel ++ xs }
        (.submitting attempts (r + xs.length))
  | again {attempts : Nat} {r : Int} : (s.ctx t).unsubmitted ≠ [] →
      Client t s (.submitting (attempts + 1) r) s (.submitting attempts r)
  | giveUp {attempts : Nat} {r err : Int} : (s.ctx t).unsubmitted ≠ [] → 0 < err →
      (err = eagain → attempts = 0) →
      Client t s (.submitting attempts r) (s.withCtx t (s.ctx t).giveUp)
        (.submitted (if r = 0 then -err else r))
  | allSubmitted {attempts : Nat} {r : Int} : (s.ctx t).unsubmitted = [] →
      Client t s (.submitting attempts r) s (.submitted r)
  | submitReturn {r : Int} :
      Client t s (.submitted r) (s.withCtx t ((s.ctx t).returned r)) .idle
  | wait : Client t s .idle s .locking
  | lock : (s.ctx t).lock = none →
      Client t s .locking (s.withCtx t { s.ctx t with lock := some .client }) .checking
  | busy : 0 < (s.ctx t).numRunning → Client t s .checking s .dozing
  | sleep : Client t s .dozing
      (s.withCtx t { s.ctx t with lock := none, sleeping := true }) .asleep
  -- notified, or for no reason
  | wake : Client t s .asleep (s.withCtx t { s.ctx t with sleeping := false }) .locking
  | waitReturn : ¬ 0 < (s.ctx t).numRunning →
      Client t s .checking (s.withCtx t { s.ctx t with lock := none }) .waited
  | goOn : Client t s .waited s .idle
  | release : (s.ctx t).numRunning = 0 → Client t s .idle (s.withCtx t (s.ctx t).release) .idle
  | write {off : Nat} {bl : List UInt8} {buffered : Bool} :
      buffered || s.isValidIo off bl.length → Client t s .idle s (.writing off bl bl [])
  | pwritev {off : Nat} {bl piece rest : List UInt8} {pieces : List Nat} :
      Client t s (.writing off bl (piece ++ rest) pieces)
        { s with written := s.written ++ [(off + (bl.length - (piece ++ rest).length), piece)] }
        (.writing off bl rest (pieces ++ [s.written.length]))
  | writeFail {off : Nat} {bl left : List UInt8} {pieces : List Nat} :
      Client t s (.writing off bl left pieces) s .idle
  | writeReturn {off : Nat} {bl : List UInt8} {pieces : List Nat} :
      Client t s (.writing off bl [] pieces)
        { s.touch with acked := s.acked ++ [(off, bl)] } .idle
  | flush : Client t s .idle s (.flushing ⟨s.acked.length, s.settled⟩)
  | flushLock {since : Since} : s.flushMutex = none →
      Client t s (.flushing since) { s with flushMutex := some t } (.casing since)
  | flushClean {since : Since} : s.ioSinceFlush = false →
      Client t s (.casing since) s (.returning since 0)
  | flushClear {since : Since} : s.ioSinceFlush = true →
      Client t s (.casing since) { s with ioSinceFlush := false, syncing := true }
        (.clearing since)
  | fdatasync {since : Since} :
      Client t s (.clearing since) s (.syncing since s.written.length)
  | syncDone {since : Since} {start : Nat} :
      Client t s (.syncing since start)
        { s with syncing := false, durable := s.durable ∪ Set.Iio start } (.returning since 0)
  | syncFail {since : Since} {start : Nat} {err : Int} : 0 < err →
      Client t s (.syncing since start) { s with syncing := false, syncFailed := true }
        (.returning since (-err))
  | flushReturn {since : Since} {r : Int} :
      Client t s (.returning since r) { s with flushMutex := none } (.flushed since r)
  | flushDone {since : Since} {r : Int} : Client t s (.flushed since r) s .idle

/-- What the completion thread does. -/
inductive Reap (s : Device) : Device → Prop
  | getEvents {evs rest : List (Aio × Int)} : s.reaper = .reaping → s.events = evs ++ rest →
      evs.length ≤ kMaxReap → Reap s { s with events := rest, batch := evs, reaper := .handling }
  -- the error comes back with the sign of a count
  | getEventsFail {err : Nat} : s.reaper = .reaping → 0 < err →
      Reap s { s with reaper := .astray err }
  | next : s.reaper = .handling → s.batch = [] → Reap s { s with reaper := .reaping }
  | touch : s.reaper = .handling → s.batch ≠ [] → Reap s { s.touch with reaper := .examining }
  | refuse {a : Aio} {res : Int} {rest : List (Aio × Int)} : s.reaper = .examining →
      s.batch = (a, res) :: rest → res < 0 ∨ res ≠ a.length →
      Reap s { s.withCtx a.priv ((s.ctx a.priv).refuse a) with batch := rest, reaper := .handling }
  | callback {a : Aio} {rest : List (Aio × Int)} : s.reaper = .examining →
      s.batch = (a, (a.length : Int)) :: rest → (s.ctx a.priv).callback = true →
      Reap s { (s.withCtx a.priv ((s.ctx a.priv).complete a)).acknowledge a with
        batch := rest
        reaper := if (s.ctx a.priv).numRunning = 1 then .calling a.priv else .handling }
  | call {u : Nat} : s.reaper = .calling u →
      Reap s { s.withCtx u { s.ctx u with fired := (s.ctx u).fired + 1 } with reaper := .handling }
  | lock {a : Aio} {rest : List (Aio × Int)} : s.reaper = .examining →
      s.batch = (a, (a.length : Int)) :: rest → (s.ctx a.priv).callback = false →
      (s.ctx a.priv).lock = none →
      Reap s { s.withCtx a.priv { s.ctx a.priv with lock := some .reaper } with
        reaper := .subtracting }
  | subtract {a : Aio} {res : Int} {rest : List (Aio × Int)} : s.reaper = .subtracting →
      s.batch = (a, res) :: rest →
      Reap s { (s.withCtx a.priv ((s.ctx a.priv).complete a)).acknowledge a with
        batch := rest
        reaper := if (s.ctx a.priv).numRunning = 1 then .notifying a.priv
          else .unlocking a.priv }
  | notify {u : Nat} : s.reaper = .notifying u →
      Reap s { s.withCtx u { s.ctx u with sleeping := false } with reaper := .unlocking u }
  | unlock {u : Nat} : s.reaper = .unlocking u →
      Reap s { s.withCtx u { s.ctx u with lock := none } with reaper := .handling }

/-- What the kernel does. -/
inductive Kernel (s : Device) : Device → Prop
  /-- An operation ends: a write that ends well has written as much as it says. -/
  | finish {a : Aio} {xs ys : List Aio} {res : Int} {n : Nat} : s.kernel = xs ++ a :: ys →
      res ≤ a.length → (0 ≤ res → n = res) →
      Kernel s { s with
        kernel := xs ++ ys
        events := s.events ++ [(a, res)]
        written := if a.write then s.written ++ [(a.offset, a.bl.take n)] else s.written }
  | keep {i : Nat} : i < s.written.length → Kernel s { s with durable := insert i s.durable }

/-- One step of a thread. Nothing is said of what follows once the completion thread
has gone astray. -/
inductive Acts (t : Nat) (s : Device) (p : Pc) (s' : Device) (p' : Pc) : Prop
  | client : (∀ n, s.reaper ≠ .astray n) → Client t s p s' p' → Acts t s p s' p'
  | reap : (∀ n, s.reaper ≠ .astray n) → p = .device → p' = .device → Reap s s' →
      Acts t s p s' p'
  | kernel : (∀ n, s.reaper ≠ .astray n) → p = .device → p' = .device → Kernel s s' →
      Acts t s p s' p'

abbrev System := Config Device Pc

/-- The steps of a run. -/
abbrev Stepped (c : System) (t : Nat) (c' : System) : Prop := Step Acts c t c'

/-- A device that was just opened. -/
structure Opened (c : System) : Prop where
  device : ∃ (size blockSize : Nat) (callback : Nat → Bool), c.shared =
    { size := size, blockSize := blockSize, ctx := fun t => { callback := callback t } }
  threads : ∀ t, c.pc t = .idle ∨ c.pc t = .device

end Clab.Blk.Protocol
