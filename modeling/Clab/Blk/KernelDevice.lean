import Clab.Blk.BlockDevice

/-!
# Kernel devices

`KernelDevice` with its page cache: a write changes the volatile bytes, a
`fdatasync` that succeeds makes all of them durable. `faults` decides the outcome
of the coming system calls, so that the error paths are executable: a failing
write has changed the first bytes it was given.
-/

namespace Clab.Blk

/-- `KernelDevice`, the synchronous part. -/
structure KernelDevice where
  size : Nat
  blockSize : Nat := 4096
  volatile : Content := fun _ => 0
  durable : Content := fun _ => 0
  /-- `io_since_flush_`. -/
  ioSinceFlush : Bool := false
  /-- The outcomes of the coming system calls: none succeeds, `some n` fails after `n` bytes. -/
  faults : List (Option Nat) := []

namespace KernelDevice

/-- `is_valid_io`. -/
def isValidIo (d : KernelDevice) (off len : Nat) : Bool :=
  off + len ≤ d.size ∧ off % d.blockSize = 0 ∧ len % d.blockSize = 0

/-- The outcome of the next system call. -/
def fault (d : KernelDevice) : Option Nat := d.faults.headD none

def spend (d : KernelDevice) : KernelDevice := { d with faults := d.faults.tail }

/-- `read`: the result, and the bytes that are put behind the buffer list. -/
def read (d : KernelDevice) (off len : Nat) (buffered : Bool) : Int × List UInt8 × KernelDevice :=
  if !buffered && !d.isValidIo off len then (-einval, [], d)
  else
    match d.fault with
    | some _ => (-eio, [], d.spend)
    | none => (len, d.volatile.read off len, d.spend)

/-- `read_random`. -/
def readRandom (d : KernelDevice) (off len : Nat) : Int × List UInt8 × KernelDevice :=
  if len = 0 then (-einval, [], d)
  else
    match d.fault with
    | some _ => (-eio, [], d.spend)
    | none => (len, d.volatile.read off len, d.spend)

/-- `write`; the length it returns is an `int`. -/
def write (d : KernelDevice) (off : Nat) (bl : List UInt8) (buffered : Bool) :
    Int × KernelDevice :=
  if !buffered && !d.isValidIo off bl.length then (-einval, d)
  else
    match d.fault with
    | some n => (-eio, { d.spend with volatile := d.volatile.write off (bl.take n) })
    | none =>
        (Int.bmod bl.length (2 ^ 32), { d.spend with
          volatile := d.volatile.write off bl
          ioSinceFlush := true })

/-- `flush`; the flag is cleared before the outcome is known. -/
def flush (d : KernelDevice) : Int × KernelDevice :=
  if d.ioSinceFlush = false then (0, d)
  else
    match d.fault with
    | some _ => (-eio, { d.spend with ioSinceFlush := false })
    | none => (0, { d.spend with ioSinceFlush := false, durable := d.volatile })

end KernelDevice

end Clab.Blk
