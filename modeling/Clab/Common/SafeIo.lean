import Clab.Lib.CrashTriple
import Clab.Common.ByteString

/-!
# Reads and writes that are retried

The loops over `read` and `write`, and the replacement of a file by way of a temporary
one. The system answers each call as it likes: with a failure, or with a transfer of
as much as it pleases.
-/

namespace Clab.Common.SafeIo

open Crash

def PATH_MAX : Nat := 4096
def EINTR : Nat := 4

/-- The number of a failure. The system returns none above 4095. -/
structure Errno where
  val : Nat
  pos : 0 < val
  le : val ≤ 4095

def ENOENT : Errno := ⟨2, by decide, by decide⟩
def ENOSPC : Errno := ⟨28, by decide, by decide⟩
def EACCES : Errno := ⟨13, by decide, by decide⟩

/-- What a call returns for a failure. -/
def Errno.code (e : Errno) : Int := -(e.val : Int)

theorem Errno.code_neg (e : Errno) : e.code < 0 := by
  have := e.pos
  unfold Errno.code
  omega

/-! ## Files -/

/-- A path that the system takes: with its terminator it fits into `PATH_MAX` bytes. -/
structure Path where
  text : Bytes
  short : text.length < PATH_MAX
  deriving DecidableEq

theorem take_short (text : Bytes) : (text.take (PATH_MAX - 1)).length < PATH_MAX :=
  lt_of_le_of_lt (List.length_take_le _ _) (by decide)

/-- `snprintf` into an array of `PATH_MAX` bytes. -/
def snprintf (text : Bytes) : Path := ⟨text.take (PATH_MAX - 1), take_short text⟩

/-- The content of every file there is. Two paths name two files. -/
abbrev Files := Path → Option Bytes

/-- The bytes `bs` put at `off`, behind zeros where the file is shorter than that. -/
def overwrite (c : Bytes) (off : Nat) (bs : Bytes) : Bytes :=
  c.take off ++ List.replicate (off - c.length) 0 ++ bs ++ c.drop (off + bs.length)

namespace Files

/-- The content of the file of a name; a name that is too long for a path names none. -/
def named (fs : Files) (name : Bytes) : Option Bytes :=
  if h : name.length < PATH_MAX then fs ⟨name, h⟩ else none

def read (fs : Files) (p : Path) (off n : Nat) : Bytes := (((fs p).getD []).drop off).take n

/-- Writing nothing does nothing, beyond the end of a file too. -/
def write (fs : Files) (p : Path) (off : Nat) (bs : Bytes) : Files :=
  match fs p with
  | none => fs
  | some c => if bs = [] then fs else Function.update fs p (some (overwrite c off bs))

end Files

/-! ## System calls -/

/-- What a call comes to. A transfer that gets through is of `n + 1` bytes, or of as many as
there are. -/
inductive Answer where
  | fails (e : Errno)
  | through (n : Nat)

abbrev Sys := Calls Answer Files

/-- `open` for reading. -/
def openRead (p : Path) : Sys (Except Errno Unit) :=
  Calls.call fun o fs =>
    match o with
    | .fails e => (.error e, fs)
    | .through _ => (if fs p = none then .error ENOENT else .ok (), fs)

/-- `open` for writing, which creates the file or makes it empty. -/
def openTrunc (p : Path) : Sys (Except Errno Unit) :=
  Calls.call fun o fs =>
    match o with
    | .fails e => (.error e, fs)
    | .through _ => (.ok (), Function.update fs p (some []))

/-- A call that leaves every content as it is: `fsync`, or `open` of a directory. -/
def plain : Sys (Except Errno Unit) :=
  Calls.call fun o fs =>
    match o with
    | .fails e => (.error e, fs)
    | .through _ => (.ok (), fs)

def fsync : Sys (Except Errno Unit) := plain

def openDirectory (_base : Bytes) : Sys (Except Errno Unit) := plain

def unlink (p : Path) : Sys (Except Errno Unit) :=
  Calls.call fun o fs =>
    match o with
    | .fails e => (.error e, fs)
    | .through _ => (if fs p = none then .error ENOENT else .ok (), Function.update fs p none)

/-- `rename` in one step. -/
def rename (p q : Path) : Sys (Except Errno Unit) :=
  Calls.call fun o fs =>
    match o with
    | .fails e => (.error e, fs)
    | .through _ =>
        match fs p with
        | none => (.error ENOENT, fs)
        | some c => (.ok (), Function.update (Function.update fs p none) q (some c))

/-! ## The retried calls -/

/-- An open file, and the position in it. -/
structure Fd where
  path : Path
  pos : Nat

/-- `retry_close`. -/
def retryClose : Sys Unit :=
  Calls.whileCalls (fun _ => none)
    (fun o _ fs =>
      match o with
      | .fails e => if e.val = EINTR then (.inl (), fs) else (.inr (), fs)
      | .through _ => (.inr (), fs)) ()

/-- The condition of the loop of `safe_read` and `safe_pread`, and what they return behind it. -/
def readDone (count : Nat) (got : Bytes) : Option (Int × Bytes) :=
  if got.length < count then none else some ((got.length : Int), got)

/-- A round of `safe_read` and `safe_pread`, which have read `got`. -/
def readRound (p : Path) (off count : Nat) (o : Answer) (got : Bytes) (fs : Files) :
    (Bytes ⊕ (Int × Bytes)) × Files :=
  match o with
  | .fails e => if e.val = EINTR then (.inl got, fs) else (.inr (e.code, got), fs)
  | .through n =>
      let r := fs.read p (off + got.length) (min (n + 1) (count - got.length))
      if r = [] then (.inr (got.length, got), fs) else (.inl (got ++ r), fs)

/-- The loop of `safe_read` and `safe_pread`: what it returns, and what it puts in the buffer. -/
def readLoop (p : Path) (off count : Nat) : Sys (Int × Bytes) :=
  Calls.whileCalls (readDone count) (readRound p off count) []

def safeRead (fd : Fd) (count : Nat) : Sys (Int × Bytes) := readLoop fd.path fd.pos count

def safePread (p : Path) (count offset : Nat) : Sys (Int × Bytes) := readLoop p offset count

/-- The condition of the loop of `safe_write` and `safe_pwrite`. -/
def writeDone (todo : Bytes × Nat) : Option Int := if todo.1 = [] then some 0 else none

/-- A round of `safe_write` and `safe_pwrite`: what is left to write, and where. -/
def writeRound (p : Path) (o : Answer) (todo : Bytes × Nat) (fs : Files) :
    ((Bytes × Nat) ⊕ Int) × Files :=
  match o with
  | .fails e => if e.val = EINTR then (.inl todo, fs) else (.inr e.code, fs)
  | .through n =>
      let written := todo.1.take (n + 1)
      (.inl (todo.1.drop (n + 1), todo.2 + written.length), fs.write p todo.2 written)

/-- The loop of `safe_write` and `safe_pwrite`. -/
def writeLoop (p : Path) (off : Nat) (buf : Bytes) : Sys Int :=
  Calls.whileCalls writeDone (writeRound p) (buf, off)

def safeWrite (fd : Fd) (buf : Bytes) : Sys Int := writeLoop fd.path fd.pos buf

def safePwrite (p : Path) (buf : Bytes) (offset : Nat) : Sys Int := writeLoop p offset buf

/-! ## Whole files -/

/-- `"%s/%s"`. -/
def joined (base file : Bytes) : Bytes := base ++ 47 :: file

/-- `".tmp"`. -/
def tmpSuffix : Bytes := [46, 116, 109, 112]

/-- `safe_read_file`: the length it returns is an `int`. -/
def safeReadFile (base file : Bytes) (vallen : Nat) : Sys (Int × Bytes) := do
  let fn := snprintf (joined base file)
  match ← openRead fn with
  | .error e => pure (e.code, [])
  | .ok () =>
      let (len, val) ← safeRead ⟨fn, 0⟩ vallen
      retryClose
      pure (Int.bmod len (2 ^ 32), val)

/-- `memcmp` of `oldval`, an array of 80 bytes, and `val`; a longer one is compared with what lies
behind the array. -/
def sameAs (oldval val : Bytes) : Sys Bool :=
  if 80 < val.length then Calls.undefined else pure (decide (oldval.take val.length = val))

/-- The test of the early exit. -/
def unchanged (ret : Int) (oldval val : Bytes) : Sys Bool :=
  if ret = Int.bmod val.length (2 ^ 32) then sameAs oldval val else pure false

/-- `safe_write_file` from its `fsync` to its `rename`: what it returns, none where the new file is
in place. -/
def putInPlace (tmp fn : Path) : Sys (Option Int) := do
  let synced ← fsync
  retryClose
  match synced with
  | .error e =>
      let _ ← unlink tmp
      pure (some e.code)
  | .ok () =>
      match ← rename tmp fn with
      | .error e =>
          let _ ← unlink tmp
          pure (some e.code)
      | .ok () => pure none

/-- `safe_write_file` up to its `rename`. -/
def replaceFile (base file val : Bytes) : Sys (Option Int) := do
  let (ret, oldval) ← safeReadFile base file 80
  let same ← unchanged ret oldval val
  if same then pure (some 0)
  else
    let fn := snprintf (joined base file)
    let tmp := snprintf (joined base file ++ tmpSuffix)
    match ← openTrunc tmp with
    | .error e => pure (some e.code)
    | .ok () =>
        let ret ← safeWrite ⟨tmp, 0⟩ val
        if ret ≠ 0 then do
          retryClose
          pure (some ret)
        else
          putInPlace tmp fn

/-- The end of `safe_write_file`, behind its `rename`. -/
def syncDirectory (base : Bytes) : Sys Int := do
  match ← openDirectory base with
  | .error e => pure e.code
  | .ok () =>
      let synced ← fsync
      retryClose
      match synced with
      | .error e => pure e.code
      | .ok () => pure 0

/-- `safe_write_file`. -/
def safeWriteFile (base file val : Bytes) : Sys Int := do
  match ← replaceFile base file val with
  | some ret => pure ret
  | none => syncDirectory base

end Clab.Common.SafeIo
