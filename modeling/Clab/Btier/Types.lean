import Mathlib

/-!
# BTier data types

The plain data of the two-tier store: tiers, physical extent locations, the
per-extent metrics word, key locations and configuration. Unsigned 32-bit
fields of the source are natural numbers; the places where the source relies
on, or suffers from, 32-bit wrap-around go through `u32` and `sub32`.
-/

namespace Clab.Btier

/-- A device byte. -/
abbrev Byte := UInt8

/-- `std::string` keys: arbitrary byte strings. -/
abbrev Key := List Byte

/-- Conversion to `uint32_t`. -/
def u32 (n : Nat) : Nat := n % 2 ^ 32

/-- `uint32_t` subtraction. -/
def sub32 (a b : Nat) : Nat := (a + 2 ^ 32 - b) % 2 ^ 32

/-- `append_slot`'s failure value. -/
def UINT32_MAX : Nat := 2 ^ 32 - 1

/-- `find_extent_with_space`'s failure value. -/
def UINT64_MAX : Nat := 2 ^ 64 - 1

theorem u32_lt (n : Nat) : u32 n < 2 ^ 32 := Nat.mod_lt _ (by norm_num)

theorem u32_of_lt {n : Nat} (h : n < 2 ^ 32) : u32 n = n := Nat.mod_eq_of_lt h

theorem sub32_of_le {a b : Nat} (hb : b ≤ a) (ha : a < 2 ^ 32) : sub32 a b = a - b := by
  unfold sub32
  omega

/-- `enum class Tier`. -/
inductive Tier
  | FAST
  | SLOW
  deriving DecidableEq, Repr, Inhabited

/-- Physical location of an extent. -/
structure DiskLocation where
  offset : Nat := 0
  length : Nat := 0
  tier : Tier := .FAST
  deriving DecidableEq, Repr, Inhabited

/-- Location of a value inside an extent. -/
structure KeyLocation where
  extentId : Nat := 0
  offset : Nat := 0
  length : Nat := 0
  deriving DecidableEq, Repr, Inhabited

/-- First byte after the slot. -/
def KeyLocation.slotEnd (l : KeyLocation) : Nat := l.offset + l.length

/-- `enum ExtentState`, the two-bit state of the metrics word. -/
inductive ExtentState
  | ACTIVE
  | MIGRATING
  deriving DecidableEq, Repr, Inhabited

/-- The packed metrics word, field by field; `pack` truncates each field to
its width as the shifts and masks of the source do. -/
structure ExtentMetrics where
  accessCount : Nat := 0
  writeCount : Nat := 0
  randomness : Nat := 0
  state : ExtentState := .ACTIVE
  generation : Nat := 0
  deriving DecidableEq, Repr, Inhabited

/-- `ExtentMetrics::pack`. -/
def ExtentMetrics.pack (access write random : Nat) (state : ExtentState)
    (gen : Nat) : ExtentMetrics :=
  ⟨access % 2 ^ 12, write % 2 ^ 12, random % 2 ^ 6, state, gen % 2 ^ 32⟩

@[simp] theorem ExtentMetrics.pack_state (a w r : Nat) (s : ExtentState) (g : Nat) :
    (ExtentMetrics.pack a w r s g).state = s := rfl

@[simp] theorem ExtentMetrics.pack_generation (a w r : Nat) (s : ExtentState) (g : Nat) :
    (ExtentMetrics.pack a w r s g).generation = g % 2 ^ 32 := rfl

/-- `ExtentHeader::HEADER_SIZE`. -/
def HEADER_SIZE : Nat := 4096

/-- `enum class IoOp`. -/
inductive IoOp
  | READ
  | WRITE
  deriving DecidableEq, Repr

/-- `MigrationEngine::Stats`. -/
structure MigrationStats where
  promotionsCommitted : Nat := 0
  demotionsCommitted : Nat := 0
  compactionsCommitted : Nat := 0
  interruptions : Nat := 0
  ioErrors : Nat := 0
  deriving DecidableEq, Repr

/-- `enum class MigrationResult`. -/
inductive MigrationResult
  | COMMITTED
  | INTERRUPTED
  | FAILED
  deriving DecidableEq, Repr

/-- The geometry part of `BtierConfig` (scoring, scheduling and thresholds
never reach the functions modelled here). -/
structure BtierConfig where
  extentSize : Nat := 4 * 1024 * 1024
  blockSize : Nat := 4096
  largeValueThreshold : Nat := 2 * 1024 * 1024
  journalSize : Nat := 64 * 1024 * 1024
  deriving Repr

/-- `round_up_to(n, d)`. -/
def roundUpTo (n d : Nat) : Nat := if n % d = 0 then n else n + (d - n % d)

theorem le_roundUpTo (n : Nat) {d : Nat} (hd : 0 < d) : n ≤ roundUpTo n d := by
  unfold roundUpTo
  split <;> omega

theorem dvd_roundUpTo (n : Nat) {d : Nat} (hd : 0 < d) : d ∣ roundUpTo n d := by
  unfold roundUpTo
  split
  · exact Nat.dvd_of_mod_eq_zero ‹_›
  · have hlt : n % d < d := Nat.mod_lt n hd
    have hdiv : n + (d - n % d) = d * (n / d + 1) := by
      have := Nat.div_add_mod n d
      rw [Nat.mul_add]
      omega
    exact ⟨_, hdiv⟩

theorem roundUpTo_lt (n : Nat) {d : Nat} (hd : 0 < d) : roundUpTo n d < n + d := by
  unfold roundUpTo
  split
  · omega
  · have : 0 < n % d := Nat.pos_of_ne_zero ‹_›
    omega

end Clab.Btier
