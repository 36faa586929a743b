import Clab.Bluefs.State
import Clab.Lib.Segments

/-!
# The selector of the RocksDB levels

`RocksDBBlueFSVolumeSelector` counts what the files of a level occupy, by device
and in total. `Counter` names its counters, `Counter.weight` what a file adds to
one; the theorems say that this is what is added and taken off.
-/

namespace Clab.Bluefs

open Segments

/-- `rdb_level_t`; a hint is a level, and the null pointer is no level. -/
def RDB_LEVEL_FIRST : Nat := 1
def RDB_LEVEL_LOG : Nat := 1
def RDB_LEVEL_WAL : Nat := 2
def RDB_LEVEL_DB : Nat := 3
def RDB_LEVEL_SLOW : Nat := 4
def RDB_LEVEL_MAX : Nat := 5

/-- `LEVELS`: a column for each level, and one for the totals. -/
def LEVELS : Nat := RDB_LEVEL_MAX - RDB_LEVEL_FIRST + 1

/-- `RocksDBBlueFSVolumeSelector`: `usage` by device and column, with the sizes of files in row
`MAX_BDEV`. -/
structure RocksDBBlueFSVolumeSelector where
  usage : Nat → Nat → UInt64 := fun _ _ => 0
  maxUsage : Nat → Nat → UInt64 := fun _ _ => 0
  perLevelFiles : Nat → UInt64 := fun _ => 0
  lTotals : Nat → UInt64 := fun _ => 0
  dbAvail4slow : UInt64 := 0

namespace RocksDBBlueFSVolumeSelector

/-- A table with an entry changed. -/
def change (u : Nat → Nat → UInt64) (bdev pos : Nat) (f : UInt64 → UInt64) : Nat → Nat → UInt64 :=
  fun b p => if b = bdev ∧ p = pos then f (u b p) else u b p

def changeAt (u : Nat → UInt64) (pos : Nat) (f : UInt64 → UInt64) : Nat → UInt64 :=
  fun p => if p = pos then f (u p) else u p

/-- `update_max`. -/
def updateMax (v : RocksDBBlueFSVolumeSelector) (bdev pos : Nat) : RocksDBBlueFSVolumeSelector :=
  { v with maxUsage := change v.maxUsage bdev pos (max (v.usage bdev pos)) }

/-- `add_usage` of an extent. -/
def addExtent (v : RocksDBBlueFSVolumeSelector) (hint : Nat) (e : Extent) :
    RocksDBBlueFSVolumeSelector :=
  if hint = 0 then v
  else
    let pos := hint - RDB_LEVEL_FIRST
    let length := UInt64.ofNat e.length
    let v := { v with usage := change v.usage e.bdev pos (· + length) }.updateMax e.bdev pos
    { v with usage := change v.usage e.bdev (LEVELS - 1) (· + length) }.updateMax e.bdev (LEVELS - 1)

/-- `sub_usage` of an extent. -/
def subExtent (v : RocksDBBlueFSVolumeSelector) (hint : Nat) (e : Extent) :
    RocksDBBlueFSVolumeSelector :=
  if hint = 0 then v
  else
    let pos := hint - RDB_LEVEL_FIRST
    let length := UInt64.ofNat e.length
    let v := { v with usage := change v.usage e.bdev pos (· - length) }
    { v with usage := change v.usage e.bdev (LEVELS - 1) (· - length) }

/-- `add_usage` of a size. -/
def addSize (v : RocksDBBlueFSVolumeSelector) (hint : Nat) (fsize : Nat) (updFiles : Bool) :
    RocksDBBlueFSVolumeSelector :=
  if hint = 0 then v
  else
    let pos := hint - RDB_LEVEL_FIRST
    let size := UInt64.ofNat fsize
    let v := { v with usage := change v.usage MAX_BDEV pos (· + size) }.updateMax MAX_BDEV pos
    if updFiles then
      { v with perLevelFiles := changeAt (changeAt v.perLevelFiles pos (· + 1)) (LEVELS - 1) (· + 1) }
    else v

/-- `sub_usage` of a size. -/
def subSize (v : RocksDBBlueFSVolumeSelector) (hint : Nat) (fsize : Nat) (updFiles : Bool) :
    RocksDBBlueFSVolumeSelector :=
  if hint = 0 then v
  else
    let pos := hint - RDB_LEVEL_FIRST
    let size := UInt64.ofNat fsize
    let v := { v with usage := change v.usage MAX_BDEV pos (· - size) }
    if updFiles then
      { v with perLevelFiles :=
          changeAt (changeAt v.perLevelFiles pos (· - 1)) (LEVELS - 1) (· - 1) }
    else v

/-- `add_usage` of a fnode. -/
def addUsage (v : RocksDBBlueFSVolumeSelector) (hint : Nat) (fnode : Fnode) :
    RocksDBBlueFSVolumeSelector :=
  (fnode.extents.foldl (fun v e => v.addExtent hint e) v).addSize hint fnode.size true

/-- `sub_usage` of a fnode. -/
def subUsage (v : RocksDBBlueFSVolumeSelector) (hint : Nat) (fnode : Fnode) :
    RocksDBBlueFSVolumeSelector :=
  (fnode.extents.foldl (fun v e => v.subExtent hint e) v).subSize hint fnode.size true

/-- `get_hint_by_dir`, by the suffixes ".slow" and ".wal". -/
def hintByDir (dirname : Bytes) : Hint :=
  if 5 < dirname.length then
    if dirname.drop (dirname.length - 5) = [46, 115, 108, 111, 119] then RDB_LEVEL_SLOW
    else if dirname.drop (dirname.length - 4) = [46, 119, 97, 108] then RDB_LEVEL_WAL
    else RDB_LEVEL_DB
  else RDB_LEVEL_DB

/-- `select_prefer_bdev`. -/
def selectPreferBdev (v : RocksDBBlueFSVolumeSelector) (hint : Nat) : Nat :=
  let level := hint % 256
  if level = RDB_LEVEL_SLOW then
    if 0 < v.dbAvail4slow then
      -- the most that data of other levels has used of the DB device
      let maxDbUse := v.maxUsage BDEV_DB (RDB_LEVEL_LOG - RDB_LEVEL_FIRST) +
        v.maxUsage BDEV_DB (RDB_LEVEL_WAL - RDB_LEVEL_FIRST) +
        v.maxUsage BDEV_DB (RDB_LEVEL_DB - RDB_LEVEL_FIRST) +
        v.maxUsage BDEV_SLOW (RDB_LEVEL_DB - RDB_LEVEL_FIRST)
      let dbTotal := v.lTotals (RDB_LEVEL_DB - RDB_LEVEL_FIRST)
      let avail := min v.dbAvail4slow (if maxDbUse < dbTotal then dbTotal - maxDbUse else 0)
      if v.usage BDEV_DB (RDB_LEVEL_SLOW - RDB_LEVEL_FIRST) < avail then BDEV_DB else BDEV_SLOW
    else BDEV_SLOW
  else if level = RDB_LEVEL_LOG ∨ level = RDB_LEVEL_WAL then BDEV_WAL
  else BDEV_DB

instance : VolumeSelector RocksDBBlueFSVolumeSelector where
  getHintForLog _ := RDB_LEVEL_LOG
  getHintByDir _ := hintByDir
  addUsage := addUsage
  subUsage := subUsage
  addSize := addSize
  subSize := subSize
  selectPreferBdev := selectPreferBdev

end RocksDBBlueFSVolumeSelector

/-! ## The counters -/

/-- The counters: bytes of extents on a device, of a level or of all; and the sizes and the
number of the files, of a level or of all. -/
inductive Counter
  | extents (dev : Fin 3) (level : Fin 4)
  | device (dev : Fin 3)
  | size (level : Fin 4)
  | files (level : Fin 4)
  | allFiles
  deriving DecidableEq

/-- The value of a counter. -/
def RocksDBBlueFSVolumeSelector.value (v : RocksDBBlueFSVolumeSelector) : Counter → UInt64
  | .extents dev level => v.usage dev level
  | .device dev => v.usage dev (LEVELS - 1)
  | .size level => v.usage MAX_BDEV level
  | .files level => v.perLevelFiles level
  | .allFiles => v.perLevelFiles (LEVELS - 1)

namespace Counter

variable {M : Type} [Zero M]

/-- What a counter sees of `x` bytes on a device that a file of a level holds. -/
def ofBytes (hint bdev : Nat) (x : M) : Counter → M
  | extents dev level => if hint = level + RDB_LEVEL_FIRST ∧ bdev = dev then x else 0
  | device dev => if hint ≠ 0 ∧ bdev = dev then x else 0
  | size _ | files _ | allFiles => 0

/-- What a counter sees of a file of a level that has size `x` and counts for `y` files. -/
def ofFile (hint : Nat) (x y : M) : Counter → M
  | extents _ _ | device _ => 0
  | size level => if hint = level + RDB_LEVEL_FIRST then x else 0
  | files level => if hint = level + RDB_LEVEL_FIRST then y else 0
  | allFiles => if hint ≠ 0 then y else 0

/-- What a file counts for. -/
def weight (hint : Nat) (fnode : Fnode) (c : Counter) : Nat :=
  total (fun e => c.ofBytes hint e.bdev e.length) fnode.extents + c.ofFile hint fnode.size 1

@[simp] theorem ofBytes_zero (bdev : Nat) (x : M) (c : Counter) : c.ofBytes 0 bdev x = 0 := by
  cases c <;> simp [ofBytes, RDB_LEVEL_FIRST]

@[simp] theorem ofFile_zero (x y : M) (c : Counter) : c.ofFile 0 x y = 0 := by
  cases c <;> simp [ofFile, RDB_LEVEL_FIRST]

/-- A file without a level counts for nothing. -/
@[simp] theorem weight_zero (fnode : Fnode) (c : Counter) : c.weight 0 fnode = 0 := by
  unfold weight
  rw [ofFile_zero, Nat.add_zero]
  simp [total]

theorem map_ofBytes {N : Type} [Zero N] {f : M → N} (hf : f 0 = 0) (hint bdev : Nat) (x : M)
    (c : Counter) : f (c.ofBytes hint bdev x) = c.ofBytes hint bdev (f x) := by
  cases c <;> simp only [ofBytes] <;> first | exact hf | (rw [apply_ite f, hf])

theorem map_ofFile {N : Type} [Zero N] {f : M → N} (hf : f 0 = 0) (hint : Nat) (x y : M)
    (c : Counter) : f (c.ofFile hint x y) = c.ofFile hint (f x) (f y) := by
  cases c <;> simp only [ofFile] <;> first | exact hf | (rw [apply_ite f, hf])

end Counter

/-! ## What is added and taken off -/

/-- Every extent is on a device of the context. -/
def OnDevices (es : List Extent) : Prop := ∀ e ∈ es, e.bdev < MAX_BDEV

namespace RocksDBBlueFSVolumeSelector

/-- Without a level nothing is counted. -/
theorem addUsage_zero (v : RocksDBBlueFSVolumeSelector) (fnode : Fnode) : v.addUsage 0 fnode = v := by
  have hextents : fnode.extents.foldl (fun v e => v.addExtent 0 e) v = v := by
    induction fnode.extents with
    | nil => rfl
    | cons e es ih => exact ih
  unfold addUsage
  rw [hextents]
  rfl

theorem subUsage_zero (v : RocksDBBlueFSVolumeSelector) (fnode : Fnode) : v.subUsage 0 fnode = v := by
  have hextents : fnode.extents.foldl (fun v e => v.subExtent 0 e) v = v := by
    induction fnode.extents with
    | nil => rfl
    | cons e es ih => exact ih
  unfold subUsage
  rw [hextents]
  rfl

section Tables

variable (v : RocksDBBlueFSVolumeSelector) {hint : Nat} (hpos : 0 < hint)

/-- What `f` does to an entry twice, where the two may be the same, adds up. -/
theorem change_twice {u : Nat → Nat → UInt64} (b b' p p' q : Nat) {f : UInt64 → UInt64}
    {x : UInt64} (hf : ∀ y, f y = y + x) :
    change (change u b p f) b q f b' p' =
      u b' p' + ((if b' = b ∧ p' = p then x else 0) + if b' = b ∧ p' = q then x else 0) := by
  simp only [change, hf]
  split_ifs <;> grind

theorem changeAt_twice {u : Nat → UInt64} (p p' q : Nat) {f : UInt64 → UInt64} {x : UInt64}
    (hf : ∀ y, f y = y + x) :
    changeAt (changeAt u p f) q f p' =
      u p' + ((if p' = p then x else 0) + if p' = q then x else 0) := by
  simp only [changeAt, hf]
  split_ifs <;> grind

include hpos

theorem usage_addExtent (e : Extent) (b p : Nat) :
    (v.addExtent hint e).usage b p = v.usage b p +
      ((if b = e.bdev ∧ p = hint - 1 then UInt64.ofNat e.length else 0) +
        if b = e.bdev ∧ p = 4 then UInt64.ofNat e.length else 0) := by
  unfold addExtent
  rw [if_neg hpos.ne']
  exact change_twice _ _ _ _ _ fun _ => rfl

theorem usage_subExtent (e : Extent) (b p : Nat) :
    (v.subExtent hint e).usage b p = v.usage b p +
      ((if b = e.bdev ∧ p = hint - 1 then -UInt64.ofNat e.length else 0) +
        if b = e.bdev ∧ p = 4 then -UInt64.ofNat e.length else 0) := by
  unfold subExtent
  rw [if_neg hpos.ne']
  exact change_twice _ _ _ _ _ fun _ => UInt64.sub_eq_add_neg _ _

theorem usage_addSize (fsize : Nat) (updFiles : Bool) (b p : Nat) :
    (v.addSize hint fsize updFiles).usage b p =
      v.usage b p + if b = 3 ∧ p = hint - 1 then UInt64.ofNat fsize else 0 := by
  unfold addSize
  rw [if_neg hpos.ne']
  have htable : change v.usage MAX_BDEV (hint - RDB_LEVEL_FIRST) (· + UInt64.ofNat fsize) b p =
      v.usage b p + if b = 3 ∧ p = hint - 1 then UInt64.ofNat fsize else 0 := by
    unfold change
    by_cases h : b = 3 ∧ p = hint - 1
    · rw [if_pos h]
      exact if_pos h
    · rw [if_neg h, UInt64.add_zero]
      exact if_neg h
  cases updFiles <;> exact htable

theorem usage_subSize (fsize : Nat) (updFiles : Bool) (b p : Nat) :
    (v.subSize hint fsize updFiles).usage b p =
      v.usage b p + if b = 3 ∧ p = hint - 1 then -UInt64.ofNat fsize else 0 := by
  unfold subSize
  rw [if_neg hpos.ne']
  have htable : change v.usage MAX_BDEV (hint - RDB_LEVEL_FIRST) (· - UInt64.ofNat fsize) b p =
      v.usage b p + if b = 3 ∧ p = hint - 1 then -UInt64.ofNat fsize else 0 := by
    unfold change
    by_cases h : b = 3 ∧ p = hint - 1
    · rw [if_pos h, ← UInt64.sub_eq_add_neg]
      exact if_pos h
    · rw [if_neg h, UInt64.add_zero]
      exact if_neg h
  cases updFiles <;> exact htable

theorem perLevelFiles_addSize (fsize p : Nat) (updFiles : Bool) :
    (v.addSize hint fsize updFiles).perLevelFiles p = v.perLevelFiles p +
      if updFiles = true then (if p = hint - 1 then 1 else 0) + (if p = 4 then 1 else 0) else 0 := by
  unfold addSize
  rw [if_neg hpos.ne']
  cases updFiles with
  | false => exact (UInt64.add_zero _).symm
  | true => exact changeAt_twice _ _ _ fun _ => rfl

theorem perLevelFiles_subSize (fsize p : Nat) (updFiles : Bool) :
    (v.subSize hint fsize updFiles).perLevelFiles p = v.perLevelFiles p +
      if updFiles = true then (if p = hint - 1 then -1 else 0) + (if p = 4 then -1 else 0)
      else 0 := by
  unfold subSize
  rw [if_neg hpos.ne']
  cases updFiles with
  | false => exact (UInt64.add_zero _).symm
  | true => exact changeAt_twice _ _ _ fun _ => UInt64.sub_eq_add_neg _ _

end Tables

/-! ### By counter -/

section Values

variable {v v' : RocksDBBlueFSVolumeSelector} {hint : Nat} (hhint : hint < RDB_LEVEL_MAX)

include hhint

/-- Bytes on a device, in the tables and by counter. -/
theorem value_ofBytes (hpos : 0 < hint) {bdev : Nat} (hbdev : bdev < MAX_BDEV) {x : UInt64}
    (husage : ∀ b p, v'.usage b p = v.usage b p +
      ((if b = bdev ∧ p = hint - 1 then x else 0) + if b = bdev ∧ p = 4 then x else 0))
    (hfiles : v'.perLevelFiles = v.perLevelFiles) (c : Counter) :
    v'.value c = v.value c + c.ofBytes hint bdev x := by
  have hmax : RDB_LEVEL_MAX = 5 := rfl
  have hfirst : RDB_LEVEL_FIRST = 1 := rfl
  have hlevels : LEVELS - 1 = 4 := rfl
  have hbdevs : MAX_BDEV = 3 := rfl
  cases c with
  | extents dev level =>
      have hlevel := level.isLt
      have hiff : ((dev : Nat) = bdev ∧ (level : Nat) = hint - 1) ↔
          (hint = level + RDB_LEVEL_FIRST ∧ bdev = dev) := by omega
      have hlast : ¬ ((dev : Nat) = bdev ∧ (level : Nat) = 4) := by omega
      simp only [value, husage, Counter.ofBytes, hiff, if_neg hlast, UInt64.add_zero]
  | device dev =>
      have hiff : ((dev : Nat) = bdev ∧ LEVELS - 1 = 4) ↔ (hint ≠ 0 ∧ bdev = dev) := by omega
      have hlevel : ¬ ((dev : Nat) = bdev ∧ LEVELS - 1 = hint - 1) := by omega
      simp only [value, husage, Counter.ofBytes, hiff, if_neg hlevel, UInt64.zero_add]
  | size level =>
      have hrow : ∀ p, ¬ (MAX_BDEV = bdev ∧ (level : Nat) = p) := fun p => by omega
      simp only [value, husage, Counter.ofBytes, if_neg (hrow _), UInt64.add_zero]
  | files level => rw [value, value, hfiles, Counter.ofBytes, UInt64.add_zero]
  | allFiles => rw [value, value, hfiles, Counter.ofBytes, UInt64.add_zero]

/-- The size of a file and the file itself, in the tables and by counter. -/
theorem value_ofFile (hpos : 0 < hint) {x y : UInt64}
    (husage : ∀ b p, v'.usage b p = v.usage b p + if b = 3 ∧ p = hint - 1 then x else 0)
    (hfiles : ∀ p, v'.perLevelFiles p =
      v.perLevelFiles p + ((if p = hint - 1 then y else 0) + if p = 4 then y else 0))
    (c : Counter) : v'.value c = v.value c + c.ofFile hint x y := by
  have hmax : RDB_LEVEL_MAX = 5 := rfl
  have hfirst : RDB_LEVEL_FIRST = 1 := rfl
  have hlevels : LEVELS - 1 = 4 := rfl
  have hbdevs : MAX_BDEV = 3 := rfl
  cases c with
  | extents dev level =>
      have hdev : ¬ ((dev : Nat) = 3 ∧ (level : Nat) = hint - 1) := by omega
      simp only [value, husage, Counter.ofFile, if_neg hdev]
  | device dev =>
      have hdev : ¬ ((dev : Nat) = 3 ∧ LEVELS - 1 = hint - 1) := by omega
      simp only [value, husage, Counter.ofFile, if_neg hdev]
  | size level =>
      have hiff : (MAX_BDEV = 3 ∧ (level : Nat) = hint - 1) ↔ hint = level + RDB_LEVEL_FIRST := by
        omega
      simp only [value, husage, Counter.ofFile, hiff]
  | files level =>
      have hlevel := level.isLt
      have hiff : (level : Nat) = hint - 1 ↔ hint = level + RDB_LEVEL_FIRST := by omega
      have hlast : ¬ (level : Nat) = 4 := by omega
      simp only [value, hfiles, Counter.ofFile, hiff, if_neg hlast, UInt64.add_zero]
  | allFiles =>
      have hlevel : ¬ LEVELS - 1 = hint - 1 := by omega
      have hlast : LEVELS - 1 = 4 ↔ hint ≠ 0 := by omega
      simp only [value, hfiles, Counter.ofFile, hlast, if_neg hlevel, UInt64.zero_add]

theorem value_addExtent {e : Extent} (he : e.bdev < MAX_BDEV) (c : Counter) :
    (v.addExtent hint e).value c = v.value c + UInt64.ofNat (c.ofBytes hint e.bdev e.length) := by
  rcases Nat.eq_zero_or_pos hint with rfl | hpos
  · rw [Counter.ofBytes_zero]
    exact (UInt64.add_zero _).symm
  · rw [Counter.map_ofBytes (f := UInt64.ofNat) rfl]
    refine value_ofBytes hhint hpos he (v.usage_addExtent hpos e) ?_ c
    unfold addExtent
    rw [if_neg hpos.ne']
    rfl

theorem value_subExtent {e : Extent} (he : e.bdev < MAX_BDEV) (c : Counter) :
    (v.subExtent hint e).value c = v.value c - UInt64.ofNat (c.ofBytes hint e.bdev e.length) := by
  rcases Nat.eq_zero_or_pos hint with rfl | hpos
  · rw [Counter.ofBytes_zero]
    exact (UInt64.sub_zero _).symm
  · rw [UInt64.sub_eq_add_neg, Counter.map_ofBytes (f := fun n => -UInt64.ofNat n) rfl]
    refine value_ofBytes hhint hpos he (v.usage_subExtent hpos e) ?_ c
    unfold subExtent
    rw [if_neg hpos.ne']

/-- `add_usage` of the growth of a file adds it to the size. -/
theorem value_addSize (fsize : Nat) (c : Counter) :
    (v.addSize hint fsize false).value c = v.value c + UInt64.ofNat (c.ofFile hint fsize 0) := by
  rcases Nat.eq_zero_or_pos hint with rfl | hpos
  · rw [Counter.ofFile_zero]
    exact (UInt64.add_zero _).symm
  · rw [Counter.map_ofFile (f := UInt64.ofNat) rfl]
    refine value_ofFile hhint hpos (v.usage_addSize hpos fsize false) (fun p => ?_) c
    rw [v.perLevelFiles_addSize hpos]
    simp

/-- `add_usage` of a file adds what it counts for. -/
theorem value_addUsage {fnode : Fnode} (hes : hint ≠ 0 → OnDevices fnode.extents) (c : Counter) :
    (v.addUsage hint fnode).value c = v.value c + UInt64.ofNat (c.weight hint fnode) := by
  rcases Nat.eq_zero_or_pos hint with rfl | hpos
  · rw [addUsage_zero, Counter.weight_zero]
    exact (UInt64.add_zero _).symm
  have hextents : ∀ (es : List Extent) (v : RocksDBBlueFSVolumeSelector),
      (∀ e ∈ es, e.bdev < MAX_BDEV) → (es.foldl (fun v e => v.addExtent hint e) v).value c =
        v.value c + UInt64.ofNat (total (fun e => c.ofBytes hint e.bdev e.length) es) := by
    intro es
    induction es with
    | nil => exact fun v _ => (UInt64.add_zero _).symm
    | cons e es ih =>
        intro v hes
        rw [List.foldl_cons, ih _ fun x hx => hes x (by simp [hx]),
          value_addExtent hhint (hes e (by simp)), total_cons, UInt64.ofNat_add, UInt64.add_assoc]
  have hsize : ∀ v : RocksDBBlueFSVolumeSelector, (v.addSize hint fnode.size true).value c =
      v.value c + UInt64.ofNat (c.ofFile hint fnode.size 1) := by
    intro v
    rw [Counter.map_ofFile (f := UInt64.ofNat) rfl]
    exact value_ofFile hhint hpos (v.usage_addSize hpos fnode.size true)
      (fun p => v.perLevelFiles_addSize hpos fnode.size p true) c
  unfold addUsage Counter.weight
  rw [hsize, hextents _ _ (hes hpos.ne'), UInt64.ofNat_add, UInt64.add_assoc]

/-- `sub_usage` of a file takes off what it counts for. -/
theorem value_subUsage {fnode : Fnode} (hes : hint ≠ 0 → OnDevices fnode.extents) (c : Counter) :
    (v.subUsage hint fnode).value c = v.value c - UInt64.ofNat (c.weight hint fnode) := by
  rcases Nat.eq_zero_or_pos hint with rfl | hpos
  · rw [subUsage_zero, Counter.weight_zero]
    exact (UInt64.sub_zero _).symm
  have hextents : ∀ (es : List Extent) (v : RocksDBBlueFSVolumeSelector),
      (∀ e ∈ es, e.bdev < MAX_BDEV) → (es.foldl (fun v e => v.subExtent hint e) v).value c =
        v.value c - UInt64.ofNat (total (fun e => c.ofBytes hint e.bdev e.length) es) := by
    intro es
    induction es with
    | nil => exact fun v _ => (UInt64.sub_zero _).symm
    | cons e es ih =>
        intro v hes
        rw [List.foldl_cons, ih _ fun x hx => hes x (by simp [hx]),
          value_subExtent hhint (hes e (by simp)), total_cons, UInt64.ofNat_add]
        grind
  have hsize : ∀ v : RocksDBBlueFSVolumeSelector, (v.subSize hint fnode.size true).value c =
      v.value c - UInt64.ofNat (c.ofFile hint fnode.size 1) := by
    intro v
    rw [UInt64.sub_eq_add_neg, Counter.map_ofFile (f := fun n => -UInt64.ofNat n) rfl]
    exact value_ofFile hhint hpos (v.usage_subSize hpos fnode.size true)
      (fun p => v.perLevelFiles_subSize hpos fnode.size p true) c
  unfold subUsage Counter.weight
  rw [hsize, hextents _ _ (hes hpos.ne'), UInt64.ofNat_add]
  grind

end Values

end RocksDBBlueFSVolumeSelector

end Clab.Bluefs
