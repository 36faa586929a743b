import Clab.Btier.Engine

/-!
# The migration engine

`migrate_tier` copies an extent to another tier and moves its entry; `compact`
copies the live values of an extent into a new one and moves the keys. Both run
here from start to end without a client in between.
-/

namespace Clab.Btier.Engine

open Clab.Blk

variable {A : Type}

/-- `abort_migration`. -/
def abort (s : Engine A) (h : MigrationHandle) : Engine A :=
  { s with extentMap := s.extentMap.abortMigration h }

/-- `release_source`. -/
def releaseSource (s : Engine A) (loc : DiskLocation) : Engine A :=
  { s with extentMap := s.extentMap.releaseSource loc }

/-- `ExtentMap::free`. -/
def freeExtent (s : Engine A) (extentId : Nat) : Engine A :=
  { s with extentMap := s.extentMap.free extentId }

def countIoError (s : Engine A) : Engine A :=
  { s with stats := { s.stats with ioErrors := s.stats.ioErrors + 1 } }

def countInterruption (s : Engine A) : Engine A :=
  { s with stats := { s.stats with interruptions := s.stats.interruptions + 1 } }

def countCompaction (s : Engine A) : Engine A :=
  { s with stats := { s.stats with compactionsCommitted := s.stats.compactionsCommitted + 1 } }

/-- The counter of a committed migration; none for a migration inside a tier. -/
def countMigration (s : Engine A) (src dst : Tier) : Engine A :=
  match src, dst with
  | .SLOW, .FAST =>
      { s with stats := { s.stats with promotionsCommitted := s.stats.promotionsCommitted + 1 } }
  | .FAST, .SLOW =>
      { s with stats := { s.stats with demotionsCommitted := s.stats.demotionsCommitted + 1 } }
  | _, _ => s

/-! ## Tier migration -/

/-- Step 2 of `migrate_tier`: commit or abort. -/
def commitCopy (s : Engine A) (h : MigrationHandle) (dstLoc : DiskLocation) (src dst : Tier) :
    MigrationResult × Engine A :=
  match s.extentMap.commitMigration h dstLoc with
  | (true, em) => (.COMMITTED, { s with extentMap := em }.countMigration src dst)
  | (false, em) =>
      (.INTERRUPTED, (({ s with extentMap := em }.abort h).releaseSource dstLoc).countInterruption)

/-- The write to the device of the tier asked for, and step 2. -/
def writeCopy (s : Engine A) (h : MigrationHandle) (dstLoc : DiskLocation) (src dst : Tier)
    (data : List Byte) : MigrationResult × Engine A :=
  let (r, d) := (s.dev dst).write dstLoc.offset data true
  let s := s.setDev dst d
  if r < 0 then (.FAILED, ((s.abort h).releaseSource dstLoc).countIoError)
  else s.commitCopy h dstLoc src dst

/-- `migrate_tier` after a successful `begin_migration`. -/
def migrateClaimed [Allocator A] (s : Engine A) (h : MigrationHandle) (src dst : Tier) :
    MigrationResult × Engine A :=
  let (r, data, d) := (s.dev src).read h.srcLoc.offset h.srcLoc.length true
  let s := s.setDev src d
  if r < 0 then (.FAILED, (s.abort h).countIoError)
  else
    match s.extentMap.allocateRaw s.alloc dst h.srcLoc.length with
    | (none, al) => (.FAILED, { s with alloc := al }.abort h)
    | (some dstLoc, al) => { s with alloc := al }.writeCopy h dstLoc src dst data

/-- `migrate_tier`. -/
def migrateTier [Allocator A] (s : Engine A) (extentId : Nat) (src dst : Tier) :
    MigrationResult × Engine A :=
  match s.extentMap.beginMigration extentId with
  | (none, em) => (.INTERRUPTED, { s with extentMap := em })
  | (some h, em) => { s with extentMap := em }.migrateClaimed h src dst

/-! ## Compaction -/

/-- Copy one value: read it, append a slot to the new extent and write it there,
on the device of the source extent's tier. -/
def copyKey (s : Engine A) (h : MigrationHandle) (newId : Nat) (newLoc : DiskLocation)
    (key : Key) : Option (Key × KeyLocation) × Engine A :=
  let old := (s.keyMap.lookup key).getD {}
  let (r, value, d) :=
    (s.dev h.srcLoc.tier).read (h.srcLoc.offset + HEADER_SIZE + old.offset) old.length true
  let s := s.setDev h.srcLoc.tier d
  if r < 0 then (none, s.countIoError)
  else
    let (off, em) := s.extentMap.appendSlot newId old.length
    let s := { s with extentMap := em }
    if off = UINT32_MAX then (none, s)
    else
      let (r, d) := (s.dev h.srcLoc.tier).write (newLoc.offset + HEADER_SIZE + off) value true
      let s := s.setDev h.srcLoc.tier d
      if r < 0 then (none, s.countIoError) else (some (key, ⟨newId, off, old.length⟩), s)

/-- The copying loop; `none` when it stops at an error. -/
def copyKeys (h : MigrationHandle) (newId : Nat) (newLoc : DiskLocation) :
    List Key → Engine A → Option (List (Key × KeyLocation)) × Engine A
  | [], s => (some [], s)
  | key :: rest, s =>
      match s.copyKey h newId newLoc key with
      | (none, s) => (none, s)
      | (some update, s) =>
          match copyKeys h newId newLoc rest s with
          | (none, s) => (none, s)
          | (some updates, s) => (some (update :: updates), s)

/-- Step 2 of `compact`: verify, then move the keys and free the old extent. -/
def commitKeys (s : Engine A) (h : MigrationHandle) (newId : Nat)
    (updates : List (Key × KeyLocation)) : MigrationResult × Engine A :=
  if s.extentMap.checkMigration h then
    (.COMMITTED,
      ({ s with keyMap := s.keyMap.batchUpdate updates }.freeExtent h.extentId).countCompaction)
  else (.INTERRUPTED, ((s.abort h).freeExtent newId).countInterruption)

/-- `compact` of a claimed extent with keys. -/
def compactClaimed [Allocator A] (s : Engine A) (h : MigrationHandle) (keys : List Key) :
    MigrationResult × Engine A :=
  let (res, em, al, dev) :=
    s.extentMap.allocateExtent s.alloc s.dev h.srcLoc.tier h.srcLoc.length
  let s := { s with extentMap := em, alloc := al, dev := dev }
  match res with
  | none => (.FAILED, s.abort h)
  | some (newId, newLoc) =>
      match copyKeys h newId newLoc keys s with
      | (none, s) => (.FAILED, (s.abort h).freeExtent newId)
      | (some updates, s) => s.commitKeys h newId updates

/-- `compact`. -/
def compact [Allocator A] (s : Engine A) (extentId : Nat) : MigrationResult × Engine A :=
  match s.extentMap.beginMigration extentId with
  | (none, em) => (.INTERRUPTED, { s with extentMap := em })
  | (some h, em) =>
      let s := { s with extentMap := em }
      match s.keyMap.keysInExtent extentId with
      | [] => (.COMMITTED, (s.freeExtent extentId).countCompaction)
      | keys => s.compactClaimed h keys

end Clab.Btier.Engine
