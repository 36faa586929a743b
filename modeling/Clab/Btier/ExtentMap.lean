import Clab.Blk.Allocator
import Clab.Blk.BlockDevice
import Clab.Btier.JournalRecord
import Mathlib

/-!
# The extent map

Extents, their slots, the per-tier free lists, the deferred-free list and the
migration handles of `ExtentMap`. Each method is one function on the state;
those that reach an allocator or a device take and return it.
-/

namespace Clab.Btier

open Clab.Blk Clab.Codec Clab.Common

/-- `ExtentEntry`. -/
structure ExtentEntry where
  metrics : ExtentMetrics := {}
  lastAccessTime : Nat := 0
  location : DiskLocation
  usedBytes : Nat := 0
  liveBytes : Nat := 0
  ioRefs : Nat := 0
  deriving DecidableEq, Repr

/-- `ExtentFreeEntry`, ordered by free bytes and then by id. -/
structure ExtentFreeEntry where
  freeBytes : Nat
  extentId : Nat
  deriving DecidableEq, Repr

def ExtentFreeEntry.lt (a b : ExtentFreeEntry) : Bool :=
  a.freeBytes < b.freeBytes || (a.freeBytes == b.freeBytes && a.extentId < b.extentId)

/-- `std::set::insert` on a sorted list. -/
def freeListInsert (x : ExtentFreeEntry) : List ExtentFreeEntry → List ExtentFreeEntry
  | [] => [x]
  | y :: ys =>
      if x = y then y :: ys
      else if x.lt y then x :: y :: ys
      else y :: freeListInsert x ys

/-- `DeferredFreeEntry`. -/
structure DeferredFreeEntry where
  loc : DiskLocation
  addedAtSeqno : Nat
  deriving DecidableEq, Repr

/-- `ExtentMap::Impl`. -/
structure ExtentMap where
  blockSize : Nat
  extentSize : Nat
  entries : AList (fun _ : Nat => ExtentEntry) := ∅
  nextExtentId : Nat := 1
  freeLists : Tier → List ExtentFreeEntry := fun _ => []
  deferredFree : List DeferredFreeEntry := []
  seqno : Nat := 0
  dirtyHeaders : List Nat := []

/-- `ExtentMap::MigrationHandle`. -/
structure MigrationHandle where
  extentId : Nat
  srcLoc : DiskLocation
  genBefore : Nat
  deriving DecidableEq, Repr

/-- `ExtentMap::SnapshotEntry`. -/
structure SnapshotEntry where
  extentId : Nat
  location : DiskLocation
  rawMetrics : ExtentMetrics
  lastAccessTime : Nat
  usedBytes : Nat
  liveBytes : Nat
  deriving DecidableEq, Repr

/-! ## Extent headers -/

/-- `ExtentHeader::MAGIC`. -/
def extentHeaderMagic : Nat := 0x4254494552535445

/-- The header bytes covered by the checksum. -/
def headerPrefix (extentId length usedBytes liveBytes generation : Nat) : List Byte :=
  putU64 extentHeaderMagic ++ putU64 extentId ++ putU32 length ++ putU32 usedBytes ++
    putU32 liveBytes ++ putU32 0 ++ putU64 generation

/-- The 4096 bytes of a header. -/
def headerBytes (extentId length usedBytes liveBytes generation : Nat) : List Byte :=
  let pre := headerPrefix extentId length usedBytes liveBytes generation
  pre ++ putU32 (calcCrc32 pre 0).toNat ++ List.replicate 4052 0

theorem headerBytes_length (extentId length usedBytes liveBytes generation : Nat) :
    (headerBytes extentId length usedBytes liveBytes generation).length = HEADER_SIZE := by
  unfold headerBytes headerPrefix putU64 putU32 HEADER_SIZE
  simp only [List.length_append, leBytes_length, List.length_replicate]

/-- The check recovery makes on a header block: the magic number is there and
the checksum is wrong. -/
def headerCorrupt (hdr : List Byte) : Bool :=
  leNat (hdr.take 8) == extentHeaderMagic &&
    leNat ((hdr.drop 40).take 4) != (calcCrc32 (hdr.take 40) 0).toNat

namespace ExtentMap

def lookup (em : ExtentMap) (extentId : Nat) : Option ExtentEntry :=
  em.entries.lookup extentId

def markDirty (em : ExtentMap) (extentId : Nat) : ExtentMap :=
  { em with dirtyHeaders := em.dirtyHeaders.insert extentId }

/-- Replace an existing entry. -/
def setEntry (em : ExtentMap) (extentId : Nat) (e : ExtentEntry) : ExtentMap :=
  { em with entries := em.entries.insert extentId e }

/-- `bump_generation`. -/
def bumpGeneration (e : ExtentEntry) : ExtentEntry :=
  let m := e.metrics
  { e with
    metrics := .pack m.accessCount m.writeCount m.randomness m.state (m.generation + 1) }

def addDeferredFree (em : ExtentMap) (loc : DiskLocation) : ExtentMap :=
  { em with deferredFree := em.deferredFree ++ [{ loc, addedAtSeqno := em.seqno }] }

/-- `update_free_list`. -/
def updateFreeList (em : ExtentMap) (extentId : Nat) (tier : Tier)
    (oldFree newFree : Nat) : ExtentMap :=
  let list := (em.freeLists tier).erase ⟨oldFree, extentId⟩
  { em with
    freeLists := Function.update em.freeLists tier (freeListInsert ⟨newFree, extentId⟩ list) }

/-- `location.length - HEADER_SIZE`, in 32 bits. -/
def capacity (loc : DiskLocation) : Nat := sub32 loc.length HEADER_SIZE

theorem capacity_lt (loc : DiskLocation) : capacity loc < 2 ^ 32 := by
  unfold capacity sub32
  omega

/-! ## Lookups and slots -/

/-- `get_location`. -/
def getLocation (em : ExtentMap) (extentId : Nat) : Option DiskLocation :=
  (em.lookup extentId).map ExtentEntry.location

/-- `record_io`, run without interference. -/
def recordIo (em : ExtentMap) (extentId : Nat) (op : IoOp) (now : Nat) : ExtentMap :=
  match em.lookup extentId with
  | none => em
  | some e =>
      let m := e.metrics
      let newWrite := if op = .WRITE then min (m.writeCount + 1) 4095 else m.writeCount
      let newAccess := min (m.accessCount + 1) 4095
      em.setEntry extentId { e with
        lastAccessTime := now
        metrics := .pack newAccess newWrite m.randomness m.state m.generation }

/-- `find_extent_with_space`: the first ACTIVE extent from `lower_bound` on. -/
def findExtentWithSpace (em : ExtentMap) (tier : Tier) (neededBytes : Nat) : Nat :=
  let candidates := (em.freeLists tier).filter fun f => !f.lt ⟨neededBytes, 0⟩
  match candidates.find? fun f =>
      match em.lookup f.extentId with
      | none => false
      | some e => e.metrics.state = .ACTIVE with
  | some f => f.extentId
  | none => UINT64_MAX

/-- `append_slot`. -/
def appendSlot (em : ExtentMap) (extentId size : Nat) : Nat × ExtentMap :=
  match em.lookup extentId with
  | none => (UINT32_MAX, em)
  | some e =>
      if e.metrics.state ≠ .ACTIVE then (UINT32_MAX, em)
      else
        let cap := capacity e.location
        if u32 (e.usedBytes + size) > cap then (UINT32_MAX, em)
        else
          let oldFree := sub32 cap e.usedBytes
          let e' := bumpGeneration { e with
            usedBytes := u32 (e.usedBytes + size)
            liveBytes := u32 (e.liveBytes + size) }
          let newFree := sub32 cap e'.usedBytes
          (e.usedBytes, ((em.setEntry extentId e').markDirty extentId).updateFreeList extentId
            e.location.tier oldFree newFree)

/-- `mark_dead_slot`. -/
def markDeadSlot (em : ExtentMap) (extentId length : Nat) : ExtentMap :=
  match em.lookup extentId with
  | none => em
  | some e =>
      let free := sub32 (capacity e.location) e.usedBytes
      let e' := bumpGeneration { e with liveBytes := e.liveBytes - length }
      ((em.setEntry extentId e').markDirty extentId).updateFreeList extentId
        e.location.tier free free

/-- `get_live_bytes`. -/
def getLiveBytes (em : ExtentMap) (extentId : Nat) : Nat :=
  ((em.lookup extentId).map ExtentEntry.liveBytes).getD 0

/-- `get_used_bytes`. -/
def getUsedBytes (em : ExtentMap) (extentId : Nat) : Nat :=
  ((em.lookup extentId).map ExtentEntry.usedBytes).getD 0

/-! ## Allocation -/

/-- The size asked of the allocator. -/
def alignedSize (em : ExtentMap) (size : Nat) : Nat :=
  if roundUpTo size em.blockSize = 0 then em.blockSize else roundUpTo size em.blockSize

/-- The allocator calls of `allocate_extent` and `allocate_raw`: the tier asked
for, then SLOW when FAST has no room. Only the first extent is kept. -/
def allocateOn {A : Type} [Allocator A] (em : ExtentMap) (alloc : Tier → A) (size : Nat)
    (tier : Tier) : Option DiskLocation × (Tier → A) :=
  let want := em.alignedSize size
  let (got, extents, a) := Allocator.allocate (alloc tier) want em.blockSize want 0
  let alloc := Function.update alloc tier a
  match extents with
  | e :: _ =>
      if got < want then (none, alloc)
      else (some { offset := e.offset, length := u32 e.length, tier }, alloc)
  | [] => (none, alloc)

/-- `allocate_raw`. -/
def allocateRaw {A : Type} [Allocator A] (em : ExtentMap) (alloc : Tier → A) (tier : Tier)
    (size : Nat) : Option DiskLocation × (Tier → A) :=
  match em.allocateOn alloc size tier with
  | (some loc, alloc) => (some loc, alloc)
  | (none, alloc) =>
      if tier = .FAST then em.allocateOn alloc size .SLOW else (none, alloc)

/-- Enter a new extent into the map and the free list of its tier. -/
def addEntry (em : ExtentMap) (extentId : Nat) (loc : DiskLocation) : ExtentMap :=
  let list := freeListInsert ⟨capacity loc, extentId⟩ (em.freeLists loc.tier)
  { em with
    entries := em.entries.insert extentId { location := loc }
    freeLists := Function.update em.freeLists loc.tier list }

/-- `allocate_extent`; the result of the header write is ignored. -/
def allocateExtent {A : Type} [Allocator A] (em : ExtentMap) (alloc : Tier → A)
    (dev : Tier → BlockDevice) (tier : Tier) (size : Nat) :
    Option (Nat × DiskLocation) × ExtentMap × (Tier → A) × (Tier → BlockDevice) :=
  match em.allocateRaw alloc tier size with
  | (none, alloc) => (none, em, alloc, dev)
  | (some loc, alloc) =>
      let id := em.nextExtentId
      let em := addEntry { em with nextExtentId := id + 1 } id loc
      let (_, d) := (dev loc.tier).write loc.offset (headerBytes id loc.length 0 0 0) false
      (some (id, loc), em, alloc, Function.update dev loc.tier d)

/-! ## Migration handles -/

/-- `begin_migration`. -/
def beginMigration (em : ExtentMap) (extentId : Nat) : Option MigrationHandle × ExtentMap :=
  match em.lookup extentId with
  | none => (none, em)
  | some e =>
      if e.metrics.state ≠ .ACTIVE then (none, em)
      else
        let m := e.metrics
        (some { extentId, srcLoc := e.location, genBefore := m.generation },
          em.setEntry extentId { e with
            metrics := .pack m.accessCount m.writeCount m.randomness .MIGRATING m.generation })

/-- `commit_migration`. -/
def commitMigration (em : ExtentMap) (h : MigrationHandle) (newLoc : DiskLocation) :
    Bool × ExtentMap :=
  match em.lookup h.extentId with
  | none => (false, em)
  | some e =>
      if e.metrics.generation ≠ h.genBefore then (false, em)
      else
        let m := e.metrics
        let em := em.setEntry h.extentId { e with
          location := newLoc
          metrics := .pack m.accessCount m.writeCount m.randomness .ACTIVE (h.genBefore + 1) }
        (true, (em.addDeferredFree e.location).markDirty h.extentId)

/-- `abort_migration`. -/
def abortMigration (em : ExtentMap) (h : MigrationHandle) : ExtentMap :=
  match em.lookup h.extentId with
  | none => em
  | some e =>
      if e.metrics.state ≠ .MIGRATING then em
      else
        let m := e.metrics
        em.setEntry h.extentId { e with
          metrics := .pack m.accessCount m.writeCount m.randomness .ACTIVE m.generation }

/-- `check_migration`. -/
def checkMigration (em : ExtentMap) (h : MigrationHandle) : Bool :=
  match em.lookup h.extentId with
  | none => false
  | some e => e.metrics.generation = h.genBefore

/-- `release_source`. -/
def releaseSource (em : ExtentMap) (loc : DiskLocation) : ExtentMap := em.addDeferredFree loc

/-! ## Lifecycle -/

/-- `free`. -/
def free (em : ExtentMap) (extentId : Nat) : ExtentMap :=
  match em.lookup extentId with
  | none => em
  | some e =>
      let oldFree := sub32 (capacity e.location) e.usedBytes
      let list := (em.freeLists e.location.tier).erase ⟨oldFree, extentId⟩
      let em := { em with
        entries := em.entries.erase extentId
        freeLists := Function.update em.freeLists e.location.tier list }
      addDeferredFree em e.location

/-- `process_deferred_free`: entries two generations old go back to their
allocator. -/
def processDeferredFree {A : Type} [Allocator A] (em : ExtentMap) (alloc : Tier → A) :
    ExtentMap × (Tier → A) :=
  let due := em.deferredFree.filter fun d => em.seqno - d.addedAtSeqno ≥ 2
  let kept := em.deferredFree.filter fun d => !(em.seqno - d.addedAtSeqno ≥ 2)
  ({ em with seqno := em.seqno + 1, deferredFree := kept },
    due.foldl (fun al d => Function.update al d.loc.tier
      (Allocator.release (al d.loc.tier) [⟨d.loc.offset, d.loc.length⟩])) alloc)

/-- `clear_deferred_free`. -/
def clearDeferredFree (em : ExtentMap) : ExtentMap := { em with deferredFree := [] }

/-- `snapshot`. -/
def snapshot (em : ExtentMap) : List SnapshotEntry :=
  em.entries.entries.map fun s =>
    { extentId := s.1, location := s.2.location, rawMetrics := s.2.metrics
      lastAccessTime := s.2.lastAccessTime, usedBytes := s.2.usedBytes
      liveBytes := s.2.liveBytes }

/-! ## Recovery helpers -/

/-- `create_entry_from_journal`. -/
def createEntryFromJournal (em : ExtentMap) (extentId : Nat) (loc : DiskLocation) :
    ExtentMap :=
  let next := if extentId ≥ em.nextExtentId then extentId + 1 else em.nextExtentId
  addEntry { em with nextExtentId := next } extentId loc

/-- `restore_extent_state`. -/
def restoreExtentState (em : ExtentMap) (extentId usedBytes liveBytes : Nat) : ExtentMap :=
  match em.lookup extentId with
  | none => em
  | some e =>
      let cap := capacity e.location
      ((em.setEntry extentId { e with usedBytes, liveBytes }).updateFreeList extentId
        e.location.tier (sub32 cap e.usedBytes) (sub32 cap usedBytes)).markDirty extentId

/-! ## Lookup after each update -/

@[simp] theorem lookup_markDirty (em : ExtentMap) (id i : Nat) :
    (em.markDirty id).lookup i = em.lookup i := rfl

@[simp] theorem lookup_updateFreeList (em : ExtentMap) (id : Nat) (t : Tier) (o n i : Nat) :
    (em.updateFreeList id t o n).lookup i = em.lookup i := rfl

@[simp] theorem lookup_addDeferredFree (em : ExtentMap) (loc : DiskLocation) (i : Nat) :
    (em.addDeferredFree loc).lookup i = em.lookup i := rfl

@[simp] theorem lookup_setEntry (em : ExtentMap) (id : Nat) (e : ExtentEntry) (i : Nat) :
    (em.setEntry id e).lookup i = if i = id then some e else em.lookup i := by
  by_cases hi : i = id
  · subst hi
    simp [lookup, setEntry]
  · simp [lookup, setEntry, AList.lookup_insert_ne hi, hi]

@[simp] theorem lookup_addEntry (em : ExtentMap) (id : Nat) (loc : DiskLocation) (i : Nat) :
    (em.addEntry id loc).lookup i = if i = id then some { location := loc } else em.lookup i := by
  by_cases hi : i = id
  · subst hi
    simp [lookup, addEntry]
  · simp [lookup, addEntry, AList.lookup_insert_ne hi, hi]

@[simp] theorem lookup_free (em : ExtentMap) (id i : Nat) :
    (em.free id).lookup i = if i = id then none else em.lookup i := by
  unfold free
  cases hl : em.lookup id with
  | none =>
      by_cases hi : i = id
      · subst hi
        simp [hl]
      · simp [hi]
  | some e =>
      by_cases hi : i = id
      · subst hi
        simp [lookup, addDeferredFree]
      · simp [lookup, addDeferredFree, AList.lookup_erase_ne hi, hi]

@[simp] theorem lookup_createEntryFromJournal (em : ExtentMap) (id : Nat)
    (loc : DiskLocation) (i : Nat) :
    (em.createEntryFromJournal id loc).lookup i =
      if i = id then some { location := loc } else em.lookup i :=
  lookup_addEntry _ id loc i

@[simp] theorem lookup_restoreExtentState (em : ExtentMap) (id used live i : Nat) :
    (em.restoreExtentState id used live).lookup i =
      if i = id then (em.lookup id).map fun e => { e with usedBytes := used, liveBytes := live }
      else em.lookup i := by
  unfold restoreExtentState
  cases hl : em.lookup id with
  | none =>
      by_cases hi : i = id
      · subst hi
        simp [hl]
      · simp [hi]
  | some e => simp

@[simp] theorem lookup_markDeadSlot (em : ExtentMap) (id len i : Nat) :
    (em.markDeadSlot id len).lookup i =
      if i = id then
        (em.lookup id).map fun e => bumpGeneration { e with liveBytes := e.liveBytes - len }
      else em.lookup i := by
  unfold markDeadSlot
  cases hl : em.lookup id with
  | none =>
      by_cases hi : i = id
      · subst hi
        simp [hl]
      · simp [hi]
  | some e => simp

/-- `record_io` touches the metrics and the access time alone. -/
theorem lookup_recordIo (em : ExtentMap) (id : Nat) (op : IoOp) (now i : Nat) {e' : ExtentEntry}
    (h : (em.recordIo id op now).lookup i = some e') :
    ∃ e, em.lookup i = some e ∧ e'.usedBytes = e.usedBytes ∧ e'.liveBytes = e.liveBytes ∧
      e'.location = e.location := by
  unfold recordIo at h
  cases hl : em.lookup id with
  | none =>
      simp only [hl] at h
      exact ⟨e', h, rfl, rfl, rfl⟩
  | some e =>
      simp only [hl, lookup_setEntry] at h
      split at h
      · rename_i hi
        cases h
        exact ⟨e, hi ▸ hl, rfl, rfl, rfl⟩
      · exact ⟨e', h, rfl, rfl, rfl⟩

@[simp] theorem bumpGeneration_usedBytes (e : ExtentEntry) :
    (bumpGeneration e).usedBytes = e.usedBytes := rfl

@[simp] theorem bumpGeneration_location (e : ExtentEntry) :
    (bumpGeneration e).location = e.location := rfl

/-! ## The next extent id -/

@[simp] theorem nextExtentId_free (em : ExtentMap) (id : Nat) :
    (em.free id).nextExtentId = em.nextExtentId := by
  unfold free
  split <;> rfl

@[simp] theorem nextExtentId_markDeadSlot (em : ExtentMap) (id len : Nat) :
    (em.markDeadSlot id len).nextExtentId = em.nextExtentId := by
  unfold markDeadSlot
  split <;> rfl

@[simp] theorem nextExtentId_recordIo (em : ExtentMap) (id : Nat) (op : IoOp) (now : Nat) :
    (em.recordIo id op now).nextExtentId = em.nextExtentId := by
  unfold recordIo
  split <;> rfl

@[simp] theorem nextExtentId_restoreExtentState (em : ExtentMap) (id used live : Nat) :
    (em.restoreExtentState id used live).nextExtentId = em.nextExtentId := by
  unfold restoreExtentState
  split <;> rfl

/-! ## What the allocating operations do -/

/-- `append_slot` fails and changes nothing, or grows the used and live bytes of
an active extent by `size` and returns the old used bytes. -/
theorem appendSlot_cases {em em' : ExtentMap} {id size off : Nat}
    (h : em.appendSlot id size = (off, em')) :
    (off = UINT32_MAX ∧ em' = em) ∨
      ∃ e e', em.lookup id = some e ∧ e.metrics.state = .ACTIVE ∧
        u32 (e.usedBytes + size) ≤ capacity e.location ∧ off = e.usedBytes ∧
        e'.usedBytes = u32 (e.usedBytes + size) ∧ e'.liveBytes = u32 (e.liveBytes + size) ∧
        e'.location = e.location ∧ e'.metrics.state = .ACTIVE ∧
        em'.nextExtentId = em.nextExtentId ∧
        ∀ i, em'.lookup i = if i = id then some e' else em.lookup i := by
  unfold appendSlot at h
  cases hl : em.lookup id with
  | none =>
      simp only [hl] at h
      cases h
      exact .inl ⟨rfl, rfl⟩
  | some e =>
      simp only [hl] at h
      split at h
      · cases h
        exact .inl ⟨rfl, rfl⟩
      · rename_i hact
        split at h
        · cases h
          exact .inl ⟨rfl, rfl⟩
        · rename_i hfit
          cases h
          refine .inr ⟨e, bumpGeneration { e with
            usedBytes := u32 (e.usedBytes + size), liveBytes := u32 (e.liveBytes + size) },
            rfl, not_not.mp hact, by omega, rfl, rfl, rfl, rfl, not_not.mp hact, rfl, fun i => ?_⟩
          rw [lookup_updateFreeList, lookup_markDirty, lookup_setEntry]

/-- `allocate_extent` fails where `allocate_raw` does and changes no entry, or
enters a new extent there under the next id and writes its header. -/
theorem allocateExtent_cases {A : Type} [Allocator A] {em em' : ExtentMap} {alloc al : Tier → A}
    {dev d : Tier → BlockDevice} {tier : Tier} {size : Nat} {res : Option (Nat × DiskLocation)}
    (h : em.allocateExtent alloc dev tier size = (res, em', al, d)) :
    (res = none ∧ em' = em ∧ d = dev ∧ (em.allocateRaw alloc tier size).1 = none) ∨
      ∃ loc, res = some (em.nextExtentId, loc) ∧
        em' = addEntry { em with nextExtentId := em.nextExtentId + 1 } em.nextExtentId loc ∧
        (em.allocateRaw alloc tier size).1 = some loc ∧
        d = Function.update dev loc.tier
          ((dev loc.tier).write loc.offset (headerBytes em.nextExtentId loc.length 0 0 0) false).2 := by
  unfold allocateExtent at h
  generalize hraw : em.allocateRaw alloc tier size = out at h
  obtain ⟨space, al'⟩ := out
  cases space with
  | none =>
      cases h
      exact .inl ⟨rfl, rfl, rfl, rfl⟩
  | some loc =>
      cases h
      exact .inr ⟨loc, rfl, rfl, rfl, rfl⟩

theorem allocateOn_length {A : Type} [Allocator A] {em : ExtentMap} {alloc al : Tier → A}
    {size : Nat} {tier : Tier} {loc : DiskLocation}
    (h : em.allocateOn alloc size tier = (some loc, al)) : loc.length < 2 ^ 32 := by
  unfold allocateOn at h
  dsimp only at h
  split at h
  · split at h
    · cases h
    · cases h
      exact u32_lt _
  · cases h

/-- An allocated length fits `uint32_t`. -/
theorem allocateRaw_length {A : Type} [Allocator A] {em : ExtentMap} {alloc : Tier → A}
    {tier : Tier} {size : Nat} {loc : DiskLocation}
    (h : (em.allocateRaw alloc tier size).1 = some loc) : loc.length < 2 ^ 32 := by
  unfold allocateRaw at h
  generalize hon : em.allocateOn alloc size tier = out at h
  obtain ⟨space, al⟩ := out
  cases space with
  | some l =>
      cases h
      exact allocateOn_length hon
  | none =>
      dsimp only at h
      split at h
      · exact allocateOn_length (Prod.ext h rfl)
      · cases h

/-! ## What the migration handles do -/

/-- `begin_migration` claims an ACTIVE extent, or does nothing. -/
theorem beginMigration_cases {em em' : ExtentMap} {id : Nat} {h : Option MigrationHandle}
    (hb : em.beginMigration id = (h, em')) :
    (h = none ∧ em' = em ∧ ∀ e, em.lookup id = some e → e.metrics.state ≠ .ACTIVE) ∨
      ∃ e e', em.lookup id = some e ∧ e.metrics.state = .ACTIVE ∧
        h = some { extentId := id, srcLoc := e.location, genBefore := e.metrics.generation } ∧
        e'.location = e.location ∧ e'.metrics.generation = e.metrics.generation % 2 ^ 32 ∧
        em' = em.setEntry id e' := by
  unfold beginMigration at hb
  cases he : em.lookup id with
  | none =>
      simp only [he] at hb
      cases hb
      exact .inl ⟨rfl, rfl, fun e h => by cases h⟩
  | some e =>
      simp only [he] at hb
      split at hb
      · rename_i hst
        cases hb
        exact .inl ⟨rfl, rfl, fun e' h => by cases h; exact hst⟩
      · rename_i hst
        cases hb
        refine .inr ⟨e, { e with
          metrics := .pack e.metrics.accessCount e.metrics.writeCount e.metrics.randomness
            .MIGRATING e.metrics.generation }, rfl, not_not.mp hst, rfl, rfl, rfl, rfl⟩

@[simp] theorem getLocation_addDeferredFree (em : ExtentMap) (loc : DiskLocation) (i : Nat) :
    (em.addDeferredFree loc).getLocation i = em.getLocation i := rfl

@[simp] theorem getLocation_releaseSource (em : ExtentMap) (loc : DiskLocation) (i : Nat) :
    (em.releaseSource loc).getLocation i = em.getLocation i := rfl

@[simp] theorem getLocation_free (em : ExtentMap) (id i : Nat) :
    (em.free id).getLocation i = if i = id then none else em.getLocation i := by
  unfold getLocation
  rw [lookup_free]
  split <;> rfl

theorem getLocation_setEntry (em : ExtentMap) (id : Nat) (e : ExtentEntry) (i : Nat) :
    (em.setEntry id e).getLocation i = if i = id then some e.location else em.getLocation i := by
  unfold getLocation
  rw [lookup_setEntry]
  split <;> rfl

/-- Changing an entry but not its location moves nothing. -/
theorem getLocation_setEntry_same {em : ExtentMap} {id : Nat} {e e' : ExtentEntry}
    (he : em.lookup id = some e) (hl : e'.location = e.location) (i : Nat) :
    (em.setEntry id e').getLocation i = em.getLocation i := by
  rw [getLocation_setEntry]
  split
  · rename_i hi
    rw [hi, getLocation, he, hl]
    rfl
  · rfl

@[simp] theorem getLocation_abortMigration (em : ExtentMap) (h : MigrationHandle) (i : Nat) :
    (em.abortMigration h).getLocation i = em.getLocation i := by
  unfold abortMigration
  split
  · rfl
  · rename_i e he
    split
    · rfl
    · dsimp only
      rw [getLocation_setEntry_same he (by rfl)]

/-- `commit_migration` fails and changes nothing, or moves an extent whose
generation is the handle's and defers the release of its old place. -/
theorem commitMigration_spec {em em' : ExtentMap} {h : MigrationHandle} {loc : DiskLocation}
    {ok : Bool} (hc : em.commitMigration h loc = (ok, em')) :
    (ok = false ∧ em' = em ∧
        ∀ e, em.lookup h.extentId = some e → e.metrics.generation ≠ h.genBefore) ∨
      ∃ e e', em.lookup h.extentId = some e ∧ e.metrics.generation = h.genBefore ∧
        e'.location = loc ∧ e'.usedBytes = e.usedBytes ∧ ok = true ∧
        em' = ((em.setEntry h.extentId e').addDeferredFree e.location).markDirty h.extentId := by
  unfold commitMigration at hc
  cases he : em.lookup h.extentId with
  | none =>
      simp only [he] at hc
      cases hc
      exact .inl ⟨rfl, rfl, fun e h => by cases h⟩
  | some e =>
      simp only [he] at hc
      split at hc
      · rename_i hgen
        cases hc
        exact .inl ⟨rfl, rfl, fun e h => by cases h; exact hgen⟩
      · rename_i hgen
        cases hc
        refine .inr ⟨e, { e with
          location := loc
          metrics := .pack e.metrics.accessCount e.metrics.writeCount e.metrics.randomness
            .ACTIVE (h.genBefore + 1) }, rfl, not_not.mp hgen, rfl, rfl, rfl, rfl⟩

/-- `commit_migration` moves the extent if its generation is the one seen. -/
theorem commitMigration_cases {em em' : ExtentMap} {h : MigrationHandle} {loc : DiskLocation}
    {ok : Bool} (hc : em.commitMigration h loc = (ok, em')) :
    (ok = false ∧ em' = em ∧
        ∀ e, em.lookup h.extentId = some e → e.metrics.generation ≠ h.genBefore) ∨
      ∃ e, em.lookup h.extentId = some e ∧ ok = true ∧
        ∀ i, em'.getLocation i = if i = h.extentId then some loc else em.getLocation i := by
  rcases commitMigration_spec hc with hfail | ⟨e, e', he, -, hloc, -, hok, rfl⟩
  · exact .inl hfail
  · refine .inr ⟨e, he, hok, fun i => ?_⟩
    show (ExtentMap.setEntry _ _ _).getLocation i = _
    rw [getLocation_setEntry, hloc]

/-- An allocation looks at the block size alone. -/
theorem allocateRaw_congr {A : Type} [Allocator A] {em em' : ExtentMap}
    (h : em'.blockSize = em.blockSize) (alloc : Tier → A) (tier : Tier) (size : Nat) :
    em'.allocateRaw alloc tier size = em.allocateRaw alloc tier size := by
  unfold allocateRaw allocateOn alignedSize
  rw [h]

theorem mem_snapshot_iff {em : ExtentMap} {id : Nat} :
    (∃ snap ∈ em.snapshot, snap.extentId = id) ↔ ∃ e, em.lookup id = some e := by
  unfold snapshot lookup
  constructor
  · rintro ⟨snap, hmem, rfl⟩
    obtain ⟨⟨i, e⟩, hs, rfl⟩ := List.mem_map.mp hmem
    exact ⟨e, AList.mem_lookup_iff.mpr hs⟩
  · rintro ⟨e, he⟩
    exact ⟨_, List.mem_map.mpr ⟨⟨id, e⟩, AList.mem_lookup_iff.mp he, rfl⟩, rfl⟩

end ExtentMap

end Clab.Btier
