import Clab.Blk.AvlAllocator
import Clab.Btier.ExtentMap

/-!
# Calls on the extent map

The calls a client of the extent map makes, as one step function over the map
with its allocators and devices, and the runs made of them. A migration handle
in a call is any handle; the ones the map gave out are among them.
-/

namespace Clab.Btier

open Clab.Blk

/-- The extent map with the allocators and the devices of its tiers. -/
structure ExtentStore (A : Type) where
  em : ExtentMap
  alloc : Tier → A
  dev : Tier → BlockDevice

/-- The public mutators of `ExtentMap` that reach an entry, a free list or the
deferred-free list. -/
inductive MapCall
  | allocateExtent (tier : Tier) (size : Nat)
  | appendSlot (extentId size : Nat)
  | markDeadSlot (extentId length : Nat)
  | beginMigration (extentId : Nat)
  | commitMigration (h : MigrationHandle) (newLoc : DiskLocation)
  | abortMigration (h : MigrationHandle)
  | createEntryFromJournal (extentId : Nat) (loc : DiskLocation)
  | restoreExtentState (extentId usedBytes liveBytes : Nat)
  | releaseSource (loc : DiskLocation)
  | free (extentId : Nat)
  | processDeferredFree
  deriving DecidableEq, Repr

/-- `next_extent_id` is a `uint64_t`. -/
def ExtentMap.wrapNextId (em : ExtentMap) : ExtentMap :=
  { em with nextExtentId := em.nextExtentId % 2 ^ 64 }

@[simp] theorem ExtentMap.lookup_wrapNextId (em : ExtentMap) (i : Nat) :
    em.wrapNextId.lookup i = em.lookup i := rfl

namespace ExtentStore

variable {A : Type} [Allocator A]

def run (s : ExtentStore A) : MapCall → ExtentStore A
  | .allocateExtent tier size =>
      let (_, em, alloc, dev) := s.em.allocateExtent s.alloc s.dev tier size
      { em := em.wrapNextId, alloc, dev }
  | .appendSlot id size => { s with em := (s.em.appendSlot id size).2 }
  | .markDeadSlot id length => { s with em := s.em.markDeadSlot id length }
  | .beginMigration id => { s with em := (s.em.beginMigration id).2 }
  | .commitMigration h newLoc => { s with em := (s.em.commitMigration h newLoc).2 }
  | .abortMigration h => { s with em := s.em.abortMigration h }
  | .createEntryFromJournal id loc =>
      { s with em := (s.em.createEntryFromJournal id loc).wrapNextId }
  | .restoreExtentState id used live => { s with em := s.em.restoreExtentState id used live }
  | .releaseSource loc => { s with em := s.em.releaseSource loc }
  | .free id => { s with em := s.em.free id }
  | .processDeferredFree =>
      let (em, alloc) := s.em.processDeferredFree s.alloc
      { s with em, alloc }

/-- The store after the calls of a list, in their order. -/
def after (s : ExtentStore A) (calls : List MapCall) : ExtentStore A := calls.foldl run s

@[simp] theorem after_nil (s : ExtentStore A) : s.after [] = s := rfl

@[simp] theorem after_cons (s : ExtentStore A) (c : MapCall) (calls : List MapCall) :
    s.after (c :: calls) = (s.run c).after calls := rfl

theorem after_append (s : ExtentStore A) (cs ds : List MapCall) :
    s.after (cs ++ ds) = (s.after cs).after ds := List.foldl_append

/-- A store whose map is new. -/
def new (blockSize extentSize : Nat) (alloc : Tier → A) (dev : Tier → BlockDevice) :
    ExtentStore A :=
  { em := { blockSize, extentSize }, alloc, dev }

/-- Every step of a run meets `good` in the state it is taken from. -/
def Keeps (good : ExtentStore A → MapCall → Prop) : ExtentStore A → List MapCall → Prop
  | _, [] => True
  | s, c :: rest => good s c ∧ Keeps good (s.run c) rest

/-- The place a call gives to an extent, when it enters one into the map or
moves one. -/
def entered (s : ExtentStore A) : MapCall → Option DiskLocation
  | .allocateExtent tier size => (s.em.allocateRaw s.alloc tier size).1
  | .commitMigration h newLoc =>
      if (s.em.commitMigration h newLoc).1 then some newLoc else none
  | .createEntryFromJournal _ loc => some loc
  | _ => none

end ExtentStore

/-- A new store on two empty devices. -/
def emptyStore : ExtentStore AvlAllocator :=
  .new 4096 (2 ^ 22) (fun _ => { deviceSize := 2 ^ 24, blockSize := 4096 })
    fun _ => { content := fun _ => 0, size := 2 ^ 24 }

end Clab.Btier
