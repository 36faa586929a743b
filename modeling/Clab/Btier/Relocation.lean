import Clab.Btier.MigrationEngine
import Clab.Btier.Recovery

/-!
# Relocation and its frame

What a relocation must leave alone: the values of all keys, the space of every
other extent and the journal. On a well placed store all of this follows once
the writes of the relocation go into the space allocated for the copy and the
keys of the extent read the same bytes there.
-/

namespace Clab.Btier

open Clab.Blk

/-- Two regions of one device that share no byte. -/
def DiskLocation.ApartFrom (a b : DiskLocation) : Prop :=
  a.offset + a.length ≤ b.offset ∨ b.offset + b.length ≤ a.offset

namespace Engine

variable {A : Type}

/-! ## Reading without faults -/

/-- The engine on devices whose calls succeed. -/
def quiet (s : Engine A) : Engine A := { s with dev := fun t => { s.dev t with faults := [] } }

/-- What `get` returns on such devices. -/
def peek (s : Engine A) (key : Key) (now : Nat) : Int × List Byte :=
  ((s.quiet.get key now).1, (s.quiet.get key now).2.1)

/-- The extent location and key location a read of `key` goes to. -/
def whereIs (s : Engine A) (key : Key) : Option (DiskLocation × KeyLocation) :=
  (s.keyMap.lookup key).bind fun kloc =>
    (s.extentMap.getLocation kloc.extentId).map fun loc => (loc, kloc)

/-- The bytes of a slot on the device of its extent's tier. -/
def slotBytes (dev : Tier → BlockDevice) (loc : DiskLocation) (kloc : KeyLocation) : List Byte :=
  (dev loc.tier).content.read (loc.offset + HEADER_SIZE + kloc.offset) kloc.length

theorem peek_eq (s : Engine A) (key : Key) (now : Nat) :
    s.peek key now = match s.whereIs key with
      | none => (-enoent, [])
      | some (loc, kloc) => (0, slotBytes s.dev loc kloc) := by
  unfold peek get whereIs quiet
  dsimp only
  cases s.keyMap.lookup key with
  | none => rfl
  | some kloc =>
      dsimp only [Option.bind_some]
      cases s.extentMap.getLocation kloc.extentId with
      | none => rfl
      | some loc =>
          dsimp only [Option.map_some, BlockDevice.read, BlockDevice.fails, slotBytes]
          have hlen : ¬ ((kloc.length : Int) < 0) := by omega
          simp [hlen]

/-- The same bytes where the key is found mean the same answer. -/
theorem peek_congr {s s' : Engine A} {key : Key} (now : Nat)
    (h : (s.whereIs key = none ∧ s'.whereIs key = none) ∨
      ∃ loc kloc loc' kloc', s.whereIs key = some (loc, kloc) ∧
        s'.whereIs key = some (loc', kloc') ∧
        slotBytes s'.dev loc' kloc' = slotBytes s.dev loc kloc) :
    s'.peek key now = s.peek key now := by
  rw [peek_eq, peek_eq]
  rcases h with ⟨h, h'⟩ | ⟨loc, kloc, loc', kloc', h, h', hbytes⟩
  · rw [h, h']
  · rw [h, h']
    dsimp only
    rw [hbytes]

theorem whereIs_eq_some {s : Engine A} {key : Key} {loc : DiskLocation} {kloc : KeyLocation} :
    s.whereIs key = some (loc, kloc) ↔
      s.keyMap.lookup key = some kloc ∧ s.extentMap.getLocation kloc.extentId = some loc := by
  unfold whereIs
  cases s.keyMap.lookup key with
  | none => simp
  | some kl =>
      simp only [Option.bind_some, Option.map_eq_some_iff, Prod.mk.injEq, Option.some.injEq]
      constructor
      · rintro ⟨l, hl, rfl, rfl⟩
        exact ⟨rfl, hl⟩
      · rintro ⟨rfl, hl⟩
        exact ⟨_, hl, rfl, rfl⟩

theorem whereIs_congr {s s' : Engine A} {key : Key}
    (hk : s'.keyMap.lookup key = s.keyMap.lookup key)
    (hp : ∀ kloc, s.keyMap.lookup key = some kloc →
      s'.extentMap.getLocation kloc.extentId = s.extentMap.getLocation kloc.extentId) :
    s'.whereIs key = s.whereIs key := by
  unfold whereIs
  rw [hk]
  cases hl : s.keyMap.lookup key with
  | none => rfl
  | some kloc =>
      dsimp only [Option.bind_some]
      rw [hp kloc hl]

/-! ## Well placed stores -/

/-- Space of no extent and not of the journal. -/
def FreeSpace (s : Engine A) (loc : DiskLocation) : Prop :=
  (∀ id l, s.extentMap.getLocation id = some l → l.tier = loc.tier → l.ApartFrom loc) ∧
    (loc.tier = .FAST → s.journal.devSize ≤ loc.offset)

/-- A consistent store: slots apart inside their extents, extents apart from
each other and behind the journal, and allocators that give out free space. -/
structure WellPlaced [Allocator A] (s : Engine A) : Prop where
  coherent : s.keyMap.Coherent
  known : ∀ id e, s.extentMap.lookup id = some e → id < s.extentMap.nextExtentId
  fresh : ∀ k loc, s.keyMap.lookup k = some loc → loc.extentId < s.extentMap.nextExtentId
  generation : ∀ id e, s.extentMap.lookup id = some e → e.metrics.generation < 2 ^ 32
  length : ∀ id e, s.extentMap.lookup id = some e → e.location.length < 2 ^ 32
  inside : ∀ k loc e, s.keyMap.lookup k = some loc → s.extentMap.lookup loc.extentId = some e →
    HEADER_SIZE + loc.slotEnd ≤ e.location.length
  apart : ∀ k k' loc loc', k ≠ k' → s.keyMap.lookup k = some loc →
    s.keyMap.lookup k' = some loc' → loc.extentId = loc'.extentId →
      loc.slotEnd ≤ loc'.offset ∨ loc'.slotEnd ≤ loc.offset
  separate : ∀ id id' e e', id ≠ id' → s.extentMap.lookup id = some e →
    s.extentMap.lookup id' = some e' → e.location.tier = e'.location.tier →
      e.location.ApartFrom e'.location
  beyond : ∀ id e, s.extentMap.lookup id = some e → e.location.tier = .FAST →
    s.journal.devSize ≤ e.location.offset
  sound : ∀ id e tier dst al, s.extentMap.lookup id = some e →
    s.extentMap.allocateRaw s.alloc tier e.location.length = (some dst, al) → s.FreeSpace dst

/-- The space a relocation of the extent to `tier` gets. -/
def relocationSpace [Allocator A] (s : Engine A) (extentId : Nat) (tier : Tier) :
    Option DiskLocation :=
  (s.extentMap.lookup extentId).bind fun e =>
    (s.extentMap.allocateRaw s.alloc tier e.location.length).1

theorem WellPlaced.freeSpace [Allocator A] {s : Engine A} (hs : s.WellPlaced) {extentId : Nat}
    {tier : Tier} {loc : DiskLocation} (h : s.relocationSpace extentId tier = some loc) :
    s.FreeSpace loc := by
  obtain ⟨e, he, hspace⟩ := Option.bind_eq_some_iff.mp h
  generalize halloc : s.extentMap.allocateRaw s.alloc tier e.location.length = out at hspace
  obtain ⟨res, al⟩ := out
  dsimp only at hspace
  subst hspace
  exact hs.sound extentId e tier loc al he halloc

/-! ## The frame -/

/-- Every write between the two states goes into the space `dst`, on its device. -/
def WritesInto (s s' : Engine A) (dst : Option DiskLocation) : Prop :=
  ∀ t, ∃ w, (s.dev t).Wrote (s'.dev t) w ∧ ∀ x ∈ w, ∃ loc, dst = some loc ∧ loc.tier = t ∧
    loc.offset ≤ x.1 ∧ x.1 + x.2.length ≤ loc.offset + loc.length

/-- What a relocation with destination `dst` leaves alone: the answer of every
`get`, all bytes outside `dst`, and with them the other extents and the journal. -/
structure Preserves (s s' : Engine A) (extentId : Nat) (dst : Option DiskLocation) : Prop where
  values : ∀ key now, s'.peek key now = s.peek key now
  writes : s.WritesInto s' dst
  others : ∀ id l, id ≠ extentId → s.extentMap.getLocation id = some l →
    (s'.dev l.tier).content.read l.offset l.length = (s.dev l.tier).content.read l.offset l.length
  journal : (s'.dev .FAST).content.read 0 s.journal.devSize =
    (s.dev .FAST).content.read 0 s.journal.devSize

theorem WritesInto.refl_of_dev {s s' : Engine A} (dst : Option DiskLocation)
    (h : ∀ t, (s.dev t).Wrote (s'.dev t) []) : s.WritesInto s' dst :=
  fun t => ⟨[], h t, fun x hx => by cases hx⟩

/-- Bytes outside the destination stay. -/
theorem WritesInto.read_eq {s s' : Engine A} {dst : Option DiskLocation}
    (h : s.WritesInto s' dst) {t : Tier} {off len : Nat}
    (hd : ∀ loc, dst = some loc → loc.tier = t →
      loc.offset + loc.length ≤ off ∨ off + len ≤ loc.offset) :
    (s'.dev t).content.read off len = (s.dev t).content.read off len := by
  obtain ⟨w, hw, hin⟩ := h t
  refine hw.read_eq fun x hx => ?_
  obtain ⟨loc, hdst, htier, hlo, hhi⟩ := hin x hx
  rcases hd loc hdst htier with hd | hd <;> omega

section Frame

variable {s s' : Engine A} {dst : Option DiskLocation}
  (hfree : ∀ loc, dst = some loc → s.FreeSpace loc) (h : s.WritesInto s' dst)

include hfree h

theorem WritesInto.extent_eq {id : Nat} {l : DiskLocation}
    (hl : s.extentMap.getLocation id = some l) {off len : Nat} (hlo : l.offset ≤ off)
    (hhi : off + len ≤ l.offset + l.length) :
    (s'.dev l.tier).content.read off len = (s.dev l.tier).content.read off len := by
  refine h.read_eq fun loc hdst htier => ?_
  rcases (hfree loc hdst).1 id l hl htier.symm with hd | hd <;> omega

theorem WritesInto.journal_eq :
    (s'.dev .FAST).content.read 0 s.journal.devSize =
      (s.dev .FAST).content.read 0 s.journal.devSize := by
  refine h.read_eq fun loc hdst htier => ?_
  have := (hfree loc hdst).2 htier
  omega

theorem WritesInto.slotBytes_eq {id : Nat} {l : DiskLocation} {kloc : KeyLocation}
    (hl : s.extentMap.getLocation id = some l) (hin : HEADER_SIZE + kloc.slotEnd ≤ l.length) :
    slotBytes s'.dev l kloc = slotBytes s.dev l kloc := by
  unfold KeyLocation.slotEnd at hin
  exact WritesInto.extent_eq hfree h hl (by omega) (by omega)

omit hfree in
/-- A write between the two states goes into the destination. -/
theorem WritesInto.mem {t : Tier} {w : List (Nat × List Byte)} (hw : (s.dev t).Wrote (s'.dev t) w) :
    ∀ x ∈ w, ∃ loc, dst = some loc ∧ loc.tier = t ∧ loc.offset ≤ x.1 ∧
      x.1 + x.2.length ≤ loc.offset + loc.length := by
  obtain ⟨w', hw', hin⟩ := h t
  have heq : w = w' := List.append_cancel_right (hw.trace.symm.trans hw'.trace)
  rw [heq]
  exact hin

/-- With the writes in place only the values remain to be shown. -/
theorem Preserves.of_writes (extentId : Nat)
    (hvalues : ∀ key now, s'.peek key now = s.peek key now) : Preserves s s' extentId dst :=
  ⟨hvalues, h, fun _ _ _ hl => WritesInto.extent_eq hfree h hl (Nat.le_refl _) (Nat.le_refl _),
    WritesInto.journal_eq hfree h⟩

end Frame

/-- Keys found where they were keep their values. -/
theorem peek_same_place [Allocator A] {s s' : Engine A} {dst : Option DiskLocation}
    (hs : s.WellPlaced) (hfree : ∀ loc, dst = some loc → s.FreeSpace loc)
    (h : s.WritesInto s' dst) {key : Key} (now : Nat) (hsame : s'.whereIs key = s.whereIs key) :
    s'.peek key now = s.peek key now := by
  apply peek_congr
  cases hw : s.whereIs key with
  | none => exact .inl ⟨rfl, hsame.trans hw⟩
  | some place =>
      obtain ⟨loc, kloc⟩ := place
      obtain ⟨hk, hl⟩ := whereIs_eq_some.mp hw
      obtain ⟨e, he, rfl⟩ := Option.map_eq_some_iff.mp hl
      exact .inr ⟨_, _, _, _, rfl, hsame.trans hw,
        WritesInto.slotBytes_eq hfree h hl (hs.inside key kloc e hk he)⟩

end Engine

end Clab.Btier
