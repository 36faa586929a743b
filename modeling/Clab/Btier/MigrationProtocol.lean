import Clab.Lib.Interleaving
import Clab.Btier.MetricsWord
import Clab.Btier.ExtentMap

/-!
# The migration handle protocol

The operations on one extent as interleaved steps. `record_io` and
`set_randomness` change the metrics word by compare-and-swap without a lock; the
others look the entry up, take its `struct_lock`, load the word and store a new
one. `Extent` adds to the entry the trace of what has taken effect, so that a
handle is the place in the trace where its `begin_migration` stands.
-/

namespace Clab.Btier.Protocol

open Clab.Interleaving

/-- What takes effect on the extent; a commit names the place its handle began. -/
inductive Event
  | began
  | appended
  | markedDead
  | committed (since : Nat)
  | freed
  deriving DecidableEq

/-- The events that bump the generation. -/
def Event.bump : Event → Nat
  | appended | markedDead | committed _ => 1
  | began | freed => 0

def bumps (es : List Event) : Nat := (es.map Event.bump).sum

/-- `MigrationHandle`; `since` is the length of the trace when it began. -/
structure Handle where
  genBefore : Raw
  srcLoc : DiskLocation
  since : Nat

/-- The entry, whether the map still holds it, and the trace. -/
structure Extent where
  present : Bool
  raw : Raw
  location : DiskLocation
  usedBytes : Nat
  liveBytes : Nat
  lock : Option Nat
  deferredFree : List DiskLocation
  handles : List Handle
  events : List Event

/-- The lock-free updates. -/
inductive Metric
  | recordIo (op : IoOp)
  | setRandomness (randomness : Raw)

/-- The word a lock-free update makes of the one it has read. -/
def Metric.newWord : Metric → Raw → Raw
  | recordIo op, old =>
      let newAccess := BitVec.ofNat 64 (min ((Raw.accessCount old).toNat + 1) 4095)
      let newWrite := if op = .WRITE
        then BitVec.ofNat 64 (min ((Raw.writeCount old).toNat + 1) 4095)
        else Raw.writeCount old
      .pack newAccess newWrite (Raw.randomness old) (Raw.state old) (Raw.generation old)
  | setRandomness r, old =>
      .pack (Raw.accessCount old) (Raw.writeCount old) (r &&& 0x3F) (Raw.state old)
        (Raw.generation old)

/-- The operations under `struct_lock`. -/
inductive Locked
  | appendSlot (size : Nat)
  | markDeadSlot (length : Nat)
  | beginMigration
  | commitMigration (h : Handle) (newLoc : DiskLocation)
  | abortMigration

/-- What the store of a lock holder stands for. -/
inductive Effect
  | appended
  | markedDead
  | began (h : Handle)
  | committed (h : Handle) (oldLoc : DiskLocation)
  | aborted

/-- Where a thread stands. -/
inductive Pc
  | idle
  | metric (m : Metric)
  | casing (m : Metric) (oldWord : Raw)
  | waiting (op : Locked)
  | holding (op : Locked)
  | bumping (e : Effect)
  | storing (w : Raw) (e : Effect)
  | releasing (e : Effect)
  | freeing

/-- The word with the counters of `raw` and another state and generation. -/
def repack (raw state gen : Raw) : Raw :=
  .pack (Raw.accessCount raw) (Raw.writeCount raw) (Raw.randomness raw) state gen

/-- The slot fits behind the used bytes. -/
def Extent.Fits (s : Extent) (size : Nat) : Prop :=
  u32 (s.usedBytes + size) ≤ ExtentMap.capacity s.location

/-- The trace after the store of an effect. -/
def Effect.record (e : Effect) (es : List Event) : List Event :=
  match e with
  | appended => es ++ [.appended]
  | markedDead => es ++ [.markedDead]
  | began _ => es ++ [.began]
  | committed h _ => es ++ [.committed h.since]
  | aborted => es

/-- The handle takes its place in the trace when the store makes it valid. -/
def Effect.placed (e : Effect) (es : List Event) : Effect :=
  match e with
  | began h => began { h with since := es.length }
  | e => e

/-- What is left to do after the store: queue the old location, return the handle. -/
def Effect.finish (e : Effect) (s : Extent) : Extent :=
  match e with
  | began h => { s with handles := h :: s.handles }
  | committed _ oldLoc => { s with deferredFree := s.deferredFree ++ [oldLoc] }
  | _ => s

/-- A handle passed to an operation is one that `begin_migration` returned. -/
def Locked.Usable (s : Extent) : Locked → Prop
  | commitMigration h _ => h ∈ s.handles
  | _ => True

/-- The steps of a thread. -/
inductive Acts (t : Nat) (s : Extent) : Pc → Extent → Pc → Prop
  | miss : s.present = false → Acts t s .idle s .idle
  | metricLookup (m : Metric) : s.present → Acts t s .idle s (.metric m)
  | metricLoad {m : Metric} : Acts t s (.metric m) s (.casing m s.raw)
  | casDone {m : Metric} {old : Raw} :
      s.raw = old → Acts t s (.casing m old) { s with raw := m.newWord old } .idle
  | casFail {m : Metric} {old : Raw} : Acts t s (.casing m old) s (.casing m s.raw)
  | lookup (op : Locked) : s.present → op.Usable s → Acts t s .idle s (.waiting op)
  | acquire {op : Locked} :
      s.lock = none → Acts t s (.waiting op) { s with lock := some t } (.holding op)
  | appendCheck {size : Nat} : Raw.state s.raw = Raw.active → s.Fits size →
      Acts t s (.holding (.appendSlot size))
        { s with
          usedBytes := u32 (s.usedBytes + size)
          liveBytes := u32 (s.liveBytes + size) } (.bumping .appended)
  | appendFail {size : Nat} : ¬ (Raw.state s.raw = Raw.active ∧ s.Fits size) →
      Acts t s (.holding (.appendSlot size)) { s with lock := none } .idle
  | markDead {length : Nat} :
      Acts t s (.holding (.markDeadSlot length)) { s with liveBytes := s.liveBytes - length }
        (.bumping .markedDead)
  | bumpLoad {e : Effect} :
      Acts t s (.bumping e) s
        (.storing (repack s.raw (Raw.state s.raw) (Raw.generation s.raw + 1)) e)
  | beginCheck : Raw.state s.raw = Raw.active →
      Acts t s (.holding .beginMigration) s
        (.storing (repack s.raw Raw.migrating (Raw.generation s.raw))
          (.began ⟨Raw.generation s.raw, s.location, 0⟩))
  | beginFail : Raw.state s.raw ≠ Raw.active →
      Acts t s (.holding .beginMigration) { s with lock := none } .idle
  | commitCheck {h : Handle} {newLoc : DiskLocation} : Raw.generation s.raw = h.genBefore →
      Acts t s (.holding (.commitMigration h newLoc)) { s with location := newLoc }
        (.storing (repack s.raw Raw.active (h.genBefore + 1)) (.committed h s.location))
  | commitFail {h : Handle} {newLoc : DiskLocation} : Raw.generation s.raw ≠ h.genBefore →
      Acts t s (.holding (.commitMigration h newLoc)) { s with lock := none } .idle
  | abortCheck : Raw.state s.raw = Raw.migrating →
      Acts t s (.holding .abortMigration) s
        (.storing (repack s.raw Raw.active (Raw.generation s.raw)) .aborted)
  | abortFail : Raw.state s.raw ≠ Raw.migrating →
      Acts t s (.holding .abortMigration) { s with lock := none } .idle
  | store {w : Raw} {e : Effect} :
      Acts t s (.storing w e) { s with raw := w, events := e.record s.events }
        (.releasing (e.placed s.events))
  | release {e : Effect} :
      Acts t s (.releasing e) (e.finish { s with lock := none }) .idle
  | freeErase : s.present →
      Acts t s .idle { s with present := false, events := s.events ++ [.freed] } .freeing
  | freeQueue : s.lock = none →
      Acts t s .freeing { s with deferredFree := s.deferredFree ++ [s.location] } .idle

abbrev System := Config Extent Pc

/-! ## The trace -/

@[simp] theorem bumps_append (es fs : List Event) : bumps (es ++ fs) = bumps es + bumps fs := by
  simp [bumps]

theorem bumps_take_add_drop (es : List Event) (n : Nat) :
    bumps es = bumps (es.take n) + bumps (es.drop n) := by
  rw [← bumps_append, List.take_append_drop]

/-- Without a bump nothing was appended, marked dead or committed. -/
theorem bump_eq_zero {es : List Event} (h : bumps es = 0) {e : Event} (he : e ∈ es) :
    e.bump = 0 :=
  List.sum_eq_zero_iff.mp h _ (List.mem_map.mpr ⟨e, he, rfl⟩)

/-- Between the begin of a handle and its commit nothing else took effect. -/
def Undisturbed (es : List Event) : Prop := ∀ e ∈ es, e = .began

/-- Every commit of the trace was undisturbed, unless the generation went all the way round. -/
def Commits (es : List Event) : Prop :=
  ∀ pre post since, es = pre ++ .committed since :: post → bumps (pre.drop since) < 2 ^ 32 →
    Undisturbed (pre.drop since)

theorem Commits.append {es : List Event} (h : Commits es) {e : Event}
    (hnew : ∀ since, e = .committed since → bumps (es.drop since) < 2 ^ 32 →
      Undisturbed (es.drop since)) : Commits (es ++ [e]) := by
  intro pre post since heq
  rcases List.eq_nil_or_concat post with rfl | ⟨post, x, rfl⟩
  · obtain ⟨rfl, hlast⟩ := List.append_inj' heq rfl
    exact hnew since (List.singleton_inj.mp hlast)
  · have hsplit : es ++ [e] = (pre ++ .committed since :: post) ++ [x] := by
      rw [heq]
      simp
    exact h pre post since (List.append_inj' hsplit rfl).1

/-! ## The invariant -/

variable {g₀ : Nat}

/-- The generation a handle holds is the one at its place in the trace. -/
def Handle.Valid (g₀ : Nat) (es : List Event) (h : Handle) : Prop :=
  h.since ≤ es.length ∧ h.genBefore.toNat = (g₀ + bumps (es.take h.since)) % 2 ^ 32

theorem Handle.Valid.append {es : List Event} {h : Handle} (hv : h.Valid g₀ es)
    (fs : List Event) : h.Valid g₀ (es ++ fs) := by
  obtain ⟨hle, hgen⟩ := hv
  refine ⟨by rw [List.length_append]; omega, ?_⟩
  rw [List.take_append_of_le_length hle]
  exact hgen

/-- What holds of the extent between the steps. -/
structure Extent.Good (g₀ : Nat) (s : Extent) : Prop where
  generation : (Raw.generation s.raw).toNat = (g₀ + bumps s.events) % 2 ^ 32
  handles : ∀ h ∈ s.handles, h.Valid g₀ s.events
  kept : s.present → .freed ∉ s.events
  commits : Commits s.events

/-- The word a lock holder is about to store, against the one that is there. -/
def Effect.Prepared (s : Extent) (w : Raw) : Effect → Prop
  | appended => Raw.state s.raw = Raw.active ∧ Raw.state w = Raw.active ∧
      (Raw.generation w).toNat = ((Raw.generation s.raw).toNat + 1) % 2 ^ 32
  | markedDead => (Raw.generation w).toNat = ((Raw.generation s.raw).toNat + 1) % 2 ^ 32
  | began h => Raw.generation w = Raw.generation s.raw ∧ h.genBefore = Raw.generation s.raw
  | committed h _ => h ∈ s.handles ∧ s.present ∧ h.genBefore = Raw.generation s.raw ∧
      (Raw.generation w).toNat = ((Raw.generation s.raw).toNat + 1) % 2 ^ 32
  | aborted => Raw.generation w = Raw.generation s.raw

/-- A commit is on its way with a handle of the extent that is still in the map. -/
def Locked.Ready (s : Extent) : Locked → Prop
  | commitMigration h _ => h ∈ s.handles ∧ s.present
  | _ => True

/-- What a thread knows at its place. -/
def Knows (g₀ : Nat) (t : Nat) (s : Extent) : Pc → Prop
  | .idle | .metric _ | .casing _ _ | .freeing => True
  | .waiting op => op.Ready s
  | .holding op => s.lock = some t ∧ op.Ready s
  | .bumping e => s.lock = some t ∧
      (e = .appended ∧ Raw.state s.raw = Raw.active ∨ e = .markedDead)
  | .storing w e => s.lock = some t ∧ e.Prepared s w
  | .releasing e => s.lock = some t ∧
      match e with
      | .began h => h.Valid g₀ s.events
      | .appended => Raw.state s.raw = Raw.active
      | _ => True

/-- A `commit_migration` between its lookup and its store. -/
def Pc.Committing : Pc → Prop
  | .waiting (.commitMigration _ _) | .holding (.commitMigration _ _)
  | .storing _ (.committed _ _) => True
  | _ => False

/-- What a thread at `q` relies on the others' steps to leave alone. -/
structure Relied (u : Nat) (s : Extent) (q : Pc) (s' : Extent) : Prop where
  locked : s.lock = some u → s'.lock = some u ∧ Raw.state s'.raw = Raw.state s.raw ∧
    Raw.generation s'.raw = Raw.generation s.raw
  handles : ∀ h ∈ s.handles, h ∈ s'.handles
  events : s.events <+: s'.events
  present : q.Committing → s.present → s'.present

theorem Knows.stable {u : Nat} {s s' : Extent} {q : Pc} (hrely : Relied u s q s')
    (h : Knows g₀ u s q) : Knows g₀ u s' q := by
  have hready : ∀ op, (q = .waiting op ∨ q = .holding op) → op.Ready s → op.Ready s' := by
    intro op hq hop
    cases op with
    | commitMigration h newLoc =>
        obtain ⟨hmem, hpresent⟩ := hop
        refine ⟨hrely.handles h hmem, hrely.present ?_ hpresent⟩
        rcases hq with rfl | rfl <;> trivial
    | _ => trivial
  cases q with
  | waiting op => exact hready op (.inl rfl) h
  | holding op => exact ⟨(hrely.locked h.1).1, hready op (.inr rfl) h.2⟩
  | bumping e =>
      obtain ⟨hlock, hstate, -⟩ := hrely.locked h.1
      refine ⟨hlock, ?_⟩
      rw [hstate]
      exact h.2
  | storing w e =>
      obtain ⟨hlock, hstate, hgen⟩ := hrely.locked h.1
      refine ⟨hlock, ?_⟩
      obtain ⟨-, hprep⟩ := h
      cases e with
      | committed hd oldLoc =>
          obtain ⟨hmem, hpresent, hrest⟩ := hprep
          refine ⟨hrely.handles hd hmem, hrely.present trivial hpresent, ?_⟩
          rw [hgen]
          exact hrest
      | appended => simpa only [Effect.Prepared, hstate, hgen] using hprep
      | markedDead => simpa only [Effect.Prepared, hgen] using hprep
      | began hd => simpa only [Effect.Prepared, hgen] using hprep
      | aborted => simpa only [Effect.Prepared, hgen] using hprep
  | releasing e =>
      obtain ⟨hlock, hstate, -⟩ := hrely.locked h.1
      refine ⟨hlock, ?_⟩
      obtain ⟨fs, hfs⟩ := hrely.events
      cases e with
      | began hd =>
          rw [← hfs]
          exact Handle.Valid.append h.2 fs
      | appended => exact hstate.trans h.2
      | _ => trivial
  | _ => trivial

/-! ## Steps -/

/-- A lock-free update keeps state and generation. -/
theorem Metric.keeps (m : Metric) (old : Raw) :
    Raw.state (m.newWord old) = Raw.state old ∧
      Raw.generation (m.newWord old) = Raw.generation old := by
  cases m with
  | recordIo op =>
      exact ⟨Raw.state_pack_state _ _ _ _ _, Raw.generation_pack_generation _ _ _ _ _⟩
  | setRandomness r =>
      exact ⟨Raw.state_pack_state _ _ _ _ _, Raw.generation_pack_generation _ _ _ _ _⟩

/-- The steps of a lock holder are none of what another lock holder relies on. -/
theorem Relied.of_holder {t u : Nat} {s s' : Extent} {q : Pc} (hlock : s.lock = some t)
    (hne : u ≠ t) (hhandles : ∀ h ∈ s.handles, h ∈ s'.handles) (hevents : s.events <+: s'.events)
    (hpresent : s'.present = s.present) : Relied u s q s' := by
  refine ⟨fun hu => ?_, hhandles, hevents, fun _ h => by rw [hpresent]; exact h⟩
  rw [hlock] at hu
  exact absurd (Option.some.inj hu).symm hne

theorem Relied.refl (u : Nat) (s : Extent) (q : Pc) : Relied u s q s :=
  ⟨fun h => ⟨h, rfl, rfl⟩, fun _ h => h, List.prefix_rfl, fun _ h => h⟩

theorem Effect.record_prefix (e : Effect) (es : List Event) : es <+: e.record es := by
  cases e <;> simp [Effect.record]

theorem Acts.relied {t u : Nat} {s s' : Extent} {p p' q : Pc} (h : Acts t s p s' p')
    (hknows : Knows g₀ t s p) (hne : u ≠ t)
    (hpresent : q.Committing → s.present → s'.present) : Relied u s q s' := by
  cases h with
  | miss | metricLookup | metricLoad | casFail | lookup | bumpLoad | beginCheck | abortCheck =>
      exact Relied.refl u s q
  | casDone hraw =>
      refine ⟨fun hu => ⟨hu, ?_⟩, fun _ h => h, List.prefix_rfl, fun _ h => h⟩
      rw [hraw]
      exact Metric.keeps _ _
  | acquire hnone =>
      refine ⟨fun hu => ?_, fun _ h => h, List.prefix_rfl, fun _ h => h⟩
      rw [hnone] at hu
      exact absurd hu (by simp)
  | appendCheck | appendFail | markDead | beginFail | commitCheck | commitFail | abortFail =>
      exact .of_holder hknows.1 hne (fun _ h => h) List.prefix_rfl rfl
  | store => exact .of_holder hknows.1 hne (fun _ h => h) (Effect.record_prefix _ _) rfl
  | @release e =>
      have hfinish : (∀ h ∈ s.handles, h ∈ (e.finish { s with lock := none }).handles) ∧
          s.events <+: (e.finish { s with lock := none }).events ∧
          (e.finish { s with lock := none }).present = s.present := by
        cases e <;> simp +contextual [Effect.finish]
      exact .of_holder hknows.1 hne hfinish.1 hfinish.2.1 hfinish.2.2
  | freeErase hp =>
      exact ⟨fun hu => ⟨hu, rfl, rfl⟩, fun _ h => h, List.prefix_append _ _, hpresent⟩
  | freeQueue => exact ⟨fun hu => ⟨hu, rfl, rfl⟩, fun _ h => h, List.prefix_rfl, fun _ h => h⟩

/-- One more event whose bump the new word has counted. -/
theorem Extent.Good.record {s : Extent} {w : Raw} {e : Event} (h : s.Good g₀)
    (hgen : (Raw.generation w).toNat = ((Raw.generation s.raw).toNat + e.bump) % 2 ^ 32)
    (hfreed : e ≠ .freed)
    (hcommit : ∀ since, e = .committed since → bumps (s.events.drop since) < 2 ^ 32 →
      Undisturbed (s.events.drop since)) :
    Extent.Good g₀ { s with raw := w, events := s.events ++ [e] } := by
  constructor
  case generation =>
    show (Raw.generation w).toNat = (g₀ + bumps (s.events ++ [e])) % 2 ^ 32
    have hone : bumps [e] = e.bump := by simp [bumps]
    rw [hgen, h.generation, bumps_append, hone, ← Nat.add_assoc]
    exact Nat.mod_add_mod _ _ _
  case handles => exact fun hd hmem => (h.handles hd hmem).append _
  case kept =>
    intro hp hmem
    rcases List.mem_append.mp hmem with hmem | hmem
    · exact h.kept hp hmem
    · exact hfreed (List.mem_singleton.mp hmem).symm
  case commits => exact h.commits.append hcommit

/-- The generation has not moved since the handle began, so nothing bumped it. -/
theorem Extent.Good.undisturbed {s : Extent} {h : Handle} (hs : s.Good g₀) (hmem : h ∈ s.handles)
    (hpresent : s.present) (hgen : h.genBefore = Raw.generation s.raw)
    (hbumps : bumps (s.events.drop h.since) < 2 ^ 32) :
    Undisturbed (s.events.drop h.since) := by
  obtain ⟨hle, hbefore⟩ := hs.handles h hmem
  have hnow := hs.generation
  rw [← hgen, hbefore, bumps_take_add_drop s.events h.since] at hnow
  have hzero : bumps (s.events.drop h.since) = 0 := by omega
  intro e he
  have hbump := bump_eq_zero hzero he
  cases e with
  | began => rfl
  | freed => exact absurd (List.mem_of_mem_drop he) (hs.kept hpresent)
  | _ => simp [Event.bump] at hbump

theorem Extent.Good.store {s : Extent} {w : Raw} {e : Effect} (h : s.Good g₀)
    (hprep : e.Prepared s w) :
    Extent.Good g₀ { s with raw := w, events := e.record s.events } := by
  cases e with
  | appended => exact h.record hprep.2.2 (by simp) (by simp)
  | markedDead => exact h.record hprep (by simp) (by simp)
  | began hd =>
      refine h.record ?_ (by simp) (by simp)
      rw [hprep.1]
      exact (Nat.mod_eq_of_lt (Raw.generation_lt _)).symm
  | committed hd oldLoc =>
      obtain ⟨hmem, hpresent, hgen, hnext⟩ := hprep
      refine h.record hnext (by simp) ?_
      intro since heq hbumps
      obtain rfl := Event.committed.inj heq
      exact h.undisturbed hmem hpresent hgen hbumps
  | aborted =>
      refine ⟨?_, h.handles, h.kept, h.commits⟩
      show (Raw.generation w).toNat = _
      rw [show Raw.generation w = Raw.generation s.raw from hprep]
      exact h.generation

/-- The places that `Good` reads. -/
theorem Extent.Good.congr {s s' : Extent} (h : s.Good g₀)
    (hgen : Raw.generation s'.raw = Raw.generation s.raw) (hhandles : s'.handles = s.handles)
    (hevents : s'.events = s.events) (hpresent : s'.present = s.present) : s'.Good g₀ := by
  constructor
  case generation => rw [hgen, hevents]; exact h.generation
  case handles => rw [hhandles, hevents]; exact h.handles
  case kept => rw [hpresent, hevents]; exact h.kept
  case commits => rw [hevents]; exact h.commits

theorem Extent.Good.erase {s : Extent} (h : s.Good g₀) :
    Extent.Good g₀ { s with present := false, events := s.events ++ [.freed] } := by
  constructor
  case generation =>
    show _ = (g₀ + bumps (s.events ++ [.freed])) % 2 ^ 32
    rw [bumps_append]
    exact h.generation
  case handles => exact fun hd hmem => (h.handles hd hmem).append _
  case kept => exact fun hp => absurd hp (by simp)
  case commits => exact h.commits.append (by simp)

theorem Extent.Good.finish {s : Extent} {e : Effect} (h : s.Good g₀)
    (hvalid : ∀ hd, e = .began hd → hd.Valid g₀ s.events) :
    Extent.Good g₀ (e.finish { s with lock := none }) := by
  cases e with
  | began hd =>
      refine ⟨h.generation, fun hd' hmem => ?_, h.kept, h.commits⟩
      rcases List.mem_cons.mp hmem with rfl | hmem
      · exact hvalid hd' rfl
      · exact h.handles hd' hmem
  | _ => exact h.congr rfl rfl rfl rfl

theorem Acts.good {t : Nat} {s s' : Extent} {p p' : Pc} (h : Acts t s p s' p')
    (hs : s.Good g₀) (hknows : Knows g₀ t s p) : s'.Good g₀ := by
  cases h with
  | miss | metricLookup | metricLoad | casFail | lookup | bumpLoad | beginCheck | abortCheck =>
      exact hs
  | casDone hraw =>
      refine hs.congr ?_ rfl rfl rfl
      rw [hraw]
      exact (Metric.keeps _ _).2
  | acquire | appendCheck | appendFail | markDead | beginFail | commitCheck | commitFail
    | abortFail | freeQueue => exact hs.congr rfl rfl rfl rfl
  | store => exact hs.store hknows.2
  | @release e =>
      refine hs.finish fun hd heq => ?_
      subst heq
      exact hknows.2
  | freeErase => exact hs.erase

/-- What a thread knows after its own step. -/
theorem Acts.knows {t : Nat} {s s' : Extent} {p p' : Pc} (h : Acts t s p s' p')
    (hs : s.Good g₀) (hknows : Knows g₀ t s p) : Knows g₀ t s' p' := by
  cases h with
  | miss | metricLookup | metricLoad | casDone | casFail | appendFail | beginFail | commitFail
    | abortFail | release | freeErase | freeQueue => trivial
  | lookup op hp huse =>
      cases op with
      | commitMigration hd newLoc => exact ⟨huse, hp⟩
      | _ => trivial
  | acquire hnone =>
      refine ⟨rfl, ?_⟩
      exact hknows
  | appendCheck hstate => exact ⟨hknows.1, .inl ⟨rfl, hstate⟩⟩
  | markDead => exact ⟨hknows.1, .inr rfl⟩
  | bumpLoad =>
      obtain ⟨hlock, hcase⟩ := hknows
      have hgen := Raw.generation_pack_succ (Raw.accessCount s.raw) (Raw.writeCount s.raw)
        (Raw.randomness s.raw) (Raw.state s.raw) s.raw
      rcases hcase with ⟨rfl, hstate⟩ | rfl
      · refine ⟨hlock, hstate, ?_, hgen⟩
        rw [repack, Raw.state_pack_state]
        exact hstate
      · exact ⟨hlock, hgen⟩
  | beginCheck => exact ⟨hknows.1, Raw.generation_pack_generation _ _ _ _ _, rfl⟩
  | commitCheck hgen =>
      refine ⟨hknows.1, hknows.2.1, hknows.2.2, hgen.symm, ?_⟩
      rw [← hgen]
      exact Raw.generation_pack_succ _ _ _ _ _
  | abortCheck => exact ⟨hknows.1, Raw.generation_pack_generation _ _ _ _ _⟩
  | @store w e =>
      obtain ⟨hlock, hprep⟩ := hknows
      refine ⟨hlock, ?_⟩
      cases e with
      | began hd =>
          have hgen : hd.genBefore = Raw.generation s.raw := hprep.2
          refine ⟨by simp [Effect.record], ?_⟩
          show hd.genBefore.toNat = (g₀ + bumps ((s.events ++ [Event.began]).take s.events.length)) % _
          rw [hgen, List.take_left']
          · exact hs.generation
          · rfl
      | appended => exact hprep.2.1
      | _ => trivial

/-! ## Runs -/

/-- A step that erases the extent does so while no `commit_migration` is between its lookup
and its store. -/
def SparesCommits (c c' : System) : Prop :=
  c.shared.present → c'.shared.present = false → ∀ u, ¬ (c.pc u).Committing

/-- The steps that spare the commits on their way. -/
def CarefulStep (c : System) (t : Nat) (c' : System) : Prop :=
  Step Acts c t c' ∧ SparesCommits c c'

/-- An extent in the map, no operation under way. -/
structure Initial (c : System) : Prop where
  present : c.shared.present
  handles : c.shared.handles = []
  events : c.shared.events = []
  idle : ∀ t, c.pc t = .idle

/-- Inside `append_slot`, from the check of the state to the end. -/
def Pc.Appending : Pc → Prop
  | .bumping .appended | .storing _ .appended | .releasing .appended => True
  | _ => False

/-- Inside `record_io` or `set_randomness`. -/
def Pc.Updating : Pc → Prop
  | .metric _ | .casing _ _ => True
  | _ => False

/-- The protocol is sound in a state: commits that returned true were undisturbed, an append
past its check has the extent ACTIVE, and metric updates keep state and generation. -/
structure Sound (c : System) : Prop where
  committed : Commits c.shared.events
  appending : ∀ t, (c.pc t).Appending → Raw.state c.shared.raw = Raw.active
  updating : ∀ t c', (c.pc t).Updating → Step Acts c t c' →
    Raw.state c'.shared.raw = Raw.state c.shared.raw ∧
      Raw.generation c'.shared.raw = Raw.generation c.shared.raw

abbrev Invariant (g₀ : Nat) : System → Prop := Holds (Extent.Good g₀) (Knows g₀)

theorem Initial.invariant {c : System} (h : Initial c) :
    Invariant (Raw.generation c.shared.raw).toNat c := by
  refine ⟨?_, fun t => ?_⟩
  · constructor
    case generation =>
      rw [h.events]
      exact (Nat.mod_eq_of_lt (Raw.generation_lt _)).symm
    case handles => simp [h.handles]
    case kept => simp [h.events]
    case commits => simp [Commits, h.events]
  · rw [h.idle t]
    trivial

theorem Invariant.step {c c' : System} {t : Nat} (h : Invariant g₀ c) (hstep : CarefulStep c t c') :
    Invariant g₀ c' := by
  obtain ⟨⟨hact⟩, hspare⟩ := hstep
  refine h.act (fun u s q s' => Knows.stable) ⟨hact.good h.shared (h.threads t),
    hact.knows h.shared (h.threads t)⟩ fun u hne => ?_
  refine hact.relied (h.threads t) hne fun hcommitting hpresent => ?_
  -- only an erasing step could take the extent from under the commit of `u`
  by_contra hgone
  exact hspare hpresent (by simpa using hgone) u hcommitting

theorem Invariant.sound {c : System} (h : Invariant g₀ c) : Sound c := by
  refine ⟨h.shared.commits, fun t happ => ?_, fun t c' hup hstep => ?_⟩
  · have hknows := h.threads t
    cases hpc : c.pc t with
    | bumping e =>
        rw [hpc] at hknows happ
        cases e with
        | appended => exact (hknows.2.resolve_right (by simp)).2
        | _ => exact happ.elim
    | storing w e =>
        rw [hpc] at hknows happ
        cases e with
        | appended => exact hknows.2.1
        | _ => exact happ.elim
    | releasing e =>
        rw [hpc] at hknows happ
        cases e with
        | appended => exact hknows.2
        | _ => exact happ.elim
    | _ =>
        rw [hpc] at happ
        exact happ.elim
  · obtain ⟨hact⟩ := hstep
    generalize c.pc t = p at hup hact
    cases hact with
    | metricLoad | casFail => exact ⟨rfl, rfl⟩
    | casDone hraw =>
        rw [hraw]
        exact Metric.keeps _ _
    | _ => exact hup.elim

/-- A step of thread `t` from where it stands. -/
theorem acts {c : System} {t : Nat} {p p' : Pc} {s : Extent} (hpc : c.pc t = p)
    (h : Acts t c.shared p s p') : Step Acts c t (c.act t s p') :=
  Step.of_pc hpc h

/-- A new extent. -/
def fresh : System where
  shared :=
    { present := true
      raw := 0
      location := {}
      usedBytes := 0
      liveBytes := 0
      lock := none
      deferredFree := []
      handles := []
      events := [] }
  pc _ := .idle

theorem fresh_initial : Initial fresh := ⟨rfl, rfl, rfl, fun _ => rfl⟩

/-- The handle the first `begin_migration` returns. -/
def firstHandle : Handle := ⟨Raw.generation 0, {}, 0⟩

/-- Thread 0 begins a migration and looks the extent up to commit it; thread 1 erases it. -/
theorem erased_under_commit : ∃ c, Run (Step Acts) fresh c ∧
    c.shared.events = [.began, .freed, .committed 0] := by
  have hbegun := (Run.refl fresh : Run (Step Acts) fresh fresh)
    |>.snoc 0 (acts rfl (.lookup .beginMigration rfl trivial))
    |>.snoc 0 (acts rfl (.acquire rfl))
    |>.snoc 0 (acts rfl (.beginCheck (by decide)))
    |>.snoc 0 (acts rfl .store)
    |>.snoc 0 (acts rfl .release)
  have hlooked := hbegun.snoc 0 (acts rfl
    (.lookup (.commitMigration firstHandle {}) rfl (List.mem_singleton.mpr rfl)))
  have herased := hlooked.snoc 1 (acts rfl (.freeErase rfl))
  have hcommitted := herased
    |>.snoc 0 (acts rfl (.acquire rfl))
    |>.snoc 0 (acts rfl (.commitCheck (by decide)))
    |>.snoc 0 (acts rfl .store)
  exact ⟨_, hcommitted, rfl⟩

end Clab.Btier.Protocol
