import Clab.Bluefs.Bookkeeping
import Clab.Bluefs.SpaceLedger

/-!
# Every call keeps the books of space

Each operation of BlueFS leaves a ledger: a flush takes bytes from a pool, a
truncation or an unlink queues them, and the flush of the log gives what is
pending back.
-/

namespace Clab.Bluefs

open Blk Common HandOut

variable {V A : Type} [Allocator A] {holds : A → Set Nat → Prop} {s : BlueFS V A}
  {pool region : Nat → Set Nat}

/-- Some pools balance the books. -/
def Balanced (holds : A → Set Nat → Prop) (s : BlueFS V A) (region : Nat → Set Nat) : Prop :=
  ∃ pool, Ledger holds s pool region

omit [Allocator A] in
theorem SameSpace.balanced [Allocator A] {s s' : BlueFS V A} (h : SameSpace s s')
    (hs : Balanced holds s region) : Balanced holds s' region := by
  obtain ⟨pool, hledger⟩ := hs
  exact ⟨pool, h.ledger hledger⟩

/-! ## File data -/

omit [Allocator A] in
theorem flushBdev_sameSpace (s : BlueFS V A) (h : FileWriter) : SameSpace s (s.flushBdev h).2 :=
  .of_files rfl rfl rfl rfl

omit [Allocator A] in
theorem advance_sameSpace (s : BlueFS V A) (h : FileWriter) (length : Nat) :
    SameSpace s (s.advance h length).2 :=
  .of_setFile rfl rfl rfl rfl rfl

omit [Allocator A] in
theorem writeExtents_sameSpace (s : BlueFS V A) (h : FileWriter) (buffered : Bool)
    (es : List Extent) (x : Nat) (bl : Bytes) :
    SameSpace s (s.writeExtents h buffered es x bl).2.2 := by
  obtain ⟨⟨b, hs⟩, -⟩ := s.writeExtents_eq h buffered es x bl
  rw [hs]
  exact .of_files rfl rfl rfl rfl

omit [Allocator A] in
theorem flushData_sameSpace (s : BlueFS V A) (h : FileWriter) (offset length : Nat)
    (buffered : Bool) : SameSpace s (s.flushData h offset length buffered).2.2 := by
  unfold BlueFS.flushData
  split
  · exact .refl s
  · simp only
    cases (s.nodes.files h.file).fnode.seek offset with
    | none => exact .refl s
    | some p =>
        obtain ⟨i, x⟩ := p
        have hwrite := writeExtents_sameSpace s h buffered
          ((s.nodes.files h.file).fnode.extents.drop i) x (h.buffer.take h.bufferLength)
        simp only
        split
        · exact hwrite
        · exact hwrite.trans (advance_sameSpace _ _ _)

omit [Allocator A] in
theorem growSize_sameSpace [VolumeSelector V] (s : BlueFS V A) (r : FileRef) (stop : Nat) :
    SameSpace s (s.growSize r stop) := by
  unfold BlueFS.growSize
  simp only
  split
  · exact .of_setFile rfl rfl rfl rfl rfl
  · exact .refl s

section Flush

variable [VolumeSelector V]

omit [VolumeSelector V] in
/-- An allocation for a live file: what it grants goes to the file. -/
theorem allocate_ledger (law : LawfulAllocator holds) (h : Ledger holds s pool region)
    {r : FileRef} (hr : r < s.nodes.nextRef) (hlive : (s.nodes.files r).deleted = false)
    {prefer len unit : Nat} {res : Int} {fnode : Fnode} {s₁ : BlueFS V A}
    (hal : s.allocate prefer len unit (s.nodes.files r).fnode = (res, fnode, s₁)) :
    ∃ pool' : Nat → Set Nat, (res < 0 → Ledger holds s₁ pool' region) ∧
      ∀ (s' : BlueFS V A) (f : File), s'.alloc = s₁.alloc →
        s'.dirty.pendingRelease = s.dirty.pendingRelease →
        s'.nodes = s.nodes.setFile r f → f.deleted = false → f.fnode.extents = fnode.extents →
        Ledger holds s' pool' region := by
  obtain ⟨pool', hbacked, hfull, hmoved⟩ := allocate_pool law prefer len unit h.backed
    (h.files r hlive)
  obtain ⟨a, u, heq⟩ := s.allocate_eq prefer len unit (s.nodes.files r).fnode
  have hnode : (s.allocate prefer len unit (s.nodes.files r).fnode).1 < 0 → _ :=
    allocate_node prefer len unit
  rw [hal] at hbacked hfull hmoved heq hnode
  subst heq
  refine ⟨pool', fun hres => ?_, fun s' f halloc hpending hnodes hdeleted hextents => ?_⟩
  · rw [hnode hres] at hmoved
    exact h.asked hbacked rfl rfl fun y => Nat.add_left_cancel (hmoved y)
  · rw [← halloc] at hbacked
    rw [← hextents] at hfull hmoved
    exact h.grant hbacked hpending hnodes hr hlive hdeleted hfull hmoved

/-- The allocation of a flush. -/
theorem growSpace_balanced (law : LawfulAllocator holds) (h : Ledger holds s pool region)
    {r : FileRef} (hr : r < s.nodes.nextRef) (hlive : (s.nodes.files r).deleted = false)
    (stop : Nat) : Balanced holds (s.growSpace r stop).2 region := by
  unfold BlueFS.growSpace
  simp only
  split
  case isTrue =>
    generalize VolumeSelector.selectPreferBdev s.vselector _ = prefer
    rcases hal : s.allocate prefer (stop - (s.nodes.files r).fnode.allocated) 0
      (s.nodes.files r).fnode with ⟨res, fnode, s₁⟩
    obtain ⟨a, u, rfl⟩ : ∃ a u, s₁ = { s with alloc := a, bluefsUsed := u } := by
      have heq := s.allocate_eq prefer (stop - (s.nodes.files r).fnode.allocated) 0
        (s.nodes.files r).fnode
      rwa [hal] at heq
    obtain ⟨pool', hfails, hgrants⟩ := allocate_ledger law h hr hlive hal
    simp only
    split
    case isTrue hres => exact ⟨pool', hfails hres⟩
    case isFalse =>
      exact ⟨pool', hgrants _ { s.nodes.files r with fnode, isDirty := true } rfl rfl rfl hlive rfl⟩
  case isFalse => exact ⟨pool, h⟩

theorem flushFrom_balanced (law : LawfulAllocator holds) (hs : Balanced holds s region)
    {h : FileWriter} (hr : h.file < s.nodes.nextRef)
    (hlive : (s.nodes.files h.file).deleted = false) (offset length : Nat) :
    Balanced holds (s.flushFrom h offset length).2.2 region := by
  obtain ⟨pool, hledger⟩ := hs
  have hspace := growSpace_balanced law hledger hr hlive (offset + length)
  unfold BlueFS.flushFrom
  simp only
  split
  · exact hspace
  · exact ((growSize_sameSpace _ h.file (offset + length)).trans
      (flushData_sameSpace _ h offset length _)).balanced hspace

theorem flushF_balanced (law : LawfulAllocator holds) (hs : Balanced holds s region)
    {h : FileWriter} (hr : h.file < s.nodes.nextRef) (force : Bool) :
    Balanced holds (s.flushF h force).2.2 region := by
  have hrange : Balanced holds (s.flushRange h h.pos h.bufferLength).2.2 region := by
    unfold BlueFS.flushRange
    split
    case isTrue => exact hs
    case isFalse hlive =>
      have hlive : (s.nodes.files h.file).deleted = false := by simpa using hlive
      split
      · exact hs
      · split
        · exact flushFrom_balanced law hs hr hlive _ _
        · exact flushFrom_balanced law hs hr hlive _ _
  unfold BlueFS.flushF
  split
  · exact hs
  · split
    · exact hs
    · simp only
      split <;> exact hrange

end Flush

/-! ## The flush of the log -/

omit [Allocator A] in
theorem logFileUpdateInc_sameSpace (s : BlueFS V A) (r : FileRef) :
    SameSpace s (s.logFileUpdateInc r) :=
  .of_setFile rfl rfl rfl rfl rfl

omit [Allocator A] in
theorem signalDirtyToLog_sameSpace (s : BlueFS V A) (r : FileRef) :
    SameSpace s (s.signalDirtyToLog r) := by
  unfold BlueFS.signalDirtyToLog
  simp only
  split
  · exact .of_setFile rfl rfl rfl rfl rfl
  · exact .of_setFile rfl rfl rfl rfl rfl

omit [Allocator A] in
theorem consumeDirty_sameSpace (s : BlueFS V A) (seq : Nat) : SameSpace s (s.consumeDirty seq) := by
  unfold BlueFS.consumeDirty
  generalize s.waiting seq = rs
  induction rs generalizing s with
  | nil => exact .refl s
  | cons r rs ih => exact (logFileUpdateInc_sameSpace s r).trans (ih _)

omit [Allocator A] in
theorem flushLogData_sameSpace (s : BlueFS V A) (w : FileWriter) (bl : Bytes) :
    SameSpace s (s.flushLogData w bl).2.2 := by
  unfold BlueFS.flushLogData
  simp only
  cases (s.nodes.files w.file).fnode.seek w.pos with
  | none => exact advance_sameSpace s w _
  | some p =>
      obtain ⟨i, x⟩ := p
      have hwrite := writeExtents_sameSpace s w false
        ((s.nodes.files w.file).fnode.extents.drop i) x bl
      simp only
      split
      · exact hwrite
      · exact hwrite.trans (advance_sameSpace _ _ _)

omit [Allocator A] in
theorem writeLog_sameSpace (s : BlueFS V A) (w : FileWriter) (t : Transaction) :
    SameSpace s (s.writeLog w t).2 := by
  have hdata := flushLogData_sameSpace s w (s.logBytes t)
  unfold BlueFS.writeLog
  simp only
  split
  · exact hdata.trans (.of_files rfl rfl rfl rfl)
  · exact hdata.trans (.of_files rfl rfl rfl rfl)

omit [Allocator A] in
theorem recordStable_sameSpace (s : BlueFS V A) (seq : Nat) : SameSpace s (s.recordStable seq) := by
  have hnext : (s.recordStable seq).nodes.nextRef = s.nodes.nextRef := by
    unfold BlueFS.recordStable
    simp only
    generalize s.waiting seq = rs
    generalize s.nodes = n
    induction rs generalizing n with
    | nil => rfl
    | cons r rs ih => rw [List.foldl_cons, ih]; rfl
  refine ⟨rfl, rfl, hnext, fun r => ?_, fun r => ?_⟩ <;>
    rw [BlueFS.recordStable_files] <;> split <;> rfl

section Log

variable [VolumeSelector V]

/-- The log is a file that is not deleted. -/
def LogLive (s : BlueFS V A) (w : FileWriter) : Prop :=
  w.file < s.nodes.nextRef ∧ (s.nodes.files w.file).deleted = false

omit [Allocator A] [VolumeSelector V] in
theorem SameSpace.logLive {s s' : BlueFS V A} (h : SameSpace s s') {w : FileWriter}
    (hw : LogLive s w) : LogLive s' w :=
  ⟨by rw [h.nextRef]; exact hw.1, by rw [h.deleted]; exact hw.2⟩

theorem maybeExtendLog_balanced (law : LawfulAllocator holds) (hs : Balanced holds s region)
    {w : FileWriter} (hw : LogLive s w) : Balanced holds (s.maybeExtendLog w).2 region := by
  obtain ⟨pool, hledger⟩ := hs
  unfold BlueFS.maybeExtendLog
  simp only
  split
  case isTrue => exact ⟨pool, hledger⟩
  case isFalse =>
    generalize VolumeSelector.selectPreferBdev s.vselector _ = prefer
    generalize p2roundup _ _ = len
    rcases hal : s.allocate prefer len s.cfg.allocSize (s.nodes.files w.file).fnode with
      ⟨res, fnode, s₁⟩
    obtain ⟨a, u, rfl⟩ : ∃ a u, s₁ = { s with alloc := a, bluefsUsed := u } := by
      have heq := s.allocate_eq prefer len s.cfg.allocSize (s.nodes.files w.file).fnode
      rwa [hal] at heq
    obtain ⟨pool', hfails, hgrants⟩ := allocate_ledger law hledger hw.1 hw.2 hal
    simp only
    split
    case isTrue hres => exact ⟨pool', hfails hres⟩
    case isFalse =>
      refine (logFileUpdateInc_sameSpace _ w.file).balanced ⟨pool', ?_⟩
      exact hgrants _ { s.nodes.files w.file with fnode } rfl rfl rfl hw.2 rfl

theorem gather_balanced (law : LawfulAllocator holds) (hs : Balanced holds s region)
    {w : FileWriter} (hw : LogLive s w) : Balanced holds (s.gather w).2 region := by
  have htake : SameSpace s s.takeSeq.2 := .of_files rfl rfl rfl rfl
  have hsame := htake.trans (consumeDirty_sameSpace s.takeSeq.2 s.takeSeq.1)
  have hextend := maybeExtendLog_balanced law (hsame.balanced hs) (hsame.logLive hw)
  unfold BlueFS.gather
  simp only
  split
  · exact hextend
  · refine SameSpace.balanced ?_ hextend
    exact .of_files rfl rfl rfl rfl

/-! ## What is pending goes back -/

omit [VolumeSelector V] [Allocator A] in
/-- The extents to release hold what is pending. -/
theorem releaseVec_cover (s : BlueFS V A) (id x : Nat) :
    coverCount (s.releaseVec id) x = pendCover s.dirty.pendingRelease (id, x) := by
  unfold BlueFS.releaseVec pendCover coverCount OrderedMap.sum
  rw [List.countP_map]
  induction (s.dirty.pendingRelease id).entries with
  | nil => rfl
  | cons e es ih =>
      rw [List.countP_cons, ih, List.map_cons, List.sum_cons, Nat.add_comm]
      simp [PExtent.has]

omit [VolumeSelector V] [Allocator A] in
theorem inPool_sep (free : Set Nat) (p : Nat → Prop) [DecidablePred p] (x : Nat) :
    inPool {x ∈ free | p x} x = if p x then inPool free x else 0 := by
  unfold inPool
  by_cases hp : p x
  · rw [if_pos hp]
    by_cases hx : x ∈ free
    · rw [if_pos hx, if_pos ⟨hx, hp⟩]
    · rw [if_neg hx, if_neg fun hc => hx hc.1]
  · rw [if_neg hp, if_neg fun hc => hp hc.2]

/-- The bytes that BlueFS accounts for after a drain: what was pending on a shared device is
not given back to its allocator. -/
def drained (s : BlueFS V A) (region : Nat → Set Nat) : Nat → Set Nat := fun id =>
  if s.sharedAllocId = some id ∧ id < MAX_BDEV
  then {x ∈ region id | pendCover s.dirty.pendingRelease (id, x) = 0} else region id

omit [VolumeSelector V] [Allocator A] in
theorem drained_dedicated (h : s.sharedAllocId = none) : drained s region = region := by
  funext id
  exact if_neg (by rw [h]; simp)

omit [VolumeSelector V] in
theorem drainPending_ledger (law : LawfulAllocator holds) (h : Ledger holds s pool region) :
    ∃ pool', Ledger holds s.drainPending pool' (drained s region) := by
  have hone : ∀ id x, coverCount (s.releaseVec id) x + inPool (pool id) x ≤ 1 := by
    intro id x
    have hle : s.nodes.owned (id, x) + pendCover s.dirty.pendingRelease (id, x) +
      inPool (pool id) x ≤ 1 := h.le_one (id, x)
    rw [releaseVec_cover]
    omega
  -- what one device's allocator holds afterwards
  have hdevice : ∀ id, ∃ free, holds (s.drainPending.alloc id) free ∧
      ∀ x, inPool free x = inPool (pool id) x + if id < MAX_BDEV ∧ s.sharedAllocId ≠ some id
        then coverCount (s.releaseVec id) x else 0 := by
    intro id
    unfold BlueFS.drainPending
    simp only
    by_cases hid : id < MAX_BDEV ∧ s.sharedAllocId ≠ some id
    · by_cases hnil : s.releaseVec id = []
      · refine ⟨pool id, ?_, fun x => ?_⟩
        · rw [if_neg fun hc => hc.2.1 hnil]
          exact h.backed id
        · rw [if_pos hid, hnil]
          rfl
      · obtain ⟨free, hfree, hcount⟩ := law.release (h.backed id) (hone id)
        refine ⟨free, ?_, fun x => ?_⟩
        · rw [if_pos ⟨hid.1, hnil, hid.2⟩]
          exact hfree
        · rw [if_pos hid, hcount, Nat.add_comm]
    · refine ⟨pool id, ?_, fun x => ?_⟩
      · rw [if_neg fun hc => hid ⟨hc.1, hc.2.2⟩]
        exact h.backed id
      · rw [if_neg hid, Nat.add_zero]
  choose pool' hbacked hcount using hdevice
  refine ⟨pool', hbacked, fun y => ?_, h.files, ?_⟩
  · obtain ⟨b, x⟩ := y
    have htotal : s.nodes.owned (b, x) + pendCover s.dirty.pendingRelease (b, x) +
      inPool (pool b) x = inPool (region b) x := h.total (b, x)
    have hpool := hcount b x
    have hpending : pendCover s.drainPending.dirty.pendingRelease (b, x) =
        if b < MAX_BDEV then 0 else pendCover s.dirty.pendingRelease (b, x) := by
      unfold BlueFS.drainPending pendCover
      simp only
      split <;> rfl
    rw [releaseVec_cover] at hpool
    show s.nodes.owned (b, x) + pendCover s.drainPending.dirty.pendingRelease (b, x) +
      inPool (pool' b) x = inPool (drained s region b) x
    rw [hpending, hpool]
    unfold drained
    by_cases hdev : b < MAX_BDEV
    · rw [if_pos hdev]
      by_cases hshared : s.sharedAllocId = some b
      · -- what was pending on the shared device is lost
        have hle := inPool_le (region b) x
        rw [if_neg (fun hc => hc.2 hshared), if_pos ⟨hshared, hdev⟩, inPool_sep]
        split
        case isTrue hnone => omega
        case isFalse hsome => omega
      · rw [if_pos ⟨hdev, hshared⟩, if_neg (fun hc => hshared hc.1), ← htotal]
        omega
    · rw [if_neg hdev, if_neg (fun hc => hdev hc.1), if_neg (fun hc => hdev hc.2), ← htotal]
      omega
  · intro b o len hl
    have hl : (if b < MAX_BDEV then OrderedMap.empty else s.dirty.pendingRelease b).lookup o =
        some len := hl
    split at hl
    case isTrue => exact absurd hl (by simp)
    case isFalse => exact h.pending b o len hl

end Log

end Clab.Bluefs
