import Clab.Blk.FreeList
import Clab.Bluefs.FlushedData

/-!
# What is appended is what is read

Runs of `append_try_flush`, `flush` and `fsync` on the writer of a new file. The
data of the file and the buffer of the writer are together what was appended, as
long as the allocators answer with the space they are asked for.
-/

namespace Clab.Bluefs

open Blk Common Segments

variable {V A : Type}

/-! ## The heap of files -/

/-- The same files and the same file of the log. -/
structure SameHeap (s s' : BlueFS V A) : Prop where
  nextRef : s'.nodes.nextRef = s.nodes.nextRef
  deleted : ∀ r, (s'.nodes.files r).deleted = (s.nodes.files r).deleted
  writer : s'.log.writer.map FileWriter.file = s.log.writer.map FileWriter.file

namespace SameHeap

variable {s s' s'' : BlueFS V A}

theorem refl (s : BlueFS V A) : SameHeap s s := ⟨rfl, fun _ => rfl, rfl⟩

theorem trans (h : SameHeap s s') (h' : SameHeap s' s'') : SameHeap s s'' :=
  ⟨h'.nextRef.trans h.nextRef, fun r => (h'.deleted r).trans (h.deleted r),
    h'.writer.trans h.writer⟩

theorem of_space (h : SameSpace s s')
    (hwriter : s'.log.writer.map FileWriter.file = s.log.writer.map FileWriter.file) :
    SameHeap s s' :=
  ⟨h.nextRef, h.deleted, hwriter⟩

theorem of_flush {r : FileRef} (h : s.FlushOf s' r) : SameHeap s s' :=
  ⟨h.nextRef, h.deleted, by rw [h.log]⟩

theorem logLive (h : SameHeap s s') {w : FileWriter} (hw : LogLive s w) : LogLive s' w :=
  ⟨by rw [h.nextRef]; exact hw.1, by rw [h.deleted]; exact hw.2⟩

end SameHeap

theorem consumeDirty_writer (s : BlueFS V A) (seq : Nat) :
    (s.consumeDirty seq).log.writer = s.log.writer := by
  unfold BlueFS.consumeDirty
  generalize s.waiting seq = rs
  induction rs generalizing s with
  | nil => rfl
  | cons r rs ih => exact ih _

section Log

variable [VolumeSelector V] [Allocator A]

theorem maybeExtendLog_heap (s : BlueFS V A) (w : FileWriter) :
    SameHeap s (s.maybeExtendLog w).2 := by
  unfold BlueFS.maybeExtendLog
  simp only
  split
  case isTrue => exact .refl s
  case isFalse =>
    generalize VolumeSelector.selectPreferBdev s.vselector _ = prefer
    generalize p2roundup _ _ = len
    obtain ⟨a, u, heq⟩ := s.allocate_eq prefer len s.cfg.allocSize (s.nodes.files w.file).fnode
    rw [heq]
    split
    · exact ⟨rfl, fun _ => rfl, rfl⟩
    · have hset : ∀ fnode, SameHeap s { s with
          alloc := a
          bluefsUsed := u
          nodes := s.nodes.setFile w.file { s.nodes.files w.file with fnode } } := by
        refine fun fnode => ⟨rfl, fun r => ?_, rfl⟩
        simp only [Nodes.setFile_files]
        split
        case isTrue hr => rw [hr]
        case isFalse => rfl
      exact (hset _).trans (.of_space (logFileUpdateInc_sameSpace _ w.file) rfl)

theorem gather_heap (s : BlueFS V A) (w : FileWriter) : SameHeap s (s.gather w).2 := by
  have htake : SameHeap s s.takeSeq.2 := ⟨rfl, fun _ => rfl, rfl⟩
  have hextend : SameHeap s ((s.takeSeq.2.consumeDirty s.takeSeq.1).maybeExtendLog w).2 :=
    htake.trans ((SameHeap.of_space (consumeDirty_sameSpace _ _)
      (by rw [consumeDirty_writer])).trans (maybeExtendLog_heap _ w))
  unfold BlueFS.gather
  simp only
  split
  · exact hextend
  · exact hextend.trans ⟨rfl, fun _ => rfl, rfl⟩

omit [VolumeSelector V] [Allocator A] in
theorem writeLog_heap {s : BlueFS V A} {w : FileWriter}
    (hw : s.log.writer.map FileWriter.file = some w.file) (t : Transaction) :
    SameHeap s (s.writeLog w t).2 := by
  obtain ⟨w', hw', hfile⟩ := s.writeLog_writer w t
  exact .of_space (writeLog_sameSpace s w t) (by rw [hw', hw, Option.map_some, hfile])

/-! ## The flush of the log -/

/-- A live file that is not the log, in a BlueFS whose files share no byte. -/
structure Ready (holds : A → Set Nat → Prop) (s : BlueFS V A) (r : FileRef) : Prop where
  balanced : ∃ region, Balanced holds s region
  made : r < s.nodes.nextRef
  live : (s.nodes.files r).deleted = false
  log : ∀ l, s.log.writer.map FileWriter.file = some l →
    l < s.nodes.nextRef ∧ (s.nodes.files l).deleted = false ∧ l ≠ r

variable {holds : A → Set Nat → Prop} {s : BlueFS V A} {r : FileRef}

omit [VolumeSelector V] in
theorem Ready.heap (h : Ready holds s r) {s' : BlueFS V A} (hheap : SameHeap s s')
    (hbalanced : ∃ region, Balanced holds s' region) : Ready holds s' r := by
  refine ⟨hbalanced, ?_, ?_, fun l hl => ?_⟩
  · rw [hheap.nextRef]
    exact h.made
  · rw [hheap.deleted]
    exact h.live
  · rw [hheap.nextRef, hheap.deleted]
    exact h.log l (by rw [← hheap.writer]; exact hl)

omit [VolumeSelector V] in
/-- The steps of the log flush once its transaction is written. -/
theorem Ready.settle (law : LawfulAllocator holds) (h : Ready holds s r) (seq : Nat) :
    Ready holds (s.recordStable seq).drainPending r ∧
      KeepsFile s (s.recordStable seq).drainPending r := by
  have hsame := recordStable_sameSpace s seq
  obtain ⟨region, hbalanced⟩ := h.balanced
  obtain ⟨pool, hledger⟩ := hsame.balanced hbalanced
  obtain ⟨pool', hdrained⟩ := drainPending_ledger law hledger
  have hheap : SameHeap s (s.recordStable seq).drainPending :=
    (SameHeap.of_space hsame rfl).trans ⟨rfl, fun _ => rfl, rfl⟩
  have hdrain : KeepsFile (s.recordStable seq) (s.recordStable seq).drainPending r :=
    .of_file rfl rfl
  exact ⟨h.heap hheap ⟨_, pool', hdrained⟩, (s.recordStable_keepsFile seq r).trans hdrain⟩

omit [VolumeSelector V] in
/-- The write of a transaction leaves the file and its bytes. -/
theorem Ready.writeLog (h : Ready holds s r) {w : FileWriter}
    (hw : s.log.writer.map FileWriter.file = some w.file) (t : Transaction) :
    Ready holds (s.writeLog w t).2 r ∧ KeepsFile s (s.writeLog w t).2 r := by
  obtain ⟨hmade, hlive, hne⟩ := h.log _ hw
  obtain ⟨region, hbalanced⟩ := h.balanced
  refine ⟨h.heap (writeLog_heap hw t) ⟨region, (writeLog_sameSpace s w t).balanced hbalanced⟩, ?_⟩
  exact BlueFS.writeLog_keepsFile hne t fun y hy =>
    hbalanced.apart h.made h.live hmade hlive hne hy

/-- The flush of the log leaves the file and its bytes. -/
theorem flushAndSyncLog_ready (law : LawfulAllocator holds) (h : Ready holds s r) {w : FileWriter}
    (hw : s.log.writer = some w) {wantSeq : Nat} {res : Int} {s' : BlueFS V A}
    (hflush : s.flushAndSyncLog w wantSeq = some (res, s')) :
    Ready holds s' r ∧ KeepsFile s s' r := by
  have hfile : s.log.writer.map FileWriter.file = some w.file := by
    rw [hw]
    rfl
  obtain ⟨hmade, hlive, hne⟩ := h.log _ hfile
  obtain ⟨region, hbalanced⟩ := h.balanced
  have hheap := gather_heap s w
  have hready : Ready holds (s.gather w).2 r :=
    h.heap hheap ⟨region, gather_balanced law hbalanced ⟨hmade, hlive⟩⟩
  have hkept : KeepsFile s (s.gather w).2 r := BlueFS.gather_keepsFile hne
  unfold BlueFS.flushAndSyncLog at hflush
  split at hflush
  case isTrue =>
    obtain ⟨-, rfl⟩ := Prod.mk.inj (Option.some.inj hflush)
    exact ⟨h, .refl s r⟩
  case isFalse =>
    split at hflush
    case isTrue => exact absurd hflush (by simp)
    case isFalse =>
      rcases hg : s.gather w with ⟨result, s₁⟩
      rw [hg] at hheap hready hkept hflush
      cases result with
      | error e =>
          obtain ⟨-, rfl⟩ := Prod.mk.inj (Option.some.inj hflush)
          exact ⟨hready, hkept⟩
      | ok t =>
          have hfile₁ := hheap.writer.trans hfile
          obtain ⟨hwritten, hsame⟩ := hready.writeLog hfile₁ t
          simp only at hflush
          split at hflush
          case isTrue =>
            obtain ⟨-, rfl⟩ := Prod.mk.inj (Option.some.inj hflush)
            exact ⟨hwritten, hkept.trans hsame⟩
          case isFalse =>
            obtain ⟨-, rfl⟩ := Prod.mk.inj (Option.some.inj hflush)
            obtain ⟨hsettled, hsame'⟩ := hwritten.settle law t.seq
            exact ⟨hsettled, hkept.trans (hsame.trans hsame')⟩

/-! ## One call -/

/-- `flush_F` of the file of the writer. -/
theorem Ready.flushF (law : LawfulAllocator holds) {h : FileWriter} (hr : Ready holds s h.file)
    (force : Bool) : Ready holds (s.flushF h force).2.2 h.file := by
  obtain ⟨region, hbalanced⟩ := hr.balanced
  exact hr.heap (.of_flush (s.flushF_flushOf h force))
    ⟨region, flushF_balanced law hbalanced hr.made force⟩

omit [VolumeSelector V] in
theorem Ready.signal {x : FileRef} (h : Ready holds s r) :
    Ready holds (s.signalDirtyToLog x) r := by
  obtain ⟨region, hbalanced⟩ := h.balanced
  have hsame := signalDirtyToLog_sameSpace s x
  exact h.heap (.of_space hsame (by rw [(s.signalDirtyToLog_dirty x).1]))
    ⟨region, hsame.balanced hbalanced⟩

/-- A flush returns 0 or an error. -/
theorem flushF_nonpos (s : BlueFS V A) (h : FileWriter) (force : Bool) :
    (s.flushF h force).1 ≤ 0 := by
  have hdata : ∀ (t : BlueFS V A) (offset length : Nat) (buffered : Bool),
      (t.flushData h offset length buffered).1 ≤ 0 := by
    intro t offset length buffered
    unfold BlueFS.flushData
    split
    · exact le_rfl
    · simp only
      cases (t.nodes.files h.file).fnode.seek offset with
      | none => exact (show -enoent ≤ (0 : Int) by decide)
      | some p =>
          simp only
          split
          case isTrue hneg => exact hneg.le
          case isFalse => exact le_rfl
  have hfrom : ∀ offset length, (s.flushFrom h offset length).1 ≤ 0 := by
    intro offset length
    unfold BlueFS.flushFrom
    simp only
    split
    case isTrue hneg => exact hneg.le
    case isFalse => exact hdata _ _ _ _
  have hrange : (s.flushRange h h.pos h.bufferLength).1 ≤ 0 := by
    unfold BlueFS.flushRange
    split
    · exact le_rfl
    · split
      · exact le_rfl
      · split <;> exact hfrom _ _
  unfold BlueFS.flushF
  split
  · exact le_rfl
  · split
    · exact le_rfl
    · simp only
      split
      · exact le_rfl
      · exact hrange

/-- What `fsync` does after the flush of the writer leaves the file and its bytes. -/
theorem fsync_flushes (law : LawfulAllocator holds) {h h' : FileWriter} {s' : BlueFS V A}
    (hready : Ready holds s h.file) (hsync : s.fsync h = some (0, h', s')) :
    ∃ h₁ s₁, s.flushF h true = (0, h₁, s₁) ∧ h' = (s₁.flushBdev h₁).1 ∧
      Ready holds s' h.file ∧ KeepsFile s₁ s' h.file := by
  have hflushed := hready.flushF law true
  have hnonpos := flushF_nonpos s h true
  unfold BlueFS.fsync at hsync
  generalize s.flushF h true = flushed at *
  obtain ⟨res, h₁, s₁⟩ := flushed
  simp only at hsync hflushed hnonpos
  split at hsync
  case isTrue hneg =>
    have hzero := (Prod.mk.inj (Option.some.inj hsync)).1
    omega
  case isFalse hok =>
    obtain rfl : res = 0 := by omega
    -- the flush of the devices and the mark change no data
    have hbdev : Ready holds (s₁.flushBdev h₁).2 h.file ∧
        KeepsFile s₁ (s₁.flushBdev h₁).2 h.file := by
      obtain ⟨region₁, hbalanced₁⟩ := hflushed.balanced
      exact ⟨hflushed.heap ⟨rfl, fun _ => rfl, rfl⟩
        ⟨region₁, (flushBdev_sameSpace s₁ h₁).balanced hbalanced₁⟩,
        s₁.flushBdev_keepsFile h₁ _⟩
    have hmarked : ∀ s₂ : BlueFS V A,
        (s₂ = if ((s₁.flushBdev h₁).2.nodes.files (s₁.flushBdev h₁).1.file).isDirty
          then (s₁.flushBdev h₁).2.signalDirtyToLog (s₁.flushBdev h₁).1.file
          else (s₁.flushBdev h₁).2) →
        Ready holds s₂ h.file ∧ KeepsFile s₁ s₂ h.file := by
      rintro s₂ rfl
      split
      · exact ⟨hbdev.1.signal, hbdev.2.trans (BlueFS.signalDirtyToLog_keepsFile _ _ _)⟩
      · exact hbdev
    generalize hs₂ : (if ((s₁.flushBdev h₁).2.nodes.files (s₁.flushBdev h₁).1.file).isDirty
      then (s₁.flushBdev h₁).2.signalDirtyToLog (s₁.flushBdev h₁).1.file
      else (s₁.flushBdev h₁).2) = s₂ at hsync
    obtain ⟨hready₂, hkept₂⟩ := hmarked s₂ hs₂.symm
    split at hsync
    case isTrue =>
      obtain ⟨w, hwriter, hmap⟩ := Option.bind_eq_some_iff.mp hsync
      obtain ⟨⟨res', s₃⟩, hlog, heq⟩ := Option.map_eq_some_iff.mp hmap
      obtain ⟨hready₃, hkept₃⟩ := flushAndSyncLog_ready law hready₂ hwriter hlog
      obtain ⟨-, heq⟩ := Prod.mk.inj heq
      obtain ⟨rfl, rfl⟩ := Prod.mk.inj heq
      exact ⟨h₁, s₁, rfl, rfl, hready₃, hkept₂.trans hkept₃⟩
    case isFalse =>
      obtain ⟨-, heq⟩ := Prod.mk.inj (Option.some.inj hsync)
      obtain ⟨rfl, rfl⟩ := Prod.mk.inj heq
      exact ⟨h₁, s₁, rfl, rfl, hready₂, hkept₂⟩

/-- An `fsync` that returns 0 leaves nothing in the buffer. -/
theorem fsync_writes (law : LawfulAllocator holds) {h h' : FileWriter} {s' : BlueFS V A}
    {data : Bytes} (hready : Ready holds s h.file) (hw : Buffered s h data)
    (hshort : h.buffer.length < 2 ^ 32) (hgranted : s.Granted h)
    (hsync : s.fsync h = some (0, h', s')) :
    Ready holds s' h'.file ∧ h'.file = h.file ∧ h'.buffer = [] ∧
      Writes s' h' (data ++ h.buffer) := by
  obtain ⟨region, hbalanced⟩ := hready.balanced
  have hflush := flushF_buffered law hbalanced hready.made hready.live hw hshort
    (show true = true ∨ _ → s.Granted h from fun _ => hgranted)
  obtain ⟨h₁, s₁, hcall, rfl, hready', hkept⟩ := fsync_flushes law hready hsync
  rw [hcall] at hflush
  obtain ⟨hfile, -, hempty, data', hw₁, hdata⟩ := hflush rfl
  have hempty := hempty rfl
  simp only at hfile hempty hw₁ hdata
  rw [hempty, List.append_nil] at hdata
  subst hdata
  have hstop := hw₁.stop
  rw [hempty, List.length_nil, Nat.add_zero] at hstop
  rw [← hfile] at hready' hkept
  have hstored : Stored s' h₁.file (data ++ h.buffer) :=
    (hkept.laid hw₁.laid).stored (by rw [hkept.size]; exact le_antisymm hstop hw₁.start)
  exact ⟨hready', hfile, hempty, hstored, hw₁.pos⟩

end Log

/-! ## Runs -/

/-- A call on one writer. -/
inductive WriterCall
  | append (chunk : Bytes)
  | flush (force : Bool)
  | fsync

namespace WriterCall

/-- The bytes that the call appends. -/
def chunk : WriterCall → Bytes
  | append chunk => chunk
  | flush _ => []
  | fsync => []

variable [VolumeSelector V] [Allocator A]

/-- The call, its result, the writer and BlueFS after it. -/
def run (s : BlueFS V A) (h : FileWriter) : WriterCall → Option (Int × FileWriter × BlueFS V A)
  | append chunk => some (s.appendTryFlush h chunk)
  | flush force => some (s.flushF h force)
  | fsync => s.fsync h

/-- The buffer stays below 4 GiB, and a flush that the call makes is granted the space it asks
for. -/
def Served (s : BlueFS V A) (h : FileWriter) : WriterCall → Prop
  | append chunk => h.buffer.length + chunk.length < 2 ^ 32 ∧
      (s.cfg.minFlushSize ≤ (h.append chunk).buffer.length → s.Granted (h.append chunk))
  | flush force => force = true ∨ s.cfg.minFlushSize ≤ h.buffer.length → s.Granted h
  | fsync => s.Granted h

instance (s : BlueFS V A) (h : FileWriter) : (c : WriterCall) → Decidable (c.Served s h)
  | append _ => inferInstanceAs (Decidable (_ ∧ _))
  | flush _ => inferInstanceAs (Decidable (_ → _))
  | fsync => inferInstanceAs (Decidable (s.Granted h))

end WriterCall

section Runs

variable [VolumeSelector V] [Allocator A]

/-- Calls on a writer that all return 0, each of which is `good` where it is made. -/
inductive WriterRun (good : BlueFS V A → FileWriter → WriterCall → Prop) :
    BlueFS V A → FileWriter → List WriterCall → BlueFS V A → FileWriter → Prop
  | nil (s : BlueFS V A) (h : FileWriter) : WriterRun good s h [] s h
  | cons {s s₁ s' : BlueFS V A} {h h₁ h' : FileWriter} {c : WriterCall} {cs : List WriterCall} :
      good s h c → c.run s h = some (0, h₁, s₁) → WriterRun good s₁ h₁ cs s' h' →
      WriterRun good s h (c :: cs) s' h'

/-- The calls, as long as they are good and return 0. -/
def runCalls (good : BlueFS V A → FileWriter → WriterCall → Prop)
    [∀ s h c, Decidable (good s h c)] (s : BlueFS V A) (h : FileWriter) :
    List WriterCall → Option (FileWriter × BlueFS V A)
  | [] => some (h, s)
  | c :: cs =>
      if good s h c then
        (c.run s h).bind fun (r, h, s) => if r = 0 then runCalls good s h cs else none
      else none

theorem runCalls_run {good : BlueFS V A → FileWriter → WriterCall → Prop}
    [∀ s h c, Decidable (good s h c)] {s s' : BlueFS V A} {h h' : FileWriter}
    {cs : List WriterCall} (hrun : runCalls good s h cs = some (h', s')) :
    WriterRun good s h cs s' h' := by
  induction cs generalizing s h with
  | nil =>
      obtain ⟨rfl, rfl⟩ := Prod.mk.inj (Option.some.inj hrun)
      exact .nil s h
  | cons c cs ih =>
      unfold runCalls at hrun
      split at hrun
      case isFalse => exact absurd hrun (by simp)
      case isTrue hgood =>
        obtain ⟨⟨r, h₁, s₁⟩, hcall, hrest⟩ := Option.bind_eq_some_iff.mp hrun
        simp only at hrest
        split at hrest
        case isFalse => exact absurd hrest (by simp)
        case isTrue hzero =>
          rw [hzero] at hcall
          exact .cons hgood hcall (ih hrest)

/-- The size is within what is allocated, and a read of the whole file returns `data` when no
device fails. -/
def ReadsBack (s : BlueFS V A) (r : FileRef) (data : Bytes) : Prop :=
  (s.nodes.files r).fnode.size ≤ (s.nodes.files r).fnode.allocated ∧
    ∀ len, (s.nodes.files r).fnode.size ≤ len → NoFaults s →
      ∃ s', s.readRandom r false 0 len = some ((data.length : Int), data, s')

variable {holds : A → Set Nat → Prop} {s s' : BlueFS V A} {h h' : FileWriter}

/-- What holds between two calls: `all` is what was appended. -/
structure Appended (holds : A → Set Nat → Prop) (s : BlueFS V A) (h : FileWriter) (all : Bytes) :
    Prop where
  ready : Ready holds s h.file
  short : h.buffer.length < 2 ^ 32
  writes : ∃ data, Writes s h data ∧ data ++ h.buffer = all

/-- What holds between two calls when the file may be longer than its data. -/
structure Writing (holds : A → Set Nat → Prop) (s : BlueFS V A) (h : FileWriter) (all : Bytes) :
    Prop where
  ready : Ready holds s h.file
  short : h.buffer.length < 2 ^ 32
  buffered : ∃ data, Buffered s h data ∧ data ++ h.buffer = all

omit [VolumeSelector V] in
theorem Appended.writing {all : Bytes} (hall : Appended holds s h all) : Writing holds s h all := by
  obtain ⟨data, hw, hdata⟩ := hall.writes
  exact ⟨hall.ready, hall.short, data, hw.buffered, hdata⟩

namespace Writing

omit [VolumeSelector V] in
/-- With nothing in the buffer, the file holds it all. -/
theorem stored {all : Bytes} (hall : Writing holds s h all) (hempty : h.buffer = []) :
    Stored s h.file all := by
  obtain ⟨data, hw, rfl⟩ := hall.buffered
  have hstop := hw.stop
  rw [hempty, List.length_nil, Nat.add_zero] at hstop
  rw [hempty, List.append_nil]
  exact hw.laid.stored (le_antisymm hstop hw.start)

omit [VolumeSelector V] in
theorem append {all : Bytes} (hall : Writing holds s h all) {chunk : Bytes}
    (hshort : h.buffer.length + chunk.length < 2 ^ 32) :
    Writing holds s (h.append chunk) (all ++ chunk) := by
  obtain ⟨data, hw, rfl⟩ := hall.buffered
  have hbuffer : (h.append chunk).buffer = h.buffer ++ chunk := by
    show h.buffer ++ chunk.take (chunk.length % 2 ^ 32) = _
    rw [Nat.mod_eq_of_lt (by omega), List.take_length]
  refine ⟨hall.ready, by rw [hbuffer, List.length_append]; exact hshort, data,
    ⟨hw.laid, hw.pos, hw.start, hw.stop.trans ?_⟩, by rw [hbuffer, List.append_assoc]⟩
  rw [hbuffer, List.length_append]
  omega

theorem flushF (law : LawfulAllocator holds) {all : Bytes} (hall : Writing holds s h all)
    {force : Bool}
    (hgranted : force = true ∨ s.cfg.minFlushSize ≤ h.buffer.length → s.Granted h)
    (hcall : s.flushF h force = (0, h', s')) :
    Writing holds s' h' all ∧ h'.file = h.file ∧ (force = true → h'.buffer = []) := by
  obtain ⟨data, hw, hdata⟩ := hall.buffered
  obtain ⟨region, hbalanced⟩ := hall.ready.balanced
  have hready := hall.ready.flushF law force
  have hflush := flushF_buffered law hbalanced hall.ready.made hall.ready.live hw hall.short hgranted
  rw [hcall] at hready hflush
  obtain ⟨hfile, hle, hempty, data', hw', hdata'⟩ := hflush rfl
  rw [← hfile] at hready
  exact ⟨⟨hready, lt_of_le_of_lt hle hall.short, data', hw', hdata'.trans hdata⟩, hfile, hempty⟩

/-- A call that is served appends its chunk. -/
theorem call (law : LawfulAllocator holds) {all : Bytes} {c : WriterCall}
    (hall : Writing holds s h all) (hserved : c.Served s h)
    (hcall : c.run s h = some (0, h', s')) :
    Writing holds s' h' (all ++ c.chunk) ∧ h'.file = h.file ∧ (c = .fsync → h'.buffer = []) := by
  cases c with
  | append chunk =>
      obtain ⟨hshort, hgranted⟩ := hserved
      have happended := hall.append hshort
      have hlength : (h.append chunk).bufferLength = (h.append chunk).buffer.length :=
        Nat.mod_eq_of_lt happended.short
      have hcall := Option.some.inj hcall
      unfold BlueFS.appendTryFlush at hcall
      simp only [hlength] at hcall
      split at hcall
      case isTrue hflush =>
        obtain ⟨hnew, hfile, -⟩ := happended.flushF law (fun _ => hgranted hflush) hcall
        exact ⟨hnew, hfile, fun hc => by cases hc⟩
      case isFalse =>
        obtain ⟨-, hcall⟩ := Prod.mk.inj hcall
        obtain ⟨rfl, rfl⟩ := Prod.mk.inj hcall
        exact ⟨happended, rfl, fun hc => by cases hc⟩
  | flush force =>
      obtain ⟨hnew, hfile, -⟩ := hall.flushF law hserved (Option.some.inj hcall)
      refine ⟨?_, hfile, fun hc => by cases hc⟩
      rw [WriterCall.chunk, List.append_nil]
      exact hnew
  | fsync =>
      obtain ⟨data, hw, hdata⟩ := hall.buffered
      obtain ⟨hready, hfile, hempty, hw'⟩ := fsync_writes law hall.ready hw hall.short hserved hcall
      refine ⟨⟨hready, by rw [hempty]; decide, _, hw'.buffered, ?_⟩, hfile, fun _ => hempty⟩
      rw [hempty, List.append_nil, hdata, WriterCall.chunk, List.append_nil]

theorem run (law : LawfulAllocator holds) {all : Bytes} {cs : List WriterCall}
    (hall : Writing holds s h all) (hrun : WriterRun WriterCall.Served s h cs s' h') :
    Writing holds s' h' (all ++ cs.flatMap WriterCall.chunk) ∧ h'.file = h.file ∧
      (cs.getLast? = some .fsync → h'.buffer = []) := by
  induction hrun generalizing all with
  | nil => exact ⟨by simpa using hall, rfl, fun hlast => by simp at hlast⟩
  | @cons s s₁ s' h h₁ h' c cs hserved hcall hrest ih =>
      obtain ⟨hnext, hfile, hempty⟩ := hall.call law hserved hcall
      obtain ⟨hend, hfile', hlast⟩ := ih hnext
      refine ⟨by rw [List.flatMap_cons, ← List.append_assoc]; exact hend, hfile'.trans hfile,
        fun hsync => ?_⟩
      cases cs with
      | nil =>
          cases hrest
          exact hempty (by simpa using hsync)
      | cons c' cs => exact hlast (by rwa [List.getLast?_cons_cons] at hsync)

/-- A run that ends in an `fsync` leaves it all in the file. -/
theorem synced (law : LawfulAllocator holds) {all : Bytes} {cs : List WriterCall}
    (hall : Writing holds s h all)
    (hrun : WriterRun WriterCall.Served s h (cs ++ [.fsync]) s' h') :
    Stored s' h.file (all ++ cs.flatMap WriterCall.chunk) := by
  obtain ⟨hend, hfile, hempty⟩ := hall.run law hrun
  have hstored := hend.stored (hempty (by simp))
  rw [List.flatMap_append] at hstored
  simpa [WriterCall.chunk, hfile] using hstored

end Writing

omit [VolumeSelector V] [Allocator A] in
/-- A file that holds its data reads it back. -/
theorem Stored.readsBack {r : FileRef} {data : Bytes} (h : Stored s r data) : ReadsBack s r data := by
  refine ⟨by rw [h.size]; exact h.room, fun len hlen hno => ?_⟩
  obtain ⟨ret, out, s', hread, hout⟩ := readRandom_stored h
    (show data.length ≤ len by rw [← h.size]; exact hlen)
  rcases hout with ⟨rfl, rfl⟩ | ⟨-, hfaults⟩
  · exact ⟨s', hread⟩
  · exact absurd hno hfaults

/-! ## A new file -/

omit [Allocator A] in
/-- What opening a new file leaves. -/
theorem openForWrite_new {d f : Bytes} (hnew : s.nodes.entry d f = none)
    (hopen : s.openForWrite d f false = (0, some h, s')) :
    h = { file := s.nodes.nextRef } ∧
      ((s'.nodes.files s.nodes.nextRef).fnode.extents = [] ∧
        (s'.nodes.files s.nodes.nextRef).fnode.extentsIndex = [] ∧
        (s'.nodes.files s.nodes.nextRef).fnode.allocated = 0 ∧
        (s'.nodes.files s.nodes.nextRef).fnode.size = 0 ∧
        (s'.nodes.files s.nodes.nextRef).deleted = false) ∧
      (∀ r, r ≠ s.nodes.nextRef → s'.nodes.files r = s.nodes.files r) ∧
      s'.nodes.nextRef = s.nodes.nextRef + 1 ∧ s'.alloc = s.alloc ∧ s'.dirty = s.dirty ∧
      s'.log.writer = s.log.writer := by
  unfold BlueFS.openForWrite at hopen
  cases hdir : s.nodes.dirMap.lookup d with
  | none => rw [hdir] at hopen; cases hopen
  | some dir =>
      rw [Nodes.entry, hdir, Option.bind_some] at hnew
      rw [hdir] at hopen
      simp only [hnew, Bool.false_eq_true, if_false] at hopen
      have hcreated := Nodes.createFile_created hdir hnew (VolumeSelector.getHintByDir s.vselector d)
      have hlive : ((s.nodes.createFile d f (VolumeSelector.getHintByDir s.vselector d)).2.files
          s.nodes.nextRef).deleted = false := by
        simp only [Nodes.createFile]
        rw [Nodes.setEntry_eq]
        simp [Nodes.addFile]
      generalize s.nodes.createFile d f (VolumeSelector.getHintByDir s.vselector d) = made at *
      obtain ⟨r, n⟩ := made
      obtain ⟨-, hopen⟩ := Prod.mk.inj hopen
      obtain ⟨hh, rfl⟩ := Prod.mk.inj hopen
      obtain rfl : r = s.nodes.nextRef := hcreated.ref
      have hfile : ∀ g : File, (n.setFile s.nodes.nextRef g).files s.nodes.nextRef = g := fun g => by
        rw [Nodes.setFile_files, if_pos rfl]
      have hfnode := hcreated.fnode
      simp only at hfnode hlive
      refine ⟨?_, ⟨?_, ?_, ?_, ?_, ?_⟩, fun r hr => ?_, hcreated.nextRef, rfl, rfl, rfl⟩
      · rw [← Option.some.inj hh]
        simp [BlueFS.stampFile, BlueFS.logFileUpdate, BlueFS.logOp, Transaction.opFileUpdate,
          Fnode.resetDelta, hfnode]
      all_goals simp [BlueFS.stampFile, BlueFS.logFileUpdate, BlueFS.logOp,
        Transaction.opFileUpdate, Fnode.resetDelta, hfnode, hlive]
      · rw [if_neg hr]
        exact hcreated.others r hr

/-- A new file shares no byte with another, and holds nothing. -/
theorem openForWrite_appended {region : Nat → Set Nat} (hbalanced : Balanced holds s region)
    (hlog : ∀ w, s.log.writer = some w → LogLive s w) {d f : Bytes}
    (hnew : s.nodes.entry d f = none) (hopen : s.openForWrite d f false = (0, some h, s')) :
    Appended holds s' h [] := by
  obtain ⟨rfl, ⟨hextents, hindex, hallocated, hsize, hlive⟩, hothers, hnext, halloc, hdirty,
    hwriter⟩ := openForWrite_new hnew hopen
  obtain ⟨pool, hledger⟩ := hbalanced
  have hold : ∀ r, r < s.nodes.nextRef → s'.nodes.files r = s.nodes.files r := fun r hr =>
    hothers r (Nat.ne_of_lt hr)
  have howned : ∀ y, s'.nodes.owned y = s.nodes.owned y := by
    intro y
    have hzero : (s'.nodes.files s.nodes.nextRef).owns y = 0 := by
      unfold File.owns
      rw [hextents]
      split <;> rfl
    have hsum : s'.nodes.owned y = ∑ r ∈ Finset.range (s.nodes.nextRef + 1),
        (s'.nodes.files r).owns y := by
      rw [Nodes.owned, hnext]
    rw [hsum, Finset.sum_range_succ, hzero, Nat.add_zero]
    exact Finset.sum_congr rfl fun r hr => by rw [hold r (Finset.mem_range.mp hr)]
  have hledger' : Ledger holds s' pool region := by
    refine ⟨fun id => by rw [halloc]; exact hledger.backed id, fun y => ?_, fun r hr => ?_, ?_⟩
    · rw [← hledger.total y, claims, claims, howned, hdirty]
    · by_cases hnewest : r = s.nodes.nextRef
      · rw [hnewest, hextents]
        exact fun e he => absurd he (by simp)
      · rw [hothers r hnewest] at hr ⊢
        exact hledger.files r hr
    · rw [hdirty]
      exact hledger.pending
  refine ⟨⟨⟨region, pool, hledger'⟩, ?_, hlive, fun l hl => ?_⟩, Nat.two_pow_pos 32, [], ⟨⟨⟨?_, ?_⟩, ?_, ?_,
    fun i y hi => absurd hi (Nat.not_lt_zero _)⟩, rfl⟩, rfl⟩
  · rw [hnext]
    exact Nat.lt_succ_self _
  · rw [hwriter] at hl
    obtain ⟨w, hw, rfl⟩ := Option.map_eq_some_iff.mp hl
    obtain ⟨hmade, hlogLive⟩ := hlog w hw
    refine ⟨by rw [hnext]; exact Nat.lt_succ_of_lt hmade, ?_, Nat.ne_of_lt hmade⟩
    rw [hold w.file hmade]
    exact hlogLive
  · rw [hindex, hextents]
    rfl
  · rw [hallocated, hextents]
    rfl
  · exact hsize
  · exact Nat.zero_le _

/-- **What is appended is what is read**, in every run of calls whose flushes are granted the
space they ask for. -/
theorem append_reads_back (law : LawfulAllocator holds) {s₀ : BlueFS V A} {region : Nat → Set Nat}
    (hbalanced : Balanced holds s₀ region) (hlog : ∀ w, s₀.log.writer = some w → LogLive s₀ w)
    {d f : Bytes} (hnew : s₀.nodes.entry d f = none)
    (hopen : s₀.openForWrite d f false = (0, some h, s)) {cs : List WriterCall}
    {s' : BlueFS V A} {h' : FileWriter}
    (hrun : WriterRun WriterCall.Served s h (cs ++ [.fsync]) s' h') :
    ReadsBack s' h'.file (cs.flatMap WriterCall.chunk) := by
  have hnew := (openForWrite_appended hbalanced hlog hnew hopen).writing
  obtain ⟨-, hfile, -⟩ := hnew.run law hrun
  have hstored := hnew.synced law hrun
  rw [List.nil_append, ← hfile] at hstored
  exact hstored.readsBack

end Runs

/-! ## A BlueFS with a list of free extents -/

/-- The file of a log of four allocation units. -/
def smallLog : File :=
  { fnode :=
      { ino := 1
        size := 4096
        extents := [⟨4096, 16384, 1⟩]
        extentsIndex := [0]
        allocated := 16384
        allocatedCommitted := 16384 } }

/-- A mounted BlueFS on one device with an empty directory `d`. -/
def listFs (free : List PExtent) : BlueFS OriginalVolumeSelector FreeList where
  cfg := { allocSize := 4096, minLogRunway := 4096, maxLogRunway := 4096, minFlushSize := 4096 }
  bdev i := if i = BDEV_DB then some { size := 1048576 } else none
  alloc i := if i = BDEV_DB then ⟨free⟩ else ⟨[]⟩
  allocSize _ := 0
  sharedAllocId := none
  bluefsUsed := 0
  vselector := ⟨0, 1048576, 0⟩
  super := {}
  nodes :=
    { dirMap := OrderedMap.empty.insert [100] OrderedMap.empty
      fileMap := OrderedMap.empty.insert 1 0
      inoLast := 1
      files := fun r => if r = 0 then smallLog else {}
      nextRef := 1 }
  log := { seqLive := 2, writer := some { file := 0, pos := 4096 } }
  dirty := { seqStable := 1, seqLive := 2 }

/-- Free extents apart from the log are no one else's. -/
theorem listFs_balanced {free : List PExtent} (hone : ∀ x, coverCount free x ≤ 1)
    (hlog : ∀ x, 4096 ≤ x → x < 20480 → coverCount free x = 0) :
    ∃ region, Balanced FreeList.Holds (listFs free) region := by
  have hpool : ∀ id, ∃ pool, FreeList.Holds ((listFs free).alloc id) pool ∧
      ∀ x, inPool pool x = if id = BDEV_DB then coverCount free x else 0 := by
    intro id
    by_cases hid : id = BDEV_DB
    · subst hid
      refine ⟨_, FreeList.holds_covered hone, fun x => ?_⟩
      rw [if_pos rfl]
      exact (FreeList.holds_covered hone x).symm
    · refine ⟨∅, fun x => ?_, fun x => ?_⟩
      · show coverCount (if id = BDEV_DB then (⟨free⟩ : FreeList) else ⟨[]⟩).extents x = _
        rw [if_neg hid]
        simp [coverCount, inPool]
      · rw [if_neg hid]
        simp [inPool]
  choose pool hholds hcount using hpool
  have hle : ∀ y, claims (listFs free) pool y ≤ 1 := by
    rintro ⟨b, x⟩
    have howned : (listFs free).nodes.owned (b, x) = covered smallLog.fnode.extents (b, x) := by
      show ∑ r ∈ Finset.range 1, File.owns (if r = 0 then smallLog else {}) (b, x) = _
      rw [Finset.sum_range_one, if_pos rfl]
      rfl
    have hpending : pendCover (listFs free).dirty.pendingRelease (b, x) = 0 := rfl
    rw [claims, howned, hpending]
    show covered [⟨4096, 16384, 1⟩] (b, x) + 0 + inPool (pool b) x ≤ 1
    rw [covered_one, hcount]
    by_cases hb : b = BDEV_DB
    · rw [if_pos hb]
      split
      case isTrue hin =>
        have hzero := hlog x hin.2.1 hin.2.2
        omega
      case isFalse =>
        have hx := hone x
        omega
    · rw [if_neg hb, if_neg fun hin => hb hin.1.symm]
      omega
  refine ⟨fun id => {x | 0 < claims (listFs free) pool (id, x)}, pool, hholds, fun y => ?_,
    fun r _ e he => ?_, fun b o len hl => absurd hl (by simp [listFs])⟩
  · have hy := hle y
    unfold inPool
    by_cases hpos : 0 < claims (listFs free) pool y
    · have hmem : y.2 ∈ {x | 0 < claims (listFs free) pool (y.1, x)} := hpos
      rw [if_pos hmem]
      omega
    · have hmem : y.2 ∉ {x | 0 < claims (listFs free) pool (y.1, x)} := hpos
      rw [if_neg hmem]
      omega
  · have he : e ∈ (if r = 0 then smallLog else {} : File).fnode.extents := he
    split at he
    · rw [List.mem_singleton.mp he]
      decide
    · exact absurd he (by simp)

theorem listFs_log (free : List PExtent) :
    ∀ w, (listFs free).log.writer = some w → LogLive (listFs free) w := by
  intro w hw
  obtain rfl : (⟨0, 4096, [], fun _ => false⟩ : FileWriter) = w := Option.some.inj hw
  exact ⟨Nat.zero_lt_one, rfl⟩

/-- Eight free pages behind the log, or one. -/
def manyPages : List PExtent := [⟨524288, 32768⟩]
def onePage : List PExtent := [⟨524288, 4096⟩]

theorem page_balanced {offset : Nat} (length : Nat) (h : 20480 ≤ offset) :
    ∃ region, Balanced FreeList.Holds (listFs [⟨offset, length⟩]) region := by
  refine listFs_balanced (fun x => ?_) fun x _ hx => ?_
  · rw [FreeList.coverCount_one]
    split <;> omega
  · rw [FreeList.coverCount_one, if_neg (by simp only; omega)]

/-- The file `a` that is opened for the calls. -/
def newFile (free : List PExtent) : FileWriter × BlueFS OriginalVolumeSelector FreeList :=
  (((listFs free).openForWrite [100] [97] false).2.1.getD { file := 0 },
    ((listFs free).openForWrite [100] [97] false).2.2)

theorem newFile_opened (free : List PExtent) :
    (listFs free).openForWrite [100] [97] false = (0, some (newFile free).1, (newFile free).2) :=
  rfl

/-- Two pages in one chunk. -/
def twoPages : List WriterCall := [.append (List.replicate 8192 7)]

/-- Two pages read back where there is room for them. -/
theorem append_reads_back_twoPages : ∃ s' h',
    WriterRun WriterCall.Served (newFile manyPages).2 (newFile manyPages).1 (twoPages ++ [.fsync]) s' h' ∧
      ReadsBack s' h'.file (twoPages.flatMap WriterCall.chunk) := by
  have hsome : (runCalls WriterCall.Served (newFile manyPages).2 (newFile manyPages).1
      (twoPages ++ [.fsync])).isSome = true := by decide +kernel
  obtain ⟨⟨h', s'⟩, hrun⟩ := Option.isSome_iff_exists.mp hsome
  obtain ⟨region, hbalanced⟩ := page_balanced 32768 (show 20480 ≤ 524288 by decide)
  have hrun := runCalls_run hrun
  exact ⟨s', h', hrun, append_reads_back FreeList.lawful hbalanced (listFs_log _) rfl
    (newFile_opened manyPages) hrun⟩

/-- One page is granted for two, and every call returns 0. -/
theorem append_past_allocated :
    ¬ ∀ (s₀ s s' : BlueFS OriginalVolumeSelector FreeList) (region : Nat → Set Nat)
        (h h' : FileWriter) (d f : Bytes) (cs : List WriterCall),
      Balanced FreeList.Holds s₀ region → (∀ w, s₀.log.writer = some w → LogLive s₀ w) →
      s₀.nodes.entry d f = none → s₀.openForWrite d f false = (0, some h, s) →
      WriterRun (fun _ _ _ => True) s h (cs ++ [.fsync]) s' h' →
      ReadsBack s' h'.file (cs.flatMap WriterCall.chunk) := by
  intro hclaim
  have hpast : (runCalls (fun _ _ _ => True) (newFile onePage).2 (newFile onePage).1
      (twoPages ++ [.fsync])).map (fun p => ((p.2.nodes.files p.1.file).fnode.size,
        (p.2.nodes.files p.1.file).fnode.allocated)) = some (8192, 4096) := by decide +kernel
  obtain ⟨⟨h', s'⟩, hrun, hsize⟩ := Option.map_eq_some_iff.mp hpast
  obtain ⟨region, hbalanced⟩ := page_balanced 4096 (show 20480 ≤ 524288 by decide)
  obtain ⟨hle, -⟩ := hclaim _ _ s' region _ h' [100] [97] twoPages hbalanced (listFs_log _) rfl
    (newFile_opened onePage) (runCalls_run hrun)
  obtain ⟨hsize, hallocated⟩ := Prod.mk.inj hsize
  simp only at hsize hallocated
  rw [hsize, hallocated] at hle
  exact absurd hle (by decide)

end Clab.Bluefs
