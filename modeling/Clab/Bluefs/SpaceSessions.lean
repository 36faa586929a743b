import Clab.Blk.AvlRefinement
import Clab.Bluefs.AppendRead
import Clab.Bluefs.HousedSpace
import Clab.Bluefs.JournalRuns
import Clab.Bluefs.Sections
import Clab.Bluefs.Truncation

/-!
# Where every byte is

`space_conserved`: after every run of calls on devices of its own in which no rename
goes onto a name that exists, a `sync_metadata` that succeeds leaves every byte free,
or in one extent of one file that is the log, or that a name leads to, or that a
writer holds and that was not deleted. Runs start as a mount leaves BlueFS, by
`mountReplayed_kept`, and calls are such runs, by `SpaceRun.of_fsync` and the theorems
beside it.
-/

namespace Clab.Bluefs

open Blk HandOut

variable {V A : Type} {s s' s'' : BlueFS V A} {r : FileRef}

/-! ## The writer of the log -/

/-- The writer of the log writes the file of the log. -/
def Logged (s : BlueFS V A) : Prop :=
  ∀ w, s.log.writer = some w → s.nodes.fileMap.lookup 1 = some w.file

theorem Logged.keeps (h : Logged s) (hwriter : s'.log.writer = s.log.writer)
    (hmap : s.nodes.fileMap.lookup 1 ≠ none →
      s'.nodes.fileMap.lookup 1 = s.nodes.fileMap.lookup 1) : Logged s' := by
  intro w hw
  rw [hwriter] at hw
  have hfound := h w hw
  rw [hmap (by rw [hfound]; simp)]
  exact hfound

theorem SameReach.logged (h : SameReach s s') (hlogged : Logged s)
    (hwriter : s'.log.writer = s.log.writer) : Logged s' :=
  hlogged.keeps hwriter fun _ => by rw [h.names.fileMap]

/-- No call on names takes the log away or makes a file that was there. -/
theorem Effect.frame {n n' : Nodes} {p p' : Pending} (h : Effect n p n' p') (hn : Linked n) :
    n.nextRef ≤ n'.nextRef ∧ n'.fileMap.lookup 1 = n.fileMap.lookup 1 := by
  cases h with
  | same hnames => exact ⟨hnames.nextRef.ge, by rw [hnames.fileMap]⟩
  | emptied r hnames => exact ⟨hnames.nextRef.ge, by rw [hnames.fileMap]⟩
  | created hc hnames =>
      -- a new file takes a number behind the last one, and the log has number 1
      have hone : 1 ≠ n.inoLast + 1 := by
        have := hn.started
        omega
      refine ⟨(Nat.le_succ _).trans_eq (hnames.nextRef.trans hc.nextRef).symm, ?_⟩
      rw [hnames.fileMap, hc.fileMap, OrderedMap.lookup_insert, if_neg hone]
  | dropped r hd =>
      refine ⟨hd.nextRef.ge, ?_⟩
      rw [hd.fileMap]
      split
      · have hnumber := (hn.numbered r hd.linked).1
        rw [OrderedMap.lookup_erase, if_neg (Nat.ne_of_lt hnumber)]
      · rfl

section Writers

variable [VolumeSelector V]

theorem NameCall.keepsWriter {c : NameCall} {res : Int} (hs : Linked s.nodes)
    (hfresh : c.FreshTarget s.nodes) (hrun : c.run s = some (res, s')) :
    s'.log.writer = s.log.writer := by
  obtain ⟨l, hl, -⟩ := hs.log
  -- `lock_file` makes a file that is not recorded, which is no concern of the writer
  by_cases hlogs : c.Logs s.nodes
  · exact (NameCall.keepsLog hs hl hfresh hlogs hrun).writer
  · cases c with
    | lockFile d f =>
        obtain ⟨-, rfl⟩ := returned hrun
        unfold BlueFS.lockFile
        cases hdir : s.nodes.dirMap.lookup d with
        | none => rfl
        | some dir =>
            cases hfile : dir.lookup f with
            | none => simp only [hfile]
            | some r =>
                simp only [hfile]
                split <;> rfl
    | _ => exact absurd trivial hlogs

variable [Allocator A]

omit [VolumeSelector V] [Allocator A] in
theorem flushData_writer (s : BlueFS V A) (h : FileWriter) (offset length : Nat)
    (buffered : Bool) : (s.flushData h offset length buffered).2.1.file = h.file := by
  unfold BlueFS.flushData
  split
  · rfl
  · simp only
    cases (s.nodes.files h.file).fnode.seek offset with
    | none => rfl
    | some p =>
        obtain ⟨-, d, hh⟩ := s.writeExtents_eq h buffered
          ((s.nodes.files h.file).fnode.extents.drop p.1) p.2 (h.buffer.take h.bufferLength)
        simp only
        split
        · rw [hh]
        · rw [hh]
          rfl

theorem flushFrom_writer (s : BlueFS V A) (h : FileWriter) (offset length : Nat) :
    (s.flushFrom h offset length).2.1.file = h.file := by
  unfold BlueFS.flushFrom
  simp only
  split
  · rfl
  · exact flushData_writer _ h _ _ _

/-- The writer of a flush keeps its file. -/
theorem flushF_writer (s : BlueFS V A) (h : FileWriter) (force : Bool) :
    (s.flushF h force).2.1.file = h.file := by
  have hrange : (s.flushRange h h.pos h.bufferLength).2.1.file = h.file := by
    unfold BlueFS.flushRange
    split
    · rfl
    split
    · rfl
    split
    · exact flushFrom_writer s h _ _
    · exact flushFrom_writer s h _ _
  unfold BlueFS.flushF
  split
  · rfl
  split
  · rfl
  · simp only
    split
    · exact hrange
    · exact hrange

omit [VolumeSelector V] [Allocator A] in
theorem consumeDirty_log (s : BlueFS V A) (seq : Nat) :
    (s.consumeDirty seq).log.writer = s.log.writer := by
  unfold BlueFS.consumeDirty
  generalize s.waiting seq = rs
  induction rs generalizing s with
  | nil => rfl
  | cons r rs ih => exact ih (s.logFileUpdateInc r)

theorem maybeExtendLog_log (s : BlueFS V A) (w : FileWriter) :
    (s.maybeExtendLog w).2.log.writer = s.log.writer := by
  unfold BlueFS.maybeExtendLog
  simp only
  split
  case isTrue => rfl
  case isFalse =>
    generalize VolumeSelector.selectPreferBdev s.vselector _ = prefer
    generalize Common.p2roundup _ _ = len
    obtain ⟨a, u, heq⟩ := s.allocate_eq prefer len s.cfg.allocSize (s.nodes.files w.file).fnode
    rw [heq]
    split <;> rfl

theorem gather_log (s : BlueFS V A) (w : FileWriter) :
    (s.gather w).2.log.writer = s.log.writer ∧ ∀ e, (s.gather w).1 = .error e → e < 0 := by
  have hextend : ((s.takeSeq.2.consumeDirty s.takeSeq.1).maybeExtendLog w).2.log.writer =
      s.log.writer := (maybeExtendLog_log _ w).trans (consumeDirty_log _ _)
  unfold BlueFS.gather
  simp only
  split
  case isTrue hres =>
    refine ⟨hextend, fun e he => ?_⟩
    cases he
    exact hres
  case isFalse => exact ⟨hextend, fun e he => absurd he (by simp)⟩

end Writers

/-! ## Runs -/

/-- A mounted BlueFS and the files of the writers that are open. -/
structure OpenFiles (V A : Type) where
  fs : BlueFS V A
  writers : List FileRef

section Runs

variable [VolumeSelector V] [Allocator A] {holds : A → Set Nat → Prop} {region : Nat → Set Nat}
  {j j' : OpenFiles V A}

/-- The file of the writer that a call on names opens. -/
def NameCall.opened (s : BlueFS V A) : NameCall → List FileRef
  | openForWrite d f o => ((s.openForWrite d f o).2.1.map FileWriter.file).toList
  | _ => []

/-- What a section of a call is promised by its callers: the writer is open, a file that is cut
is not deleted, and the log is written through its own writer. -/
def Section.Sound (j : OpenFiles V A) : Section → Prop
  | name _ => False
  | flushF h _ => h.file ∈ j.writers
  | flushRange h _ _ => h.file ∈ j.writers
  | preallocate r _ _ => r ∈ j.writers
  | truncateTo r _ => r ∈ j.writers ∧ (j.fs.nodes.files r).deleted = false
  | gather w => j.fs.nodes.fileMap.lookup 1 = some w.file
  | writeLog w _ => j.fs.nodes.fileMap.lookup 1 = some w.file
  | _ => True

/-- One call on names that is `allowed`, one section of another call, or a writer that is
closed. -/
inductive OpenFiles.Step (allowed : Nodes → NameCall → Prop) : OpenFiles V A → OpenFiles V A → Prop
  | name {j : OpenFiles V A} (c : NameCall) {res : Int} {fs : BlueFS V A}
      (may : allowed j.fs.nodes c) (run : c.run j.fs = some (res, fs)) :
      Step allowed j ⟨fs, c.opened j.fs ++ j.writers⟩
  | piece {j : OpenFiles V A} (c : Section) {fs : BlueFS V A} (sound : c.Sound j)
      (run : c.run j.fs = some fs) : Step allowed j ⟨fs, j.writers⟩
  | close {j : OpenFiles V A} (r : FileRef) : Step allowed j ⟨j.fs, j.writers.erase r⟩

/-- Steps one after the other. -/
def SpaceRun (allowed : Nodes → NameCall → Prop) : OpenFiles V A → OpenFiles V A → Prop :=
  Relation.ReflTransGen (OpenFiles.Step allowed)

/-- The books are balanced, and the writers have files. -/
structure OpenFiles.Kept (holds : A → Set Nat → Prop) (j : OpenFiles V A)
    (region : Nat → Set Nat) : Prop where
  housed : Housed holds j.fs region
  logged : Logged j.fs
  made : ∀ r ∈ j.writers, r < j.fs.nodes.nextRef

omit [Allocator A] in
theorem openForWrite_made (hs : Linked s.nodes) {d f : Bytes} {o : Bool} {h : FileWriter}
    (hopen : (s.openForWrite d f o).2.1 = some h) :
    h.file < (s.openForWrite d f o).2.2.nodes.nextRef := by
  unfold BlueFS.openForWrite at hopen ⊢
  cases hdir : s.nodes.dirMap.lookup d with
  | none =>
      rw [hdir] at hopen
      exact absurd hopen (by simp)
  | some dir =>
      rw [hdir] at hopen
      cases hfile : dir.lookup f with
      | none =>
          simp only [hfile] at hopen ⊢
          split at hopen
          · exact absurd hopen (by simp)
          · have hc := Nodes.createFile_created hdir hfile
              (VolumeSelector.getHintByDir s.vselector d)
            rw [if_neg ‹_›]
            rw [← Option.some.inj hopen]
            exact (hc.ref.trans_lt (Nat.lt_succ_self _)).trans_eq hc.nextRef.symm
      | some x =>
          simp only [hfile] at hopen ⊢
          have hpos : 0 < s.nodes.links x := Nodes.links_pos_of_entry (d := d) (f := f) (by
            rw [Nodes.entry, hdir]
            exact hfile)
          have hmade : x < s.nodes.nextRef := by
            by_contra hfresh
            rw [hs.fresh x (not_lt.mp hfresh)] at hpos
            exact lt_irrefl 0 hpos
          rw [← Option.some.inj hopen]
          refine lt_of_lt_of_eq hmade ?_
          cases o with
          | true => exact (stampFile_space s x).nextRef.symm
          | false => exact (stampFile_space (s.dropExtents x).2 x).nextRef.symm

theorem OpenFiles.Kept.names (h : j.Kept holds region) {c : NameCall} {res : Int} {fs : BlueFS V A}
    (hfresh : c.FreshTarget j.fs.nodes) (hrun : c.run j.fs = some (res, fs)) :
    OpenFiles.Kept holds ⟨fs, c.opened j.fs ++ j.writers⟩ region := by
  have heffects := NameCall.effects h.housed.linked hfresh hrun
  obtain ⟨hmore, hlog⟩ := heffects.frame h.housed.linked
  refine ⟨NameCall.housed h.housed hfresh hrun,
    h.logged.keeps (NameCall.keepsWriter h.housed.linked hfresh hrun) fun _ => hlog,
    fun r hr => ?_⟩
  rcases List.mem_append.mp hr with hopened | hheld
  · cases c with
    | openForWrite d f o =>
        obtain ⟨-, rfl⟩ := returned hrun
        obtain ⟨w, hw, rfl⟩ := Option.map_eq_some_iff.mp (Option.mem_toList.mp hopened)
        exact openForWrite_made h.housed.linked hw
    | _ => exact absurd hopened (by simp [NameCall.opened])
  · exact (h.made r hheld).trans_le hmore

omit [VolumeSelector V] in
/-- What a section may leave alone: the names, the deleted files and the writer of the log. -/
theorem OpenFiles.Kept.leaves (h : j.Kept holds region) {fs : BlueFS V A}
    (hreach : SameReach j.fs fs) (hwriter : fs.log.writer = j.fs.log.writer)
    (hbalanced : Balanced holds fs region) : OpenFiles.Kept holds ⟨fs, j.writers⟩ region :=
  ⟨hreach.housed h.housed hbalanced, hreach.logged h.logged hwriter, fun r hr => by
    show r < fs.nodes.nextRef
    rw [hreach.names.nextRef]
    exact h.made r hr⟩

theorem Section.kept (law : LawfulAllocator holds) (h : j.Kept holds region) {c : Section}
    {fs : BlueFS V A} (hsound : c.Sound j) (hrun : c.run j.fs = some fs) :
    OpenFiles.Kept holds ⟨fs, j.writers⟩ region := by
  have hbooks := h.housed.balanced
  cases c with
  | name c => exact absurd hsound id
  | flushF w force =>
      cases hrun
      exact h.leaves (flushF_reach j.fs w force)
        (congrArg Log.writer (j.fs.flushF_flushOf w force).log)
        (flushF_balanced law hbooks (h.made _ hsound) force)
  | flushRange w offset length =>
      cases hrun
      exact h.leaves (flushRange_reach j.fs w offset length)
        (congrArg Log.writer (flushRange_flushOf j.fs w offset length).log)
        (flushRange_balanced law hbooks (h.made _ hsound) offset length)
  | preallocate r off len =>
      obtain ⟨⟨res, s₁⟩, hcall, rfl⟩ := Option.map_eq_some_iff.mp hrun
      obtain ⟨hreach, hwriter⟩ := preallocate_frame hcall
      exact h.leaves hreach hwriter (preallocate_balanced law hbooks (h.made _ hsound) hcall)
  | truncateTo r offset =>
      cases hrun
      exact h.leaves (truncateTo_reach j.fs r offset) rfl
        (truncateTo_balanced hbooks (h.made _ hsound.1) hsound.2 offset)
  | signalDirty r =>
      cases hrun
      exact h.leaves (signalDirtyToLog_reach j.fs r)
        (congrArg Log.writer (j.fs.signalDirtyToLog_dirty r).1)
        ((signalDirtyToLog_sameSpace j.fs r).balanced hbooks)
  | gather w =>
      cases hrun
      exact h.leaves (gather_reach j.fs w) (gather_log j.fs w).1
        (gather_balanced law hbooks (h.housed.logLive hsound))
  | writeLog w t =>
      cases hrun
      have hreach := writeLog_reach j.fs w t
      refine ⟨hreach.housed h.housed ((writeLog_sameSpace j.fs w t).balanced hbooks),
        fun w' hw' => ?_, fun r hr => ?_⟩
      · obtain ⟨w₁, hw₁, hfile⟩ := j.fs.writeLog_writer w t
        obtain rfl : w₁ = w' := Option.some.inj (hw₁.symm.trans hw')
        show (j.fs.writeLog w t).2.nodes.fileMap.lookup 1 = _
        rw [hreach.names.fileMap, hfile]
        exact hsound
      -- the log is longer, but no file was made
      · show r < (j.fs.writeLog w t).2.nodes.nextRef
        rw [hreach.names.nextRef]
        exact h.made r hr
  | recordStable seq =>
      cases hrun
      exact h.leaves (recordStable_reach j.fs seq) rfl
        ((recordStable_sameSpace j.fs seq).balanced hbooks)
  | drainPending =>
      cases hrun
      have hdrained := drainPending_housed law h.housed
      exact h.leaves (.of_nodes rfl rfl) rfl hdrained.balanced
  | syncSuper =>
      cases hrun
      obtain ⟨l, hl, -⟩ := h.housed.linked.log
      obtain ⟨hnodes, hlog, -⟩ := syncSuper_frame j.fs hl
      exact h.leaves (.of_nodes hnodes (syncSuper_sameAccount j.fs).shared)
        (congrArg Log.writer hlog) (syncSuper_housed h.housed).balanced
  | devices bdev =>
      cases hrun
      have hsame : SameSpace j.fs { j.fs with bdev } := .of_files rfl rfl rfl rfl
      exact h.leaves (.of_nodes rfl rfl) rfl (hsame.balanced hbooks)

theorem OpenFiles.Step.kept (law : LawfulAllocator holds) (h : j.Kept holds region)
    (hstep : OpenFiles.Step (fun n c => c.FreshTarget n) j j') : j'.Kept holds region := by
  cases hstep with
  | name c hfresh hrun => exact h.names hfresh hrun
  | piece c hsound hrun => exact Section.kept law h hsound hrun
  | close r => exact ⟨h.housed, h.logged, fun x hx => h.made x (List.mem_of_mem_erase hx)⟩

theorem SpaceRun.kept (law : LawfulAllocator holds) (h : j.Kept holds region)
    (hrun : SpaceRun (fun n c => c.FreshTarget n) j j') : j'.Kept holds region := by
  induction hrun with
  | refl => exact h
  | tail _ hstep ih => exact hstep.kept law ih

/-! ## Mounting -/

/-- What `init_rm_free` takes from the free space leaves it. -/
def RemovesFree (holds : A → Set Nat → Prop) : Prop :=
  ∀ (a : A) (free : Set Nat) (offset length : Nat), holds a free →
    (∀ x, offset ≤ x → x < offset + length → x ∈ free) →
    ∃ free', holds (Allocator.initRmFree a offset length) free' ∧
      ∀ x, (if offset ≤ x ∧ x < offset + length then 1 else 0) + inPool free' x = inPool free x

omit [VolumeSelector V] in
/-- The allocators hold the pools that are left when the extents are taken. -/
theorem mountExtents_pools {pool : Nat → Set Nat} (hremoves : RemovesFree holds)
    (hs : s.sharedAllocId = none) (es : List Extent) (hpool : ∀ id, holds (s.alloc id) (pool id))
    (hfree : ∀ y, covered es y ≤ inPool (pool y.1) y.2) :
    ∃ (a : Nat → A) (pool' : Nat → Set Nat),
      es.foldl BlueFS.mountExtent s = { s with alloc := a } ∧
      (∀ id, holds (a id) (pool' id)) ∧
      ∀ y, covered es y + inPool (pool' y.1) y.2 = inPool (pool y.1) y.2 := by
  induction es generalizing s pool with
  | nil => exact ⟨s.alloc, pool, rfl, hpool, fun y => Nat.zero_add _⟩
  | cons e es ih =>
      have hcons : ∀ y, covered (e :: es) y = covered [e] y + covered es y := covered_cons e es
      obtain ⟨free', hholds, hcount⟩ := hremoves (s.alloc e.bdev) (pool e.bdev) e.offset e.length
        (hpool e.bdev) fun x hlo hhi => by
          have hx := hfree (e.bdev, x)
          rw [hcons, covered_one, if_pos ⟨rfl, hlo, hhi⟩] at hx
          by_contra hnot
          rw [inPool, if_neg hnot] at hx
          omega
      -- what the first extent holds leaves its device, and the rest is still free
      have hnext : ∀ y, covered [e] y + inPool (Function.update pool e.bdev free' y.1) y.2 =
          inPool (pool y.1) y.2 := by
        rintro ⟨id, x⟩
        rw [covered_one]
        by_cases hid : id = e.bdev
        · subst hid
          rw [Function.update_self, ← hcount x]
          simp
        · rw [Function.update_of_ne hid, if_neg fun h => hid h.1.symm, Nat.zero_add]
      have hstep : BlueFS.mountExtent s e = { s with
          alloc := Function.update s.alloc e.bdev
            (Allocator.initRmFree (s.alloc e.bdev) e.offset e.length) } := by
        unfold BlueFS.mountExtent
        rw [if_neg (by rw [hs]; simp)]
      have hbacked : ∀ id, holds ((BlueFS.mountExtent s e).alloc id)
          (Function.update pool e.bdev free' id) := by
        intro id
        rw [hstep]
        show holds (Function.update s.alloc e.bdev _ id) _
        by_cases hid : id = e.bdev
        · subst hid
          rw [Function.update_self, Function.update_self]
          exact hholds
        · rw [Function.update_of_ne hid, Function.update_of_ne hid]
          exact hpool id
      have hrest : ∀ y, covered es y ≤ inPool (Function.update pool e.bdev free' y.1) y.2 := by
        intro y
        have hy := hfree y
        have hone := hnext y
        rw [hcons] at hy
        omega
      obtain ⟨a, pool', heq, hheld, hleft⟩ := ih (by rw [hstep]; exact hs) hbacked hrest
      rw [List.foldl_cons, heq, hstep]
      refine ⟨a, pool', rfl, hheld, fun y => ?_⟩
      have hy := hleft y
      have hone := hnext y
      rw [hcons]
      omega

theorem mountFiles_pools {pool : Nat → Set Nat} (hremoves : RemovesFree holds)
    (hs : s.sharedAllocId = none) (rs : List FileRef) (hpool : ∀ id, holds (s.alloc id) (pool id))
    (hfree : ∀ y, (rs.map fun r => covered (s.nodes.files r).fnode.extents y).sum ≤
      inPool (pool y.1) y.2) :
    ∃ (a : Nat → A) (v : V) (pool' : Nat → Set Nat),
      rs.foldl BlueFS.mountFile s = { s with alloc := a, vselector := v } ∧
      (∀ id, holds (a id) (pool' id)) ∧
      ∀ y, (rs.map fun r => covered (s.nodes.files r).fnode.extents y).sum +
        inPool (pool' y.1) y.2 = inPool (pool y.1) y.2 := by
  induction rs generalizing s pool with
  | nil => exact ⟨s.alloc, s.vselector, pool, rfl, hpool, fun y => Nat.zero_add _⟩
  | cons r rs ih =>
      simp only [List.map_cons, List.sum_cons] at hfree ⊢
      obtain ⟨a₁, pool₁, heq₁, hheld₁, hleft₁⟩ := mountExtents_pools hremoves hs
        (s.nodes.files r).fnode.extents hpool fun y => (Nat.le_add_right _ _).trans (hfree y)
      have hone : s.mountFile r = { s with
          alloc := a₁
          vselector := VolumeSelector.addUsage s.vselector (s.nodes.files r).vselectorHint
            (s.nodes.files r).fnode } := by
        unfold BlueFS.mountFile
        simp only
        rw [heq₁]
      have hheld₂ : ∀ id, holds ((s.mountFile r).alloc id) (pool₁ id) := by
        rw [hone]
        exact hheld₁
      obtain ⟨a, v, pool', heq, hheld, hleft⟩ := ih (by rw [hone]; exact hs) hheld₂ fun y => by
        have hy := hfree y
        have hy₁ := hleft₁ y
        rw [hone]
        simp only
        omega
      rw [hone] at heq hleft
      refine ⟨a, v, pool', ?_, hheld, fun y => ?_⟩
      · rw [List.foldl_cons, hone, heq]
      · have hy := hleft y
        have hy₁ := hleft₁ y
        simp only at hy
        omega

omit [VolumeSelector V] [Allocator A] in
/-- The inode table lists each file that can be reached once. -/
theorem Linked.listed {n : Nodes} (hn : Linked n) :
    (n.fileMap.entries.map Prod.snd).Nodup ∧
      ∀ r, r ∈ n.fileMap.entries.map Prod.snd ↔ n.Reached r ∧ r < n.nextRef := by
  obtain ⟨l, hl, hllinks, hlmade⟩ := hn.log
  have hnumber : ∀ ino r, (ino, r) ∈ n.fileMap.entries →
      ino = 1 ∧ r = l ∨ 0 < n.links r ∧ (n.files r).fnode.ino = ino := by
    intro ino r hmem
    have hfound := OrderedMap.lookup_eq_some.mpr hmem
    by_cases hone : ino = 1
    · rw [hone, hl] at hfound
      exact .inl ⟨hone, (Option.some.inj hfound).symm⟩
    · exact .inr ((hn.filed ino r hone).mp hfound)
  constructor
  · refine List.pairwise_map.mpr (n.fileMap.sorted.imp_of_mem fun {a b} ha hb hlt heq => ?_)
    have hane := hnumber a.1 a.2 ha
    have hbne := hnumber b.1 b.2 hb
    rw [← heq] at hbne
    rcases hane with ⟨ha1, hal⟩ | ⟨halinks, haino⟩
    · rcases hbne with ⟨hb1, -⟩ | ⟨hblinks, -⟩
      · omega
      · rw [hal] at hblinks
        omega
    · rcases hbne with ⟨-, hbl⟩ | ⟨-, hbino⟩
      · rw [hbl] at halinks
        omega
      · omega
  · intro r
    rw [List.mem_map]
    constructor
    · rintro ⟨⟨ino, x⟩, hmem, rfl⟩
      rcases hnumber ino x hmem with ⟨-, rfl⟩ | ⟨hpos, -⟩
      · exact ⟨.inr hl, hlmade⟩
      · refine ⟨.inl hpos, ?_⟩
        by_contra hfresh
        rw [hn.fresh x (not_lt.mp hfresh)] at hpos
        exact lt_irrefl 0 hpos
    · rintro ⟨hpos | hone, -⟩
      · have hne := (hn.numbered r hpos).1
        exact ⟨((n.files r).fnode.ino, r), OrderedMap.lookup_eq_some.mp
          ((hn.filed _ r (Nat.ne_of_gt hne)).mpr ⟨hpos, rfl⟩), rfl⟩
      · exact ⟨(1, r), OrderedMap.lookup_eq_some.mp hone, rfl⟩

omit [VolumeSelector V] [Allocator A] in
theorem Linked.sum_listed {n : Nodes} (hn : Linked n) (y : Nat × Nat) :
    ((n.fileMap.entries.map Prod.snd).map fun r => covered (n.files r).fnode.extents y).sum =
      n.reachedCover y := by
  obtain ⟨hnodup, hmem⟩ := hn.listed
  rw [← List.sum_toFinset _ hnodup, Nodes.reachedCover, ← Finset.sum_filter]
  refine Finset.sum_congr (Finset.ext fun r => ?_) fun _ _ => rfl
  rw [List.mem_toFinset, hmem, Finset.mem_filter, Finset.mem_range, and_comm]

omit [VolumeSelector V] [Allocator A] in
/-- The allocator that `_init_alloc` makes takes free bytes away. -/
theorem avl_removesFree : RemovesFree AvlAllocator.Holds := by
  intro a free offset length h hfree
  by_cases hzero : length = 0
  · subst hzero
    exact ⟨free, h, fun x => by rw [if_neg (by omega), Nat.zero_add]⟩
  · have hsub : Set.Ico offset (offset + length) ⊆ free := fun x hx => hfree x hx.1 hx.2
    -- the assertion on the size of the device holds, as its last byte is in a range of the tree
    have hlast : offset + length - 1 ∈ free := hfree _ (by omega) (by omega)
    have hin : offset + length ≤ a.deviceSize := by
      rw [← h.covers] at hlast
      obtain ⟨r, hr, hx⟩ := hlast
      have hstop := h.inside r hr
      have hlt : offset + length - 1 < r.stop := hx.2
      omega
    obtain ⟨a', heq, hholds, -⟩ := AvlAllocator.initRmFree_spec h hin hsub
    refine ⟨free \ Set.Ico offset (offset + length), ?_, fun x => ?_⟩
    · show AvlAllocator.Holds (AvlAllocator.settle (a.initRmFree offset length) a) _
      rw [heq]
      exact hholds
    · unfold inPool
      by_cases hx : offset ≤ x ∧ x < offset + length
      · have hgone : x ∉ free \ Set.Ico offset (offset + length) := fun hmem => hmem.2 hx
        rw [if_pos hx, if_neg hgone, if_pos (hsub hx)]
      · have hsame : x ∈ free \ Set.Ico offset (offset + length) ↔ x ∈ free :=
          ⟨fun hmem => hmem.1, fun hmem => ⟨hmem, hx⟩⟩
        rw [if_neg hx, Nat.zero_add]
        by_cases hf : x ∈ free
        · rw [if_pos (hsame.mpr hf), if_pos hf]
        · rw [if_neg (mt hsame.mp hf), if_neg hf]

/-- What a replay hands to the rest of `mount`: the files that it found are apart, and the
allocators that `_init_alloc` made hold the region. -/
structure Mountable (holds : A → Set Nat → Prop) (s : BlueFS V A) (region : Nat → Set Nat) :
    Prop where
  linked : Linked s.nodes
  kept : ∀ r, r < s.nodes.nextRef → ((s.nodes.files r).deleted = false ↔ s.nodes.Reached r)
  full : ∀ r, (s.nodes.files r).deleted = false → Fnode.Full (s.nodes.files r).fnode.extents
  pending : ∀ id, s.dirty.pendingRelease id = .empty
  backed : ∀ id, holds (s.alloc id) (region id)
  apart : ∀ y, s.nodes.reachedCover y ≤ inPool (region y.1) y.2
  dedicated : s.sharedAllocId = none

/-- A mount starts with balanced books. -/
theorem mountReplayed_kept (hremoves : RemovesFree holds) (h : Mountable holds s region)
    {log : FileRef} (hlog : s.nodes.fileMap.lookup 1 = some log) :
    OpenFiles.Kept holds ⟨s.mountReplayed log, []⟩ region := by
  obtain ⟨a, v, pool, heq, hheld, hleft⟩ := mountFiles_pools hremoves h.dedicated
    (s.nodes.fileMap.entries.map Prod.snd) h.backed fun y => by
      rw [h.linked.sum_listed]
      exact h.apart y
  have hget : s.nodes.getFile 1 = (log, s.nodes) := by
    unfold Nodes.getFile
    rw [hlog]
  have hmounted : s.mountReplayed log = { s with
      alloc := a
      vselector := v
      nodes := s.nodes.setFile log { s.nodes.files log with
        fnode := (s.nodes.files log).fnode.resetDelta }
      log := { s.log with
        writer := some { file := log, pos := (s.nodes.files log).fnode.size } } } := by
    unfold BlueFS.mountReplayed
    simp only [heq, hget]
  have htaken : Housed holds { s with alloc := a, vselector := v } region := by
    refine ⟨h.linked, ⟨pool, hheld, fun y => ?_, h.full, fun b o len hl => ?_⟩, h.kept,
      h.dedicated⟩
    · have hnone : pendCover s.dirty.pendingRelease y = 0 := by
        unfold pendCover
        rw [h.pending]
        rfl
      rw [claims, Nodes.owned_eq h.kept y, hnone, Nat.add_zero, ← h.linked.sum_listed y]
      exact hleft y
    · rw [h.pending] at hl
      exact absurd hl (by simp)
  rw [hmounted]
  refine ⟨htaken.keeps (.of_setFile rfl rfl rfl rfl rfl) (SameNames.setFile s.nodes rfl rfl) rfl,
    fun w hw => ?_, fun r hr => absurd hr (by simp)⟩
  rw [← Option.some.inj hw]
  exact hlog

/-! ## Calls are such runs -/

namespace SpaceRun

variable {allowed : Nodes → NameCall → Prop} {writers : List FileRef}

theorem one (c : Section) (hsound : c.Sound ⟨s, writers⟩) (hrun : c.run s = some s') :
    SpaceRun allowed ⟨s, writers⟩ ⟨s', writers⟩ :=
  .single (.piece c hsound hrun)

theorem next (h : SpaceRun allowed j ⟨s, writers⟩) (c : Section) (hsound : c.Sound ⟨s, writers⟩)
    (hrun : c.run s = some s') : SpaceRun allowed j ⟨s', writers⟩ :=
  h.tail (.piece c hsound hrun)

theorem opened (h : SpaceRun allowed j ⟨s, writers⟩) {d f : Bytes} {o : Bool}
    (may : allowed s.nodes (.openForWrite d f o)) :
    SpaceRun allowed j ⟨(s.openForWrite d f o).2.2,
      NameCall.opened s (.openForWrite d f o) ++ writers⟩ :=
  h.tail (.name (.openForWrite d f o) may rfl)

theorem unlinked (h : SpaceRun allowed j ⟨s, writers⟩) {d f : Bytes}
    (may : allowed s.nodes (.unlink d f)) : SpaceRun allowed j ⟨(s.unlink d f).2, writers⟩ :=
  h.tail (.name (.unlink d f) may rfl)

theorem renamed (h : SpaceRun allowed j ⟨s, writers⟩) {od of nd nf : Bytes}
    (may : allowed s.nodes (.rename od of nd nf)) :
    SpaceRun allowed j ⟨(s.rename od of nd nf).2, writers⟩ :=
  h.tail (.name (.rename od of nd nf) may rfl)

theorem closed (h : SpaceRun allowed j ⟨s, writers⟩) (r : FileRef) :
    SpaceRun allowed j ⟨s, writers.erase r⟩ :=
  h.tail (.close r)

theorem of_appendTryFlush {h : FileWriter} (hopen : h.file ∈ writers) (buf : Bytes) :
    SpaceRun allowed ⟨s, writers⟩ ⟨(s.appendTryFlush h buf).2.2, writers⟩ := by
  unfold BlueFS.appendTryFlush
  simp only
  split
  · exact one (.flushF (h.append buf) false) hopen rfl
  · exact .refl

theorem of_truncate {h : FileWriter} (hopen : h.file ∈ writers) (offset : Nat) :
    SpaceRun allowed ⟨s, writers⟩ ⟨(s.truncate h offset).2.2, writers⟩ := by
  have hflush : SpaceRun allowed ⟨s, writers⟩ ⟨(s.flushF h true).2.2, writers⟩ :=
    one (.flushF h true) hopen rfl
  have hkept := s.flushF_flushOf h true
  have hfile := flushF_writer s h true
  unfold BlueFS.truncate
  simp only
  split
  · exact .refl
  case isFalse hlive =>
    have hlive : (s.nodes.files h.file).deleted = false := by simpa using hlive
    split
    · exact .refl
    split
    · exact .refl
    split
    · exact .refl
    split
    case isTrue =>
      split
      · exact hflush
      · refine (hflush.next (.devices _) trivial rfl).next (.truncateTo _ offset) ?_ rfl
        show (s.flushF h true).2.1.file ∈ writers ∧
          ((s.flushF h true).2.2.nodes.files (s.flushF h true).2.1.file).deleted = false
        rw [hfile, hkept.deleted]
        exact ⟨hopen, hlive⟩
    case isFalse =>
      split
      · exact .refl
      · exact (one (.devices (s.flushBdev h).2.bdev) trivial rfl).next (.truncateTo h.file offset)
          ⟨hopen, hlive⟩ rfl

theorem of_flushAndSyncLog {w : FileWriter} {wantSeq : Nat} {res : Int}
    (hw : s.nodes.fileMap.lookup 1 = some w.file)
    (hflush : s.flushAndSyncLog w wantSeq = some (res, s')) :
    SpaceRun allowed ⟨s, writers⟩ ⟨s', writers⟩ := by
  unfold BlueFS.flushAndSyncLog at hflush
  split at hflush
  case isTrue =>
    obtain ⟨-, rfl⟩ := Prod.mk.inj (Option.some.inj hflush)
    exact .refl
  case isFalse =>
    split at hflush
    case isTrue => exact absurd hflush (by simp)
    case isFalse =>
      have hgather : SpaceRun allowed ⟨s, writers⟩ ⟨(s.gather w).2, writers⟩ :=
        one (.gather w) hw rfl
      have hlog : (s.gather w).2.nodes.fileMap.lookup 1 = some w.file := by
        rw [(gather_reach s w).names.fileMap]
        exact hw
      rcases hg : s.gather w with ⟨result, s₁⟩
      rw [hg] at hgather hlog hflush
      cases result with
      | error e =>
          obtain ⟨-, rfl⟩ := Prod.mk.inj (Option.some.inj hflush)
          exact hgather
      | ok t =>
          have hwrite : SpaceRun allowed ⟨s, writers⟩ ⟨(s₁.writeLog w t).2, writers⟩ :=
            hgather.next (.writeLog w t) hlog rfl
          simp only at hflush
          split at hflush
          case isTrue =>
            obtain ⟨-, rfl⟩ := Prod.mk.inj (Option.some.inj hflush)
            exact hwrite
          case isFalse =>
            obtain ⟨-, rfl⟩ := Prod.mk.inj (Option.some.inj hflush)
            exact (hwrite.next (.recordStable t.seq) trivial rfl).next .drainPending trivial rfl

theorem of_fsync {h h' : FileWriter} {res : Int} (hopen : h.file ∈ writers) (hw : Logged s)
    (hsync : s.fsync h = some (res, h', s')) :
    SpaceRun allowed ⟨s, writers⟩ ⟨s', writers⟩ := by
  have hflush : SpaceRun allowed ⟨s, writers⟩ ⟨(s.flushF h true).2.2, writers⟩ :=
    one (.flushF h true) hopen rfl
  have hlogged := (flushF_reach s h true).logged hw
    (congrArg Log.writer (s.flushF_flushOf h true).log)
  unfold BlueFS.fsync at hsync
  simp only at hsync
  generalize (s.flushF h true).2.2 = s₀ at hsync hflush hlogged
  split at hsync
  case isTrue =>
    obtain ⟨-, hrest⟩ := Prod.mk.inj (Option.some.inj hsync)
    obtain ⟨-, rfl⟩ := Prod.mk.inj hrest
    exact hflush
  case isFalse =>
    have hdevs : SpaceRun allowed ⟨s, writers⟩
        ⟨(s₀.flushBdev (s.flushF h true).2.1).2, writers⟩ ∧
          Logged (s₀.flushBdev (s.flushF h true).2.1).2 :=
      ⟨hflush.next (.devices (s₀.flushBdev (s.flushF h true).2.1).2.bdev) trivial rfl, hlogged⟩
    generalize (s₀.flushBdev (s.flushF h true).2.1).1 = h₁ at hsync
    generalize (s₀.flushBdev (s.flushF h true).2.1).2 = s₁ at hsync hdevs
    -- the file is signalled only when it is dirty
    obtain ⟨s₂, heq, hsignal, hlogged₂⟩ : ∃ s₂,
        (if (s₁.nodes.files h₁.file).isDirty = true then s₁.signalDirtyToLog h₁.file else s₁) =
          s₂ ∧ SpaceRun allowed ⟨s, writers⟩ ⟨s₂, writers⟩ ∧ Logged s₂ := by
      refine ⟨_, rfl, ?_⟩
      split
      · exact ⟨hdevs.1.next (.signalDirty h₁.file) trivial rfl,
          (signalDirtyToLog_reach s₁ h₁.file).logged hdevs.2
            (congrArg Log.writer (s₁.signalDirtyToLog_dirty h₁.file).1)⟩
      · exact hdevs
    rw [heq] at hsync
    split at hsync
    case isTrue =>
      obtain ⟨w, hwrites, hcall⟩ := Option.bind_eq_some_iff.mp hsync
      obtain ⟨⟨r, s₃⟩, hrun, hout⟩ := Option.map_eq_some_iff.mp hcall
      obtain ⟨-, hrest⟩ := Prod.mk.inj hout
      obtain ⟨-, rfl⟩ := Prod.mk.inj hrest
      exact Relation.ReflTransGen.trans hsignal (of_flushAndSyncLog (hlogged₂ w hwrites) hrun)
    case isFalse =>
      obtain ⟨-, hrest⟩ := Prod.mk.inj (Option.some.inj hsync)
      obtain ⟨-, rfl⟩ := Prod.mk.inj hrest
      exact hsignal

end SpaceRun

/-! ## What a successful sync leaves -/

/-- Nothing waits to be given back. -/
def NonePending (s : BlueFS V A) : Prop := ∀ id, id < MAX_BDEV → s.dirty.pendingRelease id = .empty

theorem flushAndSyncLog_nonePending {w : FileWriter} {res : Int}
    (hflush : s.flushAndSyncLog w 0 = some (res, s')) (hres : 0 ≤ res) : NonePending s' := by
  unfold BlueFS.flushAndSyncLog at hflush
  rw [if_neg (by simp), if_neg (by simp)] at hflush
  have hfails := (gather_log s w).2
  rcases hg : s.gather w with ⟨result, s₁⟩
  rw [hg] at hflush hfails
  cases result with
  | error e =>
      obtain ⟨rfl, -⟩ := Prod.mk.inj (Option.some.inj hflush)
      exact absurd (hfails e rfl) (not_lt.mpr hres)
  | ok t =>
      simp only at hflush
      split at hflush
      case isTrue hneg =>
        obtain ⟨rfl, -⟩ := Prod.mk.inj (Option.some.inj hflush)
        exact absurd hneg (not_lt.mpr hres)
      case isFalse =>
        obtain ⟨-, rfl⟩ := Prod.mk.inj (Option.some.inj hflush)
        exact fun id hid => if_pos hid

omit [VolumeSelector V] [Allocator A] in
theorem syncSuper_dirty (s : BlueFS V A) : s.syncSuper.2.dirty = s.dirty := by
  unfold BlueFS.syncSuper
  exact (writeSuper_space _ BDEV_DB).2.2

/-- `sync_metadata` is a run, and when it returns no error nothing is pending. -/
theorem syncMetadata_run {avoidCompact due : Bool} {res : Int} (hw : Logged s)
    (hsync : s.syncMetadata avoidCompact due = some (res, s')) :
    (∀ (allowed : Nodes → NameCall → Prop) (writers : List FileRef),
      SpaceRun allowed ⟨s, writers⟩ ⟨s', writers⟩) ∧ (0 ≤ res → NonePending s') := by
  obtain ⟨w, hwrites, hcall⟩ := Option.bind_eq_some_iff.mp hsync
  obtain ⟨⟨r, s₁⟩, hlog, hout⟩ := Option.map_eq_some_iff.mp hcall
  have hflush : ∀ (allowed : Nodes → NameCall → Prop) (writers : List FileRef),
      SpaceRun allowed ⟨s, writers⟩ ⟨s₁, writers⟩ :=
    fun _ _ => .of_flushAndSyncLog (hw w hwrites) hlog
  simp only at hout
  split at hout
  case isTrue hneg =>
    obtain ⟨rfl, rfl⟩ := Prod.mk.inj hout
    exact ⟨hflush, fun hres => absurd hneg (not_lt.mpr hres)⟩
  case isFalse hok =>
    have hdrained := flushAndSyncLog_nonePending hlog (not_lt.mp hok)
    have hsuper : ∀ (allowed : Nodes → NameCall → Prop) (writers : List FileRef),
        SpaceRun allowed ⟨s, writers⟩ ⟨s₁.syncSuper.2, writers⟩ :=
      fun allowed writers => (hflush allowed writers).next .syncSuper trivial rfl
    have hkept : NonePending s₁.syncSuper.2 := by
      unfold NonePending
      rw [syncSuper_dirty s₁]
      exact hdrained
    split at hout
    case isTrue =>
      obtain ⟨-, rfl⟩ := Prod.mk.inj hout
      exact ⟨hsuper, fun _ => hkept⟩
    case isFalse =>
      obtain ⟨-, rfl⟩ := Prod.mk.inj hout
      have hdb : ∀ (allowed : Nodes → NameCall → Prop) (writers : List FileRef),
          SpaceRun allowed ⟨s, writers⟩ ⟨s₁.syncSuper.2.flushDb, writers⟩ :=
        fun allowed writers => (hsuper allowed writers).next
          (.devices s₁.syncSuper.2.flushDb.bdev) trivial rfl
      split
      · exact ⟨hdb, fun _ => hkept⟩
      · unfold BlueFS.maybeCompactLog
        split
        · rw [BlueFS.compactLog_eq]
          exact ⟨hdb, fun _ => hkept⟩
        · exact ⟨hdb, fun _ => hkept⟩

/-- How many extents of the files that can be reached, or that are among `writers`, hold a
byte. -/
def Nodes.heldCover (n : Nodes) (writers : List FileRef) (y : Nat × Nat) : Nat :=
  ∑ r ∈ Finset.range n.nextRef,
    if n.Reached r ∨ r ∈ writers then covered (n.files r).fnode.extents y else 0

/-- The free bytes and the extents of these files are pairwise disjoint and cover the region. -/
def Conserved (holds : A → Set Nat → Prop) (s : BlueFS V A) (writers : List FileRef)
    (region : Nat → Set Nat) : Prop :=
  ∃ pool : Nat → Set Nat, (∀ id, holds (s.alloc id) (pool id)) ∧
    ∀ y, y.1 < MAX_BDEV →
      s.nodes.heldCover writers y + inPool (pool y.1) y.2 = inPool (region y.1) y.2

omit [VolumeSelector V] in
theorem Housed.conserved (hs : Housed holds s region) (hdrained : NonePending s)
    (writers : List FileRef) :
    Conserved holds s (writers.filter fun r => !(s.nodes.files r).deleted) region := by
  obtain ⟨pool, hledger⟩ := hs.balanced
  refine ⟨pool, hledger.backed, fun y hy => ?_⟩
  -- a writer's file that is not deleted can be reached
  have hheld : s.nodes.heldCover (writers.filter fun r => !(s.nodes.files r).deleted) y =
      s.nodes.reachedCover y := by
    refine Finset.sum_congr rfl fun r hr => if_congr ?_ rfl rfl
    refine or_iff_left_of_imp fun hmem => (hs.kept r (Finset.mem_range.mp hr)).mp ?_
    simpa using (List.mem_filter.mp hmem).2
  have hnone : pendCover s.dirty.pendingRelease y = 0 := by
    unfold pendCover
    rw [hdrained y.1 hy]
    rfl
  have htotal := hledger.total y
  rw [claims, hs.owned y, hnone, Nat.add_zero] at htotal
  rw [hheld]
  exact htotal

/-- After a run without a rename onto a name that exists, a `sync_metadata` that succeeds leaves
every byte free or in one extent of one file that is the log, or has a name, or has an open writer
and was not deleted. -/
theorem space_conserved (law : LawfulAllocator holds) (hj : j.Kept holds region)
    (hrun : SpaceRun (fun n c => c.FreshTarget n) j j') {avoidCompact due : Bool} {res : Int}
    (hsync : j'.fs.syncMetadata avoidCompact due = some (res, s)) (hres : 0 ≤ res) :
    Conserved holds s (j'.writers.filter fun r => !(s.nodes.files r).deleted) region := by
  have hend := hrun.kept law hj
  obtain ⟨hsynced, hdrained⟩ := syncMetadata_run hend.logged hsync
  exact (SpaceRun.kept law hend (hsynced _ j'.writers)).housed.conserved (hdrained hres) j'.writers

end Runs

/-! ## A page that comes back, and two that do not -/

theorem listFs_housed {free : List PExtent} {region : Nat → Set Nat}
    (hbalanced : Balanced FreeList.Holds (listFs free) region) :
    Housed FreeList.Holds (listFs free) region := by
  have hlinks : ∀ r, (listFs free).nodes.links r = 0 := fun _ => rfl
  have hlog : (listFs free).nodes.fileMap.lookup 1 = some 0 := rfl
  refine ⟨⟨fun r => ?_, ⟨0, hlog, hlinks 0, Nat.zero_lt_one⟩, fun ino r hino => ?_, fun r hr => ?_,
    fun r _ => hlinks r, le_rfl⟩, hbalanced, fun r hr => ?_, rfl⟩
  · rw [hlinks]
    show (if r = 0 then smallLog else {} : File).refs = 0
    split <;> rfl
  · rw [hlinks]
    refine iff_of_false ?_ (by omega)
    show (OrderedMap.empty.insert 1 0).lookup ino ≠ some r
    rw [OrderedMap.lookup_insert, if_neg hino]
    simp
  · rw [hlinks] at hr
    exact absurd hr (lt_irrefl 0)
  · obtain rfl : r = 0 := Nat.lt_one_iff.mp hr
    exact iff_of_true rfl (.inr hlog)

/-- A BlueFS on one device before any call. -/
def idle : OpenFiles OriginalVolumeSelector FreeList := ⟨listFs manyPages, []⟩

theorem idle_kept : ∃ region, idle.Kept FreeList.Holds region ∧ 524288 ∈ region 1 := by
  obtain ⟨region, hbalanced⟩ := page_balanced 32768 (show 20480 ≤ 524288 by decide)
  refine ⟨region, ⟨listFs_housed hbalanced, fun w hw => ?_, fun r hr => ?_⟩, ?_⟩
  · obtain rfl : (⟨0, 4096, [], fun _ => false⟩ : FileWriter) = w := Option.some.inj hw
    rfl
  · exact absurd hr (by simp [idle])
  · obtain ⟨pool, hledger⟩ := hbalanced
    have hfree : coverCount manyPages 524288 = inPool (pool 1) 524288 := hledger.backed 1 524288
    have htotal := hledger.total (1, 524288)
    have hcount : coverCount manyPages 524288 = 1 := by decide
    have hone : 1 ≤ inPool (region 1) 524288 := by
      rw [← show claims _ pool (1, 524288) = inPool (region 1) 524288 from htotal, claims, ← hfree,
        hcount]
      exact Nat.le_add_left 1 _
    unfold inPool at hone
    by_contra hnot
    rw [if_neg hnot] at hone
    exact absurd hone (by decide)

/-- The file `a` with a page that its writer has flushed. -/
def onePageFs : BlueFS OriginalVolumeSelector FreeList :=
  ((newFile manyPages).2.appendTryFlush (newFile manyPages).1 (List.replicate 4096 7)).2.2

theorem onePageFs_run {allowed : Nodes → NameCall → Prop}
    (may : allowed (listFs manyPages).nodes (.openForWrite [100] [97] false)) :
    SpaceRun allowed idle ⟨onePageFs, [1]⟩ := by
  have hopened : SpaceRun allowed idle ⟨(newFile manyPages).2, [1]⟩ := SpaceRun.opened .refl may
  have happend : SpaceRun allowed ⟨(newFile manyPages).2, [1]⟩ ⟨onePageFs, [1]⟩ :=
    SpaceRun.of_appendTryFlush (h := (newFile manyPages).1) (by decide) (List.replicate 4096 7)
  exact Relation.ReflTransGen.trans hopened happend

/-- The file is unlinked while its writer is open. -/
def unlinkedPage : OpenFiles OriginalVolumeSelector FreeList :=
  ⟨(onePageFs.unlink [100] [97]).2, [1]⟩

theorem unlinkedPage_run : SpaceRun (fun n c => c.FreshTarget n) idle unlinkedPage :=
  (onePageFs_run trivial).unlinked trivial

/-- A file `b` without a byte takes the name of `a`. -/
def renamedOver : OpenFiles OriginalVolumeSelector FreeList :=
  ⟨((onePageFs.openForWrite [100] [98] false).2.2.rename [100] [98] [100] [97]).2, []⟩

theorem renamedOver_run : SpaceRun (fun _ _ => True) idle renamedOver := by
  have hclosed : SpaceRun (fun _ _ => True) idle ⟨onePageFs, []⟩ :=
    (onePageFs_run trivial).closed 1
  have hopened := hclosed.opened (d := [100]) (f := [98]) (o := false) trivial
  have hwriter : NameCall.opened onePageFs (.openForWrite [100] [98] false) ++ [] = [2] := by
    decide +kernel
  rw [hwriter] at hopened
  exact (hopened.closed 2).renamed trivial

/-- What a sync of the metadata returns, how many extents of files hold the page that was
written, and how many free extents. -/
def pageSynced (j : OpenFiles OriginalVolumeSelector FreeList) : Option (Int × Nat × Nat) :=
  (j.fs.syncMetadata false false).map fun p =>
    (p.1, p.2.nodes.heldCover j.writers (1, 524288), coverCount (p.2.alloc 1).extents 524288)

theorem space_conserved_unlinked : ∃ region s, 524288 ∈ region 1 ∧
    unlinkedPage.fs.syncMetadata false false = some (0, s) ∧
    Conserved FreeList.Holds s (unlinkedPage.writers.filter fun r => !(s.nodes.files r).deleted)
      region := by
  obtain ⟨region, hkept, hpage⟩ := idle_kept
  have hsynced : pageSynced unlinkedPage = some (0, 1, 1) := by decide +kernel
  obtain ⟨⟨res, s⟩, hsync, hout⟩ := Option.map_eq_some_iff.mp hsynced
  obtain rfl : res = 0 := congrArg Prod.fst hout
  exact ⟨region, s, hpage, hsync,
    space_conserved FreeList.lawful hkept unlinkedPage_run hsync le_rfl⟩

/-- The page of a file that was unlinked is free while its writer holds it, and the page of a file
whose name was taken by a rename has no holder. -/
theorem space_not_conserved :
    (¬ ∀ (j j' : OpenFiles OriginalVolumeSelector FreeList) (region : Nat → Set Nat)
        (s : BlueFS OriginalVolumeSelector FreeList) (avoidCompact due : Bool) (res : Int),
      j.Kept FreeList.Holds region → SpaceRun (fun n c => c.FreshTarget n) j j' →
      j'.fs.syncMetadata avoidCompact due = some (res, s) → 0 ≤ res →
      Conserved FreeList.Holds s j'.writers region) ∧
    ¬ ∀ (j j' : OpenFiles OriginalVolumeSelector FreeList) (region : Nat → Set Nat)
        (s : BlueFS OriginalVolumeSelector FreeList) (avoidCompact due : Bool) (res : Int),
      j.Kept FreeList.Holds region → SpaceRun (fun _ _ => True) j j' →
      j'.fs.syncMetadata avoidCompact due = some (res, s) → 0 ≤ res →
      Conserved FreeList.Holds s (j'.writers.filter fun r => !(s.nodes.files r).deleted)
        region := by
  obtain ⟨region, hkept, hpage⟩ := idle_kept
  constructor
  -- one holder too many for the page that was unlinked
  · intro hclaim
    have hsynced : pageSynced unlinkedPage = some (0, 1, 1) := by decide +kernel
    obtain ⟨⟨res, s⟩, hsync, hout⟩ := Option.map_eq_some_iff.mp hsynced
    obtain ⟨hres, hcounts⟩ := Prod.mk.inj hout
    have hheld : s.nodes.heldCover unlinkedPage.writers (1, 524288) = 1 := (Prod.mk.inj hcounts).1
    obtain ⟨pool, hpool, htotal⟩ := hclaim idle unlinkedPage region s false false res hkept
      unlinkedPage_run hsync hres.ge
    have hone : inPool (pool 1) 524288 = 1 := (hpool 1 524288).symm.trans (Prod.mk.inj hcounts).2
    have hsum : s.nodes.heldCover unlinkedPage.writers (1, 524288) + inPool (pool 1) 524288 =
      inPool (region 1) 524288 := htotal (1, 524288) (by decide)
    rw [hheld, hone] at hsum
    have hle := inPool_le (region 1) 524288
    omega
  -- and none for the page of the file whose name was taken
  · intro hclaim
    have hsynced : pageSynced renamedOver = some (0, 0, 0) := by decide +kernel
    obtain ⟨⟨res, s⟩, hsync, hout⟩ := Option.map_eq_some_iff.mp hsynced
    obtain ⟨hres, hcounts⟩ := Prod.mk.inj hout
    have hheld : s.nodes.heldCover [] (1, 524288) = 0 := (Prod.mk.inj hcounts).1
    obtain ⟨pool, hpool, htotal⟩ := hclaim idle renamedOver region s false false res hkept
      renamedOver_run hsync hres.ge
    have hnone : inPool (pool 1) 524288 = 0 := (hpool 1 524288).symm.trans (Prod.mk.inj hcounts).2
    have hsum : s.nodes.heldCover [] (1, 524288) + inPool (pool 1) 524288 =
      inPool (region 1) 524288 := htotal (1, 524288) (by decide)
    rw [hheld, hnone] at hsum
    unfold inPool at hsum
    rw [if_pos hpage] at hsum
    exact absurd hsum (by decide)

end Clab.Bluefs
