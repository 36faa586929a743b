import Clab.Bluefs.LogFrames

/-!
# Sessions and the mounts after them

A session is what happens between the mount of a new BlueFS and a crash: calls whose
records are gathered, flushes of the log, and writes of the superblock. The replay
reads the log up to the size in the superblock, so a mount after the crash finds the
directories, names and files of the last flush before that was written.
-/

namespace Clab.Bluefs

open Blk Segments

variable {V A : Type}

/-! ## Mounting -/

/-- Nothing was done yet with this BlueFS. -/
structure Pristine (s : BlueFS V A) : Prop where
  nodes : s.nodes = {}
  log : s.log = {}
  dirty : s.dirty = {}

/-- The superblock names a log with space. -/
structure Super.HasLog (super : Super) : Prop where
  ino : super.logFnode.ino = 1
  indexed : super.logFnode.Indexed
  space : super.logFnode.extents ≠ []

/-- A transaction as it is written, padded to whole blocks. -/
def Transaction.padded (t : Transaction) (blockSize : Nat) : Bytes :=
  t.encode ++
    List.replicate (Common.p2roundup t.encode.length blockSize - t.encode.length) 0

/-- The room that it takes in the log. -/
def Transaction.room (blockSize : Nat) (t : Transaction) : Nat := (t.padded blockSize).length

theorem Transaction.room_pos (blockSize : Nat) (t : Transaction) : 0 < t.room blockSize := by
  have hencode : 0 < t.encode.length := by
    unfold encode encodeStruct
    simp
  unfold room padded
  rw [List.length_append]
  omega

/-- The transactions that the replay comes to: those that start below the size of the log. -/
def visible (blockSize size : Nat) : Nat → List Transaction → List Transaction
  | _, [] => []
  | pos, t :: ts =>
      if pos < size then t :: visible blockSize size (pos + t.room blockSize) ts else []

/-- All that was in the log when its size was taken. -/
theorem visible_append (blockSize pos : Nat) (ts rest : List Transaction) :
    visible blockSize (pos + total (Transaction.room blockSize) ts) pos (ts ++ rest) = ts := by
  induction ts generalizing pos with
  | nil =>
      cases rest with
      | nil => rfl
      | cons t rest =>
          rw [List.nil_append, visible, total_nil, if_neg (by omega)]
  | cons t ts ih =>
      have hroom := t.room_pos blockSize
      have hrest := ih (pos + t.room blockSize)
      rw [total_cons, List.cons_append, visible, if_pos (by omega), ← Nat.add_assoc, hrest]

/-- The superblock as it is read. -/
def Super.reread (super : Super) : Super :=
  { super with
    logFnode := Fnode.decode {} super.logFnode.ino super.logFnode.size super.logFnode.mtime
      super.logFnode.extents }

section Mount

variable [VolumeSelector V] [Allocator A]

theorem mountFiles_eq (s : BlueFS V A) (rs : List FileRef) :
    ∃ a u v, rs.foldl BlueFS.mountFile s = { s with alloc := a, bluefsUsed := u, vselector := v } := by
  have hextents : ∀ (s : BlueFS V A) (es : List Extent), ∃ a u,
      es.foldl BlueFS.mountExtent s = { s with alloc := a, bluefsUsed := u } := by
    intro s es
    induction es generalizing s with
    | nil => exact ⟨s.alloc, s.bluefsUsed, rfl⟩
    | cons e es ih =>
        rw [List.foldl_cons]
        unfold BlueFS.mountExtent
        split
        · obtain ⟨a, u, h⟩ := ih { s with bluefsUsed := s.bluefsUsed + e.length }
          exact ⟨a, u, h⟩
        · obtain ⟨a, u, h⟩ := ih { s with
            alloc := Function.update s.alloc e.bdev
              (Allocator.initRmFree (s.alloc e.bdev) e.offset e.length) }
          exact ⟨a, u, h⟩
  induction rs generalizing s with
  | nil => exact ⟨s.alloc, s.bluefsUsed, s.vselector, rfl⟩
  | cons r rs ih =>
      obtain ⟨a, u, hfile⟩ := hextents s (s.nodes.files r).fnode.extents
      have hone : s.mountFile r = { s with
          alloc := a
          bluefsUsed := u
          vselector := VolumeSelector.addUsage s.vselector (s.nodes.files r).vselectorHint
            (s.nodes.files r).fnode } := by
        unfold BlueFS.mountFile
        simp only [hfile]
      obtain ⟨a', u', v', hrest⟩ := ih (s.mountFile r)
      rw [List.foldl_cons, hrest, hone]
      exact ⟨a', u', v', rfl⟩

/-- No file in the table is an orphan. -/
theorem dropOrphans_eq {n : Nodes} (h : Linked n) : n.dropOrphans = n := by
  have hmap : n.dropOrphans.fileMap = n.fileMap := by
    refine OrderedMap.ext_lookup fun ino => ?_
    unfold Nodes.dropOrphans
    rw [OrderedMap.lookup_filter]
    cases hr : n.fileMap.lookup ino with
    | none => simp
    | some r =>
        refine if_pos (decide_eq_true ?_)
        by_cases hone : ino = 1
        · exact .inl hone.le
        · have hlinks := ((h.filed ino r hone).mp hr).1
          have hrefs := h.refs r
          exact .inr (by omega)
  have hdrop : n.dropOrphans = { n with fileMap := n.dropOrphans.fileMap } := rfl
  rw [hdrop, hmap]

/-- The nodes that a replay leaves to the mounted BlueFS. -/
def Nodes.afterReplay (n : Nodes) (pos : Nat) : Nodes :=
  n.setFile 0 { n.files 0 with fnode := { (n.files 0).fnode with size := pos }.resetDelta }

theorem afterReplay_names (n : Nodes) (pos : Nat) : SameNames n (n.afterReplay pos) :=
  SameNames.setFile n (by rfl) (by rfl)

/-- A mount whose replay succeeds. -/
theorem mount_eq {base b : BlueFS V A} (hbase : Pristine base) {super : Super}
    (hsuper : super.HasLog) (alloc : Nat → A) (ops : List LogOp) (seq pos : Nat)
    (hops : ops.foldlM BlueFS.replayOp ({ base with super }.initAlloc alloc).openLog.2 = some b)
    (hb : Linked b.nodes) (hfirst : b.nodes.fileMap.lookup 1 = some 0) :
    ∃ s, base.mount super alloc ops seq pos = some s ∧ s.nodes = b.nodes.afterReplay pos ∧
      s.log = { b.log with seqLive := seq + 1, writer := some { file := 0, pos } } ∧
      s.dirty = { b.dirty with seqLive := seq + 1, seqStable := seq } ∧ s.super = b.super := by
  have hopen : ({ base with super }.initAlloc alloc).openLog.1 = 0 := by
    show base.nodes.nextRef = 0
    rw [hbase.nodes]
  have hspace : ((({ base with super }.initAlloc alloc).openLog.2.nodes.files 0).fnode.extents) ≠
      [] := by
    show ((Function.update base.nodes.files base.nodes.nextRef _) 0).fnode.extents ≠ []
    rw [hbase.nodes, Function.update_self]
    exact hsuper.space
  have hnames : SameNames b.nodes (b.nodes.setFile 0 { b.nodes.files 0 with
      fnode := { (b.nodes.files 0).fnode with size := pos } }) :=
    SameNames.setFile b.nodes (by rfl) (by rfl)
  have horphans := dropOrphans_eq (hnames.linked hb)
  generalize hm : b.nodes.setFile 0 { b.nodes.files 0 with
    fnode := { (b.nodes.files 0).fnode with size := pos } } = m at *
  have hlog : m.fileMap.lookup 1 = some 0 := by
    rw [hnames.fileMap]
    exact hfirst
  have hsize : (m.files 0).fnode.size = pos := by
    rw [← hm, Nodes.setFile_files, if_pos rfl]
  have hmounted : m.setFile 0 { m.files 0 with fnode := (m.files 0).fnode.resetDelta } =
      b.nodes.afterReplay pos := by
    rw [← hm, Nodes.setFile_setFile, Nodes.setFile_files, if_pos rfl]
    rfl
  obtain ⟨a, u, v, hfiles⟩ := mountFiles_eq (A := A) { b with
    log := { b.log with seqLive := seq + 1 }
    dirty := { b.dirty with seqLive := seq + 1, seqStable := seq }
    nodes := m } (m.fileMap.entries.map Prod.snd)
  unfold BlueFS.mount BlueFS.replay
  simp only [hopen, if_neg hspace, hops, Option.map_some, hm, horphans]
  refine ⟨_, rfl, ?_⟩
  unfold BlueFS.mountReplayed
  simp only [hfiles, getFile_found hlog, hsize, hmounted, and_self]

/-- The end of the log is all that a mount adds to a replay. -/
theorem Mirrors.mounted {known : Set FileRef} {n m : Nodes} (h : Mirrors known n m) (pos : Nat) :
    Mirrors known n (m.afterReplay pos) := by
  obtain ⟨l, hl⟩ := h.found' h.first
  have hlog := h.files 1 l 0 hl h.first
  have hnames := afterReplay_names m pos
  refine h.transfer (.refl n) hnames (fun d => h.dirs d) (fun d f => ?_)
    fun ino r r' hr hr' => ?_
  · refine (congrFun (congrFun (Mirrors.setFile_inoAt m ?_) d) f).trans (h.names d f)
    rfl
  · have hrec := h.files ino r r' hr hr'
    unfold Nodes.afterReplay
    rw [Nodes.setFile_files]
    split
    case isFalse => exact ⟨hrec.tracks, hrec.same⟩
    case isTrue hzero =>
      rw [hzero] at hr'
      have hone : ino = 1 := by
        have hnumber : ∀ k x, n.fileMap.lookup k = some x → m.fileMap.lookup k = some 0 →
            (m.files 0).fnode.ino = k := fun k x hk hk' =>
          (h.files k x 0 hk hk').tracks.ino.trans (h.files k x 0 hk hk').number
        rw [← hnumber ino r hr hr', hnumber 1 l hl h.first]
      refine ⟨?_, fun hne => absurd hone hne⟩
      obtain ⟨base, c, hbase, hcommitted, hmatch, hino, hc, hf⟩ := hrec.tracks
      rw [hzero] at hmatch hino
      exact ⟨base, c, hbase, hcommitted, ⟨hmatch.extents, hmatch.index, hmatch.allocated⟩, hino, hc,
        hf⟩

/-! ### A new file system -/

/-- Nodes that hold the log and nothing else. -/
structure LogOnly (n : Nodes) (log : Fnode) : Prop where
  dirs : n.dirMap = .empty
  files : n.fileMap = OrderedMap.empty.insert 1 0
  inoLast : n.inoLast = 1
  made : n.nextRef = 1
  refs : ∀ r, (n.files r).refs = 0
  fnode : (n.files 0).fnode = log

namespace LogOnly

variable {n m : Nodes} {f g : Fnode}

omit [VolumeSelector V] [Allocator A] in
theorem lookup (h : LogOnly n f) (ino : Nat) :
    n.fileMap.lookup ino = if ino = 1 then some 0 else none := by
  rw [h.files, OrderedMap.lookup_insert, OrderedMap.lookup_empty]

omit [VolumeSelector V] [Allocator A] in
theorem links (h : LogOnly n f) (r : FileRef) : n.links r = 0 := by
  unfold Nodes.links
  rw [h.dirs]
  rfl

omit [VolumeSelector V] [Allocator A] in
theorem linked (h : LogOnly n f) : Linked n where
  refs r := by rw [h.refs, h.links]; rfl
  log := ⟨0, by rw [h.lookup, if_pos rfl], h.links 0, by rw [h.made]; exact Nat.zero_lt_one⟩
  filed ino r hne := by
    rw [h.lookup, if_neg hne, h.links]
    simp
  numbered r hr := by
    rw [h.links] at hr
    exact absurd hr (lt_irrefl 0)
  fresh r _ := h.links r
  started := h.inoLast.ge

omit [VolumeSelector V] [Allocator A] in
/-- Two new file systems with the same space in the log. -/
theorem mirrors (h : LogOnly n f) (h' : LogOnly m g) (hlog : f.ino = 1) (htracks : g.Tracks f) :
    Mirrors ∅ n m where
  linked := h.linked
  linked' := h'.linked
  inoLast := by rw [h.inoLast, h'.inoLast]
  dirs d := by rw [Nodes.hasDir, Nodes.hasDir, h.dirs, h'.dirs]
  names d x := by
    rw [Nodes.inoAt, Nodes.inoAt, Nodes.entry, Nodes.entry, h.dirs, h'.dirs]
    rfl
  inos ino := by rw [Nodes.hasIno, Nodes.hasIno, h.lookup, h'.lookup]
  files ino r r' hr hr' := by
    rw [h.lookup] at hr
    rw [h'.lookup] at hr'
    split at hr
    case isFalse => exact absurd hr (by simp)
    case isTrue hone =>
      rw [if_pos hone] at hr'
      obtain rfl := Option.some.inj hr
      obtain rfl := Option.some.inj hr'
      exact ⟨by rw [h.fnode, hlog, hone], by rw [h.links, h'.links], by rw [h.fnode, h'.fnode]; exact htracks,
        fun hne => absurd hone hne⟩
  first := by rw [h'.lookup, if_pos rfl]

end LogOnly

omit [Allocator A] in
/-- The nodes with which a mount starts the replay. -/
theorem openLog_logOnly {base : BlueFS V A} (hbase : Pristine base) (super : Super)
    (alloc : Nat → A) :
    LogOnly ({ base with super }.initAlloc alloc).openLog.2.nodes super.logFnode := by
  have hnodes : ({ base with super }.initAlloc alloc).openLog.2.nodes =
      { (base.nodes.addFile 1 {
          fnode := super.logFnode
          vselectorHint := VolumeSelector.getHintForLog base.vselector }).2 with
        inoLast := 1 } := rfl
  rw [hnodes, hbase.nodes]
  refine ⟨rfl, rfl, rfl, rfl, fun r => ?_, ?_⟩
  · simp only [Nodes.addFile, Function.update_apply]
    split <;> rfl
  · simp only [Nodes.addFile, Function.update_self]

/-- The first mount. -/
theorem mount_new {base : BlueFS V A} (hbase : Pristine base) {super : Super}
    (hsuper : super.HasLog) (alloc : Nat → A) (seq pos : Nat) :
    ∃ s, base.mount super alloc [.init] seq pos = some s ∧
      LogOnly s.nodes { super.logFnode with size := pos }.resetDelta ∧
      s.log = { seqLive := seq + 1, writer := some { file := 0, pos } } ∧ s.super = super ∧
      Queue s := by
  have hopen := openLog_logOnly hbase super alloc
  have hbooks : ({ base with super }.initAlloc alloc).openLog.2.log = {} ∧
      ({ base with super }.initAlloc alloc).openLog.2.dirty = {} ∧
      ({ base with super }.initAlloc alloc).openLog.2.super = super :=
    ⟨hbase.log, hbase.dirty, rfl⟩
  obtain ⟨s, hmount, hnodes, hlog, hdirty, hsame⟩ := mount_eq hbase hsuper alloc [.init]
    seq pos rfl hopen.linked (by rw [hopen.lookup, if_pos rfl])
  generalize ({ base with super }.initAlloc alloc).openLog.2 = b at *
  have hnew : LogOnly s.nodes { super.logFnode with size := pos }.resetDelta := by
    rw [hnodes]
    refine ⟨hopen.dirs, hopen.files, hopen.inoLast, hopen.made, fun r => ?_, ?_⟩
    · rw [(afterReplay_names b.nodes pos).refs]
      exact hopen.refs r
    · unfold Nodes.afterReplay
      rw [Nodes.setFile_files, if_pos rfl, hopen.fnode]
  rw [hbooks.1] at hlog
  rw [hbooks.2.1] at hdirty
  refine ⟨s, hmount, hnew, hlog, hsame.trans hbooks.2.2, ?_⟩
  constructor
  case live => rw [hlog, hdirty]
  case stable => rw [hlog, hdirty]; exact Nat.lt_succ_self seq
  case waiting =>
    intro k r hr
    rw [BlueFS.waiting, hdirty] at hr
    exact absurd hr (by simp)
  case due =>
    intro r hr
    rw [hnew.links] at hr
    exact absurd hr (lt_irrefl 0)

end Mount

/-! ## Sessions -/

/-- `mount` of a log that holds the transactions, numbered from 1 on. -/
def BlueFS.mountLog [VolumeSelector V] [Allocator A] (s : BlueFS V A) (super : Super)
    (alloc : Nat → A) (txs : List Transaction) : Option (BlueFS V A) :=
  let seen := visible super.blockSize super.logFnode.size 0 txs
  s.mount super alloc (seen.flatMap Transaction.ops) seen.length
    (total (Transaction.room super.blockSize) seen)

/-- A mounted BlueFS and what is on disk: the transactions in the log and the superblock.
`flushed` is the BlueFS as it was when the log was last written, and `durable` that of when the
superblock was last written. -/
structure Session (V A : Type) where
  fs : BlueFS V A
  txs : List Transaction
  super : Super
  flushed : BlueFS V A
  durable : BlueFS V A

/-- The transaction of `mkfs`. -/
def initTx (uuid : Bytes) : Transaction := { uuid, seq := 1, ops := [.init] }

/-- The session that starts with a BlueFS just mounted. -/
def Session.start (s : BlueFS V A) (super : Super) : Session V A where
  fs := s
  txs := [initTx super.uuid]
  super := super
  flushed := s
  durable := s

section Run

variable [VolumeSelector V] [Allocator A]

/-- The transaction ends within the log. -/
def Session.Fits (j : Session V A) (w : FileWriter) (t : Transaction) : Prop :=
  w.pos + t.room j.super.blockSize ≤ ((j.fs.gather w).2.nodes.files w.file).fnode.allocated

/-- The steps of a session, as the calls make them. No caller has the file of the log; a file that
is cut, preallocated or signalled has a link; the log is flushed by one thread at a time, each
flush ends well and its transaction fits; and the superblock is written while the log
has the space it was mounted with. -/
inductive Session.Step : Session V A → Session V A → Prop
  | name {j : Session V A} (c : NameCall) {res : Int} {fs : BlueFS V A}
      (fresh : c.FreshTarget j.fs.nodes) (logs : c.Logs j.fs.nodes)
      (run : c.run j.fs = some (res, fs)) : Step j { j with fs }
  | flushF {j : Session V A} (h : FileWriter) (force : Bool)
      (user : j.fs.nodes.fileMap.lookup 1 ≠ some h.file) :
      Step j { j with fs := (j.fs.flushF h force).2.2 }
  | flushRange {j : Session V A} (h : FileWriter) (offset length : Nat)
      (user : j.fs.nodes.fileMap.lookup 1 ≠ some h.file) :
      Step j { j with fs := (j.fs.flushRange h offset length).2.2 }
  | truncateTo {j : Session V A} (r : FileRef) (offset : Nat) (linked : 0 < j.fs.nodes.links r) :
      Step j { j with fs := j.fs.truncateTo r offset }
  | preallocate {j : Session V A} (r : FileRef) (off len : Nat) {res : Int} {fs : BlueFS V A}
      (linked : 0 < j.fs.nodes.links r) (run : j.fs.preallocate r off len = some (res, fs)) :
      Step j { j with fs }
  | signalDirty {j : Session V A} (r : FileRef) (linked : 0 < j.fs.nodes.links r) :
      Step j { j with fs := j.fs.signalDirtyToLog r }
  | devices {j : Session V A} (bdev : Nat → Option KernelDevice) :
      Step j { j with fs := { j.fs with bdev } }
  | logFlush {j : Session V A} (w : FileWriter) {t : Transaction} {fs : BlueFS V A}
      (writer : j.fs.log.writer = some w) (run : LogFlushed j.fs w t fs) (fits : j.Fits w t) :
      Step j { j with fs, txs := j.txs ++ [t], flushed := fs }
  | syncSuper {j : Session V A} {r : FileRef} (log : j.fs.nodes.fileMap.lookup 1 = some r)
      (space : (j.fs.nodes.files r).fnode.extents = j.super.logFnode.extents)
      (wrote : 0 ≤ j.fs.syncSuper.1) :
      Step j { j with
        fs := j.fs.syncSuper.2
        super := j.fs.syncSuper.2.super.reread
        durable := j.flushed }

/-- The runs of a session. -/
def Session.Run : Session V A → Session V A → Prop := Relation.ReflTransGen Step

/-- The log of a session: its transactions are numbered, its writer is behind the last one, and
its file ends there. -/
structure Session.Logged (j : Session V A) : Prop where
  numbered : ∀ i t, j.txs[i]? = some t → t.seq = i + 1 ∧ t.uuid = j.super.uuid
  seqLive : j.fs.log.seqLive = j.txs.length + 1
  uuid : j.fs.super.uuid = j.super.uuid
  blocks : j.fs.super.blockSize = j.super.blockSize
  writer : ∃ w, j.fs.log.writer = some w ∧ j.fs.nodes.fileMap.lookup 1 = some w.file ∧
    w.pos = total (Transaction.room j.super.blockSize) j.txs ∧
    (j.fs.nodes.files w.file).fnode.size = total (Transaction.room j.super.blockSize) j.txs

/-- What a replay of the log finds: all of the log takes it to `flushed`, and what the superblock
covers to `durable`. -/
structure Session.Kept (n : Nodes) (log : Fnode) (j : Session V A) : Prop where
  logged : j.Logged
  now : Follows ∅ n (j.txs.flatMap Transaction.ops ++ j.fs.log.t.ops) ∅ j.fs.nodes
  flushed : Follows ∅ n (j.txs.flatMap Transaction.ops) ∅ j.flushed.nodes
  durable : ∃ ts rest, j.txs = ts ++ rest ∧
    j.super.logFnode.size = total (Transaction.room j.super.blockSize) ts ∧
    Follows ∅ n (ts.flatMap Transaction.ops) ∅ j.durable.nodes
  queue : Queue j.fs
  super : j.super.HasLog
  space : j.super.logFnode.extents = log.extents

variable {n : Nodes} {log : Fnode} {j j' : Session V A}

omit [VolumeSelector V] [Allocator A] in
/-- The log is not flushed. -/
theorem Session.Kept.calls (h : j.Kept n log) (fs : BlueFS V A) (hfs : Journals ∅ j.fs ∅ fs)
    (hqueue : Queue fs)
    (hlog : ∀ l, j.fs.nodes.fileMap.lookup 1 = some l → KeepsLog l j.fs fs) :
    Session.Kept n log { j with fs } := by
  obtain ⟨ops, hops, hfollows⟩ := hfs
  obtain ⟨w, hw, hfile, hpos, hsize⟩ := h.logged.writer
  have hkeeps := hlog w.file hfile
  refine ⟨⟨h.logged.numbered, ?_, ?_, ?_, w, ?_, hkeeps.found hfile, hpos, ?_⟩, ?_, h.flushed,
    h.durable, hqueue, h.super, h.space⟩
  · exact hkeeps.seqLive.trans h.logged.seqLive
  · show fs.super.uuid = _
    rw [hkeeps.super]
    exact h.logged.uuid
  · show fs.super.blockSize = _
    rw [hkeeps.super]
    exact h.logged.blocks
  · exact hkeeps.writer.trans hw
  · show (fs.nodes.files w.file).fnode.size = _
    rw [hkeeps.fnode]
    exact hsize
  · show Follows ∅ n (j.txs.flatMap Transaction.ops ++ fs.log.t.ops) ∅ fs.nodes
    rw [hops, ← List.append_assoc]
    exact h.now.trans hfollows

omit [VolumeSelector V] [Allocator A] in
theorem writeSuper_frame (s : BlueFS V A) (dev : Nat) : (s.writeSuper dev).2.nodes = s.nodes ∧
    (s.writeSuper dev).2.log = s.log ∧ (s.writeSuper dev).2.dirty = s.dirty ∧
    (s.writeSuper dev).2.super.logFnode = s.super.logFnode ∧
    (s.writeSuper dev).2.super.uuid = s.super.uuid ∧
    (s.writeSuper dev).2.super.blockSize = s.super.blockSize := by
  unfold BlueFS.writeSuper
  split
  · exact ⟨rfl, rfl, rfl, rfl, rfl, rfl⟩
  · simp only
    split
    · exact ⟨rfl, rfl, rfl, rfl, rfl, rfl⟩
    · split <;> exact ⟨rfl, rfl, rfl, rfl, rfl, rfl⟩

omit [VolumeSelector V] [Allocator A] in
theorem syncSuper_frame (s : BlueFS V A) {r : FileRef} (hlog : s.nodes.fileMap.lookup 1 = some r) :
    s.syncSuper.2.nodes = s.nodes ∧ s.syncSuper.2.log = s.log ∧ s.syncSuper.2.dirty = s.dirty ∧
      s.syncSuper.2.super.logFnode = (s.nodes.files r).fnode ∧
      s.syncSuper.2.super.uuid = s.super.uuid ∧
      s.syncSuper.2.super.blockSize = s.super.blockSize := by
  have hframe := writeSuper_frame (s.setLogFnode r) BDEV_DB
  unfold BlueFS.syncSuper
  simp only [getFile_found hlog]
  exact hframe

/-- A transaction is written behind the others. -/
theorem LogFlushed.logged {w : FileWriter} {t : Transaction} {fs : BlueFS V A}
    (h : LogFlushed j.fs w t fs) (hj : j.Logged) (hs : Linked j.fs.nodes) (hqueue : Queue j.fs)
    (hgrants : PositiveGrants A) (hw : j.fs.log.writer = some w) :
    Session.Logged { j with fs, txs := j.txs ++ [t], flushed := fs } := by
  obtain ⟨w', hw', hfile, hpos, hsize⟩ := hj.writer
  obtain rfl : w' = w := Option.some.inj (hw'.symm.trans hw)
  obtain ⟨hsuper, hsizes, huuid⟩ := gather_frame j.fs w'
  obtain ⟨-, hnames, -⟩ := gather_journals hgrants hs hqueue hfile h.gathered
  obtain ⟨hbooks, hseq⟩ := j.fs.gather_gathers w'
  have hseq := hseq t h.gathered
  have huuid := huuid t h.gathered
  obtain ⟨b, d, hwrite⟩ := writeLog_eq _ w' t h.wrote
  have hroom : ((j.fs.gather w').2.logBytes t).length = t.room j.super.blockSize := by
    have hblocks : (j.fs.gather w').2.super.blockSize = j.super.blockSize := by
      rw [hsuper]
      exact hj.blocks
    rw [← hblocks]
    rfl
  have htotal : w'.pos + t.room j.super.blockSize =
      total (Transaction.room j.super.blockSize) (j.txs ++ [t]) := by
    rw [hpos, total_append, total_cons, total_nil, Nat.add_zero]
  rw [hroom, hsizes, hsize, htotal, Nat.max_eq_right (by rw [← htotal, hpos]; omega)] at hwrite
  generalize hm : ((j.fs.gather w').2.writeLog w' t).2 = m at hwrite
  have hstate : fs = (m.recordStable t.seq).drainPending := by rw [h.state, hm]
  have hfnode : ∀ x, (fs.nodes.files x).fnode = (m.nodes.files x).fnode := by
    intro x
    rw [hstate]
    show ((m.recordStable t.seq).nodes.files x).fnode = _
    rw [BlueFS.recordStable_files]
    split <;> rfl
  constructor
  case numbered =>
    intro i x hx
    rw [List.getElem?_append] at hx
    split at hx
    case isTrue => exact hj.numbered i x hx
    case isFalse hge =>
      obtain ⟨hi, hx⟩ := List.getElem?_eq_some_iff.mp hx
      simp only [List.length_singleton] at hi
      obtain rfl : i = j.txs.length := by omega
      simp only [Nat.sub_self, List.getElem_cons_zero] at hx
      rw [← hx]
      exact ⟨hseq.trans hj.seqLive, huuid.trans hj.uuid⟩
  case seqLive =>
    show fs.log.seqLive = (j.txs ++ [t]).length + 1
    have hlive : fs.log.seqLive = (j.fs.gather w').2.log.seqLive := by
      rw [hstate, hwrite]
      rfl
    rw [hlive, hbooks.seqLive, hj.seqLive]
    simp
  case uuid =>
    show fs.super.uuid = _
    rw [hstate, hwrite]
    exact (congrArg Super.uuid hsuper).trans hj.uuid
  case blocks =>
    show fs.super.blockSize = _
    rw [hstate, hwrite]
    exact (congrArg Super.blockSize hsuper).trans hj.blocks
  case writer =>
    refine ⟨_, by rw [hstate, hwrite]; rfl, ?_, rfl, ?_⟩
    · show fs.nodes.fileMap.lookup 1 = some w'.file
      have hmap : fs.nodes.fileMap = (m.recordStable t.seq).nodes.fileMap := by rw [hstate]; rfl
      rw [hmap, (recordStable_names m t.seq).fileMap, hwrite]
      show (j.fs.gather w').2.nodes.fileMap.lookup 1 = _
      rw [hnames.fileMap]
      exact hfile
    · show (fs.nodes.files w'.file).fnode.size = _
      rw [hfnode, hwrite]
      simp only [Nodes.setFile_files, if_true]

/-- One step keeps what a replay finds. -/
theorem Session.Step.kept (h : Step j j') (hgrants : PositiveGrants A) {b : BlueFS V A}
    (hb : Mirrors ∅ n b.nodes) (hj : j.Kept n log) : j'.Kept n log := by
  obtain ⟨m, -, hm⟩ := hj.now V A b hb
  have hs : Linked j.fs.nodes := hm.linked
  cases h with
  | name c fresh logs run =>
      obtain ⟨hjournals, hqueue⟩ := NameCall.journals hs hj.queue fresh logs run
      exact hj.calls _ hjournals hqueue fun l hl => NameCall.keepsLog hs hl fresh logs run
  | flushF h force user =>
      have happends := flushF_appends hgrants j.fs h force
      refine hj.calls _ happends.journals (happends.queue hj.queue) fun l hl => ?_
      exact (j.fs.flushF_flushOf h force).keepsLog fun hlh => user (by rw [← hlh]; exact hl)
  | flushRange h offset length user =>
      have happends := flushRange_appends hgrants j.fs h offset length
      refine hj.calls _ happends.journals (happends.queue hj.queue) fun l hl => ?_
      exact (flushRange_flushOf j.fs h offset length).keepsLog fun hlh =>
        user (by rw [← hlh]; exact hl)
  | truncateTo r offset linked =>
      exact hj.calls _ (truncateTo_journals hs linked offset) (truncateTo_queue hj.queue r offset)
        fun l hl => truncateTo_keepsLog (hs.log_ne hl linked) j.fs offset
  | preallocate r off len linked run =>
      obtain ⟨hjournals, hqueue⟩ := preallocate_journals hgrants hs linked hj.queue run
      exact hj.calls _ hjournals hqueue fun l hl => preallocate_keepsLog (hs.log_ne hl linked) run
  | signalDirty r linked =>
      obtain ⟨hjournals, hqueue⟩ := signalDirtyToLog_journals hj.queue linked
      exact hj.calls _ hjournals hqueue fun l _ => signalDirtyToLog_keepsLog j.fs l r
  | devices bdev =>
      exact hj.calls _ (.silent rfl id) (hj.queue.same rfl rfl rfl rfl (fun _ => rfl) fun _ => rfl)
        fun l _ => ⟨rfl, rfl, rfl, id, rfl⟩
  | @logFlush w t fs writer run fits =>
      obtain ⟨w', hw', hfile, -⟩ := hj.logged.writer
      obtain rfl : w' = w := Option.some.inj (hw'.symm.trans writer)
      obtain ⟨⟨ops, hops, hfollows⟩, hempty, hqueue⟩ := run.journals hgrants hs hj.queue hfile
      have hall : Follows ∅ n ((j.txs ++ [t]).flatMap Transaction.ops) ∅ fs.nodes := by
        rw [List.flatMap_append, List.flatMap_singleton, hops, ← List.append_assoc]
        exact hj.now.trans hfollows
      obtain ⟨ts, rest, htxs, hsize, hdurable⟩ := hj.durable
      refine ⟨run.logged hj.logged hs hj.queue hgrants writer, ?_, hall,
        ⟨ts, rest ++ [t], ?_, hsize, hdurable⟩, hqueue, hj.super, hj.space⟩
      · show Follows ∅ n ((j.txs ++ [t]).flatMap Transaction.ops ++ fs.log.t.ops) ∅ fs.nodes
        rw [hempty, List.append_nil]
        exact hall
      · show j.txs ++ [t] = _
        rw [htxs, List.append_assoc]
  | @syncSuper r log space wrote =>
      obtain ⟨hnodes, hlog, hdirty, hsuper, huuid, hblocks⟩ := syncSuper_frame j.fs log
      obtain ⟨r', hr'⟩ := hm.found log
      have hrec := hm.files 1 r r' log hr'
      obtain ⟨w, hw, hfile, hpos, hsize⟩ := hj.logged.writer
      obtain rfl : w.file = r := Option.some.inj (hfile.symm.trans log)
      have hsame : j.fs.syncSuper.2.super.reread.blockSize = j.super.blockSize :=
        hblocks.trans hj.logged.blocks
      constructor
      case logged =>
        refine ⟨fun i t ht => ?_, ?_, rfl, rfl, w, ?_, ?_, ?_, ?_⟩
        · obtain ⟨hseq, hid⟩ := hj.logged.numbered i t ht
          exact ⟨hseq, hid.trans (hj.logged.uuid.symm.trans huuid.symm)⟩
        · show j.fs.syncSuper.2.log.seqLive = _
          rw [hlog]
          exact hj.logged.seqLive
        · show j.fs.syncSuper.2.log.writer = _
          rw [hlog]
          exact hw
        · show j.fs.syncSuper.2.nodes.fileMap.lookup 1 = _
          rw [hnodes]
          exact hfile
        · rw [hsame]
          exact hpos
        · show (j.fs.syncSuper.2.nodes.files w.file).fnode.size = _
          rw [hnodes, hsame]
          exact hsize
      case now =>
        show Follows ∅ n (j.txs.flatMap Transaction.ops ++ j.fs.syncSuper.2.log.t.ops) ∅
          j.fs.syncSuper.2.nodes
        rw [hlog, hnodes]
        exact hj.now
      case flushed => exact hj.flushed
      case durable =>
        refine ⟨j.txs, [], (List.append_nil _).symm, ?_, hj.flushed⟩
        show j.fs.syncSuper.2.super.logFnode.size = _
        rw [hsuper, hsame]
        exact hsize
      case queue =>
        exact hj.queue.same (by rw [hlog]) (by rw [hdirty]) (by rw [hdirty]) (by rw [hdirty])
          (fun _ => by rw [hnodes]) fun _ => by rw [hnodes]
      case super =>
        refine ⟨?_, (Fnode.recalcAllocated_consistent _).toIndexed, ?_⟩
        · show j.fs.syncSuper.2.super.logFnode.ino = 1
          rw [hsuper]
          exact hrec.number
        · show j.fs.syncSuper.2.super.logFnode.extents ≠ []
          rw [hsuper, space]
          exact hj.super.space
      case space =>
        show j.fs.syncSuper.2.super.logFnode.extents = _
        rw [hsuper, space]
        exact hj.space

theorem Session.Run.kept (h : Run j j') (hgrants : PositiveGrants A) {b : BlueFS V A}
    (hb : Mirrors ∅ n b.nodes) (hj : j.Kept n log) : j'.Kept n log := by
  induction h with
  | refl => exact hj
  | tail _ hstep ih => exact hstep.kept hgrants hb ih

/-! ### Recovery -/

/-- The superblock of `mkfs`, which covers its transaction. -/
structure Super.New (super : Super) : Prop extends super.HasLog where
  size : super.logFnode.size = (initTx super.uuid).room super.blockSize

omit [Allocator A] in
/-- The log is replayed from any superblock that gives it the same space. -/
theorem openLog_mirrors {base : BlueFS V A} (hbase : Pristine base) {super sb : Super} {pos : Nat}
    (hsuper : super.HasLog) (hsb : sb.HasLog)
    (hspace : sb.logFnode.extents = super.logFnode.extents)
    (hnew : LogOnly n { super.logFnode with size := pos }.resetDelta) (alloc : Nat → A) :
    Mirrors ∅ n ({ base with super := sb }.initAlloc alloc).openLog.2.nodes := by
  refine hnew.mirrors (openLog_logOnly hbase sb alloc) hsuper.ino ?_
  have hindexed : Fnode.Indexed { super.logFnode with size := pos } :=
    ⟨hsuper.indexed.index, hsuper.indexed.allocated⟩
  exact Fnode.Tracks.of_matches hindexed (.of_indexed hsb.indexed hindexed hspace)
    (hsb.ino.trans hsuper.ino.symm)

/-- A session starts with what its mount found. -/
theorem Session.start_kept {base s : BlueFS V A} (hbase : Pristine base) {super : Super}
    (hsuper : super.New) {alloc : Nat → A}
    (hmount : base.mountLog super alloc [initTx super.uuid] = some s) :
    (Session.start s super).Kept s.nodes super.logFnode ∧
      LogOnly s.nodes { super.logFnode with size := super.logFnode.size }.resetDelta := by
  have hseen : visible super.blockSize super.logFnode.size 0 [initTx super.uuid] =
      [initTx super.uuid] := by
    have happend := visible_append super.blockSize 0 [initTx super.uuid] []
    rwa [total_cons, total_nil, Nat.add_zero, Nat.zero_add, ← hsuper.size] at happend
  have htotal : total (Transaction.room super.blockSize) [initTx super.uuid] =
      super.logFnode.size := by
    rw [total_cons, total_nil, Nat.add_zero, hsuper.size]
  unfold BlueFS.mountLog at hmount
  simp only [hseen, htotal] at hmount
  obtain ⟨m, hm, hnew, hlog, hsame, hqueue⟩ :=
    mount_new hbase hsuper.toHasLog alloc 1 super.logFnode.size
  obtain rfl : s = m := Option.some.inj (hmount.symm.trans hm)
  have hfollows : Follows ∅ s.nodes [.init] ∅ s.nodes := fun _ _ _ b hb => ⟨b, rfl, hb⟩
  refine ⟨⟨⟨fun i t ht => ?_, ?_, ?_, ?_, _, by rw [Session.start, hlog], ?_, htotal.symm, ?_⟩, ?_,
    hfollows, ⟨[initTx super.uuid], [], rfl, htotal.symm, hfollows⟩, hqueue, hsuper.toHasLog, rfl⟩,
    hnew⟩
  · obtain ⟨hi, ht⟩ := List.getElem?_eq_some_iff.mp ht
    have hzero : i = 0 := by
      change i < 1 at hi
      omega
    subst hzero
    rw [← ht]
    exact ⟨rfl, rfl⟩
  · show s.log.seqLive = 2
    rw [hlog]
  · show s.super.uuid = super.uuid
    rw [hsame]
  · show s.super.blockSize = super.blockSize
    rw [hsame]
  · show s.nodes.fileMap.lookup 1 = some 0
    rw [hnew.lookup, if_pos rfl]
  · show (s.nodes.files 0).fnode.size = _
    rw [hnew.fnode]
    exact htotal.symm
  · show Follows ∅ s.nodes ([.init] ++ s.log.t.ops) ∅ s.nodes
    rw [hlog]
    exact hfollows

end Run

/-! ### A first session -/

/-- A BlueFS that was just made, on one device. -/
def blankFs : BlueFS OriginalVolumeSelector FreeList where
  cfg := {}
  bdev i := if i = BDEV_DB then some { size := 1073741824 } else none
  alloc _ := ⟨[]⟩
  allocSize _ := 0
  sharedAllocId := none
  bluefsUsed := 0
  vselector := ⟨0, 1073741824, 0⟩
  super := {}
  nodes := {}
  log := {}
  dirty := {}

/-- Its superblock. -/
def blankSuper : Super where
  logFnode := Fnode.decode {} 1 4096 0 [⟨1048576, 4194304, 1⟩]

/-- It is mounted. -/
def blankMounted : BlueFS OriginalVolumeSelector FreeList :=
  (blankFs.mount blankSuper (fun _ => ⟨[]⟩) [.init] 1 4096).getD blankFs

/-- The writer of its log. -/
def logEnd : FileWriter := { file := 0, pos := 4096 }

/-- A file is made in a directory. -/
def blankFilled : BlueFS OriginalVolumeSelector FreeList :=
  ((blankMounted.mkdir [100]).2.openForWrite [100] [97] false).2.2

/-- The transaction of that. -/
def filledTx : Transaction where
  seq := 2
  ops := [.dirCreate [100], .fileUpdate 2 0 0 [], .dirLink [100] [97] 2]

/-- The log is flushed. -/
def blankFlushed : BlueFS OriginalVolumeSelector FreeList :=
  (((blankFilled.gather logEnd).2.writeLog logEnd
    filledTx).2.recordStable 2).drainPending

end Clab.Bluefs
