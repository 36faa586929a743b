import Clab.Bluefs.FlushedData
import Clab.Bluefs.NameRuns
import Clab.Bluefs.ReplayNames

/-!
# Calls and their records

Each call that changes names or files, with the operations that it logs: they take a
replay from what the call found to what it left. `Queue` is the state of the dirty
files when one thread flushes the log at a time.
-/

namespace Clab.Bluefs

open Blk

variable {V A : Type} {s s' s'' : BlueFS V A} {known known' known'' : Set FileRef} {r : FileRef}
  {d f : Bytes}

/-- What goes to the log between the two states replays from the one to the other. -/
def Journals (known : Set FileRef) (s : BlueFS V A) (known' : Set FileRef) (s' : BlueFS V A) : Prop :=
  ∃ ops, s'.log.t.ops = s.log.t.ops ++ ops ∧ Follows known s.nodes ops known' s'.nodes

namespace Journals

theorem of_follows (ops : List LogOp) (hops : s'.log.t.ops = s.log.t.ops ++ ops)
    (h : Follows known s.nodes ops known' s'.nodes) : Journals known s known' s' :=
  ⟨ops, hops, h⟩

/-- Nothing is logged. -/
theorem silent (hops : s'.log.t.ops = s.log.t.ops)
    (h : ∀ {m}, Mirrors known s.nodes m → Mirrors known' s'.nodes m) : Journals known s known' s' :=
  ⟨[], by rw [hops, List.append_nil], Follows.none h⟩

theorem refl (known : Set FileRef) (s : BlueFS V A) : Journals known s known s := silent rfl id

theorem trans (h : Journals known s known' s') (h' : Journals known' s' known'' s'') :
    Journals known s known'' s'' := by
  obtain ⟨ops, hops, hfollows⟩ := h
  obtain ⟨ops', hops', hfollows'⟩ := h'
  exact ⟨ops ++ ops', by rw [hops', hops, List.append_assoc], hfollows.trans hfollows'⟩

theorem weaken (h : Journals known s known' s') (hsub : known'' ⊆ known') :
    Journals known s known'' s' :=
  h.trans (silent rfl fun hm => hm.weaken hsub)

end Journals

/-! ## The dirty files -/

/-- The files that wait are those whose record is due with the transaction that is next, and no
other file has a record due. -/
structure Queue (s : BlueFS V A) : Prop where
  live : s.dirty.seqLive = s.log.seqLive
  stable : s.dirty.seqStable < s.log.seqLive
  waiting : ∀ seq r, r ∈ s.waiting seq → seq = s.log.seqLive ∧ 0 < s.nodes.links r ∧
    (s.nodes.files r).dirtySeq = seq
  due : ∀ r, 0 < s.nodes.links r → (s.nodes.files r).dirtySeq = 0 ∨
    r ∈ s.waiting s.log.seqLive

/-- The counters and lists are kept, and each linked file is due as before or new. -/
theorem Queue.keep (h : Queue s) (hlog : s'.log.seqLive = s.log.seqLive)
    (hdirty : s'.dirty.seqLive = s.dirty.seqLive) (hstable : s'.dirty.seqStable = s.dirty.seqStable)
    (hwaiting : ∀ seq r, r ∈ s'.waiting seq ↔ r ∈ s.waiting seq ∧ 0 < s'.nodes.links r)
    (hfiles : ∀ r, 0 < s'.nodes.links r → (s'.nodes.files r).dirtySeq = 0 ∧ 
      (∀ seq, r ∉ s.waiting seq) ∨
      0 < s.nodes.links r ∧ (s'.nodes.files r).dirtySeq = (s.nodes.files r).dirtySeq) :
    Queue s' where
  live := by rw [hdirty, hlog, h.live]
  stable := by rw [hstable, hlog]; exact h.stable
  waiting seq r hr := by
    obtain ⟨hold, hlinks⟩ := (hwaiting seq r).mp hr
    obtain ⟨hseq, -, hdue⟩ := h.waiting seq r hold
    refine ⟨hseq.trans hlog.symm, hlinks, ?_⟩
    rcases hfiles r hlinks with ⟨-, hnone⟩ | ⟨-, hsame⟩
    · exact absurd hold (hnone seq)
    · exact hsame.trans hdue
  due r hr := by
    rcases hfiles r hr with ⟨hzero, -⟩ | ⟨hold, hsame⟩
    · exact .inl hzero
    · rcases h.due r hold with hzero | hwait
      · exact .inl (hsame.trans hzero)
      · refine .inr ((hwaiting _ r).mpr ⟨?_, hr⟩)
        rw [hlog]
        exact hwait

/-- Links and due records are the same. -/
theorem Queue.same (h : Queue s) (hlog : s'.log.seqLive = s.log.seqLive)
    (hdirty : s'.dirty.seqLive = s.dirty.seqLive) (hstable : s'.dirty.seqStable = s.dirty.seqStable)
    (hwaiting : s'.dirty.files = s.dirty.files) (hlinks : ∀ r, s'.nodes.links r = s.nodes.links r)
    (hfiles : ∀ r, (s'.nodes.files r).dirtySeq = (s.nodes.files r).dirtySeq) : Queue s' := by
  have hsame : ∀ seq, s'.waiting seq = s.waiting seq := fun seq => by
    unfold BlueFS.waiting
    rw [hwaiting]
  refine h.keep hlog hdirty hstable (fun seq r => ?_) fun r hr => .inr ⟨?_, hfiles r⟩
  · rw [hsame, hlinks]
    exact ⟨fun hr => ⟨hr, (h.waiting seq r hr).2.1⟩, And.left⟩
  · rwa [hlinks] at hr

/-! ## Directories -/

theorem mkdir_journals (known : Set FileRef) (s : BlueFS V A) (d : Bytes) :
    Journals known s known (s.mkdir d).2 := by
  unfold BlueFS.mkdir
  cases hd : s.nodes.dirMap.lookup d with
  | some dir => exact .refl known s
  | none => exact .of_follows _ rfl (follows_dirCreate known hd)

theorem rmdir_journals (known : Set FileRef) (s : BlueFS V A) (d : Bytes) :
    Journals known s known (s.rmdir d).2 := by
  unfold BlueFS.rmdir
  cases hd : s.nodes.dirMap.lookup d with
  | none => exact .refl known s
  | some dir =>
      simp only
      split
      case isTrue => exact .refl known s
      case isFalse hempty =>
        exact .of_follows _ rfl (follows_dirRemove known hd (not_not.mp hempty))

/-- A rename onto a free name logs the new entry and the end of the old one, and nothing else
changes. -/
theorem rename_moved {od of nd nf : Bytes} {ndir : Dir} (hentry : s.nodes.entry od of = some r)
    (hdir : s.nodes.dirMap.lookup nd = some ndir) (hnone : s.nodes.entry nd nf = none) :
    (s.rename od of nd nf).2 = { s with
      nodes := (s.nodes.setEntry nd nf r).eraseEntry od of
      log := { s.log with t := { s.log.t with ops := s.log.t.ops ++
        [.dirLink nd nf (s.nodes.files r).fnode.ino, .dirUnlink od of] } } } := by
  have hlookup : ndir.lookup nf = none := by
    rw [Nodes.entry, hdir] at hnone
    exact hnone
  have hfile : (((s.nodes.setEntry nd nf r).eraseEntry od of).files r).fnode.ino =
      (s.nodes.files r).fnode.ino := by
    rw [Nodes.eraseEntry_files, Nodes.setEntry_files]
  unfold BlueFS.rename
  simp only [hentry, hdir, hlookup, hfile, BlueFS.logOp, Transaction.push, List.append_assoc]
  rfl

theorem rename_journals (known : Set FileRef) {od of nd nf : Bytes}
    (hfree : s.nodes.entry od of ≠ none → s.nodes.entry nd nf = none) :
    Journals known s known (s.rename od of nd nf).2 := by
  cases hentry : s.nodes.entry od of with
  | none =>
      unfold BlueFS.rename
      rw [hentry]
      exact .refl known s
  | some r =>
      cases hdir : s.nodes.dirMap.lookup nd with
      | none =>
          unfold BlueFS.rename
          rw [hentry, hdir]
          exact .refl known s
      | some ndir =>
          have hnone := hfree (by rw [hentry]; simp)
          rw [rename_moved hentry hdir hnone]
          exact .of_follows _ rfl (follows_rename known hentry hdir hnone)

/-! ## Opening and locking -/

/-- The file of an entry is in the inode table. -/
theorem Linked.filed_entry {n : Nodes} (h : Linked n) (hentry : n.entry d f = some r) :
    n.fileMap.lookup (n.files r).fnode.ino = some r ∧ (n.files r).fnode.ino ≠ 1 := by
  have hlinks := Nodes.links_pos_of_entry hentry
  have hnum := (h.numbered r hlinks).1
  exact ⟨(h.filed _ r (by omega)).mpr ⟨hlinks, rfl⟩, by omega⟩

theorem stampFile_eq (s : BlueFS V A) (r : FileRef) : s.stampFile r = { s with
    nodes := s.nodes.setFile r { s.nodes.files r with
      fnode := { (s.nodes.files r).fnode with mtime := 0 }.resetDelta }
    log := { s.log with t := s.log.t.push (.fileUpdate (s.nodes.files r).fnode.ino
      (s.nodes.files r).fnode.size 0 (s.nodes.files r).fnode.extents) } } := by
  simp only [BlueFS.stampFile, BlueFS.logFileUpdate, Transaction.opFileUpdate, Nodes.setFile,
    Function.update_idem, Function.update_self]

/-- A file of an entry is recorded, whatever became of its extents. -/
theorem stampFile_journals (known : Set FileRef) (hs : Linked s.nodes)
    (hentry : s.nodes.entry d f = some r) (fnode : Fnode)
    (hino : fnode.ino = (s.nodes.files r).fnode.ino)
    (hindexed : (s.nodes.files r).fnode.Indexed → fnode.Indexed)
    (hlog : s'.log = s.log)
    (hnodes : s'.nodes = s.nodes.setFile r { s.nodes.files r with fnode }) :
    Journals known s known (s'.stampFile r) := by
  have hfiled := (hs.filed_entry hentry).1
  have hfile : (s'.nodes.files r) = { s.nodes.files r with fnode } := by
    rw [hnodes, Nodes.setFile_files, if_pos rfl]
  have hfollows := follows_fileUpdate known hfiled { fnode with mtime := 0 } hino
    (fun h => ⟨(hindexed h).index, (hindexed h).allocated⟩)
    (f := { s.nodes.files r with fnode := { fnode with mtime := 0 }.resetDelta }) rfl rfl
  rw [stampFile_eq, hfile]
  refine Journals.weaken (.of_follows [.fileUpdate (s.nodes.files r).fnode.ino fnode.size 0
    fnode.extents] ?_ ?_) (Set.subset_insert r known)
  · show s'.log.t.ops ++ [_] = _
    rw [hlog, hino]
  · show Follows known s.nodes _ _ (s'.nodes.setFile r _)
    rw [hnodes, Nodes.setFile_setFile]
    exact hfollows

theorem lockFile_journals (known : Set FileRef) {dir : Dir} (hdir : s.nodes.dirMap.lookup d = some dir)
    (hfile : dir.lookup f ≠ none) : Journals known s known (s.lockFile d f).2.2 := by
  obtain ⟨r, hr⟩ := Option.ne_none_iff_exists'.mp hfile
  unfold BlueFS.lockFile
  simp only [hdir, hr]
  split
  · exact .refl known s
  · exact .silent rfl fun hm => hm.setFile rfl rfl (fun _ hg => hg)
      fun _ hc => ⟨hc, rfl⟩

theorem unlockFile_journals (known : Set FileRef) {lock : FileRef} {out : Int × BlueFS V A}
    (hrun : s.unlockFile lock = some out) : Journals known s known out.2 := by
  unfold BlueFS.unlockFile at hrun
  split at hrun
  · rw [← Option.some.inj hrun]
    exact .silent rfl fun hm => hm.setFile rfl rfl (fun _ hg => hg)
      fun _ hc => ⟨hc, rfl⟩
  · exact absurd hrun (by simp)

variable [VolumeSelector V]

theorem openForWrite_journals (known : Set FileRef) (hs : Linked s.nodes) (d f : Bytes)
    (overwrite : Bool) : Journals known s known (s.openForWrite d f overwrite).2.2 := by
  unfold BlueFS.openForWrite
  cases hdir : s.nodes.dirMap.lookup d with
  | none => exact .refl known s
  | some dir =>
      cases hfile : dir.lookup f with
      | none =>
          simp only [hfile]
          split
          · exact .refl known s
          · have hc := Nodes.createFile_created hdir hfile
              (VolumeSelector.getHintByDir s.vselector d)
            have hdirs : ∀ x, (s.nodes.createFile d f
                (VolumeSelector.getHintByDir s.vselector d)).2.hasDir x = s.nodes.hasDir x :=
              fun x => Nodes.setEntry_hasDir _ d f _ x
            generalize s.nodes.createFile d f (VolumeSelector.getHintByDir s.vselector d) = p at *
            obtain ⟨r, n⟩ := p
            have hfnode : (n.files r).fnode = { ino := s.nodes.inoLast + 1 } := hc.fnode
            have hstamped : ({ s with nodes := n } : BlueFS V A).stampFile r = { s with
                nodes := n
                log := { s.log with
                  t := s.log.t.push (.fileUpdate (s.nodes.inoLast + 1) 0 0 []) } } := by
              have hself : ({ n.files r with
                  fnode := Fnode.resetDelta { (n.files r).fnode with mtime := 0 } } : File) =
                  n.files r := by
                rw [hfnode]
                show ({ n.files r with fnode := { ino := s.nodes.inoLast + 1 } } : File) = _
                rw [← hfnode]
              rw [stampFile_eq]
              simp only [hself, Nodes.setFile_self]
              simp only [hfnode]
            simp only [hstamped, hfnode]
            refine .of_follows [.fileUpdate (s.nodes.inoLast + 1) 0 0 [],
              .dirLink d f (s.nodes.inoLast + 1)] ?_ (follows_create known hs hdir hfile hc hdirs)
            show s.log.t.ops ++ _ ++ _ = _
            rw [List.append_assoc]
            rfl
      | some r =>
          have hentry : s.nodes.entry d f = some r := by
            rw [Nodes.entry, hdir]
            exact hfile
          simp only [hfile]
          cases overwrite with
          | true =>
              exact stampFile_journals known hs hentry (s.nodes.files r).fnode rfl id rfl
                (Nodes.setFile_self s.nodes r).symm
          | false =>
              refine stampFile_journals known hs hentry
                { (s.nodes.files r).fnode with size := 0 }.clearExtents rfl
                (fun _ => ⟨rfl, rfl⟩) rfl rfl

/-! ## Unlinking -/

omit [VolumeSelector V] in
theorem retractDirty_frame (s : BlueFS V A) (r : FileRef) :
    (s.retractDirty r).log = s.log ∧ (s.retractDirty r).nodes.dirMap = s.nodes.dirMap := by
  unfold BlueFS.retractDirty
  simp only
  split <;> exact ⟨rfl, rfl⟩

/-- The operations that a link that goes logs, and the directories. -/
theorem unlink_logs (hs : Linked s.nodes) (hentry : s.nodes.entry d f = some r) :
    (s.unlink d f).2.log.t.ops = s.log.t.ops ++ (.dirUnlink d f ::
        if s.nodes.links r = 1 then [.fileRemove (s.nodes.files r).fnode.ino] else []) ∧
      (s.unlink d f).2.nodes.dirMap = (s.nodes.eraseEntry d f).dirMap := by
  have hrefs := hs.refs r
  have hunlink : (s.unlink d f).2 =
      ({ s with nodes := s.nodes.eraseEntry d f }.logOp (.dirUnlink d f)).dropLink r := by
    unfold BlueFS.unlink
    rw [hentry]
  have hfile : (({ s with nodes := s.nodes.eraseEntry d f }.logOp (.dirUnlink d f)).lowerRefs
      r).nodes.files r = { s.nodes.files r with refs := (s.nodes.files r).refs - 1 } := by
    show ((s.nodes.eraseEntry d f).setFile r { (s.nodes.eraseEntry d f).files r with
      refs := ((s.nodes.eraseEntry d f).files r).refs - 1 }).files r = _
    rw [Nodes.setFile_files, if_pos rfl, Nodes.eraseEntry_files]
  rw [hunlink]
  unfold BlueFS.dropLink
  simp only [hfile]
  by_cases hone : s.nodes.links r = 1
  · have hzero : (s.nodes.files r).refs - 1 = 0 := by omega
    rw [if_pos hone, if_pos hzero]
    unfold BlueFS.removeFile
    simp only [hfile]
    obtain ⟨hlog, hdirs⟩ := retractDirty_frame (V := V) (A := A) _ r
    rw [hlog, hdirs]
    refine ⟨?_, rfl⟩
    show s.log.t.ops ++ [_] ++ [_] = _
    rw [List.append_assoc]
    rfl
  · have hpos : ¬ (s.nodes.files r).refs - 1 = 0 := by omega
    rw [if_neg hone, if_neg hpos]
    exact ⟨rfl, rfl⟩

omit [VolumeSelector V] in
theorem retractDirty_waiting (s : BlueFS V A) (r : FileRef) (seq : Nat) (x : FileRef) :
    x ∈ (s.retractDirty r).waiting seq ↔ x ∈ s.waiting seq ∧
      (s.dirty.seqStable < (s.nodes.files r).dirtySeq → seq = (s.nodes.files r).dirtySeq → x ≠ r) := by
  unfold BlueFS.retractDirty
  simp only
  split
  case isTrue hlt =>
    simp only [hlt, true_implies]
    exact BlueFS.mem_retract
  case isFalse hle => simp [hle]

theorem removeFile_waiting (s : BlueFS V A) (r : FileRef) (seq : Nat) (x : FileRef) :
    x ∈ (s.removeFile r).waiting seq ↔ x ∈ s.waiting seq ∧
      (s.dirty.seqStable < (s.nodes.files r).dirtySeq → seq = (s.nodes.files r).dirtySeq → x ≠ r) := by
  unfold BlueFS.removeFile
  simp only
  rw [retractDirty_waiting]
  simp [BlueFS.pendRelease, BlueFS.logOp, BlueFS.waiting]

/-- What a link that goes does to the dirty files. -/
theorem unlink_queue (hs : Linked s.nodes) (hentry : s.nodes.entry d f = some r) :
    (∀ x, (s.nodes.links r = 1 → x ≠ r) →
      (s.nodes.files x).SameFlags ((s.unlink d f).2.nodes.files x)) ∧
    ∀ seq x, x ∈ (s.unlink d f).2.waiting seq ↔ x ∈ s.waiting seq ∧
      (s.nodes.links r = 1 → s.dirty.seqStable < (s.nodes.files r).dirtySeq →
        seq = (s.nodes.files r).dirtySeq → x ≠ r) := by
  have hrefs := hs.refs r
  have hunlink : (s.unlink d f).2 =
      ({ s with nodes := s.nodes.eraseEntry d f }.logOp (.dirUnlink d f)).dropLink r := by
    unfold BlueFS.unlink
    rw [hentry]
  obtain ⟨hdrops, -⟩ := BlueFS.unlink_drops hentry
  generalize hm : ({ s with nodes := s.nodes.eraseEntry d f }.logOp (.dirUnlink d f)).lowerRefs r = m
  have hfile : m.nodes.files r = { s.nodes.files r with refs := (s.nodes.files r).refs - 1 } := by
    rw [← hm]
    show ((s.nodes.eraseEntry d f).setFile r { (s.nodes.eraseEntry d f).files r with
      refs := ((s.nodes.eraseEntry d f).files r).refs - 1 }).files r = _
    rw [Nodes.setFile_files, if_pos rfl, Nodes.eraseEntry_files]
  have hdirty : m.dirty = s.dirty := by rw [← hm]; rfl
  have hdrop : (s.unlink d f).2 =
      if (s.nodes.files r).refs - 1 = 0 then m.removeFile r else m := by
    rw [hunlink, ← hm]
    unfold BlueFS.dropLink
    simp only [hm, hfile]
  by_cases hone : s.nodes.links r = 1
  · rw [if_pos (by omega)] at hdrop
    refine ⟨fun x hx => hdrops.others x (hx hone), fun seq x => ?_⟩
    rw [hdrop, removeFile_waiting, hdirty, hfile, BlueFS.waiting, hdirty]
    simp only [hone, true_implies]
    rfl
  · rw [if_neg (by omega)] at hdrop
    have hwaiting : ∀ seq, m.waiting seq = s.waiting seq := fun seq => by
      rw [BlueFS.waiting, hdirty]
      rfl
    refine ⟨fun x _ => ?_, fun seq x => ?_⟩
    · by_cases hx : x = r
      · rw [hdrop, hx, hfile]
        exact ⟨rfl, rfl, rfl⟩
      · exact hdrops.others x hx
    · rw [hdrop, hwaiting]
      exact ⟨fun hx => ⟨hx, fun h => absurd h hone⟩, And.left⟩

theorem unlink_dropped (hs : Linked s.nodes) (hentry : s.nodes.entry d f = some r) :
    Dropped s.nodes (s.unlink d f).2.nodes r := by
  have heffects := unlink_effects hs d f
  have hdirs := (unlink_logs hs hentry).2
  have hlinks : ∀ x, (s.unlink d f).2.nodes.links x + (if x = r then 1 else 0) =
      s.nodes.links x := by
    intro x
    have h := s.nodes.links_eraseEntry d f x
    rw [hentry] at h
    simp only [Option.some.injEq] at h
    rw [Nodes.links_congr hdirs, ← h]
    congr 1
    exact if_congr eq_comm rfl rfl
  have hself := hlinks r
  rw [if_pos rfl] at hself
  unfold BlueFS.Effects at heffects
  generalize (s.unlink d f).2.nodes = n' at *
  generalize (s.unlink d f).2.dirty.pendingRelease = p' at *
  -- only an effect that drops a link of `r` leaves it one link fewer
  cases heffects with
  | same hsame => rw [hsame.links] at hself; omega
  | emptied x hsame => rw [hsame.links] at hself; omega
  | created hc hsame => rw [hsame.links, hc.links] at hself; omega
  | dropped x hd =>
      have hx := hd.links r
      by_cases hxr : r = x
      · rw [hxr]
        exact hd
      · rw [if_neg hxr] at hx
        omega

theorem unlink_journals (known : Set FileRef) (hs : Linked s.nodes) (d f : Bytes) :
    Journals known s known (s.unlink d f).2 := by
  cases hentry : s.nodes.entry d f with
  | none =>
      unfold BlueFS.unlink
      rw [hentry]
      exact .refl known s
  | some r =>
      obtain ⟨hops, hdirs⟩ := unlink_logs hs hentry
      have hd := unlink_dropped hs hentry
      refine .of_follows _ hops (follows_unlink known hentry hd (fun x y => ?_) (fun x => ?_)
        fun x hx hclean => ?_)
      · rw [Nodes.entry_congr hdirs, Nodes.entry_eraseEntry]
      · rw [← s.nodes.eraseEntry_hasDir d f x, Nodes.hasDir, hdirs]
        rfl
      · have hflags := (unlink_queue hs hentry).1 x fun hone hxr => by
          have hlinks := hd.links r
          rw [if_pos rfl, hone] at hlinks
          rw [hxr] at hx
          omega
        exact ⟨by rw [← hflags.isDirty]; exact hclean.1, by rw [← hflags.dirtySeq]; exact hclean.2⟩

/-! ## The dirty files after a call -/

omit [VolumeSelector V] in
theorem Nodes.setFile_dirtySeq {n : Nodes} {f : File} (hseq : f.dirtySeq = (n.files r).dirtySeq)
    (x : FileRef) : ((n.setFile r f).files x).dirtySeq = (n.files x).dirtySeq := by
  rw [Nodes.setFile_files]
  split
  case isTrue hx => rw [hx]; exact hseq
  case isFalse => rfl

omit [VolumeSelector V] in
theorem Queue.created (h : Queue s) (hs : Linked s.nodes) {n : Nodes} (hc : Created s.nodes n d f r)
    (hnew : (n.files r).dirtySeq = 0) (hlog : s'.log.seqLive = s.log.seqLive)
    (hdirty : s'.dirty = s.dirty) (hnodes : s'.nodes = n) : Queue s' := by
  have hfresh : s.nodes.links r = 0 := hs.fresh r hc.ref.ge
  have hwaiting : ∀ seq, s'.waiting seq = s.waiting seq := fun seq => by
    rw [BlueFS.waiting, hdirty]
    rfl
  refine h.keep hlog (by rw [hdirty]) (by rw [hdirty]) (fun seq x => ?_) fun x hx => ?_
  · rw [hwaiting, hnodes, hc.links]
    refine ⟨fun hx => ⟨hx, ?_⟩, And.left⟩
    have hold := (h.waiting seq x hx).2.1
    omega
  · rw [hnodes] at hx ⊢
    by_cases hxr : x = r
    · left
      refine ⟨by rw [hxr]; exact hnew, fun seq hwait => ?_⟩
      have hold := (h.waiting seq x hwait).2.1
      rw [hxr] at hold
      omega
    · right
      rw [hc.links, if_neg (Ne.symm hxr)] at hx
      exact ⟨hx, by rw [hc.others x hxr]⟩

omit [VolumeSelector V] in
theorem stampFile_queue (h : Queue s) (r : FileRef) : Queue (s.stampFile r) := by
  rw [stampFile_eq]
  exact h.same rfl rfl rfl rfl (fun _ => rfl) (Nodes.setFile_dirtySeq rfl)

theorem openForWrite_queue (h : Queue s) (hs : Linked s.nodes) (d f : Bytes) (overwrite : Bool) :
    Queue (s.openForWrite d f overwrite).2.2 := by
  unfold BlueFS.openForWrite
  cases hdir : s.nodes.dirMap.lookup d with
  | none => exact h
  | some dir =>
      cases hfile : dir.lookup f with
      | none =>
          simp only [hfile]
          split
          · exact h
          · have hc := Nodes.createFile_created hdir hfile
              (VolumeSelector.getHintByDir s.vselector d)
            have hnew : ((s.nodes.createFile d f (VolumeSelector.getHintByDir s.vselector d)).2.files
                (s.nodes.createFile d f
                  (VolumeSelector.getHintByDir s.vselector d)).1).dirtySeq = 0 := by
              unfold Nodes.createFile
              rw [Nodes.setEntry_files]
              simp [Nodes.addFile]
            generalize s.nodes.createFile d f (VolumeSelector.getHintByDir s.vselector d) = p at *
            have hmade : Queue { s with nodes := p.2 } := h.created hs hc hnew rfl rfl rfl
            exact (stampFile_queue hmade p.1).same rfl rfl rfl rfl (fun _ => rfl) fun _ => rfl
      | some r =>
          simp only [hfile]
          cases overwrite with
          | true =>
              rw [if_pos rfl]
              exact (stampFile_queue h r).same rfl rfl rfl rfl (fun _ => rfl) fun _ => rfl
          | false =>
              have hdropped : Queue (s.dropExtents r).2 :=
                h.same rfl rfl rfl rfl (fun _ => rfl) (Nodes.setFile_dirtySeq rfl)
              rw [if_neg (by simp)]
              exact (stampFile_queue hdropped r).same rfl rfl rfl rfl (fun _ => rfl) fun _ => rfl

theorem unlink_queued (h : Queue s) (hs : Linked s.nodes) (d f : Bytes) :
    Queue (s.unlink d f).2 := by
  cases hentry : s.nodes.entry d f with
  | none =>
      unfold BlueFS.unlink
      rw [hentry]
      exact h
  | some r =>
      obtain ⟨hflags, hwaiting⟩ := unlink_queue hs hentry
      obtain ⟨hdrops, -⟩ := BlueFS.unlink_drops hentry
      have hd := unlink_dropped hs hentry
      refine h.keep hdrops.seqLive hdrops.dirtyLive hdrops.seqStable (fun seq x => ?_) fun x hx => ?_
      · rw [hwaiting]
        refine and_congr_right fun hx => ?_
        obtain ⟨hseq, hlinks, hdue⟩ := h.waiting seq x hx
        have hleft := hd.links x
        have hstable := h.stable
        constructor
        · intro hgone
          by_cases hxr : x = r
          · subst hxr
            rw [if_pos rfl] at hleft
            by_contra hzero
            exact hgone (by omega) (by omega) hdue.symm rfl
          · rw [if_neg hxr] at hleft
            omega
        · intro hpos hone _ _ hxr
          rw [if_pos hxr] at hleft
          rw [hxr] at hleft hpos
          omega
      · right
        have hleft := hd.links x
        refine ⟨by omega, (hflags x fun hone hxr => ?_).dirtySeq⟩
        rw [if_pos hxr, hxr] at hleft
        rw [hxr] at hx
        omega

/-! ## The calls together -/

/-- The call makes no file that is not recorded, as `lock_file` does where there is none. -/
def NameCall.Logs (n : Nodes) : NameCall → Prop
  | .lockFile d f => ∀ dir, n.dirMap.lookup d = some dir → dir.lookup f ≠ none
  | _ => True

theorem NameCall.journals {c : NameCall} {res : Int} (hs : Linked s.nodes) (hqueue : Queue s)
    (hfresh : c.FreshTarget s.nodes) (hlogs : c.Logs s.nodes) (hrun : c.run s = some (res, s')) :
    Journals known s known s' ∧ Queue s' := by
  cases c with
  | mkdir d =>
      obtain ⟨rfl, rfl⟩ := returned hrun
      refine ⟨mkdir_journals known s d, ?_⟩
      unfold BlueFS.mkdir
      cases hd : s.nodes.dirMap.lookup d with
      | some dir => exact hqueue
      | none => exact hqueue.same rfl rfl rfl rfl (SameNames.makeDir s.nodes hd).links fun _ => rfl
  | rmdir d =>
      obtain ⟨rfl, rfl⟩ := returned hrun
      refine ⟨rmdir_journals known s d, ?_⟩
      unfold BlueFS.rmdir
      cases hd : s.nodes.dirMap.lookup d with
      | none => exact hqueue
      | some dir =>
          simp only
          split
          case isTrue => exact hqueue
          case isFalse hempty =>
            exact hqueue.same rfl rfl rfl rfl
              (SameNames.removeDir s.nodes hd (not_not.mp hempty)).links fun _ => rfl
  | openForWrite d f o =>
      obtain ⟨rfl, rfl⟩ := returned hrun
      exact ⟨openForWrite_journals known hs d f o, openForWrite_queue hqueue hs d f o⟩
  | lockFile d f =>
      obtain ⟨rfl, rfl⟩ := returned hrun
      cases hdir : s.nodes.dirMap.lookup d with
      | none =>
          unfold BlueFS.lockFile
          rw [hdir]
          exact ⟨.refl known s, hqueue⟩
      | some dir =>
          have hfile := hlogs dir hdir
          refine ⟨lockFile_journals known hdir hfile, ?_⟩
          obtain ⟨r, hr⟩ := Option.ne_none_iff_exists'.mp hfile
          unfold BlueFS.lockFile
          simp only [hdir, hr]
          split
          · exact hqueue
          · exact hqueue.same rfl rfl rfl rfl (fun _ => rfl) (Nodes.setFile_dirtySeq rfl)
  | unlockFile l =>
      refine ⟨unlockFile_journals known hrun, ?_⟩
      unfold NameCall.run BlueFS.unlockFile at hrun
      simp only at hrun
      split at hrun
      · rw [← (Prod.mk.inj (Option.some.inj hrun)).2]
        exact hqueue.same rfl rfl rfl rfl (fun _ => rfl) (Nodes.setFile_dirtySeq rfl)
      · exact absurd hrun (by simp)
  | unlink d f =>
      obtain ⟨rfl, rfl⟩ := returned hrun
      exact ⟨unlink_journals known hs d f, unlink_queued hqueue hs d f⟩
  | rename od of nd nf =>
      obtain ⟨rfl, rfl⟩ := returned hrun
      refine ⟨rename_journals known hfresh, ?_⟩
      cases hentry : s.nodes.entry od of with
      | none =>
          unfold BlueFS.rename
          rw [hentry]
          exact hqueue
      | some r =>
          cases hdir : s.nodes.dirMap.lookup nd with
          | none =>
              unfold BlueFS.rename
              rw [hentry, hdir]
              exact hqueue
          | some ndir =>
              have hnone := hfresh (by rw [hentry]; simp)
              rw [rename_moved hentry hdir hnone]
              refine hqueue.same rfl rfl rfl rfl (SameNames.moveEntry hentry hdir hnone).links
                fun x => ?_
              show (((s.nodes.setEntry nd nf r).eraseEntry od of).files x).dirtySeq = _
              rw [Nodes.eraseEntry_files, Nodes.setEntry_files]

end Clab.Bluefs
