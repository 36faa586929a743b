import Clab.Bluefs.JournalFlush

/-!
# The log beside the calls

A call that does not flush the log leaves its file alone, and its writer, the numbers
and the superblock.
-/

namespace Clab.Bluefs

open Blk

variable {V A : Type} {s s' s'' : BlueFS V A} {l r : FileRef} {d f : Bytes}

/-- The log file `l` is as it was. -/
structure KeepsLog (l : FileRef) (s s' : BlueFS V A) : Prop where
  writer : s'.log.writer = s.log.writer
  seqLive : s'.log.seqLive = s.log.seqLive
  super : s'.super = s.super
  found : s.nodes.fileMap.lookup 1 = some l → s'.nodes.fileMap.lookup 1 = some l
  fnode : (s'.nodes.files l).fnode = (s.nodes.files l).fnode

namespace KeepsLog

theorem refl (l : FileRef) (s : BlueFS V A) : KeepsLog l s s := ⟨rfl, rfl, rfl, id, rfl⟩

theorem trans (h : KeepsLog l s s') (h' : KeepsLog l s' s'') : KeepsLog l s s'' :=
  ⟨h'.writer.trans h.writer, h'.seqLive.trans h.seqLive, h'.super.trans h.super,
    fun hl => h'.found (h.found hl), h'.fnode.trans h.fnode⟩

/-- Another file is written back. -/
theorem setFile {g : File} (hne : l ≠ r) (hwriter : s'.log.writer = s.log.writer)
    (hseq : s'.log.seqLive = s.log.seqLive) (hsuper : s'.super = s.super)
    (hnodes : s'.nodes = s.nodes.setFile r g) : KeepsLog l s s' := by
  refine ⟨hwriter, hseq, hsuper, fun hl => by rw [hnodes]; exact hl, ?_⟩
  rw [hnodes, Nodes.setFile_files, if_neg hne]

/-- A file is written back with its fnode. -/
theorem sameFnode {g : File} (hg : g.fnode = (s.nodes.files r).fnode)
    (hwriter : s'.log.writer = s.log.writer) (hseq : s'.log.seqLive = s.log.seqLive)
    (hsuper : s'.super = s.super) (hnodes : s'.nodes = s.nodes.setFile r g) : KeepsLog l s s' := by
  refine ⟨hwriter, hseq, hsuper, fun hl => by rw [hnodes]; exact hl, ?_⟩
  rw [hnodes, Nodes.setFile_files]
  split
  case isTrue hx => rw [hx]; exact hg
  case isFalse => rfl

end KeepsLog

/-- The log has no link. -/
theorem Linked.log_ne {n : Nodes} (h : Linked n) (hl : n.fileMap.lookup 1 = some l)
    (hr : 0 < n.links r) : l ≠ r := by
  obtain ⟨l', hl', hzero, -⟩ := h.log
  obtain rfl : l' = l := Option.some.inj (hl'.symm.trans hl)
  rintro rfl
  omega

theorem Linked.log_made {n : Nodes} (h : Linked n) (hl : n.fileMap.lookup 1 = some l) :
    l < n.nextRef := by
  obtain ⟨l', hl', -, hmade⟩ := h.log
  obtain rfl : l' = l := Option.some.inj (hl'.symm.trans hl)
  exact hmade

/-! ## Calls on names -/

theorem rename_keepsLog (l : FileRef) {od of nd nf : Bytes}
    (hfree : s.nodes.entry od of ≠ none → s.nodes.entry nd nf = none) :
    KeepsLog l s (s.rename od of nd nf).2 := by
  cases hentry : s.nodes.entry od of with
  | none =>
      unfold BlueFS.rename
      rw [hentry]
      exact .refl l s
  | some r =>
      cases hdir : s.nodes.dirMap.lookup nd with
      | none =>
          unfold BlueFS.rename
          rw [hentry, hdir]
          exact .refl l s
      | some ndir =>
          have hnone := hfree (by rw [hentry]; simp)
          rw [rename_moved hentry hdir hnone]
          refine ⟨rfl, rfl, rfl, fun hl => ?_, ?_⟩
          · show ((s.nodes.setEntry nd nf r).eraseEntry od of).fileMap.lookup 1 = _
            rw [Nodes.eraseEntry_eq, Nodes.setEntry_eq]
            exact hl
          · show (((s.nodes.setEntry nd nf r).eraseEntry od of).files l).fnode = _
            rw [Nodes.eraseEntry_files, Nodes.setEntry_files]

theorem lockFile_keepsLog (l : FileRef) {dir : Dir} (hdir : s.nodes.dirMap.lookup d = some dir)
    (hfile : dir.lookup f ≠ none) : KeepsLog l s (s.lockFile d f).2.2 := by
  obtain ⟨r, hr⟩ := Option.ne_none_iff_exists'.mp hfile
  unfold BlueFS.lockFile
  simp only [hdir, hr]
  split
  · exact .refl l s
  · exact .sameFnode (by rfl) rfl rfl rfl rfl

variable [VolumeSelector V]

theorem openForWrite_keepsLog (hs : Linked s.nodes) (hl : s.nodes.fileMap.lookup 1 = some l)
    (d f : Bytes) (overwrite : Bool) : KeepsLog l s (s.openForWrite d f overwrite).2.2 := by
  have hstamp : ∀ (t : BlueFS V A) (r : FileRef), l ≠ r → KeepsLog l t (t.stampFile r) := by
    intro t r hne
    rw [stampFile_eq]
    exact .setFile hne rfl rfl rfl rfl
  unfold BlueFS.openForWrite
  cases hdir : s.nodes.dirMap.lookup d with
  | none => exact .refl l s
  | some dir =>
      cases hfile : dir.lookup f with
      | none =>
          simp only [hfile]
          split
          · exact .refl l s
          · have hc := Nodes.createFile_created hdir hfile
              (VolumeSelector.getHintByDir s.vselector d)
            generalize s.nodes.createFile d f (VolumeSelector.getHintByDir s.vselector d) = p at *
            have hmade := hs.log_made hl
            have hne : l ≠ p.1 := by
              rw [hc.ref]
              exact hmade.ne
            have hstarted := hs.started
            have hcreated : KeepsLog l s { s with nodes := p.2 } := by
              refine ⟨rfl, rfl, rfl, fun hl => ?_, by rw [hc.others l hne]⟩
              show p.2.fileMap.lookup 1 = _
              rw [hc.fileMap, OrderedMap.lookup_insert, if_neg (by omega)]
              exact hl
            have hstamped := hcreated.trans (hstamp { s with nodes := p.2 } p.1 hne)
            exact ⟨hstamped.writer, hstamped.seqLive, hstamped.super, hstamped.found, hstamped.fnode⟩
      | some r =>
          have hentry : s.nodes.entry d f = some r := by
            rw [Nodes.entry, hdir]
            exact hfile
          have hne := hs.log_ne hl (Nodes.links_pos_of_entry hentry)
          simp only [hfile]
          cases overwrite with
          | true =>
              have hstamped := hstamp s r hne
              exact ⟨hstamped.writer, hstamped.seqLive, hstamped.super, hstamped.found,
                hstamped.fnode⟩
          | false =>
              have hdropped : KeepsLog l s (s.dropExtents r).2 := .setFile hne rfl rfl rfl rfl
              have hstamped := hdropped.trans (hstamp (s.dropExtents r).2 r hne)
              exact ⟨hstamped.writer, hstamped.seqLive, hstamped.super, hstamped.found,
                hstamped.fnode⟩

theorem unlink_keepsLog (hs : Linked s.nodes) (l : FileRef) (d f : Bytes) :
    KeepsLog l s (s.unlink d f).2 := by
  cases hentry : s.nodes.entry d f with
  | none =>
      unfold BlueFS.unlink
      rw [hentry]
      exact .refl l s
  | some r =>
      have hd := unlink_dropped hs hentry
      have hnum := (hs.numbered r hd.linked).1
      have hbooks : (s.unlink d f).2.log.writer = s.log.writer ∧
          (s.unlink d f).2.log.seqLive = s.log.seqLive ∧ (s.unlink d f).2.super = s.super := by
        unfold BlueFS.unlink
        simp only [hentry]
        unfold BlueFS.dropLink
        simp only
        split
        · unfold BlueFS.removeFile BlueFS.retractDirty
          simp only
          split <;> exact ⟨rfl, rfl, rfl⟩
        · exact ⟨rfl, rfl, rfl⟩
      refine ⟨hbooks.1, hbooks.2.1, hbooks.2.2, fun hl => ?_, by rw [hd.fnode]⟩
      rw [hd.fileMap]
      split
      · rw [OrderedMap.lookup_erase, if_neg (by omega)]
        exact hl
      · exact hl

theorem NameCall.keepsLog {c : NameCall} {res : Int} (hs : Linked s.nodes)
    (hl : s.nodes.fileMap.lookup 1 = some l) (hfresh : c.FreshTarget s.nodes)
    (hlogs : c.Logs s.nodes) (hrun : c.run s = some (res, s')) : KeepsLog l s s' := by
  cases c with
  | mkdir d =>
      obtain ⟨rfl, rfl⟩ := returned hrun
      unfold BlueFS.mkdir
      split <;> exact ⟨rfl, rfl, rfl, id, rfl⟩
  | rmdir d =>
      obtain ⟨rfl, rfl⟩ := returned hrun
      unfold BlueFS.rmdir
      split
      · exact .refl l s
      · split <;> exact ⟨rfl, rfl, rfl, id, rfl⟩
  | openForWrite d f o =>
      obtain ⟨rfl, rfl⟩ := returned hrun
      exact openForWrite_keepsLog hs hl d f o
  | lockFile d f =>
      obtain ⟨rfl, rfl⟩ := returned hrun
      cases hdir : s.nodes.dirMap.lookup d with
      | none =>
          unfold BlueFS.lockFile
          rw [hdir]
          exact .refl l s
      | some dir => exact lockFile_keepsLog l hdir (hlogs dir hdir)
  | unlockFile r =>
      unfold NameCall.run BlueFS.unlockFile at hrun
      simp only at hrun
      split at hrun
      · rw [← (Prod.mk.inj (Option.some.inj hrun)).2]
        exact .sameFnode (by rfl) rfl rfl rfl rfl
      · exact absurd hrun (by simp)
  | unlink d f =>
      obtain ⟨rfl, rfl⟩ := returned hrun
      exact unlink_keepsLog hs l d f
  | rename od of nd nf =>
      obtain ⟨rfl, rfl⟩ := returned hrun
      exact rename_keepsLog l hfresh

/-! ## Calls on data -/

omit [VolumeSelector V] in
theorem signalDirtyToLog_keepsLog (s : BlueFS V A) (l r : FileRef) :
    KeepsLog l s (s.signalDirtyToLog r) := by
  unfold BlueFS.signalDirtyToLog
  simp only
  split <;> exact .sameFnode (by rfl) rfl rfl rfl rfl

theorem truncateTo_keepsLog (hne : l ≠ r) (s : BlueFS V A) (offset : Nat) :
    KeepsLog l s (s.truncateTo r offset) := by
  refine .setFile (r := r) (g := { s.nodes.files r with
    fnode := (BlueFS.cutFnode (s.nodes.files r).fnode offset).resetDelta, isDirty := true })
    hne rfl rfl rfl ?_
  simp only [BlueFS.truncateTo, BlueFS.logFileUpdate, Transaction.opFileUpdate,
    BlueFS.pendRelease, Nodes.setFile, Function.update_idem, Function.update_self]

variable [Allocator A]

theorem preallocate_keepsLog (hne : l ≠ r) {off len : Nat} {res : Int}
    (hrun : s.preallocate r off len = some (res, s')) : KeepsLog l s s' := by
  unfold BlueFS.preallocate at hrun
  simp only at hrun
  split at hrun
  case isTrue =>
    rw [← (Prod.mk.inj (Option.some.inj hrun)).2]
    exact .refl l s
  split at hrun
  case isTrue => exact absurd hrun (by simp)
  split at hrun
  case isFalse =>
    rw [← (Prod.mk.inj (Option.some.inj hrun)).2]
    exact .refl l s
  case isTrue =>
    generalize VolumeSelector.selectPreferBdev s.vselector _ = prefer at hrun
    generalize off + len - (s.nodes.files r).fnode.allocated = want at hrun
    obtain ⟨a, u, heq⟩ := s.allocate_eq prefer want 0 (s.nodes.files r).fnode
    rw [heq] at hrun
    split at hrun
    case isTrue =>
      rw [← (Prod.mk.inj (Option.some.inj hrun)).2]
      exact ⟨rfl, rfl, rfl, id, rfl⟩
    case isFalse =>
      rw [← (Prod.mk.inj (Option.some.inj hrun)).2]
      refine ⟨rfl, rfl, rfl, id, ?_⟩
      unfold BlueFS.logFileUpdateInc
      simp only [Nodes.setFile_files, if_neg hne]

omit [VolumeSelector V] [Allocator A] in
theorem BlueFS.FlushOf.keepsLog (h : s.FlushOf s' r) (hne : l ≠ r) : KeepsLog l s s' := by
  obtain ⟨b, a, u, v, f, rfl, -⟩ := h
  exact .setFile hne rfl rfl rfl rfl

theorem flushRange_flushOf (s : BlueFS V A) (h : FileWriter) (offset length : Nat) :
    s.FlushOf (s.flushRange h offset length).2.2 h.file := by
  unfold BlueFS.flushRange
  split
  · exact .refl s _
  split
  · exact .refl s _
  split
  · exact s.flushFrom_flushOf h _ _
  · exact s.flushFrom_flushOf h _ _

/-! ## The flush of the log -/

/-- Gathering leaves the sizes and the superblock alone. -/
theorem gather_frame (s : BlueFS V A) (w : FileWriter) : (s.gather w).2.super = s.super ∧
    (∀ x, ((s.gather w).2.nodes.files x).fnode.size = (s.nodes.files x).fnode.size) ∧
    ∀ t, (s.gather w).1 = .ok t → t.uuid = s.super.uuid := by
  have hinc : ∀ (m : BlueFS V A) (r : FileRef), (m.logFileUpdateInc r).super = m.super ∧
      ∀ x, ((m.logFileUpdateInc r).nodes.files x).fnode.size = (m.nodes.files x).fnode.size := by
    intro m r
    refine ⟨rfl, fun x => ?_⟩
    unfold BlueFS.logFileUpdateInc
    rw [Nodes.setFile_files]
    split
    case isTrue hx => rw [hx]; rfl
    case isFalse => rfl
  have hconsume : ∀ (rs : List FileRef) (m : BlueFS V A),
      (rs.foldl BlueFS.logFileUpdateInc m).super = m.super ∧
        ∀ x, ((rs.foldl BlueFS.logFileUpdateInc m).nodes.files x).fnode.size =
          (m.nodes.files x).fnode.size := by
    intro rs
    induction rs with
    | nil => exact fun m => ⟨rfl, fun _ => rfl⟩
    | cons r rs ih =>
        intro m
        obtain ⟨hsuper, hsize⟩ := ih (m.logFileUpdateInc r)
        exact ⟨hsuper.trans (hinc m r).1, fun x => (hsize x).trans ((hinc m r).2 x)⟩
  have hextend : ∀ m : BlueFS V A, (m.maybeExtendLog w).2.super = m.super ∧
      ∀ x, ((m.maybeExtendLog w).2.nodes.files x).fnode.size = (m.nodes.files x).fnode.size := by
    intro m
    unfold BlueFS.maybeExtendLog
    simp only
    split
    case isTrue => exact ⟨rfl, fun _ => rfl⟩
    case isFalse =>
      generalize VolumeSelector.selectPreferBdev m.vselector _ = prefer
      generalize Common.p2roundup _ _ = len
      obtain ⟨a, u, heq⟩ := m.allocate_eq prefer len m.cfg.allocSize (m.nodes.files w.file).fnode
      obtain ⟨es, hnode, -⟩ :=
        m.allocate_claims prefer len m.cfg.allocSize (m.nodes.files w.file).fnode
      rw [heq, hnode]
      split
      · exact ⟨rfl, fun _ => rfl⟩
      · refine ⟨rfl, fun x => ((hinc _ w.file).2 x).trans ?_⟩
        rw [Nodes.setFile_files]
        split
        case isTrue hx => rw [hx]; exact (Fnode.claimExtents_attrs _ es).2.1
        case isFalse => rfl
  obtain ⟨hsuper, hsize⟩ := hconsume (s.waiting s.log.seqLive) s.takeSeq.2
  obtain ⟨hsuper', hsize'⟩ := hextend (s.takeSeq.2.consumeDirty s.log.seqLive)
  have hgather : s.gather w =
      let p := (s.takeSeq.2.consumeDirty s.log.seqLive).maybeExtendLog w
      if p.1 < 0 then (.error p.1, p.2) else (.ok (p.2.takeOps s.log.seqLive).1,
        (p.2.takeOps s.log.seqLive).2) := rfl
  rw [hgather]
  simp only
  split
  · exact ⟨hsuper'.trans hsuper, fun x => (hsize' x).trans (hsize x), fun t ht => by simp at ht⟩
  · refine ⟨hsuper'.trans hsuper, fun x => (hsize' x).trans (hsize x), fun t ht => ?_⟩
    rw [← Except.ok.inj ht]
    show ((s.takeSeq.2.consumeDirty s.log.seqLive).maybeExtendLog w).2.super.uuid = _
    rw [hsuper'.trans hsuper]
    rfl

omit [VolumeSelector V] [Allocator A] in
/-- A write of the log that ends well is behind what was there. -/
theorem writeLog_eq (s : BlueFS V A) (w : FileWriter) (t : Transaction)
    (hres : 0 ≤ (s.writeLog w t).1) : ∃ b d, (s.writeLog w t).2 = { s with
      bdev := b
      nodes := s.nodes.setFile w.file { s.nodes.files w.file with
        fnode := { (s.nodes.files w.file).fnode with
          size := max (s.nodes.files w.file).fnode.size (w.pos + (s.logBytes t).length) } }
      log := { s.log with
        writer := some
          { file := w.file, pos := w.pos + (s.logBytes t).length, buffer := [], dirtyDevs := d } } } := by
  have hdata : ∀ bl, 0 ≤ (s.flushLogData w bl).1 → ∃ b d,
      (s.flushLogData w bl).2 = ({ w with pos := w.pos + bl.length, dirtyDevs := d }, { s with
        bdev := b
        nodes := s.nodes.setFile w.file { s.nodes.files w.file with
          fnode := { (s.nodes.files w.file).fnode with
            size := max (s.nodes.files w.file).fnode.size (w.pos + bl.length) } } }) := by
    intro bl hwrote
    unfold BlueFS.flushLogData at hwrote ⊢
    simp only at hwrote ⊢
    cases hseek : (s.nodes.files w.file).fnode.seek w.pos with
    | none =>
        rw [hseek] at hwrote
        simp only at hwrote ⊢
        exact ⟨s.bdev, w.dirtyDevs, by simp [BlueFS.advance]⟩
    | some p =>
        obtain ⟨i, x⟩ := p
        rw [hseek] at hwrote
        simp only at hwrote ⊢
        obtain ⟨⟨b, hs⟩, d, hh⟩ := s.writeExtents_eq w false
          ((s.nodes.files w.file).fnode.extents.drop i) x bl
        rw [hs, hh] at *
        split
        case isTrue hneg => rw [if_pos hneg] at hwrote; exact absurd hneg (not_lt.mpr hwrote)
        case isFalse => exact ⟨b, d, rfl⟩
  unfold BlueFS.writeLog at hres ⊢
  simp only at hres ⊢
  split
  case isTrue hneg => rw [if_pos hneg] at hres; exact absurd hneg (not_lt.mpr hres)
  case isFalse hwrote =>
    obtain ⟨b, d, hflush⟩ := hdata (s.logBytes t) (not_lt.mp hwrote)
    simp only [hflush, BlueFS.flushBdev]
    exact ⟨_, _, rfl⟩

end Clab.Bluefs
