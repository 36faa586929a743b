import Clab.Bluefs.JournalData

/-!
# The flush of the log and its records

A flush of the log that succeeds writes what was logged and the records of the files
that wait. A replay of what is written then knows every file that is not dirty as it
is.
-/

namespace Clab.Bluefs

open Blk

variable {V A : Type} {s s' : BlueFS V A} {known : Set FileRef} {r : FileRef}

/-! ## The records of the dirty files -/

theorem logFileUpdateInc_names (s : BlueFS V A) (r : FileRef) :
    SameNames s.nodes (s.logFileUpdateInc r).nodes := SameNames.setFile s.nodes rfl rfl

theorem consume_journals (known : Set FileRef) {rs : List FileRef} (hs : Linked s.nodes)
    (hrs : ∀ r ∈ rs, 0 < s.nodes.links r) :
    Journals known s (known ∪ {x | x ∈ rs}) (rs.foldl BlueFS.logFileUpdateInc s) ∧
      SameNames s.nodes (rs.foldl BlueFS.logFileUpdateInc s).nodes := by
  induction rs generalizing s known with
  | nil => exact ⟨(Journals.refl known s).weaken (by simp), .refl _⟩
  | cons r rs ih =>
      have hnames := logFileUpdateInc_names s r
      have hrecord : Journals known s (insert r known) (s.logFileUpdateInc r) :=
        recordAppended_journals (hs.filed_link (hrs r List.mem_cons_self)) [] (by simp) rfl rfl
          (Nodes.setFile_self s.nodes r).symm
      obtain ⟨hrest, hrestNames⟩ := ih (insert r known) (hnames.linked hs) fun x hx => by
        rw [hnames.links]
        exact hrs x (List.mem_cons_of_mem r hx)
      refine ⟨(hrecord.trans hrest).weaken fun x hx => ?_, hnames.trans hrestNames⟩
      rcases hx with hx | hx
      · exact .inl (.inr hx)
      · rcases List.mem_cons.mp hx with rfl | hx
        · exact .inl (.inl rfl)
        · exact .inr hx

/-! ## The transaction -/

section Space

variable [VolumeSelector V] [Allocator A]

theorem maybeExtendLog_journals (hgrants : PositiveGrants A) (known : Set FileRef) {w : FileWriter}
    (hw : s.nodes.fileMap.lookup 1 = some w.file) :
    Journals known s known (s.maybeExtendLog w).2 ∧
      SameNames s.nodes (s.maybeExtendLog w).2.nodes := by
  unfold BlueFS.maybeExtendLog
  simp only
  split
  case isTrue => exact ⟨.refl known s, .refl _⟩
  case isFalse =>
    generalize VolumeSelector.selectPreferBdev s.vselector _ = prefer
    generalize Common.p2roundup _ _ = len
    obtain ⟨a, u, heq⟩ := s.allocate_eq prefer len s.cfg.allocSize (s.nodes.files w.file).fnode
    obtain ⟨es, hpos, hnode⟩ :=
      allocate_positive hgrants s prefer len s.cfg.allocSize (s.nodes.files w.file).fnode
    rw [heq, hnode]
    split
    · exact ⟨.silent rfl id, .refl _⟩
    · refine ⟨Journals.weaken (recordAppended_journals hw es hpos rfl rfl rfl)
        (Set.subset_insert _ known), SameNames.trans ?_ (logFileUpdateInc_names _ w.file)⟩
      exact SameNames.setFile s.nodes rfl (Fnode.claimExtents_attrs _ es).1

/-- What is written is what was logged, with the records of the files that wait. -/
theorem gather_journals (hgrants : PositiveGrants A) (hs : Linked s.nodes) (hqueue : Queue s)
    {w : FileWriter} (hw : s.nodes.fileMap.lookup 1 = some w.file) {t : Transaction}
    (ht : (s.gather w).1 = .ok t) :
    (∃ ops, t.ops = s.log.t.ops ++ ops ∧ Follows ∅ s.nodes ops {x | x ∈ s.waiting s.log.seqLive}
      (s.gather w).2.nodes) ∧
      SameNames s.nodes (s.gather w).2.nodes ∧ (s.gather w).2.log.t.ops = [] := by
  have hlinked : Linked s.takeSeq.2.nodes := hs
  obtain ⟨hconsume, hrecorded⟩ : Journals ∅ s.takeSeq.2 {x | x ∈ s.waiting s.log.seqLive}
      (s.takeSeq.2.consumeDirty s.log.seqLive) ∧
      SameNames s.nodes (s.takeSeq.2.consumeDirty s.log.seqLive).nodes := by
    rw [← Set.empty_union {x | x ∈ s.waiting s.log.seqLive}]
    exact consume_journals ∅ hlinked fun r hr => (hqueue.waiting _ r hr).2.1
  have hlog : (s.takeSeq.2.consumeDirty s.log.seqLive).nodes.fileMap.lookup 1 = some w.file := by
    rw [hrecorded.fileMap]
    exact hw
  obtain ⟨hextend, hextended⟩ :=
    maybeExtendLog_journals hgrants {x | x ∈ s.waiting s.log.seqLive} hlog
  obtain ⟨ops, hops, hfollows⟩ := hconsume.trans hextend
  have hgather : s.gather w =
      let p := (s.takeSeq.2.consumeDirty s.log.seqLive).maybeExtendLog w
      if p.1 < 0 then (.error p.1, p.2) else (.ok (p.2.takeOps s.log.seqLive).1,
        (p.2.takeOps s.log.seqLive).2) := rfl
  rw [hgather] at ht ⊢
  simp only at ht ⊢
  split at ht
  case isTrue => exact absurd ht (by simp)
  case isFalse hres =>
    rw [if_neg hres]
    rw [← Except.ok.inj ht]
    exact ⟨⟨ops, hops, hfollows⟩, hrecorded.trans hextended, rfl⟩

end Space

/-- The write of the transaction moves the end of the log. -/
theorem writeLog_nodes (s : BlueFS V A) (w : FileWriter) (t : Transaction) :
    ∃ size, (s.writeLog w t).2.nodes = s.nodes.setFile w.file { s.nodes.files w.file with
      fnode := { (s.nodes.files w.file).fnode with size } } ∧
      (s.writeLog w t).2.log.t = s.log.t := by
  have hdata : ∀ bl, ∃ size, (s.flushLogData w bl).2.2.nodes =
      s.nodes.setFile w.file { s.nodes.files w.file with
        fnode := { (s.nodes.files w.file).fnode with size } } ∧
      (s.flushLogData w bl).2.2.log = s.log := by
    intro bl
    unfold BlueFS.flushLogData
    simp only
    cases (s.nodes.files w.file).fnode.seek w.pos with
    | none => exact ⟨_, rfl, rfl⟩
    | some p =>
        obtain ⟨i, x⟩ := p
        obtain ⟨⟨b, hs⟩, d, hh⟩ := s.writeExtents_eq w false
          ((s.nodes.files w.file).fnode.extents.drop i) x bl
        simp only
        rw [hs, hh]
        split
        · exact ⟨(s.nodes.files w.file).fnode.size, (Nodes.setFile_self s.nodes w.file).symm, rfl⟩
        · exact ⟨_, rfl, rfl⟩
  obtain ⟨size, hnodes, hlog⟩ := hdata (s.logBytes t)
  unfold BlueFS.writeLog
  simp only
  split
  · exact ⟨size, hnodes, by rw [← hlog]⟩
  · exact ⟨size, hnodes, by rw [← hlog]; rfl⟩

/-- The end of the log is not looked at. -/
theorem Mirrors.setLogSize {n m : Nodes} (h : Mirrors known n m) (hr : n.fileMap.lookup 1 = some r)
    (size : Nat) : Mirrors known (n.setFile r { n.files r with
      fnode := { (n.files r).fnode with size } }) m := by
  obtain ⟨r', hr'⟩ := h.found hr
  have hone := (h.files 1 r r' hr hr').number
  refine h.setFile rfl rfl (fun g hg => ?_) fun hne => absurd hone hne
  have hsize := hg.change (c := ⟨[], size, (n.files r).fnode.mtime⟩) (by simp)
  exact hsize

theorem recordStable_dirs (s : BlueFS V A) (seq : Nat) :
    (s.recordStable seq).nodes.dirMap = s.nodes.dirMap := by
  unfold BlueFS.recordStable
  generalize s.waiting seq = rs
  show (rs.foldl (fun n r => n.setFile r { n.files r with dirtySeq := 0 }) s.nodes).dirMap = _
  generalize s.nodes = n
  induction rs generalizing n with
  | nil => rfl
  | cons x rs ih => exact ih _

theorem recordStable_names (s : BlueFS V A) (seq : Nat) :
    SameNames s.nodes (s.recordStable seq).nodes := by
  unfold BlueFS.recordStable
  generalize s.waiting seq = rs
  show SameNames s.nodes (rs.foldl (fun n r => n.setFile r { n.files r with dirtySeq := 0 }) s.nodes)
  generalize s.nodes = n
  induction rs generalizing n with
  | nil => exact .refl n
  | cons x rs ih =>
      have hstep : SameNames n (n.setFile x { n.files x with dirtySeq := 0 }) :=
        SameNames.setFile n rfl rfl
      exact hstep.trans (ih _)

/-- The files of the transaction are clean, as the replay knows them. -/
theorem recordStable_mirrors {m : Nodes} {seq : Nat}
    (h : Mirrors {x | x ∈ s.waiting seq} s.nodes m) : Mirrors ∅ (s.recordStable seq).nodes m := by
  have hnames := recordStable_names s seq
  have hdirs := recordStable_dirs s seq
  have hfnode : ∀ x, ((s.recordStable seq).nodes.files x).fnode = (s.nodes.files x).fnode := by
    intro x
    rw [BlueFS.recordStable_files]
    split <;> rfl
  refine h.transfer hnames (.refl m) (fun d => ?_) (fun d f => ?_) fun ino x x' hx hx' => ?_
  · rw [h.dirs, Nodes.hasDir, Nodes.hasDir, hdirs]
  · rw [h.names, Nodes.inoAt, Nodes.inoAt, Nodes.entry_congr hdirs]
    simp only [hfnode]
  · have hrec := h.files ino x x' hx hx'
    rw [hfnode]
    refine ⟨hrec.tracks, fun hne hk => hrec.same hne ?_⟩
    rcases hk with hk | hk
    · exact absurd hk (Set.notMem_empty x)
    · rw [BlueFS.recordStable_files] at hk
      split at hk
      case isTrue hmem => exact .inl hmem
      case isFalse => exact .inr hk

/-! ## The flush -/

/-- `_flush_and_sync_log` writes a transaction and ends well. -/
structure LogFlushed [VolumeSelector V] [Allocator A] (s : BlueFS V A) (w : FileWriter)
    (t : Transaction) (s' : BlueFS V A) : Prop where
  gathered : (s.gather w).1 = .ok t
  wrote : 0 ≤ ((s.gather w).2.writeLog w t).1
  state : s' = (((s.gather w).2.writeLog w t).2.recordStable t.seq).drainPending

section Space

variable [VolumeSelector V] [Allocator A]

/-- A flush that ends well had nothing to do, or wrote a transaction. -/
theorem flushAndSyncLog_flushed {w : FileWriter} {wantSeq : Nat} {res : Int}
    (hrun : s.flushAndSyncLog w wantSeq = some (res, s')) (hres : 0 ≤ res) :
    (wantSeq ≠ 0 ∧ wantSeq ≤ s.dirty.seqStable) ∧ s' = s ∨ ∃ t, LogFlushed s w t s' := by
  unfold BlueFS.flushAndSyncLog at hrun
  split at hrun
  case isTrue hwant => exact .inl ⟨hwant, (Prod.mk.inj (Option.some.inj hrun)).2.symm⟩
  case isFalse =>
    split at hrun
    case isTrue => exact absurd hrun (by simp)
    case isFalse =>
      right
      rcases hg : s.gather w with ⟨result, m⟩
      rw [hg] at hrun
      cases result with
      | error e =>
          obtain ⟨rfl, -⟩ := Prod.mk.inj (Option.some.inj hrun)
          have hfailed : ∀ e, (s.gather w).1 = .error e → e < 0 := by
            intro e he
            unfold BlueFS.gather at he
            simp only at he
            split at he
            case isTrue hneg =>
              rw [← Except.error.inj he]
              exact hneg
            case isFalse => exact absurd he (by simp)
          exact absurd (hfailed e (by rw [hg])) (not_lt.mpr hres)
      | ok t =>
          simp only at hrun
          split at hrun
          case isTrue hneg =>
            obtain ⟨hsame, -⟩ := Prod.mk.inj (Option.some.inj hrun)
            omega
          case isFalse hwrote =>
            obtain ⟨-, rfl⟩ := Prod.mk.inj (Option.some.inj hrun)
            exact ⟨t, by rw [hg], by rw [hg]; exact not_lt.mp hwrote, by rw [hg]⟩

variable {w : FileWriter} {t : Transaction}

theorem LogFlushed.journals (h : LogFlushed s w t s') (hgrants : PositiveGrants A)
    (hs : Linked s.nodes) (hqueue : Queue s) (hw : s.nodes.fileMap.lookup 1 = some w.file) :
    (∃ ops, t.ops = s.log.t.ops ++ ops ∧ Follows ∅ s.nodes ops ∅ s'.nodes) ∧
      s'.log.t.ops = [] ∧ Queue s' := by
  obtain ⟨⟨ops, hops, hfollows⟩, hnames, hempty⟩ := gather_journals hgrants hs hqueue hw h.gathered
  obtain ⟨hbooks, hseq⟩ := s.gather_gathers w
  have hseq := hseq t h.gathered
  have hwriteBooks := (s.gather w).2.writeLog_sameBooks w t
  obtain ⟨size, hnodes, hlog⟩ := writeLog_nodes (s.gather w).2 w t
  have hfiled : (s.gather w).2.nodes.fileMap.lookup 1 = some w.file := by
    rw [hnames.fileMap]
    exact hw
  generalize hm : ((s.gather w).2.writeLog w t).2 = m at *
  have hdirty : m.dirty = { s.dirty with seqLive := s.log.seqLive + 1 } :=
    hwriteBooks.dirty.trans hbooks.dirty
  have hwaiting : ∀ seq, m.waiting seq = s.waiting seq := fun seq => by
    rw [BlueFS.waiting, hdirty]
    rfl
  have hnodes' : s'.nodes = (m.recordStable t.seq).nodes := by rw [h.state, hm]; rfl
  refine ⟨⟨ops, hops, ?_⟩, ?_, ?_⟩
  · have hwritten : Follows {x | x ∈ s.waiting s.log.seqLive} (s.gather w).2.nodes []
        {x | x ∈ s.waiting s.log.seqLive} m.nodes := Follows.none fun hg => by
      rw [hnodes]
      exact hg.setLogSize hfiled size
    have hrecorded : Follows {x | x ∈ s.waiting s.log.seqLive} m.nodes [] ∅ s'.nodes :=
      Follows.none fun hg => by
        rw [hnodes']
        refine recordStable_mirrors ?_
        rw [hwaiting, hseq]
        exact hg
    have hall := hfollows.trans (hwritten.trans hrecorded)
    rw [List.append_nil, List.append_nil] at hall
    exact hall
  · rw [h.state, hm]
    show m.log.t.ops = []
    rw [hlog]
    exact hempty
  · have hlive : s'.log.seqLive = s.log.seqLive + 1 := by
      rw [h.state, hm]
      exact hwriteBooks.seqLive.trans hbooks.seqLive
    have hnone : ∀ seq x, x ∉ s'.waiting seq := by
      intro seq x hx
      have hx : x ∈ (m.recordStable t.seq).waiting seq := by
        rw [h.state, hm] at hx
        exact hx
      rw [BlueFS.recordStable_waiting, hwaiting, hseq] at hx
      split at hx
      · exact absurd hx (by simp)
      case isFalse hne => exact hne (hqueue.waiting seq x hx).1
    constructor
    case live =>
      rw [hlive, h.state, hm]
      show m.dirty.seqLive = _
      rw [hdirty]
    case stable =>
      rw [hlive, h.state, hm]
      show t.seq < _
      omega
    case waiting => exact fun seq x hx => absurd hx (hnone seq x)
    case due =>
      intro x hx
      left
      have hflags := (hbooks.files x).trans (hwriteBooks.files x)
      have hlinks : 0 < s.nodes.links x := by
        have hsame : s'.nodes.links x = s.nodes.links x := by
          rw [hnodes', Nodes.links_congr (recordStable_dirs m t.seq), hnodes]
          exact hnames.links x
        omega
      rw [hnodes', BlueFS.recordStable_files, hwaiting, hseq]
      split
      case isTrue => rfl
      case isFalse hmem =>
        rw [hflags.dirtySeq]
        exact (hqueue.due x hlinks).resolve_right hmem

end Space

end Clab.Bluefs
