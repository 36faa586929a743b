import Clab.Bluefs.VolumeUsage

/-!
# The calls and the usage of the files

The flush of the log, the calls on names and the superblock, each with what it
does to the counters of the selector: a file that is new has no level, a file
that goes is taken off, and the other files stay as they are.
-/

namespace Clab.Bluefs

open Blk Common Segments

variable {A : Type} {s : BlueFS RocksDBBlueFSVolumeSelector A}

/-! ## The flush of the log -/

theorem signalDirtyToLog_tracked (hs : Tracked s) (r : FileRef) : Tracked (s.signalDirtyToLog r) := by
  unfold BlueFS.signalDirtyToLog
  simp only
  split
  · exact hs.setFile rfl ⟨rfl, rfl, rfl, rfl⟩ ⟨rfl, rfl⟩ rfl
  · exact hs.setFile rfl ⟨rfl, rfl, rfl, rfl⟩ ⟨rfl, rfl⟩ rfl

theorem consumeDirty_tracked (hs : Tracked s) (seq : Nat) : Tracked (s.consumeDirty seq) := by
  unfold BlueFS.consumeDirty
  generalize s.waiting seq = rs
  induction rs generalizing s with
  | nil => exact hs
  | cons r rs ih =>
      have hone : Tracked (s.logFileUpdateInc r) :=
        hs.setFile rfl ⟨rfl, rfl, rfl, rfl⟩ ⟨rfl, rfl⟩ rfl
      exact ih hone

theorem recordStable_tracked (hs : Tracked s) (seq : Nat) : Tracked (s.recordStable seq) := by
  have hnodes : ∀ (rs : List FileRef) (s : BlueFS RocksDBBlueFSVolumeSelector A), Tracked s →
      Tracked { s with
        nodes := rs.foldl (fun n r => n.setFile r { n.files r with dirtySeq := 0 }) s.nodes } := by
    intro rs
    induction rs with
    | nil => exact fun s hs => hs
    | cons r rs ih =>
        intro s hs
        have hone : Tracked { s with
            nodes := s.nodes.setFile r { s.nodes.files r with dirtySeq := 0 } } :=
          hs.setFile rfl ⟨rfl, rfl, rfl, rfl⟩ ⟨rfl, rfl⟩ rfl
        exact ih _ hone
  exact (hnodes (s.waiting seq) s hs).of_nodes rfl rfl

section Log

variable [Allocator A]

/-- The state in which the log is extended. -/
def Gathering (s : BlueFS RocksDBBlueFSVolumeSelector A) : BlueFS RocksDBBlueFSVolumeSelector A :=
  s.takeSeq.2.consumeDirty s.takeSeq.1

/-- The extension of the log is counted: there is none, or the log has no level. -/
def LogRoomy (s : BlueFS RocksDBBlueFSVolumeSelector A) (w : FileWriter) : Prop :=
  (s.nodes.files w.file).vselectorHint = 0 ∨
    w.pos + s.cfg.minLogRunway < (s.nodes.files w.file).fnode.allocated ∨
    (s.allocate (VolumeSelector.selectPreferBdev s.vselector
        (VolumeSelector.getHintForLog s.vselector))
      (p2roundup (max s.cfg.minLogRunway s.cfg.maxLogRunway) s.cfg.allocSize) s.cfg.allocSize
      (s.nodes.files w.file).fnode).1 < 0

theorem maybeExtendLog_tracked (hs : Tracked s) {w : FileWriter} (hroom : LogRoomy s w) :
    Tracked (s.maybeExtendLog w).2 := by
  unfold LogRoomy at hroom
  unfold BlueFS.maybeExtendLog
  simp only
  split
  case isTrue => exact hs
  case isFalse hshort =>
    generalize VolumeSelector.selectPreferBdev s.vselector _ = prefer at hroom ⊢
    generalize p2roundup _ _ = len at hroom ⊢
    have hquiet := allocate_quiet s prefer len s.cfg.allocSize (s.nodes.files w.file).fnode
    split
    case isTrue => exact hquiet.tracked hs
    case isFalse hres =>
      rcases hroom with hhint | hlong | hfails
      · obtain ⟨a, u, heq⟩ := s.allocate_eq prefer len s.cfg.allocSize (s.nodes.files w.file).fnode
        have hino := allocate_ino s prefer len s.cfg.allocSize (s.nodes.files w.file).fnode
        rw [heq]
        have hset : Tracked { s with
            alloc := a
            bluefsUsed := u
            nodes := s.nodes.setFile w.file { s.nodes.files w.file with
              fnode := (s.allocate prefer len s.cfg.allocSize (s.nodes.files w.file).fnode).2.1 } } :=
          hs.setFile_unleveled rfl hhint ⟨hino, rfl, rfl, rfl⟩ fun _ => rfl
        exact hset.setFile rfl ⟨rfl, rfl, rfl, rfl⟩ ⟨rfl, rfl⟩ rfl
      · exact absurd hlong hshort
      · exact absurd hfails hres

theorem gather_tracked (hs : Tracked s) {w : FileWriter} (hroom : LogRoomy (Gathering s) w) :
    Tracked (s.gather w).2 := by
  have htaken : Tracked s.takeSeq.2 := hs.of_nodes rfl rfl
  have hextended := maybeExtendLog_tracked (consumeDirty_tracked htaken s.takeSeq.1) hroom
  unfold BlueFS.gather
  simp only
  split
  · exact hextended
  · exact hextended.of_nodes rfl rfl

omit [Allocator A] in
/-- A write of the log that does not go past its size, or fails. -/
theorem flushLogData_tracked (hs : Tracked s) {w : FileWriter} {bl : Bytes}
    (hsize : (s.nodes.files w.file).vselectorHint = 0 ∨
      w.pos + bl.length ≤ (s.nodes.files w.file).fnode.size ∨ (s.flushLogData w bl).1 < 0) :
    Tracked (s.flushLogData w bl).2.2 := by
  have hadvance : ∀ (h : FileWriter) (s' : BlueFS RocksDBBlueFSVolumeSelector A), Tracked s' →
      s'.nodes = s.nodes → h.file = w.file → h.pos = w.pos →
      ((s.nodes.files w.file).vselectorHint = 0 ∨
        w.pos + bl.length ≤ (s.nodes.files w.file).fnode.size) →
      Tracked (s'.advance h bl.length).2 := by
    intro h s' hs' hnodes hfile hpos hsize
    refine advance_tracked hs' h ?_
    rw [hnodes, hfile, hpos]
    exact hsize
  unfold BlueFS.flushLogData at hsize ⊢
  simp only at hsize ⊢
  cases hseek : (s.nodes.files w.file).fnode.seek w.pos with
  | none =>
      rw [hseek] at hsize
      simp only [lt_irrefl, if_false] at hsize ⊢
      exact hadvance w s hs rfl rfl rfl (by tauto)
  | some p =>
      obtain ⟨i, x⟩ := p
      rw [hseek] at hsize
      obtain ⟨⟨b, hdevs⟩, d, hwriter⟩ := s.writeExtents_eq w false
        ((s.nodes.files w.file).fnode.extents.drop i) x bl
      have hwrite : Tracked { s with bdev := b } := hs.of_nodes rfl rfl
      simp only [hdevs, hwriter] at hsize ⊢
      split
      case isTrue => exact hwrite
      case isFalse hres =>
        rw [if_neg hres] at hsize
        exact hadvance { w with dirtyDevs := d } { s with bdev := b } hwrite rfl rfl rfl
          (hsize.imp_right fun h => h.resolve_right (lt_irrefl 0))

omit [Allocator A] in
theorem writeLog_tracked (hs : Tracked s) {w : FileWriter} {t : Transaction}
    (hsize : (s.nodes.files w.file).vselectorHint = 0 ∨
      w.pos + (s.logBytes t).length ≤ (s.nodes.files w.file).fnode.size ∨
      (s.flushLogData w (s.logBytes t)).1 < 0) : Tracked (s.writeLog w t).2 := by
  have hdata := flushLogData_tracked hs hsize
  unfold BlueFS.writeLog
  simp only
  split
  · exact hdata.of_nodes rfl rfl
  · exact hdata.of_nodes rfl rfl

end Log

/-! ## A new file -/

/-- A new file under number `ino`, without a level. -/
structure Adds (n n' : Nodes) (ino : Nat) : Prop where
  absent : n.fileMap.lookup ino = none
  fileMap : n'.fileMap = n.fileMap.insert ino n.nextRef
  nextRef : n'.nextRef = n.nextRef + 1
  inoLast : n.inoLast ≤ n'.inoLast
  numbered : ino ≤ n'.inoLast
  ino : (n'.files n.nextRef).fnode.ino = ino
  refs : (n'.links n.nextRef : Int) ≤ (n'.files n.nextRef).refs
  hint : (n'.files n.nextRef).vselectorHint = 0
  others : ∀ x, x ≠ n.nextRef → n'.files x = n.files x
  links : ∀ x, x ≠ n.nextRef → n'.links x ≤ n.links x

namespace Adds

variable {n n' : Nodes} {ino : Nat}

theorem present_new (h : Adds n n' ino) : n'.Present n.nextRef := by
  unfold Nodes.Present
  rw [h.ino, h.fileMap, OrderedMap.lookup_insert, if_pos rfl]

theorem present (h : Adds n n' ino) {r : FileRef} (hr : n.Present r) (hne : r ≠ n.nextRef) :
    n'.Present r := by
  unfold Nodes.Present at hr ⊢
  rw [h.others r hne, h.fileMap, OrderedMap.lookup_insert]
  split
  case isTrue hino =>
    rw [hino, h.absent] at hr
    exact absurd hr (by simp)
  case isFalse => exact hr

/-- What the table holds is what it held, or the new file. -/
theorem lookup (h : Adds n n' ino) {i : Nat} {r : FileRef} (hr : n'.fileMap.lookup i = some r) :
    i = ino ∧ r = n.nextRef ∨ n.fileMap.lookup i = some r := by
  rw [h.fileMap, OrderedMap.lookup_insert] at hr
  split at hr
  case isTrue hi => exact .inl ⟨hi, (Option.some.inj hr).symm⟩
  case isFalse => exact .inr hr

theorem filed (h : Adds n n' ino) (hn : Filed n) : Filed n' := by
  have hold : ∀ i r, n.fileMap.lookup i = some r → r ≠ n.nextRef :=
    fun i r hr => (hn.made i r hr).ne
  constructor
  case key =>
    intro i r hr
    rcases h.lookup hr with ⟨rfl, rfl⟩ | hr
    · exact h.ino
    · rw [h.others r (hold i r hr)]
      exact hn.key i r hr
  case made =>
    intro i r hr
    rw [h.nextRef]
    rcases h.lookup hr with ⟨rfl, rfl⟩ | hr
    · exact Nat.lt_succ_self _
    · exact Nat.lt_succ_of_lt (hn.made i r hr)
  case numbered =>
    intro i r hr
    rcases h.lookup hr with ⟨rfl, rfl⟩ | hr
    · exact h.numbered
    · exact (hn.numbered i r hr).trans h.inoLast
  case started => exact hn.started.trans h.inoLast
  case named =>
    intro r hr
    by_cases hne : r = n.nextRef
    · rw [hne]
      exact h.present_new
    · exact h.present (hn.named r (lt_of_lt_of_le hr (h.links r hne))) hne
  case linked =>
    intro r
    by_cases hne : r = n.nextRef
    · rw [hne]
      exact h.refs
    · have hle := h.links r hne
      have hlinked := hn.linked r
      rw [h.others r hne]
      omega
  case placed =>
    intro r hhint hdeleted
    by_cases hne : r = n.nextRef
    · rw [hne]
      exact h.present_new
    · rw [h.others r hne] at hhint hdeleted
      exact h.present (hn.placed r hhint hdeleted) hne
  case level =>
    intro r
    by_cases hne : r = n.nextRef
    · rw [hne, h.hint]
      decide
    · rw [h.others r hne]
      exact hn.level r
  case devices =>
    intro r hhint
    by_cases hne : r = n.nextRef
    · rw [hne] at hhint
      exact absurd h.hint hhint
    · rw [h.others r hne] at hhint ⊢
      exact hn.devices r hhint

/-- A file without a level adds nothing. -/
theorem usage (h : Adds n n' ino) (hn : Filed n) (c : Counter) : n'.usage c = n.usage c := by
  have hinsert := n.fileMap.sum_insert (fun _ r => (n'.files r).weight c) ino n.nextRef
  have hnew : (n'.files n.nextRef).weight c = 0 := by
    rw [File.weight, h.hint, Counter.weight_zero]
  have hrest : n.fileMap.sum (fun _ r => (n'.files r).weight c) =
      n.fileMap.sum fun _ r => (n.files r).weight c := by
    refine OrderedMap.sum_congr fun i r hr => ?_
    rw [h.others r (hn.made i r hr).ne]
  rw [OrderedMap.weight, h.absent, Option.map_none, Option.getD_none, hnew, hrest] at hinsert
  unfold Nodes.usage Nodes.overFiles
  rw [h.fileMap]
  exact hinsert

theorem tracked {s' : BlueFS RocksDBBlueFSVolumeSelector A} (h : Adds s.nodes s'.nodes ino)
    (hs : Tracked s) (hvselector : s'.vselector = s.vselector) : Tracked s' := by
  refine ⟨h.filed hs.filed, fun c => ?_⟩
  rw [hvselector, h.usage hs.filed]
  exact hs.counted c

end Adds

/-- `_get_file` of a number that the table does not hold. -/
theorem getFile_adds {n : Nodes} (hn : Filed n) {ino : Nat} (hnone : n.fileMap.lookup ino = none)
    {last : Nat} (hlast : n.inoLast ≤ last) (hino : ino ≤ last) :
    Adds n { (n.getFile ino).2 with inoLast := last } ino := by
  unfold Nodes.getFile
  rw [hnone]
  have hlinks := hn.unlinked hn.not_present_fresh
  constructor
  case absent => exact hnone
  case fileMap => rfl
  case nextRef => rfl
  case inoLast => exact hlast
  case numbered => exact hino
  case ino => simp [Nodes.addFile]
  case refs =>
    show (n.links n.nextRef : Int) ≤ _
    rw [hlinks]
    simp [Nodes.addFile]
  case hint => simp [Nodes.addFile]
  case others => intro x hx; simp [Nodes.addFile, hx]
  case links => exact fun x _ => le_rfl

theorem syncSuper_tracked (hs : Tracked s) : Tracked s.syncSuper.2 := by
  have hlog : Tracked { s with nodes := (s.nodes.getFile 1).2 } := by
    cases hlookup : s.nodes.fileMap.lookup 1 with
    | none =>
        have hadds := getFile_adds hs.filed hlookup le_rfl hs.filed.started
        have heq : { (s.nodes.getFile 1).2 with inoLast := s.nodes.inoLast } =
            (s.nodes.getFile 1).2 := by
          unfold Nodes.getFile
          rw [hlookup]
          rfl
        rw [heq] at hadds
        exact hadds.tracked hs rfl
    | some r =>
        have heq : (s.nodes.getFile 1).2 = s.nodes := by rw [Nodes.getFile, hlookup]
        exact hs.of_nodes heq rfl
  have hwrite : ∀ s' : BlueFS RocksDBBlueFSVolumeSelector A, Tracked s' →
      Tracked (s'.writeSuper BDEV_DB).2 := by
    intro s' hs'
    unfold BlueFS.writeSuper
    cases s'.bdev BDEV_DB with
    | none => exact hs'
    | some d =>
        simp only
        split
        · exact hs'
        · split
          · exact hs'.of_nodes rfl rfl
          · exact hs'.of_nodes rfl rfl
  exact hwrite _ (hlog.of_nodes rfl rfl)

/-! ## Names -/

section Names

/-- Fewer names for the same files. -/
theorem SameFiling.of_dirs {n n' : Nodes} (h : n' = { n with dirMap := n'.dirMap })
    (hlinks : ∀ r, n'.links r ≤ n.links r) : SameFiling n n' := by
  have hfiles : n'.files = n.files := by rw [h]
  refine .of_files (by rw [h]) (by rw [h]) (by rw [h]) hlinks fun r => ?_
  rw [hfiles]
  exact .refl _

theorem Tracked.of_dirs {s' : BlueFS RocksDBBlueFSVolumeSelector A} (hs : Tracked s)
    (hnodes : s'.nodes = { s.nodes with dirMap := s'.nodes.dirMap })
    (hlinks : ∀ r, s'.nodes.links r ≤ s.nodes.links r) (hvselector : s'.vselector = s.vselector) :
    Tracked s' := by
  have hfiles : s'.nodes.files = s.nodes.files := by rw [hnodes]
  refine Quiet.tracked ⟨.of_dirs hnodes hlinks, fun r => ?_, hvselector⟩ hs
  rw [hfiles]
  exact .refl _

theorem mkdir_tracked (hs : Tracked s) (d : Bytes) : Tracked (s.mkdir d).2 := by
  unfold BlueFS.mkdir
  cases hdir : s.nodes.dirMap.lookup d with
  | some dir => exact hs
  | none => exact hs.of_dirs rfl (fun r => ((SameNames.makeDir s.nodes hdir).links r).le) rfl

theorem rmdir_tracked (hs : Tracked s) (d : Bytes) : Tracked (s.rmdir d).2 := by
  unfold BlueFS.rmdir
  cases hdir : s.nodes.dirMap.lookup d with
  | none => exact hs
  | some dir =>
      simp only
      split
      · exact hs
      case isFalse hempty =>
        have hempty : dir.entries = [] := not_not.mp hempty
        exact hs.of_dirs rfl (fun r => ((SameNames.removeDir s.nodes hdir hempty).links r).le) rfl

theorem rename_tracked (hs : Tracked s) (od of nd nf : Bytes) :
    Tracked (s.rename od of nd nf).2 := by
  cases hentry : s.nodes.entry od of with
  | none =>
      unfold BlueFS.rename
      rw [hentry]
      exact hs
  | some r =>
      cases hdir : s.nodes.dirMap.lookup nd with
      | none =>
          unfold BlueFS.rename
          rw [hentry, hdir]
          exact hs
      | some ndir =>
          have hnodes : (s.rename od of nd nf).2.nodes = (s.nodes.setEntry nd nf r).eraseEntry od of :=
            (rename_nodes hentry hdir).2
          have hvselector : (s.rename od of nd nf).2.vselector = s.vselector := by
            unfold BlueFS.rename
            rw [hentry, hdir]
            simp only
            split
            · split <;> rfl
            · rfl
          refine hs.of_dirs ?_ (fun x => ?_) hvselector
          · rw [hnodes, Nodes.eraseEntry_eq, Nodes.setEntry_eq]
          · -- the file gains a name and loses one
            have hset := Nodes.links_setEntry (f := nf) (r := r) hdir x
            have herase := (s.nodes.setEntry nd nf r).links_eraseEntry od of x
            have hold : (s.nodes.setEntry nd nf r).entry od of = some r := by
              rw [Nodes.entry_setEntry hdir]
              split
              case isTrue => rfl
              case isFalse => exact hentry
            rw [hold] at herase
            simp only [Option.some.injEq] at herase
            rw [hnodes]
            omega

theorem createFile_adds {n : Nodes} (hn : Filed n) {d f : Bytes} {dir : Dir}
    (hdir : n.dirMap.lookup d = some dir) (hnone : dir.lookup f = none) :
    Adds n (n.createFile d f 0).2 (n.inoLast + 1) := by
  have hcreated := Nodes.createFile_created hdir hnone 0
  have href : (n.createFile d f 0).1 = n.nextRef := hcreated.ref
  rw [href] at hcreated
  have hlinks := hn.unlinked hn.not_present_fresh
  constructor
  case absent =>
    by_contra hsome
    obtain ⟨r, hr⟩ := Option.ne_none_iff_exists'.mp hsome
    have hle := hn.numbered _ r hr
    omega
  case fileMap => exact hcreated.fileMap
  case nextRef => exact hcreated.nextRef
  case inoLast =>
    rw [hcreated.inoLast]
    exact Nat.le_succ _
  case numbered => exact hcreated.inoLast.ge
  case ino => rw [hcreated.fnode]
  case refs =>
    rw [hcreated.links, hlinks, hcreated.refs, if_pos rfl]
    exact le_rfl
  case hint =>
    unfold Nodes.createFile
    simp only
    rw [Nodes.setEntry_eq]
    simp [Nodes.addFile]
  case others => exact hcreated.others
  case links =>
    intro x hx
    rw [hcreated.links, if_neg hx.symm]
    exact le_rfl

theorem lockFile_tracked (hs : Tracked s) (d f : Bytes) : Tracked (s.lockFile d f).2.2 := by
  unfold BlueFS.lockFile
  cases hdir : s.nodes.dirMap.lookup d with
  | none => exact hs
  | some dir =>
      cases hfile : dir.lookup f with
      | none =>
          simp only [hfile]
          have hcreated : Tracked { s with nodes := (s.nodes.createFile d f 0).2 } :=
            (createFile_adds hs.filed hdir hfile).tracked hs rfl
          exact hcreated.setFile rfl ⟨rfl, rfl, rfl, rfl⟩ ⟨rfl, rfl⟩ rfl
      | some r =>
          simp only [hfile]
          split
          · exact hs
          · exact hs.setFile rfl ⟨rfl, rfl, rfl, rfl⟩ ⟨rfl, rfl⟩ rfl

theorem unlockFile_tracked (hs : Tracked s) {lock : FileRef}
    {out : Int × BlueFS RocksDBBlueFSVolumeSelector A} (hrun : s.unlockFile lock = some out) :
    Tracked out.2 := by
  unfold BlueFS.unlockFile at hrun
  split at hrun
  · cases hrun
    exact hs.setFile rfl ⟨rfl, rfl, rfl, rfl⟩ ⟨rfl, rfl⟩ rfl
  · exact absurd hrun (by simp)

/-- The file is there, and is not truncated unless it has no level. -/
def OpensAsIs (s : BlueFS RocksDBBlueFSVolumeSelector A) (d f : Bytes) (overwrite : Bool) : Prop :=
  s.nodes.dirMap.lookup d = none ∨
    (s.nodes.entry d f = none ∧ overwrite = true) ∨
    ∃ r, s.nodes.entry d f = some r ∧ (overwrite = true ∨ (s.nodes.files r).vselectorHint = 0)

theorem stampFile_tracked (hs : Tracked s) (r : FileRef) : Tracked (s.stampFile r) := by
  have hstamp : Tracked { s with nodes := s.nodes.setFile r { s.nodes.files r with
      fnode := { (s.nodes.files r).fnode with mtime := 0 } } } :=
    hs.setFile rfl ⟨rfl, rfl, rfl, rfl⟩ ⟨rfl, rfl⟩ rfl
  exact hstamp.setFile rfl ⟨rfl, rfl, rfl, rfl⟩ ⟨rfl, rfl⟩ rfl

/-- A truncation that takes off a file without a level. -/
theorem dropExtents_tracked (hs : Tracked s) {r : FileRef}
    (hhint : (s.nodes.files r).vselectorHint = 0) : Tracked (s.dropExtents r).2 := by
  refine hs.setFile_unleveled rfl hhint ⟨rfl, rfl, rfl, rfl⟩ fun c => ?_
  show (s.vselector.subUsage (s.nodes.files r).vselectorHint _).value c = _
  rw [hhint, RocksDBBlueFSVolumeSelector.subUsage_zero]

theorem openForWrite_tracked (hs : Tracked s) {d f : Bytes} {overwrite : Bool}
    (hopen : OpensAsIs s d f overwrite) : Tracked (s.openForWrite d f overwrite).2.2 := by
  unfold BlueFS.openForWrite
  cases hdir : s.nodes.dirMap.lookup d with
  | none => exact hs
  | some dir =>
      have hentry : s.nodes.entry d f = dir.lookup f := by rw [Nodes.entry, hdir, Option.bind_some]
      unfold OpensAsIs at hopen
      rw [hdir, hentry] at hopen
      cases hfile : dir.lookup f with
      | none =>
          have hover : overwrite = true := by simpa [hfile] using hopen
          simp only [hfile, hover, if_true]
          exact hs
      | some r =>
          have hkeep : overwrite = true ∨ (s.nodes.files r).vselectorHint = 0 := by
            simpa [hfile] using hopen
          simp only [hfile]
          split
          case isTrue => exact (stampFile_tracked hs r).of_nodes rfl rfl
          case isFalse hover =>
            have hdrop := dropExtents_tracked hs (hkeep.resolve_left hover)
            exact (stampFile_tracked hdrop r).of_nodes rfl rfl

/-- `--file->refs` after a name of the file is gone. -/
theorem lowerRefs_tracked (hs : Tracked s) {d f : Bytes} {r : FileRef}
    (hentry : s.nodes.entry d f = some r) :
    Tracked ({ s with nodes := s.nodes.eraseEntry d f }.lowerRefs r) := by
  have hlinks : ∀ x, (s.nodes.eraseEntry d f).links x + (if x = r then 1 else 0) =
      s.nodes.links x := by
    intro x
    have herase := s.nodes.links_eraseEntry d f x
    rw [hentry] at herase
    simp only [Option.some.injEq, eq_comm (a := r)] at herase
    exact herase
  have hfiles : (s.nodes.eraseEntry d f).files = s.nodes.files := by rw [Nodes.eraseEntry_eq]
  have hnodes : ({ s with nodes := s.nodes.eraseEntry d f }.lowerRefs r).nodes =
      (s.nodes.eraseEntry d f).setFile r
        { s.nodes.files r with refs := (s.nodes.files r).refs - 1 } := by
    rw [← hfiles]
    rfl
  have hfile : ∀ x, ((s.nodes.eraseEntry d f).setFile r
      { s.nodes.files r with refs := (s.nodes.files r).refs - 1 }).files x =
      { s.nodes.files x with refs := (s.nodes.files x).refs - if x = r then 1 else 0 } := by
    intro x
    rw [Nodes.setFile_files, hfiles]
    split
    case isTrue heq => rw [heq]
    case isFalse => simp
  have hfiling : SameFiling s.nodes ({ s with nodes := s.nodes.eraseEntry d f }.lowerRefs r).nodes := by
    rw [hnodes]
    constructor
    case fileMap => rw [Nodes.eraseEntry_eq]; rfl
    case inoLast => rw [Nodes.eraseEntry_eq]; rfl
    case nextRef => rw [Nodes.eraseEntry_eq]; rfl
    case links => exact fun x => Nat.le_of_add_right_le (hlinks x).le
    case linked =>
      intro x hlinked
      show ((s.nodes.eraseEntry d f).links x : Int) ≤ _
      have hx := hlinks x
      rw [hfile]
      split at hx
      case isTrue heq => simp only [if_pos heq]; omega
      case isFalse hne => simp only [if_neg hne]; omega
    case ino => intro x; rw [hfile]
    case deleted => intro x; rw [hfile]
    case hint => intro x; rw [hfile]
  refine Quiet.tracked (s := s) ⟨hfiling, fun x => ?_, rfl⟩ hs
  rw [hnodes, hfile]
  exact ⟨rfl, rfl⟩

/-- The nodes after the last link of a file is dropped. -/
theorem removeFile_nodes (s : BlueFS RocksDBBlueFSVolumeSelector A) (r : FileRef) :
    ∃ f : File, f.deleted = true ∧ f.refs = (s.nodes.files r).refs ∧
      f.fnode = (s.nodes.files r).fnode ∧ f.vselectorHint = (s.nodes.files r).vselectorHint ∧
      (s.removeFile r).nodes = Nodes.setFile { s.nodes with
        fileMap := s.nodes.fileMap.erase (s.nodes.files r).fnode.ino } r f := by
  unfold BlueFS.removeFile BlueFS.retractDirty
  simp only [BlueFS.pendRelease, BlueFS.logOp, Nodes.setFile_files, if_true]
  split
  case isTrue =>
    refine ⟨{ s.nodes.files r with deleted := true, dirtySeq := s.dirty.seqStable }, rfl, rfl, rfl,
      rfl, ?_⟩
    simp only [Nodes.setFile, Function.update_idem]
  case isFalse => exact ⟨{ s.nodes.files r with deleted := true }, rfl, rfl, rfl, rfl, rfl⟩

theorem removeFile_vselector (s : BlueFS RocksDBBlueFSVolumeSelector A) (r : FileRef) :
    (s.removeFile r).vselector =
      s.vselector.subUsage (s.nodes.files r).vselectorHint (s.nodes.files r).fnode := by
  unfold BlueFS.removeFile BlueFS.retractDirty
  simp only
  split <;> rfl

/-- The last link of a file is gone: it leaves the table, and is taken off. -/
theorem removeFile_tracked (hs : Tracked s) {r : FileRef} (hr : s.nodes.Present r)
    (hlinks : s.nodes.links r = 0) : Tracked (s.removeFile r) := by
  obtain ⟨f, hdeleted, hrefs, hfnode, hhint, hnodes⟩ := removeFile_nodes s r
  have hn := hs.filed
  generalize hn' : (s.removeFile r).nodes = n' at hnodes
  have hmap : n'.fileMap = s.nodes.fileMap.erase (s.nodes.files r).fnode.ino := by rw [hnodes]; rfl
  have hother : ∀ x, x ≠ r → n'.files x = s.nodes.files x := by
    intro x hx
    rw [hnodes, Nodes.setFile_files, if_neg hx]
  have hself : n'.files r = f := by rw [hnodes, Nodes.setFile_files, if_pos rfl]
  have hold : ∀ i x, n'.fileMap.lookup i = some x → s.nodes.fileMap.lookup i = some x ∧ x ≠ r := by
    intro i x hx
    rw [hmap, OrderedMap.lookup_erase] at hx
    split at hx
    case isTrue => exact absurd hx (by simp)
    case isFalse hne =>
      refine ⟨hx, ?_⟩
      rintro rfl
      exact hne (hn.key i x hx).symm
  have hpresent : ∀ x, x ≠ r → s.nodes.Present x → n'.Present x := by
    intro x hx hin
    unfold Nodes.Present
    rw [hother x hx, hmap, OrderedMap.lookup_erase, if_neg fun hino => hx (hn.ino_inj hin hr hino)]
    exact hin
  have hsamelinks : ∀ x, n'.links x = s.nodes.links x := fun x =>
    Nodes.links_congr (by rw [hnodes]; rfl) x
  have hweight : ∀ c x, (n'.files x).weight c = (s.nodes.files x).weight c := by
    intro c x
    by_cases hx : x = r
    · rw [hx, hself, File.weight, File.weight, hfnode, hhint]
    · rw [hother x hx]
  have hfiled : Filed n' := by
    constructor
    case key =>
      intro i x hx
      obtain ⟨hx, hne⟩ := hold i x hx
      rw [hother x hne]
      exact hn.key i x hx
    case made => intro i x hx; rw [hnodes]; exact hn.made i x (hold i x hx).1
    case numbered => intro i x hx; rw [hnodes]; exact hn.numbered i x (hold i x hx).1
    case started => rw [hnodes]; exact hn.started
    case named =>
      intro x hx
      rw [hsamelinks] at hx
      exact hpresent x (fun heq => by rw [heq, hlinks] at hx; exact lt_irrefl 0 hx) (hn.named x hx)
    case linked =>
      intro x
      rw [hsamelinks]
      by_cases hx : x = r
      · rw [hx, hself, hrefs]
        exact hn.linked r
      · rw [hother x hx]
        exact hn.linked x
    case placed =>
      intro x hhint' hlive
      by_cases hx : x = r
      · rw [hx, hself, hdeleted] at hlive
        exact absurd hlive (by simp)
      · rw [hother x hx] at hhint' hlive
        exact hpresent x hx (hn.placed x hhint' hlive)
    case level =>
      intro x
      by_cases hx : x = r
      · rw [hx, hself, hhint]
        exact hn.level r
      · rw [hother x hx]
        exact hn.level x
    case devices =>
      intro x hx'
      by_cases hx : x = r
      · rw [hx, hself, hhint] at hx'
        rw [hx, hself, hfnode]
        exact hn.devices r hx'
      · rw [hother x hx] at hx' ⊢
        exact hn.devices x hx'
  subst hn'
  refine ⟨hfiled, fun c => ?_⟩
  have herase := s.nodes.fileMap.sum_erase (fun _ x => (s.nodes.files x).weight c)
    (s.nodes.files r).fnode.ino
  have hlookup : s.nodes.fileMap.lookup (s.nodes.files r).fnode.ino = some r := hr
  simp only [OrderedMap.weight, hlookup, Option.map_some, Option.getD_some] at herase
  have husage : (s.removeFile r).nodes.usage c + (s.nodes.files r).weight c = s.nodes.usage c := by
    unfold Nodes.usage Nodes.overFiles
    rw [hmap, ← herase]
    simp only [hweight c]
  rw [removeFile_vselector, RocksDBBlueFSVolumeSelector.value_subUsage (hn.level r) (hn.devices r),
    hs.counted c, ← husage, UInt64.ofNat_add]
  exact UInt64.add_sub_cancel _ _

theorem unlink_tracked (hs : Tracked s) (d f : Bytes) : Tracked (s.unlink d f).2 := by
  cases hentry : s.nodes.entry d f with
  | none =>
      unfold BlueFS.unlink
      rw [hentry]
      exact hs
  | some r =>
      have hpresent := hs.filed.named r (Nodes.links_pos_of_entry hentry)
      have hlower := lowerRefs_tracked hs hentry
      generalize hs₁ : ({ s with nodes := s.nodes.eraseEntry d f } :
        BlueFS RocksDBBlueFSVolumeSelector A) = s₁ at hlower
      have hcall : (s.unlink d f).2 = (s₁.logOp (.dirUnlink d f)).dropLink r := by
        rw [← hs₁]
        unfold BlueFS.unlink
        rw [hentry]
      have hlogged : Tracked ((s₁.logOp (.dirUnlink d f)).lowerRefs r) := hlower.of_nodes rfl rfl
      rw [hcall]
      unfold BlueFS.dropLink
      simp only
      split
      case isFalse => exact hlogged
      case isTrue hzero =>
        have hin : ((s₁.logOp (.dirUnlink d f)).lowerRefs r).nodes.Present r := by
          unfold Nodes.Present at hpresent ⊢
          rw [← hs₁]
          show ((s.nodes.eraseEntry d f).setFile r _).fileMap.lookup _ = _
          simp only [BlueFS.lowerRefs, BlueFS.logOp, Nodes.setFile_files, if_true]
          rw [Nodes.eraseEntry_eq]
          exact hpresent
        have hlinked := hlogged.filed.linked r
        exact removeFile_tracked hlogged hin (by omega)

/-- The calls on names, but for the opens that change a file the selector knows. -/
theorem NameCall.tracked {c : NameCall} (hs : Tracked s)
    (hopen : ∀ d f overwrite, c = .openForWrite d f overwrite → OpensAsIs s d f overwrite)
    {out : Int × BlueFS RocksDBBlueFSVolumeSelector A} (hrun : c.run s = some out) :
    Tracked out.2 := by
  cases c with
  | mkdir d => cases hrun; exact mkdir_tracked hs d
  | rmdir d => cases hrun; exact rmdir_tracked hs d
  | openForWrite d f o => cases hrun; exact openForWrite_tracked hs (hopen d f o rfl)
  | lockFile d f => cases hrun; exact lockFile_tracked hs d f
  | unlockFile l => exact unlockFile_tracked hs hrun
  | unlink d f => cases hrun; exact unlink_tracked hs d f
  | rename od of nd nf => cases hrun; exact rename_tracked hs od of nd nf

end Names

end Clab.Bluefs
