import Clab.Bluefs.UsageCalls

/-!
# Runs of a mount and the usage of its files

`usage_matches`: after a mount of a log that links no file, and along every run of
sections of calls in which no file is created or emptied by `open_for_write` and no
space is taken for a file of a level, the counters of the selector are the totals
over the files, and a file can be taken off without a counter going below zero.
-/

namespace Clab.Bluefs

open Blk Common Segments

variable {A : Type}

/-! ## What the counters should be -/

/-- The counters of the selector are the totals over the files of the inode table. -/
structure UsageMatches (s : BlueFS RocksDBBlueFSVolumeSelector A) : Prop where
  extents : ∀ dev < MAX_BDEV, ∀ level, RDB_LEVEL_FIRST ≤ level → level < RDB_LEVEL_MAX →
    s.vselector.usage dev (level - RDB_LEVEL_FIRST) = UInt64.ofNat (s.nodes.overFiles fun f =>
      if f.vselectorHint = level then bytesOn dev f.fnode.extents else 0)
  devices : ∀ dev < MAX_BDEV, s.vselector.usage dev (LEVELS - 1) =
    s.vselector.usage dev 0 + s.vselector.usage dev 1 + s.vselector.usage dev 2 +
      s.vselector.usage dev 3
  sizes : ∀ level, RDB_LEVEL_FIRST ≤ level → level < RDB_LEVEL_MAX →
    s.vselector.usage MAX_BDEV (level - RDB_LEVEL_FIRST) =
      UInt64.ofNat (s.nodes.overFiles fun f => if f.vselectorHint = level then f.fnode.size else 0)
  files : ∀ level, RDB_LEVEL_FIRST ≤ level → level < RDB_LEVEL_MAX →
    s.vselector.perLevelFiles (level - RDB_LEVEL_FIRST) =
      UInt64.ofNat (s.nodes.overFiles fun f => if f.vselectorHint = level then 1 else 0)
  allFiles : s.vselector.perLevelFiles (LEVELS - 1) =
    s.vselector.perLevelFiles 0 + s.vselector.perLevelFiles 1 + s.vselector.perLevelFiles 2 +
      s.vselector.perLevelFiles 3
  /-- Where the total is no more than 64 bits, no file of the table takes a counter below zero. -/
  room : ∀ r, s.nodes.Present r → ∀ c, s.nodes.usage c < 2 ^ 64 →
    (s.nodes.files r).weight c ≤ (s.vselector.value c).toNat

section Totals

variable {n : Nodes}

theorem bytesOn_eq_total (dev : Nat) (es : List Extent) :
    bytesOn dev es = total (fun e => if e.bdev = dev then e.length else 0) es := by
  induction es with
  | nil => rfl
  | cons e es ih => rw [bytesOn_cons, total_cons, ih]

/-- The weight of a file for the extents of a level. -/
theorem weight_extents (f : File) (dev : Fin 3) (level : Fin 4) : f.weight (.extents dev level) =
    if f.vselectorHint = level + RDB_LEVEL_FIRST then bytesOn dev f.fnode.extents else 0 := by
  unfold File.weight Counter.weight
  simp only [Counter.ofBytes, Counter.ofFile, Nat.add_zero]
  split
  case isTrue h =>
    rw [bytesOn_eq_total]
    simp only [h, true_and]
  case isFalse h =>
    simp only [h, false_and, if_false]
    simp [total]

theorem weight_device (f : File) (dev : Fin 3) : f.weight (.device dev) =
    if f.vselectorHint ≠ 0 then bytesOn dev f.fnode.extents else 0 := by
  unfold File.weight Counter.weight
  simp only [Counter.ofBytes, Counter.ofFile, Nat.add_zero]
  split
  case isTrue h =>
    rw [bytesOn_eq_total]
    simp only [h, not_false_eq_true, true_and, ne_eq]
  case isFalse h =>
    simp only [h, false_and, if_false]
    simp [total]

theorem weight_size (f : File) (level : Fin 4) : f.weight (.size level) =
    if f.vselectorHint = level + RDB_LEVEL_FIRST then f.fnode.size else 0 := by
  unfold File.weight Counter.weight
  simp [Counter.ofBytes, Counter.ofFile, total]

theorem weight_files (f : File) (level : Fin 4) : f.weight (.files level) =
    if f.vselectorHint = level + RDB_LEVEL_FIRST then 1 else 0 := by
  unfold File.weight Counter.weight
  simp [Counter.ofBytes, Counter.ofFile, total]

theorem weight_allFiles (f : File) :
    f.weight .allFiles = if f.vselectorHint ≠ 0 then 1 else 0 := by
  unfold File.weight Counter.weight
  simp [Counter.ofBytes, Counter.ofFile, total]

/-- A total by level adds up to the total. -/
theorem overFiles_levels (hn : Filed n) {w : File → Nat} {v : Fin 4 → File → Nat}
    (hv : ∀ level f, v level f = if f.vselectorHint = level + RDB_LEVEL_FIRST then w f else 0) :
    n.overFiles (fun f => if f.vselectorHint ≠ 0 then w f else 0) =
      n.overFiles (v 0) + n.overFiles (v 1) + n.overFiles (v 2) + n.overFiles (v 3) := by
  have hfile : ∀ r, (if (n.files r).vselectorHint ≠ 0 then w (n.files r) else 0) =
      v 0 (n.files r) + v 1 (n.files r) + v 2 (n.files r) + v 3 (n.files r) := by
    intro r
    have hlevel := hn.level r
    simp only [hv, RDB_LEVEL_FIRST, RDB_LEVEL_MAX] at hlevel ⊢
    generalize (n.files r).vselectorHint = hint at hlevel ⊢
    interval_cases hint <;> simp
  unfold Nodes.overFiles OrderedMap.sum
  simp only [hfile, List.sum_map_add]

/-- A file that is counted can be taken off. -/
theorem weight_le_usage {r : FileRef} (hr : n.Present r) (c : Counter) :
    (n.files r).weight c ≤ n.usage c :=
  OrderedMap.le_sum (fun _ r => (n.files r).weight c) hr

end Totals

theorem Tracked.usageMatches {s : BlueFS RocksDBBlueFSVolumeSelector A} (hs : Tracked s) :
    UsageMatches s := by
  have hcounted := hs.counted
  constructor
  case extents =>
    intro dev hdev level hfirst hmax
    have hlevel : level - RDB_LEVEL_FIRST < 4 := by
      simp only [RDB_LEVEL_FIRST, RDB_LEVEL_MAX] at *
      omega
    have hc := hcounted (.extents ⟨dev, hdev⟩ ⟨level - RDB_LEVEL_FIRST, hlevel⟩)
    simp only [RocksDBBlueFSVolumeSelector.value, Nodes.usage, weight_extents,
      Nat.sub_add_cancel hfirst] at hc
    exact hc
  case devices =>
    intro dev hdev
    have hc := hcounted (.device ⟨dev, hdev⟩)
    have hlevel := fun level : Fin 4 => hcounted (.extents ⟨dev, hdev⟩ level)
    have hsum := overFiles_levels hs.filed (w := fun f => bytesOn dev f.fnode.extents)
      (v := fun level f => f.weight (.extents ⟨dev, hdev⟩ level))
      fun level f => weight_extents f ⟨dev, hdev⟩ level
    simp only [RocksDBBlueFSVolumeSelector.value, Nodes.usage, weight_device] at hc
    rw [hc, hsum, UInt64.ofNat_add, UInt64.ofNat_add, UInt64.ofNat_add]
    exact congr (congrArg _ (congr (congrArg _ (congr (congrArg _ (hlevel 0).symm) (hlevel 1).symm))
      (hlevel 2).symm)) (hlevel 3).symm
  case sizes =>
    intro level hfirst hmax
    have hlevel : level - RDB_LEVEL_FIRST < 4 := by
      simp only [RDB_LEVEL_FIRST, RDB_LEVEL_MAX] at *
      omega
    have hc := hcounted (.size ⟨level - RDB_LEVEL_FIRST, hlevel⟩)
    simp only [RocksDBBlueFSVolumeSelector.value, Nodes.usage, weight_size,
      Nat.sub_add_cancel hfirst] at hc
    exact hc
  case files =>
    intro level hfirst hmax
    have hlevel : level - RDB_LEVEL_FIRST < 4 := by
      simp only [RDB_LEVEL_FIRST, RDB_LEVEL_MAX] at *
      omega
    have hc := hcounted (.files ⟨level - RDB_LEVEL_FIRST, hlevel⟩)
    simp only [RocksDBBlueFSVolumeSelector.value, Nodes.usage, weight_files,
      Nat.sub_add_cancel hfirst] at hc
    exact hc
  case allFiles =>
    have hc := hcounted .allFiles
    have hlevel := fun level : Fin 4 => hcounted (.files level)
    have hsum := overFiles_levels hs.filed (w := fun _ => 1)
      (v := fun level f => f.weight (.files level)) fun level f => weight_files f level
    simp only [RocksDBBlueFSVolumeSelector.value, Nodes.usage, weight_allFiles] at hc
    rw [hc, hsum, UInt64.ofNat_add, UInt64.ofNat_add, UInt64.ofNat_add]
    exact congr (congrArg _ (congr (congrArg _ (congr (congrArg _ (hlevel 0).symm) (hlevel 1).symm))
      (hlevel 2).symm)) (hlevel 3).symm
  case room =>
    intro r hr c hfits
    rw [hcounted c, UInt64.toNat_ofNat', Nat.mod_eq_of_lt hfits]
    exact weight_le_usage hr c

/-! ## The mount -/

section Mount

variable {s s' : BlueFS RocksDBBlueFSVolumeSelector A} {log : FileRef}

/-- A BlueFS that is not mounted, with a new selector, and no file left of an earlier mount. -/
structure Unmounted (s : BlueFS RocksDBBlueFSVolumeSelector A) : Prop where
  fileMap : s.nodes.fileMap = .empty
  dirMap : s.nodes.dirMap = .empty
  files : ∀ r, s.nodes.files r = {}
  value : ∀ c, s.vselector.value c = 0

/-- A record that the replay counts no file for: it links none, and of the log it is a delta. -/
def LogOp.Mountable : LogOp → Prop
  | .dirLink _ _ _ => False
  | .fileUpdate ino _ _ _ => ino ≠ 1
  | .fileRemove ino => ino ≠ 1
  | .fileUpdateInc delta => delta.ino = 1 → OnDevices delta.extents
  | _ => True

/-- The fnode of the log that the superblock holds. -/
structure LogFnode (fnode : Fnode) : Prop where
  ino : fnode.ino = 1
  devices : OnDevices fnode.extents

/-- While records are replayed that link no file, the log alone has a level, and nothing is
counted. -/
structure Replaying (s : BlueFS RocksDBBlueFSVolumeSelector A) (log : FileRef) : Prop where
  filed : Filed s.nodes
  links : ∀ r, s.nodes.links r = 0
  refs : ∀ r, (s.nodes.files r).refs = 0
  logged : s.nodes.fileMap.lookup 1 = some log
  leveled : (s.nodes.files log).vselectorHint = RDB_LEVEL_LOG
  level : ∀ r, r ≠ log → (s.nodes.files r).vselectorHint = 0
  value : ∀ c, s.vselector.value c = 0

/-- A table that holds less, but every file of a level. -/
theorem Filed.shrink {n : Nodes} (hn : Filed n) (hlinks : ∀ r, n.links r = 0)
    {m : OrderedMap Nat FileRef} (hsub : ∀ i r, m.lookup i = some r → n.fileMap.lookup i = some r)
    (hkeep : ∀ r, (n.files r).vselectorHint ≠ 0 → n.Present r →
      m.lookup (n.files r).fnode.ino = some r) : Filed { n with fileMap := m } := by
  constructor
  case key => exact fun i r hr => hn.key i r (hsub i r hr)
  case made => exact fun i r hr => hn.made i r (hsub i r hr)
  case numbered => exact fun i r hr => hn.numbered i r (hsub i r hr)
  case started => exact hn.started
  case named =>
    intro r hr
    have hzero : Nodes.links { n with fileMap := m } r = 0 := hlinks r
    omega
  case linked => exact hn.linked
  case placed => exact fun r hhint hlive => hkeep r hhint (hn.placed r hhint hlive)
  case level => exact hn.level
  case devices => exact hn.devices

theorem Unmounted.openLog (hs : Unmounted s) (hsuper : LogFnode s.super.logFnode) :
    Replaying s.openLog.2 s.openLog.1 := by
  have hlinks : ∀ r, s.openLog.2.nodes.links r = 0 := by
    intro r
    show Nodes.links _ r = 0
    unfold Nodes.links
    show s.nodes.dirMap.sum _ = 0
    rw [hs.dirMap]
    rfl
  have hfile : ∀ r, s.openLog.2.nodes.files r = if r = s.nodes.nextRef then
      { fnode := s.super.logFnode, vselectorHint := RDB_LEVEL_LOG } else {} := by
    intro r
    show Function.update s.nodes.files s.nodes.nextRef _ r = _
    rw [Function.update_apply, hs.files r]
    rfl
  have hlookup : ∀ i, s.openLog.2.nodes.fileMap.lookup i =
      if i = 1 then some s.nodes.nextRef else none := by
    intro i
    show (s.nodes.fileMap.insert 1 s.nodes.nextRef).lookup i = _
    rw [hs.fileMap, OrderedMap.lookup_insert, OrderedMap.lookup_empty]
  have hin : ∀ i r, s.openLog.2.nodes.fileMap.lookup i = some r → i = 1 ∧ r = s.nodes.nextRef := by
    intro i r hr
    rw [hlookup] at hr
    split at hr
    case isTrue hi => exact ⟨hi, (Option.some.inj hr).symm⟩
    case isFalse => exact absurd hr (by simp)
  have hlog : s.openLog.2.nodes.Present s.nodes.nextRef := by
    unfold Nodes.Present
    rw [hfile, if_pos rfl, hlookup, if_pos hsuper.ino]
  refine ⟨?_, hlinks, fun r => ?_, ?_, ?_, fun r hr => ?_, hs.value⟩
  case refine_1 =>
    constructor
    case key =>
      intro i r hr
      obtain ⟨rfl, rfl⟩ := hin i r hr
      rw [hfile, if_pos rfl]
      exact hsuper.ino
    case made =>
      intro i r hr
      rw [(hin i r hr).2]
      exact Nat.lt_succ_self _
    case numbered => exact fun i r hr => (hin i r hr).1.le
    case started => exact le_rfl
    case named =>
      intro r hr
      rw [hlinks] at hr
      exact absurd hr (lt_irrefl 0)
    case linked =>
      intro r
      rw [hlinks, hfile]
      split <;> exact le_rfl
    case placed =>
      intro r hhint _
      by_cases hr : r = s.nodes.nextRef
      · rw [hr]
        exact hlog
      · rw [hfile, if_neg hr] at hhint
        exact absurd rfl hhint
    case level =>
      intro r
      rw [hfile]
      split
      case isTrue => exact (by decide : RDB_LEVEL_LOG < RDB_LEVEL_MAX)
      case isFalse => exact (by decide : 0 < RDB_LEVEL_MAX)
    case devices =>
      intro r hhint
      rw [hfile] at hhint ⊢
      split
      case isTrue => exact hsuper.devices
      case isFalse hr =>
        rw [if_neg hr] at hhint
        exact absurd rfl hhint
  case refine_2 =>
    rw [hfile]
    split <;> rfl
  case refine_3 => rw [hlookup, if_pos rfl]; rfl
  case refine_4 =>
    have href : s.openLog.1 = s.nodes.nextRef := rfl
    rw [hfile, if_pos href]
  case refine_5 =>
    have hne : r ≠ s.nodes.nextRef := hr
    rw [hfile, if_neg hne]

namespace Replaying

/-- The log is inode 1. -/
theorem ne_log (hs : Replaying s log) {ino : Nat} {r : FileRef}
    (hr : s.nodes.fileMap.lookup ino = some r) (hino : ino ≠ 1) : r ≠ log := by
  rintro rfl
  exact hino ((hs.filed.key ino r hr).symm.trans (hs.filed.key 1 r hs.logged))

theorem of_dirs (hs : Replaying s log) (hnodes : s'.nodes = { s.nodes with dirMap := s'.nodes.dirMap })
    (hlinks : ∀ r, s'.nodes.links r ≤ s.nodes.links r) (hvselector : s'.vselector = s.vselector) :
    Replaying s' log := by
  have hfiles : s'.nodes.files = s.nodes.files := by rw [hnodes]
  have hmap : s'.nodes.fileMap = s.nodes.fileMap := by rw [hnodes]
  refine ⟨(SameFiling.of_dirs hnodes hlinks).filed hs.filed fun r hhint => ?_, fun r => ?_,
    fun r => ?_, ?_, ?_, fun r hr => ?_, ?_⟩
  · rw [hfiles]
    exact hs.filed.devices r hhint
  · have hle := hlinks r
    rw [hs.links r] at hle
    exact Nat.le_zero.mp hle
  · rw [hfiles]
    exact hs.refs r
  · rw [hmap]
    exact hs.logged
  · rw [hfiles]
    exact hs.leveled
  · rw [hfiles]
    exact hs.level r hr
  · rw [hvselector]
    exact hs.value

/-- A file written back with its names and its level. -/
theorem setFile (hs : Replaying s log) {r : FileRef} {f : File}
    (hnodes : s'.nodes = s.nodes.setFile r f) (hsame : (s.nodes.files r).Same f)
    (hdevices : r = log → OnDevices f.fnode.extents) (hvselector : s'.vselector = s.vselector) :
    Replaying s' log := by
  have hfiling : SameFiling s.nodes s'.nodes := by
    rw [hnodes]
    exact .setFile s.nodes hsame
  have hfile : ∀ x, s'.nodes.files x = if x = r then f else s.nodes.files x := by
    intro x
    rw [hnodes, Nodes.setFile_files]
  refine ⟨hfiling.filed hs.filed fun x hhint => ?_, fun x => ?_, fun x => ?_, ?_, ?_,
    fun x hx => ?_, ?_⟩
  · rw [hfile]
    split
    case isTrue hx =>
      refine hdevices ?_
      by_contra hne
      exact hhint (hs.level x (hx ▸ hne))
    case isFalse => exact hs.filed.devices x hhint
  · have hle := hfiling.links x
    rw [hs.links x] at hle
    exact Nat.le_zero.mp hle
  · rw [hfile]
    split
    case isTrue hx =>
      rw [hsame.refs]
      exact hs.refs r
    case isFalse => exact hs.refs x
  · rw [hfiling.fileMap]
    exact hs.logged
  · rw [hfiling.hint]
    exact hs.leveled
  · rw [hfiling.hint]
    exact hs.level x hx
  · rw [hvselector]
    exact hs.value

/-- A table that holds less, but the log. -/
theorem shrink (hs : Replaying s log) {m : OrderedMap Nat FileRef}
    (hsub : ∀ i r, m.lookup i = some r → s.nodes.fileMap.lookup i = some r)
    (hlog : m.lookup 1 = some log) :
    Replaying { s with nodes := { s.nodes with fileMap := m } } log := by
  refine ⟨hs.filed.shrink hs.links hsub fun r hhint _ => ?_, hs.links, hs.refs, hlog, hs.leveled,
    hs.level, hs.value⟩
  have hr : r = log := by
    by_contra hne
    exact hhint (hs.level r hne)
  rw [hr, hs.filed.key 1 log hs.logged]
  exact hlog

/-- The file of a number, made anew when there is none. -/
theorem getFile (hs : Replaying s log) (ino : Nat) :
    Replaying { s with nodes := { (s.nodes.getFile ino).2 with
      inoLast := max (s.nodes.getFile ino).2.inoLast ino } } log ∧
      ((s.nodes.getFile ino).2.files (s.nodes.getFile ino).1).fnode.ino = ino ∧
      (ino ≠ 1 → (s.nodes.getFile ino).1 ≠ log) := by
  cases hlookup : s.nodes.fileMap.lookup ino with
  | some r =>
      have heq : s.nodes.getFile ino = (r, s.nodes) := by rw [Nodes.getFile, hlookup]
      rw [heq]
      have hn := hs.filed
      refine ⟨⟨⟨hn.key, hn.made, fun i x hx => (hn.numbered i x hx).trans (le_max_left _ _),
        hn.started.trans (le_max_left _ _), hn.named, hn.linked, hn.placed, hn.level, hn.devices⟩,
        hs.links, hs.refs, hs.logged, hs.leveled, hs.level, hs.value⟩, hn.key ino r hlookup, hs.ne_log hlookup⟩
  | none =>
      have heq : s.nodes.getFile ino = s.nodes.addFile ino { fnode := { ino } } := by
        rw [Nodes.getFile, hlookup]
      have hadds := getFile_adds hs.filed hlookup (le_max_left s.nodes.inoLast ino) (le_max_right _ _)
      have hne : log ≠ s.nodes.nextRef := (hs.filed.made 1 log hs.logged).ne
      rw [heq] at hadds ⊢
      refine ⟨⟨hadds.filed hs.filed, hs.links, fun r => ?_, ?_, ?_, fun r hr => ?_, hs.value⟩,
        hadds.ino, fun _ => hne.symm⟩
      · by_cases hr : r = s.nodes.nextRef
        · rw [hr]
          simp [Nodes.addFile]
        · exact (congrArg File.refs (hadds.others r hr)).trans (hs.refs r)
      · show (s.nodes.fileMap.insert ino s.nodes.nextRef).lookup 1 = some log
        rw [OrderedMap.lookup_insert, if_neg]
        · exact hs.logged
        · rintro rfl
          have hlogged := hs.logged
          rw [hlookup] at hlogged
          exact absurd hlogged (by simp)
      · exact (congrArg File.vselectorHint (hadds.others log hne)).trans hs.leveled
      · by_cases hr' : r = s.nodes.nextRef
        · rw [hr']
          exact hadds.hint
        · exact (congrArg File.vselectorHint (hadds.others r hr')).trans (hs.level r hr)

/-- A record is replayed, and nothing is counted. -/
theorem replayOp (hs : Replaying s log) {op : LogOp} (hop : op.Mountable)
    (hrun : s.replayOp op = some s') : Replaying s' log := by
  cases op with
  | init | jump | jumpSeq =>
      cases hrun
      exact hs
  | dirCreate d =>
      cases hrun
      refine hs.of_dirs rfl (fun r => ?_) rfl
      have hsum := s.nodes.dirMap.sum_insert
        (fun _ dir => dir.sum fun _ r' => if r' = r then 1 else 0) d .empty
      exact Nat.le_of_add_right_le (Nat.le_of_eq hsum)
  | dirRemove d =>
      cases hrun
      refine hs.of_dirs rfl (fun r => ?_) rfl
      have hsum := s.nodes.dirMap.sum_erase
        (fun _ dir => dir.sum fun _ r' => if r' = r then 1 else 0) d
      exact Nat.le_of_add_right_le (Nat.le_of_eq hsum)
  | dirLink d f ino => exact absurd hop (by simp [LogOp.Mountable])
  | dirUnlink d f =>
      have hnone : s.nodes.entry d f = none := by
        by_contra hsome
        obtain ⟨r, hr⟩ := Option.ne_none_iff_exists'.mp hsome
        have hpos := Nodes.links_pos_of_entry hr
        rw [hs.links r] at hpos
        exact lt_irrefl 0 hpos
      simp only [BlueFS.replayOp, hnone] at hrun
      cases hrun
      exact hs
  | fileUpdate ino size mtime extents =>
      obtain ⟨hfile, hino, hne⟩ := hs.getFile ino
      have hne := hne hop
      have hhint := hfile.level _ hne
      simp only [BlueFS.replayOp] at hrun hhint
      rw [if_neg (not_not_intro hhint), if_neg (not_not_intro hhint)] at hrun
      cases hrun
      exact hfile.setFile rfl ⟨hino.symm, rfl, rfl, rfl⟩ (fun heq => absurd heq hne) rfl
  | fileUpdateInc delta =>
      obtain ⟨hfile, hino, hne⟩ := hs.getFile delta.ino
      simp only [BlueFS.replayOp] at hrun
      obtain ⟨fnode, happly, hout⟩ := Option.map_eq_some_iff.mp hrun
      cases hout
      unfold Fnode.applyInc at happly
      split at happly
      case isFalse => exact absurd happly (by simp)
      case isTrue =>
        have hfnode := Option.some.inj happly
        refine hfile.setFile rfl ⟨?_, rfl, rfl, rfl⟩ (fun heq => ?_) rfl
        · show fnode.ino = _
          rw [← hfnode]
          exact (Fnode.claimExtents_attrs _ _).1
        · show OnDevices fnode.extents
          rw [← hfnode]
          have hlog : delta.ino = 1 := by
            by_contra hother
            exact hne hother heq
          have hleveled : ((s.nodes.getFile delta.ino).2.files log).vselectorHint ≠ 0 := by
            rw [hfile.leveled]
            decide
          have hkept := hfile.filed.devices log hleveled
          rw [← heq] at hkept
          refine OnDevices.claimExtents ?_ (hop hlog)
          exact hkept
  | fileRemove ino =>
      cases hlookup : s.nodes.fileMap.lookup ino with
      | none =>
          simp only [BlueFS.replayOp, hlookup] at hrun
          cases hrun
          exact hs
      | some r =>
          simp only [BlueFS.replayOp, hlookup, hs.refs r, lt_irrefl, if_false] at hrun
          cases hrun
          refine hs.shrink (fun i x hx => ?_) ?_
          · rw [OrderedMap.lookup_erase] at hx
            split at hx
            case isTrue => exact absurd hx (by simp)
            case isFalse => exact hx
          · rw [OrderedMap.lookup_erase, if_neg (Ne.symm hop)]
            exact hs.logged

theorem replayOps (hs : Replaying s log) {ops : List LogOp} (hops : ∀ op ∈ ops, op.Mountable)
    (hrun : ops.foldlM BlueFS.replayOp s = some s') : Replaying s' log := by
  induction ops generalizing s with
  | nil =>
      cases hrun
      exact hs
  | cons op ops ih =>
      rw [List.foldlM_cons] at hrun
      obtain ⟨s₁, hop, hrest⟩ := Option.bind_eq_some_iff.mp hrun
      exact ih (hs.replayOp (hops op (by simp)) hop) (fun x hx => hops x (by simp [hx])) hrest

/-- The whole replay: the files without a link are gone, and the log is not. -/
theorem replay (hs : Replaying s log) {ops : List LogOp} (hops : ∀ op ∈ ops, op.Mountable)
    {logSeq pos : Nat} (hrun : s.replay log ops logSeq pos = some s') : Replaying s' log := by
  unfold BlueFS.replay at hrun
  split at hrun
  case isTrue =>
    cases hrun
    exact hs
  case isFalse =>
    obtain ⟨s₁, hfold, hout⟩ := Option.map_eq_some_iff.mp hrun
    have hs₁ := hs.replayOps hops hfold
    have hsized : Replaying { s₁ with
        log := { s₁.log with seqLive := logSeq + 1 }
        dirty := { s₁.dirty with seqLive := logSeq + 1, seqStable := logSeq }
        nodes := s₁.nodes.setFile log { s₁.nodes.files log with
          fnode := { (s₁.nodes.files log).fnode with size := pos } } } log := by
      refine hs₁.setFile rfl ⟨rfl, rfl, rfl, rfl⟩ (fun _ => ?_) rfl
      exact hs₁.filed.devices log (by rw [hs₁.leveled]; decide)
    cases hout
    refine hsized.shrink (fun i r hr => ?_) ?_
    · rw [OrderedMap.lookup_filter] at hr
      exact (Option.ite_none_right_eq_some.mp hr).2
    · rw [OrderedMap.lookup_filter, hsized.logged]
      exact if_pos (by simp)

end Replaying

/-- The files of a mount are added one by one. -/
theorem mountFiles_counts [Allocator A] (hn : Filed s.nodes) (rs : List FileRef) :
    (rs.foldl BlueFS.mountFile s).nodes = s.nodes ∧ ∀ c,
      (rs.foldl BlueFS.mountFile s).vselector.value c =
        s.vselector.value c + UInt64.ofNat (rs.map fun r => (s.nodes.files r).weight c).sum := by
  induction rs generalizing s with
  | nil => exact ⟨rfl, fun c => (UInt64.add_zero _).symm⟩
  | cons r rs ih =>
      have hextents : ∀ (es : List Extent) (s : BlueFS RocksDBBlueFSVolumeSelector A),
          ∃ a u, es.foldl BlueFS.mountExtent s = { s with alloc := a, bluefsUsed := u } := by
        intro es
        induction es with
        | nil => exact fun s => ⟨s.alloc, s.bluefsUsed, rfl⟩
        | cons e es ih =>
            intro s
            obtain ⟨a, u, heq⟩ := ih (s.mountExtent e)
            rw [List.foldl_cons, heq]
            unfold BlueFS.mountExtent
            split <;> exact ⟨_, _, rfl⟩
      obtain ⟨a, u, heq⟩ := hextents (s.nodes.files r).fnode.extents s
      have hfile : s.mountFile r = { s with
          alloc := a
          bluefsUsed := u
          vselector := s.vselector.addUsage (s.nodes.files r).vselectorHint
            (s.nodes.files r).fnode } := by
        unfold BlueFS.mountFile
        simp only [heq]
        rfl
      obtain ⟨hnodes, hvalue⟩ := ih (s := s.mountFile r) (by rw [hfile]; exact hn)
      rw [List.foldl_cons]
      refine ⟨by rw [hnodes, hfile], fun c => ?_⟩
      rw [hvalue c, hfile, RocksDBBlueFSVolumeSelector.value_addUsage (hn.level r) (hn.devices r),
        List.map_cons, List.sum_cons, UInt64.ofNat_add, UInt64.add_assoc]
      rfl

/-- A mount from where the replay returned counts every file of the table. -/
theorem mountReplayed_tracked [Allocator A] (hs : Replaying s log) :
    Tracked (s.mountReplayed log) := by
  obtain ⟨hnodes, hvalue⟩ := mountFiles_counts hs.filed (s.nodes.fileMap.entries.map Prod.snd)
  have hfiles : Tracked ((s.nodes.fileMap.entries.map Prod.snd).foldl BlueFS.mountFile s) := by
    refine ⟨by rw [hnodes]; exact hs.filed, fun c => ?_⟩
    rw [hvalue c, hs.value c, UInt64.zero_add, hnodes, List.map_map]
    rfl
  have hlog : (s.nodes.getFile 1) = (log, s.nodes) := by
    rw [Nodes.getFile, hs.logged]
  unfold BlueFS.mountReplayed
  simp only [hnodes, hlog]
  generalize (s.nodes.fileMap.entries.map Prod.snd).foldl BlueFS.mountFile s = s₁ at hnodes hfiles ⊢
  rw [← hnodes]
  exact hfiles.setFile rfl ⟨rfl, rfl, rfl, rfl⟩ ⟨rfl, rfl⟩ rfl

theorem mount_tracked [Allocator A] (hs : Unmounted s) {super : Super}
    (hsuper : LogFnode super.logFnode) {alloc : Nat → A} {ops : List LogOp}
    (hops : ∀ op ∈ ops, op.Mountable) {logSeq pos : Nat}
    (hrun : s.mount super alloc ops logSeq pos = some s') : Tracked s' := by
  have hready : Unmounted ({ s with super }.initAlloc alloc) :=
    ⟨hs.fileMap, hs.dirMap, hs.files, hs.value⟩
  have hopened := hready.openLog hsuper
  unfold BlueFS.mount at hrun
  obtain ⟨s₁, hreplay, rfl⟩ := Option.map_eq_some_iff.mp hrun
  exact mountReplayed_tracked (hopened.replay hops hreplay)

end Mount

/-! ## Runs -/

section Runs

variable [Allocator A] {s s' s'' : BlueFS RocksDBBlueFSVolumeSelector A}

/-- The section tells the selector what it does to a file of a level: `open_for_write` creates
and empties none, a flush, `preallocate` and the log take no space for one, the log does not grow,
and what is truncated is in the inode table. -/
def Section.Tells (s : BlueFS RocksDBBlueFSVolumeSelector A) : Section → Prop
  | name (.openForWrite d f overwrite) => OpensAsIs s d f overwrite
  | flushF h force => (s.nodes.files h.file).deleted = false → Flushes s h force →
      Roomy s h.file (h.pos + h.bufferLength)
  | flushRange h offset length => (s.nodes.files h.file).deleted = false →
      h.pos < offset + length → Roomy s h.file (offset + length)
  | preallocate r off len => (s.nodes.files r).deleted = false → Roomy s r (off + len)
  | truncateTo r _ => (s.nodes.files r).vselectorHint = 0 ∨ s.nodes.Present r
  | gather w => LogRoomy (Gathering s) w
  | writeLog w t => (s.nodes.files w.file).vselectorHint = 0 ∨
      w.pos + (s.logBytes t).length ≤ (s.nodes.files w.file).fnode.size ∨
      (s.flushLogData w (s.logBytes t)).1 < 0
  | _ => True

/-- Sections that tell the selector what they do. -/
inductive TellingRun : BlueFS RocksDBBlueFSVolumeSelector A →
    BlueFS RocksDBBlueFSVolumeSelector A → Prop
  | refl (s : BlueFS RocksDBBlueFSVolumeSelector A) : TellingRun s s
  | step (c : Section) {s s' s'' : BlueFS RocksDBBlueFSVolumeSelector A} : TellingRun s s' →
      c.Tells s' → c.run s' = some s'' → TellingRun s s''

theorem Section.tracked (hs : Tracked s) {c : Section} (htells : c.Tells s)
    (hrun : c.run s = some s') : Tracked s' := by
  cases c with
  | name c =>
      obtain ⟨out, hcall, rfl⟩ := Option.map_eq_some_iff.mp hrun
      exact NameCall.tracked hs (fun d f o heq => by rw [heq] at htells; exact htells) hcall
  | flushF h force =>
      cases hrun
      exact flushF_tracked hs htells
  | flushRange h offset length =>
      cases hrun
      exact flushRange_tracked hs htells
  | preallocate r off len =>
      obtain ⟨out, hcall, rfl⟩ := Option.map_eq_some_iff.mp hrun
      exact preallocate_tracked hs htells hcall
  | truncateTo r offset =>
      cases hrun
      exact truncateTo_tracked hs htells
  | signalDirty r =>
      cases hrun
      exact signalDirtyToLog_tracked hs r
  | gather w =>
      cases hrun
      exact gather_tracked hs htells
  | writeLog w t =>
      cases hrun
      exact writeLog_tracked hs htells
  | recordStable seq =>
      cases hrun
      exact recordStable_tracked hs seq
  | drainPending =>
      cases hrun
      exact hs.of_nodes rfl rfl
  | syncSuper =>
      cases hrun
      exact syncSuper_tracked hs
  | devices bdev =>
      cases hrun
      exact hs.of_nodes rfl rfl

/-- **The usage of the selector matches the files along telling runs from a mount.** -/
theorem usage_matches (hs : Unmounted s) {super : Super} (hsuper : LogFnode super.logFnode)
    {alloc : Nat → A} {ops : List LogOp} (hops : ∀ op ∈ ops, op.Mountable) {logSeq pos : Nat}
    (hmount : s.mount super alloc ops logSeq pos = some s') (hrun : TellingRun s' s'') :
    UsageMatches s'' := by
  have htracked : Tracked s'' := by
    induction hrun with
    | refl s' => exact mount_tracked hs hsuper hops hmount
    | step c _ htells hcall ih => exact Section.tracked (ih hmount) htells hcall
  exact htracked.usageMatches

end Runs

/-! ## A new file -/

/-- A new BlueFS on a device without free space. -/
def newFs : BlueFS RocksDBBlueFSVolumeSelector FreeList where
  cfg := { allocSize := 4096 }
  bdev i := if i = BDEV_DB then some { size := 1048576 } else none
  alloc _ := ⟨[]⟩
  allocSize _ := 0
  sharedAllocId := none
  bluefsUsed := 0
  vselector := {}
  super := {}
  nodes := {}
  log := {}
  dirty := {}

/-- The superblock of a log of a page. -/
def onePageSuper : Super where
  logFnode :=
    { ino := 1
      size := 4096
      extents := [⟨4096, 4096, 1⟩]
      extentsIndex := [0]
      allocated := 4096
      allocatedCommitted := 4096 }

theorem newFs_unmounted : Unmounted newFs :=
  ⟨rfl, rfl, fun _ => rfl, fun c => by cases c <;> rfl⟩

theorem onePageSuper_logFnode : LogFnode onePageSuper.logFnode := by
  refine ⟨rfl, fun e he => ?_⟩
  rw [List.mem_singleton.mp he]
  decide

/-- `newFs` mounted, with the directory `d` that its log creates. -/
def mountedFs : BlueFS RocksDBBlueFSVolumeSelector FreeList :=
  (newFs.mount onePageSuper (fun _ => ⟨[]⟩) [.dirCreate [100]] 1 4096).getD newFs

theorem mountedFs_mount :
    newFs.mount onePageSuper (fun _ => ⟨[]⟩) [.dirCreate [100]] 1 4096 = some mountedFs := rfl

/-- A lock file has no level. -/
theorem usage_matches_lock : UsageMatches (mountedFs.lockFile [100] [97]).2.2 :=
  usage_matches newFs_unmounted onePageSuper_logFnode
    (fun op hop => by rw [List.mem_singleton.mp hop]; trivial) mountedFs_mount
    (.step (.name (.lockFile [100] [97])) (.refl _) trivial rfl)

/-- A file is created, and unlinked: it was never added, and is taken off. -/
theorem usage_mismatch :
    ¬ ∀ (s s' s'' : BlueFS RocksDBBlueFSVolumeSelector FreeList) (super : Super)
      (alloc : Nat → FreeList) (ops : List LogOp) (logSeq pos : Nat), Unmounted s →
      LogFnode super.logFnode → s.mount super alloc ops logSeq pos = some s' → Sections s' s'' →
      UsageMatches s'' := by
  intro hclaim
  have hrun : Sections mountedFs
      ((mountedFs.openForWrite [100] [97] false).2.2.unlink [100] [97]).2 :=
    (Sections.one (.name (.openForWrite [100] [97] false)) rfl).trans
      (Sections.one (.name (.unlink [100] [97])) rfl)
  have hfiles := (hclaim newFs mountedFs _ onePageSuper _ _ _ _ newFs_unmounted
    onePageSuper_logFnode mountedFs_mount hrun).files RDB_LEVEL_DB (by decide) (by decide)
  -- the counter of the files of the level wrapped
  have hcounter : RocksDBBlueFSVolumeSelector.perLevelFiles
      ((mountedFs.openForWrite [100] [97] false).2.2.unlink [100] [97]).2.vselector
      (RDB_LEVEL_DB - RDB_LEVEL_FIRST) = 18446744073709551615 := by decide +kernel
  have hnone : ((mountedFs.openForWrite [100] [97] false).2.2.unlink [100] [97]).2.nodes.overFiles
      (fun f => if f.vselectorHint = RDB_LEVEL_DB then 1 else 0) = 0 := by decide +kernel
  rw [hcounter, hnone] at hfiles
  exact absurd hfiles (by decide)

end Clab.Bluefs
