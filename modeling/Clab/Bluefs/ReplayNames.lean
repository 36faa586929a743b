import Clab.Bluefs.FlushedData
import Clab.Bluefs.ReplayMirror

/-!
# Replaying names

The operations that directories log: what the replay of each group of them makes of
the names is what the call made of them.
-/

namespace Clab.Bluefs

open Blk

/-! ## Nodes -/

namespace Nodes

theorem setFile_setEntry (n : Nodes) (r x : FileRef) (f : File) (d y : Bytes) :
    (n.setEntry d y r).setFile x f = (n.setFile x f).setEntry d y r := by
  unfold setEntry setFile
  cases n.dirMap.lookup d <;> rfl

theorem setEntry_files (n : Nodes) (d f : Bytes) (r : FileRef) :
    (n.setEntry d f r).files = n.files := by
  rw [setEntry_eq]

theorem eraseEntry_files (n : Nodes) (d f : Bytes) : (n.eraseEntry d f).files = n.files := by
  rw [eraseEntry_eq]

theorem hasDir_insert (n : Nodes) (d x : Bytes) :
    Nodes.hasDir { n with dirMap := n.dirMap.insert d .empty } x = (decide (x = d) || n.hasDir x) := by
  unfold hasDir
  simp only [OrderedMap.lookup_insert]
  by_cases hx : x = d
  · simp [hx]
  · simp [hx]

theorem hasDir_erase (n : Nodes) (d x : Bytes) :
    Nodes.hasDir { n with dirMap := n.dirMap.erase d } x = (decide (x ≠ d) && n.hasDir x) := by
  unfold hasDir
  simp only [OrderedMap.lookup_erase]
  by_cases hx : x = d
  · simp [hx]
  · simp [hx]

/-- A directory that is made or removed empty has no entries. -/
theorem entry_insert {n : Nodes} {d : Bytes} (hd : n.dirMap.lookup d = none) (x f : Bytes) :
    Nodes.entry { n with dirMap := n.dirMap.insert d .empty } x f = n.entry x f := by
  unfold entry
  simp only [OrderedMap.lookup_insert]
  by_cases hx : x = d
  · rw [if_pos hx, hx, hd]
    rfl
  · rw [if_neg hx]

theorem entry_erase {n : Nodes} {d : Bytes} {dir : Dir} (hd : n.dirMap.lookup d = some dir)
    (hempty : dir.entries = []) (x f : Bytes) :
    Nodes.entry { n with dirMap := n.dirMap.erase d } x f = n.entry x f := by
  unfold entry
  simp only [OrderedMap.lookup_erase]
  by_cases hx : x = d
  · have hnone : dir.lookup f = none := OrderedMap.lookup_eq_none fun v hv => by simp [hempty] at hv
    rw [if_pos hx, hx, hd]
    exact hnone.symm
  · rw [if_neg hx]

end Nodes

namespace Mirrors

variable {known : Set FileRef} {n m n' m' : Nodes} {ino : Nat} {r r' : FileRef} {d f : Bytes}

/-- The same directory is made or removed on both sides. -/
theorem dirs_change (h : Mirrors known n m) (hn : SameNames n n') (hm : SameNames m m')
    (hfiles : n'.files = n.files) (hfiles' : m'.files = m.files)
    (hentry : ∀ x y, n'.entry x y = n.entry x y) (hentry' : ∀ x y, m'.entry x y = m.entry x y)
    (hdirs : ∀ x, m'.hasDir x = n'.hasDir x) : Mirrors known n' m' := by
  refine h.transfer hn hm hdirs (fun x y => ?_) fun ino r r' hr hr' => ?_
  · have hname := h.names x y
    unfold Nodes.inoAt at hname ⊢
    rw [hentry, hentry', hfiles, hfiles']
    exact hname
  · have hrec := h.files ino r r' hr hr'
    rw [hfiles, hfiles']
    exact ⟨hrec.tracks, hrec.same⟩

/-! ### A new file -/

theorem created (h : Mirrors known n m) (hc : Created n n' d f r)
    (hc' : Created { m with inoLast := n.inoLast } m' d f r')
    (hdirs : ∀ x, n'.hasDir x = n.hasDir x) (hdirs' : ∀ x, m'.hasDir x = m.hasDir x) :
    Mirrors known n' m' := by
  have hraised : Linked { m with inoLast := n.inoLast } :=
    { h.linked' with
      numbered := fun x hx => by
        obtain ⟨hlt, hle⟩ := h.linked'.numbered x hx
        exact ⟨hlt, hle.trans h.inoLast⟩
      started := h.linked.started }
  have hnew : ∀ x y, n.entry x y ≠ some r := fun x y hentry => by
    have hlinks := Nodes.links_pos_of_entry hentry
    rw [h.linked.fresh r (by rw [hc.ref])] at hlinks
    exact lt_irrefl 0 hlinks
  have hnew' : ∀ x y, m.entry x y ≠ some r' := fun x y hentry => by
    have hlinks := Nodes.links_pos_of_entry hentry
    rw [h.linked'.fresh r' (by rw [hc'.ref])] at hlinks
    exact lt_irrefl 0 hlinks
  refine ⟨h.linked.created hc, hraised.created hc', ?_, fun x => ?_, fun x y => ?_, fun ino => ?_,
    fun ino x x' hx hx' => ?_, ?_⟩
  · rw [hc.inoLast, hc'.inoLast]
  · rw [hdirs, hdirs']
    exact h.dirs x
  · unfold Nodes.inoAt
    rw [hc.entry, hc'.entry]
    split
    case isTrue => simp [hc.fnode, hc'.fnode]
    case isFalse =>
      have hname := h.names x y
      unfold Nodes.inoAt at hname
      have hold : (n.entry x y).map (fun z => (n'.files z).fnode.ino) =
          (n.entry x y).map fun z => (n.files z).fnode.ino :=
        Option.map_congr fun z hz => by rw [hc.others z fun heq => hnew x y (heq ▸ hz)]
      have hold' : (m.entry x y).map (fun z => (m'.files z).fnode.ino) =
          (m.entry x y).map fun z => (m.files z).fnode.ino :=
        Option.map_congr fun z hz => by rw [hc'.others z fun heq => hnew' x y (heq ▸ hz)]
      rw [hold]
      exact hold'.trans hname
  · have hino := h.inos ino
    unfold Nodes.hasIno at hino ⊢
    rw [hc.fileMap, hc'.fileMap, OrderedMap.lookup_insert, OrderedMap.lookup_insert]
    split
    case isTrue => rfl
    case isFalse => exact hino
  · rw [hc.fileMap, OrderedMap.lookup_insert] at hx
    rw [hc'.fileMap, OrderedMap.lookup_insert] at hx'
    have hzero : n.links r = 0 := h.linked.fresh r (by rw [hc.ref])
    have hzero' : m.links r' = 0 := h.linked'.fresh r' (by rw [hc'.ref])
    split at hx
    case isTrue hi =>
      rw [if_pos hi] at hx'
      obtain rfl := Option.some.inj hx
      obtain rfl := Option.some.inj hx'
      refine ⟨by rw [hc.fnode, hi], ?_, ?_, fun _ _ => ?_⟩
      · rw [hc.links, hc'.links, if_pos rfl, if_pos rfl, hzero]
        exact congrArg (· + 1) hzero'
      · rw [hc.fnode, hc'.fnode]
        exact Fnode.Tracks.of_matches (Fnode.indexed_nil rfl rfl rfl) ⟨rfl, rfl, rfl⟩ rfl
      · rw [hc.fnode, hc'.fnode]
        exact ⟨rfl, rfl, rfl, rfl⟩
    case isFalse hi =>
      rw [if_neg hi] at hx'
      have hrec := h.files ino x x' hx hx'
      -- a number is not given twice, so neither file is the new one
      have hne : x ≠ r := by
        rintro rfl
        by_cases hone : ino = 1
        · obtain ⟨l, hl, -, hmade⟩ := h.linked.log
          rw [hone, hl] at hx
          rw [Option.some.inj hx, hc.ref] at hmade
          exact lt_irrefl _ hmade
        · have hlinks := ((h.linked.filed ino x hone).mp hx).1
          omega
      have hne' : x' ≠ r' := by
        rintro rfl
        by_cases hone : ino = 1
        · obtain ⟨l, hl, -, hmade⟩ := h.linked'.log
          rw [hone, hl] at hx'
          rw [Option.some.inj hx', hc'.ref] at hmade
          exact lt_irrefl _ hmade
        · have hlinks := ((h.linked'.filed ino x' hone).mp hx').1
          omega
      refine ⟨by rw [hc.others x hne]; exact hrec.number, ?_, ?_, ?_⟩
      · rw [hc.links, hc'.links, if_neg hne.symm, if_neg hne'.symm]
        exact hrec.links
      · rw [hc.others x hne, hc'.others x' hne']
        exact hrec.tracks
      · rw [hc.others x hne, hc'.others x' hne']
        exact hrec.same
  · have hstarted := h.linked.started
    have hone : ¬ 1 = n.inoLast + 1 := by omega
    rw [hc'.fileMap, OrderedMap.lookup_insert]
    exact (if_neg hone).trans h.first

/-! ### A link that is gone -/

theorem dropped (h : Mirrors known n m) (hd : Dropped n n' r) (hd' : Dropped m m' r')
    (hr : n.fileMap.lookup ino = some r) (hr' : m.fileMap.lookup ino = some r')
    (hentry : ∀ x y, n'.entry x y = if x = d ∧ y = f then none else n.entry x y)
    (hentry' : ∀ x y, m'.entry x y = if x = d ∧ y = f then none else m.entry x y)
    (hdirs : ∀ x, n'.hasDir x = n.hasDir x) (hdirs' : ∀ x, m'.hasDir x = m.hasDir x)
    (hclean : ∀ x, 0 < n'.links x → (n'.files x).Clean → (n.files x).Clean) :
    Mirrors known n' m' := by
  have hlinked := h.linked.dropped hd
  have hrec := h.files ino r r' hr hr'
  have hino : (n.files r).fnode.ino = (m.files r').fnode.ino := hrec.tracks.ino.symm
  refine ⟨hlinked, h.linked'.dropped hd', ?_, fun x => ?_, fun x y => ?_, fun k => ?_,
    fun k x x' hx hx' => ?_, ?_⟩
  · rw [hd.inoLast, hd'.inoLast]
    exact h.inoLast
  · rw [hdirs, hdirs']
    exact h.dirs x
  · have hname := h.names x y
    unfold Nodes.inoAt at hname ⊢
    rw [hentry, hentry']
    split
    · rfl
    · simp only [hd.fnode, hd'.fnode]
      exact hname
  · have hk := h.inos k
    unfold Nodes.hasIno at hk ⊢
    rw [hd.fileMap, hd'.fileMap, hrec.links, ← hino]
    split
    · rw [OrderedMap.lookup_erase, OrderedMap.lookup_erase]
      split
      · rfl
      · exact hk
    · exact hk
  · have hback : n.fileMap.lookup k = some x := by
      rw [hd.fileMap] at hx
      split at hx
      · rw [OrderedMap.lookup_erase] at hx
        split at hx
        · exact absurd hx (by simp)
        · exact hx
      · exact hx
    have hback' : m.fileMap.lookup k = some x' := by
      rw [hd'.fileMap] at hx'
      split at hx'
      · rw [OrderedMap.lookup_erase] at hx'
        split at hx'
        · exact absurd hx' (by simp)
        · exact hx'
      · exact hx'
    have hold := h.files k x x' hback hback'
    have hfile := h.same_file hr hr' hback hback'
    refine ⟨by rw [hd.fnode]; exact hold.number, ?_, by rw [hd.fnode, hd'.fnode]; exact hold.tracks,
      fun hne hk => ?_⟩
    · have hlinks := hd.links x
      have hlinks' := hd'.links x'
      have hboth := hold.links
      by_cases hxr : x = r
      · rw [if_pos hxr] at hlinks
        rw [if_pos (hfile.mp hxr)] at hlinks'
        omega
      · rw [if_neg hxr] at hlinks
        rw [if_neg fun hx' => hxr (hfile.mpr hx')] at hlinks'
        omega
    · rw [hd.fnode, hd'.fnode]
      exact hold.same hne (hk.imp_right fun hc => hclean x ((hlinked.filed k x hne).mp hx).1 hc)
  · have hlinks := hd'.links r'
    rw [if_pos rfl] at hlinks
    have hone := (h.linked'.numbered r' (by omega)).1
    rw [hd'.fileMap]
    split
    · rw [OrderedMap.lookup_erase, if_neg (by omega)]
      exact h.first
    · exact h.first

/-! ### A name that moves -/

theorem moved (h : Mirrors known n m) (od of nd nf : Bytes) (hn : SameNames n n')
    (hm : SameNames m m') (hfiles : n'.files = n.files)
    (hfiles' : ∀ x, (m'.files x).fnode = (m.files x).fnode)
    (hentry : ∀ x y, n'.entry x y =
      if x = od ∧ y = of then none else if x = nd ∧ y = nf then some r else n.entry x y)
    (hentry' : ∀ x y, m'.entry x y =
      if x = od ∧ y = of then none else if x = nd ∧ y = nf then some r' else m.entry x y)
    (hino : (m.files r').fnode.ino = (n.files r).fnode.ino)
    (hdirs : ∀ x, n'.hasDir x = n.hasDir x) (hdirs' : ∀ x, m'.hasDir x = m.hasDir x) :
    Mirrors known n' m' := by
  refine h.transfer hn hm (fun x => by rw [hdirs, hdirs']; exact h.dirs x) (fun x y => ?_)
    fun k x x' hx hx' => ?_
  · have hname := h.names x y
    unfold Nodes.inoAt at hname ⊢
    rw [hentry, hentry', hfiles]
    simp only [hfiles']
    split
    · rfl
    split
    · exact congrArg some hino
    · exact hname
  · have hrec := h.files k x x' hx hx'
    rw [hfiles, hfiles']
    exact ⟨hrec.tracks, hrec.same⟩

end Mirrors

/-! ## The operations of a call -/

section Replay

variable {known : Set FileRef} {n n' : Nodes} {ino : Nat} {r : FileRef} {d f : Bytes}

theorem follows_dirCreate (known : Set FileRef) (hd : n.dirMap.lookup d = none) :
    Follows known n [.dirCreate d] known { n with dirMap := n.dirMap.insert d .empty } := by
  intro V A _ b hb
  have hd' : b.nodes.dirMap.lookup d = none := by
    have hdir := hb.dirs d
    rw [Nodes.hasDir, Nodes.hasDir, hd] at hdir
    simpa using hdir
  refine ⟨_, rfl, ?_⟩
  refine hb.dirs_change (SameNames.makeDir n hd) (SameNames.makeDir b.nodes hd') rfl rfl
    (Nodes.entry_insert hd) (Nodes.entry_insert hd') fun x => ?_
  rw [Nodes.hasDir_insert, Nodes.hasDir_insert, hb.dirs]

theorem follows_dirRemove (known : Set FileRef) {dir : Dir} (hd : n.dirMap.lookup d = some dir)
    (hempty : dir.entries = []) :
    Follows known n [.dirRemove d] known { n with dirMap := n.dirMap.erase d } := by
  intro V A _ b hb
  obtain ⟨dir', hd'⟩ := hb.dir hd
  have hempty' : dir'.entries = [] := OrderedMap.eq_empty_of_lookup fun y => by
    have hentry : n.entry d y = none := by
      rw [Nodes.entry, hd]
      exact OrderedMap.lookup_eq_none fun v hv => by simp [hempty] at hv
    have hentry' := hb.entry_none hentry
    rw [Nodes.entry, hd'] at hentry'
    exact hentry'
  refine ⟨_, rfl, ?_⟩
  refine hb.dirs_change (SameNames.removeDir n hd hempty) (SameNames.removeDir b.nodes hd' hempty')
    rfl rfl (Nodes.entry_erase hd hempty) (Nodes.entry_erase hd' hempty') fun x => ?_
  rw [Nodes.hasDir_erase, Nodes.hasDir_erase, hb.dirs]

/-- The second of two operations. -/
theorem replay_two {V A : Type} [VolumeSelector V] {b m : BlueFS V A} {op op' : LogOp}
    (h : b.replayOp op = some m) : [op, op'].foldlM BlueFS.replayOp b = m.replayOp op' := by
  rw [List.foldlM_cons, h]
  show (m.replayOp op' >>= fun b' => some b') = _
  exact bind_pure _

/-- A link of a file that is there. -/
theorem replayOp_dirLink {V A : Type} [VolumeSelector V] {b : BlueFS V A} (d f : Bytes)
    (hr : b.nodes.fileMap.lookup ino = some r) :
    ∃ v hint, b.replayOp (.dirLink d f ino) = some { b with
      vselector := v
      nodes := { (b.nodes.setFile r { b.nodes.files r with
        vselectorHint := hint, refs := (b.nodes.files r).refs + 1 }).setEntry d f r with
        inoLast := max b.nodes.inoLast ino } } := by
  have hlast : ∀ m : Nodes, (m.setEntry d f r).inoLast = m.inoLast := fun m => by
    rw [Nodes.setEntry_eq]
  unfold BlueFS.replayOp
  simp only [getFile_found hr, hlast]
  exact ⟨_, VolumeSelector.getHintByDir (VolumeSelector.subUsage b.vselector
    (b.nodes.files r).vselectorHint (b.nodes.files r).fnode) d, rfl⟩

/-- The first record of a file. -/
theorem replayOp_newFile {V A : Type} [VolumeSelector V] {b : BlueFS V A}
    (hino : b.nodes.fileMap.lookup ino = none) :
    b.replayOp (.fileUpdate ino 0 0 []) = some { b with
      nodes := { b.nodes with
        files := Function.update b.nodes.files b.nodes.nextRef { fnode := { ino } }
        nextRef := b.nodes.nextRef + 1
        fileMap := b.nodes.fileMap.insert ino b.nodes.nextRef
        inoLast := max b.nodes.inoLast ino } } := by
  have hget : b.nodes.getFile ino = b.nodes.addFile ino { fnode := { ino } } := by
    rw [Nodes.getFile, hino]
  unfold BlueFS.replayOp
  simp only [hget, Nodes.addFile, Nodes.setFile, Function.update_self, Function.update_idem]
  rfl

/-- What the records of a new file make of a replay that does not have its number. -/
theorem replay_created {V A : Type} [VolumeSelector V] (b : BlueFS V A) {dir : Dir} {last : Nat}
    (hd : b.nodes.dirMap.lookup d = some dir) (hnone : dir.lookup f = none)
    (hino : b.nodes.fileMap.lookup (last + 1) = none) (hlast : b.nodes.inoLast ≤ last) :
    ∃ b' r', [LogOp.fileUpdate (last + 1) 0 0 [], .dirLink d f (last + 1)].foldlM
        BlueFS.replayOp b = some b' ∧
      Created { b.nodes with inoLast := last } b'.nodes d f r' ∧
      ∀ x, b'.nodes.hasDir x = b.nodes.hasDir x := by
  have hfirst := @replayOp_newFile (last + 1) V A _ b hino
  generalize hm : ({ b with nodes := { b.nodes with
    files := Function.update b.nodes.files b.nodes.nextRef { fnode := { ino := last + 1 } }
    nextRef := b.nodes.nextRef + 1
    fileMap := b.nodes.fileMap.insert (last + 1) b.nodes.nextRef
    inoLast := max b.nodes.inoLast (last + 1) } } : BlueFS V A) = m at hfirst
  have hfound : m.nodes.fileMap.lookup (last + 1) = some b.nodes.nextRef := by
    rw [← hm]
    simp
  obtain ⟨v, hint, hlink⟩ := replayOp_dirLink d f hfound
  have hmdir : m.nodes.dirMap = b.nodes.dirMap := by rw [← hm]
  -- the nodes just before the name is entered
  generalize hk : m.nodes.setFile b.nodes.nextRef { m.nodes.files b.nodes.nextRef with
    vselectorHint := hint, refs := (m.nodes.files b.nodes.nextRef).refs + 1 } = k at hlink
  have hkdir : k.dirMap.lookup d = some dir := by
    rw [← hk]
    show m.nodes.dirMap.lookup d = some dir
    rw [hmdir]
    exact hd
  have hkmap : k.dirMap = b.nodes.dirMap := by rw [← hk]; exact hmdir
  have hkfile : ∀ x, k.files x = if x = b.nodes.nextRef
      then { fnode := { ino := last + 1 }, vselectorHint := hint, refs := 1 }
      else b.nodes.files x := by
    intro x
    rw [← hk, Nodes.setFile_files, ← hm]
    by_cases hx : x = b.nodes.nextRef
    · simp [hx]
    · simp [hx]
  have hset := k.setEntry_eq d f b.nodes.nextRef
  refine ⟨_, b.nodes.nextRef, (replay_two hfirst).trans hlink, ?_, fun x => ?_⟩
  · constructor
    case ref => rfl
    case fileMap => rw [hset, ← hk, ← hm]; rfl
    case inoLast => rw [← hm]; show max (max b.nodes.inoLast (last + 1)) (last + 1) = last + 1; omega
    case nextRef => rw [hset, ← hk, ← hm]; rfl
    case refs => rw [hset]; show (k.files _).refs = 1; rw [hkfile, if_pos rfl]
    case fnode => rw [hset]; show (k.files _).fnode = _; rw [hkfile, if_pos rfl]
    case others => intro x hx; rw [hset]; show k.files x = _; rw [hkfile, if_neg hx]
    case entry =>
      intro x y
      show (k.setEntry d f b.nodes.nextRef).entry x y =
        if x = d ∧ y = f then some b.nodes.nextRef else b.nodes.entry x y
      rw [Nodes.entry_setEntry hkdir, Nodes.entry_congr hkmap]
    case links =>
      intro x
      have hentry : b.nodes.entry d f = none := by
        rw [Nodes.entry, hd]
        exact hnone
      have hlinks := Nodes.links_setEntry (f := f) (r := b.nodes.nextRef) hkdir x
      rw [Nodes.entry_congr hkmap, hentry, if_neg (by simp), Nat.add_zero,
        Nodes.links_congr hkmap] at hlinks
      exact hlinks
  · show (k.setEntry d f b.nodes.nextRef).hasDir x = _
    rw [Nodes.setEntry_hasDir, Nodes.hasDir, hkmap]
    rfl

theorem follows_create (known : Set FileRef) (hn : Linked n) {dir : Dir}
    (hd : n.dirMap.lookup d = some dir) (hnone : dir.lookup f = none)
    (hc : Created n n' d f r) (hdirs : ∀ x, n'.hasDir x = n.hasDir x) :
    Follows known n [.fileUpdate (n.inoLast + 1) 0 0 [], .dirLink d f (n.inoLast + 1)] known n' := by
  intro V A _ b hb
  obtain ⟨dir', hd'⟩ := hb.dir hd
  have hentry : n.entry d f = none := by
    rw [Nodes.entry, hd]
    exact hnone
  have hnone' : dir'.lookup f = none := by
    have hentry' := hb.entry_none hentry
    rw [Nodes.entry, hd'] at hentry'
    exact hentry'
  have hino : n.fileMap.lookup (n.inoLast + 1) = none := by
    have hstarted := hn.started
    by_contra hsome
    obtain ⟨x, hx⟩ := Option.ne_none_iff_exists'.mp hsome
    obtain ⟨hlinks, hnum⟩ := (hn.filed _ x (by omega)).mp hx
    have := (hn.numbered x hlinks).2
    omega
  have hino' : b.nodes.fileMap.lookup (n.inoLast + 1) = none := by
    have hk := hb.inos (n.inoLast + 1)
    rw [Nodes.hasIno, Nodes.hasIno, hino] at hk
    simpa using hk
  obtain ⟨b', r', hops, hc', hdirs'⟩ := replay_created b hd' hnone' hino' hb.inoLast
  exact ⟨b', hops, hb.created hc hc' hdirs hdirs'⟩

theorem replayOp_dirUnlink {V A : Type} [VolumeSelector V] {b : BlueFS V A}
    (hentry : b.nodes.entry d f = some r) (hrefs : 0 < (b.nodes.files r).refs) :
    b.replayOp (.dirUnlink d f) = some { b with
      nodes := (b.nodes.setFile r { b.nodes.files r with
        refs := (b.nodes.files r).refs - 1 }).eraseEntry d f } := by
  unfold BlueFS.replayOp
  simp only [hentry, if_pos hrefs]

theorem replayOp_fileRemove {V A : Type} [VolumeSelector V] {b : BlueFS V A}
    (hr : b.nodes.fileMap.lookup ino = some r) (hrefs : ¬ 0 < (b.nodes.files r).refs) :
    b.replayOp (.fileRemove ino) = some { b with
      nodes := { b.nodes with fileMap := b.nodes.fileMap.erase ino } } := by
  unfold BlueFS.replayOp
  simp only [hr, if_neg hrefs]

/-- What the records of a link that is dropped make of a replay. -/
theorem replay_dropped {V A : Type} [VolumeSelector V] (b : BlueFS V A) (hb : Linked b.nodes)
    (hentry : b.nodes.entry d f = some r) (hr : b.nodes.fileMap.lookup ino = some r)
    (hino : (b.nodes.files r).fnode.ino = ino) :
    ∃ b', (LogOp.dirUnlink d f :: if b.nodes.links r = 1 then [.fileRemove ino] else []).foldlM
        BlueFS.replayOp b = some b' ∧
      Dropped b.nodes b'.nodes r ∧
      (∀ x y, b'.nodes.entry x y = if x = d ∧ y = f then none else b.nodes.entry x y) ∧
      ∀ x, b'.nodes.hasDir x = b.nodes.hasDir x := by
  have hlinks := Nodes.links_pos_of_entry hentry
  have hrefs := hb.refs r
  have hfirst := replayOp_dirUnlink hentry (by omega)
  generalize hk : b.nodes.setFile r { b.nodes.files r with refs := (b.nodes.files r).refs - 1 } = k
    at hfirst
  have hkmap : k.dirMap = b.nodes.dirMap := by rw [← hk]; rfl
  have hset := k.eraseEntry_eq d f
  have hfiles : ∀ x, (k.files x).refs = (b.nodes.files x).refs - (if x = r then 1 else 0) ∧
      (k.files x).fnode = (b.nodes.files x).fnode := by
    intro x
    rw [← hk, Nodes.setFile_files]
    by_cases hx : x = r
    · simp [hx]
    · simp [hx]
  have hcount : ∀ x, (k.eraseEntry d f).links x + (if x = r then 1 else 0) = b.nodes.links x := by
    intro x
    have h := k.links_eraseEntry d f x
    rw [Nodes.entry_congr hkmap, hentry, Nodes.links_congr hkmap] at h
    simp only [Option.some.injEq] at h
    rw [← h]
    congr 1
    exact if_congr eq_comm rfl rfl
  have hentries : ∀ x y, (k.eraseEntry d f).entry x y =
      if x = d ∧ y = f then none else b.nodes.entry x y := by
    intro x y
    rw [Nodes.entry_eraseEntry, Nodes.entry_congr hkmap]
  have hdirs : ∀ x, (k.eraseEntry d f).hasDir x = b.nodes.hasDir x := by
    intro x
    rw [Nodes.eraseEntry_hasDir, Nodes.hasDir, hkmap]
    rfl
  -- the second record changes the inode table only
  have hdropped : ∀ fileMap, fileMap = (if b.nodes.links r = 1
      then b.nodes.fileMap.erase (b.nodes.files r).fnode.ino else b.nodes.fileMap) →
      Dropped b.nodes { k.eraseEntry d f with fileMap } r := by
    intro fileMap hmap
    refine ⟨hlinks, hcount, fun x => ?_, fun x => ?_, hmap, ?_, ?_⟩
    · show ((k.eraseEntry d f).files x).refs = _
      rw [Nodes.eraseEntry_files]
      exact (hfiles x).1
    · show ((k.eraseEntry d f).files x).fnode = _
      rw [Nodes.eraseEntry_files]
      exact (hfiles x).2
    · show (k.eraseEntry d f).inoLast = _
      rw [hset, ← hk]
      rfl
    · show (k.eraseEntry d f).nextRef = _
      rw [hset, ← hk]
      rfl
  have hmap : (k.eraseEntry d f).fileMap = b.nodes.fileMap := by
    rw [hset, ← hk]
    rfl
  by_cases hone : b.nodes.links r = 1
  · rw [if_pos hone]
    have hzero : ¬ 0 < ((k.eraseEntry d f).files r).refs := by
      rw [Nodes.eraseEntry_files, (hfiles r).1, if_pos rfl]
      omega
    have hsecond := replayOp_fileRemove (b := { b with nodes := k.eraseEntry d f })
      (by rw [hmap]; exact hr) hzero
    refine ⟨_, (replay_two hfirst).trans hsecond, hdropped _ ?_, hentries, hdirs⟩
    rw [if_pos hone, hino, hmap]
  · rw [if_neg hone]
    have hdone := hdropped (k.eraseEntry d f).fileMap (by rw [if_neg hone, hmap])
    refine ⟨{ b with nodes := k.eraseEntry d f }, ?_, hdone, hentries, hdirs⟩
    rw [List.foldlM_cons, hfirst]
    rfl

theorem follows_unlink (known : Set FileRef) (hentry : n.entry d f = some r)
    (hd : Dropped n n' r)
    (hentries : ∀ x y, n'.entry x y = if x = d ∧ y = f then none else n.entry x y)
    (hdirs : ∀ x, n'.hasDir x = n.hasDir x)
    (hclean : ∀ x, 0 < n'.links x → (n'.files x).Clean → (n.files x).Clean) :
    Follows known n
      (.dirUnlink d f :: if n.links r = 1 then [.fileRemove (n.files r).fnode.ino] else [])
      known n' := by
  intro V A _ b hb
  obtain ⟨r', hentry', hr, hr', -⟩ := hb.entry hentry
  have hrec := hb.files _ r r' hr hr'
  obtain ⟨b', hops, hd', hentries', hdirs'⟩ := replay_dropped b hb.linked' hentry' hr'
    hrec.tracks.ino
  rw [hrec.links] at hops
  exact ⟨b', hops, hb.dropped hd hd' hr hr' hentries hentries' hdirs hdirs' hclean⟩

/-- A file moves to a name that is free, in a directory that is there. -/
theorem follows_rename (known : Set FileRef) {od of nd nf : Bytes} {ndir : Dir}
    (hentry : n.entry od of = some r) (hdir : n.dirMap.lookup nd = some ndir)
    (hfree : n.entry nd nf = none) :
    Follows known n [.dirLink nd nf (n.files r).fnode.ino, .dirUnlink od of] known
      ((n.setEntry nd nf r).eraseEntry od of) := by
  intro V A _ b hb
  obtain ⟨r', hentry', hr, hr', -⟩ := hb.entry hentry
  obtain ⟨ndir', hdir'⟩ := hb.dir hdir
  have hfree' := hb.entry_none hfree
  have hrec := hb.files _ r r' hr hr'
  have hne : ¬ (od = nd ∧ of = nf) := by
    rintro ⟨rfl, rfl⟩
    rw [hfree] at hentry
    exact absurd hentry (by simp)
  obtain ⟨v, hint, hfirst⟩ := replayOp_dirLink nd nf hr'
  have hlast : max b.nodes.inoLast (n.files r).fnode.ino = b.nodes.inoLast := by
    have hle := (hb.linked'.numbered r' (Nodes.links_pos_of_entry hentry')).2
    rw [hrec.tracks.ino] at hle
    exact max_eq_left hle
  -- the file with the new link, and the file as it is in the end
  generalize hk : b.nodes.setFile r' { b.nodes.files r' with
    vselectorHint := hint, refs := (b.nodes.files r').refs + 1 } = k at hfirst
  generalize hk' : b.nodes.setFile r' { b.nodes.files r' with vselectorHint := hint } = k'
  have hkdir : k.dirMap.lookup nd = some ndir' := by rw [← hk]; exact hdir'
  have hkdir' : k'.dirMap.lookup nd = some ndir' := by rw [← hk']; exact hdir'
  have hmid : Nodes.mk (k.setEntry nd nf r').dirMap (k.setEntry nd nf r').fileMap
      (max b.nodes.inoLast (n.files r).fnode.ino) (k.setEntry nd nf r').files
      (k.setEntry nd nf r').nextRef = k.setEntry nd nf r' := by
    rw [hlast, Nodes.setEntry_eq, ← hk]
    rfl
  have hfile : (k.setEntry nd nf r').files r' = { b.nodes.files r' with
      vselectorHint := hint, refs := (b.nodes.files r').refs + 1 } := by
    rw [Nodes.setEntry_files, ← hk, Nodes.setFile_files, if_pos rfl]
  have hsecond := replayOp_dirUnlink (d := od) (f := of) (r := r')
    (b := { b with vselector := v, nodes := k.setEntry nd nf r' }) (by
      show (k.setEntry nd nf r').entry od of = some r'
      rw [Nodes.entry_setEntry hkdir, if_neg hne, Nodes.entry_congr (n := b.nodes) (by rw [← hk]; rfl)]
      exact hentry') (by
      show 0 < ((k.setEntry nd nf r').files r').refs
      have hrefs := hb.linked'.refs r'
      rw [hfile]
      show 0 < (b.nodes.files r').refs + 1
      omega)
  have hend : (k.setEntry nd nf r').setFile r' { (k.setEntry nd nf r').files r' with
      refs := ((k.setEntry nd nf r').files r').refs - 1 } = k'.setEntry nd nf r' := by
    rw [Nodes.setFile_setEntry, hfile, ← hk, Nodes.setFile_setFile, ← hk']
    simp only [add_sub_cancel_right]
  simp only [hend] at hsecond
  rw [hmid] at hfirst
  refine ⟨_, (replay_two hfirst).trans hsecond, ?_⟩
  have hk'same : SameNames b.nodes k' := by
    rw [← hk']
    exact SameNames.setFile b.nodes rfl rfl
  have hk'entry : ∀ x y, k'.entry x y = b.nodes.entry x y := fun x y => by
    rw [← hk']
    rfl
  refine hb.moved od of nd nf (SameNames.moveEntry hentry hdir hfree)
    (hk'same.trans (SameNames.moveEntry (by rw [hk'entry]; exact hentry') hkdir'
      (by rw [hk'entry]; exact hfree'))) ?_ (fun x => ?_) (fun x y => ?_) (fun x y => ?_)
    hrec.tracks.ino (fun x => ?_) fun x => ?_
  · rw [Nodes.eraseEntry_files, Nodes.setEntry_files]
  · show (((k'.setEntry nd nf r').eraseEntry od of).files x).fnode = _
    rw [Nodes.eraseEntry_files, Nodes.setEntry_files, ← hk', Nodes.setFile_files]
    split
    case isTrue hx => rw [hx]
    case isFalse => rfl
  · rw [Nodes.entry_eraseEntry, Nodes.entry_setEntry hdir]
  · rw [← hk'entry]
    show ((k'.setEntry nd nf r').eraseEntry od of).entry x y = _
    rw [Nodes.entry_eraseEntry, Nodes.entry_setEntry hkdir']
  · rw [Nodes.eraseEntry_hasDir, Nodes.setEntry_hasDir]
  · show ((k'.setEntry nd nf r').eraseEntry od of).hasDir x = _
    rw [Nodes.eraseEntry_hasDir, Nodes.setEntry_hasDir, ← hk']
    rfl

end Replay

end Clab.Bluefs
