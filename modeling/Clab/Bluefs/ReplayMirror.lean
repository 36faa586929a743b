import Clab.Bluefs.Namespace
import Clab.Bluefs.Replay

/-!
# A replay beside the file system

What the replay of a log knows of the files and names of the BlueFS that writes it.
`Mirrors` relates the two: the names and the numbers agree, and each file is known
as of its last record. Each operation of the log takes the replay from the names
before a call to those behind it.
-/

namespace Clab.Bluefs

open Blk

/-! ## Fnodes -/

namespace Fnode

/-- Both describe the same file. -/
structure Same (g f : Fnode) : Prop where
  ino : g.ino = f.ino
  size : g.size = f.size
  mtime : g.mtime = f.mtime
  extents : g.extents = f.extents

/-- `g` is `f` as it was when it was recorded. Since then `f` was only appended to, and by no empty
extent. -/
def Tracks (g f : Fnode) : Prop :=
  ∃ base c, base.Indexed ∧ base.allocatedCommitted = base.allocated ∧ g.Matches base ∧
    g.ino = base.ino ∧ (∀ x ∈ c.appended, 0 < x.length) ∧ f = base.change c

variable {f g : Fnode}

theorem change_self (f : Fnode) : f.change ⟨[], f.size, f.mtime⟩ = f := rfl

/-- The size and the time are not looked at. -/
theorem claimExtents_stamped (f : Fnode) (es : List Extent) (size mtime : Nat) :
    { f with size := size, mtime := mtime }.claimExtents es =
      { f.claimExtents es with size := size, mtime := mtime } := by
  induction es generalizing f with
  | nil => rfl
  | cons e es ih =>
      have hstep : { f with size := size, mtime := mtime }.appendExtent e =
          { f.appendExtent e with size := size, mtime := mtime } := by
        unfold appendExtent
        cases f.extents.getLast? with
        | none => rfl
        | some last =>
            simp only
            split <;> rfl
      unfold claimExtents at ih ⊢
      rw [List.foldl_cons, List.foldl_cons, hstep, ih]

/-- A change on a change is one change. -/
theorem change_change (f : Fnode) (c d : Change) : (f.change c).change d = f.change (c.andThen d) := by
  unfold change Change.andThen
  rw [claimExtents_stamped]
  unfold claimExtents
  rw [List.foldl_append]

namespace Tracks

theorem ino (h : Tracks g f) : g.ino = f.ino := by
  obtain ⟨base, c, -, -, -, hino, -, rfl⟩ := h
  exact hino.trans (base.claimExtents_attrs c.appended).1.symm

theorem indexed (h : Tracks g f) : f.Indexed := by
  obtain ⟨base, c, hbase, -, -, -, -, rfl⟩ := h
  exact hbase.change c

/-- The file is appended to. -/
theorem change (h : Tracks g f) {c : Change} (hc : ∀ x ∈ c.appended, 0 < x.length) :
    Tracks g (f.change c) := by
  obtain ⟨base, d, hbase, hcommitted, hmatch, hino, hd, rfl⟩ := h
  refine ⟨base, d.andThen c, hbase, hcommitted, hmatch, hino, fun x hx => ?_, base.change_change d c⟩
  rcases List.mem_append.mp hx with hx | hx
  · exact hd x hx
  · exact hc x hx

/-- A fnode that is known as it is. -/
theorem of_matches (hf : f.Indexed) (hmatch : g.Matches f) (hino : g.ino = f.ino) :
    Tracks g f.resetDelta :=
  ⟨f.resetDelta, ⟨[], f.size, f.mtime⟩, ⟨hf.index, hf.allocated⟩, rfl,
    ⟨hmatch.extents, hmatch.index, hmatch.allocated⟩, hino, by simp, rfl⟩

/-- The record of the changes brings the replay up to date. -/
theorem applyInc (h : Tracks g f) :
    g.applyInc f.makeDelta = some (g.receive f) ∧ Tracks (g.receive f) f.resetDelta ∧
      Same (g.receive f) f := by
  have hino := h.ino
  have hindexed := h.indexed
  obtain ⟨base, c, hbase, hcommitted, hmatch, -, hc, rfl⟩ := h
  refine ⟨(applyInc_iff hbase hcommitted hmatch c).mpr (noEmptyNext_of_pos hc),
    of_matches hindexed ⟨rfl, rfl, rfl⟩ hino, ⟨hino, rfl, rfl, rfl⟩⟩

/-- A full record is the file as it is. -/
theorem decode (hf : f.Indexed) :
    Tracks (Fnode.decode {} f.ino f.size f.mtime f.extents) f.resetDelta ∧
      Same (Fnode.decode {} f.ino f.size f.mtime f.extents) f := by
  have hdecoded : (Fnode.decode {} f.ino f.size f.mtime f.extents).Indexed :=
    (recalcAllocated_consistent _).toIndexed
  exact ⟨of_matches hf (.of_indexed hdecoded hf rfl) rfl, ⟨rfl, rfl, rfl, rfl⟩⟩

end Tracks

end Fnode

/-! ## Names -/

namespace Nodes

/-- The number of the file that an entry points to. -/
def inoAt (n : Nodes) (d f : Bytes) : Option Nat := (n.entry d f).map fun r => (n.files r).fnode.ino

/-- The directory exists. -/
def hasDir (n : Nodes) (d : Bytes) : Bool := (n.dirMap.lookup d).isSome

/-- The number is in the inode table. -/
def hasIno (n : Nodes) (ino : Nat) : Bool := (n.fileMap.lookup ino).isSome

theorem setEntry_hasDir (n : Nodes) (d f : Bytes) (r : FileRef) (x : Bytes) :
    (n.setEntry d f r).hasDir x = n.hasDir x := by
  unfold setEntry hasDir
  cases hd : n.dirMap.lookup d with
  | none => rfl
  | some dir =>
      simp only [OrderedMap.lookup_insert]
      split
      case isTrue hx => rw [hx, hd]; rfl
      case isFalse => rfl

theorem eraseEntry_hasDir (n : Nodes) (d f x : Bytes) :
    (n.eraseEntry d f).hasDir x = n.hasDir x := by
  unfold eraseEntry hasDir
  cases hd : n.dirMap.lookup d with
  | none => rfl
  | some dir =>
      simp only [OrderedMap.lookup_insert]
      split
      case isTrue hx => rw [hx, hd]; rfl
      case isFalse => rfl

end Nodes

/-- Nothing of the file waits to be recorded. -/
def File.Clean (f : File) : Prop := f.isDirty = false ∧ f.dirtySeq = 0

/-- What the replay `m` knows of the file `r` under number `ino`, which is `r'` there. -/
structure Recorded (known : Set FileRef) (n m : Nodes) (ino : Nat) (r r' : FileRef) : Prop where
  number : (n.files r).fnode.ino = ino
  links : m.links r' = n.links r
  tracks : (m.files r').fnode.Tracks (n.files r).fnode
  same : ino ≠ 1 → r ∈ known ∨ (n.files r).Clean → (m.files r').fnode.Same (n.files r).fnode

/-- The replay `m` has the names of `n`, and knows its files as of their last records, which are
those of now for the files in `known` and for those that are clean. Its first file is the log. -/
structure Mirrors (known : Set FileRef) (n m : Nodes) : Prop where
  linked : Linked n
  linked' : Linked m
  inoLast : m.inoLast ≤ n.inoLast
  dirs : ∀ d, m.hasDir d = n.hasDir d
  names : ∀ d f, m.inoAt d f = n.inoAt d f
  inos : ∀ ino, m.hasIno ino = n.hasIno ino
  files : ∀ ino r r', n.fileMap.lookup ino = some r → m.fileMap.lookup ino = some r' →
    Recorded known n m ino r r'
  first : m.fileMap.lookup 1 = some 0

namespace Mirrors

variable {known known' : Set FileRef} {n m : Nodes} {ino : Nat} {r r' : FileRef}

theorem found (h : Mirrors known n m) (hr : n.fileMap.lookup ino = some r) :
    ∃ r', m.fileMap.lookup ino = some r' := by
  have hino := h.inos ino
  rw [Nodes.hasIno, Nodes.hasIno, hr] at hino
  exact Option.isSome_iff_exists.mp hino

theorem found' (h : Mirrors known n m) (hr' : m.fileMap.lookup ino = some r') :
    ∃ r, n.fileMap.lookup ino = some r := by
  have hino := h.inos ino
  rw [Nodes.hasIno, Nodes.hasIno, hr'] at hino
  exact Option.isSome_iff_exists.mp hino.symm

/-- The file of an entry is in the inode table, there and here. -/
theorem entry (h : Mirrors known n m) {d f : Bytes} (hentry : n.entry d f = some r) :
    ∃ r', m.entry d f = some r' ∧ n.fileMap.lookup (n.files r).fnode.ino = some r ∧
      m.fileMap.lookup (n.files r).fnode.ino = some r' ∧ (n.files r).fnode.ino ≠ 1 := by
  have hlinks := Nodes.links_pos_of_entry hentry
  have hnum := (h.linked.numbered r hlinks).1
  have hname := h.names d f
  rw [Nodes.inoAt, Nodes.inoAt, hentry] at hname
  obtain ⟨r', hentry', hino⟩ := Option.map_eq_some_iff.mp hname
  have hlinks' := Nodes.links_pos_of_entry hentry'
  exact ⟨r', hentry', (h.linked.filed _ r (by omega)).mpr ⟨hlinks, rfl⟩,
    (h.linked'.filed _ r' (by omega)).mpr ⟨hlinks', hino⟩, by omega⟩

/-- There is no entry there where there is none here. -/
theorem entry_none (h : Mirrors known n m) {d f : Bytes} (hentry : n.entry d f = none) :
    m.entry d f = none := by
  have hname := h.names d f
  rw [Nodes.inoAt, Nodes.inoAt, hentry] at hname
  exact Option.map_eq_none_iff.mp hname

theorem dir (h : Mirrors known n m) {d : Bytes} {dir : Dir} (hdir : n.dirMap.lookup d = some dir) :
    ∃ dir', m.dirMap.lookup d = some dir' := by
  have hd := h.dirs d
  rw [Nodes.hasDir, Nodes.hasDir, hdir] at hd
  exact Option.isSome_iff_exists.mp hd

theorem dir_none (h : Mirrors known n m) {d : Bytes} (hdir : n.dirMap.lookup d = none) :
    m.dirMap.lookup d = none := by
  have hd := h.dirs d
  rw [Nodes.hasDir, Nodes.hasDir, hdir] at hd
  exact Option.isSome_eq_false_iff.mp hd |> Option.isNone_iff_eq_none.mp

theorem weaken (h : Mirrors known n m) (hsub : known' ⊆ known) : Mirrors known' n m :=
  { h with files := fun ino r r' hr hr' =>
      { h.files ino r r' hr hr' with
        same := fun hne hk => (h.files ino r r' hr hr').same hne (hk.imp_left fun hx => hsub hx) } }

/-- Two files are one exactly where they are one in the replay. -/
theorem same_file (h : Mirrors known n m) {ino' : Nat} {x x' : FileRef}
    (hr : n.fileMap.lookup ino = some r) (hr' : m.fileMap.lookup ino = some r')
    (hx : n.fileMap.lookup ino' = some x) (hx' : m.fileMap.lookup ino' = some x') :
    x = r ↔ x' = r' := by
  have hrec := h.files ino r r' hr hr'
  have hrec' := h.files ino' x x' hx hx'
  constructor
  · rintro rfl
    have hino : ino' = ino := hrec'.number.symm.trans hrec.number
    rw [hino, hr'] at hx'
    exact (Option.some.inj hx').symm
  · rintro rfl
    have hino : ino' = ino := by
      rw [← hrec'.number, ← hrec'.tracks.ino, hrec.tracks.ino, hrec.number]
    rw [hino, hr] at hx
    exact (Option.some.inj hx).symm

/-- Files change on both sides, and the names of neither. -/
theorem transfer (h : Mirrors known n m) {n' m' : Nodes} (hn : SameNames n n') (hm : SameNames m m')
    (hdirs : ∀ d, m'.hasDir d = n'.hasDir d) (hnames : ∀ d f, m'.inoAt d f = n'.inoAt d f)
    (hfiles : ∀ ino r r', n.fileMap.lookup ino = some r → m.fileMap.lookup ino = some r' →
      (m'.files r').fnode.Tracks (n'.files r).fnode ∧
        (ino ≠ 1 → r ∈ known' ∨ (n'.files r).Clean →
          (m'.files r').fnode.Same (n'.files r).fnode)) : Mirrors known' n' m' where
  linked := hn.linked h.linked
  linked' := hm.linked h.linked'
  inoLast := by
    rw [hn.inoLast, hm.inoLast]
    exact h.inoLast
  dirs := hdirs
  names := hnames
  inos ino := by
    rw [Nodes.hasIno, Nodes.hasIno, hn.fileMap, hm.fileMap]
    exact h.inos ino
  files ino r r' hr hr' := by
    rw [hn.fileMap] at hr
    rw [hm.fileMap] at hr'
    have hrec := h.files ino r r' hr hr'
    obtain ⟨htracks, hsame⟩ := hfiles ino r r' hr hr'
    exact ⟨by rw [hn.ino]; exact hrec.number, by rw [hn.links, hm.links]; exact hrec.links, htracks,
      hsame⟩
  first := by
    rw [hm.fileMap]
    exact h.first

/-! ### Records of files -/

theorem setFile_hasDir (n : Nodes) (r : FileRef) (f : File) : (n.setFile r f).hasDir = n.hasDir := rfl

theorem setFile_inoAt (n : Nodes) {f : File} (hino : f.fnode.ino = (n.files r).fnode.ino) :
    (n.setFile r f).inoAt = n.inoAt := by
  funext d x
  show ((n.entry d x).map fun r' => ((n.setFile r f).files r').fnode.ino) = _
  refine Option.map_congr fun r' _ => ?_
  rw [Nodes.setFile_files]
  split
  case isTrue hr => rw [hr]; exact hino
  case isFalse => rfl

/-- A file changes here, and the replay still knows it as it was. -/
theorem setFile (h : Mirrors known n m) {f : File} (hrefs : f.refs = (n.files r).refs)
    (hino : f.fnode.ino = (n.files r).fnode.ino)
    (htracks : ∀ g : Fnode, g.Tracks (n.files r).fnode → g.Tracks f.fnode)
    (hclean : (n.files r).fnode.ino ≠ 1 → r ∈ known ∨ f.Clean →
      (r ∈ known ∨ (n.files r).Clean) ∧ f.fnode = (n.files r).fnode) :
    Mirrors known (n.setFile r f) m := by
  refine h.transfer (SameNames.setFile n hrefs hino) (.refl m)
    (fun d => by rw [setFile_hasDir]; exact h.dirs d)
    (fun d x => by rw [setFile_inoAt n hino]; exact h.names d x) fun ino x x' hx hx' => ?_
  have hrec := h.files ino x x' hx hx'
  rw [Nodes.setFile_files]
  split
  case isFalse => exact ⟨hrec.tracks, hrec.same⟩
  case isTrue hxr =>
    subst hxr
    refine ⟨htracks _ hrec.tracks, fun hne hk => ?_⟩
    obtain ⟨hbefore, hsame⟩ := hclean (by rw [hrec.number]; exact hne) hk
    rw [hsame]
    exact hrec.same hne hbefore

/-- A file is recorded as it is. -/
theorem record (h : Mirrors known n m) (hr : n.fileMap.lookup ino = some r)
    (hr' : m.fileMap.lookup ino = some r') {f g : File} (hrefs : f.refs = (n.files r).refs)
    (hrefs' : g.refs = (m.files r').refs) (hino : f.fnode.ino = ino)
    (htracks : g.fnode.Tracks f.fnode) (hsame : g.fnode.Same f.fnode) :
    Mirrors (insert r known) (n.setFile r f)
      { m.setFile r' g with inoLast := max m.inoLast ino } := by
  have hrec := h.files ino r r' hr hr'
  have hnumber : f.fnode.ino = (n.files r).fnode.ino := hino.trans hrec.number.symm
  have hnumber' : g.fnode.ino = (m.files r').fnode.ino := by
    rw [htracks.ino, hrec.tracks.ino, hnumber]
  have hlast : max m.inoLast ino = m.inoLast := by
    by_cases hone : ino = 1
    · rw [hone]
      exact max_eq_left h.linked'.started
    · have hlinks := (h.linked'.filed ino r' hone).mp hr'
      have hle := (h.linked'.numbered r' hlinks.1).2
      rw [hlinks.2] at hle
      exact max_eq_left hle
  rw [hlast]
  refine h.transfer (SameNames.setFile n hrefs hnumber) (SameNames.setFile m hrefs' hnumber')
    (fun d => by rw [setFile_hasDir]; exact h.dirs d) (fun d x => ?_) fun ino' x x' hx hx' => ?_
  · rw [setFile_inoAt n hnumber]
    exact (congrFun (congrFun (setFile_inoAt m hnumber') d) x).trans (h.names d x)
  · have hfile := h.same_file hr hr' hx hx'
    have hrec' := h.files ino' x x' hx hx'
    show ((m.setFile r' g).files x').fnode.Tracks ((n.setFile r f).files x).fnode ∧
      (ino' ≠ 1 → x ∈ insert r known ∨ ((n.setFile r f).files x).Clean →
        ((m.setFile r' g).files x').fnode.Same ((n.setFile r f).files x).fnode)
    rw [Nodes.setFile_files, Nodes.setFile_files]
    by_cases hxr : x = r
    · rw [if_pos hxr, if_pos (hfile.mp hxr)]
      exact ⟨htracks, fun _ _ => hsame⟩
    · rw [if_neg hxr, if_neg fun hx' => hxr (hfile.mpr hx')]
      exact ⟨hrec'.tracks, fun hne hk => hrec'.same hne (hk.imp_left fun hx => hx.resolve_left hxr)⟩

end Mirrors

/-! ## Operations of the log -/

section Replay

variable {V A : Type} [VolumeSelector V] {b : BlueFS V A} {known : Set FileRef} {n : Nodes}
  {ino : Nat} {r : FileRef}

/-- The operations replay to a state that mirrors `n'` in place of `n`. -/
def Follows (known : Set FileRef) (n : Nodes) (ops : List LogOp) (known' : Set FileRef)
    (n' : Nodes) : Prop :=
  ∀ (V A : Type) [VolumeSelector V] (b : BlueFS V A), Mirrors known n b.nodes →
    ∃ b', ops.foldlM BlueFS.replayOp b = some b' ∧ Mirrors known' n' b'.nodes

namespace Follows

variable {known' known'' : Set FileRef} {n' n'' : Nodes} {ops ops' : List LogOp}

/-- Nothing is logged. -/
theorem none (h : ∀ {m}, Mirrors known n m → Mirrors known' n' m) :
    Follows known n [] known' n' :=
  fun _ _ _ b hb => ⟨b, rfl, h hb⟩

theorem refl (known : Set FileRef) (n : Nodes) : Follows known n [] known n :=
  Follows.none id

theorem trans (h : Follows known n ops known' n') (h' : Follows known' n' ops' known'' n'') :
    Follows known n (ops ++ ops') known'' n'' := by
  intro V A _ b hb
  obtain ⟨b', hops, hb'⟩ := h V A b hb
  obtain ⟨b'', hops', hb''⟩ := h' V A b' hb'
  refine ⟨b'', ?_, hb''⟩
  rw [List.foldlM_append, hops]
  exact hops'

end Follows

theorem getFile_found {m : Nodes} {r' : FileRef} (hr' : m.fileMap.lookup ino = some r') :
    m.getFile ino = (r', m) := by
  rw [Nodes.getFile, hr']

theorem replayOp_fileUpdate {r' : FileRef} (hr' : b.nodes.fileMap.lookup ino = some r')
    (size mtime : Nat) (extents : List Extent) :
    ∃ v, b.replayOp (.fileUpdate ino size mtime extents) = some { b with
      vselector := v
      nodes := { b.nodes.setFile r' { b.nodes.files r' with
        fnode := Fnode.decode {} ino size mtime extents } with
        inoLast := max b.nodes.inoLast ino } } := by
  unfold BlueFS.replayOp
  simp only [getFile_found hr']
  exact ⟨_, rfl⟩

theorem replayOp_fileUpdateInc {r' : FileRef} {delta : FnodeDelta} {g : Fnode}
    (hr' : b.nodes.fileMap.lookup delta.ino = some r')
    (happly : (b.nodes.files r').fnode.applyInc delta = some g) :
    b.replayOp (.fileUpdateInc delta) = some { b with
      nodes := { b.nodes.setFile r' { b.nodes.files r' with fnode := g } with
        inoLast := max b.nodes.inoLast delta.ino } } := by
  unfold BlueFS.replayOp
  simp only [getFile_found hr', happly]
  rfl

/-- A full record of a file. -/
theorem follows_fileUpdate (known : Set FileRef) (hr : n.fileMap.lookup ino = some r) (fnode : Fnode)
    (hino : fnode.ino = ino) (hfnode : (n.files r).fnode.Indexed → fnode.Indexed) {f : File}
    (hf : f.fnode = fnode.resetDelta) (hrefs : f.refs = (n.files r).refs) :
    Follows known n [.fileUpdate ino fnode.size fnode.mtime fnode.extents] (insert r known)
      (n.setFile r f) := by
  intro V A _ b hb
  obtain ⟨r', hr'⟩ := hb.found hr
  obtain ⟨htracks, hsame⟩ :=
    Fnode.Tracks.decode (hfnode (hb.files ino r r' hr hr').tracks.indexed)
  obtain ⟨v, hop⟩ := replayOp_fileUpdate hr' fnode.size fnode.mtime fnode.extents
  rw [hino] at htracks hsame
  refine ⟨_, by rw [List.foldlM_cons, hop]; rfl, ?_⟩
  exact hb.record (f := f) hr hr' hrefs rfl (by rw [hf]; exact hino) (by rw [hf]; exact htracks)
    (by rw [hf]; exact ⟨hsame.ino, hsame.size, hsame.mtime, hsame.extents⟩)

/-- A record of what was appended to a file. -/
theorem follows_fileUpdateInc (known : Set FileRef) (hr : n.fileMap.lookup ino = some r)
    (fnode : Fnode) (hino : fnode.ino = (n.files r).fnode.ino)
    (htracks : ∀ g : Fnode, g.Tracks (n.files r).fnode → g.Tracks fnode) {f : File}
    (hf : f.fnode = fnode.resetDelta) (hrefs : f.refs = (n.files r).refs) :
    Follows known n [.fileUpdateInc fnode.makeDelta] (insert r known) (n.setFile r f) := by
  intro V A _ b hb
  obtain ⟨r', hr'⟩ := hb.found hr
  have hrec := hb.files ino r r' hr hr'
  have hnumber : fnode.ino = ino := hino.trans hrec.number
  obtain ⟨happly, hreset, hsame⟩ := (htracks _ hrec.tracks).applyInc
  have hdelta : fnode.makeDelta.ino = ino := hnumber
  have hop := replayOp_fileUpdateInc (b := b) (by rw [hdelta]; exact hr') happly
  rw [hdelta] at hop
  refine ⟨_, by rw [List.foldlM_cons, hop]; rfl, ?_⟩
  exact hb.record (f := f) hr hr' hrefs rfl (by rw [hf]; exact hnumber)
    (by rw [hf]; exact hreset)
    (by rw [hf]; exact ⟨hsame.ino, hsame.size, hsame.mtime, hsame.extents⟩)

end Replay

end Clab.Bluefs
