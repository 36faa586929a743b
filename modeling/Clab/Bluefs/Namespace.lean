import Clab.Bluefs.State

/-!
# Names, links and files

The directory operations of BlueFS. `Linked` says that the reference count of a
file is the number of entries that point to it and that the inode table holds
inode 1 and the files with an entry; every operation keeps it, except a rename
onto a name that exists.
-/

namespace Clab.Bluefs

open Blk

namespace BlueFS

variable {V A : Type}

/-! ## Operations -/

/-- `mkdir`. -/
def mkdir (s : BlueFS V A) (dirname : Bytes) : Int × BlueFS V A :=
  match s.nodes.dirMap.lookup dirname with
  | some _ => (-eexist, s)
  | none =>
      let nodes := { s.nodes with dirMap := s.nodes.dirMap.insert dirname .empty }
      (0, { s with nodes }.logOp (.dirCreate dirname))

/-- `rmdir`. -/
def rmdir (s : BlueFS V A) (dirname : Bytes) : Int × BlueFS V A :=
  match s.nodes.dirMap.lookup dirname with
  | none => (-enoent, s)
  | some dir =>
      if dir.entries ≠ [] then (-enotempty, s)
      else
        let nodes := { s.nodes with dirMap := s.nodes.dirMap.erase dirname }
        (0, { s with nodes }.logOp (.dirRemove dirname))

/-- `rename`. -/
def rename (s : BlueFS V A) (oldDirname oldFilename newDirname newFilename : Bytes) :
    Int × BlueFS V A :=
  match s.nodes.entry oldDirname oldFilename with
  | none => (-enoent, s)
  | some r =>
      match s.nodes.dirMap.lookup newDirname with
      | none => (-enoent, s)
      | some ndir =>
          let s := match ndir.lookup newFilename with
            | some target => if target ≠ r then s.logOp (.dirUnlink newDirname newFilename) else s
            | none => s
          let nodes := s.nodes.setEntry newDirname newFilename r
          let s := { s with nodes := nodes.eraseEntry oldDirname oldFilename }
          let s := s.logOp (.dirLink newDirname newFilename (s.nodes.files r).fnode.ino)
          (0, s.logOp (.dirUnlink oldDirname oldFilename))

/-- `lock_file`; the lock names the file. -/
def lockFile (s : BlueFS V A) (dirname filename : Bytes) : Int × Option FileRef × BlueFS V A :=
  match s.nodes.dirMap.lookup dirname with
  | none => (-enoent, none, s)
  | some dir =>
      match dir.lookup filename with
      | none =>
          let (r, nodes) := s.nodes.createFile dirname filename 0
          (0, some r,
            { s with nodes := nodes.setFile r { nodes.files r with locked := true } })
      | some r =>
          if (s.nodes.files r).locked then (-enolck, none, s)
          else
            (0, some r,
              { s with nodes := s.nodes.setFile r { s.nodes.files r with locked := true } })

/-- `unlock_file`; `none` is a failed assertion. -/
def unlockFile (s : BlueFS V A) (lock : FileRef) : Option (Int × BlueFS V A) :=
  if (s.nodes.files lock).locked then
    some (0, { s with nodes := s.nodes.setFile lock { s.nodes.files lock with locked := false } })
  else none

/-- Take a file out of the list of a transaction's dirty files. -/
def retract (files : OrderedMap Nat (List FileRef)) (seq : Nat) (r : FileRef) :
    OrderedMap Nat (List FileRef) :=
  match files.lookup seq with
  | none => files
  | some v =>
      let rest := v.filter (· ≠ r)
      if rest = [] then files.erase seq else files.insert seq rest

/-- A deleted file needs no record of its metadata any more. -/
def retractDirty (s : BlueFS V A) (r : FileRef) : BlueFS V A :=
  let f := s.nodes.files r
  if s.dirty.seqStable < f.dirtySeq then
    { s with
      nodes := s.nodes.setFile r { f with dirtySeq := s.dirty.seqStable }
      dirty := { s.dirty with files := retract s.dirty.files f.dirtySeq r } }
  else s

variable [VolumeSelector V]

/-- What `_drop_link` does when the last link is gone. -/
def removeFile (s : BlueFS V A) (r : FileRef) : BlueFS V A :=
  let f := s.nodes.files r
  let s := { s with vselector := VolumeSelector.subUsage s.vselector f.vselectorHint f.fnode }
  let s := s.logOp (.fileRemove f.fnode.ino)
  let nodes := { s.nodes with fileMap := s.nodes.fileMap.erase f.fnode.ino }
  let s := { s with nodes := nodes.setFile r { f with deleted := true } }
  (s.pendRelease f.fnode.extents).retractDirty r

/-- `--file->refs`. -/
def lowerRefs (s : BlueFS V A) (r : FileRef) : BlueFS V A :=
  let f := s.nodes.files r
  { s with nodes := s.nodes.setFile r { f with refs := f.refs - 1 } }

/-- `_drop_link`. -/
def dropLink (s : BlueFS V A) (r : FileRef) : BlueFS V A :=
  let s := s.lowerRefs r
  if (s.nodes.files r).refs = 0 then s.removeFile r else s

/-- `unlink`. -/
def unlink (s : BlueFS V A) (dirname filename : Bytes) : Int × BlueFS V A :=
  match s.nodes.entry dirname filename with
  | none => (-enoent, s)
  | some r =>
      let s := { s with nodes := s.nodes.eraseEntry dirname filename }
      (0, (s.logOp (.dirUnlink dirname filename)).dropLink r)

/-- The truncation in `open_for_write`: the extents it frees, and the state without them. -/
def dropExtents (s : BlueFS V A) (r : FileRef) : List Extent × BlueFS V A :=
  let f := s.nodes.files r
  let vselector := VolumeSelector.subUsage s.vselector f.vselectorHint f.fnode
  let fnode := { f.fnode with size := 0 }.clearExtents
  (f.fnode.extents, { s with nodes := s.nodes.setFile r { f with fnode }, vselector })

/-- `file->fnode.mtime = 0` and the record of the file. -/
def stampFile (s : BlueFS V A) (r : FileRef) : BlueFS V A :=
  let f := s.nodes.files r
  { s with nodes := s.nodes.setFile r { f with fnode := { f.fnode with mtime := 0 } } }.logFileUpdate r

/-- `open_for_write`; the writer starts at the end of the file. -/
def openForWrite (s : BlueFS V A) (dirname filename : Bytes) (overwrite : Bool) :
    Int × Option FileWriter × BlueFS V A :=
  match s.nodes.dirMap.lookup dirname with
  | none => (-enoent, none, s)
  | some dir =>
      match dir.lookup filename with
      | none =>
          if overwrite then (-enoent, none, s)
          else
            let hint := VolumeSelector.getHintByDir s.vselector dirname
            let (r, nodes) := s.nodes.createFile dirname filename hint
            let s := { s with nodes }.stampFile r
            let s := s.logOp (.dirLink dirname filename (s.nodes.files r).fnode.ino)
            (0, some { file := r, pos := (s.nodes.files r).fnode.size }, s)
      | some r =>
          let (freed, s) := if overwrite then ([], s) else s.dropExtents r
          let s := (s.stampFile r).pendRelease freed
          (0, some { file := r, pos := (s.nodes.files r).fnode.size }, s)

end BlueFS

/-! ## The invariant -/

/-- Reference counts, directory entries and the inode table agree. -/
structure Linked (n : Nodes) : Prop where
  refs : ∀ r, (n.files r).refs = n.links r
  log : ∃ l, n.fileMap.lookup 1 = some l ∧ n.links l = 0 ∧ l < n.nextRef
  filed : ∀ ino r, ino ≠ 1 →
    (n.fileMap.lookup ino = some r ↔ 0 < n.links r ∧ (n.files r).fnode.ino = ino)
  numbered : ∀ r, 0 < n.links r → 1 < (n.files r).fnode.ino ∧ (n.files r).fnode.ino ≤ n.inoLast
  fresh : ∀ r, n.nextRef ≤ r → n.links r = 0
  started : 1 ≤ n.inoLast

/-- What `Linked` reads is the same in both. -/
structure SameNames (n n' : Nodes) : Prop where
  links : ∀ r, n'.links r = n.links r
  fileMap : n'.fileMap = n.fileMap
  inoLast : n'.inoLast = n.inoLast
  nextRef : n'.nextRef = n.nextRef
  refs : ∀ r, (n'.files r).refs = (n.files r).refs
  ino : ∀ r, (n'.files r).fnode.ino = (n.files r).fnode.ino

namespace SameNames

variable {n n' n'' : Nodes}

theorem refl (n : Nodes) : SameNames n n :=
  ⟨fun _ => rfl, rfl, rfl, rfl, fun _ => rfl, fun _ => rfl⟩

theorem trans (h : SameNames n n') (h' : SameNames n' n'') : SameNames n n'' :=
  ⟨fun r => (h'.links r).trans (h.links r), h'.fileMap.trans h.fileMap,
    h'.inoLast.trans h.inoLast, h'.nextRef.trans h.nextRef,
    fun r => (h'.refs r).trans (h.refs r), fun r => (h'.ino r).trans (h.ino r)⟩

theorem linked (h : SameNames n n') (hn : Linked n) : Linked n' := by
  constructor
  case refs => intro r; rw [h.refs, h.links]; exact hn.refs r
  case log =>
    obtain ⟨l, hl, hlinks, hmade⟩ := hn.log
    exact ⟨l, by rw [h.fileMap]; exact hl, by rw [h.links]; exact hlinks,
      by rw [h.nextRef]; exact hmade⟩
  case filed => intro ino r hino; rw [h.fileMap, h.links, h.ino]; exact hn.filed ino r hino
  case numbered => intro r; rw [h.links, h.ino, h.inoLast]; exact hn.numbered r
  case fresh => intro r; rw [h.nextRef, h.links]; exact hn.fresh r
  case started => rw [h.inoLast]; exact hn.started

/-- A file changed in neither its reference count nor its number. -/
theorem setFile (n : Nodes) {r : FileRef} {f : File} (hrefs : f.refs = (n.files r).refs)
    (hino : f.fnode.ino = (n.files r).fnode.ino) : SameNames n (n.setFile r f) := by
  refine ⟨fun _ => rfl, rfl, rfl, rfl, fun x => ?_, fun x => ?_⟩ <;>
    rw [Nodes.setFile_files] <;> split
  case refine_1.isTrue h => rw [h]; exact hrefs
  case refine_2.isTrue h => rw [h]; exact hino
  all_goals rfl

/-- A new empty directory. -/
theorem makeDir (n : Nodes) {d : Bytes} (hnone : n.dirMap.lookup d = none) :
    SameNames n { n with dirMap := n.dirMap.insert d .empty } := by
  refine ⟨fun r => ?_, rfl, rfl, rfl, fun _ => rfl, fun _ => rfl⟩
  have hsum := n.dirMap.sum_insert (fun _ dir => dir.sum fun _ r' => if r' = r then 1 else 0) d
    .empty
  rw [OrderedMap.weight, hnone] at hsum
  exact hsum

/-- An empty directory removed. -/
theorem removeDir (n : Nodes) {d : Bytes} {dir : Dir} (hdir : n.dirMap.lookup d = some dir)
    (hempty : dir.entries = []) : SameNames n { n with dirMap := n.dirMap.erase d } := by
  refine ⟨fun r => ?_, rfl, rfl, rfl, fun _ => rfl, fun _ => rfl⟩
  have hzero : dir.sum (fun _ r' => if r' = r then 1 else 0) = 0 := by
    rw [OrderedMap.sum, hempty]
    rfl
  have hsum := n.dirMap.sum_erase (fun _ dir => dir.sum fun _ r' => if r' = r then 1 else 0) d
  rw [OrderedMap.weight, hdir, Option.map_some, Option.getD_some, hzero] at hsum
  exact hsum

/-- An entry moved to a name that is free. -/
theorem moveEntry {n : Nodes} {d f d' f' : Bytes} {r : FileRef} {dir : Dir}
    (hentry : n.entry d f = some r) (hdir : n.dirMap.lookup d' = some dir)
    (hfree : n.entry d' f' = none) : SameNames n ((n.setEntry d' f' r).eraseEntry d f) := by
  have hlinks : ∀ x, ((n.setEntry d' f' r).eraseEntry d f).links x = n.links x := by
    intro x
    have hset := Nodes.links_setEntry (f := f') (r := r) hdir x
    have herase := (n.setEntry d' f' r).links_eraseEntry d f x
    have hne : ¬ (d = d' ∧ f = f') := by
      rintro ⟨rfl, rfl⟩
      rw [hfree] at hentry
      exact absurd hentry (by simp)
    rw [hfree, if_neg (by simp)] at hset
    rw [Nodes.entry_setEntry hdir, if_neg hne, hentry] at herase
    simp only [Option.some.injEq] at herase
    omega
  rw [Nodes.eraseEntry_eq, Nodes.setEntry_eq] at *
  exact ⟨hlinks, rfl, rfl, rfl, fun _ => rfl, fun _ => rfl⟩

end SameNames

/-! ## The steps on the nodes -/

namespace Linked

variable {n : Nodes}

/-- A file is in the inode table at most once. -/
theorem ino_inj (h : Linked n) {r r' : FileRef} (hr : 0 < n.links r) (hr' : 0 < n.links r')
    (hino : (n.files r).fnode.ino = (n.files r').fnode.ino) : r = r' := by
  have hne : (n.files r).fnode.ino ≠ 1 := by
    have := (h.numbered r hr).1
    omega
  have hl := (h.filed _ r hne).mpr ⟨hr, rfl⟩
  have hl' := (h.filed _ r' hne).mpr ⟨hr', hino.symm⟩
  exact Option.some.inj (hl.symm.trans hl')

end Linked

/-- What `createFile` leaves. -/
structure Created (n n' : Nodes) (d f : Bytes) (r : FileRef) : Prop where
  ref : r = n.nextRef
  fileMap : n'.fileMap = n.fileMap.insert (n.inoLast + 1) r
  inoLast : n'.inoLast = n.inoLast + 1
  nextRef : n'.nextRef = n.nextRef + 1
  refs : (n'.files r).refs = 1
  fnode : (n'.files r).fnode = { ino := n.inoLast + 1 }
  others : ∀ x, x ≠ r → n'.files x = n.files x
  entry : ∀ d' f', n'.entry d' f' = if d' = d ∧ f' = f then some r else n.entry d' f'
  links : ∀ x, n'.links x = n.links x + if r = x then 1 else 0

theorem Nodes.createFile_created {n : Nodes} {d f : Bytes} {dir : Dir}
    (hdir : n.dirMap.lookup d = some dir) (hnone : dir.lookup f = none) (hint : Hint) :
    Created n (n.createFile d f hint).2 d f (n.createFile d f hint).1 := by
  have hentry : n.entry d f = none := by
    rw [Nodes.entry, hdir]
    exact hnone
  -- the nodes just before the name is entered
  generalize hm : ({ n with inoLast := n.inoLast + 1 }.addFile (n.inoLast + 1)
    { fnode := { ino := n.inoLast + 1 }, vselectorHint := hint, refs := 1 }).2 = m
  have hmdir : m.dirMap = n.dirMap := by rw [← hm]; rfl
  have hcreate : n.createFile d f hint = (n.nextRef, m.setEntry d f n.nextRef) := by
    rw [← hm]
    rfl
  rw [hcreate]
  have hset := m.setEntry_eq d f n.nextRef
  have hmlookup : m.dirMap.lookup d = some dir := by rw [hmdir]; exact hdir
  constructor
  case ref => rfl
  case fileMap => rw [hset, ← hm]; rfl
  case inoLast => rw [hset, ← hm]; rfl
  case nextRef => rw [hset, ← hm]; rfl
  case refs => rw [hset, ← hm]; simp [Nodes.addFile]
  case fnode => rw [hset, ← hm]; simp [Nodes.addFile]
  case others => intro x hx; rw [hset, ← hm]; simp [Nodes.addFile, hx]
  case entry =>
    intro d' f'
    rw [Nodes.entry_setEntry hmlookup, Nodes.entry_congr hmdir]
  case links =>
    intro x
    have hlinks := Nodes.links_setEntry (f := f) (r := n.nextRef) hmlookup x
    rw [Nodes.entry_congr hmdir, hentry, if_neg (by simp), Nat.add_zero,
      Nodes.links_congr hmdir] at hlinks
    exact hlinks

theorem Linked.created {n n' : Nodes} {d f : Bytes} {r : FileRef} (h : Linked n)
    (hc : Created n n' d f r) : Linked n' := by
  have hnew : n.links r = 0 := h.fresh r (by rw [hc.ref])
  constructor
  case refs =>
    intro x
    rw [hc.links]
    by_cases hx : x = r
    · subst hx
      rw [hc.refs, hnew]
      simp
    · rw [hc.others x hx, h.refs x, if_neg (Ne.symm hx)]
      simp
  case log =>
    obtain ⟨l, hl, hlinks, hmade⟩ := h.log
    have hne : r ≠ l := by rw [hc.ref]; exact (Nat.ne_of_lt hmade).symm
    have hino : 1 ≠ n.inoLast + 1 := by have := h.started; omega
    refine ⟨l, ?_, ?_, ?_⟩
    · rw [hc.fileMap, OrderedMap.lookup_insert, if_neg hino]
      exact hl
    · rw [hc.links, hlinks, if_neg hne]
    · rw [hc.nextRef]
      exact Nat.lt_succ_of_lt hmade
  case filed =>
    intro ino x hino
    rw [hc.fileMap, OrderedMap.lookup_insert, hc.links]
    by_cases hx : r = x
    · subst hx
      rw [hc.fnode, if_pos rfl, hnew]
      by_cases hi : ino = n.inoLast + 1
      · simp [hi]
      · rw [if_neg hi, h.filed ino r hino, hnew]
        simp [Ne.symm hi]
    · rw [if_neg hx, Nat.add_zero, hc.others x (Ne.symm hx)]
      by_cases hi : ino = n.inoLast + 1
      · -- the number is above every number in use
        rw [if_pos hi]
        refine iff_of_false (fun heq => hx (Option.some.inj heq)) ?_
        rintro ⟨hlinks, heq⟩
        have := (h.numbered x hlinks).2
        omega
      · rw [if_neg hi]
        exact h.filed ino x hino
  case numbered =>
    intro x hlinks
    rw [hc.inoLast]
    by_cases hx : x = r
    · subst hx
      rw [hc.fnode]
      have hstarted := h.started
      show 1 < n.inoLast + 1 ∧ n.inoLast + 1 ≤ n.inoLast + 1
      omega
    · rw [hc.links, if_neg (Ne.symm hx), Nat.add_zero] at hlinks
      rw [hc.others x hx]
      have := h.numbered x hlinks
      omega
  case fresh =>
    intro x hx
    rw [hc.nextRef] at hx
    have hne : r ≠ x := by rw [hc.ref]; exact Nat.ne_of_lt hx
    rw [hc.links, if_neg hne]
    exact h.fresh x (Nat.le_of_succ_le hx)
  case started => rw [hc.inoLast]; exact Nat.le_add_left _ _

/-! ### Links dropped -/

/-- One entry of `r` is gone and its count lowered; it leaves the inode table with the last. -/
structure Dropped (n n' : Nodes) (r : FileRef) : Prop where
  linked : 0 < n.links r
  links : ∀ x, n'.links x + (if x = r then 1 else 0) = n.links x
  refs : ∀ x, (n'.files x).refs = (n.files x).refs - if x = r then 1 else 0
  fnode : ∀ x, (n'.files x).fnode = (n.files x).fnode
  fileMap : n'.fileMap = if n.links r = 1 then n.fileMap.erase (n.files r).fnode.ino
    else n.fileMap
  inoLast : n'.inoLast = n.inoLast
  nextRef : n'.nextRef = n.nextRef

theorem Linked.dropped {n n' : Nodes} {r : FileRef} (h : Linked n) (hd : Dropped n n' r) :
    Linked n' := by
  obtain ⟨hr, hlinks, hrefs, hfnode, hmap, hlast, hnext⟩ := hd
  have hino : ∀ x, (n'.files x).fnode.ino = (n.files x).fnode.ino := fun x => by rw [hfnode]
  have hle : ∀ x, n'.links x ≤ n.links x := fun x => by have := hlinks x; omega
  have hnum := h.numbered r hr
  constructor
  case refs =>
    intro x
    have hx := hlinks x
    rw [hrefs, h.refs]
    split at hx
    case isTrue heq => rw [if_pos heq]; omega
    case isFalse hne => rw [if_neg hne]; omega
  case log =>
    obtain ⟨l, hl, hzero, hmade⟩ := h.log
    refine ⟨l, ?_, Nat.le_zero.mp (hzero ▸ hle l), by rw [hnext]; exact hmade⟩
    rw [hmap]
    split
    case isTrue => rw [OrderedMap.lookup_erase, if_neg (by omega)]; exact hl
    case isFalse => exact hl
  case filed =>
    intro ino x hne
    have hx := hlinks x
    rw [hmap, hino]
    split
    case isTrue hone =>
      rw [OrderedMap.lookup_erase]
      by_cases hxr : x = r
      · subst hxr
        rw [if_pos rfl] at hx
        have hzero : n'.links x = 0 := by omega
        rw [hzero]
        refine iff_of_false ?_ (by omega)
        split
        case isTrue => simp
        case isFalse hi =>
          intro hl
          exact hi ((h.filed ino x hne).mp hl).2.symm
      · rw [if_neg hxr, Nat.add_zero] at hx
        rw [hx]
        split
        case isTrue hi =>
          -- two files of one number would be the same
          refine iff_of_false (by simp) ?_
          rintro ⟨hpos, heq⟩
          exact hxr (h.ino_inj hpos hr (heq.trans hi))
        case isFalse => exact h.filed ino x hne
    case isFalse hmany =>
      rw [h.filed ino x hne]
      by_cases hxr : x = r
      · subst hxr
        rw [if_pos rfl] at hx
        exact and_congr_left' (by omega)
      · rw [if_neg hxr, Nat.add_zero] at hx
        rw [hx]
  case numbered =>
    intro x hpos
    rw [hino, hlast]
    exact h.numbered x (by have := hle x; omega)
  case fresh =>
    intro x hx
    rw [hnext] at hx
    exact Nat.le_zero.mp (h.fresh x hx ▸ hle x)
  case started => rw [hlast]; exact h.started

/-! ## Extents queued for release -/

/-- `pending_release`, by device. -/
abbrev Pending := Nat → OrderedMap Nat Nat

/-- Where an extent stands. -/
def Extent.key (e : Extent) : Nat × Nat := (e.bdev, e.offset)

theorem queueRelease_of_notMem {es : List Extent} {b o : Nat}
    (h : ∀ e ∈ es, e.key ≠ (b, o)) (p : Pending) :
    (BlueFS.queueRelease p es b).lookup o = (p b).lookup o := by
  induction es generalizing p with
  | nil => rfl
  | cons e es ih =>
      have he : e.key ≠ (b, o) := h e (by simp)
      have hrest := ih (fun e' he' => h e' (by simp [he']))
        (Function.update p e.bdev ((p e.bdev).insertNew e.offset e.length))
      refine Eq.trans hrest ?_
      by_cases hb : b = e.bdev
      · subst hb
        have ho : o ≠ e.offset := fun ho => he (by rw [Extent.key, ho])
        rw [Function.update_self, OrderedMap.lookup_insertNew, if_neg ho]
      · rw [Function.update_of_ne hb]

/-- Extents at different places that are not pending are all queued. -/
theorem queueRelease_of_mem {es : List Extent} (hdup : (es.map Extent.key).Nodup) (p : Pending)
    (hnew : ∀ e ∈ es, (p e.bdev).lookup e.offset = none) {e : Extent} (he : e ∈ es) :
    (BlueFS.queueRelease p es e.bdev).lookup e.offset = some e.length := by
  induction es generalizing p with
  | nil => simp at he
  | cons x es ih =>
      obtain ⟨hx, hdup⟩ := List.nodup_cons.mp hdup
      have hapart : ∀ e' ∈ es, e'.key ≠ x.key := fun e' he' heq =>
        hx (heq ▸ List.mem_map_of_mem he')
      rcases List.mem_cons.mp he with rfl | he
      · refine Eq.trans (queueRelease_of_notMem hapart _) ?_
        show (Function.update p e.bdev _ e.bdev).lookup e.offset = _
        rw [Function.update_self, OrderedMap.lookup_insertNew, if_pos rfl, hnew e (by simp)]
        rfl
      · refine ih hdup _ (fun e' he' => ?_) he
        rw [← hnew e' (by simp [he'])]
        have hone : ∀ y ∈ [x], y.key ≠ (e'.bdev, e'.offset) := fun y hy => by
          rw [List.mem_singleton.mp hy]
          exact (hapart e' he').symm
        exact queueRelease_of_notMem hone p

/-- The extents of a file. -/
def Nodes.extents (n : Nodes) (r : FileRef) : List Extent := (n.files r).fnode.extents

/-- The extents of the files with an entry and those pending all stand at different places. -/
structure Apart (n : Nodes) (p : Pending) : Prop where
  own : ∀ r, 0 < n.links r → ((n.extents r).map Extent.key).Nodup
  others : ∀ r r', r ≠ r' → 0 < n.links r → 0 < n.links r' →
    ∀ e ∈ n.extents r, ∀ e' ∈ n.extents r', e.key ≠ e'.key
  pending : ∀ r, 0 < n.links r → ∀ e ∈ n.extents r, (p e.bdev).lookup e.offset = none

theorem Apart.keep {n n' : Nodes} {p : Pending} (h : Apart n p)
    (hkeep : ∀ x, 0 < n'.links x → n'.extents x = [] ∨
      0 < n.links x ∧ n'.extents x = n.extents x) : Apart n' p := by
  constructor
  case own =>
    intro r hr
    rcases hkeep r hr with hnil | ⟨hl, heq⟩
    · rw [hnil]; exact List.nodup_nil
    · rw [heq]; exact h.own r hl
  case others =>
    intro r r' hne hr hr' e he e' he'
    rcases hkeep r hr with hnil | ⟨hl, heq⟩
    · rw [hnil] at he; simp at he
    · rcases hkeep r' hr' with hnil' | ⟨hl', heq'⟩
      · rw [hnil'] at he'; simp at he'
      · rw [heq] at he
        rw [heq'] at he'
        exact h.others r r' hne hl hl' e he e' he'
  case pending =>
    intro r hr e he
    rcases hkeep r hr with hnil | ⟨hl, heq⟩
    · rw [hnil] at he; simp at he
    · rw [heq] at he
      exact h.pending r hl e he

/-- The extents of `r` are queued and `r` keeps none of them. -/
theorem Apart.queue {n n' : Nodes} {p : Pending} {r : FileRef} (h : Apart n p)
    (hr : 0 < n.links r)
    (hkeep : ∀ x, 0 < n'.links x → n'.extents x = [] ∨
      x ≠ r ∧ 0 < n.links x ∧ n'.extents x = n.extents x) :
    Apart n' (BlueFS.queueRelease p (n.extents r)) := by
  have hbase : Apart n' p := h.keep fun x hx => (hkeep x hx).imp_right fun hx => hx.2
  refine ⟨hbase.own, hbase.others, fun x hx e he => ?_⟩
  rcases hkeep x hx with hnil | ⟨hne, hl, heq⟩
  · rw [hnil] at he; simp at he
  · rw [queueRelease_of_notMem]
    · exact hbase.pending x hx e he
    · intro e' he'
      rw [heq] at he
      exact h.others r x (Ne.symm hne) hr hl e' he' e he

/-! ## What a call can do -/

/-- The effect of a call on the nodes and on what is pending. -/
inductive Effect (n : Nodes) (p : Pending) : Nodes → Pending → Prop
  | same {n' : Nodes} : SameNames n n' → (∀ x, n'.extents x = n.extents x) → Effect n p n' p
  | emptied {n' : Nodes} (r : FileRef) : SameNames n n' → 0 < n.links r → n'.extents r = [] →
      (∀ x, x ≠ r → n'.extents x = n.extents x) →
      Effect n p n' (BlueFS.queueRelease p (n.extents r))
  | created {m n' : Nodes} {d f : Bytes} {r : FileRef} : Created n m d f r → SameNames m n' →
      (∀ x, n'.extents x = m.extents x) → Effect n p n' p
  | dropped {n' : Nodes} {p' : Pending} (r : FileRef) : Dropped n n' r →
      p' = (if n.links r = 1 then BlueFS.queueRelease p (n.extents r) else p) → Effect n p n' p'

/-- Names and links agree, and no byte of a file is pending. -/
structure Consistent (n : Nodes) (p : Pending) : Prop where
  linked : Linked n
  apart : Apart n p

/-- A file leaves the inode table exactly with its last entry, and its extents are queued. -/
structure Leaves (n : Nodes) (n' : Nodes) (p' : Pending) : Prop where
  left : ∀ r ino, ino ≠ 1 → (n.fileMap.lookup ino = some r ∧ n'.fileMap.lookup ino ≠ some r ↔
    0 < n.links r ∧ n'.links r = 0 ∧ (n.files r).fnode.ino = ino)
  queued : ∀ r, 0 < n.links r → n'.links r = 0 → ∀ e ∈ n.extents r,
    (p' e.bdev).lookup e.offset = some e.length

theorem Effect.ino {n n' : Nodes} {p p' : Pending} (h : Effect n p n' p') (hn : Linked n)
    {r : FileRef} (hr : 0 < n.links r) : (n'.files r).fnode.ino = (n.files r).fnode.ino := by
  cases h with
  | same hs => exact hs.ino r
  | emptied x hs => exact hs.ino r
  | @created m n' d f r' hc hs =>
      have hne : r ≠ r' := fun heq => by
        rw [heq, hc.ref, hn.fresh _ le_rfl] at hr
        exact lt_irrefl 0 hr
      rw [hs.ino, hc.others r hne]
  | dropped x hd => rw [hd.fnode]

theorem Effect.consistent {n n' : Nodes} {p p' : Pending} (h : Effect n p n' p')
    (hn : Consistent n p) : Consistent n' p' := by
  obtain ⟨hlinked, hapart⟩ := hn
  cases h with
  | same hs hext =>
      refine ⟨hs.linked hlinked, hapart.keep fun x hx => .inr ⟨?_, hext x⟩⟩
      rwa [hs.links] at hx
  | emptied r hs hr hnil hext =>
      refine ⟨hs.linked hlinked, hapart.queue hr fun x hx => ?_⟩
      by_cases hxr : x = r
      · rw [hxr]
        exact .inl hnil
      · rw [hs.links] at hx
        exact .inr ⟨hxr, hx, hext x hxr⟩
  | @created m n' d f r hc hs hext =>
      refine ⟨hs.linked (hlinked.created hc), hapart.keep fun x hx => ?_⟩
      rw [hs.links, hc.links] at hx
      by_cases hxr : x = r
      · left
        rw [hext, hxr, Nodes.extents, hc.fnode]
      · right
        rw [if_neg (Ne.symm hxr)] at hx
        refine ⟨hx, ?_⟩
        rw [hext, Nodes.extents, hc.others x hxr]
        rfl
  | dropped r hd hp =>
      have hext : ∀ x, n'.extents x = n.extents x := fun x => by
        rw [Nodes.extents, hd.fnode]
        rfl
      refine ⟨hlinked.dropped hd, ?_⟩
      rw [hp]
      split
      case isTrue hone =>
        refine hapart.queue hd.linked fun x hx => .inr ?_
        have hxl := hd.links x
        by_cases hxr : x = r
        · subst hxr
          rw [if_pos rfl] at hxl
          omega
        · exact ⟨hxr, by omega, hext x⟩
      case isFalse =>
        refine hapart.keep fun x hx => .inr ⟨?_, hext x⟩
        have hxl := hd.links x
        omega

/-- The last entry of a file goes only where a link is dropped. -/
theorem Effect.queued {n n' : Nodes} {p p' : Pending} (h : Effect n p n' p')
    (hn : Consistent n p) {r : FileRef} (hr : 0 < n.links r) (hgone : n'.links r = 0) :
    ∀ e ∈ n.extents r, (p' e.bdev).lookup e.offset = some e.length := by
  cases h with
  | same hs => rw [hs.links] at hgone; omega
  | emptied x hs => rw [hs.links] at hgone; omega
  | created hc hs => rw [hs.links, hc.links] at hgone; omega
  | dropped x hd hp =>
      have hxl := hd.links r
      have hrx : r = x := by
        by_contra hne
        rw [if_neg hne] at hxl
        omega
      subst hrx
      rw [if_pos rfl] at hxl
      rw [hp, if_pos (by omega)]
      intro e he
      exact queueRelease_of_mem (hn.apart.own r hr) p (hn.apart.pending r hr) he

theorem Effect.leaves {n n' : Nodes} {p p' : Pending} (h : Effect n p n' p')
    (hn : Consistent n p) : Leaves n n' p' := by
  refine ⟨fun r ino hino => ?_, fun r hr hgone => h.queued hn hr hgone⟩
  have hfiled := hn.linked.filed ino r hino
  have hfiled' := (h.consistent hn).linked.filed ino r hino
  constructor
  · rintro ⟨hin, hout⟩
    obtain ⟨hr, heq⟩ := hfiled.mp hin
    refine ⟨hr, ?_, heq⟩
    by_contra hne
    exact hout (hfiled'.mpr ⟨Nat.pos_of_ne_zero hne, (h.ino hn.linked hr).trans heq⟩)
  · rintro ⟨hr, hgone, heq⟩
    refine ⟨hfiled.mpr ⟨hr, heq⟩, fun hin => ?_⟩
    have := (hfiled'.mp hin).1
    omega

/-! ## The calls -/

section Calls

variable {V A : Type} {s : BlueFS V A}

/-- The effect of a call on a BlueFS. -/
def BlueFS.Effects (s s' : BlueFS V A) : Prop :=
  Effect s.nodes s.dirty.pendingRelease s'.nodes s'.dirty.pendingRelease

theorem BlueFS.Effects.refl (s : BlueFS V A) : s.Effects s :=
  .same (.refl _) fun _ => rfl

theorem mkdir_effects (s : BlueFS V A) (d : Bytes) : s.Effects (s.mkdir d).2 := by
  cases hdir : s.nodes.dirMap.lookup d with
  | some dir =>
      rw [BlueFS.mkdir, hdir]
      exact .refl s
  | none =>
      rw [BlueFS.mkdir, hdir]
      exact .same (SameNames.makeDir s.nodes hdir) fun _ => rfl

theorem rmdir_effects (s : BlueFS V A) (d : Bytes) : s.Effects (s.rmdir d).2 := by
  cases hdir : s.nodes.dirMap.lookup d with
  | none =>
      rw [BlueFS.rmdir, hdir]
      exact .refl s
  | some dir =>
      rw [BlueFS.rmdir, hdir]
      by_cases hempty : dir.entries = []
      · simp only [hempty, ne_eq, not_true_eq_false, if_false]
        exact .same (SameNames.removeDir s.nodes hdir hempty) fun _ => rfl
      · simp only [ne_eq, hempty, not_false_eq_true, if_true]
        exact .refl s

/-- A file written back with its names and its extents. -/
theorem setFile_same {n : Nodes} {r : FileRef} {f : File} (hrefs : f.refs = (n.files r).refs)
    (hino : f.fnode.ino = (n.files r).fnode.ino)
    (hextents : f.fnode.extents = (n.files r).fnode.extents) :
    SameNames n (n.setFile r f) ∧ ∀ x, (n.setFile r f).extents x = n.extents x := by
  refine ⟨SameNames.setFile n hrefs hino, fun x => ?_⟩
  simp only [Nodes.extents, Nodes.setFile_files]
  split
  case isTrue hx => rw [hx]; exact hextents
  case isFalse => rfl

theorem unlockFile_effects {lock : FileRef} {out : Int × BlueFS V A}
    (h : s.unlockFile lock = some out) : s.Effects out.2 := by
  unfold BlueFS.unlockFile at h
  split at h
  · obtain rfl := Option.some.inj h
    obtain ⟨hsame, hext⟩ := setFile_same (n := s.nodes) (r := lock)
      (f := { s.nodes.files lock with locked := false }) rfl rfl rfl
    exact .same hsame hext
  · simp at h

/-- A rename onto a free name, or one that fails. -/
theorem rename_effects {od of nd nf : Bytes}
    (hfree : s.nodes.entry od of ≠ none → s.nodes.entry nd nf = none) :
    s.Effects (s.rename od of nd nf).2 := by
  unfold BlueFS.rename
  cases hentry : s.nodes.entry od of with
  | none => exact .refl s
  | some r =>
      cases hdir : s.nodes.dirMap.lookup nd with
      | none => exact .refl s
      | some ndir =>
          have hfree := hfree (by rw [hentry]; simp)
          have hnone : ndir.lookup nf = none := by
            rw [Nodes.entry, hdir] at hfree
            exact hfree
          simp only [hnone]
          refine .same (SameNames.moveEntry hentry hdir hfree) fun x => ?_
          show (((s.nodes.setEntry nd nf r).eraseEntry od of).files x).fnode.extents = _
          rw [Nodes.eraseEntry_eq, Nodes.setEntry_eq]
          rfl

/-- `createFile` and changes that keep the names of the file. -/
theorem created_effects {d f : Bytes} {dir : Dir} (hdir : s.nodes.dirMap.lookup d = some dir)
    (hnone : dir.lookup f = none) (hint : Hint) {s' : BlueFS V A}
    (hsame : SameNames (s.nodes.createFile d f hint).2 s'.nodes)
    (hext : ∀ x, s'.nodes.extents x = (s.nodes.createFile d f hint).2.extents x)
    (hdirty : s'.dirty.pendingRelease = s.dirty.pendingRelease) : s.Effects s' := by
  unfold BlueFS.Effects
  rw [hdirty]
  exact .created (Nodes.createFile_created hdir hnone hint) hsame hext

theorem lockFile_effects (s : BlueFS V A) (d f : Bytes) : s.Effects (s.lockFile d f).2.2 := by
  unfold BlueFS.lockFile
  cases hdir : s.nodes.dirMap.lookup d with
  | none => exact .refl s
  | some dir =>
      cases hfile : dir.lookup f with
      | none =>
          simp only [hfile]
          obtain ⟨hsame, hext⟩ := setFile_same (n := (s.nodes.createFile d f 0).2)
            (r := (s.nodes.createFile d f 0).1)
            (f := { (s.nodes.createFile d f 0).2.files (s.nodes.createFile d f 0).1 with
              locked := true }) rfl rfl rfl
          exact created_effects hdir hfile 0 hsame hext rfl
      | some r =>
          simp only [hfile]
          split
          · exact .refl s
          · obtain ⟨hsame, hext⟩ := setFile_same (n := s.nodes) (r := r)
              (f := { s.nodes.files r with locked := true }) rfl rfl rfl
            exact .same hsame hext

variable [VolumeSelector V]

omit [VolumeSelector V] in
theorem retractDirty_spec (s : BlueFS V A) (r : FileRef) :
    (∃ f, f.refs = (s.nodes.files r).refs ∧ f.fnode = (s.nodes.files r).fnode ∧
      (s.retractDirty r).nodes = s.nodes.setFile r f) ∧
    (s.retractDirty r).dirty.pendingRelease = s.dirty.pendingRelease := by
  by_cases hseq : s.dirty.seqStable < (s.nodes.files r).dirtySeq
  · have heq : s.retractDirty r =
        { s with
          nodes := s.nodes.setFile r
            { s.nodes.files r with dirtySeq := s.dirty.seqStable }
          dirty := { s.dirty with
            files := BlueFS.retract s.dirty.files (s.nodes.files r).dirtySeq r } } := if_pos hseq
    rw [heq]
    exact ⟨⟨{ s.nodes.files r with dirtySeq := s.dirty.seqStable }, rfl, rfl, rfl⟩, rfl⟩
  · have heq : s.retractDirty r = s := if_neg hseq
    rw [heq]
    refine ⟨⟨s.nodes.files r, rfl, rfl, ?_⟩, rfl⟩
    rw [Nodes.setFile, Function.update_eq_self]

/-- `_drop_link` with the last link: the file leaves the inode table, and keeps its count
and its fnode. -/
theorem removeFile_spec (s : BlueFS V A) (r : FileRef) :
    (∃ f, f.refs = (s.nodes.files r).refs ∧ f.fnode = (s.nodes.files r).fnode ∧
      (s.removeFile r).nodes = Nodes.setFile { s.nodes with
        fileMap := s.nodes.fileMap.erase (s.nodes.files r).fnode.ino } r f) ∧
    (s.removeFile r).dirty.pendingRelease =
      BlueFS.queueRelease s.dirty.pendingRelease (s.nodes.extents r) := by
  unfold BlueFS.removeFile
  simp only
  generalize hs' : BlueFS.pendRelease _ _ = s'
  obtain ⟨⟨f, hrefs, hfnode, hnodes⟩, hpending⟩ := retractDirty_spec s' r
  subst hs'
  refine ⟨⟨f, ?_, ?_, ?_⟩, hpending⟩
  · rw [hrefs]
    simp [BlueFS.pendRelease]
  · rw [hfnode]
    simp [BlueFS.pendRelease]
  · rw [hnodes]
    simp only [BlueFS.pendRelease, BlueFS.logOp, Nodes.setFile, Function.update_idem]

/-- `_drop_link` after the entry of a file was erased. -/
theorem dropLink_effects {n : Nodes} {p : Pending} {r : FileRef} (hn : Linked n)
    (hpos : 0 < n.links r) (hs : s.dirty.pendingRelease = p)
    (hnodes : s.nodes = { n with dirMap := s.nodes.dirMap })
    (hlinks : ∀ x, s.nodes.links x + (if x = r then 1 else 0) = n.links x) :
    Effect n p (s.dropLink r).nodes (s.dropLink r).dirty.pendingRelease := by
  have hfiles : s.nodes.files = n.files := by rw [hnodes]
  have hrefs : ((s.lowerRefs r).nodes.files r).refs = (n.files r).refs - 1 := by
    simp [BlueFS.lowerRefs, hfiles]
  have hcount : ((s.lowerRefs r).nodes.files r).refs = 0 ↔ n.links r = 1 := by
    rw [hrefs, hn.refs r]
    omega
  have hnew : ∀ f : File, f.refs = (n.files r).refs - 1 → f.fnode = (n.files r).fnode →
      ∀ n' : Nodes, n'.files = Function.update n.files r f →
        (∀ x, (n'.files x).refs = (n.files x).refs - if x = r then 1 else 0) ∧
          ∀ x, (n'.files x).fnode = (n.files x).fnode := by
    intro f hf hfnode n' hn'
    refine ⟨fun x => ?_, fun x => ?_⟩ <;> rw [hn', Function.update_apply] <;> split
    case refine_1.isTrue hx => rw [hf, hx]
    case refine_2.isTrue hx => rw [hfnode, hx]
    all_goals simp
  have hlow : (s.lowerRefs r).nodes =
      s.nodes.setFile r { n.files r with refs := (n.files r).refs - 1 } := by
    rw [← hfiles]
    rfl
  by_cases hone : n.links r = 1
  · have hdrop : s.dropLink r = (s.lowerRefs r).removeFile r := if_pos (hcount.mpr hone)
    obtain ⟨⟨f, hf, hfnode, hnodes'⟩, hpending⟩ := removeFile_spec (s.lowerRefs r) r
    have hfile : (s.lowerRefs r).nodes.files r =
        { n.files r with refs := (n.files r).refs - 1 } := by
      rw [hlow, Nodes.setFile_files, if_pos rfl]
    rw [hfile] at hf hfnode
    have hsteps := hnew f hf hfnode ((s.lowerRefs r).removeFile r).nodes (by
      rw [hnodes', hlow, ← hfiles]
      exact Function.update_idem _ _ _)
    rw [hdrop]
    refine .dropped r ⟨hpos, fun x => ?_, hsteps.1, hsteps.2, ?_, ?_, ?_⟩ ?_
    · rw [Nodes.links_congr (n := s.nodes) (by rw [hnodes', hlow]; rfl)]
      exact hlinks x
    · rw [hnodes', if_pos hone, hfile, hlow]
      show s.nodes.fileMap.erase _ = _
      rw [hnodes]
    · rw [hnodes', hlow]
      show s.nodes.inoLast = _
      rw [hnodes]
    · rw [hnodes', hlow]
      show s.nodes.nextRef = _
      rw [hnodes]
    · rw [hpending, if_pos hone, Nodes.extents, hfile]
      show BlueFS.queueRelease s.dirty.pendingRelease _ = _
      rw [hs]
      rfl
  · have hdrop : s.dropLink r = s.lowerRefs r := if_neg fun h => hone (hcount.mp h)
    have hsteps := hnew { n.files r with refs := (n.files r).refs - 1 } rfl rfl
      (s.lowerRefs r).nodes (by rw [hlow, ← hfiles]; rfl)
    rw [hdrop]
    refine .dropped r ⟨hpos, hlinks, hsteps.1, hsteps.2, ?_, ?_, ?_⟩ ?_
    · rw [if_neg hone, hlow]
      show s.nodes.fileMap = _
      rw [hnodes]
    · rw [hlow]
      show s.nodes.inoLast = _
      rw [hnodes]
    · rw [hlow]
      show s.nodes.nextRef = _
      rw [hnodes]
    · rw [if_neg hone]
      exact hs

theorem unlink_effects (hs : Linked s.nodes) (d f : Bytes) : s.Effects (s.unlink d f).2 := by
  unfold BlueFS.unlink
  cases hentry : s.nodes.entry d f with
  | none => exact .refl s
  | some r =>
      have hlinks : ∀ x, (s.nodes.eraseEntry d f).links x + (if x = r then 1 else 0) =
          s.nodes.links x := by
        intro x
        have h := s.nodes.links_eraseEntry d f x
        rw [hentry] at h
        simp only [Option.some.injEq] at h
        rw [← h]
        congr 1
        exact if_congr eq_comm rfl rfl
      exact dropLink_effects hs (Nodes.links_pos_of_entry hentry) rfl
        (s.nodes.eraseEntry_eq d f) hlinks

omit [VolumeSelector V] in
/-- `stampFile` writes the file back with its names and its extents. -/
theorem stampFile_same (s : BlueFS V A) (r : FileRef) :
    SameNames s.nodes (s.stampFile r).nodes ∧
      (∀ x, (s.stampFile r).nodes.extents x = s.nodes.extents x) ∧
      (s.stampFile r).dirty = s.dirty := by
  have hnodes : (s.stampFile r).nodes = s.nodes.setFile r
      { s.nodes.files r with
        fnode := { (s.nodes.files r).fnode with mtime := 0 }.resetDelta } := by
    simp only [BlueFS.stampFile, BlueFS.logFileUpdate, Transaction.opFileUpdate, Nodes.setFile,
      Function.update_idem, Function.update_self]
  obtain ⟨hsame, hext⟩ := setFile_same (n := s.nodes) (r := r)
    (f := { s.nodes.files r with
      fnode := { (s.nodes.files r).fnode with mtime := 0 }.resetDelta }) rfl rfl rfl
  rw [hnodes]
  exact ⟨hsame, hext, rfl⟩

/-- The file that `open_for_write` truncates. -/
theorem dropExtents_emptied (s : BlueFS V A) (r : FileRef) :
    SameNames s.nodes (s.dropExtents r).2.nodes ∧ (s.dropExtents r).2.nodes.extents r = [] ∧
      (∀ x, x ≠ r → (s.dropExtents r).2.nodes.extents x = s.nodes.extents x) ∧
      (s.dropExtents r).2.dirty = s.dirty ∧ (s.dropExtents r).1 = s.nodes.extents r := by
  refine ⟨SameNames.setFile s.nodes rfl rfl, ?_, fun x hx => ?_, rfl, rfl⟩
  · simp [BlueFS.dropExtents, Nodes.extents, Fnode.clearExtents]
  · simp [BlueFS.dropExtents, Nodes.extents, hx]

theorem openForWrite_effects (s : BlueFS V A) (d f : Bytes) (overwrite : Bool) :
    s.Effects (s.openForWrite d f overwrite).2.2 := by
  unfold BlueFS.openForWrite
  cases hdir : s.nodes.dirMap.lookup d with
  | none => exact .refl s
  | some dir =>
      cases hfile : dir.lookup f with
      | none =>
          simp only [hfile]
          split
          · exact .refl s
          · obtain ⟨hsame, hext, hdirty⟩ := stampFile_same
              { s with nodes := (s.nodes.createFile d f
                  (VolumeSelector.getHintByDir s.vselector d)).2 }
              (s.nodes.createFile d f (VolumeSelector.getHintByDir s.vselector d)).1
            exact created_effects hdir hfile _ hsame hext
              (congrArg Dirty.pendingRelease hdirty)
      | some r =>
          have hpos : 0 < s.nodes.links r := Nodes.links_pos_of_entry (d := d) (f := f) (by
            rw [Nodes.entry, hdir]
            exact hfile)
          simp only [hfile]
          cases overwrite with
          | true =>
              obtain ⟨hsame, hext, hdirty⟩ := stampFile_same s r
              unfold BlueFS.Effects
              show Effect _ _ (s.stampFile r).nodes (s.stampFile r).dirty.pendingRelease
              rw [hdirty]
              exact .same hsame hext
          | false =>
              obtain ⟨hempty, hnil, hothers, hkept, hfreed⟩ := dropExtents_emptied s r
              obtain ⟨hsame, hext, hdirty⟩ := stampFile_same (s.dropExtents r).2 r
              show Effect _ _ ((s.dropExtents r).2.stampFile r).nodes
                (BlueFS.queueRelease ((s.dropExtents r).2.stampFile r).dirty.pendingRelease
                  (s.dropExtents r).1)
              rw [hdirty, hkept, hfreed]
              refine .emptied r (hempty.trans hsame) hpos ?_ fun x hx => ?_
              · rw [hext, hnil]
              · rw [hext, hothers x hx]

end Calls

end Clab.Bluefs
