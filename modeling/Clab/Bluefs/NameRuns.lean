import Clab.Bluefs.Namespace

/-!
# Runs of the name operations

`names_consistent`: in every run in which no rename goes onto a name that exists,
the names, the links and the inode table agree after every call, and the next
call keeps this, with what a rename promises, exactly when it is no such rename.
-/

namespace Clab.Bluefs

variable {V A : Type}

/-- The calls on names. -/
inductive NameCall
  | mkdir (dirname : Bytes)
  | rmdir (dirname : Bytes)
  | openForWrite (dirname filename : Bytes) (overwrite : Bool)
  | lockFile (dirname filename : Bytes)
  | unlockFile (lock : FileRef)
  | unlink (dirname filename : Bytes)
  | rename (oldDirname oldFilename newDirname newFilename : Bytes)
  deriving DecidableEq

namespace NameCall

/-- The result of a call; `none` when an assertion fails. -/
def run [VolumeSelector V] (s : BlueFS V A) : NameCall → Option (Int × BlueFS V A)
  | mkdir d => some (s.mkdir d)
  | rmdir d => some (s.rmdir d)
  | openForWrite d f o => some ((s.openForWrite d f o).1, (s.openForWrite d f o).2.2)
  | lockFile d f => some ((s.lockFile d f).1, (s.lockFile d f).2.2)
  | unlockFile l => s.unlockFile l
  | unlink d f => some (s.unlink d f)
  | rename od of nd nf => some (s.rename od of nd nf)

/-- The call is no rename of a file onto a name that exists. -/
def FreshTarget (n : Nodes) : NameCall → Prop
  | rename od of nd nf => n.entry od of ≠ none → n.entry nd nf = none
  | _ => True

instance (n : Nodes) (c : NameCall) : Decidable (c.FreshTarget n) := by
  cases c <;> unfold FreshTarget <;> infer_instance

/-- What a successful rename promises: the new name points to the file of the old one, which
is gone unless it is the same, and no other entry changes. -/
def Renames (n n' : Nodes) (res : Int) : NameCall → Prop
  | rename od of nd nf => res = 0 → ∃ r, n.entry od of = some r ∧
      ∀ d f, n'.entry d f =
        if d = nd ∧ f = nf then some r
        else if d = od ∧ f = of then none
        else n.entry d f
  | _ => True

end NameCall

/-- The names are right after a call. -/
structure Settles (s : BlueFS V A) (c : NameCall) (res : Int) (s' : BlueFS V A) : Prop where
  consistent : Consistent s'.nodes s'.dirty.pendingRelease
  leaves : Leaves s.nodes s'.nodes s'.dirty.pendingRelease
  renames : c.Renames s.nodes s'.nodes res

section Rename

variable {s : BlueFS V A} {od of nd nf : Bytes}

/-- The nodes after a rename that finds the file and the directory. -/
theorem rename_nodes {r : FileRef} {ndir : Dir} (hentry : s.nodes.entry od of = some r)
    (hdir : s.nodes.dirMap.lookup nd = some ndir) :
    (s.rename od of nd nf).1 = 0 ∧
      (s.rename od of nd nf).2.nodes = (s.nodes.setEntry nd nf r).eraseEntry od of := by
  unfold BlueFS.rename
  rw [hentry, hdir]
  refine ⟨rfl, ?_⟩
  show Nodes.eraseEntry (Nodes.setEntry (BlueFS.nodes _) nd nf r) od of = _
  congr 2
  cases ndir.lookup nf with
  | none => rfl
  | some target =>
      show BlueFS.nodes (if target ≠ r then _ else _) = _
      split <;> rfl

/-- A rename that succeeds found both. -/
theorem rename_found (h : (s.rename od of nd nf).1 = 0) :
    ∃ r ndir, s.nodes.entry od of = some r ∧ s.nodes.dirMap.lookup nd = some ndir := by
  unfold BlueFS.rename at h
  cases hentry : s.nodes.entry od of with
  | none => rw [hentry] at h; simp [Blk.enoent] at h
  | some r =>
      cases hdir : s.nodes.dirMap.lookup nd with
      | none => rw [hentry, hdir] at h; simp [Blk.enoent] at h
      | some ndir => exact ⟨r, ndir, rfl, rfl⟩

/-- A rename onto a free name moves the entry. -/
theorem rename_renames (hfree : s.nodes.entry od of ≠ none → s.nodes.entry nd nf = none) :
    (NameCall.rename od of nd nf).Renames s.nodes (s.rename od of nd nf).2.nodes
      (s.rename od of nd nf).1 := by
  intro hres
  obtain ⟨r, ndir, hentry, hdir⟩ := rename_found hres
  have hnone := hfree (by rw [hentry]; simp)
  have hne : ¬ (nd = od ∧ nf = of) := by
    rintro ⟨rfl, rfl⟩
    rw [hnone] at hentry
    exact absurd hentry (by simp)
  refine ⟨r, hentry, fun d f => ?_⟩
  rw [(rename_nodes hentry hdir).2, Nodes.entry_eraseEntry, Nodes.entry_setEntry hdir]
  by_cases hnew : d = nd ∧ f = nf
  · obtain ⟨rfl, rfl⟩ := hnew
    rw [if_neg hne, if_pos ⟨rfl, rfl⟩, if_pos ⟨rfl, rfl⟩]
  · rw [if_neg hnew, if_neg hnew]

/-- A rename onto a name that exists loses a link that is still counted. -/
theorem rename_unlinks (hs : Linked s.nodes) (hentry : s.nodes.entry od of ≠ none)
    (htarget : s.nodes.entry nd nf ≠ none) : ¬ Linked (s.rename od of nd nf).2.nodes := by
  obtain ⟨r, hr⟩ := Option.ne_none_iff_exists'.mp hentry
  obtain ⟨x, hx⟩ := Option.ne_none_iff_exists'.mp htarget
  have hdir : ∃ ndir, s.nodes.dirMap.lookup nd = some ndir := by
    rw [Nodes.entry] at hx
    obtain ⟨ndir, hndir, -⟩ := Option.bind_eq_some_iff.mp hx
    exact ⟨ndir, hndir⟩
  obtain ⟨ndir, hdir⟩ := hdir
  intro hlinked
  have hrefs := hlinked.refs x
  have hset := Nodes.links_setEntry (f := nf) (r := r) hdir x
  have herase := (s.nodes.setEntry nd nf r).links_eraseEntry od of x
  rw [(rename_nodes hr hdir).2] at hrefs
  have hfiles : ((s.nodes.setEntry nd nf r).eraseEntry od of).files = s.nodes.files := by
    rw [Nodes.eraseEntry_eq, Nodes.setEntry_eq]
  rw [hfiles, hs.refs x] at hrefs
  rw [hx, if_pos rfl] at hset
  rw [Nodes.entry_setEntry hdir] at herase
  -- the target has one entry less, or none of the two was another file's
  by_cases hrx : r = x
  · subst hrx
    have hold : (if od = nd ∧ of = nf then some r else s.nodes.entry od of) = some r := by
      split
      case isTrue => rfl
      case isFalse => exact hr
    rw [hold, if_pos rfl] at herase
    rw [if_pos rfl] at hset
    omega
  · rw [if_neg hrx] at hset
    omega

end Rename

section Runs

/-- The parts of a returned pair. -/
theorem returned {p : Int × BlueFS V A} {res : Int} {s : BlueFS V A}
    (h : some p = some (res, s)) : res = p.1 ∧ s = p.2 := by
  obtain rfl := Option.some.inj h
  exact ⟨rfl, rfl⟩

variable [VolumeSelector V]

/-- Every call but a rename onto a name that exists has an effect. -/
theorem NameCall.effects {s s' : BlueFS V A} {c : NameCall} {res : Int} (hs : Linked s.nodes)
    (hfresh : c.FreshTarget s.nodes) (hrun : c.run s = some (res, s')) : s.Effects s' := by
  cases c with
  | mkdir d =>
      obtain ⟨rfl, rfl⟩ := returned hrun
      exact mkdir_effects s d
  | rmdir d =>
      obtain ⟨rfl, rfl⟩ := returned hrun
      exact rmdir_effects s d
  | openForWrite d f o =>
      obtain ⟨rfl, rfl⟩ := returned hrun
      exact openForWrite_effects s d f o
  | lockFile d f =>
      obtain ⟨rfl, rfl⟩ := returned hrun
      exact lockFile_effects s d f
  | unlockFile l => exact unlockFile_effects hrun
  | unlink d f =>
      obtain ⟨rfl, rfl⟩ := returned hrun
      exact unlink_effects hs d f
  | rename od of nd nf =>
      obtain ⟨rfl, rfl⟩ := returned hrun
      exact rename_effects hfresh

/-- A call keeps the names right exactly when it is no rename onto a name that exists. -/
theorem settles_iff {s s' : BlueFS V A} {c : NameCall} {res : Int}
    (hs : Consistent s.nodes s.dirty.pendingRelease) (hrun : c.run s = some (res, s')) :
    Settles s c res s' ↔ c.FreshTarget s.nodes := by
  constructor
  · intro h
    cases c with
    | rename od of nd nf =>
        obtain ⟨rfl, rfl⟩ := returned hrun
        intro hentry
        by_contra htarget
        exact rename_unlinks hs.linked hentry htarget h.consistent.linked
    | _ => trivial
  · intro hfresh
    have heff := NameCall.effects hs.linked hfresh hrun
    refine ⟨heff.consistent hs, heff.leaves hs, ?_⟩
    cases c with
    | rename od of nd nf =>
        obtain ⟨rfl, rfl⟩ := returned hrun
        exact rename_renames hfresh
    | _ => trivial

/-- Runs of calls, none of them a rename onto a name that exists. -/
inductive NameRun : BlueFS V A → BlueFS V A → Prop
  | refl (s : BlueFS V A) : NameRun s s
  | call {s s' s'' : BlueFS V A} {res : Int} (c : NameCall) : NameRun s s' →
      c.FreshTarget s'.nodes → c.run s' = some (res, s'') → NameRun s s''

theorem NameRun.consistent {s s' : BlueFS V A} (h : NameRun s s')
    (hs : Consistent s.nodes s.dirty.pendingRelease) :
    Consistent s'.nodes s'.dirty.pendingRelease := by
  induction h with
  | refl => exact hs
  | call c _ hfresh hcall ih => exact (NameCall.effects ih.linked hfresh hcall).consistent ih

/-- Names, links and files stay consistent in every run, and the next call keeps them so
exactly when it is no rename onto a name that exists. -/
theorem names_consistent {s s' : BlueFS V A} (hs : Consistent s.nodes s.dirty.pendingRelease)
    (hrun : NameRun s s') :
    Consistent s'.nodes s'.dirty.pendingRelease ∧
      ∀ c res s'', c.run s' = some (res, s'') →
        (Settles s' c res s'' ↔ c.FreshTarget s'.nodes) :=
  ⟨hrun.consistent hs, fun _ _ _ hcall => settles_iff (hrun.consistent hs) hcall⟩

end Runs

/-! ## A mount of an empty file system -/

/-- The nodes after `mount` when the log holds no operation on a file. -/
def Nodes.mounted (log : Fnode) : Nodes where
  fileMap := OrderedMap.empty.insert 1 0
  inoLast := 1
  files := Function.update (fun _ => {}) 0 { fnode := log }
  nextRef := 1

theorem Nodes.mounted_consistent (log : Fnode) :
    Consistent (Nodes.mounted log) fun _ => .empty := by
  have hlinks : ∀ r, (Nodes.mounted log).links r = 0 := fun _ => rfl
  refine ⟨⟨fun r => ?_, ⟨0, rfl, hlinks 0, Nat.zero_lt_one⟩, fun ino r hino => ?_,
    fun r hr => ?_, fun r _ => hlinks r, le_rfl⟩, ⟨fun r hr => ?_, fun r _ _ hr => ?_,
    fun r hr => ?_⟩⟩
  · rw [hlinks]
    show (Function.update (fun _ => ({} : File)) 0 { fnode := log } r).refs = _
    rw [Function.update_apply]
    split <;> rfl
  · rw [hlinks]
    refine iff_of_false ?_ (by omega)
    show (OrderedMap.empty.insert 1 0).lookup ino ≠ some r
    rw [OrderedMap.lookup_insert, if_neg hino]
    simp
  all_goals
    rw [hlinks] at hr
    exact absurd hr (lt_irrefl 0)

/-- A mounted BlueFS without files, on no device. -/
def emptyFs : BlueFS OriginalVolumeSelector Unit where
  cfg := {}
  bdev _ := none
  alloc _ := ()
  allocSize _ := 0
  sharedAllocId := none
  bluefsUsed := 0
  vselector := ⟨0, 0, 0⟩
  super := {}
  nodes := Nodes.mounted { ino := 1 }
  log := {}
  dirty := {}

/-- Files `a` and `b` of a directory `d`. -/
def twoFiles : BlueFS OriginalVolumeSelector Unit :=
  ((((emptyFs.mkdir [100]).2.openForWrite [100] [97] false).2.2).openForWrite [100] [98] false).2.2

theorem twoFiles_run : NameRun emptyFs twoFiles :=
  .call (.openForWrite [100] [98] false)
    (.call (.openForWrite [100] [97] false)
      (.call (.mkdir [100]) (.refl _) trivial rfl) trivial rfl) trivial rfl

/-- The second file renamed to a free name. -/
theorem names_consistent_move :
    Consistent twoFiles.nodes twoFiles.dirty.pendingRelease ∧
      ∀ c res s'', c.run twoFiles = some (res, s'') →
        (Settles twoFiles c res s'' ↔ c.FreshTarget twoFiles.nodes) :=
  names_consistent (Nodes.mounted_consistent _) twoFiles_run

/-- Renaming `a` over `b` leaves the old `b` in the inode table with a count of one and no
entry; renaming `a` to itself erases its only entry. -/
theorem rename_over_existing :
    twoFiles.nodes.entry [100] [98] = some 2 ∧
      (let s := (twoFiles.rename [100] [97] [100] [98]).2
       (twoFiles.rename [100] [97] [100] [98]).1 = 0 ∧ (s.nodes.files 2).refs = 1 ∧
         s.nodes.links 2 = 0 ∧ s.nodes.fileMap.lookup 3 = some 2) ∧
      (let s := (twoFiles.rename [100] [97] [100] [97]).2
       (twoFiles.rename [100] [97] [100] [97]).1 = 0 ∧ s.nodes.entry [100] [97] = none ∧
         (s.nodes.files 1).refs = 1 ∧ s.nodes.links 1 = 0) := by
  decide

end Clab.Bluefs
