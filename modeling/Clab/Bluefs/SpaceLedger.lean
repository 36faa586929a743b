import Clab.Bluefs.FileIo
import Clab.Bluefs.Namespace
import Clab.Lib.HandOut

/-!
# Who owns a byte

`claims` counts who holds a byte of a device: the files that are not deleted, the
extents pending release, and the pool the allocator may still give out. Every
operation moves bytes between the three. Here are the counts and what the
primitive changes of the state do to them.
-/

namespace Clab.Bluefs

open Blk HandOut

/-! ## Extents -/

/-- Byte `y.2` of device `y.1` is in the extent. -/
def Extent.has (e : Extent) (y : Nat × Nat) : Bool :=
  e.bdev = y.1 ∧ e.offset ≤ y.2 ∧ y.2 < e.offset + e.length

/-- How many of the extents hold a byte. -/
abbrev covered (es : List Extent) (y : Nat × Nat) : Nat := cover Extent.has es y

theorem covered_cons (e : Extent) (es : List Extent) (y : Nat × Nat) :
    covered (e :: es) y = covered [e] y + covered es y := by
  rw [← cover_append]
  rfl

theorem covered_one (e : Extent) (y : Nat × Nat) :
    covered [e] y = if e.bdev = y.1 ∧ e.offset ≤ y.2 ∧ y.2 < e.offset + e.length then 1 else 0 := by
  rw [covered, cover_singleton]
  simp [Extent.has]

/-- An extent cut in two. -/
theorem covered_split (b o m n : Nat) (y : Nat × Nat) :
    covered [⟨o, m + n, b⟩] y = covered [⟨o, m, b⟩] y + covered [⟨o + m, n, b⟩] y := by
  simp only [covered_one]
  split_ifs <;> omega

theorem covered_of_length_zero {e : Extent} (h : e.length = 0) (y : Nat × Nat) :
    covered [e] y = 0 := by
  rw [covered_one]
  exact if_neg (by omega)

namespace Fnode

theorem covered_appendExtent (f : Fnode) (e : Extent) (y : Nat × Nat) :
    covered (f.appendExtent e).extents y = covered f.extents y + covered [e] y := by
  have happend : covered (f.extents ++ [e]) y = covered f.extents y + covered [e] y :=
    cover_append _ _ _ _
  unfold appendExtent
  cases hlast : f.extents.getLast? with
  | none => exact happend
  | some last =>
      simp only
      split
      case isTrue hm =>
        -- the merged extent is the last one with the new one behind it
        obtain ⟨hstop, hbdev, -⟩ : last.stop = e.offset ∧ last.bdev = e.bdev ∧
            last.length + e.length < 0xffffffff := by simpa [merges] using hm
        have hsplit := covered_split last.bdev last.offset last.length e.length y
        have hnew : (⟨last.offset + last.length, e.length, last.bdev⟩ : Extent) = e := by
          obtain ⟨o, l, b⟩ := e
          simp only [Extent.stop] at hstop hbdev
          rw [hstop, hbdev]
        rw [hnew] at hsplit
        have hinit : f.extents = f.extents.dropLast ++ [last] :=
          (List.dropLast_append_getLast? last hlast).symm
        show covered (f.extents.dropLast ++ _) y = _
        rw [covered, cover_append]
        conv_rhs => rw [hinit]
        rw [covered, cover_append, Nat.add_assoc]
        exact congrArg _ hsplit
      case isFalse => exact happend

theorem covered_claimExtents (f : Fnode) (es : List Extent) (y : Nat × Nat) :
    covered (f.claimExtents es).extents y = covered f.extents y + covered es y := by
  unfold claimExtents
  induction es generalizing f with
  | nil => rfl
  | cons e es ih => rw [List.foldl_cons, ih, covered_appendExtent, covered_cons e es, Nat.add_assoc]

/-- No extent is empty. -/
def Full (es : List Extent) : Prop := ∀ e ∈ es, 0 < e.length

theorem full_appendExtent {f : Fnode} (h : Full f.extents) {e : Extent} (he : 0 < e.length) :
    Full (f.appendExtent e).extents := by
  have happend : Full (f.extents ++ [e]) := by
    intro x hx
    rcases List.mem_append.mp hx with hx | hx
    · exact h x hx
    · rw [List.mem_singleton.mp hx]
      exact he
  unfold appendExtent
  cases f.extents.getLast? with
  | none => exact happend
  | some last =>
      simp only
      split
      · intro x hx
        rcases List.mem_append.mp hx with hx | hx
        · exact h x (List.mem_of_mem_dropLast hx)
        · rw [List.mem_singleton.mp hx]
          exact Nat.add_pos_right _ he
      · exact happend

theorem full_claimExtents {f : Fnode} (h : Full f.extents) {es : List Extent} (hes : Full es) :
    Full (f.claimExtents es).extents := by
  unfold claimExtents
  induction es generalizing f with
  | nil => exact h
  | cons e es ih =>
      rw [List.foldl_cons]
      refine ih (full_appendExtent h (hes e (by simp))) fun x hx => hes x (by simp [hx])

end Fnode

/-- What `truncate` keeps and what it frees are what there was. -/
theorem covered_cutExtents (offset pos : Nat) (es : List Extent) (y : Nat × Nat) :
    covered (BlueFS.cutExtents offset pos es).1 y + covered (BlueFS.cutExtents offset pos es).2 y =
      covered es y := by
  induction es generalizing pos with
  | nil => rfl
  | cons e es ih =>
      have ih := ih (pos + e.length)
      rw [covered_cons e es]
      unfold BlueFS.cutExtents
      simp only
      split
      case isTrue =>
        have hsplit := covered_split e.bdev e.offset (min e.length (offset - pos))
          (e.length - min e.length (offset - pos)) y
        rw [Nat.add_sub_cancel' (Nat.min_le_left _ _)] at hsplit
        have he : covered [e] y = covered [⟨e.offset, e.length, e.bdev⟩] y := rfl
        rw [he, hsplit]
        simp only
        split
        case isTrue =>
          rw [covered_cons, covered_cons ⟨e.offset + _, _, _⟩]
          omega
        case isFalse hkeep =>
          have hzero := covered_of_length_zero
            (e := ⟨e.offset + min e.length (offset - pos), e.length - min e.length (offset - pos),
              e.bdev⟩) (Nat.sub_eq_zero_of_le (Nat.le_of_not_lt hkeep)) y
          rw [covered_cons]
          omega
      case isFalse =>
        simp only
        rw [covered_cons e]
        omega

theorem full_cutExtents {offset : Nat} (pos : Nat) {es : List Extent} (h : Fnode.Full es) :
    Fnode.Full (BlueFS.cutExtents offset pos es).1 ∧
      Fnode.Full (BlueFS.cutExtents offset pos es).2 := by
  induction es generalizing pos with
  | nil => exact ⟨h, h⟩
  | cons e es ih =>
      have he : 0 < e.length := h e (by simp)
      obtain ⟨hkept, hfreed⟩ := ih (pos + e.length) fun x hx => h x (by simp [hx])
      unfold BlueFS.cutExtents
      simp only
      split
      case isTrue hlt =>
        refine ⟨fun x hx => ?_, ?_⟩
        · rcases List.mem_cons.mp hx with rfl | hx
          · exact Nat.lt_min.mpr ⟨he, by omega⟩
          · exact hkept x hx
        · simp only
          split
          case isTrue hkeep =>
            intro x hx
            rcases List.mem_cons.mp hx with rfl | hx
            · exact Nat.sub_pos_of_lt hkeep
            · exact hfreed x hx
          case isFalse => exact hfreed
      case isFalse =>
        refine ⟨hkept, fun x hx => ?_⟩
        rcases List.mem_cons.mp hx with rfl | hx
        · exact he
        · exact hfreed x hx

/-! ## What is pending -/

/-- How many of the pending extents hold a byte. -/
def pendCover (p : Pending) (y : Nat × Nat) : Nat :=
  (p y.1).sum fun o len => if o ≤ y.2 ∧ y.2 < o + len then 1 else 0

/-- No pending extent is empty. -/
def Pending.Full (p : Pending) : Prop := ∀ b o len, (p b).lookup o = some len → 0 < len

theorem pendCover_empty (y : Nat × Nat) : pendCover (fun _ => .empty) y = 0 := rfl

/-- A pending extent holds its first byte. -/
theorem pendCover_pos {p : Pending} (hp : p.Full) {b o len : Nat}
    (h : (p b).lookup o = some len) : 0 < pendCover p (b, o) := by
  have hpos := hp b o len h
  have hsum := (p b).sum_erase (fun o' len => if o' ≤ o ∧ o < o' + len then 1 else 0) o
  rw [OrderedMap.weight, h, Option.map_some, Option.getD_some,
    if_pos ⟨le_rfl, by omega⟩] at hsum
  show 0 < (p b).sum fun o' len => if o' ≤ o ∧ o < o' + len then 1 else 0
  rw [← hsum]
  exact Nat.succ_pos _

/-- An extent queued where none is pending. -/
theorem pendCover_insert {p : Pending} {e : Extent}
    (hnone : (p e.bdev).lookup e.offset = none) (y : Nat × Nat) :
    pendCover (Function.update p e.bdev ((p e.bdev).insertNew e.offset e.length)) y =
      pendCover p y + covered [e] y := by
  rw [covered_one]
  by_cases hb : e.bdev = y.1
  · have hnew : (p e.bdev).insertNew e.offset e.length = (p e.bdev).insert e.offset e.length := by
      rw [OrderedMap.insertNew, hnone]
      rfl
    have hsum := (p e.bdev).sum_insert
      (fun o len => if o ≤ y.2 ∧ y.2 < o + len then 1 else 0) e.offset e.length
    rw [OrderedMap.weight, hnone, Option.map_none, Option.getD_none] at hsum
    unfold pendCover
    rw [hb] at hnew hsum ⊢
    rw [Function.update_self, hnew]
    rw [Nat.add_zero] at hsum
    rw [hsum]
    simp
  · unfold pendCover
    rw [Function.update_of_ne (Ne.symm hb), if_neg (fun h => hb h.1), Nat.add_zero]

/-- Extents that no one else holds are queued one and all. -/
theorem queueRelease_cover {es : List Extent} {p : Pending} (hp : p.Full) (hes : Fnode.Full es)
    (hle : ∀ y, pendCover p y + covered es y ≤ 1) :
    Pending.Full (BlueFS.queueRelease p es) ∧
      ∀ y, pendCover (BlueFS.queueRelease p es) y = pendCover p y + covered es y := by
  induction es generalizing p with
  | nil => exact ⟨hp, fun _ => rfl⟩
  | cons e es ih =>
      have he : 0 < e.length := hes e (by simp)
      have hnone : (p e.bdev).lookup e.offset = none := by
        cases hl : (p e.bdev).lookup e.offset with
        | none => rfl
        | some len =>
            -- two would hold the first byte of the extent
            have hpos := pendCover_pos hp hl
            have hy := hle (e.bdev, e.offset)
            rw [covered_cons, covered_one, if_pos ⟨rfl, le_rfl, by omega⟩] at hy
            omega
      have hinsert := pendCover_insert hnone
      have hfull : Pending.Full
          (Function.update p e.bdev ((p e.bdev).insertNew e.offset e.length)) := by
        intro b o len hl
        by_cases hb : b = e.bdev
        · subst hb
          rw [Function.update_self, OrderedMap.lookup_insertNew] at hl
          split at hl
          case isTrue ho =>
            rw [hnone] at hl
            obtain rfl : e.length = len := Option.some.inj hl
            exact he
          case isFalse => exact hp _ _ _ hl
        · rw [Function.update_of_ne hb] at hl
          exact hp _ _ _ hl
      obtain ⟨hfull', hcover⟩ := ih hfull (fun x hx => hes x (by simp [hx])) fun y => by
        have hy := hle y
        rw [covered_cons] at hy
        rw [hinsert y]
        omega
      refine ⟨hfull', fun y => ?_⟩
      show pendCover (BlueFS.queueRelease _ es) y = _
      rw [hcover y, hinsert y, covered_cons e es, Nat.add_assoc]

/-! ## The books of space -/

/-- How many extents of a file that is not deleted hold a byte. -/
def File.owns (f : File) (y : Nat × Nat) : Nat :=
  if f.deleted then 0 else covered f.fnode.extents y

/-- How many extents of files hold a byte. -/
def Nodes.owned (n : Nodes) (y : Nat × Nat) : Nat :=
  ∑ r ∈ Finset.range n.nextRef, (n.files r).owns y

theorem Nodes.owned_congr {n n' : Nodes} (hnext : n'.nextRef = n.nextRef)
    (h : ∀ r, (n'.files r).owns = (n.files r).owns) (y : Nat × Nat) : n'.owned y = n.owned y := by
  unfold owned
  rw [hnext]
  exact Finset.sum_congr rfl fun r _ => congrFun (h r) y

theorem Nodes.owned_setFile {n : Nodes} {r : FileRef} (hr : r < n.nextRef) (f : File)
    (y : Nat × Nat) : (n.setFile r f).owned y + (n.files r).owns y = n.owned y + f.owns y := by
  have hmem : r ∈ Finset.range n.nextRef := Finset.mem_range.mpr hr
  have hrest : ∑ x ∈ (Finset.range n.nextRef).erase r, ((n.setFile r f).files x).owns y =
      ∑ x ∈ (Finset.range n.nextRef).erase r, (n.files x).owns y := by
    refine Finset.sum_congr rfl fun x hx => ?_
    rw [setFile_files, if_neg (Finset.ne_of_mem_erase hx)]
  have hnew := Finset.add_sum_erase (Finset.range n.nextRef)
    (fun x => ((n.setFile r f).files x).owns y) hmem
  have hold := Finset.add_sum_erase (Finset.range n.nextRef) (fun x => (n.files x).owns y) hmem
  simp only [setFile_files, if_true] at hnew
  have howned : (n.setFile r f).owned y =
      ∑ x ∈ Finset.range n.nextRef, (if x = r then f else n.files x).owns y :=
    Finset.sum_congr rfl fun x _ => by rw [setFile_files]
  simp only [setFile_files] at hrest
  rw [howned, ← hnew, hrest]
  show _ = ∑ x ∈ Finset.range n.nextRef, (n.files x).owns y + f.owns y
  omega

/-- A file's extents are among those that are owned. -/
theorem Nodes.owns_le_owned {n : Nodes} {r : FileRef} (hr : r < n.nextRef) (y : Nat × Nat) :
    (n.files r).owns y ≤ n.owned y :=
  Finset.single_le_sum (f := fun r => (n.files r).owns y) (fun _ _ => Nat.zero_le _)
    (Finset.mem_range.mpr hr)

variable {V A : Type}

/-- How many hold a byte: files, what is pending, and the pool of its device. -/
noncomputable def claims (s : BlueFS V A) (pool : Nat → Set Nat) (y : Nat × Nat) : Nat :=
  s.nodes.owned y + pendCover s.dirty.pendingRelease y + inPool (pool y.1) y.2

/-- The bytes of `region` have one holder each, and the pools are what the allocators may still
give out. -/
structure Ledger [Allocator A] (holds : A → Set Nat → Prop) (s : BlueFS V A)
    (pool region : Nat → Set Nat) : Prop where
  backed : ∀ id, holds (s.alloc id) (pool id)
  total : ∀ y, claims s pool y = inPool (region y.1) y.2
  files : ∀ r, (s.nodes.files r).deleted = false → Fnode.Full (s.nodes.files r).fnode.extents
  pending : Pending.Full s.dirty.pendingRelease

section Space

variable [Allocator A] {holds : A → Set Nat → Prop} {s : BlueFS V A}
  {pool region : Nat → Set Nat}

theorem Ledger.le_one (h : Ledger holds s pool region) (y : Nat × Nat) : claims s pool y ≤ 1 :=
  (h.total y).le.trans (inPool_le _ _)

/-- Extents of one device. -/
theorem covered_onDevice (es : List PExtent) (id : Nat) (y : Nat × Nat) :
    covered (es.map fun e => ⟨e.offset, e.length, id⟩) y =
      if id = y.1 then coverCount es y.2 else 0 := by
  unfold covered cover coverCount
  rw [List.countP_map]
  by_cases hid : id = y.1
  · rw [if_pos hid]
    refine List.countP_congr fun e _ => ?_
    simp [Extent.has, PExtent.has, hid]
  · rw [if_neg hid]
    refine List.countP_eq_zero.mpr fun e _ => ?_
    simp [Extent.has, hid]

/-- What an allocation grants leaves the pool, and goes to the node. -/
theorem allocateFrom_pool (law : LawfulAllocator holds) {need unit : Nat} {node : Fnode}
    {ids : List Nat} (hbacked : ∀ id, holds (s.alloc id) (pool id)) (hfull : Fnode.Full node.extents) :
    ∃ pool' : Nat → Set Nat, (∀ id, holds ((s.allocateFrom need unit node ids).2.2.alloc id) (pool' id)) ∧
      Fnode.Full (s.allocateFrom need unit node ids).2.1.extents ∧
      ∀ y, covered (s.allocateFrom need unit node ids).2.1.extents y + inPool (pool' y.1) y.2 =
        covered node.extents y + inPool (pool y.1) y.2 := by
  induction ids generalizing s pool with
  | nil => exact ⟨pool, hbacked, hfull, fun _ => rfl⟩
  | cons id ids ih =>
      unfold BlueFS.allocateFrom
      cases s.bdev id with
      | none => exact ih hbacked
      | some d =>
          rcases hal : Allocator.allocate (s.alloc id) need unit 0 0 with ⟨got, extents, a⟩
          have hlaw := law.allocate (hbacked id) hal
          simp only
          split
          case isTrue hgot =>
            rw [if_neg (not_lt.mpr hgot)] at hlaw
            refine ih fun id' => ?_
            show holds (Function.update s.alloc id a id') (pool id')
            rw [Function.update_apply]
            split
            case isTrue heq => rw [heq]; exact hlaw
            case isFalse => exact hbacked id'
          case isFalse hgot =>
            rw [if_pos (not_le.mp hgot)] at hlaw
            obtain ⟨hpos, free', hfree', hcount⟩ := hlaw
            refine ⟨Function.update pool id free', fun id' => ?_, ?_, fun y => ?_⟩
            · have halloc : ∀ t : BlueFS V A, t.alloc = Function.update s.alloc id a →
                  holds (t.alloc id') (Function.update pool id free' id') := by
                intro t ht
                rw [ht, Function.update_apply, Function.update_apply]
                split
                case isTrue => exact hfree'
                case isFalse => exact hbacked id'
              refine halloc _ ?_
              split <;> rfl
            · refine Fnode.full_claimExtents hfull fun e he => ?_
              obtain ⟨x, hx, rfl⟩ := List.mem_map.mp he
              exact hpos x hx
            · rw [Fnode.covered_claimExtents, covered_onDevice]
              by_cases hid : id = y.1
              · subst hid
                rw [if_pos rfl, Function.update_self, Nat.add_assoc, hcount]
              · rw [if_neg hid, Function.update_of_ne (Ne.symm hid), Nat.add_zero]

theorem allocate_pool (law : LawfulAllocator holds) (prefer len unit : Nat) {node : Fnode}
    (hbacked : ∀ id, holds (s.alloc id) (pool id)) (hfull : Fnode.Full node.extents) :
    ∃ pool' : Nat → Set Nat, (∀ id, holds ((s.allocate prefer len unit node).2.2.alloc id) (pool' id)) ∧
      Fnode.Full (s.allocate prefer len unit node).2.1.extents ∧
      ∀ y, covered (s.allocate prefer len unit node).2.1.extents y + inPool (pool' y.1) y.2 =
        covered node.extents y + inPool (pool y.1) y.2 :=
  allocateFrom_pool law hbacked hfull

/-- An allocation that fails grants nothing. -/
theorem allocateFrom_node {need unit : Nat} {node : Fnode} {ids : List Nat}
    (hres : (s.allocateFrom need unit node ids).1 < 0) :
    (s.allocateFrom need unit node ids).2.1 = node := by
  induction ids generalizing s with
  | nil => rfl
  | cons id ids ih =>
      unfold BlueFS.allocateFrom at hres ⊢
      cases hdev : s.bdev id with
      | none => rw [hdev] at hres; exact ih hres
      | some d =>
          rw [hdev] at hres
          simp only at hres ⊢
          split
          case isTrue hgot => rw [if_pos hgot] at hres; exact ih hres
          case isFalse hgot => rw [if_neg hgot] at hres; exact absurd hres (lt_irrefl _)

theorem allocate_node (prefer len unit : Nat) {node : Fnode}
    (hres : (s.allocate prefer len unit node).1 < 0) :
    (s.allocate prefer len unit node).2.1 = node :=
  allocateFrom_node hres

/-! ## Moves -/

/-- Two states in which every byte has the same holders. -/
structure SameSpace (s s' : BlueFS V A) : Prop where
  alloc : s'.alloc = s.alloc
  pending : s'.dirty.pendingRelease = s.dirty.pendingRelease
  nextRef : s'.nodes.nextRef = s.nodes.nextRef
  deleted : ∀ r, (s'.nodes.files r).deleted = (s.nodes.files r).deleted
  extents : ∀ r, (s'.nodes.files r).fnode.extents = (s.nodes.files r).fnode.extents

namespace SameSpace

variable {s' s'' : BlueFS V A}

omit [Allocator A] in
theorem refl (s : BlueFS V A) : SameSpace s s := ⟨rfl, rfl, rfl, fun _ => rfl, fun _ => rfl⟩

omit [Allocator A] in
theorem trans (h : SameSpace s s') (h' : SameSpace s' s'') : SameSpace s s'' :=
  ⟨h'.alloc.trans h.alloc, h'.pending.trans h.pending, h'.nextRef.trans h.nextRef,
    fun r => (h'.deleted r).trans (h.deleted r), fun r => (h'.extents r).trans (h.extents r)⟩

omit [Allocator A] in
theorem of_files (halloc : s'.alloc = s.alloc)
    (hpending : s'.dirty.pendingRelease = s.dirty.pendingRelease)
    (hnext : s'.nodes.nextRef = s.nodes.nextRef) (hfiles : s'.nodes.files = s.nodes.files) :
    SameSpace s s' :=
  ⟨halloc, hpending, hnext, fun r => by rw [hfiles], fun r => by rw [hfiles]⟩

omit [Allocator A] in
/-- A file written back with its extents. -/
theorem of_setFile {r : FileRef} {f : File} (halloc : s'.alloc = s.alloc)
    (hpending : s'.dirty.pendingRelease = s.dirty.pendingRelease)
    (hnodes : s'.nodes = s.nodes.setFile r f)
    (hdeleted : f.deleted = (s.nodes.files r).deleted)
    (hextents : f.fnode.extents = (s.nodes.files r).fnode.extents) : SameSpace s s' := by
  refine ⟨halloc, hpending, by rw [hnodes]; rfl, fun x => ?_, fun x => ?_⟩ <;>
    rw [hnodes, Nodes.setFile_files] <;> split
  case refine_1.isTrue hx => rw [hx]; exact hdeleted
  case refine_2.isTrue hx => rw [hx]; exact hextents
  all_goals rfl

omit [Allocator A] in
theorem owned (h : SameSpace s s') (y : Nat × Nat) : s'.nodes.owned y = s.nodes.owned y := by
  refine Nodes.owned_congr h.nextRef (fun r => ?_) y
  funext y
  unfold File.owns
  rw [h.deleted, h.extents]

theorem ledger (h : SameSpace s s') (hs : Ledger holds s pool region) :
    Ledger holds s' pool region := by
  refine ⟨fun id => by rw [h.alloc]; exact hs.backed id, fun y => ?_, fun r hr => ?_, ?_⟩
  · rw [← hs.total y, claims, h.owned, h.pending]
    rfl
  · rw [h.extents]
    exact hs.files r (by rw [← h.deleted]; exact hr)
  · rw [h.pending]
    exact hs.pending

end SameSpace

namespace Ledger

variable {s' : BlueFS V A} {pool' : Nat → Set Nat}

/-- The allocators are asked, and grant nothing. -/
theorem asked (h : Ledger holds s pool region) (hbacked : ∀ id, holds (s'.alloc id) (pool' id))
    (hdirty : s'.dirty = s.dirty) (hnodes : s'.nodes = s.nodes)
    (hsame : ∀ y : Nat × Nat, inPool (pool' y.1) y.2 = inPool (pool y.1) y.2) :
    Ledger holds s' pool' region := by
  refine ⟨hbacked, fun y => ?_, by rw [hnodes]; exact h.files, by rw [hdirty]; exact h.pending⟩
  rw [← h.total y, claims, claims, hnodes, hdirty, hsame]

/-- Bytes move from the pool to a file. -/
theorem grant (h : Ledger holds s pool region) (hbacked : ∀ id, holds (s'.alloc id) (pool' id))
    (hpending : s'.dirty.pendingRelease = s.dirty.pendingRelease) {r : FileRef} {f : File}
    (hnodes : s'.nodes = s.nodes.setFile r f) (hr : r < s.nodes.nextRef)
    (hlive : (s.nodes.files r).deleted = false) (hdeleted : f.deleted = false)
    (hfull : Fnode.Full f.fnode.extents)
    (hmoved : ∀ y, covered f.fnode.extents y + inPool (pool' y.1) y.2 =
      covered (s.nodes.files r).fnode.extents y + inPool (pool y.1) y.2) :
    Ledger holds s' pool' region := by
  refine ⟨hbacked, fun y => ?_, fun x hx => ?_, by rw [hpending]; exact h.pending⟩
  · have hset := Nodes.owned_setFile hr f y
    have hold : (s.nodes.files r).owns y = covered (s.nodes.files r).fnode.extents y := by
      rw [File.owns, if_neg (by rw [hlive]; simp)]
    have hnew : f.owns y = covered f.fnode.extents y := by
      rw [File.owns, if_neg (by rw [hdeleted]; simp)]
    have hy := hmoved y
    rw [← h.total y, claims, claims, hnodes, hpending]
    omega
  · rw [hnodes, Nodes.setFile_files] at hx ⊢
    split at hx
    case isTrue heq => rw [if_pos heq]; exact hfull
    case isFalse hne => rw [if_neg hne]; exact h.files x hx

/-- Bytes move from a file to what is pending. -/
theorem queue (h : Ledger holds s pool region) (halloc : s'.alloc = s.alloc) {es : List Extent}
    (hes : Fnode.Full es)
    (hpending : s'.dirty.pendingRelease = BlueFS.queueRelease s.dirty.pendingRelease es)
    {r : FileRef} {f : File} (hfiles : s'.nodes.files = Function.update s.nodes.files r f)
    (hnext : s'.nodes.nextRef = s.nodes.nextRef) (hr : r < s.nodes.nextRef)
    (hfull : f.deleted = false → Fnode.Full f.fnode.extents)
    (hmoved : ∀ y, f.owns y + covered es y = (s.nodes.files r).owns y) :
    Ledger holds s' pool region := by
  have howned : ∀ y, s'.nodes.owned y + covered es y = s.nodes.owned y := by
    intro y
    have hset := Nodes.owned_setFile hr f y
    have hsame : s'.nodes.owned y = (s.nodes.setFile r f).owned y :=
      Nodes.owned_congr (n := s.nodes.setFile r f) hnext (fun x => by rw [hfiles]; rfl) y
    have hy := hmoved y
    omega
  obtain ⟨hpfull, hcover⟩ := queueRelease_cover h.pending hes fun y => by
    have hle := h.le_one y
    have hy := howned y
    unfold claims at hle
    omega
  refine ⟨fun id => by rw [halloc]; exact h.backed id, fun y => ?_, fun x hx => ?_, ?_⟩
  · have hy := howned y
    rw [← h.total y, claims, claims, hpending, hcover y]
    omega
  · rw [hfiles] at hx ⊢
    by_cases heq : x = r
    · subst heq
      rw [Function.update_self] at hx ⊢
      exact hfull hx
    · rw [Function.update_of_ne heq] at hx ⊢
      exact h.files x hx
  · rw [hpending]
    exact hpfull

end Ledger

end Space

end Clab.Bluefs
