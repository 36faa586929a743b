import Clab.Bluefs.RangeFlush

/-!
# A truncation and what follows

`truncate` leaves the first bytes of a file and queues the rest of its extents,
but the writer keeps its position. What is appended next goes behind the old end.
-/

namespace Clab.Bluefs

open Blk Common Segments

variable {V A : Type}

/-! ## What a truncation keeps -/

section Cut

theorem total_cutExtents (offset pos : Nat) (es : List Extent) :
    total Extent.length (BlueFS.cutExtents offset pos es).1 =
      min (total Extent.length es) (offset - pos) := by
  induction es generalizing pos with
  | nil => exact (Nat.zero_min _).symm
  | cons e es ih =>
      have ih := ih (pos + e.length)
      unfold BlueFS.cutExtents
      simp only
      split
      case isTrue => simp only [total_cons] at ih ⊢; omega
      case isFalse => rw [total_cons]; simp only; omega

/-- The positions before the cut are where they were. -/
theorem place_cutExtents {offset pos off : Nat} (es : List Extent) (h : pos + off < offset) :
    place (BlueFS.cutExtents offset pos es).1 off = place es off := by
  induction es generalizing pos off with
  | nil => rfl
  | cons e es ih =>
      unfold BlueFS.cutExtents
      simp only
      rw [if_pos (by omega)]
      rcases Nat.lt_or_ge off e.length with hoff | hoff
      · rw [place_cons_lt hoff, place_cons_lt (by simp only; omega)]
      · obtain ⟨k, rfl⟩ := Nat.exists_eq_add_of_le hoff
        -- the extent ends before the cut, and is kept whole
        have hwhole : min e.length (offset - pos) = e.length := by omega
        rw [hwhole, place_cons_add, place_cons_add, ih (by omega)]

/-- The fnode that is left has the kept extents, in whatever way they merge. -/
theorem cutFnode_spec (f : Fnode) (offset : Nat) :
    (BlueFS.cutFnode f offset).Indexed ∧ (BlueFS.cutFnode f offset).size = offset ∧
      (BlueFS.cutFnode f offset).allocated = min (total Extent.length f.extents) offset ∧
      (∀ off < offset, place (BlueFS.cutFnode f offset).extents off = place f.extents off) ∧
      ∀ y, covered (BlueFS.cutFnode f offset).extents y +
        covered (BlueFS.cutExtents offset 0 f.extents).2 y = covered f.extents y := by
  have hempty : Fnode.Indexed { f with extents := [], extentsIndex := [], allocated := 0 } :=
    ⟨rfl, rfl⟩
  have hindexed := hempty.claimExtents (BlueFS.cutExtents offset 0 f.extents).1
  have htotal := Fnode.total_claimExtents { f with extents := [], extentsIndex := [], allocated := 0 }
    (BlueFS.cutExtents offset 0 f.extents).1
  rw [total_cutExtents, total_nil, Nat.zero_add, Nat.sub_zero] at htotal
  refine ⟨⟨hindexed.index, hindexed.allocated⟩, rfl, hindexed.allocated.trans htotal,
    fun off hoff => ?_, fun y => ?_⟩
  · show place (Fnode.claimExtents _ _).extents off = _
    rw [Fnode.place_claimExtents, List.nil_append, place_cutExtents f.extents (by omega)]
  · show covered (Fnode.claimExtents _ _).extents y + _ = _
    rw [Fnode.covered_claimExtents, ← covered_cutExtents offset 0 f.extents y]
    exact congrArg (· + _) (Nat.zero_add _)

end Cut

namespace BlueFS

variable [VolumeSelector V]

theorem truncateTo_file (s : BlueFS V A) (r : FileRef) (offset : Nat) :
    (s.truncateTo r offset).nodes.files = Function.update s.nodes.files r
      { s.nodes.files r with
        fnode := (cutFnode (s.nodes.files r).fnode offset).resetDelta, isDirty := true } := by
  simp only [truncateTo, logFileUpdate, pendRelease, Transaction.opFileUpdate, Nodes.setFile,
    Function.update_idem, Function.update_self]

end BlueFS

section Space

variable [VolumeSelector V] [Allocator A] {holds : A → Set Nat → Prop} {s : BlueFS V A}
  {region : Nat → Set Nat} {r : FileRef}

/-- What is cut off a live file is pending afterwards. -/
theorem truncateTo_balanced (hs : Balanced holds s region) (hr : r < s.nodes.nextRef)
    (hlive : (s.nodes.files r).deleted = false) (offset : Nat) :
    Balanced holds (s.truncateTo r offset) region := by
  obtain ⟨pool, hledger⟩ := hs
  have hfiles := s.truncateTo_file r offset
  obtain ⟨-, -, -, -, hcovered⟩ := cutFnode_spec (s.nodes.files r).fnode offset
  obtain ⟨hkept, hfreed⟩ := @full_cutExtents offset 0 _ (hledger.files r hlive)
  refine ⟨pool, hledger.queue rfl hfreed rfl hfiles rfl hr (fun _ => ?_) fun y => ?_⟩
  · exact Fnode.full_claimExtents (fun e he => absurd he (by simp)) hkept
  · unfold File.owns
    simp only [hlive, Bool.false_eq_true, if_false]
    exact hcovered y

omit [Allocator A] in
theorem Laid.truncateTo {data : Bytes} (h : Laid s r data) {offset : Nat}
    (hle : offset ≤ data.length) : Stored (s.truncateTo r offset) r (data.take offset) := by
  obtain ⟨hindexed, hsize, hallocated, hplace, -⟩ := cutFnode_spec (s.nodes.files r).fnode offset
  have hlength : (data.take offset).length = offset := by rw [List.length_take]; omega
  have hroom := h.room
  have htotal := h.indexed.allocated
  refine ⟨?_, ?_, ?_, fun i y hi hy => ?_⟩
  all_goals simp only [s.truncateTo_file r offset, Function.update_self] at *
  · exact ⟨hindexed.index, hindexed.allocated⟩
  · exact hsize.trans hlength.symm
  · show _ ≤ (BlueFS.cutFnode (s.nodes.files r).fnode offset).allocated
    omega
  · rw [hlength] at hi
    rw [List.getElem?_take, if_pos hi]
    refine h.bytes i y (by omega) ?_
    rw [← hplace i hi]
    exact hy

end Space

/-! ## The call -/

section Call

variable [VolumeSelector V] [Allocator A] {holds : A → Set Nat → Prop} {s s₁ : BlueFS V A}
  {h h₁ : FileWriter} {all : Bytes} {n : Nat}

/-- A truncation that cuts something first puts the buffer in the file, and leaves the position
at the old end. -/
theorem truncate_cuts (law : LawfulAllocator holds) (hall : Writing holds s h all)
    (hn : n < (s.nodes.files h.file).fnode.size) (hgranted : h.buffer ≠ [] → s.Granted h)
    (hcall : s.truncate h n = (0, h₁, s₁)) :
    ∃ s₂, s₁ = s₂.truncateTo h.file n ∧ Ready holds s₂ h.file ∧ Stored s₂ h.file all ∧
      h₁.file = h.file ∧ h₁.buffer = [] ∧ h₁.pos = all.length ∧ n < all.length := by
  have hflushed : ∀ h' s', Writing holds s' h' all → h'.file = h.file → h'.buffer = [] →
      h₁ = (s'.flushBdev h').1 → s₁ = (s'.flushBdev h').2.truncateTo h'.file n →
      ∃ s₂, s₁ = s₂.truncateTo h.file n ∧ Ready holds s₂ h.file ∧ Stored s₂ h.file all ∧
        h₁.file = h.file ∧ h₁.buffer = [] ∧ h₁.pos = all.length := by
    rintro h' s' hall' hfile hempty rfl rfl
    obtain ⟨region, hbalanced⟩ := hall'.ready.balanced
    have hready : Ready holds (s'.flushBdev h').2 h'.file :=
      hall'.ready.heap ⟨rfl, fun _ => rfl, rfl⟩
        ⟨region, (flushBdev_sameSpace s' h').balanced hbalanced⟩
    have hkept := s'.flushBdev_keepsFile h' h'.file
    have hstored := hall'.stored hempty
    obtain ⟨data, hw, hdata⟩ := hall'.buffered
    rw [hempty, List.append_nil] at hdata
    rw [hfile] at hready hkept hstored ⊢
    refine ⟨_, rfl, hready, (hkept.laid hstored.laid).stored (hkept.size.trans hstored.size), hfile,
      hempty, ?_⟩
    rw [← hdata]
    exact hw.pos
  suffices hdone : ∃ s₂, s₁ = s₂.truncateTo h.file n ∧ Ready holds s₂ h.file ∧
      Stored s₂ h.file all ∧ h₁.file = h.file ∧ h₁.buffer = [] ∧ h₁.pos = all.length by
    obtain ⟨data, hw, hdata⟩ := hall.buffered
    have hstop := hw.stop
    rw [← List.length_append, hdata] at hstop
    obtain ⟨s₂, hs, hready, hstored, hfile, hempty, hpos⟩ := hdone
    exact ⟨s₂, hs, hready, hstored, hfile, hempty, hpos, by omega⟩
  have hlength : h.bufferLength = h.buffer.length := Nat.mod_eq_of_lt hall.short
  unfold BlueFS.truncate at hcall
  simp only [hlength] at hcall
  rw [if_neg (by rw [hall.ready.live]; simp)] at hcall
  split at hcall
  case isTrue => exact absurd (congrArg Prod.fst hcall) (show ¬ -einval = 0 by decide)
  case isFalse =>
    rw [if_neg (by omega), if_neg (by omega)] at hcall
    by_cases hempty : h.buffer = []
    · rw [if_neg (show ¬ h.buffer.length ≠ 0 by rw [hempty]; simp), if_neg (lt_irrefl _)] at hcall
      obtain ⟨hh, hs⟩ := Prod.mk.inj (Prod.mk.inj hcall).2
      exact hflushed h s hall rfl hempty hh.symm hs.symm
    · have hnonpos := flushF_nonpos s h true
      rw [if_pos (show h.buffer.length ≠ 0 from fun hzero =>
        hempty (List.length_eq_zero_iff.mp hzero))] at hcall
      rcases hflush : s.flushF h true with ⟨res, h', s'⟩
      rw [hflush] at hcall hnonpos
      simp only at hcall hnonpos
      split at hcall
      case isTrue hneg =>
        have hzero := (Prod.mk.inj hcall).1
        omega
      case isFalse hok =>
        obtain rfl : res = 0 := by omega
        obtain ⟨hall', hfile, hdone⟩ := hall.flushF law (fun _ => hgranted hempty) hflush
        obtain ⟨hh, hs⟩ := Prod.mk.inj (Prod.mk.inj hcall).2
        exact hflushed h' s' hall' hfile (hdone rfl) hh.symm hs.symm

omit [VolumeSelector V] in
theorem Ready.covered_pending {r : FileRef} (hready : Ready holds s r) (y : Nat × Nat) :
    covered (s.nodes.files r).fnode.extents y + pendCover s.dirty.pendingRelease y ≤ 1 := by
  obtain ⟨region, pool, hledger⟩ := hready.balanced
  have hone := hledger.le_one y
  have howned := Nodes.owns_le_owned hready.made y
  have howns : (s.nodes.files r).owns y = covered (s.nodes.files r).fnode.extents y := by
    rw [File.owns, if_neg (by rw [hready.live]; simp)]
  unfold claims at hone
  omega

/-! ## What follows -/

/-- What a truncation to `cut` is to leave: the file reads so, its extents reach as far and hold
no byte that is pending, and `d` that is appended and synced comes behind. -/
structure ContinuesAt (s : BlueFS V A) (h : FileWriter) (cut d : Bytes) : Prop where
  content : s.content h.file = cut.map some
  room : cut.length ≤ total Extent.length (s.nodes.files h.file).fnode.extents
  apart : ∀ y, covered (s.nodes.files h.file).fnode.extents y +
    pendCover s.dirty.pendingRelease y ≤ 1
  appended : ∀ s' h', WriterRun WriterCall.Served s h [.append d, .fsync] s' h' →
    s'.content h.file = (cut ++ d).map some

/-- Appending to an empty buffer and syncing leaves at least the position and the chunk. -/
theorem append_fsync_reaches (law : LawfulAllocator holds) {d : Bytes} {s' : BlueFS V A}
    {h' : FileWriter} (hready : Ready holds s h.file) (hempty : h.buffer = []) (hd : d ≠ [])
    (hrun : WriterRun WriterCall.Served s h [.append d, .fsync] s' h') :
    h.pos + d.length ≤ (s'.nodes.files h.file).fnode.size := by
  cases hrun with
  | @cons _ s₂ _ _ h₂ _ _ _ hserved hcall hrest =>
      have hsync := fsync_run hrest
      obtain ⟨hshort, -⟩ := hserved
      rw [hempty, List.length_nil, Nat.zero_add] at hshort
      have hbuffer : (h.append d).buffer = d := by
        show h.buffer ++ d.take (d.length % 2 ^ 32) = d
        rw [hempty, Nat.mod_eq_of_lt hshort, List.take_length, List.nil_append]
      have hcall := Option.some.inj hcall
      unfold BlueFS.appendTryFlush at hcall
      simp only at hcall
      split at hcall
      case isFalse =>
        obtain ⟨rfl, rfl⟩ := Prod.mk.inj (Prod.mk.inj hcall).2
        obtain ⟨-, hfilled⟩ := fsync_reaches law (h := h.append d) hready
          (by rw [hbuffer]; exact hshort) hsync
        rw [hbuffer] at hfilled
        exact hfilled (List.length_pos_iff.mpr hd)
      case isTrue =>
        have hready₂ : Ready holds s₂ h.file := by
          have hflushed := hready.flushF law (h := h.append d) false
          rw [hcall] at hflushed
          exact hflushed
        rcases flushF_reaches (h := h.append d) hready.live (by rw [hbuffer]; exact hshort) hcall
          with ⟨rfl, rfl, -⟩ | ⟨hfile, hdone, hle⟩
        · obtain ⟨-, hfilled⟩ := fsync_reaches law (h := h.append d) hready
            (by rw [hbuffer]; exact hshort) hsync
          rw [hbuffer] at hfilled
          exact hfilled (List.length_pos_iff.mpr hd)
        · have hfile : h₂.file = h.file := hfile
          have hle : max (s.nodes.files h.file).fnode.size (h.pos + (h.append d).buffer.length) ≤
            (s₂.nodes.files h.file).fnode.size := hle
          rw [hbuffer] at hle
          rw [← hfile] at hready₂ hle ⊢
          obtain ⟨hkept, -⟩ := fsync_reaches law hready₂ (by rw [hdone]; decide) hsync
          exact ((le_max_right _ _).trans hle).trans hkept

/-- Appending nothing to an empty buffer and syncing leaves the file as it is. -/
theorem append_nil_fsync (law : LawfulAllocator holds) {s' : BlueFS V A} {h' : FileWriter}
    (hready : Ready holds s h.file) (hempty : h.buffer = [])
    (hrun : WriterRun WriterCall.Served s h [.append [], .fsync] s' h') :
    KeepsFile s s' h.file := by
  have hflush : ∀ force, s.flushF h force = (0, h, s) := by
    intro force
    unfold BlueFS.flushF
    rw [if_pos (by rw [FileWriter.bufferLength, hempty]; rfl)]
  have happend : h.append [] = h := by
    unfold FileWriter.append
    rw [List.take_nil, List.append_nil]
  cases hrun with
  | cons _ hcall hrest =>
      have hcall := Option.some.inj hcall
      have hsame : s.appendTryFlush h [] = (0, h, s) := by
        unfold BlueFS.appendTryFlush
        simp only [happend, hflush, ite_self]
      rw [hsame] at hcall
      obtain ⟨rfl, rfl⟩ := Prod.mk.inj (Prod.mk.inj hcall).2
      obtain ⟨h₂, s₂, hsynced, -, -, hkept⟩ := fsync_flushes law hready (fsync_run hrest)
      rw [hflush] at hsynced
      obtain ⟨rfl, rfl⟩ := Prod.mk.inj (Prod.mk.inj hsynced).2
      exact hkept

end Call

/-! ## A page that is cut off -/

/-- The writer of `a` and BlueFS once its page is in the file. -/
def pageFile : FileWriter × BlueFS OriginalVolumeSelector FreeList :=
  (lazyFile.flushF pageWriter true).2

theorem pageFile_writing : Writing FreeList.Holds pageFile.2 pageFile.1 (List.replicate 4096 7) := by
  have hgranted : lazyFile.Granted pageWriter := by decide +kernel
  have hres : (lazyFile.flushF pageWriter true).1 = 0 := by decide +kernel
  have hcall : lazyFile.flushF pageWriter true = (0, pageFile.1, pageFile.2) :=
    Prod.ext hres (Prod.mk.eta (p := pageFile)).symm
  exact (pageWriter_writing.flushF FreeList.lawful (fun _ => by assumption) hcall).1

/-- The page cut at `n`. -/
def cutPage (n : Nat) : FileWriter × BlueFS OriginalVolumeSelector FreeList :=
  (pageFile.2.truncate pageFile.1 n).2

theorem cutPage_call {n : Nat} (hres : (pageFile.2.truncate pageFile.1 n).1 = 0) :
    pageFile.2.truncate pageFile.1 n = (0, (cutPage n).1, (cutPage n).2) :=
  Prod.ext hres (Prod.mk.eta (p := cutPage n)).symm

/-- The size of the file once `d` is appended and synced. -/
def sizeAppended (n : Nat) (d : Bytes) : Option Nat :=
  (runCalls WriterCall.Served (cutPage n).2 (cutPage n).1 [.append d, .fsync]).map
    fun p => (p.2.nodes.files (cutPage n).1.file).fnode.size

theorem sizeAppended_run {n size : Nat} {d : Bytes} (hsize : sizeAppended n d = some size) :
    ∃ s' h', WriterRun WriterCall.Served (cutPage n).2 (cutPage n).1 [.append d, .fsync] s' h' ∧
      (s'.nodes.files (cutPage n).1.file).fnode.size = size := by
  obtain ⟨⟨h', s'⟩, hrun, hsize⟩ := Option.map_eq_some_iff.mp hsize
  exact ⟨s', h', runCalls_run hrun, hsize⟩

end Clab.Bluefs
