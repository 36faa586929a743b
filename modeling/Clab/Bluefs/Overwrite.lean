import Clab.Bluefs.AppendRead

/-!
# Overwriting a file

A file that is opened for overwriting keeps its extents, and its writer starts at
the end of the file. What is appended then goes behind the old bytes, not over them.
-/

namespace Clab.Bluefs

open Blk Common Segments

variable {V A : Type}

/-- `close_writer`. -/
def BlueFS.closeWriter [VolumeSelector V] [Allocator A] (s : BlueFS V A) (h : FileWriter) :
    Int × BlueFS V A :=
  let (r, h, s) := s.flushF h true
  if r < 0 then (r, s) else (0, (s.flushBdev h).2)

/-! ## Extents that stay -/

/-- The file keeps its extents, and gets more behind them only where `stop` bytes do not fit. -/
structure Extends (s s' : BlueFS V A) (r : FileRef) (stop : Nat) : Prop where
  grown : (s.nodes.files r).fnode.allocated ≤ (s'.nodes.files r).fnode.allocated
  fits : stop ≤ (s.nodes.files r).fnode.allocated →
    (s'.nodes.files r).fnode.extents = (s.nodes.files r).fnode.extents ∧
      (s'.nodes.files r).fnode.allocated = (s.nodes.files r).fnode.allocated
  place : ∀ off < (s.nodes.files r).fnode.allocated,
    place (s'.nodes.files r).fnode.extents off = place (s.nodes.files r).fnode.extents off
  kept : ∀ y, covered (s.nodes.files r).fnode.extents y ≤ covered (s'.nodes.files r).fnode.extents y

namespace Extends

variable {s s' s'' : BlueFS V A} {r : FileRef} {stop stop' : Nat}

theorem of_same (hextents : (s'.nodes.files r).fnode.extents = (s.nodes.files r).fnode.extents)
    (hallocated : (s'.nodes.files r).fnode.allocated = (s.nodes.files r).fnode.allocated) :
    Extends s s' r stop :=
  ⟨hallocated.ge, fun _ => ⟨hextents, hallocated⟩, fun _ _ => by rw [hextents],
    fun _ => by rw [hextents]⟩

theorem refl (s : BlueFS V A) (r : FileRef) (stop : Nat) : Extends s s r stop := of_same rfl rfl

theorem of_keeps (h : KeepsFile s s' r) : Extends s s' r stop := by
  obtain ⟨c, hc⟩ := h.fnode
  refine of_same ?_ ?_ <;> rw [hc]

theorem trans (h : Extends s s' r stop) (h' : Extends s' s'' r stop') (hle : stop ≤ stop') :
    Extends s s'' r stop' := by
  have hgrown := h.grown
  refine ⟨hgrown.trans h'.grown, fun hfits => ?_, fun off hoff => ?_,
    fun y => (h.kept y).trans (h'.kept y)⟩
  · obtain ⟨hextents, hallocated⟩ := h.fits (hle.trans hfits)
    obtain ⟨hextents', hallocated'⟩ := h'.fits (hfits.trans hgrown)
    exact ⟨hextents'.trans hextents, hallocated'.trans hallocated⟩
  · rw [h'.place off (lt_of_lt_of_le hoff hgrown), h.place off hoff]

end Extends

section Flush

variable [VolumeSelector V] [Allocator A] {s : BlueFS V A}

theorem growSpace_extends {r : FileRef} (hindexed : (s.nodes.files r).fnode.Indexed) (stop : Nat) :
    Extends s (s.growSpace r stop).2 r stop := by
  have hallocated := hindexed.allocated
  unfold BlueFS.growSpace
  simp only
  split
  case isFalse => exact .refl s r stop
  case isTrue hlt =>
    generalize VolumeSelector.selectPreferBdev s.vselector _ = prefer
    obtain ⟨a, u, heq⟩ := s.allocate_eq prefer (stop - (s.nodes.files r).fnode.allocated) 0
      (s.nodes.files r).fnode
    obtain ⟨es, hnode, -⟩ := s.allocate_claims prefer
      (stop - (s.nodes.files r).fnode.allocated) 0 (s.nodes.files r).fnode
    rw [heq, hnode]
    split
    case isTrue => exact .of_same rfl rfl
    case isFalse =>
      have htotal := (hindexed.claimExtents es).allocated
      rw [Fnode.total_claimExtents] at htotal
      refine ⟨?_, fun hfits => absurd hlt (not_lt.mpr hfits), fun off hoff => ?_, fun y => ?_⟩
      all_goals simp only [Nodes.setFile_files, if_true]
      · omega
      · rw [Fnode.place_claimExtents, place_append es (by omega)]
      · rw [Fnode.covered_claimExtents]
        exact Nat.le_add_right _ _

omit [VolumeSelector V] [Allocator A] in
theorem flushData_extends (h : FileWriter) (offset length : Nat) (buffered : Bool) (stop : Nat) :
    Extends s (s.flushData h offset length buffered).2.2 h.file stop := by
  unfold BlueFS.flushData
  split
  · exact .refl s h.file stop
  · simp only
    cases (s.nodes.files h.file).fnode.seek offset with
    | none => exact .refl s h.file stop
    | some p =>
        obtain ⟨i, x⟩ := p
        obtain ⟨⟨b, hs⟩, d, hh⟩ := s.writeExtents_eq h buffered
          ((s.nodes.files h.file).fnode.extents.drop i) x (h.buffer.take h.bufferLength)
        simp only
        split <;> rw [hs]
        · exact .of_same rfl rfl
        · rw [hh]
          refine .of_same ?_ ?_ <;> simp [BlueFS.advance, Nodes.setFile_files]

/-- A flush asks for space up to the end of the buffer. -/
theorem flushF_extends {h : FileWriter} (hindexed : (s.nodes.files h.file).fnode.Indexed)
    (force : Bool) :
    Extends s (s.flushF h force).2.2 h.file (h.pos + h.bufferLength) := by
  have hspace := growSpace_extends hindexed (h.pos + h.bufferLength)
  have hfrom : Extends s (s.flushFrom h h.pos h.bufferLength).2.2 h.file
      (h.pos + h.bufferLength) := by
    unfold BlueFS.flushFrom
    simp only
    split
    · exact hspace
    · generalize (s.growSpace h.file (h.pos + h.bufferLength)).2 = s₁ at *
      obtain ⟨v, f, heq, hf⟩ := growSize_eq s₁ h.file (h.pos + h.bufferLength)
      have hsize : Extends s₁ (s₁.growSize h.file (h.pos + h.bufferLength)) h.file
          (h.pos + h.bufferLength) := by
        rw [heq]
        refine .of_same ?_ ?_ <;> simp [Nodes.setFile_files, hf]
      exact (hspace.trans hsize le_rfl).trans (flushData_extends h _ _ _ _) le_rfl
  have hrange : Extends s (s.flushRange h h.pos h.bufferLength).2.2 h.file
      (h.pos + h.bufferLength) := by
    unfold BlueFS.flushRange
    split
    · exact .refl s h.file _
    split
    · exact .refl s h.file _
    split
    case isTrue hlt => exact absurd hlt (lt_irrefl _)
    case isFalse => exact hfrom
  unfold BlueFS.flushF
  split
  · exact .refl s h.file _
  split
  · exact .refl s h.file _
  simp only
  split <;> exact hrange

end Flush

section Runs

variable [VolumeSelector V] [Allocator A] {holds : A → Set Nat → Prop} {s s' : BlueFS V A}
  {h h' : FileWriter} {all : Bytes}

namespace Writing

omit [VolumeSelector V] in
/-- The buffer ends where what was appended ends. -/
theorem stop_eq (hall : Writing holds s h all) : h.pos + h.bufferLength = all.length := by
  obtain ⟨data, hw, rfl⟩ := hall.buffered
  rw [hw.pos, FileWriter.bufferLength, Nat.mod_eq_of_lt hall.short, List.length_append]

theorem flushF_extends (hall : Writing holds s h all) (force : Bool) :
    Extends s (s.flushF h force).2.2 h.file all.length := by
  obtain ⟨data, hw, -⟩ := id hall.buffered
  have hflush := Bluefs.flushF_extends hw.laid.indexed force
  rwa [hall.stop_eq] at hflush

theorem call_extends (law : LawfulAllocator holds) {c : WriterCall} (hall : Writing holds s h all)
    (hserved : c.Served s h) (hcall : c.run s h = some (0, h', s')) :
    Extends s s' h.file (all ++ c.chunk).length := by
  cases c with
  | append chunk =>
      have happended := hall.append hserved.1
      have hflush := happended.flushF_extends false
      have hcall := Option.some.inj hcall
      unfold BlueFS.appendTryFlush at hcall
      simp only at hcall
      split at hcall
      case isTrue =>
        rw [hcall] at hflush
        exact hflush
      case isFalse =>
        obtain ⟨-, hcall⟩ := Prod.mk.inj hcall
        obtain ⟨rfl, rfl⟩ := Prod.mk.inj hcall
        exact .refl _ _ _
  | flush force =>
      have hflush := hall.flushF_extends force
      rw [show s.flushF h force = (0, h', s') from Option.some.inj hcall] at hflush
      rw [WriterCall.chunk, List.append_nil]
      exact hflush
  | fsync =>
      obtain ⟨h₁, s₁, hflushed, rfl, -, hkept⟩ := fsync_flushes law hall.ready hcall
      have hflush := hall.flushF_extends true
      rw [hflushed] at hflush
      rw [WriterCall.chunk, List.append_nil]
      exact hflush.trans (.of_keeps hkept) le_rfl

theorem run_extends (law : LawfulAllocator holds) {cs : List WriterCall}
    (hall : Writing holds s h all) (hrun : WriterRun WriterCall.Served s h cs s' h') :
    Extends s s' h.file (all ++ cs.flatMap WriterCall.chunk).length := by
  induction hrun generalizing all with
  | nil => exact .refl _ _ _
  | @cons s s₁ s' h h₁ h' c cs hserved hcall hrest ih =>
      obtain ⟨hnext, hfile, -⟩ := hall.call law hserved hcall
      have hfirst := hall.call_extends law hserved hcall
      have hlater := ih hnext
      rw [hfile, List.append_assoc] at hlater
      rw [List.flatMap_cons]
      refine hfirst.trans hlater ?_
      simp only [List.length_append]
      omega

/-- Closing the writer puts all that was appended into the file. -/
theorem close (law : LawfulAllocator holds) (hall : Writing holds s h all)
    (hgranted : s.Granted h) (hclose : s.closeWriter h = (0, s')) :
    Ready holds s' h.file ∧ Stored s' h.file all ∧ Extends s s' h.file all.length := by
  have hextends := hall.flushF_extends true
  have hnonpos := flushF_nonpos s h true
  unfold BlueFS.closeWriter at hclose
  rcases hflush : s.flushF h true with ⟨r, h₁, s₁⟩
  rw [hflush] at hextends hclose hnonpos
  simp only at hextends hclose hnonpos
  split at hclose
  case isTrue hneg =>
    obtain ⟨rfl, -⟩ := Prod.mk.inj hclose
    exact absurd hneg (lt_irrefl 0)
  case isFalse hok =>
    obtain rfl : r = 0 := by omega
    obtain ⟨-, rfl⟩ := Prod.mk.inj hclose
    obtain ⟨hflushed, hfile, hempty⟩ := hall.flushF law (fun _ => hgranted) hflush
    have hkept := s₁.flushBdev_keepsFile h₁ h.file
    have hstored := hflushed.stored (hempty rfl)
    obtain ⟨region, hbalanced⟩ := hflushed.ready.balanced
    have hready : Ready holds (s₁.flushBdev h₁).2 h₁.file := hflushed.ready.heap
      ⟨rfl, fun _ => rfl, rfl⟩ ⟨region, (flushBdev_sameSpace s₁ h₁).balanced hbalanced⟩
    rw [hfile] at hstored hready
    exact ⟨hready, (hkept.laid hstored.laid).stored (by rw [hkept.size]; exact hstored.size),
      hextends.trans (.of_keeps hkept) le_rfl⟩

end Writing

/-! ## The file opened -/

omit [Allocator A] in
/-- Opening a file for overwriting leaves its data, its extents and the space of all. -/
theorem openForWrite_overwrites {d f : Bytes} {r : FileRef} (hentry : s.nodes.entry d f = some r)
    (hopen : s.openForWrite d f true = (0, some h, s')) :
    h = { file := r, pos := (s.nodes.files r).fnode.size } ∧ SameSpace s s' ∧ SameHeap s s' ∧
      s'.bdev = s.bdev ∧
      ∃ c m, (s'.nodes.files r).fnode =
        { (s.nodes.files r).fnode with mtime := m, allocatedCommitted := c } := by
  obtain ⟨dir, hdir, hfile⟩ := Option.bind_eq_some_iff.mp hentry
  unfold BlueFS.openForWrite at hopen
  simp only [hdir, hfile, if_true] at hopen
  obtain ⟨-, hopen⟩ := Prod.mk.inj hopen
  obtain ⟨hh, rfl⟩ := Prod.mk.inj hopen
  have hnodes : (s.stampFile r).nodes = s.nodes.setFile r { s.nodes.files r with
      fnode := { (s.nodes.files r).fnode with mtime := 0 }.resetDelta } := by
    simp only [BlueFS.stampFile, BlueFS.logFileUpdate, Transaction.opFileUpdate, Nodes.setFile,
      Function.update_idem, Function.update_self]
  have hsame : SameSpace s ((s.stampFile r).pendRelease []) :=
    .of_setFile (r := r) rfl rfl (show ((s.stampFile r).pendRelease []).nodes = s.nodes.setFile r _
      from hnodes) rfl rfl
  refine ⟨?_, hsame, .of_space hsame rfl, rfl, ?_⟩
  · rw [← Option.some.inj hh]
    show FileWriter.mk r ((s.stampFile r).nodes.files r).fnode.size _ _ = _
    rw [hnodes, Nodes.setFile_files, if_pos rfl]
    rfl
  · show ∃ c m, ((s.stampFile r).nodes.files r).fnode = _
    rw [hnodes, Nodes.setFile_files, if_pos rfl]
    exact ⟨_, _, rfl⟩

/-- The writer of a file opened for overwriting stands behind the old data. -/
theorem openForWrite_behind {d f : Bytes} {r : FileRef} {old : Bytes} (hready : Ready holds s r)
    (hold : Stored s r old) (hentry : s.nodes.entry d f = some r)
    (hopen : s.openForWrite d f true = (0, some h, s')) :
    h.file = r ∧ Writing holds s' h old ∧ Extends s s' r old.length := by
  obtain ⟨rfl, hsame, hheap, hbdev, c, m, hfnode⟩ := openForWrite_overwrites hentry hopen
  obtain ⟨region, hbalanced⟩ := hready.balanced
  have hlaid : Laid s' r old := by
    refine ⟨?_, ?_, fun i y hi hy => ?_⟩
    · rw [hfnode]
      exact ⟨hold.indexed.index, hold.indexed.allocated⟩
    · rw [hfnode]
      exact hold.room
    · rw [hfnode] at hy
      rw [BlueFS.byte, hbdev]
      exact hold.bytes i y hi hy
  have hsize : (s'.nodes.files r).fnode.size = old.length := by
    rw [hfnode]
    exact hold.size
  refine ⟨rfl, ⟨hready.heap hheap ⟨region, hsame.balanced hbalanced⟩, Nat.two_pow_pos 32, old,
    ⟨hlaid, hold.size, hsize.ge, hsize.le⟩, List.append_nil _⟩, ?_⟩
  refine .of_same ?_ ?_ <;> rw [hfnode]

/-! ## The rewritten file -/

/-- File `r` of `s`, which holds `old`, is rewritten in place in `s'`: it reads as `d` and then
what is left of `old`, over the extents it had, with more of them only where `d` does not fit. -/
structure RewrittenInPlace (s s' : BlueFS V A) (r : FileRef) (old d : Bytes) : Prop where
  content : s'.content r = (d ++ old.drop d.length).map some
  readsBack : ReadsBack s' r (d ++ old.drop d.length)
  place : ∀ off < (s.nodes.files r).fnode.allocated,
    place (s'.nodes.files r).fnode.extents off = place (s.nodes.files r).fnode.extents off
  fits : d.length ≤ (s.nodes.files r).fnode.allocated →
    (s'.nodes.files r).fnode.extents = (s.nodes.files r).fnode.extents

/-- Old bytes before new ones are new ones over old ones only where one of them is empty. -/
theorem append_eq_overwrite_iff (old d : Bytes) :
    old ++ d = d ++ old.drop d.length ↔ old = [] ∨ d = [] := by
  constructor
  · intro heq
    have hlength := congrArg List.length heq
    simp only [List.length_append, List.length_drop] at hlength
    have hempty : old.length = 0 ∨ d.length = 0 := by omega
    simpa using hempty
  · rintro (rfl | rfl) <;> simp

/-- What is appended to a file opened for overwriting is behind what it held. -/
theorem overwrite_stored (law : LawfulAllocator holds) {s₀ s₁ : BlueFS V A} {d f : Bytes}
    {r : FileRef} {old : Bytes} {h₁ : FileWriter} {cs : List WriterCall}
    (hready : Ready holds s₀ r) (hold : Stored s₀ r old) (hentry : s₀.nodes.entry d f = some r)
    (hopen : s₀.openForWrite d f true = (0, some h, s))
    (hrun : WriterRun WriterCall.Served s h cs s₁ h₁) (hgranted : s₁.Granted h₁)
    (hclose : s₁.closeWriter h₁ = (0, s')) :
    Stored s' r (old ++ cs.flatMap WriterCall.chunk) ∧
      Extends s₀ s' r (old ++ cs.flatMap WriterCall.chunk).length := by
  obtain ⟨rfl, hwriting, hopened⟩ := openForWrite_behind hready hold hentry hopen
  have hran := hwriting.run_extends law hrun
  obtain ⟨hwriting₁, hfile, -⟩ := hwriting.run law hrun
  obtain ⟨-, hstored, hclosed⟩ := hwriting₁.close law hgranted hclose
  rw [hfile] at hstored hclosed
  exact ⟨hstored, (hopened.trans hran (by simp)).trans hclosed le_rfl⟩

/-- **A file opened for overwriting is rewritten in place exactly where there is nothing to
overwrite or nothing is appended.** -/
theorem overwrite_in_place_iff (law : LawfulAllocator holds) {s₀ s₁ : BlueFS V A} {d f : Bytes}
    {r : FileRef} {old : Bytes} {h₁ : FileWriter} {cs : List WriterCall}
    (hready : Ready holds s₀ r) (hold : Stored s₀ r old) (hentry : s₀.nodes.entry d f = some r)
    (hopen : s₀.openForWrite d f true = (0, some h, s))
    (hrun : WriterRun WriterCall.Served s h cs s₁ h₁) (hgranted : s₁.Granted h₁)
    (hclose : s₁.closeWriter h₁ = (0, s')) :
    RewrittenInPlace s₀ s' r old (cs.flatMap WriterCall.chunk) ↔
      old = [] ∨ cs.flatMap WriterCall.chunk = [] := by
  obtain ⟨hstored, hextends⟩ :=
    overwrite_stored law hready hold hentry hopen hrun hgranted hclose
  generalize cs.flatMap WriterCall.chunk = appended at *
  have hroom := hold.room
  rw [← append_eq_overwrite_iff]
  constructor
  · intro hrewritten
    have hcontent := hstored.content.symm.trans hrewritten.content
    exact List.map_injective_iff.mpr (Option.some_injective _) hcontent
  · intro heq
    have hempty := (append_eq_overwrite_iff old appended).mp heq
    rw [heq] at hstored
    refine ⟨hstored.content, hstored.readsBack, hextends.place, fun hfits => ?_⟩
    refine (hextends.fits ?_).1
    rcases hempty with rfl | rfl
    · simpa using hfits
    · simpa using hroom

end Runs

/-! ## Two bytes and a third -/

section Written

variable [VolumeSelector V] [Allocator A] {s s' : BlueFS V A}

/-- The calls, as long as they are served and return 0, and the close. -/
def closeCalls (s : BlueFS V A) (h : FileWriter) (cs : List WriterCall) : Option (BlueFS V A) :=
  (runCalls WriterCall.Served s h cs).bind fun (h, s) =>
    if s.Granted h ∧ (s.closeWriter h).1 = 0 then some (s.closeWriter h).2 else none

/-- The file `a` of directory `d` opened, written and closed. -/
def writeFile (s : BlueFS V A) (overwrite : Bool) (cs : List WriterCall) : Option (BlueFS V A) :=
  let (r, h, s) := s.openForWrite [100] [97] overwrite
  if r = 0 then h.bind fun h => closeCalls s h cs else none

theorem writeFile_run {overwrite : Bool} {cs : List WriterCall}
    (hwrite : writeFile s overwrite cs = some s') :
    ∃ h s₁ h₁ s₂, s.openForWrite [100] [97] overwrite = (0, some h, s₁) ∧
      WriterRun WriterCall.Served s₁ h cs s₂ h₁ ∧ s₂.Granted h₁ ∧ s₂.closeWriter h₁ = (0, s') := by
  unfold writeFile at hwrite
  generalize s.openForWrite [100] [97] overwrite = opened at *
  obtain ⟨r, h, s₁⟩ := opened
  simp only at hwrite
  split at hwrite
  case isFalse => exact absurd hwrite (by simp)
  case isTrue hzero =>
    obtain ⟨h, rfl, hclose⟩ := Option.bind_eq_some_iff.mp hwrite
    obtain ⟨⟨h₁, s₂⟩, hrun, hlast⟩ := Option.bind_eq_some_iff.mp hclose
    simp only at hlast
    split at hlast
    case isFalse => exact absurd hlast (by simp)
    case isTrue hok =>
      refine ⟨h, s₁, h₁, s₂, by rw [hzero], runCalls_run hrun, hok.1, ?_⟩
      rw [← hok.2, ← Option.some.inj hlast]

end Written

/-- A mounted BlueFS whose device takes writes of any length. -/
def bufferedFs : BlueFS OriginalVolumeSelector FreeList :=
  { listFs manyPages with cfg := { (listFs manyPages).cfg with bufferedIo := true } }

theorem bufferedFs_balanced : ∃ region, Balanced FreeList.Holds bufferedFs region := by
  obtain ⟨region, hbalanced⟩ := page_balanced 32768 (show 20480 ≤ 524288 by decide)
  exact ⟨region, (SameSpace.of_files rfl rfl rfl rfl :
    SameSpace (listFs manyPages) bufferedFs).balanced hbalanced⟩

/-- Two bytes are written to a new file, which is then opened for overwriting. -/
def reused (cs : List WriterCall) :
    Option (BlueFS OriginalVolumeSelector FreeList × BlueFS OriginalVolumeSelector FreeList) :=
  (writeFile bufferedFs false [.append [7, 7]]).bind fun s₀ =>
    if s₀.nodes.entry [100] [97] = some 1 then (writeFile s₀ true cs).map fun s' => (s₀, s') else none

theorem reused_run (cs : List WriterCall) (hsome : (reused cs).isSome = true) :
    ∃ (s₀ s s₁ s' : BlueFS OriginalVolumeSelector FreeList) (h h₁ : FileWriter),
      Ready FreeList.Holds s₀ 1 ∧ Stored s₀ 1 [7, 7] ∧ s₀.nodes.entry [100] [97] = some 1 ∧
      s₀.openForWrite [100] [97] true = (0, some h, s) ∧
      WriterRun WriterCall.Served s h cs s₁ h₁ ∧ s₁.Granted h₁ ∧ s₁.closeWriter h₁ = (0, s') := by
  obtain ⟨⟨s₀, s'⟩, hreused⟩ := Option.isSome_iff_exists.mp hsome
  obtain ⟨s₀, hwrite, hreused⟩ := Option.bind_eq_some_iff.mp hreused
  split at hreused
  case isFalse => exact absurd hreused (by simp)
  case isTrue hentry =>
    obtain ⟨s', hagain, -⟩ := Option.map_eq_some_iff.mp hreused
    obtain ⟨h, s, h₁, s₁, hopen, hrun, hgranted, hclose⟩ := writeFile_run hwrite
    obtain ⟨region, hbalanced⟩ := bufferedFs_balanced
    have hnew := (openForWrite_appended hbalanced (listFs_log manyPages) rfl hopen).writing
    obtain ⟨hwriting, hfile, -⟩ := hnew.run FreeList.lawful hrun
    obtain ⟨hready, hstored, -⟩ := hwriting.close FreeList.lawful hgranted hclose
    obtain ⟨hwriter, -⟩ := openForWrite_new rfl hopen
    rw [hfile, hwriter] at hready hstored
    obtain ⟨h', s₂, h₂, s₃, hopen', hrun', hgranted', hclose'⟩ := writeFile_run hagain
    exact ⟨s₀, s₂, s₃, s', h', h₂, hready, hstored, hentry, hopen', hrun', hgranted', hclose'⟩

/-- A file opened for overwriting and closed is as it was. -/
theorem overwrite_in_place_nothing : ∃ s₀ s' : BlueFS OriginalVolumeSelector FreeList,
    Stored s₀ 1 [7, 7] ∧ RewrittenInPlace s₀ s' 1 [7, 7] [] := by
  obtain ⟨s₀, s, s₁, s', h, h₁, hready, hstored, hentry, hopen, hrun, hgranted, hclose⟩ :=
    reused_run [.flush true] (by decide +kernel)
  exact ⟨s₀, s', hstored, (overwrite_in_place_iff FreeList.lawful hready hstored hentry hopen hrun
    hgranted hclose).mpr (.inr rfl)⟩

/-- A byte appended to a file of two that is opened for overwriting is its third. -/
theorem not_overwrite_in_place :
    ¬ ∀ (s₀ s s₁ s' : BlueFS OriginalVolumeSelector FreeList) (h h₁ : FileWriter) (d f : Bytes)
        (r : FileRef) (old : Bytes) (cs : List WriterCall),
      Ready FreeList.Holds s₀ r → Stored s₀ r old → s₀.nodes.entry d f = some r →
      s₀.openForWrite d f true = (0, some h, s) → WriterRun WriterCall.Served s h cs s₁ h₁ →
      s₁.Granted h₁ → s₁.closeWriter h₁ = (0, s') →
      RewrittenInPlace s₀ s' r old (cs.flatMap WriterCall.chunk) := by
  intro hclaim
  obtain ⟨s₀, s, s₁, s', h, h₁, hready, hstored, hentry, hopen, hrun, hgranted, hclose⟩ :=
    reused_run [.append [9]] (by decide +kernel)
  have hrewritten := hclaim s₀ s s₁ s' h h₁ [100] [97] 1 [7, 7] [.append [9]] hready hstored hentry
    hopen hrun hgranted hclose
  obtain ⟨hbehind, -⟩ := overwrite_stored FreeList.lawful hready hstored hentry hopen hrun hgranted
    hclose
  have hcontent := hbehind.content.symm.trans hrewritten.content
  exact absurd hcontent (by decide)

end Clab.Bluefs
