import Clab.Bluefs.Overwrite

/-!
# RocksDB's writable files

`BlueRocksWritableFile` over a writer of BlueFS: its size in every run, and what
`Close` leaves of the space that `Allocate` took. `Close` truncates the file to the
position of the writer, which is its size by then, so that nothing is given back.
-/

namespace Clab.Bluefs

open Blk Common Segments

variable {V A : Type}

/-! ## The calls -/

/-- The calls of `BlueRocksWritableFile` that write. -/
inductive FileCall
  | append (data : Bytes)
  | flush
  | sync
  | allocate (offset len : Nat)

namespace FileCall

/-- The bytes that the call appends. -/
def data : FileCall → Bytes
  | append data => data
  | flush => []
  | sync => []
  | allocate _ _ => []

variable [VolumeSelector V] [Allocator A]

/-- `Append`, `Flush`, `Sync` and `Allocate`: the result of the call they make, the writer and
BlueFS after it. The end of what is preallocated is a 64-bit sum. -/
def run (s : BlueFS V A) (h : FileWriter) : FileCall → Option (Int × FileWriter × BlueFS V A)
  | append data => some (s.appendTryFlush h data)
  | flush => some (s.flushF h false)
  | sync => s.fsync h
  | allocate offset len =>
      (s.preallocate h.file ((offset + len) % 2 ^ 64) 0).map fun (r, s) => (r, h, s)

/-- The buffer stays below 4 GiB. -/
def Short (h : FileWriter) : FileCall → Prop
  | append data => h.buffer.length + data.length < 2 ^ 32
  | flush => True
  | sync => True
  | allocate _ _ => True

instance (h : FileWriter) : (c : FileCall) → Decidable (c.Short h)
  | append _ => inferInstanceAs (Decidable (_ < _))
  | flush => instDecidableTrue
  | sync => instDecidableTrue
  | allocate _ _ => instDecidableTrue

end FileCall

/-- `GetFileSize`. -/
def BlueFS.getFileSize (s : BlueFS V A) (h : FileWriter) : Nat :=
  (s.nodes.files h.file).fnode.size + h.bufferLength

section Calls

variable [VolumeSelector V] [Allocator A]

/-- `Close`, where RocksDB's `GetPreallocationStatus` reports `lastAllocatedBlock`; the result of
`fsync` is dropped. -/
def BlueFS.closeFile (s : BlueFS V A) (h : FileWriter) (lastAllocatedBlock : Nat) :
    Option (Int × FileWriter × BlueFS V A) :=
  (s.fsync h).bind fun (_, h, s) =>
    if 0 < lastAllocatedBlock then some (s.truncate h h.pos) else some (0, h, s)

/-- Short calls on a writable file whose underlying calls all return 0. -/
inductive FileRun : BlueFS V A → FileWriter → List FileCall → BlueFS V A → FileWriter → Prop
  | nil (s : BlueFS V A) (h : FileWriter) : FileRun s h [] s h
  | cons {s s₁ s' : BlueFS V A} {h h₁ h' : FileWriter} {c : FileCall} {cs : List FileCall} :
      c.Short h → c.run s h = some (0, h₁, s₁) → FileRun s₁ h₁ cs s' h' →
      FileRun s h (c :: cs) s' h'

/-- The unit in which `_allocate` takes space for the file. -/
def BlueFS.fileUnit (s : BlueFS V A) (r : FileRef) : Nat :=
  let prefer := VolumeSelector.selectPreferBdev s.vselector (s.nodes.files r).vselectorHint
  if s.allocSize prefer = 0 then s.cfg.allocSize else s.allocSize prefer

end Calls

/-- No allocator grants more than it is asked for. -/
def Frugal (A : Type) [Allocator A] : Prop :=
  ∀ (a : A) (want unit maxAllocSize : Nat) (hint : Int),
    total PExtent.length (Allocator.allocate a want unit maxAllocSize hint).2.1 ≤ want

/-! ## What a flush allocates -/

section Space

variable [Allocator A] {s : BlueFS V A}

theorem allocateFrom_frugal (hfrugal : Frugal A) (s : BlueFS V A) (need unit : Nat) (node : Fnode)
    (ids : List Nat) : ∃ es, (s.allocateFrom need unit node ids).2.1 = node.claimExtents es ∧
      total Extent.length es ≤ need := by
  induction ids generalizing s with
  | nil => exact ⟨[], rfl, Nat.zero_le _⟩
  | cons id ids ih =>
      unfold BlueFS.allocateFrom
      cases s.bdev id with
      | none => exact ih s
      | some d =>
          simp only
          split
          case isTrue => exact ih _
          case isFalse =>
            refine ⟨_, rfl, le_trans (le_of_eq ?_) (hfrugal (s.alloc id) need unit 0 0)⟩
            rw [total, total, List.map_map]
            rfl

variable [VolumeSelector V]

/-- What a flush allocates stays within a unit of what it needs. -/
theorem growSpace_tight (hfrugal : Frugal A) {r : FileRef} {stop : Nat}
    (hindexed : (s.nodes.files r).fnode.Indexed) (hunit : 0 < s.fileUnit r)
    (htight : (s.nodes.files r).fnode.allocated < stop + s.fileUnit r) :
    ((s.growSpace r stop).2.nodes.files r).fnode.allocated < stop + s.fileUnit r := by
  unfold BlueFS.growSpace
  simp only
  split
  case isFalse => exact htight
  case isTrue hlt =>
    unfold BlueFS.fileUnit at hunit ⊢
    simp only at hunit ⊢
    generalize VolumeSelector.selectPreferBdev s.vselector _ = prefer at *
    obtain ⟨a, u, heq⟩ := s.allocate_eq prefer (stop - (s.nodes.files r).fnode.allocated) 0
      (s.nodes.files r).fnode
    obtain ⟨es, hnode, hle⟩ := allocateFrom_frugal hfrugal s
      (p2roundup (stop - (s.nodes.files r).fnode.allocated)
        (if s.allocSize prefer = 0 then s.cfg.allocSize else s.allocSize prefer))
      (if s.allocSize prefer = 0 then s.cfg.allocSize else s.allocSize prefer)
      (s.nodes.files r).fnode (List.range' prefer (MAX_BDEV - prefer))
    have hnode : (s.allocate prefer (stop - (s.nodes.files r).fnode.allocated) 0
        (s.nodes.files r).fnode).2.1 = (s.nodes.files r).fnode.claimExtents es := hnode
    have hround := @p2roundup_lt (stop - (s.nodes.files r).fnode.allocated) _ hunit
    have hallocated := (hindexed.claimExtents es).allocated
    rw [Fnode.total_claimExtents, ← hindexed.allocated] at hallocated
    rw [heq, hnode]
    split
    case isTrue => simp only; omega
    case isFalse => simp only [Nodes.setFile_files, if_true]; omega

end Space

/-! ## A file and its size -/

section Size

variable [VolumeSelector V] [Allocator A] {holds : A → Set Nat → Prop} {s s' : BlueFS V A}
  {h h' : FileWriter} {n : Nat}

/-- What holds between two calls: the size of the file is the position of the writer, and with
the buffer it is `n`. -/
structure Sized (holds : A → Set Nat → Prop) (s : BlueFS V A) (h : FileWriter) (n : Nat) :
    Prop where
  ready : Ready holds s h.file
  indexed : (s.nodes.files h.file).fnode.Indexed
  short : h.buffer.length < 2 ^ 32
  size : (s.nodes.files h.file).fnode.size = h.pos
  stop : h.pos + h.buffer.length = n

omit [VolumeSelector V] [Allocator A] in
/-- A write of the buffer at the position moves the position and raises the size. -/
theorem flushData_moves {offset length : Nat} {buffered : Bool} (hlength : length ≠ 0)
    (hflush : s.flushData h offset length buffered = (0, h', s')) :
    ∃ d, h' = { h with pos := h.pos + length, dirtyDevs := d } ∧
      (s'.nodes.files h.file).fnode = { (s.nodes.files h.file).fnode with
        size := max (s.nodes.files h.file).fnode.size (h.pos + length) } := by
  unfold BlueFS.flushData at hflush
  rw [if_neg hlength] at hflush
  simp only at hflush
  cases hseek : (s.nodes.files h.file).fnode.seek offset with
  | none =>
      rw [hseek] at hflush
      exact absurd (Prod.mk.inj hflush).1 (by decide)
  | some p =>
      obtain ⟨i, x⟩ := p
      obtain ⟨⟨b, hs⟩, d, hh⟩ := s.writeExtents_eq h buffered
        ((s.nodes.files h.file).fnode.extents.drop i) x (h.buffer.take h.bufferLength)
      rw [hseek] at hflush
      simp only at hflush
      split at hflush
      case isTrue hneg => exact absurd (Prod.mk.inj hflush).1 hneg.ne
      case isFalse =>
        rw [hs, hh] at hflush
        obtain ⟨-, hflush⟩ := Prod.mk.inj hflush
        obtain ⟨rfl, rfl⟩ := Prod.mk.inj hflush
        exact ⟨d, rfl, by simp [BlueFS.advance, Nodes.setFile_files]⟩

theorem flushFrom_moves {length : Nat} (hlength : length ≠ 0)
    (hsize : (s.nodes.files h.file).fnode.size = h.pos)
    (hflush : s.flushFrom h h.pos length = (0, h', s')) :
    0 ≤ (s.growSpace h.file (h.pos + length)).1 ∧
      ∃ d, h' = { h with pos := h.pos + length, dirtyDevs := d } ∧
        (s'.nodes.files h.file).fnode =
          { ((s.growSpace h.file (h.pos + length)).2.nodes.files h.file).fnode with
            size := h.pos + length } := by
  unfold BlueFS.flushFrom at hflush
  simp only at hflush
  split at hflush
  case isTrue hneg => exact absurd (Prod.mk.inj hflush).1 hneg.ne
  case isFalse hok =>
    obtain ⟨es, -, hfnode, -⟩ := growSpace_claims h.file (h.pos + length) (not_lt.mp hok)
    have hgrown : ((s.growSpace h.file (h.pos + length)).2.nodes.files h.file).fnode.size = h.pos := by
      rw [hfnode, Fnode.claimExtents_size, hsize]
    refine ⟨not_lt.mp hok, ?_⟩
    generalize (s.growSpace h.file (h.pos + length)).2 = s₁ at *
    obtain ⟨v, f, heq, hf⟩ := growSize_eq s₁ h.file (h.pos + length)
    obtain ⟨d, hh, hmoved⟩ := flushData_moves hlength hflush
    refine ⟨d, hh, ?_⟩
    rw [hmoved, heq]
    simp only [Nodes.setFile_files, if_true, hf]
    rw [hgrown, max_eq_right (Nat.le_add_right _ _), max_self]

/-- A flush that returns 0 puts the buffer behind the file, or has nothing to do. -/
theorem Sized.flushF_outcome (hsized : Sized holds s h n) {force : Bool}
    (hflush : s.flushF h force = (0, h', s')) :
    (h' = h ∧ s' = s ∧ (force = true → h.buffer = [])) ∨
      0 ≤ (s.growSpace h.file n).1 ∧ ∃ d, h' = { h with pos := n, dirtyDevs := d, buffer := [] } ∧
        (s'.nodes.files h.file).fnode =
          { ((s.growSpace h.file n).2.nodes.files h.file).fnode with size := n } := by
  have hlength : h.bufferLength = h.buffer.length := Nat.mod_eq_of_lt hsized.short
  unfold BlueFS.flushF at hflush
  rw [hlength] at hflush
  split at hflush
  case isTrue hzero =>
    obtain ⟨-, hflush⟩ := Prod.mk.inj hflush
    obtain ⟨rfl, rfl⟩ := Prod.mk.inj hflush
    exact .inl ⟨rfl, rfl, fun _ => List.length_eq_zero_iff.mp hzero⟩
  case isFalse hne =>
    split at hflush
    case isTrue hwait =>
      obtain ⟨-, hflush⟩ := Prod.mk.inj hflush
      obtain ⟨rfl, rfl⟩ := Prod.mk.inj hflush
      refine .inl ⟨rfl, rfl, fun hforce => ?_⟩
      rw [hforce] at hwait
      exact absurd hwait.1 (by simp)
    case isFalse =>
      have hrange : s.flushRange h h.pos h.buffer.length = s.flushFrom h h.pos h.buffer.length := by
        unfold BlueFS.flushRange
        rw [if_neg (by rw [hsized.ready.live]; simp), if_neg (by omega), if_neg (lt_irrefl _)]
      rw [hrange] at hflush
      rcases hfrom : s.flushFrom h h.pos h.buffer.length with ⟨r, h₁, s₁⟩
      rw [hfrom] at hflush
      simp only at hflush
      split at hflush
      case isFalse hfail => exact absurd (Prod.mk.inj hflush).1 hfail
      case isTrue hzero =>
        rw [hzero] at hfrom
        obtain ⟨hgrown, d, rfl, hfnode⟩ := flushFrom_moves hne hsized.size hfrom
        obtain ⟨-, hflush⟩ := Prod.mk.inj hflush
        obtain ⟨rfl, rfl⟩ := Prod.mk.inj hflush
        rw [hsized.stop] at hgrown hfnode
        exact .inr ⟨hgrown, d, by rw [hsized.stop], hfnode⟩

namespace Sized

omit [VolumeSelector V] in
theorem keeps (hsized : Sized holds s h n) (hkept : KeepsFile s s' h.file)
    (hready : Ready holds s' h.file) (hfile : h'.file = h.file) (hpos : h'.pos = h.pos)
    (hbuffer : h'.buffer = h.buffer) : Sized holds s' h' n := by
  obtain ⟨c, hc⟩ := hkept.fnode
  refine ⟨by rw [hfile]; exact hready, ?_, by rw [hbuffer]; exact hsized.short, ?_, ?_⟩
  · rw [hfile, hc]
    exact ⟨hsized.indexed.index, hsized.indexed.allocated⟩
  · rw [hfile, hc, hpos]
    exact hsized.size
  · rw [hpos, hbuffer]
    exact hsized.stop

/-- A flush that returns 0 leaves what is written and what is not together. -/
theorem flushF (law : LawfulAllocator holds) (hsized : Sized holds s h n) {force : Bool}
    (hflush : s.flushF h force = (0, h', s')) :
    Sized holds s' h' n ∧ h'.file = h.file ∧ (force = true → h'.buffer = []) := by
  have hready := hsized.ready.flushF law force
  rw [hflush] at hready
  rcases hsized.flushF_outcome hflush with ⟨rfl, rfl, hempty⟩ | ⟨hgrown, d, rfl, hfnode⟩
  · exact ⟨hsized, rfl, hempty⟩
  · obtain ⟨es, -, hclaimed, -⟩ := growSpace_claims h.file n hgrown
    have hindexed := hsized.indexed.claimExtents es
    rw [hclaimed] at hfnode
    refine ⟨⟨hready, ?_, Nat.two_pow_pos 32, ?_, Nat.add_zero n⟩, rfl, fun _ => rfl⟩
    · rw [hfnode]
      exact ⟨hindexed.index, hindexed.allocated⟩
    · rw [hfnode]

/-- A flush takes no more than it needs, in whole units. -/
theorem flushF_tight (hfrugal : Frugal A) (hsized : Sized holds s h n) {force : Bool}
    (hflush : s.flushF h force = (0, h', s')) (hunit : 0 < s.fileUnit h.file)
    (htight : (s.nodes.files h.file).fnode.allocated < n + s.fileUnit h.file) :
    (s'.nodes.files h.file).fnode.allocated < n + s.fileUnit h.file := by
  rcases hsized.flushF_outcome hflush with ⟨-, rfl, -⟩ | ⟨-, d, -, hfnode⟩
  · exact htight
  · rw [hfnode]
    exact growSpace_tight hfrugal hsized.indexed hunit htight

theorem fsync (law : LawfulAllocator holds) (hsized : Sized holds s h n)
    (hsync : s.fsync h = some (0, h', s')) : Sized holds s' h' n ∧ h'.file = h.file ∧ h'.buffer = [] := by
  obtain ⟨h₁, s₁, hflush, rfl, hready, hkept⟩ := fsync_flushes law hsized.ready hsync
  obtain ⟨hflushed, hfile, hempty⟩ := hsized.flushF law hflush
  rw [← hfile] at hready hkept
  exact ⟨hflushed.keeps hkept hready rfl rfl rfl, hfile, hempty rfl⟩

/-- Preallocation takes space for the file and leaves its size. -/
theorem preallocate (law : LawfulAllocator holds) (hsized : Sized holds s h n) {off len : Nat}
    (hcall : s.preallocate h.file off len = some (0, s')) : Sized holds s' h n := by
  unfold BlueFS.preallocate at hcall
  simp only at hcall
  split at hcall
  case isTrue =>
    obtain ⟨-, rfl⟩ := Prod.mk.inj (Option.some.inj hcall)
    exact hsized
  case isFalse =>
    split at hcall
    case isTrue => exact absurd hcall (by simp)
    case isFalse =>
      split at hcall
      case isFalse =>
        obtain ⟨-, rfl⟩ := Prod.mk.inj (Option.some.inj hcall)
        exact hsized
      case isTrue =>
        obtain ⟨region, pool, hledger⟩ := hsized.ready.balanced
        generalize VolumeSelector.selectPreferBdev s.vselector _ = prefer at hcall
        obtain ⟨es, hnode, -⟩ := s.allocate_claims prefer
          (off + len - (s.nodes.files h.file).fnode.allocated) 0 (s.nodes.files h.file).fnode
        rcases hal : s.allocate prefer (off + len - (s.nodes.files h.file).fnode.allocated) 0
          (s.nodes.files h.file).fnode with ⟨res, fnode, s₁⟩
        obtain ⟨a, u, heq⟩ := s.allocate_eq prefer
          (off + len - (s.nodes.files h.file).fnode.allocated) 0 (s.nodes.files h.file).fnode
        rw [hal] at heq hcall hnode
        simp only at heq hcall hnode
        subst heq hnode
        obtain ⟨pool', -, hgrants⟩ := allocate_ledger law hledger hsized.ready.made
          hsized.ready.live hal
        split at hcall
        case isTrue hneg => exact absurd (Prod.mk.inj (Option.some.inj hcall)).1 hneg.ne
        case isFalse =>
          obtain ⟨-, rfl⟩ := Prod.mk.inj (Option.some.inj hcall)
          -- the state with the space granted, before the log is told
          obtain ⟨s₁, hs₁⟩ : ∃ s₁ : BlueFS V A, s₁ = { s with
              alloc := a
              bluefsUsed := u
              nodes := s.nodes.setFile h.file { s.nodes.files h.file with
                fnode := (s.nodes.files h.file).fnode.claimExtents es } } := ⟨_, rfl⟩
          rw [← hs₁]
          have hbalanced : Balanced holds s₁ region := by
            subst hs₁
            exact ⟨pool', hgrants _ { s.nodes.files h.file with
              fnode := (s.nodes.files h.file).fnode.claimExtents es } rfl rfl rfl
              hsized.ready.live rfl⟩
          have hfiles : ∀ r, s₁.nodes.files r = if r = h.file then { s.nodes.files h.file with
              fnode := (s.nodes.files h.file).fnode.claimExtents es } else s.nodes.files r := by
            intro r
            rw [hs₁]
            exact Nodes.setFile_files _ _ _ _
          have hready : Ready holds s₁ h.file := by
            refine hsized.ready.heap ⟨by rw [hs₁]; rfl, fun r => ?_, by rw [hs₁]⟩ ⟨region, hbalanced⟩
            rw [hfiles r]
            split
            case isTrue hr => rw [hr]
            case isFalse => rfl
          have hgrown : Sized holds s₁ h n := by
            refine ⟨hready, ?_, hsized.short, ?_, hsized.stop⟩ <;> rw [hfiles, if_pos rfl]
            · exact hsized.indexed.claimExtents es
            · simp only [Fnode.claimExtents_size]
              exact hsized.size
          have hsame := logFileUpdateInc_sameSpace s₁ h.file
          exact hgrown.keeps (BlueFS.logFileUpdateInc_keepsFile s₁ h.file h.file)
            (hready.heap (.of_space hsame rfl) ⟨region, hsame.balanced hbalanced⟩) rfl rfl rfl

omit [VolumeSelector V] in
theorem append (hsized : Sized holds s h n) {data : Bytes}
    (hshort : h.buffer.length + data.length < 2 ^ 32) :
    Sized holds s (h.append data) (n + data.length) := by
  have hstop := hsized.stop
  have hbuffer : (h.append data).buffer = h.buffer ++ data := by
    show h.buffer ++ data.take (data.length % 2 ^ 32) = _
    rw [Nat.mod_eq_of_lt (by omega), List.take_length]
  refine ⟨hsized.ready, hsized.indexed, ?_, hsized.size, ?_⟩
  all_goals rw [hbuffer, List.length_append]
  · exact hshort
  · show h.pos + _ = _
    omega

theorem call (law : LawfulAllocator holds) {c : FileCall} (hsized : Sized holds s h n)
    (hshort : c.Short h) (hcall : c.run s h = some (0, h', s')) :
    Sized holds s' h' (n + c.data.length) ∧ h'.file = h.file := by
  cases c with
  | append data =>
      have happended := hsized.append hshort
      have hcall := Option.some.inj hcall
      unfold BlueFS.appendTryFlush at hcall
      simp only at hcall
      split at hcall
      case isTrue =>
        obtain ⟨hflushed, hfile, -⟩ := happended.flushF law hcall
        exact ⟨hflushed, hfile⟩
      case isFalse =>
        obtain ⟨-, hcall⟩ := Prod.mk.inj hcall
        obtain ⟨rfl, rfl⟩ := Prod.mk.inj hcall
        exact ⟨happended, rfl⟩
  | flush =>
      obtain ⟨hflushed, hfile, -⟩ := hsized.flushF law (Option.some.inj hcall)
      exact ⟨hflushed, hfile⟩
  | sync =>
      obtain ⟨hsynced, hfile, -⟩ := hsized.fsync law hcall
      exact ⟨hsynced, hfile⟩
  | allocate offset len =>
      obtain ⟨⟨r, s₁⟩, hpre, heq⟩ := Option.map_eq_some_iff.mp hcall
      simp only [Prod.mk.injEq] at heq
      obtain ⟨rfl, rfl, rfl⟩ := heq
      exact ⟨hsized.preallocate law hpre, rfl⟩

theorem run (law : LawfulAllocator holds) {cs : List FileCall} (hsized : Sized holds s h n)
    (hrun : FileRun s h cs s' h') :
    Sized holds s' h' (n + (cs.flatMap FileCall.data).length) ∧ h'.file = h.file := by
  induction hrun generalizing n with
  | nil => exact ⟨hsized, rfl⟩
  | @cons s s₁ s' h h₁ h' c cs hshort hcall hrest ih =>
      obtain ⟨hnext, hfile⟩ := hsized.call law hshort hcall
      obtain ⟨hend, hfile'⟩ := ih hnext
      rw [List.flatMap_cons, List.length_append, ← Nat.add_assoc]
      exact ⟨hend, hfile'.trans hfile⟩

omit [VolumeSelector V] in
theorem getFileSize (hsized : Sized holds s h n) : s.getFileSize h = n := by
  rw [BlueFS.getFileSize, FileWriter.bufferLength, Nat.mod_eq_of_lt hsized.short, hsized.size]
  exact hsized.stop

/-- Once all is synced, the position is the size, and the truncation of `Close` does nothing. -/
theorem closeFile (law : LawfulAllocator holds) (hsized : Sized holds s h n)
    {h₁ : FileWriter} {s₁ : BlueFS V A} {r : Int} {lastAllocatedBlock : Nat}
    (hsync : s.fsync h = some (0, h₁, s₁))
    (hclose : s.closeFile h lastAllocatedBlock = some (r, h', s')) : h' = h₁ ∧ s' = s₁ := by
  obtain ⟨hsynced, -, -⟩ := hsized.fsync law hsync
  have htruncate : (s₁.truncate h₁ h₁.pos).2 = (h₁, s₁) := by
    unfold BlueFS.truncate
    simp only
    split
    · rfl
    split
    · rfl
    split
    · rfl
    rw [if_pos hsynced.size.symm]
  unfold BlueFS.closeFile at hclose
  rw [hsync, Option.bind_some] at hclose
  simp only at hclose
  split at hclose
  · have hclose := congrArg Prod.snd (Option.some.inj hclose)
    rw [htruncate] at hclose
    exact ⟨(Prod.mk.inj hclose).1.symm, (Prod.mk.inj hclose).2.symm⟩
  · obtain ⟨-, hclose⟩ := Prod.mk.inj (Option.some.inj hclose)
    exact ⟨(Prod.mk.inj hclose).1.symm, (Prod.mk.inj hclose).2.symm⟩

theorem fsync_extends (law : LawfulAllocator holds) (hsized : Sized holds s h n)
    (hsync : s.fsync h = some (0, h', s')) : Extends s s' h.file n := by
  obtain ⟨h₁, s₁, hflush, -, -, hkept⟩ := fsync_flushes law hsized.ready hsync
  have hextends := Bluefs.flushF_extends hsized.indexed true
  rw [hflush, FileWriter.bufferLength, Nat.mod_eq_of_lt hsized.short, hsized.stop] at hextends
  exact hextends.trans (.of_keeps hkept) le_rfl

theorem fsync_tight (law : LawfulAllocator holds) (hfrugal : Frugal A) (hsized : Sized holds s h n)
    (hsync : s.fsync h = some (0, h', s')) (hunit : 0 < s.fileUnit h.file)
    (htight : (s.nodes.files h.file).fnode.allocated < n + s.fileUnit h.file) :
    (s'.nodes.files h.file).fnode.allocated < n + s.fileUnit h.file := by
  obtain ⟨h₁, s₁, hflush, -, -, hkept⟩ := fsync_flushes law hsized.ready hsync
  obtain ⟨c, hc⟩ := hkept.fnode
  rw [hc]
  exact hsized.flushF_tight hfrugal hflush hunit htight

end Sized

/-! ## The space that is given back -/

/-- The file has less than a unit more than its size, and what it gave up is queued for release
once. -/
structure GivesBack (s s' : BlueFS V A) (r : FileRef) (unit : Nat) : Prop where
  tight : (s'.nodes.files r).fnode.allocated < (s'.nodes.files r).fnode.size + unit
  queued : ∀ y, 0 < covered (s.nodes.files r).fnode.extents y →
    covered (s'.nodes.files r).fnode.extents y = 0 → pendCover s'.dirty.pendingRelease y = 1

omit [VolumeSelector V] in
theorem Appended.sized (happended : Appended holds s h []) : Sized holds s h 0 := by
  obtain ⟨data, hw, hdata⟩ := happended.writes
  obtain ⟨rfl, hbuffer⟩ := List.append_eq_nil_iff.mp hdata
  exact ⟨happended.ready, hw.stored.indexed, happended.short, hw.stored.size.trans hw.pos.symm,
    by rw [hw.pos, hbuffer]; rfl⟩

theorem closed_gives_back_iff (law : LawfulAllocator holds) (hfrugal : Frugal A)
    (hsized : Sized holds s h n) {h₁ : FileWriter} {s₁ : BlueFS V A} {r : Int}
    {lastAllocatedBlock : Nat} (hunit : 0 < s.fileUnit h.file)
    (hsync : s.fsync h = some (0, h₁, s₁))
    (hclose : s.closeFile h lastAllocatedBlock = some (r, h', s')) :
    s'.getFileSize h' = n ∧ (GivesBack s s' h.file (s.fileUnit h.file) ↔
      (s.nodes.files h.file).fnode.allocated < n + s.fileUnit h.file) := by
  obtain ⟨rfl, rfl⟩ := hsized.closeFile law hsync hclose
  obtain ⟨hsynced, hfile, hempty⟩ := hsized.fsync law hsync
  have hextends := hsized.fsync_extends law hsync
  have hsize : (s'.nodes.files h.file).fnode.size = n := by
    have hstop := hsynced.stop
    rw [hempty, List.length_nil, Nat.add_zero] at hstop
    rw [← hfile, hsynced.size, hstop]
  refine ⟨hsynced.getFileSize, fun hback => ?_, fun htight => ⟨?_, fun y hheld hleft => ?_⟩⟩
  · have htight := hback.tight
    rw [hsize] at htight
    exact lt_of_le_of_lt hextends.grown htight
  · rw [hsize]
    exact hsized.fsync_tight law hfrugal hsync hunit htight
  · -- no extent leaves the file
    have hkept := hextends.kept y
    omega

/-- **The size of a writable file is what was appended, and closing it leaves less than a unit
too much exactly where there was no more before.** -/
theorem writable_file_sized (law : LawfulAllocator holds) (hfrugal : Frugal A) {s₀ : BlueFS V A}
    {region : Nat → Set Nat} (hbalanced : Balanced holds s₀ region)
    (hlog : ∀ w, s₀.log.writer = some w → LogLive s₀ w) {d f : Bytes}
    (hnew : s₀.nodes.entry d f = none) (hopen : s₀.openForWrite d f false = (0, some h, s))
    {cs : List FileCall} (hrun : FileRun s h cs s' h') :
    s'.getFileSize h' = (cs.flatMap FileCall.data).length ∧
      ∀ (lastAllocatedBlock : Nat) (h₁ h₂ : FileWriter) (s₁ s₂ : BlueFS V A),
        0 < s'.fileUnit h'.file → s'.fsync h' = some (0, h₁, s₁) →
        s'.closeFile h' lastAllocatedBlock = some (0, h₂, s₂) →
        s₂.getFileSize h₂ = (cs.flatMap FileCall.data).length ∧
          (GivesBack s' s₂ h'.file (s'.fileUnit h'.file) ↔
            (s'.nodes.files h'.file).fnode.allocated <
              (cs.flatMap FileCall.data).length + s'.fileUnit h'.file) := by
  obtain ⟨hsized, -⟩ := (openForWrite_appended hbalanced hlog hnew hopen).sized.run law hrun
  rw [Nat.zero_add] at hsized
  exact ⟨hsized.getFileSize, fun last h₁ h₂ s₁ s₂ hunit hsync hclose =>
    closed_gives_back_iff law hfrugal hsized hunit hsync hclose⟩

end Size

/-! ## Pages taken in advance -/

/-- The calls on the file `a`, as long as they are short and return 0. -/
def runFile {V A : Type} [VolumeSelector V] [Allocator A] (s : BlueFS V A) (h : FileWriter) :
    List FileCall → Option (FileWriter × BlueFS V A)
  | [] => some (h, s)
  | c :: cs =>
      if c.Short h then
        (c.run s h).bind fun (r, h, s) => if r = 0 then runFile s h cs else none
      else none

theorem runFile_run [VolumeSelector V] [Allocator A] {s s' : BlueFS V A} {h h' : FileWriter}
    {cs : List FileCall} (hrun : runFile s h cs = some (h', s')) : FileRun s h cs s' h' := by
  induction cs generalizing s h with
  | nil =>
      obtain ⟨rfl, rfl⟩ := Prod.mk.inj (Option.some.inj hrun)
      exact .nil s h
  | cons c cs ih =>
      unfold runFile at hrun
      split at hrun
      case isFalse => exact absurd hrun (by simp)
      case isTrue hshort =>
        obtain ⟨⟨r, h₁, s₁⟩, hcall, hrest⟩ := Option.bind_eq_some_iff.mp hrun
        simp only at hrest
        split at hrest
        case isFalse => exact absurd hrest (by simp)
        case isTrue hzero =>
          rw [hzero] at hcall
          exact .cons hshort hcall (ih hrest)

theorem frugal_freeList : Frugal FreeList := by
  intro a want unit maxAllocSize hint
  show total PExtent.length (a.allocate want).2.1 ≤ want
  unfold FreeList.allocate
  split
  · exact Nat.zero_le _
  · split
    · exact le_rfl
    · exact Nat.le_of_not_lt ‹_›

/-- The file `a` after it was given `len` bytes, and two were appended; and after `Close`. -/
def preallocated (len : Nat) : Option ((FileWriter × BlueFS OriginalVolumeSelector FreeList) ×
    FileWriter × BlueFS OriginalVolumeSelector FreeList) :=
  (runFile (bufferedFs.openForWrite [100] [97] false).2.2 { file := 1 }
      [.allocate 0 len, .append [7, 7]]).bind fun (h, s) =>
    (s.fsync h).bind fun (r, _) =>
      if r = 0 then (s.closeFile h 1).bind fun (r, h', s') =>
        if r = 0 then some ((h, s), h', s') else none
      else none

theorem preallocated_run {len : Nat} {h h' : FileWriter}
    {s s' : BlueFS OriginalVolumeSelector FreeList}
    (hclosed : preallocated len = some ((h, s), h', s')) :
    FileRun (bufferedFs.openForWrite [100] [97] false).2.2 { file := 1 }
        [.allocate 0 len, .append [7, 7]] s h ∧
      (∃ h₁ s₁, s.fsync h = some (0, h₁, s₁)) ∧ s.closeFile h 1 = some (0, h', s') := by
  obtain ⟨⟨h₀, t⟩, hrun, hrest⟩ := Option.bind_eq_some_iff.mp hclosed
  obtain ⟨⟨r, h₁, s₁⟩, hsync, hrest⟩ := Option.bind_eq_some_iff.mp hrest
  simp only at hsync hrest
  split at hrest
  case isFalse => exact absurd hrest (by simp)
  case isTrue hzero =>
    obtain ⟨⟨r', h₂, s₂⟩, hclose, hrest⟩ := Option.bind_eq_some_iff.mp hrest
    simp only at hrest
    split at hrest
    case isFalse => exact absurd hrest (by simp)
    case isTrue hzero' =>
      simp only [Option.some.injEq, Prod.mk.injEq] at hrest
      obtain ⟨⟨rfl, rfl⟩, rfl, rfl⟩ := hrest
      rw [hzero] at hsync
      rw [hzero'] at hclose
      exact ⟨runFile_run hrun, ⟨h₁, s₁, hsync⟩, hclose⟩

/-- One page taken for two bytes is no page too much. -/
theorem writable_file_sized_page :
    ∃ (s s' : BlueFS OriginalVolumeSelector FreeList) (h h' : FileWriter),
      preallocated 4096 = some ((h, s), h', s') ∧ s'.getFileSize h' = 2 ∧
        GivesBack s s' h.file 4096 := by
  have hclosed : (preallocated 4096).map (fun out => (out.1.2.fileUnit out.1.1.file,
      (out.1.2.nodes.files out.1.1.file).fnode.allocated)) = some (4096, 4096) := by decide +kernel
  obtain ⟨⟨⟨h, s⟩, h', s'⟩, hpre, hout⟩ := Option.map_eq_some_iff.mp hclosed
  obtain ⟨hunit, hallocated⟩ := Prod.mk.inj hout
  simp only at hunit hallocated
  obtain ⟨hrun, ⟨h₁, s₁, hsync⟩, hclose⟩ := preallocated_run hpre
  obtain ⟨region, hbalanced⟩ := bufferedFs_balanced
  obtain ⟨-, hclosed⟩ := writable_file_sized FreeList.lawful frugal_freeList hbalanced
    (listFs_log manyPages) rfl (show bufferedFs.openForWrite [100] [97] false =
      (0, some { file := 1 }, (bufferedFs.openForWrite [100] [97] false).2.2) from rfl) hrun
  obtain ⟨hsize, hback⟩ := hclosed 1 h₁ h' s₁ s' (by rw [hunit]; decide) hsync hclose
  rw [hunit, hallocated] at hback
  exact ⟨s, s', h, h', hpre, hsize, hback.mpr (by decide)⟩

/-- Two pages taken for two bytes are both kept. -/
theorem not_given_back :
    ¬ ∀ (s₀ s s₁ s₂ s' : BlueFS OriginalVolumeSelector FreeList) (region : Nat → Set Nat)
        (h h₁ h₂ h' : FileWriter) (d f : Bytes) (cs : List FileCall) (lastAllocatedBlock : Nat),
      Balanced FreeList.Holds s₀ region → (∀ w, s₀.log.writer = some w → LogLive s₀ w) →
      s₀.nodes.entry d f = none → s₀.openForWrite d f false = (0, some h, s) →
      FileRun s h cs s₁ h₁ → (∃ offset len, .allocate offset len ∈ cs) → 0 < lastAllocatedBlock →
      0 < s₁.fileUnit h₁.file → s₁.fsync h₁ = some (0, h₂, s₂) →
      s₁.closeFile h₁ lastAllocatedBlock = some (0, h', s') →
      GivesBack s₁ s' h₁.file (s₁.fileUnit h₁.file) := by
  intro hclaim
  have hclosed : (preallocated 8192).map (fun out => (out.1.2.fileUnit out.1.1.file,
      (out.2.2.nodes.files out.1.1.file).fnode.allocated,
      (out.2.2.nodes.files out.1.1.file).fnode.size)) = some (4096, 8192, 2) := by decide +kernel
  obtain ⟨⟨⟨h, s⟩, h', s'⟩, hpre, hout⟩ := Option.map_eq_some_iff.mp hclosed
  simp only [Prod.mk.injEq] at hout
  obtain ⟨hunit, hallocated, hsize⟩ := hout
  obtain ⟨hrun, ⟨h₁, s₁, hsync⟩, hclose⟩ := preallocated_run hpre
  obtain ⟨region, hbalanced⟩ := bufferedFs_balanced
  have htight := (hclaim bufferedFs _ s s₁ s' region { file := 1 } h h₁ h' [100] [97] _ 1 hbalanced
    (listFs_log manyPages) rfl rfl hrun ⟨0, 8192, List.mem_cons_self⟩ Nat.one_pos
    (by rw [hunit]; decide) hsync hclose).tight
  rw [hunit, hallocated, hsize] at htight
  exact absurd htight (by decide)

end Clab.Bluefs
