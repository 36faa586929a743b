import Clab.Common.CrcRuns

/-!
# Editing buffer lists

The calls that copy, move, rebuild and extend lists, beside `append`, `substr_of`
and `splice`. New nodes are ranges of raw buffers in use, or of one that was just
made; in both cases a carriage stays the last use of its raw buffer.
-/

namespace Clab.Common

/-- `BUFFER_APPEND_SIZE`. -/
def bufferAppendSize : Nat := bufferAllocUnit - rawCombinedSize

namespace Buffers

/-! ## The calls -/

/-- A new raw buffer. Memory that nobody has written is zeros here. -/
def makeRaw (b : Buffers) (data : List UInt8) : Buffers :=
  { b.setRaw b.nextRaw { data := data } with nextRaw := b.nextRaw + 1 }

/-- `clear`. -/
def clear (b : Buffers) (l : Nat) : Buffers := b.setList l {}

/-- The copy constructor and assignment, `share`. -/
def copyFrom (b : Buffers) (l src : Nat) : Buffers :=
  if l = src then b
  else b.setList l { b.lists src with nodes := (b.lists src).nodes.map BufferNode.copy }

/-- The move constructor and assignment: the carriage moves along. -/
def moveFrom (b : Buffers) (l src : Nat) : Buffers := (b.setList l (b.lists src)).setList src {}

/-- `swap`. -/
def swap (b : Buffers) (l m : Nat) : Buffers := (b.setList l (b.lists m)).setList m (b.lists l)

/-- `push_back(const ptr &)` of a new `ptr` with the bytes. -/
def pushBack (b : Buffers) (l : Nat) (data : List UInt8) : Buffers :=
  if data.length = 0 then b
  else (b.makeRaw data).setList l
    { nodes := (b.lists l).nodes ++ [{ raw := b.nextRaw, off := 0, len := data.length }]
      len := (b.lists l).len + data.length
      num := (b.lists l).num + 1 }

/-- `push_back(ptr &&)` of a new `ptr` with the bytes: there is no carriage any more. -/
def pushBackMoved (b : Buffers) (l : Nat) (data : List UInt8) : Buffers :=
  if data.length = 0 then b
  else (b.makeRaw data).setList l
    { nodes := (b.lists l).nodes.map BufferNode.copy ++
        [{ raw := b.nextRaw, off := 0, len := data.length }]
      len := (b.lists l).len + data.length
      num := (b.lists l).num + 1 }

/-- `push_back` of a raw buffer with the bytes, which becomes the carriage. -/
def pushBackRaw (b : Buffers) (l : Nat) (data : List UInt8) : Buffers :=
  (b.makeRaw data).setList l
    { nodes := (b.lists l).nodes.map BufferNode.copy ++
        [{ raw := b.nextRaw, off := 0, len := data.length, carriage := true }]
      len := (b.lists l).len + data.length
      num := (b.lists l).num + 1 }

/-- `append(bp, off, len)`, where `bp` is a copy of a node of some list. -/
def appendPtr (b : Buffers) (l : Nat) (bp : BufferNode) (off len : Nat) : Option Buffers :=
  if bp.len < len + off then none
  else some (b.setList l (appendPiece (b.lists l) { raw := bp.raw, off := bp.off + off, len := len }))

/-- `prepend_zero`. -/
def prependZero (b : Buffers) (l n : Nat) : Buffers :=
  (b.makeRaw (List.replicate n 0)).setList l
    { nodes := { raw := b.nextRaw, off := 0, len := n } :: (b.lists l).nodes
      len := (b.lists l).len + n
      num := (b.lists l).num + 1 }

/-- `append_zero`: the steps of `append`, with `memset` for `memcpy`. -/
def appendZero (b : Buffers) (l n : Nat) : Buffers := b.append l (List.replicate n 0)

/-- A carriage on a new raw buffer of `n` bytes. -/
def pushRoom (b : Buffers) (l n : Nat) : Buffers :=
  (b.makeRaw (List.replicate n 0)).pushCarriage l { raw := b.nextRaw, off := 0, len := 0 }

/-- `_len += n`. -/
def addLength (b : Buffers) (l n : Nat) : Buffers :=
  b.setList l { b.lists l with len := (b.lists l).len + n }

/-- `append(char)`. -/
def appendChar (b : Buffers) (l : Nat) (c : UInt8) : Buffers :=
  (((if b.unusedTail l = 0 then b.pushRoom l bufferAppendSize else b.openTail l).writeTail l
    [c])).addLength l 1

/-- `append_hole` and what its filler then writes over the hole. Without a carriage a hole of no
bytes fails an assertion. -/
def appendHole (b : Buffers) (l : Nat) (data : List UInt8) : Option Buffers :=
  let b := b.addLength l data.length
  if b.unusedTail l < data.length then
    some ((b.refillAppendSpace l data.length).writeTail l data)
  else if b.carriage l = none then none
  else some ((b.openTail l).writeTail l data)

/-- `get_contiguous_appender(room)`, to which `data` is appended until it is flushed. More than
was asked for is written past the room. -/
def appendContiguous (b : Buffers) (l room : Nat) (data : List UInt8) : Option Buffers :=
  if room < data.length then none
  else if b.unusedTail l < room then
    some (((b.pushRoom l room).writeTail l data).addLength l data.length)
  else if b.carriage l = none then none
  else some (((b.openTail l).writeTail l data).addLength l data.length)

/-- `reserve`. -/
def reserve (b : Buffers) (l prealloc : Nat) : Buffers :=
  if b.unusedTail l < prealloc then b.pushRoom l prealloc else b

/-- `rebuild`: one raw buffer with all the bytes. -/
def rebuild (b : Buffers) (l : Nat) : Buffers :=
  if (b.lists l).len = 0 then b.setList l { b.lists l with nodes := [], num := 0 }
  else (b.makeRaw (b.bytes l)).setList l
    { b.lists l with
      nodes := [{ raw := b.nextRaw, off := 0, len := (b.lists l).len, carriage := true }]
      num := 1 }

/-! ## A new raw buffer -/

variable {b : Buffers} {l m r : Nat} {data : List UInt8} {n : BufferNode}

@[simp] theorem makeRaw_lists (b : Buffers) (data : List UInt8) :
    (b.makeRaw data).lists = b.lists := rfl

@[simp] theorem makeRaw_nextRaw (b : Buffers) (data : List UInt8) :
    (b.makeRaw data).nextRaw = b.nextRaw + 1 := rfl

theorem makeRaw_raws (b : Buffers) (data : List UInt8) (r : Nat) :
    (b.makeRaw data).raws r = if r = b.nextRaw then { data := data } else b.raws r :=
  setRaw_raws b b.nextRaw { data := data } r

namespace Coherent

/-- Nobody has a node of the raw buffer that is made next. -/
theorem raw_ne (hb : Coherent b) (hn : n ∈ (b.lists l).nodes) : n.raw ≠ b.nextRaw :=
  (hb.fits l n hn).1.ne

/-- A list of parts of nodes there are and of parts of a new raw buffer. -/
theorem setFresh (hb : Coherent b) {list : BufferList}
    (hnodes : ∀ n ∈ list.nodes,
      (∃ m, ∃ n₀ ∈ (b.lists m).nodes, n₀.raw = n.raw ∧ n.stop ≤ n₀.stop) ∨
        (n.raw = b.nextRaw ∧ n.stop ≤ data.length))
    (hmarked : ∀ c ∈ list.nodes, c.carriage = true →
      (∃ c₀ ∈ (b.lists l).nodes, c₀.carriage = true ∧ c₀.raw = c.raw ∧ c₀.stop = c.stop) ∨
        (c.raw = b.nextRaw ∧ ∀ n ∈ list.nodes, n.raw = b.nextRaw → n.stop ≤ c.stop))
    (hsingle : list.nodes.countP BufferNode.carriage ≤ 1) :
    Coherent ((b.makeRaw data).setList l list) := by
  have hwithin : ∀ m, ∀ n ∈ (((b.makeRaw data).setList l list).lists m).nodes,
      (∃ m', ∃ n₀ ∈ (b.lists m').nodes, n₀.raw = n.raw ∧ n.stop ≤ n₀.stop) ∨
        (n ∈ list.nodes ∧ n.raw = b.nextRaw ∧ n.stop ≤ data.length) := by
    intro m n hn
    rw [setList_lists] at hn
    split at hn
    · exact (hnodes n hn).imp_right fun h => ⟨hn, h⟩
    · exact .inl ⟨m, n, hn, rfl, le_rfl⟩
  have hbefore : ∀ m, ∀ c ∈ (((b.makeRaw data).setList l list).lists m).nodes,
      c.carriage = true →
      (∃ c₀ ∈ (b.lists m).nodes, c₀.carriage = true ∧ c₀.raw = c.raw ∧ c₀.stop = c.stop) ∨
        (m = l ∧ c.raw = b.nextRaw ∧ ∀ n ∈ list.nodes, n.raw = b.nextRaw → n.stop ≤ c.stop) := by
    intro m c hc hmark
    rw [setList_lists] at hc
    split at hc
    case isTrue hm =>
      rw [hm]
      exact (hmarked c hc hmark).imp_right fun h => ⟨rfl, h⟩
    case isFalse => exact .inl ⟨c, hc, hmark, rfl, rfl⟩
  have hraws : ∀ x, ((b.makeRaw data).setList l list).raws x =
      if x = b.nextRaw then { data := data } else b.raws x := makeRaw_raws b data
  have hold : ∀ {n₀ n : BufferNode} {m'}, n₀ ∈ (b.lists m').nodes → n₀.raw = n.raw →
      n.raw ≠ b.nextRaw := by
    intro n₀ n m' hn₀ hraw heq
    exact hb.raw_ne hn₀ (hraw.trans heq)
  refine ⟨fun m n hn => ?_, fun x hx => ?_, fun x ofs ccrc hcrc => ?_,
    fun m c hc hmark => ⟨fun m' n hn hraw => ?_, fun ofs ccrc hcrc => ?_⟩,
    fun m m' c hc c' hc' hmark hmark' hraw => ?_, fun m => ?_⟩
  · rw [hraws]
    show n.raw < b.nextRaw + 1 ∧ _
    rcases hwithin m n hn with ⟨m', n₀, hn₀, hraw, hle⟩ | ⟨-, hraw, hle⟩
    · obtain ⟨hlt, hstop⟩ := hb.fits m' n₀ hn₀
      rw [if_neg (hold hn₀ hraw)]
      rw [hraw] at hlt hstop
      exact ⟨by omega, hle.trans hstop⟩
    · rw [if_pos hraw]
      exact ⟨by omega, hle⟩
  · have hx : b.nextRaw + 1 ≤ x := hx
    rw [hraws, if_neg (by omega)]
    exact hb.fresh x (by omega)
  · rw [hraws] at hcrc ⊢
    split at hcrc
    case isTrue => exact absurd hcrc (by simp)
    case isFalse hx =>
      rw [if_neg hx]
      exact hb.cached x ofs ccrc hcrc
  · rcases hbefore m c hc hmark with ⟨c₀, hc₀, hmark₀, hraw₀, hstop₀⟩ | ⟨-, hfresh, hlast⟩
    · rcases hwithin m' n hn with ⟨m₁, n₀, hn₀, hsame, hle⟩ | ⟨-, hnew, -⟩
      · rw [← hstop₀]
        exact hle.trans ((hb.below m c₀ hc₀ hmark₀).nodes m₁ n₀ hn₀ (by rw [hsame, hraw, hraw₀]))
      · exact absurd (hraw.symm.trans hnew) (hold hc₀ hraw₀)
    · rcases hwithin m' n hn with ⟨m₁, n₀, hn₀, hsame, -⟩ | ⟨hmem, hnew, -⟩
      · exact absurd (hraw.trans hfresh) (hold hn₀ hsame)
      · exact hlast n hmem hnew
  · rw [hraws] at hcrc
    rcases hbefore m c hc hmark with ⟨c₀, hc₀, hmark₀, hraw₀, hstop₀⟩ | ⟨-, hfresh, -⟩
    · rw [if_neg (hold hc₀ hraw₀), ← hraw₀] at hcrc
      rw [← hstop₀]
      exact (hb.below m c₀ hc₀ hmark₀).cached ofs ccrc hcrc
    · rw [if_pos hfresh] at hcrc
      exact absurd hcrc (by simp)
  · rcases hbefore m c hc hmark with ⟨c₀, hc₀, hmark₀, hraw₀, -⟩ | ⟨rfl, hfresh, -⟩
    · rcases hbefore m' c' hc' hmark' with ⟨c₁, hc₁, hmark₁, hraw₁, -⟩ | ⟨-, hfresh', -⟩
      · exact hb.alone m m' c₀ hc₀ c₁ hc₁ hmark₀ hmark₁ (by rw [hraw₀, hraw₁, hraw])
      · exact absurd (hraw.trans hfresh') (hold hc₀ hraw₀)
    · rcases hbefore m' c' hc' hmark' with ⟨c₁, hc₁, -, hraw₁, -⟩ | ⟨rfl, -, -⟩
      · exact absurd (hraw.symm.trans hfresh) (hold hc₁ hraw₁)
      · rfl
  · rw [setList_lists]
    split
    · exact hsingle
    · exact hb.single m

theorem makeRaw (hb : Coherent b) (data : List UInt8) : Coherent (b.makeRaw data) := by
  have hsame : (b.makeRaw data).setList 0 (b.lists 0) = b.makeRaw data := by
    unfold Buffers.setList
    congr 1
    exact Function.update_eq_self 0 b.lists
  rw [← hsame]
  exact hb.setFresh (fun x hx => .inl ⟨0, x, hx, rfl, le_rfl⟩)
    (fun c hc hmark => .inl ⟨c, hc, hmark, rfl, rfl⟩) (hb.single 0)

/-! ## The calls keep the lists coherent -/

theorem addLength (hb : Coherent b) (n : Nat) : Coherent (b.addLength l n) :=
  hb.setList (fun x hx => ⟨l, x, hx, rfl, le_rfl⟩) (fun c hc hmark => ⟨c, hc, hmark, rfl, rfl⟩)
    (hb.single l)

theorem copyFrom (hb : Coherent b) (l src : Nat) : Coherent (b.copyFrom l src) := by
  unfold Buffers.copyFrom
  split
  · exact hb
  · refine hb.setList (fun x hx => ?_) (fun c hc hmark => ?_) ?_
    · obtain ⟨-, n₀, hn₀, hraw, hstop⟩ := mem_copy hx
      exact ⟨src, n₀, hn₀, hraw, hstop.ge⟩
    · rw [(mem_copy hc).1] at hmark
      exact absurd hmark (by simp)
    · rw [countP_copy]
      exact Nat.zero_le 1

/-- Lists change places. -/
theorem rename (hb : Coherent b) (f : Nat → Nat) (hf : Function.Injective f) :
    Coherent { b with lists := fun x => b.lists (f x) } :=
  ⟨fun x => hb.fits (f x), hb.fresh, hb.cached,
    fun x c hc hmark => ⟨fun y => (hb.below (f x) c hc hmark).nodes (f y),
      (hb.below (f x) c hc hmark).cached⟩,
    fun x y c hc c' hc' hmark hmark' hraw =>
      hf (hb.alone (f x) (f y) c hc c' hc' hmark hmark' hraw),
    fun x => hb.single (f x)⟩

theorem swap (hb : Coherent b) (l m : Nat) : Coherent (b.swap l m) := by
  have hsame : b.swap l m = { b with lists := fun x => b.lists (Equiv.swap l m x) } := by
    unfold Buffers.swap Buffers.setList
    congr 1
    funext x
    simp only [Function.update_apply, Equiv.swap_apply_def]
    split
    case isTrue hx =>
      split
      case isTrue hl => rw [← hl, hx]
      case isFalse => rfl
    case isFalse hx =>
      split <;> rfl
  rw [hsame]
  exact hb.rename _ (Equiv.swap l m).injective

theorem moveFrom (hb : Coherent b) {src : Nat} (hne : l ≠ src) : Coherent (b.moveFrom l src) := by
  have hsame : b.moveFrom l src = (b.setList l {}).swap l src := by
    simp only [Buffers.moveFrom, Buffers.swap, setList_lists, if_neg hne.symm, if_true,
      setList_setList]
  rw [hsame]
  exact (hb.clear l).swap l src

theorem pushBack (hb : Coherent b) (data : List UInt8) : Coherent (b.pushBack l data) := by
  unfold Buffers.pushBack
  split
  · exact hb
  · refine hb.setFresh (fun x hx => ?_) (fun c hc hmark => ?_) ?_
    · rcases List.mem_append.mp hx with hold | hnew
      · exact .inl ⟨l, x, hold, rfl, le_rfl⟩
      · obtain rfl := List.mem_singleton.mp hnew
        exact .inr ⟨rfl, (Nat.zero_add _).le⟩
    · rcases List.mem_append.mp hc with hold | hnew
      · exact .inl ⟨c, hold, hmark, rfl, rfl⟩
      · obtain rfl := List.mem_singleton.mp hnew
        exact absurd hmark (by simp)
    · rw [List.countP_append, List.countP_singleton]
      exact hb.single l

/-- New nodes behind copies of the old ones. -/
theorem pushCopies (hb : Coherent b) {x : BufferNode} (hraw : x.raw = b.nextRaw)
    (hstop : x.stop ≤ data.length) {list : BufferList}
    (hlist : list.nodes = (b.lists l).nodes.map BufferNode.copy ++ [x]) :
    Coherent ((b.makeRaw data).setList l list) := by
  refine hb.setFresh (fun y hy => ?_) (fun c hc hmark => ?_) ?_
  · rw [hlist] at hy
    rcases List.mem_append.mp hy with hold | hnew
    · obtain ⟨-, n₀, hn₀, hsame, hend⟩ := mem_copy hold
      exact .inl ⟨l, n₀, hn₀, hsame, hend.ge⟩
    · rw [List.mem_singleton.mp hnew]
      exact .inr ⟨hraw, hstop⟩
  · rw [hlist] at hc
    rcases List.mem_append.mp hc with hold | hnew
    · rw [(mem_copy hold).1] at hmark
      exact absurd hmark (by simp)
    · obtain rfl := List.mem_singleton.mp hnew
      refine .inr ⟨hraw, fun y hy hfresh => ?_⟩
      rw [hlist] at hy
      rcases List.mem_append.mp hy with hold | hlast
      · obtain ⟨-, n₀, hn₀, hsame, -⟩ := mem_copy hold
        exact absurd (hsame.trans hfresh) (hb.raw_ne hn₀)
      · rw [List.mem_singleton.mp hlast]
  · rw [hlist, List.countP_append, countP_copy, List.countP_singleton]
    split <;> omega

theorem pushBackMoved (hb : Coherent b) (data : List UInt8) :
    Coherent (b.pushBackMoved l data) := by
  unfold Buffers.pushBackMoved
  split
  · exact hb
  · exact hb.pushCopies rfl (Nat.zero_add _).le rfl

theorem pushBackRaw (hb : Coherent b) (data : List UInt8) : Coherent (b.pushBackRaw l data) :=
  hb.pushCopies rfl (Nat.zero_add _).le rfl

theorem pushRoom (hb : Coherent b) (n : Nat) : Coherent (b.pushRoom l n) :=
  hb.pushCopies rfl (Nat.zero_le _) rfl

theorem prependZero (hb : Coherent b) (n : Nat) : Coherent (b.prependZero l n) := by
  refine hb.setFresh (fun x hx => ?_) (fun c hc hmark => ?_) ?_
  · rcases List.mem_cons.mp hx with rfl | hold
    · exact .inr ⟨rfl, by simp [BufferNode.stop]⟩
    · exact .inl ⟨l, x, hold, rfl, le_rfl⟩
  · rcases List.mem_cons.mp hc with rfl | hold
    · exact absurd hmark (by simp)
    · exact .inl ⟨c, hold, hmark, rfl, rfl⟩
  · rw [List.countP_cons]
    exact hb.single l

end Coherent

end Buffers

end Clab.Common
