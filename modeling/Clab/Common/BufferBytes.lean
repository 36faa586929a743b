import Clab.Common.BufferEdits

/-!
# The bytes of buffer lists

What each call makes of the bytes of the lists. What is appended is written behind
the last use of a raw buffer, so that it is seen in no other list.
-/

namespace Clab.Common

namespace Buffers

variable {b : Buffers} {l m k : Nat} {data : List UInt8} {n : BufferNode}
  {v : Nat → List UInt8}

/-! ## Bytes of nodes -/

/-- The bytes of nodes, one behind the other. -/
def spread (b : Buffers) (ns : List BufferNode) : List UInt8 := ns.flatMap b.nodeBytes

theorem bytes_eq (b : Buffers) (l : Nat) : b.bytes l = b.spread (b.lists l).nodes := rfl

@[simp] theorem spread_nil (b : Buffers) : b.spread [] = [] := rfl

@[simp] theorem spread_cons (b : Buffers) (n : BufferNode) (ns : List BufferNode) :
    b.spread (n :: ns) = b.nodeBytes n ++ b.spread ns := rfl

@[simp] theorem spread_append (b : Buffers) (ns ns' : List BufferNode) :
    b.spread (ns ++ ns') = b.spread ns ++ b.spread ns' :=
  List.flatMap_append

@[simp] theorem spread_copy (b : Buffers) (ns : List BufferNode) :
    b.spread (ns.map BufferNode.copy) = b.spread ns := by
  unfold spread
  rw [List.flatMap_map]
  rfl

theorem nodeBytes_empty (b : Buffers) (h : n.len = 0) : b.nodeBytes n = [] := by
  rw [nodeBytes, Raw.slice, h, List.take_zero]

theorem spread_congr {b b' : Buffers} {ns : List BufferNode}
    (h : ∀ n ∈ ns, b'.nodeBytes n = b.nodeBytes n) : b'.spread ns = b.spread ns :=
  List.flatMap_congr h

@[simp] theorem setList_spread (b : Buffers) (l : Nat) (list : BufferList) :
    (b.setList l list).spread = b.spread := rfl

theorem setList_bytes (b : Buffers) (l : Nat) (list : BufferList) :
    (b.setList l list).bytes = Function.update b.bytes l (b.spread list.nodes) := by
  funext x
  rw [bytes_eq, setList_lists, Function.update_apply]
  split <;> rfl

/-- The bytes of a part of a node. -/
theorem nodeBytes_part (b : Buffers) (n : BufferNode) (off len : Nat) (h : off + len ≤ n.len) :
    b.nodeBytes { raw := n.raw, off := n.off + off, len := len } =
      ((b.nodeBytes n).drop off).take len := by
  simp only [nodeBytes, Raw.slice]
  rw [List.drop_take, List.drop_drop, List.take_take, min_eq_left (by omega)]

/-- A range and the range behind it. -/
theorem slice_append (r : Raw) (off x y : Nat) :
    r.slice off x ++ r.slice (off + x) y = r.slice off (x + y) := by
  simp only [Raw.slice]
  rw [← List.drop_drop, ← List.take_add]

/-- What is written behind a range makes it longer. -/
theorem slice_copyTo_behind (r : Raw) {off x : Nat} (data : List UInt8)
    (hroom : off + x + data.length ≤ r.data.length) :
    (r.copyTo (off + x) data).slice off (x + data.length) = r.slice off x ++ data := by
  rw [← slice_append, Coherent.slice_copyTo_before r data le_rfl (by omega)]
  congr 1
  simp only [Raw.slice, Raw.copyTo]
  rw [List.append_assoc, List.drop_append_of_le_length (by rw [List.length_take]; omega),
    List.drop_eq_nil_of_le (by rw [List.length_take]; omega), List.nil_append]
  exact List.take_left

theorem makeRaw_nodeBytes (h : n.raw ≠ b.nextRaw) :
    (b.makeRaw data).nodeBytes n = b.nodeBytes n := by
  rw [nodeBytes, makeRaw_raws, if_neg h]
  rfl

/-- The whole of a new raw buffer. -/
theorem makeRaw_whole (b : Buffers) (data : List UInt8) (mark : Bool) :
    (b.makeRaw data).nodeBytes { raw := b.nextRaw, off := 0, len := data.length, carriage := mark } =
      data := by
  rw [nodeBytes, makeRaw_raws, if_pos rfl]
  simp [Raw.slice]

theorem Coherent.makeRaw_spread (hb : Coherent b) (l : Nat) (data : List UInt8) :
    (b.makeRaw data).spread (b.lists l).nodes = b.spread (b.lists l).nodes :=
  spread_congr fun _ hn => makeRaw_nodeBytes (hb.raw_ne hn)

theorem Coherent.makeRaw_bytes (hb : Coherent b) (data : List UInt8) :
    (b.makeRaw data).bytes = b.bytes := by
  funext l
  exact hb.makeRaw_spread l data

/-! ## Lists and what they denote -/

/-- The lengths of the nodes together. -/
def total (ns : List BufferNode) : Nat := (ns.map BufferNode.len).sum

@[simp] theorem total_nil : total [] = 0 := rfl

@[simp] theorem total_cons (n : BufferNode) (ns : List BufferNode) :
    total (n :: ns) = n.len + total ns := by
  simp [total]

@[simp] theorem total_append (ns ns' : List BufferNode) : total (ns ++ ns') = total ns + total ns' := by
  simp [total]

@[simp] theorem total_copy (ns : List BufferNode) : total (ns.map BufferNode.copy) = total ns := by
  unfold total
  rw [List.map_map]
  rfl

/-- `_len` is `ahead` more than the nodes have, and `_num` is how many they are. -/
structure Counts (list : BufferList) (ahead : Nat) : Prop where
  len : list.len = total list.nodes + ahead
  num : list.num = list.nodes.length

/-- The lists are the byte strings `v`, while the length of list `l` is `k` ahead of its nodes. -/
structure Denotes (b : Buffers) (l k : Nat) (v : Nat → List UInt8) : Prop where
  coherent : Coherent b
  counts : Counts (b.lists l) k
  others : ∀ m, m ≠ l → Counts (b.lists m) 0
  bytes : b.bytes = v

/-- The lists are the byte strings `v`. -/
structure Refines (b : Buffers) (v : Nat → List UInt8) : Prop where
  coherent : Coherent b
  counts : ∀ l, Counts (b.lists l) 0
  bytes : b.bytes = v

theorem Refines.denotes (h : Refines b v) (l : Nat) : Denotes b l 0 v :=
  ⟨h.coherent, h.counts l, fun m _ => h.counts m, h.bytes⟩

theorem Denotes.refines (h : Denotes b l 0 v) : Refines b v := by
  refine ⟨h.coherent, fun m => ?_, h.bytes⟩
  by_cases hm : m = l
  · rw [hm]
    exact h.counts
  · exact h.others m hm

theorem refines_empty : Refines {} fun _ => [] :=
  ⟨coherent_empty, fun _ => ⟨rfl, rfl⟩, rfl⟩

theorem length_spread (hb : Coherent b) {ns : List BufferNode}
    (hns : ∀ n ∈ ns, n ∈ (b.lists l).nodes) : (b.spread ns).length = total ns := by
  induction ns with
  | nil => rfl
  | cons n ns ih =>
      rw [spread_cons, List.length_append, total_cons,
        hb.length_nodeBytes (hns n List.mem_cons_self),
        ih fun x hx => hns x (List.mem_cons_of_mem n hx)]

theorem Refines.length (h : Refines b v) (l : Nat) : (b.lists l).len = (v l).length := by
  rw [(h.counts l).len, Nat.add_zero, ← h.bytes, bytes_eq, length_spread h.coherent fun _ => id]

/-- One list is put in another's place. -/
theorem Refines.setList (h : Refines b v) {list : BufferList}
    (hcoherent : Coherent (b.setList l list)) (hcounts : Counts list 0) :
    Refines (b.setList l list) (Function.update v l (b.spread list.nodes)) := by
  refine ⟨hcoherent, fun x => ?_, ?_⟩
  · rw [setList_lists]
    split
    · exact hcounts
    · exact h.counts x
  · rw [setList_bytes, h.bytes]

/-- One list is put in another's place, with a new raw buffer. -/
theorem Refines.setFresh (h : Refines b v) {list : BufferList}
    (hcoherent : Coherent ((b.makeRaw data).setList l list)) (hcounts : Counts list 0) :
    Refines ((b.makeRaw data).setList l list)
      (Function.update v l ((b.makeRaw data).spread list.nodes)) := by
  refine ⟨hcoherent, fun x => ?_, ?_⟩
  · rw [setList_lists]
    split
    · exact hcounts
    · exact h.counts x
  · rw [setList_bytes, h.coherent.makeRaw_bytes, h.bytes]

/-! ## Room behind the carriage -/

theorem Denotes.addLength (h : Denotes b l k v) (x : Nat) :
    Denotes (b.addLength l x) l (k + x) v := by
  refine ⟨h.coherent.addLength x, ?_, fun m hm => ?_, ?_⟩
  · rw [Buffers.addLength, setList_lists, if_pos rfl]
    exact ⟨by rw [h.counts.len]; exact Nat.add_assoc _ _ _, h.counts.num⟩
  · rw [Buffers.addLength, setList_lists, if_neg hm]
    exact h.others m hm
  · rw [Buffers.addLength, setList_bytes, ← h.bytes]
    exact Function.update_eq_self l b.bytes

/-- A node of no bytes that becomes the carriage. -/
theorem Denotes.pushCarriage (h : Denotes b l k v) (hn : n.len = 0)
    (hcoherent : Coherent (b.pushCarriage l n)) : Denotes (b.pushCarriage l n) l k v := by
  refine ⟨hcoherent, ?_, fun m hm => ?_, ?_⟩
  · rw [Buffers.pushCarriage, setList_lists, if_pos rfl]
    refine ⟨?_, ?_⟩
    · simp [h.counts.len, hn]
    · simp [h.counts.num]
  · rw [Buffers.pushCarriage, setList_lists, if_neg hm]
    exact h.others m hm
  · rw [Buffers.pushCarriage, setList_bytes, spread_append, spread_copy, spread_cons,
      nodeBytes_empty b (by exact hn), spread_nil, List.append_nil, List.append_nil, ← h.bytes]
    exact Function.update_eq_self l b.bytes

theorem Denotes.makeRaw (h : Denotes b l k v) (data : List UInt8) :
    Denotes (b.makeRaw data) l k v :=
  ⟨h.coherent.makeRaw data, h.counts, h.others, (h.coherent.makeRaw_bytes data).trans h.bytes⟩

theorem Denotes.pushRoom (h : Denotes b l k v) (x : Nat) : Denotes (b.pushRoom l x) l k v :=
  (h.makeRaw _).pushCarriage rfl (h.coherent.pushRoom x)

theorem Denotes.refillAppendSpace (h : Denotes b l k v) (x : Nat) :
    Denotes (b.refillAppendSpace l x) l k v :=
  (h.makeRaw _).pushCarriage rfl (h.coherent.refillAppendSpace x).1

theorem carriage_of_unusedTail (h : 0 < b.unusedTail l) : b.carriage l ≠ none := by
  intro hnone
  rw [unusedTail, hnone] at h
  exact absurd h (lt_irrefl 0)

/-- The carriage is made the last node, with the same room. -/
theorem Denotes.openTail (h : Denotes b l k v) (hcarriage : b.carriage l ≠ none) :
    Denotes (b.openTail l) l k v ∧ ∃ init c, EndsIn (b.openTail l) l init c ∧
      c.stop + b.unusedTail l = ((b.openTail l).raws c.raw).data.length := by
  unfold Buffers.openTail
  split
  case isTrue hlast =>
    obtain ⟨init, c, hends⟩ := endsIn_of_carriageLast hlast
    refine ⟨h, init, c, hends, ?_⟩
    have hfits := (h.coherent.fits l c hends.mem).2
    rw [unusedTail, h.coherent.carriage_eq hends]
    dsimp only
    omega
  case isFalse =>
    rcases hc : b.carriage l with _ | c
    · exact absurd hc hcarriage
    · have hmem : c ∈ (b.lists l).nodes := List.mem_of_find?_eq_some hc
      have hmark : c.carriage = true := List.find?_some hc
      have hfits := (h.coherent.fits l c hmem).2
      refine ⟨h.pushCarriage rfl (h.coherent.pushCarriage ⟨c, hmem, hmark, rfl, rfl⟩), _, _,
        Coherent.pushCarriage_endsIn b l _, ?_⟩
      rw [unusedTail, hc]
      show c.stop + 0 + ((b.raws c.raw).data.length - c.stop) = (b.raws c.raw).data.length
      omega

/-- The new carriage has the room that was asked for. -/
theorem pushRoom_endsIn (b : Buffers) (l x : Nat) : ∃ init c, EndsIn (b.pushRoom l x) l init c ∧
    c.stop + x ≤ ((b.pushRoom l x).raws c.raw).data.length := by
  refine ⟨_, _, Coherent.pushCarriage_endsIn _ l _, ?_⟩
  show 0 + 0 + x ≤ ((b.makeRaw _).raws b.nextRaw).data.length
  rw [makeRaw_raws, if_pos rfl, List.length_replicate]
  omega

/-! ## Writing behind the carriage -/

theorem writeTail_eq {init : List BufferNode} {c : BufferNode} (hends : EndsIn b l init c) :
    b.writeTail l data = (b.setRaw c.raw ((b.raws c.raw).copyTo c.stop data)).setList l
      { b.lists l with nodes := init ++ [{ c with len := c.len + data.length }] } := by
  unfold Buffers.writeTail
  rw [hends.nodes, List.getLast?_append, List.getLast?_singleton, Option.some_or]
  simp only [List.dropLast_concat]

/-- What is written behind the last use of a raw buffer is seen by no node. -/
theorem setRaw_nodeBytes {c : BufferNode} (hb : Coherent b) (hc : c ∈ (b.lists l).nodes)
    (hmark : c.carriage = true) (hn : n ∈ (b.lists m).nodes) (data : List UInt8) :
    (b.setRaw c.raw ((b.raws c.raw).copyTo c.stop data)).nodeBytes n = b.nodeBytes n := by
  rw [nodeBytes, setRaw_raws]
  split
  case isTrue hraw =>
    have hstop := (hb.below l c hc hmark).nodes m n hn hraw
    rw [Coherent.slice_copyTo_before _ _ hstop (hb.fits l c hc).2, nodeBytes, hraw]
  case isFalse => rfl

/-- Bytes are appended to the last node. -/
theorem Denotes.writeTail {init : List BufferNode} {c : BufferNode} (hends : EndsIn b l init c)
    (hroom : c.stop + data.length ≤ (b.raws c.raw).data.length)
    (h : Denotes b l (k + data.length) v) :
    Denotes (b.writeTail l data) l k (Function.update v l (v l ++ data)) := by
  have hcoherent := h.coherent.writeTail hends hroom
  have hcounts := h.counts
  have hkeep : ∀ m, ∀ n ∈ (b.lists m).nodes,
      (b.setRaw c.raw ((b.raws c.raw).copyTo c.stop data)).nodeBytes n = b.nodeBytes n :=
    fun m n hn => setRaw_nodeBytes h.coherent hends.mem hends.mark hn data
  rw [writeTail_eq hends] at hcoherent ⊢
  refine ⟨hcoherent, ?_, fun m hm => ?_, ?_⟩
  · rw [setList_lists, if_pos rfl]
    obtain ⟨hlen, hnum⟩ := hcounts
    rw [hends.nodes] at hlen hnum
    refine ⟨?_, ?_⟩
    · simp only [total_append, total_cons, total_nil] at hlen ⊢
      omega
    · simpa using hnum
  · rw [setList_lists, if_neg hm]
    exact h.others m hm
  · rw [setList_bytes]
    funext x
    rw [Function.update_apply, Function.update_apply, ← h.bytes]
    split
    case isTrue =>
      have hinit : ∀ n ∈ init, n ∈ (b.lists l).nodes := fun n hn => by
        rw [hends.nodes]
        exact List.mem_append_left _ hn
      rw [spread_append, spread_cons, spread_nil, List.append_nil, bytes_eq, hends.nodes,
        spread_append, spread_cons, spread_nil, List.append_nil, List.append_assoc]
      congr 1
      · exact spread_congr fun n hn => hkeep l n (hinit n hn)
      · simp only [nodeBytes, setRaw_raws, if_true]
        exact slice_copyTo_behind _ data hroom
    case isFalse hx => exact spread_congr fun n hn => hkeep x n hn

/-- The room behind the carriage takes what fits into it. -/
theorem Denotes.writeRoom (h : Denotes b l (k + data.length) v) (hcarriage : b.carriage l ≠ none)
    (hfits : data.length ≤ b.unusedTail l) :
    Denotes ((b.openTail l).writeTail l data) l k (Function.update v l (v l ++ data)) := by
  obtain ⟨hopened, init, c, hends, hroom⟩ := h.openTail hcarriage
  exact hopened.writeTail hends (by omega)

theorem Denotes.writeRefill (h : Denotes b l (k + data.length) v) :
    Denotes ((b.refillAppendSpace l data.length).writeTail l data) l k
      (Function.update v l (v l ++ data)) := by
  obtain ⟨-, init, c, hends, hroom⟩ := h.coherent.refillAppendSpace (l := l) data.length
  exact (h.refillAppendSpace data.length).writeTail hends hroom

/-! ## Appending -/

/-- The list is longer by `data`. -/
def appended (v : Nat → List UInt8) (l : Nat) (data : List UInt8) : Nat → List UInt8 :=
  Function.update v l (v l ++ data)

theorem appended_appended (v : Nat → List UInt8) (l : Nat) (data data' : List UInt8) :
    appended (appended v l data) l data' = appended v l (data ++ data') := by
  simp [appended]

@[simp] theorem appended_nil (v : Nat → List UInt8) (l : Nat) : appended v l [] = v := by
  simp [appended]

theorem Refines.append (h : Refines b v) (l : Nat) (data : List UInt8) :
    Refines (b.append l data) (appended v l data) := by
  have hlen := (h.denotes l).addLength data.length
  rw [Nat.zero_add] at hlen
  unfold Buffers.append
  simp only
  unfold Buffers.addLength at hlen
  generalize b.setList l { b.lists l with len := (b.lists l).len + data.length } = b₁ at *
  generalize hfirst : min data.length (b₁.unusedTail l) = first
  have hsplit : data.length = (data.drop first).length + (data.take first).length := by
    rw [List.length_drop, List.length_take]
    omega
  have hroom : Denotes (if first = 0 then b₁ else (b₁.openTail l).writeTail l (data.take first)) l
      (data.drop first).length (appended v l (data.take first)) := by
    split
    case isTrue hzero => simpa [hzero] using hlen
    case isFalse hne =>
      rw [hsplit] at hlen
      refine hlen.writeRoom (carriage_of_unusedTail (by omega)) ?_
      rw [List.length_take]
      omega
  generalize (if first = 0 then b₁ else (b₁.openTail l).writeTail l (data.take first)) = b₂ at *
  split
  case isTrue hnone =>
    have hdrop : data.drop first = [] := List.eq_nil_of_length_eq_zero (by
      rw [List.length_drop]
      exact hnone)
    have htake : data.take first = data := List.take_of_length_le (by omega)
    rw [hdrop, List.length_nil, htake] at hroom
    exact hroom.refines
  case isFalse =>
    rw [← Nat.zero_add (data.drop first).length] at hroom
    have hdone := hroom.writeRefill.refines
    rw [List.length_drop] at hdone
    have hwhole := appended_appended v l (data.take first) (data.drop first)
    rw [List.take_append_drop] at hwhole
    rw [← hwhole]
    exact hdone

/-- The length is counted before the bytes are written, or behind. -/
theorem addLength_writeTail {init : List BufferNode} {c : BufferNode}
    (hends : EndsIn b l init c) (x : Nat) :
    (b.writeTail l data).addLength l x = (b.addLength l x).writeTail l data := by
  have hends' : EndsIn (b.addLength l x) l init c := by
    refine ⟨?_, hends.mark⟩
    rw [addLength, setList_lists, if_pos rfl]
    exact hends.nodes
  rw [writeTail_eq hends, writeTail_eq hends']
  simp only [addLength, setList, setRaw, Function.update_self, Function.update_idem]

/-- Bytes are written behind the carriage, and counted. -/
theorem Refines.writeCounted {init : List BufferNode} {c : BufferNode}
    (h : Denotes b l 0 v) (hends : EndsIn b l init c)
    (hroom : c.stop + data.length ≤ (b.raws c.raw).data.length) :
    Refines ((b.writeTail l data).addLength l data.length) (appended v l data) := by
  have hends' : EndsIn (b.addLength l data.length) l init c := by
    refine ⟨?_, hends.mark⟩
    rw [addLength, setList_lists, if_pos rfl]
    exact hends.nodes
  rw [addLength_writeTail hends]
  exact (Denotes.writeTail hends' hroom (h.addLength data.length)).refines

/-- Room behind the carriage, written and counted. -/
theorem Refines.writeOpened (h : Refines b v) (hcarriage : b.carriage l ≠ none)
    (hfits : data.length ≤ b.unusedTail l) :
    Refines (((b.openTail l).writeTail l data).addLength l data.length) (appended v l data) := by
  obtain ⟨hopened, init, c, hends, hroom⟩ := (h.denotes l).openTail hcarriage
  exact Refines.writeCounted hopened hends (by omega)

/-- Room on a new raw buffer, written and counted. -/
theorem Refines.writePushed (h : Refines b v) {x : Nat} (hfits : data.length ≤ x) :
    Refines (((b.pushRoom l x).writeTail l data).addLength l data.length) (appended v l data) := by
  obtain ⟨init, c, hends, hroom⟩ := pushRoom_endsIn b l x
  exact Refines.writeCounted ((h.denotes l).pushRoom x) hends (by omega)

theorem Refines.appendChar (h : Refines b v) (l : Nat) (c : UInt8) :
    Refines (b.appendChar l c) (appended v l [c]) := by
  unfold Buffers.appendChar
  split
  case isTrue =>
    have hfits : [c].length ≤ bufferAppendSize := show 1 ≤ bufferAppendSize by decide
    exact h.writePushed hfits
  case isFalse htail =>
    have hfits : [c].length ≤ b.unusedTail l := show 1 ≤ b.unusedTail l by omega
    exact h.writeOpened (carriage_of_unusedTail (by omega)) hfits

theorem Refines.appendContiguous (h : Refines b v) {room : Nat} {b' : Buffers}
    (hrun : b.appendContiguous l room data = some b') : Refines b' (appended v l data) := by
  unfold Buffers.appendContiguous at hrun
  split at hrun
  case isTrue => exact absurd hrun (by simp)
  case isFalse hfits =>
    split at hrun
    case isTrue =>
      rw [← Option.some.inj hrun]
      exact h.writePushed (by omega)
    case isFalse htail =>
      split at hrun
      case isTrue => exact absurd hrun (by simp)
      case isFalse hcarriage =>
        rw [← Option.some.inj hrun]
        exact h.writeOpened hcarriage (by omega)

theorem Refines.appendHole (h : Refines b v) {b' : Buffers}
    (hrun : b.appendHole l data = some b') : Refines b' (appended v l data) := by
  have hlen := (h.denotes l).addLength data.length
  unfold Buffers.appendHole at hrun
  simp only at hrun
  split at hrun
  case isTrue =>
    rw [← Option.some.inj hrun]
    exact hlen.writeRefill.refines
  case isFalse htail =>
    split at hrun
    case isTrue => exact absurd hrun (by simp)
    case isFalse hcarriage =>
      rw [← Option.some.inj hrun]
      exact (hlen.writeRoom hcarriage (by omega)).refines

theorem Refines.reserve (h : Refines b v) (l prealloc : Nat) : Refines (b.reserve l prealloc) v := by
  unfold Buffers.reserve
  split
  · exact ((h.denotes l).pushRoom prealloc).refines
  · exact h

/-! ## Whole lists -/

theorem copy_counts {list : BufferList} (h : Counts list 0) :
    Counts { list with nodes := list.nodes.map BufferNode.copy } 0 :=
  ⟨by rw [h.len, total_copy], by rw [h.num, List.length_map]⟩

theorem Refines.clear (h : Refines b v) (l : Nat) :
    Refines (b.clear l) (Function.update v l []) :=
  h.setList (h.coherent.clear l) ⟨rfl, rfl⟩

theorem Refines.copyFrom (h : Refines b v) (l src : Nat) :
    Refines (b.copyFrom l src) (Function.update v l (v src)) := by
  have hcoherent := h.coherent.copyFrom l src
  unfold Buffers.copyFrom at hcoherent ⊢
  split at hcoherent
  case isTrue heq =>
    rw [if_pos heq, heq, Function.update_eq_self]
    exact h
  case isFalse hne =>
    rw [if_neg hne]
    have hdone := h.setList hcoherent (copy_counts (h.counts src))
    rwa [spread_copy, ← bytes_eq, h.bytes] at hdone

theorem Refines.appendList (h : Refines b v) (l src : Nat) :
    Refines (b.appendList l src) (appended v l (v src)) := by
  have hcoherent := h.coherent.appendList l src
  unfold Buffers.appendList at hcoherent ⊢
  have hdone := h.setList hcoherent
    ⟨by simp [(h.counts l).len, (h.counts src).len], by simp [(h.counts l).num, (h.counts src).num]⟩
  rwa [spread_append, spread_copy, ← bytes_eq, ← bytes_eq, h.bytes] at hdone

theorem Refines.swap (h : Refines b v) (l m : Nat) :
    Refines (b.swap l m) (Function.update (Function.update v l (v m)) m (v l)) := by
  refine ⟨h.coherent.swap l m, fun x => ?_, ?_⟩
  · rw [Buffers.swap, setList_lists, setList_lists]
    split
    · exact h.counts l
    · split
      · exact h.counts m
      · exact h.counts x
  · rw [Buffers.swap, setList_bytes, setList_bytes, setList_spread, ← bytes_eq, ← bytes_eq, h.bytes]

theorem Refines.moveFrom (h : Refines b v) {src : Nat} (hne : l ≠ src) :
    Refines (b.moveFrom l src) (Function.update (Function.update v l (v src)) src []) := by
  refine ⟨h.coherent.moveFrom hne, fun x => ?_, ?_⟩
  · rw [Buffers.moveFrom, setList_lists, setList_lists]
    split
    · exact ⟨rfl, rfl⟩
    · split
      · exact h.counts src
      · exact h.counts x
  · rw [Buffers.moveFrom, setList_bytes, setList_bytes, setList_spread, ← bytes_eq, h.bytes]
    rfl

/-! ## New raw buffers -/

theorem Refines.pushBack (h : Refines b v) (l : Nat) (data : List UInt8) :
    Refines (b.pushBack l data) (appended v l data) := by
  have hcoherent := h.coherent.pushBack (l := l) data
  unfold Buffers.pushBack at hcoherent ⊢
  split at hcoherent
  case isTrue hzero =>
    rw [if_pos hzero, List.eq_nil_of_length_eq_zero hzero, appended_nil]
    exact h
  case isFalse hne =>
    rw [if_neg hne]
    have hdone := h.setFresh hcoherent
      ⟨by simp [(h.counts l).len], by simp [(h.counts l).num]⟩
    rwa [spread_append, spread_cons, spread_nil, List.append_nil, makeRaw_whole,
      h.coherent.makeRaw_spread, ← bytes_eq, h.bytes] at hdone

/-- All the bytes of a list and those of a new raw buffer. -/
theorem Refines.pushCopies (h : Refines b v) {mark : Bool}
    (hcoherent : Coherent ((b.makeRaw data).setList l
      { nodes := (b.lists l).nodes.map BufferNode.copy ++
          [{ raw := b.nextRaw, off := 0, len := data.length, carriage := mark }]
        len := (b.lists l).len + data.length
        num := (b.lists l).num + 1 })) :
    Refines ((b.makeRaw data).setList l
      { nodes := (b.lists l).nodes.map BufferNode.copy ++
          [{ raw := b.nextRaw, off := 0, len := data.length, carriage := mark }]
        len := (b.lists l).len + data.length
        num := (b.lists l).num + 1 }) (appended v l data) := by
  have hdone := h.setFresh hcoherent ⟨by simp [(h.counts l).len], by simp [(h.counts l).num]⟩
  rwa [spread_append, spread_copy, spread_cons, spread_nil, List.append_nil, makeRaw_whole,
    h.coherent.makeRaw_spread, ← bytes_eq, h.bytes] at hdone

theorem Refines.pushBackMoved (h : Refines b v) (l : Nat) (data : List UInt8) :
    Refines (b.pushBackMoved l data) (appended v l data) := by
  have hcoherent := h.coherent.pushBackMoved (l := l) data
  unfold Buffers.pushBackMoved at hcoherent ⊢
  split at hcoherent
  case isTrue hzero =>
    rw [if_pos hzero, List.eq_nil_of_length_eq_zero hzero, appended_nil]
    exact h
  case isFalse hne =>
    rw [if_neg hne]
    exact h.pushCopies hcoherent

theorem Refines.pushBackRaw (h : Refines b v) (l : Nat) (data : List UInt8) :
    Refines (b.pushBackRaw l data) (appended v l data) :=
  h.pushCopies (h.coherent.pushBackRaw data)

theorem Refines.prependZero (h : Refines b v) (l n : Nat) :
    Refines (b.prependZero l n) (Function.update v l (List.replicate n 0 ++ v l)) := by
  have hcoherent := h.coherent.prependZero (l := l) n
  unfold Buffers.prependZero at hcoherent ⊢
  have hdone := h.setFresh hcoherent
    ⟨by simp [(h.counts l).len, Nat.add_comm], by simp [(h.counts l).num]⟩
  have hwhole := makeRaw_whole b (List.replicate n 0) false
  rw [List.length_replicate] at hwhole
  rwa [spread_cons, hwhole, h.coherent.makeRaw_spread, ← bytes_eq, h.bytes] at hdone

theorem Coherent.rebuild (hb : Coherent b) (hlen : (b.lists l).len = (b.bytes l).length) :
    Coherent (b.rebuild l) := by
  unfold Buffers.rebuild
  split
  · exact hb.setList (fun n hn => absurd hn (by simp)) (fun c hc => absurd hc (by simp))
      (Nat.zero_le _)
  · refine hb.setFresh (fun x hx => ?_) (fun c hc hmark => ?_) (by simp)
    · obtain rfl := List.mem_singleton.mp hx
      exact .inr ⟨rfl, by simp [BufferNode.stop, hlen]⟩
    · obtain rfl := List.mem_singleton.mp hc
      refine .inr ⟨rfl, fun y hy _ => ?_⟩
      rw [List.mem_singleton.mp hy]

theorem Refines.rebuild (h : Refines b v) (l : Nat) : Refines (b.rebuild l) v := by
  have hlen : (b.lists l).len = (b.bytes l).length := by
    rw [h.length, h.bytes]
  have hcoherent := h.coherent.rebuild hlen
  unfold Buffers.rebuild at hcoherent ⊢
  split at hcoherent
  case isTrue hzero =>
    rw [if_pos hzero]
    have hdone := h.setList hcoherent ⟨hzero, rfl⟩
    have hempty : v l = [] := List.eq_nil_of_length_eq_zero (by rw [← h.length, hzero])
    rwa [spread_nil, ← hempty, Function.update_eq_self] at hdone
  case isFalse hne =>
    rw [if_neg hne]
    have hdone := h.setFresh hcoherent ⟨by simp, rfl⟩
    have hwhole := makeRaw_whole b (b.bytes l) true
    rw [← hlen] at hwhole
    have hsame : Function.update v l (b.bytes l) = v := by
      rw [h.bytes, Function.update_eq_self]
    rwa [spread_cons, spread_nil, List.append_nil, hwhole, hsame] at hdone

end Buffers

end Clab.Common
