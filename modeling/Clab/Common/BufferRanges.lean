import Clab.Common.BufferBytes

/-!
# Ranges of buffer lists

`substr_of` and `splice` cut lists between and inside nodes. Cutting neither
copies nor changes a byte; writing in place does, and is seen in one list only
where no other node has the range.
-/

namespace Clab.Common

namespace Buffers

variable {b : Buffers} {l m off len : Nat} {ns : List BufferNode} {v : Nat → List UInt8}

/-- The nodes lie in their raw buffers. -/
def Whole (b : Buffers) (ns : List BufferNode) : Prop := ∀ n ∈ ns, (b.nodeBytes n).length = n.len

theorem Coherent.whole (hb : Coherent b) (l : Nat) : b.Whole (b.lists l).nodes :=
  fun _ hn => hb.length_nodeBytes hn

theorem Whole.length (h : b.Whole ns) : (b.spread ns).length = total ns := by
  induction ns with
  | nil => rfl
  | cons n ns ih =>
      rw [spread_cons, List.length_append, total_cons, h n List.mem_cons_self,
        ih fun x hx => h x (List.mem_cons_of_mem n hx)]

theorem Whole.of_append {ns' : List BufferNode} (h : b.Whole (ns ++ ns')) :
    b.Whole ns ∧ b.Whole ns' :=
  ⟨fun n hn => h n (List.mem_append_left _ hn), fun n hn => h n (List.mem_append_right _ hn)⟩

/-! ## Cutting -/

/-- The offset behind the nodes that are skipped. -/
theorem seek_total (off : Nat) (ns : List BufferNode) :
    total (seek off ns).1 + (seek off ns).2.1 = off := by
  induction ns generalizing off with
  | nil => exact Nat.zero_add off
  | cons n ns ih =>
      unfold seek
      split
      case isTrue hin =>
        have hrec := ih (off - n.len)
        show total (n :: (seek (off - n.len) ns).1) + (seek (off - n.len) ns).2.1 = off
        rw [total_cons]
        omega
      case isFalse => exact Nat.zero_add off

/-- What is left of the offset lies inside the node it stops at. -/
theorem seek_inside (off : Nat) (ns : List BufferNode) :
    ∀ n ∈ (seek off ns).2.2.head?, (seek off ns).2.1 = 0 ∨ (seek off ns).2.1 < n.len := by
  induction ns generalizing off with
  | nil => exact fun n hn => absurd hn (by simp [seek])
  | cons n ns ih =>
      unfold seek
      split
      case isTrue => exact ih _
      case isFalse hin =>
        intro n' hn'
        obtain rfl : n = n' := by simpa using hn'
        show off = 0 ∨ off < n.len
        omega

/-- What `takeOut` takes and what it leaves, in bytes, lengths and numbers. -/
structure Taken (b : Buffers) (off len : Nat) (ns : List BufferNode) : Prop where
  pieces : b.spread (takeOut off len ns).1 = ((b.spread ns).drop off).take len
  left : len ≠ 0 ∨ off = 0 → b.spread (takeOut off len ns).2.1 = (b.spread ns).drop (off + len)
  moved : ∀ n ∈ (takeOut off len ns).2.2, n.len = 0
  whole : b.Whole (takeOut off len ns).1 ∧ b.Whole (takeOut off len ns).2.1
  number : (takeOut off len ns).2.1.length + (takeOut off len ns).2.2.length ≤ ns.length

theorem takeOut_taken (b : Buffers) (hns : b.Whole ns) (hoff : ∀ n ∈ ns.head?, off ≤ n.len) :
    Taken b off len ns := by
  induction ns generalizing off len with
  | nil =>
      exact ⟨by simp [takeOut], fun _ => by simp [takeOut], by simp [takeOut],
        ⟨by simp [takeOut, Whole], by simp [takeOut, Whole]⟩, by simp [takeOut]⟩
  | cons n ns ih =>
      have hlen := hns n List.mem_cons_self
      have hoff : off ≤ n.len := hoff n (by simp)
      have htail : b.Whole ns := fun x hx => hns x (List.mem_cons_of_mem n hx)
      rcases Nat.eq_zero_or_pos len with rfl | hpos
      · -- nothing is taken
        have hstop : takeOut off 0 (n :: ns) = ([], n :: ns, []) := by simp [takeOut]
        refine ⟨by simp [hstop], fun h => ?_, by simp [hstop], ⟨by simp [hstop, Whole], ?_⟩,
          by simp [hstop]⟩
        · obtain rfl : off = 0 := h.resolve_left fun hne => hne rfl
          simp [hstop]
        · rw [hstop]
          exact hns
      · by_cases hin : off + len < n.len
        · -- the range ends inside the node
          have hstop : takeOut off len (n :: ns) =
              ([{ raw := n.raw, off := n.off + off, len := len }],
                { n with off := n.off + (off + len), len := n.len - (off + len) } :: ns, []) := by
            rw [takeOut, if_neg (by omega), if_pos hin]
          have hpiece := b.nodeBytes_part n off len (by omega)
          have hrest : b.nodeBytes
              { n with off := n.off + (off + len), len := n.len - (off + len) } =
                (b.nodeBytes n).drop (off + len) := by
            have hpart := b.nodeBytes_part n (off + len) (n.len - (off + len)) (by omega)
            rw [List.take_of_length_le (by rw [List.length_drop, hlen])] at hpart
            exact hpart
          refine ⟨?_, fun _ => ?_, by simp [hstop], ⟨?_, ?_⟩, by simp [hstop]⟩
          · rw [hstop, spread_cons, spread_nil, List.append_nil, hpiece, spread_cons,
              List.drop_append_of_le_length (by omega),
              List.take_append_of_le_length (by rw [List.length_drop]; omega)]
          · rw [hstop, spread_cons, hrest, spread_cons,
              List.drop_append_of_le_length (by omega)]
          · rw [hstop]
            intro x hx
            obtain rfl := List.mem_singleton.mp hx
            rw [hpiece, List.length_take, List.length_drop]
            show min len ((b.nodeBytes n).length - off) = len
            omega
          · rw [hstop]
            intro x hx
            rcases List.mem_cons.mp hx with rfl | hx
            · rw [hrest, List.length_drop, hlen]
            · exact htail x hx
        · -- the rest of the node and the nodes behind it
          obtain ⟨hpieces, hleft, hmoved, ⟨hwhole, hwhole'⟩, hnumber⟩ :=
            @ih 0 (len - (n.len - off)) htail fun _ _ => Nat.zero_le _
          have hstop : takeOut off len (n :: ns) =
              ({ raw := n.raw, off := n.off + off, len := n.len - off } ::
                (takeOut 0 (len - (n.len - off)) ns).1, (takeOut 0 (len - (n.len - off)) ns).2.1,
                if n.carriage then { n with off := n.stop, len := 0 } ::
                  (takeOut 0 (len - (n.len - off)) ns).2.2
                else (takeOut 0 (len - (n.len - off)) ns).2.2) := by
            rw [takeOut, if_neg (by omega), if_neg hin]
          have hpiece : b.nodeBytes { raw := n.raw, off := n.off + off, len := n.len - off } =
              (b.nodeBytes n).drop off := by
            rw [b.nodeBytes_part n off (n.len - off) (by omega),
              List.take_of_length_le (by rw [List.length_drop, hlen])]
          have hdrop : (b.spread (n :: ns)).drop off = (b.nodeBytes n).drop off ++ b.spread ns := by
            rw [spread_cons, List.drop_append_of_le_length (by omega)]
          refine ⟨?_, fun _ => ?_, fun x hx => ?_, ⟨?_, ?_⟩, ?_⟩
          · have hfirst : ((b.nodeBytes n).drop off).length ≤ len := by
              rw [List.length_drop]
              omega
            rw [hstop, spread_cons, hpiece, hpieces, List.drop_zero, hdrop, List.take_append,
              List.take_of_length_le hfirst, List.length_drop, hlen]
          · have hfirst : ((b.nodeBytes n).drop off).length ≤ len := by
              rw [List.length_drop]
              omega
            have hall : (b.spread (n :: ns)).drop (off + len) =
                (b.spread ns).drop (len - (n.len - off)) := by
              rw [← List.drop_drop, hdrop, List.drop_append, List.drop_eq_nil_of_le hfirst,
                List.nil_append, List.length_drop, hlen]
            rw [hstop, hleft (.inr rfl), hall, Nat.zero_add]
          · rw [hstop] at hx
            dsimp only at hx
            split at hx
            · rcases List.mem_cons.mp hx with rfl | hx
              · rfl
              · exact hmoved x hx
            · exact hmoved x hx
          · rw [hstop]
            intro x hx
            rcases List.mem_cons.mp hx with rfl | hx
            · rw [hpiece, List.length_drop, hlen]
            · exact hwhole x hx
          · rw [hstop]
            exact hwhole'
          · rw [hstop]
            dsimp only
            split
            · rw [List.length_cons, List.length_cons]
              omega
            · rw [List.length_cons]
              omega

/-- A range of the bytes of nodes, by where `seek` stops. -/
theorem spread_seek (b : Buffers) (hns : b.Whole ns) (off : Nat) :
    (b.spread (seek off ns).1).length + (seek off ns).2.1 = off ∧
      b.spread ns = b.spread (seek off ns).1 ++ b.spread (seek off ns).2.2 := by
  have hsplit := seek_split off ns
  have htotal := seek_total off ns
  refine ⟨?_, ?_⟩
  · rw [← hsplit] at hns
    rw [hns.of_append.1.length]
    exact htotal
  · rw [← spread_append, hsplit]

theorem Whole.seek (hns : b.Whole ns) (off : Nat) : b.Whole (seek off ns).2.2 := by
  rw [← seek_split off ns] at hns
  exact hns.of_append.2

/-- The range that `takeOut` takes where `seek` stops. -/
theorem taken_seek (hns : b.Whole ns) (off len : Nat) :
    Taken b (seek off ns).2.1 len (seek off ns).2.2 :=
  takeOut_taken b (hns.seek off) (seek_rest off ns)

theorem drop_seek (hns : b.Whole ns) (off : Nat) :
    (b.spread ns).drop off = (b.spread (seek off ns).2.2).drop (seek off ns).2.1 := by
  obtain ⟨hlength, hsplit⟩ := spread_seek b hns off
  calc (b.spread ns).drop off
      = (b.spread ns).drop ((b.spread (seek off ns).1).length + (seek off ns).2.1) := by
        rw [hlength]
    _ = (b.spread (seek off ns).2.2).drop (seek off ns).2.1 := by
        rw [hsplit, ← List.drop_drop, List.drop_left]

theorem take_seek (hns : b.Whole ns) (off : Nat) :
    (b.spread ns).take off =
      b.spread (seek off ns).1 ++ (b.spread (seek off ns).2.2).take (seek off ns).2.1 := by
  obtain ⟨hlength, hsplit⟩ := spread_seek b hns off
  calc (b.spread ns).take off
      = (b.spread ns).take ((b.spread (seek off ns).1).length + (seek off ns).2.1) := by
        rw [hlength]
    _ = b.spread (seek off ns).1 ++ (b.spread (seek off ns).2.2).take (seek off ns).2.1 := by
        rw [hsplit, List.take_length_add_append]

theorem taken_pieces (hns : b.Whole ns) (off len : Nat) :
    b.spread (takeOut (seek off ns).2.1 len (seek off ns).2.2).1 =
      ((b.spread ns).drop off).take len := by
  rw [(taken_seek hns off len).pieces, drop_seek hns off]

theorem Refines.substrOf (h : Refines b v) {src : Nat} {b' : Buffers}
    (hrun : b.substrOf l src off len = some b') :
    Refines b' (Function.update v l (((v src).drop off).take len)) := by
  have hcoherent := h.coherent.substrOf hrun
  have hpieces := taken_pieces (h.coherent.whole src) off len
  have hwhole := (taken_seek (h.coherent.whole src) off len).whole.1
  unfold Buffers.substrOf at hrun
  split at hrun
  case isTrue => exact absurd hrun (by simp)
  case isFalse =>
    obtain rfl := Option.some.inj hrun
    have hdone := h.setList hcoherent ⟨(Nat.add_zero _).symm, rfl⟩
    rw [← h.bytes, bytes_eq, ← hpieces, h.bytes]
    exact hdone

/-! ## Pieces behind a list -/

theorem nodeBytes_grown (b : Buffers) {n p : BufferNode} (hraw : n.raw = p.raw)
    (hstop : n.stop = p.off) :
    b.nodeBytes { n with len := n.len + p.len } = b.nodeBytes n ++ b.nodeBytes p := by
  simp only [nodeBytes]
  rw [← slice_append, hraw, ← hstop]
  rfl

theorem appendPiece_spec (b : Buffers) {list : BufferList} (h : Counts list 0) (p : BufferNode) :
    Counts (appendPiece list p) 0 ∧
      b.spread (appendPiece list p).nodes = b.spread list.nodes ++ b.nodeBytes p := by
  obtain ⟨hlen, hnum⟩ := h
  unfold appendPiece
  rcases hlast : list.nodes.getLast? with _ | last
  · have hnil : list.nodes = [] := List.getLast?_eq_none_iff.mp hlast
    refine ⟨⟨?_, ?_⟩, ?_⟩
    · simp [hlen, hnil]
    · simp [hnum, hnil]
    · simp [hnil]
  · obtain ⟨init, hnodes⟩ := List.getLast?_eq_some_iff.mp hlast
    have hdrop : list.nodes.dropLast = init := by rw [hnodes, List.dropLast_concat]
    rw [hnodes] at hlen hnum
    simp only [total_append, total_cons, total_nil] at hlen
    dsimp only
    split
    case isTrue hnext =>
      refine ⟨⟨?_, ?_⟩, ?_⟩
      · simp only [hdrop, total_append, total_cons, total_nil]
        omega
      · simpa [hdrop] using hnum
      · rw [hdrop, hnodes, spread_append, spread_append, spread_cons, spread_cons, spread_nil,
          List.append_nil, List.append_nil, b.nodeBytes_grown hnext.1 hnext.2, List.append_assoc]
    case isFalse =>
      refine ⟨⟨?_, ?_⟩, ?_⟩
      · simp only [hnodes, total_append, total_cons, total_nil]
        omega
      · simp [hnum, hnodes]
      · simp

theorem appendPieces_spec (b : Buffers) {list : BufferList} (h : Counts list 0)
    (ps : List BufferNode) :
    Counts (ps.foldl appendPiece list) 0 ∧
      b.spread (ps.foldl appendPiece list).nodes = b.spread list.nodes ++ b.spread ps := by
  induction ps generalizing list with
  | nil => exact ⟨h, by simp⟩
  | cons p ps ih =>
      obtain ⟨hcounts, hspread⟩ := appendPiece_spec b h p
      obtain ⟨hcounts', hspread'⟩ := ih hcounts
      refine ⟨hcounts', ?_⟩
      rw [List.foldl_cons, hspread', hspread, spread_cons, List.append_assoc]

theorem Refines.appendPtr (h : Refines b v) {bp : BufferNode} (hbp : bp ∈ (b.lists m).nodes)
    {b' : Buffers} (hrun : b.appendPtr l bp off len = some b') :
    Refines b' (appended v l (((b.nodeBytes bp).drop off).take len)) := by
  unfold Buffers.appendPtr at hrun
  split at hrun
  case isTrue => exact absurd hrun (by simp)
  case isFalse hin =>
    obtain rfl := Option.some.inj hrun
    obtain ⟨hcounts, hspread⟩ := appendPiece_spec b (h.counts l)
      { raw := bp.raw, off := bp.off + off, len := len }
    have hpart : ({ raw := bp.raw, off := bp.off + off, len := len } : BufferNode).stop ≤ bp.stop := by
      show bp.off + off + len ≤ bp.off + bp.len
      omega
    have hcoherent := h.coherent.appendPiece (l := l)
      (p := { raw := bp.raw, off := bp.off + off, len := len }) rfl ⟨m, bp, hbp, rfl, hpart⟩
    have hdone := h.setList hcoherent hcounts
    rwa [hspread, b.nodeBytes_part bp off len (by omega), ← bytes_eq, h.bytes] at hdone

/-! ## Splicing -/

/-- What a list is after a range was taken out of it. -/
def spliced (v : Nat → List UInt8) (l off len : Nat) : Nat → List UInt8 :=
  Function.update v l ((v l).take off ++ (v l).drop (off + len))

/-- What the list that claims the range is. -/
def claimed (v : Nat → List UInt8) (l off len : Nat) (claimBy : Option Nat) :
    Nat → List UInt8 :=
  match claimBy with
  | none => v
  | some m => appended v m (((v l).drop off).take len)

theorem Refines.claimPieces (h : Refines b v) (off len : Nat) {claimBy : Option Nat}
    (hne : claimBy ≠ some l) {ps : List BufferNode}
    (hps : ∀ p ∈ ps, p.carriage = false ∧ ∃ n ∈ (b.lists l).nodes, n.raw = p.raw ∧ p.stop ≤ n.stop)
    (hspread : b.spread ps = ((v l).drop off).take len) :
    Refines (b.claimPieces claimBy ps) (claimed v l off len claimBy) := by
  have hcoherent := (h.coherent.claimPieces hne hps).1
  cases claimBy with
  | none => exact h
  | some m =>
      obtain ⟨hcounts, hbytes⟩ := appendPieces_spec b (h.counts m) ps
      have hdone := h.setList hcoherent hcounts
      rwa [hbytes, hspread, ← bytes_eq, h.bytes] at hdone

/-- The nodes in front of the range, cut at its start. -/
def frontPart (rest : Nat) (ns : List BufferNode) : List BufferNode :=
  ns.head?.toList.filterMap fun n =>
    if 0 < rest then some { raw := n.raw, off := n.off, len := rest } else none

theorem frontPart_spec {rest : Nat} (hns : b.Whole ns) (hrest : ∀ n ∈ ns.head?, rest = 0 ∨ rest < n.len)
    (hin : rest ≤ (b.spread ns).length) :
    b.spread (frontPart rest ns) = (b.spread ns).take rest ∧ b.Whole (frontPart rest ns) := by
  rcases Nat.eq_zero_or_pos rest with rfl | hpos
  · have hnil : frontPart 0 ns = [] := by simp [frontPart]
    rw [hnil]
    exact ⟨rfl, by simp [Whole]⟩
  · cases ns with
    | nil =>
        rw [spread_nil, List.length_nil] at hin
        omega
    | cons n ns =>
        have hlt : rest < n.len := (hrest n (by simp)).resolve_left (by omega)
        have hlen := hns n List.mem_cons_self
        have hpart := b.nodeBytes_part n 0 rest (by omega)
        rw [List.drop_zero, Nat.add_zero] at hpart
        have hfront : frontPart rest (n :: ns) = [{ raw := n.raw, off := n.off, len := rest }] := by
          simp [frontPart, hpos]
        rw [hfront]
        refine ⟨?_, fun x hx => ?_⟩
        · rw [spread_cons, spread_nil, List.append_nil, hpart, spread_cons,
            List.take_append_of_le_length (by omega)]
        · obtain rfl := List.mem_singleton.mp hx
          rw [hpart, List.length_take]
          show min rest (b.nodeBytes n).length = rest
          omega

/-- The nodes that are left by `splice`. -/
def splicedNodes (off len : Nat) (ns : List BufferNode) : List BufferNode :=
  (seek off ns).1 ++ frontPart (seek off ns).2.1 (seek off ns).2.2 ++
    (takeOut (seek off ns).2.1 len (seek off ns).2.2).2.1 ++
    (takeOut (seek off ns).2.1 len (seek off ns).2.2).2.2

theorem spread_empty {ps : List BufferNode} (h : ∀ n ∈ ps, n.len = 0) : b.spread ps = [] := by
  unfold spread
  rw [List.flatMap_eq_nil_iff]
  exact fun n hn => nodeBytes_empty b (h n hn)

theorem splicedNodes_spec (off : Nat) (hns : b.Whole ns) (hlen : len ≠ 0)
    (hin : off + len ≤ total ns) :
    b.spread (splicedNodes off len ns) = (b.spread ns).take off ++ (b.spread ns).drop (off + len) ∧
      total (splicedNodes off len ns) = total ns - len := by
  have htaken := taken_seek hns off len
  have htotal := seek_total off ns
  have hwhole := hns.seek off
  have hsplit := seek_split off ns
  have hsum : total (seek off ns).1 + total (seek off ns).2.2 = total ns := by
    rw [← total_append, hsplit]
  obtain ⟨hfront, hfrontWhole⟩ := frontPart_spec hwhole (seek_inside off ns) (by
    rw [hwhole.length]
    omega)
  have hbytes : b.spread (splicedNodes off len ns) =
      (b.spread ns).take off ++ (b.spread ns).drop (off + len) := by
    unfold splicedNodes
    rw [spread_append, spread_append, spread_append, hfront, htaken.left (.inl hlen),
      spread_empty htaken.moved, List.append_nil, take_seek hns off, ← List.drop_drop,
      ← drop_seek hns off, List.drop_drop]
  refine ⟨hbytes, ?_⟩
  have hleft : b.Whole (splicedNodes off len ns) := by
    intro n hn
    unfold splicedNodes at hn
    rcases List.mem_append.mp hn with hn | hn
    · rcases List.mem_append.mp hn with hn | hn
      · rcases List.mem_append.mp hn with hn | hn
        · exact hns n (by rw [← hsplit]; exact List.mem_append_left _ hn)
        · exact hfrontWhole n hn
      · exact htaken.whole.2 n hn
    · rw [nodeBytes_empty b (htaken.moved n hn), htaken.moved n hn]
      rfl
  have hlength := congrArg List.length hbytes
  rw [hleft.length, List.length_append, List.length_take, List.length_drop, hns.length] at hlength
  omega

theorem claimPieces_spread (b : Buffers) (claimBy : Option Nat) (ps : List BufferNode) :
    (b.claimPieces claimBy ps).spread = b.spread := by
  cases claimBy <;> rfl

theorem claimed_self (v : Nat → List UInt8) (off len : Nat) {claimBy : Option Nat}
    (hne : claimBy ≠ some l) : claimed v l off len claimBy l = v l := by
  cases claimBy with
  | none => rfl
  | some m => exact Function.update_of_ne (fun heq => hne (by rw [heq])) _ _

/-- Nothing is taken out. -/
theorem spliced_zero (v : Nat → List UInt8) (off : Nat) {claimBy : Option Nat}
    (hne : claimBy ≠ some l) : spliced (claimed v l off 0 claimBy) l off 0 = v := by
  have hclaimed : claimed v l off 0 claimBy = v := by
    cases claimBy with
    | none => rfl
    | some m => simp [claimed]
  rw [spliced, hclaimed, Nat.add_zero, List.take_append_drop, Function.update_eq_self]

theorem Refines.splice (h : Refines b v) {claimBy : Option Nat} (hne : claimBy ≠ some l)
    {b' : Buffers} (hrun : b.splice l off len claimBy = some b') :
    Refines b' (spliced (claimed v l off len claimBy) l off len) := by
  have hcoherent := h.coherent.splice hne hrun
  have hwhole := h.coherent.whole l
  unfold Buffers.splice at hrun
  simp only at hrun
  split at hrun
  case isTrue hzero =>
    rw [← Option.some.inj hrun, hzero, spliced_zero v off hne]
    exact h
  case isFalse hlen =>
    split at hrun
    case isTrue => exact absurd hrun (by simp)
    case isFalse hin =>
      have hcount := h.counts l
      have hsplit := seek_split off (b.lists l).nodes
      have hown : ∀ p ∈ (takeOut (seek off (b.lists l).nodes).2.1 len
          (seek off (b.lists l).nodes).2.2).1, p.carriage = false ∧
          ∃ n ∈ (b.lists l).nodes, n.raw = p.raw ∧ p.stop ≤ n.stop := by
        intro p hp
        obtain ⟨hmark, n, hn, hpart⟩ := (takeOut_parts len (seek_rest off _)).1 p hp
        refine ⟨hmark, n, ?_, hpart.raw, hpart.stop⟩
        rw [← hsplit]
        exact List.mem_append_right _ hn
      have hclaimed := h.claimPieces off len hne hown (by
        rw [taken_pieces hwhole, ← bytes_eq, h.bytes])
      obtain rfl := Option.some.inj hrun
      obtain ⟨hbytes, htotal⟩ := splicedNodes_spec off hwhole hlen (by
        rw [← Nat.add_zero (total _), ← hcount.len]
        omega)
      have hnumber := (taken_seek hwhole off len).number
      have hdone := hclaimed.setList hcoherent ⟨?_, ?_⟩
      · rw [claimPieces_spread] at hdone
        unfold spliced
        rw [claimed_self v off len hne, ← h.bytes, bytes_eq, ← hbytes, h.bytes]
        exact hdone
      · show (b.lists l).len - len = total (splicedNodes off len (b.lists l).nodes) + 0
        rw [htotal, hcount.len]
        rfl
      · have hlength := congrArg List.length hsplit
        have hnum := hcount.num
        rw [List.length_append] at hlength
        show (b.lists l).num + (frontPart (seek off (b.lists l).nodes).2.1
            (seek off (b.lists l).nodes).2.2).length -
            ((seek off (b.lists l).nodes).2.2.length -
              (takeOut (seek off (b.lists l).nodes).2.1 len
                (seek off (b.lists l).nodes).2.2).2.1.length -
              (takeOut (seek off (b.lists l).nodes).2.1 len
                (seek off (b.lists l).nodes).2.2).2.2.length) =
            (splicedNodes off len (b.lists l).nodes).length
        unfold splicedNodes
        simp only [List.length_append]
        omega

/-! ## Remembering checksums -/

/-- What the raw buffers remember is no part of the lists. -/
theorem Refines.of_data {b' : Buffers} (h : Refines b v) (hcoherent : Coherent b')
    (hlists : b'.lists = b.lists) (hdata : ∀ r, (b'.raws r).data = (b.raws r).data) :
    Refines b' v := by
  refine ⟨hcoherent, fun m => by rw [hlists]; exact h.counts m, ?_⟩
  rw [← h.bytes]
  funext m
  rw [bytes_eq, bytes_eq, hlists]
  refine spread_congr fun n _ => ?_
  simp only [nodeBytes, Raw.slice, hdata]

theorem crcNodes_data (ns : List BufferNode) (b : Buffers) (crc : BitVec 32) :
    (crcNodes ns b crc).2.lists = b.lists ∧
      ∀ r, ((crcNodes ns b crc).2.raws r).data = (b.raws r).data := by
  induction ns generalizing b crc with
  | nil => exact ⟨rfl, fun _ => rfl⟩
  | cons n ns ih =>
      rw [crcNodes_cons]
      obtain ⟨hlists, hdata⟩ := ih (b.noted n crc) (b.crcNode n crc).1
      exact ⟨hlists.trans (noted_lists b n crc), fun r => (hdata r).trans (noted_data b n crc r)⟩

theorem Refines.crc32c (h : Refines b v) (l : Nat) (seed : BitVec 32) :
    Refines (b.crc32c l seed).2 v := by
  obtain ⟨hlists, hdata⟩ := crcNodes_data (b.lists l).nodes b seed
  exact h.of_data (h.coherent.crcNodes_snd (fun _ => id) seed) hlists hdata

/-! ## Writing in place -/

/-- No byte is in both nodes. -/
def Disjoint (n n' : BufferNode) : Prop :=
  n.raw = n'.raw → n.len = 0 ∨ n'.len = 0 ∨ n.stop ≤ n'.off ∨ n'.stop ≤ n.off

instance (n n' : BufferNode) : Decidable (Disjoint n n') := by
  unfold Disjoint
  infer_instance

/-- `xs` with `src` written at `off`. -/
def overwrite (xs : List UInt8) (off : Nat) (src : List UInt8) : List UInt8 :=
  xs.take off ++ src ++ xs.drop (off + src.length)

theorem slice_copyTo_after (r : Raw) {off x y : Nat} (src : List UInt8)
    (h : off + src.length ≤ x) (hroom : off ≤ r.data.length) :
    (r.copyTo off src).slice x y = r.slice x y := by
  simp only [Raw.slice, Raw.copyTo]
  rw [List.drop_append, List.drop_eq_nil_of_le (by
    rw [List.length_append, List.length_take]; omega), List.nil_append, List.length_append,
    List.length_take, List.drop_drop]
  congr 2
  omega

/-- A write inside a range. -/
theorem slice_copyTo_inside (r : Raw) {x y off : Nat} (src : List UInt8)
    (hin : off + src.length ≤ y) (hroom : x + y ≤ r.data.length) :
    (r.copyTo (x + off) src).slice x y = overwrite (r.slice x y) off src := by
  have hsplit : y = off + (src.length + (y - (off + src.length))) := by omega
  have hwritten : (r.copyTo (x + off) src).slice (x + off) src.length = src := by
    have h := @slice_copyTo_behind r (x + off) 0 src (by omega)
    simpa [Raw.slice] using h
  have hbefore := Coherent.slice_copyTo_before r src (le_refl (x + off)) (by omega)
  have hafter := slice_copyTo_after r src (le_refl (x + off + src.length))
    (show x + off ≤ r.data.length by omega) (y := y - (off + src.length))
  conv_lhs => rw [hsplit, ← slice_append, ← slice_append, hwritten, hbefore, hafter]
  unfold overwrite
  rw [List.append_assoc]
  congr 1
  · simp only [Raw.slice]
    rw [List.take_take, min_eq_left (by omega)]
  · congr 1
    simp only [Raw.slice]
    rw [List.drop_take, List.drop_drop, Nat.add_assoc]

/-- The bytes of a node in some raw buffers. -/
def rawBytes (raws : Nat → Raw) (n : BufferNode) : List UInt8 := (raws n.raw).slice n.off n.len

/-- One node's share of a write. -/
theorem rawBytes_write (raws : Nat → Raw) {n x : BufferNode} {off : Nat} {src : List UInt8}
    (hin : off + src.length ≤ n.len) (hpos : off < n.len)
    (hfits : n.stop ≤ (raws n.raw).data.length) (hdisj : Disjoint n x) :
    rawBytes (Function.update raws n.raw
      { (raws n.raw).copyTo (n.off + off) src with crc := none }) x = rawBytes raws x := by
  unfold rawBytes
  rw [Function.update_apply]
  split
  case isTrue hraw =>
    unfold BufferNode.stop at hfits
    rw [hraw]
    rcases hdisj hraw.symm with h | h | h | h
    · omega
    · simp [Raw.slice, h]
    · unfold BufferNode.stop at h
      exact slice_copyTo_after _ src (by omega) (by omega)
    · unfold BufferNode.stop at h
      exact Coherent.slice_copyTo_before _ src (by omega) (by omega)
  case isFalse => rfl

/-- The nodes lie in raw buffers of their lengths. -/
def Fitting (raws : Nat → Raw) (ns : List BufferNode) : Prop :=
  ∀ n ∈ ns, n.stop ≤ (raws n.raw).data.length

theorem Fitting.write {raws : Nat → Raw} {ns : List BufferNode} (h : Fitting raws ns)
    {n : BufferNode} {off : Nat} {src : List UInt8} (hin : off + src.length ≤ n.len)
    (hfits : n.stop ≤ (raws n.raw).data.length) :
    Fitting (Function.update raws n.raw
      { (raws n.raw).copyTo (n.off + off) src with crc := none }) ns := by
  intro x hx
  rw [Function.update_apply]
  split
  case isTrue hraw =>
    unfold BufferNode.stop at hfits
    show x.stop ≤ ((raws n.raw).copyTo (n.off + off) src).data.length
    rw [Coherent.length_copyTo _ _ (by omega), ← hraw]
    exact h x hx
  case isFalse => exact h x hx

/-- A node that shares no byte with those that are written keeps its bytes. -/
theorem copyInNodes_frame {raws : Nat → Raw} {ns : List BufferNode} (hfits : Fitting raws ns)
    {x : BufferNode} (hdisj : ∀ n ∈ ns, Disjoint n x) (off : Nat) (src : List UInt8) :
    rawBytes (copyInNodes raws ns off src) x = rawBytes raws x := by
  induction ns generalizing raws off src with
  | nil => rfl
  | cons n ns ih =>
      have htail : Fitting raws ns := fun y hy => hfits y (List.mem_cons_of_mem n hy)
      have hrest : ∀ y ∈ ns, Disjoint y x := fun y hy => hdisj y (List.mem_cons_of_mem n hy)
      unfold copyInNodes
      split
      · rfl
      split
      · exact ih htail hrest _ _
      case isFalse hlt =>
        have hin : off + (src.take (min src.length (n.len - off))).length ≤ n.len := by
          rw [List.length_take]
          omega
        have hn := hfits n List.mem_cons_self
        dsimp only
        rw [ih (htail.write hin hn) hrest]
        exact rawBytes_write raws hin (by omega) hn (hdisj n List.mem_cons_self)

theorem overwrite_append_left {xs : List UInt8} (ys : List UInt8) {off : Nat} {src : List UInt8}
    (h : off + src.length ≤ xs.length) :
    overwrite (xs ++ ys) off src = overwrite xs off src ++ ys := by
  unfold overwrite
  rw [List.take_append_of_le_length (by omega), List.drop_append_of_le_length h]
  simp [List.append_assoc]

theorem overwrite_append_right {xs : List UInt8} (ys : List UInt8) {off : Nat} (src : List UInt8)
    (h : xs.length ≤ off) :
    overwrite (xs ++ ys) off src = xs ++ overwrite ys (off - xs.length) src := by
  unfold overwrite
  rw [List.take_append, List.take_of_length_le h, List.drop_append,
    List.drop_eq_nil_of_le (by omega), List.nil_append, List.append_assoc, List.append_assoc,
    List.append_assoc, Nat.sub_add_comm h]

/-- A write over the end of `xs`. -/
theorem overwrite_append_across {xs : List UInt8} (ys : List UInt8) {off k : Nat}
    {src : List UInt8} (hk : off + k = xs.length) (hle : k ≤ src.length) :
    overwrite (xs ++ ys) off src =
      overwrite xs off (src.take k) ++ overwrite ys 0 (src.drop k) := by
  unfold overwrite
  rw [List.take_append_of_le_length (by omega), List.drop_append,
    List.drop_eq_nil_of_le (by omega : xs.length ≤ off + src.length), List.nil_append,
    List.drop_eq_nil_of_le (by rw [List.length_take]; omega : xs.length ≤ off + (src.take k).length),
    List.append_nil, List.take_zero, List.nil_append, List.length_drop, Nat.zero_add,
    List.append_assoc, List.append_assoc, ← List.append_assoc (src.take k), List.take_append_drop]
  congr 3
  omega

theorem overwrite_nil (xs : List UInt8) (off : Nat) : overwrite xs off [] = xs := by
  simp [overwrite]

/-- The nodes that are written, when they share no byte. -/
theorem copyInNodes_bytes {raws : Nat → Raw} {ns : List BufferNode} (hfits : Fitting raws ns)
    (hpairs : ns.Pairwise Disjoint) {off : Nat} {src : List UInt8}
    (hin : off + src.length ≤ total ns) :
    ns.flatMap (rawBytes (copyInNodes raws ns off src)) =
      overwrite (ns.flatMap (rawBytes raws)) off src := by
  induction ns generalizing raws off src with
  | nil =>
      rw [total_nil] at hin
      rw [List.eq_nil_of_length_eq_zero (show src.length = 0 by omega)]
      simp [overwrite]
  | cons n ns ih =>
      have htail : Fitting raws ns := fun y hy => hfits y (List.mem_cons_of_mem n hy)
      have hn := hfits n List.mem_cons_self
      obtain ⟨hfirst, hrest⟩ := List.pairwise_cons.mp hpairs
      have hsymm : ∀ y ∈ ns, Disjoint y n := fun y hy hraw => by
        rcases hfirst y hy hraw.symm with h | h | h | h
        · exact .inr (.inl h)
        · exact .inl h
        · exact .inr (.inr (.inr h))
        · exact .inr (.inr (.inl h))
      have hlen : (rawBytes raws n).length = n.len := by
        unfold BufferNode.stop at hn
        rw [rawBytes, Raw.slice, List.length_take, List.length_drop]
        omega
      rw [total_cons] at hin
      rw [List.flatMap_cons, List.flatMap_cons]
      unfold copyInNodes
      split
      case isTrue hnil => rw [hnil, overwrite_nil]
      case isFalse hne =>
        split
        case isTrue hskip =>
          rw [copyInNodes_frame htail hsymm, ih htail hrest (by omega),
            overwrite_append_right _ src (by omega), hlen]
        case isFalse hlt =>
          have hchunk : off + (src.take (min src.length (n.len - off))).length ≤ n.len := by
            rw [List.length_take]
            omega
          dsimp only
          rw [copyInNodes_frame (htail.write hchunk hn) hsymm,
            ih (htail.write hchunk hn) hrest (by rw [List.length_drop]; omega)]
          have hkeep : ns.flatMap (rawBytes (Function.update raws n.raw
              { (raws n.raw).copyTo (n.off + off) (src.take (min src.length (n.len - off))) with
                crc := none })) = ns.flatMap (rawBytes raws) :=
            List.flatMap_congr fun y hy => rawBytes_write raws hchunk (by omega) hn (hfirst y hy)
          have hown : rawBytes (Function.update raws n.raw
              { (raws n.raw).copyTo (n.off + off) (src.take (min src.length (n.len - off))) with
                crc := none }) n =
              overwrite (rawBytes raws n) off (src.take (min src.length (n.len - off))) := by
            unfold rawBytes
            rw [Function.update_self]
            exact slice_copyTo_inside _ _ hchunk hn
          rw [hkeep, hown]
          rcases Nat.le_total src.length (n.len - off) with hle | hle
          · rw [min_eq_left hle, List.take_length, List.drop_length, overwrite_nil,
              overwrite_append_left _ (by omega)]
          · rw [min_eq_right hle, overwrite_append_across _ (by omega) hle]

/-- No byte of the list is in another of its nodes, or in another list. -/
structure Apart (b : Buffers) (l : Nat) : Prop where
  pairs : (b.lists l).nodes.Pairwise Disjoint
  others : ∀ m, m ≠ l → ∀ n ∈ (b.lists l).nodes, ∀ x ∈ (b.lists m).nodes, Disjoint n x

theorem Refines.copyIn (h : Refines b v) (hapart : Apart b l) {src : List UInt8}
    (hin : off + src.length ≤ (b.lists l).len) :
    Refines (b.copyIn l off src) (Function.update v l (overwrite (v l) off src)) := by
  have hcoherent := h.coherent.copyInNodes (fun n hn => ⟨l, hn⟩) off src
  have hfits : Fitting b.raws (b.lists l).nodes := fun n hn => (h.coherent.fits l n hn).2
  have hcount := h.counts l
  refine ⟨hcoherent, h.counts, ?_⟩
  rw [← h.bytes]
  funext m
  rw [Function.update_apply]
  split
  case isTrue hm =>
    rw [hm]
    exact copyInNodes_bytes hfits hapart.pairs (by rw [hcount.len] at hin; omega)
  case isFalse hm =>
    refine @spread_congr b (b.copyIn l off src) _ fun x hx => ?_
    exact copyInNodes_frame hfits (fun n hn => hapart.others m hm n hn x hx) off src

/-! ## Forgetting checksums -/

theorem invalidated_data (ns : List BufferNode) (b : Buffers) :
    (ns.foldl (fun b n => b.setRaw n.raw { b.raws n.raw with crc := none }) b).lists = b.lists ∧
      ∀ r, ((ns.foldl (fun b n => b.setRaw n.raw { b.raws n.raw with crc := none }) b).raws r).data =
        (b.raws r).data := by
  induction ns generalizing b with
  | nil => exact ⟨rfl, fun _ => rfl⟩
  | cons n ns ih =>
      obtain ⟨hlists, hdata⟩ := ih (b.setRaw n.raw { b.raws n.raw with crc := none })
      refine ⟨hlists, fun r => (hdata r).trans ?_⟩
      rw [setRaw_raws]
      split
      case isTrue hr => rw [hr]
      case isFalse => rfl

theorem Refines.invalidateCrc (h : Refines b v) (l : Nat) : Refines (b.invalidateCrc l) v := by
  obtain ⟨hlists, hdata⟩ := invalidated_data (b.lists l).nodes b
  exact h.of_data (h.coherent.invalidateCrc l) hlists hdata

end Buffers

end Clab.Common
