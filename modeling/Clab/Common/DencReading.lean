import Clab.Common.DencLaws

/-!
# What DENC reads

A decoder gets back every spelling of a value and stops behind it. On any other
input it sees only the bytes of its buffer: iterators over the same bytes have the
same outcome, whatever memory lies behind them and however a list of the bytes is
split into nodes.
-/

namespace Clab.Common

open Codec

namespace Decoder

/-! ## Running a decoder -/

theorem bind_apply {α β : Type} (d : Decoder α) (f : α → Decoder β) (it : PtrIterator) :
    (d >>= f) it = (d it).bind fun r => f r.1 r.2 := rfl

theorem bind_ok {α β : Type} {d : Decoder α} {f : α → Decoder β} {it it' : PtrIterator} {y : β}
    (h : (d >>= f) it = .ok (y, it')) : ∃ x it₁, d it = .ok (x, it₁) ∧ f x it₁ = .ok (y, it') := by
  rw [bind_apply] at h
  rcases hx : d it with e | ⟨x, it₁⟩
  · rw [hx] at h
    cases h
  · rw [hx] at h
    exact ⟨x, it₁, rfl, h⟩

/-- `d` reads exactly `bs`, yielding `x`, whatever input follows. -/
def Decodes {α : Type} (d : Decoder α) (bs : Bytes) (x : α) : Prop :=
  ∀ it s, it.bytes = bs ++ s →
    ∃ it', d it = .ok (x, it') ∧ it'.bytes = s ∧ it'.off = it.off + bs.length

/-- Iterators over the same bytes. -/
structure Alike (it it' : PtrIterator) : Prop where
  left : it.left = it'.left
  off : it.off = it'.off
  bytes : it.bytes = it'.bytes

/-- Outcomes that differ at most in the memory behind the input. -/
def SameOutcome {α : Type} :
    Except DecodeError (α × PtrIterator) → Except DecodeError (α × PtrIterator) → Prop
  | .ok (x, it), .ok (y, it') => x = y ∧ Alike it it'
  | .error e, .error e' => e = e'
  | _, _ => False

/-- `d` uses no memory behind the input, and what it takes is gone from what is left. -/
structure Confined {α : Type} (d : Decoder α) : Prop where
  alike : ∀ it it', Alike it it' → SameOutcome (d it) (d it')
  taken : ∀ it x it', d it = .ok (x, it') → it'.off + it'.left = it.off + it.left

theorem length_bytes (it : PtrIterator) : it.bytes.length = it.left := by
  rw [PtrIterator.bytes, List.length_take, min_eq_left it.fits]

theorem advance_bytes (it : PtrIterator) (n : Nat) : (it.advance n).bytes = it.bytes.drop n := by
  rw [PtrIterator.bytes, PtrIterator.bytes, PtrIterator.advance, List.drop_take]

theorem getPosAdd_ok {n : Nat} {it it' : PtrIterator} {bs : Bytes}
    (h : getPosAdd n it = .ok (bs, it')) : n ≤ it.left ∧ bs = it.mem.take n ∧ it' = it.advance n := by
  unfold getPosAdd at h
  split at h
  case isTrue hn =>
    obtain ⟨rfl, rfl⟩ := Prod.mk.inj (Except.ok.inj h)
    exact ⟨hn, rfl, rfl⟩
  case isFalse => cases h

theorem take_mem {it : PtrIterator} {n : Nat} (hn : n ≤ it.left) : it.mem.take n = it.bytes.take n := by
  rw [PtrIterator.bytes, List.take_take, min_eq_left hn]

/-! ## Reading a spelling -/

namespace Decodes

theorem pure {α : Type} (x : α) : Decodes (Pure.pure x : Decoder α) [] x :=
  fun it _ h => ⟨it, rfl, h, rfl⟩

theorem bind {α β : Type} {d : Decoder α} {f : α → Decoder β} {bs cs : Bytes} {x : α} {y : β}
    (hd : Decodes d bs x) (hf : Decodes (f x) cs y) : Decodes (d >>= f) (bs ++ cs) y := by
  intro it s hit
  rw [List.append_assoc] at hit
  obtain ⟨it₁, hrun, hbytes, hoff⟩ := hd it (cs ++ s) hit
  obtain ⟨it₂, hrun', hbytes', hoff'⟩ := hf it₁ s hbytes
  refine ⟨it₂, ?_, hbytes', ?_⟩
  · rw [bind_apply, hrun]
    exact hrun'
  · rw [hoff', hoff, List.length_append, Nat.add_assoc]

theorem map {α β : Type} {d : Decoder α} {g : α → β} {bs : Bytes} {x : α} (hd : Decodes d bs x) :
    Decodes (d >>= fun a => Pure.pure (g a)) bs (g x) := by
  have h := hd.bind (f := fun a => Pure.pure (g a)) (Decodes.pure (g x))
  rwa [List.append_nil] at h

theorem getPosAdd (bs : Bytes) : Decodes (getPosAdd bs.length) bs bs := by
  intro it s hit
  have hleft := length_bytes it
  rw [hit, List.length_append] at hleft
  refine ⟨it.advance bs.length, ?_, ?_, rfl⟩
  · rw [Decoder.getPosAdd, if_pos (by omega), take_mem (by omega), hit, List.take_left]
  · rw [advance_bytes, hit, List.drop_left]

theorem integer {w n : Nat} (hn : n < 256 ^ w) : Decodes (integer w) (leBytes w n) n := by
  have hread := getPosAdd (leBytes w n)
  rw [leBytes_length] at hread
  have h := Decodes.map (g := leNat) hread
  rwa [leNat_leBytes_of_lt hn] at h

theorem items {α : Type} {item : Decoder α} {f : α → α} {R : α → Bytes → Prop}
    (hitem : ∀ x bs, R x bs → Decodes item bs (f x)) {xs : List α} {parts : List Bytes}
    (hparts : List.Forall₂ R xs parts) :
    Decodes (items item xs.length) parts.flatten (xs.map f) := by
  induction hparts with
  | nil => exact .pure []
  | cons hx hparts ih => exact (hitem _ _ hx).bind ih.map

/-- A body that is read up to the extra bytes behind it. -/
theorem body {α : Type} {d : Decoder α} {cs : Bytes} {x : α} (hd : Decodes d cs x) (extra : Bytes) :
    Decodes (getPos >>= fun start => d >>= fun a =>
      finish start (cs ++ extra).length >>= fun _ => Pure.pure a) (cs ++ extra) x := by
  intro it s hit
  rw [List.append_assoc] at hit
  obtain ⟨it₁, hrun, hbytes, hoff⟩ := hd it (extra ++ s) hit
  have hskip : ∃ it₂, finish it.off (cs ++ extra).length it₁ = .ok ((), it₂) ∧ it₂.bytes = s ∧
      it₂.off = it.off + (cs ++ extra).length := by
    rw [List.length_append]
    cases extra with
    | nil =>
        refine ⟨it₁, ?_, hbytes, hoff⟩
        rw [finish, bind_apply, Decoder.getPos, List.length_nil, Nat.add_zero]
        simp only [Except.bind]
        rw [if_neg (by omega), if_neg (by omega)]
        rfl
    | cons b extra =>
        obtain ⟨it₂, hrun', hbytes', hoff'⟩ := getPosAdd (b :: extra) it₁ s hbytes
        refine ⟨it₂, ?_, hbytes', by omega⟩
        have hcount : it.off + (cs.length + (b :: extra).length) - it₁.off = (b :: extra).length := by
          omega
        rw [finish, bind_apply, Decoder.getPos]
        simp only [Except.bind]
        rw [if_neg (by omega), if_pos (by rw [List.length_cons]; omega), hcount, bind_apply, hrun']
        rfl
  obtain ⟨it₂, hfinish, hrest⟩ := hskip
  refine ⟨it₂, ?_, hrest⟩
  rw [bind_apply, Decoder.getPos]
  simp only [Except.bind]
  rw [bind_apply, hrun]
  simp only [Except.bind]
  rw [bind_apply, hfinish]
  rfl

end Decodes

/-! ## Staying in the input -/

namespace Confined

theorem pure {α : Type} (x : α) : Confined (Pure.pure x : Decoder α) where
  alike it it' h := ⟨rfl, h⟩
  taken it y it' h := by
    obtain ⟨rfl, rfl⟩ := Prod.mk.inj (Except.ok.inj h)
    rfl

theorem throw {α : Type} (e : DecodeError) : Confined (MonadExcept.throw e : Decoder α) where
  alike it it' h := rfl
  taken it y it' h := by cases h

theorem bind {α β : Type} {d : Decoder α} {f : α → Decoder β} (hd : Confined d)
    (hf : ∀ x, Confined (f x)) : Confined (d >>= f) where
  alike it it' h := by
    have hsame := hd.alike it it' h
    rw [bind_apply, bind_apply]
    rcases hx : d it with e | ⟨x, it₁⟩ <;> rcases hx' : d it' with e' | ⟨x', it₁'⟩ <;>
      rw [hx, hx'] at hsame
    · exact hsame
    · exact hsame.elim
    · exact hsame.elim
    · obtain ⟨rfl, halike⟩ := hsame
      exact (hf x).alike it₁ it₁' halike
  taken it y it' h := by
    obtain ⟨x, it₁, hx, hy⟩ := bind_ok h
    rw [(hf x).taken it₁ y it' hy, hd.taken it x it₁ hx]

theorem getPosAdd (n : Nat) : Confined (getPosAdd n) where
  alike it it' h := by
    unfold Decoder.getPosAdd
    rw [h.left]
    split
    case isTrue hn =>
      refine ⟨?_, ?_, ?_, ?_⟩
      · rw [take_mem (by rw [h.left]; exact hn), take_mem hn, h.bytes]
      · show it.left - n = it'.left - n
        rw [h.left]
      · show it.off + n = it'.off + n
        rw [h.off]
      · rw [advance_bytes, advance_bytes, h.bytes]
    case isFalse => rfl
  taken it x it' h := by
    obtain ⟨hn, -, rfl⟩ := getPosAdd_ok h
    show it.off + n + (it.left - n) = it.off + it.left
    omega

theorem getPos : Confined getPos where
  alike it it' h := ⟨h.off, h⟩
  taken it x it' h := by
    obtain ⟨-, rfl⟩ := Prod.mk.inj (Except.ok.inj h)
    rfl

theorem integer (w : Nat) : Confined (integer w) :=
  (getPosAdd w).bind fun _ => .pure _

theorem items {α : Type} {item : Decoder α} (hitem : Confined item) (n : Nat) :
    Confined (items item n) := by
  induction n with
  | zero => exact .pure []
  | succ n ih => exact hitem.bind fun x => ih.bind fun xs => .pure _

theorem finish (start len : Nat) : Confined (finish start len) := by
  refine getPos.bind fun pos => ?_
  split
  · exact .throw _
  · split
    · exact (getPosAdd _).bind fun _ => .pure ()
    · exact .pure ()

end Confined

/-- Behind `_denc_finish` the iterator is where the struct ends. -/
theorem finish_off {start len : Nat} {it it' : PtrIterator}
    (h : finish start len it = .ok ((), it')) : it'.off = start + len := by
  rw [finish, bind_apply, getPos] at h
  simp only [Except.bind] at h
  split at h
  · cases h
  · split at h
    case isTrue =>
      obtain ⟨bs, it₁, hread, hlast⟩ := bind_ok h
      obtain ⟨-, -, rfl⟩ := getPosAdd_ok hread
      obtain ⟨-, rfl⟩ := Prod.mk.inj (Except.ok.inj hlast)
      show it.off + (start + len - it.off) = start + len
      omega
    case isFalse =>
      obtain ⟨-, rfl⟩ := Prod.mk.inj (Except.ok.inj h)
      omega

end Decoder

namespace Denc

open Decoder

theorem decode_spells {α : Type} (d : Denc α) {x : α} {bs : Bytes} (hx : d.Spells x bs) :
    Decodes d.decode bs (d.norm x) := by
  induction d generalizing bs with
  | integer w =>
      obtain ⟨hn, rfl⟩ := hx
      exact .integer hn
  | array n item ih =>
      obtain ⟨rfl, parts, hparts, rfl⟩ := hx
      exact Decodes.items (fun y bs hy => ih hy) hparts
  | vector item ih =>
      obtain ⟨hcount, parts, hparts, rfl⟩ := hx
      exact (Decodes.integer (by omega)).bind (Decodes.items (fun y bs hy => ih hy) hparts)
  | bufferList =>
      obtain ⟨hlength, rfl⟩ := hx
      refine (Decodes.integer (by omega)).bind ?_
      have hread : Decodes (do
          let bs ← getPosAdd x.flatten.length
          return if x.flatten.length = 0 then [] else [bs]) x.flatten
          (if x.flatten.length = 0 then [] else [x.flatten]) :=
        (Decodes.getPosAdd x.flatten).map
      simpa only [norm, List.length_eq_zero_iff] using hread
  | pair first second ihFirst ihSecond =>
      obtain ⟨x, y⟩ := x
      obtain ⟨cs, ds, hfirst, hsecond, rfl⟩ := hx
      exact (ihFirst hfirst).bind (ihSecond hsecond).map
  | fields get set d ih => exact (ih hx).map
  | struct v compat body ih =>
      obtain ⟨cs, extra, hbody, hlength, rfl⟩ := hx
      rw [List.append_assoc]
      have hv : Decodes (getPosAdd 1) [v] [v] := .getPosAdd [v]
      have hcompat : Decodes (getPosAdd 1) [compat] [compat] := .getPosAdd [compat]
      exact hv.bind (hcompat.bind ((Decodes.integer hlength).bind ((ih hbody).body extra)))

theorem decode_confined {α : Type} (d : Denc α) : Confined d.decode := by
  induction d with
  | integer w => exact .integer w
  | array n item ih => exact ih.items n
  | vector item ih => exact (Confined.integer 4).bind fun num => ih.items num
  | bufferList => exact (Confined.integer 4).bind fun len => (Confined.getPosAdd len).bind fun _ => .pure _
  | pair first second ihFirst ihSecond => exact ihFirst.bind fun x => ihSecond.bind fun y => .pure _
  | fields get set d ih => exact ih.bind fun x => .pure _
  | struct v compat body ih =>
      exact (Confined.getPosAdd 1).bind fun _ => (Confined.getPosAdd 1).bind fun _ =>
        (Confined.integer 4).bind fun len => Confined.getPos.bind fun start =>
          ih.bind fun x => (Confined.finish start len).bind fun _ => .pure x

/-- A struct that is decoded has the length that its header says. -/
theorem decode_struct_off {α : Type} {v compat : UInt8} {body : Denc α} {it it' : PtrIterator} {x : α}
    (h : (struct v compat body).decode it = .ok (x, it')) :
    it'.off = it.off + 6 + leNat ((it.bytes.drop 2).take 4) := by
  obtain ⟨v', it₁, hv, h⟩ := bind_ok h
  obtain ⟨-, -, rfl⟩ := getPosAdd_ok hv
  obtain ⟨compat', it₂, hcompat, h⟩ := bind_ok h
  obtain ⟨-, -, rfl⟩ := getPosAdd_ok hcompat
  obtain ⟨structLen, it₃, hlen, h⟩ := bind_ok h
  obtain ⟨bs, it₄, hread, hlen⟩ := bind_ok hlen
  obtain ⟨hleft, rfl, rfl⟩ := getPosAdd_ok hread
  obtain ⟨rfl, rfl⟩ := Prod.mk.inj (Except.ok.inj hlen)
  obtain ⟨start, it₅, hstart, h⟩ := bind_ok h
  obtain ⟨rfl, rfl⟩ := Prod.mk.inj (Except.ok.inj hstart)
  obtain ⟨y, it₆, -, h⟩ := bind_ok h
  obtain ⟨u, it₇, hfinish, h⟩ := bind_ok h
  obtain ⟨-, rfl⟩ := Prod.mk.inj (Except.ok.inj h)
  rw [finish_off hfinish, take_mem hleft, advance_bytes, advance_bytes, List.drop_drop]
  rfl

end Denc

/-! ## Lists -/

namespace Ptr

theorem length_bytes (n : Ptr) : n.bytes.length = n.len := by
  rw [bytes, List.length_take, min_eq_left n.fits]

theorem length_flatMap (ns : List Ptr) : (ns.flatMap bytes).length = (ns.map len).sum := by
  induction ns with
  | nil => rfl
  | cons n ns ih => simp only [List.flatMap_cons, List.length_append, length_bytes, ih,
      List.map_cons, List.sum_cons]

end Ptr

namespace NodeList

theorem length_bytes (l : NodeList) : l.bytes.length = l.length := Ptr.length_flatMap l.nodes

theorem seek_bytes (off : Nat) (ns : List Ptr) :
    ((seek off ns).1.flatMap Ptr.bytes).drop (seek off ns).2 = (ns.flatMap Ptr.bytes).drop off := by
  induction ns generalizing off with
  | nil => rfl
  | cons n ns ih =>
      unfold seek
      split
      case isTrue hskip =>
        have hgone : n.bytes.drop off = [] :=
          List.drop_eq_nil_of_le (by rw [Ptr.length_bytes]; exact hskip)
        rw [ih, List.flatMap_cons, List.drop_append, Ptr.length_bytes, hgone, List.nil_append]
      case isFalse => rfl

theorem seek_inside (off : Nat) (ns : List Ptr) :
    ∀ n ∈ (seek off ns).1.head?, (seek off ns).2 < n.len := by
  induction ns generalizing off with
  | nil => exact fun n hn => absurd hn (by simp [seek])
  | cons n ns ih =>
      unfold seek
      split
      case isTrue => exact ih _
      case isFalse hin =>
        intro n' hn'
        obtain rfl : n = n' := by simpa using hn'
        show off < n.len
        omega

theorem copyOut_eq {len off : Nat} {ns : List Ptr} (hoff : ∀ n ∈ ns.head?, off ≤ n.len)
    (hlen : len + off ≤ (ns.flatMap Ptr.bytes).length) :
    copyOut len off ns = .ok (((ns.flatMap Ptr.bytes).drop off).take len) := by
  induction ns generalizing len off with
  | nil =>
      have hzero : len = 0 := by
        simp only [List.flatMap_nil, List.length_nil] at hlen
        omega
      rw [copyOut, if_pos hzero, hzero, List.take_zero]
  | cons n ns ih =>
      have hin : off ≤ n.bytes.length := by
        rw [Ptr.length_bytes]
        exact hoff n (by simp)
      rw [List.flatMap_cons, List.length_append] at hlen
      unfold copyOut
      split
      case isTrue hzero => rw [hzero, List.take_zero]
      case isFalse =>
        have hrest := @ih (len - min len (n.len - off)) 0 (fun _ _ => Nat.zero_le _) (by
          rw [← Ptr.length_bytes]
          omega)
        have hfirst : (n.bytes.drop off).take (min len (n.len - off)) =
            (n.bytes.drop off).take len := by
          rw [List.take_eq_take_iff, List.length_drop, Ptr.length_bytes]
          omega
        have hleft : len - min len (n.len - off) = len - (n.bytes.drop off).length := by
          rw [List.length_drop, Ptr.length_bytes]
          omega
        simp only [hrest, List.drop_zero]
        rw [List.flatMap_cons, List.drop_append_of_le_length hin, List.take_append, hfirst, hleft]
        rfl

theorem copyShallow_eq {len off : Nat} {n : Ptr} {ns : List Ptr} (hoff : off < n.len)
    (hlen : len + off ≤ ((n :: ns).flatMap Ptr.bytes).length) :
    ∃ tmp, copyShallow len off (n :: ns) = .ok tmp ∧
      tmp.bytes = (((n :: ns).flatMap Ptr.bytes).drop off).take len := by
  by_cases hone : len ≤ n.len - off
  · rw [copyShallow, dif_pos hone]
    refine ⟨_, rfl, ?_⟩
    have hlength := Ptr.length_bytes n
    rw [List.flatMap_cons, List.drop_append_of_le_length (by omega),
      List.take_append_of_le_length (by rw [List.length_drop]; omega)]
    show (n.mem.drop off).take len = ((n.mem.take n.len).drop off).take len
    rw [List.drop_take, List.take_take, min_eq_left hone]
  · have hfirst : ∀ m ∈ (n :: ns).head?, off ≤ m.len := by
      intro m hm
      obtain rfl : n = m := by simpa using hm
      exact hoff.le
    rw [copyShallow, dif_neg hone, copyOut_eq hfirst hlen]
    exact ⟨_, rfl, List.take_length⟩

end NodeList

namespace Denc

open Decoder

variable {α : Type}

theorem whole_fits (bs : Bytes) : bs.length ≤ bs.length := le_rfl

/-- The iterator of a buffer that has just the bytes. -/
def ofBytes (bs : Bytes) : PtrIterator := ⟨bs, bs.length, 0, whole_fits bs⟩

theorem ofBytes_bytes (bs : Bytes) : (ofBytes bs).bytes = bs := List.take_length

/-- The nodes of a list do not matter, only its bytes. -/
theorem decodeAt_eq (d : Denc α) (l : NodeList) (off : Nat) :
    d.decodeAt l off =
      if l.length ≤ off then .error .endOfBuffer
      else (d.decode (ofBytes (l.bytes.drop off))).map fun r => (r.1, off + r.2.off) := by
  have hbytes := NodeList.seek_bytes off l.nodes
  have hinside := NodeList.seek_inside off l.nodes
  have hlength := congrArg List.length hbytes
  change _ = (l.bytes.drop off).length at hlength
  rw [List.length_drop, List.length_drop, l.length_bytes] at hlength
  unfold decodeAt
  rcases hseek : NodeList.seek off l.nodes with ⟨_ | ⟨n, ns⟩, nodeOff⟩
  · rw [hseek] at hlength
    simp only [List.flatMap_nil, List.length_nil] at hlength
    rw [if_pos (by omega)]
    rfl
  · rw [hseek] at hbytes hinside hlength
    have hin : nodeOff < n.len := hinside n (by simp)
    have hfirst : n.len ≤ ((n :: ns).flatMap Ptr.bytes).length := by
      rw [List.flatMap_cons, List.length_append, Ptr.length_bytes]
      omega
    simp only at hlength hbytes
    obtain ⟨tmp, hcopy, htmp⟩ := @NodeList.copyShallow_eq (l.length - off) nodeOff n ns hin (by omega)
    rw [hbytes, List.take_of_length_le (by rw [List.length_drop, ← l.length_bytes]; exact le_rfl)]
      at htmp
    have halike : Alike tmp.cbegin (ofBytes (l.bytes.drop off)) := by
      refine ⟨?_, rfl, ?_⟩
      · show tmp.len = (l.bytes.drop off).length
        rw [← tmp.length_bytes, htmp]
        rfl
      · rw [ofBytes_bytes]
        exact htmp
    have hsame := d.decode_confined.alike _ _ halike
    rw [if_neg (by omega)]
    simp only [reduceCtorEq, if_false]
    rw [hcopy]
    show (d.decode tmp.cbegin).bind _ = _
    rcases hx : d.decode tmp.cbegin with e | ⟨x, it⟩ <;>
      rcases hx' : d.decode (ofBytes (l.bytes.drop off)) with e' | ⟨x', it'⟩ <;> rw [hx, hx'] at hsame
    · obtain rfl : e = e' := hsame
      rfl
    · exact hsame.elim
    · exact hsame.elim
    · obtain ⟨rfl, hend⟩ := hsame
      show Except.ok (x, off + it.off) = .ok (x, off + it'.off)
      rw [hend.off]

/-- A visitor of a struct. -/
def Headed : {α : Type} → Denc α → Prop
  | _, fields _ _ d => d.Headed
  | _, struct _ _ _ => True
  | _, _ => False

/-- What is decoded has the length that the header says. -/
theorem decode_off {d : Denc α} (hd : d.Headed) {it it' : PtrIterator} {x : α}
    (h : d.decode it = .ok (x, it')) : it'.off = it.off + 6 + leNat ((it.bytes.drop 2).take 4) := by
  induction d with
  | fields get set d ih =>
      obtain ⟨y, it₁, hy, hx⟩ := bind_ok h
      obtain ⟨-, rfl⟩ := Prod.mk.inj (Except.ok.inj hx)
      exact ih hd hy
  | struct v compat body ih => exact decode_struct_off h
  | integer w => exact hd.elim
  | array n item ih => exact hd.elim
  | vector item ih => exact hd.elim
  | bufferList => exact hd.elim
  | pair first second ihFirst ihSecond => exact hd.elim

theorem spells_length {d : Denc α} (hd : d.Headed) {x : α} {bs : Bytes} (hx : d.Spells x bs) :
    0 < bs.length := by
  induction d with
  | fields get set d ih => exact ih hd hx
  | struct v compat body ih =>
      obtain ⟨cs, extra, -, -, rfl⟩ := hx
      simp
  | integer w => exact hd.elim
  | array n item ih => exact hd.elim
  | vector item ih => exact hd.elim
  | bufferList => exact hd.elim
  | pair first second ihFirst ihSecond => exact hd.elim

/-- The visitor encodes every value that fits and reads it back, extra bytes or not; what it decodes
of any bytes has the length of its header and depends on nothing but the bytes. -/
structure Sound (d : Denc α) : Prop where
  encodes : ∀ x, d.InRange x → (d.bytes x).length < 2 ^ 32 → ∀ dest tail,
    d.encodeTo x dest tail = some (dest ++ d.bytes x) ∧ d.Spells x (d.bytes x)
  decodes : ∀ x bs, d.Spells x bs → ∀ (l : NodeList) off s, l.bytes.drop off = bs ++ s →
    d.decodeAt l off = .ok (d.norm x, off + bs.length)
  consumes : ∀ (l : NodeList) off x off', d.decodeAt l off = .ok (x, off') →
    off' = off + 6 + leNat ((l.bytes.drop (off + 2)).take 4) ∧ off' ≤ l.length
  confined : ∀ (l l' : NodeList) off, l.bytes = l'.bytes → d.decodeAt l off = d.decodeAt l' off

theorem sound {d : Denc α} (hheaded : d.Headed) (hsolid : d.Solid) : d.Sound where
  encodes x hx hlength dest tail := ⟨d.encodeTo_eq x hlength dest tail, spells_bytes hsolid hx hlength⟩
  decodes x bs hx l off s hl := by
    have hpos := spells_length hheaded hx
    have hlength := congrArg List.length hl
    rw [List.length_drop, l.length_bytes, List.length_append] at hlength
    obtain ⟨it', hrun, -, hoff⟩ := d.decode_spells hx (ofBytes (bs ++ s)) s (ofBytes_bytes _)
    rw [decodeAt_eq, if_neg (by omega), hl, hrun]
    show Except.ok (d.norm x, off + it'.off) = _
    rw [hoff]
    simp [ofBytes]
  consumes l off x off' h := by
    rw [decodeAt_eq] at h
    split at h
    case isTrue => cases h
    case isFalse hin =>
      rcases hx : d.decode (ofBytes (l.bytes.drop off)) with e | ⟨y, it⟩
      · rw [hx] at h
        cases h
      · rw [hx] at h
        obtain ⟨rfl, rfl⟩ := Prod.mk.inj (Except.ok.inj h)
        have hend := decode_off hheaded hx
        have htaken := d.decode_confined.taken _ _ _ hx
        rw [ofBytes_bytes, List.drop_drop] at hend
        change it.off + it.left = 0 + (l.bytes.drop off).length at htaken
        rw [List.length_drop, l.length_bytes] at htaken
        change it.off = 0 + 6 + _ at hend
        show off + it.off = _ ∧ off + it.off ≤ _
        omega
  confined l l' off h := by
    rw [decodeAt_eq, decodeAt_eq, ← l.length_bytes, ← l'.length_bytes, h]

end Denc

end Clab.Common
