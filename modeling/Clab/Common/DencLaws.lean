import Clab.Common.Denc

/-!
# The laws of DENC

Each law is proved for every visitor by induction on its body: the bound is the
length of the encoding, the appender gets the encoding also where nodes of other
lists lie in the middle of it, the decoder reads back every spelling of a value,
and it reads nothing behind the end of its buffer.
-/

namespace Clab.Common

open Codec

namespace Denc

/-! ## Encodings -/

/-- The encoding of a value. -/
def bytes : {α : Type} → Denc α → α → Bytes
  | _, integer w, n => leBytes w n
  | _, array _ item, xs => xs.flatMap item.bytes
  | _, vector item, xs => leBytes 4 xs.length ++ xs.flatMap item.bytes
  | _, bufferList, nodes => leBytes 4 nodes.flatten.length ++ nodes.flatten
  | _, pair first second, (x, y) => first.bytes x ++ second.bytes y
  | _, fields get _ d, x => d.bytes (get x)
  | _, struct v compat body, x =>
      [v, compat] ++ leBytes 4 (body.bytes x).length ++ body.bytes x

/-- The values that the C++ type has. -/
def InRange : {α : Type} → Denc α → α → Prop
  | _, integer w, n => n < 256 ^ w
  | _, array n item, xs => xs.length = n ∧ ∀ x ∈ xs, item.InRange x
  | _, vector item, xs => ∀ x ∈ xs, item.InRange x
  | _, bufferList, nodes => nodes.flatten.length < 2 ^ 32
  | _, pair first second, (x, y) => first.InRange x ∧ second.InRange y
  | _, fields get _ d, x => d.InRange (get x)
  | _, struct _ _ body, x => body.InRange x

/-- The encodings of a value, where every struct may have extra bytes at its end. -/
def Spells : {α : Type} → Denc α → α → Bytes → Prop
  | _, integer w, n, bs => n < 256 ^ w ∧ bs = leBytes w n
  | _, array n item, xs, bs =>
      xs.length = n ∧ ∃ parts, List.Forall₂ item.Spells xs parts ∧ bs = parts.flatten
  | _, vector item, xs, bs =>
      xs.length < 2 ^ 32 ∧
        ∃ parts, List.Forall₂ item.Spells xs parts ∧ bs = leBytes 4 xs.length ++ parts.flatten
  | _, bufferList, nodes, bs =>
      nodes.flatten.length < 2 ^ 32 ∧ bs = leBytes 4 nodes.flatten.length ++ nodes.flatten
  | _, pair first second, (x, y), bs =>
      ∃ cs ds, first.Spells x cs ∧ second.Spells y ds ∧ bs = cs ++ ds
  | _, fields get _ d, x, bs => d.Spells (get x) bs
  | _, struct v compat body, x, bs =>
      ∃ cs extra, body.Spells x cs ∧ (cs ++ extra).length < 2 ^ 32 ∧
        bs = [v, compat] ++ leBytes 4 (cs ++ extra).length ++ (cs ++ extra)

/-- The value as it is decoded: a buffer list has one node, and a struct is made of its fields. -/
def norm : {α : Type} → Denc α → α → α
  | _, integer _, n => n
  | _, array _ item, xs => xs.map item.norm
  | _, vector item, xs => xs.map item.norm
  | _, bufferList, nodes => if nodes.flatten = [] then [] else [nodes.flatten]
  | _, pair first second, (x, y) => (first.norm x, second.norm y)
  | _, fields get set d, x => set (d.norm (get x))
  | _, struct _ _ body, x => body.norm x

/-- The items of vectors have bytes. -/
def Solid : {α : Type} → Denc α → Prop
  | _, integer _ => True
  | _, array _ item => item.Solid
  | _, vector item => item.Solid ∧ ∀ x, 0 < (item.bytes x).length
  | _, bufferList => True
  | _, pair first second => first.Solid ∧ second.Solid
  | _, fields _ _ d => d.Solid
  | _, struct _ _ body => body.Solid

theorem length_le_flatMap {α : Type} {f : α → Bytes} {xs : List α} {x : α} (hx : x ∈ xs) :
    (f x).length ≤ (xs.flatMap f).length := by
  obtain ⟨before, behind, rfl⟩ := List.append_of_mem hx
  rw [List.flatMap_append, List.flatMap_cons, List.length_append, List.length_append]
  omega

theorem count_le_flatMap {α : Type} {f : α → Bytes} (hf : ∀ x, 0 < (f x).length) (xs : List α) :
    xs.length ≤ (xs.flatMap f).length := by
  induction xs with
  | nil => exact le_rfl
  | cons x xs ih =>
      have hx := hf x
      rw [List.flatMap_cons, List.length_append, List.length_cons]
      omega

theorem forall₂_map {α : Type} {R : α → Bytes → Prop} {f : α → Bytes} {xs : List α}
    (h : ∀ x ∈ xs, R x (f x)) : List.Forall₂ R xs (xs.map f) := by
  induction xs with
  | nil => exact .nil
  | cons x xs ih =>
      exact .cons (h x List.mem_cons_self) (ih fun y hy => h y (List.mem_cons_of_mem x hy))

/-- An encoding whose length fits in 32 bits is one without extra bytes. -/
theorem spells_bytes {α : Type} {d : Denc α} (hd : d.Solid) {x : α} (hx : d.InRange x)
    (hlength : (d.bytes x).length < 2 ^ 32) : d.Spells x (d.bytes x) := by
  induction d with
  | integer w => exact ⟨hx, rfl⟩
  | array n item ih =>
      refine ⟨hx.1, x.map item.bytes, forall₂_map fun y hy => ih hd (hx.2 y hy) ?_,
        List.flatMap_def⟩
      exact (length_le_flatMap hy).trans_lt hlength
  | vector item ih =>
      simp only [bytes, List.length_append, leBytes_length] at hlength
      refine ⟨?_, x.map item.bytes, forall₂_map fun y hy => ih hd.1 (hx y hy) ?_, ?_⟩
      · have hcount := count_le_flatMap hd.2 x
        omega
      · have hle := length_le_flatMap (f := item.bytes) hy
        omega
      · rw [bytes, List.flatMap_def]
  | bufferList => exact ⟨hx, rfl⟩
  | pair first second ihFirst ihSecond =>
      obtain ⟨x, y⟩ := x
      simp only [bytes, List.length_append] at hlength
      exact ⟨_, _, ihFirst hd.1 hx.1 (by omega), ihSecond hd.2 hx.2 (by omega), rfl⟩
  | fields get set d ih => exact ih hd hx hlength
  | struct v compat body ih =>
      simp only [bytes, List.length_append] at hlength
      refine ⟨body.bytes x, [], ih hd hx (by omega), ?_, ?_⟩
      · rw [List.append_nil]
        omega
      · rw [List.append_nil]
        rfl

theorem foldl_add_length {α : Type} {f : α → Nat → Nat} {g : α → Bytes} (xs : List α)
    (h : ∀ x p, f x p = p + (g x).length) (p : Nat) :
    xs.foldl (fun p x => f x p) p = p + (xs.flatMap g).length := by
  induction xs generalizing p with
  | nil => rfl
  | cons x xs ih =>
      rw [List.foldl_cons, ih, h, List.flatMap_cons, List.length_append, Nat.add_assoc]

/-- The bound is the length of the encoding. -/
theorem boundEncode_eq {α : Type} (d : Denc α) (x : α) (p : Nat) :
    d.boundEncode x p = p + (d.bytes x).length := by
  induction d generalizing p with
  | integer w => simp [boundEncode, bytes]
  | array n item ih => exact foldl_add_length x ih p
  | vector item ih =>
      rw [boundEncode, foldl_add_length x ih, bytes, List.length_append, leBytes_length,
        Nat.add_assoc]
  | bufferList => simp [boundEncode, bytes]
  | pair first second ihFirst ihSecond =>
      obtain ⟨x, y⟩ := x
      rw [boundEncode, ihFirst, ihSecond, bytes, List.length_append, Nat.add_assoc]
  | fields get set d ih => exact ih (get x) p
  | struct v compat body ih =>
      rw [boundEncode, ih, bytes, List.length_append, List.length_append, leBytes_length]
      simp only [List.length_cons, List.length_nil]
      omega

end Denc

/-! ## The appender -/

theorem layout_append {cs : List Appended} {q : Bytes} (hq : Appended.ownLength cs ≤ q.length)
    (m : Bytes) : Appended.layout cs (q ++ m) = Appended.layout cs q ++ m := by
  induction cs generalizing q with
  | nil => rfl
  | cons c cs ih =>
      cases c with
      | own n =>
          simp only [Appended.ownLength] at hq
          have hdrop : Appended.ownLength cs ≤ (q.drop n).length := by
            rw [List.length_drop]
            omega
          simp only [Appended.layout]
          rw [List.take_append_of_le_length (by omega), List.drop_append_of_le_length (by omega),
            ih hdrop, List.append_assoc]
      | shared bs =>
          simp only [Appended.layout]
          rw [ih hq, List.append_assoc]

theorem layout_shared (nodes : List Bytes) :
    Appended.layout (nodes.map Appended.shared) [] = nodes.flatten := by
  induction nodes with
  | nil => rfl
  | cons bs nodes ih => simp only [List.map_cons, Appended.layout, List.flatten_cons, ih]

/-- Behind a flush, the nodes of another list lie behind all that is written. -/
theorem layout_flush (cs : List Appended) (q : Bytes) (nodes : List Bytes) :
    Appended.layout (cs ++ [.own (q.length - Appended.ownLength cs)] ++ nodes.map .shared) q =
      Appended.layout cs q ++ nodes.flatten := by
  induction cs generalizing q with
  | nil =>
      simp only [Appended.layout, Appended.ownLength, List.nil_append, List.cons_append, Nat.sub_zero,
        List.take_length, List.drop_length, layout_shared]
  | cons c cs ih =>
      cases c with
      | own n =>
          have hrest := ih (q.drop n)
          rw [List.length_drop, Nat.sub_sub] at hrest
          simp only [List.cons_append, Appended.layout, Appended.ownLength]
          rw [hrest, List.append_assoc]
      | shared bs =>
          simp only [List.cons_append, Appended.layout, Appended.ownLength]
          rw [ih q, List.append_assoc]

/-- `write` appends the bytes: some to the memory and the others as nodes of other lists. The bytes
of the list behave so whatever is stored later in what was written before. -/
def Appends (write : Appender → Appender) (bs : Bytes) : Prop :=
  ∀ p, ∃ m, (write p).mem = p.mem ++ m ∧
    p.outOfBandOffset ≤ (write p).outOfBandOffset ∧
    m.length + (write p).outOfBandOffset = p.outOfBandOffset + bs.length ∧
    ∀ q, q.length = p.mem.length →
      Appended.layout (write p).appended (q ++ m) = Appended.layout p.appended q ++ bs

namespace Appends

theorem id : Appends (fun p => p) [] := by
  intro p
  refine ⟨[], by simp, le_rfl, by simp, fun q _ => by simp⟩

theorem append (bs : Bytes) : Appends (fun p => p.append bs) bs := by
  intro p
  refine ⟨bs, rfl, le_rfl, Nat.add_comm _ _, fun q hq => ?_⟩
  exact layout_append (by rw [hq]; exact p.fits) bs

theorem comp {f g : Appender → Appender} {bs cs : Bytes} (hf : Appends f bs) (hg : Appends g cs) :
    Appends (fun p => g (f p)) (bs ++ cs) := by
  intro p
  obtain ⟨m, hmem, hle, hcount, hlayout⟩ := hf p
  obtain ⟨m', hmem', hle', hcount', hlayout'⟩ := hg (f p)
  refine ⟨m ++ m', ?_, hle.trans hle', ?_, fun q hq => ?_⟩
  · rw [hmem', hmem, List.append_assoc]
  · rw [List.length_append, List.length_append]
    show m.length + m'.length + (g (f p)).outOfBandOffset = _
    omega
  · have hqm : (q ++ m).length = (f p).mem.length := by
      rw [hmem, List.length_append, List.length_append, hq]
    rw [← List.append_assoc, hlayout' _ hqm, hlayout q hq, List.append_assoc]

theorem appendList (nodes : List Bytes) : Appends (fun p => p.appendList nodes) nodes.flatten := by
  intro p
  refine ⟨[], (List.append_nil _).symm, Nat.le_add_right _ _, ?_, fun q hq => ?_⟩
  · show 0 + (p.outOfBandOffset + nodes.flatten.length) = _
    rw [Nat.zero_add]
  · rw [List.append_nil]
    show Appended.layout (p.appended ++ [.own (p.mem.length - _)] ++ nodes.map .shared) q = _
    rw [← hq]
    exact layout_flush p.appended q nodes

theorem foldl {α : Type} {f : α → Appender → Appender} {g : α → Bytes} (xs : List α)
    (h : ∀ x, Appends (f x) (g x)) : Appends (fun p => xs.foldl (fun p x => f x p) p) (xs.flatMap g) := by
  induction xs with
  | nil => exact id
  | cons x xs ih => exact (h x).comp ih

theorem store_mem (p : Appender) (pos : Nat) (bs : Bytes) :
    (p.store pos bs).mem = p.mem.take pos ++ bs ++ p.mem.drop (pos + bs.length) := rfl

/-- The length that is stored behind the body is that of the body. -/
theorem struct {body : Appender → Appender} {bs : Bytes} (hbody : Appends body bs) (v compat : UInt8) :
    Appends (fun p =>
      let p := (p.append [v]).append [compat]
      let lenPos := p.getPos
      let startOobOff := p.outOfBandOffset
      let p := body (p.append (List.replicate 4 0))
      p.store lenPos (leBytes 4 (p.getPos - lenPos - 4 + p.outOfBandOffset - startOobOff)))
      ([v, compat] ++ leBytes 4 bs.length ++ bs) := by
  intro p
  obtain ⟨m, hmem, hle, hcount, hlayout⟩ :=
    hbody (((p.append [v]).append [compat]).append (List.replicate 4 0))
  have hheader : (((p.append [v]).append [compat]).append (List.replicate 4 0)).mem =
      p.mem ++ [v, compat] ++ List.replicate 4 0 := by
    simp [Appender.append]
  have hpos : ((p.append [v]).append [compat]).getPos = p.mem.length + 2 := by
    simp [Appender.append, Appender.getPos]
  rw [hheader] at hmem hlayout
  simp only
  generalize body (((p.append [v]).append [compat]).append (List.replicate 4 0)) = written at *
  change p.outOfBandOffset ≤ written.outOfBandOffset at hle
  change m.length + written.outOfBandOffset = p.outOfBandOffset + bs.length at hcount
  have hend : written.getPos = p.mem.length + 2 + 4 + m.length := by
    rw [Appender.getPos, hmem]
    simp only [List.length_append, List.length_cons, List.length_nil, List.length_replicate]
  have hstored : written.getPos - (p.mem.length + 2) - 4 + written.outOfBandOffset -
      p.outOfBandOffset = bs.length := by
    omega
  refine ⟨[v, compat] ++ leBytes 4 bs.length ++ m, ?_, hle, ?_, fun q hq => ?_⟩
  · have htake : (p.mem ++ [v, compat] ++ List.replicate 4 0 ++ m).take (p.mem.length + 2) =
        p.mem ++ [v, compat] := by
      rw [List.append_assoc, List.take_left' (by simp)]
    have hdrop : (p.mem ++ [v, compat] ++ List.replicate 4 0 ++ m).drop (p.mem.length + 2 + 4) =
        m := by
      rw [List.drop_left' (by simp)]
    rw [hpos]
    show (written.store _ (leBytes 4 (_ - _ - 4 + _ - p.outOfBandOffset))).mem = _
    rw [hstored, store_mem, leBytes_length, hmem, htake, hdrop]
    simp only [List.append_assoc]
  · show _ + written.outOfBandOffset = _
    simp only [List.length_append, List.length_cons, List.length_nil, leBytes_length]
    omega
  · have hsplit : q ++ ([v, compat] ++ leBytes 4 bs.length ++ m) =
        q ++ ([v, compat] ++ leBytes 4 bs.length) ++ m := by
      simp only [List.append_assoc]
    show Appended.layout written.appended _ = _
    rw [hsplit, hlayout (q ++ ([v, compat] ++ leBytes 4 bs.length)) (by simp [hq])]
    show Appended.layout p.appended (q ++ ([v, compat] ++ leBytes 4 bs.length)) ++ bs = _
    rw [layout_append (by rw [hq]; exact p.fits), List.append_assoc]

end Appends

namespace Denc

theorem encode_appends {α : Type} (d : Denc α) (x : α) : Appends (d.encode x) (d.bytes x) := by
  induction d with
  | integer w => exact .append _
  | array n item ih => exact .foldl x ih
  | vector item ih => exact (Appends.append _).comp (.foldl x ih)
  | bufferList => exact (Appends.append _).comp (.appendList x)
  | pair first second ihFirst ihSecond =>
      obtain ⟨x, y⟩ := x
      exact (ihFirst x).comp (ihSecond y)
  | fields get set d ih => exact ih (get x)
  | struct v compat body ih => exact (ih x).struct v compat

/-- An encoding whose length fits in 32 bits is what the list gets. -/
theorem encodeTo_eq {α : Type} (d : Denc α) (x : α) (hlength : (d.bytes x).length < 2 ^ 32)
    (dest : Bytes) (tail : Nat) : d.encodeTo x dest tail = some (dest ++ d.bytes x) := by
  obtain ⟨m, hmem, -, hcount, hlayout⟩ := d.encode_appends x {}
  have hbytes : (d.encode x {}).bytes = d.bytes x := by
    rw [Appender.bytes, hmem]
    exact hlayout [] rfl
  have hspace : (d.encode x {}).mem.length ≤ (d.bytes x).length := by
    rw [hmem]
    change m.length + _ = 0 + (d.bytes x).length at hcount
    show m.length ≤ _
    omega
  unfold encodeTo
  simp only
  rw [boundEncode_eq, Nat.zero_add, Nat.mod_eq_of_lt hlength, if_neg, hbytes]
  split <;> omega

end Denc

end Clab.Common
