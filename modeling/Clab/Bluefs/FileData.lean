import Clab.Lib.Segments
import Clab.Bluefs.SpaceRuns

/-!
# Where the bytes of a file are

A position of a file is a byte of a device, found through the extents. A write to
the extents of a file puts bytes at the positions it is meant for, and leaves
every other byte of every device; a read at random returns what is there.
-/

namespace Clab.Bluefs

open Blk Common Segments

/-! ## Positions -/

/-- The byte at position `off` of the extents: a device and an address. -/
def place (es : List Extent) (off : Nat) : Option (Nat × Nat) :=
  (locate Extent.length es off).map fun p => (p.1.bdev, p.1.offset + p.2)

theorem place_eq_some {es : List Extent} {off : Nat} {y : Nat × Nat} :
    place es off = some y ↔ ∃ e o, locate Extent.length es off = some (e, o) ∧
      y = (e.bdev, e.offset + o) := by
  unfold place
  rw [Option.map_eq_some_iff]
  constructor
  · rintro ⟨⟨e, o⟩, hloc, rfl⟩
    exact ⟨e, o, hloc, rfl⟩
  · rintro ⟨e, o, hloc, rfl⟩
    exact ⟨(e, o), hloc, rfl⟩

theorem place_cons_lt {e : Extent} {es : List Extent} {off : Nat} (h : off < e.length) :
    place (e :: es) off = some (e.bdev, e.offset + off) := by
  rw [place, locate_cons_lt h]
  rfl

theorem place_cons_add (e : Extent) (es : List Extent) (off : Nat) :
    place (e :: es) (e.length + off) = place es off := by
  rw [place, locate_cons_add]
  rfl

theorem place_drop (es : List Extent) (i off : Nat) :
    place (es.drop i) off = place es (total Extent.length (es.take i) + off) := by
  rw [place, locate_drop]
  rfl

theorem place_append {es : List Extent} (es' : List Extent) {off : Nat}
    (h : off < total Extent.length es) : place (es ++ es') off = place es off := by
  rw [place, locate_append es' h]
  rfl

theorem place_append_add (es es' : List Extent) (off : Nat) :
    place (es ++ es') (total Extent.length es + off) = place es' off := by
  rw [place, locate_append_add]
  rfl

theorem place_of_lt {es : List Extent} {off : Nat} (h : off < total Extent.length es) :
    ∃ y, place es off = some y := by
  obtain ⟨p, hp⟩ := locate_of_lt h
  exact ⟨_, by rw [place, hp]; rfl⟩

/-- A position of extent `n`. -/
theorem place_extent {es : List Extent} {n x : Nat} {e : Extent} (he : es[n]? = some e)
    (hx : x < e.length) :
    place es (total Extent.length (es.take n) + x) = some (e.bdev, e.offset + x) := by
  obtain ⟨hn, rfl⟩ := List.getElem?_eq_some_iff.mp he
  rw [← place_drop, List.drop_eq_getElem_cons hn, place_cons_lt hx]

/-- A position of the extents is a byte that they hold. -/
theorem covered_of_place {es : List Extent} {off : Nat} {y : Nat × Nat}
    (h : place es off = some y) : 0 < covered es y := by
  obtain ⟨e, o, hloc, rfl⟩ := place_eq_some.mp h
  obtain ⟨hmem, ho, -⟩ := locate_spec hloc
  refine List.countP_pos_iff.mpr ⟨e, hmem, ?_⟩
  simp [Extent.has, ho]

/-- Extents that overlap nowhere have one position for each byte. -/
theorem place_inj {es : List Extent} (hone : ∀ y, covered es y ≤ 1) {i j : Nat} {y : Nat × Nat}
    (hi : place es i = some y) (hj : place es j = some y) : i = j := by
  induction es generalizing i j with
  | nil => simp [place] at hi
  | cons e es ih =>
      have hsum := hone y
      rw [covered_cons] at hsum
      have hfirst : ∀ k, k < e.length → place (e :: es) k = some y → 0 < covered [e] y := by
        intro k hk hplace
        rw [place_cons_lt hk] at hplace
        rw [← Option.some.inj hplace, covered_one, if_pos ⟨rfl, by simp, by simpa using hk⟩]
        exact Nat.one_pos
      have hrest : ∀ k, e.length ≤ k → place (e :: es) k = some y →
          place es (k - e.length) = some y := by
        intro k hk hplace
        rw [← Nat.add_sub_cancel' hk, place_cons_add] at hplace
        exact hplace
      have hone' : ∀ y, covered es y ≤ 1 := fun y => by
        have hy := hone y
        rw [covered_cons] at hy
        omega
      rcases Nat.lt_or_ge i e.length with hie | hie <;> rcases Nat.lt_or_ge j e.length with hje | hje
      · rw [place_cons_lt hie] at hi
        rw [place_cons_lt hje, ← hi] at hj
        have heq := (Prod.mk.inj (Option.some.inj hj)).2
        omega
      · have hpos := covered_of_place (hrest j hje hj)
        have := hfirst i hie hi
        omega
      · have hpos := covered_of_place (hrest i hie hi)
        have := hfirst j hje hj
        omega
      · have := ih hone' (hrest i hie hi) (hrest j hje hj)
        omega

theorem covered_drop_le (es : List Extent) (i : Nat) (y : Nat × Nat) :
    covered (es.drop i) y ≤ covered es y :=
  (List.drop_sublist i es).countP_le

/-- The bytes of extents on a device. -/
def bytesOn (id : Nat) (es : List Extent) : Nat :=
  total Extent.length (es.filter fun e => e.bdev = id)

theorem bytesOn_cons (id : Nat) (e : Extent) (es : List Extent) :
    bytesOn id (e :: es) = (if e.bdev = id then e.length else 0) + bytesOn id es := by
  unfold bytesOn
  rw [List.filter_cons]
  split
  case isTrue hid => rw [total_cons, if_pos (by simpa using hid)]
  case isFalse hid => rw [if_neg (by simpa using hid), Nat.zero_add]

/-! ## Fnodes -/

namespace Fnode

/-- The index of the extents is their starts, and `allocated` their length. -/
structure Indexed (f : Fnode) : Prop where
  index : f.extentsIndex = starts Extent.length 0 f.extents
  allocated : f.allocated = total Extent.length f.extents

theorem Indexed.appendExtent {f : Fnode} (h : f.Indexed) (e : Extent) :
    (f.appendExtent e).Indexed := by
  have happend : Indexed { f with
      extentsIndex := f.extentsIndex ++ [f.allocated]
      extents := f.extents ++ [e]
      allocated := f.allocated + e.length } := by
    constructor
    · show f.extentsIndex ++ [f.allocated] = starts Extent.length 0 (f.extents ++ [e])
      rw [starts_append, h.index, h.allocated, Nat.zero_add]
      rfl
    · show f.allocated + e.length = total Extent.length (f.extents ++ [e])
      rw [h.allocated]
      simp
  unfold Fnode.appendExtent
  cases hlast : f.extents.getLast? with
  | none => exact happend
  | some last =>
      simp only
      split
      · have hinit : f.extents = f.extents.dropLast ++ [last] :=
          (List.dropLast_append_getLast? last hlast).symm
        constructor
        · show f.extentsIndex = starts Extent.length 0 (f.extents.dropLast ++ [_])
          rw [h.index, starts_append]
          conv_lhs => rw [hinit, starts_append]
          rfl
        · show f.allocated + e.length = total Extent.length (f.extents.dropLast ++ [_])
          rw [h.allocated]
          conv_lhs => rw [hinit]
          simp
          omega
      · exact happend

theorem Indexed.claimExtents {f : Fnode} (h : f.Indexed) (es : List Extent) :
    (f.claimExtents es).Indexed := by
  unfold Fnode.claimExtents
  induction es generalizing f with
  | nil => exact h
  | cons e es ih => exact ih (h.appendExtent e)

theorem total_appendExtent (f : Fnode) (e : Extent) :
    total Extent.length (f.appendExtent e).extents = total Extent.length f.extents + e.length := by
  unfold appendExtent
  cases hlast : f.extents.getLast? with
  | none => simp
  | some last =>
      have hinit : f.extents = f.extents.dropLast ++ [last] :=
        (List.dropLast_append_getLast? last hlast).symm
      simp only
      split
      · conv_rhs => rw [hinit]
        simp
        omega
      · simp

theorem total_claimExtents (f : Fnode) (es : List Extent) :
    total Extent.length (f.claimExtents es).extents =
      total Extent.length f.extents + total Extent.length es := by
  unfold claimExtents
  induction es generalizing f with
  | nil => rfl
  | cons e es ih => rw [List.foldl_cons, ih, total_appendExtent, total_cons, Nat.add_assoc]

/-- A new extent is at the end, merged with the last one or not. -/
theorem place_appendExtent (f : Fnode) (e : Extent) (off : Nat) :
    place (f.appendExtent e).extents off = place (f.extents ++ [e]) off := by
  unfold appendExtent
  cases hlast : f.extents.getLast? with
  | none => rfl
  | some last =>
      simp only
      split
      case isFalse => rfl
      case isTrue hmerges =>
        obtain ⟨hoffset, hbdev, -⟩ := of_decide_eq_true hmerges
        rw [Extent.stop] at hoffset
        have hinit : f.extents = f.extents.dropLast ++ [last] :=
          (List.dropLast_append_getLast? last hlast).symm
        generalize f.extents.dropLast = init at *
        rw [hinit, List.append_assoc]
        rcases Nat.lt_or_ge off (total Extent.length init) with hoff | hoff
        · rw [place_append _ hoff, place_append _ hoff]
        · -- a position of the two extents that are one now
          obtain ⟨k, rfl⟩ := Nat.exists_eq_add_of_le hoff
          rw [place_append_add, place_append_add]
          show place [({ last with length := last.length + e.length } : Extent)] k = place [last, e] k
          rcases Nat.lt_or_ge k last.length with hk | hk
          · rw [place_cons_lt hk, place_cons_lt (Nat.lt_add_right _ hk)]
          · obtain ⟨m, rfl⟩ := Nat.exists_eq_add_of_le hk
            rw [place_cons_add]
            rcases Nat.lt_or_ge m e.length with hm | hm
            · rw [place_cons_lt hm, place_cons_lt (Nat.add_lt_add_left hm _), ← hoffset, ← hbdev,
                Nat.add_assoc]
            · obtain ⟨n, rfl⟩ := Nat.exists_eq_add_of_le hm
              rw [place_cons_add, ← Nat.add_assoc]
              exact place_cons_add ({ last with length := last.length + e.length } : Extent) [] n

theorem place_claimExtents (f : Fnode) (es : List Extent) (off : Nat) :
    place (f.claimExtents es).extents off = place (f.extents ++ es) off := by
  unfold claimExtents
  induction es generalizing f off with
  | nil => rw [List.foldl_nil, List.append_nil]
  | cons e es ih =>
      have htotal : total Extent.length (f.appendExtent e).extents =
          total Extent.length (f.extents ++ [e]) := by
        rw [total_appendExtent]
        simp
      rw [List.foldl_cons, ih, List.append_cons]
      rcases Nat.lt_or_ge off (total Extent.length (f.extents ++ [e])) with hoff | hoff
      · rw [place_append es hoff, place_append es (by rw [htotal]; exact hoff), place_appendExtent]
      · obtain ⟨k, rfl⟩ := Nat.exists_eq_add_of_le hoff
        rw [place_append_add]
        rw [← htotal, place_append_add]

/-- `seek` finds the extent of a position that is allocated. -/
theorem Indexed.seek {f : Fnode} (h : f.Indexed) {off : Nat} (hoff : off < f.allocated) :
    ∃ n x e, f.seek off = some (n, x) ∧ f.extents[n]? = some e ∧ x < e.length ∧
      total Extent.length (f.extents.take n) + x = off := by
  have htotal := h.allocated
  obtain ⟨n, hlength, hn, hle, hlt⟩ := search_starts (Nat.zero_le off)
    (show off < 0 + total Extent.length f.extents by omega)
  have hstart : (starts Extent.length 0 f.extents).getD n 0 =
      0 + total Extent.length (f.extents.take n) := starts_getD 0 hn
  refine ⟨n, off - (starts Extent.length 0 f.extents).getD n 0, f.extents[n], ?_,
    List.getElem?_eq_getElem hn, hlt _ (List.getElem?_eq_getElem hn), by omega⟩
  have hne : f.extents ≠ [] := by
    intro hnil
    rw [hnil] at hn
    exact absurd hn (Nat.not_lt_zero _)
  unfold Fnode.seek
  rw [if_neg (by rintro (hnil | hge); exacts [hne hnil, by omega]), h.index, hlength]

end Fnode

/-! ## Bytes -/

variable {V A : Type}

/-- Byte `y.2` of device `y.1`, as a read returns it. -/
def BlueFS.byte (s : BlueFS V A) (y : Nat × Nat) : Option UInt8 :=
  (s.bdev y.1).map fun d => d.volatile y.2

/-- A write that succeeds puts its bytes on the device. -/
theorem write_volatile {d : KernelDevice} {off : Nat} {bl : Bytes} {buffered : Bool}
    (h : 0 ≤ (d.write off bl buffered).1) :
    (d.write off bl buffered).2.volatile = d.volatile.write off bl := by
  unfold KernelDevice.write at h ⊢
  split
  case isTrue hinvalid => rw [if_pos hinvalid] at h; exact absurd h (show ¬ (0 : Int) ≤ -einval by decide)
  case isFalse hvalid =>
    rw [if_neg hvalid] at h
    cases hfault : d.fault with
    | none => rfl
    | some n => rw [hfault] at h; exact absurd h (show ¬ (0 : Int) ≤ -eio by decide)

/-- A write leaves the bytes around it, whatever its outcome. -/
theorem write_around (d : KernelDevice) {off : Nat} (bl : Bytes) (buffered : Bool) {a : Nat}
    (h : a < off ∨ off + bl.length ≤ a) :
    (d.write off bl buffered).2.volatile a = d.volatile a := by
  have hcontent : ∀ bs : Bytes, bs.length ≤ bl.length → d.volatile.write off bs a = d.volatile a := by
    intro bs hbs
    rcases h with h | h
    · exact d.volatile.write_of_lt bs h
    · exact d.volatile.write_of_ge bs (by omega)
  unfold KernelDevice.write
  split
  · rfl
  · cases d.fault with
    | none => exact hcontent bl le_rfl
    | some n => exact hcontent _ (by simp)

/-- A device after a call. -/
def BlueFS.setDevice (s : BlueFS V A) (id : Nat) (d : KernelDevice) : BlueFS V A :=
  { s with bdev := Function.update s.bdev id (some d) }

section Writes

variable {s : BlueFS V A}

/-- One write of the loop, as it changes the bytes. -/
theorem byte_write {e : Extent} {d : KernelDevice} (hd : s.bdev e.bdev = some d) (x : Nat)
    (bl : Bytes) (buffered : Bool) :
    (∀ y, (∀ j < bl.length, y ≠ (e.bdev, e.offset + (x + j))) →
      (s.setDevice e.bdev (d.write (e.offset + x) bl buffered).2).byte y = s.byte y) ∧
    (0 ≤ (d.write (e.offset + x) bl buffered).1 → ∀ j < bl.length,
      (s.setDevice e.bdev (d.write (e.offset + x) bl buffered).2).byte
        (e.bdev, e.offset + (x + j)) = bl[j]?) := by
  refine ⟨fun y hy => ?_, fun hr j hj => ?_⟩
  · obtain ⟨b, a⟩ := y
    unfold BlueFS.byte BlueFS.setDevice
    simp only
    by_cases hb : b = e.bdev
    · subst hb
      rw [Function.update_self, hd, Option.map_some, Option.map_some, write_around]
      -- the address is none of those written
      by_contra hin
      have hj := hy (a - (e.offset + x)) (by omega)
      exact hj (Prod.ext rfl (by simp only; omega))
    · rw [Function.update_of_ne hb]
  · unfold BlueFS.byte BlueFS.setDevice
    simp only [Function.update_self, Option.map_some]
    rw [write_volatile hr, Content.write, if_pos ⟨by omega, by omega⟩]
    have hsub : e.offset + (x + j) - (e.offset + x) = j := by omega
    rw [hsub, List.getD_eq_getElem _ _ hj, List.getElem?_eq_getElem hj]

/-- The write loop changes no byte outside the extents. -/
theorem writeExtents_outside (s : BlueFS V A) (h : FileWriter) (buffered : Bool)
    (es : List Extent) (x : Nat) (bl : Bytes) {y : Nat × Nat} (hy : covered es y = 0) :
    (s.writeExtents h buffered es x bl).2.2.byte y = s.byte y := by
  induction es generalizing s h x bl with
  | nil => rfl
  | cons e es ih =>
      rw [covered_cons] at hy
      have hcov : covered [e] y = 0 := by omega
      unfold BlueFS.writeExtents
      split
      · rfl
      · cases hd : s.bdev e.bdev with
        | none => rfl
        | some d =>
            have hwrite := (byte_write hd x (bl.take (min (e.length - x) bl.length)) buffered).1 y
              fun j hj heq => by
                rw [covered_one, heq] at hcov
                rw [List.length_take] at hj
                rw [if_pos ⟨rfl, by simp, by simp only; omega⟩] at hcov
                exact absurd hcov (by simp)
            simp only
            split
            · exact hwrite
            · exact (ih _ _ _ _ (by omega)).trans hwrite

/-- The write loop changes the bytes it is meant for. -/
theorem writeExtents_elsewhere (s : BlueFS V A) (h : FileWriter) (buffered : Bool)
    {es : List Extent} {x : Nat} (bl : Bytes) (hx : ∀ e ∈ es.head?, x ≤ e.length) {y : Nat × Nat}
    (hy : ∀ j < bl.length, place es (x + j) ≠ some y) :
    (s.writeExtents h buffered es x bl).2.2.byte y = s.byte y := by
  induction es generalizing s h x bl with
  | nil => rfl
  | cons e es ih =>
      have hx : x ≤ e.length := hx e rfl
      unfold BlueFS.writeExtents
      split
      · rfl
      · cases hd : s.bdev e.bdev with
        | none => rfl
        | some d =>
            have hwrite := (byte_write hd x (bl.take (min (e.length - x) bl.length)) buffered).1 y
              fun j hj heq => by
                rw [List.length_take] at hj
                exact hy j (by omega) (by rw [place_cons_lt (by omega), heq])
            simp only
            split
            · exact hwrite
            · refine (ih _ _ _ (fun _ _ => Nat.zero_le _) fun j hj hplace => ?_).trans hwrite
              -- what is left goes on behind the extent
              rw [List.length_drop] at hj
              have hlen : min (e.length - x) bl.length = e.length - x := by omega
              refine hy (e.length - x + j) (by omega) ?_
              rw [Nat.zero_add] at hplace
              rw [show x + (e.length - x + j) = e.length + j by omega, place_cons_add]
              exact hplace

/-- When the loop succeeds, the bytes are where they belong, as far as the extents reach. -/
theorem writeExtents_written (s : BlueFS V A) (h : FileWriter) (buffered : Bool)
    {es : List Extent} {x : Nat} (bl : Bytes) (hone : ∀ y, covered es y ≤ 1)
    (hx : ∀ e ∈ es.head?, x ≤ e.length) (hr : 0 ≤ (s.writeExtents h buffered es x bl).1)
    {j : Nat} (hj : j < bl.length) {y : Nat × Nat} (hy : place es (x + j) = some y) :
    (s.writeExtents h buffered es x bl).2.2.byte y = bl[j]? := by
  induction es generalizing s h x bl j with
  | nil => simp [place] at hy
  | cons e es ih =>
      have hx : x ≤ e.length := hx e rfl
      have hone' : ∀ y, covered es y ≤ 1 := fun y => by
        have hle := hone y
        rw [covered_cons] at hle
        omega
      unfold BlueFS.writeExtents at hr ⊢
      split
      case isTrue hnil => rw [hnil] at hj; exact absurd hj (Nat.not_lt_zero _)
      case isFalse hne =>
        rw [if_neg hne] at hr
        cases hd : s.bdev e.bdev with
        | none => rw [hd] at hr; exact absurd hr (show ¬ (0 : Int) ≤ -enoent by decide)
        | some d =>
            rw [hd] at hr
            have hwrite := (byte_write hd x (bl.take (min (e.length - x) bl.length)) buffered).2
            simp only at hr ⊢
            split
            case isTrue hneg => rw [if_pos hneg] at hr; exact absurd hr (not_le.mpr hneg)
            case isFalse hpos =>
              rw [if_neg hpos] at hr
              by_cases hin : j < min (e.length - x) bl.length
              · -- a byte of this extent, which the rest of the loop leaves
                rw [place_cons_lt (by omega)] at hy
                have hy := Option.some.inj hy
                have hrest : covered es y = 0 := by
                  have hle := hone y
                  rw [covered_cons, covered_one, ← hy,
                    if_pos ⟨rfl, by simp, by simp only; omega⟩] at hle
                  rw [← hy]
                  omega
                have hput := hwrite (not_lt.mp hpos) j (by rw [List.length_take]; omega)
                rw [List.getElem?_take, if_pos hin, hy] at hput
                exact (writeExtents_outside _ _ _ _ _ _ hrest).trans hput
              · have hlen : min (e.length - x) bl.length = e.length - x := by omega
                rw [hlen] at hr ⊢
                obtain ⟨k, rfl⟩ := Nat.exists_eq_add_of_le (show e.length - x ≤ j by omega)
                rw [show x + (e.length - x + k) = e.length + k by omega, place_cons_add] at hy
                have hk : k < (bl.drop (e.length - x)).length := by
                  rw [List.length_drop]
                  omega
                rw [← Nat.zero_add k] at hy
                rw [ih _ _ _ hone' (fun _ _ => Nat.zero_le _) hr hk hy, List.getElem?_drop]

end Writes

/-! ## The data of a file -/

/-- The file holds `data`: its extents reach as far, and their bytes are those. -/
structure Stored (s : BlueFS V A) (r : FileRef) (data : Bytes) : Prop where
  indexed : (s.nodes.files r).fnode.Indexed
  size : (s.nodes.files r).fnode.size = data.length
  room : data.length ≤ (s.nodes.files r).fnode.allocated
  bytes : ∀ i y, i < data.length → place (s.nodes.files r).fnode.extents i = some y →
    s.byte y = data[i]?

/-- The extents of the file reach over `data`, and their bytes are those; the file may be
longer. -/
structure Laid (s : BlueFS V A) (r : FileRef) (data : Bytes) : Prop where
  indexed : (s.nodes.files r).fnode.Indexed
  room : data.length ≤ (s.nodes.files r).fnode.allocated
  bytes : ∀ i y, i < data.length → place (s.nodes.files r).fnode.extents i = some y →
    s.byte y = data[i]?

theorem Stored.laid {s : BlueFS V A} {r : FileRef} {data : Bytes} (h : Stored s r data) :
    Laid s r data := ⟨h.indexed, h.room, h.bytes⟩

theorem Laid.stored {s : BlueFS V A} {r : FileRef} {data : Bytes} (h : Laid s r data)
    (hsize : (s.nodes.files r).fnode.size = data.length) : Stored s r data :=
  ⟨h.indexed, hsize, h.room, h.bytes⟩

/-- The bytes of a file, where its extents have them. -/
def BlueFS.content (s : BlueFS V A) (r : FileRef) : List (Option UInt8) :=
  (List.range (s.nodes.files r).fnode.size).map fun i =>
    (place (s.nodes.files r).fnode.extents i).bind s.byte

theorem BlueFS.content_length (s : BlueFS V A) (r : FileRef) :
    (s.content r).length = (s.nodes.files r).fnode.size := by
  rw [content, List.length_map, List.length_range]

/-- The content of a file that holds its data is that data. -/
theorem Stored.content {s : BlueFS V A} {r : FileRef} {data : Bytes} (h : Stored s r data) :
    s.content r = data.map some := by
  refine List.ext_getElem ?_ fun i hi hi' => ?_
  · rw [s.content_length, h.size, List.length_map]
  · rw [s.content_length, h.size] at hi
    obtain ⟨y, hy⟩ := place_of_lt (show i < total Extent.length (s.nodes.files r).fnode.extents by
      rw [← h.indexed.allocated]
      exact lt_of_lt_of_le hi h.room)
    have hbyte := h.bytes i y hi hy
    simp only [BlueFS.content, List.getElem_map, List.getElem_range]
    rw [hy, Option.bind_some, hbyte, List.getElem?_eq_getElem hi]

/-- The coming calls of the devices all succeed. -/
def NoFaults (s : BlueFS V A) : Prop :=
  ∀ id d, s.bdev id = some d → ∀ f ∈ d.faults, f = none

/-- A call of a device that changed no byte. -/
theorem Stored.spend {s : BlueFS V A} {r : FileRef} {data : Bytes} (h : Stored s r data) {id : Nat}
    {d : KernelDevice} (hd : s.bdev id = some d) : Stored (s.setDevice id d.spend) r data := by
  refine ⟨h.indexed, h.size, h.room, fun i y hi hy => ?_⟩
  rw [← h.bytes i y hi hy]
  unfold BlueFS.byte BlueFS.setDevice
  simp only
  by_cases hid : y.1 = id
  · rw [hid, Function.update_self, hd]
    rfl
  · rw [Function.update_of_ne hid]

theorem NoFaults.of_spend {s : BlueFS V A} (h : NoFaults s) {id : Nat} {d : KernelDevice}
    (hd : s.bdev id = some d) : NoFaults (s.setDevice id d.spend) := by
  intro id' d' hd' f hf
  unfold BlueFS.setDevice at hd'
  simp only at hd'
  by_cases hid : id' = id
  · rw [hid, Function.update_self] at hd'
    rw [← Option.some.inj hd'] at hf
    exact h id d hd f (List.mem_of_mem_tail hf)
  · rw [Function.update_of_ne hid] at hd'
    exact h id' d' hd' f hf

/-- The extent of a position, and the bytes of the file in it from there on. -/
theorem Stored.segment {s : BlueFS V A} {r : FileRef} {data : Bytes} (h : Stored s r data)
    {off : Nat} (hoff : off < data.length) :
    ∃ n x e d, (s.nodes.files r).fnode.seek off = some (n, x) ∧
      (s.nodes.files r).fnode.extents[n]? = some e ∧ x < e.length ∧ s.bdev e.bdev = some d ∧
      ∀ l, l ≤ e.length - x → off + l ≤ data.length →
        d.volatile.read (e.offset + x) l = (data.drop off).take l := by
  obtain ⟨n, x, e, hseek, he, hx, hflat⟩ := h.indexed.seek (lt_of_lt_of_le hoff h.room)
  have hplace : ∀ k, x + k < e.length →
      place (s.nodes.files r).fnode.extents (off + k) = some (e.bdev, e.offset + (x + k)) := by
    intro k hk
    rw [← hflat, Nat.add_assoc, place_extent he hk]
  have hbyte := h.bytes off _ hoff (hplace 0 hx)
  cases hd : s.bdev e.bdev with
  | none =>
      rw [BlueFS.byte, hd, List.getElem?_eq_getElem hoff] at hbyte
      exact absurd hbyte (by simp)
  | some d =>
      refine ⟨n, x, e, d, hseek, he, hx, hd, fun l hl hlen => ?_⟩
      refine List.ext_getElem? fun k => ?_
      by_cases hk : k < l
      · have hat := h.bytes (off + k) _ (by omega) (hplace k (by omega))
        rw [BlueFS.byte, hd, Option.map_some] at hat
        rw [List.getElem?_take, if_pos hk, List.getElem?_drop, ← hat, Content.read,
          List.getElem?_map, List.getElem?_range hk, Option.map_some, Nat.add_assoc]
      · rw [List.getElem?_eq_none (by rw [Content.read_length]; omega),
          List.getElem?_eq_none (by rw [List.length_take]; omega)]

/-- A read within the file ends, and returns its data unless a device fails. -/
theorem readRandomLoop_stored {s : BlueFS V A} {r : FileRef} {data : Bytes} (h : Stored s r data)
    {fuel off len : Nat} (hlen : off + len ≤ data.length) (hfuel : len ≤ fuel) :
    ∃ ret out s', s.readRandomLoop r fuel off len = some (ret, out, s') ∧
      (ret = len ∧ out = (data.drop off).take len ∨ ret < 0 ∧ ¬ NoFaults s) := by
  induction fuel generalizing s off len with
  | zero =>
      obtain rfl : len = 0 := by omega
      exact ⟨0, [], s, rfl, .inl ⟨rfl, rfl⟩⟩
  | succ fuel ih =>
      unfold BlueFS.readRandomLoop
      by_cases hzero : len = 0
      · rw [if_pos hzero]
        exact ⟨0, [], s, rfl, .inl ⟨by rw [hzero]; rfl, by rw [hzero]; rfl⟩⟩
      obtain ⟨n, x, e, d, hseek, he, hx, hd, hread⟩ := h.segment (show off < data.length by omega)
      rw [if_neg hzero, hseek]
      simp only [he, hd]
      generalize hl : min (min (e.length - x) len) (2 ^ 30) = l
      have hpos : l ≠ 0 := by omega
      unfold KernelDevice.readRandom
      rw [if_neg hpos]
      cases hfault : d.fault with
      | some k =>
          refine ⟨-eio, [], _, rfl, .inr ⟨by decide, fun hno => ?_⟩⟩
          have hhead : some k ∈ d.faults := by
            unfold KernelDevice.fault at hfault
            cases hfaults : d.faults with
            | nil => rw [hfaults] at hfault; exact absurd hfault (by simp)
            | cons f fs =>
                rw [hfaults, List.headD_cons] at hfault
                rw [hfault]
                exact List.mem_cons_self
          exact absurd (hno _ d hd _ hhead) (by simp)
      | none =>
          obtain ⟨ret, out, s', hloop, hout⟩ := ih (h.spend hd)
            (show off + l + (len - l) ≤ data.length by omega) (by omega)
          simp only
          rw [if_neg (not_lt.mpr (Int.natCast_nonneg l))]
          refine ⟨_, _, s', by rw [show ({ s with bdev := _ } : BlueFS V A) =
            s.setDevice e.bdev d.spend from rfl, hloop]; rfl, ?_⟩
          rcases hout with ⟨rfl, rfl⟩ | ⟨hneg, hfaults⟩
          · refine .inl ⟨?_, ?_⟩
            · rw [if_neg (not_lt.mpr (Int.natCast_nonneg _))]
              omega
            · rw [hread l (by omega) (by omega), ← List.drop_drop, ← List.take_add]
              congr 1
              omega
          · exact .inr ⟨by rw [if_pos hneg]; exact hneg, fun hno => hfaults (hno.of_spend hd)⟩

/-- `read_random` over the whole file returns its data. -/
theorem readRandom_stored {s : BlueFS V A} {r : FileRef} {data : Bytes} (h : Stored s r data)
    {len : Nat} (hlen : data.length ≤ len) :
    ∃ ret out s', s.readRandom r false 0 len = some (ret, out, s') ∧
      (ret = data.length ∧ out = data ∨ ret < 0 ∧ ¬ NoFaults s) := by
  have hclip : (if !false ∧ (s.nodes.files r).fnode.size < 0 + len
      then (s.nodes.files r).fnode.size - 0 else len) = data.length := by
    rw [h.size]
    split
    case isTrue => exact Nat.sub_zero _
    case isFalse hge => simp at hge; omega
  obtain ⟨ret, out, s', hloop, hout⟩ := readRandomLoop_stored h
    (show 0 + data.length ≤ data.length by omega) (le_refl data.length)
  refine ⟨ret, out, s', ?_, ?_⟩
  · unfold BlueFS.readRandom
    simp only [hclip]
    exact hloop
  · rwa [List.drop_zero, List.take_length] at hout

end Clab.Bluefs
