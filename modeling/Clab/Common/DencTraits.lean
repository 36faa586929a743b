import Clab.Common.Denc

/-!
# The traits of DENC

What a type brings for its encoding: whether all of its values have the same bound, a
bound, and the encoder. A container whose items are `bounded` takes the bound of its
first item for every item. Text and headers are written into the space of the
appender, buffers stay where they are.
-/

namespace Clab.Common

/-- `denc_traits` of a type. A tuple is pairs of pairs. -/
inductive Traits : Type → Type 1 where
  | integer (w : Nat) : Traits Nat
  | string : Traits Bytes
  | ptr : Traits Bytes
  | list : Traits (List Bytes)
  | pair {α β : Type} (first : Traits α) (second : Traits β) : Traits (α × β)
  /-- `container_base`: a `std::list`, `vector`, `set` or `map`, and `small_vector`. -/
  | container {α : Type} (item : Traits α) : Traits (List α)
  /-- `std::array`. -/
  | array {α : Type} (n : Nat) (item : Traits α) : Traits (List.Vector α (n + 1))
  | optional {α : Type} (item : Traits α) : Traits (Option α)
  /-- A class of `WRITE_CLASS_DENC`, by its members. -/
  | members {α β : Type} (get : β → α) (t : Traits α) : Traits β
  /-- `DENC_START(v, compat, p)` to `DENC_FINISH(p)`. -/
  | struct {α : Type} (v compat : UInt8) (body : Traits α) : Traits α

namespace Traits

/-- `traits::bounded`. -/
def bounded : {α : Type} → Traits α → Bool
  | _, integer _ => true
  | _, string => false
  | _, ptr => false
  | _, list => false
  | _, pair first second => first.bounded && second.bounded
  | _, container _ => false
  | _, array _ item => item.bounded
  | _, optional _ => false
  | _, members _ _ => false
  | _, struct _ _ _ => false

/-- `length()` of a buffer. -/
def unsigned (n : Nat) : Nat := n % 2 ^ 32

/-- `bound_encode`. -/
def boundEncode : {α : Type} → Traits α → α → Nat → Nat
  | _, integer w, _, p => p + w
  | _, string, s, p => p + (4 + s.length)
  | _, ptr, v, p => p + (4 + unsigned v.length)
  | _, list, nodes, p => p + (4 + unsigned nodes.flatten.length)
  | _, pair first second, (x, y), p => second.boundEncode y (first.boundEncode x p)
  | _, container item, s, p =>
      if item.bounded then
        match s with
        | [] => p + 4
        | x :: _ => p + 4 + item.boundEncode x 0 * s.length
      else s.foldl (fun p e => item.boundEncode e p) (p + 4)
  | _, array n item, s, p =>
      if item.bounded then p + item.boundEncode s.head 0 * (n + 1)
      else s.toList.foldl (fun p e => item.boundEncode e p) p
  | _, optional item, v, p =>
      match v with
      | none => p + 1
      | some x => item.boundEncode x (p + 1)
  | _, members get t, x, p => t.boundEncode (get x) p
  | _, struct _ _ body, x, p => body.boundEncode x (p + (2 + 4))

/-- `encode` into an appender. -/
def encode : {α : Type} → Traits α → α → Appender → Appender
  | _, integer w, n, p => p.append (Codec.leBytes w n)
  | _, string, s, p => (p.append (Codec.leBytes 4 s.length)).append s
  | _, ptr, v, p =>
      let p := p.append (Codec.leBytes 4 (unsigned v.length))
      if v = [] then p else p.appendList [v]
  | _, list, nodes, p =>
      (p.append (Codec.leBytes 4 (unsigned nodes.flatten.length))).appendList nodes
  | _, pair first second, (x, y), p => second.encode y (first.encode x p)
  | _, container item, s, p =>
      s.foldl (fun p e => item.encode e p) (p.append (Codec.leBytes 4 s.length))
  | _, array _ item, s, p => s.toList.foldl (fun p e => item.encode e p) p
  | _, optional item, v, p =>
      match v with
      | none => p.append [0]
      | some x => item.encode x (p.append [1])
  | _, members get t, x, p => t.encode (get x) p
  | _, struct v compat body, x, p =>
      let p := (p.append [v]).append [compat]
      let lenPos := p.getPos
      let startOobOff := p.outOfBandOffset
      let p := body.encode x (p.append (List.replicate 4 0))
      p.store lenPos (Codec.leBytes 4 (p.getPos - lenPos - 4 + p.outOfBandOffset - startOobOff))

theorem empty_fits : Appended.ownLength [] ≤ ([] : Bytes).length := Nat.zero_le 0

/-- `encode(o, bl)` to a list whose last node has `tail` unused bytes: what is written into the
space that was reserved. `none` is a write behind it, or an empty list asked for no space:
`obtain_contiguous_space` takes the bound as an `unsigned`, and the appender does not check it. -/
def encodeInto {α : Type} (t : Traits α) (x : α) (tail : Nat) : Option Bytes :=
  let len := unsigned (t.boundEncode x 0)
  let space := if tail < len then len else tail
  let p := t.encode x { fits := empty_fits }
  if space < p.mem.length then none else some p.mem

/-! ## Sizes -/

/-- The bytes of a value that are written into the space. -/
def inBand : {α : Type} → Traits α → α → Nat
  | _, integer w, _ => w
  | _, string, s => 4 + s.length
  | _, ptr, _ => 4
  | _, list, _ => 4
  | _, pair first second, (x, y) => first.inBand x + second.inBand y
  | _, container item, s => 4 + (s.map item.inBand).sum
  | _, array _ item, s => (s.toList.map item.inBand).sum
  | _, optional item, v => 1 + (v.map item.inBand).getD 0
  | _, members get t, x => t.inBand (get x)
  | _, struct _ _ body, x => 2 + 4 + body.inBand x

/-- The lengths of its buffers, as a bound has them. -/
def outOfBand : {α : Type} → Traits α → α → Nat
  | _, integer _, _ => 0
  | _, string, _ => 0
  | _, ptr, v => unsigned v.length
  | _, list, nodes => unsigned nodes.flatten.length
  | _, pair first second, (x, y) => first.outOfBand x + second.outOfBand y
  | _, container item, s => (s.map item.outOfBand).sum
  | _, array _ item, s => (s.toList.map item.outOfBand).sum
  | _, optional item, v => (v.map item.outOfBand).getD 0
  | _, members get t, x => t.outOfBand (get x)
  | _, struct _ _ body, x => body.outOfBand x

theorem foldl_length {α : Type} {f : α → Appender → Appender} {g : α → Nat} (xs : List α)
    (h : ∀ x p, (f x p).mem.length = p.mem.length + g x) (p : Appender) :
    (xs.foldl (fun p x => f x p) p).mem.length = p.mem.length + (xs.map g).sum := by
  induction xs generalizing p with
  | nil => simp
  | cons x xs ih =>
      rw [List.foldl_cons, ih, h, List.map_cons, List.sum_cons, Nat.add_assoc]

theorem append_length (p : Appender) (bs : Bytes) :
    (p.append bs).mem.length = p.mem.length + bs.length := List.length_append

/-- What an encoder writes into the space. -/
theorem encode_length {α : Type} (t : Traits α) (x : α) (p : Appender) :
    (t.encode x p).mem.length = p.mem.length + t.inBand x := by
  induction t generalizing p with
  | integer w => rw [encode, append_length, Codec.leBytes_length, inBand]
  | string =>
      rw [encode, append_length, append_length, Codec.leBytes_length, inBand, Nat.add_assoc]
  | ptr =>
      have hlen : (p.append (Codec.leBytes 4 (unsigned (List.length x)))).mem.length
          = p.mem.length + 4 := by
        rw [append_length, Codec.leBytes_length]
      simp only [encode, inBand]
      split
      · exact hlen
      · exact hlen
  | list =>
      show (p.append _).mem.length = _
      rw [append_length, Codec.leBytes_length, inBand]
  | pair first second ihFirst ihSecond =>
      obtain ⟨x, y⟩ := x
      rw [encode, ihSecond, ihFirst, inBand, Nat.add_assoc]
  | container item ih =>
      rw [encode, foldl_length x ih, append_length, Codec.leBytes_length, inBand, Nat.add_assoc]
  | array n item ih => rw [encode, foldl_length x.toList ih, inBand]
  | optional item ih =>
      cases x with
      | none => simp [encode, inBand, append_length]
      | some x =>
          simp only [encode, inBand, Option.map_some, Option.getD_some]
          rw [ih, append_length, Nat.add_assoc, List.length_singleton]
  | members get t ih => exact ih (get x) p
  | struct v compat body ih =>
      have hbody := ih x (((p.append [v]).append [compat]).append (List.replicate 4 0))
      simp only [append_length, List.length_cons, List.length_nil, List.length_replicate] at hbody
      simp only [encode, inBand, Appender.store, List.length_append, List.length_take,
        List.length_drop, Codec.leBytes_length, Appender.getPos, append_length, List.length_cons,
        List.length_nil]
      omega

theorem foldl_bound {α : Type} {f : α → Nat → Nat} {g : α → Nat} (xs : List α)
    (h : ∀ x p, f x p = p + g x) (p : Nat) :
    xs.foldl (fun p x => f x p) p = p + (xs.map g).sum := by
  induction xs generalizing p with
  | nil => rfl
  | cons x xs ih => rw [List.foldl_cons, ih, h, List.map_cons, List.sum_cons, Nat.add_assoc]

theorem sum_size {α : Type} (t : Traits α) (xs : List α) :
    (xs.map t.inBand).sum + (xs.map t.outOfBand).sum
      = (xs.map fun x => t.inBand x + t.outOfBand x).sum := by
  induction xs with
  | nil => rfl
  | cons x xs ih =>
      simp only [List.map_cons, List.sum_cons]
      omega

theorem sum_const {α : Type} {f : α → Nat} {n : Nat} (hf : ∀ x, f x = n) (xs : List α) :
    (xs.map f).sum = n * xs.length := by
  induction xs with
  | nil => rfl
  | cons x xs ih =>
      rw [List.map_cons, List.sum_cons, ih, hf, List.length_cons, Nat.mul_add, Nat.mul_one,
        Nat.add_comm]

/-- The values of a bounded type all have one size. -/
theorem bounded_size {α : Type} {t : Traits α} (ht : t.bounded = true) :
    ∃ n, ∀ x, t.inBand x + t.outOfBand x = n := by
  induction t with
  | integer w => exact ⟨w, fun x => rfl⟩
  | pair first second ihFirst ihSecond =>
      obtain ⟨hfirst, hsecond⟩ := Bool.and_eq_true_iff.mp ht
      obtain ⟨m, hm⟩ := ihFirst hfirst
      obtain ⟨n, hn⟩ := ihSecond hsecond
      refine ⟨m + n, ?_⟩
      rintro ⟨x, y⟩
      have hx := hm x
      have hy := hn y
      simp only [inBand, outOfBand]
      omega
  | array k item ih =>
      obtain ⟨m, hm⟩ := ih ht
      refine ⟨m * (k + 1), fun x => ?_⟩
      rw [inBand, outOfBand, sum_size, sum_const hm, List.Vector.toList_length]
  | string | ptr | list | container | optional | members | struct =>
      exact absurd ht (by simp [bounded])

/-- The bound is the size of the value, its buffers included. -/
theorem boundEncode_eq {α : Type} (t : Traits α) (x : α) (p : Nat) :
    t.boundEncode x p = p + (t.inBand x + t.outOfBand x) := by
  induction t generalizing p with
  | integer w => rfl
  | string => rfl
  | ptr => simp only [boundEncode, inBand, outOfBand]
  | list => simp only [boundEncode, inBand, outOfBand]
  | pair first second ihFirst ihSecond =>
      obtain ⟨x, y⟩ := x
      rw [boundEncode, ihSecond, ihFirst]
      simp only [inBand, outOfBand]
      omega
  | container item ih =>
      have hsum := sum_size item x
      simp only [boundEncode, inBand, outOfBand]
      split
      case isTrue hbounded =>
        -- the size of the first item is that of every item
        obtain ⟨m, hm⟩ := bounded_size hbounded
        rw [sum_const hm] at hsum
        cases x with
        | nil =>
            simp only [List.map_nil, List.sum_nil]
            omega
        | cons y ys =>
            simp only
            rw [ih, Nat.zero_add, hm]
            omega
      case isFalse =>
        rw [foldl_bound x ih]
        omega
  | array k item ih =>
      have hsum := sum_size item x.toList
      simp only [boundEncode, inBand, outOfBand]
      split
      case isTrue hbounded =>
        obtain ⟨m, hm⟩ := bounded_size hbounded
        rw [sum_const hm, List.Vector.toList_length] at hsum
        rw [ih, Nat.zero_add, hm]
        omega
      case isFalse =>
        rw [foldl_bound x.toList ih]
        omega
  | optional item ih =>
      cases x with
      | none => simp [boundEncode, inBand, outOfBand]
      | some x =>
          simp only [boundEncode, inBand, outOfBand, Option.map_some, Option.getD_some]
          rw [ih]
          omega
  | members get t ih => exact ih (get x) p
  | struct v compat body ih =>
      rw [boundEncode, ih]
      simp only [inBand, outOfBand]
      omega

/-- A value is written within its space exactly where the part of it that is written is no longer
than the tail or than what an `unsigned` has of the bound. -/
theorem encodeInto_isSome_iff {α : Type} (t : Traits α) (x : α) (tail : Nat) :
    (t.encodeInto x tail).isSome ↔
      t.inBand x ≤ max tail (unsigned (t.inBand x + t.outOfBand x)) := by
  have hlength : (t.encode x {}).mem.length = t.inBand x := by
    rw [encode_length]
    exact Nat.zero_add _
  have hspace : ∀ len, (if tail < len then len else tail) = max tail len := by
    intro len
    split <;> omega
  unfold encodeInto
  simp only
  rw [boundEncode_eq, Nat.zero_add, hlength, hspace]
  by_cases hpast : max tail (unsigned (t.inBand x + t.outOfBand x)) < t.inBand x
  · rw [if_pos hpast]
    exact iff_of_false (by simp) (not_le.mpr hpast)
  · rw [if_neg hpast]
    exact iff_of_true rfl (not_lt.mp hpast)

end Traits

end Clab.Common
