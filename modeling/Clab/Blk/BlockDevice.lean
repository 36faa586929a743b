import Mathlib

/-!
# Block devices

A synchronous view of `KernelDevice`: a byte array with direct and buffered
reads and writes. `faults` decides the outcome of the coming calls, so that the
error paths of the callers are executable; `trace` records the writes that
reached the medium, of which a crash keeps a part.
-/

namespace Clab.Blk

def eio : Int := 5
def einval : Int := 22
def enoent : Int := 2
def enospc : Int := 28

/-- The bytes of a medium. -/
abbrev Content := Nat → UInt8

/-- `bs` written at `off`. -/
def Content.write (c : Content) (off : Nat) (bs : List UInt8) : Content := fun a =>
  if off ≤ a ∧ a < off + bs.length then bs.getD (a - off) 0 else c a

/-- The `len` bytes from `off` on. -/
def Content.read (c : Content) (off len : Nat) : List UInt8 :=
  (List.range len).map fun i => c (off + i)

@[simp] theorem Content.read_length (c : Content) (off len : Nat) :
    (c.read off len).length = len := by
  simp [read]

theorem Content.read_congr {c c' : Content} {off len : Nat}
    (h : ∀ a, off ≤ a → a < off + len → c a = c' a) : c.read off len = c'.read off len := by
  unfold read
  refine List.map_congr_left fun i hi => h _ (by omega) ?_
  have := List.mem_range.mp hi
  omega

theorem Content.read_append (c : Content) (off m n : Nat) :
    c.read off (m + n) = c.read off m ++ c.read (off + m) n := by
  unfold read
  rw [List.range_add, List.map_append, List.map_map]
  congr 1
  exact List.map_congr_left fun i _ => by simp [Nat.add_assoc]

theorem Content.write_of_lt (c : Content) {off a : Nat} (bs : List UInt8) (h : a < off) :
    c.write off bs a = c a :=
  if_neg fun hr => by omega

theorem Content.write_of_ge (c : Content) {off a : Nat} (bs : List UInt8)
    (h : off + bs.length ≤ a) : c.write off bs a = c a :=
  if_neg fun hr => by omega

theorem Content.read_write_same (c : Content) (off : Nat) (bs : List UInt8) :
    (c.write off bs).read off bs.length = bs := by
  refine List.ext_getElem (by simp) fun i hi hi' => ?_
  have hlt : i < bs.length := by simpa using hi
  simp [read, write, hlt]

theorem Content.read_write_before (c : Content) {off off' len : Nat} (bs : List UInt8)
    (h : off' + len ≤ off) : (c.write off bs).read off' len = c.read off' len :=
  read_congr fun a _ _ => c.write_of_lt bs (by omega)

theorem Content.read_write_after (c : Content) {off off' len : Nat} (bs : List UInt8)
    (h : off + bs.length ≤ off') : (c.write off bs).read off' len = c.read off' len :=
  read_congr fun a _ _ => c.write_of_ge bs (by omega)

/-- A part of a region that was copied to another medium. -/
theorem Content.read_write_copy (c c' : Content) {off off' len i n : Nat} (h : i + n ≤ len) :
    (c'.write off (c.read off' len)).read (off + i) n = c.read (off' + i) n := by
  unfold read
  refine List.map_congr_left fun j hj => ?_
  have hj' := List.mem_range.mp hj
  unfold write
  rw [if_pos (by simp; omega)]
  have hsub : off + i + j - off = i + j := by omega
  rw [hsub, List.getD_eq_getElem _ _ (by simp; omega)]
  simp [Nat.add_assoc]

/-- `BlockDevice` with the outcomes of its coming calls and its past writes,
the last one first. -/
structure BlockDevice where
  content : Content
  size : Nat
  blockSize : Nat := 4096
  faults : List Bool := []
  trace : List (Nat × List UInt8) := []

namespace BlockDevice

/-- `is_valid_io`. -/
def isValidIo (d : BlockDevice) (off len : Nat) : Bool :=
  off + len ≤ d.size ∧ off % d.blockSize = 0 ∧ len % d.blockSize = 0

/-- Consume the outcome of one call: does it fail? -/
def fails (d : BlockDevice) : Bool := d.faults.headD false

def spend (d : BlockDevice) : BlockDevice := { d with faults := d.faults.tail }

/-- `read`: result code and the bytes appended to the buffer list. -/
def read (d : BlockDevice) (off len : Nat) (buffered : Bool) :
    Int × List UInt8 × BlockDevice :=
  if !buffered && !d.isValidIo off len then (-einval, [], d)
  else if d.fails then (-eio, [], d.spend)
  else (len, d.content.read off len, d.spend)

/-- `write`. -/
def write (d : BlockDevice) (off : Nat) (bl : List UInt8) (buffered : Bool) :
    Int × BlockDevice :=
  if !buffered && !d.isValidIo off bl.length then (-einval, d)
  else if d.fails then (-eio, d.spend)
  else (bl.length, { d.spend with
    content := d.content.write off bl
    trace := (off, bl) :: d.trace })

/-- Whether a direct write of `len` bytes reaches the medium. -/
def accepts (d : BlockDevice) (off len : Nat) : Bool := d.isValidIo off len && !d.fails

/-- `flush`. -/
def flush (d : BlockDevice) : Int × BlockDevice :=
  if d.fails then (-eio, d.spend) else (0, d.spend)

/-! ## The writes between two states -/

/-- `d'` is `d` after the writes `w`, the last one first. -/
structure Wrote (d d' : BlockDevice) (w : List (Nat × List UInt8)) : Prop where
  trace : d'.trace = w ++ d.trace
  content : d'.content = w.foldr (fun x c => c.write x.1 x.2) d.content
  size : d'.size = d.size
  blockSize : d'.blockSize = d.blockSize

variable {d d' d'' : BlockDevice} {w w' : List (Nat × List UInt8)}

theorem Wrote.refl (d : BlockDevice) : Wrote d d [] := ⟨rfl, rfl, rfl, rfl⟩

theorem Wrote.trans (h : Wrote d d' w) (h' : Wrote d' d'' w') : Wrote d d'' (w' ++ w) := by
  refine ⟨?_, ?_, h'.size.trans h.size, h'.blockSize.trans h.blockSize⟩
  · rw [h'.trace, h.trace, List.append_assoc]
  · rw [h'.content, h.content, List.foldr_append]

theorem wrote_read {off len : Nat} {buffered : Bool} {r : Int} {bl : List UInt8}
    (h : d.read off len buffered = (r, bl, d')) : Wrote d d' [] := by
  unfold read at h
  split at h
  · cases h
    exact Wrote.refl d
  · split at h <;>
    · cases h
      exact ⟨rfl, rfl, rfl, rfl⟩

theorem wrote_flush {r : Int} (h : d.flush = (r, d')) : Wrote d d' [] := by
  unfold flush at h
  split at h <;>
  · cases h
    exact ⟨rfl, rfl, rfl, rfl⟩

/-- A write reaches the medium exactly when it succeeds. -/
theorem wrote_write {off : Nat} {bl : List UInt8} {buffered : Bool} {r : Int}
    (h : d.write off bl buffered = (r, d')) :
    (r < 0 ∧ Wrote d d' []) ∨ (0 ≤ r ∧ Wrote d d' [(off, bl)]) := by
  unfold write at h
  split at h
  · cases h
    exact .inl ⟨by decide, Wrote.refl d⟩
  · split at h
    · cases h
      exact .inl ⟨by decide, rfl, rfl, rfl, rfl⟩
    · cases h
      exact .inr ⟨Int.natCast_nonneg _, rfl, rfl, rfl, rfl⟩

/-- A buffered read fails, or returns the bytes of the medium. -/
theorem read_buffered {off len : Nat} {r : Int} {bl : List UInt8}
    (h : d.read off len true = (r, bl, d')) :
    Wrote d d' [] ∧ d' = d.spend ∧ ((d.fails = true ∧ r < 0) ∨
      (d.fails = false ∧ 0 ≤ r ∧ bl = d.content.read off len)) := by
  refine ⟨wrote_read h, ?_⟩
  unfold read at h
  cases hf : d.fails with
  | true =>
      rw [hf] at h
      cases h
      exact ⟨rfl, .inl ⟨rfl, by decide⟩⟩
  | false =>
      rw [hf] at h
      cases h
      exact ⟨rfl, .inr ⟨rfl, Int.natCast_nonneg _, rfl⟩⟩

/-- A buffered write fails, or puts the bytes on the medium. -/
theorem write_buffered {off : Nat} {bl : List UInt8} {r : Int}
    (h : d.write off bl true = (r, d')) :
    (d.fails = true ∧ r < 0 ∧ Wrote d d' []) ∨
      (d.fails = false ∧ 0 ≤ r ∧ Wrote d d' [(off, bl)]) := by
  rcases wrote_write h with ⟨hr, hw⟩ | ⟨hr, hw⟩
  · refine .inl ⟨?_, hr, hw⟩
    cases hf : d.fails with
    | true => rfl
    | false =>
        unfold write at h
        rw [hf] at h
        cases h
        exact absurd hr (by simp)
  · refine .inr ⟨?_, hr, hw⟩
    cases hf : d.fails with
    | false => rfl
    | true =>
        unfold write at h
        rw [hf] at h
        cases h
        exact absurd hr (by decide)

/-- A direct write fails, or puts the bytes on the medium. -/
theorem write_direct {off : Nat} {bl : List UInt8} {r : Int}
    (h : d.write off bl false = (r, d')) :
    (d.accepts off bl.length = false ∧ r < 0 ∧ Wrote d d' []) ∨
      (d.accepts off bl.length = true ∧ 0 ≤ r ∧ Wrote d d' [(off, bl)]) := by
  unfold write at h
  unfold accepts
  cases hv : d.isValidIo off bl.length with
  | false =>
      rw [hv] at h
      cases h
      exact .inl ⟨rfl, by decide, Wrote.refl d⟩
  | true =>
      cases hf : d.fails with
      | true =>
          rw [hv, hf] at h
          cases h
          exact .inl ⟨rfl, by decide, rfl, rfl, rfl, rfl⟩
      | false =>
          rw [hv, hf] at h
          cases h
          exact .inr ⟨rfl, Int.natCast_nonneg _, rfl, rfl, rfl, rfl⟩

/-- Bytes that no write touches stay. -/
theorem Wrote.read_eq (h : Wrote d d' w) {off len : Nat}
    (hw : ∀ x ∈ w, x.1 + x.2.length ≤ off ∨ off + len ≤ x.1) :
    d'.content.read off len = d.content.read off len := by
  rw [h.content]
  clear h
  induction w with
  | nil => rfl
  | cons x xs ih =>
      rw [List.foldr_cons, ← ih fun y hy => hw y (List.mem_cons_of_mem _ hy)]
      rcases hw x List.mem_cons_self with hlt | hlt
      · exact Content.read_write_after _ _ hlt
      · exact Content.read_write_before _ _ hlt

end BlockDevice

end Clab.Blk
