import Clab.Common.ByteString
import Clab.Lib.Codec

/-!
# DENC

The visitor that a struct writes once and that runs in three modes: it bounds the
length of an encoding, it encodes into a contiguous appender, and it decodes from
an iterator over one buffer. The body of a visitor is a value of `Denc`, and each
mode is a function of it.
-/

namespace Clab.Common

open Codec

/-! ## The appender -/

/-- What a list gets while an appender is open: a range of the space, behind the range before it,
or a node of another list. -/
inductive Appended where
  | own (len : Nat)
  | shared (bs : Bytes)

namespace Appended

/-- The length of the ranges of the space. -/
def ownLength : List Appended → Nat
  | [] => 0
  | own n :: cs => n + ownLength cs
  | shared _ :: cs => ownLength cs

/-- The bytes of the list, where `mem` is what is written into the space. -/
def layout : List Appended → Bytes → Bytes
  | [], mem => mem
  | own n :: cs, mem => mem.take n ++ layout cs (mem.drop n)
  | shared bs :: cs, mem => bs ++ layout cs mem

end Appended

/-- `contiguous_appender`: the memory written from where its space began. The space that
`obtain_contiguous_space(0)` gives behind the nodes of another list goes on where it stopped. -/
structure Appender where
  mem : Bytes := []
  appended : List Appended := []
  outOfBandOffset : Nat := 0
  fits : Appended.ownLength appended ≤ mem.length := by simp [Appended.ownLength]

namespace Appender

def getPos (p : Appender) : Nat := p.mem.length

/-- `append(p, l)`, and `get_pos_add` with a value that is stored there at once. -/
def append (p : Appender) (bs : Bytes) : Appender :=
  { p with mem := p.mem ++ bs, fits := p.fits.trans (by simp) }

/-- A value is stored where `get_pos_add` was before. -/
def store (p : Appender) (pos : Nat) (bs : Bytes) : Appender :=
  { p with
    mem := p.mem.take pos ++ bs ++ p.mem.drop (pos + bs.length)
    fits := p.fits.trans (by simp; omega) }

theorem ownLength_append (cs ds : List Appended) :
    Appended.ownLength (cs ++ ds) = Appended.ownLength cs + Appended.ownLength ds := by
  induction cs with
  | nil => simp [Appended.ownLength]
  | cons c cs ih =>
      cases c with
      | own n => rw [List.cons_append, Appended.ownLength, Appended.ownLength, ih, Nat.add_assoc]
      | shared bs => exact ih

theorem ownLength_shared (nodes : List Bytes) :
    Appended.ownLength (nodes.map Appended.shared) = 0 := by
  induction nodes with
  | nil => rfl
  | cons bs nodes ih => exact ih

/-- `flush_and_continue`. -/
def flush (p : Appender) : Appender :=
  { p with
    appended := p.appended ++ [.own (p.mem.length - Appended.ownLength p.appended)]
    fits := by
      have hfits := p.fits
      rw [ownLength_append]
      simp only [Appended.ownLength]
      omega }

/-- `append(l)`: the nodes are shared. -/
def appendList (p : Appender) (nodes : List Bytes) : Appender :=
  { p.flush with
    appended := p.flush.appended ++ nodes.map .shared
    outOfBandOffset := p.outOfBandOffset + nodes.flatten.length
    fits := by
      rw [ownLength_append, ownLength_shared]
      exact p.flush.fits }

/-- The bytes that the list got. -/
def bytes (p : Appender) : Bytes := Appended.layout p.appended p.mem

end Appender

/-! ## The iterator -/

/-- What a decoder throws: `end_of_buffer` or `malformed_input`. -/
inductive DecodeError where
  | endOfBuffer
  | malformedInput
  deriving DecidableEq

/-- `ptr`: the memory from its first byte on, and its length. -/
structure Ptr where
  mem : Bytes
  len : Nat
  fits : len ≤ mem.length

def Ptr.bytes (p : Ptr) : Bytes := p.mem.take p.len

/-- `ptr::const_iterator`: the memory from `pos` on, the bytes up to `end_ptr`, and `get_offset`. -/
structure PtrIterator where
  mem : Bytes
  left : Nat
  off : Nat
  fits : left ≤ mem.length

namespace PtrIterator

/-- The bytes up to `end_ptr`. -/
def bytes (it : PtrIterator) : Bytes := it.mem.take it.left

def advance (it : PtrIterator) (n : Nat) : PtrIterator where
  mem := it.mem.drop n
  left := it.left - n
  off := it.off + n
  fits := by
    have hfits := it.fits
    rw [List.length_drop]
    omega

end PtrIterator

def Ptr.cbegin (p : Ptr) : PtrIterator := ⟨p.mem, p.len, 0, p.fits⟩

abbrev Decoder (α : Type) := StateT PtrIterator (Except DecodeError) α

namespace Decoder

/-- `get_pos_add`, and the bytes behind the position it returns. -/
def getPosAdd (n : Nat) : Decoder Bytes := fun it =>
  if n ≤ it.left then .ok (it.mem.take n, it.advance n) else .error .endOfBuffer

def getPos : Decoder Nat := fun it => .ok (it.off, it)

/-- `decode` of an integer. -/
def integer (w : Nat) : Decoder Nat := do
  let bs ← getPosAdd w
  return leNat bs

/-- The loop over the items. -/
def items {α : Type} (item : Decoder α) : Nat → Decoder (List α)
  | 0 => return []
  | n + 1 => do
      let x ← item
      let xs ← items item n
      return x :: xs

/-- `_denc_finish`. -/
def finish (start len : Nat) : Decoder Unit := do
  let pos ← getPos
  if start + len < pos then throw .malformedInput
  else if pos < start + len then
    let _ ← getPosAdd (start + len - pos)
    return ()
  else return ()

end Decoder

/-! ## Visitors -/

/-- The body of a visitor. -/
inductive Denc : Type → Type 1 where
  /-- `denc` of an integer of `w` bytes. -/
  | integer (w : Nat) : Denc Nat
  /-- A loop over an array. -/
  | array {α : Type} (n : Nat) (item : Denc α) : Denc (List α)
  | vector {α : Type} (item : Denc α) : Denc (List α)
  | bufferList : Denc (List Bytes)
  /-- One `denc` and another behind it. -/
  | pair {α β : Type} (first : Denc α) (second : Denc β) : Denc (α × β)
  /-- The fields of a struct, and the struct that is decoded from them. -/
  | fields {α β : Type} (get : β → α) (set : α → β) (d : Denc α) : Denc β
  /-- `DENC_START(v, compat, p)` to `DENC_FINISH(p)`. -/
  | struct {α : Type} (v compat : UInt8) (body : Denc α) : Denc α

namespace Denc

/-- `bound_encode`. -/
def boundEncode : {α : Type} → Denc α → α → Nat → Nat
  | _, integer w, _, p => p + w
  | _, array _ item, xs, p => xs.foldl (fun p x => item.boundEncode x p) p
  | _, vector item, xs, p => xs.foldl (fun p x => item.boundEncode x p) (p + 4)
  | _, bufferList, nodes, p => p + (4 + nodes.flatten.length)
  | _, pair first second, (x, y), p => second.boundEncode y (first.boundEncode x p)
  | _, fields get _ d, x, p => d.boundEncode (get x) p
  | _, struct _ _ body, x, p => body.boundEncode x (p + (2 + 4))

/-- `encode` into an appender. -/
def encode : {α : Type} → Denc α → α → Appender → Appender
  | _, integer w, n, p => p.append (leBytes w n)
  | _, array _ item, xs, p => xs.foldl (fun p x => item.encode x p) p
  | _, vector item, xs, p => xs.foldl (fun p x => item.encode x p) (p.append (leBytes 4 xs.length))
  | _, bufferList, nodes, p => (p.append (leBytes 4 nodes.flatten.length)).appendList nodes
  | _, pair first second, (x, y), p => second.encode y (first.encode x p)
  | _, fields get _ d, x, p => d.encode (get x) p
  | _, struct v compat body, x, p =>
      let p := (p.append [v]).append [compat]
      let lenPos := p.getPos
      let startOobOff := p.outOfBandOffset
      -- the length is stored when the body is written
      let p := body.encode x (p.append (List.replicate 4 0))
      p.store lenPos (leBytes 4 (p.getPos - lenPos - 4 + p.outOfBandOffset - startOobOff))

/-- `decode` from the iterator of one buffer. -/
def decode : {α : Type} → Denc α → Decoder α
  | _, integer w => Decoder.integer w
  | _, array n item => Decoder.items item.decode n
  | _, vector item => do
      let num ← Decoder.integer 4
      Decoder.items item.decode num
  | _, bufferList => do
      let len ← Decoder.integer 4
      let bs ← Decoder.getPosAdd len
      -- an empty buffer is not pushed
      return if len = 0 then [] else [bs]
  | _, pair first second => do
      let x ← first.decode
      let y ← second.decode
      return (x, y)
  | _, fields _ set d => do
      let x ← d.decode
      return set x
  | _, struct _ _ body => do
      let _ ← Decoder.getPosAdd 1
      let _ ← Decoder.getPosAdd 1
      let structLen ← Decoder.integer 4
      let startPos ← Decoder.getPos
      let x ← body.decode
      Decoder.finish startPos structLen
      return x

end Denc

/-! ## Lists -/

/-- A list; its length is an `unsigned`. -/
structure NodeList where
  nodes : List Ptr
  short : (nodes.map Ptr.len).sum < 2 ^ 32

namespace NodeList

def bytes (l : NodeList) : Bytes := l.nodes.flatMap Ptr.bytes
def length (l : NodeList) : Nat := (l.nodes.map Ptr.len).sum

/-- The nodes from the one that holds byte `off` on, and the offset in it. -/
def seek : Nat → List Ptr → List Ptr × Nat
  | off, [] => ([], off)
  | off, n :: ns => if n.len ≤ off then seek (off - n.len) ns else (n :: ns, off)

/-- `copy` of `len` bytes into memory. -/
def copyOut : Nat → Nat → List Ptr → Except DecodeError Bytes
  | len, _, [] => if len = 0 then .ok [] else .error .endOfBuffer
  | len, off, n :: ns =>
      if len = 0 then .ok []
      else do
        let howmuch := min len (n.len - off)
        let rest ← copyOut (len - howmuch) 0 ns
        return (n.bytes.drop off).take howmuch ++ rest

/-- `copy_shallow`: the bytes are copied unless one node holds them all. -/
def copyShallow (len off : Nat) : List Ptr → Except DecodeError Ptr
  | [] => .error .endOfBuffer
  | n :: ns =>
      if h : len ≤ n.len - off then
        .ok { mem := n.mem.drop off, len, fits := by have := n.fits; rw [List.length_drop]; omega }
      else do
        let bs ← copyOut len off (n :: ns)
        return { mem := bs, len := bs.length, fits := le_rfl }

end NodeList

namespace Denc

variable {α : Type}

/-- `decode` at an offset of a list, and the offset behind it. -/
def decodeAt (d : Denc α) (l : NodeList) (off : Nat) : Except DecodeError (α × Nat) :=
  let (nodes, nodeOff) := NodeList.seek off l.nodes
  if nodes = [] then .error .endOfBuffer
  else do
    let tmp ← NodeList.copyShallow (l.length - off) nodeOff nodes
    let (x, cp) ← d.decode tmp.cbegin
    return (x, off + cp.off)

/-- `encode` to the end of a list with `tail` unused bytes behind it: the bytes of the list. `none`
where the appender writes behind its space: `obtain_contiguous_space` takes the bound as an
`unsigned`, and the appender does not check it. -/
def encodeTo (d : Denc α) (x : α) (dest : Bytes) (tail : Nat) : Option Bytes :=
  let len := d.boundEncode x 0 % 2 ^ 32
  let space := if tail < len then len else tail
  let p := d.encode x {}
  if space < p.mem.length then none else some (dest ++ p.bytes)

end Denc

end Clab.Common
