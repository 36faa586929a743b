import Clab.Common.ByteString

/-!
# Base64

`armor_linebreak` and `unarmor` write into a destination of a given size. What
they would write with enough room is `armored` and `unarmored`; the two go back
and forth, whatever the width of a line. The wrappers on buffer lists compute the
size of the destination in 32 bits, which is too small from 2^30 bytes on.
-/

namespace Clab.Common

namespace Armor

/-- What a call returns: a length, an error, or nothing that is defined when the
`int` that counts the output overflows. -/
inductive Result
  | ok (olen : Nat)
  | erange
  | einval
  | overflow
  deriving DecidableEq, Repr

/-- `pem_key`. -/
def pemKey : Bytes :=
  "ABCDEFGHIJKLMNOPQRSTUVWXYZabcdefghijklmnopqrstuvwxyz0123456789+/".toList.map
    fun c => UInt8.ofNat c.toNat

/-- `'='` and `'\n'`. -/
def pad : UInt8 := 61
def newline : UInt8 := 10

/-- `encode_bits`. -/
def encodeBits (c : Nat) : UInt8 := pemKey.getD c 0

/-- `decode_bits`; `none` is `-EINVAL`. -/
def decodeBits (c : UInt8) : Option Nat :=
  if 65 ≤ c.toNat ∧ c.toNat ≤ 90 then some (c.toNat - 65)
  else if 97 ≤ c.toNat ∧ c.toNat ≤ 122 then some (c.toNat - 97 + 26)
  else if 48 ≤ c.toNat ∧ c.toNat ≤ 57 then some (c.toNat - 48 + 52)
  else if c.toNat = 43 ∨ c.toNat = 45 then some 62
  else if c.toNat = 47 ∨ c.toNat = 95 then some 63
  else if c = pad then some 0
  else none

/-- `SET_DST` of each byte, into a destination of `room` bytes; `false` where one
did not fit. -/
def setDst (room : Nat) : Bytes → Bytes → Bytes × Bool
  | dst, [] => (dst, true)
  | dst, c :: cs => if dst.length < room then setDst room (dst ++ [c]) cs else (dst, false)

/-! ## Encoding -/

/-- The characters of a group of three bytes, of two and of one. -/
def quad3 (a b c : UInt8) : Bytes :=
  [encodeBits (a.toNat >>> 2), encodeBits ((a.toNat &&& 3) <<< 4 ||| b.toNat >>> 4),
    encodeBits ((b.toNat &&& 15) <<< 2 ||| c.toNat >>> 6), encodeBits (c.toNat &&& 63)]

def quad2 (a b : UInt8) : Bytes :=
  [encodeBits (a.toNat >>> 2), encodeBits ((a.toNat &&& 3) <<< 4 ||| b.toNat >>> 4),
    encodeBits ((b.toNat &&& 15) <<< 2), pad]

def quad1 (a : UInt8) : Bytes :=
  [encodeBits (a.toNat >>> 2), encodeBits ((a.toNat &&& 3) <<< 4), pad, pad]

/-- One round of `armor_linebreak`: the group, a line break where the line is full, and
the rounds after it. `line` is at most `olen`, so it overflows no earlier. -/
def group (room width : Nat) (quad dst : Bytes) (olen line : Nat)
    (next : Bytes → Nat → Nat → Result × Bytes) : Result × Bytes :=
  let (dst, fits) := setDst room dst quad
  if !fits then (.erange, dst)
  else if 2 ^ 31 ≤ olen + 4 then (.overflow, dst)
  else if width ≠ 0 ∧ line + 4 = width then
    let (dst, fits) := setDst room dst [newline]
    if !fits then (.erange, dst)
    else if 2 ^ 31 ≤ olen + 4 + 1 then (.overflow, dst)
    else next dst (olen + 4 + 1) 0
  else next dst (olen + 4) (line + 4)

/-- The loop of `armor_linebreak`, with what was written so far. -/
def armorLoop (room width : Nat) : Bytes → Bytes → Nat → Nat → Result × Bytes
  | [], dst, olen, _ => (.ok olen, dst)
  | [a], dst, olen, line =>
      group room width (quad1 a) dst olen line fun dst olen _ => (.ok olen, dst)
  | [a, b], dst, olen, line =>
      group room width (quad2 a b) dst olen line fun dst olen _ => (.ok olen, dst)
  | a :: b :: c :: src, dst, olen, line =>
      group room width (quad3 a b c) dst olen line (armorLoop room width src)

/-- `armor_linebreak` into `room` bytes, and what it leaves there; `armor` is width 0. -/
def armorLinebreak (room : Nat) (src : Bytes) (width : Nat) : Result × Bytes :=
  armorLoop room width src [] 0 0

/-! ## Decoding -/

/-- `return n` of an `int`. -/
def returned (n : Nat) : Result := if 2 ^ 31 ≤ n then .overflow else .ok n

/-- The loop of `unarmor`, with what was written so far. -/
def unarmorLoop (room : Nat) : Bytes → Bytes → Nat → Result × Bytes
  | [], dst, olen => (.ok olen, dst)
  | s₀ :: src, dst, olen =>
      if s₀ = newline then unarmorLoop room src dst olen
      else match src with
        | s₁ :: s₂ :: s₃ :: src =>
            match decodeBits s₀, decodeBits s₁, decodeBits s₂, decodeBits s₃ with
            | some a, some b, some c, some d =>
                let (dst, fits) := setDst room dst [UInt8.ofNat (a <<< 2 ||| b >>> 4)]
                if !fits then (.erange, dst)
                else if s₂ = pad then (returned (olen + 1), dst)
                else
                  let (dst, fits) := setDst room dst [UInt8.ofNat ((b &&& 15) <<< 4 ||| c >>> 2)]
                  if !fits then (.erange, dst)
                  else if s₃ = pad then (returned (olen + 2), dst)
                  else
                    let (dst, fits) := setDst room dst [UInt8.ofNat ((c &&& 3) <<< 6 ||| d)]
                    if !fits then (.erange, dst)
                    else if 2 ^ 31 ≤ olen + 3 then (.overflow, dst)
                    else unarmorLoop room src dst (olen + 3)
            | _, _, _, _ => (.einval, dst)
        | _ => (.einval, dst)

/-- `unarmor` into `room` bytes, and what it leaves there. -/
def unarmor (room : Nat) (src : Bytes) : Result × Bytes := unarmorLoop room src [] 0

/-! ## The wrappers -/

/-- `encode_base64` of the bytes of a list: those of the buffer it appends. `none`
where the assertion of `set_length` fails. -/
def encodeBase64 (bl : Bytes) : Option Bytes :=
  let room := bl.length * 4 % 2 ^ 32 / 3 + 3
  match armorLinebreak room bl 0 with
  | (.ok l, dst) => if l ≤ room then some (dst.take l) else none
  | _ => none

/-- `decode_base64`; `none` is an exception or a failed assertion. -/
def decodeBase64 (e : Bytes) : Option Bytes :=
  let room := 4 + e.length * 3 % 2 ^ 32 / 4
  match unarmor room e with
  | (.ok l, dst) => if l ≤ room then some (dst.take l) else none
  | _ => none

/-! ## The whole output -/

/-- The line break after a group, and the characters on the line. -/
def lineBreak (width line : Nat) : Bytes × Nat :=
  if width ≠ 0 ∧ line + 4 = width then ([newline], 0) else ([], line + 4)

/-- The base64 form with lines of `width` characters, `line` of them written already. -/
def armored (width : Nat) : Nat → Bytes → Bytes
  | _, [] => []
  | line, [a] => quad1 a ++ (lineBreak width line).1
  | line, [a, b] => quad2 a b ++ (lineBreak width line).1
  | line, a :: b :: c :: src =>
      quad3 a b c ++ (lineBreak width line).1 ++ armored width (lineBreak width line).2 src

/-- The bytes a text stands for up to its padding or its first malformed group, and
whether it has none such. -/
def unarmored : Bytes → Bytes × Bool
  | [] => ([], true)
  | s₀ :: src =>
      if s₀ = newline then unarmored src
      else match src with
        | s₁ :: s₂ :: s₃ :: src =>
            match decodeBits s₀, decodeBits s₁, decodeBits s₂, decodeBits s₃ with
            | some a, some b, some c, some d =>
                let x := UInt8.ofNat (a <<< 2 ||| b >>> 4)
                let y := UInt8.ofNat ((b &&& 15) <<< 4 ||| c >>> 2)
                let z := UInt8.ofNat ((c &&& 3) <<< 6 ||| d)
                if s₂ = pad then ([x], true)
                else if s₃ = pad then ([x, y], true)
                else (x :: y :: z :: (unarmored src).1, (unarmored src).2)
            | _, _, _, _ => ([], false)
        | _ => ([], false)

/-! ## Bounded writing -/

/-- The bytes fit and are all written, or the destination is filled up. -/
theorem setDst_cases {room : Nat} {dst : Bytes} (h : dst.length ≤ room) (cs : Bytes) :
    (dst.length + cs.length ≤ room ∧ setDst room dst cs = (dst ++ cs, true)) ∨
    (room < dst.length + cs.length ∧ setDst room dst cs = ((dst ++ cs).take room, false)) := by
  induction cs generalizing dst with
  | nil => exact .inl ⟨h, by rw [setDst, List.append_nil]⟩
  | cons c cs ih =>
      have hlen : (dst ++ [c]).length + cs.length = dst.length + (c :: cs).length := by
        simp only [List.length_append, List.length_cons, List.length_nil]
        omega
      unfold setDst
      split
      · rename_i hlt
        have := @ih (dst ++ [c]) (by rw [List.length_append]; exact hlt)
        rwa [hlen, List.append_assoc] at this
      · rename_i hge
        have hfull : dst.length = room := by omega
        refine .inr ⟨?_, ?_⟩
        · rw [List.length_cons]
          omega
        · rw [← hfull, List.take_left]

/-- A destination that holds `dst` is to get `out` as well: all of it and what `fin`
says of the count, or as much as there is room for; past the range of an `int`
nothing is promised but that the destination is kept to. -/
structure Writes (room : Nat) (dst out : Bytes) (fin : Nat → Result) (r : Result × Bytes) :
    Prop where
  counted : dst.length + out.length < 2 ^ 31 →
    r = if dst.length + out.length ≤ room then (fin (dst.length + out.length), dst ++ out)
      else (.erange, (dst ++ out).take room)
  overflowed : 2 ^ 31 ≤ dst.length + out.length → dst.length + out.length ≤ room →
    r.1 = .overflow
  inside : r.2.length ≤ room

section Writing

variable {room : Nat} {dst out cs : Bytes} {fin : Nat → Result} {r : Result × Bytes}

/-- Nothing more is written. -/
theorem Writes.done (fin : Nat → Result) (hroom : dst.length ≤ room) :
    Writes room dst [] fin (if 2 ^ 31 ≤ dst.length then .overflow else fin dst.length, dst) := by
  constructor
  · intro h
    rw [List.length_nil, Nat.add_zero] at h ⊢
    rw [if_neg (by omega), if_pos hroom, List.append_nil]
  · intro h _
    rw [List.length_nil, Nat.add_zero] at h
    exact if_pos h
  · exact hroom

theorem Writes.stop (fin : Nat → Result) (hroom : dst.length ≤ room)
    (hlt : dst.length < 2 ^ 31) : Writes room dst [] fin (fin dst.length, dst) := by
  have hdone := Writes.done fin hroom
  rwa [if_neg (by omega)] at hdone

theorem Writes.overflow (h : 2 ^ 31 ≤ dst.length) (hroom : dst.length ≤ room) :
    Writes room dst out fin (.overflow, dst) :=
  ⟨fun hlt => absurd hlt (by omega), fun _ _ => rfl, hroom⟩

theorem Writes.stopped (h : room < dst.length + cs.length) :
    Writes room dst (cs ++ out) fin (.erange, (dst ++ cs).take room) := by
  constructor
  · intro _
    rw [List.length_append, if_neg (by omega), ← List.append_assoc]
    congr 1
    refine (List.take_append_of_le_length ?_).symm
    rw [List.length_append]
    omega
  · intro _ hle
    rw [List.length_append] at hle
    omega
  · exact List.length_take_le _ _

theorem Writes.grow (h : Writes room (dst ++ cs) out fin r) :
    Writes room dst (cs ++ out) fin r := by
  have hlen : dst.length + (cs ++ out).length = (dst ++ cs).length + out.length := by
    rw [List.length_append, List.length_append, Nat.add_assoc]
  constructor
  · rw [hlen, ← List.append_assoc]
    exact h.counted
  · rw [hlen]
    exact h.overflowed
  · exact h.inside

end Writing

/-! ## Encoding into a destination -/

theorem group_writes {room width line : Nat} {quad dst out : Bytes} (hquad : quad.length = 4)
    (hroom : dst.length ≤ room) {next : Bytes → Nat → Nat → Result × Bytes}
    (h : ∀ dst' : Bytes, dst'.length ≤ room → dst'.length < 2 ^ 31 →
      Writes room dst' out .ok (next dst' dst'.length (lineBreak width line).2)) :
    Writes room dst (quad ++ (lineBreak width line).1 ++ out) .ok
      (group room width quad dst dst.length line next) := by
  unfold group
  rw [List.append_assoc]
  rcases setDst_cases hroom quad with ⟨hfit, heq⟩ | ⟨hfull, heq⟩
  · rw [heq]
    refine Writes.grow ?_
    have hlen : (dst ++ quad).length = dst.length + 4 := by rw [List.length_append, hquad]
    rw [← List.length_append, hlen] at hfit
    simp only [Bool.not_true, Bool.false_eq_true, if_false]
    split
    · exact .overflow (by omega) (by omega)
    · unfold lineBreak at h ⊢
      split
      · rename_i hbreak
        simp only [if_pos hbreak] at h
        rcases setDst_cases (hlen.trans_le hfit) [newline] with ⟨hfit', heq⟩ | ⟨hfull, heq⟩
        · rw [heq]
          refine Writes.grow ?_
          have hlen' : (dst ++ quad ++ [newline]).length = dst.length + 4 + 1 := by
            rw [List.length_append, hlen, List.length_singleton]
          rw [← List.length_append, hlen'] at hfit'
          simp only [Bool.not_true, Bool.false_eq_true, if_false]
          split
          · exact .overflow (by omega) (by omega)
          · have := h (dst ++ quad ++ [newline]) (by omega) (by omega)
            rwa [hlen'] at this
        · rw [heq]
          exact .stopped hfull
      · rename_i hbreak
        simp only [if_neg hbreak] at h
        have := h (dst ++ quad) (by omega) (by omega)
        rwa [hlen] at this
  · rw [heq]
    exact .stopped hfull

theorem armorLoop_writes {room width : Nat} (src dst : Bytes) (line : Nat)
    (hroom : dst.length ≤ room) (hlt : dst.length < 2 ^ 31) :
    Writes room dst (armored width line src) .ok (armorLoop room width src dst dst.length line) := by
  induction line, src using armored.induct width generalizing dst with
  | case1 line => exact .stop .ok hroom hlt
  | case2 line a =>
      have := @group_writes room width line (quad1 a) dst [] rfl hroom
        (fun dst olen _ => (.ok olen, dst)) fun dst' => .stop .ok
      rwa [List.append_nil] at this
  | case3 line a b =>
      have := @group_writes room width line (quad2 a b) dst [] rfl hroom
        (fun dst olen _ => (.ok olen, dst)) fun dst' => .stop .ok
      rwa [List.append_nil] at this
  | case4 line a b c src ih => exact group_writes rfl hroom fun dst' => ih dst'

/-! ## Decoding into a destination -/

/-- What `unarmor` returns behind its last byte. -/
def finish (whole : Bool) (n : Nat) : Result := if whole then .ok n else .einval

/-- One byte of a group: it fits and the code goes on, or it does not. -/
theorem Writes.byte {room : Nat} {dst out : Bytes} {fin : Nat → Result} {r : Result × Bytes}
    (x : UInt8) (hroom : dst.length ≤ room)
    (hfit : setDst room dst [x] = (dst ++ [x], true) → (dst ++ [x]).length ≤ room →
      Writes room (dst ++ [x]) out fin r)
    (hfull : setDst room dst [x] = ((dst ++ [x]).take room, false) →
      r = (.erange, (dst ++ [x]).take room)) :
    Writes room dst (x :: out) fin r := by
  rcases setDst_cases hroom [x] with ⟨hle, heq⟩ | ⟨hlt, heq⟩
  · exact (hfit heq (by rwa [List.length_append])).grow
  · rw [hfull heq]
    show Writes room dst ([x] ++ out) fin _
    exact Writes.stopped hlt

theorem unarmorLoop_writes {room : Nat} (src dst : Bytes) (hroom : dst.length ≤ room)
    (hlt : dst.length < 2 ^ 31) :
    Writes room dst (unarmored src).1 (finish (unarmored src).2)
      (unarmorLoop room src dst dst.length) := by
  induction src using unarmored.induct generalizing dst with
  | case1 => exact .stop (finish true) hroom hlt
  | case2 src ih =>
      have hout : unarmored (newline :: src) = unarmored src := by
        rw [unarmored.eq_def]
        exact if_pos rfl
      have hloop : unarmorLoop room (newline :: src) dst dst.length =
          unarmorLoop room src dst dst.length := by
        rw [unarmorLoop.eq_def]
        exact if_pos rfl
      rw [hout, hloop]
      exact ih dst hroom hlt
  | case3 s₀ hnew s₁ s₃ src a b c d hd hb ha hc =>
      simp only [unarmorLoop, unarmored, if_neg hnew, ha, hb, hc, hd, if_true]
      refine .byte _ hroom (fun heq hfit => ?_) fun heq => by rw [heq]; rfl
      have := Writes.done .ok hfit
      rw [List.length_append] at this
      rwa [heq]
  | case4 s₀ hnew s₁ s₂ src a b c d hc hb ha hs₂ hd =>
      simp only [unarmorLoop, unarmored, if_neg hnew, ha, hb, hc, hd, if_neg hs₂, if_true]
      refine .byte _ hroom (fun heq hfit => ?_) fun heq => by rw [heq]; rfl
      rw [heq]
      refine .byte _ hfit (fun heq hfit => ?_) fun heq => by rw [heq]; rfl
      have := Writes.done .ok hfit
      rw [List.length_append, List.length_append] at this
      rwa [heq]
  | case5 s₀ hnew s₁ s₂ s₃ src a b c d hd hc hb ha hs₂ hs₃ ih =>
      simp only [unarmorLoop, unarmored, if_neg hnew, ha, hb, hc, hd, if_neg hs₂, if_neg hs₃]
      refine .byte _ hroom (fun heq hfit => ?_) fun heq => by rw [heq]; rfl
      rw [heq]
      refine .byte _ hfit (fun heq hfit => ?_) fun heq => by rw [heq]; rfl
      rw [heq]
      refine .byte _ hfit (fun heq hfit => ?_) fun heq => by rw [heq]; rfl
      rw [heq]
      have hlen : ∀ x y z : UInt8, (dst ++ [x] ++ [y] ++ [z]).length = dst.length + 3 := by
        intro x y z
        simp
      simp only [Bool.not_true, Bool.false_eq_true, if_false]
      split
      · rename_i hbig
        exact .overflow (by rwa [hlen]) hfit
      · rename_i hsmall
        have := ih _ hfit (by rw [hlen]; omega)
        rwa [hlen] at this
  | case6 s₀ hnew s₁ s₂ s₃ src hbad =>
      have hnone : unarmored (s₀ :: s₁ :: s₂ :: s₃ :: src) = ([], false) := by
        rw [unarmored, if_neg hnew]
        split
        · exact absurd ‹_› (hbad _ _ _ _ ‹_› ‹_› ‹_›)
        · rfl
      have hloop : unarmorLoop room (s₀ :: s₁ :: s₂ :: s₃ :: src) dst dst.length = (.einval, dst) := by
        rw [unarmorLoop, if_neg hnew]
        split
        · exact absurd ‹_› (hbad _ _ _ _ ‹_› ‹_› ‹_›)
        · rfl
      rw [hnone, hloop]
      exact .stop (finish false) hroom hlt
  | case7 s₀ src hnew hshort =>
      have hnone : unarmored (s₀ :: src) = ([], false) := by
        rw [unarmored.eq_def]
        refine (if_neg hnew).trans ?_
        split
        · exact absurd rfl (hshort _ _ _ _)
        · rfl
      have hloop : unarmorLoop room (s₀ :: src) dst dst.length = (.einval, dst) := by
        rw [unarmorLoop.eq_def]
        refine (if_neg hnew).trans ?_
        split
        · exact absurd rfl (hshort _ _ _ _)
        · rfl
      rw [hnone, hloop]
      exact .stop (finish false) hroom hlt

end Armor

end Clab.Common
