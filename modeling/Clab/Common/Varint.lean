import Clab.Lib.Codec
import Clab.Common.ByteString

/-!
# Variable-length integers

The encoders shift a sign bit, a count of low zero nibbles or a tag into the value
and leave the rest to `denc_varint`, whose loop ends when nothing is left. The
unsigned formats have no bits to spare for what is shifted in, and the signed ones
run on the sign bit: each comes back exactly where the shifted value still fits.
-/

namespace Clab.Common.Varint

open Codec

/-! ## The formats -/

/-- A value in an `int64_t`. -/
def toInt64 (x : Int) : Int := Int.bmod x (2 ^ 64)

/-- `-v` of an `int64_t`; `none` where it is not defined. -/
def negate (v : Int) : Option Int := if v = -2 ^ 63 then none else some (-v)

/-- `denc_varint` into an appender; `>>=` rounds down, below zero too. `none` where
the rounds do not suffice. -/
def encodeVarint : Nat → Int → Option Bytes
  | 0, _ => none
  | rounds + 1, v =>
      let byte := (v % 128).toNat
      if v / 128 = 0 then some [UInt8.ofNat byte]
      else (encodeVarint rounds (v / 128)).map (UInt8.ofNat (byte ||| 0x80) :: ·)

/-- The loop of `denc_varint` on an iterator, after `byte` was read. A shift by the
width of the value is not defined. -/
def moreVarint : Nat → Nat → Nat → List UInt8 → Option (Nat × List UInt8)
  | byte, _, v, [] => if byte &&& 0x80 = 0 then some (v, []) else none
  | byte, shift, v, b :: bs =>
      if byte &&& 0x80 = 0 then some (v, b :: bs)
      else if 64 ≤ shift then none
      else moreVarint b.toNat (shift + 7) ((v ||| (b.toNat &&& 0x7f) <<< shift) % 2 ^ 64) bs

/-- `denc_varint` on an iterator: the bits of the value. -/
def decodeVarint : Codec.Decoder Nat
  | [] => none
  | b :: bs => moreVarint b.toNat 7 (b.toNat &&& 0x7f) bs

/-- `denc_signed_varint`. Behind a shift the low bits are clear, and `|` adds. -/
def encodeSignedVarint (rounds : Nat) (v : Int) : Option Bytes := do
  let v ← if v < 0 then (negate v).map fun v => toInt64 (v * 2) + 1 else some (toInt64 (v * 2))
  encodeVarint rounds v

def decodeSignedVarint : Codec.Decoder Int := do
  let n ← decodeVarint
  let i := toInt64 n
  return if i % 2 = 1 then -(i / 2) else i / 2

/-- `ctz` of a nonzero value. -/
def ctz (v : Nat) : Nat := ((List.range 64).find? v.testBit).getD 64

/-- The low zero nibbles, as every format counts them. -/
def nibbles (v : Nat) : Nat := if v = 0 then 0 else ctz v / 4

/-- `denc_varint_lowz`. -/
def encodeVarintLowz (rounds v : Nat) : Option Bytes :=
  let lowznib := min (nibbles v) 3
  encodeVarint rounds (((v >>> (lowznib * 4)) <<< 2 % 2 ^ 64 ||| lowznib : Nat) : Int)

def decodeVarintLowz : Codec.Decoder Nat := do
  let i ← decodeVarint
  let lowznib := i &&& 3
  return (i >>> 2) <<< (lowznib * 4) % 2 ^ 64

/-- `if (v < 0) v = -v;`. -/
def magnitude (v : Int) : Option Int := if v < 0 then negate v else some v

/-- `denc_signed_varint_lowz`. -/
def encodeSignedVarintLowz (rounds : Nat) (v : Int) : Option Bytes := do
  let a ← magnitude v
  let lowznib := min (nibbles a.toNat) 3
  encodeVarint rounds
    (toInt64 (a / 2 ^ (lowznib * 4) * 8) + lowznib * 2 + if v < 0 then 1 else 0)

def decodeSignedVarintLowz : Codec.Decoder Int := do
  let n ← decodeVarint
  let i := toInt64 n
  let lowznib := (i % 8 / 2).toNat
  let a := toInt64 (i / 8 * 2 ^ (lowznib * 4))
  return if i % 2 = 1 then -a else a

/-- `denc_lba`: the first word and the loop behind it, which is that of `denc_varint`. -/
def encodeLba (rounds v : Nat) : Option Bytes :=
  let t := nibbles v - 3
  let (pos, tag, v) :=
    if nibbles v < 3 then (3, 0x7, v)
    else if t < 3 then (t + 1, 2 ^ t - 1, v >>> (nibbles v * 4))
    else (3, 0x3, v >>> 20)
  let word := tag ||| (v <<< pos &&& 0x7fffffff)
  let v := v >>> (31 - pos)
  if v = 0 then some (leBytes 4 word)
  else (encodeVarint rounds v).map (leBytes 4 (word ||| 0x80000000) ++ ·)

/-- The value the first word starts, and where the bytes behind it go on. -/
def lbaStart (word : Nat) : Nat × Nat :=
  match word &&& 7 with
  | 7 => ((word &&& 0x7ffffff8) >>> 3, 28)
  | 3 => ((word &&& 0x7ffffff8) <<< (20 - 3), 20 + 28)
  | 1 | 5 => ((word &&& 0x7ffffffc) <<< (16 - 2), 16 + 29)
  | _ => ((word &&& 0x7ffffffe) <<< (12 - 1), 12 + 30)

def decodeLba : Codec.Decoder Nat := do
  let word ← getLe 4
  moreVarint (word >>> 24) (lbaStart word).2 (lbaStart word).1

/-- The encoder terminates, and the decoder gives the value back and takes exactly
its bytes, whatever follows them. -/
def RoundTrips {α : Type} (encode : Nat → Option Bytes) (decode : Codec.Decoder α) (x : α) :
    Prop :=
  ∃ bs enough, (∀ rounds, enough ≤ rounds → encode rounds = some bs) ∧ Codec.Decodes decode bs x

/-! ## Bits -/

theorem or_low {m n k : Nat} (h : n < 2 ^ k) : m <<< k ||| n = m * 2 ^ k + n := by
  rw [← Nat.shiftLeft_add_eq_or_of_lt h, Nat.shiftLeft_eq]

theorem or_low' {m n k : Nat} (h : n < 2 ^ k) : n ||| m <<< k = n + m * 2 ^ k := by
  rw [Nat.or_comm, or_low h, Nat.add_comm]

theorem and_0x7f (n : Nat) : n &&& 0x7f = n % 128 := Nat.and_two_pow_sub_one_eq_mod n 7

theorem or_0x80 {n : Nat} (h : n < 128) : n ||| 0x80 = n + 128 := or_low' (m := 1) (k := 7) h

theorem and_0x80 {n : Nat} (h : n < 256) : n &&& 0x80 = n / 128 * 128 := by
  have hall : ∀ n, n < 256 → n &&& 0x80 = n / 128 * 128 := by decide +kernel
  exact hall n h

theorem and_shiftLeft (x m k : Nat) : x &&& m <<< k = (x >>> k &&& m) <<< k := by
  refine Nat.eq_of_testBit_eq fun i => ?_
  simp only [Nat.testBit_and, Nat.testBit_shiftLeft, Nat.testBit_shiftRight]
  by_cases hi : k ≤ i
  · simp [hi]
  · simp [hi]

/-! ## The loop -/

theorem encodeVarint_succ (rounds n : Nat) :
    encodeVarint (rounds + 1) n =
      if n / 128 = 0 then some [UInt8.ofNat (n % 128)]
      else (encodeVarint rounds (n / 128 : Nat)).map (UInt8.ofNat (n % 128 ||| 0x80) :: ·) := by
  have hmod : ((n : Int) % 128).toNat = n % 128 := by omega
  have hdiv : (n : Int) / 128 = ((n / 128 : Nat) : Int) := by omega
  rw [encodeVarint, hmod, hdiv]
  simp only [Nat.cast_eq_zero]

theorem encodeVarint_terminates {k n : Nat} (h : n < 128 ^ (k + 1)) :
    ∃ bs, ∀ rounds, k + 1 ≤ rounds → encodeVarint rounds n = some bs := by
  induction k generalizing n with
  | zero =>
      refine ⟨[UInt8.ofNat (n % 128)], fun rounds hr => ?_⟩
      obtain ⟨m, rfl⟩ := Nat.exists_eq_add_of_le' hr
      rw [encodeVarint_succ, if_pos (by omega)]
  | succ k ih =>
      by_cases hz : n / 128 = 0
      · refine ⟨[UInt8.ofNat (n % 128)], fun rounds hr => ?_⟩
        obtain ⟨m, rfl⟩ := Nat.exists_eq_add_of_le' (Nat.one_le_of_lt hr)
        rw [encodeVarint_succ, if_pos hz]
      · obtain ⟨bs, hbs⟩ := ih (n := n / 128) (by
          rw [Nat.div_lt_iff_lt_mul (by decide), ← Nat.pow_succ]
          exact h)
        refine ⟨UInt8.ofNat (n % 128 ||| 0x80) :: bs, fun rounds hr => ?_⟩
        obtain ⟨m, rfl⟩ := Nat.exists_eq_add_of_le' (Nat.one_le_of_lt hr)
        rw [encodeVarint_succ, if_neg hz, hbs m (by omega)]
        rfl

/-- Below zero something is always left. -/
theorem encodeVarint_neg {v : Int} (h : v < 0) (rounds : Nat) : encodeVarint rounds v = none := by
  induction rounds generalizing v with
  | zero => rfl
  | succ rounds ih =>
      rw [encodeVarint, if_neg (by omega), ih (by omega)]
      rfl

/-- The value goes in behind what is there, group by group. -/
theorem moreVarint_encode {rounds n : Nat} {bs : Bytes} (h : encodeVarint rounds n = some bs)
    {byte shift v : Nat} (hmore : byte &&& 0x80 ≠ 0) (hv : v < 2 ^ shift) (hn : 0 < n)
    (hfit : v + n * 2 ^ shift < 2 ^ 64) (rest : List UInt8) :
    moreVarint byte shift v (bs ++ rest) = some (v + n * 2 ^ shift, rest) := by
  induction rounds generalizing n bs byte shift v with
  | zero => cases h
  | succ rounds ih =>
      have hshift : shift < 64 := by
        by_contra hge
        have hpow : 2 ^ 64 ≤ 2 ^ shift := Nat.pow_le_pow_right (by decide) (by omega)
        have hmul : 2 ^ shift ≤ n * 2 ^ shift := Nat.le_mul_of_pos_left _ hn
        omega
      have hdiv := Nat.div_add_mod n 128
      rw [encodeVarint_succ] at h
      split at h
      · -- the last group
        rename_i hz
        cases h
        have hbyte : (UInt8.ofNat (n % 128)).toNat = n := by
          rw [UInt8.toNat_ofNat']
          omega
        rw [List.singleton_append, moreVarint, if_neg hmore, if_neg (by omega), hbyte, and_0x7f,
          or_low' hv, Nat.mod_eq_of_lt (show n < 128 by omega), Nat.mod_eq_of_lt hfit]
        cases rest <;> rw [moreVarint, if_pos (by rw [and_0x80 (by omega)]; omega)]
      · rename_i hz
        obtain ⟨bs, hbs, rfl⟩ := Option.map_eq_some_iff.mp h
        have hbyte : (UInt8.ofNat (n % 128 ||| 0x80)).toNat = n % 128 + 128 := by
          rw [or_0x80 (by omega), UInt8.toNat_ofNat']
          omega
        have hpow : 2 ^ (shift + 7) = 2 ^ shift * 128 := Nat.pow_add 2 shift 7
        have hsplit : n * 2 ^ shift = n % 128 * 2 ^ shift + n / 128 * 2 ^ (shift + 7) := by
          conv_lhs => rw [← hdiv]
          rw [hpow]
          ring
        have hgroup : n % 128 * 2 ^ shift ≤ 127 * 2 ^ shift := Nat.mul_le_mul_right _ (by omega)
        have hlow : v + n % 128 * 2 ^ shift < 2 ^ 64 := by omega
        have hcont : (n % 128 + 128) &&& 0x80 ≠ 0 := by
          rw [and_0x80 (by omega)]
          omega
        rw [List.cons_append, moreVarint, if_neg hmore, if_neg (by omega), hbyte, and_0x7f,
          or_low' hv, show (n % 128 + 128) % 128 = n % 128 by omega, Nat.mod_eq_of_lt hlow,
          ih hbs hcont (by omega) (by omega) (by omega), hsplit, Nat.add_assoc]

theorem decodeVarint_encode {rounds n : Nat} {bs : Bytes} (h : encodeVarint rounds n = some bs)
    (hn : n < 2 ^ 64) : Codec.Decodes decodeVarint bs n := by
  intro rest
  cases rounds with
  | zero => cases h
  | succ rounds =>
      have hdiv := Nat.div_add_mod n 128
      rw [encodeVarint_succ] at h
      split at h
      · cases h
        have hbyte : (UInt8.ofNat (n % 128)).toNat = n := by
          rw [UInt8.toNat_ofNat']
          omega
        show moreVarint _ _ _ rest = _
        rw [hbyte, and_0x7f, Nat.mod_eq_of_lt (show n < 128 by omega)]
        cases rest <;> rw [moreVarint, if_pos (by rw [and_0x80 (by omega)]; omega)]
      · obtain ⟨bs, hbs, rfl⟩ := Option.map_eq_some_iff.mp h
        have hbyte : (UInt8.ofNat (n % 128 ||| 0x80)).toNat = n % 128 + 128 := by
          rw [or_0x80 (by omega), UInt8.toNat_ofNat']
          omega
        show moreVarint _ _ _ (bs ++ rest) = _
        rw [hbyte, and_0x7f, show (n % 128 + 128) % 128 = n % 128 by omega,
          moreVarint_encode hbs (by rw [and_0x80 (by omega)]; omega) (by omega) (by omega) (by omega)]
        congr 2
        omega

end Clab.Common.Varint
