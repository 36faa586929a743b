import Clab.Common.Armor

/-!
# Base64, there and back

A group of bytes comes back from its four characters, so a text comes back from
its base64 form with line breaks anywhere. Into a destination of any size the two
functions are exact as long as the output can be counted in an `int`, and the
wrappers restore a list exactly below 2^30 bytes.
-/

namespace Clab.Common.Armor

/-! ## Groups of six bits -/

theorem decodeBits_encodeBits :
    ∀ n, n < 64 → decodeBits (encodeBits n) = some n ∧ encodeBits n ≠ pad ∧
      encodeBits n ≠ newline := by
  decide +kernel

theorem and_three (n : Nat) : n &&& 3 = n % 4 := Nat.and_two_pow_sub_one_eq_mod n 2
theorem and_fifteen (n : Nat) : n &&& 15 = n % 16 := Nat.and_two_pow_sub_one_eq_mod n 4
theorem and_sixtyThree (n : Nat) : n &&& 63 = n % 64 := Nat.and_two_pow_sub_one_eq_mod n 6

theorem or_low {m n k : Nat} (h : n < 2 ^ k) : m <<< k ||| n = m * 2 ^ k + n := by
  rw [← Nat.shiftLeft_add_eq_or_of_lt h, Nat.shiftLeft_eq]

theorem byte_lt (a : UInt8) : a.toNat < 256 := UInt8.toNat_lt a

/-- The four sextets of three bytes, as numbers. -/
theorem sextets (a b c : UInt8) :
    a.toNat >>> 2 = a.toNat / 4 ∧
    (a.toNat &&& 3) <<< 4 ||| b.toNat >>> 4 = a.toNat % 4 * 16 + b.toNat / 16 ∧
    (b.toNat &&& 15) <<< 2 ||| c.toNat >>> 6 = b.toNat % 16 * 4 + c.toNat / 64 ∧
    c.toNat &&& 63 = c.toNat % 64 := by
  have hb := byte_lt b
  have hc := byte_lt c
  refine ⟨Nat.shiftRight_eq_div_pow _ 2, ?_, ?_, and_sixtyThree _⟩
  · rw [Nat.shiftRight_eq_div_pow, or_low (by omega), and_three]
    rfl
  · rw [Nat.shiftRight_eq_div_pow, or_low (by omega), and_fifteen]
    rfl

/-- The three bytes of four sextets. -/
theorem octets {p q r s : Nat} (hq : q < 64) (hr : r < 64) (hs : s < 64) :
    p <<< 2 ||| q >>> 4 = p * 4 + q / 16 ∧
    (q &&& 15) <<< 4 ||| r >>> 2 = q % 16 * 16 + r / 4 ∧
    (r &&& 3) <<< 6 ||| s = r % 4 * 64 + s := by
  refine ⟨?_, ?_, ?_⟩
  · rw [Nat.shiftRight_eq_div_pow, or_low (by omega)]
    rfl
  · rw [Nat.shiftRight_eq_div_pow, or_low (by omega), and_fifteen]
    rfl
  · rw [or_low hs, and_three]
    rfl

theorem ofNat_eq {a : UInt8} {n : Nat} (h : n = a.toNat) : UInt8.ofNat n = a := by
  rw [h, UInt8.ofNat_toNat]

theorem unarmored_quad3 (a b c : UInt8) (src : Bytes) :
    unarmored (quad3 a b c ++ src) = (a :: b :: c :: (unarmored src).1, (unarmored src).2) := by
  have ha := byte_lt a
  have hb := byte_lt b
  have hc := byte_lt c
  obtain ⟨h₀, h₁, h₂, h₃⟩ := sextets a b c
  unfold quad3
  rw [h₀, h₁, h₂, h₃]
  generalize hp : a.toNat / 4 = p
  generalize hq : a.toNat % 4 * 16 + b.toNat / 16 = q
  generalize hr : b.toNat % 16 * 4 + c.toNat / 64 = r
  generalize hs : c.toNat % 64 = s
  obtain ⟨hdp, -, hnew⟩ := decodeBits_encodeBits p (by omega)
  obtain ⟨hdq, -, -⟩ := decodeBits_encodeBits q (by omega)
  obtain ⟨hdr, hpadr, -⟩ := decodeBits_encodeBits r (by omega)
  obtain ⟨hds, hpads, -⟩ := decodeBits_encodeBits s (by omega)
  obtain ⟨hx, hy, hz⟩ := octets (p := p) (q := q) (r := r) (s := s) (by omega) (by omega) (by omega)
  simp only [List.cons_append, List.nil_append, unarmored, if_neg hnew, hdp, hdq, hdr, hds,
    if_neg hpadr, if_neg hpads, hx, hy, hz]
  rw [ofNat_eq (a := a) (by omega), ofNat_eq (a := b) (by omega), ofNat_eq (a := c) (by omega)]

theorem decodeBits_pad : decodeBits pad = some 0 := by decide

theorem unarmored_quad2 (a b : UInt8) (src : Bytes) :
    unarmored (quad2 a b ++ src) = ([a, b], true) := by
  have ha := byte_lt a
  have hb := byte_lt b
  obtain ⟨h₀, h₁, h₂, -⟩ := sextets a b 0
  have h₂' : (b.toNat &&& 15) <<< 2 = b.toNat % 16 * 4 := by simpa using h₂
  unfold quad2
  rw [h₀, h₁, h₂']
  generalize hp : a.toNat / 4 = p
  generalize hq : a.toNat % 4 * 16 + b.toNat / 16 = q
  generalize hr : b.toNat % 16 * 4 = r
  obtain ⟨hdp, -, hnew⟩ := decodeBits_encodeBits p (by omega)
  obtain ⟨hdq, -, -⟩ := decodeBits_encodeBits q (by omega)
  obtain ⟨hdr, hpadr, -⟩ := decodeBits_encodeBits r (by omega)
  obtain ⟨hx, hy, -⟩ := octets (p := p) (q := q) (r := r) (s := 0) (by omega) (by omega) (by omega)
  simp only [List.cons_append, List.nil_append, unarmored, if_neg hnew, hdp, hdq, hdr,
    decodeBits_pad, if_neg hpadr, hx, hy, if_true]
  rw [ofNat_eq (a := a) (by omega), ofNat_eq (a := b) (by omega)]

theorem unarmored_quad1 (a : UInt8) (src : Bytes) :
    unarmored (quad1 a ++ src) = ([a], true) := by
  have ha := byte_lt a
  obtain ⟨h₀, h₁, -, -⟩ := sextets a 0 0
  have h₁' : (a.toNat &&& 3) <<< 4 = a.toNat % 4 * 16 := by simpa using h₁
  unfold quad1
  rw [h₀, h₁']
  generalize hp : a.toNat / 4 = p
  generalize hq : a.toNat % 4 * 16 = q
  obtain ⟨hdp, -, hnew⟩ := decodeBits_encodeBits p (by omega)
  obtain ⟨hdq, -, -⟩ := decodeBits_encodeBits q (by omega)
  obtain ⟨hx, -, -⟩ := octets (p := p) (q := q) (r := 0) (s := 0) (by omega) (by omega) (by omega)
  simp only [List.cons_append, List.nil_append, unarmored, if_neg hnew, hdp, hdq,
    decodeBits_pad, hx, if_true]
  rw [ofNat_eq (a := a) (by omega)]

theorem length_quad1 (a : UInt8) : (quad1 a).length = 4 := rfl
theorem length_quad2 (a b : UInt8) : (quad2 a b).length = 4 := rfl
theorem length_quad3 (a b c : UInt8) : (quad3 a b c).length = 4 := rfl

/-- Line breaks are skipped. -/
theorem unarmored_lineBreak (width line : Nat) (src : Bytes) :
    unarmored ((lineBreak width line).1 ++ src) = unarmored src := by
  unfold lineBreak
  split
  · show unarmored (newline :: src) = _
    rw [unarmored.eq_def]
    exact if_pos rfl
  · rfl

/-- Whatever the width of a line, the base64 form stands for the bytes. -/
theorem unarmored_armored (width line : Nat) (src : Bytes) :
    unarmored (armored width line src) = (src, true) := by
  induction line, src using armored.induct width with
  | case1 line => rfl
  | case2 line a => exact unarmored_quad1 a _
  | case3 line a b => exact unarmored_quad2 a b _
  | case4 line a b c src ih =>
      rw [armored, List.append_assoc, unarmored_quad3, unarmored_lineBreak, ih]

theorem length_armored_zero (line : Nat) (src : Bytes) :
    (armored 0 line src).length = 4 * ((src.length + 2) / 3) := by
  have hbreak : ∀ line, lineBreak 0 line = ([], line + 4) := fun _ => if_neg (by simp)
  induction line, src using armored.induct 0 with
  | case1 line => rfl
  | case2 line a =>
      rw [armored, hbreak, List.append_nil, length_quad1]
      simp
  | case3 line a b =>
      rw [armored, hbreak, List.append_nil, length_quad2]
      simp
  | case4 line a b c src ih =>
      rw [armored, List.length_append, List.length_append, ih, length_quad3, hbreak]
      simp only [List.length_cons, List.length_nil]
      omega

theorem length_le_armored (width line : Nat) (src : Bytes) :
    src.length ≤ (armored width line src).length := by
  induction line, src using armored.induct width with
  | case1 line => exact Nat.le_refl 0
  | case2 line a =>
      rw [armored, List.length_append, length_quad1, List.length_singleton]
      omega
  | case3 line a b =>
      rw [armored, List.length_append, length_quad2]
      simp only [List.length_cons, List.length_nil]
      omega
  | case4 line a b c src ih =>
      rw [armored, List.length_append, List.length_append, length_quad3]
      simp only [List.length_cons]
      omega

/-! ## Destinations of any size -/

/-- A function whose whole output is `out` respects every destination: it writes
nothing outside, says `-ERANGE` exactly when the output does not fit, and otherwise
returns `fin` and leaves the whole output. -/
def Respects (out : Bytes) (fin : Result) (f : Nat → Result × Bytes) : Prop :=
  ∀ room, (f room).2.length ≤ room ∧ (f room).1 ≠ .overflow ∧
    ((f room).1 = .erange ↔ room < out.length) ∧ (out.length ≤ room → f room = (fin, out))

theorem Writes.respects_iff {out : Bytes} {fin : Nat → Result} {f : Nat → Result × Bytes}
    (h : ∀ room, Writes room [] out fin (f room)) (herange : ∀ n, fin n ≠ .erange)
    (hover : ∀ n, fin n ≠ .overflow) :
    Respects out (fin out.length) f ↔ out.length < 2 ^ 31 := by
  constructor
  · intro hall
    by_contra hbig
    obtain ⟨-, hdefined, -⟩ := hall out.length
    refine hdefined ((h out.length).overflowed ?_ ?_) <;> rw [List.length_nil, Nat.zero_add]
    omega
  · intro hlt room
    have hr := (h room).counted (by rwa [List.length_nil, Nat.zero_add])
    rw [List.length_nil, Nat.zero_add, List.nil_append] at hr
    refine ⟨(h room).inside, ?_⟩
    by_cases hfit : out.length ≤ room
    · rw [hr, if_pos hfit]
      exact ⟨hover _, iff_of_false (herange _) (by omega), fun _ => rfl⟩
    · rw [hr, if_neg hfit]
      exact ⟨by simp, iff_of_true rfl (by omega), fun hle => absurd hle hfit⟩

/-- `armor_linebreak` respects its destination, and what it leaves in one that is
large enough comes back from `unarmor`. -/
def ArmorExact (src : Bytes) (width : Nat) : Prop :=
  Respects (armored width 0 src) (.ok (armored width 0 src).length)
      (fun room => armorLinebreak room src width) ∧
    ∀ room room', (armored width 0 src).length ≤ room → src.length ≤ room' →
      unarmor room' (armorLinebreak room src width).2 = (.ok src.length, src)

/-- `unarmor` respects its destination. -/
def UnarmorExact (src : Bytes) : Prop :=
  Respects (unarmored src).1 (finish (unarmored src).2 (unarmored src).1.length)
    (fun room => unarmor room src)

theorem unarmor_respects_iff (src : Bytes) : UnarmorExact src ↔ (unarmored src).1.length < 2 ^ 31 := by
  have hfin : ∀ whole n, finish whole n ≠ .erange ∧ finish whole n ≠ .overflow := by
    intro whole n
    cases whole <;> simp [finish]
  exact Writes.respects_iff (fun room => unarmorLoop_writes src [] (Nat.zero_le _) (by decide))
    (fun n => (hfin _ n).1) (fun n => (hfin _ n).2)

theorem armor_exact_iff (src : Bytes) (width : Nat) :
    ArmorExact src width ↔ (armored width 0 src).length < 2 ^ 31 := by
  have hrespects := Writes.respects_iff (f := fun room => armorLinebreak room src width)
    (fun room => armorLoop_writes src [] 0 (Nat.zero_le _) (by decide))
    (fun n => by simp) (fun n => by simp)
  constructor
  · intro h
    exact hrespects.mp h.1
  · intro hlt
    have harmor := hrespects.mpr hlt
    refine ⟨harmor, fun room room' hroom hroom' => ?_⟩
    have hback := (unarmor_respects_iff (armored width 0 src)).mpr
    unfold UnarmorExact at hback
    rw [unarmored_armored] at hback
    have hwhole := (harmor room).2.2.2 hroom
    dsimp only at hwhole
    rw [hwhole]
    exact (hback ((length_le_armored width 0 src).trans_lt hlt) room').2.2.2 hroom'

/-! ## The wrappers -/

/-- The size computed for the destination of `encode_base64` suffices exactly when
the product is below 2^32. -/
theorem encode_room (n : Nat) :
    4 * ((n + 2) / 3) ≤ n * 4 % 2 ^ 32 / 3 + 3 ↔ n < 2 ^ 30 := by
  omega

theorem decode_room {n : Nat} (h : n < 2 ^ 30) :
    n ≤ 4 + 4 * ((n + 2) / 3) * 3 % 2 ^ 32 / 4 := by
  omega

theorem decode_encode_iff {bl : Bytes} (h : (armored 0 0 bl).length < 2 ^ 31) :
    (encodeBase64 bl).bind decodeBase64 = some bl ↔ bl.length < 2 ^ 30 := by
  have hlen := length_armored_zero 0 bl
  obtain ⟨harmor, hback⟩ := (armor_exact_iff bl 0).mpr h
  have hroom := encode_room bl.length
  rw [← hlen] at hroom
  unfold encodeBase64
  dsimp only
  generalize hr : bl.length * 4 % 2 ^ 32 / 3 + 3 = room at hroom ⊢
  obtain ⟨-, hdefined, herange, hwhole⟩ := harmor room
  by_cases hfit : (armored 0 0 bl).length ≤ room
  · refine iff_of_true ?_ (hroom.mp hfit)
    have hlt := hroom.mp hfit
    dsimp only at hwhole
    rw [hwhole hfit]
    simp only [if_pos hfit, List.take_length, Option.bind_some]
    unfold decodeBase64
    have hdec : bl.length ≤ 4 + (armored 0 0 bl).length * 3 % 2 ^ 32 / 4 := by
      rw [hlen]
      exact decode_room hlt
    have := hback room _ hfit hdec
    rw [hwhole hfit] at this
    simp only [this, if_pos hdec, List.take_length]
  · refine iff_of_false ?_ fun hlt => hfit (hroom.mpr hlt)
    have hr := herange.mpr (by omega)
    dsimp only at hr
    generalize armorLinebreak room bl 0 = out at hr
    obtain ⟨r, dst⟩ := out
    dsimp only at hr
    subst hr
    simp

/-- Base64 is exact, in the sense of the two definitions above, exactly when the
output can be counted in an `int`; and a list whose base64 form is that short comes
back through the wrappers exactly when it has fewer than 2^30 bytes. -/
theorem base64_exact_iff (src text bl : Bytes) (width : Nat)
    (h : (armored 0 0 bl).length < 2 ^ 31) :
    (ArmorExact src width ↔ (armored width 0 src).length < 2 ^ 31) ∧
    (UnarmorExact text ↔ (unarmored text).1.length < 2 ^ 31) ∧
    ((encodeBase64 bl).bind decodeBase64 = some bl ↔ bl.length < 2 ^ 30) :=
  ⟨armor_exact_iff src width, unarmor_respects_iff text, decode_encode_iff h⟩

/-- `Zm9v` with a line break behind it stands for `foo`. -/
theorem base64_exact_foo :
    ArmorExact [102, 111, 111] 4 ∧ UnarmorExact [90, 109, 57, 118, 10] ∧
      (encodeBase64 [102, 111, 111]).bind decodeBase64 = some [102, 111, 111] := by
  have h := base64_exact_iff [102, 111, 111] [90, 109, 57, 118, 10] [102, 111, 111] 4 (by decide)
  exact ⟨h.1.mpr (by decide), h.2.1.mpr (by decide), h.2.2.mpr (by decide)⟩

/-- A list of 2^30 zero bytes: its base64 form is shorter than 2^31 bytes, and it
does not come back. -/
theorem not_base64_exact :
    ¬ ∀ bl : Bytes, (armored 0 0 bl).length < 2 ^ 31 →
      (encodeBase64 bl).bind decodeBase64 = some bl := by
  intro hall
  have hlen : (armored 0 0 (List.replicate (2 ^ 30) 0)).length < 2 ^ 31 := by
    rw [length_armored_zero, List.length_replicate]
    decide
  have hback := (decode_encode_iff hlen).mp (hall _ hlen)
  rw [List.length_replicate] at hback
  exact absurd hback (by decide)

end Clab.Common.Armor
