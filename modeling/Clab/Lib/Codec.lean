import Mathlib

/-!
# Byte codecs

Encoders produce byte lists; decoders consume a prefix of one and may run out
of input. `Decodes d bs x` says that `d` reads exactly `bs` and yields `x`,
whatever follows; it composes along `>>=`, so the round trip of a composite
encoding is the composition of the round trips of its fields.
-/

namespace Clab.Codec

/-- A decoder: reads a prefix of the input, or fails for lack of bytes. -/
abbrev Decoder (α : Type) := StateT (List UInt8) Option α

/-- `d` reads exactly `bs`, yielding `x`, whatever input follows. -/
def Decodes {α : Type} (d : Decoder α) (bs : List UInt8) (x : α) : Prop :=
  ∀ rest, d.run (bs ++ rest) = some (x, rest)

theorem Decodes.pure {α : Type} (x : α) : Decodes (Pure.pure x : Decoder α) [] x :=
  fun _ => rfl

theorem Decodes.bind {α β : Type} {d : Decoder α} {f : α → Decoder β}
    {bs cs : List UInt8} {x : α} {y : β} (hd : Decodes d bs x)
    (hf : Decodes (f x) cs y) : Decodes (d >>= f) (bs ++ cs) y := by
  intro rest
  rw [List.append_assoc, StateT.run_bind, hd (cs ++ rest)]
  exact hf rest

/-- The last step of a decoder: read one more field and return. -/
theorem Decodes.map {α β : Type} {d : Decoder α} {g : α → β} {bs : List UInt8} {x : α}
    (hd : Decodes d bs x) : Decodes (d >>= fun a => Pure.pure (g a)) bs (g x) := by
  have h := hd.bind (f := fun a => Pure.pure (g a)) (Decodes.pure (g x))
  rwa [List.append_nil] at h

/-! ## Raw bytes -/

/-- Read `n` bytes. -/
def takeBytes (n : Nat) : Decoder (List UInt8) := fun bs =>
  if n ≤ bs.length then some (bs.take n, bs.drop n) else none

theorem takeBytes_decodes (bs : List UInt8) : Decodes (takeBytes bs.length) bs bs := by
  intro rest
  show takeBytes bs.length (bs ++ rest) = _
  simp [takeBytes]

theorem takeBytes_eq_some {n : Nat} {bs x rest : List UInt8}
    (h : (takeBytes n).run bs = some (x, rest)) : bs = x ++ rest ∧ x.length = n := by
  change takeBytes n bs = _ at h
  unfold takeBytes at h
  split at h
  · cases h
    exact ⟨(List.take_append_drop n bs).symm, by simp [*]⟩
  · cases h

/-! ## Little-endian integers -/

/-- The low `w` bytes of `n`, least significant first. -/
def leBytes : Nat → Nat → List UInt8
  | 0, _ => []
  | w + 1, n => UInt8.ofNat (n % 256) :: leBytes w (n / 256)

/-- The number little-endian bytes spell. -/
def leNat : List UInt8 → Nat
  | [] => 0
  | b :: bs => b.toNat + 256 * leNat bs

@[simp] theorem leBytes_length (w n : Nat) : (leBytes w n).length = w := by
  induction w generalizing n with
  | zero => rfl
  | succ w ih => simp [leBytes, ih]

theorem leNat_leBytes (w n : Nat) : leNat (leBytes w n) = n % 256 ^ w := by
  induction w generalizing n with
  | zero => simp [leBytes, leNat, Nat.mod_one]
  | succ w ih =>
    have hbyte : (UInt8.ofNat (n % 256)).toNat = n % 256 := by simp
    rw [leBytes, leNat, ih, hbyte, Nat.pow_succ, Nat.mul_comm (256 ^ w) 256, Nat.mod_mul]

theorem leNat_leBytes_of_lt {w n : Nat} (h : n < 256 ^ w) : leNat (leBytes w n) = n := by
  rw [leNat_leBytes, Nat.mod_eq_of_lt h]

/-- Read a little-endian integer of `w` bytes. -/
def getLe (w : Nat) : Decoder Nat := do
  let bs ← takeBytes w
  return leNat bs

theorem getLe_decodes {w n : Nat} (h : n < 256 ^ w) : Decodes (getLe w) (leBytes w n) n := by
  have ht := takeBytes_decodes (leBytes w n)
  rw [leBytes_length] at ht
  have := Decodes.map (g := leNat) ht
  rwa [leNat_leBytes_of_lt h] at this

/-! ## Decoders on arbitrary input -/

/-- On `bs`, `d` takes the first `n` bytes, or fails when there are fewer. -/
def Takes {α : Type} (d : Decoder α) (bs : List UInt8) (n : Nat) : Prop :=
  (n ≤ bs.length → ∃ x, d.run bs = some (x, bs.drop n)) ∧ (bs.length < n → d.run bs = none)

theorem Takes.pure {α : Type} (x : α) (bs : List UInt8) :
    Takes (Pure.pure x : Decoder α) bs 0 :=
  ⟨fun _ => ⟨x, rfl⟩, fun h => absurd h (Nat.not_lt_zero _)⟩

theorem Takes.bind {α β : Type} {d : Decoder α} {f : α → Decoder β} {bs : List UInt8}
    {m n : Nat} (hd : Takes d bs m)
    (hf : ∀ x, d.run bs = some (x, bs.drop m) → Takes (f x) (bs.drop m) n) :
    Takes (d >>= f) bs (m + n) := by
  by_cases hm : m ≤ bs.length
  · obtain ⟨x, hx⟩ := hd.1 hm
    have hrun : (d >>= f).run bs = (f x).run (bs.drop m) := by
      rw [StateT.run_bind, hx]
      rfl
    obtain ⟨hsome, hnone⟩ := hf x hx
    rw [List.length_drop] at hsome hnone
    constructor
    · intro h
      obtain ⟨y, hy⟩ := hsome (by omega)
      rw [List.drop_drop] at hy
      exact ⟨y, hrun.trans hy⟩
    · intro h
      exact hrun.trans (hnone (by omega))
  · have hrun : (d >>= f).run bs = none := by
      rw [StateT.run_bind, hd.2 (by omega)]
      rfl
    exact ⟨fun h => absurd h (by omega), fun _ => hrun⟩

/-- The last step of a decoder takes nothing more. -/
theorem Takes.map {α β : Type} {d : Decoder α} {g : α → β} {bs : List UInt8} {n : Nat}
    (hd : Takes d bs n) : Takes (d >>= fun a => Pure.pure (g a)) bs n :=
  by
  have h := hd.bind fun x _ => Takes.pure (g x) (bs.drop n)
  rwa [Nat.add_zero] at h

theorem takeBytes_takes (n : Nat) (bs : List UInt8) : Takes (takeBytes n) bs n := by
  have hrun : (takeBytes n).run bs =
      if n ≤ bs.length then some (bs.take n, bs.drop n) else none := rfl
  constructor
  · intro h
    exact ⟨bs.take n, by rw [hrun, if_pos h]⟩
  · intro h
    rw [hrun, if_neg (by omega)]

theorem getLe_takes (w : Nat) (bs : List UInt8) : Takes (getLe w) bs w :=
  (takeBytes_takes w bs).map

/-- An integer is spelled by the bytes taken for it. -/
theorem getLe_eq {w n : Nat} {bs rest : List UInt8} (h : (getLe w).run bs = some (n, rest)) :
    n = leNat (bs.take w) := by
  change (takeBytes w bs >>= _) = _ at h
  unfold takeBytes at h
  split at h
  · cases h
    rfl
  · cases h

/-- What every value `d` yields has. -/
def Yields {α : Type} (d : Decoder α) (P : α → Prop) : Prop :=
  ∀ bs x rest, d.run bs = some (x, rest) → P x

theorem Yields.pure {α : Type} {P : α → Prop} {x : α} (h : P x) :
    Yields (Pure.pure x : Decoder α) P := by
  intro bs y rest hrun
  cases hrun
  exact h

theorem Yields.bind {α β : Type} {d : Decoder α} {f : α → Decoder β} {P : β → Prop}
    (hf : ∀ x, Yields (f x) P) : Yields (d >>= f) P := by
  intro bs y rest hrun
  rw [StateT.run_bind] at hrun
  cases hd : d.run bs with
  | none =>
      rw [hd] at hrun
      cases hrun
  | some out =>
      rw [hd] at hrun
      exact hf out.1 out.2 y rest hrun

/-! ## Sequences of encodings -/

/-- Read values until the input runs out, at most `fuel` of them. -/
def decodeAll {α : Type} (d : Decoder α) : Nat → List UInt8 → Option (List α)
  | _, [] => some []
  | 0, _ :: _ => none
  | fuel + 1, b :: bs => do
      let (x, rest) ← d.run (b :: bs)
      let xs ← decodeAll d fuel rest
      return x :: xs

theorem decodeAll_cons {α : Type} {d : Decoder α} {fuel : Nat} {bs rest : List UInt8} {x : α}
    (hne : bs ≠ []) (hd : d.run bs = some (x, rest)) :
    decodeAll d (fuel + 1) bs = (decodeAll d fuel rest).map (x :: ·) := by
  cases bs with
  | nil => exact absurd rfl hne
  | cons b bs =>
      rw [decodeAll, hd]
      cases h : decodeAll d fuel rest <;> simp [h]

/-- Nonempty encodings one after the other are read back one by one. -/
theorem decodeAll_flatMap {α β : Type} {d : Decoder α} {enc : β → List UInt8} {val : β → α}
    {xs : List β} (hne : ∀ x ∈ xs, enc x ≠ []) (hd : ∀ x ∈ xs, Decodes d (enc x) (val x))
    {fuel : Nat} (hfuel : xs.length ≤ fuel) :
    decodeAll d fuel (xs.flatMap enc) = some (xs.map val) := by
  induction xs generalizing fuel with
  | nil => cases fuel <;> rfl
  | cons x xs ih =>
      obtain ⟨fuel, rfl⟩ : ∃ n, fuel = n + 1 := ⟨fuel - 1, by simp at hfuel; omega⟩
      rw [List.flatMap_cons, decodeAll_cons
        (List.append_ne_nil_of_left_ne_nil (hne x List.mem_cons_self) _)
        (hd x List.mem_cons_self _)]
      rw [ih (fun y hy => hne y (List.mem_cons_of_mem _ hy))
        (fun y hy => hd y (List.mem_cons_of_mem _ hy)) (Nat.le_of_succ_le_succ hfuel)]
      rfl

/-- As many values as were encoded are read back, whatever follows them. -/
theorem Decodes.replicateM {α β : Type} {d : Decoder α} {enc : β → List UInt8} {val : β → α}
    {xs : List β} (hd : ∀ x ∈ xs, Decodes d (enc x) (val x)) :
    Decodes (xs.mapM fun _ => d) (xs.flatMap enc) (xs.map val) := by
  induction xs with
  | nil => exact Decodes.pure []
  | cons x xs ih =>
      rw [List.mapM_cons]
      exact (hd x List.mem_cons_self).bind
        (Decodes.map (ih fun y hy => hd y (List.mem_cons_of_mem _ hy)))

/-- What a decoder reads whatever follows is not a proper prefix of another
thing it reads, and spells one value. -/
theorem Decodes.eq_of_isPrefix {α : Type} {d : Decoder α} {bs cs : List UInt8} {x y : α}
    (hx : Decodes d bs x) (hy : Decodes d cs y) (h : bs <+: cs) : bs = cs ∧ x = y := by
  obtain ⟨rest, rfl⟩ := h
  have hrun := (hx rest).symm.trans ((List.append_nil _).symm ▸ hy [])
  injection hrun with hpair
  injection hpair with hval hrest
  subst hrest
  exact ⟨(List.append_nil bs).symm, hval⟩

/-! ## Big-endian integers -/

/-- The low `w` bytes of `n`, most significant first. -/
def beBytes : Nat → Nat → List UInt8
  | 0, _ => []
  | w + 1, n => UInt8.ofNat (n / 256 ^ w % 256) :: beBytes w n

/-- The number big-endian bytes spell. -/
def beNat : List UInt8 → Nat
  | [] => 0
  | b :: bs => b.toNat * 256 ^ bs.length + beNat bs

@[simp] theorem beBytes_length (w n : Nat) : (beBytes w n).length = w := by
  induction w with
  | zero => rfl
  | succ w ih => simp [beBytes, ih]

theorem beNat_beBytes (w n : Nat) : beNat (beBytes w n) = n % 256 ^ w := by
  induction w with
  | zero => simp [beBytes, beNat, Nat.mod_one]
  | succ w ih =>
      have hbyte : (UInt8.ofNat (n / 256 ^ w % 256)).toNat = n / 256 ^ w % 256 := by simp
      rw [beBytes, beNat, ih, hbyte, beBytes_length, Nat.pow_succ, Nat.mod_mul, Nat.mul_comm,
        Nat.add_comm]

theorem beBytes_mod (w n : Nat) {m : Nat} (h : w ≤ m) : beBytes w (n % 256 ^ m) = beBytes w n := by
  induction w with
  | zero => rfl
  | succ w ih =>
      have hdiv : n % 256 ^ m / 256 ^ w % 256 = n / 256 ^ w % 256 := by
        obtain ⟨k, rfl⟩ := Nat.exists_eq_add_of_le h
        have : 256 ^ (w + 1 + k) = 256 ^ w * (256 * 256 ^ k) := by ring
        rw [this, Nat.mod_mul_right_div_self, Nat.mod_mul_right_mod]
      rw [beBytes, beBytes, hdiv, ih (by omega)]

/-- Big-endian bytes compare as the numbers do. -/
theorem beBytes_lt {w a b : Nat} (hab : a < b) (hb : b < 256 ^ w) : beBytes w a < beBytes w b := by
  induction w generalizing a b with
  | zero => omega
  | succ w ih =>
      have hpos : 0 < 256 ^ w := Nat.pow_pos (by decide)
      rw [Nat.pow_succ, Nat.mul_comm] at hb
      have hqb : b / 256 ^ w < 256 := (Nat.div_lt_iff_lt_mul hpos).mpr hb
      have hqa : a / 256 ^ w ≤ b / 256 ^ w := Nat.div_le_div_right hab.le
      rw [beBytes, beBytes, Nat.mod_eq_of_lt hqb, Nat.mod_eq_of_lt (by omega)]
      rcases Nat.lt_or_eq_of_le hqa with hlt | heq
      · refine List.cons_lt_cons_iff.mpr (.inl ?_)
        rwa [UInt8.lt_iff_toNat_lt, UInt8.toNat_ofNat', UInt8.toNat_ofNat',
          Nat.mod_eq_of_lt (by omega), Nat.mod_eq_of_lt hqb]
      · rw [heq]
        refine List.cons_lt_cons_self.mpr ?_
        rw [← beBytes_mod w a le_rfl, ← beBytes_mod w b le_rfl]
        refine ih ?_ (Nat.mod_lt _ hpos)
        have ha := Nat.div_add_mod a (256 ^ w)
        have hb := Nat.div_add_mod b (256 ^ w)
        rw [heq] at ha
        omega

end Clab.Codec
