import Clab.Common.ByteString

/-!
# Text

Literals, and numbers as a stream prints them.
-/

namespace Clab.Common

/-- The bytes of an ASCII literal. -/
def ascii (s : String) : Bytes := s.toList.map fun c => UInt8.ofNat c.toNat

/-- A string taken by its `c_str`. -/
def cStr (bs : Bytes) : Bytes := bs.takeWhile (· ≠ 0)

/-- An unsigned number as a stream prints it. -/
def decimal (n : Nat) : Bytes := (Nat.toDigits 10 n).map fun c => UInt8.ofNat c.toNat

/-- A signed number as a stream prints it. -/
def decimalInt (x : Int) : Bytes :=
  if x < 0 then 45 :: decimal x.natAbs else decimal x.natAbs

/-- `'0'` to `'9'`. -/
def isDigit (c : UInt8) : Bool := decide (48 ≤ c ∧ c ≤ 57)

theorem decimal_ne_nil (n : Nat) : decimal n ≠ [] := by
  unfold decimal
  rw [ne_eq, List.map_eq_nil_iff]
  exact Nat.toDigits_ne_nil

theorem decimal_digits {n : Nat} {c : UInt8} (hc : c ∈ decimal n) : isDigit c = true := by
  obtain ⟨d, hd, rfl⟩ := List.mem_map.mp hc
  have hdigit := Nat.isDigit_of_mem_toDigits (by decide) (by decide) hd
  rw [Char.isDigit, Bool.and_eq_true, decide_eq_true_eq, decide_eq_true_eq] at hdigit
  have hlow : 48 ≤ d.toNat := hdigit.1
  have hhigh : d.toNat ≤ 57 := hdigit.2
  have hval : (UInt8.ofNat d.toNat).toNat = d.toNat := by
    rw [UInt8.toNat_ofNat']
    omega
  rw [isDigit, decide_eq_true_eq, UInt8.le_iff_toNat_le, UInt8.le_iff_toNat_le, hval]
  exact ⟨hlow, hhigh⟩

/-- The number that digits stand for. -/
def digitsValue (t : Bytes) : Nat := t.foldl (fun a c => 10 * a + (c.toNat - 48)) 0

theorem digitsValue_decimal (n : Nat) : digitsValue (decimal n) = n := by
  have hfold : ∀ (cs : List Char) (a : Nat), (∀ c ∈ cs, c.toNat < 256) →
      (cs.map fun c => UInt8.ofNat c.toNat).foldl (fun a c => 10 * a + (c.toNat - 48)) a =
        Nat.ofDigitChars 10 cs a := by
    intro cs
    induction cs with
    | nil => intro a _; rfl
    | cons c cs ih =>
        intro a hcs
        have hc := hcs c List.mem_cons_self
        rw [List.map_cons, List.foldl_cons, ih _ fun d hd => hcs d (List.mem_cons_of_mem _ hd)]
        have hbyte : (UInt8.ofNat c.toNat).toNat = c.toNat := by
          rw [UInt8.toNat_ofNat']
          omega
        rw [hbyte]
        rfl
  have hsmall : ∀ c ∈ Nat.toDigits 10 n, c.toNat < 256 := by
    intro c hc
    have hdigit := Nat.isDigit_of_mem_toDigits (by decide) (by decide) hc
    rw [Char.isDigit, Bool.and_eq_true, decide_eq_true_eq, decide_eq_true_eq] at hdigit
    have hhigh : c.toNat ≤ 57 := hdigit.2
    omega
  rw [digitsValue, decimal, hfold _ _ hsmall]
  exact Nat.ofDigitChars_ten_toDigits

/-- A number is printed without a zero in front. -/
theorem decimal_head (n : Nat) (h : (decimal n).head? = some 48) : decimal n = [48] := by
  induction n using Nat.strong_induction_on with
  | _ n ih =>
      rcases Nat.lt_or_ge n 10 with hsmall | hbig
      · have hone : ∀ n < 10, (decimal n).head? = some 48 → decimal n = [48] := by decide
        exact hone n hsmall h
      · -- the first digit is that of a tenth, which is not zero
        have hdigits : decimal n = decimal (n / 10) ++ decimal (n % 10) := by
          unfold decimal
          rw [Nat.toDigits_of_base_le (by decide) hbig,
            Nat.toDigits_of_lt_base (Nat.mod_lt n (by decide)), List.map_append]
        obtain ⟨c, t, hct⟩ := List.exists_cons_of_ne_nil (decimal_ne_nil (n / 10))
        have hhead : (decimal (n / 10)).head? = some 48 := by
          rw [hdigits, hct] at h
          rw [hct]
          exact h
        have hzero := ih (n / 10) (by omega) hhead
        have hvalue := digitsValue_decimal (n / 10)
        rw [hzero] at hvalue
        have htenth : n / 10 = 0 := hvalue.symm
        omega

end Clab.Common
