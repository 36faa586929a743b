import Mathlib

/-!
# JSON

A reader of JSON texts, after the grammar of RFC 8259: a text stands for one value at
most. A text and its strings are bytes; that those from 128 on make up characters of
UTF-8 is not asked. The members of an object stay in their order, with names that
occur more than once.
-/

namespace Clab.Json

abbrev Text := List UInt8

inductive Value where
  | null
  | bool (b : Bool)
  | number (q : ℚ)
  | string (s : Text)
  | array (items : List Value)
  | object (members : List (Text × Value))

/-! ## White space -/

def isSpace (c : UInt8) : Bool := c = 32 || c = 9 || c = 10 || c = 13

def skipWs (s : Text) : Text := s.dropWhile isSpace

/-! ## Strings -/

def hexDigit (c : UInt8) : Option Nat :=
  if 48 ≤ c ∧ c ≤ 57 then some (c.toNat - 48)
  else if 65 ≤ c ∧ c ≤ 70 then some (c.toNat - 55)
  else if 97 ≤ c ∧ c ≤ 102 then some (c.toNat - 87)
  else none

/-- Four digits, and the text behind them. -/
def hex4 : Text → Option (Nat × Text)
  | a :: b :: c :: d :: s => do
      let a ← hexDigit a
      let b ← hexDigit b
      let c ← hexDigit c
      let d ← hexDigit d
      return (((a * 16 + b) * 16 + c) * 16 + d, s)
  | _ => none

/-- The bytes of a character. -/
def utf8 (n : Nat) : Text :=
  if n < 0x80 then [UInt8.ofNat n]
  else if n < 0x800 then [UInt8.ofNat (0xC0 + n / 64), UInt8.ofNat (0x80 + n % 64)]
  else if n < 0x10000 then
    [UInt8.ofNat (0xE0 + n / 4096), UInt8.ofNat (0x80 + n / 64 % 64),
      UInt8.ofNat (0x80 + n % 64)]
  else
    [UInt8.ofNat (0xF0 + n / 262144), UInt8.ofNat (0x80 + n / 4096 % 64),
      UInt8.ofNat (0x80 + n / 64 % 64), UInt8.ofNat (0x80 + n % 64)]

/-- The character behind `\u`. A character beyond the first 2^16 is written as a pair of halves;
a half alone stands for none. -/
def unicode (s : Text) : Option (Text × Text) := do
  let (high, s) ← hex4 s
  if 0xD800 ≤ high ∧ high < 0xDC00 then
    if s.take 2 = [92, 117] then
      let (low, s) ← hex4 (s.drop 2)
      if 0xDC00 ≤ low ∧ low < 0xE000 then
        return (utf8 (0x10000 + (high - 0xD800) * 0x400 + (low - 0xDC00)), s)
      else none
    else none
  else if 0xDC00 ≤ high ∧ high < 0xE000 then none
  else return (utf8 high, s)

/-- What stands behind a backslash. -/
def escape : Text → Option (Text × Text)
  | [] => none
  | c :: s =>
      if c = 34 ∨ c = 92 ∨ c = 47 then some ([c], s)
      else if c = 98 then some ([8], s)
      else if c = 102 then some ([12], s)
      else if c = 110 then some ([10], s)
      else if c = 114 then some ([13], s)
      else if c = 116 then some ([9], s)
      else if c = 117 then unicode s
      else none

/-- A string behind its first quote; `n` bounds the recursion. -/
def readString : Nat → Text → Option (Text × Text)
  | 0, _ => none
  | _ + 1, [] => none
  | n + 1, c :: s =>
      if c = 34 then some ([], s)
      else if c = 92 then
        (escape s).bind fun e => (readString n e.2).map fun r => (e.1 ++ r.1, r.2)
      else if c < 32 then none
      else (readString n s).map fun r => (c :: r.1, r.2)

/-! ## Numbers -/

def isDigit (c : UInt8) : Bool := decide (48 ≤ c ∧ c ≤ 57)

def natOf (ds : Text) : Nat := ds.foldl (fun a c => 10 * a + (c.toNat - 48)) 0

/-- One digit or more, and the text behind them. -/
def readDigits (s : Text) : Option (Text × Text) :=
  if s.takeWhile isDigit = [] then none else some (s.takeWhile isDigit, s.dropWhile isDigit)

/-- Digits without a zero in front. -/
def readInt (s : Text) : Option (Text × Text) :=
  (readDigits s).bind fun r => if r.1.head? = some 48 ∧ r.1 ≠ [48] then none else some r

def readFraction : Text → Option (Text × Text)
  | [] => some ([], [])
  | c :: s => if c = 46 then readDigits s else some ([], c :: s)

def readSign (s : Text) : Bool × Text :=
  if s.head? = some 45 then (true, s.tail) else (false, s)

def readExponent : Text → Option (Int × Text)
  | [] => some (0, [])
  | c :: s =>
      if c = 101 ∨ c = 69 then
        if s.head? = some 43 then (readDigits s.tail).map fun r => ((natOf r.1 : Int), r.2)
        else
          (readDigits (readSign s).2).map fun r =>
            (if (readSign s).1 then -(natOf r.1 : Int) else (natOf r.1 : Int), r.2)
      else some (0, c :: s)

def readNumber (s : Text) : Option (ℚ × Text) := do
  let (whole, t) ← readInt (readSign s).2
  let (fraction, t) ← readFraction t
  let (e, t) ← readExponent t
  let x : ℚ := natOf (whole ++ fraction) / 10 ^ fraction.length * 10 ^ e
  return (if (readSign s).1 then -x else x, t)

/-! ## Values -/

/-- The elements up to `close`, with commas between them; `first` says that none was read. -/
def elements {α : Type} (close : UInt8) (read : Text → Option (α × Text)) :
    Nat → Bool → Text → Option (List α × Text)
  | 0, _, _ => none
  | n + 1, first, s =>
      match skipWs s with
      | [] => none
      | c :: rest =>
          if c = close then some ([], rest)
          else
            (if first then some (c :: rest) else if c = 44 then some rest else none).bind fun t =>
              (read t).bind fun x =>
                (elements close read n false x.2).map fun xs => (x.1 :: xs.1, xs.2)

/-- A string and what follows a colon behind it. -/
def member {α : Type} (read : Text → Option (α × Text)) (s : Text) :
    Option ((Text × α) × Text) :=
  match skipWs s with
  | [] => none
  | c :: s =>
      if c = 34 then
        (readString (s.length + 1) s).bind fun key =>
          match skipWs key.2 with
          | [] => none
          | c :: t => if c = 58 then (read t).map fun x => ((key.1, x.1), x.2) else none
      else none

def literal (word : Text) (v : Value) (s : Text) : Option (Value × Text) :=
  if s.take word.length = word then some (v, s.drop word.length) else none

/-- A value; `n` bounds the recursion. -/
def readValue : Nat → Text → Option (Value × Text)
  | 0, _ => none
  | n + 1, s =>
      match skipWs s with
      | [] => none
      | c :: t =>
          if c = 123 then
            (elements 125 (member (readValue n)) (t.length + 1) true t).map fun r =>
              (.object r.1, r.2)
          else if c = 91 then
            (elements 93 (readValue n) (t.length + 1) true t).map fun r => (.array r.1, r.2)
          else if c = 34 then
            (readString (t.length + 1) t).map fun r => (.string r.1, r.2)
          else if c = 116 then literal [116, 114, 117, 101] (.bool true) (c :: t)
          else if c = 102 then literal [102, 97, 108, 115, 101] (.bool false) (c :: t)
          else if c = 110 then literal [110, 117, 108, 108] .null (c :: t)
          else (readNumber (c :: t)).map fun r => (.number r.1, r.2)

/-- The value that a text stands for. -/
def parse (text : Text) : Option Value :=
  (readValue (text.length + 1) text).bind fun r => if skipWs r.2 = [] then some r.1 else none

end Clab.Json
