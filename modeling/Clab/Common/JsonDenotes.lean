import Clab.Common.JsonFormatter

/-!
# What the formatter's text stands for

Each call leaves, once the value that was announced is written, a text one value longer. Names
are written as they are, so the text stands for what was told if and only if no name of a member
needs an escape, and nothing was announced before the reset.
-/

namespace Clab.Common

open Json (Value TextOf ListText StringText PlainName PlainChar Spaces readValue member)

/-! ## Values as texts -/

theorem hexDigit_hexDigit {d : UInt8} (hd : d < 16) :
    Json.hexDigit (hexDigit d) = some d.toNat := by
  have hall : ∀ n < 16, Json.hexDigit (hexDigit (UInt8.ofNat n)) = some n := by decide
  have h := hall d.toNat hd
  rwa [UInt8.ofNat_toNat] at h

theorem escape_hex {c : UInt8} (hc : c < 32 ∨ c = 127) (t : Bytes) :
    Json.escape (117 :: 48 :: 48 :: hexDigit (c / 16) :: hexDigit (c % 16) :: t) =
      some ([c], t) := by
  have hsmall : c.toNat < 128 := by
    rcases hc with hc | rfl
    · have : c.toNat < 32 := hc
      omega
    · decide
  have h16 : (16 : UInt8).toNat = 16 := rfl
  have hhigh : c / 16 < 16 := by
    rw [UInt8.lt_iff_toNat_lt, UInt8.toNat_div, h16]
    omega
  have hlow : c % 16 < 16 := by
    rw [UInt8.lt_iff_toNat_lt, UInt8.toNat_mod]
    exact Nat.mod_lt _ (by decide)
  have hzero : Json.hexDigit 48 = some 0 := rfl
  have hvalue : ((0 * 16 + 0) * 16 + (c / 16).toNat) * 16 + (c % 16).toNat = c.toNat := by
    rw [UInt8.toNat_div, UInt8.toNat_mod, h16]
    omega
  have hfour : Json.hex4 (48 :: 48 :: hexDigit (c / 16) :: hexDigit (c % 16) :: t) =
      some (c.toNat, t) := by
    simp only [Json.hex4, hexDigit_hexDigit hhigh, hexDigit_hexDigit hlow, hzero,
      Option.bind_eq_bind, Option.bind_some, Option.pure_def, hvalue]
  have hutf8 : Json.utf8 c.toNat = [c] := by
    rw [Json.utf8, if_pos (by omega), UInt8.ofNat_toNat]
  change Json.unicode _ = _
  simp only [Json.unicode, hfour, Option.bind_eq_bind, Option.bind_some, hutf8, Option.pure_def]
  rw [if_neg (by omega), if_neg (by omega)]

theorem readString_hex {c : UInt8} (hc : c < 32 ∨ c = 127) (n : Nat) (t : Bytes) :
    Json.readString (n + 1) ([92, 117, 48, 48, hexDigit (c / 16), hexDigit (c % 16)] ++ t) =
      (Json.readString n t).map fun r => ([c] ++ r.1, r.2) := by
  simp only [List.cons_append, List.nil_append]
  rw [Json.readString, if_neg (by decide), if_pos rfl, escape_hex hc]
  rfl

theorem stringText_escaped (s : Bytes) : StringText (s.flatMap jsonEscape) s := by
  induction s with
  | nil => exact Json.stringText_nil
  | cons c s ih =>
      rw [List.flatMap_cons]
      have hescape : jsonEscape c ≠ [] ∧ ∀ n t, Json.readString (n + 1) (jsonEscape c ++ t) =
          (Json.readString n t).map fun r => ([c] ++ r.1, r.2) := by
        unfold jsonEscape
        split
        · next h => subst h; exact ⟨List.cons_ne_nil _ _, fun _ _ => rfl⟩
        split
        · next h => subst h; exact ⟨List.cons_ne_nil _ _, fun _ _ => rfl⟩
        split
        · next h => subst h; exact ⟨List.cons_ne_nil _ _, fun _ _ => rfl⟩
        split
        · next h => subst h; exact ⟨List.cons_ne_nil _ _, fun _ _ => rfl⟩
        split
        · next h => exact ⟨List.cons_ne_nil _ _, readString_hex h⟩
        · next hquote hslash _ _ hcontrol =>
          have hplain : PlainChar c :=
            ⟨UInt8.not_lt.mp fun h => hcontrol (.inl h), hquote, hslash⟩
          exact ⟨List.cons_ne_nil _ _, Json.readString_plain hplain⟩
      exact ih.append hescape.1 hescape.2

theorem textOf_quoted (s : Bytes) : TextOf readValue (quoted s) (.string s) True :=
  (stringText_escaped s).textOf

theorem numeral_decimal (n : Nat) : Json.Numeral (decimal n) where
  digits _ hc := decimal_digits hc
  ne_nil := decimal_ne_nil n
  zero := decimal_head n

theorem textOf_decimal (n : Nat) : TextOf readValue (decimal n) (.number n) True := by
  have h := (numeral_decimal n).textOf false
  rw [show Json.natOf (decimal n) = n from digitsValue_decimal n] at h
  exact h

theorem textOf_decimalInt (x : Int) : TextOf readValue (decimalInt x) (.number x) True := by
  have h := fun negative => (numeral_decimal x.natAbs).textOf negative
  rw [show Json.natOf (decimal x.natAbs) = x.natAbs from digitsValue_decimal _] at h
  unfold decimalInt
  split
  · have hcast : ((-(x.natAbs : Int) : Int) : ℚ) = x := congrArg _ (by omega)
    rw [Int.cast_neg, Int.cast_natCast] at hcast
    rw [← hcast]
    exact h true
  · have hcast : ((x.natAbs : Int) : ℚ) = x := congrArg _ (by omega)
    rw [Int.cast_natCast] at hcast
    rw [← hcast]
    exact h false

/-! ## The condition on the names -/

mutual

/-- No name of a member in the value needs an escape. -/
def PlainNames : Value → Prop
  | .array items => PlainItems items
  | .object members => PlainMembers members
  | _ => True

def PlainItems : List Value → Prop
  | [] => True
  | v :: vs => PlainNames v ∧ PlainItems vs

def PlainMembers : List (Bytes × Value) → Prop
  | [] => True
  | (name, v) :: ms => (PlainName name ∧ PlainNames v) ∧ PlainMembers ms

end

/-- The condition on what stands in a section; the names in an array are not written. -/
def PlainSection (isArray : Bool) (values : List (Bytes × Value)) : Prop :=
  if isArray then PlainItems (values.map Prod.snd) else PlainMembers values

/-- A text of the values of a section. -/
def SectionText (isArray first : Bool) (t : Bytes) (values : List (Bytes × Value))
    (p : Prop) : Prop :=
  if isArray then ListText readValue 93 first t (values.map Prod.snd) p
  else ListText (fun n => member (readValue n)) 125 first t values p

namespace JSONFormatter

/-! ## Names -/

/-- White space in front of a value, and behind a colon. -/
def gap (f : JSONFormatter) : Bytes :=
  if f.pretty then 10 :: (f.indent ++ List.replicate 4 32) else []

def colonGap (f : JSONFormatter) : Bytes := if f.pretty then [32] else []

/-- What stands in front of a value that is the next in `entry`. -/
def before (f : JSONFormatter) (entry : JsonEntry) (name : Bytes) : Bytes :=
  (if decide (entry.size = 0) then f.gap else 44 :: f.gap) ++
    if entry.isArray then [] else 34 :: (name ++ 34 :: 58 :: f.colonGap)

theorem putName_eq {f : JSONFormatter} {entry : JsonEntry} {stack : List JsonEntry}
    (hstack : f.stack = entry :: stack) (name : Bytes) :
    f.putName name =
      { f with
        ss := f.ss ++ f.before entry name
        stack := { entry with size := entry.size + 1 } :: stack } := by
  obtain ⟨pretty, ss, pendingString, pendingName, stack', isPending, lineBreak⟩ := f
  obtain ⟨size, isArray⟩ := entry
  simp only at hstack
  subst hstack
  cases pretty <;> cases isArray <;> by_cases hsize : size = 0 <;>
    simp [putName, printComma, put, before, gap, colonGap, indent, hsize]

theorem putName_nil {f : JSONFormatter} (hstack : f.stack = []) (name : Bytes) :
    f.putName name = f := by
  rw [putName, hstack]

/-! ## Announced values -/

theorem finish_of_not {f : JSONFormatter} (h : f.isPendingString = false) :
    f.finishPendingString = f := by
  rw [finishPendingString, h]
  rfl

/-- What was announced is written into the section on top. -/
theorem finish_cons {f : JSONFormatter} (h : f.isPendingString = true) {entry : JsonEntry}
    {stack : List JsonEntry} (hstack : f.stack = entry :: stack) :
    f.finishPendingString =
      { f with
        isPendingString := false
        ss := f.ss ++ (f.before entry (cStr f.pendingName) ++ quoted f.pendingString)
        stack := { entry with size := entry.size + 1 } :: stack
        pendingString := [] } := by
  have hput := putName_eq (f := { f with isPendingString := false }) hstack (cStr f.pendingName)
  rw [finishPendingString, if_pos h]
  simp only [hput, putValue, put, if_true, List.append_assoc]
  rfl

/-- Where no section is open the string is written alone. -/
theorem finish_nil {f : JSONFormatter} (h : f.isPendingString = true) (hstack : f.stack = []) :
    f.finishPendingString =
      { f with
        isPendingString := false
        ss := f.ss ++ quoted f.pendingString
        pendingString := [] } := by
  have hput := putName_nil (f := { f with isPendingString := false }) hstack (cStr f.pendingName)
  rw [finishPendingString, if_pos h]
  simp only [hput, putValue, put, if_true]

theorem finish_cases (f : JSONFormatter) :
    f.finishPendingString.isPendingString = false ∧
      f.finishPendingString.stack.isEmpty = f.stack.isEmpty := by
  by_cases h : f.isPendingString = true
  · cases hstack : f.stack with
    | nil =>
        rw [finish_nil h hstack]
        exact ⟨rfl, congrArg List.isEmpty hstack⟩
    | cons entry stack =>
        rw [finish_cons h hstack]
        exact ⟨rfl, rfl⟩
  · rw [finish_of_not (by simpa using h)]
    exact ⟨by simpa using h, rfl⟩

theorem finish_finish (f : JSONFormatter) :
    f.finishPendingString.finishPendingString = f.finishPendingString :=
  finish_of_not (finish_cases f).1

/-- Every call first writes what was announced. -/
theorem apply_finish (f : JSONFormatter) (c : JsonCall) :
    f.finishPendingString.apply c = f.apply c := by
  cases c <;>
    simp only [apply, openSection, closeSection, dumpNull, dumpUnsigned, dumpInt, dumpString,
      dumpStream, addValue, printName, finish_finish, (finish_cases f).2]

/-- The formatter behind some calls, with what was announced written. -/
def settle (f : JSONFormatter) (calls : List JsonCall) : Option JSONFormatter :=
  (f.run calls).map finishPendingString

theorem settle_finish (f : JSONFormatter) (calls : List JsonCall) :
    f.finishPendingString.settle calls = f.settle calls := by
  cases calls with
  | nil => exact congrArg some (finish_finish f)
  | cons c calls =>
      unfold settle run
      rw [List.foldlM_cons, List.foldlM_cons, apply_finish]

theorem settle_append (f : JSONFormatter) (first second : List JsonCall) :
    f.settle (first ++ second) = (f.settle first).bind fun g => g.settle second := by
  simp only [settle, run, List.foldlM_append]
  cases h : first.foldlM apply f with
  | none => rfl
  | some g => exact (settle_finish g second).symm

theorem settle_singleton (f : JSONFormatter) (c : JsonCall) :
    f.settle [c] = (f.apply c).map finishPendingString := by
  rw [settle, run, List.foldlM_cons]
  cases f.apply c <;> rfl

/-- Nothing was announced that is still to be written. -/
structure Settled (f : JSONFormatter) : Prop where
  isPendingString : f.isPendingString = false
  pendingString : f.pendingString = []

theorem Settled.finish {f : JSONFormatter} (h : f.Settled) : f.finishPendingString = f :=
  finish_of_not h.isPendingString

/-! ## Calls within a section -/

/-- The formatter with `n` values and their text more in the section on top. -/
def grown (f : JSONFormatter) (entry : JsonEntry) (stack : List JsonEntry) (n : Nat) (t : Bytes)
    (pending : Bytes) : JSONFormatter :=
  { f with
    ss := f.ss ++ t
    stack := { entry with size := entry.size + n } :: stack
    pendingName := pending }

theorem Settled.grown {f : JSONFormatter} (h : f.Settled) (entry : JsonEntry)
    (stack : List JsonEntry) (n : Nat) (t pending : Bytes) :
    (f.grown entry stack n t pending).Settled :=
  ⟨h.isPendingString, h.pendingString⟩

/-- The calls add one value. -/
def AddsValue (calls : List JsonCall) (name : Bytes) (v : Value) : Prop :=
  ∀ (f : JSONFormatter) entry stack, f.Settled → f.stack = entry :: stack →
    ∃ t printed pending, printed <+: name ∧ (PlainName name → printed = name) ∧
      TextOf readValue t v (PlainNames v) ∧
      f.settle calls = some (f.grown entry stack 1 (f.before entry printed ++ t) pending)

/-- The calls add the values one by one. -/
def AddsValues (calls : List JsonCall) (values : List (Bytes × Value)) : Prop :=
  ∀ (f : JSONFormatter) entry stack, f.Settled → f.stack = entry :: stack →
    ∃ t pending,
      SectionText entry.isArray (decide (entry.size = 0)) t values
        (PlainSection entry.isArray values) ∧
      f.settle calls = some (f.grown entry stack values.length t pending)

theorem addsValues_nil : AddsValues [] [] := by
  intro f entry stack hf hstack
  refine ⟨[], f.pendingName, ?_, ?_⟩
  · unfold SectionText PlainSection
    split
    · exact .nil (.inl rfl) _
    · exact .nil (.inr rfl) _
  · change some f.finishPendingString = _
    rw [hf.finish]
    simp [grown, ← hstack]

theorem spaces_replicate (n : Nat) : Spaces (List.replicate n 32) := by
  intro c hc
  rw [List.eq_of_mem_replicate hc]
  rfl

theorem spaces_gap (f : JSONFormatter) : Spaces f.gap := by
  unfold gap
  split
  · intro c hc
    rcases List.mem_cons.mp hc with rfl | hc
    · rfl
    rcases List.mem_append.mp hc with hc | hc
    · exact spaces_replicate _ c hc
    · exact spaces_replicate _ c hc
  · intro c hc
    exact absurd hc List.not_mem_nil

theorem spaces_colonGap (f : JSONFormatter) : Spaces f.colonGap := by
  unfold colonGap
  split
  · intro c hc
    rw [List.mem_singleton.mp hc]
    rfl
  · intro c hc
    exact absurd hc List.not_mem_nil

/-- A value in front of the others. -/
theorem AddsValue.cons {first rest : List JsonCall} {name : Bytes} {v : Value}
    {values : List (Bytes × Value)} (hfirst : AddsValue first name v)
    (hrest : AddsValues rest values) : AddsValues (first ++ rest) ((name, v) :: values) := by
  intro f entry stack hf hstack
  obtain ⟨t, printed, pending, hpart, hprinted, ht, hsettle⟩ := hfirst f entry stack hf hstack
  obtain ⟨ts, pending', hts, hsettle'⟩ := hrest _ { entry with size := entry.size + 1 } stack
    (hf.grown entry stack 1 (f.before entry printed ++ t) pending) rfl
  refine ⟨f.before entry printed ++ t ++ ts, pending', ?_, ?_⟩
  · -- the text of the value, with its name where the section is an object
    simp only [Nat.add_eq_zero_iff, Nat.one_ne_zero, and_false, decide_false] at hts
    unfold SectionText PlainSection at hts ⊢
    unfold before
    cases harray : entry.isArray with
    | true =>
        rw [harray] at hts
        have h : ListText readValue 93 (decide (entry.size = 0)) _ _ _ :=
          .cons Json.skipsWs_readValue (.inl rfl) f.spaces_gap ht hts
        simpa [PlainItems] using h
    | false =>
        rw [harray] at hts
        have hmember := ht.member Json.skipsWs_readValue hpart hprinted f.spaces_colonGap
        have h : ListText (fun n => member (readValue n)) 125 (decide (entry.size = 0)) _ _ _ :=
          .cons (Json.skipsWs_member readValue) (.inr rfl) f.spaces_gap hmember hts
        simpa [PlainMembers] using h
  · rw [settle_append, hsettle, Option.bind_some, hsettle']
    simp [grown, Nat.add_assoc, Nat.add_comm 1]

/-- A call that writes its value at once. -/
theorem addsValue_of_addValue {c : JsonCall} {name val : Bytes} {quote : Bool} {v : Value}
    (hcall : ∀ f : JSONFormatter, f.apply c = some (f.addValue name val quote))
    (ht : TextOf readValue (if quote then quoted val else val) v True) (hv : PlainNames v) :
    AddsValue [c] name v := by
  intro f entry stack hf hstack
  refine ⟨if quote then quoted val else val, name, f.pendingName, List.prefix_rfl,
    fun _ => rfl, ?_, ?_⟩
  · rw [eq_true hv]
    exact ht
  · have hadd : f.addValue name val quote =
        f.grown entry stack 1 (f.before entry name ++ if quote then quoted val else val)
          f.pendingName := by
      rw [addValue, printName, hf.finish, putName_eq hstack, putValue, put]
      simp [grown]
    rw [settle_singleton, hcall, Option.map_some, hadd, (hf.grown _ _ _ _ _).finish]

theorem addsValue_null (name : Bytes) : AddsValue [.null name] name .null :=
  addsValue_of_addValue (fun _ => rfl) Json.textOf_null trivial

theorem addsValue_unsigned (name : Bytes) (u : UInt64) :
    AddsValue [.unsigned name u] name (.number u.toNat) :=
  addsValue_of_addValue (fun _ => rfl) (textOf_decimal u.toNat) trivial

theorem addsValue_int (name : Bytes) (s : Int64) :
    AddsValue [.int name s] name (.number s.toInt) :=
  addsValue_of_addValue (fun _ => rfl) (textOf_decimalInt s.toInt) trivial

theorem addsValue_string (name s : Bytes) : AddsValue [.string name s] name (.string s) :=
  addsValue_of_addValue (fun _ => rfl) (textOf_quoted s) trivial

theorem cStr_plain {name : Bytes} (h : PlainName name) : cStr name = name := by
  rw [cStr, List.takeWhile_eq_self_iff]
  intro c hc
  have hzero : c ≠ 0 := by
    rintro rfl
    exact absurd (h 0 hc).1 (by decide)
  simpa using hzero

/-- The value that was announced has the name up to its first zero byte. -/
theorem addsValue_stream (name s : Bytes) : AddsValue [.stream name s] name (.string s) := by
  intro f entry stack hf hstack
  refine ⟨quoted s, cStr name, name, List.takeWhile_prefix _, cStr_plain, ?_, ?_⟩
  · exact textOf_quoted s
  · have hstream : f.dumpStream name s =
        { f with pendingName := name, isPendingString := true, pendingString := s } := by
      rw [dumpStream, hf.finish, hf.pendingString, List.nil_append]
    have hfinish := finish_cons
      (f := { f with pendingName := name, isPendingString := true, pendingString := s })
      rfl hstack
    rw [settle_singleton, apply, hstream, Option.map_some, hfinish, grown]
    simp [before, gap, colonGap, indent, hf.isPendingString, hf.pendingString]

/-! ## Sections -/

def sectionValue (isArray : Bool) (values : List (Bytes × Value)) : Value :=
  if isArray then .array (values.map Prod.snd) else .object values

def leftBracket (isArray : Bool) : UInt8 := if isArray then 91 else 123

def rightBracket (isArray : Bool) : UInt8 := if isArray then 93 else 125

theorem sectionText_bracketed {isArray : Bool} {t w : Bytes} {values : List (Bytes × Value)}
    (h : SectionText isArray true t values (PlainSection isArray values)) (hw : Spaces w) :
    TextOf readValue (leftBracket isArray :: (t ++ (w ++ [rightBracket isArray])))
      (sectionValue isArray values) (PlainNames (sectionValue isArray values)) := by
  unfold SectionText PlainSection at h
  cases isArray with
  | true => exact .array h hw
  | false => exact .object h hw

theorem closeSection_eq {f : JSONFormatter} (h : f.isPendingString = false) {entry : JsonEntry}
    {stack : List JsonEntry} (hstack : f.stack = entry :: stack) :
    ∃ w, Spaces w ∧ f.closeSection = some
      { f with
        ss := f.ss ++ (w ++ ([rightBracket entry.isArray] ++
          if f.pretty && stack.isEmpty then [10] else []))
        stack := stack } := by
  refine ⟨if f.pretty && entry.size ≠ 0 then 10 :: f.indent else [], ?_, ?_⟩
  · split
    · intro c hc
      rcases List.mem_cons.mp hc with rfl | hc
      · rfl
      · exact spaces_replicate _ c hc
    · intro c hc
      exact absurd hc List.not_mem_nil
  · obtain ⟨pretty, ss, pendingString, pendingName, stack', isPending, lineBreak⟩ := f
    obtain ⟨size, isArray⟩ := entry
    simp only at hstack h
    subst hstack h
    cases pretty <;> cases isArray <;> by_cases hsize : size = 0 <;> cases stack <;>
      simp [closeSection, finishPendingString, put, indent, rightBracket, hsize]

/-- The rest of a section that was just opened. -/
theorem AddsValues.closed {inner : List JsonCall} {values : List (Bytes × Value)}
    (h : AddsValues inner values) {f : JSONFormatter} (hf : f.Settled) {isArray : Bool}
    {stack : List JsonEntry} (hstack : f.stack = { size := 0, isArray } :: stack) :
    ∃ t pending,
      TextOf readValue (leftBracket isArray :: t) (sectionValue isArray values)
        (PlainNames (sectionValue isArray values)) ∧
      f.settle (inner ++ [.close]) = some
        { f with
          ss := f.ss ++ (t ++ if f.pretty && stack.isEmpty then [10] else [])
          stack := stack
          pendingName := pending } := by
  obtain ⟨t, pending, ht, hsettle⟩ := h f _ stack hf hstack
  replace ht : SectionText isArray true t values (PlainSection isArray values) := ht
  obtain ⟨w, hw, hclose⟩ := closeSection_eq
    (f := f.grown { size := 0, isArray } stack values.length t pending) hf.isPendingString rfl
  refine ⟨t ++ (w ++ [rightBracket isArray]), pending, sectionText_bracketed ht hw, ?_⟩
  rw [settle_append, hsettle, Option.bind_some, settle_singleton, apply, hclose, Option.map_some]
  refine congrArg some ((finish_of_not ?_).trans ?_)
  · exact hf.isPendingString
  · simp [grown]

/-- The formatter behind `open_section`, where nothing was announced. -/
theorem settle_open {f : JSONFormatter} (hf : f.Settled) {c : JsonCall} {name : Bytes}
    {isArray : Bool} (hcall : ∀ f : JSONFormatter, f.apply c = some (f.openSection name isArray)) :
    f.settle [c] = some
      { f.putName name with
        ss := (f.putName name).ss ++ [leftBracket isArray]
        stack := { size := 0, isArray } :: (f.putName name).stack } := by
  have hdone : (f.putName name).isPendingString = false := by
    cases hstack : f.stack with
    | nil =>
        rw [putName_nil hstack]
        exact hf.isPendingString
    | cons entry stack =>
        rw [putName_eq hstack]
        exact hf.isPendingString
  rw [settle_singleton, hcall, openSection, printName, hf.finish]
  refine congrArg some ((finish_of_not ?_).trans ?_)
  · exact hdone
  · cases isArray <;> rfl

/-- A section within another. -/
theorem AddsValues.addsValue {inner : List JsonCall} {values : List (Bytes × Value)}
    (h : AddsValues inner values) (isArray : Bool) {c : JsonCall} {name : Bytes}
    (hcall : ∀ f : JSONFormatter, f.apply c = some (f.openSection name isArray)) :
    AddsValue ([c] ++ (inner ++ [.close])) name (sectionValue isArray values) := by
  intro f entry stack hf hstack
  have hopen := settle_open hf hcall
  rw [putName_eq hstack] at hopen
  obtain ⟨t, pending, ht, hclosed⟩ := h.closed
    (f := { f with
      ss := f.ss ++ f.before entry name ++ [leftBracket isArray]
      stack := { size := 0, isArray } :: { entry with size := entry.size + 1 } :: stack })
    ⟨hf.isPendingString, hf.pendingString⟩ rfl
  refine ⟨leftBracket isArray :: t, name, pending, List.prefix_rfl, fun _ => rfl, ht, ?_⟩
  rw [settle_append, hopen, Option.bind_some]
  refine hclosed.trans ?_
  simp [grown]

/-- What is told within a section is added to it. -/
theorem addsValues_of_tells {calls : List JsonCall} {values : List (Bytes × Value)}
    (h : Tells calls values) : AddsValues calls values := by
  induction h with
  | nil => exact addsValues_nil
  | null name _ ih => exact (addsValue_null name).cons ih
  | unsigned name u _ ih => exact (addsValue_unsigned name u).cons ih
  | int name s _ ih => exact (addsValue_int name s).cons ih
  | string name s _ ih => exact (addsValue_string name s).cons ih
  | stream name s _ ih => exact (addsValue_stream name s).cons ih
  | @object inner members calls values name _ _ hinner ih =>
      have hvalue : AddsValue _ name (.object members) :=
        hinner.addsValue false (c := .openObject name) fun _ => rfl
      simpa using hvalue.cons ih
  | @array inner members calls values name _ _ hinner ih =>
      have hvalue : AddsValue _ name (.array (members.map Prod.snd)) :=
        hinner.addsValue true (c := .openArray name) fun _ => rfl
      simpa using hvalue.cons ih

/-! ## Whole texts -/

/-- A section that is in no other: its text, and white space behind it. -/
theorem settle_top {inner : List JsonCall} {values : List (Bytes × Value)}
    (h : Tells inner values) {f : JSONFormatter} (hf : f.Settled) (hstack : f.stack = [])
    (isArray : Bool) {c : JsonCall} {name : Bytes}
    (hcall : ∀ f : JSONFormatter, f.apply c = some (f.openSection name isArray)) :
    ∃ t w g, TextOf readValue t (sectionValue isArray values)
        (PlainNames (sectionValue isArray values)) ∧
      Spaces w ∧ f.settle (c :: (inner ++ [.close])) = some g ∧ g.ss = f.ss ++ (t ++ w) := by
  have hopen := settle_open hf hcall
  rw [putName_nil hstack] at hopen
  obtain ⟨t, pending, ht, hclosed⟩ := (addsValues_of_tells h).closed
    (f := { f with
      ss := f.ss ++ [leftBracket isArray]
      stack := { size := 0, isArray } :: f.stack })
    ⟨hf.isPendingString, hf.pendingString⟩ rfl
  have hw : Spaces (if f.pretty && f.stack.isEmpty then [10] else []) := by
    intro c hc
    split at hc
    · rw [List.mem_singleton.mp hc]
      rfl
    · exact absurd hc List.not_mem_nil
  have hsettle : f.settle (c :: (inner ++ [.close])) = settle { f with
      ss := f.ss ++ [leftBracket isArray]
      stack := { size := 0, isArray } :: f.stack } (inner ++ [.close]) := by
    rw [← List.singleton_append, settle_append, hopen]
    rfl
  exact ⟨_, _, _, ht, hw, hsettle.trans hclosed, by simp⟩

end JSONFormatter

open JSONFormatter

theorem TellsTop.settle {calls : List JsonCall} {v : Value} (h : TellsTop calls v)
    {f : JSONFormatter} (hf : f.Settled) (hstack : f.stack = []) :
    ∃ t w g, TextOf readValue t v (PlainNames v) ∧ Spaces w ∧
      f.settle calls = some g ∧ g.ss = f.ss ++ (t ++ w) := by
  cases h with
  | object name h => exact settle_top h hf hstack false fun _ => rfl
  | array name h => exact settle_top h hf hstack true fun _ => rfl

/-- The text of `flush` is that of the formatter with what was announced written. -/
theorem emits_iff_of_settle {f g : JSONFormatter} {calls : List JsonCall} {v : Value}
    (h : f.settle calls = some g) :
    Emits f calls v ↔
      Json.parse (g.ss ++ if g.lineBreakEnabled then [10] else []) = some v := by
  obtain ⟨g', hrun, rfl⟩ := Option.map_eq_some_iff.mp h
  constructor
  · rintro ⟨g'', hrun', hparse⟩
    rw [hrun, Option.some.injEq] at hrun'
    subst hrun'
    exact hparse
  · intro hparse
    exact ⟨g', hrun, hparse⟩

theorem spaces_append {v w : Bytes} (hv : Spaces v) (hw : Spaces w) : Spaces (v ++ w) := by
  intro c hc
  rcases List.mem_append.mp hc with hc | hc
  · exact hv c hc
  · exact hw c hc

theorem spaces_lineBreak (b : Bool) : Spaces (if b then [10] else []) := by
  cases b with
  | true =>
      intro c hc
      rw [List.mem_singleton.mp hc]
      rfl
  | false =>
      intro c hc
      exact absurd hc List.not_mem_nil

/-- Nothing announced before the reset: the text stands for what is told where no name of a member
needs an escape, and only then. -/
theorem emits_reset_iff {calls : List JsonCall} {v : Value} (h : TellsTop calls v)
    {f : JSONFormatter} (hf : f.isPendingString = false) :
    Emits f.reset calls v ↔ PlainNames v := by
  obtain ⟨t, w, g, ht, hw, hsettle, hss⟩ := h.settle (f := f.reset) ⟨hf, rfl⟩ rfl
  rw [emits_iff_of_settle hsettle, hss]
  change Json.parse ([] ++ (t ++ w) ++ _) = some v ↔ _
  rw [List.nil_append, List.append_assoc]
  exact ht.parse_iff (spaces_append hw (spaces_lineBreak g.lineBreakEnabled))

/-- A value announced before the reset is written in front of all as an empty string. -/
theorem not_emits_reset {calls : List JsonCall} {v : Value} (h : TellsTop calls v)
    {f : JSONFormatter} (hf : f.isPendingString = true) : ¬ Emits f.reset calls v := by
  have hfinish := finish_nil (f := f.reset) hf rfl
  obtain ⟨t, w, g, ht, hw, hsettle, hss⟩ :=
    h.settle (f := f.reset.finishPendingString) (by rw [hfinish]; exact ⟨rfl, rfl⟩)
      (by rw [hfinish]; rfl)
  rw [settle_finish] at hsettle
  rw [emits_iff_of_settle hsettle, hss, hfinish]
  change Json.parse ([34, 34] ++ (t ++ w) ++ _) ≠ some v
  have hnone := ht.parse_behind_string (w := w ++ if g.lineBreakEnabled then [10] else [])
    Json.stringText_nil
  rw [List.nil_append, ← List.append_assoc] at hnone
  intro hparse
  exact absurd (hnone.symm.trans hparse) (by simp)

/-- For each section with all that is in it, told to a formatter that was reset (as the constructor
resets it): the flushed text is JSON for what was told if and only if no name of a member needs an
escape and no value was announced at the reset. -/
theorem emits_iff {calls : List JsonCall} {v : Value} (h : TellsTop calls v)
    (f : JSONFormatter) :
    Emits f.reset calls v ↔ f.isPendingString = false ∧ PlainNames v := by
  cases hf : f.isPendingString with
  | true => simp [not_emits_reset h hf]
  | false => simp [emits_reset_iff h hf]

/-- A string with a quote and a new line, an array, and a name in it that is not written. -/
theorem emits_nested :
    Emits (.new true)
      [.openObject [34], .stream (ascii "a") [34, 10], .openArray (ascii "b"), .int [34] (-5),
        .close, .close]
      (.object [(ascii "a", .string [34, 10]),
        (ascii "b", .array [.number (Int64.toInt (-5))])]) := by
  have hinner : Tells [.int [34] (-5)] [([34], .number (Int64.toInt (-5)))] := .int _ _ .nil
  have htop : TellsTop _ _ := .object [34] (.stream (ascii "a") [34, 10]
    (.array (ascii "b") hinner .nil))
  refine (emits_iff htop { pretty := true }).mpr ⟨rfl, ?_⟩
  simp only [PlainNames, PlainMembers, PlainItems, List.map_cons, List.map_nil, PlainName,
    and_true]
  constructor
  · intro c hc
    rw [List.mem_singleton.mp hc]
    exact ⟨by decide, by decide, by decide⟩
  · intro c hc
    rw [List.mem_singleton.mp hc]
    exact ⟨by decide, by decide, by decide⟩

/-- The name `a"b` ends at its quote, and the text is no JSON for what was told. -/
theorem not_emits :
    TellsTop [.openObject [], .int [97, 34, 98] 1, .close]
        (.object [([97, 34, 98], .number (Int64.toInt 1))]) ∧
      ¬ Emits (.new false) [.openObject [], .int [97, 34, 98] 1, .close]
        (.object [([97, 34, 98], .number (Int64.toInt 1))]) := by
  have htop : TellsTop [.openObject [], .int [97, 34, 98] 1, .close]
      (.object [([97, 34, 98], .number (Int64.toInt 1))]) := .object [] (.int _ _ .nil)
  refine ⟨htop, ?_⟩
  intro h
  have hplain := (emits_reset_iff htop (f := { pretty := false }) rfl).mp h
  exact (hplain.1.1 34 (by decide)).2.1 rfl

end Clab.Common
