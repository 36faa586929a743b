import Clab.Lib.JsonString

/-!
# Texts of JSON values

A text that a writer builds up piece by piece, read by the reader of `Clab.Lib.Json`. A
name may stand in it unescaped, so a text stands for its value under a condition only:
every rule says of the whole when it is read as it was meant, and that it is not read so
otherwise.
-/

namespace Clab.Json

variable {α : Type}

/-! ## White space -/

def Spaces (w : Text) : Prop := ∀ c ∈ w, isSpace c = true

theorem skipWs_of_not {c : UInt8} (hc : isSpace c = false) (s : Text) :
    skipWs (c :: s) = c :: s := by
  simp [skipWs, hc]

theorem skipWs_append {w : Text} (hw : Spaces w) (s : Text) : skipWs (w ++ s) = skipWs s := by
  rw [skipWs, skipWs, List.dropWhile_append_of_pos hw]

theorem skipWs_spaces {w : Text} (hw : Spaces w) : skipWs w = [] := by
  rw [skipWs, List.dropWhile_eq_nil_iff]
  exact hw

/-- What may stand behind a number. -/
def Ends (rest : Text) : Prop :=
  ∀ c ∈ rest.head?, isDigit c = false ∧ c ≠ 46 ∧ c ≠ 101 ∧ c ≠ 69

theorem ends_cons {c : UInt8} (hc : isDigit c = false ∧ c ≠ 46 ∧ c ≠ 101 ∧ c ≠ 69) (s : Text) :
    Ends (c :: s) := by
  intro d hd
  rw [List.head?_cons, Option.mem_some_iff] at hd
  rw [← hd]
  exact hc

theorem isSpace_cases {c : UInt8} (h : isSpace c = true) : c = 32 ∨ c = 9 ∨ c = 10 ∨ c = 13 := by
  simpa [isSpace, or_assoc] using h

theorem ends_spaces {w : Text} (hw : Spaces w) {s : Text} (hs : Ends s) : Ends (w ++ s) := by
  cases w with
  | nil => exact hs
  | cons c w =>
      apply ends_cons
      obtain rfl | rfl | rfl | rfl := isSpace_cases (hw c List.mem_cons_self) <;> decide

/-! ## A text and what it stands for -/

/-- A reader that does not look at white space in front. -/
def SkipsWs (read : Nat → Text → Option (α × Text)) : Prop :=
  ∀ n s t, skipWs s = skipWs t → read n s = read n t

/-- `t` is read as `x` where `p` holds, and only then. -/
structure TextOf (read : Nat → Text → Option (α × Text)) (t : Text) (x : α) (p : Prop) :
    Prop where
  start : ∃ c s, t = c :: s ∧ isSpace c = false ∧ c ∉ [44, 93, 125]
  reads : p → ∀ n rest, t.length < n → Ends rest → read n (t ++ rest) = some (x, rest)
  only : ∀ n rest rest', t.length < n → Ends rest → read n (t ++ rest) = some (x, rest') → p

/-- `t` is read as the elements `xs`, up to white space and `close`, where `p` holds, and only
then. -/
structure ListText (read : Nat → Text → Option (α × Text)) (close : UInt8) (first : Bool)
    (t : Text) (xs : List α) (p : Prop) : Prop where
  length : xs.length ≤ t.length
  ends : first = false → ∀ rest, Ends rest → Ends (t ++ rest)
  reads : p → ∀ n k w rest, t.length < n → xs.length < k → Spaces w →
    elements close (read n) k first (t ++ (w ++ close :: rest)) = some (xs, rest)
  only : ∀ n k w rest rest', t.length < n → Spaces w →
    elements close (read n) k first (t ++ (w ++ close :: rest)) = some (xs, rest') → p

theorem TextOf.of_reads {read : Nat → Text → Option (α × Text)} {t : Text} {x : α}
    (hstart : ∃ c s, t = c :: s ∧ isSpace c = false ∧ c ∉ [44, 93, 125])
    (h : ∀ n rest, t.length < n → Ends rest → read n (t ++ rest) = some (x, rest)) :
    TextOf read t x True where
  start := hstart
  reads _ := h
  only _ _ _ _ _ _ := trivial

/-! ## Elements -/

section Elements

variable {read : Nat → Text → Option (α × Text)} {close : UInt8}

theorem elements_close (hclose : isSpace close = false) (n k : Nat) (first : Bool) {w : Text}
    (hw : Spaces w) (rest : Text) :
    elements close (read n) (k + 1) first (w ++ close :: rest) = some ([], rest) := by
  rw [elements, skipWs_append hw, skipWs_of_not hclose]
  simp

/-- An element behind what separates it from the one before. -/
theorem elements_separated (hskips : SkipsWs read) (hclose : close = 93 ∨ close = 125)
    (n k : Nat) (first : Bool) {w : Text} (hw : Spaces w) {c : UInt8}
    (hc : isSpace c = false) (hother : c ∉ [44, 93, 125]) (s : Text) :
    elements close (read n) (k + 1) first ((if first then w else 44 :: w) ++ c :: s) =
      (read n (c :: s)).bind fun x =>
        (elements close (read n) k false x.2).map fun xs => (x.1 :: xs.1, xs.2) := by
  have hne : c ≠ close := by
    rintro rfl
    rcases hclose with rfl | rfl <;> simp at hother
  cases first with
  | true =>
      rw [if_pos rfl, elements, skipWs_append hw, skipWs_of_not hc]
      simp [hne]
  | false =>
      have hcomma : (44 : UInt8) ≠ close := by
        rcases hclose with rfl | rfl <;> decide
      rw [if_neg Bool.false_ne_true, List.cons_append, elements, skipWs_of_not (by decide)]
      simp only [if_neg hcomma, if_neg Bool.false_ne_true, if_true, Option.bind_some]
      rw [hskips n (w ++ c :: s) (c :: s) (skipWs_append hw _)]

theorem ListText.nil (hclose : close = 93 ∨ close = 125) (first : Bool) :
    ListText read close first [] [] True where
  length := le_rfl
  ends _ _ h := h
  reads := by
    intro _ n k w rest _ hk hw
    obtain ⟨k, rfl⟩ := Nat.exists_eq_succ_of_ne_zero (Nat.ne_of_gt hk)
    have hspace : isSpace close = false := by
      rcases hclose with rfl | rfl <;> decide
    exact elements_close hspace n k first hw rest
  only _ _ _ _ _ _ _ _ := trivial

theorem ends_close (hclose : close = 93 ∨ close = 125) {w : Text} (hw : Spaces w) (rest : Text) :
    Ends (w ++ close :: rest) := by
  apply ends_spaces hw
  apply ends_cons
  rcases hclose with rfl | rfl <;> decide

theorem ListText.cons (hskips : SkipsWs read) (hclose : close = 93 ∨ close = 125) {first : Bool}
    {w t ts : Text} {x : α} {xs : List α} {p q : Prop} (hw : Spaces w)
    (hx : TextOf read t x p) (hxs : ListText read close false ts xs q) :
    ListText read close first ((if first then w else 44 :: w) ++ (t ++ ts)) (x :: xs)
      (p ∧ q) where
  length := by
    obtain ⟨c, s, rfl, -⟩ := hx.start
    have := hxs.length
    simp only [List.length_cons, List.length_append]
    omega
  ends := by
    rintro rfl rest _
    exact ends_cons (by decide) _
  reads := by
    rintro ⟨hp, hq⟩ n k v rest hn hk hv
    simp only [List.length_append] at hn
    obtain ⟨k, rfl⟩ := Nat.exists_eq_succ_of_ne_zero (Nat.ne_of_gt (Nat.zero_lt_of_lt hk))
    have hread := hx.reads hp n (ts ++ (v ++ close :: rest)) (by omega)
      (hxs.ends rfl _ (ends_close hclose hv rest))
    obtain ⟨c, s, rfl, hc, hother⟩ := hx.start
    rw [List.append_assoc, List.append_assoc, List.cons_append,
      elements_separated hskips hclose n k first hw hc hother]
    rw [List.cons_append] at hread
    rw [hread, Option.bind_some,
      hxs.reads hq n k v rest (by omega) (by simpa using hk) hv]
    rfl
  only := by
    intro n k v rest rest' hn hv h
    simp only [List.length_append] at hn
    have hends := hxs.ends rfl _ (ends_close hclose hv rest)
    have honly := hx.only n (ts ++ (v ++ close :: rest))
    have hreads := fun hp => hx.reads hp n (ts ++ (v ++ close :: rest)) (by omega) hends
    obtain ⟨c, s, rfl, hc, hother⟩ := hx.start
    cases k with
    | zero => simp [elements] at h
    | succ k =>
        rw [List.append_assoc, List.append_assoc, List.cons_append,
          elements_separated hskips hclose n k first hw hc hother] at h
        obtain ⟨⟨y, s'⟩, hy, h⟩ := Option.bind_eq_some_iff.mp h
        obtain ⟨⟨ys, r⟩, hys, h⟩ := Option.map_eq_some_iff.mp h
        simp only [Prod.mk.injEq, List.cons.injEq] at h hys
        obtain ⟨⟨rfl, rfl⟩, rfl⟩ := h
        have hp := honly s' (by omega) hends (by rw [List.cons_append]; exact hy)
        have hread := hreads hp
        rw [List.cons_append, hy, Option.some.injEq, Prod.mk.injEq] at hread
        rw [hread.2] at hys
        exact ⟨hp, hxs.only n k v rest r (by omega) hv hys⟩

end Elements

/-! ## Values -/

theorem skipsWs_readValue : SkipsWs readValue := by
  intro n s t h
  cases n with
  | zero => rw [readValue, readValue]
  | succ n => rw [readValue, readValue, h]

theorem skipsWs_member (read : Nat → Text → Option (α × Text)) :
    SkipsWs fun n => member (read n) := by
  intro n s t h
  simp only [member, h]

/-- A name between quotes as it is, or what is left of it, and a value behind a colon. -/
theorem TextOf.member {read : Nat → Text → Option (α × Text)} (hskips : SkipsWs read)
    {printed name w t : Text} {x : α} {p : Prop} (hpart : printed <+: name)
    (hprinted : PlainName name → printed = name) (hw : Spaces w) (hx : TextOf read t x p) :
    TextOf (fun n => member (read n)) (34 :: (printed ++ 34 :: 58 :: (w ++ t))) (name, x)
      (PlainName name ∧ p) where
  start := ⟨34, _, rfl, by decide, by decide⟩
  reads := by
    rintro ⟨hname, hp⟩ n rest hn hrest
    simp only [List.length_cons, List.length_append] at hn
    have hstring := stringText_plain hname
    obtain rfl := hprinted hname
    have hread := hx.reads hp n rest (by omega) hrest
    have htext : 34 :: (printed ++ 34 :: 58 :: (w ++ t)) ++ rest =
        34 :: (printed ++ 34 :: 58 :: (w ++ (t ++ rest))) := by
      simp
    simp only [htext, Json.member, skipWs_of_not (show isSpace 34 = false by decide), if_true]
    rw [hstring _ _ (by simp only [List.length_append]; omega)]
    simp only [Option.bind_some, skipWs_of_not (show isSpace 58 = false by decide), if_true]
    rw [hskips n (w ++ (t ++ rest)) (t ++ rest) (skipWs_append hw _), hread]
    rfl
  only := by
    intro n rest rest' hn hrest h
    simp only [List.length_cons, List.length_append] at hn
    have htext : 34 :: (printed ++ 34 :: 58 :: (w ++ t)) ++ rest =
        34 :: (printed ++ 34 :: 58 :: (w ++ (t ++ rest))) := by
      simp
    simp only [htext, Json.member, skipWs_of_not (show isSpace 34 = false by decide),
      if_true] at h
    obtain ⟨⟨key, s⟩, hkey, h⟩ := Option.bind_eq_some_iff.mp h
    have hname : key = name := by
      simp only at h
      split at h
      · simp at h
      · split at h
        · obtain ⟨_, _, h⟩ := Option.map_eq_some_iff.mp h
          exact congrArg (fun r => r.1.1) h
        · simp at h
    subst hname
    have hplain := plainName_of_read hpart hkey
    obtain rfl := hprinted hplain
    rw [stringText_plain hplain _ _ (by simp only [List.length_append]; omega),
      Option.some.injEq, Prod.mk.injEq] at hkey
    obtain ⟨-, rfl⟩ := hkey
    simp only [skipWs_of_not (show isSpace 58 = false by decide), if_true] at h
    obtain ⟨⟨y, s⟩, hy, h⟩ := Option.map_eq_some_iff.mp h
    simp only [Prod.mk.injEq, true_and] at h
    obtain ⟨rfl, rfl⟩ := h
    rw [hskips n (w ++ (t ++ rest)) (t ++ rest) (skipWs_append hw _)] at hy
    exact ⟨hplain, hx.only n rest _ (by omega) hrest hy⟩

/-- How `readValue` reads the elements between two brackets. -/
theorem textOf_bracketed {β : Type} {read : Nat → Text → Option (β × Text)} {left right : UInt8}
    {make : List β → Value} (hinj : Function.Injective make)
    (hleft : isSpace left = false ∧ left ∉ [44, 93, 125])
    (hread : ∀ n t, readValue (n + 1) (left :: t) =
      (elements right (read n) (t.length + 1) true t).map fun r => (make r.1, r.2))
    {ts w : Text} {xs : List β} {p : Prop} (hxs : ListText read right true ts xs p)
    (hw : Spaces w) : TextOf readValue (left :: (ts ++ (w ++ [right]))) (make xs) p where
  start := ⟨left, _, rfl, hleft⟩
  reads := by
    intro hp n rest hn hrest
    have hlen := hxs.length
    simp only [List.length_cons, List.length_append] at hn
    obtain ⟨n, rfl⟩ := Nat.exists_eq_succ_of_ne_zero (Nat.ne_of_gt (Nat.zero_lt_of_lt hn))
    have htext : left :: (ts ++ (w ++ [right])) ++ rest =
        left :: (ts ++ (w ++ right :: rest)) := by
      simp
    rw [htext, hread, hxs.reads hp n _ w rest (by omega)
      (by simp only [List.length_append]; omega) hw]
    rfl
  only := by
    intro n rest rest' hn hrest h
    simp only [List.length_cons, List.length_append] at hn
    obtain ⟨n, rfl⟩ := Nat.exists_eq_succ_of_ne_zero (Nat.ne_of_gt (Nat.zero_lt_of_lt hn))
    have htext : left :: (ts ++ (w ++ [right])) ++ rest =
        left :: (ts ++ (w ++ right :: rest)) := by
      simp
    rw [htext, hread] at h
    obtain ⟨⟨ys, r⟩, hys, h⟩ := Option.map_eq_some_iff.mp h
    rw [Prod.mk.injEq] at h
    obtain ⟨hmake, -⟩ := h
    obtain rfl := hinj hmake
    exact hxs.only n _ w rest r (by omega) hw hys

theorem TextOf.object {ts w : Text} {ms : List (Text × Value)} {p : Prop}
    (h : ListText (fun n => Json.member (readValue n)) 125 true ts ms p) (hw : Spaces w) :
    TextOf readValue (123 :: (ts ++ (w ++ [125]))) (.object ms) p := by
  refine textOf_bracketed (fun _ _ => Value.object.inj) (by decide) ?_ h hw
  intro n t
  rw [readValue, skipWs_of_not (by decide)]
  rfl

theorem TextOf.array {ts w : Text} {xs : List Value} {p : Prop}
    (h : ListText readValue 93 true ts xs p) (hw : Spaces w) :
    TextOf readValue (91 :: (ts ++ (w ++ [93]))) (.array xs) p := by
  refine textOf_bracketed (fun _ _ => Value.array.inj) (by decide) ?_ h hw
  intro n t
  rw [readValue, skipWs_of_not (by decide)]
  rfl

theorem textOf_null : TextOf readValue [110, 117, 108, 108] .null True := by
  apply TextOf.of_reads ⟨110, _, rfl, by decide, by decide⟩
  intro n rest hn _
  cases n with
  | zero => exact absurd hn (Nat.not_lt_zero _)
  | succ n =>
      rw [List.cons_append, readValue, skipWs_of_not (by decide)]
      rfl

theorem StringText.textOf {body s : Text} (h : StringText body s) :
    TextOf readValue (34 :: (body ++ [34])) (.string s) True := by
  apply TextOf.of_reads ⟨34, _, rfl, by decide, by decide⟩
  intro n rest hn _
  cases n with
  | zero => exact absurd hn (Nat.not_lt_zero _)
  | succ n =>
      have htext : 34 :: (body ++ [34]) ++ rest = 34 :: (body ++ 34 :: rest) := by simp
      have hread := h ((body ++ 34 :: rest).length + 1) rest
        (by simp only [List.length_append]; omega)
      rw [htext, readValue, skipWs_of_not (by decide)]
      change (readString _ _).map _ = _
      rw [hread]
      rfl

/-! ## Integers -/

/-- The digits of a number, without a zero in front. -/
structure Numeral (ds : Text) : Prop where
  digits : ∀ c ∈ ds, isDigit c = true
  ne_nil : ds ≠ []
  zero : ds.head? = some 48 → ds = [48]

theorem readDigits_append {ds rest : Text} (hds : ∀ c ∈ ds, isDigit c = true) (hne : ds ≠ [])
    (h : Ends rest) : readDigits (ds ++ rest) = some (ds, rest) := by
  have hrest : rest.takeWhile isDigit = [] ∧ rest.dropWhile isDigit = rest := by
    cases rest with
    | nil => simp
    | cons c rest =>
        have hc : isDigit c = false := (h c rfl).1
        simp [hc]
  rw [readDigits, List.takeWhile_append_of_pos hds, List.dropWhile_append_of_pos hds, hrest.1,
    hrest.2, List.append_nil, if_neg hne]

theorem readFraction_ends {rest : Text} (h : Ends rest) : readFraction rest = some ([], rest) := by
  cases rest with
  | nil => rfl
  | cons c rest => rw [readFraction, if_neg (h c rfl).2.1]

theorem readExponent_ends {rest : Text} (h : Ends rest) : readExponent rest = some (0, rest) := by
  cases rest with
  | nil => rfl
  | cons c rest =>
      have hc := (h c rfl).2.2
      rw [readExponent, if_neg (not_or.mpr hc)]

theorem readSign_append (negative : Bool) {ds rest : Text} (h : Numeral ds) :
    readSign ((if negative then [45] else []) ++ (ds ++ rest)) = (negative, ds ++ rest) := by
  cases negative with
  | true => rfl
  | false =>
      obtain ⟨c, s, rfl⟩ := List.exists_cons_of_ne_nil h.ne_nil
      have hc := h.digits c List.mem_cons_self
      have hminus : c ≠ 45 := by
        rintro rfl
        exact absurd hc (by decide)
      simp [readSign, hminus]

theorem readNumber_numeral (negative : Bool) {ds rest : Text} (h : Numeral ds)
    (hrest : Ends rest) :
    readNumber ((if negative then [45] else []) ++ (ds ++ rest)) =
      some (if negative then -(natOf ds : ℚ) else natOf ds, rest) := by
  have hint : readInt (ds ++ rest) = some (ds, rest) := by
    rw [readInt, readDigits_append h.digits h.ne_nil hrest, Option.bind_some, if_neg]
    rintro ⟨hhead, hne⟩
    exact hne (h.zero hhead)
  simp [readNumber, readSign_append negative h, hint, readFraction_ends hrest,
    readExponent_ends hrest]

theorem Numeral.textOf (negative : Bool) {ds : Text} (h : Numeral ds) :
    TextOf readValue ((if negative then [45] else []) ++ ds)
      (.number (if negative then -(natOf ds : ℚ) else natOf ds)) True := by
  obtain ⟨c, s, hcs, hc⟩ : ∃ c s, (if negative then [45] else []) ++ ds = c :: s ∧
      (c = 45 ∨ isDigit c = true) := by
    cases negative with
    | true => exact ⟨45, ds, rfl, .inl rfl⟩
    | false =>
        obtain ⟨c, s, rfl⟩ := List.exists_cons_of_ne_nil h.ne_nil
        exact ⟨c, s, rfl, .inr (h.digits c List.mem_cons_self)⟩
  have hother : ∀ d, d ≠ 45 → isDigit d = false → c ≠ d := by
    rintro d hd hdigit rfl
    rcases hc with rfl | hc
    · exact hd rfl
    · rw [hdigit] at hc
      exact Bool.false_ne_true hc
  have hspace : isSpace c = false := by
    apply Bool.eq_false_iff.mpr
    intro hspace
    rcases isSpace_cases hspace with hspace | hspace | hspace | hspace
    · exact hother _ (by decide) (by decide) hspace
    · exact hother _ (by decide) (by decide) hspace
    · exact hother _ (by decide) (by decide) hspace
    · exact hother _ (by decide) (by decide) hspace
  apply TextOf.of_reads
  · refine ⟨c, s, hcs, hspace, ?_⟩
    simp only [List.mem_cons, List.not_mem_nil, or_false, not_or]
    exact ⟨hother _ (by decide) (by decide), hother _ (by decide) (by decide),
      hother _ (by decide) (by decide)⟩
  · intro n rest hn hrest
    have hread := readNumber_numeral negative h hrest
    rw [← List.append_assoc, hcs, List.cons_append] at hread
    rw [hcs]
    cases n with
    | zero => exact absurd hn (Nat.not_lt_zero _)
    | succ n =>
        rw [List.cons_append, readValue, skipWs_of_not hspace]
        simp only [if_neg (hother 123 (by decide) (by decide)),
          if_neg (hother 91 (by decide) (by decide)), if_neg (hother 34 (by decide) (by decide)),
          if_neg (hother 116 (by decide) (by decide)),
          if_neg (hother 102 (by decide) (by decide)),
          if_neg (hother 110 (by decide) (by decide)), hread]
        rfl

/-! ## Whole texts -/

/-- A text stands for its value where the condition holds, and only then. -/
theorem TextOf.parse_iff {t w : Text} {v : Value} {p : Prop} (h : TextOf readValue t v p)
    (hw : Spaces w) : parse (t ++ w) = some v ↔ p := by
  have hends : Ends w := by
    have := ends_spaces hw (s := []) (by intro c hc; simp at hc)
    rwa [List.append_nil] at this
  constructor
  · intro hparse
    obtain ⟨⟨x, rest⟩, hread, hx⟩ := Option.bind_eq_some_iff.mp hparse
    simp only [Option.ite_none_right_eq_some, Option.some.injEq] at hx
    obtain ⟨-, rfl⟩ := hx
    exact h.only _ w rest (by simp only [List.length_append]; omega) hends hread
  · intro hp
    rw [parse, h.reads hp _ w (by simp only [List.length_append]; omega) hends]
    simp [skipWs_spaces hw]

/-- A second value behind a string makes a text that stands for nothing. -/
theorem TextOf.parse_behind_string {body s t w : Text} {v : Value} {p : Prop}
    (h : TextOf readValue t v p) (hs : StringText body s) :
    parse (34 :: (body ++ 34 :: (t ++ w))) = none := by
  obtain ⟨c, t, rfl, hc, -⟩ := h.start
  have hread := hs ((body ++ 34 :: (c :: t ++ w)).length + 1) (c :: t ++ w)
    (by simp only [List.length_append]; omega)
  rw [parse, List.length_cons, readValue, skipWs_of_not (by decide)]
  simp only [hread]
  simp [skipWs_of_not hc]

end Clab.Json
