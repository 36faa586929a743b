import Clab.Btier.ConfigText

/-!
# What the parser reads

A text that the writer makes is read back to its end, wherever it stands; and on every text the
parser comes to an end, as each call has less of the text before it.
-/

namespace Clab.Btier.Config

open Clab.Common

variable {f : Floats}

/-! ## White space -/

theorem skipWs_space {c : UInt8} (hc : isSpace c = true) (s : Bytes) :
    skipWs (c :: s) = skipWs s := by
  simp [skipWs, hc]

theorem skipWs_of_not {c : UInt8} (hc : isSpace c = false) (s : Bytes) :
    skipWs (c :: s) = c :: s := by
  simp [skipWs, hc]

theorem skipWs_spaces (k : Nat) (s : Bytes) :
    skipWs (List.replicate k 32 ++ s) = skipWs s := by
  induction k with
  | zero => rfl
  | succ k ih =>
      rw [List.replicate_succ, List.cons_append, skipWs_space (by decide)]
      exact ih

theorem skipWs_length_le (s : Bytes) : (skipWs s).length ≤ s.length :=
  List.length_dropWhile_le _ _

section NextIs

variable {α : Type} (k : UInt8 → Bytes → Parsed α)

theorem nextIs_eq {s t : Bytes} (h : skipWs s = skipWs t) : nextIs s k = nextIs t k := by
  unfold nextIs
  rw [h]

theorem nextIs_space {c : UInt8} (hc : isSpace c = true) (s : Bytes) :
    nextIs (c :: s) k = nextIs s k :=
  nextIs_eq k (skipWs_space hc s)

theorem nextIs_spaces (n : Nat) (s : Bytes) :
    nextIs (List.replicate n 32 ++ s) k = nextIs s k :=
  nextIs_eq k (skipWs_spaces n s)

theorem nextIs_cons {c : UInt8} (hc : isSpace c = false) (s : Bytes) :
    nextIs (c :: s) k = k c s := by
  unfold nextIs
  rw [skipWs_of_not hc]

/-- What `nextIs` returns comes from a shorter text. -/
theorem nextIs_cases (s : Bytes) :
    nextIs s k = .fails ∨ ∃ c t, t.length < s.length ∧ skipWs s = c :: t ∧ nextIs s k = k c t := by
  unfold nextIs
  have hlen := skipWs_length_le s
  cases hs : skipWs s with
  | nil => exact .inl rfl
  | cons c t =>
      rw [hs, List.length_cons] at hlen
      exact .inr ⟨c, t, by omega, rfl, rfl⟩

end NextIs

theorem parseValue_space {c : UInt8} (hc : isSpace c = true) (n : Nat) (s : Bytes) :
    parseValue f n (c :: s) = parseValue f n s := by
  cases n with
  | zero => rw [parseValue, parseValue]
  | succ n =>
      rw [parseValue, parseValue]
      exact nextIs_space _ hc s

theorem parseMembers_space {c : UInt8} (hc : isSpace c = true) (n : Nat) (s : Bytes)
    (members : List (Bytes × JsonValue f.Double)) :
    parseMembers f n (c :: s) members = parseMembers f n s members := by
  cases n with
  | zero => rw [parseMembers, parseMembers]
  | succ n =>
      rw [parseMembers, parseMembers]
      exact nextIs_space _ hc s

/-! ## Strings -/

theorem stringBody_escChar (c : UInt8) (s : Bytes) :
    stringBody (escChar c ++ s) = (stringBody s).map fun r => (c :: r.1, r.2) := by
  unfold escChar
  split
  · next h => subst h; rfl
  split
  · next h => subst h; rfl
  split
  · next h => subst h; rfl
  split
  · next h => subst h; rfl
  split
  · next h => subst h; rfl
  next hquote hslash _ _ _ =>
    rw [List.singleton_append]
    conv_lhs => unfold stringBody
    rw [if_neg hquote, if_neg hslash]

/-- A string is read back as it was, whatever its bytes are. -/
theorem stringBody_escaped (s rest : Bytes) :
    stringBody (s.flatMap escChar ++ 34 :: rest) = some (s, rest) := by
  induction s with
  | nil =>
      rw [List.flatMap_nil, List.nil_append]
      unfold stringBody
      exact if_pos rfl
  | cons c s ih =>
      rw [List.flatMap_cons, List.append_assoc, stringBody_escChar, ih]
      rfl

theorem stringBody_length (s : Bytes) :
    ∀ {t rest : Bytes}, stringBody s = some (t, rest) → rest.length < s.length := by
  fun_induction stringBody s with
  | case1 => intro t rest h; simp at h
  | case2 s =>
      intro t rest h
      simp only [Option.some.injEq, Prod.mk.injEq] at h
      simp [← h.2]
  | case3 => intro t rest h; simp at h
  | case4 e s _ ih =>
      intro t rest h
      obtain ⟨⟨u, v⟩, hr, heq⟩ := Option.map_eq_some_iff.mp h
      have hshort := ih hr
      simp only [Prod.mk.injEq] at heq
      simp only [List.length_cons, ← heq.2]
      omega
  | case5 c s _ _ ih =>
      intro t rest h
      obtain ⟨⟨u, v⟩, hr, heq⟩ := Option.map_eq_some_iff.mp h
      have hshort := ih hr
      simp only [Prod.mk.injEq] at heq
      simp only [List.length_cons, ← heq.2]
      omega

/-! ## Texts that stand for a value -/

/-- The parser reads `t`, wherever it stands: a value, or where `r` is none it fails. -/
def Parses (f : Floats) (t : Bytes) (r : Option (JsonValue f.Double)) : Prop :=
  ∀ n rest, t.length < n → (∀ c ∈ rest.head?, numChar c = false) →
    parseValue f n (t ++ rest) =
      match r with
      | some v => .ok v rest
      | none => .fails

theorem escJson_append (s rest : Bytes) :
    escJson s ++ rest = 34 :: (s.flatMap escChar ++ 34 :: rest) := by
  simp [escJson]

theorem parses_escJson (s : Bytes) : Parses f (escJson s) (some (.string s)) := by
  intro n rest hn _
  cases n with
  | zero => exact absurd hn (Nat.not_lt_zero _)
  | succ n =>
      rw [escJson_append, parseValue, nextIs_cons _ (by decide)]
      simp [parseString, stringBody_escaped]

/-- A text of characters that `parse_number` takes. -/
def NumText (t : Bytes) : Prop := t ≠ [] ∧ ∀ c ∈ t, numChar c = true

theorem numText_decimal (n : Nat) : NumText (decimal n) :=
  ⟨decimal_ne_nil n, fun c hc => by simp [numChar, decimal_digits hc]⟩

/-- How `parse_value` takes a text that starts with none of the characters it looks for. -/
theorem parseValue_number {c : UInt8} (hc : isSpace c = false)
    (hother : c ∉ [123, 91, 34, 116, 102, 110]) (n : Nat) (s : Bytes) :
    parseValue f (n + 1) (c :: s) = parseNumber f (c :: s) := by
  simp only [List.mem_cons, List.not_mem_nil, or_false, not_or] at hother
  obtain ⟨h1, h2, h3, h4, h5, h6⟩ := hother
  rw [parseValue, nextIs_cons _ hc, if_neg h1, if_neg h2, if_neg h3, if_neg (by simp [h4, h5]),
    if_neg h6]

theorem numChar_start {c : UInt8} (h : numChar c = true) :
    isSpace c = false ∧ c ∉ [123, 91, 34, 116, 102, 110] := by
  constructor
  · by_contra hspace
    have hmem : c = 32 ∨ c = 9 ∨ c = 10 ∨ c = 13 := by
      simpa [isSpace, or_assoc] using Bool.of_not_eq_false hspace
    obtain rfl | rfl | rfl | rfl := hmem <;> exact absurd h (by decide)
  · intro hmem
    simp only [List.mem_cons, List.not_mem_nil, or_false] at hmem
    obtain rfl | rfl | rfl | rfl | rfl | rfl := hmem <;> exact absurd h (by decide)

theorem takeWhile_numText {t rest : Bytes} (ht : ∀ c ∈ t, numChar c = true)
    (hrest : ∀ c ∈ rest.head?, numChar c = false) :
    (t ++ rest).takeWhile numChar = t ∧ (t ++ rest).dropWhile numChar = rest := by
  rw [List.takeWhile_append_of_pos ht, List.dropWhile_append_of_pos ht]
  cases rest with
  | nil => simp
  | cons c rest =>
      have hc : numChar c = false := hrest c rfl
      simp [hc]

theorem parses_number {t : Bytes} (ht : NumText t) : Parses f t ((f.stod t).map .number) := by
  intro n rest hn hrest
  obtain ⟨htake, hdrop⟩ := takeWhile_numText ht.2 hrest
  obtain ⟨c, s, rfl⟩ := List.exists_cons_of_ne_nil ht.1
  obtain ⟨hspace, hother⟩ := numChar_start (ht.2 c List.mem_cons_self)
  cases n with
  | zero => exact absurd hn (Nat.not_lt_zero _)
  | succ n =>
      rw [List.cons_append, parseValue_number hspace hother]
      rw [List.cons_append] at htake hdrop
      rw [parseNumber, htake, hdrop]
      cases hd : f.stod (c :: s) <;> simp

/-- The texts that a stream writes for what is not finite. -/
def nonFinite : List Bytes := [ascii "inf", ascii "-inf", ascii "nan", ascii "-nan"]

theorem parses_nonFinite (hminus : f.stod [45] = none) {t : Bytes} (ht : t ∈ nonFinite) :
    Parses f t none := by
  intro n rest hn _
  cases n with
  | zero => exact absurd hn (Nat.not_lt_zero _)
  | succ n =>
      simp only [nonFinite, List.mem_cons, List.not_mem_nil, or_false] at ht
      have hsign : ∀ c s, numChar c = false → parseNumber f (45 :: c :: s) = .fails := by
        intro c s hc
        have hminusChar : numChar 45 = true := by decide
        have htake : (45 :: c :: s).takeWhile numChar = [45] := by simp [hc, hminusChar]
        simp [parseNumber, htake, hminus]
      obtain rfl | rfl | rfl | rfl := ht
      · exact (parseValue_number (by decide) (by decide) n _).trans rfl
      · exact (parseValue_number (by decide) (by decide) n _).trans (hsign _ _ (by decide))
      · change parseValue f (n + 1) (110 :: 97 :: 110 :: rest) = .fails
        rw [parseValue, nextIs_cons _ (by decide)]
        rfl
      · exact (parseValue_number (by decide) (by decide) n _).trans (hsign _ _ (by decide))

/-! ## Objects -/

/-- What follows the value of a member. -/
def memberEnd (n : Nat) (members : List (Bytes × JsonValue f.Double)) (s : Bytes) :
    Parsed (JsonValue f.Double) :=
  nextIs s fun c s =>
    if c = 44 then parseMembers f n s members
    else if c = 125 then .ok (.object members) s
    else .fails

theorem parseMembers_writeKv {t : Bytes} {r : Option (JsonValue f.Double)} (ht : Parses f t r)
    {n : Nat} (hn : t.length < n) (indent : Nat) (key : Bytes) {rest : Bytes}
    (hrest : ∀ c ∈ rest.head?, numChar c = false) (members : List (Bytes × JsonValue f.Double)) :
    parseMembers f (n + 1) (writeKv indent key t ++ rest) members =
      match r with
      | some v => memberEnd n ((key, v) :: members) rest
      | none => .fails := by
  have htext : writeKv indent key t ++ rest =
      List.replicate indent 32 ++
        34 :: (key.flatMap escChar ++ 34 :: 58 :: 32 :: (t ++ rest)) := by
    simp [writeKv, escJson]
  rw [htext, parseMembers, nextIs_spaces, nextIs_cons _ (by decide), if_neg (by decide),
    stringBody_escaped]
  simp only
  rw [nextIs_cons _ (by decide), if_neg (by decide), parseValue_space (by decide),
    ht n rest hn hrest]
  cases r with
  | none => rfl
  | some v => rfl

theorem lines_start (indent : Nat) {ms : List (Bytes × Bytes)} (hne : ms ≠ []) :
    ∃ s, lines indent ms = List.replicate indent 32 ++ 34 :: s := by
  obtain ⟨m, ms, rfl⟩ := List.exists_cons_of_ne_nil hne
  cases ms with
  | nil => exact ⟨m.1.flatMap escChar ++ 34 :: 58 :: 32 :: (m.2 ++ [10]), by
      simp [lines, writeKv, escJson]⟩
  | cons m' ms =>
      exact ⟨m.1.flatMap escChar ++ 34 :: 58 :: 32 :: (m.2 ++ 44 :: 10 :: lines indent (m' :: ms)),
        by simp [lines, writeKv, escJson]⟩

/-- The members that are read, none where one of the values is not read. -/
def readMembers {D : Type} (rs : List (Bytes × Option (JsonValue D))) :
    Option (List (Bytes × JsonValue D)) :=
  rs.mapM fun r => r.2.map fun v => (r.1, v)

/-- Each text parses to the value that goes by its name. -/
def AllParse (f : Floats) (ms : List (Bytes × Bytes))
    (rs : List (Bytes × Option (JsonValue f.Double))) : Prop :=
  List.Forall₂ (fun m r => m.1 = r.1 ∧ Parses f m.2 r.2) ms rs

theorem writeKv_length (indent : Nat) (key t : Bytes) :
    t.length < (writeKv indent key t).length := by
  simp only [writeKv, List.length_append, List.length_cons]
  omega

theorem readMembers_cons {D : Type} (key : Bytes) (r : Option (JsonValue D))
    (rs : List (Bytes × Option (JsonValue D))) :
    readMembers ((key, r) :: rs) =
      r.bind fun v => (readMembers rs).map fun ps => (key, v) :: ps := by
  cases r with
  | none => simp [readMembers]
  | some v =>
      cases h : rs.mapM fun r => r.2.map fun v => (r.1, v) <;> simp [readMembers, h]

/-- The loop of `parse_object` over lines that were written: the member of the last line is the
first of the object. -/
theorem parseMembers_lines (indent closing : Nat) (rest : Bytes) {ms : List (Bytes × Bytes)}
    {rs : List (Bytes × Option (JsonValue f.Double))} (h : AllParse f ms rs) (hne : ms ≠ [])
    (n : Nat) (hn : (lines indent ms).length < n)
    (members : List (Bytes × JsonValue f.Double)) :
    parseMembers f n (lines indent ms ++ (List.replicate closing 32 ++ 125 :: rest)) members =
      match readMembers rs with
      | some ps => .ok (.object (ps.reverse ++ members)) rest
      | none => .fails := by
  induction h generalizing n members with
  | nil => exact absurd rfl hne
  | @cons m r ms rs hm htail ih =>
      obtain ⟨key, t⟩ := m
      obtain ⟨key', r⟩ := r
      obtain ⟨rfl, ht⟩ := hm
      replace ht : Parses f t r := ht
      cases n with
      | zero => exact absurd hn (Nat.not_lt_zero _)
      | succ n =>
        have hkv := writeKv_length indent key t
        cases htail with
        | nil =>
            -- the last member: a new line and the brace
            simp only [lines, List.length_append, List.length_cons, List.length_nil] at hn
            rw [lines, List.append_assoc,
              parseMembers_writeKv ht (by omega) indent key (by simp; decide) members,
              readMembers_cons]
            cases r with
            | none => rfl
            | some v =>
                change memberEnd n ((key, v) :: members)
                  (10 :: (List.replicate closing 32 ++ 125 :: rest)) = _
                rw [memberEnd, nextIs_space _ (by decide), nextIs_spaces,
                  nextIs_cons _ (by decide)]
                rfl
        | @cons m' r' ms rs hm' htail =>
            simp only [lines, List.length_append, List.length_cons, List.length_nil] at hn
            rw [lines, List.append_assoc, List.append_assoc,
              parseMembers_writeKv ht (by omega) indent key (by simp; decide) members,
              readMembers_cons]
            · cases r with
              | none => rfl
              | some v =>
                  -- a comma and a new line
                  have hnext := ih (by simp) n (by omega) ((key, v) :: members)
                  change memberEnd n ((key, v) :: members) (44 :: 10 :: (lines indent (m' :: ms) ++
                    (List.replicate closing 32 ++ 125 :: rest))) = _
                  rw [memberEnd, nextIs_cons _ (by decide), if_pos rfl,
                    parseMembers_space (by decide), hnext]
                  cases readMembers (r' :: rs) with
                  | none => rfl
                  | some ps => simp
            · simp

/-- An object that was written is read back member by member. -/
theorem parses_objectText (indent : Nat) {ms : List (Bytes × Bytes)}
    {rs : List (Bytes × Option (JsonValue f.Double))} (h : AllParse f ms rs) (hne : ms ≠ []) :
    Parses f (objectText indent ms)
      ((readMembers rs).map fun ps => .object ps.reverse) := by
  intro n rest hn _
  have htext : objectText indent ms ++ rest = 123 :: 10 ::
      (lines indent ms ++ (List.replicate (indent - 4) 32 ++ 125 :: rest)) := by
    simp [objectText]
  have hlen : (objectText indent ms).length =
      (lines indent ms).length + (indent - 4) + 3 := by
    simp only [objectText, List.length_append, List.length_cons, List.length_nil,
      List.length_replicate]
    omega
  cases n with
  | zero => exact absurd hn (Nat.not_lt_zero _)
  | succ n =>
      have hquote : (skipWs (10 :: (lines indent ms ++
          (List.replicate (indent - 4) 32 ++ 125 :: rest)))).head? = some 34 := by
        obtain ⟨s, hs⟩ := lines_start indent hne
        rw [hs, skipWs_space (by decide), List.append_assoc, skipWs_spaces, List.cons_append,
          skipWs_of_not (by decide)]
        rfl
      rw [htext, parseValue, nextIs_cons _ (by decide), if_pos rfl, hquote, if_neg (by decide),
        parseMembers_space (by decide),
        parseMembers_lines indent (indent - 4) rest h hne n (by omega) []]
      cases readMembers rs with
      | none => rfl
      | some ps => simp

/-! ## Every text -/

/-- The parser came to an end, with at most `k` characters left. -/
def Within {α : Type} (k : Nat) : Parsed α → Prop
  | .ok _ rest => rest.length ≤ k
  | .fails => True
  | .outOfFuel => False

section Within

variable {α β : Type} {j k : Nat}

theorem Within.mono {x : Parsed α} (h : Within j x) (hjk : j ≤ k) : Within k x := by
  cases x with
  | ok a rest => exact Nat.le_trans h hjk
  | fails => trivial
  | outOfFuel => exact h

theorem Within.andThen {x : Parsed α} (h : Within j x) {g : α → Bytes → Parsed β}
    (hg : ∀ a rest, rest.length ≤ j → Within k (g a rest)) : Within k (x.andThen g) := by
  cases x with
  | ok a rest => exact hg a rest h
  | fails => trivial
  | outOfFuel => exact h

theorem within_nextIs {s : Bytes} {g : UInt8 → Bytes → Parsed α}
    (hg : ∀ c t, t.length < s.length → Within k (g c t)) : Within k (nextIs s g) := by
  obtain h | ⟨c, t, hlen, -, h⟩ := nextIs_cases g s
  · rw [h]
    trivial
  · rw [h]
    exact hg c t hlen

end Within

theorem within_parseString (s : Bytes) : Within s.length (parseString f s) := by
  unfold parseString
  split
  · trivial
  · next h => exact Nat.le_of_lt (stringBody_length s h)

theorem within_parseBool (s : Bytes) : Within s.length (parseBool f s) := by
  unfold parseBool
  split
  · simp [Within]
  split
  · simp [Within]
  · trivial

theorem within_parseNull (s : Bytes) : Within s.length (parseNull f s) := by
  unfold parseNull
  split
  · simp [Within]
  · trivial

theorem within_parseNumber (s : Bytes) : Within s.length (parseNumber f s) := by
  unfold parseNumber
  simp only
  split
  · trivial
  · split
    · trivial
    · exact List.length_dropWhile_le _ _

/-- One turn of the loop of `parse_object`. -/
theorem within_parseMembers {n : Nat}
    (hvalue : ∀ s : Bytes, 2 * s.length < n → Within s.length (parseValue f n s))
    (hloop : ∀ (s : Bytes) members, 2 * s.length + 1 < n →
      Within s.length (parseMembers f n s members))
    (s : Bytes) (members : List (Bytes × JsonValue f.Double)) (hn : 2 * s.length + 1 < n + 1) :
    Within s.length (parseMembers f (n + 1) s members) := by
  rw [parseMembers]
  apply within_nextIs
  intro c s₁ h₁
  split
  · trivial
  split
  · trivial
  next key s₂ hkey =>
    have h₂ := stringBody_length s₁ hkey
    apply within_nextIs
    intro c s₃ h₃
    split
    · trivial
    apply (hvalue s₃ (by omega)).andThen
    intro val s₄ h₄
    apply within_nextIs
    intro c s₅ h₅
    split
    · exact (hloop s₅ _ (by omega)).mono (by omega)
    split
    · exact Nat.le_of_lt (by omega)
    · trivial

/-- One turn of the loop of `parse_array`. -/
theorem within_parseItems {n : Nat}
    (hvalue : ∀ s : Bytes, 2 * s.length < n → Within s.length (parseValue f n s))
    (hloop : ∀ (s : Bytes) items, 2 * s.length + 1 < n →
      Within s.length (parseItems f n s items))
    (s : Bytes) (items : List (JsonValue f.Double)) (hn : 2 * s.length + 1 < n + 1) :
    Within s.length (parseItems f (n + 1) s items) := by
  rw [parseItems]
  apply (hvalue s (by omega)).andThen
  intro val s₁ h₁
  apply within_nextIs
  intro c s₂ h₂
  split
  · exact (hloop s₂ _ (by omega)).mono (by omega)
  split
  · exact Nat.le_of_lt (by omega)
  · trivial

theorem tail_skipWs_length (s : Bytes) : (skipWs s).tail.length ≤ s.length := by
  have h := skipWs_length_le s
  rw [List.length_tail]
  omega

theorem within_parseValue {n : Nat}
    (hmembers : ∀ (s : Bytes) members, 2 * s.length + 1 < n →
      Within s.length (parseMembers f n s members))
    (hitems : ∀ (s : Bytes) items, 2 * s.length + 1 < n →
      Within s.length (parseItems f n s items))
    (s : Bytes) (hn : 2 * s.length < n + 1) :
    Within s.length (parseValue f (n + 1) s) := by
  rw [parseValue]
  apply within_nextIs
  intro c rest h
  have hrest := tail_skipWs_length rest
  split
  · split
    · exact Nat.le_of_lt (by omega)
    · exact (hmembers rest _ (by omega)).mono (by omega)
  split
  · split
    · exact Nat.le_of_lt (by omega)
    · exact (hitems rest _ (by omega)).mono (by omega)
  split
  · exact (within_parseString rest).mono (by omega)
  split
  · exact (within_parseBool _).mono (by simp only [List.length_cons]; omega)
  split
  · exact (within_parseNull _).mono (by simp only [List.length_cons]; omega)
  · exact (within_parseNumber _).mono (by simp only [List.length_cons]; omega)

/-- Each loop and each call takes a character at least, so twice the length is fuel enough. -/
theorem parser_ends (n : Nat) :
    (∀ s : Bytes, 2 * s.length < n → Within s.length (parseValue f n s)) ∧
      (∀ (s : Bytes) members, 2 * s.length + 1 < n →
        Within s.length (parseMembers f n s members)) ∧
      (∀ (s : Bytes) items, 2 * s.length + 1 < n →
        Within s.length (parseItems f n s items)) := by
  induction n with
  | zero =>
      refine ⟨?_, ?_, ?_⟩
      · intro s h
        exact absurd h (Nat.not_lt_zero _)
      · intro s _ h
        exact absurd h (Nat.not_lt_zero _)
      · intro s _ h
        exact absurd h (Nat.not_lt_zero _)
  | succ n ih =>
      obtain ⟨hvalue, hmembers, hitems⟩ := ih
      exact ⟨within_parseValue hmembers hitems, within_parseMembers hvalue hmembers,
        within_parseItems hvalue hitems⟩

theorem parse_ends (text : Bytes) : parse f text ≠ .outOfFuel := by
  intro h
  have hwithin := (parser_ends (f := f) (2 * text.length + 1)).1 text (Nat.lt_succ_self _)
  rw [← parse, h] at hwithin
  exact hwithin

/-- The result is no object. -/
def NoObject {D : Type} (x : Parsed (JsonValue D)) : Prop :=
  ∀ members rest, x ≠ .ok (.object members) rest

theorem noObject_nextIs {D : Type} {s : Bytes} {g : UInt8 → Bytes → Parsed (JsonValue D)}
    (hg : ∀ c t, skipWs s = c :: t → NoObject (g c t)) : NoObject (nextIs s g) := by
  obtain h | ⟨c, t, -, hs, h⟩ := nextIs_cases g s
  · rw [h]
    intro _ _ hok
    simp at hok
  · rw [h]
    exact hg c t hs

theorem noObject_parseItems (n : Nat) (s : Bytes) (items : List (JsonValue f.Double)) :
    NoObject (parseItems f n s items) := by
  induction n generalizing s items with
  | zero =>
      intro _ _ h
      simp [parseItems] at h
  | succ n ih =>
      rw [parseItems]
      cases parseValue f n s with
      | fails =>
          intro _ _ h
          simp [Parsed.andThen] at h
      | outOfFuel =>
          intro _ _ h
          simp [Parsed.andThen] at h
      | ok val rest =>
          apply noObject_nextIs
          intro c t _
          split
          · exact ih _ _
          · intro _ _ h
            split at h <;> simp at h

/-- Only a brace starts an object. -/
theorem noObject_parse {text : Bytes} (h : (skipWs text).head? ≠ some 123) :
    NoObject (parse f text) := by
  rw [parse, parseValue]
  apply noObject_nextIs
  intro c rest hs
  have hc : c ≠ 123 := by
    rintro rfl
    exact h (by rw [hs]; rfl)
  rw [if_neg hc]
  split
  · split
    · intro _ _ h
      simp at h
    · exact noObject_parseItems _ _ _
  split
  · intro _ _ h
    unfold parseString at h
    split at h <;> simp at h
  split
  · intro _ _ h
    unfold parseBool at h
    split at h
    · simp at h
    · split at h <;> simp at h
  split
  · intro _ _ h
    unfold parseNull at h
    split at h <;> simp at h
  · intro _ _ h
    unfold parseNumber at h
    simp only at h
    split at h
    · simp at h
    · split at h <;> simp at h

end Clab.Btier.Config
