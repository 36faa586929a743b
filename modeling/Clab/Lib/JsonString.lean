import Clab.Lib.Json

/-!
# Strings in JSON texts

Which text between quotes is read as a given string. A writer that puts a name between
quotes as it is gets it back if and only if no character of it needs an escape.
-/

namespace Clab.Json

/-- `body` is read as the string `s`. -/
def StringText (body s : Text) : Prop :=
  ∀ n rest, body.length < n → readString n (body ++ 34 :: rest) = some (s, rest)

theorem stringText_nil : StringText [] [] := by
  intro n rest hn
  cases n with
  | zero => exact absurd hn (Nat.not_lt_zero _)
  | succ n => simp [readString]

theorem StringText.append {e out body s : Text} (h : StringText body s) (he : e ≠ [])
    (hread : ∀ n t, readString (n + 1) (e ++ t) = (readString n t).map fun r => (out ++ r.1, r.2)) :
    StringText (e ++ body) (out ++ s) := by
  intro n rest hn
  have hpos := List.length_pos_of_ne_nil he
  rw [List.length_append] at hn
  cases n with
  | zero => exact absurd hn (Nat.not_lt_zero _)
  | succ n =>
      rw [List.append_assoc, hread, h n rest (by omega)]
      rfl

/-- A character that needs no escape. -/
def PlainChar (c : UInt8) : Prop := 32 ≤ c ∧ c ≠ 34 ∧ c ≠ 92

theorem readString_plain {c : UInt8} (hc : PlainChar c) (n : Nat) (t : Text) :
    readString (n + 1) ([c] ++ t) = (readString n t).map fun r => ([c] ++ r.1, r.2) := by
  rw [List.singleton_append, readString, if_neg hc.2.1, if_neg hc.2.2,
    if_neg (UInt8.not_lt.mpr hc.1)]
  rfl

/-- A name without a character that needs an escape. -/
def PlainName (name : Text) : Prop := ∀ c ∈ name, PlainChar c

theorem stringText_plain {name : Text} (h : PlainName name) : StringText name name := by
  induction name with
  | nil => exact stringText_nil
  | cons c name ih =>
      have hrest := ih fun d hd => h d (List.mem_cons_of_mem c hd)
      exact hrest.append (List.cons_ne_nil c []) (readString_plain (h c List.mem_cons_self))

theorem hex4_token {s rest : Text} {x : Nat} (h : hex4 s = some (x, rest)) :
    ∃ tok, s = tok ++ rest ∧ tok.length = 4 ∧ 34 ∉ tok := by
  have hquote : hexDigit 34 = none := by decide
  match s, h with
  | a :: b :: c :: d :: s, h =>
      simp only [hex4, Option.bind_eq_bind, Option.bind_eq_some_iff, Option.pure_def,
        Option.some.injEq, Prod.mk.injEq] at h
      obtain ⟨a', ha, b', hb, c', hc, d', hd, -, rfl⟩ := h
      refine ⟨[a, b, c, d], rfl, rfl, ?_⟩
      simp only [List.mem_cons, List.not_mem_nil, or_false]
      rintro (rfl | rfl | rfl | rfl) <;> simp_all

theorem utf8_length (n : Nat) : (utf8 n).length ≤ 4 := by
  unfold utf8
  split
  · simp
  split
  · simp
  split
  · simp
  · simp

theorem unicode_token {s out rest : Text} (h : unicode s = some (out, rest)) :
    ∃ tok, s = tok ++ rest ∧ out.length ≤ tok.length ∧ 34 ∉ tok := by
  simp only [unicode, Option.bind_eq_bind, Option.bind_eq_some_iff] at h
  obtain ⟨⟨high, s₁⟩, hhigh, h⟩ := h
  obtain ⟨tok, rfl, hlen, hquote⟩ := hex4_token hhigh
  simp only at h
  split at h
  · split at h
    · next hpair =>
        obtain ⟨⟨low, s₂⟩, hlow, h⟩ := Option.bind_eq_some_iff.mp h
        obtain ⟨tok', htok', hlen', hquote'⟩ := hex4_token hlow
        split at h
        · simp only [Option.pure_def, Option.some.injEq, Prod.mk.injEq] at h
          obtain ⟨rfl, rfl⟩ := h
          refine ⟨tok ++ ([92, 117] ++ tok'), ?_, ?_, ?_⟩
          · rw [List.append_assoc, List.append_assoc, ← htok', ← hpair, List.take_append_drop]
          · have := utf8_length (0x10000 + (high - 0xD800) * 0x400 + (low - 0xDC00))
            simp only [List.length_append]
            omega
          · simp [hquote, hquote']
        · simp at h
    · simp at h
  split at h
  · simp at h
  · simp only [Option.pure_def, Option.some.injEq, Prod.mk.injEq] at h
    obtain ⟨rfl, rfl⟩ := h
    exact ⟨tok, rfl, by have := utf8_length high; omega, hquote⟩

/-- An escape stands for no more bytes than it has, and a quote stands in none but `\"`. -/
theorem escape_token {s out rest : Text} (h : escape s = some (out, rest)) :
    ∃ tok, s = tok ++ rest ∧ out.length ≤ tok.length ∧
      (34 ∉ tok ∨ tok = [34] ∧ out = [34]) := by
  cases s with
  | nil => simp [escape] at h
  | cons c s =>
      rw [escape] at h
      by_cases hc : c = 34
      · subst hc
        rw [if_pos (by decide), Option.some.injEq, Prod.mk.injEq] at h
        obtain ⟨rfl, rfl⟩ := h
        exact ⟨[34], rfl, le_rfl, .inr ⟨rfl, rfl⟩⟩
      have hone : ∀ d, some (([d] : Text), s) = some (out, rest) →
          ∃ tok, c :: s = tok ++ rest ∧ out.length ≤ tok.length ∧
            (34 ∉ tok ∨ tok = [34] ∧ out = [34]) := by
        intro d hd
        rw [Option.some.injEq, Prod.mk.injEq] at hd
        obtain ⟨rfl, rfl⟩ := hd
        exact ⟨[c], rfl, le_rfl, .inl (by simpa using Ne.symm hc)⟩
      split at h
      · exact hone _ h
      split at h
      · exact hone _ h
      split at h
      · exact hone _ h
      split at h
      · exact hone _ h
      split at h
      · exact hone _ h
      split at h
      · exact hone _ h
      split at h
      · obtain ⟨tok, rfl, hlen, hquote⟩ := unicode_token h
        refine ⟨c :: tok, rfl, by rw [List.length_cons]; omega, .inl ?_⟩
        rw [List.mem_cons, not_or]
        exact ⟨Ne.symm hc, hquote⟩
      · simp at h

/-- Text up to a quote, read as a string: unless it is plain, either the string is shorter, as an
escape makes it so, or there is a quote in it before the text's end. -/
theorem readString_quote (n : Nat) {a rest key r : Text} (ha : 34 ∉ a)
    (h : readString n (a ++ 34 :: rest) = some (key, r)) :
    (PlainName a ∧ key = a) ∨ key.length < a.length ∨
      ∃ pre post, key = pre ++ 34 :: post ∧ pre.length < a.length := by
  induction n generalizing a key r with
  | zero => simp [readString] at h
  | succ n ih =>
      cases a with
      | nil =>
          simp only [List.nil_append, readString, if_true, Option.some.injEq,
            Prod.mk.injEq] at h
          exact .inl ⟨fun c hc => absurd hc List.not_mem_nil, h.1.symm⟩
      | cons c a =>
          rw [List.mem_cons, not_or] at ha
          rw [List.cons_append, readString, if_neg (Ne.symm ha.1)] at h
          split at h
          · -- an escape
            obtain ⟨⟨out, s⟩, hescape, h⟩ := Option.bind_eq_some_iff.mp h
            obtain ⟨⟨key', r'⟩, hread, h⟩ := Option.map_eq_some_iff.mp h
            simp only [Prod.mk.injEq] at h
            obtain ⟨rfl, rfl⟩ := h
            obtain ⟨tok, htok, hlen, hquote⟩ := escape_token hescape
            simp only at hread
            rcases List.append_eq_append_iff.mp htok with ⟨mid, hmid, hrest⟩ | ⟨mid, rfl, rfl⟩
            · -- the escape takes the quote
              cases mid with
              | nil =>
                  rw [List.append_nil] at hmid
                  rw [List.nil_append] at hrest
                  subst hmid
                  rw [← hrest] at hread
                  have hdone := ih (a := []) List.not_mem_nil hread
                  rcases hdone with ⟨-, rfl⟩ | hshort | ⟨_, _, _, hshort⟩
                  · refine .inr (.inl ?_)
                    simp only [List.append_nil, List.length_cons]
                    omega
                  · exact absurd hshort (Nat.not_lt_zero _)
                  · exact absurd hshort (Nat.not_lt_zero _)
              | cons d mid =>
                  obtain ⟨rfl, -⟩ := List.cons.inj hrest
                  rcases hquote with hquote | ⟨heq, rfl⟩
                  · exact absurd (by rw [hmid]; simp) hquote
                  · exact .inr (.inr ⟨[], key', rfl, by simp⟩)
            · -- the escape ends before it
              rw [List.mem_append, not_or] at ha
              simp only [List.length_cons, List.length_append]
              rcases ih ha.2.2 hread with ⟨-, rfl⟩ | hshort | ⟨pre, post, rfl, hshort⟩
              · exact .inr (.inl (by omega))
              · exact .inr (.inl (by omega))
              · exact .inr (.inr ⟨out ++ pre, post, by rw [List.append_assoc],
                  by rw [List.length_append]; omega⟩)
          split at h
          · simp at h
          · next hslash hcontrol =>
            obtain ⟨⟨key', r'⟩, hread, h⟩ := Option.map_eq_some_iff.mp h
            simp only [Prod.mk.injEq] at h
            obtain ⟨rfl, rfl⟩ := h
            rcases ih ha.2 hread with ⟨hplain, rfl⟩ | hshort | ⟨pre, post, rfl, hshort⟩
            · refine .inl ⟨?_, rfl⟩
              intro d hd
              obtain rfl | hd := List.mem_cons.mp hd
              · exact ⟨UInt8.not_lt.mp hcontrol, Ne.symm ha.1, hslash⟩
              · exact hplain d hd
            · exact .inr (.inl (by simpa using hshort))
            · exact .inr (.inr ⟨c :: pre, post, rfl, by simpa using hshort⟩)

/-- The start of a name, unescaped between quotes, is read as the name only if it is plain. -/
theorem plainName_of_read {n : Nat} {printed name rest r : Text} (hpart : printed <+: name)
    (h : readString n (printed ++ 34 :: rest) = some (name, r)) : PlainName name := by
  obtain ⟨a, s, ha, hasub, heq⟩ : ∃ a s, 34 ∉ a ∧ a <+: printed ∧
      printed ++ 34 :: rest = a ++ 34 :: s := by
    by_cases hquote : 34 ∈ printed
    · obtain ⟨a, s, rfl, ha⟩ := List.eq_append_cons_of_mem hquote
      exact ⟨a, s ++ 34 :: rest, ha, List.prefix_append _ _, by simp⟩
    · exact ⟨printed, rest, hquote, List.prefix_rfl, rfl⟩
  rw [heq] at h
  have haname := hasub.trans hpart
  rcases readString_quote n ha h with ⟨hplain, rfl⟩ | hshort | ⟨pre, post, rfl, hshort⟩
  · exact hplain
  · exact absurd haname.length_le (by omega)
  · -- the quote of the name lies in `a`
    obtain ⟨tail, htail⟩ := haname
    have hmem : 34 ∈ a := by
      have hquote : pre ++ [34] <+: pre ++ 34 :: post := ⟨post, by simp⟩
      have hpre : pre ++ [34] <+: a :=
        List.prefix_of_prefix_length_le hquote ⟨tail, htail⟩ (by simpa using hshort)
      exact hpre.subset (by simp)
    exact absurd hmem ha

end Clab.Json
