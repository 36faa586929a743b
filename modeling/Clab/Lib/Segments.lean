import Mathlib

/-!
# Segments end to end

A list of segments of given lengths, laid end to end, is one flat range of
positions. `locate` finds the segment of a position and the offset in it;
`starts` are the positions at which the segments begin, and a search for the
last start that is not past a position finds the same segment.
-/

namespace Clab.Segments

variable {α : Type*} (len : α → Nat)

/-- The length of all segments. -/
def total (xs : List α) : Nat := (xs.map len).sum

/-- The segment of position `off`, and the offset in it. -/
def locate : List α → Nat → Option (α × Nat)
  | [], _ => none
  | x :: xs, off => if off < len x then some (x, off) else locate xs (off - len x)

/-- Where the segments begin, the first one at `base`. -/
def starts (base : Nat) : List α → List Nat
  | [] => []
  | x :: xs => base :: starts (base + len x) xs

variable {len}

@[simp] theorem total_nil : total len ([] : List α) = 0 := rfl

@[simp] theorem total_cons (x : α) (xs : List α) : total len (x :: xs) = len x + total len xs := by
  simp [total]

@[simp] theorem total_append (xs ys : List α) :
    total len (xs ++ ys) = total len xs + total len ys := by
  simp [total]

@[simp] theorem locate_nil (off : Nat) : locate len ([] : List α) off = none := rfl

theorem locate_cons_lt {x : α} {xs : List α} {off : Nat} (h : off < len x) :
    locate len (x :: xs) off = some (x, off) := if_pos h

theorem locate_cons_ge {x : α} {xs : List α} {off : Nat} (h : len x ≤ off) :
    locate len (x :: xs) off = locate len xs (off - len x) := if_neg (Nat.not_lt.mpr h)

/-- A position past a segment is one of the rest. -/
theorem locate_cons_add (x : α) (xs : List α) (off : Nat) :
    locate len (x :: xs) (len x + off) = locate len xs off := by
  rw [locate_cons_ge (Nat.le_add_right _ _), Nat.add_sub_cancel_left]

theorem locate_of_lt {xs : List α} {off : Nat} (h : off < total len xs) :
    ∃ p, locate len xs off = some p := by
  induction xs generalizing off with
  | nil => exact absurd h (Nat.not_lt_zero _)
  | cons x xs ih =>
      by_cases hx : off < len x
      · exact ⟨_, locate_cons_lt hx⟩
      · rw [locate_cons_ge (Nat.le_of_not_lt hx)]
        rw [total_cons] at h
        exact ih (by omega)

theorem locate_spec {xs : List α} {off o : Nat} {x : α} (h : locate len xs off = some (x, o)) :
    x ∈ xs ∧ o < len x ∧ off < total len xs := by
  induction xs generalizing off with
  | nil => simp at h
  | cons y ys ih =>
      rw [total_cons]
      by_cases hy : off < len y
      · rw [locate_cons_lt hy] at h
        obtain ⟨rfl, rfl⟩ := Prod.mk.inj (Option.some.inj h)
        exact ⟨List.mem_cons_self, hy, by omega⟩
      · rw [locate_cons_ge (Nat.le_of_not_lt hy)] at h
        obtain ⟨hmem, ho, hoff⟩ := ih h
        exact ⟨List.mem_cons_of_mem _ hmem, ho, by omega⟩

/-- Segments added at the end leave the positions before. -/
theorem locate_append {xs : List α} (ys : List α) {off : Nat} (h : off < total len xs) :
    locate len (xs ++ ys) off = locate len xs off := by
  induction xs generalizing off with
  | nil => exact absurd h (Nat.not_lt_zero _)
  | cons x xs ih =>
      rw [List.cons_append]
      by_cases hx : off < len x
      · rw [locate_cons_lt hx, locate_cons_lt hx]
      · have hx := Nat.le_of_not_lt hx
        rw [total_cons] at h
        rw [locate_cons_ge hx, locate_cons_ge hx, ih (by omega)]

theorem locate_append_add (xs ys : List α) (off : Nat) :
    locate len (xs ++ ys) (total len xs + off) = locate len ys off := by
  induction xs with
  | nil => rw [total_nil, Nat.zero_add]; rfl
  | cons x xs ih => rw [List.cons_append, total_cons, Nat.add_assoc, locate_cons_add, ih]

theorem locate_drop (xs : List α) (i off : Nat) :
    locate len (xs.drop i) off = locate len xs (total len (xs.take i) + off) := by
  have h : locate len (xs.take i ++ xs.drop i) (total len (xs.take i) + off) =
      locate len (xs.drop i) off := locate_append_add _ _ _
  rw [List.take_append_drop] at h
  exact h.symm

/-! ## The search among the starts -/

theorem starts_append (base : Nat) (xs ys : List α) :
    starts len base (xs ++ ys) = starts len base xs ++ starts len (base + total len xs) ys := by
  induction xs generalizing base with
  | nil => rfl
  | cons x xs ih => rw [List.cons_append, starts, ih, total_cons, Nat.add_assoc]; rfl

@[simp] theorem starts_length (base : Nat) (xs : List α) :
    (starts len base xs).length = xs.length := by
  induction xs generalizing base with
  | nil => rfl
  | cons x xs ih => simp [starts, ih]

theorem starts_getD (base : Nat) {xs : List α} {i : Nat} (h : i < xs.length) :
    (starts len base xs).getD i 0 = base + total len (xs.take i) := by
  induction xs generalizing base i with
  | nil => simp at h
  | cons x xs ih =>
      cases i with
      | zero => rfl
      | succ i =>
          rw [List.length_cons] at h
          rw [starts, List.getD_cons_succ, ih _ (by omega), List.take_succ_cons, total_cons]
          omega

/-- The last start that is not past a position is that of its segment. -/
theorem search_starts {base off : Nat} {xs : List α} (hbase : base ≤ off)
    (hoff : off < base + total len xs) :
    ∃ n, ((starts len base xs).takeWhile (· ≤ off)).length = n + 1 ∧ n < xs.length ∧
      (starts len base xs).getD n 0 ≤ off ∧
      ∀ x, xs[n]? = some x → off - (starts len base xs).getD n 0 < len x := by
  induction xs generalizing base with
  | nil => simp at hoff; omega
  | cons x xs ih =>
      rw [total_cons] at hoff
      have hfirst : (starts len base (x :: xs)).takeWhile (· ≤ off) =
          base :: (starts len (base + len x) xs).takeWhile (· ≤ off) :=
        List.takeWhile_cons_of_pos (by simpa using hbase)
      rw [hfirst, List.length_cons]
      by_cases hx : off < base + len x
      · -- the next start is past the position already
        have hnil : (starts len (base + len x) xs).takeWhile (· ≤ off) = [] := by
          cases xs with
          | nil => rfl
          | cons y ys => exact List.takeWhile_cons_of_neg (by simpa using hx)
        refine ⟨0, by rw [hnil]; rfl, Nat.succ_pos _, hbase, fun y hy => ?_⟩
        obtain rfl : x = y := by simpa using hy
        show off - base < len x
        omega
      · obtain ⟨n, hlength, hn, hle, hlt⟩ := ih (Nat.le_of_not_lt hx) (by omega)
        refine ⟨n + 1, by rw [hlength], Nat.succ_lt_succ hn, ?_, fun y hy => ?_⟩
        · rw [starts, List.getD_cons_succ]
          exact hle
        · rw [starts, List.getD_cons_succ]
          rw [List.getElem?_cons_succ] at hy
          exact hlt y hy

end Clab.Segments
