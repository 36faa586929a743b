import Mathlib

/-!
# Calls that return or fail

A call that may fail, read by what its result satisfies and by the failures that
are put up with. The rules follow the shape of a call: a value, a failure, one
call after the other.
-/

namespace Clab.Outcome

variable {ε α β : Type} {fails : ε → Prop} {P Q : α → Prop}

/-- `x` returns a value with `P`, or a failure that `fails` puts up with. -/
def Returns (fails : ε → Prop) (x : Except ε α) (P : α → Prop) : Prop :=
  match x with
  | .ok a => P a
  | .error e => fails e

theorem Returns.ok {a : α} (h : P a) : Returns fails (.ok a) P := h

theorem Returns.error {e : ε} (h : fails e) : Returns fails (.error e : Except ε α) P := h

theorem Returns.mono {x : Except ε α} (h : Returns fails x P) (hPQ : ∀ a, P a → Q a) :
    Returns fails x Q := by
  cases x with
  | ok a => exact hPQ a h
  | error e => exact h

theorem Returns.bind {x : Except ε α} {f : α → Except ε β} {R : β → Prop}
    (hx : Returns fails x P) (hf : ∀ a, x = .ok a → P a → Returns fails (f a) R) :
    Returns fails (x >>= f) R := by
  cases x with
  | ok a => exact hf a rfl hx
  | error e => exact hx

/-- What a returned value satisfies. -/
theorem Returns.of_ok {x : Except ε α} {a : α} (h : Returns fails x P) (hx : x = .ok a) : P a := by
  rw [hx] at h
  exact h

/-- A failure is one that is put up with. -/
theorem Returns.of_error {x : Except ε α} {e : ε} (h : Returns fails x P) (hx : x = .error e) :
    fails e := by
  rw [hx] at h
  exact h

end Clab.Outcome
