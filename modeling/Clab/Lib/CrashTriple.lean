import Mathlib

/-!
# Programs that may be stopped anywhere

A program that makes calls to its surroundings, which answer as they like. A run is
given the answers to come; one that has used them up is stopped before its next call,
so the runs of a program pass through every state it can be stopped in. The rules
follow the shape of the program: they say what holds where it returns, and what holds
wherever it is stopped.
-/

namespace Clab.Crash

variable {ο σ α β γ : Type}

/-- What becomes of a run: it returns, with the answers that are left, is stopped, or does what
the language gives no meaning to. -/
inductive Run (ο σ α : Type) where
  | returned (a : α) (rest : List ο) (s : σ)
  | stopped (s : σ)
  | undefined

/-- The state a run ends in. -/
def Run.state? : Run ο σ α → Option σ
  | .returned _ _ s => some s
  | .stopped s => some s
  | .undefined => none

/-- A program, run on the answers to its calls and on a state. -/
def Calls (ο σ α : Type) : Type := List ο → σ → Run ο σ α

/-! ## Programs -/

namespace Calls

def ret (a : α) : Calls ο σ α := fun os s => .returned a os s

def andThen (x : Calls ο σ α) (f : α → Calls ο σ β) : Calls ο σ β := fun os s =>
  match x os s with
  | .returned a rest s' => f a rest s'
  | .stopped s' => .stopped s'
  | .undefined => .undefined

instance monadCalls : Monad (Calls ο σ) where
  pure := ret
  bind := andThen

/-- A step with no meaning. -/
def undefined : Calls ο σ α := fun _ _ => .undefined

/-- One call, by what each answer to it returns and does to the state. -/
def call (step : ο → σ → α × σ) : Calls ο σ α
  | [], s => .stopped s
  | o :: os, s => .returned (step o s).1 os (step o s).2

/-- A loop of one call a round, until `done` has a result or a round returns one. -/
def whileCalls (done : β → Option α) (step : ο → β → σ → (β ⊕ α) × σ) (b : β) : Calls ο σ α
  | [], s =>
      match done b with
      | some a => .returned a [] s
      | none => .stopped s
  | o :: os, s =>
      match done b with
      | some a => .returned a (o :: os) s
      | none =>
          match step o b s with
          | (.inl b', s') => whileCalls done step b' os s'
          | (.inr a, s') => .returned a os s'

variable {x : Calls ο σ α} {f : α → Calls ο σ β} {os rest : List ο} {s s' : σ} {a : α}

@[simp] theorem pure_run : (pure a : Calls ο σ α) os s = .returned a os s := rfl

/-- A program goes on from where the one before it returned. -/
theorem bind_returned (hx : x os s = .returned a rest s') : (x >>= f) os s = f a rest s' := by
  show andThen x f os s = _
  rw [andThen, hx]

theorem bind_undefined (hx : x os s = .undefined) : (x >>= f) os s = .undefined := by
  show andThen x f os s = _
  rw [andThen, hx]

@[simp] theorem call_cons (step : ο → σ → α × σ) (o : ο) :
    call step (o :: os) s = .returned (step o s).1 os (step o s).2 := rfl

variable {done : β → Option α} {step : ο → β → σ → (β ⊕ α) × σ} {b b' : β} {o : ο}

theorem whileCalls_done (hdone : done b = some a) :
    whileCalls done step b os s = .returned a os s := by
  cases os <;> simp [whileCalls, hdone]

theorem whileCalls_next (hdone : done b = none) (hstep : step o b s = (.inl b', s')) :
    whileCalls done step b (o :: os) s = whileCalls done step b' os s' := by
  rw [whileCalls, hdone]
  simp only [hstep]

theorem whileCalls_last (hdone : done b = none) (hstep : step o b s = (.inr a, s')) :
    whileCalls done step b (o :: os) s = .returned a os s' := by
  rw [whileCalls, hdone]
  simp only [hstep]

end Calls

/-! ## Triples -/

/-- `Q` where the run returns, `I` where it is stopped. -/
def Run.Meets (Q : α → σ → Prop) (I : σ → Prop) : Run ο σ α → Prop
  | .returned a _ s => Q a s
  | .stopped s => I s
  | .undefined => False

/-- From a state with `P`, a run returns with `Q` or is stopped with `I`. -/
def Triple (P : σ → Prop) (x : Calls ο σ α) (Q : α → σ → Prop) (I : σ → Prop) : Prop :=
  ∀ os s, P s → (x os s).Meets Q I

namespace Triple

open Calls

variable {P P' I I' : σ → Prop} {Q Q' : α → σ → Prop} {R : β → σ → Prop} {x : Calls ο σ α}
  {f : α → Calls ο σ β} {a : α}

theorem mono (hx : Triple P' x Q' I') (hP : ∀ s, P s → P' s) (hQ : ∀ a s, Q' a s → Q a s)
    (hI : ∀ s, I' s → I s) : Triple P x Q I := by
  intro os s hs
  have hmeets := hx os s (hP s hs)
  revert hmeets
  cases x os s with
  | returned a rest s' => exact hQ a s'
  | stopped s' => exact hI s'
  | undefined => exact id

theorem ret (h : ∀ s, P s → Q a s) : Triple P (pure a : Calls ο σ α) Q I := by
  intro os s hs
  exact h s hs

theorem bind (hx : Triple P x Q I) (hf : ∀ a, Triple (Q a) (f a) R I) :
    Triple P (x >>= f) R I := by
  intro os s hs
  have hmeets := hx os s hs
  show (andThen x f os s).Meets R I
  rw [andThen]
  revert hmeets
  cases x os s with
  | returned a rest s' => exact hf a rest s'
  | stopped s' => exact id
  | undefined => exact id

theorem pointwise (hx : ∀ s, P s → Triple (· = s) x Q I) : Triple P x Q I := by
  intro os s hs
  exact hx s hs os s rfl

/-- What the states with `P` have in common may be used. -/
theorem assuming {p : Prop} (hp : ∀ s, P s → p) (hx : p → Triple P x Q I) : Triple P x Q I := by
  intro os s hs
  exact hx (hp s hs) os s hs

theorem call {step : ο → σ → α × σ} (hI : ∀ s, P s → I s)
    (hstep : ∀ o s, P s → Q (step o s).1 (step o s).2) : Triple P (Calls.call step) Q I := by
  intro os s hs
  cases os with
  | nil => exact hI s hs
  | cons o os => exact hstep o s hs

/-- What a round leaves: the invariant, or the result. -/
def Round (J : β → σ → Prop) (Q : α → σ → Prop) : (β ⊕ α) × σ → Prop
  | (.inl b, s) => J b s
  | (.inr a, s) => Q a s

/-- A loop keeps what each of its rounds keeps. -/
theorem whileCalls {J : β → σ → Prop} {done : β → Option α} {step : ο → β → σ → (β ⊕ α) × σ}
    (hdone : ∀ b s a, J b s → done b = some a → Q a s) (hI : ∀ b s, J b s → I s)
    (hstep : ∀ o b s, J b s → done b = none → Round J Q (step o b s)) (b : β) :
    Triple (J b) (Calls.whileCalls done step b) Q I := by
  intro os
  induction os generalizing b with
  | nil =>
      intro s hs
      unfold Calls.whileCalls
      cases hb : done b with
      | some a => exact hdone b s a hs hb
      | none => exact hI b s hs
  | cons o os ih =>
      intro s hs
      unfold Calls.whileCalls
      cases hb : done b with
      | some a => exact hdone b s a hs hb
      | none =>
          have hround := hstep o b s hs hb
          revert hround
          rcases step o b s with ⟨b' | a, s'⟩
          · exact ih b' s'
          · exact id

/-! ### What a triple says of a run -/

theorem of_returned (hx : Triple P x Q I) {os rest : List ο} {s s' : σ} (hs : P s)
    (hrun : x os s = .returned a rest s') : Q a s' := by
  have hmeets := hx os s hs
  rwa [hrun] at hmeets

theorem not_undefined (hx : Triple P x Q I) {os : List ο} {s : σ} (hs : P s) :
    x os s ≠ .undefined := by
  intro hrun
  have hmeets := hx os s hs
  rwa [hrun] at hmeets

/-- What holds wherever the program returns or is stopped. -/
theorem of_state (hx : Triple P x (fun _ => I) I) {os : List ο} {s s' : σ} (hs : P s)
    (hrun : (x os s).state? = some s') : I s' := by
  have hmeets := hx os s hs
  revert hmeets hrun
  cases x os s with
  | returned a rest t =>
      intro hrun hmeets
      exact Option.some.inj hrun ▸ hmeets
  | stopped t =>
      intro hrun hmeets
      exact Option.some.inj hrun ▸ hmeets
  | undefined =>
      intro hrun
      exact absurd hrun (by simp [Run.state?])

end Triple

end Clab.Crash
