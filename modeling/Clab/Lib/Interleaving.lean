import Mathlib

/-!
# Interleaved threads

Threads with local states act one at a time on a shared state. An invariant of
the shared state together with an assertion of each thread is kept by a step of
one thread when the step establishes both for the thread that acts, and the other
threads' assertions are stable under what they rely on the step to do.
-/

namespace Clab.Interleaving

variable {σ π : Type*}

/-- A shared state and the local state of every thread. -/
structure Config (σ π : Type*) where
  shared : σ
  pc : Nat → π

/-- Thread `t` acts. -/
def Config.act (c : Config σ π) (t : Nat) (s : σ) (p : π) : Config σ π :=
  ⟨s, Function.update c.pc t p⟩

@[simp] theorem Config.act_shared (c : Config σ π) (t : Nat) (s : σ) (p : π) :
    (c.act t s p).shared = s := rfl

/-- What the action of a thread does to the shared state and its own. -/
abbrev Action (σ π : Type*) := Nat → σ → π → σ → π → Prop

/-- One step of thread `t`. -/
inductive Step (R : Action σ π) (c : Config σ π) (t : Nat) : Config σ π → Prop
  | act {s : σ} {p : π} : R t c.shared (c.pc t) s p → Step R c t (c.act t s p)

theorem Step.of_pc {R : Action σ π} {c : Config σ π} {t : Nat} {p p' : π} {s : σ}
    (hpc : c.pc t = p) (h : R t c.shared p s p') : Step R c t (c.act t s p') := by
  subst hpc
  exact .act h

/-- An invariant of the shared state and an assertion of each thread. -/
structure Holds (I : σ → Prop) (L : Nat → σ → π → Prop) (c : Config σ π) : Prop where
  shared : I c.shared
  threads : ∀ t, L t c.shared (c.pc t)

variable {I : σ → Prop} {L : Nat → σ → π → Prop}

/-- The step of one thread, by what it establishes and what the others rely on. -/
theorem Holds.act {rely : Nat → σ → π → σ → Prop} {c : Config σ π} (h : Holds I L c)
    (stable : ∀ u s q s', rely u s q s' → L u s q → L u s' q) {t : Nat} {s : σ} {p : π}
    (hown : I s ∧ L t s p) (hrely : ∀ u, u ≠ t → rely u c.shared (c.pc u) s) :
    Holds I L (c.act t s p) := by
  refine ⟨hown.1, fun u => ?_⟩
  show L u s (Function.update c.pc t p u)
  by_cases hu : u = t
  · subst hu
    rw [Function.update_self]
    exact hown.2
  · rw [Function.update_of_ne hu]
    exact stable u c.shared (c.pc u) s (hrely u hu) (h.threads u)

/-- The runs whose steps all pass a test. -/
def Run (good : Config σ π → Nat → Config σ π → Prop) : Config σ π → Config σ π → Prop :=
  Relation.ReflTransGen fun c c' => ∃ t, good c t c'

/-- What every good step keeps holds along a run. -/
theorem Run.keeps {good : Config σ π → Nat → Config σ π → Prop} {P : Config σ π → Prop}
    (hstep : ∀ c t c', P c → good c t c' → P c') {c c' : Config σ π} (hrun : Run good c c')
    (h : P c) : P c' := by
  induction hrun with
  | refl => exact h
  | tail _ hlast ih =>
      obtain ⟨t, ht⟩ := hlast
      exact hstep _ t _ ih ht

theorem Run.refl {good : Config σ π → Nat → Config σ π → Prop} (c : Config σ π) :
    Run good c c :=
  Relation.ReflTransGen.refl

/-- A run goes on with a step of thread `t`. -/
theorem Run.snoc {good : Config σ π → Nat → Config σ π → Prop} {c c' c'' : Config σ π}
    (hrun : Run good c c') (t : Nat) (h : good c' t c'') : Run good c c'' :=
  Relation.ReflTransGen.tail hrun ⟨t, h⟩

end Clab.Interleaving
