import Mathlib

/-!
# Logs of puts and deletes

A log of updates to a partial map, replayed in order or grouped by kind. The
two replays agree exactly when no key that is present at the end was ever
deleted.
-/

namespace Clab.EventLog

/-- One update of a partial map. -/
inductive Event (κ ν : Type)
  | put (k : κ) (v : ν)
  | del (k : κ)
  deriving DecidableEq

variable {κ ν : Type} [DecidableEq κ]

/-- The map after one update. -/
def Event.apply (m : κ → Option ν) : Event κ ν → κ → Option ν
  | .put k v => Function.update m k (some v)
  | .del k => Function.update m k none

/-- The updates one by one, in order. -/
def replayFrom (m : κ → Option ν) (es : List (Event κ ν)) : κ → Option ν :=
  es.foldl Event.apply m

/-- In-order replay from the empty map. -/
def replay (es : List (Event κ ν)) : κ → Option ν := replayFrom (fun _ => none) es

def Event.isPut : Event κ ν → Bool
  | .put _ _ => true
  | .del _ => false

/-- All puts first, then all deletes, each group in order. -/
def replayByKind (es : List (Event κ ν)) : κ → Option ν :=
  replayFrom (replay (es.filter Event.isPut)) (es.filter fun e => !e.isPut)

theorem replayFrom_append (m : κ → Option ν) (es fs : List (Event κ ν)) :
    replayFrom m (es ++ fs) = replayFrom (replayFrom m es) fs :=
  List.foldl_append

theorem replay_append (es fs : List (Event κ ν)) :
    replay (es ++ fs) = replayFrom (replay es) fs :=
  replayFrom_append _ es fs

open scoped Classical in
/-- Deletes only remove, and remove exactly the keys they name. -/
theorem replayFrom_dels (m : κ → Option ν) (es : List (Event κ ν)) (k : κ) :
    replayFrom m (es.filter fun e => !e.isPut) k =
      if Event.del k ∈ es then none else m k := by
  induction es generalizing m with
  | nil => simp [replayFrom]
  | cons e rest ih =>
      cases e with
      | put k' v => simpa [Event.isPut] using ih m
      | del k' =>
          rw [List.filter_cons_of_pos (by simp [Event.isPut])]
          show replayFrom (Function.update m k' none) _ k = _
          rw [ih]
          by_cases hk : k = k'
          · subst hk
            simp
          · have hne : (Event.del k : Event κ ν) ≠ .del k' := fun h => hk (by cases h; rfl)
            simp [Function.update_of_ne hk, hne]

/-- A key that no event of the log deletes is where the last put left it. -/
theorem replayFrom_of_no_del (m : κ → Option ν) (es : List (Event κ ν)) (k : κ)
    (h : Event.del k ∉ es) :
    replayFrom m es k = replayFrom m (es.filter Event.isPut) k := by
  induction es generalizing m with
  | nil => rfl
  | cons e rest ih =>
      have hrest : Event.del k ∉ rest := fun hm => h (List.mem_cons_of_mem _ hm)
      cases e with
      | put k' v =>
          rw [List.filter_cons_of_pos (by simp [Event.isPut])]
          exact ih _ hrest
      | del k' =>
          rw [List.filter_cons_of_neg (by simp [Event.isPut])]
          have hk : k ≠ k' := fun hk => h (by rw [hk]; exact List.mem_cons_self)
          show replayFrom (Function.update m k' none) rest k = _
          rw [ih _ hrest]
          -- the deleted key differs from `k`, and puts read nothing of the map
          generalize rest.filter Event.isPut = ps
          suffices hcongr : ∀ (ps : List (Event κ ν)) (m m' : κ → Option ν), m k = m' k →
              replayFrom m ps k = replayFrom m' ps k from
            hcongr ps _ _ (Function.update_of_ne hk _ _)
          intro ps
          induction ps with
          | nil => exact fun m m' hm => hm
          | cons e ps ihp =>
              intro m m' hm
              refine ihp _ _ ?_
              cases e with
              | put k'' v => by_cases hk'' : k = k'' <;> simp [Event.apply, hk'', hm]
              | del k'' => by_cases hk'' : k = k'' <;> simp [Event.apply, hk'', hm]

open scoped Classical in
theorem replayByKind_apply (es : List (Event κ ν)) (k : κ) :
    replayByKind es k =
      if Event.del k ∈ es then none else replay (es.filter Event.isPut) k :=
  replayFrom_dels _ es k

/-- Grouping loses keys but never moves one. -/
theorem replay_of_replayByKind {es : List (Event κ ν)} {k : κ} {v : ν}
    (h : replayByKind es k = some v) : Event.del k ∉ es ∧ replay es k = some v := by
  rw [replayByKind_apply] at h
  split at h
  · cases h
  · rename_i hdel
    exact ⟨hdel, (replayFrom_of_no_del _ es k hdel).trans h⟩

/-- The two replays agree on `k` exactly when `k` ends absent or was never
deleted. -/
theorem replayByKind_eq_replay_iff (es : List (Event κ ν)) (k : κ) :
    replayByKind es k = replay es k ↔ (replay es k ≠ none → Event.del k ∉ es) := by
  constructor
  · intro h hsome
    obtain ⟨v, hv⟩ := Option.ne_none_iff_exists'.mp hsome
    exact (replay_of_replayByKind (h.trans hv)).1
  · intro h
    by_cases hdel : Event.del k ∈ es
    · have hnone : replay es k = none := by
        by_contra hsome
        exact h hsome hdel
      rw [replayByKind_apply, if_pos hdel, hnone]
    · rw [replayByKind_apply, if_neg hdel]
      exact (replayFrom_of_no_del _ es k hdel).symm

/-! ## Growing a log -/

/-- Only the puts of a key put it anywhere. -/
theorem mem_of_replayFrom {m : κ → Option ν} {es : List (Event κ ν)} {k : κ} {v : ν}
    (h : replayFrom m es k = some v) : m k = some v ∨ Event.put k v ∈ es := by
  induction es generalizing m with
  | nil => exact .inl h
  | cons e rest ih =>
      rcases ih h with hm | hmem
      · cases e with
        | put k' v' =>
            by_cases hk : k = k'
            · subst hk
              have hv : v' = v := by simpa [Event.apply] using hm
              exact .inr (hv ▸ List.mem_cons_self)
            · exact .inl (by simpa [Event.apply, hk] using hm)
        | del k' =>
            by_cases hk : k = k'
            · subst hk
              simp [Event.apply] at hm
            · exact .inl (by simpa [Event.apply, hk] using hm)
      · exact .inr (List.mem_cons_of_mem _ hmem)

theorem mem_of_replayByKind {es : List (Event κ ν)} {k : κ} {v : ν}
    (h : replayByKind es k = some v) : Event.put k v ∈ es := by
  rcases mem_of_replayFrom (replay_of_replayByKind h).2 with hm | hmem
  · cases hm
  · exact hmem

/-- Appending events that put only `k` at `v` moves no other key. -/
theorem replayByKind_append {es fs : List (Event κ ν)} {k k' : κ} {v v' : ν}
    (hfs : ∀ k'' v'', Event.put k'' v'' ∈ fs → k'' = k ∧ v'' = v)
    (h : replayByKind (es ++ fs) k' = some v') :
    replayByKind es k' = some v' ∨ (k' = k ∧ v' = v) := by
  obtain ⟨hdel, hput⟩ := replay_of_replayByKind h
  rw [replay_append] at hput
  rcases mem_of_replayFrom hput with hold | hmem
  · refine .inl ?_
    have hno : Event.del k' ∉ es := fun hm => hdel (List.mem_append_left _ hm)
    rw [(replayByKind_eq_replay_iff es k').mpr fun _ => hno]
    exact hold
  · exact .inr (hfs k' v' hmem)

end Clab.EventLog
