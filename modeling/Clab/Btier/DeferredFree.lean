import Clab.Btier.MapCalls

/-!
# Deferred releases

What the calls of a run put on the deferred-free list, and which call gives it
back. An entry's age is the number of `process_deferred_free` calls since it
was put there, so the list and every pass over it are read off the run.
-/

namespace Clab.Btier

open Clab.Blk

namespace ExtentStore

variable {A : Type} [Allocator A]

/-! ## One call -/

/-- The locations a call puts on the list. -/
def defers (s : ExtentStore A) : MapCall → List DiskLocation
  | .free id => (s.em.getLocation id).toList
  | .commitMigration h newLoc =>
      if (s.em.commitMigration h newLoc).1 then (s.em.getLocation h.extentId).toList else []
  | .releaseSource loc => [loc]
  | _ => []

/-- The locations a call gives back to their allocators. -/
def releases (s : ExtentStore A) : MapCall → List DiskLocation
  | .processDeferredFree =>
      (s.em.deferredFree.filter fun d => s.em.seqno - d.addedAtSeqno ≥ 2).map DeferredFreeEntry.loc
  | _ => []

/-- One location back to the allocator of its tier. -/
def giveBack (alloc : Tier → A) (loc : DiskLocation) : Tier → A :=
  Function.update alloc loc.tier (Allocator.release (alloc loc.tier) [⟨loc.offset, loc.length⟩])

theorem alloc_processDeferredFree (s : ExtentStore A) :
    (s.run .processDeferredFree).alloc =
      (s.releases .processDeferredFree).foldl giveBack s.alloc := by
  show List.foldl _ s.alloc _ = _
  rw [releases, List.foldl_map]
  rfl

/-- What an extent map keeps when a call only looks after its entries. -/
structure SameDeferred (em em' : ExtentMap) : Prop where
  deferredFree : em'.deferredFree = em.deferredFree
  seqno : em'.seqno = em.seqno

theorem SameDeferred.refl (em : ExtentMap) : SameDeferred em em := ⟨rfl, rfl⟩

/-- A call other than a pass appends what it defers, at the present count of
passes. -/
theorem run_defers (s : ExtentStore A) {c : MapCall} (hc : c ≠ .processDeferredFree) :
    (s.run c).em.deferredFree =
        s.em.deferredFree ++ (s.defers c).map (fun loc => ⟨loc, s.em.seqno⟩) ∧
      (s.run c).em.seqno = s.em.seqno := by
  have hsame : ∀ em', SameDeferred s.em em' →
      em'.deferredFree = s.em.deferredFree ++ ([] : List DiskLocation).map (⟨·, s.em.seqno⟩) ∧
        em'.seqno = s.em.seqno := by
    intro em' h
    exact ⟨by simp [h.deferredFree], h.seqno⟩
  cases c with
  | allocateExtent tier size =>
      refine hsame _ ?_
      show SameDeferred s.em (s.em.allocateExtent s.alloc s.dev tier size).2.1.wrapNextId
      generalize hall : s.em.allocateExtent s.alloc s.dev tier size = out
      obtain ⟨res, em', al, d⟩ := out
      rcases ExtentMap.allocateExtent_cases hall with ⟨-, rfl, -⟩ | ⟨loc, -, rfl, -⟩
      · exact ⟨rfl, rfl⟩
      · exact ⟨rfl, rfl⟩
  | appendSlot id size =>
      refine hsame _ ?_
      show SameDeferred s.em (s.em.appendSlot id size).2
      unfold ExtentMap.appendSlot
      split
      · exact ⟨rfl, rfl⟩
      · dsimp only
        repeat' split
        all_goals exact ⟨rfl, rfl⟩
  | markDeadSlot id length =>
      refine hsame _ ?_
      show SameDeferred s.em (s.em.markDeadSlot id length)
      unfold ExtentMap.markDeadSlot
      split <;> exact ⟨rfl, rfl⟩
  | beginMigration id =>
      refine hsame _ ?_
      show SameDeferred s.em (s.em.beginMigration id).2
      unfold ExtentMap.beginMigration
      repeat' split
      all_goals exact ⟨rfl, rfl⟩
  | abortMigration h =>
      refine hsame _ ?_
      show SameDeferred s.em (s.em.abortMigration h)
      unfold ExtentMap.abortMigration
      repeat' split
      all_goals exact ⟨rfl, rfl⟩
  | createEntryFromJournal id loc => exact hsame _ ⟨rfl, rfl⟩
  | restoreExtentState id used live =>
      refine hsame _ ?_
      show SameDeferred s.em (s.em.restoreExtentState id used live)
      unfold ExtentMap.restoreExtentState
      split <;> exact ⟨rfl, rfl⟩
  | releaseSource loc => exact ⟨rfl, rfl⟩
  | commitMigration h newLoc =>
      show (s.em.commitMigration h newLoc).2.deferredFree = _ ++ (List.map _ (if _ then _ else _)) ∧
        (s.em.commitMigration h newLoc).2.seqno = _
      generalize hcm : s.em.commitMigration h newLoc = out
      obtain ⟨ok, em'⟩ := out
      rcases ExtentMap.commitMigration_spec hcm with ⟨rfl, rfl, -⟩ |
        ⟨e, e', he, -, -, -, rfl, rfl⟩
      · exact hsame _ (SameDeferred.refl _)
      · refine ⟨?_, rfl⟩
        simp [ExtentMap.getLocation, he, ExtentMap.addDeferredFree, ExtentMap.markDirty,
          ExtentMap.setEntry]
  | free id =>
      show (s.em.free id).deferredFree = _ ++ List.map _ (s.em.getLocation id).toList ∧ _
      show _ ∧ (s.em.free id).seqno = _
      unfold ExtentMap.free ExtentMap.getLocation
      cases he : s.em.lookup id with
      | none => exact hsame _ (SameDeferred.refl _)
      | some e => exact ⟨rfl, rfl⟩
  | processDeferredFree => exact absurd rfl hc

/-- A pass drops the entries it gives back and counts itself. -/
theorem run_passes (s : ExtentStore A) :
    (s.run .processDeferredFree).em.deferredFree =
        s.em.deferredFree.filter (fun d => !(s.em.seqno - d.addedAtSeqno ≥ 2)) ∧
      (s.run .processDeferredFree).em.seqno = s.em.seqno + 1 :=
  ⟨rfl, rfl⟩

/-! ## Runs -/

/-- The state a run has reached before its call `k`. -/
def before (s : ExtentStore A) (calls : List MapCall) (k : Nat) : ExtentStore A :=
  s.after (calls.take k)

/-- What call `i` of a run puts on the list. -/
def deferredBy (s : ExtentStore A) (calls : List MapCall) (i : Nat) : List DiskLocation :=
  match calls[i]? with
  | some c => (s.before calls i).defers c
  | none => []

/-- The `process_deferred_free` calls from call `i` on and before call `k`. -/
def passesBetween (calls : List MapCall) (i k : Nat) : Nat :=
  ((calls.take k).drop i).count .processDeferredFree

theorem before_succ (s : ExtentStore A) {calls : List MapCall} {k : Nat} {c : MapCall}
    (hc : calls[k]? = some c) : s.before calls (k + 1) = (s.before calls k).run c := by
  unfold before
  rw [List.take_add_one, hc, after_append]
  rfl

theorem passesBetween_succ {calls : List MapCall} {i k : Nat} {c : MapCall}
    (hc : calls[k]? = some c) (hik : i ≤ k) :
    passesBetween calls i (k + 1) =
      passesBetween calls i k + if c = .processDeferredFree then 1 else 0 := by
  have hk : k < calls.length := (List.getElem?_eq_some_iff.mp hc).1
  unfold passesBetween
  rw [List.take_add_one, hc, List.drop_append_of_le_length (by
    rw [List.length_take]
    omega), List.count_append]
  congr 1
  by_cases h : c = .processDeferredFree
  · simp [h]
  · simp [h]

theorem passesBetween_self (calls : List MapCall) (k : Nat) : passesBetween calls k k = 0 := by
  unfold passesBetween
  rw [List.drop_eq_nil_of_le (by rw [List.length_take]; omega)]
  rfl

theorem passesBetween_split (calls : List MapCall) {i k : Nat} (hik : i ≤ k) :
    passesBetween calls 0 k = passesBetween calls 0 i + passesBetween calls i k := by
  have htake : (calls.take k).take i = calls.take i := by
    rw [List.take_take, Nat.min_eq_left hik]
  unfold passesBetween
  rw [List.drop_zero, List.drop_zero, ← List.count_append, ← htake, List.take_append_drop]

/-- The entries of one age pass a test of ages together. -/
theorem filter_age (p : Nat → Bool) (now added : Nat) (locs : List DiskLocation) :
    ((locs.map (⟨·, added⟩) : List DeferredFreeEntry).filter fun d => p (now - d.addedAtSeqno)) =
      if p (now - added) then locs.map (⟨·, added⟩) else [] := by
  cases h : p (now - added) <;> simp [List.filter_map, Function.comp_def, h]

/-- A test of ages on the list: the age of what call `i` put there is the
number of passes since. -/
theorem filter_deferred (s : ExtentStore A) (p : Nat → Bool) (calls : List MapCall) (k : Nat) :
    ((List.range k).flatMap fun i =>
        if passesBetween calls i k < 3 then
          (s.deferredBy calls i).map (⟨·, passesBetween calls 0 i⟩)
        else []).filter (fun d : DeferredFreeEntry => p (passesBetween calls 0 k - d.addedAtSeqno)) =
      (List.range k).flatMap fun i =>
        if passesBetween calls i k < 3 ∧ p (passesBetween calls i k) then
          (s.deferredBy calls i).map (⟨·, passesBetween calls 0 i⟩)
        else [] := by
  rw [List.filter_flatMap]
  refine List.flatMap_congr fun i hi => ?_
  have hage : passesBetween calls 0 k - passesBetween calls 0 i = passesBetween calls i k := by
    have := passesBetween_split calls (List.mem_range.mp hi).le
    omega
  by_cases hlate : passesBetween calls i k < 3
  · rw [if_pos hlate, filter_age, hage]
    simp only [hlate, true_and]
  · rw [if_neg hlate, if_neg fun h => hlate h.1]
    rfl

/-- The list at any time holds what was put there fewer than three passes ago,
in the order it was put there, with the count of passes at that time. -/
theorem deferredFree_before {s : ExtentStore A} (hempty : s.em.deferredFree = [])
    (hseqno : s.em.seqno = 0) {calls : List MapCall} {k : Nat} (hk : k ≤ calls.length) :
    (s.before calls k).em.seqno = passesBetween calls 0 k ∧
      (s.before calls k).em.deferredFree = (List.range k).flatMap fun i =>
        if passesBetween calls i k < 3 then
          (s.deferredBy calls i).map (⟨·, passesBetween calls 0 i⟩)
        else [] := by
  induction k with
  | zero =>
      refine ⟨?_, ?_⟩
      · exact hseqno.trans (passesBetween_self calls 0).symm
      · exact hempty
  | succ k ih =>
      obtain ⟨hseq, hlist⟩ := ih (by omega)
      have hc : calls[k]? = some calls[k] := List.getElem?_eq_getElem (by omega)
      generalize calls[k] = c at hc
      have hby : s.deferredBy calls k = (s.before calls k).defers c := by
        unfold deferredBy
        rw [hc]
      rw [before_succ s hc, List.range_succ, List.flatMap_append, List.flatMap_singleton,
        passesBetween_succ hc (Nat.zero_le k), passesBetween_succ hc (Nat.le_refl k),
        passesBetween_self]
      by_cases hpass : c = .processDeferredFree
      · -- the pass: what was put there two passes ago leaves
        subst hpass
        have hnone : s.deferredBy calls k = [] := hby
        obtain ⟨hkept, hcount⟩ := run_passes (s.before calls k)
        rw [hkept, hcount, hseq, hlist, hnone, if_pos rfl]
        refine ⟨rfl, ?_⟩
        simp only [List.map_nil, ite_self, List.append_nil]
        rw [filter_deferred s (fun age => !decide (age ≥ 2)) calls k]
        refine List.flatMap_congr fun i hi => ?_
        rw [passesBetween_succ hc (List.mem_range.mp hi).le, if_pos rfl]
        refine if_congr ?_ rfl rfl
        simp only [Bool.not_eq_true', decide_eq_false_iff_not]
        omega
      · obtain ⟨hput, hcount⟩ := run_defers (s.before calls k) hpass
        rw [hput, hcount, hseq, hlist, hby, if_neg hpass, if_pos (by norm_num)]
        refine ⟨rfl, ?_⟩
        congr 1
        refine List.flatMap_congr fun i hi => ?_
        rw [passesBetween_succ hc (List.mem_range.mp hi).le, if_neg hpass, Nat.add_zero]

/-- A call gives back what was put on the list three passes ago, itself
counted, if it is a pass, and nothing otherwise. -/
theorem releases_before {s : ExtentStore A} (hempty : s.em.deferredFree = [])
    (hseqno : s.em.seqno = 0) {calls : List MapCall} {j : Nat} {c : MapCall}
    (hc : calls[j]? = some c) :
    (s.before calls j).releases c =
      if c = .processDeferredFree then (List.range j).flatMap fun i =>
        if passesBetween calls i (j + 1) = 3 then s.deferredBy calls i else []
      else [] := by
  by_cases hpass : c = .processDeferredFree
  · subst hpass
    have hj : j < calls.length := (List.getElem?_eq_some_iff.mp hc).1
    obtain ⟨hseq, hlist⟩ := deferredFree_before hempty hseqno hj.le
    rw [if_pos rfl]
    show (List.filter _ _).map _ = _
    rw [hseq, hlist, filter_deferred s (fun age => decide (age ≥ 2)) calls j, List.map_flatMap]
    refine List.flatMap_congr fun i hi => ?_
    rw [passesBetween_succ hc (List.mem_range.mp hi).le, if_pos rfl]
    -- two passes before this one is three with it
    by_cases hthird : passesBetween calls i j = 2
    · simp [hthird, Function.comp_def]
    · have hnot : ¬ (passesBetween calls i j < 3 ∧
          decide (passesBetween calls i j ≥ 2) = true) := by
        simp only [decide_eq_true_eq]
        omega
      rw [if_neg hnot, if_neg (by omega)]
      rfl
  · rw [if_neg hpass]
    cases c with
    | processDeferredFree => exact absurd rfl hpass
    | _ => rfl

/-! ## Locations in use -/

/-- The contract of a call: a location given to `release_source` is no
extent's, and one given to an extent is neither an extent's nor waiting to be
released. -/
def Careful (s : ExtentStore A) (c : MapCall) : Prop :=
  (∀ loc, c = .releaseSource loc → ∀ id, s.em.getLocation id ≠ some loc) ∧
    ∀ loc, s.entered c = some loc → (∀ id, s.em.getLocation id ≠ some loc) ∧
      ∀ d ∈ s.em.deferredFree, d.loc ≠ loc

/-- Extents have different locations, and none that waits to be released. -/
structure Apart (em : ExtentMap) : Prop where
  waiting : ∀ d ∈ em.deferredFree, ∀ id, em.getLocation id ≠ some d.loc
  single : ∀ id id' loc, em.getLocation id = some loc → em.getLocation id' = some loc → id = id'

theorem Apart.of_subset {em em' : ExtentMap} (h : Apart em)
    (hlist : ∀ d ∈ em'.deferredFree, d ∈ em.deferredFree)
    (hloc : ∀ id, em'.getLocation id = em.getLocation id) : Apart em' := by
  refine ⟨fun d hd id => ?_, fun id id' loc hid hid' => ?_⟩
  · rw [hloc]
    exact h.waiting d (hlist d hd) id
  · rw [hloc] at hid hid'
    exact h.single id id' loc hid hid'

/-- An extent gets a new place; its old one may go on the list. -/
theorem Apart.place {em em' : ExtentMap} (h : Apart em) {id : Nat} {loc : DiskLocation}
    (hfree : ∀ i, em.getLocation i ≠ some loc) (hwait : ∀ d ∈ em.deferredFree, d.loc ≠ loc)
    (hlist : ∀ d ∈ em'.deferredFree, d ∈ em.deferredFree ∨ em.getLocation id = some d.loc)
    (hloc : ∀ i, em'.getLocation i = if i = id then some loc else em.getLocation i) :
    Apart em' := by
  refine ⟨fun d hd i => ?_, fun i i' l hi hi' => ?_⟩
  · rw [hloc]
    split
    · intro heq
      cases heq
      rcases hlist d hd with hd | hd
      · exact hwait d hd rfl
      · exact hfree id hd
    · rename_i hne
      intro heq
      rcases hlist d hd with hd | hd
      · exact h.waiting d hd i heq
      · exact hne (h.single i id d.loc heq hd)
  · rw [hloc] at hi hi'
    split at hi <;> split at hi'
    · rename_i h₁ h₂
      exact h₁.trans h₂.symm
    · cases hi
      exact absurd hi' (hfree i')
    · cases hi'
      exact absurd hi (hfree i)
    · exact h.single i i' l hi hi'

/-- An extent leaves the map; its place may go on the list. -/
theorem Apart.leave {em em' : ExtentMap} (h : Apart em) {id : Nat}
    (hlist : ∀ d ∈ em'.deferredFree, d ∈ em.deferredFree ∨ em.getLocation id = some d.loc)
    (hloc : ∀ i, em'.getLocation i = if i = id then none else em.getLocation i) :
    Apart em' := by
  refine ⟨fun d hd i => ?_, fun i i' l hi hi' => ?_⟩
  · rw [hloc]
    split
    · simp
    · rename_i hne
      intro heq
      rcases hlist d hd with hd | hd
      · exact h.waiting d hd i heq
      · exact hne (h.single i id d.loc heq hd)
  · rw [hloc] at hi hi'
    split at hi <;> split at hi'
    · cases hi
    · cases hi
    · cases hi'
    · exact h.single i i' l hi hi'

/-- An entry replaced by one in the same place moves nothing. -/
theorem getLocation_of_lookup {em em' : ExtentMap} {id : Nat} {e e' : ExtentEntry}
    (he : em.lookup id = some e) (hl : e'.location = e.location)
    (h : ∀ i, em'.lookup i = if i = id then some e' else em.lookup i) (i : Nat) :
    em'.getLocation i = em.getLocation i := by
  unfold ExtentMap.getLocation
  rw [h]
  split
  · rename_i hi
    rw [hi, he]
    exact congrArg some hl
  · rfl

/-- The calls that neither enter nor move an extent leave every one where it is. -/
theorem getLocation_run {s : ExtentStore A} {c : MapCall} (hc : s.entered c = none)
    (hfree : ∀ id, c ≠ .free id) (i : Nat) :
    (s.run c).em.getLocation i = s.em.getLocation i := by
  cases c with
  | allocateExtent tier size =>
      show (s.em.allocateExtent s.alloc s.dev tier size).2.1.getLocation i = _
      generalize hall : s.em.allocateExtent s.alloc s.dev tier size = out
      obtain ⟨res, em', al, d⟩ := out
      rcases ExtentMap.allocateExtent_cases hall with ⟨-, rfl, -⟩ | ⟨loc, -, -, hsome, -⟩
      · rfl
      · have hne := hsome.symm.trans hc
        cases hne
  | appendSlot id size =>
      show (s.em.appendSlot id size).2.getLocation i = _
      generalize hap : s.em.appendSlot id size = out
      obtain ⟨off, em'⟩ := out
      rcases ExtentMap.appendSlot_cases hap with ⟨-, rfl⟩ |
        ⟨e, e', he, -, -, -, -, -, hl, -, -, hlookup⟩
      · rfl
      · exact getLocation_of_lookup he hl hlookup i
  | markDeadSlot id length =>
      show ((s.em.markDeadSlot id length).lookup i).map _ = _
      rw [ExtentMap.lookup_markDeadSlot]
      split
      · rename_i hi
        rw [hi, ExtentMap.getLocation, Option.map_map]
        rfl
      · rfl
  | beginMigration id =>
      show (s.em.beginMigration id).2.getLocation i = _
      generalize hb : s.em.beginMigration id = out
      obtain ⟨h, em'⟩ := out
      rcases ExtentMap.beginMigration_cases hb with ⟨-, rfl, -⟩ | ⟨e, e', he, -, -, hl, -, rfl⟩
      · rfl
      · exact ExtentMap.getLocation_setEntry_same he hl i
  | commitMigration h newLoc =>
      show (s.em.commitMigration h newLoc).2.getLocation i = _
      change (if (s.em.commitMigration h newLoc).1 = true then some newLoc else none) = none at hc
      generalize hcm : s.em.commitMigration h newLoc = out at hc
      obtain ⟨ok, em'⟩ := out
      rcases ExtentMap.commitMigration_cases hcm with ⟨-, rfl, -⟩ | ⟨e, -, rfl, -⟩
      · rfl
      · cases hc
  | abortMigration h => exact ExtentMap.getLocation_abortMigration s.em h i
  | createEntryFromJournal id loc => cases hc
  | restoreExtentState id used live =>
      show ((s.em.restoreExtentState id used live).lookup i).map _ = _
      rw [ExtentMap.lookup_restoreExtentState]
      split
      · rename_i hi
        rw [hi, ExtentMap.getLocation, Option.map_map]
        rfl
      · rfl
  | releaseSource loc => rfl
  | free id => exact absurd rfl (hfree id)
  | processDeferredFree => rfl

/-- A call that enters or moves an extent gives it the place it says, and only
a place the extent had goes on the list. -/
theorem getLocation_entered {s : ExtentStore A} {c : MapCall} {loc : DiskLocation}
    (hc : s.entered c = some loc) :
    ∃ id, (∀ d ∈ (s.run c).em.deferredFree, d ∈ s.em.deferredFree ∨
        s.em.getLocation id = some d.loc) ∧
      ∀ i, (s.run c).em.getLocation i = if i = id then some loc else s.em.getLocation i := by
  cases c with
  | allocateExtent tier size =>
      show ∃ id, (∀ d ∈ (s.em.allocateExtent s.alloc s.dev tier size).2.1.deferredFree, _) ∧
        ∀ i, (s.em.allocateExtent s.alloc s.dev tier size).2.1.getLocation i = _
      generalize hall : s.em.allocateExtent s.alloc s.dev tier size = out
      obtain ⟨res, em', al, d⟩ := out
      rcases ExtentMap.allocateExtent_cases hall with ⟨-, -, -, hnone⟩ | ⟨l, -, rfl, hsome, -⟩
      · have hne := hnone.symm.trans hc
        cases hne
      · have heq := hsome.symm.trans hc
        cases heq
        refine ⟨s.em.nextExtentId, fun d hd => .inl hd, fun i => ?_⟩
        unfold ExtentMap.getLocation
        rw [ExtentMap.lookup_addEntry]
        split <;> rfl
  | commitMigration h newLoc =>
      show ∃ id, (∀ d ∈ (s.em.commitMigration h newLoc).2.deferredFree, _) ∧
        ∀ i, (s.em.commitMigration h newLoc).2.getLocation i = _
      change (if (s.em.commitMigration h newLoc).1 = true then some newLoc else none) = _ at hc
      generalize hcm : s.em.commitMigration h newLoc = out at hc
      obtain ⟨ok, em'⟩ := out
      rcases ExtentMap.commitMigration_spec hcm with ⟨rfl, -⟩ | ⟨e, e', he, -, hl, -, rfl, rfl⟩
      · cases hc
      · cases hc
        refine ⟨h.extentId, fun d hd => ?_, fun i => ?_⟩
        · rcases List.mem_append.mp hd with hd | hd
          · exact .inl hd
          · right
            rw [List.mem_singleton.mp hd, ExtentMap.getLocation, he]
            rfl
        · show (ExtentMap.setEntry _ _ _).getLocation i = _
          rw [ExtentMap.getLocation_setEntry, hl]
  | createEntryFromJournal id l =>
      cases hc
      refine ⟨id, fun d hd => .inl hd, fun i => ?_⟩
      show ((s.em.createEntryFromJournal id loc).lookup i).map _ = _
      rw [ExtentMap.lookup_createEntryFromJournal]
      split <;> rfl
  | _ => cases hc

/-- A call that moves no extent defers at most the location it is given. -/
theorem defers_of_entered {s : ExtentStore A} {c : MapCall} (hc : s.entered c = none)
    (hfree : ∀ id, c ≠ .free id) {loc : DiskLocation} (hloc : loc ∈ s.defers c) :
    c = .releaseSource loc := by
  cases c with
  | releaseSource l => rw [List.mem_singleton.mp hloc]
  | free id => exact absurd rfl (hfree id)
  | commitMigration h newLoc =>
      simp only [defers, entered] at hloc hc
      split at hc
      · cases hc
      · rename_i hok
        rw [if_neg hok] at hloc
        cases hloc
  | _ => cases hloc

theorem Apart.run {s : ExtentStore A} (h : Apart s.em) {c : MapCall} (hc : s.Careful c) :
    Apart (s.run c).em := by
  obtain ⟨hrelease, henter⟩ := hc
  by_cases hpass : c = .processDeferredFree
  · subst hpass
    exact h.of_subset (fun d hd => (List.mem_filter.mp hd).1) fun i => rfl
  cases hent : s.entered c with
  | some loc =>
      obtain ⟨hfree, hwait⟩ := henter loc hent
      obtain ⟨id, hlist, hloc⟩ := getLocation_entered hent
      exact h.place hfree hwait hlist hloc
  | none =>
      have hput := (run_defers s hpass).1
      by_cases hfree : ∃ id, c = .free id
      · obtain ⟨id, rfl⟩ := hfree
        refine @Apart.leave _ _ h id (fun d hd => ?_) fun i => ExtentMap.getLocation_free s.em id i
        rw [hput] at hd
        rcases List.mem_append.mp hd with hd | hd
        · exact .inl hd
        · obtain ⟨loc, hloc, rfl⟩ := List.mem_map.mp hd
          exact .inr (Option.mem_toList.mp hloc)
      · have hstay : ∀ id, c ≠ .free id := fun id heq => hfree ⟨id, heq⟩
        have hsame := getLocation_run hent hstay
        refine ⟨fun d hd i => ?_, fun i i' l hi hi' => ?_⟩
        · rw [hsame]
          rw [hput] at hd
          rcases List.mem_append.mp hd with hd | hd
          · exact h.waiting d hd i
          · obtain ⟨loc, hloc, rfl⟩ := List.mem_map.mp hd
            exact hrelease loc (defers_of_entered hent hstay hloc) i
        · rw [hsame] at hi hi'
          exact h.single i i' l hi hi'

theorem Apart.before {s : ExtentStore A} (h : Apart s.em) {calls : List MapCall}
    (hc : Keeps Careful s calls) (k : Nat) : Apart (s.before calls k).em := by
  induction calls generalizing s k with
  | nil =>
      unfold ExtentStore.before
      rw [List.take_nil]
      exact h
  | cons c rest ih =>
      cases k with
      | zero => exact h
      | succ k => exact ih (h.run hc.1) hc.2 k

omit [Allocator A] in
theorem mem_releases {s : ExtentStore A} {c : MapCall} {loc : DiskLocation}
    (h : loc ∈ s.releases c) : ∃ d ∈ s.em.deferredFree, d.loc = loc := by
  cases c with
  | processDeferredFree =>
      obtain ⟨d, hd, rfl⟩ := List.mem_map.mp h
      exact ⟨d, (List.mem_filter.mp hd).1, rfl⟩
  | _ => cases h

/-- The deferred-free list over any run from a new map: it holds what was put
there fewer than three passes ago, in that order; a pass gives back to the
allocators exactly what it is the third pass for since it was put there; and
where every call keeps the contract on locations, nothing given back is the
location of an extent. -/
theorem deferred_free_once_and_late (blockSize extentSize : Nat) (alloc : Tier → A)
    (dev : Tier → BlockDevice) (calls : List MapCall) :
    let s := new blockSize extentSize alloc dev
    (∀ k ≤ calls.length,
      (s.before calls k).em.deferredFree.map DeferredFreeEntry.loc =
        (List.range k).flatMap fun i =>
          if passesBetween calls i k < 3 then s.deferredBy calls i else []) ∧
    (∀ j c, calls[j]? = some c →
      (s.before calls j).releases c =
        if c = .processDeferredFree then (List.range j).flatMap fun i =>
          if passesBetween calls i (j + 1) = 3 then s.deferredBy calls i else []
        else []) ∧
    (∀ j, calls[j]? = some .processDeferredFree →
      (s.before calls (j + 1)).alloc =
        ((s.before calls j).releases .processDeferredFree).foldl giveBack
          (s.before calls j).alloc) ∧
    (Keeps Careful s calls → ∀ j c, calls[j]? = some c →
      ∀ loc ∈ (s.before calls j).releases c, ∀ id,
        (s.before calls j).em.getLocation id ≠ some loc) := by
  intro s
  have hempty : s.em.deferredFree = [] := rfl
  have hapart : Apart s.em :=
    ⟨fun d hd => (by cases hd), fun id id' loc h => (by cases h)⟩
  refine ⟨fun k hk => ?_, fun j c hc => releases_before hempty rfl hc, fun j hc => ?_,
    fun hcareful j c _ loc hloc id => ?_⟩
  · rw [(deferredFree_before hempty rfl hk).2, List.map_flatMap]
    refine List.flatMap_congr fun i _ => ?_
    split
    · simp [Function.comp_def]
    · rfl
  · rw [before_succ s hc]
    exact alloc_processDeferredFree _
  · obtain ⟨d, hd, rfl⟩ := mem_releases hloc
    exact (hapart.before hcareful j).waiting d hd id

end ExtentStore

/-- The location of an extent is given to `release_source`, and three passes
follow. -/
def releasedInUse : List MapCall :=
  [.createEntryFromJournal 1 ⟨0, 4096, .FAST⟩, .releaseSource ⟨0, 4096, .FAST⟩,
    .processDeferredFree, .processDeferredFree, .processDeferredFree]

/-- The third pass gives the location back while the extent is there. -/
theorem releasedInUse_located :
    let s := emptyStore.before releasedInUse 4
    releasedInUse[4]? = some .processDeferredFree ∧
      s.releases .processDeferredFree = [⟨0, 4096, .FAST⟩] ∧
      s.em.getLocation 1 = some ⟨0, 4096, .FAST⟩ := ⟨rfl, rfl, rfl⟩

/-- The extent is freed, and three passes follow. -/
def releasedAfterFree : List MapCall :=
  [.createEntryFromJournal 1 ⟨0, 4096, .FAST⟩, .free 1, .processDeferredFree,
    .processDeferredFree, .processDeferredFree]

/-- A call that gives no location to anything keeps the contract. -/
theorem careful_of_none {s : ExtentStore AvlAllocator} {c : MapCall}
    (hrelease : ∀ loc, c ≠ .releaseSource loc) (henter : s.entered c = none) : s.Careful c := by
  refine ⟨fun loc h => absurd h (hrelease loc), fun loc h => ?_⟩
  have hne := henter.symm.trans h
  cases hne

theorem releasedAfterFree_careful : ExtentStore.Keeps ExtentStore.Careful emptyStore releasedAfterFree := by
  have hcreate : emptyStore.Careful (.createEntryFromJournal 1 ⟨0, 4096, .FAST⟩) := by
    refine ⟨fun loc h => ?_, fun loc _ => ⟨fun id h => ?_, fun d hd => ?_⟩⟩
    · cases h
    · cases h
    · cases hd
  have hrest : ∀ (s : ExtentStore AvlAllocator), s.Careful (.free 1) ∧
      s.Careful .processDeferredFree := by
    intro s
    refine ⟨careful_of_none (fun loc h => ?_) rfl, careful_of_none (fun loc h => ?_) rfl⟩
    · cases h
    · cases h
  exact ⟨hcreate, (hrest _).1, (hrest _).2, (hrest _).2, (hrest _).2, trivial⟩

theorem deferred_free_once_and_late_freed :
    let s := emptyStore.before releasedAfterFree 4
    s.releases .processDeferredFree = [⟨0, 4096, .FAST⟩] ∧
      ∀ loc ∈ s.releases .processDeferredFree, ∀ id, s.em.getLocation id ≠ some loc :=
  ⟨rfl, (ExtentStore.deferred_free_once_and_late 4096 (2 ^ 22) _ _ releasedAfterFree).2.2.2
    releasedAfterFree_careful 4 _ rfl⟩

end Clab.Btier
