import Clab.Btier.Types

/-!
# The key map

`KeyMap` keeps, beside the map from keys to locations, a reverse index from
extents to the keys located in them. `Coherent` is the statement that the two
agree; every mutator preserves it, so the rest of the development reads
`keysInExtent` through the map.
-/

namespace Clab.Btier

/-- `kSequentialThreshold`. -/
def sequentialThreshold : Nat := 64 * 1024

/-- `kMaxSeqAward`. -/
def maxSeqAward : Nat := 63

structure KeyEntry where
  loc : KeyLocation := {}
  lastLba : Nat := 0
  consecutiveSequential : Nat := 0
  deriving DecidableEq, Repr

/-- `KeyMap::Impl`; hash maps are association lists without repeated keys. -/
structure KeyMap where
  map : AList (fun _ : Key => KeyEntry) := ∅
  reverseIndex : AList (fun _ : Nat => List Key) := ∅

namespace KeyMap

/-- `KeyMap::lookup`. -/
def lookup (km : KeyMap) (key : Key) : Option KeyLocation :=
  (km.map.lookup key).map KeyEntry.loc

/-- Remove `key` from the reverse-index set of `extentId`, dropping a set
that becomes empty. -/
def unindex (ri : AList (fun _ : Nat => List Key)) (extentId : Nat) (key : Key) :
    AList (fun _ : Nat => List Key) :=
  match ri.lookup extentId with
  | none => ri
  | some keys =>
      if (keys.erase key).isEmpty then ri.erase extentId
      else ri.insert extentId (keys.erase key)

/-- `reverse_index_[extentId].insert(key)`. -/
def index (ri : AList (fun _ : Nat => List Key)) (extentId : Nat) (key : Key) :
    AList (fun _ : Nat => List Key) :=
  ri.insert extentId (((ri.lookup extentId).getD []).insert key)

/-- The reverse index after `key` moves from its present location, if any, to
extent `extentId`. -/
def reindex (km : KeyMap) (key : Key) (extentId : Nat) :
    AList (fun _ : Nat => List Key) :=
  let ri := match km.lookup key with
    | some old => if old.extentId ≠ extentId then unindex km.reverseIndex old.extentId key
                  else km.reverseIndex
    | none => km.reverseIndex
  index ri extentId key

/-- `KeyMap::put`, with the stride tracking of the previous address. -/
def put (km : KeyMap) (key : Key) (loc : KeyLocation) (lba : Nat) : KeyMap :=
  let entry := (km.map.lookup key).getD {}
  let delta := if lba > entry.lastLba then lba - entry.lastLba else entry.lastLba - lba
  let seq :=
    if delta ≤ sequentialThreshold then
      if entry.consecutiveSequential < maxSeqAward then entry.consecutiveSequential + 1
      else entry.consecutiveSequential
    else 0
  { map := km.map.insert key { loc := loc, lastLba := lba, consecutiveSequential := seq }
    reverseIndex := km.reindex key loc.extentId }

/-- `KeyMap::erase`. -/
def erase (km : KeyMap) (key : Key) : KeyMap :=
  match km.map.lookup key with
  | none => km
  | some entry =>
      { map := km.map.erase key
        reverseIndex := unindex km.reverseIndex entry.loc.extentId key }

/-- `KeyMap::keys_in_extent`. -/
def keysInExtent (km : KeyMap) (extentId : Nat) : List Key :=
  (km.reverseIndex.lookup extentId).getD []

/-- One element of `KeyMap::batch_update`: the location changes, the stride
tracking does not. -/
def update (km : KeyMap) (key : Key) (newLoc : KeyLocation) : KeyMap :=
  { map := km.map.insert key { (km.map.lookup key).getD {} with loc := newLoc }
    reverseIndex := km.reindex key newLoc.extentId }

/-- `KeyMap::batch_update`. -/
def batchUpdate (km : KeyMap) (updates : List (Key × KeyLocation)) : KeyMap :=
  updates.foldl (fun m u => m.update u.1 u.2) km

/-! ## Lookup after each mutator -/

@[simp] theorem lookup_empty (key : Key) : ({} : KeyMap).lookup key = none := rfl

@[simp] theorem lookup_put (km : KeyMap) (key : Key) (loc : KeyLocation) (lba : Nat)
    (k : Key) :
    (km.put key loc lba).lookup k = if k = key then some loc else km.lookup k := by
  by_cases hk : k = key
  · subst hk
    simp [lookup, put]
  · simp [lookup, put, AList.lookup_insert_ne hk, hk]

@[simp] theorem lookup_update (km : KeyMap) (key : Key) (loc : KeyLocation) (k : Key) :
    (km.update key loc).lookup k = if k = key then some loc else km.lookup k := by
  by_cases hk : k = key
  · subst hk
    simp [lookup, update]
  · simp [lookup, update, AList.lookup_insert_ne hk, hk]

@[simp] theorem lookup_erase (km : KeyMap) (key k : Key) :
    (km.erase key).lookup k = if k = key then none else km.lookup k := by
  unfold erase
  cases hl : km.map.lookup key with
  | none =>
      by_cases hk : k = key
      · subst hk
        simp [lookup, hl]
      · simp [hk]
  | some entry =>
      by_cases hk : k = key
      · subst hk
        simp [lookup]
      · simp [lookup, AList.lookup_erase_ne hk, hk]

theorem lookup_batchUpdate_of_notMem (km : KeyMap) {updates : List (Key × KeyLocation)} {k : Key}
    (h : k ∉ updates.map Prod.fst) : (km.batchUpdate updates).lookup k = km.lookup k := by
  unfold batchUpdate
  induction updates generalizing km with
  | nil => rfl
  | cons u us ih =>
      rw [List.map_cons, List.mem_cons, not_or] at h
      rw [List.foldl_cons, ih _ h.2, lookup_update, if_neg h.1]

/-- A batch without repeated keys puts every key where it says. -/
theorem lookup_batchUpdate_of_mem (km : KeyMap) {updates : List (Key × KeyLocation)}
    (hnodup : (updates.map Prod.fst).Nodup) {u : Key × KeyLocation} (hu : u ∈ updates) :
    (km.batchUpdate updates).lookup u.1 = some u.2 := by
  induction updates generalizing km with
  | nil => cases hu
  | cons v vs ih =>
      rw [List.map_cons, List.nodup_cons] at hnodup
      rcases List.mem_cons.mp hu with rfl | hu
      · show ((km.update u.1 u.2).batchUpdate vs).lookup u.1 = _
        rw [lookup_batchUpdate_of_notMem _ hnodup.1, lookup_update, if_pos rfl]
      · exact ih _ hnodup.2 hu

/-! ## The reverse index -/

/-- The reverse index lists exactly the keys of each extent, each once, and
holds no empty set. -/
structure Coherent (km : KeyMap) : Prop where
  mem_iff : ∀ e k, k ∈ km.keysInExtent e ↔
    ∃ loc, km.lookup k = some loc ∧ loc.extentId = e
  nodup : ∀ e, (km.keysInExtent e).Nodup
  nonempty : ∀ e keys, km.reverseIndex.lookup e = some keys → keys ≠ []

/-- The set stored for `e`, empty when there is none. -/
def indexed (ri : AList (fun _ : Nat => List Key)) (e : Nat) : List Key :=
  (ri.lookup e).getD []

theorem indexed_unindex (ri : AList (fun _ : Nat => List Key)) (e : Nat) (key : Key)
    (e' : Nat) :
    indexed (unindex ri e key) e' =
      if e' = e then (indexed ri e).erase key else indexed ri e' := by
  unfold unindex
  cases hl : ri.lookup e with
  | none =>
      by_cases he : e' = e
      · subst he
        simp [indexed, hl]
      · simp [he]
  | some keys =>
      by_cases hempty : (keys.erase key).isEmpty
      · have hnil : keys.erase key = [] := List.isEmpty_iff.mp hempty
        by_cases he : e' = e
        · subst he
          simp [indexed, hl, hnil]
        · simp [indexed, hnil, AList.lookup_erase_ne he, he]
      · by_cases he : e' = e
        · subst he
          simp [indexed, hl, hempty]
        · simp [indexed, hempty, AList.lookup_insert_ne he, he]

theorem indexed_index (ri : AList (fun _ : Nat => List Key)) (e : Nat) (key : Key)
    (e' : Nat) :
    indexed (index ri e key) e' =
      if e' = e then (indexed ri e).insert key else indexed ri e' := by
  by_cases he : e' = e
  · subst he
    simp [indexed, index]
  · simp [indexed, index, AList.lookup_insert_ne he, he]

theorem unindex_ne_nil {ri : AList (fun _ : Nat => List Key)}
    (h : ∀ e keys, ri.lookup e = some keys → keys ≠ []) (e : Nat) (key : Key) :
    ∀ e' keys, (unindex ri e key).lookup e' = some keys → keys ≠ [] := by
  intro e' keys hl
  unfold unindex at hl
  cases hr : ri.lookup e with
  | none => exact h e' keys (by simpa [hr] using hl)
  | some old =>
      simp only [hr] at hl
      by_cases hempty : (old.erase key).isEmpty
      · rw [if_pos hempty] at hl
        by_cases he : e' = e
        · subst he
          simp at hl
        · exact h e' keys (by rwa [AList.lookup_erase_ne he] at hl)
      · rw [if_neg hempty] at hl
        by_cases he : e' = e
        · subst he
          rw [AList.lookup_insert] at hl
          cases hl
          simpa [List.isEmpty_iff] using hempty
        · exact h e' keys (by rwa [AList.lookup_insert_ne he] at hl)

theorem index_ne_nil {ri : AList (fun _ : Nat => List Key)}
    (h : ∀ e keys, ri.lookup e = some keys → keys ≠ []) (e : Nat) (key : Key) :
    ∀ e' keys, (index ri e key).lookup e' = some keys → keys ≠ [] := by
  intro e' keys hl
  unfold index at hl
  by_cases he : e' = e
  · subst he
    rw [AList.lookup_insert] at hl
    cases hl
    exact List.ne_nil_of_mem (List.mem_insert_self)
  · exact h e' keys (by rwa [AList.lookup_insert_ne he] at hl)

/-- Moving a key in the reverse index: it leaves every other set and joins the
set of its new extent. -/
theorem indexed_reindex {km : KeyMap} (hc : km.Coherent) (key : Key) (extentId e : Nat) :
    (∀ k, k ∈ indexed (km.reindex key extentId) e ↔
      if k = key then e = extentId else k ∈ km.keysInExtent e) ∧
    (indexed (km.reindex key extentId) e).Nodup := by
  have hmem := hc.mem_iff
  have hnd := hc.nodup
  change (∀ e k, k ∈ indexed km.reverseIndex e ↔ _) at hmem
  change (∀ e, (indexed km.reverseIndex e).Nodup) at hnd
  -- the set of `e` before the insertion: `key` may remain only in `extentId`
  have hpre : ∀ e, (∀ k, k ∈ indexed (match km.lookup key with
      | some old => if old.extentId ≠ extentId then unindex km.reverseIndex old.extentId key
                    else km.reverseIndex
      | none => km.reverseIndex) e ↔
        k ∈ indexed km.reverseIndex e ∧ (k = key → e = extentId)) ∧
      (indexed (match km.lookup key with
      | some old => if old.extentId ≠ extentId then unindex km.reverseIndex old.extentId key
                    else km.reverseIndex
      | none => km.reverseIndex) e).Nodup := by
    intro e
    cases hl : km.lookup key with
    | none =>
        refine ⟨fun k => ⟨fun hk => ⟨hk, fun hkey => ?_⟩, And.left⟩, hnd e⟩
        subst hkey
        obtain ⟨loc, hloc, -⟩ := (hmem e k).mp hk
        simp [hl] at hloc
    | some old =>
        by_cases hold : old.extentId = extentId
        · simp only [hold, ne_eq, not_true_eq_false, if_false]
          refine ⟨fun k => ⟨fun hk => ⟨hk, fun hkey => ?_⟩, And.left⟩, hnd e⟩
          subst hkey
          obtain ⟨loc, hloc, he⟩ := (hmem e k).mp hk
          rw [hl] at hloc
          cases hloc
          exact he.symm.trans hold
        · simp only [ne_eq, hold, not_false_eq_true, if_true, indexed_unindex]
          by_cases he : e = old.extentId
          · subst he
            simp only [if_true, List.Nodup.mem_erase_iff (hnd _), List.Nodup.erase key (hnd _),
              and_true]
            intro k
            constructor
            · rintro ⟨hne, hk⟩
              exact ⟨hk, fun h => absurd h hne⟩
            · rintro ⟨hk, h⟩
              exact ⟨fun hkey => hold (h hkey), hk⟩
          · simp only [he, if_false]
            refine ⟨fun k => ⟨fun hk => ⟨hk, fun hkey => ?_⟩, And.left⟩, hnd e⟩
            subst hkey
            obtain ⟨loc, hloc, hle⟩ := (hmem e k).mp hk
            rw [hl] at hloc
            cases hloc
            exact absurd hle.symm he
  unfold reindex
  simp only [indexed_index]
  by_cases he : e = extentId
  · subst he
    simp only [if_true, List.mem_insert_iff, (hpre e).1]
    refine ⟨fun k => ?_, List.Nodup.insert (hpre e).2⟩
    by_cases hk : k = key
    · simp [hk]
    · simp only [hk, false_or, if_false, IsEmpty.forall_iff, and_true]
      rfl
  · simp only [he, if_false, (hpre e).1]
    refine ⟨fun k => ?_, (hpre e).2⟩
    by_cases hk : k = key
    · simp [hk]
    · simp only [hk, IsEmpty.forall_iff, and_true, if_false]
      rfl

theorem reindex_ne_nil {km : KeyMap} (hc : km.Coherent) (key : Key) (extentId : Nat) :
    ∀ e keys, (km.reindex key extentId).lookup e = some keys → keys ≠ [] := by
  unfold reindex
  refine index_ne_nil ?_ extentId key
  cases km.lookup key with
  | none => exact hc.nonempty
  | some old =>
      by_cases hold : old.extentId = extentId
      · simpa [hold] using hc.nonempty
      · simpa [hold] using unindex_ne_nil hc.nonempty old.extentId key

theorem Coherent.empty : ({} : KeyMap).Coherent := by
  refine ⟨fun e k => ?_, fun e => ?_, fun e keys h => ?_⟩
  · simp [keysInExtent]
  · simp [keysInExtent]
  · simp at h

/-- A map whose lookups change at `key` only and whose index is `reindex` is
coherent again. -/
theorem Coherent.of_reindex {km km' : KeyMap} (hc : km.Coherent) {key : Key}
    {loc : KeyLocation}
    (hl : ∀ k, km'.lookup k = if k = key then some loc else km.lookup k)
    (hr : km'.reverseIndex = km.reindex key loc.extentId) : km'.Coherent := by
  refine ⟨fun e k => ?_, fun e => ?_, fun e keys h => ?_⟩
  · rw [show km'.keysInExtent e = indexed (km.reindex key loc.extentId) e by
      rw [← hr]; rfl, (indexed_reindex hc key loc.extentId e).1 k, hl k]
    by_cases hk : k = key
    · simp [hk, eq_comm]
    · simp only [hk, if_false]
      exact hc.mem_iff e k
  · rw [show km'.keysInExtent e = indexed (km.reindex key loc.extentId) e by
      rw [← hr]; rfl]
    exact (indexed_reindex hc key loc.extentId e).2
  · rw [hr] at h
    exact reindex_ne_nil hc key loc.extentId e keys h

theorem Coherent.put {km : KeyMap} (hc : km.Coherent) (key : Key) (loc : KeyLocation)
    (lba : Nat) : (km.put key loc lba).Coherent :=
  hc.of_reindex (lookup_put km key loc lba) rfl

theorem Coherent.update {km : KeyMap} (hc : km.Coherent) (key : Key) (loc : KeyLocation) :
    (km.update key loc).Coherent :=
  hc.of_reindex (lookup_update km key loc) rfl

theorem Coherent.batchUpdate {km : KeyMap} (hc : km.Coherent)
    (updates : List (Key × KeyLocation)) : (km.batchUpdate updates).Coherent := by
  induction updates generalizing km with
  | nil => exact hc
  | cons u rest ih => exact ih (hc.update u.1 u.2)

theorem Coherent.erase {km : KeyMap} (hc : km.Coherent) (key : Key) :
    (km.erase key).Coherent := by
  cases hm : km.map.lookup key with
  | none =>
      have heq : km.erase key = km := by simp [KeyMap.erase, hm]
      rw [heq]
      exact hc
  | some entry =>
      have hl : km.lookup key = some entry.loc := by simp [KeyMap.lookup, hm]
      have hr : (km.erase key).reverseIndex =
          unindex km.reverseIndex entry.loc.extentId key := by
        simp [KeyMap.erase, hm]
      have hk : ∀ e, (km.erase key).keysInExtent e =
          if e = entry.loc.extentId then (km.keysInExtent entry.loc.extentId).erase key
          else km.keysInExtent e := by
        intro e
        rw [show (km.erase key).keysInExtent e =
          indexed (unindex km.reverseIndex entry.loc.extentId key) e by rw [← hr]; rfl,
          indexed_unindex]
        rfl
      refine ⟨fun e k => ?_, fun e => ?_, fun e keys h => ?_⟩
      · rw [hk e, lookup_erase]
        by_cases he : e = entry.loc.extentId
        · subst he
          rw [if_pos rfl, List.Nodup.mem_erase_iff (hc.nodup _), hc.mem_iff]
          by_cases hkk : k = key <;> simp [hkk]
        · rw [if_neg he, hc.mem_iff]
          by_cases hkk : k = key
          · subst hkk
            simp [hl, eq_comm, he]
          · simp [hkk]
      · rw [hk e]
        split
        · exact List.Nodup.erase key (hc.nodup _)
        · exact hc.nodup e
      · rw [hr] at h
        exact unindex_ne_nil hc.nonempty _ key e keys h

/-- Erasing every key of an extent removes exactly the keys located there. -/
theorem lookup_erase_all (km : KeyMap) (keys : List Key) (k : Key) :
    (keys.foldl erase km).lookup k = if k ∈ keys then none else km.lookup k := by
  induction keys generalizing km with
  | nil => simp
  | cons key rest ih =>
      rw [List.foldl_cons, ih, lookup_erase]
      by_cases hk : k = key <;> by_cases hr : k ∈ rest <;> simp [hk, hr]

theorem Coherent.erase_all {km : KeyMap} (hc : km.Coherent) (keys : List Key) :
    (keys.foldl KeyMap.erase km).Coherent := by
  induction keys generalizing km with
  | nil => exact hc
  | cons key rest ih => exact ih (hc.erase key)

/-! ## Runs -/

/-- A call of one of the mutators. -/
inductive Call
  | put (key : Key) (loc : KeyLocation) (lba : Nat)
  | erase (key : Key)
  | batchUpdate (updates : List (Key × KeyLocation))
  deriving Repr

def Call.run (km : KeyMap) : Call → KeyMap
  | .put key loc lba => km.put key loc lba
  | .erase key => km.erase key
  | .batchUpdate updates => km.batchUpdate updates

/-- The map after the calls of a list, in their order. -/
def after (km : KeyMap) (calls : List Call) : KeyMap := calls.foldl Call.run km

theorem Coherent.run {km : KeyMap} (hc : km.Coherent) (c : Call) : (c.run km).Coherent := by
  cases c with
  | put key loc lba => exact hc.put key loc lba
  | erase key => exact hc.erase key
  | batchUpdate updates => exact hc.batchUpdate updates

theorem Coherent.after {km : KeyMap} (hc : km.Coherent) (calls : List Call) :
    (km.after calls).Coherent := by
  induction calls generalizing km with
  | nil => exact hc
  | cons c rest ih => exact ih (hc.run c)

/-- The set stored for an extent is what `keys_in_extent` returns for it, and a
set is stored only where that is not empty. -/
theorem Coherent.mem_stored {km : KeyMap} (hc : km.Coherent) (e : Nat) (k : Key) :
    (∃ keys, km.reverseIndex.lookup e = some keys ∧ k ∈ keys) ↔
      ∃ entry, km.map.lookup k = some entry ∧ entry.loc.extentId = e := by
  have hmem := hc.mem_iff e k
  constructor
  · rintro ⟨keys, hl, hk⟩
    have hin : k ∈ km.keysInExtent e := by
      rw [keysInExtent, hl]
      exact hk
    obtain ⟨loc, hloc, hid⟩ := hmem.mp hin
    obtain ⟨entry, hentry, rfl⟩ := Option.map_eq_some_iff.mp hloc
    exact ⟨entry, hentry, hid⟩
  · rintro ⟨entry, hentry, hid⟩
    have hin : k ∈ km.keysInExtent e := hmem.mpr ⟨entry.loc, by rw [lookup, hentry]; rfl, hid⟩
    unfold keysInExtent at hin
    cases hl : km.reverseIndex.lookup e with
    | none =>
        rw [hl] at hin
        cases hin
    | some keys =>
        rw [hl] at hin
        exact ⟨keys, rfl, hin⟩

/-- A key is located in one extent only. -/
theorem Coherent.disjoint {km : KeyMap} (hc : km.Coherent) :
    Pairwise fun e e' => List.Disjoint (km.keysInExtent e) (km.keysInExtent e') := by
  intro e e' hne k hk hk'
  obtain ⟨loc, hloc, rfl⟩ := (hc.mem_iff e k).mp hk
  obtain ⟨loc', hloc', rfl⟩ := (hc.mem_iff e' k).mp hk'
  rw [hloc] at hloc'
  cases hloc'
  exact hne rfl

/-- After any calls on a new map the reverse index lists every key under the
extent it is located in and nowhere else, and stores no empty set. -/
theorem reverse_index_exact (calls : List Call) :
    let km := ({} : KeyMap).after calls
    (∀ e k, (∃ keys, km.reverseIndex.lookup e = some keys ∧ k ∈ keys) ↔
        ∃ entry, km.map.lookup k = some entry ∧ entry.loc.extentId = e) ∧
      (∀ e, km.reverseIndex.lookup e ≠ some []) ∧
      (∀ e, (km.keysInExtent e).Nodup ∧ ∀ k, k ∈ km.keysInExtent e ↔
        ∃ loc, km.lookup k = some loc ∧ loc.extentId = e) ∧
      Pairwise fun e e' => List.Disjoint (km.keysInExtent e) (km.keysInExtent e') := by
  intro km
  have hc : km.Coherent := Coherent.empty.after calls
  exact ⟨hc.mem_stored, fun e h => hc.nonempty e [] h rfl,
    fun e => ⟨hc.nodup e, hc.mem_iff e⟩, hc.disjoint⟩

end KeyMap

end Clab.Btier
