import Mathlib

/-!
# Ordered maps

A finite map as the list of its entries in strict order of keys, the order in
which an iterator visits them. A loop that erases from a lower bound on while a
test holds is a filter when the test holds on an initial part of what follows.
-/

namespace Clab

/-- Entries in strict order of their keys. -/
structure OrderedMap (K V : Type*) [LinearOrder K] where
  entries : List (K × V)
  sorted : entries.Pairwise fun a b => a.1 < b.1

namespace OrderedMap

variable {K V : Type*} [LinearOrder K]

/-- The map without entries. -/
def empty : OrderedMap K V := ⟨[], List.Pairwise.nil⟩

def lookup (m : OrderedMap K V) (k : K) : Option V :=
  (m.entries.find? fun e => e.1 = k).map Prod.snd

/-- The entries whose key passes a test. -/
def filter (m : OrderedMap K V) (p : K → Bool) : OrderedMap K V :=
  ⟨m.entries.filter fun e => p e.1, m.sorted.filter _⟩

/-- `m[k] = v`. -/
def insert (m : OrderedMap K V) (k : K) (v : V) : OrderedMap K V where
  entries := m.entries.filter (fun e => e.1 < k) ++ (k, v) :: m.entries.filter fun e => k < e.1
  sorted := by
    refine List.pairwise_append.mpr ⟨m.sorted.filter _, ?_, fun a ha b hb => ?_⟩
    · refine List.pairwise_cons.mpr ⟨fun b hb => ?_, m.sorted.filter _⟩
      simpa using (List.mem_filter.mp hb).2
    · have hlt : a.1 < k := by simpa using (List.mem_filter.mp ha).2
      rcases List.mem_cons.mp hb with rfl | hb
      · exact hlt
      · exact hlt.trans (by simpa using (List.mem_filter.mp hb).2)

/-- `erase(k)`. -/
def erase (m : OrderedMap K V) (k : K) : OrderedMap K V := m.filter fun a => a ≠ k

/-- `insert({k, v})`: an entry that is there stays. -/
def insertNew (m : OrderedMap K V) (k : K) (v : V) : OrderedMap K V :=
  if (m.lookup k).isSome then m else m.insert k v

/-- The sum of a weight over the entries. -/
def sum (m : OrderedMap K V) (f : K → V → Nat) : Nat := (m.entries.map fun e => f e.1 e.2).sum

/-! ## Lookups -/

theorem value_unique {m : OrderedMap K V} {k : K} {v w : V} (hv : (k, v) ∈ m.entries)
    (hw : (k, w) ∈ m.entries) : v = w := by
  have hkeys : (m.entries.map Prod.fst).Nodup :=
    List.pairwise_map.mpr (m.sorted.imp fun h => ne_of_lt h)
  exact (Prod.ext_iff.mp (List.inj_on_of_nodup_map hkeys hv hw rfl)).2

theorem lookup_eq_some {m : OrderedMap K V} {k : K} {v : V} :
    m.lookup k = some v ↔ (k, v) ∈ m.entries := by
  unfold lookup
  constructor
  · intro h
    obtain ⟨⟨k', v'⟩, hfind, rfl⟩ := Option.map_eq_some_iff.mp h
    have hk : k' = k := by simpa using List.find?_some hfind
    subst hk
    exact List.mem_of_find?_eq_some hfind
  · intro h
    have hsome : (m.entries.find? fun e => e.1 = k).isSome :=
      List.find?_isSome.mpr ⟨(k, v), h, by simp⟩
    obtain ⟨⟨k', v'⟩, hfind⟩ := Option.isSome_iff_exists.mp hsome
    have hk : k' = k := by simpa using List.find?_some hfind
    subst hk
    rw [hfind, value_unique (List.mem_of_find?_eq_some hfind) h]
    rfl

theorem lookup_congr {m n : OrderedMap K V} {a b : K}
    (h : ∀ v, (a, v) ∈ m.entries ↔ (b, v) ∈ n.entries) : m.lookup a = n.lookup b :=
  Option.ext fun v => by rw [lookup_eq_some, lookup_eq_some, h]

theorem lookup_eq_none {m : OrderedMap K V} {k : K} (h : ∀ v, (k, v) ∉ m.entries) :
    m.lookup k = none :=
  Option.eq_none_iff_forall_ne_some.mpr fun v hv => h v (lookup_eq_some.mp hv)

@[simp] theorem lookup_empty (k : K) : (empty : OrderedMap K V).lookup k = none := rfl

@[simp] theorem lookup_filter (m : OrderedMap K V) (p : K → Bool) (k : K) :
    (m.filter p).lookup k = if p k then m.lookup k else none := by
  split
  case isTrue h => exact lookup_congr fun v => by simp [filter, h]
  case isFalse h => exact lookup_eq_none fun v => by simp [filter, h]

@[simp] theorem lookup_insert (m : OrderedMap K V) (k : K) (v : V) (a : K) :
    (m.insert k v).lookup a = if a = k then some v else m.lookup a := by
  split
  case isTrue h => exact lookup_eq_some.mpr (by simp [insert, h])
  case isFalse h =>
    refine lookup_congr fun w => ?_
    have hne : a < k ∨ k < a := lt_or_gt_of_ne h
    simp only [insert, List.mem_append, List.mem_filter, List.mem_cons, Prod.mk.injEq, h,
      false_and, false_or, decide_eq_true_eq]
    tauto

@[simp] theorem lookup_erase (m : OrderedMap K V) (k a : K) :
    (m.erase k).lookup a = if a = k then none else m.lookup a := by
  simp only [erase, lookup_filter, ne_eq, decide_not, Bool.not_eq_true', decide_eq_false_iff_not,
    ite_not]

theorem lookup_insertNew (m : OrderedMap K V) (k : K) (v : V) (a : K) :
    (m.insertNew k v).lookup a =
      if a = k then some ((m.lookup k).getD v) else m.lookup a := by
  unfold insertNew
  cases hk : m.lookup k with
  | none => simp
  | some w =>
      show m.lookup a = if a = k then some w else m.lookup a
      split
      case isTrue h => rw [h, hk]
      case isFalse => rfl

/-- Two maps with the same lookups are equal. -/
theorem ext_lookup {m n : OrderedMap K V} (h : ∀ k, m.lookup k = n.lookup k) : m = n := by
  have hmem : ∀ e, e ∈ m.entries ↔ e ∈ n.entries := by
    rintro ⟨k, v⟩
    rw [← lookup_eq_some, ← lookup_eq_some, h k]
  have hnodup : ∀ l : OrderedMap K V, l.entries.Nodup := fun l =>
    List.Pairwise.imp (fun hlt => fun heq => absurd (congrArg Prod.fst heq) (ne_of_lt hlt)) l.sorted
  have hperm : m.entries.Perm n.entries :=
    (List.perm_ext_iff_of_nodup (hnodup m) (hnodup n)).mpr hmem
  have hentries : m.entries = n.entries :=
    hperm.eq_of_pairwise (fun a b _ _ hab hba => absurd hab (lt_asymm hba)) m.sorted n.sorted
  cases m
  cases n
  simpa using hentries

theorem eq_empty_of_lookup {m : OrderedMap K V} (h : ∀ k, m.lookup k = none) : m.entries = [] := by
  refine List.eq_nil_iff_forall_not_mem.mpr fun e he => ?_
  have hsome := lookup_eq_some.mpr (show (e.1, e.2) ∈ m.entries from he)
  rw [h e.1] at hsome
  exact absurd hsome (by simp)

/-! ## Sums over the entries -/

theorem filter_lt_perm (l : List (K × V)) (k : K) :
    (l.filter (fun e => e.1 < k) ++ l.filter fun e => k < e.1).Perm
      (l.filter fun e => e.1 ≠ k) := by
  induction l with
  | nil => simp
  | cons e l ih =>
      rcases lt_trichotomy e.1 k with h | h | h
      · simpa [h, ne_of_lt h, not_lt_of_gt h] using ih
      · simpa [h] using ih
      · have hne : e.1 ≠ k := ne_of_gt h
        simp only [h, hne, not_lt_of_gt h, decide_true, decide_false, List.filter_cons_of_pos,
          List.filter_cons_of_neg, ne_eq, not_false_eq_true, Bool.false_eq_true]
        exact List.perm_middle.trans (ih.cons e)

/-- The weight of a key, if it is there. -/
def weight (m : OrderedMap K V) (f : K → V → Nat) (k : K) : Nat := ((m.lookup k).map (f k)).getD 0

theorem sum_filter_eq (m : OrderedMap K V) (f : K → V → Nat) (k : K) :
    ((m.entries.filter fun e => e.1 = k).map fun e => f e.1 e.2).sum = m.weight f k := by
  unfold weight
  cases hk : m.lookup k with
  | none =>
      have hnil : (m.entries.filter fun e => e.1 = k) = [] := by
        refine List.filter_eq_nil_iff.mpr fun e he hek => ?_
        have hek : e.1 = k := by simpa using hek
        have hsome := lookup_eq_some.mpr (show (k, e.2) ∈ m.entries by rw [← hek]; exact he)
        rw [hk] at hsome
        exact absurd hsome (by simp)
      rw [hnil]
      rfl
  | some v =>
      have hmem := lookup_eq_some.mp hk
      have hone : (m.entries.filter fun e => e.1 = k) = [(k, v)] := by
        obtain ⟨before, after, hsplit⟩ := List.append_of_mem hmem
        have hsorted := m.sorted
        rw [hsplit] at hsorted ⊢
        obtain ⟨-, hafter, hbefore⟩ := List.pairwise_append.mp hsorted
        have hlow : (before.filter fun e => e.1 = k) = [] := by
          refine List.filter_eq_nil_iff.mpr fun e he => ?_
          have hlt : e.1 < k := hbefore e he (k, v) (by simp)
          simp [ne_of_lt hlt]
        have hhigh : (after.filter fun e => e.1 = k) = [] := by
          refine List.filter_eq_nil_iff.mpr fun e he => ?_
          have hlt : k < e.1 := (List.pairwise_cons.mp hafter).1 e he
          simp [ne_of_gt hlt]
        simp [List.filter_append, hlow, hhigh]
      rw [hone]
      simp

/-- An erased key takes its weight with it. -/
theorem sum_erase (m : OrderedMap K V) (f : K → V → Nat) (k : K) :
    (m.erase k).sum f + m.weight f k = m.sum f := by
  rw [← sum_filter_eq, sum, sum, ← List.sum_append, ← List.map_append]
  refine List.Perm.sum_eq (List.Perm.map _ ?_)
  have hsplit := List.filter_append_perm (fun e : K × V => decide (e.1 ≠ k)) m.entries
  refine List.Perm.trans (List.Perm.append_left _ ?_) hsplit
  simp

/-- An inserted key replaces its weight. -/
theorem sum_insert (m : OrderedMap K V) (f : K → V → Nat) (k : K) (v : V) :
    (m.insert k v).sum f + m.weight f k = m.sum f + f k v := by
  have hrest : (m.insert k v).sum f = (m.erase k).sum f + f k v := by
    have hperm := (filter_lt_perm m.entries k).map fun e => f e.1 e.2
    have hsum := hperm.sum_eq
    simp only [List.map_append, List.sum_append] at hsum
    simp only [sum, insert, erase, filter, List.map_append, List.map_cons, List.sum_append,
      List.sum_cons]
    omega
  have herase := m.sum_erase f k
  omega

theorem sum_congr {m : OrderedMap K V} {f g : K → V → Nat}
    (h : ∀ k v, m.lookup k = some v → f k v = g k v) : m.sum f = m.sum g := by
  unfold sum
  refine congrArg List.sum (List.map_congr_left fun e he => h e.1 e.2 ?_)
  exact lookup_eq_some.mpr he

/-- The weight of an entry is part of the sum. -/
theorem le_sum {m : OrderedMap K V} (f : K → V → Nat) {k : K} {v : V} (h : m.lookup k = some v) :
    f k v ≤ m.sum f := by
  have herase := m.sum_erase f k
  rw [weight, h, Option.map_some, Option.getD_some] at herase
  omega

/-! ## Erasing a run of keys -/

theorem dropWhile_sublist_filter {α : Type*} (q p : α → Bool) (l : List α) :
    (l.takeWhile q ++ (l.dropWhile q).dropWhile p).Sublist l := by
  conv_rhs => rw [← List.takeWhile_append_dropWhile (p := q) (l := l)]
  exact (List.Sublist.refl _).append (List.dropWhile_sublist p)

/-- `for (it = lower_bound(lo); it != end() && p(it->first); it = erase(it))`. -/
def eraseWhile (m : OrderedMap K V) (lo : K) (p : K → Bool) : OrderedMap K V where
  entries := m.entries.takeWhile (fun e => e.1 < lo) ++
    (m.entries.dropWhile fun e => e.1 < lo).dropWhile fun e => p e.1
  sorted := m.sorted.sublist (dropWhile_sublist_filter _ _ _)

/-- On a list where `q` passes to earlier elements, the part `q` holds on comes first. -/
theorem dropWhile_eq_filter {α : Type*} {q : α → Bool} {l : List α}
    (h : l.Pairwise fun a b => q b → q a) :
    l.takeWhile q = l.filter q ∧ l.dropWhile q = l.filter fun a => !q a := by
  induction l with
  | nil => exact ⟨rfl, rfl⟩
  | cons a l ih =>
      obtain ⟨hhead, htail⟩ := List.pairwise_cons.mp h
      cases hq : q a with
      | true => simpa [hq] using ih htail
      | false =>
          have hnone : ∀ b ∈ l, q b = false := by
            intro b hb
            by_contra hne
            have hqa : q a := hhead b hb (by simpa using hne)
            exact Bool.false_ne_true (hq.symm.trans hqa)
          have hfilter : l.filter q = [] := by simpa using hnone
          have hrest : (l.filter fun a => !q a) = l := by simpa using hnone
          simp [hq, hfilter, hrest]

theorem lookup_eraseWhile (m : OrderedMap K V) {lo : K} {p : K → Bool}
    (hp : ∀ a b, lo ≤ a → a < b → p b → p a) (k : K) :
    (m.eraseWhile lo p).lookup k = if lo ≤ k ∧ p k then none else m.lookup k := by
  have hlow : m.entries.Pairwise fun a b => decide (b.1 < lo) → decide (a.1 < lo) := by
    refine m.sorted.imp fun {a b} hab hb => ?_
    exact decide_eq_true (hab.trans (of_decide_eq_true hb))
  obtain ⟨htake, hdrop⟩ := dropWhile_eq_filter hlow
  have hhigh : (m.entries.filter fun e => !decide (e.1 < lo)).Pairwise
      fun a b => p b.1 → p a.1 := by
    refine List.Pairwise.imp_of_mem ?_ (m.sorted.filter _)
    intro a b ha _ hab hb
    exact hp a.1 b.1 (by simpa using (List.mem_filter.mp ha).2) hab hb
  have hmem : ∀ v, (k, v) ∈ (m.eraseWhile lo p).entries ↔
      (k, v) ∈ m.entries ∧ ¬(lo ≤ k ∧ p k) := by
    intro v
    simp only [eraseWhile, htake, hdrop, (dropWhile_eq_filter hhigh).2, List.mem_append,
      List.mem_filter, decide_eq_true_eq, Bool.not_eq_true', decide_eq_false_iff_not, not_lt,
      not_and, Bool.not_eq_true]
    rcases lt_or_ge k lo with hlt | hge
    · simp [hlt, not_le.mpr hlt]
    · simp [not_lt.mpr hge, hge]
  split
  case isTrue h => exact lookup_eq_none fun v hv => ((hmem v).mp hv).2 h
  case isFalse h => exact lookup_congr fun v => by rw [hmem v]; exact and_iff_left h

end OrderedMap

end Clab
