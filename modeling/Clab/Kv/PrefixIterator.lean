import Clab.Kv.MemDB

/-!
# Prefix iterators over `MemDB`

`MDBWholeSpaceIteratorImpl` walks a snapshot of all flat keys; `PrefixIteratorImpl`
shows of them the keys of one prefix and tests an upper bound when it is asked
whether it is valid. The seeks look for a place among the keys of the prefix
without either bound, so they agree with the range where the bounds hide nothing.
-/

namespace Clab.Kv

/-- `decode_key`. -/
def decodeKey (fullKey : Bytes) : Bytes × Bytes :=
  (keyPrefix fullKey, (fullKey.dropWhile (· ≠ 0)).tail)

/-- `-EINVAL`. -/
def einval : Int := -22

/-! ## `MDBWholeSpaceIteratorImpl` -/

/-- `pos` is `pos_`, with `none` for -1. -/
structure WholeSpaceIterator where
  items : List (Bytes × Bytes)
  seqno : Nat
  pos : Option Nat

namespace WholeSpaceIterator

/-- `std::lower_bound` over the items, as an index. -/
def lowerIndex (items : List (Bytes × Bytes)) (target : Bytes) : Option Nat :=
  let idx := (items.takeWhile fun pair => pair.1 < target).length
  if items.length ≤ idx then none else some idx

/-- `refresh`: a changed map is copied anew and the key under the iterator found again. -/
def refresh (d : MemDB) (it : WholeSpaceIterator) : WholeSpaceIterator :=
  if d.seqno = it.seqno then it
  else
    { items := d.db.entries
      seqno := d.seqno
      pos := match it.pos.bind fun i => it.items[i]? with
        | none => it.pos
        | some pair => if pair.1 = [] then it.pos else lowerIndex d.db.entries pair.1 }

/-- `seek_to_last`. -/
def seekToLast (d : MemDB) (it : WholeSpaceIterator) : WholeSpaceIterator :=
  let it := it.refresh d
  { it with pos := if it.items = [] then none else some (it.items.length - 1) }

/-- `lower_bound`. -/
def lowerBound (d : MemDB) (it : WholeSpaceIterator) (target : Bytes) : WholeSpaceIterator :=
  let it := it.refresh d
  { it with pos := lowerIndex it.items target }

/-- The entry under the iterator. -/
def current (it : WholeSpaceIterator) : Option (Bytes × Bytes) := it.pos.bind fun i => it.items[i]?

def valid (it : WholeSpaceIterator) : Bool := it.current.isSome

def next (it : WholeSpaceIterator) : WholeSpaceIterator :=
  match it.pos with
  | none => it
  | some i => { it with pos := if it.items.length ≤ i + 1 then none else some (i + 1) }

def prev (it : WholeSpaceIterator) : WholeSpaceIterator :=
  match it.pos with
  | some (i + 1) => { it with pos := some i }
  | some 0 | none => { it with pos := none }

def key (it : WholeSpaceIterator) : Bytes := (it.current.map Prod.fst).getD []

/-- `raw_key`. -/
def rawKey (it : WholeSpaceIterator) : Bytes × Bytes := decodeKey it.key

/-- `raw_key_is_prefixed`. -/
def rawKeyIsPrefixed (it : WholeSpaceIterator) (pre : Bytes) : Bool := (decodeKey it.key).1 = pre

end WholeSpaceIterator

/-- `get_wholespace_iterator`. -/
def MemDB.getWholespaceIterator (d : MemDB) : WholeSpaceIterator := ⟨d.db.entries, d.seqno, none⟩

/-! ## `PrefixIteratorImpl` -/

/-- `upper` is `upper_bound_` if `upper_bound_set_`. The iterate bounds handed to the
inner iterator are hints that the one of `MemDB` does not read. -/
structure PrefixIterator where
  wIter : WholeSpaceIterator
  pre : Bytes
  upper : Option Bytes

/-- `get_iterator`, by the constructor of `PrefixIteratorImpl`. -/
def MemDB.getIterator (d : MemDB) (pre : Bytes) (lo hi : Option Bytes) : PrefixIterator where
  wIter := match lo with
    | none => d.getWholespaceIterator
    | some lo => d.getWholespaceIterator.lowerBound d (encodeKey pre lo)
  pre := pre
  upper := hi

namespace PrefixIterator

/-- `seek_to_first`. -/
def seekToFirst (d : MemDB) (it : PrefixIterator) : PrefixIterator :=
  { it with wIter := it.wIter.lowerBound d (encodeKey it.pre []) }

/-- The loop of `seek_to_last`. -/
def skipBack (pre : Bytes) : Nat → WholeSpaceIterator → WholeSpaceIterator
  | 0, w => w
  | turns + 1, w =>
      if w.valid && !w.rawKeyIsPrefixed pre then skipBack pre turns w.prev else w

/-- `seek_to_last`; the loop ends after one turn for each item at most. -/
def seekToLast (d : MemDB) (it : PrefixIterator) : PrefixIterator :=
  let w := it.wIter.seekToLast d
  { it with wIter := skipBack it.pre w.items.length w }

/-- `lower_bound`. -/
def lowerBound (d : MemDB) (it : PrefixIterator) (target : Bytes) : PrefixIterator :=
  { it with wIter := it.wIter.lowerBound d (encodeKey it.pre target) }

/-- `upper_bound`, which stores its argument as the upper bound. -/
def upperBound (d : MemDB) (it : PrefixIterator) (after : Bytes) : PrefixIterator :=
  let w := it.wIter.lowerBound d (encodeKey it.pre after)
  { it with
    wIter := if w.valid && w.rawKey.2 = after then w.next else w
    upper := some after }

/-- The test of `upper_bound_`. -/
def below (bound : Option Bytes) (key : Bytes) : Bool :=
  match bound with
  | none => true
  | some hi => key < hi

def valid (it : PrefixIterator) : Bool :=
  it.wIter.valid && it.wIter.rawKeyIsPrefixed it.pre && below it.upper it.wIter.rawKey.2

def next (it : PrefixIterator) : Int × PrefixIterator :=
  if !it.wIter.valid then (einval, it) else (0, { it with wIter := it.wIter.next })

def prev (it : PrefixIterator) : Int × PrefixIterator :=
  if !it.wIter.valid then (einval, it) else (0, { it with wIter := it.wIter.prev })

def key (it : PrefixIterator) : Bytes := it.wIter.rawKey.2

end PrefixIterator

/-- The calls that move a prefix iterator. -/
inductive IteratorCall
  | seekToFirst
  | seekToLast
  | lowerBound (target : Bytes)
  | upperBound (after : Bytes)
  | next
  | prev

/-- The iterator after a call. -/
def PrefixIterator.call (d : MemDB) (it : PrefixIterator) : IteratorCall → PrefixIterator
  | .seekToFirst => it.seekToFirst d
  | .seekToLast => it.seekToLast d
  | .lowerBound target => it.lowerBound d target
  | .upperBound after => it.upperBound d after
  | .next => it.next.2
  | .prev => it.prev.2

/-! ## The keys of a prefix -/

/-- The flat key is stored. -/
def MemDB.HasKey (d : MemDB) (pre k : Bytes) : Prop := (d.db.lookup (encodeKey pre k)).isSome

/-- The keys of the prefix among some entries, in their order. -/
def keysIn (pre : Bytes) (l : List (Bytes × Bytes)) : List Bytes :=
  (l.filter fun e => (decodeKey e.1).1 = pre).map fun e => (decodeKey e.1).2

theorem decodeKey_encodeKey {pre : Bytes} (h : NulFree pre) (key : Bytes) :
    decodeKey (encodeKey pre key) = (pre, key) := by
  have hdrop : (encodeKey pre key).dropWhile (· ≠ 0) = 0 :: key := by
    rw [encodeKey, List.dropWhile_append_of_pos]
    · simp
    · intro b hb
      simpa using fun h0 : b = 0 => h (h0 ▸ hb)
  rw [decodeKey, keyPrefix_encodeKey h, hdrop]
  rfl

theorem encodeKey_decodeKey {x : Bytes} (h : 0 ∈ x) :
    encodeKey (decodeKey x).1 (decodeKey x).2 = x := by
  obtain ⟨pre, key, hpre, rfl⟩ := exists_encodeKey h
  rw [decodeKey_encodeKey hpre]

theorem encodeKey_lt_iff {pre k l : Bytes} : encodeKey pre k < encodeKey pre l ↔ k < l := by
  unfold encodeKey
  induction pre with
  | nil => simp
  | cons b pre ih => simpa [List.cons_lt_cons_iff] using ih

theorem encodeKey_le_iff {pre k l : Bytes} : encodeKey pre k ≤ encodeKey pre l ↔ k ≤ l := by
  rw [← not_lt, encodeKey_lt_iff, not_lt]

/-- Entries in order, with flat keys from the first one of the prefix on. -/
structure From (pre : Bytes) (l : List (Bytes × Bytes)) : Prop where
  sorted : l.Pairwise fun a b => a.1 < b.1
  keyed : ∀ e ∈ l, 0 ∈ e.1
  above : ∀ e ∈ l, encodeKey pre [] ≤ e.1

namespace From

variable {pre : Bytes} {e : Bytes × Bytes} {l : List (Bytes × Bytes)}

theorem tail (h : From pre (e :: l)) : From pre l where
  sorted := (List.pairwise_cons.mp h.sorted).2
  keyed := fun a ha => h.keyed a (List.mem_cons_of_mem _ ha)
  above := fun a ha => h.above a (List.mem_cons_of_mem _ ha)

/-- Past a key of another prefix there is no key of this one. -/
theorem keysIn_of_ne (h : From pre (e :: l)) (hpre : NulFree pre) (hne : (decodeKey e.1).1 ≠ pre) :
    keysIn pre (e :: l) = [] := by
  have hnone : ∀ a ∈ e :: l, (decodeKey a.1).1 ≠ pre := by
    intro a ha heq
    have hflat : encodeKey pre (decodeKey a.1).2 = a.1 := by
      conv_rhs => rw [← encodeKey_decodeKey (h.keyed a ha), heq]
    have hle : e.1 ≤ a.1 := by
      rcases List.mem_cons.mp ha with rfl | hmem
      · exact le_refl _
      · exact le_of_lt ((List.pairwise_cons.mp h.sorted).1 a hmem)
    have hstart : encodeKey pre [] <+: a.1 := by
      rw [← hflat]
      exact (encodeKey_isPrefix_iff hpre hpre).mpr rfl
    have hpart : encodeKey pre [] <+: e.1 := by
      rcases hle.lt_or_eq with hlt | heq'
      · exact isPrefix_of_lt (h.above e List.mem_cons_self) hlt hstart
      · rwa [heq']
    obtain ⟨q, k, hq, hx⟩ := exists_encodeKey (h.keyed e List.mem_cons_self)
    rw [hx] at hpart
    have hqp : q = pre := (encodeKey_isPrefix_iff hpre hq).mp hpart
    apply hne
    rw [hx, decodeKey_encodeKey hq, hqp]
  have hfilter : ((e :: l).filter fun a => (decodeKey a.1).1 = pre) = [] := by
    refine List.filter_eq_nil_iff.mpr fun a ha => ?_
    simpa using hnone a ha
  rw [keysIn, hfilter, List.map_nil]

theorem keysIn_cons (heq : (decodeKey e.1).1 = pre) :
    keysIn pre (e :: l) = (decodeKey e.1).2 :: keysIn pre l := by
  simp [keysIn, heq]

end From

theorem mem_keysIn {d : MemDB} (hkeyed : Keyed d.db) {pre : Bytes} (hpre : NulFree pre)
    {k : Bytes} : k ∈ keysIn pre d.db.entries ↔ d.HasKey pre k := by
  rw [MemDB.HasKey, Option.isSome_iff_exists]
  simp only [keysIn, List.mem_map, List.mem_filter, decide_eq_true_eq, OrderedMap.lookup_eq_some]
  constructor
  · rintro ⟨⟨x, v⟩, ⟨hmem, hp⟩, rfl⟩
    refine ⟨v, ?_⟩
    have hx : encodeKey pre (decodeKey x).2 = x := by
      conv_rhs => rw [← encodeKey_decodeKey (hkeyed x v hmem), hp]
    rwa [hx]
  · rintro ⟨v, hmem⟩
    exact ⟨(encodeKey pre k, v), ⟨hmem, by rw [decodeKey_encodeKey hpre]⟩,
      by rw [decodeKey_encodeKey hpre]⟩

/-- The keys of a prefix come in increasing order. -/
theorem keysIn_sorted {pre : Bytes} {l : List (Bytes × Bytes)}
    (hsorted : l.Pairwise fun a b => a.1 < b.1) (hkeyed : ∀ e ∈ l, 0 ∈ e.1) :
    (keysIn pre l).Pairwise (· < ·) := by
  rw [keysIn, List.pairwise_map]
  refine List.Pairwise.imp_of_mem ?_ (hsorted.filter _)
  intro a b ha hb hlt
  obtain ⟨hal, hap⟩ := List.mem_filter.mp ha
  obtain ⟨hbl, hbp⟩ := List.mem_filter.mp hb
  rw [← encodeKey_decodeKey (hkeyed a hal), ← encodeKey_decodeKey (hkeyed b hbl),
    of_decide_eq_true hap, of_decide_eq_true hbp] at hlt
  exact encodeKey_lt_iff.mp hlt

/-- From a flat key of the prefix on, its keys are those from the inner key on. -/
theorem keysIn_filter {pre : Bytes} {l : List (Bytes × Bytes)} (hkeyed : ∀ e ∈ l, 0 ∈ e.1)
    (t : Bytes) :
    keysIn pre (l.filter fun e => encodeKey pre t ≤ e.1) = (keysIn pre l).filter (t ≤ ·) := by
  simp only [keysIn, List.filter_map, List.filter_filter]
  congr 1
  refine List.filter_congr fun e he => ?_
  by_cases hp : (decodeKey e.1).1 = pre
  · have hx : encodeKey pre (decodeKey e.1).2 = e.1 := by
      conv_rhs => rw [← encodeKey_decodeKey (hkeyed e he), hp]
    have hle : encodeKey pre t ≤ e.1 ↔ t ≤ (decodeKey e.1).2 := by
      conv_lhs => rw [← hx]
      exact encodeKey_le_iff
    simp [hp, hle]
  · simp [hp]

/-! ## Where the calls leave the iterator -/

namespace WholeSpaceIterator

/-- The entries from the position on. -/
def rest (w : WholeSpaceIterator) : List (Bytes × Bytes) :=
  match w.pos with
  | none => []
  | some i => w.items.drop i

/-- The entries up to the position. -/
def front (w : WholeSpaceIterator) : List (Bytes × Bytes) :=
  match w.pos with
  | none => []
  | some i => w.items.take (i + 1)

/-- A snapshot of the present map, with the position inside it. -/
structure Settled (d : MemDB) (w : WholeSpaceIterator) : Prop where
  items : w.items = d.db.entries
  seqno : w.seqno = d.seqno
  pos : ∀ i, w.pos = some i → i < w.items.length

variable {d : MemDB} {w : WholeSpaceIterator}

theorem current_eq_head (w : WholeSpaceIterator) : w.current = w.rest.head? := by
  unfold current rest
  cases w.pos with
  | none => rfl
  | some i => simp

theorem current_eq_getLast (h : w.Settled d) : w.current = w.front.getLast? := by
  unfold current front
  cases hpos : w.pos with
  | none => rfl
  | some i =>
      have hi := h.pos i hpos
      show w.items[i]? = (w.items.take (i + 1)).getLast?
      rw [List.take_succ_eq_append_getElem hi, List.getElem?_eq_getElem hi, List.getLast?_concat]

theorem lowerIndex_eq_some {items : List (Bytes × Bytes)} {t : Bytes} {i : Nat}
    (h : lowerIndex items t = some i) :
    i = (items.takeWhile fun pair => pair.1 < t).length ∧ i < items.length := by
  simp only [lowerIndex] at h
  split at h
  case isTrue => exact absurd h (by simp)
  case isFalse hlt => exact ⟨by simpa using h.symm, by simp at h; omega⟩

theorem drop_lowerIndex (items : List (Bytes × Bytes)) (t : Bytes) :
    (match lowerIndex items t with | none => [] | some i => items.drop i) =
      items.dropWhile fun pair => pair.1 < t := by
  have hsplit : (items.takeWhile fun pair => pair.1 < t) ++
      (items.dropWhile fun pair => pair.1 < t) = items := List.takeWhile_append_dropWhile
  simp only [lowerIndex]
  split
  case h_1 heq =>
    have hle : items.length ≤ (items.takeWhile fun pair => pair.1 < t).length := by
      by_contra hlt
      simp [hlt] at heq
    have hlen := congrArg List.length hsplit
    rw [List.length_append] at hlen
    exact (List.eq_nil_of_length_eq_zero (by omega)).symm
  case h_2 i heq =>
    obtain ⟨rfl, -⟩ := lowerIndex_eq_some heq
    have hdrop : ((items.takeWhile fun pair => pair.1 < t) ++
        (items.dropWhile fun pair => pair.1 < t)).drop
          (items.takeWhile fun pair => pair.1 < t).length =
        items.dropWhile fun pair => pair.1 < t := List.drop_left
    rwa [hsplit] at hdrop

theorem Settled.refresh (h : w.Settled d) : w.refresh d = w := by
  rw [WholeSpaceIterator.refresh, if_pos h.seqno.symm]

theorem Settled.lowerBound (h : w.Settled d) (t : Bytes) : (w.lowerBound d t).Settled d := by
  rw [WholeSpaceIterator.lowerBound, h.refresh]
  exact ⟨h.items, h.seqno, fun i hi => (lowerIndex_eq_some hi).2⟩

theorem rest_lowerBound (h : w.Settled d) (t : Bytes) :
    (w.lowerBound d t).rest = d.db.entries.filter fun e => t ≤ e.1 := by
  have hlow : d.db.entries.Pairwise fun a b => decide (b.1 < t) → decide (a.1 < t) := by
    refine d.db.sorted.imp fun {a b} hab hb => ?_
    exact decide_eq_true (hab.trans (of_decide_eq_true hb))
  rw [WholeSpaceIterator.lowerBound, h.refresh]
  show (match lowerIndex w.items t with | none => [] | some i => w.items.drop i) = _
  rw [drop_lowerIndex, h.items, (OrderedMap.dropWhile_eq_filter hlow).2]
  refine List.filter_congr fun e _ => ?_
  by_cases hlt : e.1 < t
  · simp [hlt, not_le.mpr hlt]
  · simp [hlt, not_lt.mp hlt]

theorem Settled.seekToLast (h : w.Settled d) : (w.seekToLast d).Settled d := by
  rw [WholeSpaceIterator.seekToLast, h.refresh]
  refine ⟨h.items, h.seqno, fun i hi => ?_⟩
  have hne : w.items ≠ [] := by
    rintro hnil
    simp [hnil] at hi
  have hlen := List.length_pos_of_ne_nil hne
  obtain rfl : w.items.length - 1 = i := by simpa [hne] using hi
  show w.items.length - 1 < w.items.length
  omega

theorem front_seekToLast (h : w.Settled d) : (w.seekToLast d).front = d.db.entries := by
  rw [WholeSpaceIterator.seekToLast, h.refresh, ← h.items]
  by_cases hnil : w.items = []
  · simp [front, hnil]
  · have hlen := List.length_pos_of_ne_nil hnil
    simp only [front, hnil, if_false]
    exact List.take_of_length_le (by omega)

theorem Settled.next (h : w.Settled d) : w.next.Settled d := by
  unfold WholeSpaceIterator.next
  split
  case h_1 => exact h
  case h_2 i hpos =>
    refine ⟨h.items, h.seqno, fun j hj => ?_⟩
    dsimp only at hj ⊢
    split at hj
    case isTrue => exact absurd hj (by simp)
    case isFalse hlt =>
      obtain rfl := Option.some.inj hj
      omega

theorem rest_next (w : WholeSpaceIterator) : w.next.rest = w.rest.tail := by
  unfold WholeSpaceIterator.next
  cases hpos : w.pos with
  | none => simp [rest, hpos]
  | some i =>
      simp only [rest, hpos, List.tail_drop]
      split
      case h_1 heq =>
        by_cases hle : w.items.length ≤ i + 1
        · exact (List.drop_eq_nil_of_le hle).symm
        · simp [hle] at heq
      case h_2 j heq =>
        by_cases hle : w.items.length ≤ i + 1
        · simp [hle] at heq
        · obtain rfl : i + 1 = j := by simpa [hle] using heq
          rfl

theorem Settled.prev (h : w.Settled d) : w.prev.Settled d := by
  unfold WholeSpaceIterator.prev
  split
  case h_1 i hpos =>
    refine ⟨h.items, h.seqno, fun j hj => ?_⟩
    obtain rfl := Option.some.inj hj
    have hi := h.pos _ hpos
    show i < w.items.length
    omega
  all_goals exact ⟨h.items, h.seqno, fun j hj => absurd hj (by simp)⟩

theorem front_prev (h : w.Settled d) : w.prev.front = w.front.dropLast := by
  unfold WholeSpaceIterator.prev
  cases hpos : w.pos with
  | none => simp [front, hpos]
  | some i =>
      have hi := h.pos i hpos
      have hdrop : (w.items.take (i + 1)).dropLast = w.items.take i := by
        rw [List.take_succ_eq_append_getElem hi, List.dropLast_concat]
      cases i with
      | zero => simpa [front, hpos] using hdrop.symm
      | succ i => simpa [front, hpos] using hdrop.symm

end WholeSpaceIterator

namespace PrefixIterator

/-- The key shown, if the iterator is valid. -/
def shown (it : PrefixIterator) : Option Bytes := if it.valid then some it.key else none

variable {d : MemDB} {it : PrefixIterator}

/-- The iterator shows the first key of its prefix from the position on, unless the upper
bound hides it. -/
theorem shown_eq {l : List (Bytes × Bytes)} (hpre : NulFree it.pre) (hfrom : From it.pre l)
    (hcur : it.wIter.current = l.head?) :
    it.shown = (keysIn it.pre l).head?.filter (below it.upper) := by
  cases l with
  | nil => simp [shown, valid, WholeSpaceIterator.valid, hcur, keysIn]
  | cons e l =>
      have hkey : it.wIter.key = e.1 := by simp [WholeSpaceIterator.key, hcur]
      by_cases hp : (decodeKey e.1).1 = it.pre
      · rw [From.keysIn_cons hp]
        simp [shown, valid, key, WholeSpaceIterator.valid, WholeSpaceIterator.rawKey,
          WholeSpaceIterator.rawKeyIsPrefixed, hkey, hcur, hp, Option.filter]
      · rw [hfrom.keysIn_of_ne hpre hp]
        simp [shown, valid, WholeSpaceIterator.rawKeyIsPrefixed, hkey, hp]

/-- The keys an iterator shows one after the other until it is not valid. -/
inductive Visits : PrefixIterator → List Bytes → Prop
  | stop {i : PrefixIterator} : i.valid = false → Visits i []
  | step {i : PrefixIterator} {l : List Bytes} :
      i.valid = true → Visits i.next.2 l → Visits i (i.key :: l)

theorem Visits.unique {l l' : List Bytes} (h : Visits it l) (h' : Visits it l') : l = l' := by
  induction h generalizing l' with
  | stop hinv =>
      cases h' with
      | stop => rfl
      | step hval => exact absurd hval (by simp [hinv])
  | step hval _ ih =>
      cases h' with
      | stop hinv => exact absurd hval (by simp [hinv])
      | step _ hrest => rw [ih hrest]

/-- A walk visits the keys of the prefix from the position on, up to the first that the
upper bound hides. -/
theorem visits_rest {l : List (Bytes × Bytes)} (hpre : NulFree it.pre) (hfrom : From it.pre l)
    (hrest : it.wIter.rest = l) : Visits it ((keysIn it.pre l).takeWhile (below it.upper)) := by
  induction l generalizing it with
  | nil =>
      refine .stop ?_
      simp [valid, WholeSpaceIterator.valid, WholeSpaceIterator.current_eq_head, hrest]
  | cons e l ih =>
      have hcur : it.wIter.current = some e := by
        rw [WholeSpaceIterator.current_eq_head, hrest, List.head?_cons]
      have hkey : it.wIter.key = e.1 := by simp [WholeSpaceIterator.key, hcur]
      by_cases hp : (decodeKey e.1).1 = it.pre
      · have hvalid : it.valid = below it.upper (decodeKey e.1).2 := by
          simp [valid, WholeSpaceIterator.valid, WholeSpaceIterator.rawKey,
            WholeSpaceIterator.rawKeyIsPrefixed, hkey, hcur, hp]
        rw [From.keysIn_cons hp, List.takeWhile_cons, ← hvalid]
        split
        case isTrue hval =>
          have hnext : it.next.2 = { it with wIter := it.wIter.next } := by
            simp [next, WholeSpaceIterator.valid, hcur]
          have hshown : it.key = (decodeKey e.1).2 := by
            rw [key, WholeSpaceIterator.rawKey, hkey]
          rw [← hshown]
          refine .step hval ?_
          rw [hnext]
          refine @ih { it with wIter := it.wIter.next } hpre hfrom.tail ?_
          show it.wIter.next.rest = l
          rw [WholeSpaceIterator.rest_next, hrest, List.tail_cons]
        case isFalse hval => exact .stop (by simpa using hval)
      · rw [hfrom.keysIn_of_ne hpre hp]
        refine .stop ?_
        simp [valid, WholeSpaceIterator.rawKeyIsPrefixed, hkey, hp]

/-- The loop of `seek_to_last` stops at the last entry of the prefix. -/
theorem skipBack_current {pre : Bytes} {turns : Nat} {w : WholeSpaceIterator} (h : w.Settled d)
    (hturns : w.front.length ≤ turns) :
    (skipBack pre turns w).Settled d ∧ (skipBack pre turns w).current =
      (w.front.filter fun e => (decodeKey e.1).1 = pre).getLast? := by
  induction turns generalizing w with
  | zero =>
      have hnil : w.front = [] := List.eq_nil_of_length_eq_zero (by omega)
      refine ⟨h, ?_⟩
      show w.current = _
      rw [WholeSpaceIterator.current_eq_getLast h, hnil]
      rfl
  | succ turns ih =>
      have hcur := WholeSpaceIterator.current_eq_getLast h
      rcases List.eq_nil_or_concat w.front with hnil | ⟨f, e, hfront⟩
      · have hinvalid : w.valid = false := by simp [WholeSpaceIterator.valid, hcur, hnil]
        rw [skipBack, hinvalid, Bool.false_and, if_neg (by simp), hnil]
        exact ⟨h, by rw [hcur, hnil]; rfl⟩
      · rw [hfront, List.concat_eq_append] at hcur
        rw [List.getLast?_concat] at hcur
        have hkey : w.key = e.1 := by simp [WholeSpaceIterator.key, hcur]
        have hcond : (w.valid && !w.rawKeyIsPrefixed pre) = !decide ((decodeKey e.1).1 = pre) := by
          simp [WholeSpaceIterator.valid, WholeSpaceIterator.rawKeyIsPrefixed, hcur, hkey]
        rw [skipBack, hcond, hfront, List.concat_eq_append, List.filter_append]
        by_cases hp : (decodeKey e.1).1 = pre
        · rw [if_neg (by simp [hp])]
          exact ⟨h, by rw [hcur]; simp [hp]⟩
        · rw [if_pos (by simp [hp])]
          have hdrop : w.prev.front = f := by
            rw [WholeSpaceIterator.front_prev h, hfront, List.concat_eq_append, List.dropLast_concat]
          have hlen : w.prev.front.length ≤ turns := by
            rw [hfront, List.concat_eq_append, List.length_append, List.length_singleton] at hturns
            rw [hdrop]
            omega
          have hstep := ih h.prev hlen
          rw [hdrop] at hstep
          simpa [hp] using hstep

/-! ## The iterator after any calls -/

/-- The iterator of a range after some calls. -/
def after (d : MemDB) (pre : Bytes) (lo hi : Option Bytes) (calls : List IteratorCall) :
    PrefixIterator :=
  calls.foldl (PrefixIterator.call d) (d.getIterator pre lo hi)

/-- The upper bound in force after some calls. -/
def storedBound (hi : Option Bytes) (calls : List IteratorCall) : Option Bytes :=
  calls.foldl (fun bound c => match c with | .upperBound t => some t | _ => bound) hi

theorem seekToLast_settled (h : it.wIter.Settled d) : (it.seekToLast d).wIter.Settled d := by
  have hlast := h.seekToLast
  refine (skipBack_current hlast ?_).1
  rw [WholeSpaceIterator.front_seekToLast h, hlast.items]

theorem call_spec (h : it.wIter.Settled d) (c : IteratorCall) :
    (it.call d c).wIter.Settled d ∧ (it.call d c).pre = it.pre ∧
      (it.call d c).upper = match c with | .upperBound t => some t | _ => it.upper := by
  cases c with
  | seekToFirst => exact ⟨h.lowerBound _, rfl, rfl⟩
  | seekToLast => exact ⟨seekToLast_settled h, rfl, rfl⟩
  | lowerBound t => exact ⟨h.lowerBound _, rfl, rfl⟩
  | upperBound t =>
      refine ⟨?_, rfl, rfl⟩
      simp only [call, upperBound]
      split
      · exact (h.lowerBound _).next
      · exact h.lowerBound _
  | next =>
      simp only [call, next]
      split
      · exact ⟨h, rfl, rfl⟩
      · exact ⟨h.next, rfl, rfl⟩
  | prev =>
      simp only [call, prev]
      split
      · exact ⟨h, rfl, rfl⟩
      · exact ⟨h.prev, rfl, rfl⟩

theorem after_spec (d : MemDB) (pre : Bytes) (lo hi : Option Bytes) (calls : List IteratorCall) :
    (after d pre lo hi calls).wIter.Settled d ∧ (after d pre lo hi calls).pre = pre ∧
      (after d pre lo hi calls).upper = storedBound hi calls := by
  induction calls using List.reverseRecOn with
  | nil =>
      refine ⟨?_, rfl, rfl⟩
      have hnew : d.getWholespaceIterator.Settled d := ⟨rfl, rfl, fun i hi => absurd hi (by
        simp [MemDB.getWholespaceIterator])⟩
      cases lo with
      | none => exact hnew
      | some lo => exact hnew.lowerBound _
  | append_singleton calls c ih =>
      obtain ⟨hsettled, hpre, hupper⟩ := ih
      obtain ⟨hsettled', hpre', hupper'⟩ := call_spec hsettled c
      have hstep : after d pre lo hi (calls ++ [c]) = (after d pre lo hi calls).call d c := by
        simp [after, List.foldl_append]
      rw [hstep]
      refine ⟨hsettled', hpre'.trans hpre, hupper'.trans ?_⟩
      rw [hupper]
      simp [storedBound, List.foldl_append]

/-! ## What each seek shows -/

theorem from_filter (hkeyed : Keyed d.db) (pre t : Bytes) :
    From pre (d.db.entries.filter fun e => encodeKey pre t ≤ e.1) where
  sorted := d.db.sorted.filter _
  keyed := fun e he => hkeyed e.1 e.2 (List.mem_of_mem_filter he)
  above := by
    intro e he
    have hle : encodeKey pre t ≤ e.1 := of_decide_eq_true (List.mem_filter.mp he).2
    exact (encodeKey_le_iff.mpr (nil_le t)).trans hle

theorem keysIn_from (hkeyed : Keyed d.db) (pre t : Bytes) :
    keysIn pre (d.db.entries.filter fun e => encodeKey pre t ≤ e.1) =
      (keysIn pre d.db.entries).filter (t ≤ ·) :=
  keysIn_filter (fun e he => hkeyed e.1 e.2 he) t

/-- `lower_bound` looks at the first key of the prefix not below its argument. -/
theorem shown_lowerBound (hkeyed : Keyed d.db) (hpre : NulFree it.pre) (h : it.wIter.Settled d)
    (t : Bytes) : (it.lowerBound d t).shown =
      ((keysIn it.pre d.db.entries).filter (t ≤ ·)).head?.filter (below it.upper) := by
  rw [← keysIn_from hkeyed]
  refine @shown_eq (it.lowerBound d t) _ hpre (from_filter hkeyed it.pre t) ?_
  rw [WholeSpaceIterator.current_eq_head]
  exact congrArg List.head? (WholeSpaceIterator.rest_lowerBound h _)

/-- `seek_to_last` looks at the last key of the prefix. -/
theorem shown_seekToLast (h : it.wIter.Settled d) :
    (it.seekToLast d).shown = (keysIn it.pre d.db.entries).getLast?.filter (below it.upper) := by
  have hlast := h.seekToLast
  have hfront := WholeSpaceIterator.front_seekToLast h
  have hcur : (it.seekToLast d).wIter.current =
      (d.db.entries.filter fun e => (decodeKey e.1).1 = it.pre).getLast? := by
    rw [← hfront]
    refine (skipBack_current hlast ?_).2
    rw [hfront, hlast.items]
  rw [keysIn, List.getLast?_map, ← hcur]
  cases hentry : (it.seekToLast d).wIter.current with
  | none => simp [shown, valid, WholeSpaceIterator.valid, hentry]
  | some e =>
      have hmem := List.mem_of_getLast? (hcur.symm.trans hentry)
      have hp : (decodeKey e.1).1 = it.pre := of_decide_eq_true (List.mem_filter.mp hmem).2
      have hkey : (it.seekToLast d).wIter.key = e.1 := by simp [WholeSpaceIterator.key, hentry]
      have hpre : (it.seekToLast d).pre = it.pre := rfl
      have hupper : (it.seekToLast d).upper = it.upper := rfl
      simp [shown, valid, key, WholeSpaceIterator.valid, WholeSpaceIterator.rawKey,
        WholeSpaceIterator.rawKeyIsPrefixed, hkey, hentry, hp, hpre, hupper, Option.filter]

/-- After `upper_bound` the stored bound hides every key from the position on. -/
theorem shown_upperBound (hkeyed : Keyed d.db) (hpre : NulFree it.pre) (h : it.wIter.Settled d)
    (t : Bytes) : (it.upperBound d t).shown = none := by
  have hrest := WholeSpaceIterator.rest_lowerBound h (encodeKey it.pre t)
  have hfrom := from_filter hkeyed it.pre t
  have hplace : ∃ l, From it.pre l ∧ (it.upperBound d t).wIter.rest = l ∧
      ∀ k ∈ keysIn it.pre l, t ≤ k := by
    have hall : ∀ k ∈ keysIn it.pre (d.db.entries.filter fun e => encodeKey it.pre t ≤ e.1),
        t ≤ k := by
      intro k hk
      rw [keysIn_from hkeyed] at hk
      exact of_decide_eq_true (List.mem_filter.mp hk).2
    simp only [upperBound]
    split
    · rw [WholeSpaceIterator.rest_next, hrest]
      cases hl : d.db.entries.filter fun e => encodeKey it.pre t ≤ e.1 with
      | nil => exact ⟨[], hl ▸ hfrom, rfl, by simp [keysIn]⟩
      | cons e l =>
          rw [hl] at hfrom hall
          refine ⟨l, hfrom.tail, rfl, fun k hk => hall k ?_⟩
          rw [keysIn, List.filter_cons]
          split
          · exact List.mem_cons_of_mem _ hk
          · exact hk
    · exact ⟨_, hfrom, hrest, hall⟩
  obtain ⟨l, hl, hposition, hlow⟩ := hplace
  have hcur : (it.upperBound d t).wIter.current = l.head? := by
    rw [WholeSpaceIterator.current_eq_head, hposition]
  rw [@shown_eq (it.upperBound d t) l hpre hl hcur]
  refine Option.filter_eq_none_iff.mpr fun k hk => ?_
  have hle := hlow k (List.mem_of_head? hk)
  simpa [below, upperBound] using hle

end PrefixIterator

/-! ## The range of an iterator -/

/-- The stored keys of a prefix. -/
def MemDB.keys (d : MemDB) (pre : Bytes) : Set Bytes := {k | d.HasKey pre k}

/-- The stored keys `k` of a prefix with `lo ≤ k < hi`. -/
def MemDB.rangeKeys (d : MemDB) (pre : Bytes) (lo hi : Option Bytes) : Set Bytes :=
  {k | d.HasKey pre k ∧ (∀ l, lo = some l → l ≤ k) ∧ ∀ h, hi = some h → k < h}

/-- The ways to position an iterator. -/
inductive Seek
  | first
  | last
  | lowerBound (t : Bytes)
  | upperBound (t : Bytes)

/-- The iterator shows the best key of a set, and is not valid if there is none. -/
def PrefixIterator.Shows (it : PrefixIterator) (best : Set Bytes → Bytes → Prop)
    (s : Set Bytes) : Prop :=
  if it.valid then best s it.key else s = ∅

/-- What a seek owes the range: all its keys in order, or the key asked for. -/
def Seek.Meets (d : MemDB) (pre : Bytes) (lo hi : Option Bytes) (it : PrefixIterator) :
    Seek → Prop
  | first => ∃ l, PrefixIterator.Visits (it.seekToFirst d) l ∧ l.Pairwise (· < ·) ∧
      ∀ k, k ∈ l ↔ k ∈ d.rangeKeys pre lo hi
  | last => (it.seekToLast d).Shows IsGreatest (d.rangeKeys pre lo hi)
  | lowerBound t => (it.lowerBound d t).Shows IsLeast {k ∈ d.rangeKeys pre lo hi | t ≤ k}
  | upperBound t => (it.upperBound d t).Shows IsLeast {k ∈ d.rangeKeys pre lo hi | t < k}

/-- Where the bounds agree with the place a seek looks for: `bound` is the upper bound in force. -/
def Seek.Fits (d : MemDB) (pre : Bytes) (lo hi bound : Option Bytes) : Seek → Prop
  | first => ∀ k ∈ d.keys pre, PrefixIterator.below bound k ↔ k ∈ d.rangeKeys pre lo hi
  | last => ∀ m, IsGreatest (d.keys pre) m →
      if PrefixIterator.below bound m then m ∈ d.rangeKeys pre lo hi
      else d.rangeKeys pre lo hi = ∅
  | lowerBound t => ∀ m, IsLeast {k ∈ d.keys pre | t ≤ k} m →
      if PrefixIterator.below bound m then m ∈ d.rangeKeys pre lo hi
      else {k ∈ d.rangeKeys pre lo hi | t ≤ k} = ∅
  | upperBound t => {k ∈ d.rangeKeys pre lo hi | t < k} = ∅

namespace MemDB

/-- `close`. -/
def close (d : MemDB) : MemDB := { d with db := .empty }

/-- The contents a `MemDB` can get to. -/
inductive Reached : MemDB → Prop
  | init : Reached ⟨.empty, 0⟩
  | submit {d : MemDB} (mops : MergeOps) (ops : List Op) :
      Reached d → Reached (submitTransaction mops ops d).2
  | close {d : MemDB} : Reached d → Reached d.close

theorem submitTransaction_keyed {mops : MergeOps} {ops : List Op} {d : MemDB} (h : Keyed d.db) :
    Keyed (submitTransaction mops ops d).2.db := by
  induction ops generalizing d with
  | nil => exact h
  | cons op ops ih =>
      by_cases hop : op.Mergeable mops
      · have hok : (applyOp mops op d).1 = 0 := applyOp_eq_zero_iff.mpr hop
        simpa [submitTransaction, hok] using ih (h.applyOp hop)
      · have hfail : (applyOp mops op d).1 ≠ 0 := fun h0 => hop (applyOp_eq_zero_iff.mp h0)
        simpa [submitTransaction, hfail, applyOp_of_not_mergeable hop] using h

theorem Reached.keyed {d : MemDB} (h : Reached d) : Keyed d.db := by
  induction h with
  | init => exact fun _ _ hmem => absurd hmem (by simp [OrderedMap.empty])
  | submit mops ops _ ih => exact submitTransaction_keyed ih
  | close _ _ => exact fun _ _ hmem => absurd hmem (by simp [MemDB.close, OrderedMap.empty])

end MemDB

namespace PrefixIterator

variable {d : MemDB} {it : PrefixIterator}

/-- An iterator at the best key of a larger set shows the best key of the range when its
bound keeps that key as the range does, and hides it only when the range is empty. -/
theorem shows_iff {best : Set Bytes → Bytes → Prop} {s all : Set Bytes} {c bound : Option Bytes}
    (hsub : s ⊆ all) (hmem : ∀ m, best all m → (best s m ↔ m ∈ s))
    (hc : ∀ m, c = some m ↔ best all m) (hnone : c = none → all = ∅)
    (hshown : it.shown = c.filter (below bound)) :
    it.Shows best s ↔ ∀ m, best all m → if below bound m then m ∈ s else s = ∅ := by
  have hshows : it.Shows best s ↔ match it.shown with
      | some k => best s k
      | none => s = ∅ := by
    unfold Shows shown
    cases it.valid <;> simp
  rw [hshows, hshown]
  cases c with
  | none =>
      refine iff_of_true (Set.subset_eq_empty hsub (hnone rfl)) fun m hm => ?_
      exact absurd ((hc m).mpr hm) (by simp)
  | some m =>
      have hm := (hc m).mp rfl
      have honly : (∀ n, best all n → if below bound n then n ∈ s else s = ∅) ↔
          if below bound m then m ∈ s else s = ∅ := by
        constructor
        · intro h
          exact h m hm
        · intro h n hn
          obtain rfl := Option.some.inj ((hc n).mpr hn)
          exact h
      rw [honly]
      cases hb : below bound m with
      | true => simpa [Option.filter, hb] using hmem m hm
      | false => simp [Option.filter, hb]

/-- The least of a set is the least of a part of it that holds it. -/
theorem isLeast_iff_mem {s all : Set Bytes} (hsub : s ⊆ all) {m : Bytes} (hm : IsLeast all m) :
    IsLeast s m ↔ m ∈ s :=
  ⟨And.left, fun hin => ⟨hin, fun _ hk => hm.2 (hsub hk)⟩⟩

theorem isGreatest_iff_mem {s all : Set Bytes} (hsub : s ⊆ all) {m : Bytes}
    (hm : IsGreatest all m) : IsGreatest s m ↔ m ∈ s :=
  ⟨And.left, fun hin => ⟨hin, fun _ hk => hm.2 (hsub hk)⟩⟩

theorem eq_empty_of_nil {l : List Bytes} {s : Set Bytes} (hl : ∀ k, k ∈ l ↔ k ∈ s)
    (hnil : l = []) : s = ∅ := by
  refine Set.eq_empty_iff_forall_notMem.mpr fun k hk => ?_
  have hin := (hl k).mpr hk
  rw [hnil] at hin
  exact absurd hin (by simp)

/-- The first element of an increasing list is the least of the set it lists. -/
theorem isLeast_head {l : List Bytes} {s : Set Bytes} (hsorted : l.Pairwise (· < ·))
    (hl : ∀ k, k ∈ l ↔ k ∈ s) {m : Bytes} : l.head? = some m ↔ IsLeast s m := by
  constructor
  · intro h
    obtain ⟨rest, rfl⟩ : ∃ rest, l = m :: rest := by
      cases l with
      | nil => simp at h
      | cons a rest => exact ⟨rest, by simpa using h⟩
    refine ⟨(hl m).mp List.mem_cons_self, fun k hk => ?_⟩
    rcases List.mem_cons.mp ((hl k).mpr hk) with rfl | hmem
    · exact le_refl _
    · exact le_of_lt ((List.pairwise_cons.mp hsorted).1 k hmem)
  · rintro ⟨hm, hle⟩
    cases l with
    | nil => exact absurd ((hl m).mpr hm) (by simp)
    | cons a rest =>
        have ha : m ≤ a := hle ((hl a).mp List.mem_cons_self)
        rcases List.mem_cons.mp ((hl m).mpr hm) with rfl | hmem
        · rfl
        · exact absurd ((List.pairwise_cons.mp hsorted).1 m hmem) (not_lt.mpr ha)

/-- The last element of an increasing list is the greatest of the set it lists. -/
theorem isGreatest_getLast {l : List Bytes} {s : Set Bytes} (hsorted : l.Pairwise (· < ·))
    (hl : ∀ k, k ∈ l ↔ k ∈ s) {m : Bytes} : l.getLast? = some m ↔ IsGreatest s m := by
  constructor
  · intro h
    obtain ⟨front, rfl⟩ := List.getLast?_eq_some_iff.mp h
    refine ⟨(hl m).mp (by simp), fun k hk => ?_⟩
    rcases List.mem_append.mp ((hl k).mpr hk) with hmem | hmem
    · exact le_of_lt ((List.pairwise_append.mp hsorted).2.2 k hmem m (by simp))
    · exact le_of_eq (List.mem_singleton.mp hmem)
  · rintro ⟨hm, hge⟩
    rcases List.eq_nil_or_concat l with rfl | ⟨front, a, rfl⟩
    · exact absurd ((hl m).mpr hm) (by simp)
    · rw [List.concat_eq_append] at hsorted hl ⊢
      have ha : a ≤ m := hge ((hl a).mp (by simp))
      rcases List.mem_append.mp ((hl m).mpr hm) with hmem | hmem
      · exact absurd ((List.pairwise_append.mp hsorted).2.2 m hmem a (by simp)) (not_lt.mpr ha)
      · simp [List.mem_singleton.mp hmem]

theorem rangeKeys_subset (d : MemDB) (pre : Bytes) (lo hi : Option Bytes) :
    d.rangeKeys pre lo hi ⊆ d.keys pre := fun _ hk => hk.1

theorem below_mono {bound : Option Bytes} {a b : Bytes} (hab : a < b) (hb : below bound b) :
    below bound a := by
  cases bound with
  | none => rfl
  | some hi => exact decide_eq_true (hab.trans (of_decide_eq_true hb))

/-- A walk from the first key of the prefix shows those below the bound. -/
theorem visits_seekToFirst (hkeyed : Keyed d.db) (hpre : NulFree it.pre) (h : it.wIter.Settled d) :
    Visits (it.seekToFirst d) ((keysIn it.pre d.db.entries).filter (below it.upper)) := by
  have hvisits := @visits_rest (it.seekToFirst d) _ hpre (from_filter hkeyed it.pre [])
    (WholeSpaceIterator.rest_lowerBound h _)
  have hkeys : keysIn it.pre (d.db.entries.filter fun e => encodeKey it.pre [] ≤ e.1) =
      keysIn it.pre d.db.entries := by
    rw [keysIn_from hkeyed]
    exact List.filter_eq_self.mpr fun k _ => decide_eq_true (nil_le k)
  have hsorted : (keysIn it.pre d.db.entries).Pairwise fun a b =>
      below it.upper b → below it.upper a :=
    (keysIn_sorted d.db.sorted fun e he => hkeyed e.1 e.2 he).imp below_mono
  have hpre' : (it.seekToFirst d).pre = it.pre := rfl
  have hupper : (it.seekToFirst d).upper = it.upper := rfl
  rwa [hpre', hupper, hkeys, (OrderedMap.dropWhile_eq_filter hsorted).1] at hvisits

end PrefixIterator

open PrefixIterator in
/-- A seek keeps to the range of the iterator exactly where the bounds hide nothing that it
should find and nothing else lies where it looks. -/
theorem seek_meets_iff {d : MemDB} (hreached : d.Reached) {pre : Bytes} (hpre : NulFree pre)
    (lo hi : Option Bytes) (calls : List IteratorCall) (s : Seek) :
    s.Meets d pre lo hi (after d pre lo hi calls) ↔
      s.Fits d pre lo hi (storedBound hi calls) := by
  have hkeyed := hreached.keyed
  obtain ⟨hsettled, hp, hupper⟩ := after_spec d pre lo hi calls
  rw [← hupper]
  clear hupper
  generalize after d pre lo hi calls = it at hsettled hp ⊢
  subst hp
  have hsorted : (keysIn it.pre d.db.entries).Pairwise (· < ·) :=
    keysIn_sorted d.db.sorted fun e he => hkeyed e.1 e.2 he
  have hkeys : ∀ k, k ∈ keysIn it.pre d.db.entries ↔ k ∈ d.keys it.pre := fun k =>
    mem_keysIn hkeyed hpre
  have hsub := rangeKeys_subset d it.pre lo hi
  cases s with
  | first =>
      have hvisits := visits_seekToFirst hkeyed hpre hsettled
      constructor
      · rintro ⟨l, hl, -, hmem⟩ k hk
        rw [← hmem k, hl.unique hvisits, List.mem_filter, and_iff_right ((hkeys k).mpr hk)]
      · intro h
        refine ⟨_, hvisits, hsorted.filter _, fun k => ?_⟩
        rw [List.mem_filter, hkeys]
        constructor
        · rintro ⟨hk, hb⟩
          exact (h k hk).mp hb
        · intro hk
          exact ⟨hsub hk, (h k (hsub hk)).mpr hk⟩
  | last =>
      exact shows_iff hsub (fun m hm => isGreatest_iff_mem hsub hm)
        (fun m => isGreatest_getLast hsorted hkeys)
        (fun hnone => eq_empty_of_nil hkeys (List.getLast?_eq_none_iff.mp hnone))
        (shown_seekToLast hsettled)
  | lowerBound t =>
      have hfilter : ∀ k, k ∈ (keysIn it.pre d.db.entries).filter (t ≤ ·) ↔
          k ∈ {k ∈ d.keys it.pre | t ≤ k} := by
        intro k
        rw [List.mem_filter, hkeys, decide_eq_true_eq]
        rfl
      have hsub' : {k ∈ d.rangeKeys it.pre lo hi | t ≤ k} ⊆ {k ∈ d.keys it.pre | t ≤ k} :=
        fun k hk => ⟨hsub hk.1, hk.2⟩
      have hshows := shows_iff hsub' (fun m hm => isLeast_iff_mem hsub' hm)
        (fun m => isLeast_head (hsorted.filter _) hfilter)
        (fun hnone => eq_empty_of_nil hfilter (List.head?_eq_none_iff.mp hnone))
        (shown_lowerBound hkeyed hpre hsettled t)
      refine hshows.trans (forall₂_congr fun m hm => ?_)
      have hin : m ∈ {k ∈ d.rangeKeys it.pre lo hi | t ≤ k} ↔ m ∈ d.rangeKeys it.pre lo hi :=
        and_iff_left hm.1.2
      rw [hin]
  | upperBound t =>
      have hshown := shown_upperBound hkeyed hpre hsettled t
      have hinvalid : (it.upperBound d t).valid = false := by
        by_contra hval
        simp [shown, hval] at hshown
      show (it.upperBound d t).Shows _ _ ↔ _
      simp only [Shows, hinvalid, Bool.false_eq_true, if_false, Seek.Fits]

/-- Two keys of prefix `p`. -/
def twoKeys : MemDB := (MemDB.submitTransaction [] [.set [112] [1] [7], .set [112] [2] [7]]
  ⟨.empty, 0⟩).2

/-- Without bounds nothing is hidden. -/
theorem seek_meets_two_keys :
    Seek.first.Meets twoKeys [112] none none (PrefixIterator.after twoKeys [112] none none []) ↔
      Seek.first.Fits twoKeys [112] none none (PrefixIterator.storedBound none []) :=
  seek_meets_iff (.submit [] _ .init) (show (0 : UInt8) ∉ [112] by decide) none none [] .first

/-- `seek_to_first` shows the first key although the lower bound is the second. -/
theorem seek_not_meets_lower :
    ¬ Seek.first.Meets twoKeys [112] (some [2]) none
      (PrefixIterator.after twoKeys [112] (some [2]) none []) := by
  rintro ⟨l, hl, -, hmem⟩
  have hwalk : PrefixIterator.Visits
      ((PrefixIterator.after twoKeys [112] (some [2]) none []).seekToFirst twoKeys) [[1], [2]] :=
    .step (by decide) (.step (by decide) (.stop (by decide)))
  have hin : [1] ∈ l := by
    rw [hl.unique hwalk]
    exact List.mem_cons_self
  have hle : ([2] : Bytes) ≤ [1] := ((hmem [1]).mp hin).2.1 [2] rfl
  exact absurd hle (by decide)

end Clab.Kv
