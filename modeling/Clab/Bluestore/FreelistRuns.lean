import Clab.Bluestore.FreelistUpdate

/-!
# Runs of the freelist

The databases that transactions lead to from a created freelist, each with the
set of free bytes it stands for.
-/

namespace Clab.Bluestore

open Clab.Common Clab.Codec

namespace BitmapFreelistManager

/-- What a transaction asks of the manager. -/
inductive Request
  | allocate (offset length : Nat)
  | release (offset length : Nat)

/-- The bytes of a request. -/
def Request.bytes : Request → Set Nat
  | .allocate offset length => Set.Ico offset (offset + length)
  | .release offset length => Set.Ico offset (offset + length)

/-- Whole blocks, at least one; free ones are allocated, and ones other than
block 0 that are not free are released. -/
def Request.Legal (m : BitmapFreelistManager) (free : Set Nat) : Request → Prop
  | .allocate offset length =>
      offset % m.bytesPerBlock = 0 ∧ length % m.bytesPerBlock = 0 ∧ 0 < length ∧
        Set.Ico offset (offset + length) ⊆ free
  | .release offset length =>
      offset % m.bytesPerBlock = 0 ∧ length % m.bytesPerBlock = 0 ∧ 0 < length ∧
        Set.Ico offset (offset + length) ⊆ Set.Ico m.bytesPerBlock m.size \ free

/-- The free bytes after a request. -/
def Request.after (free : Set Nat) : Request → Set Nat
  | .allocate offset length => free \ Set.Ico offset (offset + length)
  | .release offset length => free ∪ Set.Ico offset (offset + length)

/-- What a request adds to the transaction. -/
def Request.ops (m : BitmapFreelistManager) : Request → Option (List Op)
  | .allocate offset length => m.allocate offset length
  | .release offset length => m.release offset length

/-- The transactions of legal requests, with the free bytes before and after. -/
inductive Gathers (m : BitmapFreelistManager) : Set Nat → List Op → Set Nat → Prop
  | nil (free : Set Nat) : Gathers m free [] free
  | request {free after : Set Nat} {txn ops : List Op} (r : Request) :
      Gathers m free txn after → r.Legal m after → r.ops m = some ops →
      Gathers m free (txn ++ ops) (r.after after)

/-- The databases that committed transactions lead to, with their free bytes:
at first all of the device but block 0. -/
inductive Reaches (m : BitmapFreelistManager) (db₀ : KeyValueDB) : KeyValueDB → Set Nat → Prop
  | start : Reaches m db₀ db₀ (Set.Ico m.bytesPerBlock m.size)
  | commit {db : KeyValueDB} {free after : Set Nat} {txn : List Op} :
      Reaches m db₀ db free → Gathers m free txn after → Reaches m db₀ (db.submit txn) after

/-- The database stands for the free bytes. -/
structure Represents (m : BitmapFreelistManager) (db : KeyValueDB) (l : Entries)
    (free : Set Nat) : Prop where
  stores : Stores m.bytesPerKey m.keyCount db m.metaOf l
  first : blockBit l 0 = true
  bits : ∀ x, m.bytesPerBlock ≤ x → x < m.size →
    (x ∈ free ↔ blockBit l (x / m.bytesPerBlock) = false)
  inside : free ⊆ Set.Ico m.bytesPerBlock m.size
  padding : ∀ b, m.units ≤ b → b < m.rounded → blockBit l b = decide (RoundsUp m)

variable {m : BitmapFreelistManager}

theorem Configured.div_lt_units (h : Configured m) {x : Nat} (hx : x < m.size) :
    x / m.bytesPerBlock < m.units := by
  rw [Nat.div_lt_iff_lt_mul h.unit_pos]
  exact h.size_eq ▸ hx

/-- Whole blocks of the device, flipped by what `_xor` adds. -/
theorem Represents.xor (h : Configured m) {db : KeyValueDB} {l : Entries} {free : Set Nat}
    (hr : Represents m db l free) {offset length : Nat} (hoff : offset % m.bytesPerBlock = 0)
    (hlen : length % m.bytesPerBlock = 0) (hpos : 0 < length) (hlo : m.bytesPerBlock ≤ offset)
    (hhi : offset + length ≤ m.size) :
    ∃ ops l', m.xor offset length = some ops ∧
      Stores m.bytesPerKey m.keyCount (db.submit ops) m.metaOf l' ∧
      (∀ b, b = 0 ∨ m.units ≤ b → blockBit l' b = blockBit l b) ∧
      ∀ x, blockBit l' (x / m.bytesPerBlock) = (blockBit l (x / m.bytesPerBlock) ^^
        decide (offset ≤ x ∧ x < offset + length)) := by
  have hunit := h.unit_pos
  have hsize := h.size_lt
  obtain ⟨s, rfl⟩ := Nat.dvd_of_mod_eq_zero hoff
  obtain ⟨n, rfl⟩ := Nat.dvd_of_mod_eq_zero hlen
  rw [Nat.mul_comm m.bytesPerBlock s, Nat.mul_comm m.bytesPerBlock n] at *
  rw [← Nat.add_mul] at hhi ⊢
  have hn : 0 < n := Nat.pos_of_mul_pos_right hpos
  have hs : 0 < s := by
    rcases Nat.eq_zero_or_pos s with rfl | hs
    · omega
    · exact hs
  have hend : s + n ≤ m.units := by
    rw [units, Nat.le_div_iff_mul_le hunit]
    exact hhi
  have hblocks := m.units_le_rounded
  obtain ⟨pairs, hxor, hkeys, hflips⟩ := xor_eq h (s := s) (n := n) hn (by omega)
  have hkey := key_lt (m := m) (b := s + n - 1) (.inl (by omega))
  obtain ⟨l', hstores, hbit⟩ := hr.stores.submit h.keysFit fun p hp =>
    ⟨by have := (hkeys p hp).1; omega, (hkeys p hp).2⟩
  refine ⟨_, l', hxor, hstores, fun b hb => ?_, fun x => ?_⟩
  · have hout : ¬ (s ≤ b ∧ b < s + n) := by omega
    rw [hbit, hflips, decide_eq_false hout, Bool.xor_false]
  · rw [hbit, hflips]
    congr 1
    rw [decide_eq_decide, Nat.le_div_iff_mul_le hunit, Nat.div_lt_iff_lt_mul hunit]

/-- A legal request keeps the database and the free bytes together. -/
theorem Represents.request (h : Configured m) {db : KeyValueDB} {l : Entries} {free : Set Nat}
    (hr : Represents m db l free) {r : Request} (hl : r.Legal m free) :
    ∃ ops l', r.ops m = some ops ∧ Represents m (db.submit ops) l' (r.after free) := by
  cases r with
  | allocate offset length =>
      obtain ⟨hoff, hlen, hpos, hfree⟩ := hl
      have hlo := hr.inside (hfree ⟨le_rfl, by omega⟩)
      have hhi := hr.inside (hfree (show offset + length - 1 ∈ Set.Ico _ _ from
        ⟨by omega, by omega⟩))
      obtain ⟨ops, l', hxor, hstores, hkept, hbit⟩ :=
        hr.xor h hoff hlen hpos hlo.1 (by have := hhi.2; omega)
      refine ⟨ops, l', hxor, hstores, (hkept 0 (.inl rfl)).trans hr.first, fun x hx hxs => ?_,
        Set.sdiff_subset.trans hr.inside, fun b hb hbb => ?_⟩
      · rw [hbit]
        show x ∈ free \ Set.Ico offset (offset + length) ↔ _
        by_cases hin : offset ≤ x ∧ x < offset + length
        · have hwas := (hr.bits x hx hxs).mp (hfree hin)
          rw [hwas, decide_eq_true hin]
          exact ⟨fun hd => absurd hin hd.2, fun hf => absurd hf (by decide)⟩
        · rw [decide_eq_false hin, Bool.xor_false, ← hr.bits x hx hxs]
          exact ⟨fun hd => hd.1, fun hf => ⟨hf, hin⟩⟩
      · rw [hkept b (.inr hb)]
        exact hr.padding b hb hbb
  | release offset length =>
      obtain ⟨hoff, hlen, hpos, hused⟩ := hl
      have hlo := (hused ⟨le_rfl, by omega⟩).1
      have hhi := (hused (show offset + length - 1 ∈ Set.Ico _ _ from
        ⟨by omega, by omega⟩)).1
      obtain ⟨ops, l', hxor, hstores, hkept, hbit⟩ :=
        hr.xor h hoff hlen hpos hlo.1 (by have := hhi.2; omega)
      refine ⟨ops, l', hxor, hstores, (hkept 0 (.inl rfl)).trans hr.first, fun x hx hxs => ?_,
        Set.union_subset hr.inside fun x hx => (hused hx).1, fun b hb hbb => ?_⟩
      · rw [hbit]
        show x ∈ free ∪ Set.Ico offset (offset + length) ↔ _
        by_cases hin : offset ≤ x ∧ x < offset + length
        · have hwas : blockBit l (x / m.bytesPerBlock) = true := by
            rw [← Bool.not_eq_false, ← hr.bits x hx hxs]
            exact (hused hin).2
          rw [hwas, decide_eq_true hin]
          exact ⟨fun _ => rfl, fun _ => .inr hin⟩
        · rw [decide_eq_false hin, Bool.xor_false, ← hr.bits x hx hxs]
          exact ⟨fun hd => hd.resolve_right hin, .inl⟩
      · rw [hkept b (.inr hb)]
        exact hr.padding b hb hbb

theorem Represents.gathers (h : Configured m) {db : KeyValueDB} {l : Entries}
    {free after : Set Nat} {txn : List Op} (hr : Represents m db l free)
    (hg : Gathers m free txn after) : ∃ l', Represents m (db.submit txn) l' after := by
  induction hg with
  | nil => exact ⟨l, hr⟩
  | request r _ hl hops ih =>
      obtain ⟨l₁, hr₁⟩ := ih
      obtain ⟨ops, l', hops', hr'⟩ := hr₁.request h hl
      cases hops.symm.trans hops'
      refine ⟨l', ?_⟩
      rw [KeyValueDB.submit, List.foldl_append]
      exact hr'

/-- A created freelist: the manager, the database, and what they stand for. -/
theorem create_represents {newSize granularity : Nat} (hu : isp2 granularity = true)
    (hg : granularity < 2 ^ 64) (hs : newSize < 2 ^ 64) :
    ∃ m txn l, create newSize granularity = some (m, txn) ∧ Configured m ∧
      m.size = p2align newSize granularity ∧ m.bytesPerBlock = granularity ∧ m.enumerate = {} ∧
      Represents m (({} : KeyValueDB).submit txn) l (Set.Ico m.bytesPerBlock m.size) := by
  obtain ⟨m, pairs, hcreate, hc, hsize, hgran, henum, hkeys, hflips⟩ := create_eq hu hg hs
  have hpos := hc.unit_pos
  have hempty : Stores m.bytesPerKey m.keyCount ({} : KeyValueDB) [] [] :=
    ⟨rfl, rfl, List.Pairwise.nil, by simp, by simp⟩
  obtain ⟨l, hstores, hbit⟩ := hempty.submit hc.keysFit hkeys
  have hbit' : ∀ i, blockBit l i =
      (decide (RoundsUp m ∧ m.units ≤ i ∧ i < m.rounded) ^^ decide (i = 0)) := by
    intro i
    rw [hbit, hflips]
    exact Bool.false_xor _
  refine ⟨m, _, l, hcreate, hc, hsize, hgran, henum, ?_, ?_, fun x hx hxs => ?_, le_rfl,
    fun b hb hbb => ?_⟩
  · rw [KeyValueDB.submit, List.foldl_append]
    refine ⟨?_, ?_, hstores.wellFormed⟩
    · exact hstores.space
    · have hother := hstores.other
      unfold KeyValueDB.submit at hother
      generalize List.foldl KeyValueDB.apply {} (mergeOps m.bytesPerKey pairs) = db at hother ⊢
      simp [metaOf, KeyValueDB.apply, hother, setMeta]
  · have hout : ¬ (RoundsUp m ∧ m.units ≤ 0 ∧ 0 < m.rounded) := by
      rintro ⟨-, h₁, h₂⟩
      unfold rounded at h₂
      omega
    rw [hbit', decide_eq_false hout]
    rfl
  · have hb₁ := hc.div_lt_units hxs
    have hb₀ : 1 ≤ x / m.bytesPerBlock := by
      rw [Nat.le_div_iff_mul_le hpos, Nat.one_mul]
      exact hx
    have hout : ¬ (RoundsUp m ∧ m.units ≤ x / m.bytesPerBlock ∧
        x / m.bytesPerBlock < m.rounded) := by omega
    rw [hbit', decide_eq_false hout, decide_eq_false (by omega)]
    exact ⟨fun _ => rfl, fun _ => ⟨hx, hxs⟩⟩
  · have hne : ¬ b = 0 := by
      rintro rfl
      unfold rounded at hbb
      omega
    rw [hbit', decide_eq_false hne, Bool.xor_false, decide_eq_decide]
    exact ⟨fun h => h.1, fun h => ⟨h, hb, hbb⟩⟩

/-- Every database reached stands for its free bytes. -/
theorem Reaches.represents (h : Configured m) {db₀ db : KeyValueDB} {l₀ : Entries}
    {free : Set Nat} (h₀ : Represents m db₀ l₀ (Set.Ico m.bytesPerBlock m.size))
    (hr : Reaches m db₀ db free) : ∃ l, Represents m db l free := by
  induction hr with
  | start => exact ⟨l₀, h₀⟩
  | commit _ hg ih =>
      obtain ⟨l, hl⟩ := ih
      exact hl.gathers h hg

/-- A manager loaded from the database has the numbers of the one that created
it. -/
theorem init_eq (h : Configured m) {db : KeyValueDB} {l : Entries} {free : Set Nat}
    (hr : Represents m db l free) : init db = some { m with enumerate := {} } := by
  have hblocks : m.blocks < 256 ^ 8 := h.blocks ▸ Nat.mod_lt _ (by decide)
  unfold init
  rw [hr.stores.other]
  have hval : ∀ {n}, n < 2 ^ 64 → leNat (leBytes 8 n) = n := fun hn => leNat_leBytes_of_lt hn
  have hload : loadMeta m.metaOf {} = some { size := m.size, bytesPerBlock := m.bytesPerBlock, blocksPerKey := m.blocksPerKey, blocks := m.blocks } := by
    simp [metaOf, loadMeta, hval h.size_lt, hval h.unit_lt, hval hblocks, h.blocksPerKey, leNat_leBytes]
  rw [hload]
  show some (initMisc _) = _
  congr 1
  unfold initMisc
  have hset := h.allSetBl
  have hkey := h.bytesPerKey
  have hper := h.blocksPerKey
  cases m
  simp_all

end BitmapFreelistManager

end Clab.Bluestore
