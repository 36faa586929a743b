import Clab.Bluestore.FreelistBits

/-!
# Updating the freelist

What `_xor` adds to a transaction flips the bits of its blocks and no others,
so creating a freelist records the first block and the blocks past the end, and
allocating and releasing record exactly their ranges.
-/

namespace Clab.Bluestore

open Clab.Common Clab.Codec

/-! ## Merges -/

/-- The bit that merging the values `pairs` flips for block `i`. -/
def flips (pairs : Entries) (i : Nat) : Bool :=
  pairs.foldr (fun p b => (decide (p.1 = i / 128) && valueBit p.2 (i % 128)) ^^ b) false

/-- The merges of these values. -/
def mergeOps (span : Nat) (pairs : Entries) : List Op :=
  pairs.map fun p => .merge (keyEncodeU64 (p.1 * span)) p.2

theorem flips_append (p q : Entries) (i : Nat) : flips (p ++ q) i = (flips p i ^^ flips q i) := by
  induction p with
  | nil => simp [flips]
  | cons x rest ih =>
      show (_ ^^ flips (rest ++ q) i) = ((_ ^^ flips rest i) ^^ flips q i)
      rw [ih, Bool.xor_assoc]

theorem flips_singleton (j : Nat) (v : Value) (i : Nat) :
    flips [(j, v)] i = (decide (j = i / 128) && valueBit v (i % 128)) := by
  simp [flips]

/-- The database with these entries, and this other key space. -/
structure Stores (span count : Nat) (db : KeyValueDB) (metaSpace : List (String × Value))
    (l : Entries) : Prop where
  space : db.bitmapSpace = toSpace span l
  other : db.metaSpace = metaSpace
  wellFormed : WellFormed count l

/-- Merges flip bits, each its own. -/
theorem Stores.submit {span count : Nat} {db : KeyValueDB} {other : List (String × Value)}
    {l pairs : Entries} (h : Stores span count db other l) (hfit : KeysFit span count)
    (hpairs : ∀ p ∈ pairs, p.1 < count ∧ p.2.length = 16) :
    ∃ l', Stores span count (db.submit (mergeOps span pairs)) other l' ∧
      ∀ i, blockBit l' i = (blockBit l i ^^ flips pairs i) := by
  induction pairs generalizing db l with
  | nil => exact ⟨l, h, fun i => by simp [flips]⟩
  | cons p rest ih =>
      obtain ⟨j, v⟩ := p
      obtain ⟨hj, hv⟩ := hpairs (j, v) (by simp)
      have hstep : Stores span count (db.apply (.merge (keyEncodeU64 (j * span)) v)) other
          (mergeAt j v l) := by
        refine ⟨?_, h.other, h.wellFormed.mergeAt hj hv⟩
        show Space.merge _ v db.bitmapSpace = _
        rw [h.space]
        exact toSpace_merge hfit hj h.wellFormed.below
      obtain ⟨l', hl', hbit⟩ := ih hstep fun q hq => hpairs q (by simp [hq])
      refine ⟨l', hl', fun i => ?_⟩
      rw [hbit i, blockBit_mergeAt h.wellFormed hv, Bool.xor_assoc]
      rfl

/-! ## The manager's numbers -/

namespace BitmapFreelistManager

/-- The blocks of the device. -/
def units (m : BitmapFreelistManager) : Nat := m.size / m.bytesPerBlock

/-- The blocks of the device, rounded up to whole keys. -/
def rounded (m : BitmapFreelistManager) : Nat := (m.units + 127) / 128 * 128

/-- How many keys there can be. -/
def keyCount (m : BitmapFreelistManager) : Nat := max 1 (m.rounded / 128)

/-- The numbers of a manager, as `create` and `init` set them. -/
structure Configured (m : BitmapFreelistManager) : Prop where
  unit : isp2 m.bytesPerBlock = true
  unit_lt : m.bytesPerBlock < 2 ^ 64
  blocksPerKey : m.blocksPerKey = 128
  allSetBl : m.allSetBl = List.replicate 16 0xff
  bytesPerKey : m.bytesPerKey = m.bytesPerBlock * 128 % 2 ^ 64
  size_mod : m.size % m.bytesPerBlock = 0
  size_lt : m.size < 2 ^ 64
  blocks : m.blocks = m.rounded % 2 ^ 64

variable {m : BitmapFreelistManager}

theorem Configured.unit_pos (h : Configured m) : 0 < m.bytesPerBlock := by
  obtain ⟨k, hk⟩ := isp2_iff.mp h.unit
  rw [hk]
  exact Nat.pow_pos (by decide)

/-- Either a key spans 128 blocks, or all blocks are in one key. -/
theorem Configured.span_cases (h : Configured m) :
    (m.bytesPerKey = m.bytesPerBlock * 128 ∧ m.bytesPerBlock * 128 < 2 ^ 64) ∨
      (m.bytesPerKey = 0 ∧ 2 ^ 57 ≤ m.bytesPerBlock) := by
  obtain ⟨k, hk⟩ := isp2_iff.mp h.unit
  have hlt := h.unit_lt
  rw [h.bytesPerKey]
  rw [hk] at hlt ⊢
  have hk64 := (Nat.pow_lt_pow_iff_right (by decide)).mp hlt
  rcases Nat.lt_or_ge k 57 with hk57 | hk57
  · have hpow : 2 ^ k * 128 < 2 ^ 64 := by
      have : 2 ^ k ≤ 2 ^ 56 := Nat.pow_le_pow_right (by decide) (by omega)
      omega
    exact .inl ⟨Nat.mod_eq_of_lt hpow, hpow⟩
  · refine .inr ⟨?_, Nat.pow_le_pow_right (by decide) hk57⟩
    have hdvd : 2 ^ 64 ∣ 2 ^ k * 128 := by
      rw [show (128 : Nat) = 2 ^ 7 from rfl, ← Nat.pow_add]
      exact Nat.pow_dvd_pow 2 (by omega)
    exact Nat.mod_eq_zero_of_dvd hdvd

theorem Configured.size_eq (h : Configured m) :
    m.size / m.bytesPerBlock * m.bytesPerBlock = m.size :=
  Nat.div_mul_cancel (Nat.dvd_of_mod_eq_zero h.size_mod)

theorem Configured.keysFit (h : Configured m) : KeysFit m.bytesPerKey m.keyCount := by
  have hsize := h.size_eq
  have hlt := h.size_lt
  have hpos := h.unit_pos
  unfold keyCount rounded units
  generalize m.size / m.bytesPerBlock = units at hsize ⊢
  rcases h.span_cases with ⟨hspan, -⟩ | ⟨hspan, hbig⟩
  · refine ⟨fun j hj => ?_, fun _ => by omega⟩
    -- the key starts at a block of the device
    rcases Nat.eq_zero_or_pos j with rfl | hjpos
    · omega
    · have hunits : j * 128 ≤ units := by
        omega
      calc j * m.bytesPerKey = j * 128 * m.bytesPerBlock := by rw [hspan]; ring
        _ ≤ units * m.bytesPerBlock := Nat.mul_le_mul_right _ hunits
        _ < 2 ^ 64 := by omega
  · have hone : max 1 ((units + 127) / 128 * 128 / 128) = 1 := by
      have hunits : units < 128 := by
        by_contra hge
        have : 128 * 2 ^ 57 ≤ units * m.bytesPerBlock := Nat.mul_le_mul (by omega) hbig
        omega
      omega
    rw [hone, hspan]
    exact ⟨fun j _ => by omega, fun hn => by omega⟩

/-- The key and the bit of a byte are those of its block. -/
theorem Configured.key_of_byte (h : Configured m) {x : Nat} (hx : x < 2 ^ 64) :
    p2align x m.bytesPerKey = x / m.bytesPerBlock / 128 * m.bytesPerKey ∧
      x % m.bytesPerKey / m.bytesPerBlock = x / m.bytesPerBlock % 128 := by
  have hpos := h.unit_pos
  unfold p2align
  rcases h.span_cases with ⟨hspan, -⟩ | ⟨hspan, hbig⟩
  · rw [hspan, Nat.div_div_eq_div_mul, Nat.mod_mul_right_div_self]
    exact ⟨rfl, rfl⟩
  · have hblock : x / m.bytesPerBlock < 128 := by
      rw [Nat.div_lt_iff_lt_mul hpos]
      have : 128 * 2 ^ 57 ≤ 128 * m.bytesPerBlock := Nat.mul_le_mul_left _ hbig
      omega
    rw [hspan, Nat.mod_zero, Nat.mul_zero, Nat.mul_zero, Nat.mod_eq_of_lt hblock]
    exact ⟨rfl, rfl⟩

/-- The loop over the keys between the first and the last. -/
theorem keysBetween_eq {span last n j : Nat} (hm : m.bytesPerKey = span) (hspan : 0 < span)
    (hlast : last * span < 2 ^ 64) (hj : j ≤ last) (hn : last ≤ j + n) :
    m.keysBetween (last * span) n (j * span) =
      ((List.range' j (last - j)).map (· * span), last * span) := by
  induction n generalizing j with
  | zero =>
      obtain rfl : j = last := by omega
      rw [Nat.sub_self]
      rfl
  | succ n ih =>
      rw [keysBetween]
      rcases Nat.lt_or_eq_of_le hj with hlt | rfl
      · have hmul : (j + 1) * span ≤ last * span := Nat.mul_le_mul_right _ hlt
        have hnext : add64 (j * span) m.bytesPerKey = (j + 1) * span := by
          rw [hm, add64_of_lt (by rw [Nat.succ_mul] at hmul; omega), Nat.succ_mul]
        obtain ⟨d, hd⟩ := Nat.exists_eq_add_of_lt hlt
        rw [if_pos (Nat.mul_lt_mul_of_pos_right hlt hspan), hnext, ih (by omega) (by omega),
          show last - j = last - (j + 1) + 1 by omega, List.range'_succ]
        rfl
      · rw [if_neg (Nat.lt_irrefl _), Nat.sub_self]
        rfl

/-- Whole keys flip all their blocks. -/
theorem flips_allSet (a n i : Nat) :
    flips ((List.range' a n).map fun j => (j, List.replicate 16 0xff)) i =
      decide (a ≤ i / 128 ∧ i / 128 < a + n) := by
  induction n generalizing a with
  | zero =>
      have hout : ¬ (a ≤ i / 128 ∧ i / 128 < a + 0) := by omega
      rw [decide_eq_false hout]
      rfl
  | succ n ih =>
      rw [List.range'_succ, List.map_cons]
      show (_ ^^ flips _ i) = _
      rw [ih, valueBit_allSet (show i % 128 < 128 by omega), Bool.and_true]
      by_cases ha : a = i / 128
      · have h₁ : ¬ (a + 1 ≤ i / 128 ∧ i / 128 < a + 1 + n) := by omega
        have h₂ : a ≤ i / 128 ∧ i / 128 < a + (n + 1) := by omega
        rw [decide_eq_true ha, decide_eq_false h₁, decide_eq_true h₂]
        rfl
      · rw [decide_eq_false ha, Bool.false_xor, decide_eq_decide]
        omega

/-- `_xor` of whole blocks is a list of merges that flips their bits. -/
theorem xor_eq (h : Configured m) {s n : Nat} (hn : 0 < n)
    (hend : (s + n) * m.bytesPerBlock < 2 ^ 64) :
    ∃ pairs, m.xor (s * m.bytesPerBlock) (n * m.bytesPerBlock) =
        some (mergeOps m.bytesPerKey pairs) ∧
      (∀ p ∈ pairs, p.1 ≤ (s + n - 1) / 128 ∧ p.2.length = 16) ∧
      ∀ i, flips pairs i = decide (s ≤ i ∧ i < s + n) := by
  have hpos := h.unit_pos
  have hmul : (s + n) * m.bytesPerBlock = s * m.bytesPerBlock + n * m.bytesPerBlock :=
    Nat.add_mul ..
  have hn1 : m.bytesPerBlock ≤ n * m.bytesPerBlock := Nat.le_mul_of_pos_left _ hn
  have hlast : lastByte (s * m.bytesPerBlock) (n * m.bytesPerBlock) =
      (s + n) * m.bytesPerBlock - 1 := by
    rw [lastByte, add64_of_lt (by omega), ← hmul, sub64_of_le (by omega) hend]
  have hblock : ((s + n) * m.bytesPerBlock - 1) / m.bytesPerBlock = s + n - 1 := by
    rw [Nat.div_eq_iff hpos]
    have : (s + n) * m.bytesPerBlock = (s + n - 1) * m.bytesPerBlock + m.bytesPerBlock := by
      rw [← Nat.succ_mul, Nat.succ_eq_add_one, Nat.sub_add_cancel (by omega)]
    omega
  obtain ⟨hfk, hfb⟩ := h.key_of_byte (x := s * m.bytesPerBlock) (by omega)
  obtain ⟨hlk, hlb⟩ := h.key_of_byte (x := (s + n) * m.bytesPerBlock - 1) (by omega)
  rw [Nat.mul_div_cancel _ hpos] at hfk hfb
  rw [hblock] at hlk hlb
  unfold xor
  rw [if_neg (by rw [Nat.mul_mod_left]; exact fun hne => hne rfl),
    if_neg (by rw [Nat.mul_mod_left]; exact fun hne => hne rfl)]
  rw [hlast, hfk, hlk, hfb, hlb]
  unfold xorKeys
  rw [h.blocksPerKey, h.allSetBl, show 128 / 8 = 16 from rfl]
  have hbit : (s + n - 1) % 128 + 1 ≤ 128 := by omega
  rcases Nat.lt_or_eq_of_le (show s / 128 ≤ (s + n - 1) / 128 by omega) with hlt | heq
  · have hkey : (s + n - 1) / 128 * m.bytesPerKey < 2 ^ 64 ∧ 0 < m.bytesPerKey := by
      rcases h.span_cases with ⟨hspan, -⟩ | ⟨-, hbig⟩
      · have hle : (s + n - 1) / 128 * 128 * m.bytesPerBlock ≤ (s + n) * m.bytesPerBlock :=
          Nat.mul_le_mul_right _ (by omega)
        have hcomm : (s + n - 1) / 128 * m.bytesPerKey =
            (s + n - 1) / 128 * 128 * m.bytesPerBlock := by
          rw [hspan]
          ring
        omega
      · -- all blocks are in one key
        have hone : s + n ≤ 128 := by
          by_contra hgt
          have : 128 * 2 ^ 57 ≤ (s + n) * m.bytesPerBlock := Nat.mul_le_mul (by omega) hbig
          omega
        omega
    generalize hspan : m.bytesPerKey = span at hkey ⊢
    generalize hj₁ : s / 128 = j₁ at hlt ⊢
    generalize hj₂ : (s + n - 1) / 128 = j₂ at hlt hkey ⊢
    obtain ⟨hkey, hspan₀⟩ := hkey
    have hmul : (j₁ + 1) * span ≤ j₂ * span := Nat.mul_le_mul_right _ hlt
    have hnext : add64 (j₁ * span) span = (j₁ + 1) * span := by
      rw [add64_of_lt (by rw [Nat.succ_mul] at hmul; omega), Nat.succ_mul]
    rw [if_neg (fun heq => by have := Nat.eq_of_mul_eq_mul_right hspan₀ heq; omega), hnext,
      Nat.mul_div_cancel _ hspan₀, keysBetween_eq hspan hspan₀ hkey (by omega) (by omega)]
    refine ⟨[(j₁, flipBits 16 (s % 128) 128)] ++
      (List.range' (j₁ + 1) (j₂ - (j₁ + 1))).map (fun j => (j, List.replicate 16 0xff)) ++
      [(j₂, flipBits 16 0 ((s + n - 1) % 128 + 1))], ?_, ?_, ?_⟩
    · show (if j₂ * span ≠ j₂ * span then none else some _) = _
      rw [if_neg (fun hne => hne rfl)]
      simp [mergeOps, List.map_map, Function.comp_def]
    · intro p hp
      rcases List.mem_append.mp hp with hp | hp
      · rcases List.mem_append.mp hp with hp | hp
        · obtain rfl := List.mem_singleton.mp hp
          exact ⟨hlt.le, flipBits_length le_rfl (by omega)⟩
        · obtain ⟨j, hj, rfl⟩ := List.mem_map.mp hp
          have := List.mem_range'_1.mp hj
          exact ⟨show j ≤ j₂ by omega, List.length_replicate⟩
      · obtain rfl := List.mem_singleton.mp hp
        exact ⟨le_rfl, flipBits_length hbit (by omega)⟩
    · intro i
      rw [flips_append, flips_append, flips_singleton, flips_singleton, flips_allSet,
        valueBit_flipBits le_rfl (by omega), valueBit_flipBits hbit (by omega)]
      -- block `i` is under the first key, between, under the last key, or outside
      have hfirst : decide (j₁ = i / 128) = decide (i / 128 = j₁) := decide_eq_decide.mpr eq_comm
      have hlast : decide (j₂ = i / 128) = decide (i / 128 = j₂) := decide_eq_decide.mpr eq_comm
      rw [hfirst, hlast]
      rcases Nat.lt_trichotomy (i / 128) j₁ with hi | hi | hi
      · have h₁ : ¬ i / 128 = j₁ := by omega
        have h₂ : ¬ (j₁ + 1 ≤ i / 128 ∧ i / 128 < j₁ + 1 + (j₂ - (j₁ + 1))) := by omega
        have h₃ : ¬ i / 128 = j₂ := by omega
        have h₄ : ¬ (s ≤ i ∧ i < s + n) := by omega
        rw [decide_eq_false h₁, decide_eq_false h₂, decide_eq_false h₃, decide_eq_false h₄]
        rfl
      · have h₂ : ¬ (j₁ + 1 ≤ i / 128 ∧ i / 128 < j₁ + 1 + (j₂ - (j₁ + 1))) := by omega
        have h₃ : ¬ i / 128 = j₂ := by omega
        rw [decide_eq_true hi, decide_eq_false h₂, decide_eq_false h₃, Bool.true_and,
          Bool.false_and, Bool.xor_false, Bool.xor_false, decide_eq_decide]
        omega
      · have h₁ : ¬ i / 128 = j₁ := by omega
        rw [decide_eq_false h₁, Bool.false_and, Bool.false_xor]
        by_cases h₃ : i / 128 = j₂
        · have h₂ : ¬ (j₁ + 1 ≤ i / 128 ∧ i / 128 < j₁ + 1 + (j₂ - (j₁ + 1))) := by omega
          rw [decide_eq_false h₂, decide_eq_true h₃, Bool.true_and, Bool.false_xor,
            decide_eq_decide]
          omega
        · rw [decide_eq_false h₃, Bool.false_and, Bool.xor_false, decide_eq_decide]
          omega
  · rw [heq, if_pos rfl]
    refine ⟨[((s + n - 1) / 128, flipBits 16 (s % 128) ((s + n - 1) % 128 + 1))], rfl, ?_, ?_⟩
    · intro p hp
      obtain rfl := List.mem_singleton.mp hp
      exact ⟨le_rfl, flipBits_length hbit (by omega)⟩
    · intro i
      rw [flips_singleton, valueBit_flipBits hbit (by omega), ← Bool.decide_and, decide_eq_decide]
      omega

/-! ## Creating -/

/-- The device, rounded up to whole keys, ends below 2^64. -/
def RoundsUp (m : BitmapFreelistManager) : Prop := m.rounded * m.bytesPerBlock < 2 ^ 64

instance : Decidable (RoundsUp m) := inferInstanceAs (Decidable (_ < _))

theorem units_le_rounded (m : BitmapFreelistManager) : m.units ≤ m.rounded := by
  unfold rounded
  omega

theorem key_lt {b : Nat} (hb : b < m.rounded ∨ b = 0) : b / 128 < m.keyCount := by
  unfold keyCount rounded at *
  omega

theorem Configured.deviceEnd_eq (h : Configured m) :
    m.deviceEnd = m.rounded * m.bytesPerBlock % 2 ^ 64 := by
  unfold deviceEnd
  rw [h.blocks, Nat.mod_mul_mod]

/-- Where rounding up leaves 64 bits, it reaches 2^64, which is zero. -/
theorem Configured.wrapped (h : Configured m) (hr : ¬ RoundsUp m) : m.deviceEnd = 0 := by
  have hsize := h.size_eq
  have hlt := h.size_lt
  obtain ⟨k, hk⟩ := isp2_iff.mp h.unit
  have hk64 : k < 64 := (Nat.pow_lt_pow_iff_right (by decide)).mp (hk ▸ h.unit_lt)
  have hpos := h.unit_pos
  rw [h.deviceEnd_eq]
  unfold RoundsUp at hr
  unfold rounded units at *
  generalize m.size / m.bytesPerBlock = units at *
  refine Nat.mod_eq_zero_of_dvd ?_
  rcases Nat.lt_or_ge k 57 with hk57 | hk57
  · -- 2^64 is a whole number of keys, and the device ends below it
    have hspan : 2 ^ 64 = 2 ^ (57 - k) * 128 * m.bytesPerBlock := by
      rw [hk, show (128 : Nat) = 2 ^ 7 from rfl, ← Nat.pow_add, ← Nat.pow_add]
      congr 1
      omega
    have hunits : units < 2 ^ (57 - k) * 128 := by
      refine Nat.lt_of_mul_lt_mul_right (a := m.bytesPerBlock) ?_
      omega
    have hle : (units + 127) / 128 * 128 ≤ 2 ^ (57 - k) * 128 := by omega
    have hmul := Nat.mul_le_mul_right m.bytesPerBlock hle
    rw [← hspan] at hmul
    rw [Nat.le_antisymm hmul (Nat.not_lt.mp hr)]
  · rw [Nat.mul_assoc, hk, show (128 : Nat) = 2 ^ 7 from rfl, ← Nat.pow_add]
    exact Dvd.dvd.mul_left (Nat.pow_dvd_pow 2 (by omega)) _

/-- The numbers in the meta space. -/
def metaOf (m : BitmapFreelistManager) : List (String × Value) :=
  [("bytes_per_block", leBytes 8 m.bytesPerBlock), ("blocks_per_key", leBytes 8 m.blocksPerKey),
    ("blocks", leBytes 8 m.blocks), ("size", leBytes 8 m.size)]

theorem configured_configure {newSize granularity : Nat} (hu : isp2 granularity = true)
    (hg : granularity < 2 ^ 64) (hs : newSize < 2 ^ 64) :
    Configured (configure newSize granularity) := by
  have hset : (configure newSize granularity).allSetBl = List.replicate 16 0xff := by
    simp [configure, initMisc]
  refine ⟨hu, hg, rfl, hset, rfl, p2align_mod .., (p2align_le ..).trans_lt hs, ?_⟩
  have hle : p2align newSize granularity / granularity < 2 ^ 64 :=
    (Nat.div_le_self ..).trans_lt ((p2align_le ..).trans_lt hs)
  show (if p2align newSize granularity / granularity / 128 * 128 ≠
    p2align newSize granularity / granularity then
      (p2align newSize granularity / granularity / 128 + 1) * 128 % 2 ^ 64
    else p2align newSize granularity / granularity) =
      (p2align newSize granularity / granularity + 127) / 128 * 128 % 2 ^ 64
  split <;> omega

/-- `create` records block 0, and the blocks past the end unless their number
wrapped around. -/
theorem create_eq {newSize granularity : Nat} (hu : isp2 granularity = true)
    (hg : granularity < 2 ^ 64) (hs : newSize < 2 ^ 64) :
    ∃ m pairs, create newSize granularity = some (m, mergeOps m.bytesPerKey pairs ++
        (metaOf m).map fun p => .set p.1 p.2) ∧
      Configured m ∧ m.size = p2align newSize granularity ∧ m.bytesPerBlock = granularity ∧
      m.enumerate = {} ∧ (∀ p ∈ pairs, p.1 < m.keyCount ∧ p.2.length = 16) ∧
      ∀ i, flips pairs i =
        (decide (RoundsUp m ∧ m.units ≤ i ∧ i < m.rounded) ^^ decide (i = 0)) := by
  have hc := configured_configure hu hg hs
  have hpos := hc.unit_pos
  have hsize := hc.size_eq
  have hunits := units_le_rounded (configure newSize granularity)
  unfold create
  rw [hu, if_neg (by decide)]
  show ∃ m pairs, Option.bind _ _ = _ ∧ _
  have hname : (configure newSize granularity).size = p2align newSize granularity ∧
      (configure newSize granularity).bytesPerBlock = granularity ∧
      (configure newSize granularity).enumerate = {} := ⟨rfl, rfl, rfl⟩
  generalize configure newSize granularity = m at *
  -- the blocks past the end
  obtain ⟨tail, htail, htailKeys, htailFlips⟩ : ∃ tail,
      m.xorTail = some (mergeOps m.bytesPerKey tail) ∧
      (∀ p ∈ tail, p.1 < m.keyCount ∧ p.2.length = 16) ∧
      ∀ i, flips tail i = decide (RoundsUp m ∧ m.units ≤ i ∧ i < m.rounded) := by
    unfold xorTail
    by_cases hr : RoundsUp m
    · have hend : m.deviceEnd = m.rounded * m.bytesPerBlock :=
        hc.deviceEnd_eq.trans (Nat.mod_eq_of_lt hr)
      have hle : m.size ≤ m.rounded * m.bytesPerBlock := hsize ▸ Nat.mul_le_mul_right _ hunits
      rw [hend]
      rcases Nat.lt_or_eq_of_le hunits with hlt | heq
      · have hdiff : m.rounded * m.bytesPerBlock - m.size =
            (m.rounded - m.units) * m.bytesPerBlock := by
          rw [Nat.sub_mul, ← hsize]
          rfl
        obtain ⟨pairs, hxor, hkeys, hflips⟩ := xor_eq hc (s := m.units)
          (n := m.rounded - m.units) (by omega) (by rw [Nat.add_sub_cancel' hunits]; exact hr)
        have hmul : m.units * m.bytesPerBlock < m.rounded * m.bytesPerBlock :=
          Nat.mul_lt_mul_of_pos_right hlt hpos
        refine ⟨pairs, ?_, fun p hp => ?_, fun i => ?_⟩
        · rw [if_pos (show m.rounded * m.bytesPerBlock > m.size by rw [← hsize]; exact hmul),
            hdiff, ← hxor, units, hsize]
        · obtain ⟨hj, hlen⟩ := hkeys p hp
          have := key_lt (m := m) (b := m.units + (m.rounded - m.units) - 1) (.inl (by omega))
          exact ⟨by omega, hlen⟩
        · rw [hflips, decide_eq_decide, Nat.add_sub_cancel' hunits]
          exact ⟨fun h => ⟨hr, h⟩, fun h => h.2⟩
      · have hsame : m.rounded * m.bytesPerBlock = m.size := by
          rw [← heq]
          exact hsize
        refine ⟨[], ?_, by simp, fun i => ?_⟩
        · rw [if_neg (by omega)]
          rfl
        · have hout : ¬ (RoundsUp m ∧ m.units ≤ i ∧ i < m.rounded) := by omega
          rw [decide_eq_false hout]
          rfl
    · refine ⟨[], ?_, by simp, fun i => ?_⟩
      · rw [hc.wrapped hr, if_neg (by omega)]
        rfl
      · rw [decide_eq_false (fun h => hr h.1)]
        rfl
  obtain ⟨head, hhead, hheadKeys, hheadFlips⟩ := xor_eq hc (s := 0) (n := 1) (by decide)
    (by rw [Nat.zero_add, Nat.one_mul]; exact hc.unit_lt)
  rw [Nat.zero_mul, Nat.one_mul] at hhead
  refine ⟨m, tail ++ head, ?_, hc, hname.1, hname.2.1, hname.2.2, fun p hp => ?_, fun i => ?_⟩
  · rw [htail]
    show Option.bind (m.xor 0 m.bytesPerBlock) _ = _
    rw [hhead]
    simp [mergeOps, metaOf]
  · rcases List.mem_append.mp hp with hp | hp
    · exact htailKeys p hp
    · obtain ⟨hle, hlen⟩ := hheadKeys p hp
      have := key_lt (m := m) (b := 0) (.inr rfl)
      exact ⟨by omega, hlen⟩
  · rw [flips_append, htailFlips, hheadFlips]
    congr 1
    rw [decide_eq_decide]
    omega

end BitmapFreelistManager

end Clab.Bluestore
