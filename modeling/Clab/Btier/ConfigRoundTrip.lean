import Clab.Btier.ConfigParser

/-!
# A configuration that was saved

Every member of the text is read back, but a number comes back through a `double`: an integer
that no `double` has is lost, and a text such as `inf` makes the parser give up the whole file.
-/

namespace Clab.Btier.Config

open Clab.Common

variable {f : Floats}

/-! ## Integers through a `double` -/

theorem isDouble_natCast {n : Nat} (h : n < 2 ^ 53) : IsDouble (n : ℚ) :=
  ⟨n, 0, by rw [Nat.abs_cast]; exact_mod_cast h, by decide, by decide, by simp⟩

/-- A `double` from 2^53 on is an even integer. -/
theorem isDouble_even {q : ℚ} (h : IsDouble q) (hq : 2 ^ 53 ≤ q) :
    ∃ z : Int, q = ((2 * z : Int) : ℚ) := by
  obtain ⟨m, e, hm, -, -, rfl⟩ := h
  have hpow : (0 : ℚ) < 2 ^ e := by positivity
  have he : 1 ≤ e := by
    by_contra hneg
    have hone : (2 : ℚ) ^ e ≤ 1 := zpow_le_one_of_nonpos₀ (by norm_num) (by omega)
    have hm' : (m : ℚ) < 2 ^ 53 := by exact_mod_cast (abs_lt.mp hm).2
    rcases le_or_gt (m : ℚ) 0 with hle | hgt
    · have : (m : ℚ) * 2 ^ e ≤ 0 := mul_nonpos_of_nonpos_of_nonneg hle hpow.le
      linarith
    · have : (m : ℚ) * 2 ^ e ≤ m * 1 := mul_le_mul_of_nonneg_left hone hgt.le
      linarith
  obtain ⟨k, hk⟩ := Int.eq_ofNat_of_zero_le (a := e - 1) (by omega)
  refine ⟨m * 2 ^ k, ?_⟩
  rw [show e = ((k + 1 : Nat) : Int) by omega, zpow_natCast]
  push_cast
  ring

theorem floor_isDouble {q : ℚ} (h : IsDouble q) (hq : 2 ^ 53 ≤ q) : (⌊q⌋ : ℚ) = q := by
  obtain ⟨z, rfl⟩ := isDouble_even h hq
  rw [Int.floor_intCast]

/-- The integer that the nearest `double` is cast to is the one that was written, if and only if
it is a `double` itself. -/
theorem cast_nearest_iff {n bits : Nat} (hn : n < 2 ^ bits) {d : f.Double} {q : ℚ}
    (hd : f.value d = some q) (hq : Nearest n q) :
    cast f bits d = some n ↔ IsDouble (n : ℚ) := by
  constructor
  · intro h
    by_cases hsmall : n < 2 ^ 53
    · exact isDouble_natCast hsmall
    have hcast : ∃ z : Int, z = (if 0 ≤ q then ⌊q⌋ else ⌈q⌉) ∧ 0 ≤ z ∧ z.toNat = n := by
      refine ⟨_, rfl, ?_⟩
      simp only [cast, hd, Option.bind_some, Option.ite_none_right_eq_some,
        Option.some.injEq] at h
      exact ⟨h.1.1, h.2⟩
    obtain ⟨z, hz, hz0, hzn⟩ := hcast
    have hzn' : z = (n : Int) := by omega
    have hbig : (2 ^ 53 : ℚ) ≤ n := by exact_mod_cast Nat.le_of_not_lt hsmall
    have hq0 : 0 ≤ q := by
      by_contra hneg
      rw [if_neg hneg] at hz
      have hceil : (⌈q⌉ : ℚ) < q + 1 := Int.ceil_lt_add_one q
      rw [← hz, hzn', Int.cast_natCast] at hceil
      linarith
    rw [if_pos hq0] at hz
    have hfloor : ((⌊q⌋ : Int) : ℚ) = n := by rw [← hz, hzn', Int.cast_natCast]
    have hle : (n : ℚ) ≤ q := by
      rw [← hfloor]
      exact Int.floor_le q
    rw [← hfloor, floor_isDouble hq.1 (hbig.trans hle)]
    exact hq.1
  · intro h
    have hdist := hq.2 n h
    rw [sub_self, abs_zero] at hdist
    have heq : q = n := by
      have := abs_nonpos_iff.mp hdist
      linarith
    subst heq
    have hn' : (n : Int) < 2 ^ bits := by exact_mod_cast hn
    simp [cast, hd, hn']

/-! ## The assumptions -/

/-- What is documented of the functions on floating-point numbers: `std::stod` returns the
nearest `double` and throws without a digit, and a stream writes a finite number in the
characters of a number. -/
structure Documented (f : Floats) : Prop where
  stod_decimal : ∀ n < 2 ^ 64, ∃ d q,
    f.stod (decimal n) = some d ∧ f.value d = some q ∧ Nearest n q
  stod_minus : f.stod [45] = none
  showDouble : ∀ d, if (f.value d).isSome then NumText (f.showDouble d)
    else f.showDouble d ∈ nonFinite
  showSingle : ∀ x, if (f.value (f.widen x)).isSome then NumText (f.showSingle x)
    else f.showSingle x ∈ nonFinite

/-! ## What the saved text holds -/

/-- A floating-point number behind its text: none where the text is refused. -/
def readShown (f : Floats) (d : f.Double) (t : Bytes) : Option (JsonValue f.Double) :=
  if (f.value d).isSome then (f.stod t).map .number else none

theorem readShown_isSome_iff {d : f.Double} {t : Bytes} :
    (readShown f d t).isSome ↔ (f.value d).isSome ∧ (f.stod t).isSome := by
  unfold readShown
  split
  · next h => simp [h]
  · next h => simp [h]

theorem parses_shown (hminus : f.stod [45] = none) {d : f.Double} {t : Bytes}
    (h : if (f.value d).isSome then NumText t else t ∈ nonFinite) :
    Parses f t (readShown f d t) := by
  unfold readShown
  split at h
  · next hfinite =>
      rw [if_pos hfinite]
      exact parses_number h
  · next hfinite =>
      rw [if_neg hfinite]
      exact parses_nonFinite hminus h

def WeightSet.read (w : WeightSet f) : List (Bytes × Option (JsonValue f.Double)) :=
  [(ascii "w_recency", readShown f (f.widen w.wRecency) (f.showSingle w.wRecency)),
    (ascii "w_frequency", readShown f (f.widen w.wFrequency) (f.showSingle w.wFrequency)),
    (ascii "w_randomness", readShown f (f.widen w.wRandomness) (f.showSingle w.wRandomness)),
    (ascii "w_write_penalty",
      readShown f (f.widen w.wWritePenalty) (f.showSingle w.wWritePenalty))]

def readDecimal (f : Floats) (n : Nat) : Option (JsonValue f.Double) :=
  (f.stod (decimal n)).map .number

/-- The members of the saved text, as the parser reads them. -/
def BtierConfig.read (cfg : BtierConfig f) : List (Bytes × Option (JsonValue f.Double)) :=
  [(ascii "fast_dev_path", some (.string cfg.fastDevPath)),
    (ascii "slow_dev_path", some (.string cfg.slowDevPath)),
    (ascii "extent_size", readDecimal f cfg.extentSize.toNat),
    (ascii "block_size", readDecimal f cfg.blockSize.toNat),
    (ascii "large_value_threshold", readDecimal f cfg.largeValueThreshold.toNat),
    (ascii "base_weights",
      (readMembers cfg.baseWeights.read).map fun ps => .object ps.reverse),
    (ascii "low_watermark", readShown f cfg.lowWatermark (f.showDouble cfg.lowWatermark)),
    (ascii "high_watermark", readShown f cfg.highWatermark (f.showDouble cfg.highWatermark)),
    (ascii "scan_interval_ms", readDecimal f cfg.scanIntervalMs.toNat),
    (ascii "max_migrations_per_cycle", readDecimal f cfg.maxMigrationsPerCycle.toNat),
    (ascii "max_compactions_per_cycle", readDecimal f cfg.maxCompactionsPerCycle.toNat),
    (ascii "promote_threshold",
      readShown f (f.widen cfg.promoteThreshold) (f.showSingle cfg.promoteThreshold)),
    (ascii "demote_threshold",
      readShown f (f.widen cfg.demoteThreshold) (f.showSingle cfg.demoteThreshold)),
    (ascii "compaction_dead_ratio",
      readShown f cfg.compactionDeadRatio (f.showDouble cfg.compactionDeadRatio)),
    (ascii "compaction_usage_ratio",
      readShown f cfg.compactionUsageRatio (f.showDouble cfg.compactionUsageRatio)),
    (ascii "cool_interval_sec", readDecimal f cfg.coolIntervalSec.toNat),
    (ascii "sequential_threshold", readDecimal f cfg.sequentialThreshold.toNat),
    (ascii "journal_size", readDecimal f cfg.journalSize.toNat)]

theorem WeightSet.allParse (h : Documented f) (w : WeightSet f) :
    AllParse f w.members w.read := by
  have hshown := fun x => parses_shown h.stod_minus (h.showSingle x)
  simp only [AllParse, WeightSet.members, WeightSet.read, List.forall₂_cons, true_and]
  exact ⟨hshown _, hshown _, hshown _, hshown _, .nil⟩

theorem BtierConfig.allParse (h : Documented f) (cfg : BtierConfig f) :
    AllParse f cfg.members cfg.read := by
  have hdouble := fun d => parses_shown h.stod_minus (h.showDouble d)
  have hsingle := fun x => parses_shown h.stod_minus (h.showSingle x)
  have hdecimal : ∀ n, Parses f (decimal n) (readDecimal f n) :=
    fun n => parses_number (numText_decimal n)
  have hweights := parses_objectText 8 (cfg.baseWeights.allParse h) (by simp [WeightSet.members])
  simp only [AllParse, BtierConfig.members, BtierConfig.read, List.forall₂_cons, true_and]
  exact ⟨parses_escJson _, parses_escJson _, hdecimal _, hdecimal _, hdecimal _, hweights,
    hdouble _, hdouble _, hdecimal _, hdecimal _, hdecimal _, hsingle _, hsingle _, hdouble _,
    hdouble _, hdecimal _, hdecimal _, hdecimal _, .nil⟩

theorem parse_save (h : Documented f) (cfg : BtierConfig f) :
    parse f cfg.save =
      match readMembers cfg.read with
      | some ps => .ok (.object ps.reverse) [10]
      | none => .fails := by
  have hread := parses_objectText 4 (cfg.allParse h) (by simp [BtierConfig.members])
    (2 * cfg.save.length + 1) [10]
    (by rw [BtierConfig.save, List.length_append]; omega) (by simp; decide)
  rw [parse]
  refine Eq.trans hread ?_
  cases readMembers cfg.read <;> rfl

/-! ## Looking a member up -/

theorem readMembers_isSome_iff {D : Type} (rs : List (Bytes × Option (JsonValue D))) :
    (readMembers rs).isSome ↔ ∀ r ∈ rs, r.2.isSome := by
  induction rs with
  | nil => simp [readMembers]
  | cons r rs ih =>
      obtain ⟨key, r⟩ := r
      rw [readMembers_cons, List.forall_mem_cons, ← ih]
      cases r <;> simp

theorem readMembers_keys {D : Type} {rs : List (Bytes × Option (JsonValue D))}
    {ps : List (Bytes × JsonValue D)} (h : readMembers rs = some ps) :
    ps.map Prod.fst = rs.map Prod.fst := by
  induction rs generalizing ps with
  | nil =>
      simp only [readMembers, List.mapM_nil, Option.pure_def, Option.some.injEq] at h
      rw [← h]
      rfl
  | cons r rs ih =>
      obtain ⟨key, r⟩ := r
      rw [readMembers_cons, Option.bind_eq_some_iff] at h
      obtain ⟨v, -, h⟩ := h
      obtain ⟨qs, hqs, rfl⟩ := Option.map_eq_some_iff.mp h
      rw [List.map_cons, List.map_cons, ih hqs]

/-- Names that differ are found each with its own value. -/
theorem get_readMembers {D : Type} {rs : List (Bytes × Option (JsonValue D))}
    {ps : List (Bytes × JsonValue D)} (h : readMembers rs = some ps)
    (hnodup : (rs.map Prod.fst).Nodup) {key : Bytes} {v : JsonValue D}
    (hmem : (key, some v) ∈ rs) : JsonValue.get ps.reverse key = some v := by
  induction rs generalizing ps with
  | nil => simp at hmem
  | cons r rs ih =>
      obtain ⟨key', r⟩ := r
      rw [readMembers_cons, Option.bind_eq_some_iff] at h
      obtain ⟨v', hr, h⟩ := h
      obtain ⟨qs, hqs, rfl⟩ := Option.map_eq_some_iff.mp h
      rw [List.map_cons, List.nodup_cons] at hnodup
      rw [JsonValue.get, List.reverse_cons, List.find?_append]
      rcases List.mem_cons.mp hmem with heq | htail
      · simp only [Prod.mk.injEq] at heq
        obtain ⟨rfl, rfl⟩ := heq
        have hnone : qs.reverse.find? (fun m => m.1 = key) = none := by
          rw [List.find?_eq_none]
          intro m hm
          have hkey : m.1 ∈ rs.map Prod.fst := by
            rw [← readMembers_keys hqs]
            exact List.mem_map_of_mem (List.mem_reverse.mp hm)
          simp only [decide_eq_true_eq]
          rintro rfl
          exact hnodup.1 hkey
        rw [hnone]
        simpa using hr.symm
      · have hfound := ih hqs hnodup.2 htail
        rw [JsonValue.get] at hfound
        obtain ⟨m, hm, hval⟩ := Option.map_eq_some_iff.mp hfound
        rw [hm]
        exact congrArg some hval

/-! ## The fields that come back -/

/-- Both paths and the integer fields of `cfg` are those of `loaded`. -/
structure Agrees (cfg loaded : BtierConfig f) : Prop where
  fastDevPath : loaded.fastDevPath = cfg.fastDevPath
  slowDevPath : loaded.slowDevPath = cfg.slowDevPath
  extentSize : loaded.extentSize = cfg.extentSize
  blockSize : loaded.blockSize = cfg.blockSize
  largeValueThreshold : loaded.largeValueThreshold = cfg.largeValueThreshold
  scanIntervalMs : loaded.scanIntervalMs = cfg.scanIntervalMs
  maxMigrationsPerCycle : loaded.maxMigrationsPerCycle = cfg.maxMigrationsPerCycle
  maxCompactionsPerCycle : loaded.maxCompactionsPerCycle = cfg.maxCompactionsPerCycle
  coolIntervalSec : loaded.coolIntervalSec = cfg.coolIntervalSec
  sequentialThreshold : loaded.sequentialThreshold = cfg.sequentialThreshold
  journalSize : loaded.journalSize = cfg.journalSize

/-- The saved text is read as an object, and `load` restores the paths and the integers. -/
def Restored (f : Floats) (cfg : BtierConfig f) : Prop :=
  (∃ members rest, parse f cfg.save = .ok (.object members) rest) ∧
    ∃ loaded, load f cfg.save = some loaded ∧ Agrees cfg loaded

/-- `load` comes to an end on every text, with the defaults where the text is no object. -/
structure LoadsEveryText (f : Floats) : Prop where
  ends : ∀ text, parse f text ≠ .outOfFuel
  defaults : ∀ text, (∀ members rest, parse f text ≠ .ok (.object members) rest) →
    load f text = some {}
  noBrace : ∀ text, (skipWs text).head? ≠ some 123 → load f text = some {}

theorem load_noObject {text : Bytes} (h : NoObject (parse f text)) : load f text = some {} := by
  unfold load
  split
  · next members rest hok => exact absurd hok (h members rest)
  · rfl

theorem loadsEveryText (f : Floats) : LoadsEveryText f where
  ends := parse_ends
  defaults := fun _ h => load_noObject h
  noBrace := fun _ h => load_noObject (noObject_parse h)

/-- The fields of the configuration that are read, one by one. -/
theorem readConfig_agrees_iff (members : List (Bytes × JsonValue f.Double))
    (cfg : BtierConfig f) :
    (∃ loaded, readConfig f members = some loaded ∧ Agrees cfg loaded) ↔
      (readPath f members (ascii "fast_dev_path") = cfg.fastDevPath ∧
        readPath f members (ascii "slow_dev_path") = cfg.slowDevPath) ∧
      (readU64 f members (ascii "extent_size") (4 * 1024 * 1024) = some cfg.extentSize ∧
        readU64 f members (ascii "block_size") 4096 = some cfg.blockSize ∧
        readU64 f members (ascii "large_value_threshold") (2 * 1024 * 1024) =
          some cfg.largeValueThreshold ∧
        readU64 f members (ascii "sequential_threshold") (64 * 1024) =
          some cfg.sequentialThreshold ∧
        readU64 f members (ascii "journal_size") (64 * 1024 * 1024) = some cfg.journalSize) ∧
      readU32 f members (ascii "scan_interval_ms") 1000 = some cfg.scanIntervalMs ∧
        readU32 f members (ascii "max_migrations_per_cycle") 16 =
          some cfg.maxMigrationsPerCycle ∧
        readU32 f members (ascii "max_compactions_per_cycle") 4 =
          some cfg.maxCompactionsPerCycle ∧
        readU32 f members (ascii "cool_interval_sec") 300 = some cfg.coolIntervalSec := by
  constructor
  · rintro ⟨loaded, h, hagrees⟩
    simp only [readConfig, Option.bind_eq_bind, Option.bind_eq_some_iff, Option.pure_def,
      Option.some.injEq] at h
    obtain ⟨e, he, b, hb, l, hl, s, hs, g, hg, c, hc, o, ho, q, hq, j, hj, rfl⟩ := h
    rw [← hagrees.fastDevPath, ← hagrees.slowDevPath, ← hagrees.extentSize,
      ← hagrees.blockSize, ← hagrees.largeValueThreshold, ← hagrees.scanIntervalMs,
      ← hagrees.maxMigrationsPerCycle, ← hagrees.maxCompactionsPerCycle,
      ← hagrees.coolIntervalSec, ← hagrees.sequentialThreshold, ← hagrees.journalSize]
    exact ⟨⟨rfl, rfl⟩, ⟨he, hb, hl, hq, hj⟩, hs, hg, hc, ho⟩
  · rintro ⟨⟨hfast, hslow⟩, ⟨he, hb, hl, hq, hj⟩, hs, hg, hc, ho⟩
    unfold readConfig
    simp only [he, hb, hl, hq, hj, hs, hg, hc, ho, hfast, hslow, Option.bind_eq_bind,
      Option.bind_some, Option.pure_def]
    exact ⟨_, rfl, ⟨rfl, rfl, rfl, rfl, rfl, rfl, rfl, rfl, rfl, rfl, rfl⟩⟩

theorem readPath_of_get {members : List (Bytes × JsonValue f.Double)} {key s : Bytes}
    (h : JsonValue.get members key = some (.string s)) : readPath f members key = s := by
  rw [readPath, h]
  rfl

theorem readU64_iff (h : Documented f) {members : List (Bytes × JsonValue f.Double)}
    {key : Bytes} {x default : UInt64}
    (hget : ∀ v, readDecimal f x.toNat = some v → JsonValue.get members key = some v) :
    readU64 f members key default = some x ↔ IsDouble (x.toNat : ℚ) := by
  obtain ⟨d, q, hstod, hvalue, hnearest⟩ := h.stod_decimal x.toNat x.toNat_lt
  have hv := hget (.number d) (by rw [readDecimal, hstod]; rfl)
  rw [readU64, hv, ← cast_nearest_iff x.toNat_lt hvalue hnearest]
  simp only [JsonValue.asNumber, Option.map_eq_some_iff]
  constructor
  · rintro ⟨n, hn, hx⟩
    have hlt : n < 2 ^ 64 := by
      obtain ⟨r, -, hr⟩ := Option.bind_eq_some_iff.mp hn
      simp only [Option.ite_none_right_eq_some, Option.some.injEq] at hr
      omega
    have heq : n = x.toNat := by
      rw [← hx, UInt64.toNat_ofNat_of_lt' hlt]
    rw [← heq]
    exact hn
  · intro hn
    exact ⟨_, hn, UInt64.ofNat_toNat⟩

theorem readU32_eq (h : Documented f) {members : List (Bytes × JsonValue f.Double)}
    {key : Bytes} {x default : UInt32}
    (hget : ∀ v, readDecimal f x.toNat = some v → JsonValue.get members key = some v) :
    readU32 f members key default = some x := by
  have hlt : x.toNat < 2 ^ 32 := x.toNat_lt
  obtain ⟨d, q, hstod, hvalue, hnearest⟩ := h.stod_decimal x.toNat (by omega)
  have hv := hget (.number d) (by rw [readDecimal, hstod]; rfl)
  have hcast := (cast_nearest_iff hlt hvalue hnearest).mpr (isDouble_natCast (by omega))
  rw [readU32, hv]
  simp [JsonValue.asNumber, hcast]

/-! ## When a configuration comes back -/

def BtierConfig.sizes (cfg : BtierConfig f) : List UInt64 :=
  [cfg.extentSize, cfg.blockSize, cfg.largeValueThreshold, cfg.sequentialThreshold,
    cfg.journalSize]

def BtierConfig.doubles (cfg : BtierConfig f) : List f.Double :=
  [cfg.lowWatermark, cfg.highWatermark, cfg.compactionDeadRatio, cfg.compactionUsageRatio]

def BtierConfig.singles (cfg : BtierConfig f) : List f.Single :=
  [cfg.baseWeights.wRecency, cfg.baseWeights.wFrequency, cfg.baseWeights.wRandomness,
    cfg.baseWeights.wWritePenalty, cfg.promoteThreshold, cfg.demoteThreshold]

/-- Each 64-bit size is the value of a `double`, and each floating-point field is finite, with a
text that `std::stod` takes. -/
structure Exact (cfg : BtierConfig f) : Prop where
  sizes : ∀ n ∈ cfg.sizes, IsDouble (n.toNat : ℚ)
  doubles : ∀ d ∈ cfg.doubles, (f.value d).isSome ∧ (f.stod (f.showDouble d)).isSome
  singles : ∀ x ∈ cfg.singles, (f.value (f.widen x)).isSome ∧ (f.stod (f.showSingle x)).isSome

theorem readDecimal_isSome (h : Documented f) {n : Nat} (hn : n < 2 ^ 64) :
    (readDecimal f n).isSome := by
  obtain ⟨d, q, hstod, -, -⟩ := h.stod_decimal n hn
  rw [readDecimal, hstod]
  rfl

theorem readMembers_read_isSome_iff (h : Documented f) (cfg : BtierConfig f) :
    (readMembers cfg.read).isSome ↔
      (∀ d ∈ cfg.doubles, (f.value d).isSome ∧ (f.stod (f.showDouble d)).isSome) ∧
        ∀ x ∈ cfg.singles, (f.value (f.widen x)).isSome ∧ (f.stod (f.showSingle x)).isSome := by
  have hsizes := fun x : UInt64 => readDecimal_isSome h x.toNat_lt
  have hcounts : ∀ x : UInt32, (readDecimal f x.toNat).isSome := by
    intro x
    have hlt : x.toNat < 2 ^ 32 := x.toNat_lt
    exact readDecimal_isSome h (by omega)
  simp only [readMembers_isSome_iff, BtierConfig.read, WeightSet.read, BtierConfig.doubles,
    BtierConfig.singles, imp_true_iff, List.not_mem_nil, false_imp_iff, Option.isSome_map, readShown_isSome_iff, List.forall_mem_cons,
    Option.isSome_some, hsizes, hcounts, true_and, and_true]
  constructor
  · rintro ⟨⟨hr, hfr, hra, hw⟩, hlow, hhigh, hpro, hde, hdead, husage⟩
    exact ⟨⟨hlow, hhigh, hdead, husage⟩, hr, hfr, hra, hw, hpro, hde⟩
  · rintro ⟨⟨hlow, hhigh, hdead, husage⟩, hr, hfr, hra, hw, hpro, hde⟩
    exact ⟨⟨hr, hfr, hra, hw⟩, hlow, hhigh, hpro, hde, hdead, husage⟩

theorem BtierConfig.read_keys_nodup (cfg : BtierConfig f) :
    (cfg.read.map Prod.fst).Nodup := by
  simp only [BtierConfig.read, List.map_cons, List.map_nil]
  decide

/-- The members of a saved configuration give its paths and counts back, and those of its sizes
that are values of a `double`. -/
theorem agrees_iff_sizes (h : Documented f) {cfg : BtierConfig f}
    {ps : List (Bytes × JsonValue f.Double)} (hps : readMembers cfg.read = some ps) :
    (∃ loaded, readConfig f ps.reverse = some loaded ∧ Agrees cfg loaded) ↔
      ∀ n ∈ cfg.sizes, IsDouble (n.toNat : ℚ) := by
  have hget : ∀ {key v}, (key, some v) ∈ cfg.read →
      JsonValue.get ps.reverse key = some v :=
    fun hmem => get_readMembers hps cfg.read_keys_nodup hmem
  have hdecimal : ∀ {key : Bytes} {n : Nat}, (key, readDecimal f n) ∈ cfg.read →
      ∀ v, readDecimal f n = some v → JsonValue.get ps.reverse key = some v := by
    intro key n hmem v hv
    rw [hv] at hmem
    exact hget hmem
  have hfast : readPath f ps.reverse (ascii "fast_dev_path") = cfg.fastDevPath :=
    readPath_of_get (hget (by simp [BtierConfig.read]))
  have hslow : readPath f ps.reverse (ascii "slow_dev_path") = cfg.slowDevPath :=
    readPath_of_get (hget (by simp [BtierConfig.read]))
  rw [readConfig_agrees_iff, hfast, hslow,
    readU64_iff h (hdecimal (by simp [BtierConfig.read])),
    readU64_iff h (hdecimal (by simp [BtierConfig.read])),
    readU64_iff h (hdecimal (by simp [BtierConfig.read])),
    readU64_iff h (hdecimal (by simp [BtierConfig.read])),
    readU64_iff h (hdecimal (by simp [BtierConfig.read])),
    readU32_eq h (x := cfg.scanIntervalMs) (hdecimal (by simp [BtierConfig.read])),
    readU32_eq h (x := cfg.maxMigrationsPerCycle) (hdecimal (by simp [BtierConfig.read])),
    readU32_eq h (x := cfg.maxCompactionsPerCycle) (hdecimal (by simp [BtierConfig.read])),
    readU32_eq h (x := cfg.coolIntervalSec) (hdecimal (by simp [BtierConfig.read]))]
  simp [BtierConfig.sizes]

theorem Restored.exact (h : Documented f) {cfg : BtierConfig f} (hcfg : Restored f cfg) :
    Exact cfg := by
  obtain ⟨⟨members, rest, hok⟩, hloaded⟩ := hcfg
  have hparse := parse_save h cfg
  have hsome := readMembers_read_isSome_iff h cfg
  cases hps : readMembers cfg.read with
  | none =>
      rw [hok, hps] at hparse
      simp at hparse
  | some ps =>
      rw [hps] at hparse hsome
      rw [load, hparse] at hloaded
      obtain ⟨hdoubles, hsingles⟩ := hsome.mp rfl
      exact ⟨(agrees_iff_sizes h hps).mp hloaded, hdoubles, hsingles⟩

theorem Exact.restored (h : Documented f) {cfg : BtierConfig f} (hcfg : Exact cfg) :
    Restored f cfg := by
  have hsome := readMembers_read_isSome_iff h cfg
  obtain ⟨ps, hps⟩ := Option.isSome_iff_exists.mp (hsome.mpr ⟨hcfg.doubles, hcfg.singles⟩)
  have hparse := parse_save h cfg
  rw [hps] at hparse
  refine ⟨⟨_, _, hparse⟩, ?_⟩
  rw [load, hparse]
  exact (agrees_iff_sizes h hps).mpr hcfg.sizes

/-- `load` ends on every text; what `save` writes comes back from it if and only if the sizes are
values of a `double` and the floating-point fields are finite and read again. -/
theorem restored_iff (h : Documented f) (cfg : BtierConfig f) :
    Restored f cfg ∧ LoadsEveryText f ↔ Exact cfg :=
  ⟨fun hcfg => hcfg.1.exact h, fun hcfg => ⟨hcfg.restored h, loadsEveryText f⟩⟩

/-! ## Numbers as IEEE 754 has them -/

theorem representable_finite (p : Nat) (low high : Int) :
    {q | Representable p low high q}.Finite := by
  apply (((Set.finite_Icc (-(2 ^ p)) (2 ^ p : Int)).prod (Set.finite_Icc low high)).image
    fun x : Int × Int => (x.1 : ℚ) * 2 ^ x.2).subset
  rintro q ⟨m, e, hm, hlow, hhigh, rfl⟩
  obtain ⟨hm₁, hm₂⟩ := abs_lt.mp hm
  exact ⟨(m, e), ⟨⟨hm₁.le, hm₂.le⟩, hlow, hhigh⟩, rfl⟩

theorem exists_nearest (p : Nat) {low high : Int} (h : low ≤ high) (x : ℚ) :
    ∃ q : {q // Representable p low high q}, ∀ r, Representable p low high r →
      |x - q| ≤ |x - r| := by
  have hzero : Representable p low high 0 := ⟨0, low, by simp, le_rfl, h, by simp⟩
  obtain ⟨q, hq, hmin⟩ := Set.exists_min_image _ (fun r => |x - r|)
    (representable_finite p low high) ⟨0, hzero⟩
  exact ⟨⟨q, hq⟩, hmin⟩

/-- A value of the format that no other is nearer than; a number too large is not taken for
infinity. -/
noncomputable def nearest (p : Nat) {low high : Int} (h : low ≤ high) (x : ℚ) :
    {q // Representable p low high q} :=
  Classical.choose (exists_nearest p h x)

theorem nearest_le (p : Nat) {low high : Int} (h : low ≤ high) (x : ℚ) :
    ∀ r, Representable p low high r → |x - nearest p h x| ≤ |x - r| :=
  Classical.choose_spec (exists_nearest p h x)

/-- The number that a text starts with; an exponent is left out. -/
def decimalValue (t : Bytes) : Option ℚ :=
  let body := if t.head? = some 45 then t.tail else t
  let whole := body.takeWhile isDigit
  let rest := body.dropWhile isDigit
  let fraction := if rest.head? = some 46 then rest.tail.takeWhile isDigit else []
  let x : ℚ := digitsValue (whole ++ fraction) / 10 ^ fraction.length
  if whole = [] then none else some (if t.head? = some 45 then -x else x)

/-- Six digits behind the point, without the zeros that end them. -/
def showRat (q : ℚ) : Bytes :=
  let millionths := ⌊|q| * 10 ^ 6⌋.toNat
  let digits := (List.range 6).map fun i => UInt8.ofNat (48 + millionths / 10 ^ (5 - i) % 10)
  let fraction := (digits.reverse.dropWhile (· = 48)).reverse
  (if q < 0 then [45] else []) ++ decimal (millionths / 10 ^ 6) ++
    if fraction = [] then [] else 46 :: fraction

/-- `none` is what is not a number. -/
abbrev Double := Option {q // Representable 53 (-1074) 971 q}

abbrev Single := Option {q // Representable 24 (-149) 104 q}

noncomputable def toDouble (x : ℚ) : Double := some (nearest 53 (by decide) x)

noncomputable def toSingle (x : ℚ) : Single := some (nearest 24 (by decide) x)

/-- The formats of IEEE 754 without the infinities. -/
noncomputable def ieee : Floats where
  Double := Double
  Single := Single
  value d := d.map Subtype.val
  ofUInt64 n := toDouble n.toNat
  narrow d := d.bind fun q => toSingle q
  widen x := x.bind fun q => toDouble q
  literal x := toDouble x
  stod t := (decimalValue t).map toDouble
  showDouble d := d.elim (ascii "nan") fun q => showRat q
  showSingle x := x.elim (ascii "nan") fun q => showRat q

theorem head?_decimal_append (n : Nat) (s : Bytes) : (decimal n ++ s).head? ≠ some 45 := by
  obtain ⟨c, t, hct⟩ := List.exists_cons_of_ne_nil (decimal_ne_nil n)
  have hc : isDigit c = true := decimal_digits (n := n) (by rw [hct]; exact List.mem_cons_self)
  rw [hct]
  simp only [List.cons_append, List.head?_cons, ne_eq, Option.some.injEq]
  rintro rfl
  exact absurd hc (by decide)

theorem decimalValue_decimal (n : Nat) : decimalValue (decimal n) = some (n : ℚ) := by
  have hhead : (decimal n).head? ≠ some 45 := by
    simpa using head?_decimal_append n []
  have hall : ∀ c ∈ decimal n, isDigit c = true := fun c hc => decimal_digits hc
  have htake : (decimal n).takeWhile isDigit = decimal n := List.takeWhile_eq_self_iff.mpr hall
  have hdrop : (decimal n).dropWhile isDigit = [] := List.dropWhile_eq_nil_iff.mpr hall
  simp [decimalValue, hhead, htake, hdrop, decimal_ne_nil, digitsValue_decimal]

theorem decimalValue_isSome (negative : Bool) (n : Nat) (s : Bytes) :
    (decimalValue ((if negative then [45] else []) ++ (decimal n ++ s))).isSome := by
  have hwhole : (decimal n ++ s).takeWhile isDigit ≠ [] := by
    rw [List.takeWhile_append_of_pos fun c hc => decimal_digits hc]
    simp [decimal_ne_nil]
  have hhead := head?_decimal_append n s
  generalize decimal n ++ s = t at hwhole hhead
  cases negative with
  | true => simp [decimalValue, hwhole]
  | false => simp [decimalValue, hhead, hwhole]

theorem decimalValue_showRat (q : ℚ) : (decimalValue (showRat q)).isSome := by
  have h := decimalValue_isSome (decide (q < 0))
  simp only [decide_eq_true_eq] at h
  rw [showRat, List.append_assoc]
  exact h _ _

theorem numText_showRat (q : ℚ) : NumText (showRat q) := by
  constructor
  · simp [showRat, decimal_ne_nil]
  · intro c hc
    rw [showRat, List.mem_append, List.mem_append] at hc
    obtain (hsign | hwhole) | hfraction := hc
    · split at hsign
      · rw [List.mem_singleton.mp hsign]
        decide
      · simp at hsign
    · simp [numChar, decimal_digits hwhole]
    · split at hfraction
      · simp at hfraction
      · obtain rfl | hdigit := List.mem_cons.mp hfraction
        · decide
        · have hmem := (List.dropWhile_sublist _).subset (List.mem_reverse.mp hdigit)
          obtain ⟨i, -, rfl⟩ := List.mem_map.mp (List.mem_reverse.mp hmem)
          have hlt : ∀ d < 10, numChar (UInt8.ofNat (48 + d)) = true := by decide
          exact hlt _ (Nat.mod_lt _ (by decide))

theorem ieee_documented : Documented ieee where
  stod_decimal n _ := by
    refine ⟨toDouble n, _, ?_, rfl, ?_, ?_⟩
    · change (decimalValue (decimal n)).map toDouble = _
      rw [decimalValue_decimal]
      rfl
    · exact (nearest 53 (by decide) (n : ℚ)).property
    · exact nearest_le 53 (by decide) (n : ℚ)
  stod_minus := rfl
  showDouble d := by
    cases d with
    | none => simp [ieee, nonFinite]
    | some q => exact numText_showRat q
  showSingle x := by
    cases x with
    | none => simp [ieee, nonFinite]
    | some q => exact numText_showRat q

theorem ieee_finite {d : ieee.Double} (hd : (ieee.value d).isSome) :
    (ieee.stod (ieee.showDouble d)).isSome := by
  cases d with
  | none => simp [ieee] at hd
  | some q => simpa [ieee] using decimalValue_showRat q

/-- A configuration with a path of unusual bytes. -/
noncomputable def oddPath : BtierConfig ieee :=
  { fastDevPath := [34, 92, 10, 0, 127, 255], slowDevPath := ascii "/dev/sda" }

theorem oddPath_exact : Exact oddPath where
  sizes := by
    intro n hn
    have hsmall : ∀ n ∈ oddPath.sizes, n.toNat < 2 ^ 53 := by
      simp [BtierConfig.sizes, oddPath]
    exact isDouble_natCast (hsmall n hn)
  doubles := by
    intro d hd
    have hfinite : (ieee.value d).isSome := by
      simp only [BtierConfig.doubles, oddPath, List.mem_cons, List.not_mem_nil, or_false] at hd
      obtain rfl | rfl | rfl | rfl := hd <;> rfl
    exact ⟨hfinite, ieee_finite hfinite⟩
  singles := by
    intro x hx
    have hshown : ∃ q, x = some q := by
      simp only [BtierConfig.singles, oddPath, List.mem_cons, List.not_mem_nil, or_false] at hx
      obtain rfl | rfl | rfl | rfl | rfl | rfl := hx <;> exact ⟨_, rfl⟩
    obtain ⟨q, rfl⟩ := hshown
    exact ⟨rfl, by simpa [ieee] using decimalValue_showRat q⟩

theorem restored_oddPath : Restored ieee oddPath ∧ LoadsEveryText ieee :=
  (restored_iff ieee_documented oddPath).mpr oddPath_exact

theorem not_isDouble : ¬ IsDouble ((2 ^ 53 + 1 : Nat) : ℚ) := by
  intro h
  obtain ⟨z, hz⟩ := isDouble_even h (by norm_num)
  have hz' : ((2 ^ 53 + 1 : Nat) : Int) = 2 * z := by exact_mod_cast hz
  omega

/-- A block size that is the value of no `double`. -/
noncomputable def oddBlockSize : BtierConfig ieee := { blockSize := 2 ^ 53 + 1 }

theorem not_restored : Documented ieee ∧ ¬ Restored ieee oddBlockSize := by
  refine ⟨ieee_documented, ?_⟩
  intro h
  have hblock := (h.exact ieee_documented).sizes (2 ^ 53 + 1)
    (by simp [BtierConfig.sizes, oddBlockSize])
  exact not_isDouble hblock

end Clab.Btier.Config
