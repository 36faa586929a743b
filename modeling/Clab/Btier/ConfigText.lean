import Clab.Common.Text

/-!
# The configuration as text

`BtierConfig::save` writes a JSON object line by line, and `BtierConfig::load` reads any
text with a parser of its own. A number is read as a `double`, an integer too. What the
standard library does with floating-point numbers is a parameter.
-/

namespace Clab.Btier.Config

open Clab.Common

/-! ## Floating-point numbers -/

/-- `double` and `float`, and the functions on them. -/
structure Floats where
  Double : Type
  Single : Type
  /-- The value of a finite `double`. -/
  value : Double → Option ℚ
  ofUInt64 : UInt64 → Double
  narrow : Double → Single
  widen : Single → Double
  literal : ℚ → Double
  /-- `std::stod`, none where it throws. -/
  stod : Bytes → Option Double
  /-- `operator<<` of a stream. -/
  showDouble : Double → Bytes
  showSingle : Single → Bytes

/-- The values of a binary format: `p` bits, and an exponent from `low` to `high`. -/
def Representable (p : Nat) (low high : Int) (q : ℚ) : Prop :=
  ∃ m e : Int, |m| < 2 ^ p ∧ low ≤ e ∧ e ≤ high ∧ q = m * 2 ^ e

/-- The values that a `double` has. -/
def IsDouble (q : ℚ) : Prop := Representable 53 (-1074) 971 q

/-- No `double` is nearer to `x`. -/
def Nearest (x q : ℚ) : Prop := IsDouble q ∧ ∀ r, IsDouble r → |x - q| ≤ |x - r|

/-- The conversion of a `double` to an unsigned integer of `bits` bits rounds towards zero; it is
not defined where the integer does not fit. -/
def cast (f : Floats) (bits : Nat) (d : f.Double) : Option Nat :=
  (f.value d).bind fun q =>
    let z := if 0 ≤ q then ⌊q⌋ else ⌈q⌉
    if 0 ≤ z ∧ z < 2 ^ bits then some z.toNat else none

/-! ## The parser -/

inductive JsonValue (D : Type) where
  | null
  | bool (b : Bool)
  | number (d : D)
  | string (s : Bytes)
  | object (members : List (Bytes × JsonValue D))
  | array (items : List (JsonValue D))

namespace JsonValue

variable {D : Type}

def asNumber (v : JsonValue D) (default : D) : D :=
  match v with
  | number d => d
  | _ => default

def asString : JsonValue D → Bytes
  | string s => s
  | _ => []

/-- `get`, where the last member comes first. -/
def get (members : List (Bytes × JsonValue D)) (key : Bytes) : Option (JsonValue D) :=
  (members.find? fun m => m.1 = key).map Prod.snd

end JsonValue

/-- What a parser function returns: the value and the text behind it. -/
inductive Parsed (α : Type) where
  | ok (a : α) (rest : Bytes)
  | fails
  | outOfFuel

def Parsed.andThen {α β : Type} (x : Parsed α) (k : α → Bytes → Parsed β) : Parsed β :=
  match x with
  | ok a rest => k a rest
  | fails => fails
  | outOfFuel => outOfFuel

def isSpace (c : UInt8) : Bool := c = 32 || c = 9 || c = 10 || c = 13

def skipWs (s : Bytes) : Bytes := s.dropWhile isSpace

/-- The character behind a backslash. -/
def unescape (c : UInt8) : UInt8 :=
  if c = 110 then 10
  else if c = 116 then 9
  else if c = 114 then 13
  else if c = 98 then 8
  else if c = 102 then 12
  else c

/-- The loop of `parse_string`. -/
def stringBody : Bytes → Option (Bytes × Bytes)
  | [] => none
  | c :: s =>
      if c = 34 then some ([], s)
      else if c = 92 then
        match s with
        | [] => none
        | e :: s => (stringBody s).map fun r => (unescape e :: r.1, r.2)
      else (stringBody s).map fun r => (c :: r.1, r.2)

/-- The characters that `parse_number` takes; a minus in front is one of them. -/
def numChar (c : UInt8) : Bool :=
  isDigit c || c = 46 || c = 101 || c = 69 || c = 43 || c = 45

variable (f : Floats)

def parseString (s : Bytes) : Parsed (JsonValue f.Double) :=
  match stringBody s with
  | none => .fails
  | some (t, rest) => .ok (.string t) rest

def parseBool (s : Bytes) : Parsed (JsonValue f.Double) :=
  if s.take 4 = ascii "true" then .ok (.bool true) (s.drop 4)
  else if s.take 5 = ascii "false" then .ok (.bool false) (s.drop 5)
  else .fails

def parseNull (s : Bytes) : Parsed (JsonValue f.Double) :=
  if s.take 4 = ascii "null" then .ok .null (s.drop 4) else .fails

def parseNumber (s : Bytes) : Parsed (JsonValue f.Double) :=
  let num := s.takeWhile numChar
  if num = [] then .fails
  else
    match f.stod num with
    | none => .fails
    | some d => .ok (.number d) (s.dropWhile numChar)

/-- `next()` behind white space. -/
def nextIs {α : Type} (s : Bytes) (k : UInt8 → Bytes → Parsed α) : Parsed α :=
  match skipWs s with
  | [] => .fails
  | c :: s => k c s

mutual

/-- `parse_value`. -/
def parseValue : Nat → Bytes → Parsed (JsonValue f.Double)
  | 0, _ => .outOfFuel
  | n + 1, s =>
      nextIs s fun c rest =>
        if c = 123 then
          if (skipWs rest).head? = some 125 then .ok (.object []) (skipWs rest).tail
          else parseMembers n rest []
        else if c = 91 then
          if (skipWs rest).head? = some 93 then .ok (.array []) (skipWs rest).tail
          else parseItems n rest []
        else if c = 34 then parseString f rest
        else if c = 116 ∨ c = 102 then parseBool f (c :: rest)
        else if c = 110 then parseNull f (c :: rest)
        else parseNumber f (c :: rest)

/-- The loop of `parse_object`, which has read `members`. -/
def parseMembers : Nat → Bytes → List (Bytes × JsonValue f.Double) →
    Parsed (JsonValue f.Double)
  | 0, _, _ => .outOfFuel
  | n + 1, s, members =>
      nextIs s fun c s =>
        if c ≠ 34 then .fails
        else
          match stringBody s with
          | none => .fails
          | some (key, s) =>
              nextIs s fun c s =>
                if c ≠ 58 then .fails
                else
                  (parseValue n s).andThen fun val s =>
                    nextIs s fun c s =>
                      if c = 44 then parseMembers n s ((key, val) :: members)
                      else if c = 125 then .ok (.object ((key, val) :: members)) s
                      else .fails

/-- The loop of `parse_array`, which has read `items`. -/
def parseItems : Nat → Bytes → List (JsonValue f.Double) → Parsed (JsonValue f.Double)
  | 0, _, _ => .outOfFuel
  | n + 1, s, items =>
      (parseValue n s).andThen fun val s =>
        nextIs s fun c s =>
          if c = 44 then parseItems n s (items ++ [val])
          else if c = 93 then .ok (.array (items ++ [val])) s
          else .fails

end

/-- `JsonParser::parse`; what comes behind the value is not looked at. -/
def parse (text : Bytes) : Parsed (JsonValue f.Double) := parseValue f (2 * text.length + 1) text

/-! ## The configuration -/

structure WeightSet where
  wRecency : f.Single := f.narrow (f.literal (35 / 100))
  wFrequency : f.Single := f.narrow (f.literal (30 / 100))
  wRandomness : f.Single := f.narrow (f.literal (25 / 100))
  wWritePenalty : f.Single := f.narrow (f.literal (10 / 100))

structure BtierConfig where
  fastDevPath : Bytes := []
  slowDevPath : Bytes := []
  extentSize : UInt64 := 4 * 1024 * 1024
  blockSize : UInt64 := 4096
  largeValueThreshold : UInt64 := 2 * 1024 * 1024
  baseWeights : WeightSet f := {}
  lowWatermark : f.Double := f.literal (30 / 100)
  highWatermark : f.Double := f.literal (80 / 100)
  scanIntervalMs : UInt32 := 1000
  maxMigrationsPerCycle : UInt32 := 16
  maxCompactionsPerCycle : UInt32 := 4
  promoteThreshold : f.Single := f.narrow (f.literal (7 / 10))
  demoteThreshold : f.Single := f.narrow (f.literal (3 / 10))
  compactionDeadRatio : f.Double := f.literal (50 / 100)
  compactionUsageRatio : f.Double := f.literal (80 / 100)
  coolIntervalSec : UInt32 := 300
  sequentialThreshold : UInt64 := 64 * 1024
  journalSize : UInt64 := 64 * 1024 * 1024

section Load

variable (members : List (Bytes × JsonValue f.Double))

/-- A `uint64_t` member; `none` is a conversion that is not defined. -/
def readU64 (key : Bytes) (default : UInt64) : Option UInt64 :=
  match JsonValue.get members key with
  | none => some default
  | some v => (cast f 64 (v.asNumber (f.ofUInt64 default))).map UInt64.ofNat

def readU32 (key : Bytes) (default : UInt32) : Option UInt32 :=
  match JsonValue.get members key with
  | none => some default
  | some v => (cast f 32 (v.asNumber (f.ofUInt64 default.toUInt64))).map UInt32.ofNat

def readDouble (key : Bytes) (default : f.Double) : f.Double :=
  match JsonValue.get members key with
  | none => default
  | some v => v.asNumber default

def readSingle (key : Bytes) (default : f.Single) : f.Single :=
  match JsonValue.get members key with
  | none => default
  | some v => f.narrow (v.asNumber (f.widen default))

def readPath (key : Bytes) : Bytes :=
  match JsonValue.get members key with
  | none => []
  | some v => v.asString

def readWeights (default : WeightSet f) : WeightSet f :=
  match JsonValue.get members (ascii "base_weights") with
  | some (.object ws) =>
      { wRecency := readSingle f ws (ascii "w_recency") default.wRecency
        wFrequency := readSingle f ws (ascii "w_frequency") default.wFrequency
        wRandomness := readSingle f ws (ascii "w_randomness") default.wRandomness
        wWritePenalty := readSingle f ws (ascii "w_write_penalty") default.wWritePenalty }
  | _ => default

/-- The members of the object that was parsed, over the defaults. -/
def readConfig : Option (BtierConfig f) := do
  let cfg : BtierConfig f := {}
  let extentSize ← readU64 f members (ascii "extent_size") cfg.extentSize
  let blockSize ← readU64 f members (ascii "block_size") cfg.blockSize
  let largeValueThreshold ←
    readU64 f members (ascii "large_value_threshold") cfg.largeValueThreshold
  let scanIntervalMs ← readU32 f members (ascii "scan_interval_ms") cfg.scanIntervalMs
  let maxMigrationsPerCycle ←
    readU32 f members (ascii "max_migrations_per_cycle") cfg.maxMigrationsPerCycle
  let maxCompactionsPerCycle ←
    readU32 f members (ascii "max_compactions_per_cycle") cfg.maxCompactionsPerCycle
  let coolIntervalSec ← readU32 f members (ascii "cool_interval_sec") cfg.coolIntervalSec
  let sequentialThreshold ←
    readU64 f members (ascii "sequential_threshold") cfg.sequentialThreshold
  let journalSize ← readU64 f members (ascii "journal_size") cfg.journalSize
  return {
    fastDevPath := readPath f members (ascii "fast_dev_path")
    slowDevPath := readPath f members (ascii "slow_dev_path")
    extentSize, blockSize, largeValueThreshold
    baseWeights := readWeights f members cfg.baseWeights
    lowWatermark := readDouble f members (ascii "low_watermark") cfg.lowWatermark
    highWatermark := readDouble f members (ascii "high_watermark") cfg.highWatermark
    scanIntervalMs, maxMigrationsPerCycle, maxCompactionsPerCycle
    promoteThreshold := readSingle f members (ascii "promote_threshold") cfg.promoteThreshold
    demoteThreshold := readSingle f members (ascii "demote_threshold") cfg.demoteThreshold
    compactionDeadRatio :=
      readDouble f members (ascii "compaction_dead_ratio") cfg.compactionDeadRatio
    compactionUsageRatio :=
      readDouble f members (ascii "compaction_usage_ratio") cfg.compactionUsageRatio
    coolIntervalSec, sequentialThreshold, journalSize }

end Load

/-- `BtierConfig::load` of the text of a file. -/
def load (text : Bytes) : Option (BtierConfig f) :=
  match parse f text with
  | .ok (.object members) _ => readConfig f members
  | _ => some {}

/-! ## The writer -/

def escChar (c : UInt8) : Bytes :=
  if c = 34 then [92, 34]
  else if c = 92 then [92, 92]
  else if c = 10 then [92, 110]
  else if c = 9 then [92, 116]
  else if c = 13 then [92, 114]
  else [c]

/-- `esc_json`. -/
def escJson (s : Bytes) : Bytes := 34 :: s.flatMap escChar ++ [34]

/-- A member on a line of its own, without what ends the line. -/
def writeKv (indent : Nat) (key val : Bytes) : Bytes :=
  List.replicate indent 32 ++ escJson key ++ [58, 32] ++ val

/-- The members of an object, with a comma behind each but the last. -/
def lines (indent : Nat) : List (Bytes × Bytes) → Bytes
  | [] => []
  | [m] => writeKv indent m.1 m.2 ++ [10]
  | m :: ms => writeKv indent m.1 m.2 ++ [44, 10] ++ lines indent ms

/-- The members of an object between its braces; `indent` is that of the members. -/
def objectText (indent : Nat) (members : List (Bytes × Bytes)) : Bytes :=
  [123, 10] ++ lines indent members ++ List.replicate (indent - 4) 32 ++ [125]

variable {f}

def WeightSet.members (w : WeightSet f) : List (Bytes × Bytes) :=
  [(ascii "w_recency", f.showSingle w.wRecency),
    (ascii "w_frequency", f.showSingle w.wFrequency),
    (ascii "w_randomness", f.showSingle w.wRandomness),
    (ascii "w_write_penalty", f.showSingle w.wWritePenalty)]

def BtierConfig.members (cfg : BtierConfig f) : List (Bytes × Bytes) :=
  [(ascii "fast_dev_path", escJson cfg.fastDevPath),
    (ascii "slow_dev_path", escJson cfg.slowDevPath),
    (ascii "extent_size", decimal cfg.extentSize.toNat),
    (ascii "block_size", decimal cfg.blockSize.toNat),
    (ascii "large_value_threshold", decimal cfg.largeValueThreshold.toNat),
    (ascii "base_weights", objectText 8 cfg.baseWeights.members),
    (ascii "low_watermark", f.showDouble cfg.lowWatermark),
    (ascii "high_watermark", f.showDouble cfg.highWatermark),
    (ascii "scan_interval_ms", decimal cfg.scanIntervalMs.toNat),
    (ascii "max_migrations_per_cycle", decimal cfg.maxMigrationsPerCycle.toNat),
    (ascii "max_compactions_per_cycle", decimal cfg.maxCompactionsPerCycle.toNat),
    (ascii "promote_threshold", f.showSingle cfg.promoteThreshold),
    (ascii "demote_threshold", f.showSingle cfg.demoteThreshold),
    (ascii "compaction_dead_ratio", f.showDouble cfg.compactionDeadRatio),
    (ascii "compaction_usage_ratio", f.showDouble cfg.compactionUsageRatio),
    (ascii "cool_interval_sec", decimal cfg.coolIntervalSec.toNat),
    (ascii "sequential_threshold", decimal cfg.sequentialThreshold.toNat),
    (ascii "journal_size", decimal cfg.journalSize.toNat)]

/-- The text that `BtierConfig::save` writes. -/
def BtierConfig.save (cfg : BtierConfig f) : Bytes := objectText 4 cfg.members ++ [10]

end Clab.Btier.Config
