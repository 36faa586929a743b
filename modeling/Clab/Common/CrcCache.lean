import Clab.Common.BufferList
import Clab.Common.CrcAlgebra

/-!
# Cached checksums

`buffer::list::crc32c` with the checksum that each raw buffer remembers. What is
remembered stays the checksum of its range in every run, since what is appended
goes behind every range in use. A remembered checksum of another seed is adjusted,
and the adjustment is off by the checksum of as many zeros.
-/

namespace Clab.Common

namespace Buffers

/-! ## The checksum of a list -/

/-- `raw::get_crc`. -/
def getCrc (b : Buffers) (n : BufferNode) : Option (BitVec 32 × BitVec 32) :=
  (b.raws n.raw).crc.bind fun (ofs, ccrc) => if ofs = (n.off, n.stop) then some ccrc else none

/-- `raw::set_crc`. -/
def setCrc (b : Buffers) (n : BufferNode) (ccrc : BitVec 32 × BitVec 32) : Buffers :=
  b.setRaw n.raw { b.raws n.raw with crc := some ((n.off, n.stop), ccrc) }

/-- The body of the loop of `crc32c`. -/
def crcNode (b : Buffers) (n : BufferNode) (crc : BitVec 32) : BitVec 32 × Buffers :=
  if n.len = 0 then (crc, b)
  else
    match b.getCrc n with
    | some (seed, val) =>
        if seed = crc then (val, b) else (val ^^^ calcCrc32Null n.len (seed ^^^ crc), b)
    | none =>
        let val := calcCrc32 (b.nodeBytes n) crc
        (val, b.setCrc n (crc, val))

/-- The loop of `crc32c`. -/
def crcNodes : List BufferNode → Buffers → BitVec 32 → BitVec 32 × Buffers
  | [], b, crc => (crc, b)
  | n :: ns, b, crc =>
      let (crc, b) := b.crcNode n crc
      crcNodes ns b crc

/-- `crc32c`: the checksum, and the buffers with what they remember. -/
def crc32c (b : Buffers) (l : Nat) (seed : BitVec 32) : BitVec 32 × Buffers :=
  crcNodes (b.lists l).nodes b seed

/-! ## What holds in every run -/

/-- No node and no remembered range of the raw buffer ends behind `stop`. -/
structure Below (b : Buffers) (r stop : Nat) : Prop where
  nodes : ∀ l, ∀ n ∈ (b.lists l).nodes, n.raw = r → n.stop ≤ stop
  cached : ∀ ofs ccrc, (b.raws r).crc = some (ofs, ccrc) → ofs.2 ≤ stop

/-- Nodes lie in their raw buffers, remembered checksums are right, and a carriage is the last
use of its raw buffer and the carriage of one list. -/
structure Coherent (b : Buffers) : Prop where
  fits : ∀ l, ∀ n ∈ (b.lists l).nodes, n.raw < b.nextRaw ∧ n.stop ≤ (b.raws n.raw).data.length
  fresh : ∀ r, b.nextRaw ≤ r → (b.raws r).crc = none
  cached : ∀ r ofs ccrc, (b.raws r).crc = some (ofs, ccrc) → ofs.1 ≤ ofs.2 ∧
    ofs.2 ≤ (b.raws r).data.length ∧
    ccrc.2 = calcCrc32 ((b.raws r).slice ofs.1 (ofs.2 - ofs.1)) ccrc.1
  below : ∀ l, ∀ c ∈ (b.lists l).nodes, c.carriage = true → Below b c.raw c.stop
  alone : ∀ l l', ∀ c ∈ (b.lists l).nodes, ∀ c' ∈ (b.lists l').nodes,
    c.carriage = true → c'.carriage = true → c.raw = c'.raw → l = l'
  single : ∀ l, (b.lists l).nodes.countP BufferNode.carriage ≤ 1

theorem coherent_empty : Coherent {} where
  fits l n hn := absurd hn (by simp)
  fresh r _ := rfl
  cached r ofs ccrc hcrc := absurd hcrc (by simp)
  below l c hc := absurd hc (by simp)
  alone l l' c hc := absurd hc (by simp)
  single l := Nat.zero_le _

@[simp] theorem setList_raws (b : Buffers) (l : Nat) (list : BufferList) :
    (b.setList l list).raws = b.raws := rfl

@[simp] theorem setList_nextRaw (b : Buffers) (l : Nat) (list : BufferList) :
    (b.setList l list).nextRaw = b.nextRaw := rfl

theorem setList_lists (b : Buffers) (l : Nat) (list : BufferList) (m : Nat) :
    (b.setList l list).lists m = if m = l then list else b.lists m :=
  Function.update_apply b.lists l list m

@[simp] theorem setRaw_lists (b : Buffers) (r : Nat) (raw : Raw) : (b.setRaw r raw).lists = b.lists :=
  rfl

@[simp] theorem setRaw_nextRaw (b : Buffers) (r : Nat) (raw : Raw) :
    (b.setRaw r raw).nextRaw = b.nextRaw := rfl

theorem setRaw_raws (b : Buffers) (r : Nat) (raw : Raw) (x : Nat) :
    (b.setRaw r raw).raws x = if x = r then raw else b.raws x :=
  Function.update_apply b.raws r raw x

namespace Coherent

variable {b : Buffers} {l : Nat}

/-- A list of parts of nodes there are, with its carriage where it was. -/
theorem setList (hb : Coherent b) {list : BufferList}
    (hnodes : ∀ n ∈ list.nodes, ∃ m, ∃ n₀ ∈ (b.lists m).nodes, n₀.raw = n.raw ∧ n.stop ≤ n₀.stop)
    (hmarked : ∀ c ∈ list.nodes, c.carriage = true →
      ∃ c₀ ∈ (b.lists l).nodes, c₀.carriage = true ∧ c₀.raw = c.raw ∧ c₀.stop = c.stop)
    (hsingle : list.nodes.countP BufferNode.carriage ≤ 1) : Coherent (b.setList l list) := by
  have hwithin : ∀ m, ∀ n ∈ ((b.setList l list).lists m).nodes,
      ∃ m', ∃ n₀ ∈ (b.lists m').nodes, n₀.raw = n.raw ∧ n.stop ≤ n₀.stop := by
    intro m n hn
    rw [setList_lists] at hn
    split at hn
    · exact hnodes n hn
    · exact ⟨m, n, hn, rfl, le_rfl⟩
  have hbefore : ∀ m, ∀ c ∈ ((b.setList l list).lists m).nodes, c.carriage = true →
      ∃ c₀ ∈ (b.lists m).nodes, c₀.carriage = true ∧ c₀.raw = c.raw ∧ c₀.stop = c.stop := by
    intro m c hc hmark
    rw [setList_lists] at hc
    split at hc
    case isTrue hm => rw [hm]; exact hmarked c hc hmark
    case isFalse => exact ⟨c, hc, hmark, rfl, rfl⟩
  refine ⟨fun m n hn => ?_, hb.fresh, hb.cached, fun m c hc hmark => ⟨fun m' n hn hraw => ?_, ?_⟩,
    fun m m' c hc c' hc' hmark hmark' hraw => ?_, fun m => ?_⟩
  · obtain ⟨m', n₀, hn₀, hraw, hle⟩ := hwithin m n hn
    have hfits := hb.fits m' n₀ hn₀
    rw [hraw] at hfits
    exact ⟨hfits.1, hle.trans hfits.2⟩
  · obtain ⟨c₀, hc₀, hmark₀, hraw₀, hstop₀⟩ := hbefore m c hc hmark
    obtain ⟨m₁, n₀, hn₀, hsame, hle⟩ := hwithin m' n hn
    rw [← hstop₀]
    exact hle.trans ((hb.below m c₀ hc₀ hmark₀).nodes m₁ n₀ hn₀ (by rw [hsame, hraw, hraw₀]))
  · obtain ⟨c₀, hc₀, hmark₀, hraw₀, hstop₀⟩ := hbefore m c hc hmark
    rw [← hstop₀, ← hraw₀]
    exact (hb.below m c₀ hc₀ hmark₀).cached
  · obtain ⟨c₀, hc₀, hmark₀, hraw₀, -⟩ := hbefore m c hc hmark
    obtain ⟨c₁, hc₁, hmark₁, hraw₁, -⟩ := hbefore m' c' hc' hmark'
    exact hb.alone m m' c₀ hc₀ c₁ hc₁ hmark₀ hmark₁ (by rw [hraw₀, hraw₁, hraw])
  · rw [setList_lists]
    split
    · exact hsingle
    · exact hb.single m

/-- The memory of a raw buffer changes where nothing is remembered. -/
theorem setRaw (hb : Coherent b) {r : Nat} {raw : Raw}
    (hlength : raw.data.length = (b.raws r).data.length) (hr : r < b.nextRaw)
    (hcached : ∀ ofs ccrc, raw.crc = some (ofs, ccrc) → ofs.1 ≤ ofs.2 ∧ ofs.2 ≤ raw.data.length ∧
      ccrc.2 = calcCrc32 (raw.slice ofs.1 (ofs.2 - ofs.1)) ccrc.1)
    (hbelow : ∀ l, ∀ c ∈ (b.lists l).nodes, c.carriage = true → c.raw = r →
      ∀ ofs ccrc, raw.crc = some (ofs, ccrc) → ofs.2 ≤ c.stop) : Coherent (b.setRaw r raw) := by
  refine ⟨fun m n hn => ?_, fun x hx => ?_, fun x ofs ccrc hcrc => ?_,
    fun m c hc hmark => ⟨(hb.below m c hc hmark).nodes, fun ofs ccrc hcrc => ?_⟩, hb.alone, hb.single⟩
  · obtain ⟨hlt, hle⟩ := hb.fits m n hn
    refine ⟨hlt, ?_⟩
    rw [setRaw_raws]
    split
    case isTrue hraw => rw [hlength, ← hraw]; exact hle
    case isFalse => exact hle
  · rw [setRaw_raws, if_neg (by rw [setRaw_nextRaw] at hx; omega)]
    exact hb.fresh x hx
  · rw [setRaw_raws] at hcrc ⊢
    split at hcrc
    case isTrue hx => rw [if_pos hx]; exact hcached ofs ccrc hcrc
    case isFalse hx => rw [if_neg hx]; exact hb.cached x ofs ccrc hcrc
  · rw [setRaw_raws] at hcrc
    split at hcrc
    case isTrue hraw => exact hbelow m c hc hmark hraw ofs ccrc hcrc
    case isFalse => exact (hb.below m c hc hmark).cached ofs ccrc hcrc

end Coherent

/-! ## Appending -/

theorem countP_copy (ns : List BufferNode) :
    (ns.map BufferNode.copy).countP BufferNode.carriage = 0 := by
  rw [List.countP_eq_zero]
  intro n hn
  obtain ⟨n₀, -, rfl⟩ := List.mem_map.mp hn
  simp [BufferNode.copy]

theorem mem_copy {n : BufferNode} {ns : List BufferNode} (hn : n ∈ ns.map BufferNode.copy) :
    n.carriage = false ∧ ∃ n₀ ∈ ns, n₀.raw = n.raw ∧ n₀.stop = n.stop := by
  obtain ⟨n₀, hn₀, rfl⟩ := List.mem_map.mp hn
  exact ⟨rfl, n₀, hn₀, rfl, rfl⟩

/-- A list whose last node is its carriage. -/
structure EndsIn (b : Buffers) (l : Nat) (init : List BufferNode) (c : BufferNode) : Prop where
  nodes : (b.lists l).nodes = init ++ [c]
  mark : c.carriage = true

theorem EndsIn.mem {b : Buffers} {l : Nat} {init : List BufferNode} {c : BufferNode}
    (h : EndsIn b l init c) : c ∈ (b.lists l).nodes := by
  rw [h.nodes]
  simp

theorem endsIn_of_carriageLast {b : Buffers} {l : Nat} (hlast : b.carriageLast l = true) :
    ∃ init c, EndsIn b l init c := by
  unfold carriageLast at hlast
  rcases hget : (b.lists l).nodes.getLast? with _ | c
  · rw [hget] at hlast
    exact absurd hlast (by simp)
  · rw [hget] at hlast
    obtain ⟨init, hinit⟩ := List.getLast?_eq_some_iff.mp hget
    exact ⟨init, c, hinit, by simpa using hlast⟩

namespace Coherent

variable {b : Buffers} {l : Nat} {init : List BufferNode} {c : BufferNode}

theorem init_unmarked (hb : Coherent b) (hends : EndsIn b l init c) :
    ∀ n ∈ init, n.carriage = false := by
  intro n hn
  have hsingle := hb.single l
  rw [hends.nodes, List.countP_append, List.countP_singleton, hends.mark, if_pos rfl] at hsingle
  have hnone : init.countP BufferNode.carriage = 0 := by omega
  simpa using List.countP_eq_zero.mp hnone n hn

theorem carriage_eq (hb : Coherent b) (hends : EndsIn b l init c) : b.carriage l = some c := by
  have hinit := hb.init_unmarked hends
  unfold Buffers.carriage
  rw [hends.nodes, List.find?_append, List.find?_eq_none.mpr fun n hn => by simp [hinit n hn]]
  simp [hends.mark]

/-- A carriage at the end of the one there was. -/
theorem pushCarriage (hb : Coherent b) {n : BufferNode}
    (hn : ∃ c₀ ∈ (b.lists l).nodes, c₀.carriage = true ∧ c₀.raw = n.raw ∧ c₀.stop = n.stop) :
    Coherent (b.pushCarriage l n) := by
  obtain ⟨c₀, hc₀, hmark, hraw, hstop⟩ := hn
  refine hb.setList (fun x hx => ?_) (fun x hx hmarked => ?_) ?_
  · rcases List.mem_append.mp hx with hold | hnew
    · obtain ⟨-, n₀, hn₀, hraw₀, hstop₀⟩ := mem_copy hold
      exact ⟨l, n₀, hn₀, hraw₀, hstop₀.ge⟩
    · obtain rfl := List.mem_singleton.mp hnew
      exact ⟨l, c₀, hc₀, hraw, hstop.ge⟩
  · rcases List.mem_append.mp hx with hold | hnew
    · rw [(mem_copy hold).1] at hmarked
      exact absurd hmarked (by simp)
    · obtain rfl := List.mem_singleton.mp hnew
      exact ⟨c₀, hc₀, hmark, hraw, hstop⟩
  · rw [List.countP_append, countP_copy]
    simp

theorem pushCarriage_endsIn (b : Buffers) (l : Nat) (n : BufferNode) :
    EndsIn (b.pushCarriage l n) l ((b.lists l).nodes.map BufferNode.copy)
      { n with carriage := true } := by
  refine ⟨?_, rfl⟩
  rw [Buffers.pushCarriage, setList_lists, if_pos rfl]

/-- Where the carriage has room, it is made the last node with the same room. -/
theorem openTail (hb : Coherent b) (htail : 0 < b.unusedTail l) :
    Coherent (b.openTail l) ∧ ∃ init c, EndsIn (b.openTail l) l init c ∧
      ((b.openTail l).raws c.raw).data.length - c.stop = b.unusedTail l := by
  unfold Buffers.openTail
  split
  case isTrue hlast =>
    obtain ⟨init, c, hends⟩ := endsIn_of_carriageLast hlast
    refine ⟨hb, init, c, hends, ?_⟩
    rw [unusedTail, hb.carriage_eq hends]
  case isFalse =>
    rcases hc : b.carriage l with _ | c
    · rw [unusedTail, hc] at htail
      exact absurd htail (lt_irrefl 0)
    · have hmem : c ∈ (b.lists l).nodes := List.mem_of_find?_eq_some hc
      have hmark : c.carriage = true := List.find?_some hc
      refine ⟨hb.pushCarriage ⟨c, hmem, hmark, rfl, rfl⟩, _, _, pushCarriage_endsIn b l _, ?_⟩
      rw [unusedTail, hc]
      rfl

/-- A carriage on a new raw buffer. -/
theorem pushFresh (hb : Coherent b) (raw : Raw) (hcrc : raw.crc = none) :
    Coherent (({ b.setRaw b.nextRaw raw with nextRaw := b.nextRaw + 1 } : Buffers).pushCarriage l
      { raw := b.nextRaw, off := 0, len := 0 }) := by
  -- every node but the new one is of an older raw buffer
  have hlists : ∀ m, ∀ n ∈ ((({ b.setRaw b.nextRaw raw with nextRaw := b.nextRaw + 1 } :
      Buffers).pushCarriage l { raw := b.nextRaw, off := 0, len := 0 }).lists m).nodes,
      (∃ n₀ ∈ (b.lists m).nodes, n₀.raw = n.raw ∧ n₀.stop = n.stop ∧
        (n.carriage = true → n₀.carriage = true ∧ m ≠ l)) ∨
      (m = l ∧ n = { raw := b.nextRaw, off := 0, len := 0, carriage := true }) := by
    intro m n hn
    rw [Buffers.pushCarriage, setList_lists] at hn
    split at hn
    case isTrue hm =>
      rcases List.mem_append.mp hn with hold | hnew
      · obtain ⟨hmark, n₀, hn₀, hraw, hstop⟩ := mem_copy hold
        exact .inl ⟨n₀, by rw [hm]; exact hn₀, hraw, hstop, fun h => by simp [hmark] at h⟩
      · exact .inr ⟨hm, List.mem_singleton.mp hnew⟩
    case isFalse hm => exact .inl ⟨n, hn, rfl, rfl, fun h => ⟨h, hm⟩⟩
  have hraws : ∀ r, ((({ b.setRaw b.nextRaw raw with nextRaw := b.nextRaw + 1 } :
      Buffers).pushCarriage l { raw := b.nextRaw, off := 0, len := 0 }).raws r) =
      if r = b.nextRaw then raw else b.raws r := fun r => setRaw_raws b b.nextRaw raw r
  have hold : ∀ m, ∀ n₀ ∈ (b.lists m).nodes, n₀.raw ≠ b.nextRaw := fun m n₀ hn₀ =>
    (hb.fits m n₀ hn₀).1.ne
  refine ⟨fun m n hn => ?_, fun r hr => ?_, fun r ofs ccrc hc => ?_,
    fun m c hc hmark => ⟨fun m' n hn hraw => ?_, fun ofs ccrc hcached => ?_⟩,
    fun m m' c hc c' hc' hmark hmark' hraw => ?_, fun m => ?_⟩
  · rcases hlists m n hn with ⟨n₀, hn₀, hraw, hstop, -⟩ | ⟨-, rfl⟩
    · obtain ⟨hlt, hle⟩ := hb.fits m n₀ hn₀
      rw [hraws, ← hraw, if_neg (hold m n₀ hn₀), ← hstop]
      exact ⟨Nat.lt_succ_of_lt hlt, hle⟩
    · exact ⟨Nat.lt_succ_self _, Nat.zero_le _⟩
  · have hr : b.nextRaw + 1 ≤ r := hr
    rw [hraws, if_neg (by omega)]
    exact hb.fresh r (by omega)
  · rw [hraws] at hc ⊢
    split at hc
    case isTrue => rw [hcrc] at hc; exact absurd hc (by simp)
    case isFalse hr => rw [if_neg hr]; exact hb.cached r ofs ccrc hc
  · rcases hlists m c hc with ⟨c₀, hc₀, hraw₀, hstop₀, hmark₀⟩ | ⟨-, rfl⟩
    · rcases hlists m' n hn with ⟨n₀, hn₀, hraw₁, hstop₁, -⟩ | ⟨-, rfl⟩
      · rw [← hstop₀, ← hstop₁]
        exact (hb.below m c₀ hc₀ (hmark₀ hmark).1).nodes m' n₀ hn₀ (by rw [hraw₁, hraw, hraw₀])
      · exact absurd (hraw₀.trans hraw.symm) (hold m c₀ hc₀)
    · rcases hlists m' n hn with ⟨n₀, hn₀, hraw₁, -, -⟩ | ⟨-, rfl⟩
      · exact absurd (hraw₁.trans hraw) (hold m' n₀ hn₀)
      · exact le_rfl
  · rw [hraws] at hcached
    rcases hlists m c hc with ⟨c₀, hc₀, hraw₀, hstop₀, hmark₀⟩ | ⟨-, rfl⟩
    · rw [← hraw₀, if_neg (hold m c₀ hc₀)] at hcached
      rw [← hstop₀]
      exact (hb.below m c₀ hc₀ (hmark₀ hmark).1).cached ofs ccrc hcached
    · rw [if_pos rfl, hcrc] at hcached
      exact absurd hcached (by simp)
  · rcases hlists m c hc with ⟨c₀, hc₀, hraw₀, -, hmark₀⟩ | ⟨rfl, rfl⟩
    · rcases hlists m' c' hc' with ⟨c₁, hc₁, hraw₁, -, hmark₁⟩ | ⟨-, rfl⟩
      · exact hb.alone m m' c₀ hc₀ c₁ hc₁ (hmark₀ hmark).1 (hmark₁ hmark').1
          (by rw [hraw₀, hraw₁, hraw])
      · exact absurd (hraw₀.trans hraw) (hold m c₀ hc₀)
    · rcases hlists m' c' hc' with ⟨c₁, hc₁, hraw₁, -, -⟩ | ⟨rfl, -⟩
      · exact absurd (hraw₁.trans hraw.symm) (hold m' c₁ hc₁)
      · rfl
  · rw [Buffers.pushCarriage, setList_lists]
    split
    · rw [List.countP_append, countP_copy]
      simp
    · exact hb.single m

theorem le_roundUpTo (n : Nat) {d : Nat} (hd : 0 < d) : n ≤ roundUpTo n d := by
  unfold roundUpTo
  have hlt := Nat.mod_lt n hd
  split <;> omega

theorem le_refillLength (b : Buffers) (l len : Nat) :
    len + rawCombinedSize ≤ b.refillLength l len := by
  have height := le_roundUpTo len (show 0 < 8 by decide)
  have hunit := le_roundUpTo (roundUpTo len 8 + rawCombinedSize) (show 0 < bufferAllocUnit by decide)
  have hle : len + rawCombinedSize ≤ roundUpTo (roundUpTo len 8 + rawCombinedSize) bufferAllocUnit := by
    omega
  unfold refillLength
  simp only
  split
  · exact hle
  · split
    · exact hle.trans (le_max_left _ _)
    · exact hle

/-- The new carriage has the room asked for. -/
theorem refillAppendSpace (hb : Coherent b) (len : Nat) :
    Coherent (b.refillAppendSpace l len) ∧ ∃ init c, EndsIn (b.refillAppendSpace l len) l init c ∧
      c.stop + len ≤ ((b.refillAppendSpace l len).raws c.raw).data.length := by
  have hlength := le_refillLength b l len
  refine ⟨hb.pushFresh _ rfl, _, _, pushCarriage_endsIn _ l _, ?_⟩
  show 0 + 0 + len ≤ ((b.setRaw b.nextRaw _).raws b.nextRaw).data.length
  rw [setRaw_raws, if_pos rfl, List.length_replicate]
  omega

theorem slice_copyTo_before (r : Raw) {from_ n off : Nat} (src : List UInt8) (h : from_ + n ≤ off)
    (hoff : off ≤ r.data.length) : (r.copyTo off src).slice from_ n = r.slice from_ n := by
  unfold Raw.slice Raw.copyTo
  simp only
  rw [List.append_assoc, List.drop_append_of_le_length (by rw [List.length_take]; omega),
    List.take_append_of_le_length (by rw [List.length_drop, List.length_take]; omega),
    List.drop_take, List.take_take, min_eq_left (by omega)]

theorem length_copyTo (r : Raw) {off : Nat} (src : List UInt8)
    (h : off + src.length ≤ r.data.length) : (r.copyTo off src).data.length = r.data.length := by
  simp only [Raw.copyTo, List.length_append, List.length_take, List.length_drop]
  omega

/-- The last node grows over the room behind it. -/
theorem extend (hb : Coherent b) (hends : EndsIn b l init c) {k : Nat}
    (hroom : c.stop + k ≤ (b.raws c.raw).data.length) {list : BufferList}
    (hlist : list.nodes = init ++ [{ c with len := c.len + k }]) :
    Coherent (b.setList l list) := by
  have hinit := hb.init_unmarked hends
  have hbelow := hb.below l c hends.mem hends.mark
  have hstop : ({ c with len := c.len + k } : BufferNode).stop = c.stop + k :=
    (Nat.add_assoc c.off c.len k).symm
  have hmem : ∀ m, ∀ n ∈ ((b.setList l list).lists m).nodes,
      (n ∈ (b.lists m).nodes ∧ (m = l → n.carriage = false)) ∨
        (m = l ∧ n = { c with len := c.len + k }) := by
    intro m n hn
    rw [setList_lists] at hn
    split at hn
    case isTrue hm =>
      rw [hlist] at hn
      rcases List.mem_append.mp hn with hold | hnew
      · refine .inl ⟨?_, fun _ => hinit n hold⟩
        rw [hm, hends.nodes]
        exact List.mem_append_left _ hold
      · exact .inr ⟨hm, List.mem_singleton.mp hnew⟩
    case isFalse hm => exact .inl ⟨hn, fun h => absurd h hm⟩
  refine ⟨fun m n hn => ?_, hb.fresh, hb.cached,
    fun m c' hc' hmark => ⟨fun m' n hn hraw => ?_, fun ofs ccrc hcached => ?_⟩,
    fun m m' c₀ hc₀ c₁ hc₁ hmark₀ hmark₁ hraw => ?_, fun m => ?_⟩
  · rcases hmem m n hn with ⟨hold, -⟩ | ⟨-, rfl⟩
    · exact hb.fits m n hold
    · exact ⟨(hb.fits l c hends.mem).1, by rw [hstop]; exact hroom⟩
  · rcases hmem m c' hc' with ⟨hold, hne⟩ | ⟨-, rfl⟩
    · rcases hmem m' n hn with ⟨hn', -⟩ | ⟨-, rfl⟩
      · exact (hb.below m c' hold hmark).nodes m' n hn' hraw
      · have hm := hb.alone m l c' hold c hends.mem hmark hends.mark hraw.symm
        rw [hne hm] at hmark
        exact absurd hmark (by simp)
    · rw [hstop]
      rcases hmem m' n hn with ⟨hn', -⟩ | ⟨-, rfl⟩
      · exact (hbelow.nodes m' n hn' hraw).trans (Nat.le_add_right _ _)
      · rw [hstop]
  · rcases hmem m c' hc' with ⟨hold, -⟩ | ⟨-, rfl⟩
    · exact (hb.below m c' hold hmark).cached ofs ccrc hcached
    · rw [hstop]
      exact (hbelow.cached ofs ccrc hcached).trans (Nat.le_add_right _ _)
  · rcases hmem m c₀ hc₀ with ⟨hold₀, -⟩ | ⟨rfl, rfl⟩ <;>
      rcases hmem m' c₁ hc₁ with ⟨hold₁, -⟩ | ⟨rfl, rfl⟩
    · exact hb.alone m m' c₀ hold₀ c₁ hold₁ hmark₀ hmark₁ hraw
    · exact hb.alone m _ c₀ hold₀ c hends.mem hmark₀ hends.mark hraw
    · exact hb.alone _ m' c hends.mem c₁ hold₁ hends.mark hmark₁ hraw
    · rfl
  · rw [setList_lists]
    split
    case isTrue =>
      have hsingle := hb.single l
      rw [hends.nodes, List.countP_append, List.countP_singleton] at hsingle
      rw [hlist, List.countP_append, List.countP_singleton]
      exact hsingle
    case isFalse => exact hb.single m

/-- Bytes are appended to the last node. -/
theorem writeTail (hb : Coherent b) (hends : EndsIn b l init c) {data : List UInt8}
    (hroom : c.stop + data.length ≤ (b.raws c.raw).data.length) :
    Coherent (b.writeTail l data) := by
  have hlength := length_copyTo (b.raws c.raw) data hroom
  have hfits := (hb.fits l c hends.mem).1
  have hbelow := hb.below l c hends.mem hends.mark
  have hwritten : Coherent (b.setRaw c.raw ((b.raws c.raw).copyTo c.stop data)) := by
    refine hb.setRaw hlength hfits (fun ofs ccrc hcrc => ?_) fun m c' hc' hmark hraw ofs ccrc hcrc => ?_
    · obtain ⟨hle, hlen, hval⟩ := hb.cached c.raw ofs ccrc hcrc
      have hstop := hbelow.cached ofs ccrc hcrc
      refine ⟨hle, by rw [hlength]; exact hlen, ?_⟩
      rw [slice_copyTo_before _ _ (by omega) (by omega)]
      exact hval
    · rw [← hraw] at hcrc
      exact (hb.below m c' hc' hmark).cached ofs ccrc hcrc
  unfold Buffers.writeTail
  rw [hends.nodes, List.getLast?_append, List.getLast?_singleton, Option.some_or]
  simp only
  refine hwritten.extend (k := data.length) ⟨hends.nodes, hends.mark⟩ ?_ (by simp)
  rw [setRaw_raws, if_pos rfl, hlength]
  exact hroom

theorem append (hb : Coherent b) (data : List UInt8) : Coherent (b.append l data) := by
  have hlen : Coherent (b.setList l { b.lists l with len := (b.lists l).len + data.length }) :=
    hb.setList (fun n hn => ⟨l, n, hn, rfl, le_rfl⟩) (fun c hc hmark => ⟨c, hc, hmark, rfl, rfl⟩)
      (hb.single l)
  unfold Buffers.append
  simp only
  generalize b.setList l { b.lists l with len := (b.lists l).len + data.length } = b₁ at *
  have hfirst : Coherent (if min data.length (b₁.unusedTail l) = 0 then b₁
      else (b₁.openTail l).writeTail l (data.take (min data.length (b₁.unusedTail l)))) := by
    split
    case isTrue => exact hlen
    case isFalse hne =>
      obtain ⟨hopened, init, c, hends, htail⟩ := hlen.openTail (show 0 < b₁.unusedTail l by omega)
      refine hopened.writeTail hends ?_
      have hfits := (hopened.fits l c hends.mem).2
      rw [List.length_take]
      omega
  generalize (if min data.length (b₁.unusedTail l) = 0 then b₁
    else (b₁.openTail l).writeTail l (data.take (min data.length (b₁.unusedTail l)))) = b₂ at *
  split
  case isTrue => exact hfirst
  case isFalse =>
    obtain ⟨hrefilled, init, c, hends, hroom⟩ :=
      hfirst.refillAppendSpace (l := l) (data.length - min data.length (b₁.unusedTail l))
    refine hrefilled.writeTail hends ?_
    rw [List.length_drop]
    exact hroom

theorem appendList (hb : Coherent b) (l src : Nat) : Coherent (b.appendList l src) := by
  refine hb.setList (fun n hn => ?_) (fun c hc hmark => ?_) ?_
  · rcases List.mem_append.mp hn with hold | hnew
    · exact ⟨l, n, hold, rfl, le_rfl⟩
    · obtain ⟨-, n₀, hn₀, hraw, hstop⟩ := mem_copy hnew
      exact ⟨src, n₀, hn₀, hraw, hstop.ge⟩
  · rcases List.mem_append.mp hc with hold | hnew
    · exact ⟨c, hold, hmark, rfl, rfl⟩
    · rw [(mem_copy hnew).1] at hmark
      exact absurd hmark (by simp)
  · rw [List.countP_append, countP_copy]
    exact hb.single l

theorem clear (hb : Coherent b) (l : Nat) : Coherent (b.setList l {}) :=
  hb.setList (fun n hn => absurd hn (by simp)) (fun c hc => absurd hc (by simp)) (Nat.zero_le _)

end Coherent

/-! ## Ranges of lists -/

theorem seek_split (off : Nat) (ns : List BufferNode) : (seek off ns).1 ++ (seek off ns).2.2 = ns := by
  induction ns generalizing off with
  | nil => rfl
  | cons n ns ih =>
      unfold seek
      split
      · simp [ih]
      · rfl

theorem seek_rest (off : Nat) (ns : List BufferNode) :
    ∀ n ∈ (seek off ns).2.2.head?, (seek off ns).2.1 ≤ n.len := by
  induction ns generalizing off with
  | nil => exact fun n hn => absurd hn (by simp [seek])
  | cons n ns ih =>
      unfold seek
      split
      case isTrue => exact ih _
      case isFalse hin =>
        intro n' hn'
        obtain rfl : n = n' := by simpa using hn'
        show off ≤ n.len
        omega

/-- A part of a node that ends where the node ends, or before. -/
structure PartOf (p n : BufferNode) : Prop where
  raw : n.raw = p.raw
  stop : p.stop ≤ n.stop
  /-- A marked part ends where its node ends. -/
  mark : p.carriage = true → n.carriage = true ∧ n.stop = p.stop

theorem PartOf.refl (n : BufferNode) : PartOf n n := ⟨rfl, le_rfl, fun h => ⟨h, rfl⟩⟩

/-- Everything that is taken out and everything that is left is a part of a node, and no mark is
doubled. -/
theorem takeOut_parts {off : Nat} (len : Nat) {ns : List BufferNode}
    (hoff : ∀ n ∈ ns.head?, off ≤ n.len) :
    (∀ p ∈ (takeOut off len ns).1, p.carriage = false ∧ ∃ n ∈ ns, PartOf p n) ∧
      (∀ p ∈ (takeOut off len ns).2.1 ++ (takeOut off len ns).2.2, ∃ n ∈ ns, PartOf p n) ∧
      ((takeOut off len ns).2.1 ++ (takeOut off len ns).2.2).countP BufferNode.carriage ≤
        ns.countP BufferNode.carriage := by
  induction ns generalizing off len with
  | nil => exact ⟨fun p hp => absurd hp (by simp [takeOut]), fun p hp => absurd hp (by simp [takeOut]),
      le_rfl⟩
  | cons n ns ih =>
      have hoff : off ≤ n.len := hoff n (by simp)
      unfold takeOut
      split
      case isTrue =>
        refine ⟨fun p hp => absurd hp (by simp), fun p hp => ⟨p, by simpa using hp, .refl p⟩, ?_⟩
        rw [List.append_nil]
      case isFalse =>
        split
        case isTrue hlt =>
          have hstop : ({ n with off := n.off + (off + len), len := n.len - (off + len) } :
              BufferNode).stop = n.stop := by
            show n.off + (off + len) + (n.len - (off + len)) = n.off + n.len
            omega
          refine ⟨fun p hp => ?_, fun p hp => ?_, ?_⟩
          · obtain rfl := List.mem_singleton.mp hp
            refine ⟨rfl, n, List.mem_cons_self, rfl, ?_, fun h => absurd h (by simp)⟩
            show n.off + off + len ≤ n.off + n.len
            omega
          · rw [List.append_nil] at hp
            rcases List.mem_cons.mp hp with rfl | hp
            · exact ⟨n, List.mem_cons_self, rfl, hstop.le, fun h => ⟨h, hstop.symm⟩⟩
            · exact ⟨p, List.mem_cons_of_mem n hp, .refl p⟩
          · rw [List.append_nil, List.countP_cons, List.countP_cons]
        case isFalse =>
          obtain ⟨hpieces, hleft, hcount⟩ := @ih 0 (len - (n.len - off)) fun _ _ => Nat.zero_le _
          simp only
          have hmoved : ({ n with off := n.stop, len := 0 } : BufferNode).stop = n.stop := rfl
          refine ⟨fun p hp => ?_, fun p hp => ?_, ?_⟩
          · rcases List.mem_cons.mp hp with rfl | hp
            · refine ⟨rfl, n, List.mem_cons_self, rfl, ?_, fun h => absurd h (by simp)⟩
              show n.off + off + (n.len - off) ≤ n.off + n.len
              omega
            · obtain ⟨hmark, n₀, hn₀, hpart⟩ := hpieces p hp
              exact ⟨hmark, n₀, List.mem_cons_of_mem n hn₀, hpart⟩
          · have hcases : p = { n with off := n.stop, len := 0 } ∨
                p ∈ (takeOut 0 (len - (n.len - off)) ns).2.1 ++
                  (takeOut 0 (len - (n.len - off)) ns).2.2 := by
              rcases List.mem_append.mp hp with hp | hp
              · exact .inr (List.mem_append_left _ hp)
              · split at hp
                · rcases List.mem_cons.mp hp with rfl | hp
                  · exact .inl rfl
                  · exact .inr (List.mem_append_right _ hp)
                · exact .inr (List.mem_append_right _ hp)
            rcases hcases with rfl | hp
            · exact ⟨n, List.mem_cons_self, rfl, hmoved.le, fun h => ⟨h, hmoved.symm⟩⟩
            · obtain ⟨n₀, hn₀, hpart⟩ := hleft p hp
              exact ⟨n₀, List.mem_cons_of_mem n hn₀, hpart⟩
          · rw [List.countP_append] at hcount ⊢
            rw [List.countP_cons]
            split
            case isTrue hmark =>
              rw [List.countP_cons, if_pos (show ({ n with off := n.stop, len := 0 } :
                BufferNode).carriage = true from hmark)]
              exact Nat.succ_le_succ hcount
            case isFalse hmark => exact hcount

namespace Coherent

variable {b : Buffers} {l : Nat}

theorem substrOf (hb : Coherent b) {src off len : Nat} {b' : Buffers}
    (hsub : b.substrOf l src off len = some b') : Coherent b' := by
  unfold Buffers.substrOf at hsub
  split at hsub
  case isTrue => exact absurd hsub (by simp)
  case isFalse =>
    have hsplit := seek_split off (b.lists src).nodes
    have hrest := seek_rest off (b.lists src).nodes
    obtain ⟨before, rest, nodes⟩ := seek off (b.lists src).nodes
    obtain ⟨hpieces, -, -⟩ := takeOut_parts len hrest
    simp only at hsplit hpieces hsub
    rw [← Option.some.inj hsub]
    refine hb.setList (fun p hp => ?_) (fun p hp hmark => ?_) ?_
    · obtain ⟨-, n, hn, hpart⟩ := hpieces p hp
      exact ⟨src, n, by rw [← hsplit]; exact List.mem_append_right _ hn, hpart.raw, hpart.stop⟩
    · rw [(hpieces p hp).1] at hmark
      exact absurd hmark (by simp)
    · rw [List.countP_eq_zero.mpr fun p hp => by simp [(hpieces p hp).1]]
      exact Nat.zero_le _

/-- A piece of a node is appended to a list. -/
theorem appendPiece (hb : Coherent b) {p : BufferNode} (hmark : p.carriage = false)
    (hp : ∃ m, ∃ n ∈ (b.lists m).nodes, n.raw = p.raw ∧ p.stop ≤ n.stop) :
    Coherent (b.setList l (Buffers.appendPiece (b.lists l) p)) := by
  obtain ⟨m, n, hn, hraw, hstop⟩ := hp
  unfold Buffers.appendPiece
  rcases hlast : (b.lists l).nodes.getLast? with _ | last
  · refine hb.setList (fun x hx => ?_) (fun c hc hmarked => ?_) ?_
    · obtain rfl := List.mem_singleton.mp hx
      exact ⟨m, n, hn, hraw, hstop⟩
    · obtain rfl := List.mem_singleton.mp hc
      rw [hmark] at hmarked
      exact absurd hmarked (by simp)
    · simp [hmark]
  · obtain ⟨init, hnodes⟩ := List.getLast?_eq_some_iff.mp hlast
    have hmem : last ∈ (b.lists l).nodes := by rw [hnodes]; simp
    simp only
    split
    case isTrue hnext =>
      obtain ⟨hsame, hbehind⟩ := hnext
      have hgrown : ({ last with len := last.len + p.len } : BufferNode).stop = p.stop := by
        show last.off + (last.len + p.len) = p.off + p.len
        rw [← hbehind, BufferNode.stop]
        omega
      have hdrop : (b.lists l).nodes.dropLast = init := by rw [hnodes, List.dropLast_concat]
      rw [hdrop]
      refine hb.setList (fun x hx => ?_) (fun c hc hmarked => ?_) ?_
      · rcases List.mem_append.mp hx with hold | hnew
        · exact ⟨l, x, by rw [hnodes]; exact List.mem_append_left _ hold, rfl, le_rfl⟩
        · obtain rfl := List.mem_singleton.mp hnew
          exact ⟨m, n, hn, hraw.trans hsame.symm, by rw [hgrown]; exact hstop⟩
      · rcases List.mem_append.mp hc with hold | hnew
        · exact ⟨c, by rw [hnodes]; exact List.mem_append_left _ hold, hmarked, rfl, rfl⟩
        · obtain rfl := List.mem_singleton.mp hnew
          -- nothing lies behind a carriage, so that the piece is empty
          have hbelow := (hb.below l last hmem hmarked).nodes m n hn (hraw.trans hsame.symm)
          refine ⟨last, hmem, hmarked, rfl, ?_⟩
          rw [hgrown]
          unfold BufferNode.stop at *
          omega
      · have hsingle := hb.single l
        rw [hnodes, List.countP_append, List.countP_singleton] at hsingle
        rw [List.countP_append, List.countP_singleton]
        exact hsingle
    case isFalse =>
      refine hb.setList (fun x hx => ?_) (fun c hc hmarked => ?_) ?_
      · rcases List.mem_append.mp hx with hold | hnew
        · exact ⟨l, x, hold, rfl, le_rfl⟩
        · obtain rfl := List.mem_singleton.mp hnew
          exact ⟨m, n, hn, hraw, hstop⟩
      · rcases List.mem_append.mp hc with hold | hnew
        · exact ⟨c, hold, hmarked, rfl, rfl⟩
        · obtain rfl := List.mem_singleton.mp hnew
          rw [hmark] at hmarked
          exact absurd hmarked (by simp)
      · rw [List.countP_append, List.countP_singleton, hmark]
        exact hb.single l

theorem setList_setList (b : Buffers) (m : Nat) (list list' : BufferList) :
    (b.setList m list).setList m list' = b.setList m list' := by
  simp [Buffers.setList]

/-- Pieces of one list are appended to another. -/
theorem appendPieces (hb : Coherent b) {m : Nat} (hne : m ≠ l) {ps : List BufferNode}
    (hps : ∀ p ∈ ps, p.carriage = false ∧ ∃ n ∈ (b.lists l).nodes, n.raw = p.raw ∧ p.stop ≤ n.stop) :
    Coherent (b.setList m (ps.foldl Buffers.appendPiece (b.lists m))) := by
  induction ps generalizing b with
  | nil =>
      exact hb.setList (fun n hn => ⟨m, n, hn, rfl, le_rfl⟩) (fun c hc hmark => ⟨c, hc, hmark, rfl, rfl⟩)
        (hb.single m)
  | cons p ps ih =>
      obtain ⟨hmark, n, hn, hpart⟩ := hps p List.mem_cons_self
      have hfirst := hb.appendPiece (l := m) hmark ⟨l, n, hn, hpart⟩
      have hlists : ∀ x, (b.setList m (Buffers.appendPiece (b.lists m) p)).lists x =
          if x = m then Buffers.appendPiece (b.lists m) p else b.lists x := setList_lists _ _ _
      have hrest := ih hfirst fun q hq => by
        rw [hlists, if_neg hne.symm]
        exact hps q (List.mem_cons_of_mem p hq)
      rw [hlists, if_pos rfl, setList_setList] at hrest
      exact hrest

theorem claimPieces (hb : Coherent b) {claimBy : Option Nat} (hne : claimBy ≠ some l)
    {ps : List BufferNode}
    (hps : ∀ p ∈ ps, p.carriage = false ∧ ∃ n ∈ (b.lists l).nodes, n.raw = p.raw ∧ p.stop ≤ n.stop) :
    Coherent (b.claimPieces claimBy ps) ∧ (b.claimPieces claimBy ps).lists l = b.lists l := by
  cases claimBy with
  | none => exact ⟨hb, rfl⟩
  | some m =>
      have hml : m ≠ l := fun h => hne (by rw [h])
      refine ⟨hb.appendPieces hml hps, ?_⟩
      rw [Buffers.claimPieces, setList_lists, if_neg hml.symm]

theorem splice (hb : Coherent b) {off len : Nat} {claimBy : Option Nat} (hne : claimBy ≠ some l)
    {b' : Buffers} (hsplice : b.splice l off len claimBy = some b') : Coherent b' := by
  unfold Buffers.splice at hsplice
  simp only at hsplice
  split at hsplice
  case isTrue => rw [← Option.some.inj hsplice]; exact hb
  case isFalse =>
    split at hsplice
    case isTrue => exact absurd hsplice (by simp)
    case isFalse =>
      have hsplit := seek_split off (b.lists l).nodes
      have hrest := seek_rest off (b.lists l).nodes
      generalize (seek off (b.lists l).nodes).1 = before at *
      generalize (seek off (b.lists l).nodes).2.1 = rest at *
      generalize (seek off (b.lists l).nodes).2.2 = nodes at *
      obtain ⟨hpieces, hleft, hcount⟩ := takeOut_parts len hrest
      generalize (takeOut rest len nodes).1 = pieces at *
      generalize (takeOut rest len nodes).2.1 = left at *
      generalize (takeOut rest len nodes).2.2 = moved at *
      have hmem : ∀ n ∈ nodes, n ∈ (b.lists l).nodes := fun n hn => by
        rw [← hsplit]
        exact List.mem_append_right _ hn
      have hown : ∀ p ∈ pieces, p.carriage = false ∧
          ∃ n ∈ (b.lists l).nodes, n.raw = p.raw ∧ p.stop ≤ n.stop := by
        intro p hp
        obtain ⟨hmark, n, hn, hpart⟩ := hpieces p hp
        exact ⟨hmark, n, hmem n hn, hpart.raw, hpart.stop⟩
      obtain ⟨hclaimed, hsame⟩ := hb.claimPieces hne hown
      have hfront : ∀ p ∈ nodes.head?.toList.filterMap fun n =>
          if 0 < rest then some ({ raw := n.raw, off := n.off, len := rest } : BufferNode) else none,
          p.carriage = false ∧ ∃ n ∈ nodes, PartOf p n := by
        intro p hp
        obtain ⟨n, hn, hpn⟩ := List.mem_filterMap.mp hp
        have hn : n ∈ nodes.head? := by simpa using hn
        split at hpn
        case isFalse => exact absurd hpn (by simp)
        case isTrue =>
          obtain rfl := Option.some.inj hpn
          refine ⟨rfl, n, List.mem_of_head? hn, rfl, ?_, fun h => absurd h (by simp)⟩
          exact Nat.add_le_add_left (hrest n hn) _
      generalize (nodes.head?.toList.filterMap fun n =>
        if 0 < rest then some ({ raw := n.raw, off := n.off, len := rest } : BufferNode) else none) =
          front at *
      rw [← Option.some.inj hsplice]
      have hparts : ∀ p ∈ before ++ front ++ left ++ moved,
          ∃ n ∈ ((b.claimPieces claimBy pieces).lists l).nodes, PartOf p n := by
        intro p hp
        rw [hsame]
        rw [List.append_assoc] at hp
        rcases List.mem_append.mp hp with hp | hp
        · rcases List.mem_append.mp hp with hp | hp
          · exact ⟨p, by rw [← hsplit]; exact List.mem_append_left _ hp, .refl p⟩
          · obtain ⟨-, n, hn, hpart⟩ := hfront p hp
            exact ⟨n, hmem n hn, hpart⟩
        · obtain ⟨n, hn, hpart⟩ := hleft p hp
          exact ⟨n, hmem n hn, hpart⟩
      refine hclaimed.setList (fun p hp => ?_) (fun p hp hmark => ?_) ?_
      · obtain ⟨n, hn, hpart⟩ := hparts p hp
        exact ⟨l, n, hn, hpart.raw, hpart.stop⟩
      · obtain ⟨n, hn, hpart⟩ := hparts p hp
        exact ⟨n, hn, (hpart.mark hmark).1, hpart.raw, (hpart.mark hmark).2⟩
      · have hsingle := hb.single l
        rw [← hsplit, List.countP_append] at hsingle
        have hnone : front.countP BufferNode.carriage = 0 :=
          List.countP_eq_zero.mpr fun p hp => by simp [(hfront p hp).1]
        simp only [List.countP_append] at hcount ⊢
        rw [hnone]
        omega

/-! ## Writing in place and remembering -/

theorem copyInNodes (hb : Coherent b) {ns : List BufferNode}
    (hns : ∀ n ∈ ns, ∃ m, n ∈ (b.lists m).nodes) (off : Nat) (src : List UInt8) :
    Coherent { b with raws := Buffers.copyInNodes b.raws ns off src } := by
  induction ns generalizing b off src with
  | nil => exact hb
  | cons n ns ih =>
      unfold Buffers.copyInNodes
      split
      · exact hb
      split
      · exact ih hb (fun x hx => hns x (List.mem_cons_of_mem n hx)) _ _
      case isFalse hlt =>
        obtain ⟨m, hn⟩ := hns n List.mem_cons_self
        obtain ⟨hmade, hfits⟩ := hb.fits m n hn
        have hwritten : Coherent (b.setRaw n.raw { (b.raws n.raw).copyTo (n.off + off)
            (src.take (min src.length (n.len - off))) with crc := none }) := by
          refine hb.setRaw (length_copyTo _ _ ?_) hmade (fun ofs ccrc hcrc => absurd hcrc (by simp))
            fun m' c hc hmark hraw ofs ccrc hcrc => absurd hcrc (by simp)
          unfold BufferNode.stop at hfits
          rw [List.length_take]
          omega
        exact ih hwritten (fun x hx => hns x (List.mem_cons_of_mem n hx)) _ _

theorem setCrc (hb : Coherent b) {n : BufferNode} (hn : n ∈ (b.lists l).nodes) (seed : BitVec 32) :
    Coherent (b.setCrc n (seed, calcCrc32 (b.nodeBytes n) seed)) := by
  obtain ⟨hmade, hfits⟩ := hb.fits l n hn
  refine hb.setRaw rfl hmade (fun ofs ccrc hcrc => ?_) fun m c hc hmark hraw ofs ccrc hcrc => ?_
  · obtain ⟨rfl, rfl⟩ := Prod.mk.inj (Option.some.inj hcrc)
    refine ⟨Nat.le_add_right _ _, hfits, ?_⟩
    show calcCrc32 (b.nodeBytes n) seed = _
    rw [BufferNode.stop, Nat.add_sub_cancel_left]
    rfl
  · obtain ⟨rfl, -⟩ := Prod.mk.inj (Option.some.inj hcrc)
    exact (hb.below m c hc hmark).nodes l n hn hraw.symm

end Coherent

end Buffers

end Clab.Common
