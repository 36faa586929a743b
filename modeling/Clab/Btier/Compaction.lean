import Clab.Btier.LiveBytes
import Clab.Btier.TierMigration

/-!
# Compaction keeps the values

`compact` reads and writes on the device of the source extent's tier, while the
new extent may have been allocated on the other one. The copying loop fills the
new extent from its start; `copyKeys_spec` carries through it where each value
went and that nothing else was written.
-/

namespace Clab.Btier.Engine

open Clab.Blk

variable {A : Type}

/-! ## The copying loop -/

/-- The slot `compact` copies for a key. -/
def oldSlot (s : Engine A) (key : Key) : KeyLocation := slotOf s.keyMap key

/-- One round of the loop reaches its write, and the write succeeds. -/
structure CopiesKey (s : Engine A) (src : DiskLocation) (f : ExtentEntry) (key : Key) : Prop where
  read : (s.dev src.tier).fails = false
  active : f.metrics.state = .ACTIVE
  room : u32 (f.usedBytes + (s.oldSlot key).length) ≤ ExtentMap.capacity f.location
  slot : f.usedBytes ≠ UINT32_MAX
  write : (s.dev src.tier).spend.fails = false

/-- What the loop may change: the entry of the new extent, which grows inside
its location, and the device of the source tier. -/
structure CopyFrame (s s' : Engine A) (srcTier : Tier) (newId : Nat) (f f' : ExtentEntry) :
    Prop where
  keyMap : s'.keyMap = s.keyMap
  others : ∀ i, i ≠ newId → s'.extentMap.lookup i = s.extentMap.lookup i
  entry : s'.extentMap.lookup newId = some f'
  location : f'.location = f.location
  grows : f.usedBytes ≤ f'.usedBytes
  within : f'.usedBytes ≤ ExtentMap.capacity f'.location
  untouched : ∀ t, t ≠ srcTier → s'.dev t = s.dev t

theorem CopyFrame.trans {s s' s'' : Engine A} {srcTier : Tier} {newId : Nat}
    {f f' f'' : ExtentEntry} (h : CopyFrame s s' srcTier newId f f')
    (h' : CopyFrame s' s'' srcTier newId f' f'') : CopyFrame s s'' srcTier newId f f'' :=
  ⟨h'.keyMap.trans h.keyMap, fun i hi => (h'.others i hi).trans (h.others i hi), h'.entry,
    h'.location.trans h.location, h.grows.trans h'.grows, h'.within,
    fun t ht => (h'.untouched t ht).trans (h.untouched t ht)⟩

theorem copyKey_spec {s s' : Engine A} {h : MigrationHandle} {newId : Nat} {key : Key}
    {f : ExtentEntry} {out : Option (Key × KeyLocation)}
    (hf : s.extentMap.lookup newId = some f) (hwithin : f.usedBytes ≤ ExtentMap.capacity f.location)
    (hsum : f.usedBytes + (s.oldSlot key).length < 2 ^ 32)
    (hc : s.copyKey h newId f.location key = (out, s')) :
    ∃ f', CopyFrame s s' h.srcLoc.tier newId f f' ∧
      ((out = none ∧ ¬ s.CopiesKey h.srcLoc f key ∧
          (s.dev h.srcLoc.tier).Wrote (s'.dev h.srcLoc.tier) []) ∨
        (s.CopiesKey h.srcLoc f key ∧ f'.metrics.state = .ACTIVE ∧
          f'.usedBytes = f.usedBytes + (s.oldSlot key).length ∧
          out = some (key, ⟨newId, f.usedBytes, (s.oldSlot key).length⟩) ∧
          (s.dev h.srcLoc.tier).Wrote (s'.dev h.srcLoc.tier)
            [(f.location.offset + HEADER_SIZE + f.usedBytes,
              slotBytes s.dev h.srcLoc (s.oldSlot key))])) := by
  have hold : ∃ old, s.oldSlot key = old := ⟨_, rfl⟩
  obtain ⟨old, hold⟩ := hold
  have hgetD : (s.keyMap.lookup key).getD {} = old := hold
  rw [hold] at hsum ⊢
  unfold copyKey at hc
  rw [hgetD] at hc
  dsimp only at hc
  generalize hread : (s.dev h.srcLoc.tier).read _ old.length true = out₁ at hc
  obtain ⟨r, value, d⟩ := out₁
  obtain ⟨hwread, rfl, hcase⟩ := BlockDevice.read_buffered hread
  have hsame : CopyFrame s (s.setDev h.srcLoc.tier (s.dev h.srcLoc.tier).spend) h.srcLoc.tier
      newId f f :=
    ⟨rfl, fun _ _ => rfl, hf, rfl, Nat.le_refl _, hwithin, fun t ht => by
      rw [setDev_dev, if_neg ht]⟩
  have hspent : (s.dev h.srcLoc.tier).Wrote
      ((s.setDev h.srcLoc.tier (s.dev h.srcLoc.tier).spend).dev h.srcLoc.tier) [] := by
    rw [setDev_dev, if_pos rfl]
    exact hwread
  dsimp only at hc
  rcases hcase with ⟨hfails, hr⟩ | ⟨hfails, hr, rfl⟩
  · rw [if_pos hr] at hc
    cases hc
    refine ⟨f, ⟨hsame.keyMap, hsame.others, hsame.entry, rfl, Nat.le_refl _, hwithin,
      hsame.untouched⟩, .inl ⟨rfl, fun hck => ?_, hspent⟩⟩
    exact absurd (hck.read.symm.trans hfails) (by decide)
  rw [if_neg (by omega)] at hc
  generalize happ : ExtentMap.appendSlot _ _ _ = appended at hc
  obtain ⟨off, em⟩ := appended
  have hcap := ExtentMap.capacity_lt f.location
  rcases ExtentMap.appendSlot_cases happ with ⟨rfl, rfl⟩ |
    ⟨f₁, f', hf₁, hactive, hfit, hoff, hused, -, hloc, hactive', -, hlook⟩
  · dsimp only at hc
    rw [if_pos rfl] at hc
    cases hc
    refine ⟨f, hsame, .inl ⟨rfl, fun hck => ?_, hspent⟩⟩
    -- the slot would have been appended
    have hroom := hck.room
    rw [hold] at hroom
    unfold ExtentMap.appendSlot at happ
    rw [show (s.setDev h.srcLoc.tier (s.dev h.srcLoc.tier).spend).extentMap.lookup newId = some f
      from hf] at happ
    dsimp only at happ
    rw [if_neg (not_not.mpr hck.active), if_neg (by omega)] at happ
    exact hck.slot (Prod.mk.inj happ).1
  obtain rfl : f = f₁ := Option.some.inj (hf.symm.trans hf₁)
  rw [u32_of_lt hsum] at hused hfit
  have hmoved : CopyFrame s { s.setDev h.srcLoc.tier (s.dev h.srcLoc.tier).spend with
      extentMap := em } h.srcLoc.tier newId f f' := by
    refine ⟨rfl, fun i hi => ?_, ?_, hloc, by omega, ?_, hsame.untouched⟩
    · exact (hlook i).trans (if_neg hi)
    · exact (hlook newId).trans (if_pos rfl)
    · rw [hloc, hused]
      exact hfit
  subst hoff
  dsimp only at hc
  split at hc
  · rename_i hmax
    cases hc
    exact ⟨f', hmoved, .inl ⟨rfl, fun hck => hck.slot hmax, hspent⟩⟩
  rename_i hslot
  generalize hwrite : BlockDevice.write _ _ _ _ = written at hc
  obtain ⟨r, d⟩ := written
  have hdev : ({ s.setDev h.srcLoc.tier (s.dev h.srcLoc.tier).spend with
      extentMap := em } : Engine A).dev h.srcLoc.tier = (s.dev h.srcLoc.tier).spend :=
    (setDev_dev _ _ _ _).trans (if_pos rfl)
  rw [hdev] at hwrite
  have hlast : ∀ w, (s.dev h.srcLoc.tier).spend.Wrote d w →
      (s.dev h.srcLoc.tier).Wrote
        ((({ s.setDev h.srcLoc.tier (s.dev h.srcLoc.tier).spend with
          extentMap := em } : Engine A).setDev h.srcLoc.tier d).dev h.srcLoc.tier) w := by
    intro w hw
    rw [setDev_dev, if_pos rfl, ← List.append_nil w]
    exact hwread.trans hw
  have hframe : CopyFrame s (({ s.setDev h.srcLoc.tier (s.dev h.srcLoc.tier).spend with
      extentMap := em } : Engine A).setDev h.srcLoc.tier d) h.srcLoc.tier newId f f' :=
    ⟨hmoved.keyMap, hmoved.others, hmoved.entry, hmoved.location, hmoved.grows, hmoved.within,
      fun t ht => by rw [setDev_dev, if_neg ht]; exact hmoved.untouched t ht⟩
  dsimp only at hc
  rcases BlockDevice.write_buffered hwrite with ⟨hwfails, hr, hw⟩ | ⟨hwfails, hr, hw⟩
  · rw [if_pos hr] at hc
    cases hc
    refine ⟨f', ⟨hframe.keyMap, hframe.others, hframe.entry, hframe.location, hframe.grows,
      hframe.within, hframe.untouched⟩, .inl ⟨rfl, fun hck => ?_, hlast [] hw⟩⟩
    exact absurd (hck.write.symm.trans hwfails) (by decide)
  · rw [if_neg (by omega)] at hc
    cases hc
    have hck : s.CopiesKey h.srcLoc f key :=
      ⟨hfails, hactive, by rw [hold, u32_of_lt hsum]; exact hfit, hslot, hwfails⟩
    exact ⟨f', hframe, .inr ⟨hck, hactive', hused, rfl, hlast _ hw⟩⟩

/-- The part of the new extent's device a loop from `f` to `f'` may write. -/
def SlotsBetween (f f' : ExtentEntry) (x : Nat × List Byte) : Prop :=
  f.location.offset + HEADER_SIZE + f.usedBytes ≤ x.1 ∧
    x.1 + x.2.length ≤ f.location.offset + HEADER_SIZE + f'.usedBytes

theorem CopyFrame.oldSlot {s s' : Engine A} {srcTier : Tier} {newId : Nat} {f f' : ExtentEntry}
    (h : CopyFrame s s' srcTier newId f f') (key : Key) : s'.oldSlot key = s.oldSlot key := by
  unfold Engine.oldSlot
  rw [h.keyMap]

/-- The loop fills the new extent from `f` on, and writes the first value there
exactly when its first round succeeds. -/
theorem copyKeys_frame {s s' : Engine A} {h : MigrationHandle} {newId : Nat} {keys : List Key}
    {f : ExtentEntry} {out : Option (List (Key × KeyLocation))}
    (hf : s.extentMap.lookup newId = some f) (hwithin : f.usedBytes ≤ ExtentMap.capacity f.location)
    (hsum : f.usedBytes + (keys.map fun k => (s.oldSlot k).length).sum < 2 ^ 32)
    (hc : copyKeys h newId f.location keys s = (out, s')) :
    ∃ f' w, CopyFrame s s' h.srcLoc.tier newId f f' ∧
      (s.dev h.srcLoc.tier).Wrote (s'.dev h.srcLoc.tier) w ∧ (∀ x ∈ w, SlotsBetween f f' x) ∧
      (∀ updates, out = some updates →
        updates.map Prod.fst = keys ∧ ∀ u ∈ updates, u.2.extentId = newId) ∧
      ∀ key rest, keys = key :: rest →
        (s.CopiesKey h.srcLoc f key → (f.location.offset + HEADER_SIZE + f.usedBytes,
          slotBytes s.dev h.srcLoc (s.oldSlot key)) ∈ w) ∧
        (¬ s.CopiesKey h.srcLoc f key → w = [] ∧ out = none) := by
  induction keys generalizing s f out with
  | nil =>
      cases hc
      refine ⟨f, [], ⟨rfl, fun _ _ => rfl, hf, rfl, Nat.le_refl _, hwithin, fun _ _ => rfl⟩,
        BlockDevice.Wrote.refl _, fun x hx => (by cases hx), fun updates hu => ?_,
        fun key rest hk => (by cases hk)⟩
      cases hu
      exact ⟨rfl, fun u hu => by cases hu⟩
  | cons key rest ih =>
      rw [List.map_cons, List.sum_cons] at hsum
      unfold copyKeys at hc
      generalize hfirst : s.copyKey h newId f.location key = out₁ at hc
      obtain ⟨one, s₁⟩ := out₁
      obtain ⟨f₁, hframe, hcase⟩ := copyKey_spec hf hwithin (by omega) hfirst
      rcases hcase with ⟨rfl, hnot, hw⟩ | ⟨hck, -, hused, rfl, hw⟩
      · cases hc
        refine ⟨f₁, [], hframe, hw, fun x hx => (by cases hx), fun updates hu => (by cases hu),
          fun key' rest' hk => ?_⟩
        cases hk
        exact ⟨fun hck => absurd hck hnot, fun _ => ⟨rfl, rfl⟩⟩
      · dsimp only at hc
        generalize hrest : copyKeys h newId f.location rest s₁ = out₂ at hc
        obtain ⟨more, s₂⟩ := out₂
        have hsum₁ : f₁.usedBytes + (rest.map fun k => (s₁.oldSlot k).length).sum < 2 ^ 32 := by
          simp only [hframe.oldSlot]
          omega
        rw [← hframe.location] at hrest
        have hs' : s₂ = s' := by
          cases more <;>
          · cases hc
            rfl
        subst hs'
        obtain ⟨f₂, w₂, hframe₂, hw₂, hbetween, hkeys, -⟩ :=
          ih hframe.entry hframe.within hsum₁ hrest
        refine ⟨f₂, w₂ ++ _, hframe.trans hframe₂, hw.trans hw₂, fun x hx => ?_,
          fun updates hu => ?_, fun key' rest' hk => ?_⟩
        · have hgrows := hframe₂.grows
          have hloc := hframe.location
          rcases List.mem_append.mp hx with hx | hx
          · obtain ⟨hlo, hhi⟩ := hbetween x hx
            unfold SlotsBetween
            rw [hloc] at hlo hhi
            omega
          · rw [List.mem_singleton] at hx
            subst hx
            unfold SlotsBetween slotBytes
            dsimp only
            rw [Content.read_length]
            omega
        · cases more with
          | none =>
              subst hu
              cases hc
          | some us =>
              cases hc
              cases hu
              obtain ⟨hfst, hids⟩ := hkeys us rfl
              refine ⟨by rw [List.map_cons, hfst], fun u hu => ?_⟩
              rcases List.mem_cons.mp hu with rfl | hu
              · rfl
              · exact hids u hu
        · cases hk
          exact ⟨fun _ => List.mem_append_right _ List.mem_cons_self,
            fun hnot => absurd hck hnot⟩

/-- The slots of the keys in the source extent share no byte with the slots of
the new one. -/
def SourceApart (s : Engine A) (src dst : DiskLocation) (keys : List Key) : Prop :=
  ∀ k ∈ keys,
    src.offset + HEADER_SIZE + (s.oldSlot k).slotEnd ≤ dst.offset + HEADER_SIZE ∨
      dst.offset + HEADER_SIZE + ExtentMap.capacity dst ≤
        src.offset + HEADER_SIZE + (s.oldSlot k).offset

/-- After a loop without error every key has a slot in the new extent with the
bytes of its old one, on the device of the source tier. -/
theorem copyKeys_values {s s' : Engine A} {h : MigrationHandle} {newId : Nat} {keys : List Key}
    {f : ExtentEntry} {updates : List (Key × KeyLocation)}
    (hf : s.extentMap.lookup newId = some f) (hwithin : f.usedBytes ≤ ExtentMap.capacity f.location)
    (hsum : f.usedBytes + (keys.map fun k => (s.oldSlot k).length).sum < 2 ^ 32)
    (hapart : s.SourceApart h.srcLoc f.location keys)
    (hc : copyKeys h newId f.location keys s = (some updates, s')) :
    ∀ u ∈ updates, slotBytes s'.dev { f.location with tier := h.srcLoc.tier } u.2 =
      slotBytes s.dev h.srcLoc (s.oldSlot u.1) := by
  induction keys generalizing s f updates with
  | nil =>
      cases hc
      intro u hu
      cases hu
  | cons key rest ih =>
      rw [List.map_cons, List.sum_cons] at hsum
      unfold copyKeys at hc
      generalize hfirst : s.copyKey h newId f.location key = out₁ at hc
      obtain ⟨one, s₁⟩ := out₁
      obtain ⟨f₁, hframe, hcase⟩ := copyKey_spec hf hwithin (by omega) hfirst
      rcases hcase with ⟨rfl, -, -⟩ | ⟨hck, -, hused, rfl, hw⟩
      · cases hc
      dsimp only at hc
      generalize hrest : copyKeys h newId f.location rest s₁ = out₂ at hc
      obtain ⟨more, s₂⟩ := out₂
      have hsum₁ : f₁.usedBytes + (rest.map fun k => (s₁.oldSlot k).length).sum < 2 ^ 32 := by
        simp only [hframe.oldSlot]
        omega
      have hloc := hframe.location
      cases more with
      | none => cases hc
      | some us =>
          cases hc
          rw [← hloc] at hrest
          obtain ⟨f₂, w₂, hframe₂, hw₂, hbetween, hkeys, -⟩ :=
            copyKeys_frame hframe.entry hframe.within hsum₁ hrest
          have hapart₁ : s₁.SourceApart h.srcLoc f₁.location rest := by
            intro k hk
            rw [hframe.oldSlot, hloc]
            exact hapart k (List.mem_cons_of_mem _ hk)
          have hvalues := ih hframe.entry hframe.within hsum₁ hapart₁ hrest
          intro u hu
          rcases List.mem_cons.mp hu with rfl | hu
          · -- the later rounds write above this slot
            have hkeep : (s'.dev h.srcLoc.tier).content.read
                (f.location.offset + HEADER_SIZE + f.usedBytes) (s.oldSlot key).length =
                (s₁.dev h.srcLoc.tier).content.read
                  (f.location.offset + HEADER_SIZE + f.usedBytes) (s.oldSlot key).length := by
              refine hw₂.read_eq fun x hx => .inr ?_
              have hlo := (hbetween x hx).1
              rw [hloc] at hlo
              omega
            show (s'.dev h.srcLoc.tier).content.read _ _ = _
            rw [hkeep, hw.content]
            show ((s.dev h.srcLoc.tier).content.write _ _).read _ _ = _
            have hlen : (s.oldSlot key).length =
                (slotBytes s.dev h.srcLoc (s.oldSlot key)).length :=
              (Content.read_length _ _ _).symm
            conv_lhs => rw [hlen]
            exact Content.read_write_same _ _ _
          · have hbytes := hvalues u hu
            rw [hloc, hframe.oldSlot] at hbytes
            refine hbytes.trans ?_
            -- the first round left the source slots alone
            have hu' : u.1 ∈ rest := by
              rw [← (hkeys us rfl).1]
              exact List.mem_map_of_mem hu
            have hcap := hframe.within
            rw [hloc, hused] at hcap
            refine hw.read_eq fun x hx => ?_
            rw [List.mem_singleton] at hx
            subst hx
            unfold slotBytes
            dsimp only
            rw [Content.read_length]
            rcases hapart u.1 (List.mem_cons_of_mem _ hu') with hlt | hlt
            · unfold KeyLocation.slotEnd at hlt
              omega
            · omega

/-! ## The whole compaction -/

section Compact

variable [Allocator A]

/-- The compaction gets to its loop: the extent can be claimed, holds keys, and
space for the new extent is found at `dst`. -/
structure Starts (s : Engine A) (extentId : Nat) (e : ExtentEntry) (dst : DiskLocation)
    (key : Key) (rest : List Key) : Prop where
  entry : s.extentMap.lookup extentId = some e
  active : e.metrics.state = .ACTIVE
  keys : s.keyMap.keysInExtent extentId = key :: rest
  space : (s.extentMap.allocateRaw s.alloc e.location.tier e.location.length).1 = some dst

omit [Allocator A] in
/-- `allocate_extent`'s write of the new header. -/
def headerWrite (s : Engine A) (dst : DiskLocation) : Int × BlockDevice :=
  (s.dev dst.tier).write dst.offset
    (headerBytes s.extentMap.nextExtentId dst.length 0 0 0) false

omit [Allocator A] in
/-- The engine with that write done. -/
def prepared (s : Engine A) (dst : DiskLocation) : Engine A :=
  s.setDev dst.tier (s.headerWrite dst).2

/-- The condition of a faithful compaction: if the header of the new extent is
written, the extent has room for it; if a first value is copied, the extent also
lies on the tier of the old one. -/
def CompactFits (s : Engine A) (extentId : Nat) : Prop :=
  ∀ e dst key rest, s.Starts extentId e dst key rest →
    (0 ≤ (s.headerWrite dst).1 → HEADER_SIZE ≤ dst.length) ∧
      ((s.prepared dst).CopiesKey e.location { location := dst } key →
        dst.tier = e.location.tier ∧ HEADER_SIZE ≤ dst.length)

/-- A compaction that gets to its loop: the writes of the loop, and where the
keys are found afterwards. -/
structure Compacted (s s' : Engine A) (extentId : Nat) (e : ExtentEntry) (dst : DiskLocation)
    (key : Key) (rest : List Key) (w : List (Nat × List Byte)) : Prop where
  written : ((s.prepared dst).dev e.location.tier).Wrote (s'.dev e.location.tier) w
  untouched : ∀ t, t ≠ e.location.tier → s'.dev t = (s.prepared dst).dev t
  within : ∀ x ∈ w, dst.offset + HEADER_SIZE ≤ x.1 ∧
    x.1 + x.2.length ≤ dst.offset + HEADER_SIZE + ExtentMap.capacity dst
  first : (s.prepared dst).CopiesKey e.location { location := dst } key →
    (dst.offset + HEADER_SIZE,
      slotBytes (s.prepared dst).dev e.location (s.oldSlot key)) ∈ w
  none : ¬ (s.prepared dst).CopiesKey e.location { location := dst } key → w = []
  moved : (∀ k, s'.whereIs k = s.whereIs k) ∨
    (s.prepared dst).CopiesKey e.location { location := dst } key ∧
      (∀ k, (∀ kloc, s.keyMap.lookup k = some kloc → kloc.extentId ≠ extentId) →
        s'.whereIs k = s.whereIs k) ∧
      ((s.prepared dst).SourceApart e.location dst (key :: rest) →
        ∀ k kloc, s.keyMap.lookup k = some kloc → kloc.extentId = extentId →
          ∃ kloc', s'.whereIs k = some (dst, kloc') ∧
            slotBytes s'.dev { dst with tier := e.location.tier } kloc' =
              slotBytes (s.prepared dst).dev e.location kloc)

/-- The live lengths of an extent on a well placed store fit 32 bits. -/
theorem WellPlaced.sum_lt {s : Engine A} (hs : s.WellPlaced) {extentId : Nat} {e : ExtentEntry}
    (he : s.extentMap.lookup extentId = some e) :
    ((s.keyMap.keysInExtent extentId).map fun k => (s.oldSlot k).length).sum < 2 ^ 32 := by
  rw [← List.sum_toFinset _ (hs.coherent.nodup extentId)]
  refine lt_of_le_of_lt (sum_length_le hs.coherent (m := e.location.length)
    (fun k loc hk hid => ?_) fun k k' loc loc' hne hk hk' hid hid' =>
      hs.apart k k' loc loc' hne hk hk' (hid.trans hid'.symm)) (hs.length extentId e he)
  have hin := hs.inside k loc e hk (by rw [hid]; exact he)
  omega

/-- The state in which the loop of a claimed compaction starts. -/
structure LoopStart (s s₁ : Engine A) (extentId : Nat) (e : ExtentEntry) (dst : DiskLocation) :
    Prop where
  keyMap : s₁.keyMap = s.keyMap
  dev : s₁.dev = (s.prepared dst).dev
  fresh : s₁.extentMap.lookup s.extentMap.nextExtentId = some { location := dst }
  entry : ∃ e', s₁.extentMap.lookup extentId = some e' ∧
    e'.metrics.generation = e.metrics.generation
  places : ∀ i, i ≠ s.extentMap.nextExtentId →
    s₁.extentMap.getLocation i = s.extentMap.getLocation i

omit [Allocator A] in
theorem LoopStart.copiesKey_iff {s s₁ : Engine A} {extentId : Nat} {e : ExtentEntry}
    {dst src : DiskLocation} {f : ExtentEntry} {key : Key}
    (h : LoopStart s s₁ extentId e dst) :
    s₁.CopiesKey src f key ↔ (s.prepared dst).CopiesKey src f key := by
  have hold : s₁.oldSlot key = (s.prepared dst).oldSlot key := by
    unfold oldSlot
    rw [h.keyMap]
    rfl
  constructor
  · rintro ⟨h₁, h₂, h₃, h₄, h₅⟩
    rw [h.dev] at h₁ h₅
    rw [hold] at h₃
    exact ⟨h₁, h₂, h₃, h₄, h₅⟩
  · rintro ⟨h₁, h₂, h₃, h₄, h₅⟩
    rw [← h.dev] at h₁ h₅
    rw [← hold] at h₃
    exact ⟨h₁, h₂, h₃, h₄, h₅⟩

/-- Places after a copy that is given up. -/
theorem whereIs_of_abandoned {s s' : Engine A} (hs : s.WellPlaced) (hkm : s'.keyMap = s.keyMap)
    (hplaces : ∀ i, i ≠ s.extentMap.nextExtentId →
      s'.extentMap.getLocation i = s.extentMap.getLocation i) (k : Key) :
    s'.whereIs k = s.whereIs k :=
  whereIs_congr (by rw [hkm]) fun kloc hk => hplaces _ (hs.fresh k kloc hk).ne

/-- From the start of the loop to the end of the call. -/
theorem compactLoop_cases {s s₁ s' : Engine A} (hs : s.WellPlaced) {extentId : Nat}
    {e : ExtentEntry} {dst : DiskLocation} {key : Key} {rest : List Key} {res : MigrationResult}
    (hstart : s.Starts extentId e dst key rest) (hloop : LoopStart s s₁ extentId e dst)
    (hrun : (match copyKeys ⟨extentId, e.location, e.metrics.generation⟩
        s.extentMap.nextExtentId dst (key :: rest) s₁ with
      | (none, s₂) => (MigrationResult.FAILED,
          (s₂.abort ⟨extentId, e.location, e.metrics.generation⟩).freeExtent
            s.extentMap.nextExtentId)
      | (some updates, s₂) => s₂.commitKeys ⟨extentId, e.location, e.metrics.generation⟩
          s.extentMap.nextExtentId updates) = (res, s')) :
    ∃ w, Compacted s s' extentId e dst key rest w := by
  have hid : extentId ≠ s.extentMap.nextExtentId :=
    (hs.known extentId e hstart.entry).ne
  have hold : ∀ k, s₁.oldSlot k = s.oldSlot k := fun k => by
    unfold oldSlot
    rw [hloop.keyMap]
  have hsum : ({ location := dst } : ExtentEntry).usedBytes +
      ((key :: rest).map fun k => (s₁.oldSlot k).length).sum < 2 ^ 32 := by
    simp only [hold]
    rw [← hstart.keys]
    have := hs.sum_lt hstart.entry
    omega
  generalize hcopy : copyKeys _ _ _ _ _ = out at hrun
  obtain ⟨copied, s₂⟩ := out
  obtain ⟨f', w, hframe, hw, hbetween, hkeys, hfirst⟩ :=
    copyKeys_frame hloop.fresh (Nat.zero_le _) hsum hcopy
  obtain ⟨hck, hno⟩ := hfirst key rest rfl
  rw [hloop.copiesKey_iff] at hck hno
  rw [hold, hloop.dev] at hck
  rw [hloop.dev] at hw
  have hwithin : ∀ x ∈ w, dst.offset + HEADER_SIZE ≤ x.1 ∧
      x.1 + x.2.length ≤ dst.offset + HEADER_SIZE + ExtentMap.capacity dst := by
    intro x hx
    have hcap := hframe.within
    rw [hframe.location] at hcap
    have hlo : dst.offset + HEADER_SIZE + 0 ≤ x.1 := (hbetween x hx).1
    have hhi : x.1 + x.2.length ≤ dst.offset + HEADER_SIZE + f'.usedBytes := (hbetween x hx).2
    have hcap' : f'.usedBytes ≤ ExtentMap.capacity dst := hcap
    omega
  have hplaces : ∀ i, i ≠ s.extentMap.nextExtentId →
      s₂.extentMap.getLocation i = s.extentMap.getLocation i := by
    intro i hi
    rw [← hloop.places i hi, ExtentMap.getLocation, hframe.others i hi]
    rfl
  have hkm : s₂.keyMap = s.keyMap := hframe.keyMap.trans hloop.keyMap
  have hdev : ∀ t, t ≠ e.location.tier → s₂.dev t = (s.prepared dst).dev t := fun t ht => by
    rw [hframe.untouched t ht, hloop.dev]
  cases copied with
  | none =>
      cases hrun
      refine ⟨w, hw, hdev, hwithin, hck, fun h => (hno h).1, .inl fun k => ?_⟩
      refine @whereIs_of_abandoned _ _ s ((s₂.abort _).freeExtent _) hs (by exact hkm)
        (fun i hi => ?_) k
      show ((s₂.extentMap.abortMigration _).free _).getLocation i = _
      rw [ExtentMap.getLocation_free, if_neg hi, ExtentMap.getLocation_abortMigration]
      exact hplaces i hi
  | some updates =>
      dsimp only at hrun
      obtain ⟨e', he', hgen⟩ := hloop.entry
      have he₂ : s₂.extentMap.lookup extentId = some e' := (hframe.others _ hid).trans he'
      have hcheck : s₂.extentMap.checkMigration
          ⟨extentId, e.location, e.metrics.generation⟩ = true := by
        unfold ExtentMap.checkMigration
        dsimp only
        rw [he₂]
        exact decide_eq_true hgen
      unfold commitKeys at hrun
      rw [if_pos hcheck] at hrun
      cases hrun
      have hcopies : (s.prepared dst).CopiesKey e.location { location := dst } key := by
        by_contra hnot
        cases (hno hnot).2
      obtain ⟨hfst, hids⟩ := hkeys updates rfl
      have hmoved : ∀ i, (({ s₂ with keyMap := s₂.keyMap.batchUpdate updates }.freeExtent
          extentId).countCompaction).extentMap.getLocation i =
          if i = extentId then none else s₂.extentMap.getLocation i :=
        fun i => ExtentMap.getLocation_free _ _ _
      refine ⟨w, hw, hdev, hwithin, hck, fun h => (hno h).1, .inr ⟨hcopies, ?_, ?_⟩⟩
      · intro k hk
        have hnot : k ∉ updates.map Prod.fst := by
          rw [hfst, ← hstart.keys, hs.coherent.mem_iff]
          rintro ⟨kloc, hl, hid'⟩
          exact hk kloc hl hid'
        refine whereIs_congr ?_ fun kloc hl => ?_
        · rw [← hkm]
          exact KeyMap.lookup_batchUpdate_of_notMem _ hnot
        · rw [hmoved, if_neg (hk kloc hl), hplaces _ (hs.fresh k kloc hl).ne]
      · intro hapart k kloc hl hid'
        have hin : k ∈ updates.map Prod.fst := by
          rw [hfst, ← hstart.keys, hs.coherent.mem_iff]
          exact ⟨kloc, hl, hid'⟩
        obtain ⟨u, hu, rfl⟩ := List.mem_map.mp hin
        have hnodup : (updates.map Prod.fst).Nodup := by
          rw [hfst, ← hstart.keys]
          exact hs.coherent.nodup extentId
        refine ⟨u.2, whereIs_eq_some.mpr ⟨?_, ?_⟩, ?_⟩
        · exact KeyMap.lookup_batchUpdate_of_mem _ hnodup hu
        · rw [hids u hu, hmoved, if_neg hid.symm, ExtentMap.getLocation, hframe.entry]
          show some f'.location = _
          rw [hframe.location]
        · have hapart₁ : s₁.SourceApart e.location dst (key :: rest) := by
            intro k' hk'
            rw [hold]
            exact hapart k' hk'
          have hvalue := copyKeys_values hloop.fresh (Nat.zero_le _) hsum hapart₁ hcopy u hu
          rw [hold, hloop.dev] at hvalue
          refine Eq.trans hvalue ?_
          rw [show s.oldSlot u.1 = kloc from slotOf_of_lookup hl]

/-- Every compaction leaves everything where it is and writes nothing, or gets
to its loop. -/
theorem compact_cases {s s' : Engine A} (hs : s.WellPlaced) {extentId : Nat}
    {res : MigrationResult} (hrun : s.compact extentId = (res, s')) :
    ((∀ e dst key rest, ¬ s.Starts extentId e dst key rest) ∧
        (∀ t, (s.dev t).Wrote (s'.dev t) []) ∧ ∀ k, s'.whereIs k = s.whereIs k) ∨
      ∃ e dst key rest w, s.Starts extentId e dst key rest ∧
        Compacted s s' extentId e dst key rest w := by
  unfold compact at hrun
  generalize hbegin : s.extentMap.beginMigration extentId = out at hrun
  obtain ⟨handle, em⟩ := out
  rcases ExtentMap.beginMigration_cases hbegin with
    ⟨rfl, rfl, hno⟩ | ⟨e, e', he, hactive, rfl, hloc, hgen, rfl⟩
  · cases hrun
    exact .inl ⟨fun e dst key rest hst => hno e hst.entry hst.active,
      fun _ => BlockDevice.Wrote.refl _, fun _ => rfl⟩
  have hplaces : ∀ i, (s.extentMap.setEntry extentId e').getLocation i =
      s.extentMap.getLocation i :=
    fun i => ExtentMap.getLocation_setEntry_same he hloc i
  dsimp only at hrun
  split at hrun
  · rename_i hkeys
    cases hrun
    refine .inl ⟨fun e dst key rest hst => ?_, fun _ => BlockDevice.Wrote.refl _, fun k => ?_⟩
    · cases hkeys.symm.trans hst.keys
    · refine whereIs_congr rfl fun kloc hk => ?_
      -- no key lies in the freed extent
      have hne : kloc.extentId ≠ extentId := by
        intro hid
        have hin := (hs.coherent.mem_iff extentId k).mpr ⟨kloc, hk, hid⟩
        rw [show s.keyMap.keysInExtent extentId = [] from hkeys] at hin
        cases hin
      refine (ExtentMap.getLocation_free _ _ _).trans ?_
      rw [if_neg hne]
      exact hplaces _
  · rename_i keys hne
    unfold compactClaimed at hrun
    dsimp only at hrun
    generalize halloc : ExtentMap.allocateExtent (A := A) _ _ _ _ _ = out at hrun
    obtain ⟨got, em, al, dev⟩ := out
    have hraw : (s.extentMap.setEntry extentId e').allocateRaw s.alloc e.location.tier
        e.location.length = s.extentMap.allocateRaw s.alloc e.location.tier e.location.length :=
      ExtentMap.allocateRaw_congr rfl _ _ _
    rcases ExtentMap.allocateExtent_cases halloc with
      ⟨rfl, rfl, rfl, hspace⟩ | ⟨dst, rfl, rfl, hspace, rfl⟩
    · cases hrun
      refine .inl ⟨fun e₁ dst key rest hst => ?_, fun _ => BlockDevice.Wrote.refl _, fun k => ?_⟩
      · obtain rfl : e₁ = e := Option.some.inj (hst.entry.symm.trans he)
        have hsome := hst.space
        rw [← hraw] at hsome
        cases hspace.symm.trans hsome
      · refine whereIs_congr rfl fun kloc _ => ?_
        exact (ExtentMap.getLocation_abortMigration _ _ _).trans (hplaces _)
    · rw [hraw] at hspace
      have hid : extentId ≠ s.extentMap.nextExtentId := (hs.known extentId e he).ne
      obtain ⟨key, rest, hkeys⟩ := List.exists_cons_of_ne_nil
        (show s.keyMap.keysInExtent extentId ≠ [] from fun h => hne h)
      rw [show ({ s with extentMap := s.extentMap.setEntry extentId e' } :
        Engine A).keyMap.keysInExtent extentId = key :: rest from hkeys] at hrun
      have hstart : s.Starts extentId e dst key rest := ⟨he, hactive, hkeys, hspace⟩
      refine .inr ⟨e, dst, key, rest, ?_⟩
      have hloop : LoopStart s { s with
          extentMap := ExtentMap.addEntry { s.extentMap.setEntry extentId e' with
            nextExtentId := s.extentMap.nextExtentId + 1 } s.extentMap.nextExtentId dst
          alloc := al
          dev := Function.update s.dev dst.tier (s.headerWrite dst).2 } extentId e dst := by
        refine ⟨rfl, rfl, ?_, ⟨e', ?_, ?_⟩, fun i hi => ?_⟩
        · exact (ExtentMap.lookup_addEntry _ _ _ _).trans (if_pos rfl)
        · refine (ExtentMap.lookup_addEntry _ _ _ _).trans ((if_neg hid).trans ?_)
          exact (ExtentMap.lookup_setEntry _ _ _ _).trans (if_pos rfl)
        · rw [hgen, Nat.mod_eq_of_lt (hs.generation extentId e he)]
        · rw [ExtentMap.getLocation, ExtentMap.lookup_addEntry, if_neg hi]
          exact hplaces i
      obtain ⟨w, hw⟩ := compactLoop_cases hs hstart hloop hrun
      exact ⟨w, hstart, hw⟩

/-- The space a compaction of the extent gets. -/
def compactSpace (s : Engine A) (extentId : Nat) : Option DiskLocation :=
  (s.extentMap.getLocation extentId).bind fun l => s.relocationSpace extentId l.tier

theorem Starts.compactSpace {s : Engine A} {extentId : Nat} {e : ExtentEntry}
    {dst : DiskLocation} {key : Key} {rest : List Key} (h : s.Starts extentId e dst key rest) :
    s.compactSpace extentId = some dst := by
  unfold Engine.compactSpace relocationSpace ExtentMap.getLocation
  rw [h.entry]
  exact h.space

theorem WellPlaced.compactSpace_free {s : Engine A} (hs : s.WellPlaced) {extentId : Nat}
    {loc : DiskLocation} (h : s.compactSpace extentId = some loc) : s.FreeSpace loc := by
  obtain ⟨l, -, hl⟩ := Option.bind_eq_some_iff.mp h
  exact hs.freeSpace hl

omit [Allocator A] in
theorem wrote_prepared (s : Engine A) (dst : DiskLocation) (t : Tier) :
    (s.dev t).Wrote ((s.prepared dst).dev t)
      (if t = dst.tier ∧ 0 ≤ (s.headerWrite dst).1 then
        [(dst.offset, headerBytes s.extentMap.nextExtentId dst.length 0 0 0)] else []) := by
  unfold prepared
  rw [setDev_dev]
  by_cases ht : t = dst.tier
  · subst ht
    rw [if_pos rfl]
    have hwrite : (s.dev dst.tier).write dst.offset
        (headerBytes s.extentMap.nextExtentId dst.length 0 0 0) false =
        ((s.headerWrite dst).1, (s.headerWrite dst).2) := rfl
    rcases BlockDevice.wrote_write hwrite with ⟨hr, hw⟩ | ⟨hr, hw⟩
    · rw [if_neg (by omega)]
      exact hw
    · rw [if_pos ⟨rfl, hr⟩]
      exact hw
  · rw [if_neg ht, if_neg fun h => ht h.1]
    exact BlockDevice.Wrote.refl _

omit [Allocator A] in
/-- All writes of a compaction on one device. -/
theorem Compacted.wrote {s s' : Engine A} {extentId : Nat} {e : ExtentEntry} {dst : DiskLocation}
    {key : Key} {rest : List Key} {w : List (Nat × List Byte)}
    (h : Compacted s s' extentId e dst key rest w) (t : Tier) :
    (s.dev t).Wrote (s'.dev t) ((if t = e.location.tier then w else []) ++
      if t = dst.tier ∧ 0 ≤ (s.headerWrite dst).1 then
        [(dst.offset, headerBytes s.extentMap.nextExtentId dst.length 0 0 0)] else []) := by
  refine (wrote_prepared s dst t).trans ?_
  by_cases ht : t = e.location.tier
  · rw [if_pos ht, ht]
    exact h.written
  · rw [if_neg ht, h.untouched t ht]
    exact BlockDevice.Wrote.refl _

/-- A compaction leaves all values and all other space alone exactly when the
new extent can take what is written. -/
theorem compact_preserves_iff {s : Engine A} (hs : s.WellPlaced) (extentId : Nat) :
    s.Preserves (s.compact extentId).2 extentId (s.compactSpace extentId) ↔
      s.CompactFits extentId := by
  generalize hrun : s.compact extentId = out
  obtain ⟨res, s'⟩ := out
  dsimp only
  constructor
  · intro hp e dst key rest hst
    rcases compact_cases hs hrun with ⟨hno, -, -⟩ | ⟨e₁, dst₁, key₁, rest₁, w, hst₁, hc⟩
    · exact absurd hst (hno e dst key rest)
    obtain rfl : e₁ = e := Option.some.inj (hst₁.entry.symm.trans hst.entry)
    obtain rfl : dst₁ = dst := Option.some.inj (hst₁.space.symm.trans hst.space)
    obtain ⟨rfl, rfl⟩ : key₁ = key ∧ rest₁ = rest := List.cons.inj (hst₁.keys.symm.trans hst.keys)
    have hinto : ∀ t x, x ∈ ((if t = e₁.location.tier then w else []) ++
        if t = dst₁.tier ∧ 0 ≤ (s.headerWrite dst₁).1 then
          [(dst₁.offset, headerBytes s.extentMap.nextExtentId dst₁.length 0 0 0)] else []) →
        dst₁.tier = t ∧ x.1 + x.2.length ≤ dst₁.offset + dst₁.length := by
      intro t x hx
      obtain ⟨loc, hloc, htier, -, hlen⟩ := WritesInto.mem hp.writes (hc.wrote t) x hx
      obtain rfl : dst₁ = loc := Option.some.inj (hst.compactSpace.symm.trans hloc)
      exact ⟨htier, hlen⟩
    refine ⟨fun hhdr => ?_, fun hck => ?_⟩
    · obtain ⟨-, hlen⟩ := hinto dst₁.tier
        (dst₁.offset, headerBytes s.extentMap.nextExtentId dst₁.length 0 0 0)
        (List.mem_append_right _ (by rw [if_pos ⟨rfl, hhdr⟩]; exact List.mem_cons_self))
      rw [headerBytes_length] at hlen
      dsimp only at hlen
      omega
    · obtain ⟨htier, hlen⟩ := hinto e₁.location.tier _
        (List.mem_append_left _ (by rw [if_pos rfl]; exact hc.first hck))
      dsimp only at hlen
      exact ⟨htier, by omega⟩
  · intro hfits
    have hfree : ∀ loc, s.compactSpace extentId = some loc → s.FreeSpace loc :=
      fun loc => hs.compactSpace_free
    rcases compact_cases hs hrun with ⟨-, hwrote, hplaces⟩ | ⟨e, dst, key, rest, w, hst, hc⟩
    · have hw := WritesInto.refl_of_dev (s.compactSpace extentId) hwrote
      exact Preserves.of_writes hfree hw extentId fun k now =>
        peek_same_place hs hfree hw now (hplaces k)
    obtain ⟨hhdr, hck⟩ := hfits e dst key rest hst
    have hlt := ExtentMap.allocateRaw_length hst.space
    -- the loop writes nothing, or inside the new extent and on its tier
    have hloop : w = [] ∨ (s.prepared dst).CopiesKey e.location { location := dst } key ∧
        dst.tier = e.location.tier ∧ HEADER_SIZE ≤ dst.length := by
      by_cases h : (s.prepared dst).CopiesKey e.location { location := dst } key
      · exact .inr ⟨h, hck h⟩
      · exact .inl (hc.none h)
    have hw : s.WritesInto s' (s.compactSpace extentId) := by
      intro t
      refine ⟨_, hc.wrote t, fun x hx => ⟨dst, hst.compactSpace, ?_⟩⟩
      rcases List.mem_append.mp hx with hx | hx
      · split at hx
        · rename_i ht
          rcases hloop with rfl | ⟨-, htier, hlen⟩
          · cases hx
          · obtain ⟨hlo, hhi⟩ := hc.within x hx
            have hcap : ExtentMap.capacity dst = dst.length - HEADER_SIZE := sub32_of_le hlen hlt
            exact ⟨htier.trans ht.symm, by omega, by omega⟩
        · cases hx
      · split at hx
        · rename_i ht
          rw [List.mem_singleton] at hx
          subst hx
          have hlen := hhdr ht.2
          refine ⟨ht.1.symm, Nat.le_refl _, ?_⟩
          rw [headerBytes_length]
          dsimp only
          omega
        · cases hx
    refine Preserves.of_writes hfree hw extentId fun k now => ?_
    rcases hc.moved with hsame | ⟨hcopies, hothers, hkeys⟩
    · exact peek_same_place hs hfree hw now (hsame k)
    obtain ⟨htier, hlen⟩ := hck hcopies
    by_cases hk : ∃ kloc, s.keyMap.lookup k = some kloc ∧ kloc.extentId = extentId
    · obtain ⟨kloc, hl, hid⟩ := hk
      have hloc : s.extentMap.getLocation kloc.extentId = some e.location := by
        rw [ExtentMap.getLocation, hid, hst.entry]
        rfl
      have happ := (hfree dst hst.compactSpace).1 _ _ hloc htier.symm
      have hcap : ExtentMap.capacity dst = dst.length - HEADER_SIZE := sub32_of_le hlen hlt
      have hslot : ∀ k' ∈ key :: rest,
          HEADER_SIZE + (s.oldSlot k').slotEnd ≤ e.location.length := by
        intro k' hk'
        rw [← hst.keys, hs.coherent.mem_iff] at hk'
        obtain ⟨l, hl', hid'⟩ := hk'
        rw [show s.oldSlot k' = l from slotOf_of_lookup hl']
        exact hs.inside k' l e hl' (by rw [hid']; exact hst.entry)
      obtain ⟨kloc', hplace, hvalue⟩ := hkeys (fun k' hk' => by
        have hin := hslot k' hk'
        show _ + (s.oldSlot k').slotEnd ≤ _ ∨ _ ≤ _ + (s.oldSlot k').offset
        unfold KeyLocation.slotEnd at hin ⊢
        rcases happ with h | h <;> omega) k kloc hl hid
      refine peek_congr now (.inr ⟨_, _, _, _, whereIs_eq_some.mpr ⟨hl, hloc⟩, hplace, ?_⟩)
      have hdst : ({ dst with tier := e.location.tier } : DiskLocation) = dst := by
        rw [← htier]
      rw [hdst] at hvalue
      rw [hvalue]
      -- the header of the new extent is away from the old slot
      refine (wrote_prepared s dst e.location.tier).read_eq fun x hx => ?_
      have hin := hs.inside k kloc e hl (by rw [hid]; exact hst.entry)
      split at hx
      · rename_i ht
        rw [List.mem_singleton] at hx
        subst hx
        rw [headerBytes_length]
        have hlen' := hhdr ht.2
        unfold KeyLocation.slotEnd at hin
        dsimp only
        rcases happ with h | h <;> omega
      · cases hx
    · refine peek_same_place hs hfree hw now (hothers k fun kloc hl hid => ?_)
      exact hk ⟨kloc, hl, hid⟩

/-- Relocation, by tier migration and by compaction: values, other extents and
journal stay, and the copy lies inside the space it is committed to, exactly
when the allocation fits the copy. -/
theorem relocation_preserves_iff {s : Engine A} (hs : s.WellPlaced) (extentId : Nat)
    (src dst : Tier) :
    (s.Preserves (s.migrateTier extentId src dst).2 extentId (s.relocationSpace extentId dst) ↔
      s.MigrateFits extentId src dst) ∧
    (s.Preserves (s.compact extentId).2 extentId (s.compactSpace extentId) ↔
      s.CompactFits extentId) :=
  ⟨migrateTier_preserves_iff hs extentId src dst, compact_preserves_iff hs extentId⟩

end Compact

/-! ## Two stores -/

/-- A bitmap allocator of 512 MiB with one free range. -/
def bitmapWith (offset length : Nat) : BitmapAllocator :=
  ((BitmapAllocator.create 0x20000000 4096).bind (·.initAddFree offset length)).toOption.getD {}

/-- One key in an extent behind the journal, free space on both tiers. -/
def oneKeyStore : Engine BitmapAllocator where
  cfg := { extentSize := 0x2000 }
  dev := fun _ => { content := fun a => UInt8.ofNat (a % 251), size := 0x20000000 }
  alloc := fun t => match t with
    | .FAST => bitmapWith 0x6000 0x400000
    | .SLOW => bitmapWith 0 0x400000
  extentMap := ExtentMap.addEntry { blockSize := 4096, extentSize := 0x2000, nextExtentId := 2 } 1
    ⟨0x4000, 0x2000, .FAST⟩
  keyMap := ({} : KeyMap).put [0x61] ⟨1, 0, 5⟩ 0
  journal := { devSize := 0x4000 }

theorem oneKeyStore_wellPlaced : oneKeyStore.WellPlaced := by
  have hentry : ∀ id e, oneKeyStore.extentMap.lookup id = some e →
      id = 1 ∧ e = { location := ⟨0x4000, 0x2000, .FAST⟩ } := by
    intro id e he
    have he' := (ExtentMap.lookup_addEntry _ _ _ _).symm.trans he
    split at he'
    · rename_i hid
      cases he'
      exact ⟨hid, rfl⟩
    · cases he'
  have hkey : ∀ k loc, oneKeyStore.keyMap.lookup k = some loc → k = [0x61] ∧ loc = ⟨1, 0, 5⟩ := by
    intro k loc hk
    have hk' := (KeyMap.lookup_put _ _ _ _ _).symm.trans hk
    split at hk'
    · rename_i hkey
      cases hk'
      exact ⟨hkey, rfl⟩
    · cases hk'
  refine ⟨KeyMap.Coherent.empty.put _ _ _, fun id e he => ?_, fun k loc hk => ?_,
    fun id e he => ?_, fun id e he => ?_, fun k loc e hk he => ?_,
    fun k k' loc loc' hne hk hk' => ?_, fun id id' e e' hne he he' => ?_,
    fun id e he _ => ?_, fun id e t dst al he halloc => ?_⟩
  · obtain ⟨rfl, -⟩ := hentry id e he
    decide
  · obtain ⟨-, rfl⟩ := hkey k loc hk
    decide
  · obtain ⟨-, rfl⟩ := hentry id e he
    decide
  · obtain ⟨-, rfl⟩ := hentry id e he
    decide
  · obtain ⟨-, rfl⟩ := hkey k loc hk
    obtain ⟨-, rfl⟩ := hentry _ e he
    decide
  · exact absurd ((hkey k loc hk).1.trans (hkey k' loc' hk').1.symm) hne
  · exact absurd ((hentry id e he).1.trans (hentry id' e' he').1.symm) hne
  · obtain ⟨-, rfl⟩ := hentry id e he
    decide
  · obtain ⟨-, rfl⟩ := hentry id e he
    have hdst : dst = ⟨0x6000, 0x2000, .FAST⟩ ∨ dst = ⟨0, 0x2000, .SLOW⟩ := by
      cases t with
      | FAST =>
          have heval : (oneKeyStore.extentMap.allocateRaw oneKeyStore.alloc .FAST 0x2000).1 =
              some ⟨0x6000, 0x2000, .FAST⟩ := by decide +kernel
          exact .inl (Option.some.inj ((congrArg Prod.fst halloc).symm.trans heval))
      | SLOW =>
          have heval : (oneKeyStore.extentMap.allocateRaw oneKeyStore.alloc .SLOW 0x2000).1 =
              some ⟨0, 0x2000, .SLOW⟩ := by decide +kernel
          exact .inr (Option.some.inj ((congrArg Prod.fst halloc).symm.trans heval))
    refine ⟨fun id' l hl htier => ?_, fun hfast => ?_⟩
    · obtain ⟨e', he', rfl⟩ := Option.map_eq_some_iff.mp hl
      obtain ⟨-, rfl⟩ := hentry id' e' he'
      rcases hdst with rfl | rfl
      · exact .inl (by decide)
      · cases htier
    · rcases hdst with rfl | rfl
      · decide
      · cases hfast

theorem relocation_preserves_iff_oneKey :
    (oneKeyStore.Preserves (oneKeyStore.migrateTier 1 .FAST .SLOW).2 1
        (oneKeyStore.relocationSpace 1 .SLOW) ↔ oneKeyStore.MigrateFits 1 .FAST .SLOW) ∧
      (oneKeyStore.Preserves (oneKeyStore.compact 1).2 1 (oneKeyStore.compactSpace 1) ↔
        oneKeyStore.CompactFits 1) :=
  relocation_preserves_iff oneKeyStore_wellPlaced 1 .FAST .SLOW

/-- An empty store whose FAST tier has room for one extent. -/
def tightStore : Engine BitmapAllocator :=
  blank { extentSize := 0x2000 } (fun _ => { content := fun _ => 0, size := 0x20000000 })
    (fun t => match t with
      | .FAST => bitmapWith 0x4000 0x2000
      | .SLOW => bitmapWith 0 0x400000) { devSize := 0x4000 }

/-- With the FAST tier full, a compaction and a migration to FAST both write the
copy on FAST and commit its location on SLOW: the value is lost. -/
theorem relocation_loses_value :
    let s := (tightStore.put [0x61] [1, 2, 3, 4, 5] 0).2
    s.peek [0x61] 0 = (0, [1, 2, 3, 4, 5]) ∧
      (s.compact 1).1 = .COMMITTED ∧ (s.compact 1).2.peek [0x61] 0 = (0, [0, 0, 0, 0, 0]) ∧
      ((s.migrateTier 1 .FAST .SLOW).2.peek [0x61] 0 = (0, [1, 2, 3, 4, 5]) ∧
        ((s.migrateTier 1 .FAST .SLOW).2.migrateTier 1 .SLOW .FAST).1 = .COMMITTED ∧
        ((s.migrateTier 1 .FAST .SLOW).2.migrateTier 1 .SLOW .FAST).2.peek [0x61] 0 =
          (0, [0, 0, 0, 0, 0])) := by
  decide +kernel

end Clab.Btier.Engine
