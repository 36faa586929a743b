import Clab.Blk.AvlCompleteness
import Clab.Btier.Reopen
import Clab.Btier.StoredCalls

/-!
# The store is a map

Over any run of `put`, `get`, `del` and rounds of deferred freeing, with device
faults anywhere, the store answers as a map from keys to values does whose
failed updates change nothing. Space given up is handed out again after two
rounds, and no value is ever written over.
-/

namespace Clab.Btier.Engine

open Clab.Blk Clab.Blk.AvlAllocator Clab.Common Clab.RangeSet

/-! ## Deferred freeing -/

section Recycle

variable {A : Type} [Allocator A] {view : SpaceView A} {s : Engine A}
  {values : Key → Option (List Byte)} {free : Tier → Set Nat}

/-- The bytes of some retired locations on the device of tier `t`. -/
def retiredBytes (ds : List DeferredFreeEntry) (t : Tier) : Set Nat :=
  {x | ∃ d ∈ ds, x ∈ d.loc.bytesOn t}

theorem retiredBytes_cons (d : DeferredFreeEntry) (ds : List DeferredFreeEntry) (t : Tier) :
    retiredBytes (d :: ds) t = d.loc.bytesOn t ∪ retiredBytes ds t := by
  ext x
  simp [retiredBytes]

/-- Releasing one location after the other. -/
theorem holds_released (law : SoundAllocator view) {ds : List DeferredFreeEntry} {al : Tier → A}
    (hal : ∀ t, view.holds t (al t) (free t)) (hunits : ∀ d ∈ ds, d.loc.InUnits view.unit)
    (hin : ∀ d ∈ ds, ∀ t, d.loc.bytesOn t ⊆ view.range t)
    (hout : ∀ d ∈ ds, ∀ t, Disjoint (free t) (d.loc.bytesOn t))
    (hpair : ds.Pairwise fun a b => ∀ t, Disjoint (a.loc.bytesOn t) (b.loc.bytesOn t)) (t : Tier) :
    view.holds t (ds.foldl (fun al d => Function.update al d.loc.tier
      (Allocator.release (al d.loc.tier) [⟨d.loc.offset, d.loc.length⟩])) al t)
      (free t ∪ retiredBytes ds t) := by
  induction ds generalizing al free with
  | nil =>
      have hnone : retiredBytes [] t = ∅ := by simp [retiredBytes]
      rw [hnone, Set.union_empty]
      exact hal t
  | cons d rest ih =>
      obtain ⟨hd, hrest⟩ := List.pairwise_cons.mp hpair
      rw [List.foldl_cons, retiredBytes_cons, ← Set.union_assoc]
      refine @ih (fun t => free t ∪ d.loc.bytesOn t) _ (fun t => ?_)
        (fun b hb => hunits b (List.mem_cons_of_mem _ hb))
        (fun b hb => hin b (List.mem_cons_of_mem _ hb)) (fun b hb t => ?_) hrest
      · by_cases ht : d.loc.tier = t
        · subst ht
          have hu := hunits d List.mem_cons_self
          have hheader : 0 < HEADER_SIZE := by decide
          have hbytes : d.loc.bytesOn d.loc.tier =
              Set.Ico d.loc.offset (d.loc.offset + d.loc.length) := if_pos rfl
          have hsub := hin d List.mem_cons_self d.loc.tier
          have hdisj := hout d List.mem_cons_self d.loc.tier
          rw [hbytes] at hsub hdisj
          rw [Function.update_self, hbytes]
          exact law.release (hal _) (hheader.trans_le hu.header) hu.offset hu.length hsub hdisj
        · have hnone : d.loc.bytesOn t = ∅ := if_neg ht
          rw [Function.update_of_ne (Ne.symm ht), hnone, Set.union_empty]
          exact hal t
      · refine Set.disjoint_union_left.mpr ⟨hout b (List.mem_cons_of_mem _ hb) t, ?_⟩
        exact hd b hb t

/-- `process_deferred_free` on a store. -/
def recycle (s : Engine A) : Engine A :=
  let (em, alloc) := s.extentMap.processDeferredFree s.alloc
  { s with extentMap := em, alloc }

theorem evolves_recycle (s : Engine A) : Evolves s.extentMap s.recycle.extentMap :=
  ⟨Nat.le_refl _, fun _ e he => ⟨e, he, rfl, Nat.le_refl _, fun h => h⟩,
    fun hm => hm.of_eq rfl fun _ => rfl⟩

/-- Released space is free again, and no value is in it. -/
theorem Stored.recycle (law : SoundAllocator view) (h : Stored view s values 0 free) :
    ∃ free', Stored view s.recycle values 0 free' := by
  have hlook : ∀ id, s.recycle.extentMap.lookup id = s.extentMap.lookup id := fun _ => rfl
  generalize hdue : (s.extentMap.deferredFree.filter fun d =>
    s.extentMap.seqno - d.addedAtSeqno ≥ 2) = due
  have hmem : ∀ d ∈ due, d ∈ s.extentMap.deferredFree := by
    intro d hd
    rw [← hdue] at hd
    exact List.mem_of_mem_filter hd
  have hwithin : ∀ d ∈ due, ∀ t, d.loc.bytesOn t ⊆
      heldSpace view.range free s.journal.devSize t := fun d hd => h.retired.within d (hmem d hd)
  have hal : ∀ t, view.holds t (s.recycle.alloc t) (free t ∪ retiredBytes due t) := by
    subst hdue
    refine holds_released law h.alloc (fun d hd => h.retired.units d (hmem d hd))
      (fun d hd t x hx => (hwithin d hd t hx).1) (fun d hd t => ?_)
      (h.retired.pairwise.sublist List.filter_sublist)
    exact Set.disjoint_left.mpr fun x hx hx' => (hwithin d hd t hx').2 (.inr hx)
  -- what stays put lies off the released bytes
  have hoff : ∀ {loc : DiskLocation} {t : Tier},
      loc.bytesOn t ⊆ heldSpace view.range free s.journal.devSize t →
      (∀ d ∈ due, Disjoint (loc.bytesOn t) (d.loc.bytesOn t)) →
      loc.bytesOn t ⊆
        heldSpace view.range (fun t => free t ∪ retiredBytes due t) s.journal.devSize t := by
    intro loc t hin hdisj x hx
    refine ⟨(hin hx).1, fun hbad => ?_⟩
    rcases hbad with hbad | hbad | ⟨d, hd, hbad⟩
    · exact (hin hx).2 (.inl hbad)
    · exact (hin hx).2 (.inr hbad)
    · exact Set.disjoint_left.mp (hdisj d hd) hx hbad
  refine ⟨fun t => free t ∪ retiredBytes due t,
    { sound := ⟨h.sound.slots.evolves (evolves_recycle s), h.sound.idle⟩
      block := h.block
      alive := h.alive
      values := h.values
      live := h.live
      used := h.used
      units := h.units
      alloc := hal
      behind := fun t => ?_
      apart := ⟨fun id e he t => ?_, h.apart.disjoint⟩
      retired := ⟨fun d hd t => ?_, fun d hd => ?_, ?_, fun d hd => ?_⟩ }⟩
  · refine Set.disjoint_union_right.mpr ⟨h.behind t, Set.disjoint_left.mpr ?_⟩
    rintro x hx ⟨d, hd, hx'⟩
    exact (hwithin d hd t hx').2 (.inl hx)
  · exact hoff (h.apart.within id e he t) fun d hd => h.retired.clear d (hmem d hd) id e he t
  · have hkept := List.mem_filter.mp hd
    refine hoff (h.retired.within d hkept.1 t) fun d' hd' => ?_
    have hd'' := hd'
    rw [← hdue] at hd''
    have hne : d ≠ d' := by
      rintro rfl
      have := (List.mem_filter.mp hd'').2
      simp [this] at hkept
    have hsymm : Std.Symm fun a b : DeferredFreeEntry =>
        ∀ t, Disjoint (a.loc.bytesOn t) (b.loc.bytesOn t) := ⟨fun a b hab t => (hab t).symm⟩
    exact h.retired.pairwise.forall hkept.1 (hmem d' hd') hne t
  · exact h.retired.clear d (List.mem_of_mem_filter hd)
  · exact h.retired.pairwise.sublist List.filter_sublist
  · exact h.retired.units d (List.mem_of_mem_filter hd)

end Recycle

/-! ## Requests -/

/-- What a store is asked to do, with the time of day; `recycle` is the round of
deferred freeing of the background cycle. -/
inductive Request
  | put (key : Key) (value : List Byte) (now : Nat)
  | get (key : Key) (now : Nat)
  | del (key : Key)
  | recycle

/-- A result code and a value. -/
abbrev Reply := Int × List Byte

section Runs

variable {A : Type} [Allocator A] {view : SpaceView A} {s : Engine A}
  {values : Key → Option (List Byte)} {free : Tier → Set Nat}

/-- One request, served. -/
def serve (s : Engine A) : Request → Reply × Engine A
  | .put key value now => (((s.put key value now).1, []), (s.put key value now).2)
  | .get key now => (((s.get key now).1, (s.get key now).2.1), (s.get key now).2.2)
  | .del key => (((s.del key).1, []), (s.del key).2)
  | .recycle => ((0, []), s.recycle)

/-- The replies to a run of requests. -/
def serveAll (s : Engine A) : List Request → List Reply × Engine A
  | [] => ([], s)
  | req :: rest =>
      let (reply, s) := s.serve req
      let (replies, s) := s.serveAll rest
      (reply :: replies, s)

/-- The ring has room for the request, and a value put is neither empty nor
longer than a slot can be. -/
def Fits (s : Engine A) : Request → Prop
  | .put key value _ => s.Roomy key ∧ value ≠ [] ∧ value.length < 2 ^ 32
  | .del key => s.Roomy key
  | _ => True

/-- Every request of a run fits when it is served. -/
def AllFit (s : Engine A) : List Request → Prop
  | [] => True
  | req :: rest => s.Fits req ∧ (s.serve req).2.AllFit rest

instance (s : Engine A) (key : Key) : Decidable (s.Roomy key) :=
  decidable_of_iff (_ ∧ _) ⟨fun h => ⟨h.1, h.2⟩, fun h => ⟨h.transaction, h.checkpoint⟩⟩

instance decidableFits (s : Engine A) : (req : Request) → Decidable (s.Fits req)
  | .put key value _ =>
      inferInstanceAs (Decidable (s.Roomy key ∧ value ≠ [] ∧ value.length < 2 ^ 32))
  | .del key => inferInstanceAs (Decidable (s.Roomy key))
  | .get _ _ => inferInstanceAs (Decidable True)
  | .recycle => inferInstanceAs (Decidable True)

instance decidableAllFit : (s : Engine A) → (reqs : List Request) → Decidable (s.AllFit reqs)
  | _, [] => inferInstanceAs (Decidable True)
  | s, req :: rest =>
      @instDecidableAnd _ _ (decidableFits s req) (decidableAllFit (s.serve req).2 rest)

/-- What a map answers: a failed request changes nothing. -/
inductive Answers (values : Key → Option (List Byte)) :
    Request → Reply → (Key → Option (List Byte)) → Prop
  | stored {key : Key} {value : List Byte} {now : Nat} :
      Answers values (.put key value now) (0, []) (Function.update values key (some value))
  | notStored {key : Key} {value : List Byte} {now : Nat} {r : Int} (hr : r < 0) :
      Answers values (.put key value now) (r, []) values
  | found {key : Key} {now : Nat} : Answers values (.get key now) (answer (values key)) values
  | unread {key : Key} {now : Nat} (hheld : values key ≠ none) :
      Answers values (.get key now) (-eio, []) values
  | absent {key : Key} (hnone : values key = none) :
      Answers values (.del key) (-enoent, []) values
  | deleted {key : Key} (hheld : values key ≠ none) :
      Answers values (.del key) (0, []) (Function.update values key none)
  | notDeleted {key : Key} {r : Int} (hheld : values key ≠ none) (hr : r < 0) :
      Answers values (.del key) (r, []) values
  | recycled : Answers values .recycle (0, []) values

/-- The answers of a map to a run of requests. -/
inductive MapRun : (Key → Option (List Byte)) → List Request → List Reply →
    (Key → Option (List Byte)) → Prop
  | nil (values : Key → Option (List Byte)) : MapRun values [] [] values
  | cons {values values₁ values₂ : Key → Option (List Byte)} {req : Request} {reply : Reply}
      {reqs : List Request} {replies : List Reply} (h : Answers values req reply values₁)
      (hrest : MapRun values₁ reqs replies values₂) :
      MapRun values (req :: reqs) (reply :: replies) values₂

omit [Allocator A] in
/-- No value is empty, before and after. -/
theorem Answers.full {req : Request} {reply : Reply} {values' : Key → Option (List Byte)}
    (h : Answers values req reply values') (hfits : s.Fits req)
    (hfull : ∀ k, values k ≠ some []) (k : Key) : values' k ≠ some [] := by
  cases h with
  | stored =>
      rename_i key value now
      obtain ⟨-, hvalue, -⟩ := hfits
      by_cases hk : k = key
      · rw [hk, Function.update_self]
        exact fun heq => hvalue (Option.some.inj heq)
      · rw [Function.update_of_ne hk]
        exact hfull k
  | deleted hheld =>
      rename_i key
      by_cases hk : k = key
      · rw [hk, Function.update_self]
        simp
      · rw [Function.update_of_ne hk]
        exact hfull k
  | notStored hr => exact hfull k
  | found => exact hfull k
  | unread hheld => exact hfull k
  | absent hnone => exact hfull k
  | notDeleted hheld hr => exact hfull k
  | recycled => exact hfull k

/-- One request is answered as a map answers it. -/
theorem Stored.serve (law : SoundAllocator view) (hunit : HEADER_SIZE ≤ view.unit)
    (h : Stored view s values 0 free) (hfull : ∀ k, values k ≠ some []) {req : Request}
    (hfits : s.Fits req) :
    ∃ values' free', Answers values req (s.serve req).1 values' ∧
      Stored view (s.serve req).2 values' 0 free' := by
  cases req with
  | put key value now =>
      obtain ⟨hroom, hvalue, hlt⟩ := hfits
      unfold Engine.serve
      dsimp only
      generalize hput : s.put key value now = out
      obtain ⟨r, s'⟩ := out
      obtain ⟨free', -, hres⟩ := h.put law hunit hfull hroom hvalue hlt hput
      rcases hres with ⟨rfl, hstored⟩ | ⟨hr, hstored⟩
      · exact ⟨_, free', .stored, hstored⟩
      · exact ⟨values, free', .notStored hr, hstored⟩
  | get key now =>
      unfold Engine.serve
      dsimp only
      generalize hget : s.get key now = out
      obtain ⟨r, bl, s'⟩ := out
      obtain ⟨hstored, hres⟩ := h.get key hget
      refine ⟨values, free, ?_, hstored⟩
      rcases hres with hres | ⟨hheld, hres⟩
      · rw [hres]
        exact .found
      · rw [hres]
        exact .unread hheld
  | del key =>
      unfold Engine.serve
      dsimp only
      generalize hdel : s.del key = out
      obtain ⟨r, s'⟩ := out
      rcases h.del hfull hfits hdel with ⟨hnone, rfl, hstored⟩ | ⟨hheld, hres⟩
      · exact ⟨values, free, .absent hnone, hstored⟩
      · rcases hres with ⟨rfl, hstored⟩ | ⟨hr, hstored⟩
        · exact ⟨_, free, .deleted hheld, hstored⟩
        · exact ⟨values, free, .notDeleted hheld hr, hstored⟩
  | recycle =>
      obtain ⟨free', hstored⟩ := h.recycle law
      exact ⟨values, free', .recycled, hstored⟩

/-- A run is answered as a map answers it. -/
theorem Stored.serveAll (law : SoundAllocator view) (hunit : HEADER_SIZE ≤ view.unit)
    {reqs : List Request} (h : Stored view s values 0 free) (hfull : ∀ k, values k ≠ some [])
    (hfits : s.AllFit reqs) :
    ∃ values' free', MapRun values reqs (s.serveAll reqs).1 values' ∧
      Stored view (s.serveAll reqs).2 values' 0 free' := by
  induction reqs generalizing s values free with
  | nil => exact ⟨values, free, .nil values, h⟩
  | cons req rest ih =>
      obtain ⟨hreq, hrest⟩ := hfits
      obtain ⟨values₁, free₁, hanswer, hstored⟩ := h.serve law hunit hfull hreq
      obtain ⟨values₂, free₂, hrun, hend⟩ :=
        ih hstored (hanswer.full hreq hfull) hrest
      exact ⟨values₂, free₂, .cons hanswer hrun, hend⟩

end Runs

/-! ## The allocators of the store -/

/-- How the store sees two `AvlAllocator`s over devices of whole blocks. -/
def avlView (blockSize : Nat) (size : Tier → Nat) : SpaceView AvlAllocator where
  unit := blockSize
  range t := Set.Ico 0 (size t)
  holds t a free :=
    Holds a free ∧ Whole blockSize free ∧ a.blockSize = blockSize ∧ a.deviceSize = size t

theorem whole_union {unit : Nat} {s t : Set Nat} (hs : Whole unit s) (ht : Whole unit t) :
    Whole unit (s ∪ t) :=
  fun x y hxy hx => hx.imp (hs x y hxy) (ht x y hxy)

/-- The bound on an extent is what is wanted, or a multiple of the block. -/
theorem cutsNoUnit_maxExtent {a : AvlAllocator} {free : Set Nat} {want unit : Nat}
    (hu : isp2 unit = true) (hunit : unit < 2 ^ 32) (hblock : a.blockSize = unit) (hw : 0 < want) :
    0 < a.maxExtent want want ∧ CutsNoUnit free want unit (a.maxExtent want want) := by
  have hpos : 0 < unit := Nat.pos_of_dvd_of_pos (isp2_dvd hu (by omega)) (by decide)
  by_cases hcap : lengthCap ≤ if want = 0 then want else want
  · have hmax := maxExtent_smallBlock (a := a) (by omega) (by omega) hcap
    rw [hmax, hblock]
    refine ⟨by omega, .inl ?_⟩
    obtain ⟨k, rfl⟩ := isp2_iff.mp hu
    have hk := (Nat.pow_lt_pow_iff_right (by decide)).mp hunit
    exact Nat.dvd_sub (Nat.pow_dvd_pow 2 (by omega)) dvd_rfl
  · have hmax := maxExtent_uncapped (a := a) hcap
    rw [ite_self] at hmax
    rw [hmax]
    exact ⟨hw, .inr (.inl (Nat.le_refl _))⟩

theorem sound_avlView {blockSize : Nat} {size : Tier → Nat} (hu : isp2 blockSize = true)
    (hlt : blockSize < 2 ^ 32) : SoundAllocator (avlView blockSize size) := by
  have hpos : 0 < blockSize := Nat.pos_of_dvd_of_pos (isp2_dvd hu (by omega)) (by decide)
  refine ⟨?_, ?_, ?_⟩
  · rintro t a free ⟨hholds, -, -, hdev⟩ x hx
    rw [← hholds.covers] at hx
    obtain ⟨r, hr, -, hxr⟩ := hx
    have := hholds.inside r hr
    exact ⟨Nat.zero_le _, by omega⟩
  · rintro t a a' free want r extents ⟨hholds, hwhole, hblock, hdev⟩ hmod halloc
    have halloc : settle (a.allocate want blockSize want) (-enospc, [], a) = (r, extents, a') :=
      halloc
    rcases allocate_spec hholds hu (by omega) hmod want (by omega) with
      ⟨r₁, extents₁, a₁, heq, hspec⟩ | ⟨⟨f, heq⟩, -⟩
    · rw [heq] at halloc
      cases halloc
      have hunits : ∀ e ∈ extents, blockSize ∣ e.offset ∧ blockSize ∣ e.length ∧
          e.length < 2 ^ 32 := by
        rcases Nat.eq_zero_or_pos want with rfl | hw
        · rcases hspec.result with ⟨-, rfl, -⟩ | ⟨hr, hle, -⟩
          · simp
          · omega
        · obtain ⟨hmax, hcut⟩ := @cutsNoUnit_maxExtent a free want blockSize hu hlt hblock hw
          obtain ⟨r₂, extents₂, a₂, heq₂, -, -, hall⟩ := fulfils_of_cutsNoUnit hholds hwhole hu
            (by omega) (Nat.dvd_of_mod_eq_zero hmod) hmax hcut
          rw [heq] at heq₂
          cases heq₂
          exact fun e he => ⟨(hall e he).1, (hall e he).2.1, (hall e he).2.2.1⟩
      have hgranted : Whole blockSize (grantedBytes extents) := by
        rintro x y hxy ⟨e, he, hx⟩
        obtain ⟨hoff, hlen, -⟩ := hunits e he
        exact ⟨e, he, whole_Ico hpos hoff (dvd_add hoff hlen) x y hxy hx⟩
      refine ⟨free \ grantedBytes extents, Set.sdiff_subset, ⟨hspec.holds, hwhole.sdiff hgranted,
        hspec.config.blockSize.trans hblock, hspec.config.deviceSize.trans hdev⟩, fun e he => ?_⟩
      obtain ⟨hoff, hlen, hshort⟩ := hunits e he
      refine ⟨fun x hx => ?_, hspec.granted.nonempty e he, hoff, hlen, hshort⟩
      have hin : x ∈ grantedBytes extents := ⟨e, he, hx⟩
      exact ⟨hspec.granted.wasFree hin, fun hout => hout.2 hin⟩
    · rw [heq] at halloc
      cases halloc
      exact ⟨free, subset_rfl, ⟨hholds, hwhole, hblock, hdev⟩, fun e he => by cases he⟩
  · rintro t a free offset length ⟨hholds, hwhole, hblock, hdev⟩ hlen hoff hdvd hin hdisj
    have hset : IntervalSet.ofExtents [⟨offset, length⟩] = [(offset, length)] := by
      have hne : length ≠ 0 := by omega
      simp [IntervalSet.ofExtents, IntervalSet.insert, mergeFollowing, hne]
    have hbytes : intervalBytes [(offset, length)] = Set.Ico offset (offset + length) := by
      ext x
      simp [intervalBytes]
    have hend : offset + length ≤ a.deviceSize := by
      have := (hin ⟨by omega, by omega⟩ : offset + length - 1 ∈ Set.Ico 0 (size t)).2
      omega
    obtain ⟨a', heq, hholds', hsame⟩ := release_spec (s := [(offset, length)]) hholds
      ⟨by simpa using hlen, by simp, by simpa using hend, by rw [hbytes]; exact hdisj.symm⟩
    show Holds (settle (a.release (IntervalSet.ofExtents _)) a) _ ∧ _ ∧
      (settle (a.release (IntervalSet.ofExtents _)) a).blockSize = _ ∧
      (settle (a.release (IntervalSet.ofExtents _)) a).deviceSize = _
    rw [hset, heq, ← hbytes]
    refine ⟨hholds', ?_, hsame.blockSize.trans hblock, hsame.deviceSize.trans hdev⟩
    rw [hbytes]
    exact whole_union hwhole (whole_Ico hpos hoff (dvd_add hoff hdvd))

/-! ## Start-up on blank devices -/

/-- A device whose first two blocks are blank. -/
def BlankStart (d : BlockDevice) : Prop := ∀ x < kDataStart + kTxnAlignment, d.content x = 0

/-- A device on which `recover` finds nothing. -/
structure Fresh (d : BlockDevice) : Prop where
  superblock : Journal.mediumSuperblock d = none ∨ Journal.mediumSuperblock d = some {}
  blank : ∀ x, kDataStart ≤ x → x < kDataStart + kTxnAlignment → d.content x = 0

theorem mediumSuperblock_eq (d : BlockDevice) : Journal.mediumSuperblock d =
    if (JournalSuperBlock.parse (d.content.read 0 kSuperblockSize)).1 = superblockMagic then
      some (JournalSuperBlock.parse (d.content.read 0 kSuperblockSize)).2
    else none := by
  unfold Journal.mediumSuperblock
  generalize d.content.read 0 kSuperblockSize = bl
  rfl

/-- A block of zeros has no magic number. -/
theorem parse_zeros {c : Content} (h : ∀ x < kDataStart, c x = 0) :
    (JournalSuperBlock.parse (c.read 0 kSuperblockSize)).1 ≠ superblockMagic := by
  have hread : (c.read 0 kSuperblockSize).take 8 = List.replicate 8 0 := by
    refine List.ext_getElem (by simp [kSuperblockSize]) fun i hi _ => ?_
    have hi : i < 8 := by simpa [kSuperblockSize] using hi
    have hzero := h (0 + i) (by unfold kDataStart kSuperblockSize; omega)
    simp only [Content.read, List.getElem_take, List.getElem_map, List.getElem_range, hzero,
      List.getElem_replicate]
  have hmagic : Codec.leNat (List.replicate 8 0) ≠ superblockMagic := by decide
  unfold JournalSuperBlock.parse
  rw [hread]
  exact hmagic

theorem BlankStart.fresh {d : BlockDevice} (h : BlankStart d) : Fresh d := by
  refine ⟨.inl ?_, fun x _ hx => h x hx⟩
  rw [mediumSuperblock_eq, if_neg (parse_zeros fun x hx => h x (by omega))]

theorem Fresh.wrote {d d' : BlockDevice} (h : Fresh d) (hw : BlockDevice.Wrote d d' []) :
    Fresh d' := by
  have hcontent : d'.content = d.content := by
    rw [hw.content]
    rfl
  refine ⟨?_, by rw [hcontent]; exact h.blank⟩
  have hsame : Journal.mediumSuperblock d' = Journal.mediumSuperblock d :=
    Journal.mediumSuperblock_congr (by rw [hcontent])
  rw [hsame]
  exact h.superblock

theorem Fresh.readSuperblock {d : BlockDevice} (h : Fresh d) {j : Journal}
    (hsb : j.superblock = {}) (hoff : j.writeOffset = 0) :
    (j.readSuperblock d).2.1 = j ∧ Fresh (j.readSuperblock d).2.2 := by
  have hj : { j with superblock := {}, writeOffset := 0 } = j := by
    rw [← hsb, ← hoff]
  unfold Journal.readSuperblock
  generalize hread : d.read 0 kSuperblockSize false = out
  obtain ⟨r, bl, d₁⟩ := out
  have hfresh := h.wrote (BlockDevice.wrote_read hread)
  dsimp only
  split
  · exact ⟨rfl, hfresh⟩
  · rename_i hpos
    have hbl : bl = d.content.read 0 kSuperblockSize := by
      unfold BlockDevice.read at hread
      split at hread
      · have hr := (Prod.mk.inj hread).1
        exact absurd (by rw [← hr]; decide) hpos
      · split at hread
        · have hr := (Prod.mk.inj hread).1
          exact absurd (by rw [← hr]; decide) hpos
        · exact (Prod.mk.inj (Prod.mk.inj hread).2).1.symm
    have hmedium := h.superblock
    rw [mediumSuperblock_eq, ← hbl] at hmedium
    split
    · -- the superblock is initialised
      dsimp only
      rw [hj]
      refine ⟨rfl, ?_⟩
      rcases j.writeSuperblock_cases d₁ with hw | hw
      · exact hfresh.wrote hw
      · rw [hsb] at hw
        refine ⟨.inr ?_, fun x hlo hhi => ?_⟩
        · have hbytes := Content.read_write_same d₁.content 0 ({} : JournalSuperBlock).bytes
          rw [Journal.superblock_length] at hbytes
          have hstored : Journal.stored {} = {} := by decide
          rw [← hstored]
          refine Journal.mediumSuperblock_of_read ?_
          rw [hw.content, List.foldr_cons, List.foldr_nil]
          exact hbytes
        · have hlength : ({} : JournalSuperBlock).bytes.length = kDataStart :=
            Journal.superblock_length {}
          generalize ({} : JournalSuperBlock).bytes = bytes at hw hlength
          rw [hw.content, List.foldr_cons, List.foldr_nil,
            Content.write_of_ge _ _ (by rw [hlength, Nat.zero_add]; exact hlo)]
          exact hfresh.blank x hlo hhi
    · rename_i hmagic
      rw [if_pos (not_not.mp hmagic)] at hmedium
      have hsame : (JournalSuperBlock.parse bl).2 = {} := by
        rcases hmedium with hmedium | hmedium
        · cases hmedium
        · exact Option.some.inj hmedium
      refine ⟨?_, hfresh⟩
      dsimp only
      rw [hsame]
      exact hj

/-- The journal made on such a device is empty, and so is what it recovers. -/
theorem Fresh.recover {d : BlockDevice} (h : Fresh d) (journalSize : Nat) :
    (Journal.create journalSize d).1 = { devSize := journalSize } ∧
      Fresh (Journal.create journalSize d).2 ∧
      ∃ d', ({ devSize := journalSize } : Journal).recover (Journal.create journalSize d).2 =
        (some [], { devSize := journalSize }, d') := by
  obtain ⟨hj, hfresh⟩ := h.readSuperblock (j := { devSize := journalSize }) rfl rfl
  have hfresh₁ : Fresh (Journal.create journalSize d).2 := hfresh
  refine ⟨hj, hfresh₁, ?_⟩
  clear hj hfresh
  generalize (Journal.create journalSize d).2 = d₁ at *
  obtain ⟨hj₁, hfresh₂⟩ := hfresh₁.readSuperblock (j := { devSize := journalSize }) rfl rfl
  unfold Journal.recover
  generalize ({ devSize := journalSize } : Journal).readSuperblock d₁ = out at hj₁ hfresh₂
  obtain ⟨r, j, d₂⟩ := out
  dsimp only at hj₁ hfresh₂
  subst hj₁
  dsimp only
  split
  · exact ⟨_, rfl⟩
  · rw [if_pos rfl, if_pos rfl]
    generalize hread : d₂.read kDataStart kTxnAlignment true = out
    obtain ⟨r', first, d₃⟩ := out
    have hzero : (decide (r' < 0) || first.all (· == 0)) = true := by
      obtain ⟨-, -, hcases⟩ := BlockDevice.read_buffered hread
      rcases hcases with ⟨-, hneg⟩ | ⟨-, -, hfirst⟩
      · simp [hneg]
      · rw [Bool.or_eq_true]
        right
        rw [hfirst, List.all_eq_true]
        intro b hb
        obtain ⟨i, hi, rfl⟩ := List.mem_map.mp hb
        have hi := List.mem_range.mp hi
        have hblank := hfresh₂.blank (kDataStart + i) (Nat.le_add_right _ _)
          (Nat.add_lt_add_left hi _)
        rw [hblank]
        decide
    dsimp only
    rw [hzero]
    exact ⟨_, rfl⟩

section Start

variable {cfg : BtierConfig} {dev : Tier → BlockDevice} {size mem : Tier → Nat}
  {journalSize : Nat}

/-- The geometry of a store: devices of whole blocks of at least 4 KiB, and a
journal region with a superblock and a transaction. -/
structure Geometry (cfg : BtierConfig) (size : Tier → Nat) (journalSize : Nat) : Prop where
  block : isp2 cfg.blockSize = true ∧ HEADER_SIZE ≤ cfg.blockSize ∧ cfg.blockSize < 2 ^ 32
  device : ∀ t, cfg.blockSize ∣ size t ∧ size t < 2 ^ 63
  journal : cfg.blockSize ∣ journalSize ∧ kSuperblockSize + kTxnAlignment ≤ journalSize
  inside : journalSize ≤ size .FAST

theorem Geometry.block_pos (h : Geometry cfg size journalSize) : 0 < cfg.blockSize := by
  have hheader : 0 < HEADER_SIZE := by decide
  exact hheader.trans_le h.block.2.1

/-- The allocators `init` makes stand for the devices without the journal. -/
theorem Geometry.holds_startAlloc (h : Geometry cfg size journalSize) (mem : Tier → Nat) (t : Tier) :
    (avlView cfg.blockSize size).holds t (startAlloc cfg size mem journalSize t)
      (startFree size journalSize t) := by
  have hholds := Engine.holds_startAlloc cfg mem (fun t => (h.device t).2) h.inside t
  have hsize : ∀ t, Whole cfg.blockSize (Set.Ico 0 (size t)) := fun t =>
    whole_Ico h.block_pos (dvd_zero _) (h.device t).1
  have hwhole : Whole cfg.blockSize (startFree size journalSize t) := by
    unfold startFree
    cases t with
    | FAST => exact (hsize .FAST).sdiff (whole_Ico h.block_pos (dvd_zero _) h.journal.1)
    | SLOW => exact (hsize .SLOW).sdiff fun x y _ hx => absurd hx (Set.notMem_empty x)
  have hfull : ∀ t, ∃ a, AvlAllocator.initAddFree (create (size t) cfg.blockSize (mem t)) 0
      (size t) = .ok a ∧ Holds a (Set.Ico 0 (size t)) ∧
        SameConfig (create (size t) cfg.blockSize (mem t)) a := by
    intro t
    have hin : 0 + size t ≤ (create (size t) cfg.blockSize (mem t)).deviceSize :=
      (Nat.zero_add (size t)).le
    obtain ⟨a, heq, hholds, hsame⟩ := initAddFree_spec
      (holds_create (h.device t).2 cfg.blockSize (mem t)) hin (Set.disjoint_empty _)
    rw [Set.empty_union, Nat.zero_add] at hholds
    exact ⟨a, heq, hholds, hsame⟩
  have hconfig : SameConfig (create (size t) cfg.blockSize (mem t))
      (startAlloc cfg size mem journalSize t) := by
    obtain ⟨a, heq, hholdsa, hsame⟩ := hfull t
    have hstart : Allocator.initAddFree (create (size t) cfg.blockSize (mem t)) 0
        (Allocator.getCapacity (create (size t) cfg.blockSize (mem t))) = a := by
      show settle (AvlAllocator.initAddFree _ 0 (size t)) _ = a
      rw [heq]
      rfl
    unfold startAlloc
    cases t with
    | FAST =>
        dsimp only
        rw [Function.update_self, hstart]
        have hin : Set.Ico 0 (0 + journalSize) ⊆ Set.Ico 0 (size .FAST) := by
          rw [Nat.zero_add]
          exact Set.Ico_subset_Ico le_rfl h.inside
        have hend : 0 + journalSize ≤ a.deviceSize := by
          rw [hsame.deviceSize, Nat.zero_add]
          exact h.inside
        obtain ⟨a', heq', -, hsame'⟩ := initRmFree_spec hholdsa hend hin
        show SameConfig _ (settle (a.initRmFree 0 journalSize) a)
        rw [heq']
        exact hsame.trans hsame'
    | SLOW =>
        rw [Function.update_of_ne (by decide), hstart]
        exact hsame
  exact ⟨hholds, hwhole, hconfig.blockSize, hconfig.deviceSize⟩

/-- An empty store. -/
theorem Geometry.stored_blank (h : Geometry cfg size journalSize) (mem : Tier → Nat)
    (dev : Tier → BlockDevice) :
    Stored (avlView cfg.blockSize size)
      (blank cfg dev (startAlloc cfg size mem journalSize) { devSize := journalSize })
      (fun _ => none) 0 (startFree size journalSize) := by
  have hidle : ({ devSize := journalSize } : Journal).Idle := fun _ => rfl
  have hnone : ∀ id, (blank cfg dev (startAlloc cfg size mem journalSize)
      { devSize := journalSize }).extentMap.lookup id = none := fun _ => rfl
  have hempty : ∀ {p : ExtentEntry → Prop} id e, (blank cfg dev (startAlloc cfg size mem journalSize)
      { devSize := journalSize }).extentMap.lookup id = some e → p e := by
    intro p id e he
    rw [hnone] at he
    cases he
  exact
    { sound := sound_blank cfg dev _ rfl hidle
      block := rfl
      alive := fun k loc hl => by cases hl
      values := fun k => rfl
      live := fun id e he => hempty (p := fun _ => _) id e he
      used := hempty
      units := hempty
      alloc := h.holds_startAlloc mem
      behind := fun t => Set.disjoint_sdiff_right
      apart := ⟨fun id e he => hempty (p := fun _ => _) id e he,
        fun id id' e e' _ he _ => hempty (p := fun _ => _) id e he⟩
      retired := ⟨by simp [blank], by simp [blank], by simp [blank], by simp [blank]⟩ }

/-- `init` on blank devices opens an empty store, whatever fails meanwhile. -/
theorem init_blank (h : Geometry cfg size journalSize) (hsize : ∀ t, (dev t).size = size t)
    (hjournal : journalSize =
      if cfg.journalSize > size .FAST then size .FAST / 2 else cfg.journalSize)
    (hblank : BlankStart (dev .FAST)) :
    ∃ s, init cfg dev (fun t => create (size t) cfg.blockSize (mem t)) = some s ∧
      Stored (avlView cfg.blockSize size) s (fun _ => none) 0 (startFree size journalSize) := by
  obtain ⟨hj, -, d', hrecover⟩ := hblank.fresh.recover journalSize
  generalize hcreate : Journal.create journalSize (dev .FAST) = created at hj hrecover
  obtain ⟨j, d⟩ := created
  dsimp only at hj hrecover
  subst hj
  refine ⟨(blank cfg (Function.update (Function.update dev .FAST d) .FAST d')
    (startAlloc cfg size mem journalSize) { devSize := journalSize }).checkpoint, ?_, ?_⟩
  · have hfound : ∀ al : Tier → AvlAllocator,
        (blank cfg (Function.update dev .FAST d) al { devSize := journalSize }).journal.recover
          ((blank cfg (Function.update dev .FAST d) al { devSize := journalSize }).dev .FAST) =
            (some [], { devSize := journalSize }, d') := by
      intro al
      show ({ devSize := journalSize } : Journal).recover (Function.update dev .FAST d .FAST) = _
      rw [Function.update_self, hrecover]
    unfold init
    dsimp only
    rw [hsize, ← hjournal, hcreate]
    dsimp only
    rw [hfound]
    rfl
  · have hstored := h.stored_blank mem
      (Function.update (Function.update dev .FAST d) .FAST d')
    refine hstored.checkpoint fun _ => ?_
    have hlen : (Journal.checkpointBytes (blank cfg
        (Function.update (Function.update dev .FAST d) .FAST d')
        (startAlloc cfg size mem journalSize) { devSize := journalSize }).buildCheckpointState).length
          ≤ kTxnAlignment := by
      show (Journal.checkpointBytes []).length ≤ kTxnAlignment
      decide +kernel
    rw [Journal.paddedSize_of_le hlen]
    show kTxnAlignment ≤ ({ devSize := journalSize } : Journal).dataSize
    rw [Journal.dataSize_eq]
    have := h.journal.2
    dsimp only
    omega

end Start

/-- Two devices of 64 KiB, the first 16 KiB of FAST for the journal. -/
def tinyConfig : BtierConfig := { extentSize := 16384, journalSize := 16384 }

/-- The call that fails is the one that stores the second value. -/
def tinyDevices : Tier → BlockDevice := fun _ =>
  { content := fun _ => 0, size := 65536, faults := List.replicate 20 false ++ [true] }

def tinyStore : Option (Engine AvlAllocator) :=
  init tinyConfig tinyDevices fun _ => create 65536 tinyConfig.blockSize 0

/-- Storing, reading, replacing and deleting a value, and rounds of freeing. -/
def tinyRequests : List Request :=
  [.put [1] [7, 7] 0, .get [1] 0, .put [1] [8] 0, .del [1], .recycle, .recycle, .recycle, .get [1] 0]

theorem tinyConfig_geometry : Geometry tinyConfig (fun _ => 65536) 16384 := by
  refine ⟨⟨by decide, by decide, by decide⟩, fun _ => ⟨by decide, by decide⟩,
    ⟨by decide, by decide⟩, by decide⟩

end Clab.Btier.Engine
