import Clab.Blk.AioAccounting

/-!
# What a flush makes durable

`flush` clears `io_since_flush_` before `fdatasync`, and a flush that finds it
cleared returns at once. As long as no `fdatasync` fails, a flush that returns 0
has made every write durable that was acknowledged when it was called, also when
another thread did the work: the mutex keeps it waiting until that one is done.
-/

namespace Clab.Blk.Protocol

open Clab.Interleaving

variable {s s' : Device} {t u : Nat}

/-! ## Pieces -/

/-- The pieces that were written for `bl` at `off`, one behind the other. -/
inductive Covers (written : List (Nat × List UInt8)) : List Nat → Nat → List UInt8 → Prop
  | nil (off : Nat) : Covers written [] off []
  | cons {i off : Nat} {piece rest : List UInt8} {pieces : List Nat} :
      written[i]? = some (off, piece) → Covers written pieces (off + piece.length) rest →
      Covers written (i :: pieces) off (piece ++ rest)

namespace Covers

variable {written written' : List (Nat × List UInt8)} {pieces : List Nat} {off i : Nat}
  {bl piece : List UInt8}

theorem mono (h : Covers written pieces off bl) (hgrown : written <+: written') :
    Covers written' pieces off bl := by
  induction h with
  | nil off => exact .nil off
  | cons hi _ ih =>
      refine .cons ?_ ih
      obtain ⟨more, rfl⟩ := hgrown
      rw [List.getElem?_append_left (List.getElem?_eq_some_iff.mp hi).1]
      exact hi

/-- One more piece behind the others. -/
theorem snoc (h : Covers written pieces off bl) (hi : written[i]? = some (off + bl.length, piece)) :
    Covers written (pieces ++ [i]) off (bl ++ piece) := by
  induction h with
  | nil off =>
      have hlast : Covers written [i] off (piece ++ []) := .cons (by simpa using hi) (.nil _)
      simpa using hlast
  | cons hj _ ih =>
      rw [List.cons_append, List.append_assoc]
      refine .cons hj (ih ?_)
      rw [hi]
      simp [Nat.add_assoc]

theorem lt (h : Covers written pieces off bl) : ∀ i ∈ pieces, i < written.length := by
  induction h with
  | nil off => simp
  | cons hi _ ih =>
      intro j hj
      rcases List.mem_cons.mp hj with rfl | hj
      · exact (List.getElem?_eq_some_iff.mp hi).1
      · exact ih j hj

end Covers

/-- A write whose pieces are among the first `n`. -/
def Below (written : List (Nat × List UInt8)) (n : Nat) (w : Nat × List UInt8) : Prop :=
  ∃ pieces, Covers written pieces w.1 w.2 ∧ ∀ i ∈ pieces, i < n

theorem Below.mono {written written' : List (Nat × List UInt8)} {n n' : Nat}
    {w : Nat × List UInt8} (h : Below written n w) (hgrown : written <+: written')
    (hle : n ≤ n') : Below written' n' w := by
  obtain ⟨pieces, hcovers, hlt⟩ := h
  exact ⟨pieces, hcovers.mono hgrown, fun i hi => (hlt i hi).trans_le hle⟩

/-- A write is on the medium, in pieces that a crash keeps. -/
def Device.Durable (s : Device) (w : Nat × List UInt8) : Prop :=
  ∃ pieces, Covers s.written pieces w.1 w.2 ∧ ∀ i ∈ pieces, i ∈ s.durable

/-! ## The invariant -/

/-- The buffers of a write hold as much as it says. -/
def Aio.Full (a : Aio) : Prop := a.write → a.length = a.bl.length

/-- The transfer was made in full, by a piece among the first `n`. -/
def Transferred (s : Device) (n : Nat) (e : Aio × Int) : Prop :=
  e.1.write → e.2 = e.1.length → Below s.written n (e.1.offset, e.1.bl)

/-- What holds of the device between the steps. -/
structure Device.Synced (s : Device) : Prop where
  /-- With the flag cleared and no `fdatasync` under way, what was settled is durable. -/
  clean : s.syncFailed = false → s.ioSinceFlush = false → s.syncing = false →
    ∀ i < s.settled, i ∈ s.durable
  free : s.flushMutex = none → s.syncing = false
  settled : s.settled ≤ s.written.length
  acked : ∀ w ∈ s.acked, Below s.written s.settled w
  queued : ∀ t, ∀ a ∈ (s.ctx t).pendingAios ++ (s.ctx t).unsubmitted, a.Full
  kernel : ∀ a ∈ s.kernel, a.Full
  events : ∀ e ∈ s.events ++ s.batch, Transferred s s.written.length e
  /-- The completion thread sets the flag before it looks at a result. -/
  batch : s.reaper = .examining ∨ s.reaper = .subtracting →
    ∀ e ∈ s.batch, Transferred s s.settled e

/-- What a flush knows about the time it was called. -/
structure Since.Valid (since : Since) (s : Device) : Prop where
  settled : since.settled ≤ s.settled
  acked : since.acked ≤ s.acked.length
  below : ∀ w ∈ s.acked.take since.acked, Below s.written since.settled w

/-- What was settled when the flush was called is durable, unless a sync has failed. -/
def Since.Kept (since : Since) (s : Device) : Prop :=
  s.syncFailed = false → ∀ i < since.settled, i ∈ s.durable

/-- What a thread knows at its place. -/
def FlushKnows (t : Nat) (s : Device) : Pc → Prop
  | .writing off bl left pieces => ∃ done, bl = done ++ left ∧ Covers s.written pieces off done
  | .flushing since => since.Valid s
  | .casing since => since.Valid s ∧ s.flushMutex = some t ∧ s.syncing = false
  | .clearing since => since.Valid s ∧ s.flushMutex = some t
  | .syncing since start => since.Valid s ∧ s.flushMutex = some t ∧ since.settled ≤ start ∧
      start ≤ s.written.length ∧ (s.ioSinceFlush = false → s.settled ≤ start)
  | .returning since r => since.Valid s ∧ s.flushMutex = some t ∧ s.syncing = false ∧
      (r = 0 → since.Kept s)
  | .flushed since r => since.Valid s ∧ (r = 0 → since.Kept s)
  | _ => True

/-- What the other threads leave alone. -/
structure Device.Grown (t : Nat) (s s' : Device) : Prop where
  written : s.written <+: s'.written
  acked : s.acked <+: s'.acked
  settled : s.settled ≤ s'.settled
  durable : s.durable ⊆ s'.durable
  syncFailed : s'.syncFailed = false → s.syncFailed = false
  mutex : s.flushMutex = some t → s'.flushMutex = some t ∧ s'.syncing = s.syncing
  /-- Only the holder of the mutex clears the flag. -/
  flag : s.flushMutex = some t → s'.ioSinceFlush = false →
    s.ioSinceFlush = false ∧ s'.settled = s.settled

theorem Since.Valid.grown {since : Since} (h : since.Valid s) (hgrown : Device.Grown t s s') :
    since.Valid s' := by
  refine ⟨h.settled.trans hgrown.settled, h.acked.trans hgrown.acked.length_le, ?_⟩
  intro w hw
  refine (h.below w ?_).mono hgrown.written le_rfl
  obtain ⟨more, hmore⟩ := hgrown.acked
  rwa [← hmore, List.take_append_of_le_length h.acked] at hw

theorem Since.Kept.grown {since : Since} (h : since.Kept s) (hgrown : Device.Grown t s s') :
    since.Kept s' :=
  fun hok i hi => hgrown.durable (h (hgrown.syncFailed hok) i hi)

theorem FlushKnows.stable {p : Pc} (hgrown : Device.Grown t s s') (h : FlushKnows t s p) :
    FlushKnows t s' p := by
  cases p with
  | writing off bl left pieces =>
      obtain ⟨done, hsplit, hcovers⟩ := h
      exact ⟨done, hsplit, hcovers.mono hgrown.written⟩
  | flushing since => exact Since.Valid.grown h hgrown
  | casing since =>
      obtain ⟨hvalid, hmutex, hsyncing⟩ := h
      obtain ⟨hmutex', hsame⟩ := hgrown.mutex hmutex
      exact ⟨hvalid.grown hgrown, hmutex', hsame.trans hsyncing⟩
  | clearing since => exact ⟨h.1.grown hgrown, (hgrown.mutex h.2).1⟩
  | syncing since start =>
      obtain ⟨hvalid, hmutex, hle, hlen, hflag⟩ := h
      refine ⟨hvalid.grown hgrown, (hgrown.mutex hmutex).1, hle,
        hlen.trans hgrown.written.length_le, fun hclear => ?_⟩
      obtain ⟨hbefore, hsame⟩ := hgrown.flag hmutex hclear
      rw [hsame]
      exact hflag hbefore
  | returning since r =>
      obtain ⟨hvalid, hmutex, hsyncing, hkept⟩ := h
      obtain ⟨hmutex', hsame⟩ := hgrown.mutex hmutex
      exact ⟨hvalid.grown hgrown, hmutex', hsame.trans hsyncing, fun hr => (hkept hr).grown hgrown⟩
  | flushed since r => exact ⟨h.1.grown hgrown, fun hr => (h.2 hr).grown hgrown⟩
  | _ => trivial

/-! ## The steps -/

open Device

theorem Device.Grown.refl (t : Nat) (s : Device) : Device.Grown t s s :=
  ⟨List.prefix_rfl, List.prefix_rfl, le_rfl, subset_rfl, id, fun h => ⟨h, rfl⟩,
    fun _ h => ⟨h, rfl⟩⟩

/-- A step that leaves the fields alone that flushing is about. -/
theorem Device.Grown.of_eq (hwritten : s'.written = s.written) (hacked : s'.acked = s.acked)
    (hsettled : s'.settled = s.settled) (hdurable : s'.durable = s.durable)
    (hfailed : s'.syncFailed = s.syncFailed) (hmutex : s'.flushMutex = s.flushMutex)
    (hsyncing : s'.syncing = s.syncing) (hflag : s'.ioSinceFlush = s.ioSinceFlush) :
    Device.Grown t s s' := by
  refine ⟨by rw [hwritten], by rw [hacked], hsettled.ge, hdurable.ge, fun h => hfailed ▸ h,
    fun h => ⟨hmutex.trans h, hsyncing⟩, fun _ h => ⟨hflag ▸ h, hsettled⟩⟩

/-- The flag is set. -/
theorem Device.Synced.touch_grown (hs : s.Synced) : Device.Grown t s s.touch :=
  ⟨List.prefix_rfl, List.prefix_rfl, hs.settled, subset_rfl, id, fun h => ⟨h, rfl⟩,
    fun _ h => by cases h⟩

theorem Device.Grown.trans {s'' : Device} (h : Device.Grown t s s') (h' : Device.Grown t s' s'') :
    Device.Grown t s s'' := by
  refine ⟨h.written.trans h'.written, h.acked.trans h'.acked, h.settled.trans h'.settled,
    h.durable.trans h'.durable, fun hok => h.syncFailed (h'.syncFailed hok), fun hm => ?_,
    fun hm hf => ?_⟩
  · obtain ⟨hm', hsame⟩ := h.mutex hm
    obtain ⟨hm'', hsame'⟩ := h'.mutex hm'
    exact ⟨hm'', hsame'.trans hsame⟩
  · obtain ⟨hf', hsame'⟩ := h'.flag (h.mutex hm).1 hf
    obtain ⟨hf'', hsame⟩ := h.flag hm hf'
    exact ⟨hf'', hsame'.trans hsame⟩

theorem Device.withCtx_grown (s : Device) (u : Nat) (c : IOContext) :
    Device.Grown t s (s.withCtx u c) :=
  .of_eq rfl rfl rfl rfl rfl rfl rfl rfl

theorem Device.acknowledge_grown (s : Device) (a : Aio) :
    Device.Grown t s (s.acknowledge a) := by
  unfold acknowledge
  split
  · exact ⟨List.prefix_rfl, List.prefix_append _ _, le_rfl, subset_rfl, id, fun h => ⟨h, rfl⟩,
      fun _ h => ⟨h, rfl⟩⟩
  · exact .refl t s

theorem Transferred.mono {n n' : Nat} {e : Aio × Int} (h : Transferred s n e)
    (hgrown : s.written <+: s'.written) (hle : n ≤ n') : Transferred s' n' e :=
  fun hw hres => (h hw hres).mono hgrown hle

/-- What the other threads see of a client's step. -/
theorem Client.grown {p p' : Pc} (h : Client t s p s' p') (hs : s.Synced)
    (hknows : FlushKnows t s p) (hu : u ≠ t) : Device.Grown u s s' := by
  have hother : ∀ {x : Option Nat}, x = some t → x = some u → False := by
    intro x hx hx'
    exact hu (Option.some.inj (hx'.symm.trans hx))
  cases h with
  | pwritev =>
      exact ⟨List.prefix_append _ _, List.prefix_rfl, le_rfl, subset_rfl, id, fun h => ⟨h, rfl⟩,
        fun _ h => ⟨h, rfl⟩⟩
  | writeReturn =>
      exact ⟨List.prefix_rfl, List.prefix_append _ _, hs.settled, subset_rfl, id,
        fun h => ⟨h, rfl⟩, fun _ h => by cases h⟩
  | flushLock hnone =>
      refine ⟨List.prefix_rfl, List.prefix_rfl, le_rfl, subset_rfl, id, fun h => ?_,
        fun h _ => ?_⟩ <;> simp [hnone] at h
  | flushClear hflag =>
      exact ⟨List.prefix_rfl, List.prefix_rfl, le_rfl, subset_rfl, id,
        fun h => (hother hknows.2.1 h).elim, fun h _ => (hother hknows.2.1 h).elim⟩
  | syncDone =>
      exact ⟨List.prefix_rfl, List.prefix_rfl, le_rfl, Set.subset_union_left, id,
        fun h => (hother hknows.2.1 h).elim, fun h _ => (hother hknows.2.1 h).elim⟩
  | syncFail herr =>
      exact ⟨List.prefix_rfl, List.prefix_rfl, le_rfl, subset_rfl, (fun h => by cases h),
        fun h => (hother hknows.2.1 h).elim, fun h _ => (hother hknows.2.1 h).elim⟩
  | flushReturn =>
      exact ⟨List.prefix_rfl, List.prefix_rfl, le_rfl, subset_rfl, id,
        fun h => (hother hknows.2.1 h).elim, fun h _ => (hother hknows.2.1 h).elim⟩
  | _ => exact .of_eq rfl rfl rfl rfl rfl rfl rfl rfl

theorem Reap.grown (h : Reap s s') (hs : s.Synced) : Device.Grown u s s' := by
  cases h with
  | touch =>
      exact hs.touch_grown.trans (.of_eq rfl rfl rfl rfl rfl rfl rfl rfl)
  | @callback a rest =>
      refine (withCtx_grown s a.priv ((s.ctx a.priv).complete a)).trans
        ((acknowledge_grown (s.withCtx a.priv ((s.ctx a.priv).complete a)) a).trans ?_)
      exact .of_eq rfl rfl rfl rfl rfl rfl rfl rfl
  | @subtract a res rest =>
      refine (withCtx_grown s a.priv ((s.ctx a.priv).complete a)).trans
        ((acknowledge_grown (s.withCtx a.priv ((s.ctx a.priv).complete a)) a).trans ?_)
      exact .of_eq rfl rfl rfl rfl rfl rfl rfl rfl
  | _ => exact .of_eq rfl rfl rfl rfl rfl rfl rfl rfl

theorem Kernel.grown (h : Kernel s s') : Device.Grown u s s' := by
  cases h with
  | @finish a xs ys res n =>
      refine ⟨?_, List.prefix_rfl, le_rfl, subset_rfl, id, fun h => ⟨h, rfl⟩, fun _ h => ⟨h, rfl⟩⟩
      dsimp only
      split
      · exact List.prefix_append _ _
      · exact List.prefix_rfl
  | keep =>
      exact ⟨List.prefix_rfl, List.prefix_rfl, le_rfl, Set.subset_insert _ _, id,
        fun h => ⟨h, rfl⟩, fun _ h => ⟨h, rfl⟩⟩

/-- A step that changes contexts only, and queues nothing that is not full. -/
theorem Device.Synced.withCtx (hs : s.Synced) {c : IOContext}
    (hc : ∀ a ∈ c.pendingAios ++ c.unsubmitted, a.Full) : (s.withCtx t c).Synced := by
  refine { hs with queued := fun u => ?_ }
  by_cases hu : u = t
  · subst hu
    rw [withCtx_ctx_self]
    exact hc
  · rw [withCtx_ctx_of_ne _ _ hu]
    exact hs.queued u

/-- A write of the thread has reached the device. -/
theorem Device.Synced.wrote (hs : s.Synced) (w : Nat × List UInt8) :
    ({ s with written := s.written ++ [w] } : Device).Synced := by
  have hgrown : s.written <+: s.written ++ [w] := List.prefix_append _ _
  have hle := hgrown.length_le
  refine { hs with
    settled := hs.settled.trans hle
    acked := fun v hv => (hs.acked v hv).mono hgrown le_rfl
    events := fun e he => (hs.events e he).mono hgrown hle
    batch := fun hr e he => (hs.batch hr e he).mono hgrown le_rfl }

/-- The flag is set, and with it everything written so far is settled. -/
theorem Device.Synced.touch (hs : s.Synced) : s.touch.Synced := by
  refine { hs with
    clean := fun _ hflag => by cases hflag
    settled := le_rfl
    acked := fun w hw => (hs.acked w hw).mono List.prefix_rfl hs.settled
    batch := fun _ e he => hs.events e (List.mem_append_right _ he) }

theorem Device.Synced.ack (hs : s.Synced) {w : Nat × List UInt8}
    (hw : Below s.written s.settled w) :
    ({ s with acked := s.acked ++ [w] } : Device).Synced := by
  refine { hs with acked := fun v hv => ?_ }
  rcases List.mem_append.mp hv with hold | hnew
  · exact hs.acked v hold
  · rw [List.mem_singleton.mp hnew]
    exact hw

theorem Client.synced {p p' : Pc} (h : Client t s p s' p') (hs : s.Synced)
    (hknows : FlushKnows t s p) : s'.Synced := by
  have hqueued := hs.queued t
  cases h with
  | aioRead hvalid | aioWrite hvalid =>
      refine hs.withCtx fun a ha => ?_
      simp only [IOContext.queue, List.mem_append, List.mem_singleton] at ha
      rcases ha with (ha | rfl) | ha
      · exact hqueued a (List.mem_append_left _ ha)
      · simp [Aio.Full]
      · exact hqueued a (List.mem_append_right _ ha)
  | splice =>
      refine hs.withCtx fun a ha => hqueued a (List.mem_append_left _ ?_)
      simpa [IOContext.splice] using ha
  | @accept attempts r xs ys hne hsplit =>
      have hparts : ∀ a ∈ xs ++ ys, a.Full := fun a ha =>
        hqueued a (List.mem_append_right _ (hsplit ▸ ha))
      have hctx : (s.withCtx t { s.ctx t with unsubmitted := ys }).Synced := by
        refine hs.withCtx fun a ha => ?_
        rcases List.mem_append.mp ha with ha | ha
        · exact hqueued a (List.mem_append_left _ ha)
        · exact hparts a (List.mem_append_right _ ha)
      refine { hctx with kernel := fun a ha => ?_ }
      rcases List.mem_append.mp ha with ha | ha
      · exact hs.kernel a ha
      · exact hparts a (List.mem_append_left _ ha)
  | giveUp =>
      refine hs.withCtx fun a ha => hqueued a (List.mem_append_left _ ?_)
      simpa [IOContext.giveUp] using ha
  | @submitReturn r =>
      refine hs.withCtx ?_
      unfold IOContext.returned
      split <;> exact hqueued
  | count | clear | lock | sleep | wake | waitReturn | release => exact hs.withCtx hqueued
  | pwritev => exact hs.wrote _
  | @writeReturn off bl pieces =>
      obtain ⟨done, hsplit, hcovers⟩ := hknows
      refine hs.touch.ack ⟨pieces, ?_, hcovers.lt⟩
      rw [List.append_nil] at hsplit
      subst hsplit
      exact hcovers
  | flushLock => exact { hs with free := fun h => by cases h }
  | flushClear =>
      refine { hs with clean := (fun _ _ h => by cases h), free := fun h => ?_ }
      rw [hknows.2.1] at h
      cases h
  | @syncDone since start =>
      obtain ⟨-, -, -, -, hflag⟩ := hknows
      refine { hs with clean := fun _ hclear _ i hi => ?_, free := fun _ => rfl }
      exact .inr (lt_of_lt_of_le hi (hflag hclear))
  | syncFail =>
      exact { hs with clean := (fun hok => by cases hok), free := fun _ => rfl }
  | flushReturn => exact { hs with free := fun _ => hknows.2.2.1 }
  | _ => exact hs

/-- What a thread knows after its own step. -/
theorem Client.flushKnows {p p' : Pc} (h : Client t s p s' p') (hs : s.Synced)
    (hknows : FlushKnows t s p) : FlushKnows t s' p' := by
  cases h with
  | write => exact ⟨[], rfl, .nil _⟩
  | @pwritev off bl piece rest pieces =>
      obtain ⟨done, hsplit, hcovers⟩ := hknows
      refine ⟨done ++ piece, ?_, ?_⟩
      · rw [hsplit, List.append_assoc]
      · refine (hcovers.mono (List.prefix_append _ _)).snoc ?_
        rw [List.getElem?_concat_length, hsplit]
        simp
  | flush =>
      refine ⟨le_rfl, le_rfl, fun w hw => ?_⟩
      rw [List.take_length] at hw
      exact hs.acked w hw
  | flushLock hnone => exact ⟨⟨hknows.settled, hknows.acked, hknows.below⟩, rfl, hs.free hnone⟩
  | flushClean hclear =>
      obtain ⟨hvalid, hmutex, hsyncing⟩ := hknows
      refine ⟨hvalid, hmutex, hsyncing, fun _ hok i hi => ?_⟩
      exact hs.clean hok hclear hsyncing i (hi.trans_le hvalid.settled)
  | flushClear =>
      obtain ⟨hvalid, hmutex, -⟩ := hknows
      exact ⟨⟨hvalid.settled, hvalid.acked, hvalid.below⟩, hmutex⟩
  | fdatasync =>
      obtain ⟨hvalid, hmutex⟩ := hknows
      exact ⟨hvalid, hmutex, hvalid.settled.trans hs.settled, le_rfl, fun _ => hs.settled⟩
  | syncDone =>
      obtain ⟨hvalid, hmutex, hle, -, -⟩ := hknows
      refine ⟨⟨hvalid.settled, hvalid.acked, hvalid.below⟩, hmutex, rfl, fun _ _ i hi => ?_⟩
      exact .inr (lt_of_lt_of_le hi hle)
  | syncFail herr =>
      obtain ⟨hvalid, hmutex, -⟩ := hknows
      refine ⟨⟨hvalid.settled, hvalid.acked, hvalid.below⟩, hmutex, rfl, fun hr => ?_⟩
      omega
  | flushReturn =>
      obtain ⟨hvalid, -, -, hkept⟩ := hknows
      exact ⟨⟨hvalid.settled, hvalid.acked, hvalid.below⟩, hkept⟩
  | _ => trivial

/-- The completion of a full transfer is acknowledged. -/
theorem Device.Synced.acknowledge (hs : s.Synced) {a : Aio}
    (ha : Transferred s s.settled (a, a.length)) : (s.acknowledge a).Synced := by
  unfold Device.acknowledge
  split
  · rename_i hw
    exact hs.ack (ha hw rfl)
  · exact hs

/-- The head of the batch is handled, and the completion thread goes elsewhere. -/
theorem Device.Synced.handled (hs : s.Synced) {rest : List (Aio × Int)} {p : Reaper}
    (hrest : rest ⊆ s.batch) (hp : ¬ (p = .examining ∨ p = .subtracting)) :
    ({ s with batch := rest, reaper := p } : Device).Synced :=
  { hs with
    events := fun e he => by
      rcases List.mem_append.mp he with he | he
      · exact hs.events e (List.mem_append_left _ he)
      · exact hs.events e (List.mem_append_right _ (hrest he))
    batch := fun hr => absurd hr hp }

/-- A completed operation leaves the batch. -/
theorem Device.Synced.completed (hs : s.Synced) {a : Aio} {rest : List (Aio × Int)} {p : Reaper}
    (hbatch : s.batch = (a, (a.length : Int)) :: rest)
    (hpos : s.reaper = .examining ∨ s.reaper = .subtracting)
    (hp : ¬ (p = .examining ∨ p = .subtracting)) :
    ({ (s.withCtx a.priv ((s.ctx a.priv).complete a)).acknowledge a with
      batch := rest, reaper := p } : Device).Synced := by
  have hctx : (s.withCtx a.priv ((s.ctx a.priv).complete a)).Synced :=
    hs.withCtx (hs.queued a.priv)
  have hhead : Transferred s s.settled (a, a.length) :=
    hs.batch hpos _ (hbatch ▸ List.mem_cons_self)
  refine (hctx.acknowledge hhead).handled ?_ hp
  have hsame : ((s.withCtx a.priv ((s.ctx a.priv).complete a)).acknowledge a).batch = s.batch := by
    unfold Device.acknowledge
    split <;> rfl
  rw [hsame, hbatch]
  exact List.subset_cons_self _ _

theorem Reap.synced (h : Reap s s') (hs : s.Synced) (hbooked : s.Booked) : s'.Synced := by
  cases h with
  | @getEvents evs rest hpos hevents hle =>
      refine { hs with events := fun e he => hs.events e ?_, batch := by simp }
      have he : e ∈ rest ++ evs := he
      rw [hevents]
      simp only [List.mem_append] at he ⊢
      tauto
  | getEventsFail | next => exact { hs with batch := by simp }
  | touch =>
      exact { hs.touch with batch := fun _ e he => hs.events e (List.mem_append_right _ he) }
  | @refuse a res rest hpos hbatch hbad =>
      have hctx : (s.withCtx a.priv ((s.ctx a.priv).refuse a)).Synced :=
        hs.withCtx (hs.queued a.priv)
      refine hctx.handled ?_ (by simp)
      show rest ⊆ s.batch
      rw [hbatch]
      exact List.subset_cons_self _ _
  | callback hpos hbatch hmode => exact hs.completed hbatch (.inl hpos) (by split <;> simp)
  | @call u hpos =>
      have hctx : (s.withCtx u { s.ctx u with fired := (s.ctx u).fired + 1 }).Synced :=
        hs.withCtx (hs.queued u)
      exact { hctx with batch := by simp }
  | @notify u hpos =>
      have hctx : (s.withCtx u { s.ctx u with sleeping := false }).Synced :=
        hs.withCtx (hs.queued u)
      exact { hctx with batch := by simp }
  | @unlock u hpos =>
      have hctx : (s.withCtx u { s.ctx u with lock := none }).Synced := hs.withCtx (hs.queued u)
      exact { hctx with batch := by simp }
  | @lock a rest hpos hbatch hmode hnone =>
      have hctx : (s.withCtx a.priv { s.ctx a.priv with lock := some .reaper }).Synced :=
        hs.withCtx (hs.queued a.priv)
      exact { hctx with batch := fun _ => hs.batch (.inl hpos) }
  | @subtract a res rest hpos hbatch =>
      obtain ⟨a', rest', hbatch', -, -⟩ := hbooked.subtracting hpos
      rw [hbatch] at hbatch'
      obtain ⟨⟨rfl, rfl⟩, rfl⟩ : (a = a' ∧ res = a'.length) ∧ rest = rest' := by
        simpa using hbatch'
      exact hs.completed hbatch (.inr hpos) (by split <;> simp)

/-- A write that ends well leaves one piece with all its bytes. -/
theorem transferred_finish {a : Aio} {res : Int} {n : Nat} (hfull : a.Full) (hw : a.write)
    (hn : 0 ≤ res → n = res) (hs' : s'.written = s.written ++ [(a.offset, a.bl.take n)]) :
    Transferred s' s'.written.length (a, res) := by
  intro _ hres
  have hres : res = a.length := hres
  have hall : a.bl.take n = a.bl := by
    have hlen := hfull hw
    have hn := hn (by omega)
    exact List.take_of_length_le (by omega)
  rw [hs', hall]
  refine ⟨[s.written.length], ?_, by simp⟩
  have hone : Covers (s.written ++ [(a.offset, a.bl)]) [s.written.length] a.offset (a.bl ++ []) :=
    .cons (by simp) (.nil _)
  simpa using hone

theorem Kernel.synced (h : Kernel s s') (hs : s.Synced) : s'.Synced := by
  cases h with
  | @finish a xs ys res n hkernel hres hn =>
      have hfull : a.Full := hs.kernel a (by simp [hkernel])
      have hsub : ∀ b ∈ xs ++ ys, b.Full := fun b hb => hs.kernel b (by
        simp only [hkernel, List.mem_append, List.mem_cons] at hb ⊢
        tauto)
      by_cases hw : a.write
      · simp only [hw, if_true]
        have hwrote := hs.wrote (a.offset, a.bl.take n)
        refine { hwrote with kernel := hsub, events := fun e he => ?_ }
        simp only [List.mem_append, List.mem_singleton] at he
        rcases he with (he | rfl) | he
        · exact hwrote.events e (List.mem_append_left _ he)
        · exact transferred_finish (s := s) hfull hw hn rfl
        · exact hwrote.events e (List.mem_append_right _ he)
      · simp only [hw, Bool.false_eq_true, if_false]
        refine { hs with kernel := hsub, events := fun e he => ?_ }
        simp only [List.mem_append, List.mem_singleton] at he
        rcases he with (he | rfl) | he
        · exact hs.events e (List.mem_append_left _ he)
        · exact fun hwrite => absurd hwrite hw
        · exact hs.events e (List.mem_append_right _ he)
  | keep hlt =>
      exact { hs with clean := fun hok hflag hsyncing i hi =>
        Set.mem_insert_of_mem _ (hs.clean hok hflag hsyncing i hi) }

/-! ## Runs -/

abbrev Flushes : System → Prop := Holds Device.Synced FlushKnows

theorem Opened.flushes {c : System} (h : Opened c) : Flushes c := by
  obtain ⟨⟨size, blockSize, callback, hshared⟩, hthreads⟩ := h
  refine ⟨?_, fun t => ?_⟩
  · rw [hshared]
    constructor <;> simp
  · rcases hthreads t with hpc | hpc <;> rw [hpc] <;> trivial

theorem Flushes.step {c c' : System} {t : Nat} (h : Flushes c) (hbooked : c.shared.Booked)
    (hstep : Stepped c t c') : Flushes c' := by
  obtain ⟨hact⟩ := hstep
  refine h.act (fun u s q s' (hgrown : Device.Grown u s s') hq => hq.stable hgrown) ?_
    fun u hu => ?_
  · cases hact with
    | client hsane hclient =>
        exact ⟨hclient.synced h.shared (h.threads t), hclient.flushKnows h.shared (h.threads t)⟩
    | reap hsane hp hp' hreap =>
        subst hp'
        exact ⟨hreap.synced h.shared hbooked, trivial⟩
    | kernel hsane hp hp' hkernel =>
        subst hp'
        exact ⟨hkernel.synced h.shared, trivial⟩
  · cases hact with
    | client hsane hclient => exact hclient.grown h.shared (h.threads t) hu
    | reap hsane hp hp' hreap => exact hreap.grown h.shared
    | kernel hsane hp hp' hkernel => exact hkernel.grown

theorem Opened.run_flushes {c₀ c : System} (h : Opened c₀) (hrun : Run Stepped c₀ c) :
    Flushes c :=
  (hrun.keeps (P := fun d => Accounted d ∧ Flushes d)
    (fun _ _ _ hd hstep => ⟨hd.1.step hstep, hd.2.step hd.1.shared hstep⟩)
    ⟨h.accounted, h.flushes⟩).2

end Clab.Blk.Protocol
