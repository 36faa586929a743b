import Clab.Blk.DeviceProtocol

/-!
# The accounting of asynchronous I/O

Every operation of a context that was spliced and not released is in one place:
not submitted yet, in the hands of the device, dropped, refused, or completed.
`num_running` counts all of them but the completed ones, so `aio_wait` returns
only when everything was transferred in full.
-/

namespace Clab.Blk.Protocol

open Clab.Interleaving

variable {s s' : Device} {t u : Nat} {c : IOContext}

namespace Device

@[simp] theorem withCtx_ctx_self (s : Device) (t : Nat) (c : IOContext) :
    (s.withCtx t c).ctx t = c :=
  Function.update_self ..

@[simp] theorem withCtx_ctx_of_ne (s : Device) (c : IOContext) (h : u ≠ t) :
    (s.withCtx t c).ctx u = s.ctx u :=
  Function.update_of_ne h ..

@[simp] theorem acknowledge_ctx (s : Device) (a : Aio) : (s.acknowledge a).ctx = s.ctx := by
  unfold acknowledge
  split <;> rfl

@[simp] theorem acknowledge_kernel (s : Device) (a : Aio) :
    (s.acknowledge a).kernel = s.kernel := by
  unfold acknowledge
  split <;> rfl

@[simp] theorem acknowledge_events (s : Device) (a : Aio) :
    (s.acknowledge a).events = s.events := by
  unfold acknowledge
  split <;> rfl

theorem acked_subset_acknowledge (s : Device) (a : Aio) : s.acked ⊆ (s.acknowledge a).acked := by
  unfold acknowledge
  split
  · exact List.subset_append_left _ _
  · exact List.Subset.refl _

theorem mem_acknowledge (s : Device) {a : Aio} (h : a.write) :
    (a.offset, a.bl) ∈ (s.acknowledge a).acked := by
  simp [acknowledge, h]

/-- What the device has of the operations of context `t`. -/
def flight (s : Device) (t : Nat) : List Aio := s.inFlight.filter fun a => a.priv = t

end Device

/-! ## The books of a context -/

/-- Where the operations of a context are that were spliced and not released. -/
def IOContext.places (c : IOContext) (flight : List Aio) : List Aio :=
  c.unsubmitted ++ c.dropped ++ c.refused ++ c.completed ++ flight

/-- The books of context `t`, when the device has the operations `flight` of it and the
completion thread is about to call its callback or not. -/
structure Books (t : Nat) (flight : List Aio) (acked : List (Nat × List UInt8)) (calling : Nat)
    (c : IOContext) : Prop where
  owner : ∀ a ∈ c.pendingAios ++ c.runningAios, a.priv = t
  counted : c.numRunning + c.completed.length + c.uncounted = c.runningAios.length
  late : c.uncounted ≤ c.unsubmitted.length
  placed : (c.places flight).Perm c.runningAios
  acked : ∀ a ∈ c.completed, a.write → (a.offset, a.bl) ∈ acked
  reported : c.refused ≠ [] → c.r < 0
  fires : c.fired + calling ≤ c.batches
  open_batch : 0 < c.numRunning → c.fired + calling < c.batches

namespace Books

variable {flight flight' : List Aio} {acked acked' : List (Nat × List UInt8)} {calling : Nat}
  {a : Aio}

/-- `num_running`, by where the operations are. -/
theorem numRunning_eq (h : Books t flight acked calling c) :
    c.numRunning + c.uncounted =
      c.unsubmitted.length + c.dropped.length + c.refused.length + flight.length := by
  have hlength := h.placed.length_eq
  have hcounted := h.counted
  simp only [IOContext.places, List.length_append] at hlength
  omega

/-- What the device has of a context is counted. -/
theorem busy (h : Books t flight acked calling c) (ha : a ∈ flight) : 0 < c.numRunning := by
  have heq := h.numRunning_eq
  have hlate := h.late
  have hpos := List.length_pos_of_mem ha
  omega

theorem numRunning_nonneg (h : Books t flight acked calling c) : 0 ≤ c.numRunning := by
  have heq := h.numRunning_eq
  have hlate := h.late
  omega

theorem owned (h : Books t flight acked calling c) (ha : a ∈ c.places flight) : a.priv = t :=
  h.owner a (List.mem_append_right _ (h.placed.subset ha))

theorem flight_perm (h : Books t flight acked calling c) (hperm : flight'.Perm flight) :
    Books t flight' acked calling c :=
  { h with placed := (hperm.append_left _).trans h.placed }

theorem acked_mono (h : Books t flight acked calling c) (hsub : acked ⊆ acked') :
    Books t flight acked' calling c :=
  { h with acked := fun a ha hw => hsub (h.acked a ha hw) }

theorem called (h : Books t flight acked 1 c) :
    Books t flight acked 0 { c with fired := c.fired + 1 } :=
  { h with fires := h.fires, open_batch := h.open_batch }

theorem queue (h : Books t flight acked calling c) (ha : a.priv = t) :
    Books t flight acked calling (c.queue a) := by
  refine { h with owner := fun b hb => ?_ }
  have hb : b ∈ c.pendingAios ++ [a] ++ c.runningAios := hb
  rw [List.mem_append, List.mem_append, List.mem_singleton] at hb
  rcases hb with (hp | rfl) | hr
  · exact h.owner b (List.mem_append_left _ hp)
  · exact ha
  · exact h.owner b (List.mem_append_right _ hr)

theorem splice (h : Books t flight acked calling c) (hnone : c.unsubmitted = [])
    (hzero : c.uncounted = 0) : Books t flight acked calling c.splice := by
  have hcounted := h.counted
  refine { h with
    owner := h.owner
    counted := ?_
    late := le_refl _
    placed := ?_ }
  · simp only [IOContext.splice, List.length_append]
    push_cast
    omega
  · have hplaced := h.placed
    simp only [IOContext.places, hnone, List.nil_append] at hplaced
    simp only [IOContext.places, IOContext.splice, List.append_assoc] at hplaced ⊢
    exact hplaced.append_left _

theorem count {num : Nat} (h : Books t flight acked calling c) (hnum : c.uncounted = num) :
    Books t flight acked calling (c.count num) := by
  have hcounted := h.counted
  have hfires := h.fires
  refine { h with
    counted := ?_
    late := Nat.zero_le _
    fires := Nat.le_succ_of_le hfires
    open_batch := fun _ => Nat.lt_succ_of_le hfires }
  simp only [IOContext.count]
  omega

theorem accept {xs ys : List Aio} (h : Books t flight acked calling c)
    (hsplit : c.unsubmitted = xs ++ ys) (hzero : c.uncounted = 0) :
    Books t (flight ++ xs) acked calling { c with unsubmitted := ys } := by
  refine { h with late := hzero ▸ Nat.zero_le _, placed := ?_ }
  refine List.Perm.trans ?_ h.placed
  simp only [IOContext.places, hsplit]
  rw [List.perm_iff_count]
  intro b
  simp only [List.count_append]
  omega

theorem giveUp (h : Books t flight acked calling c) (hzero : c.uncounted = 0) :
    Books t flight acked calling c.giveUp := by
  refine { h with late := hzero ▸ Nat.zero_le _, placed := ?_ }
  refine List.Perm.trans ?_ h.placed
  simp only [IOContext.places, IOContext.giveUp]
  rw [List.perm_iff_count]
  intro b
  simp only [List.count_append, List.count_nil]
  omega

theorem returned {r : Int} (h : Books t flight acked calling c) :
    Books t flight acked calling (c.returned r) := by
  unfold IOContext.returned
  split
  · rename_i hr
    exact { h with reported := fun _ => hr }
  · exact h

theorem refused_neg : -eio < 0 := by decide

theorem refuse (h : Books t (a :: flight) acked calling c) :
    Books t flight acked calling (c.refuse a) := by
  refine { h with placed := ?_, reported := fun _ => refused_neg }
  refine List.Perm.trans ?_ h.placed
  simp only [IOContext.places, IOContext.refuse]
  rw [List.perm_iff_count]
  intro b
  simp only [List.count_append, List.count_cons, List.count_nil]
  omega

theorem complete (h : Books t (a :: flight) acked 0 c)
    (hacked : a.write → (a.offset, a.bl) ∈ acked) (hcalling : calling ≤ 1)
    (hlast : calling = 1 → c.numRunning = 1) :
    Books t flight acked calling (c.complete a) := by
  have hcounted := h.counted
  have hopen := h.open_batch (h.busy List.mem_cons_self)
  refine { h with
    counted := ?_
    placed := ?_
    acked := ?_
    fires := by simp only [IOContext.complete]; omega
    open_batch := fun hpos => ?_ }
  · simp only [IOContext.complete, List.length_append, List.length_singleton]
    push_cast
    omega
  · refine List.Perm.trans ?_ h.placed
    simp only [IOContext.places, IOContext.complete]
    rw [List.perm_iff_count]
    intro b
    simp only [List.count_append, List.count_cons, List.count_nil]
    omega
  · intro b hb hw
    rcases List.mem_append.mp hb with hold | hnew
    · exact h.acked b hold hw
    · obtain rfl := List.mem_singleton.mp hnew
      exact hacked hw
  · simp only [IOContext.complete] at hpos ⊢
    have := mt hlast
    omega

/-- When nothing is counted, everything was transferred in full. -/
theorem all_completed (h : Books t flight acked calling c) (hzero : c.numRunning = 0)
    (hcounted : c.uncounted = 0) :
    c.completed.Perm c.runningAios ∧ c.unsubmitted = [] ∧ c.dropped = [] ∧ c.refused = [] ∧
      flight = [] := by
  have heq := h.numRunning_eq
  have hu : c.unsubmitted = [] := List.eq_nil_of_length_eq_zero (by omega)
  have hd : c.dropped = [] := List.eq_nil_of_length_eq_zero (by omega)
  have hr : c.refused = [] := List.eq_nil_of_length_eq_zero (by omega)
  have hf : flight = [] := List.eq_nil_of_length_eq_zero (by omega)
  refine ⟨?_, hu, hd, hr, hf⟩
  have hplaced := h.placed
  simpa [IOContext.places, hu, hd, hr, hf] using hplaced

theorem release (h : Books t flight acked calling c) (hzero : c.numRunning = 0)
    (hcounted : c.uncounted = 0) : Books t flight acked calling c.release := by
  obtain ⟨-, hu, hd, hr, hf⟩ := h.all_completed hzero hcounted
  refine { h with
    owner := fun b hb => ?_
    counted := by simp [IOContext.release, hzero, hcounted]
    placed := by simp [IOContext.release, IOContext.places, hu, hd, hr, hf]
    acked := by simp [IOContext.release] }
  refine h.owner b (List.mem_append_left _ ?_)
  simpa [IOContext.release] using hb

end Books

/-! ## The books of a device -/

namespace Device

/-- The call of the callback of context `t` that is on its way. -/
def called (s : Device) (t : Nat) : Nat := if s.reaper = .calling t then 1 else 0

theorem called_le (s : Device) (t : Nat) : s.called t ≤ 1 := by
  unfold called
  split <;> omega

theorem called_eq_zero (h : s.reaper ≠ .calling t) : s.called t = 0 := if_neg h

abbrev BooksOf (s : Device) (t : Nat) : Prop :=
  Books t (s.flight t) s.acked (s.called t) (s.ctx t)

/-- The books of all contexts, and what the completion thread holds. -/
structure Booked (s : Device) : Prop where
  books : ∀ t, s.BooksOf t
  /-- A thread sleeps while there is something to wait for. -/
  awake : ∀ t, (s.ctx t).callback = false → (s.ctx t).sleeping →
    0 < (s.ctx t).numRunning ∨ s.reaper = .notifying t
  reaping : s.reaper = .reaping → s.batch = []
  subtracting : s.reaper = .subtracting → ∃ a rest, s.batch = (a, (a.length : Int)) :: rest ∧
    (s.ctx a.priv).lock = some .reaper ∧ (s.ctx a.priv).callback = false
  locked : ∀ u, s.reaper = .notifying u ∨ s.reaper = .unlocking u →
    (s.ctx u).lock = some .reaper

/-! ### What the device has -/

theorem flight_append (s : Device) (t : Nat) : s.flight t =
    s.kernel.filter (fun a => a.priv = t) ++ (s.events.map Prod.fst).filter (fun a => a.priv = t) ++
      (s.batch.map Prod.fst).filter (fun a => a.priv = t) := by
  simp [flight, inFlight]

/-- The head of the batch, for its own context and the others. -/
theorem flight_batch (s' : Device) {a : Aio} {res : Int} {rest : List (Aio × Int)}
    (hbatch : s.batch = (a, res) :: rest) (hkernel : s'.kernel = s.kernel)
    (hevents : s'.events = s.events) (hrest : s'.batch = rest) :
    (s.flight a.priv).Perm (a :: s'.flight a.priv) ∧
      ∀ u, u ≠ a.priv → s.flight u = s'.flight u := by
  refine ⟨?_, fun u hu => ?_⟩
  · simp only [flight_append, hbatch, hkernel, hevents, hrest, List.map_cons]
    rw [List.filter_cons_of_pos (by simp)]
    exact List.perm_middle
  · simp only [flight_append, hbatch, hkernel, hevents, hrest, List.map_cons]
    rw [List.filter_cons_of_neg (by simpa using fun h => hu h.symm)]

theorem flight_congr (hkernel : s'.kernel = s.kernel) (hevents : s'.events = s.events)
    (hbatch : s'.batch = s.batch) (t : Nat) : s'.flight t = s.flight t := by
  simp only [flight_append, hkernel, hevents, hbatch]

theorem called_congr (hreaper : s'.reaper = s.reaper) (t : Nat) : s'.called t = s.called t := by
  simp only [called, hreaper]

/-- A device with the same operations in its hands has the books of a context that was
not touched. -/
theorem BooksOf.congr (h : s.BooksOf t) (hctx : s'.ctx t = s.ctx t)
    (hflight : (s'.flight t).Perm (s.flight t)) (hacked : s.acked ⊆ s'.acked)
    (hcalled : s'.called t = s.called t) : s'.BooksOf t := by
  show Books t (s'.flight t) s'.acked (s'.called t) (s'.ctx t)
  rw [hctx, hcalled]
  exact (h.flight_perm hflight).acked_mono hacked

end Device

namespace Device.Booked

/-- The books after a step that touches no context. -/
theorem books_of (h : s.Booked) (hctx : s'.ctx = s.ctx)
    (hflight : ∀ u, (s'.flight u).Perm (s.flight u)) (hacked : s.acked ⊆ s'.acked)
    (hcalled : ∀ u, s'.called u = s.called u) (u : Nat) : s'.BooksOf u :=
  (h.books u).congr (by rw [hctx]) (hflight u) hacked (hcalled u)

/-- The books after a step on context `t`. -/
theorem books_update (h : s.Booked) (hctx : s'.ctx = Function.update s.ctx t c)
    (hflight : ∀ u, u ≠ t → (s'.flight u).Perm (s.flight u)) (hacked : s.acked ⊆ s'.acked)
    (hcalled : ∀ u, u ≠ t → s'.called u = s.called u)
    (hown : Books t (s'.flight t) s'.acked (s'.called t) c) (u : Nat) : s'.BooksOf u := by
  by_cases hu : u = t
  · subst hu
    show Books u _ _ _ (s'.ctx u)
    rw [hctx, Function.update_self]
    exact hown
  · refine (h.books u).congr ?_ (hflight u hu) hacked (hcalled u hu)
    rw [hctx, Function.update_of_ne hu]

/-- Nobody sleeps for nothing after a step that touches no context. -/
theorem awake_of (h : s.Booked) (hctx : s'.ctx = s.ctx)
    (hreaper : ∀ u, s.reaper = .notifying u → s'.reaper = .notifying u) (u : Nat)
    (hmode : (s'.ctx u).callback = false) (hsleeping : (s'.ctx u).sleeping) :
    0 < (s'.ctx u).numRunning ∨ s'.reaper = .notifying u := by
  rw [hctx] at hmode hsleeping ⊢
  exact (h.awake u hmode hsleeping).imp_right (hreaper u)

/-- Nobody sleeps for nothing after a step on context `t`. -/
theorem awake_update (h : s.Booked) (hctx : s'.ctx = Function.update s.ctx t c)
    (hreaper : ∀ u, u ≠ t → s.reaper = .notifying u → s'.reaper = .notifying u)
    (hown : c.callback = false → c.sleeping → 0 < c.numRunning ∨ s'.reaper = .notifying t)
    (u : Nat) (hmode : (s'.ctx u).callback = false) (hsleeping : (s'.ctx u).sleeping) :
    0 < (s'.ctx u).numRunning ∨ s'.reaper = .notifying u := by
  by_cases hu : u = t
  · subst hu
    rw [hctx, Function.update_self] at hmode hsleeping ⊢
    exact hown hmode hsleeping
  · rw [hctx, Function.update_of_ne hu] at hmode hsleeping ⊢
    exact (h.awake u hmode hsleeping).imp_right (hreaper u hu)

end Device.Booked

/-! ## The completion thread and the kernel -/

open Device

/-- The completion of the head of the batch, booked. -/
theorem Device.Booked.complete (h : s.Booked) {a : Aio} {rest : List (Aio × Int)} {res : Int}
    (hbatch : s.batch = (a, res) :: rest) (hbefore : ∀ u, s.reaper ≠ .calling u)
    (hctx : s'.ctx = Function.update s.ctx a.priv ((s.ctx a.priv).complete a))
    (hkernel : s'.kernel = s.kernel) (hevents : s'.events = s.events) (hrest : s'.batch = rest)
    (hacked : s'.acked = (s.acknowledge a).acked)
    (hnext : ∀ u, s'.reaper = .calling u → u = a.priv ∧ (s.ctx a.priv).numRunning = 1) :
    ∀ u, s'.BooksOf u := by
  obtain ⟨hown, hother⟩ := flight_batch s' hbatch hkernel hevents hrest
  have hmono : s.acked ⊆ s'.acked := by
    rw [hacked]
    exact acked_subset_acknowledge s a
  refine h.books_update hctx (fun u hu => by rw [hother u hu]) hmono (fun u hu => ?_) ?_
  · rw [called_eq_zero (hbefore u), called_eq_zero]
    intro hcall
    exact hu (hnext u hcall).1
  · have hbook := h.books a.priv
    rw [BooksOf, called_eq_zero (hbefore _)] at hbook
    refine ((hbook.flight_perm hown.symm).acked_mono hmono).complete (fun hw => ?_)
      (called_le _ _) fun hone => ?_
    · rw [hacked]
      exact mem_acknowledge s hw
    · refine (hnext a.priv ?_).2
      by_contra hne
      rw [called_eq_zero hne] at hone
      exact absurd hone (by simp)

theorem acknowledge_acked (s : Device) (a : Aio) (c : Nat → IOContext) (b : List (Aio × Int))
    (p : Reaper) : ({ Device.acknowledge { s with ctx := c } a with
      batch := b, reaper := p } : Device).acked = (s.acknowledge a).acked := by
  unfold acknowledge
  split <;> rfl

theorem Reap.booked (hstep : Reap s s') (h : s.Booked) : s'.Booked := by
  cases hstep with
  | @getEvents evs rest hpos hevents hle =>
      have hempty := h.reaping hpos
      refine ⟨h.books_of rfl (fun u => ?_) (List.Subset.refl _) fun u => by simp [called, hpos],
        h.awake_of rfl fun u hnot => by simp [hpos] at hnot, by simp, by simp, by simp⟩
      simp only [flight_append, hevents, hempty, List.map_nil, List.filter_nil, List.append_nil,
        List.map_append, List.filter_append, List.append_assoc]
      exact (List.perm_append_comm).append_left _
  | getEventsFail hpos herr =>
      exact ⟨h.books_of rfl (fun u => .refl _) (List.Subset.refl _) fun u => by simp [called, hpos],
        h.awake_of rfl fun u hnot => by simp [hpos] at hnot, by simp, by simp, by simp⟩
  | next hpos hempty =>
      exact ⟨h.books_of rfl (fun u => .refl _) (List.Subset.refl _) fun u => by simp [called, hpos],
        h.awake_of rfl fun u hnot => by simp [hpos] at hnot, fun _ => hempty, by simp, by simp⟩
  | touch hpos hne =>
      exact ⟨h.books_of rfl (fun u => .refl _) (List.Subset.refl _) fun u => by simp [called, hpos],
        h.awake_of rfl fun u hnot => by simp [hpos] at hnot, by simp, by simp, by simp⟩
  | @refuse a res rest hpos hbatch hbad =>
      obtain ⟨hown, hother⟩ := flight_batch { s.withCtx a.priv ((s.ctx a.priv).refuse a) with
        batch := rest, reaper := .handling } hbatch rfl rfl rfl
      refine ⟨h.books_update rfl (fun u hu => by rw [hother u hu]) (List.Subset.refl _)
        (fun u hu => by simp [called, hpos]) ?_,
        h.awake_update rfl (fun u hu hnot => by simp [hpos] at hnot) fun hmode hsleeping => ?_,
        by simp, by simp, by simp⟩
      · have hbook := h.books a.priv
        rw [BooksOf, called_eq_zero (by simp [hpos])] at hbook
        rw [called_eq_zero (by simp)]
        exact (hbook.flight_perm hown.symm).refuse
      · refine .inl ((h.awake a.priv hmode hsleeping).resolve_right ?_)
        simp [hpos]
  | @callback a rest hpos hbatch hmode =>
      refine ⟨h.complete hbatch (by simp [hpos]) (by simp [withCtx]) (by simp [withCtx])
        (by simp [withCtx]) rfl (acknowledge_acked ..) fun u hu => ?_,
        h.awake_update (t := a.priv) (c := (s.ctx a.priv).complete a) (by simp [withCtx])
          (fun u hu hnot => by simp [hpos] at hnot) fun humode => ?_, ?_, ?_, ?_⟩
      · dsimp only at hu
        split at hu
        · rename_i hone
          injection hu with hu
          exact ⟨hu.symm, hone⟩
        · cases hu
      · simp [IOContext.complete, hmode] at humode
      · intro hreap
        dsimp only at hreap
        split at hreap <;> cases hreap
      · intro hreap
        dsimp only at hreap
        split at hreap <;> cases hreap
      · intro u hreap
        dsimp only at hreap
        split at hreap <;> simp at hreap
  | @call u hpos =>
      refine ⟨h.books_update rfl (fun w hw => .refl _) (List.Subset.refl _) (fun w hw => ?_) ?_,
        h.awake_update rfl (fun w hw hnot => by simp [hpos] at hnot) fun hmode hsleeping => ?_,
        by simp, by simp, by simp⟩
      · rw [called_eq_zero (by simp), called_eq_zero (by simpa [hpos] using fun heq => hw heq.symm)]
      · have hbook := h.books u
        rw [BooksOf, show s.called u = 1 by simp [called, hpos]] at hbook
        rw [called_eq_zero (by simp)]
        exact hbook.called
      · refine .inl ((h.awake u hmode hsleeping).resolve_right ?_)
        simp [hpos]
  | @lock a rest hpos hbatch hmode hnone =>
      refine ⟨h.books_update rfl (fun w hw => .refl _) (List.Subset.refl _)
        (fun w hw => by simp [called, hpos]) ?_,
        h.awake_update rfl (fun w hw hnot => by simp [hpos] at hnot) fun hm hsleeping => ?_,
        by simp, fun _ => ⟨a, rest, hbatch, by simp, by simpa using hmode⟩, by simp⟩
      · have hbook := h.books a.priv
        rw [BooksOf, called_eq_zero (by simp [hpos])] at hbook
        rw [called_eq_zero (by simp)]
        exact { hbook with }
      · refine .inl ((h.awake a.priv hmode hsleeping).resolve_right ?_)
        simp [hpos]
  | @subtract a res rest hpos hbatch =>
      obtain ⟨a', rest', hbatch', hlock, hmode⟩ := h.subtracting hpos
      rw [hbatch] at hbatch'
      obtain ⟨⟨rfl, rfl⟩, rfl⟩ : (a = a' ∧ res = a'.length) ∧ rest = rest' := by
        simpa using hbatch'
      have hbusy : 0 < (s.ctx a.priv).numRunning :=
        (h.books a.priv).busy ((flight_batch { s with batch := rest } hbatch rfl rfl
          rfl).1.symm.subset List.mem_cons_self)
      refine ⟨h.complete hbatch (by simp [hpos]) (by simp [withCtx]) (by simp [withCtx])
        (by simp [withCtx]) rfl (acknowledge_acked ..) fun u hu => ?_,
        h.awake_update (t := a.priv) (c := (s.ctx a.priv).complete a) (by simp [withCtx])
          (fun u hu hnot => by simp [hpos] at hnot) fun hm hsleeping => ?_, ?_, ?_, ?_⟩
      · dsimp only at hu
        split at hu <;> cases hu
      · by_cases hone : (s.ctx a.priv).numRunning = 1
        · exact .inr (if_pos hone)
        · left
          simp only [IOContext.complete]
          omega
      · intro hreap
        dsimp only at hreap
        split at hreap <;> cases hreap
      · intro hreap
        dsimp only at hreap
        split at hreap <;> cases hreap
      · intro u hreap
        have hu : u = a.priv := by
          dsimp only at hreap
          split at hreap <;> simpa [eq_comm] using hreap
        subst hu
        simpa [withCtx, IOContext.complete] using hlock
  | @notify u hpos =>
      refine ⟨h.books_update rfl (fun w hw => .refl _) (List.Subset.refl _)
        (fun w hw => by simp [called, hpos]) ?_,
        h.awake_update rfl (fun w hw hnot => ?_) fun hm hsleeping => by simp at hsleeping,
        by simp, by simp, fun w hw => ?_⟩
      · have hbook := h.books u
        rw [BooksOf, called_eq_zero (by simp [hpos])] at hbook
        rw [called_eq_zero (by simp)]
        exact { hbook with }
      · rw [hpos] at hnot
        injection hnot with hnot
        exact absurd hnot.symm hw
      · obtain rfl : u = w := by simpa using hw
        simpa using h.locked u (.inl hpos)
  | @unlock u hpos =>
      refine ⟨h.books_update rfl (fun w hw => .refl _) (List.Subset.refl _)
        (fun w hw => by simp [called, hpos]) ?_,
        h.awake_update rfl (fun w hw hnot => by simp [hpos] at hnot) fun hm hsleeping => ?_,
        by simp, by simp, by simp⟩
      · have hbook := h.books u
        rw [BooksOf, called_eq_zero (by simp [hpos])] at hbook
        rw [called_eq_zero (by simp)]
        exact { hbook with }
      · refine .inl ((h.awake u hm hsleeping).resolve_right ?_)
        simp [hpos]

theorem Kernel.booked (hstep : Kernel s s') (h : s.Booked) : s'.Booked := by
  cases hstep with
  | @finish a xs ys res n hkernel hres hn =>
      refine ⟨h.books_of rfl (fun u => ?_) (List.Subset.refl _) fun u => rfl,
        h.awake_of rfl fun u => id, h.reaping, h.subtracting, h.locked⟩
      simp only [flight_append, hkernel, List.map_append, List.filter_append, List.map_cons,
        List.map_nil]
      rw [List.perm_iff_count]
      intro b
      simp only [List.filter_cons, List.filter_nil]
      split <;> simp only [List.count_append, List.count_cons, List.count_nil] <;> omega
  | keep hlt =>
      exact ⟨h.books_of rfl (fun u => .refl _) (List.Subset.refl _) fun u => rfl,
        h.awake_of rfl fun u => id, h.reaping, h.subtracting, h.locked⟩

/-! ## The client threads -/

namespace IOContext

variable {r : Int}

@[simp] theorem returned_lock (c : IOContext) : (c.returned r).lock = c.lock := by
  unfold returned
  split <;> rfl

@[simp] theorem returned_callback (c : IOContext) : (c.returned r).callback = c.callback := by
  unfold returned
  split <;> rfl

@[simp] theorem returned_sleeping (c : IOContext) : (c.returned r).sleeping = c.sleeping := by
  unfold returned
  split <;> rfl

@[simp] theorem returned_numRunning (c : IOContext) :
    (c.returned r).numRunning = c.numRunning := by
  unfold returned
  split <;> rfl

end IOContext

/-- Outside `aio_submit`: the batch is submitted or given up. -/
structure IOContext.Quiet (c : IOContext) : Prop where
  uncounted : c.uncounted = 0
  unsubmitted : c.unsubmitted = []
  pending : c.numPending = c.pendingAios.length

/-- What a thread knows at its place. -/
def Knows (t : Nat) (s : Device) : Pc → Prop
  | .device => True
  | .loaded num => (s.ctx t).Quiet ∧ num = (s.ctx t).pendingAios.length
  | .spliced num => (s.ctx t).uncounted = num ∧ (s.ctx t).pendingAios = []
  | .counted => (s.ctx t).uncounted = 0 ∧ (s.ctx t).pendingAios = []
  | .submitting _ _ => (s.ctx t).uncounted = 0 ∧ (s.ctx t).pendingAios = [] ∧
      (s.ctx t).numPending = 0
  | .checking => (s.ctx t).Quiet ∧ (s.ctx t).lock = some .client
  | .dozing => (s.ctx t).Quiet ∧ (s.ctx t).lock = some .client ∧
      ((s.ctx t).callback = false → 0 < (s.ctx t).numRunning)
  | .waited => (s.ctx t).Quiet ∧ (s.ctx t).numRunning = 0
  | _ => (s.ctx t).Quiet

/-- Another context, and what the device has of its operations, stay as they are. -/
theorem Client.other {p p' : Pc} (h : Client t s p s' p') (hs : s.Booked) (hu : u ≠ t) :
    s'.ctx u = s.ctx u ∧ (s'.flight u).Perm (s.flight u) := by
  cases h with
  | @accept attempts r xs ys hne hsplit =>
      refine ⟨by simp [withCtx, hu], ?_⟩
      have hnone : xs.filter (fun a => a.priv = u) = [] := by
        rw [List.filter_eq_nil_iff]
        intro a ha
        have hown : a.priv = t := (hs.books t).owned (by
          simp only [IOContext.places, hsplit, List.mem_append]
          exact .inl (.inl (.inl (.inl (.inl ha)))))
        simpa [hown] using fun heq => hu heq.symm
      simp only [flight_append, withCtx, List.filter_append, hnone, List.append_nil]
      exact .refl _
  | _ => exact ⟨by simp [withCtx, touch, hu], .refl _⟩

theorem Client.reaper {p p' : Pc} (h : Client t s p s' p') :
    s'.reaper = s.reaper ∧ s'.batch = s.batch ∧ s.acked ⊆ s'.acked := by
  cases h with
  | writeReturn => exact ⟨rfl, rfl, List.subset_append_left _ _⟩
  | _ => exact ⟨rfl, rfl, List.Subset.refl _⟩

/-- The thread's own books. -/
theorem Client.own {p p' : Pc} (h : Client t s p s' p') (hs : s.Booked) (hknows : Knows t s p) :
    Books t (s'.flight t) s'.acked (s.called t) (s'.ctx t) := by
  have hbook := hs.books t
  cases h with
  | aioRead hvalid | aioWrite hvalid =>
      rw [withCtx_ctx_self]
      exact hbook.queue rfl
  | splice =>
      rw [withCtx_ctx_self]
      exact hbook.splice hknows.1.unsubmitted hknows.1.uncounted
  | count =>
      rw [withCtx_ctx_self]
      exact hbook.count hknows.1
  | @accept attempts r xs ys hne hsplit =>
      show Books t _ s.acked _ ((s.withCtx t _).ctx t)
      rw [withCtx_ctx_self]
      refine (hbook.accept hsplit hknows.1).flight_perm ?_
      have hown : xs.filter (fun a => a.priv = t) = xs := by
        rw [List.filter_eq_self]
        intro a ha
        simpa using hbook.owned (by
          simp only [IOContext.places, hsplit, List.mem_append]
          exact .inl (.inl (.inl (.inl (.inl ha)))))
      simp only [flight_append, withCtx, List.filter_append, hown]
      rw [List.perm_iff_count]
      intro b
      simp only [List.count_append]
      omega
  | giveUp hne herr hagain =>
      rw [withCtx_ctx_self]
      exact hbook.giveUp hknows.1
  | submitReturn =>
      rw [withCtx_ctx_self]
      exact hbook.returned
  | release hzero =>
      rw [withCtx_ctx_self]
      exact hbook.release hzero hknows.uncounted
  | clear | lock | sleep | wake | waitReturn =>
      rw [withCtx_ctx_self]
      exact { hbook with }
  | writeReturn => exact hbook.acked_mono (List.subset_append_left _ _)
  | _ => exact hbook

/-- A client neither takes a lock from the completion thread nor changes the mode. -/
theorem Client.lock_reaper {p p' : Pc} (h : Client t s p s' p') (hs : s.Booked)
    (hknows : Knows t s p) (hlock : (s.ctx u).lock = some .reaper) :
    (s'.ctx u).lock = some .reaper := by
  by_cases hu : u = t
  · subst hu
    cases h with
    | lock hnone =>
        rw [hlock] at hnone
        cases hnone
    | sleep =>
        rw [hknows.2.1] at hlock
        cases hlock
    | waitReturn =>
        rw [hknows.2] at hlock
        cases hlock
    | submitReturn => simpa using hlock
    | accept => simpa [withCtx] using hlock
    | aioRead | aioWrite | splice | count | clear | giveUp | wake | release =>
        rw [withCtx_ctx_self]
        exact hlock
    | _ => exact hlock
  · rw [(h.other hs hu).1]
    exact hlock

theorem Client.callback {p p' : Pc} (h : Client t s p s' p') (hs : s.Booked) (u : Nat) :
    (s'.ctx u).callback = (s.ctx u).callback := by
  by_cases hu : u = t
  · subst hu
    cases h with
    | submitReturn => simp
    | accept | aioRead | aioWrite | splice | count | clear | giveUp | wake | release | lock
      | sleep | waitReturn => simp [withCtx, IOContext.queue, IOContext.splice, IOContext.count,
          IOContext.giveUp, IOContext.release]
    | _ => rfl
  · rw [(h.other hs hu).1]

/-- A thread goes to sleep only while its operations are counted. -/
theorem Client.awake {p p' : Pc} (h : Client t s p s' p') (hs : s.Booked) (hknows : Knows t s p)
    (hmode : (s.ctx t).callback = false) (hsleeping : (s'.ctx t).sleeping) :
    0 < (s'.ctx t).numRunning ∨ s.reaper = .notifying t := by
  have hawake := hs.awake t hmode
  cases h with
  | sleep =>
      rw [withCtx_ctx_self]
      exact .inl (hknows.2.2 hmode)
  | wake =>
      rw [withCtx_ctx_self] at hsleeping
      cases hsleeping
  | count =>
      rw [withCtx_ctx_self] at hsleeping ⊢
      refine (hawake hsleeping).imp_left fun hpos => ?_
      simp only [IOContext.count]
      omega
  | submitReturn =>
      simp only [withCtx_ctx_self, IOContext.returned_sleeping, IOContext.returned_numRunning]
        at hsleeping ⊢
      exact hawake hsleeping
  | accept =>
      simp only [withCtx, Function.update_self] at hsleeping ⊢
      exact hawake hsleeping
  | aioRead | aioWrite | splice | clear | giveUp | release | lock | waitReturn =>
      rw [withCtx_ctx_self] at hsleeping ⊢
      exact hawake hsleeping
  | _ => exact hawake hsleeping

theorem Client.booked {p p' : Pc} (h : Client t s p s' p') (hs : s.Booked)
    (hknows : Knows t s p) : s'.Booked := by
  obtain ⟨hreaper, hbatch, hacked⟩ := h.reaper
  have hcalled : ∀ u, s'.called u = s.called u := called_congr hreaper
  refine ⟨fun u => ?_, fun u hmode hsleeping => ?_, fun hr => ?_, fun hr => ?_, fun u hr => ?_⟩
  · by_cases hu : u = t
    · subst hu
      show Books u _ _ (s'.called u) _
      rw [hcalled]
      exact h.own hs hknows
    · obtain ⟨hctx, hflight⟩ := h.other hs hu
      exact (hs.books u).congr hctx hflight hacked (hcalled u)
  · rw [hreaper]
    by_cases hu : u = t
    · subst hu
      rw [h.callback hs] at hmode
      exact h.awake hs hknows hmode hsleeping
    · rw [(h.other hs hu).1] at hmode hsleeping ⊢
      exact hs.awake u hmode hsleeping
  · rw [hbatch]
    exact hs.reaping (hreaper ▸ hr)
  · obtain ⟨a, rest, hhead, hlock, hmode⟩ := hs.subtracting (hreaper ▸ hr)
    refine ⟨a, rest, hbatch.trans hhead, h.lock_reaper hs hknows hlock, ?_⟩
    rw [h.callback hs]
    exact hmode
  · rw [hreaper] at hr
    exact h.lock_reaper hs hknows (hs.locked u hr)

/-- What a thread knows after its own step. -/
theorem Client.knows {p p' : Pc} (h : Client t s p s' p') (hs : s.Booked) (hknows : Knows t s p) :
    Knows t s' p' := by
  cases h with
  | aioRead hvalid | aioWrite hvalid =>
      show ((s.withCtx t _).ctx t).Quiet
      rw [withCtx_ctx_self]
      refine ⟨hknows.uncounted, hknows.unsubmitted, ?_⟩
      simp [IOContext.queue, hknows.pending]
  | load hnum hne =>
      refine ⟨hknows, ?_⟩
      have hpending := hknows.pending
      omega
  | splice =>
      refine ⟨?_, ?_⟩
      · rw [withCtx_ctx_self]
        exact hknows.2.symm
      · rw [withCtx_ctx_self]
        rfl
  | count =>
      refine ⟨?_, ?_⟩
      · rw [withCtx_ctx_self]
        rfl
      · rw [withCtx_ctx_self]
        exact hknows.2
  | clear =>
      refine ⟨?_, ?_, ?_⟩ <;> rw [withCtx_ctx_self]
      · exact hknows.1
      · exact hknows.2
  | accept =>
      refine ⟨?_, ?_, ?_⟩ <;> simp only [withCtx, Function.update_self]
      · exact hknows.1
      · exact hknows.2.1
      · exact hknows.2.2
  | again => exact hknows
  | giveUp =>
      show ((s.withCtx t _).ctx t).Quiet
      rw [withCtx_ctx_self]
      refine ⟨hknows.1, rfl, ?_⟩
      simp [IOContext.giveUp, hknows.2.1, hknows.2.2]
  | allSubmitted hnone =>
      refine ⟨hknows.1, hnone, ?_⟩
      simp [hknows.2.1, hknows.2.2]
  | submitReturn =>
      show ((s.withCtx t _).ctx t).Quiet
      rw [withCtx_ctx_self, IOContext.returned]
      split
      · exact ⟨hknows.uncounted, hknows.unsubmitted, hknows.pending⟩
      · exact hknows
  | lock =>
      refine ⟨?_, ?_⟩ <;> rw [withCtx_ctx_self]
      exact ⟨hknows.uncounted, hknows.unsubmitted, hknows.pending⟩
  | busy hpos => exact ⟨hknows.1, hknows.2, fun _ => hpos⟩
  | sleep =>
      show ((s.withCtx t _).ctx t).Quiet
      rw [withCtx_ctx_self]
      exact ⟨hknows.1.uncounted, hknows.1.unsubmitted, hknows.1.pending⟩
  | wake =>
      show ((s.withCtx t _).ctx t).Quiet
      rw [withCtx_ctx_self]
      exact ⟨hknows.uncounted, hknows.unsubmitted, hknows.pending⟩
  | waitReturn hle =>
      have hnonneg := (hs.books t).numRunning_nonneg
      refine ⟨?_, ?_⟩ <;> rw [withCtx_ctx_self]
      · exact ⟨hknows.1.uncounted, hknows.1.unsubmitted, hknows.1.pending⟩
      · show (s.ctx t).numRunning = 0
        omega
  | release hzero =>
      show ((s.withCtx t _).ctx t).Quiet
      rw [withCtx_ctx_self]
      exact ⟨hknows.uncounted, hknows.unsubmitted, hknows.pending⟩
  | goOn => exact hknows.1
  | _ => exact hknows

/-! ## What a thread relies on -/

/-- What the other threads leave alone of a context. -/
structure IOContext.Kept (c c' : IOContext) : Prop where
  uncounted : c'.uncounted = c.uncounted
  unsubmitted : c'.unsubmitted = c.unsubmitted
  pendingAios : c'.pendingAios = c.pendingAios
  numPending : c'.numPending = c.numPending
  callback : c'.callback = c.callback
  locked : c.lock = some .client → c'.lock = some .client
  /-- In wait mode the count is lowered under the lock. -/
  counted : c.lock = some .client → c.callback = false → c'.numRunning = c.numRunning
  idle : c.numRunning = 0 → c'.numRunning = 0

theorem IOContext.Kept.refl (c : IOContext) : c.Kept c :=
  ⟨rfl, rfl, rfl, rfl, rfl, id, fun _ _ => rfl, id⟩

theorem IOContext.Kept.quiet {c c' : IOContext} (h : c.Kept c') (hq : c.Quiet) : c'.Quiet := by
  refine ⟨h.uncounted.trans hq.uncounted, h.unsubmitted.trans hq.unsubmitted, ?_⟩
  rw [h.numPending, h.pendingAios]
  exact hq.pending

theorem Knows.stable {p : Pc} (hkept : (s.ctx t).Kept (s'.ctx t)) (h : Knows t s p) :
    Knows t s' p := by
  cases p with
  | device => trivial
  | loaded num =>
      refine ⟨hkept.quiet h.1, ?_⟩
      rw [hkept.pendingAios]
      exact h.2
  | spliced num => exact ⟨hkept.uncounted.trans h.1, hkept.pendingAios.trans h.2⟩
  | counted => exact ⟨hkept.uncounted.trans h.1, hkept.pendingAios.trans h.2⟩
  | submitting attempts r =>
      exact ⟨hkept.uncounted.trans h.1, hkept.pendingAios.trans h.2.1,
        hkept.numPending.trans h.2.2⟩
  | checking => exact ⟨hkept.quiet h.1, hkept.locked h.2⟩
  | dozing =>
      refine ⟨hkept.quiet h.1, hkept.locked h.2.1, fun hmode => ?_⟩
      rw [hkept.callback] at hmode
      rw [hkept.counted h.2.1 hmode]
      exact h.2.2 hmode
  | waited => exact ⟨hkept.quiet h.1, hkept.idle h.2⟩
  | _ => exact hkept.quiet h

/-- An operation of the batch is counted. -/
theorem Device.Booked.batch_busy (h : s.Booked) {a : Aio} {res : Int} {rest : List (Aio × Int)}
    (hbatch : s.batch = (a, res) :: rest) : 0 < (s.ctx a.priv).numRunning :=
  (h.books a.priv).busy ((flight_batch { s with batch := rest } hbatch rfl rfl
    rfl).1.symm.subset List.mem_cons_self)

theorem kept_update (hctx : s'.ctx = Function.update s.ctx u c)
    (hown : (s.ctx u).Kept c) (t : Nat) : (s.ctx t).Kept (s'.ctx t) := by
  rw [hctx]
  by_cases hu : t = u
  · subst hu
    rw [Function.update_self]
    exact hown
  · rw [Function.update_of_ne hu]
    exact .refl _

theorem Reap.kept (hstep : Reap s s') (h : s.Booked) (t : Nat) :
    (s.ctx t).Kept (s'.ctx t) := by
  cases hstep with
  | getEvents | getEventsFail | next | touch => exact .refl _
  | @refuse a res rest hpos hbatch hbad =>
      refine kept_update rfl ?_ t
      exact ⟨rfl, rfl, rfl, rfl, rfl, id, fun _ _ => rfl, id⟩
  | @callback a rest hpos hbatch hmode =>
      have hbusy := h.batch_busy hbatch
      refine kept_update (u := a.priv) (c := (s.ctx a.priv).complete a) (by simp [withCtx])
        ⟨rfl, rfl, rfl, rfl, rfl, id, fun _ hwait => ?_, fun hzero => ?_⟩ t
      · rw [hmode] at hwait
        cases hwait
      · omega
  | @call u hpos =>
      refine kept_update rfl ?_ t
      exact ⟨rfl, rfl, rfl, rfl, rfl, id, fun _ _ => rfl, id⟩
  | @lock a rest hpos hbatch hmode hnone =>
      refine kept_update rfl ?_ t
      refine ⟨rfl, rfl, rfl, rfl, rfl, fun hlock => ?_, fun _ _ => rfl, id⟩
      rw [hnone] at hlock
      cases hlock
  | @subtract a res rest hpos hbatch =>
      have hbusy := h.batch_busy hbatch
      obtain ⟨a', rest', hbatch', hlock, hmode⟩ := h.subtracting hpos
      rw [hbatch] at hbatch'
      obtain ⟨⟨rfl, rfl⟩, rfl⟩ : (a = a' ∧ res = a'.length) ∧ rest = rest' := by
        simpa using hbatch'
      refine kept_update (u := a.priv) (c := (s.ctx a.priv).complete a) (by simp [withCtx])
        ⟨rfl, rfl, rfl, rfl, rfl, id, fun hclient => ?_, fun hzero => ?_⟩ t
      · rw [hlock] at hclient
        cases hclient
      · omega
  | @notify u hpos =>
      refine kept_update rfl ?_ t
      exact ⟨rfl, rfl, rfl, rfl, rfl, id, fun _ _ => rfl, id⟩
  | @unlock u hpos =>
      have hlock := h.locked u (.inr hpos)
      refine kept_update rfl ?_ t
      refine ⟨rfl, rfl, rfl, rfl, rfl, fun hclient => ?_, fun _ _ => rfl, id⟩
      rw [hlock] at hclient
      cases hclient

/-! ## Runs -/

/-- The books are right and every thread knows what it needs. -/
abbrev Accounted : System → Prop := Holds Device.Booked Knows

theorem Opened.accounted {c : System} (h : Opened c) : Accounted c := by
  obtain ⟨⟨size, blockSize, callback, hshared⟩, hthreads⟩ := h
  refine ⟨?_, fun t => ?_⟩
  · rw [hshared]
    refine ⟨fun t => ⟨?_, rfl, le_refl _, ?_, ?_, ?_, ?_, ?_⟩, ?_, fun _ => rfl, ?_, ?_⟩
    · simp
    · simp [IOContext.places, flight, inFlight]
    · simp
    · simp
    · simp [called]
    · simp
    · simp
    · simp
    · simp
  · rcases hthreads t with hpc | hpc
    · rw [hpc, hshared]
      exact ⟨rfl, rfl, rfl⟩
    · rw [hpc]
      trivial

theorem Accounted.step {c c' : System} {t : Nat} (h : Accounted c) (hstep : Stepped c t c') :
    Accounted c' := by
  obtain ⟨hact⟩ := hstep
  refine h.act (fun u s q s' (hkept : (s.ctx u).Kept (s'.ctx u)) hq => hq.stable hkept) ?_
    fun u hu => ?_
  · cases hact with
    | client hsane hclient =>
        exact ⟨hclient.booked h.shared (h.threads t), hclient.knows h.shared (h.threads t)⟩
    | reap hsane hp hp' hreap =>
        subst hp'
        exact ⟨hreap.booked h.shared, trivial⟩
    | kernel hsane hp hp' hkernel =>
        subst hp'
        exact ⟨hkernel.booked h.shared, trivial⟩
  · cases hact with
    | client hsane hclient =>
        rw [(hclient.other h.shared hu).1]
        exact .refl _
    | reap hsane hp hp' hreap => exact hreap.kept h.shared u
    | kernel hsane hp hp' hkernel =>
        cases hkernel <;> exact .refl _

theorem Opened.run {c₀ c : System} (h : Opened c₀) (hrun : Run Stepped c₀ c) : Accounted c :=
  hrun.keeps (P := Accounted) (fun _ _ _ => Accounted.step) h.accounted

/-! ## Failures stay -/

/-- An operation of the context has failed or was never submitted. -/
def IOContext.Spoilt (c : IOContext) : Prop := c.dropped ≠ [] ∨ c.refused ≠ []

theorem IOContext.Spoilt.mono {c c' : IOContext} (h : c.Spoilt)
    (hdropped : c.dropped ⊆ c'.dropped) (hrefused : c.refused ⊆ c'.refused) : c'.Spoilt := by
  rcases h with h | h
  · exact .inl fun hnil => h (List.eq_nil_of_subset_nil (hnil ▸ hdropped))
  · exact .inr fun hnil => h (List.eq_nil_of_subset_nil (hnil ▸ hrefused))

/-- No step takes an operation back from the dropped and the refused ones. -/
theorem Client.spoilt {p p' : Pc} (h : Client t s p s' p') (hs : s.Booked)
    (hspoilt : (s.ctx u).Spoilt) : (s'.ctx u).Spoilt := by
  by_cases hu : u = t
  · subst hu
    cases h with
    | giveUp =>
        rw [withCtx_ctx_self]
        exact hspoilt.mono (List.subset_append_left _ _) (List.Subset.refl _)
    | submitReturn =>
        rw [withCtx_ctx_self, IOContext.returned]
        split <;> exact hspoilt
    | accept =>
        simp only [withCtx, Function.update_self]
        exact hspoilt
    | aioRead | aioWrite | splice | count | clear | lock | sleep | wake | waitReturn | release =>
        rw [withCtx_ctx_self]
        exact hspoilt
    | _ => exact hspoilt
  · rw [(h.other hs hu).1]
    exact hspoilt

theorem spoilt_update {v : Nat} (hctx : s'.ctx = Function.update s.ctx v c)
    (hown : (s.ctx v).Spoilt → c.Spoilt) (hspoilt : (s.ctx u).Spoilt) : (s'.ctx u).Spoilt := by
  rw [hctx]
  by_cases hu : u = v
  · subst hu
    rw [Function.update_self]
    exact hown hspoilt
  · rw [Function.update_of_ne hu]
    exact hspoilt

theorem Reap.spoilt (h : Reap s s') (hspoilt : (s.ctx u).Spoilt) : (s'.ctx u).Spoilt := by
  cases h with
  | getEvents | getEventsFail | next | touch => exact hspoilt
  | refuse =>
      refine spoilt_update rfl (fun hown => ?_) hspoilt
      exact hown.mono (List.Subset.refl _) (List.subset_append_left _ _)
  | @callback a rest hpos hbatch hmode =>
      exact spoilt_update (v := a.priv) (c := (s.ctx a.priv).complete a) (by simp [withCtx]) id
        hspoilt
  | @subtract a res rest hpos hbatch =>
      exact spoilt_update (v := a.priv) (c := (s.ctx a.priv).complete a) (by simp [withCtx]) id
        hspoilt
  | call | lock | notify | unlock =>
      refine spoilt_update rfl ?_ hspoilt
      exact id

theorem Accounted.spoilt {c c' : System} (h : Accounted c) (hrun : Run Stepped c c')
    (hspoilt : (c.shared.ctx u).Spoilt) : (c'.shared.ctx u).Spoilt := by
  refine (hrun.keeps (P := fun d => Accounted d ∧ (d.shared.ctx u).Spoilt)
    (fun d v d' hd hstep => ⟨hd.1.step hstep, ?_⟩) ⟨h, hspoilt⟩).2
  obtain ⟨hbooked, hd⟩ := hd
  obtain ⟨hact⟩ := hstep
  cases hact with
  | client hsane hclient => exact hclient.spoilt hbooked.shared hd
  | reap hsane hp hp' hreap => exact hreap.spoilt hd
  | kernel hsane hp hp' hkernel =>
      cases hkernel <;> exact hd

/-- What the accounting gives the thread of context `t`. -/
structure AioSafe (c : System) (t : Nat) : Prop where
  /-- The count is of the operations that were not transferred in full. -/
  counted : (c.shared.ctx t).numRunning + (c.shared.ctx t).uncounted =
    (c.shared.ctx t).unsubmitted.length + (c.shared.ctx t).dropped.length +
      (c.shared.ctx t).refused.length + (c.shared.flight t).length
  /-- Nothing is lost or booked twice. -/
  placed : ((c.shared.ctx t).places (c.shared.flight t)).Perm (c.shared.ctx t).runningAios
  /-- `aio_wait` returns when every transfer was made in full. -/
  waited : c.pc t = .waited →
    (c.shared.ctx t).completed.Perm (c.shared.ctx t).runningAios ∧ c.shared.flight t = [] ∧
      ∀ a ∈ (c.shared.ctx t).runningAios, a.write → (a.offset, a.bl) ∈ c.shared.acked
  /-- It does not return any more once a transfer failed or was not submitted. -/
  hangs : (c.shared.ctx t).Spoilt → ∀ c', Run Stepped c c' → c'.pc t ≠ .waited
  /-- In wait mode no wakeup is lost. -/
  asleep : c.pc t = .asleep → (c.shared.ctx t).callback = false → (c.shared.ctx t).sleeping →
    c.shared.reaper = .notifying t ∨ c.shared.flight t ≠ [] ∨ (c.shared.ctx t).Spoilt
  /-- `release_running_aios` frees nothing that the device still has. -/
  released : (c.shared.ctx t).numRunning = 0 → c.shared.flight t = []
  reported : (c.shared.ctx t).refused ≠ [] → (c.shared.ctx t).r < 0
  /-- The callback is called at most once for a batch. -/
  fires : (c.shared.ctx t).fired ≤ (c.shared.ctx t).batches

/-- What a thread that has waited knows. -/
theorem Accounted.waited {c : System} (h : Accounted c) (hpc : c.pc t = .waited) :
    (c.shared.ctx t).Quiet ∧ (c.shared.ctx t).numRunning = 0 := by
  have hknows := h.threads t
  rwa [hpc] at hknows

theorem Accounted.asleep {c : System} (h : Accounted c) (hpc : c.pc t = .asleep) :
    (c.shared.ctx t).Quiet := by
  have hknows := h.threads t
  rwa [hpc] at hknows

theorem Accounted.unspoilt {c : System} (h : Accounted c) (hpc : c.pc t = .waited) :
    ¬ (c.shared.ctx t).Spoilt := by
  obtain ⟨hquiet, hzero⟩ := h.waited hpc
  obtain ⟨-, -, hdropped, hrefused, -⟩ :=
    (h.shared.books t).all_completed hzero hquiet.uncounted
  simp [IOContext.Spoilt, hdropped, hrefused]

theorem Accounted.safe {c : System} (h : Accounted c) (t : Nat) : AioSafe c t := by
  have hbook := h.shared.books t
  have hcount := hbook.numRunning_eq
  have hlate := hbook.late
  constructor
  case counted => exact hcount
  case placed => exact hbook.placed
  case waited =>
    intro hpc
    obtain ⟨hquiet, hzero⟩ := h.waited hpc
    obtain ⟨hperm, -, -, -, hflight⟩ := hbook.all_completed hzero hquiet.uncounted
    exact ⟨hperm, hflight, fun a ha hw => hbook.acked a (hperm.symm.subset ha) hw⟩
  case hangs =>
    intro hspoilt c' hrun hpc
    have hlater : Accounted c' := hrun.keeps (P := Accounted) (fun _ _ _ => Accounted.step) h
    exact hlater.unspoilt hpc (h.spoilt hrun hspoilt)
  case asleep =>
    intro hpc hmode hsleeping
    obtain ⟨hzero, hnone, -⟩ := h.asleep hpc
    rcases h.shared.awake t hmode hsleeping with hpos | hnot
    · right
      by_contra hidle
      simp only [IOContext.Spoilt, not_or, not_not] at hidle
      obtain ⟨hflight, hdropped, hrefused⟩ := hidle
      simp only [hflight, hdropped, hrefused, hnone, List.length_nil] at hcount
      omega
    · exact .inl hnot
  case released =>
    intro hzero
    exact List.eq_nil_of_length_eq_zero (by omega)
  case reported => exact hbook.reported
  case fires => exact Nat.le_of_add_right_le hbook.fires

/-- **The accounting of asynchronous I/O is safe** in every state of every run. -/
theorem aio_safe {c₀ c : System} (hopen : Opened c₀) (hrun : Run Stepped c₀ c) (t : Nat) :
    AioSafe c t :=
  (hopen.run hrun).safe t

/-- A step of client `t` from where it stands. -/
theorem clientStep {c : System} {p p' : Pc} (hpc : c.pc t = p)
    (hsane : ∀ n, c.shared.reaper ≠ .astray n) (h : Client t c.shared p s p') :
    Stepped c t (c.act t s p') :=
  Step.of_pc hpc (.client hsane h)

theorem reapStep {c : System} (hpc : c.pc t = .device)
    (hsane : ∀ n, c.shared.reaper ≠ .astray n) (h : Reap c.shared s) :
    Stepped c t (c.act t s .device) :=
  Step.of_pc hpc (.reap hsane rfl rfl h)

theorem kernelStep {c : System} (hpc : c.pc t = .device)
    (hsane : ∀ n, c.shared.reaper ≠ .astray n) (h : Kernel c.shared s) :
    Stepped c t (c.act t s .device) :=
  Step.of_pc hpc (.kernel hsane rfl rfl h)

/-- Thread 1 stands for the completion thread and the kernel. -/
def opened : System where
  shared := { size := 8192, blockSize := 4096, ctx := fun _ => {} }
  pc t := if t = 1 then .device else .idle

theorem opened_opened : Opened opened := by
  refine ⟨⟨8192, 4096, fun _ => false, rfl⟩, fun t => ?_⟩
  by_cases ht : t = 1
  · exact .inr (if_pos ht)
  · exact .inl (if_neg ht)

/-- The write of nothing that thread 0 queues. -/
def emptyWrite : Aio := ⟨0, true, 0, [], 0⟩

/-- Thread 0 writes, waits asleep, is woken, and has waited. -/
theorem waited_run : ∃ c, Run Stepped opened c ∧ c.pc 0 = .waited ∧ c.pc 1 = .device ∧
    c.shared.reaper = .reaping ∧ c.shared.acked = [(0, [])] ∧ c.shared.ioSinceFlush = true ∧
    c.shared.flushMutex = none ∧ c.shared.syncFailed = false := by
  have hsubmitted := (Run.refl opened : Run Stepped opened opened)
    |>.snoc 0 (clientStep rfl nofun (@Client.aioWrite 0 _ 0 [] (by decide)))
    |>.snoc 0 (clientStep rfl nofun (@Client.load 0 _ 1 rfl (by decide)))
    |>.snoc 0 (clientStep rfl nofun .splice)
    |>.snoc 0 (clientStep rfl nofun .count)
    |>.snoc 0 (clientStep rfl nofun .clear)
    |>.snoc 0 (clientStep rfl nofun (@Client.accept 0 _ 16 0 [emptyWrite] [] nofun rfl))
    |>.snoc 0 (clientStep rfl nofun (.allSubmitted rfl))
    |>.snoc 0 (clientStep rfl nofun .submitReturn)
  have hasleep := hsubmitted
    |>.snoc 0 (clientStep rfl nofun .wait)
    |>.snoc 0 (clientStep rfl nofun (.lock rfl))
    |>.snoc 0 (clientStep rfl nofun (.busy (by decide)))
    |>.snoc 0 (clientStep rfl nofun .sleep)
  have hnotified := hasleep
    |>.snoc 1 (kernelStep rfl nofun (@Kernel.finish _ emptyWrite [] [] 0 0 rfl (by decide)
      fun _ => rfl))
    |>.snoc 1 (reapStep rfl nofun (@Reap.getEvents _ [(emptyWrite, 0)] [] rfl rfl (by decide)))
    |>.snoc 1 (reapStep rfl nofun (.touch rfl nofun))
    |>.snoc 1 (reapStep rfl nofun (@Reap.lock _ emptyWrite [] rfl rfl rfl rfl))
    |>.snoc 1 (reapStep rfl nofun (@Reap.subtract _ emptyWrite 0 [] rfl rfl))
    |>.snoc 1 (reapStep rfl nofun (.notify rfl))
    |>.snoc 1 (reapStep rfl nofun (.unlock rfl))
    |>.snoc 1 (reapStep rfl nofun (.next rfl rfl))
  have hwaited := hnotified
    |>.snoc 0 (clientStep rfl nofun .wake)
    |>.snoc 0 (clientStep rfl nofun (.lock rfl))
    |>.snoc 0 (clientStep rfl nofun (.waitReturn (by decide)))
  exact ⟨_, hwaited, rfl, rfl, rfl, rfl, rfl, rfl, rfl⟩

/-- The thread that has waited, and its write. -/
theorem aio_safe_waited : ∃ c, Run Stepped opened c ∧ c.pc 0 = .waited ∧ AioSafe c 0 := by
  obtain ⟨c, hrun, hpc, -⟩ := waited_run
  exact ⟨c, hrun, hpc, aio_safe opened_opened hrun 0⟩

end Clab.Blk.Protocol
