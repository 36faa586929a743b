import Clab.Bluefs.FnodeIndex

/-!
# Deltas of an fnode

A delta holds the extents from the committed length on. The appends since the commit
either grow the last extent of that time or start new ones; the receiver appends
the grown part to the same last extent and the new ones behind it, and every merge it
tries comes out as it did at the sender.
-/

namespace Clab.Bluefs

open Segments

/-- The extent made longer by `n` bytes. -/
def Extent.grow (e : Extent) (n : Nat) : Extent := { e with length := e.length + n }

namespace Fnode

/-- What `append_extent` does to the list. -/
def push (es : List Extent) (x : Extent) : List Extent :=
  match es.getLast? with
  | some last => if merges last x then es.dropLast ++ [last.grow x.length] else es ++ [x]
  | none => es ++ [x]

theorem appendExtent_extents (f : Fnode) (x : Extent) :
    (f.appendExtent x).extents = push f.extents x := by
  unfold appendExtent push
  cases f.extents.getLast? with
  | none => rfl
  | some last =>
      dsimp only
      cases merges last x <;> rfl

theorem claimExtents_extents (f : Fnode) (xs : List Extent) :
    (f.claimExtents xs).extents = xs.foldl push f.extents := by
  unfold claimExtents
  induction xs generalizing f with
  | nil => rfl
  | cons x xs ih => rw [List.foldl_cons, List.foldl_cons, ih, appendExtent_extents]

theorem push_concat (init : List Extent) (last x : Extent) : push (init ++ [last]) x =
    if merges last x then init ++ [last.grow x.length] else init ++ [last] ++ [x] := by
  rw [push, List.getLast?_concat, List.dropLast_concat]

/-! ## The merges of the sender -/

/-- No extent of the list merges with the next. -/
def Apart (es : List Extent) : Prop := es.IsChain fun a b => merges a b = false

/-- The extents of the commit, or these with the last one grown. -/
inductive Grown : List Extent → List Extent → Prop
  | same (es : List Extent) : Grown es es
  | last (init : List Extent) (e : Extent) (n : Nat) :
      0 < n → e.length + n < 0xffffffff → Grown (init ++ [e]) (init ++ [e.grow n])

theorem merges_iff {a b : Extent} : merges a b = true ↔
    a.stop = b.offset ∧ a.bdev = b.bdev ∧ a.length + b.length < 0xffffffff := by
  simp [merges]

/-- An extent that does not merge does not do so grown either. -/
theorem merges_grow_right {a b : Extent} (h : merges a b = false) (n : Nat) :
    merges a (b.grow n) = false := by
  rw [Bool.eq_false_iff, ne_eq, merges_iff] at h ⊢
  rintro ⟨hstop, hbdev, hlimit⟩
  refine h ⟨hstop, hbdev, ?_⟩
  simp only [Extent.grow] at hlimit
  omega

/-- A list whose extents keep apart is appended as it is. -/
theorem foldl_push_apart {base es : List Extent} (h : Apart (base.getLast?.toList ++ es)) :
    es.foldl push base = base ++ es := by
  induction es generalizing base with
  | nil => simp
  | cons e es ih =>
      have hstep : push base e = base ++ [e] := by
        rcases List.eq_nil_or_concat base with rfl | ⟨init, last, rfl⟩
        · rfl
        · rw [List.concat_eq_append] at h ⊢
          rw [List.getLast?_concat] at h
          have hne : merges last e = false := (List.isChain_cons_cons.mp h).1
          rw [push_concat, if_neg (by simp [hne])]
      have hrest : Apart ((base ++ [e]).getLast?.toList ++ es) := by
        rw [List.getLast?_concat]
        exact (List.isChain_append.mp h).2.1
      rw [List.foldl_cons, hstep, ih hrest, List.append_assoc]
      rfl

/-- Appends grow the last extent of the list, and leave new ones that keep apart, each
at least as long as one appended. -/
theorem foldl_push_spec (base xs : List Extent) : ∃ base' new,
    xs.foldl push base = base' ++ new ∧ Grown base base' ∧
      Apart (base'.getLast?.toList ++ new) ∧ ∀ e ∈ new, ∃ x ∈ xs, x.length ≤ e.length := by
  induction xs using List.reverseRecOn with
  | nil =>
      refine ⟨base, [], by simp, .same base, ?_, by simp⟩
      cases base.getLast? <;> simp [Apart]
  | append_singleton xs x ih =>
      obtain ⟨base', new, hlist, hgrown, hapart, hold⟩ := ih
      have hold' : ∀ e ∈ new, ∃ y ∈ xs ++ [x], y.length ≤ e.length := by
        intro e he
        obtain ⟨y, hy, hle⟩ := hold e he
        exact ⟨y, List.mem_append_left _ hy, hle⟩
      rw [List.foldl_append, hlist, List.foldl_cons, List.foldl_nil]
      rcases List.eq_nil_or_concat new with rfl | ⟨init, last, rfl⟩
      · rw [List.append_nil]
        rcases List.eq_nil_or_concat base' with rfl | ⟨init, last, rfl⟩
        · exact ⟨[], [x], rfl, hgrown, by simp [Apart], by simp⟩
        · rw [List.concat_eq_append] at hgrown ⊢
          rw [push_concat]
          split
          case isTrue hmerge =>
            refine ⟨init ++ [last.grow x.length], [], by simp, ?_, by simp [Apart], by simp⟩
            have hfit := (merges_iff.mp hmerge).2.2
            -- an empty extent changes nothing
            rcases Nat.eq_zero_or_pos x.length with hzero | hpos
            · rwa [hzero]
            · generalize hb : init ++ [last] = b at hgrown
              cases hgrown with
              | same =>
                  rw [← hb]
                  exact .last init last x.length hpos hfit
              | last init' e n hn hlimit =>
                  obtain ⟨rfl, hlast⟩ := List.append_inj' hb rfl
                  obtain rfl : last = e.grow n := by simpa using hlast
                  have hsum : e.length + (n + x.length) < 0xffffffff := by
                    simpa [Extent.grow, Nat.add_assoc] using hfit
                  have hgrow : (e.grow n).grow x.length = e.grow (n + x.length) := by
                    simp [Extent.grow, Nat.add_assoc]
                  rw [hgrow]
                  exact .last init e (n + x.length) (by omega) hsum
          case isFalse hne =>
            refine ⟨init ++ [last], [x], rfl, hgrown, ?_, by simp⟩
            rw [List.getLast?_concat]
            simpa [Apart] using hne
      · rw [List.concat_eq_append] at hapart hold' ⊢
        rw [← List.append_assoc, push_concat]
        split
        case isTrue hmerge =>
          refine ⟨base', init ++ [last.grow x.length], by simp, hgrown, ?_, fun e he => ?_⟩
          · rw [Apart, ← List.append_assoc, List.isChain_append] at hapart ⊢
            refine ⟨hapart.1, List.isChain_singleton _, fun a ha b hb => ?_⟩
            obtain rfl : last.grow x.length = b := by simpa using hb
            exact merges_grow_right (hapart.2.2 a ha last (by simp)) _
          · rcases List.mem_append.mp he with he | he
            · exact hold' e (List.mem_append_left _ he)
            · obtain rfl := List.mem_singleton.mp he
              obtain ⟨y, hy, hle⟩ := hold' last (by simp)
              exact ⟨y, hy, hle.trans (Nat.le_add_right _ _)⟩
        case isFalse hne =>
          refine ⟨base', init ++ [last] ++ [x], by simp, hgrown, ?_, fun e he => ?_⟩
          · rw [Apart, ← List.append_assoc, List.isChain_append]
            refine ⟨hapart, List.isChain_singleton _, fun a ha b hb => ?_⟩
            rw [← List.append_assoc, List.getLast?_concat] at ha
            obtain rfl : last = a := by simpa using ha
            obtain rfl : x = b := by simpa using hb
            simpa using hne
          · rcases List.mem_append.mp he with he | he
            · exact hold' e he
            · obtain rfl := List.mem_singleton.mp he
              exact ⟨e, by simp, le_rfl⟩

/-! ## What a delta holds -/

/-- The loop of `make_delta` passes over extents that are committed. -/
theorem extentsFrom_append_le {committed pos : Nat} {es : List Extent} (rest : List Extent)
    (h : pos + total Extent.length es ≤ committed) : extentsFrom committed pos (es ++ rest) =
      extentsFrom committed (pos + total Extent.length es) rest := by
  induction es generalizing pos with
  | nil => rfl
  | cons e es ih =>
      rw [total_cons] at h ⊢
      rw [List.cons_append, extentsFrom, if_pos (by omega), ih (by omega), Nat.add_assoc]

/-- Past the committed length it takes every extent. -/
theorem extentsFrom_of_lt {committed pos : Nat} (es : List Extent) (h : committed < pos) :
    extentsFrom committed pos es = es := by
  induction es generalizing pos with
  | nil => rfl
  | cons e es ih =>
      rw [extentsFrom, if_neg (by omega), if_neg (by omega : ¬ pos < committed),
        ih (Nat.lt_add_right _ h)]
      rfl

theorem extentsFrom_length_le (committed pos : Nat) (es : List Extent) :
    (extentsFrom committed pos es).length ≤ es.length := by
  induction es generalizing pos with
  | nil => exact le_rfl
  | cons e es ih =>
      rw [extentsFrom]
      split
      · exact (ih _).trans (Nat.le_succ _)
      · exact Nat.succ_le_succ (ih _)

/-- The delta of grown extents is the part grown, and what is new. -/
theorem extentsFrom_grown {init new : List Extent} {e : Extent} {n : Nat} (hn : 0 < n) :
    extentsFrom (total Extent.length (init ++ [e])) 0 (init ++ [e.grow n] ++ new) =
      ⟨e.stop, n, e.bdev⟩ :: new := by
  have htotal : total Extent.length (init ++ [e]) = total Extent.length init + e.length := by simp
  rw [htotal, List.append_assoc, extentsFrom_append_le _ (by omega), Nat.zero_add,
    List.singleton_append, extentsFrom, if_neg (by simp only [Extent.grow]; omega),
    extentsFrom_of_lt _ (by simp only [Extent.grow]; omega)]
  -- an empty extent at the commit has grown as a whole
  rcases Nat.eq_zero_or_pos e.length with hzero | hpos
  · simp [hzero, Extent.grow, Extent.stop]
  · have hne : e.length ≠ 0 := by omega
    simp [hpos, hne, Extent.grow, Extent.stop]

theorem push_length_le (es : List Extent) (x : Extent) : (push es x).length ≤ es.length + 1 := by
  rcases List.eq_nil_or_concat es with rfl | ⟨init, last, rfl⟩
  · exact le_rfl
  · rw [List.concat_eq_append, push_concat]
    split <;> simp

theorem foldl_push_length_le (base xs : List Extent) :
    (xs.foldl push base).length ≤ base.length + xs.length := by
  induction xs generalizing base with
  | nil => exact le_rfl
  | cons x xs ih =>
      have hstep := push_length_le base x
      have hrest := ih (push base x)
      rw [List.foldl_cons, List.length_cons]
      omega

theorem Grown.length_eq {es es' : List Extent} (h : Grown es es') : es'.length = es.length := by
  cases h with
  | same => rfl
  | last => simp

/-- Grown extents end in a longer one. -/
theorem not_isPrefix_grown {init rest : List Extent} {e x : Extent} {n : Nat} (hn : 0 < n) :
    ¬ init ++ [e] ++ [x] <+: init ++ [e.grow n] ++ rest := by
  intro h
  rw [List.append_assoc, List.append_assoc, List.prefix_append_right_inj] at h
  have hlen := congrArg Extent.length (List.cons_prefix_cons.mp h).1
  simp only [Extent.grow] at hlen
  omega

/-- The receiver builds the list of the sender unless an empty extent follows the commit. -/
theorem rebuild_iff (base xs : List Extent) :
    (extentsFrom (total Extent.length base) 0 (xs.foldl push base)).foldl push base =
        xs.foldl push base ↔
      ∀ e, base ++ [e] <+: xs.foldl push base → 0 < e.length := by
  obtain ⟨base', new, hlist, hgrown, hapart, -⟩ := foldl_push_spec base xs
  rw [hlist]
  cases hgrown with
  | last init e n hn hlimit =>
      refine iff_of_true ?_ fun x hx => absurd hx (not_isPrefix_grown hn)
      have hmerge : merges e ⟨e.stop, n, e.bdev⟩ = true := merges_iff.mpr ⟨rfl, rfl, hlimit⟩
      rw [extentsFrom_grown hn, List.foldl_cons, push_concat, if_pos hmerge]
      exact foldl_push_apart hapart
  | same =>
      rw [extentsFrom_append_le _ (by omega), Nat.zero_add]
      cases new with
      | nil =>
          refine iff_of_true (by simp [extentsFrom]) fun e he => ?_
          have := he.length_le
          simp at this
      | cons e new =>
          have hnext : ∀ x, base ++ [x] <+: base ++ e :: new ↔ x = e := by
            intro x
            rw [List.prefix_append_right_inj, List.cons_prefix_cons]
            simp
          simp only [hnext, forall_eq]
          rcases Nat.eq_zero_or_pos e.length with hzero | hpos
          · refine iff_of_false (fun heq => ?_) (by omega)
            -- the empty extent is passed over, and the list stays shorter
            have hlen := congrArg List.length heq
            rw [extentsFrom, if_pos (by omega)] at hlen
            have hdelta := extentsFrom_length_le (total Extent.length base)
              (total Extent.length base + e.length) new
            have hpush := foldl_push_length_le base (extentsFrom (total Extent.length base)
              (total Extent.length base + e.length) new)
            rw [List.length_append, List.length_cons] at hlen
            omega
          · refine iff_of_true ?_ hpos
            have hall : extentsFrom (total Extent.length base) (total Extent.length base)
                (e :: new) = e :: new := by
              rw [extentsFrom, if_neg (by omega), if_neg (lt_irrefl _),
                extentsFrom_of_lt _ (by omega)]
              rfl
            rw [hall]
            exact foldl_push_apart hapart

/-- No empty extent follows the commit after two rounds of appends if none did after each. -/
theorem no_empty_trans {base xs ys : List Extent}
    (hfirst : ∀ e, base ++ [e] <+: xs.foldl push base → 0 < e.length)
    (hsecond : ∀ e, xs.foldl push base ++ [e] <+: ys.foldl push (xs.foldl push base) →
      0 < e.length) {e : Extent} (he : base ++ [e] <+: (xs ++ ys).foldl push base) :
    0 < e.length := by
  rw [List.foldl_append] at he
  obtain ⟨base', new, hlist, hgrown, -⟩ := foldl_push_spec base xs
  obtain ⟨mid', new', hlist', hgrown', -⟩ := foldl_push_spec (xs.foldl push base) ys
  have hlen : base.length ≤ (xs.foldl push base).length := by
    rw [hlist, List.length_append, hgrown.length_eq]
    exact Nat.le_add_right _ _
  generalize xs.foldl push base = mid at *
  rw [hlist'] at he hsecond
  cases hgrown' with
  | same =>
      rcases Nat.lt_or_ge base.length mid'.length with hlt | hge
      · refine hfirst e (List.prefix_of_prefix_length_le he (List.prefix_append mid' new') ?_)
        simpa using hlt
      · have hmid : mid' <+: base ++ [e] :=
          List.prefix_of_prefix_length_le (List.prefix_append mid' new') he (by simp; omega)
        have heq : mid' = base := by
          have hpre := List.prefix_of_prefix_length_le hmid (List.prefix_append base [e]) hge
          exact hpre.eq_of_length (by omega)
        refine hsecond e ?_
        rwa [heq] at he ⊢
  | last init l n hn hlimit =>
      rcases Nat.lt_or_ge base.length init.length with hlt | hge
      · have hinit : base ++ [e] <+: init := by
          refine List.prefix_of_prefix_length_le he ?_ (by simpa using hlt)
          rw [List.append_assoc]
          exact List.prefix_append init _
        exact hfirst e (hinit.trans (List.prefix_append init [l]))
      · have hsame : init <+: base := by
          refine List.prefix_of_prefix_length_le ?_ (List.prefix_append base [e]) hge
          refine List.prefix_of_prefix_length_le ?_ he (by simp; omega)
          rw [List.append_assoc]
          exact List.prefix_append init _
        obtain ⟨tail, rfl⟩ := hsame
        rw [List.append_assoc, List.append_assoc, List.prefix_append_right_inj] at he
        cases tail with
        | nil =>
            obtain rfl : e = l.grow n := by simpa using (List.cons_prefix_cons.mp he).1
            show 0 < l.length + n
            omega
        | cons t tail =>
            -- the second round would have to undo the growth of the first
            have htail : tail = [] := by
              simp only [List.length_append, List.length_cons, List.length_nil] at hlen
              exact List.eq_nil_of_length_eq_zero (by omega)
            subst htail
            obtain rfl : t = l.grow n := (List.cons_prefix_cons.mp he).1
            have hnew : new = [] := by
              have hlen' := congrArg List.length hlist
              have hgrown' := hgrown.length_eq
              simp only [List.length_append, List.length_singleton] at hlen' hgrown'
              exact List.eq_nil_of_length_eq_zero (by omega)
            rw [hnew, List.append_nil] at hlist
            rw [← hlist] at hgrown
            have hshrunk : l.length + n ≤ l.length := by
              generalize hb : init ++ [l.grow n] = b at hgrown
              generalize hm : init ++ [l] = m at hgrown
              cases hgrown with
              | same =>
                  rw [← hb] at hm
                  have heq := (List.append_inj' hm rfl).2
                  have hlen' := congrArg (fun es => (es.map Extent.length).sum) heq
                  simp [Extent.grow] at hlen'
                  omega
              | last init' e' k hk _ =>
                  have hb' := (List.append_inj' hb rfl).2
                  have hm' := (List.append_inj' hm rfl).2
                  obtain rfl : l.grow n = e' := by simpa using hb'
                  have hlen' := congrArg (fun es => (es.map Extent.length).sum) hm'
                  simp [Extent.grow] at hlen'
                  omega
            omega

/-! ## Commits and their deltas -/

/-- `_replay` of `OP_FILE_UPDATE_INC` on the fnode of the file, after its assertion. -/
def applyInc (f : Fnode) (delta : FnodeDelta) : Option Fnode :=
  if delta.offset = f.allocated then
    some ({ f with mtime := delta.mtime, size := delta.size }.claimExtents delta.extents)
  else none

/-- `_replay` of the deltas of a chain. -/
def applyChain (f : Fnode) (deltas : List FnodeDelta) : Option Fnode := deltas.foldlM applyInc f

/-- The same extents, index and counters as another fnode. -/
structure Matches (f g : Fnode) : Prop where
  extents : f.extents = g.extents
  index : f.extentsIndex = g.extentsIndex
  allocated : f.allocated = g.allocated

/-- The fnode `g` under the inode and the committed length of `f`. -/
def receive (f g : Fnode) : Fnode :=
  { g with ino := f.ino, allocatedCommitted := f.allocatedCommitted }

end Fnode

/-- What happens to an fnode between two commits: the extents appended, and its size and
modification time at the second. -/
structure Change where
  appended : List Extent
  size : Nat
  mtime : Nat

/-- Two changes without the commit between them. -/
def Change.andThen (a b : Change) : Change := ⟨a.appended ++ b.appended, b.size, b.mtime⟩

namespace Fnode

/-- The fnode after a change. -/
def change (f : Fnode) (c : Change) : Fnode :=
  { f.claimExtents c.appended with size := c.size, mtime := c.mtime }

/-- The deltas of changes with a commit after each. -/
def deltas (f : Fnode) : List Change → List FnodeDelta
  | [] => []
  | c :: cs => (f.change c).makeDelta :: deltas (f.change c).resetDelta cs

/-- A change leaves no empty extent right behind the extents there were. -/
def NoEmptyNext (f : Fnode) (c : Change) : Prop :=
  ∀ e, f.extents ++ [e] <+: (f.change c).extents → 0 < e.length

/-- None of the changes leaves an empty extent behind those of its commit. -/
def NoEmptyNexts (f : Fnode) : List Change → Prop
  | [] => True
  | c :: cs => f.NoEmptyNext c ∧ NoEmptyNexts (f.change c).resetDelta cs

theorem change_extents (f : Fnode) (c : Change) :
    (f.change c).extents = c.appended.foldl push f.extents := claimExtents_extents f c.appended

/-- Extents that are not empty leave none. -/
theorem noEmptyNext_of_pos {f : Fnode} {c : Change} (h : ∀ x ∈ c.appended, 0 < x.length) :
    f.NoEmptyNext c := by
  intro e he
  obtain ⟨base', new, hlist, hgrown, -, hold⟩ := foldl_push_spec f.extents c.appended
  rw [change_extents, hlist] at he
  generalize f.extents = base at he hgrown
  cases hgrown with
  | last init l n hn _ => exact absurd he (not_isPrefix_grown hn)
  | same =>
      rw [List.prefix_append_right_inj] at he
      obtain ⟨rest, rfl⟩ := he
      obtain ⟨x, hx, hle⟩ := hold e (by simp)
      have := h x hx
      omega

theorem Indexed.change {f : Fnode} (h : f.Indexed) (c : Change) : (f.change c).Indexed :=
  ⟨(h.claimExtents c.appended).index, (h.claimExtents c.appended).allocated⟩

theorem Matches.of_indexed {f g : Fnode} (hf : f.Indexed) (hg : g.Indexed)
    (h : f.extents = g.extents) : f.Matches g :=
  ⟨h, by rw [hf.index, hg.index, h], by rw [hf.allocated, hg.allocated, h]⟩

theorem claimExtents_attrs (f : Fnode) (es : List Extent) : (f.claimExtents es).ino = f.ino ∧
    (f.claimExtents es).size = f.size ∧ (f.claimExtents es).mtime = f.mtime := by
  unfold claimExtents
  induction es generalizing f with
  | nil => exact ⟨rfl, rfl, rfl⟩
  | cons e es ih =>
      have hstep : (f.appendExtent e).ino = f.ino ∧ (f.appendExtent e).size = f.size ∧
          (f.appendExtent e).mtime = f.mtime := by
        unfold appendExtent
        split
        · split <;> exact ⟨rfl, rfl, rfl⟩
        · exact ⟨rfl, rfl, rfl⟩
      obtain ⟨hino, hsize, hmtime⟩ := ih (f.appendExtent e)
      exact ⟨hino.trans hstep.1, hsize.trans hstep.2.1, hmtime.trans hstep.2.2⟩

theorem eq_receive {f g h : Fnode} (hino : h.ino = f.ino) (hsize : h.size = g.size)
    (hmtime : h.mtime = g.mtime) (hmatch : h.Matches g)
    (hcommitted : h.allocatedCommitted = f.allocatedCommitted) : h = f.receive g := by
  obtain ⟨hextents, hindex, hallocated⟩ := hmatch
  cases h
  cases f
  cases g
  simp_all [receive]

/-- A fnode that agrees with the one of the commit gets the change from its delta exactly when
the change leaves no empty extent behind the extents of the commit. -/
theorem applyInc_iff {f r : Fnode} (hf : f.Indexed) (hcommitted : f.allocatedCommitted = f.allocated)
    (hr : r.Matches f) (c : Change) :
    r.applyInc (f.change c).makeDelta = some (r.receive (f.change c)) ↔ f.NoEmptyNext c := by
  obtain ⟨-, hkept⟩ := f.claimExtents_counters c.appended
  have hoffset : (f.change c).allocatedCommitted = f.allocated := hkept.trans hcommitted
  have hdelta : (f.change c).makeDelta.extents =
      extentsFrom (total Extent.length f.extents) 0 (c.appended.foldl push f.extents) := by
    show extentsFrom (f.change c).allocatedCommitted 0 (f.change c).extents = _
    rw [hoffset, hf.allocated, change_extents]
  generalize hbase : ({ r with mtime := c.mtime, size := c.size } : Fnode) = base
  have hrecv : r.applyInc (f.change c).makeDelta =
      some (base.claimExtents (f.change c).makeDelta.extents) := by
    rw [← hbase]
    exact if_pos (hoffset.trans hr.allocated.symm)
  have hextents : (base.claimExtents (f.change c).makeDelta.extents).extents =
      (extentsFrom (total Extent.length f.extents) 0
        (c.appended.foldl push f.extents)).foldl push f.extents := by
    rw [claimExtents_extents, hdelta, ← hbase, hr.extents]
  have hcond : f.NoEmptyNext c ↔ ∀ e, f.extents ++ [e] <+: c.appended.foldl push f.extents →
      0 < e.length := by
    rw [NoEmptyNext, change_extents]
  rw [hcond, ← rebuild_iff, hrecv, Option.some.injEq]
  constructor
  · intro hsame
    rw [← hextents, hsame]
    exact change_extents f c
  · intro hsame
    obtain ⟨hino, hsize, hmtime⟩ := base.claimExtents_attrs (f.change c).makeDelta.extents
    obtain ⟨-, hcount⟩ := base.claimExtents_counters (f.change c).makeDelta.extents
    have hindexed : base.Indexed := by
      rw [← hbase]
      exact ⟨by rw [hr.index, hf.index, hr.extents], by rw [hr.allocated, hf.allocated, hr.extents]⟩
    refine eq_receive (hino.trans (hbase ▸ rfl)) (hsize.trans (hbase ▸ rfl))
      (hmtime.trans (hbase ▸ rfl)) ?_ (hcount.trans (hbase ▸ rfl))
    refine .of_indexed (hindexed.claimExtents _) (hf.change c) ?_
    rw [hextents, hsame, change_extents]

theorem andThen_foldl (a b : Change) (cs : List Change) :
    cs.foldl Change.andThen (a.andThen b) = a.andThen (cs.foldl Change.andThen b) := by
  induction cs generalizing b with
  | nil => rfl
  | cons c cs ih =>
      have hassoc : (a.andThen b).andThen c = a.andThen (b.andThen c) := by
        simp [Change.andThen, List.append_assoc]
      rw [List.foldl_cons, hassoc, ih, List.foldl_cons]

/-- Two changes with a commit between them add the extents of both. -/
theorem change_andThen_extents (f : Fnode) (a b : Change) :
    (f.change (a.andThen b)).extents = ((f.change a).resetDelta.change b).extents := by
  rw [change_extents, change_extents]
  show (a.appended ++ b.appended).foldl push f.extents = b.appended.foldl push (f.change a).extents
  rw [List.foldl_append, change_extents]

/-- A chain that leaves no empty extent behind a commit leaves none taken as one change. -/
theorem NoEmptyNexts.combined {f : Fnode} {c : Change} {cs : List Change}
    (h : f.NoEmptyNexts (c :: cs)) : f.NoEmptyNext (cs.foldl Change.andThen c) := by
  induction cs generalizing f c with
  | nil => exact h.1
  | cons d cs ih =>
      have hrest : (f.change c).resetDelta.NoEmptyNext (cs.foldl Change.andThen d) := ih h.2
      rw [List.foldl_cons, andThen_foldl]
      intro e he
      rw [change_extents] at he
      have hmid : (f.change c).resetDelta.extents = c.appended.foldl push f.extents :=
        change_extents f c
      refine no_empty_trans (fun x hx => h.1 x ?_) (fun x hx => hrest x ?_) he
      · rwa [change_extents]
      · rwa [change_extents, hmid]

/-- The deltas of a chain do what the one delta of the whole change does. -/
theorem applyChain_eq {f r : Fnode} (hf : f.Indexed) (hcommitted : f.allocatedCommitted = f.allocated)
    (hr : r.Matches f) {c : Change} {cs : List Change} (h : f.NoEmptyNexts (c :: cs)) :
    r.applyChain (f.deltas (c :: cs)) =
      r.applyInc (f.change (cs.foldl Change.andThen c)).makeDelta := by
  induction cs generalizing f r c with
  | nil =>
      show (r.applyInc (f.change c).makeDelta).bind some = r.applyInc (f.change c).makeDelta
      cases r.applyInc (f.change c).makeDelta <;> rfl
  | cons d cs ih =>
      have hfirst := (applyInc_iff hf hcommitted hr c).mpr h.1
      have hindexed : (f.change c).resetDelta.Indexed :=
        ⟨(hf.change c).index, (hf.change c).allocated⟩
      have hmatch : (r.receive (f.change c)).Matches (f.change c).resetDelta := ⟨rfl, rfl, rfl⟩
      have hrest := ih hindexed rfl hmatch h.2
      have hlast := (applyInc_iff hindexed rfl hmatch _).mpr h.2.combined
      have hall := (applyInc_iff hf hcommitted hr _).mpr h.combined
      show (r.applyInc (f.change c).makeDelta).bind
        (fun r' => r'.applyChain ((f.change c).resetDelta.deltas (d :: cs))) = _
      rw [hfirst, Option.bind_some, hrest, hlast, hall, Option.some.injEq, List.foldl_cons,
        andThen_foldl]
      refine eq_receive rfl rfl rfl ?_ rfl
      refine .of_indexed ⟨(hindexed.change _).index, (hindexed.change _).allocated⟩ (hf.change _) ?_
      exact (change_andThen_extents f c _).symm

/-- A delta brings its change to a fnode that agrees with the committed one exactly when the
change leaves no empty extent right behind the committed extents, as no change does that
appends no empty extent; and then so do all the deltas of a chain, as one delta would. -/
theorem delta_spec {f r : Fnode} (hf : f.Indexed) (hcommitted : f.allocatedCommitted = f.allocated)
    (hr : r.Matches f) (c : Change) (cs : List Change) :
    (r.applyInc (f.change c).makeDelta = some (r.receive (f.change c)) ↔ f.NoEmptyNext c) ∧
      ((∀ x ∈ c.appended, 0 < x.length) → f.NoEmptyNext c) ∧
      (f.NoEmptyNexts (c :: cs) →
        r.applyChain (f.deltas (c :: cs)) =
          some (r.receive (f.change (cs.foldl Change.andThen c))) ∧
        r.applyInc (f.change (cs.foldl Change.andThen c)).makeDelta =
          some (r.receive (f.change (cs.foldl Change.andThen c)))) := by
  refine ⟨applyInc_iff hf hcommitted hr c, noEmptyNext_of_pos, fun h => ?_⟩
  have hone := (applyInc_iff hf hcommitted hr _).mpr h.combined
  exact ⟨(applyChain_eq hf hcommitted hr h).trans hone, hone⟩

/-- A delta of the default fnode with one extent appended. -/
theorem delta_spec_default :
    (applyInc {} (change {} ⟨[⟨0, 4096, 0⟩], 4096, 1⟩).makeDelta =
        some (receive {} (change {} ⟨[⟨0, 4096, 0⟩], 4096, 1⟩)) ↔
      NoEmptyNext {} ⟨[⟨0, 4096, 0⟩], 4096, 1⟩) ∧
      ((∀ x ∈ [(⟨0, 4096, 0⟩ : Extent)], 0 < x.length) →
        NoEmptyNext {} ⟨[⟨0, 4096, 0⟩], 4096, 1⟩) ∧
      (NoEmptyNexts {} [⟨[⟨0, 4096, 0⟩], 4096, 1⟩, ⟨[⟨4096, 4096, 0⟩], 8192, 2⟩] →
        applyChain {} (deltas {} [⟨[⟨0, 4096, 0⟩], 4096, 1⟩, ⟨[⟨4096, 4096, 0⟩], 8192, 2⟩]) =
          some (receive {} (change {} ⟨[⟨0, 4096, 0⟩, ⟨4096, 4096, 0⟩], 8192, 2⟩)) ∧
        applyInc {} (change {} ⟨[⟨0, 4096, 0⟩, ⟨4096, 4096, 0⟩], 8192, 2⟩).makeDelta =
          some (receive {} (change {} ⟨[⟨0, 4096, 0⟩, ⟨4096, 4096, 0⟩], 8192, 2⟩))) :=
  delta_spec (indexed_nil rfl rfl rfl) rfl ⟨rfl, rfl, rfl⟩ ⟨[⟨0, 4096, 0⟩], 4096, 1⟩
    [⟨[⟨4096, 4096, 0⟩], 8192, 2⟩]

/-- An empty extent at the commit is not in the delta; nor is any when `allocated` is twice
the length of the extents, as a copy construction leaves it. -/
theorem delta_not_rebuilds :
    ¬ (∃ r', applyInc {} (change {} ⟨[⟨0, 0, 0⟩], 0, 1⟩).makeDelta = some r' ∧
        r'.extents = (change {} ⟨[⟨0, 0, 0⟩], 0, 1⟩).extents) ∧
      ∀ f, f = (copy (change {} ⟨[⟨0, 4096, 0⟩], 4096, 1⟩)).resetDelta →
        ¬ ∃ r', f.applyInc (f.change ⟨[⟨8192, 4096, 0⟩], 8192, 2⟩).makeDelta = some r' ∧
          r'.extents = (f.change ⟨[⟨8192, 4096, 0⟩], 8192, 2⟩).extents := by
  constructor
  · rintro ⟨r', hr', hextents⟩
    obtain rfl : r' = { mtime := 1 } := by
      have hrecv : applyInc {} (change {} ⟨[⟨0, 0, 0⟩], 0, 1⟩).makeDelta = some { mtime := 1 } := by
        decide
      exact Option.some.inj (hr'.symm.trans hrecv)
    exact absurd hextents (by decide)
  · rintro f rfl ⟨r', hr', hextents⟩
    have hlen := congrArg (Option.map fun r : Fnode => r.extents.length) hr'
    rw [Option.map_some, hextents] at hlen
    exact absurd hlen (by decide)

end Fnode

end Clab.Bluefs
