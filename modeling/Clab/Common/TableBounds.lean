import Clab.Common.TableFormatter

/-!
# Which tables stay within their vectors

The name of a column is stored at the number of the row, the cell above is read at the
column of the row below, and the widths kept for the printing are those of the last
row. A table of rows that a caller made is flushed within bounds exactly where these
slips have no effect, and each of its cells is then printed once.
-/

namespace Clab.Common.TableFormatter

/-! ## Rows are never empty -/

theorem modify_last (rows : List (List Cell)) (row : List Cell) (f : List Cell → List Cell) :
    (rows ++ [row]).modify rows.length f = rows ++ [f row] := by
  induction rows with
  | nil => rfl
  | cons r rows ih => simpa using ih

/-- A cell goes to the end of the last row, or to a row of its own behind it. -/
theorem vecIndex_push (name : Bytes) (c : Cell) (vec : List (List Cell)) :
    (vecIndex name vec).1.modify (vecIndex name vec).2 (· ++ [c]) = vec ++ [[c]] ∨
      ∃ rows row, vec = rows ++ [row] ∧
        (vecIndex name vec).1.modify (vecIndex name vec).2 (· ++ [c]) = rows ++ [row ++ [c]] := by
  rcases List.eq_nil_or_concat' vec with rfl | ⟨rows, row, rfl⟩
  · exact .inl rfl
  · have hlast : (rows ++ [row]).length - 1 = rows.length := by simp
    unfold vecIndex
    simp only [hlast]
    rw [if_neg (by simp), List.getD_append_right _ _ _ _ le_rfl, Nat.sub_self]
    cases row with
    | nil => exact .inr ⟨rows, [], rfl, modify_last rows [] _⟩
    | cons first row =>
        simp only [List.getD_cons_zero]
        split
        · left
          have hnew := modify_last (rows ++ [first :: row]) [] (· ++ [c])
          rwa [List.length_append, List.length_singleton] at hnew
        · exact .inr ⟨rows, _, rfl, modify_last rows _ _⟩

def NoEmptyRow (t : Table) : Prop := [] ∉ t.vec

theorem NoEmptyRow.pushCell {t : Table} (h : NoEmptyRow t) (name text : Bytes) :
    NoEmptyRow (pushCell t name text) := by
  unfold NoEmptyRow TableFormatter.pushCell
  simp only
  rcases vecIndex_push name ⟨(sectionName t name).1, t.ss ++ text⟩ t.vec with
    hvec | ⟨rows, row, hrows, hvec⟩
  · rw [hvec]
    intro hmem
    rcases List.mem_append.mp hmem with hmem | hmem
    · exact h hmem
    · exact absurd hmem (by simp)
  · rw [hvec]
    intro hmem
    rcases List.mem_append.mp hmem with hmem | hmem
    · exact h (hrows ▸ List.mem_append_left _ hmem)
    · exact absurd hmem (by simp)

theorem NoEmptyRow.finishPending {t : Table} (h : NoEmptyRow t) : NoEmptyRow (finishPending t) := by
  unfold TableFormatter.finishPending
  split
  · exact h
  · exact NoEmptyRow.pushCell (t := { t with ss := [], pendingName := [] }) h _ _

theorem NoEmptyRow.dump {t : Table} (h : NoEmptyRow t) (name text : Bytes) :
    NoEmptyRow (dump t name text) := h.finishPending.pushCell name text

/-- A call leaves no row empty. -/
theorem NoEmptyRow.apply {t : Table} (h : NoEmptyRow t) (call : Call) :
    NoEmptyRow (apply t call) := by
  cases call with
  | openSection name => exact h
  | closeSection =>
      unfold TableFormatter.apply
      cases t.sections.getLast? <;> exact h
  | dumpNull name => exact h.dump _ _
  | dumpUnsigned name u => exact h.dump _ _
  | dumpInt name s => exact h.dump _ _
  | dumpFloat name printed => exact h.dump _ _
  | dumpString name s => exact h.dump _ _
  | dumpStringWithAttrs name s attrs => exact h.dump _ _
  | dumpFormat name ns buf => exact h.dump _ _
  | dumpStream name => exact h.finishPending
  | stream bs => exact h
  | reset => exact h

theorem noEmptyRow_after (keyval : Bool) (calls : List Call) : NoEmptyRow (after keyval calls) := by
  have hrun : ∀ t : Table, NoEmptyRow t → NoEmptyRow (calls.foldl apply t) := by
    induction calls with
    | nil => exact fun t h => h
    | cons call calls ih => exact fun t h => ih _ (h.apply call)
  exact hrun _ (by simp [NoEmptyRow])

/-! ## The scan -/

@[simp] theorem resize_length {α : Type} (l : List α) (n : Nat) (fill : α) :
    (resize l n fill).length = n := by
  simp only [resize, List.length_append, List.length_take, List.length_replicate]
  omega

theorem setAt_isSome {α : Type} {l : List α} {i : Nat} {x : α} (hi : i < l.length) :
    setAt l i x = some (l.set i x) := if_pos hi

theorem setAt_length {α : Type} {l l' : List α} {i : Nat} {x : α} (h : setAt l i x = some l') :
    i < l.length ∧ l'.length = l.length := by
  unfold setAt at h
  split at h
  case isTrue hi => exact ⟨hi, by rw [← Option.some.inj h, List.length_set]⟩
  case isFalse => exact absurd h (by simp)

/-- The stores for a cell of row `i` are within a row of `width` cells. -/
def CellFits (above : Option (List Cell)) (i width : Nat) (cell : Cell × Nat) : Prop :=
  match above with
  | none => i < width
  | some row => cell.2 < row.length ∧ (row[cell.2]? ≠ some cell.1 → i < width)

theorem setAt_iff {α : Type} {l : List α} {i : Nat} {x : α} :
    (∃ l', setAt l i x = some l') ↔ i < l.length := by
  constructor
  · rintro ⟨l', h⟩
    exact (setAt_length h).1
  · intro h
    exact ⟨_, setAt_isSome h⟩

theorem map_exists_iff {α β : Type} {x : Option α} {f : α → β} :
    (∃ b, x.map f = some b) ↔ ∃ a, x = some a := by
  cases x <;> simp

theorem nameColumn_iff {above : Option (List Cell)} {i j : Nat} {cell : Cell} {s : Scan} :
    (∃ s', nameColumn above i j cell s = some s') ↔ CellFits above i s.names.length (cell, j) := by
  cases above with
  | none => exact map_exists_iff.trans setAt_iff
  | some row =>
      simp only [nameColumn, CellFits]
      by_cases hj : j < row.length
      · rw [List.getElem?_eq_getElem hj, Option.bind_some]
        by_cases hsame : row[j] = cell
        · simp [hj, hsame]
        · simp only [ne_eq, hsame, not_false_eq_true, if_true]
          rw [map_exists_iff, setAt_iff]
          simp [hj, hsame]
      · rw [List.getElem?_eq_none (not_lt.mp hj)]
        simp [hj]

theorem nameColumn_sizes {above : Option (List Cell)} {i j : Nat} {cell : Cell} {s s' : Scan}
    (h : nameColumn above i j cell s = some s') : s'.sizes = s.sizes := by
  cases above with
  | none =>
      obtain ⟨names, -, rfl⟩ := Option.map_eq_some_iff.mp h
      rfl
  | some row =>
      obtain ⟨c, -, h⟩ := Option.bind_eq_some_iff.mp h
      split at h
      · obtain ⟨names, -, rfl⟩ := Option.map_eq_some_iff.mp h
        rfl
      · rw [← Option.some.inj h]

variable {above : Option (List Cell)} {i width : Nat}

theorem scanCell_iff {s : Scan} {cell : Cell × Nat} (hcol : cell.2 < width) :
    (∃ s', scanCell above i width s cell = some s') ↔ CellFits above i width cell := by
  have hname : (∃ s', nameColumn above i cell.2 cell.1
      { s with sizes := resize s.sizes width 0, names := resize s.names width [] } = some s') ↔
        CellFits above i (resize s.names width []).length cell := nameColumn_iff
  rw [resize_length] at hname
  rw [← hname]
  constructor
  · rintro ⟨s', h⟩
    obtain ⟨named, h, -⟩ := Option.bind_eq_some_iff.mp h
    exact ⟨named, h⟩
  · rintro ⟨named, h⟩
    have hwidth : cell.2 < named.sizes.length := by
      rw [nameColumn_sizes h]
      simpa using hcol
    unfold scanCell
    rw [h, Option.bind_some, List.getElem?_eq_getElem hwidth, Option.bind_some,
      setAt_isSome hwidth]
    exact ⟨_, rfl⟩

theorem scanCell_sizes {s s' : Scan} {cell : Cell × Nat}
    (h : scanCell above i width s cell = some s') : s'.sizes.length = width := by
  obtain ⟨named, hnamed, h⟩ := Option.bind_eq_some_iff.mp h
  obtain ⟨size, -, h⟩ := Option.bind_eq_some_iff.mp h
  obtain ⟨sizes, hsizes, rfl⟩ := Option.map_eq_some_iff.mp h
  rw [(setAt_length hsizes).2, nameColumn_sizes hnamed, resize_length]

/-- A fold whose steps succeed by a property of the element alone. -/
theorem foldlM_iff {α β : Type} {f : β → α → Option β} {P : α → Prop} {l : List α}
    (hstep : ∀ a ∈ l, ∀ b, (∃ b', f b a = some b') ↔ P a) (b : β) :
    (∃ b', l.foldlM f b = some b') ↔ ∀ a ∈ l, P a := by
  induction l generalizing b with
  | nil => simp
  | cons a l ih =>
      have ih := fun b => ih (fun x hx => hstep x (List.mem_cons_of_mem a hx)) b
      rw [List.foldlM_cons, List.forall_mem_cons, ← hstep a List.mem_cons_self b]
      constructor
      · rintro ⟨b', h⟩
        obtain ⟨next, hnext, h⟩ := Option.bind_eq_some_iff.mp h
        exact ⟨⟨next, hnext⟩, (ih next).mp ⟨b', h⟩⟩
      · rintro ⟨⟨next, hnext⟩, hrest⟩
        rw [hnext]
        exact (ih next).mpr hrest

theorem scanRow_iff {row : List Cell} {s : Scan} :
    (∃ s', scanRow above i row s = some s') ↔
      ∀ cell ∈ row.zipIdx, CellFits above i row.length cell := by
  unfold scanRow
  refine foldlM_iff (P := CellFits above i row.length) ?_ s
  intro cell hcell s
  exact scanCell_iff (List.snd_lt_of_mem_zipIdx hcell)

theorem scanRow_sizes {row : List Cell} {s s' : Scan} (hrow : row ≠ [])
    (h : scanRow above i row s = some s') : s'.sizes.length = row.length := by
  obtain ⟨cells, cell, rfl⟩ := (List.eq_nil_or_concat' row).resolve_left hrow
  unfold scanRow at h
  rw [List.zipIdx_append, List.foldlM_append] at h
  obtain ⟨before, -, h⟩ := Option.bind_eq_some_iff.mp h
  simp only [List.zipIdx_cons, List.zipIdx_nil, List.foldlM_cons, List.foldlM_nil] at h
  obtain ⟨last, hlast, h⟩ := Option.bind_eq_some_iff.mp h
  rw [← Option.some.inj h, scanCell_sizes hlast]

/-- Row `i` below the row `above`, and the rows below it: no row is longer than the one above it,
as long outside of key and value mode, and one of no more than `i` cells repeats cells above it. -/
def Fits (keyval : Bool) : Nat → List Cell → List (List Cell) → Prop
  | _, _, [] => True
  | i, above, row :: rows =>
      row.length ≤ above.length ∧ (keyval = false → row.length = above.length) ∧
        (row.length ≤ i → row <+: above) ∧ Fits keyval (i + 1) row rows

/-- The table is flushed within bounds. -/
def TableFits (keyval : Bool) : List (List Cell) → Prop
  | [] => True
  | row :: rows => Fits keyval 1 row rows

theorem first_fits (row : List Cell) : ∀ cell ∈ row.zipIdx, CellFits none 0 row.length cell := by
  intro cell hcell
  have := List.snd_lt_of_mem_zipIdx hcell
  show 0 < row.length
  omega

theorem row_fits_iff {i : Nat} {row prev : List Cell} :
    (∀ cell ∈ row.zipIdx, CellFits (some prev) i row.length cell) ↔
      row.length ≤ prev.length ∧ (row.length ≤ i → row <+: prev) := by
  have hmem : ∀ j (hj : j < row.length), (row[j], j) ∈ row.zipIdx := fun j hj =>
    List.mem_zipIdx_iff_getElem?.mpr (List.getElem?_eq_getElem hj)
  constructor
  · intro hfits
    refine ⟨?_, fun hshort => ?_⟩
    · by_contra hlong
      have := (hfits _ (hmem prev.length (not_le.mp hlong))).1
      exact absurd this (lt_irrefl _)
    · refine List.prefix_iff_getElem?.mpr fun j hj => ?_
      by_contra hne
      have := (hfits _ (hmem j hj)).2 hne
      omega
  · rintro ⟨hle, hsame⟩ ⟨cell, j⟩ hcell
    have hget := List.mem_zipIdx_iff_getElem?.mp hcell
    have hj : j < row.length := List.snd_lt_of_mem_zipIdx hcell
    refine ⟨lt_of_lt_of_le hj hle, fun hne => ?_⟩
    by_contra hshort
    have hover := List.prefix_iff_getElem?.mp (hsame (not_lt.mp hshort)) j hj
    rw [List.getElem?_eq_getElem hj] at hget
    exact hne (hover.trans hget)

/-- The scan below a row. -/
theorem scanRows_iff {i : Nat} {prev : List Cell} {rows : List (List Cell)} {s : Scan} :
    (∃ s', scanRows (some prev) i rows s = some s') ↔ Fits true i prev rows := by
  induction rows generalizing i prev s with
  | nil => simp [scanRows, Fits]
  | cons row rows ih =>
      have hrow : (∃ s', scanRow (some prev) i row s = some s') ↔ _ :=
        scanRow_iff.trans row_fits_iff
      simp only [Fits, Bool.true_eq_false, false_implies, true_and]
      rw [← and_assoc, ← hrow]
      constructor
      · rintro ⟨s', h⟩
        obtain ⟨next, hnext, h⟩ := Option.bind_eq_some_iff.mp h
        exact ⟨⟨next, hnext⟩, ih.mp ⟨s', h⟩⟩
      · rintro ⟨⟨next, hnext⟩, hrest⟩
        rw [scanRows, hnext, Option.bind_some]
        exact ih.mpr hrest

/-- The widths kept are those of the last row. -/
theorem scanRows_sizes {i : Nat} {prev : List Cell} {rows : List (List Cell)} {s s' : Scan}
    (hrows : [] ∉ rows) (hprev : s.sizes.length = prev.length)
    (h : scanRows (some prev) i rows s = some s') :
    s'.sizes.length = (rows.getLastD prev).length := by
  induction rows generalizing i prev s with
  | nil =>
      rw [← Option.some.inj h]
      exact hprev
  | cons row rows ih =>
      obtain ⟨next, hnext, h⟩ := Option.bind_eq_some_iff.mp h
      have hrow : row ≠ [] := fun h => hrows (h ▸ List.mem_cons_self)
      rw [List.getLastD_cons]
      exact ih (fun h => hrows (List.mem_cons_of_mem _ h)) (scanRow_sizes hrow hnext) h

/-! ## The printing -/

theorem Fits.last_le {keyval : Bool} {i : Nat} {prev : List Cell} {rows : List (List Cell)}
    (h : Fits keyval i prev rows) : (rows.getLastD prev).length ≤ prev.length := by
  induction rows generalizing i prev with
  | nil => exact le_rfl
  | cons row rows ih =>
      rw [List.getLastD_cons]
      exact (ih h.2.2.2).trans h.1

/-- Outside of key and value mode the width of the last row has to do for all. -/
theorem fits_false_iff {i : Nat} {prev : List Cell} {rows : List (List Cell)} :
    Fits false i prev rows ↔ Fits true i prev rows ∧
      ∀ row ∈ prev :: rows, row.length ≤ (rows.getLastD prev).length := by
  induction rows generalizing i prev with
  | nil => simp [Fits]
  | cons row rows ih =>
      simp only [Fits, forall_const, Bool.true_eq_false, false_implies, true_and, ih,
        List.getLastD_cons]
      constructor
      · rintro ⟨hle, heq, hsame, hfits, hall⟩
        refine ⟨⟨hle, hsame, hfits⟩, ?_⟩
        intro r hr
        rcases List.mem_cons.mp hr with rfl | hr
        · rw [← heq]
          exact hall row List.mem_cons_self
        · exact hall r hr
      · rintro ⟨⟨hle, hsame, hfits⟩, hall⟩
        have hprev := hall prev List.mem_cons_self
        have hlast := hfits.last_le
        exact ⟨hle, by omega, hsame, hfits, fun r hr => hall r (List.mem_cons_of_mem _ hr)⟩

/-- The cell that a piece prints. -/
def Piece.cell? : Piece → Option Cell
  | .text _ => none
  | .cell c _ => some c

/-- The cells that are printed, in order. -/
def printed (out : List Piece) : List Cell := out.filterMap Piece.cell?

@[simp] theorem printed_nil : printed [] = [] := rfl

@[simp] theorem printed_append (out out' : List Piece) :
    printed (out ++ out') = printed out ++ printed out' := List.filterMap_append

@[simp] theorem printed_text (bs : Bytes) (out : List Piece) :
    printed (.text bs :: out) = printed out := rfl

theorem mapM_iff {α β : Type} {f : α → Option β} {l : List α} :
    (∃ out, l.mapM f = some out) ↔ ∀ a ∈ l, ∃ b, f a = some b := by
  induction l with
  | nil => simp
  | cons a l ih =>
      rw [List.mapM_cons, List.forall_mem_cons, ← ih]
      constructor
      · rintro ⟨out, h⟩
        obtain ⟨b, hb, h⟩ := Option.bind_eq_some_iff.mp h
        obtain ⟨rest, hrest, -⟩ := Option.bind_eq_some_iff.mp h
        exact ⟨⟨b, hb⟩, rest, hrest⟩
      · rintro ⟨⟨b, hb⟩, rest, hrest⟩
        exact ⟨b :: rest, by rw [hb, hrest]; rfl⟩

theorem printed_mapM {α : Type} {f : α → Option Piece} {g : α → Option Cell}
    (hf : ∀ a p, f a = some p → p.cell? = g a) {l : List α} {out : List Piece}
    (h : l.mapM f = some out) : printed out = l.filterMap g := by
  induction l generalizing out with
  | nil =>
      obtain rfl : [] = out := Option.some.inj h
      rfl
  | cons a l ih =>
      rw [List.mapM_cons] at h
      obtain ⟨b, hb, h⟩ := Option.bind_eq_some_iff.mp h
      obtain ⟨rest, hrest, h⟩ := Option.bind_eq_some_iff.mp h
      obtain rfl := Option.some.inj h
      rw [printed, List.filterMap_cons, List.filterMap_cons, hf a b hb]
      have ih := ih hrest
      unfold printed at ih
      rw [ih]

variable {pad : Bytes → Nat → Bytes} {keyval last : Bool} {sizes : List Nat} {row : List Cell}
  {rows : List (List Cell)} {out : List Piece}

/-- What is looked up for each column of a row. -/
theorem columns_some {α : Type} {f : α → Nat → Piece} {col : α → Nat} {l : List α}
    (hl : ∀ a ∈ l, col a < sizes.length) :
    ∃ out, (l.mapM fun a => sizes[col a]?.map (f a)) = some out := by
  refine mapM_iff.mpr fun a ha => ?_
  rw [List.getElem?_eq_getElem (hl a ha)]
  exact ⟨_, rfl⟩

theorem columns_text {α : Type} {f : α → Nat → Bytes} {col : α → Nat} {l : List α}
    (h : (l.mapM fun a => sizes[col a]?.map fun n => Piece.text (f a n)) = some out) :
    printed out = [] := by
  have hnone := printed_mapM (g := fun _ => none) (fun a p hp => ?_) h
  · rw [hnone]
    simp
  · obtain ⟨n, -, rfl⟩ := Option.map_eq_some_iff.mp hp
    rfl

theorem zipIdx_lt {n : Nat} (hn : row.length ≤ n) : ∀ cell ∈ row.zipIdx, cell.2 < n :=
  fun _ hcell => lt_of_lt_of_le (List.snd_lt_of_mem_zipIdx hcell) hn

theorem border_some (hrow : row.length ≤ sizes.length) : ∃ line, border sizes row = some line := by
  have hcols : ∀ j ∈ List.range row.length, j < sizes.length := fun j hj =>
    lt_of_lt_of_le (List.mem_range.mp hj) hrow
  obtain ⟨cells, hcells⟩ := columns_some
    (f := fun _ n => Piece.text (List.replicate (n + 3) 45 ++ [43])) hcols
  unfold border
  rw [hcells]
  exact ⟨_, rfl⟩

theorem border_printed {line : List Piece} (h : border sizes row = some line) :
    printed line = [] := by
  obtain ⟨cells, hcells, rfl⟩ := Option.map_eq_some_iff.mp h
  simp [columns_text (f := fun _ n => List.replicate (n + 3) 45 ++ [43]) hcells]

theorem header_some (hrow : row.length ≤ sizes.length) :
    ∃ out, header pad sizes row = some out := by
  obtain ⟨line, hline⟩ := border_some hrow
  obtain ⟨cells, hcells⟩ := columns_some
    (f := fun (cell : Cell × Nat) n => Piece.text (32 :: pad cell.1.name (n + 2) ++ [124]))
    (zipIdx_lt hrow)
  unfold header
  rw [hline, Option.bind_some, hcells]
  exact ⟨_, rfl⟩

theorem header_printed (h : header pad sizes row = some out) : printed out = [] := by
  obtain ⟨line, hline, h⟩ := Option.bind_eq_some_iff.mp h
  obtain ⟨cells, hcells, rfl⟩ := Option.map_eq_some_iff.mp h
  simp [border_printed hline,
    columns_text (f := fun (cell : Cell × Nat) n => 32 :: pad cell.1.name (n + 2) ++ [124]) hcells]

/-- Only key and value mode prints a row without the widths. -/
theorem showCell_iff {cell : Cell × Nat} :
    (∃ p, showCell pad keyval sizes cell = some p) ↔ keyval = true ∨ cell.2 < sizes.length := by
  cases keyval <;> simp [showCell, Option.map_eq_some_iff, List.getElem?_eq_some_iff]

theorem showCell_cell {cell : Cell × Nat} {p : Piece}
    (h : showCell pad keyval sizes cell = some p) : p.cell? = some cell.1 := by
  unfold showCell at h
  split at h
  · rw [← Option.some.inj h]
    rfl
  · obtain ⟨n, -, rfl⟩ := Option.map_eq_some_iff.mp h
    rfl

theorem printRow_iff :
    (∃ out, printRow pad keyval sizes last row = some out) ↔
      keyval = true ∨ row.length ≤ sizes.length := by
  constructor
  · rintro ⟨out, h⟩
    obtain ⟨cells, hcells, -⟩ := Option.bind_eq_some_iff.mp h
    have hshow := mapM_iff.mp ⟨cells, hcells⟩
    by_contra hno
    obtain ⟨hkey, hlong⟩ := not_or.mp hno
    have hlong : sizes.length < row.length := not_le.mp hlong
    have hmem : (row.get ⟨sizes.length, hlong⟩, sizes.length) ∈ row.zipIdx :=
      List.mem_zipIdx_iff_getElem?.mpr (List.getElem?_eq_getElem hlong)
    rcases showCell_iff.mp (hshow _ hmem) with h | h
    · exact hkey h
    · exact absurd h (lt_irrefl _)
  · intro h
    obtain ⟨cells, hcells⟩ : ∃ cells, row.zipIdx.mapM (showCell pad keyval sizes) = some cells :=
      mapM_iff.mpr fun cell hcell => showCell_iff.mpr
        (h.imp_right fun hle => zipIdx_lt hle cell hcell)
    obtain ⟨line, hline⟩ : ∃ line, (if !keyval && last then border sizes row else some [])
        = some line := by
      split
      case isTrue hborder =>
        have hkey : keyval = false := by
          cases keyval
          · rfl
          · simp at hborder
        exact border_some (h.resolve_left (by simp [hkey]))
      case isFalse => exact ⟨_, rfl⟩
    unfold printRow
    rw [hcells, Option.bind_some, hline]
    exact ⟨_, rfl⟩

theorem printRow_printed (h : printRow pad keyval sizes last row = some out) :
    printed out = row := by
  obtain ⟨cells, hcells, h⟩ := Option.bind_eq_some_iff.mp h
  obtain ⟨line, hline, rfl⟩ := Option.map_eq_some_iff.mp h
  have hshown : printed cells = row := by
    rw [printed_mapM (g := fun cell => some cell.1) (fun cell p hp => showCell_cell hp) hcells]
    simp [List.zipIdx_map_fst]
  have hborder : printed line = [] := by
    split at hline
    · exact border_printed hline
    · rw [← Option.some.inj hline]
      rfl
  cases keyval <;> simp [hshown, hborder]

theorem printRows_iff :
    (∃ out, printRows pad keyval sizes rows = some out) ↔
      keyval = true ∨ ∀ row ∈ rows, row.length ≤ sizes.length := by
  induction rows with
  | nil => simp [printRows]
  | cons row rows ih =>
      have hrow : (∃ out, printRow pad keyval sizes rows.isEmpty row = some out) ↔ _ := printRow_iff
      rw [List.forall_mem_cons, or_and_left, ← hrow, ← ih]
      constructor
      · rintro ⟨out, h⟩
        obtain ⟨first, hfirst, h⟩ := Option.bind_eq_some_iff.mp h
        obtain ⟨rest, hrest, -⟩ := Option.map_eq_some_iff.mp h
        exact ⟨⟨first, hfirst⟩, rest, hrest⟩
      · rintro ⟨⟨first, hfirst⟩, rest, hrest⟩
        rw [printRows, hfirst, Option.bind_some, hrest]
        exact ⟨_, rfl⟩

theorem printRows_printed (h : printRows pad keyval sizes rows = some out) :
    printed out = rows.flatten := by
  induction rows generalizing out with
  | nil =>
      rw [← Option.some.inj h]
      rfl
  | cons row rows ih =>
      obtain ⟨first, hfirst, h⟩ := Option.bind_eq_some_iff.mp h
      obtain ⟨rest, hrest, rfl⟩ := Option.map_eq_some_iff.mp h
      rw [printed_append, printRow_printed hfirst, ih hrest, List.flatten_cons]

theorem printHeader_some {need : Bool}
    (hrows : keyval = true ∨ ∀ row ∈ rows, row.length ≤ sizes.length) :
    ∃ top, printHeader pad keyval need sizes rows = some top := by
  cases rows with
  | nil => exact ⟨_, rfl⟩
  | cons row rows =>
      simp only [printHeader]
      split
      case isTrue hneed =>
        have hkey : keyval = false := by
          cases keyval
          · rfl
          · simp at hneed
        exact header_some ((hrows.resolve_left (by simp [hkey])) row List.mem_cons_self)
      case isFalse => exact ⟨_, rfl⟩

theorem printHeader_printed {need : Bool} (h : printHeader pad keyval need sizes rows = some out) :
    printed out = [] := by
  cases rows with
  | nil =>
      rw [← Option.some.inj h]
      rfl
  | cons row rows =>
      simp only [printHeader] at h
      split at h
      · exact header_printed h
      · rw [← Option.some.inj h]
        rfl

/-! ## Flushes -/

/-- The scan of a whole table, and the widths it keeps. -/
theorem scanRows_first {s : Scan} (hrows : [] ∉ row :: rows) :
    ((∃ s', scanRows none 0 (row :: rows) s = some s') ↔ Fits true 1 row rows) ∧
      ∀ s', scanRows none 0 (row :: rows) s = some s' →
        s'.sizes.length = (rows.getLastD row).length := by
  have hrow : row ≠ [] := fun h => hrows (h ▸ List.mem_cons_self)
  obtain ⟨first, hfirst⟩ := (scanRow_iff (s := s)).mpr (first_fits row)
  have hscan : scanRows none 0 (row :: rows) s = scanRows (some row) 1 rows first := by
    rw [scanRows, hfirst, Option.bind_some]
  rw [hscan]
  exact ⟨scanRows_iff, fun s' h => scanRows_sizes (fun h => hrows (List.mem_cons_of_mem _ h))
    (scanRow_sizes hrow hfirst) h⟩

/-- What is scanned within bounds is printed within bounds where the last row is the widest. -/
theorem tableFits_iff (hrows : [] ∉ rows) (s : Scan) :
    (∃ s', scanRows none 0 rows s = some s' ∧
      (keyval = true ∨ ∀ row ∈ rows, row.length ≤ s'.sizes.length)) ↔ TableFits keyval rows := by
  cases rows with
  | nil => simp [scanRows, TableFits]
  | cons row rows =>
      obtain ⟨hscan, hsizes⟩ := scanRows_first (s := s) hrows
      have hsplit : (∃ s', scanRows none 0 (row :: rows) s = some s' ∧
          (keyval = true ∨ ∀ r ∈ row :: rows, r.length ≤ s'.sizes.length)) ↔
          (∃ s', scanRows none 0 (row :: rows) s = some s') ∧
            (keyval = true ∨ ∀ r ∈ row :: rows, r.length ≤ (rows.getLastD row).length) := by
        constructor
        · rintro ⟨s', h, hwide⟩
          exact ⟨⟨s', h⟩, hsizes s' h ▸ hwide⟩
        · rintro ⟨⟨s', h⟩, hwide⟩
          exact ⟨s', h, hsizes s' h ▸ hwide⟩
      rw [hsplit, hscan]
      cases keyval with
      | true => simp [TableFits]
      | false =>
          show _ ↔ Fits false 1 row rows
          rw [fits_false_iff]
          simp

/-- A flush stays within its vectors exactly where the table fits. -/
theorem flush_iff {t : Table} (ht : NoEmptyRow t) :
    (∃ t' out, flush pad t = some (t', out)) ↔
      TableFits (finishPending t).keyval (finishPending t).vec := by
  have hrows : [] ∉ (finishPending t).vec := ht.finishPending
  rw [← tableFits_iff hrows ⟨(finishPending t).columnSize, (finishPending t).columnName, []⟩]
  unfold flush
  generalize finishPending t = t at *
  constructor
  · rintro ⟨t', out, h⟩
    obtain ⟨s, hscan, h⟩ := Option.bind_eq_some_iff.mp h
    obtain ⟨top, -, h⟩ := Option.bind_eq_some_iff.mp h
    obtain ⟨rest, hrest, -⟩ := Option.map_eq_some_iff.mp h
    exact ⟨s, hscan, printRows_iff.mp ⟨rest, hrest⟩⟩
  · rintro ⟨s, hscan, hwide⟩
    obtain ⟨rest, hrest⟩ : ∃ rest, printRows pad t.keyval s.sizes t.vec = some rest :=
      printRows_iff.mpr hwide
    obtain ⟨top, htop⟩ : ∃ top, printHeader pad t.keyval
        (decide (s.sizes ≠ t.columnSize) || s.headers.contains 0) s.sizes t.vec = some top :=
      printHeader_some hwide
    simp only
    rw [hscan, Option.bind_some, htop, Option.bind_some, hrest]
    exact ⟨_, _, rfl⟩

theorem pendingName_finishPending (t : Table) : (finishPending t).pendingName = [] := by
  unfold finishPending
  split
  case isTrue h => exact h
  case isFalse => rfl

/-- A flush prints every cell once, in order, and leaves no cell behind. -/
theorem flush_printed {t t' : Table} (h : flush pad t = some (t', out)) :
    printed out = (finishPending t).vec.flatten ∧ t'.vec = [] ∧ t'.pendingName = [] := by
  have hpending := pendingName_finishPending t
  unfold flush at h
  generalize finishPending t = t at *
  obtain ⟨s, -, h⟩ := Option.bind_eq_some_iff.mp h
  obtain ⟨top, htop, h⟩ := Option.bind_eq_some_iff.mp h
  obtain ⟨rest, hrest, h⟩ := Option.map_eq_some_iff.mp h
  obtain ⟨rfl, rfl⟩ := Prod.mk.inj h
  rw [printed_append, printHeader_printed htop, printRows_printed hrest]
  exact ⟨rfl, rfl, hpending⟩

/-- `n` flushes one behind the other stay within their vectors, and each prints the cells that are
stored, every one of them once. -/
def FlushesOnce (pad : Bytes → Nat → Bytes) : Nat → Table → Prop
  | 0, _ => True
  | n + 1, t => ∃ t' out, flush pad t = some (t', out) ∧
      printed out = (finishPending t).vec.flatten ∧ FlushesOnce pad n t'

/-- A table without cells is flushed any number of times. -/
theorem flushesOnce_empty {t : Table} (hvec : t.vec = []) (hpending : t.pendingName = [])
    (n : Nat) : FlushesOnce pad n t := by
  induction n generalizing t with
  | zero => trivial
  | succ n ih =>
      have hfits : TableFits (finishPending t).keyval (finishPending t).vec := by
        rw [finishPending, if_pos hpending, hvec]
        trivial
      obtain ⟨t', out, h⟩ : ∃ t' out, flush pad t = some (t', out) :=
        (flush_iff (by simp [NoEmptyRow, hvec])).mpr hfits
      obtain ⟨hprinted, hvec', hpending'⟩ := flush_printed h
      exact ⟨t', out, h, hprinted, ih hvec' hpending'⟩

theorem flushesOnce_succ_iff {t : Table} (ht : NoEmptyRow t) (n : Nat) :
    FlushesOnce pad (n + 1) t ↔ TableFits (finishPending t).keyval (finishPending t).vec := by
  have hflush : (∃ t' out, flush pad t = some (t', out)) ↔ _ := flush_iff ht
  rw [← hflush]
  constructor
  · rintro ⟨t', out, h, -⟩
    exact ⟨t', out, h⟩
  · rintro ⟨t', out, h⟩
    obtain ⟨hprinted, hvec, hpending⟩ := flush_printed h
    exact ⟨t', out, h, hprinted, flushesOnce_empty hvec hpending n⟩

theorem keyval_finishPending (t : Table) : (finishPending t).keyval = t.keyval := by
  unfold finishPending
  split <;> rfl

theorem keyval_apply (t : Table) (call : Call) : (apply t call).keyval = t.keyval := by
  have hdump : ∀ name text, (dump t name text).keyval = t.keyval := fun _ _ =>
    keyval_finishPending t
  cases call with
  | closeSection =>
      unfold apply
      cases t.sections.getLast? <;> rfl
  | dumpStream name => exact keyval_finishPending t
  | openSection | stream | reset => rfl
  | _ => exact hdump _ _

theorem keyval_after (keyval : Bool) (calls : List Call) : (after keyval calls).keyval = keyval := by
  have hrun : ∀ t : Table, (calls.foldl apply t).keyval = t.keyval := by
    induction calls with
    | nil => exact fun t => rfl
    | cons call calls ih => exact fun t => (ih _).trans (keyval_apply t call)
  exact hrun _

/-- **A table is flushed within bounds, each cell printed once, exactly where it fits.** -/
theorem flushesOnce_iff (pad : Bytes → Nat → Bytes) (keyval : Bool) (calls : List Call) (n : Nat) :
    FlushesOnce pad n (after keyval calls) ↔
      n = 0 ∨ TableFits keyval (finishPending (after keyval calls)).vec := by
  cases n with
  | zero => simp [FlushesOnce]
  | succ n =>
      rw [flushesOnce_succ_iff (noEmptyRow_after keyval calls), keyval_finishPending, keyval_after]
      simp

/-- Two rows of one column with different values. -/
theorem not_flushesOnce :
    ¬ ∀ (pad : Bytes → Nat → Bytes) (keyval : Bool) (calls : List Call) (n : Nat),
      FlushesOnce pad n (after keyval calls) := by
  intro hclaim
  have hflush := hclaim (fun bs _ => bs) false
    [.dumpString [110] [97], .dumpString [110] [98]] 1
  have hfits := (flushesOnce_succ_iff (noEmptyRow_after _ _) 0).mp hflush
  have hsame : [(⟨[110], [98]⟩ : Cell)] <+: [⟨[110], [97]⟩] := hfits.2.2.1 le_rfl
  exact absurd hsame (by decide)

end Clab.Common.TableFormatter
