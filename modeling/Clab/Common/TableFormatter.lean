import Clab.Common.Text

/-!
# Tables

`TableFormatter` collects the cells of a table row by row and prints them when it is
flushed. The scan before the printing compares each row with the one above it, column
by column, and keeps its column vectors at the width of the row it is at; an index
outside a vector is `none` here.
-/

namespace Clab.Common.TableFormatter

/-! ## The formatter -/

/-- The attributes of a cell, in front of its value. -/
def attrsStr (attrs : List (Bytes × Bytes)) : Bytes :=
  attrs.flatMap fun p => 32 :: p.1 ++ ascii "=\"" ++ p.2 ++ [34]

structure Cell where
  name : Bytes
  value : Bytes
  deriving DecidableEq

structure Table where
  keyval : Bool
  vec : List (List Cell) := []
  ss : Bytes := []
  pendingName : Bytes := []
  sectionOpen : Int := 0
  sections : List Bytes := []
  sectionCnt : Bytes → Int := fun _ => 0
  columnSize : List Nat := []
  columnName : List Bytes := []

/-- `m_vec_index`: the row that a cell goes to, a new one behind a cell of the same name in the
first column. -/
def vecIndex (name : Bytes) (vec : List (List Cell)) : List (List Cell) × Nat :=
  let i := vec.length - 1
  let vec := if vec.length = 0 then [[]] else vec
  match vec.getD i [] with
  | [] => (vec, i)
  | first :: _ => if first.name = name then (vec ++ [[]], i + 1) else (vec, i)

/-- The name with the names of the open sections in front of it, the last one first. -/
def qualified (sections : List Bytes) (name : Bytes) : Bytes :=
  sections.foldl (fun t section' => section' ++ 58 :: t) name

/-- `get_section_name`, and the counters behind it. -/
def sectionName (t : Table) (name : Bytes) : Bytes × (Bytes → Int) :=
  let full := qualified t.sections name
  if t.sectionOpen ≠ 0 then
    (full ++ 91 :: decimalInt (t.sectionCnt full) ++ [93],
      Function.update t.sectionCnt full (t.sectionCnt full + 1))
  else (full, t.sectionCnt)

/-- A cell put at the end of its row: what the stream holds and then the text. -/
def pushCell (t : Table) (name text : Bytes) : Table :=
  let (vec, i) := vecIndex name t.vec
  let (full, cnt) := sectionName t name
  { t with
    vec := vec.modify i (· ++ [⟨full, t.ss ++ text⟩])
    sectionCnt := cnt
    ss := [] }

/-- `finish_pending_string`. -/
def finishPending (t : Table) : Table :=
  if t.pendingName = [] then t
  else pushCell { t with ss := [], pendingName := [] } (cStr t.pendingName) t.ss

/-- The calls that come before a flush. A value of another type than text comes with what the
stream prints for it. -/
inductive Call where
  | openSection (name : Bytes)
  | closeSection
  | dumpNull (name : Bytes)
  | dumpUnsigned (name : Bytes) (u : Nat)
  | dumpInt (name : Bytes) (s : Int)
  | dumpFloat (name printed : Bytes)
  | dumpString (name s : Bytes)
  | dumpStringWithAttrs (name s : Bytes) (attrs : List (Bytes × Bytes))
  | dumpFormat (name : Bytes) (ns : Option Bytes) (buf : Bytes)
  | dumpStream (name : Bytes)
  | stream (bs : Bytes)
  | reset

/-- A `dump_` function that prints `text`. -/
def dump (t : Table) (name text : Bytes) : Table := pushCell (finishPending t) name text

def apply (t : Table) : Call → Table
  | .openSection name =>
      { t with sections := t.sections ++ [name], sectionOpen := t.sectionOpen + 1 }
  | .closeSection =>
      match t.sections.getLast? with
      | none => { t with sectionOpen := t.sectionOpen - 1 }
      | some name =>
          { t with
            sectionOpen := t.sectionOpen - 1
            sectionCnt := Function.update t.sectionCnt name 0
            sections := t.sections.dropLast }
  | .dumpNull name => dump t name (ascii "null")
  | .dumpUnsigned name u => dump t name (decimal u)
  | .dumpInt name s => dump t name (decimalInt s)
  | .dumpFloat name printed => dump t name printed
  | .dumpString name s => dump t name s
  | .dumpStringWithAttrs name s attrs => dump t name (attrsStr attrs ++ s)
  | .dumpFormat name ns buf => dump t name (ns.elim [] (· ++ [46]) ++ buf)
  | .dumpStream name => { finishPending t with pendingName := name }
  | .stream bs => { t with ss := t.ss ++ bs }
  | .reset => { t with ss := [], sectionCnt := fun _ => 0, columnSize := [], sectionOpen := 0 }

/-- The formatter behind a list of calls. -/
def after (keyval : Bool) (calls : List Call) : Table := calls.foldl apply { keyval := keyval }

/-! ## The scan -/

/-- `resize` of a vector. -/
def resize {α : Type} (l : List α) (n : Nat) (fill : α) : List α :=
  l.take n ++ List.replicate (n - l.length) fill

/-- A store at an index; `none` is one outside the vector. -/
def setAt {α : Type} (l : List α) (i : Nat) (x : α) : Option (List α) :=
  if i < l.length then some (l.set i x) else none

/-- What the scan has found: the widths of the columns, their names, and the rows that are to
have a header. -/
structure Scan where
  sizes : List Nat
  names : List Bytes
  headers : List Nat

/-- A cell held against the one above it. -/
def nameColumn (above : Option (List Cell)) (i j : Nat) (cell : Cell) (s : Scan) : Option Scan :=
  match above with
  | none => (setAt s.names i cell.name).map fun names => { s with names }
  | some row =>
      row[j]?.bind fun c =>
        if c ≠ cell then
          (setAt s.names i cell.name).map fun names => { s with names, headers := i :: s.headers }
        else some s

/-- A round of the inner loop: cell `j` of row `i`, which is `width` cells wide. -/
def scanCell (above : Option (List Cell)) (i width : Nat) (s : Scan) (cell : Cell × Nat) :
    Option Scan :=
  (nameColumn above i cell.2 cell.1
    { s with sizes := resize s.sizes width 0, names := resize s.names width [] }).bind fun s =>
      s.sizes[cell.2]?.bind fun size =>
        (setAt s.sizes cell.2 (max (max size cell.1.value.length) cell.1.name.length)).map
          fun sizes => { s with sizes }

def scanRow (above : Option (List Cell)) (i : Nat) (row : List Cell) (s : Scan) : Option Scan :=
  row.zipIdx.foldlM (scanCell above i row.length) s

/-- The scan from row `i` on. -/
def scanRows (above : Option (List Cell)) (i : Nat) : List (List Cell) → Scan → Option Scan
  | [], s => some s
  | row :: rows, s => (scanRow above i row s).bind (scanRows (some row) (i + 1) rows)

/-! ## The printing -/

/-- What is printed: a cell of the table, or text around the cells. -/
inductive Piece where
  | text (bs : Bytes)
  | cell (c : Cell) (shown : Bytes)

/-- `+---+---+`. -/
def border (sizes : List Nat) (row : List Cell) : Option (List Piece) :=
  ((List.range row.length).mapM fun j =>
    sizes[j]?.map fun n => Piece.text (List.replicate (n + 3) 45 ++ [43])).map fun cells =>
      Piece.text [43] :: cells ++ [Piece.text [10]]

/-- The names of the columns between two borders; `pad` is `fmt::format` to a width. -/
def header (pad : Bytes → Nat → Bytes) (sizes : List Nat) (row : List Cell) :
    Option (List Piece) :=
  (border sizes row).bind fun line =>
    (row.zipIdx.mapM fun cell : Cell × Nat =>
      sizes[cell.2]?.map fun n => Piece.text (32 :: pad cell.1.name (n + 2) ++ [124])).map fun cells =>
        line ++ Piece.text [124] :: cells ++ Piece.text [10] :: line

/-- A cell as it is printed. -/
def showCell (pad : Bytes → Nat → Bytes) (keyval : Bool) (sizes : List Nat) (cell : Cell × Nat) :
    Option Piece :=
  if keyval then
    some (.cell cell.1
      (ascii "key::" ++ cell.1.name ++ ascii "=\"" ++ cell.1.value ++ ascii "\" "))
  else sizes[cell.2]?.map fun n => .cell cell.1 (32 :: pad cell.1.value (n + 2) ++ [124])

/-- A row, with the border below the last one. -/
def printRow (pad : Bytes → Nat → Bytes) (keyval : Bool) (sizes : List Nat) (last : Bool)
    (row : List Cell) : Option (List Piece) :=
  (row.zipIdx.mapM (showCell pad keyval sizes)).bind fun cells =>
    (if !keyval && last then border sizes row else some []).map fun line =>
      (if keyval then [] else [Piece.text [124]]) ++ cells ++ Piece.text [10] :: line

def printRows (pad : Bytes → Nat → Bytes) (keyval : Bool) (sizes : List Nat) :
    List (List Cell) → Option (List Piece)
  | [] => some []
  | row :: rows =>
      (printRow pad keyval sizes rows.isEmpty row).bind fun out =>
        (printRows pad keyval sizes rows).map (out ++ ·)

/-- The header above the first row, where the columns have new widths. -/
def printHeader (pad : Bytes → Nat → Bytes) (keyval needHeader : Bool) (sizes : List Nat) :
    List (List Cell) → Option (List Piece)
  | [] => some []
  | row :: _ => if needHeader && !keyval then header pad sizes row else some []

/-- `flush`; `none` is an index outside its vector. -/
def flush (pad : Bytes → Nat → Bytes) (t : Table) : Option (Table × List Piece) :=
  let t := finishPending t
  (scanRows none 0 t.vec ⟨t.columnSize, t.columnName, []⟩).bind fun s =>
    (printHeader pad t.keyval (decide (s.sizes ≠ t.columnSize) || s.headers.contains 0)
      s.sizes t.vec).bind fun top =>
        (printRows pad t.keyval s.sizes t.vec).map fun out =>
          ({ t with vec := [], columnSize := s.sizes }, top ++ out)

end Clab.Common.TableFormatter
