import Clab.Common.Text
import Clab.Lib.JsonText

/-!
# The JSON formatter

`JSONFormatter` writes a value of JSON while its caller describes it: sections that are opened
and closed, with values in them. A value that `dump_stream` announces is written by the call
that follows, whichever that is.
-/

namespace Clab.Common

/-- A section that is open: how many values it has, and whether it is an array. -/
structure JsonEntry where
  size : Nat
  isArray : Bool

/-- The top of `m_stack` comes first. -/
structure JSONFormatter where
  pretty : Bool
  ss : Bytes := []
  pendingString : Bytes := []
  pendingName : Bytes := []
  stack : List JsonEntry := []
  isPendingString : Bool := false
  lineBreakEnabled : Bool := false

/-! ## `json_stream_escaper` -/

def hexDigit (d : UInt8) : UInt8 := if d < 10 then 48 + d else 87 + d

def jsonEscape (c : UInt8) : Bytes :=
  if c = 34 then [92, 34]
  else if c = 92 then [92, 92]
  else if c = 9 then [92, 116]
  else if c = 10 then [92, 110]
  else if c < 32 ∨ c = 127 then [92, 117, 48, 48, hexDigit (c / 16), hexDigit (c % 16)]
  else [c]

def quoted (s : Bytes) : Bytes := 34 :: (s.flatMap jsonEscape ++ [34])

namespace JSONFormatter

/-! ## The stack machine -/

def reset (f : JSONFormatter) : JSONFormatter :=
  { f with stack := [], ss := [], pendingString := [] }

/-- The constructor. -/
def new (pretty : Bool) : JSONFormatter := reset { pretty }

def enableLineBreak (f : JSONFormatter) : JSONFormatter := { f with lineBreakEnabled := true }

/-- `m_ss << bs`. -/
def put (f : JSONFormatter) (bs : Bytes) : JSONFormatter := { f with ss := f.ss ++ bs }

def indent (f : JSONFormatter) : Bytes := List.replicate (4 * (f.stack.length - 1)) 32

def printComma (f : JSONFormatter) (entry : JsonEntry) : JSONFormatter :=
  let f :=
    if entry.size ≠ 0 then
      if f.pretty then f.put ([44, 10] ++ f.indent) else f.put [44]
    else if f.pretty then f.put (10 :: f.indent)
    else f
  if f.pretty && entry.isArray then f.put (List.replicate 4 32) else f

/-- `print_name` behind its `finish_pending_string`. -/
def putName (f : JSONFormatter) (name : Bytes) : JSONFormatter :=
  match f.stack with
  | [] => f
  | entry :: stack =>
      let f := f.printComma entry
      let f :=
        if entry.isArray then f
        else
          let f := if f.pretty then f.put (List.replicate 4 32) else f
          let f := f.put (34 :: (name ++ [34]))
          f.put (if f.pretty then [58, 32] else [58])
      { f with stack := { entry with size := entry.size + 1 } :: stack }

/-- What `add_value` puts behind the name. -/
def putValue (f : JSONFormatter) (val : Bytes) (quote : Bool) : JSONFormatter :=
  f.put (if quote then quoted val else val)

/-- The flag is cleared before `add_value` is called, so the call from there does nothing. -/
def finishPendingString (f : JSONFormatter) : JSONFormatter :=
  if f.isPendingString then
    let f := { f with isPendingString := false }
    let f := (f.putName (cStr f.pendingName)).putValue f.pendingString true
    { f with pendingString := [] }
  else f

def printName (f : JSONFormatter) (name : Bytes) : JSONFormatter :=
  f.finishPendingString.putName name

def addValue (f : JSONFormatter) (name val : Bytes) (quote : Bool) : JSONFormatter :=
  (f.printName name).putValue val quote

def openSection (f : JSONFormatter) (name : Bytes) (isArray : Bool) : JSONFormatter :=
  let f := (f.printName name).put (if isArray then [91] else [123])
  { f with stack := { size := 0, isArray } :: f.stack }

/-- `none` is the assertion that a section is open. -/
def closeSection (f : JSONFormatter) : Option JSONFormatter :=
  if f.stack.isEmpty then none
  else
    let f := f.finishPendingString
    match f.stack with
    | [] => none
    | entry :: stack =>
        let f := if f.pretty && entry.size ≠ 0 then f.put (10 :: f.indent) else f
        let f := f.put (if entry.isArray then [93] else [125])
        let f := { f with stack := stack }
        some (if f.pretty && f.stack.isEmpty then f.put [10] else f)

def dumpNull (f : JSONFormatter) (name : Bytes) : JSONFormatter :=
  f.addValue name (ascii "null") false

def dumpUnsigned (f : JSONFormatter) (name : Bytes) (u : UInt64) : JSONFormatter :=
  f.addValue name (decimal u.toNat) false

def dumpInt (f : JSONFormatter) (name : Bytes) (s : Int64) : JSONFormatter :=
  f.addValue name (decimalInt s.toInt) false

def dumpString (f : JSONFormatter) (name s : Bytes) : JSONFormatter := f.addValue name s true

/-- `dump_stream(name) << s`. -/
def dumpStream (f : JSONFormatter) (name s : Bytes) : JSONFormatter :=
  let f := f.finishPendingString
  { f with pendingName := name, isPendingString := true, pendingString := f.pendingString ++ s }

/-- The text that is written out, and the formatter that is left. -/
def flush (f : JSONFormatter) : Bytes × JSONFormatter :=
  let f := f.finishPendingString
  (f.ss ++ (if f.lineBreakEnabled then [10] else []), { f with ss := [] })

end JSONFormatter

/-! ## What is told -/

/-- The calls that describe a value. -/
inductive JsonCall where
  | openObject (name : Bytes)
  | openArray (name : Bytes)
  | close
  | null (name : Bytes)
  | unsigned (name : Bytes) (u : UInt64)
  | int (name : Bytes) (s : Int64)
  | string (name s : Bytes)
  | stream (name s : Bytes)

namespace JSONFormatter

def apply (f : JSONFormatter) : JsonCall → Option JSONFormatter
  | .openObject name => some (f.openSection name false)
  | .openArray name => some (f.openSection name true)
  | .close => f.closeSection
  | .null name => some (f.dumpNull name)
  | .unsigned name u => some (f.dumpUnsigned name u)
  | .int name s => some (f.dumpInt name s)
  | .string name s => some (f.dumpString name s)
  | .stream name s => some (f.dumpStream name s)

def run (f : JSONFormatter) (calls : List JsonCall) : Option JSONFormatter :=
  calls.foldlM apply f

end JSONFormatter

open Json (Value)

/-- Well-nested calls within a section, and the named values they tell. -/
inductive Tells : List JsonCall → List (Bytes × Value) → Prop
  | nil : Tells [] []
  | null {calls values} (name : Bytes) (h : Tells calls values) :
      Tells (.null name :: calls) ((name, .null) :: values)
  | unsigned {calls values} (name : Bytes) (u : UInt64) (h : Tells calls values) :
      Tells (.unsigned name u :: calls) ((name, .number u.toNat) :: values)
  | int {calls values} (name : Bytes) (s : Int64) (h : Tells calls values) :
      Tells (.int name s :: calls) ((name, .number s.toInt) :: values)
  | string {calls values} (name s : Bytes) (h : Tells calls values) :
      Tells (.string name s :: calls) ((name, .string s) :: values)
  | stream {calls values} (name s : Bytes) (h : Tells calls values) :
      Tells (.stream name s :: calls) ((name, .string s) :: values)
  | object {inner members calls values} (name : Bytes) (hinner : Tells inner members)
      (h : Tells calls values) :
      Tells (.openObject name :: (inner ++ .close :: calls)) ((name, .object members) :: values)
  | array {inner members calls values} (name : Bytes) (hinner : Tells inner members)
      (h : Tells calls values) :
      Tells (.openArray name :: (inner ++ .close :: calls))
        ((name, .array (members.map Prod.snd)) :: values)

/-- The calls of one section with all that is in it, and the value they tell; the name of a section
that is in no other is not part of it. -/
inductive TellsTop : List JsonCall → Value → Prop
  | object {inner members} (name : Bytes) (h : Tells inner members) :
      TellsTop (.openObject name :: (inner ++ [.close])) (.object members)
  | array {inner members} (name : Bytes) (h : Tells inner members) :
      TellsTop (.openArray name :: (inner ++ [.close])) (.array (members.map Prod.snd))

/-- The calls go through, and the flushed text is JSON for the value. -/
def Emits (f : JSONFormatter) (calls : List JsonCall) (v : Value) : Prop :=
  ∃ g, f.run calls = some g ∧ Json.parse g.flush.1 = some v

end Clab.Common
