import DeviceModel.Binary64
import DeviceModel.Text.Integer
import DeviceModel.Text.LowerCase

/-!
Workbooks: sheets with a row of headings and rows of cells below it; and their text.
-/

namespace DeviceModel

inductive Cell
  | empty
  | text (s : String)
  /-- A whole number as a cell holds it, in 64-bit floating point. -/
  | number (i : Int)
  deriving DecidableEq, Repr

namespace Cell

def ofInt (i : Int) : Cell := .number (Binary64.roundInt i)

def ofText? : Option String → Cell
  | some s => .text s
  | none => .empty

end Cell

structure Sheet where
  name : String
  header : List String
  /-- The columns in which long text is wrapped. -/
  wrap : List Nat := []
  rows : List (List Cell) := []
  deriving DecidableEq, Repr

namespace Sheet

def maxNameLength : Nat := 31

def isReserved (c : Char) : Bool := ['[', ']', ':', '*', '?', '/', '\\'].contains c

/-- The name as a sheet may have it. -/
def cleanName (s : String) : String :=
  String.ofList ((s.toList.map fun c => if isReserved c then '_' else c).take maxNameLength)

/-- The first column with a heading. -/
def column? (header : List String) (h : String) : Option Nat :=
  header.findIdx? (· == h)

/-- A sheet that wraps the text of some columns. -/
def new (name : String) (header : List String) (wrapped : List String)
    (rows : List (List Cell)) : Sheet where
  name := cleanName name
  header := header
  wrap := wrapped.filterMap (column? header)
  rows := rows

theorem length_cleanName_le (s : String) : (cleanName s).length ≤ maxNameLength := by
  simp only [cleanName, String.length_ofList, List.length_take]
  omega

/-- A name that no file can have for a sheet. -/
def isUnusableName (s : String) : Bool :=
  s.isEmpty || s.startsWith "'" || s.endsWith "'"

def maxTextLength : Nat := 32767

def isOverlong : Cell → Bool
  | .text s => maxTextLength < s.length
  | _ => false

/-- The sheet has a name and texts that a file can hold. -/
def isWritable (s : Sheet) : Bool :=
  !isUnusableName s.name && s.header.all (·.length ≤ maxTextLength) &&
    s.rows.all (·.all (!isOverlong ·))

end Sheet

abbrev Book := List Sheet

namespace Book

/-- The names of the sheets differ in more than the case of letters. -/
def namesDiffer (b : Book) : Bool := decide (b.map fun s => Text.lower s.name).Nodup

end Book

/-!
### Text

Workbooks as text: a line for each row, with tabs between the cells, and the sheets one below the other.
-/

/-- The text on one line, without tabs. -/
def Cell.lineText (s : String) : String :=
  s.map fun c => if c = '\t' ∨ c = '\n' ∨ c = '\r' then ' ' else c

def Cell.render : Cell → String
  | .empty => ""
  | .text s => lineText s
  | .number i => Text.intText i

namespace Sheet

def lines (s : Sheet) : List String :=
  s.name :: "\t".intercalate (s.header.map Cell.lineText) ::
    s.rows.map fun row => "\t".intercalate (row.map Cell.render)

end Sheet

/-- All sheets, with an empty line between them. -/
def Book.render (b : Book) : String :=
  "\n".intercalate (b.map fun s => String.join (s.lines.map (· ++ "\n")))

end DeviceModel
