import DeviceModel.Book.Sheet
import DeviceModel.Log
import DeviceModel.Text.Blank

/-!
Files: their paths, and what commands need of their surroundings.

### Paths

Paths as text: names between slashes. A slash at the end and a dot behind a slash name nothing of
their own.
-/

namespace DeviceModel.Path

/-- What stands between the slashes. -/
def pieces (p : String) : List String := (Text.splitOn '/' p.toList).map String.ofList

def ofPieces (ps : List String) : String := "/".intercalate ps

/-- `name` within `dir`; a path from the root stays as it is. -/
def join (dir name : String) : String :=
  if dir = "" || name.startsWith "/" then name
  else if dir.endsWith "/" then dir ++ name
  else dir ++ "/" ++ name

/-- The piece at position `i` names something. -/
def isName (piece : String) (i : Nat) : Bool := piece != "" && (piece != "." || i == 0)

/-- The positions of the pieces that name something, the last first. -/
def names (p : String) : List Nat :=
  (((pieces p).zipIdx.filter fun (piece, i) => isName piece i).map (·.2)).reverse

/-- The path of the directory that holds what `p` names. -/
def parent? (p : String) : Option String :=
  match names p with
  | [] => none
  | [_] => some (if p.startsWith "/" then "/" else "")
  | _ :: i :: _ => some (ofPieces ((pieces p).take (i + 1)))

/-- A file name in front of the extension `extension`. -/
def stem? (extension name : String) : Option String :=
  let suffix := "." ++ extension
  if name.endsWith suffix && suffix.length < name.length then
    some (String.ofList (name.toList.take (name.length - suffix.length)))
  else none

theorem join_empty (name : String) : join "" name = name := by simp [join]

end DeviceModel.Path

/-!
### Surroundings

What commands need of their surroundings: files and directories by their paths, and a log.
-/

namespace DeviceModel

/-- Files and a log. An operation that cannot be done gives `none` or `false`. -/
class Host (m : Type → Type) where
  read (path : String) : m (Option String)
  isFile (path : String) : m Bool
  isPresent (path : String) : m Bool
  /-- The names in a directory, in any order. -/
  names? (directory : String) : m (Option (List String))
  /-- Makes a directory and those above it, where they are not there yet. -/
  makeDirectory (path : String) : m Bool
  write (path text : String) : m Bool
  writeBook (path : String) (book : Book) : m Bool
  /-- A file that had the new path is replaced. -/
  rename (path newPath : String) : m Bool
  log (line : LogLine) : m Unit

end DeviceModel
