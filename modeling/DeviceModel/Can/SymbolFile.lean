import DeviceModel.Can.Matrix

/-!
Symbol files: the text of a CAN matrix for bus analysers. Frames stand in a group for each direction;
a frame with sections is repeated for each of them.
-/

namespace DeviceModel.Can

/-- The text on one line, with single spaces between its words. -/
def oneLine (s : String) : String := " ".intercalate (Text.words s)

/-- A comment at the end of a line. -/
def commentText (c : Option String) : String :=
  match c.filter (· ≠ "") with
  | some c => "\t// " ++ oneLine c
  | none => ""

def decimalText (d : Decimal) : String := d.normalize.text

/-- An option of a signal, where it is given. -/
def optionText (lead : String) : Option String → String
  | some v => lead ++ v
  | none => ""

def Signal.line (s : Signal) : String :=
  "Var=" ++ s.name ++ (if s.signed then " signed " else " unsigned ") ++ Text.intText s.startBit ++
    "," ++ Text.intText s.bits ++
    optionText " /u:" ((s.unit.filter (· ≠ "")).map (·.map fun c => if c = ' ' then '_' else c)) ++
    optionText " /f:" (if s.factor.same .one then none else some (decimalText s.factor)) ++
    optionText " /min:" (s.minimum.map decimalText) ++
    optionText " /max:" (s.maximum.map decimalText) ++
    optionText " /e:" s.enumeration ++
    optionText " /p:" s.decimalPlaces ++
    optionText " /ln:" ((s.longName.filter (· ≠ s.name)).map fun n => "\"" ++ n ++ "\"") ++
    optionText " /d:" s.startValue ++
    (if s.hexadecimal then " -h" else "") ++
    commentText s.comment

/-- The lines of a section behind the name and length of its frame. -/
def Section.lines (selector : Selector) (common : List Signal) (s : Section) : List String :=
  ("Mux=" ++ s.name ++ " " ++ Text.intText selector.startBit ++ "," ++ Text.intText selector.bits ++
      " " ++ Text.hexText s.value ++ "h" ++ commentText s.comment) ::
    (common ++ s.signals).map Signal.line

namespace Frame

def title (f : Frame) : String := "[" ++ f.name ++ "]"

def lengthLine (n : Int) : String := "DLC=" ++ Text.intText n

def headLines (f : Frame) : List String :=
  [f.title, "ID=" ++ Text.padZeros 3 (Text.hexText f.id) ++ "h" ++ commentText f.comment] ++
    (if f.extended then ["Type=Extended"] else []) ++
    [lengthLine f.length] ++
    (f.cycleTime.toList.map ("CycleTime=" ++ ·))

def lines (f : Frame) : List String :=
  f.headLines ++
    match f.selector, f.sections with
    | some selector, s :: ss =>
      s.lines selector f.signals ++
        ss.flatMap fun s => f.title :: lengthLine s.length :: s.lines selector f.signals
    | _, _ => f.signals.map Signal.line

end Frame

namespace Direction

def all : List Direction := [.send, .receive, .both]

def heading : Direction → String
  | .send => "\x7bSEND\x7d"
  | .receive => "\x7bRECEIVE\x7d"
  | .both => "\x7bSENDRECEIVE\x7d"

end Direction

def enumerationLine (name : String) (e : Enumeration) : String :=
  "enum " ++ name ++ "(" ++
    ", ".intercalate (e.map fun (v, n) => Text.intText v ++ "=\"" ++ n ++ "\"") ++ ")"

namespace Matrix

def enumerationLines (m : Matrix) : List String :=
  if m.enumerations.isEmpty then []
  else "" :: "\x7bENUMS\x7d" :: m.enumerations.map fun (name, e) => enumerationLine name e

/-- The frames of one direction. -/
def group (m : Matrix) (d : Direction) : List String :=
  match m.frames.filter (·.direction == d) with
  | [] => []
  | fs => "" :: d.heading :: fs.flatMap fun f => "" :: f.lines

def lines (m : Matrix) : List String :=
  ["FormatVersion=5.0 // Do not edit this line!", "Title=\"" ++ m.title ++ "\""] ++
    m.enumerationLines ++ Direction.all.flatMap m.group

def text (m : Matrix) : String := String.join (m.lines.map (· ++ "\n"))

end Matrix

/-- Every line of a frame is in the text of its matrix. -/
theorem Matrix.mem_lines_of_mem_frames {m : Matrix} {f : Frame} {s : String} (hf : f ∈ m.frames)
    (hs : s ∈ f.lines) : s ∈ m.lines := by
  have hd : f.direction ∈ Direction.all := by cases f.direction <;> decide
  refine List.mem_append_right _ (List.mem_flatMap.2 ⟨f.direction, hd, ?_⟩)
  have hg : f ∈ m.frames.filter (·.direction == f.direction) := by simp [hf]
  unfold group
  split
  · rename_i h; simp [h] at hg
  · simp only [List.mem_cons, List.mem_flatMap]
    exact .inr (.inr ⟨f, hg, .inr hs⟩)

end DeviceModel.Can
