import DeviceModel.Text.Cut

/-!
Text of generated code: nested lines, and templates. Main statement: the template of a text that has no opening
brace is that text.

### Lines

Lines of code in nested blocks, each block one step further in.
-/

namespace DeviceModel

inductive Lines where
  | line (text : String)
  | block (ls : List Lines)
  deriving Repr, Inhabited

namespace Lines

def blank : Lines := .line ""

def indentation (depth : Nat) : String := String.ofList (List.replicate (4 * depth) ' ')

/-- The lines with their newlines; an empty line is not indented. -/
def renderAt (depth : Nat) : Lines → String
  | .line "" => "\n"
  | .line s => indentation depth ++ s ++ "\n"
  | .block ls => each depth ls
where
  each (depth : Nat) : List Lines → String
    | [] => ""
    | l :: ls => renderAt (depth + 1) l ++ each depth ls

def render (ls : List Lines) : String := String.join (ls.map (renderAt 0))

theorem renderAt_blank (depth : Nat) : renderAt depth blank = "\n" := rfl

end Lines

/-!
### Templates

Text with fields in double braces, which a backslash in front of them makes text again.
-/

inductive Piece
  | text (s : String)
  | field (name : String)
  deriving DecidableEq, Repr

abbrev Template := List Piece

inductive TemplateError
  | malformed
  | unknownField (name : String)
  deriving DecidableEq, Repr

namespace Template

def isNameChar (c : Char) : Bool := c.isAlphanum || c == '_' || c == '-' || 128 ≤ c.toNat

/-- The name of a field, with blanks around it. The word for the other branch of a choice is none. -/
def fieldName? (cs : List Char) : Option String :=
  let cs := (cs.dropWhile Char.isWhitespace).reverse.dropWhile Char.isWhitespace |>.reverse
  if !cs.isEmpty && cs.all isNameChar && cs != "else".toList then some (String.ofList cs) else none

/-- The text in front of two braces, and what the braces are if backslashes stand in front of them:
after one backslash they are text, after several they open a field. One backslash is left out. -/
def beforeBraces (cs : List Char) : List Char × Bool :=
  match (cs.reverse.takeWhile (· == '\\')).length with
  | 0 => (cs, true)
  | 1 => (cs.dropLast, false)
  | _ => (cs.dropLast, true)

/-- Braces that are text, and what follows them: as many pairs as two, if they are there. -/
def plainBraces (cs : List Char) : List Char × List Char :=
  match cs with
  | '\x7b' :: '\x7b' :: rest => (['\x7b', '\x7b', '\x7b', '\x7b'], rest)
  | rest => (['\x7b', '\x7b'], rest)

theorem length_plainBraces_le (cs : List Char) : (plainBraces cs).2.length ≤ cs.length := by
  unfold plainBraces
  split
  · simp only [List.length_cons]; omega
  · exact Nat.le_refl _

def ofChars (cs : List Char) : Except TemplateError Template :=
  match _opening : Text.cut? ['\x7b', '\x7b'] cs with
  | none => .ok [.text (String.ofList cs)]
  | some (before, inside) =>
    let (before, opens) := beforeBraces before
    if opens then
      match _closing : Text.cut? ['\x7d', '\x7d'] inside with
      | none => .error .malformed
      | some (name, after) => do
        match fieldName? name with
        | none => .error .malformed
        | some f => return .text (String.ofList before) :: .field f :: (← ofChars after)
    else do
      let braces := (plainBraces inside).1
      return .text (String.ofList (before ++ braces)) :: (← ofChars (plainBraces inside).2)
termination_by cs.length
decreasing_by
  · have := Text.length_of_cut? _opening
    have := Text.length_of_cut? _closing
    simp only [List.length_cons] at *
    omega
  · have := Text.length_of_cut? _opening
    have := length_plainBraces_le inside
    simp only [List.length_cons] at *
    omega

def ofText (s : String) : Except TemplateError Template := ofChars s.toList

/-- The text with the fields filled in. -/
def fill (values : List (String × String)) : Template → Except TemplateError String
  | [] => .ok ""
  | .text s :: ps => return s ++ (← fill values ps)
  | .field f :: ps =>
    match values.lookup f with
    | some v => return v ++ (← fill values ps)
    | none => .error (.unknownField f)

theorem ofText_plain {s : String} (h : '\x7b' ∉ s.toList) : ofText s = .ok [.text s] := by
  unfold ofText ofChars
  rw [Text.cut?_eq_none h]
  simp

end Template

end DeviceModel
