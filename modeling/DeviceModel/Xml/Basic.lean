import DeviceModel.Text.Integer

/-!
Marked-up documents, and their text.

### References

What stands in markup for a character that would end the text around it, or for any
character by its number.
-/

namespace DeviceModel.Xml

/-- The character that a numeric reference stands for. -/
def characterOf? (base : Nat) (digits : List Char) : Option Char := do
  let n ← Text.readNat? base digits
  if n = 0 then none
  else if h : n.isValidChar then some (Char.ofNatAux n h)
  else none

/-- The text that a reference stands for. -/
def resolve? (name : List Char) : Option Char :=
  match name with
  | '#' :: 'x' :: digits => characterOf? 16 digits
  | '#' :: digits => characterOf? 10 digits
  | _ => [("lt", '<'), ("gt", '>'), ("amp", '&'), ("apos", '\''), ("quot", '"')].lookup
      (String.ofList name)

/-- The name of a reference, and what follows its semicolon. -/
def referenceName? : List Char → Option (List Char × List Char)
  | [] => none
  | c :: cs =>
    if c = ';' then some ([], cs)
    else if c = '&' ∨ c = '<' then none
    else (referenceName? cs).map fun (name, rest) => (c :: name, rest)

theorem length_of_referenceName? {cs name rest : List Char}
    (h : referenceName? cs = some (name, rest)) : rest.length < cs.length := by
  induction cs generalizing name with
  | nil => cases h
  | cons c cs ih =>
    simp only [referenceName?] at h
    split at h
    · cases h; simp
    · split at h
      · cases h
      · simp only [Option.map_eq_some_iff, Prod.mk.injEq] at h
        obtain ⟨⟨n, r⟩, hr, rfl, rfl⟩ := h
        have : r.length < cs.length := ih hr
        simp only [List.length_cons]
        omega

/-- The text with its references resolved. -/
def unescape? (cs : List Char) : Option (List Char) :=
  match cs with
  | [] => some []
  | '&' :: cs =>
    match _reference : referenceName? cs with
    | none => none
    | some (name, rest) => do return (← resolve? name) :: (← unescape? rest)
  | c :: cs => do return c :: (← unescape? cs)
termination_by cs.length
decreasing_by
  · have := length_of_referenceName? _reference
    simp only [List.length_cons]
    omega
  · simp

def escapeText (c : Char) : List Char :=
  match c with
  | '<' => "&lt;".toList
  | '>' => "&gt;".toList
  | '&' => "&amp;".toList
  | c => [c]

def escapeValue (c : Char) : List Char := if c = '"' then "&quot;".toList else escapeText c

def escaped (f : Char → List Char) (s : String) : String := String.ofList (s.toList.flatMap f)

/-!
### Documents

Elements with attributes, and text between them. An attribute keeps the form in
which it is written, as numbers are read from it without looking for references.
-/

structure Attribute where
  name : String
  written : String
  deriving DecidableEq, Repr

inductive Item where
  | text (s : String)
  | element (name : String) (attributes : List Attribute) (content : List Item)
  deriving Inhabited

structure Element where
  name : String
  attributes : List Attribute
  content : List Item

def isSpace (c : Char) : Bool := c == ' ' || c == '\t' || c == '\n' || c == '\r'

/-- The text without blanks around it. -/
def trimSpaces (cs : List Char) : List Char :=
  ((cs.dropWhile isSpace).reverse.dropWhile isSpace).reverse

/-- The name behind a namespace. -/
def localName (name : String) : String :=
  match name.toList.dropWhile (· ≠ ':') with
  | _ :: r => String.ofList r
  | [] => name

/-- The name under which an attribute is known. -/
def attributeName (name : String) : String :=
  if name.startsWith "xml:" || name.startsWith "xmlns:" then name else localName name

namespace Attribute

def ofText (name text : String) : Attribute := ⟨name, escaped escapeValue text⟩

def text? (a : Attribute) : Option String := (unescape? a.written.toList).map String.ofList

/-- An integer with blanks around it, and no references in it. -/
def integer? (a : Attribute) : Option Int := Text.readInt? 10 (trimSpaces a.written.toList)

end Attribute

namespace Item

def element? : Item → Option Element
  | .text _ => none
  | .element n as c => some ⟨n, as, c⟩

def text? : Item → Option String
  | .text s => some s
  | .element .. => none

end Item

namespace Element

/-- The attribute `key` in the form that `read` gives it; an element has none of them twice. -/
def attribute? (e : Element) (key : String) (read : Attribute → Option α) : Option (Option α) :=
  match e.attributes.filter (attributeName ·.name == key) with
  | [] => some none
  | [a] => (read a).map some
  | _ => none

def required (e : Element) (key : String) (read : Attribute → Option α) : Option α := do
  ← e.attribute? key read

def children (e : Element) (name : String) : List Element :=
  (e.content.filterMap Item.element?).filter (·.name == name)

def child? (e : Element) (name : String) : Option Element := (e.children name).head?

/-- The text of an element that holds at most one piece of it. -/
def text (e : Element) : String := (e.content.findSome? Item.text?).getD ""

end Element

/-!
### Text

Each element on a line of its own and two spaces further in than the one
around it.
-/

def attributeText (a : Attribute) : String := " " ++ a.name ++ "=\"" ++ a.written ++ "\""

def newline (depth : Nat) : String := "\n" ++ String.ofList (List.replicate (2 * depth) ' ')

namespace Item

/-- The text of an item that begins `depth` steps in. -/
def write (depth : Nat) : Item → String
  | .text s => escaped escapeText s
  | .element n as c =>
    let head := "<" ++ n ++ String.join (as.map attributeText)
    if c.isEmpty then head ++ "/>" else head ++ ">" ++ inside depth c ++ "</" ++ n ++ ">"
where
  inside (depth : Nat) : List Item → String
    | [] => ""
    | i@(.text _) :: is => write (depth + 1) i ++ inside depth is
    | [i@(.element ..)] => newline (depth + 1) ++ write (depth + 1) i ++ newline depth
    | i@(.element ..) :: is => newline (depth + 1) ++ write (depth + 1) i ++ inside depth is

end Item

def Element.item (e : Element) : Item := .element e.name e.attributes e.content

/-- The document with the outermost element `e`. -/
def Element.document (e : Element) : String :=
  "<?xml version=\"1.0\" encoding=\"UTF-8\"?>\n" ++ e.item.write 0 ++ "\n"

end DeviceModel.Xml
