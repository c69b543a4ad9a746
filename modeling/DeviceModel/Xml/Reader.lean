import DeviceModel.Xml.Cursor

/-!
Elements read by their pattern: the pattern says which parts of an element count, and all others are
passed over. Elements of one name are collected from the whole element around them; what stands
between them is read afterwards.
-/

namespace DeviceModel.Xml

/-- How often a part may occur. -/
inductive Occurrence
  | once
  /-- At most once; an element that says to be absent is. -/
  | optional
  | many
  deriving DecidableEq, Repr

/-- What an element may hold: text and nothing else, or named parts and, if `ownText`, one piece of
text. -/
inductive Pattern
  | text
  | record (ownText : Bool) (parts : List (String × Occurrence × Pattern))

mutual

/-- The element whose beginning was the last event. -/
def readElement : Nat → Pattern → List Char → List TagPart → Cursor → Option (Item × Cursor)
  | 0, _, _, _, _ => none
  | fuel + 1, pattern, name, tag, c => do
    let name := localName (String.ofList name)
    match pattern with
    | .text =>
      let (s, c) ← c.onlyText?
      return (.element name [] [.text (String.ofList s)], c)
    | .record ownText parts =>
      let attributes ← attributes? tag
      let (content, c) ← readParts fuel ownText parts tag [] [] c
      return (.element name attributes content, c)

/-- The content of the element with the tag `tag`. `seen` has the names of the parts before the place,
and `done` what they hold, the last first. -/
def readParts : Nat → Bool → List (String × Occurrence × Pattern) → List TagPart → List String →
    List Item → Cursor → Option (List Item × Cursor)
  | 0, _, _, _, _, _, _ => none
  | fuel + 1, ownText, parts, tag, seen, done, c => do
    match ← c.next? with
    | (.stop, c) => return (done.reverse, c)
    | (.text s, c) =>
      if !ownText || s.all isSpace then readParts fuel ownText parts tag seen done c
      else if (done.findSome? Item.text?).isSome then none
      else readParts fuel ownText parts tag seen (.text (String.ofList s) :: done) c
    | (.start name inner, c) =>
      let key := localName (String.ofList name)
      match parts.lookup key with
      | none => readParts fuel ownText parts tag seen done (← c.pass?)
      | some (occurrence, pattern) =>
        if key ∈ seen then none
        else if occurrence = .many then
          let c := { c with again := .start name inner :: c.again }
          let (done, c) ← readMany fuel pattern name done [] c
          readParts fuel ownText parts tag (key :: seen) done c
        else if occurrence = .optional ∧ (c.scope.isNil tag ∨ c.scope.isNil inner) then
          readParts fuel ownText parts tag (key :: seen) done (← c.pass?)
        else
          let (item, c) ← readElement fuel pattern name inner c
          readParts fuel ownText parts tag (key :: seen) (item :: done) c

/-- The elements named `name` up to the end of the one around them. `held` has what stands between
them, and comes again. -/
def readMany : Nat → Pattern → List Char → List Item → List Event → Cursor →
    Option (List Item × Cursor)
  | 0, _, _, _, _, _ => none
  | fuel + 1, pattern, name, done, held, c => do
    match ← c.next? with
    | (.stop, c) => return (done, { c with again := held ++ .stop :: c.again })
    | (.text s, c) =>
      readMany fuel pattern name done (if s.all isSpace then held else held ++ [.text s]) c
    | (.start other tag, c) =>
      if other = name then
        let (item, c) ← readElement fuel pattern name tag c
        readMany fuel pattern name (item :: done) held c
      else
        let (es, c) ← c.rest?
        readMany fuel pattern name done (held ++ .start other tag :: es) c

end

/-- The outermost element of a document, whatever its name. An event is read once in each of the
elements around it, and a second time if it comes again. -/
def Element.ofText? (pattern : Pattern) (s : String) : Option Element := do
  let ts := (← tokensOf? s).dropWhile Token.isBlank
  match ← (← Cursor.ofTokens? ts).next? with
  | (.start name tag, c) =>
    let (item, _) ← readElement (4 * ts.length) pattern name tag c
    item.element?
  | _ => none

end DeviceModel.Xml
