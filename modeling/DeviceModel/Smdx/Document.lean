import DeviceModel.Smdx.Basic
import DeviceModel.Xml.Reader

/-!
The elements of an SMDX document with their attributes, as they stand in it: a part that may be absent
is an option, and nothing is looked up or computed.
-/

namespace DeviceModel.Smdx

namespace Document

structure Symbol where
  id : String
  value : String
  deriving DecidableEq, Repr

structure Point where
  id : String
  offset : Option Int
  type : String
  length : Option Int
  scaleFactor : Option String
  units : Option String
  access : Option String
  mandatory : Option String
  symbols : List Symbol
  deriving DecidableEq, Repr

structure Block where
  type : Option String
  length : Option Int
  name : Option String
  points : List Point
  deriving DecidableEq, Repr

structure Model where
  id : Int
  length : Option Int
  name : Option String
  blocks : List Block
  deriving DecidableEq, Repr

/-- The texts of a point or a symbol. -/
structure Entry where
  id : String
  texts : Texts
  deriving DecidableEq, Repr

/-- The texts in one language. -/
structure Strings where
  id : Int
  locale : String
  model : Option Texts
  points : List Entry
  symbols : List Entry
  deriving DecidableEq, Repr

end Document

structure Document where
  version : String
  model : Document.Model
  strings : List Document.Strings
  deriving DecidableEq, Repr

namespace Document

open Xml (Attribute Element Item Pattern)

def Symbol.pattern : Pattern := .record true []

def Point.pattern : Pattern := .record false [("symbol", .many, Symbol.pattern)]

def Block.pattern : Pattern := .record false [("point", .many, Point.pattern)]

def Model.pattern : Pattern := .record false [("block", .many, Block.pattern)]

def textsPattern : Pattern :=
  .record false
    [("label", .optional, .text), ("description", .optional, .text), ("notes", .optional, .text)]

def Strings.pattern : Pattern :=
  .record false
    [("model", .optional, textsPattern), ("point", .many, textsPattern),
      ("symbol", .many, textsPattern)]

def pattern : Pattern :=
  .record false [("model", .once, Model.pattern), ("strings", .many, Strings.pattern)]

def Symbol.ofElement? (e : Element) : Option Symbol := do
  return ⟨← e.required "id" Attribute.text?, e.text⟩

def Point.ofElement? (e : Element) : Option Point := do
  return {
    id := ← e.required "id" Attribute.text?
    offset := ← e.attribute? "offset" Attribute.integer?
    type := ← e.required "type" Attribute.text?
    length := ← e.attribute? "len" Attribute.integer?
    scaleFactor := ← e.attribute? "sf" Attribute.text?
    units := ← e.attribute? "units" Attribute.text?
    access := ← e.attribute? "access" Attribute.text?
    mandatory := ← e.attribute? "mandatory" Attribute.text?
    symbols := ← (e.children "symbol").mapM Symbol.ofElement? }

def Block.ofElement? (e : Element) : Option Block := do
  return {
    type := ← e.attribute? "type" Attribute.text?
    length := ← e.attribute? "len" Attribute.integer?
    name := ← e.attribute? "name" Attribute.text?
    points := ← (e.children "point").mapM Point.ofElement? }

def Model.ofElement? (e : Element) : Option Model := do
  return {
    id := ← e.required "id" Attribute.integer?
    length := ← e.attribute? "len" Attribute.integer?
    name := ← e.attribute? "name" Attribute.text?
    blocks := ← (e.children "block").mapM Block.ofElement? }

def textsOf (e : Element) : Texts :=
  let text (name : String) := (e.child? name).map Element.text
  ⟨text "label", text "description", text "notes"⟩

def Entry.ofElement? (e : Element) : Option Entry := do
  return ⟨← e.required "id" Attribute.text?, textsOf e⟩

def Strings.ofElement? (e : Element) : Option Strings := do
  return {
    id := ← e.required "id" Attribute.integer?
    locale := (← e.attribute? "locale" Attribute.text?).getD ""
    model := (e.child? "model").map textsOf
    points := ← (e.children "point").mapM Entry.ofElement?
    symbols := ← (e.children "symbol").mapM Entry.ofElement? }

/-- The document of an element that was read by its pattern. -/
def ofElement? (e : Element) : Option Document := do
  return {
    version := (← e.attribute? "v" Attribute.text?).getD ""
    model := ← e.child? "model" >>= Model.ofElement?
    strings := ← (e.children "strings").mapM Strings.ofElement? }

def ofText? (s : String) : Option Document := Element.ofText? pattern s >>= ofElement?

/-- An element with those attributes that are given. -/
def element (name : String) (attributes : List (String × Option String)) (content : List Item) :
    Item :=
  .element name (attributes.filterMap fun (k, v) => v.map (Attribute.ofText k)) content

def integerText (i : Option Int) : Option String := i.map Text.intText

/-- An element that holds text. -/
def textElement (name : String) : Option String → List Item
  | none => []
  | some "" => [element name [] []]
  | some s => [element name [] [.text s]]

def Symbol.item (s : Symbol) : Item :=
  element "symbol" [("id", s.id)] (if s.value = "" then [] else [.text s.value])

def Point.item (p : Point) : Item :=
  element "point"
    [("id", p.id), ("offset", integerText p.offset), ("type", p.type),
      ("len", integerText p.length), ("sf", p.scaleFactor), ("units", p.units),
      ("access", p.access), ("mandatory", p.mandatory)]
    (p.symbols.map Symbol.item)

def Block.item (b : Block) : Item :=
  element "block" [("type", b.type), ("len", integerText b.length), ("name", b.name)]
    (b.points.map Point.item)

def Model.item (m : Model) : Item :=
  element "model" [("id", Text.intText m.id), ("len", integerText m.length), ("name", m.name)]
    (m.blocks.map Block.item)

def textItems (t : Texts) : List Item :=
  textElement "label" t.label ++ textElement "description" t.description ++
    textElement "notes" t.notes

def Entry.item (name : String) (e : Entry) : Item := element name [("id", e.id)] (textItems e.texts)

def Strings.item (s : Strings) : Item :=
  element "strings" [("id", Text.intText s.id), ("locale", s.locale)]
    ((s.model.toList.map fun t => element "model" [] (textItems t)) ++
      s.points.map (Entry.item "point") ++ s.symbols.map (Entry.item "symbol"))

/-- The outermost element of a document. -/
def toElement (d : Document) : Element where
  name := "sunSpecModels"
  attributes := [.ofText "v" d.version]
  content := d.model.item :: d.strings.map Strings.item

end Document

end DeviceModel.Smdx
