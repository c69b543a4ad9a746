import DeviceModel.Smdx.Document
import DeviceModel.Xml.Basic

/-!
SMDX documents of SunSpec models. Offsets and lengths are written as the model has them; an id that
several symbols share has the texts of the first.
-/

namespace DeviceModel.Smdx

def Symbol.toDocument (s : Symbol) : Document.Symbol := ⟨s.id, Text.intText s.value⟩

def Point.toDocument (p : Point) : Document.Point where
  id := p.id
  offset := some p.offset
  type := p.type.name
  length := if p.type.registers? = some p.size then none else some p.size
  scaleFactor := p.scaleFactor
  units := p.units
  access := if p.writable then some "rw" else none
  mandatory := if p.mandatory then some "true" else none
  symbols := p.symbols.map Symbol.toDocument

def Block.toDocument (b : Block) : Document.Block where
  type := if b.repeating then some "repeating" else none
  length := some b.length
  name := b.name
  points := b.points.map Point.toDocument

/-- The symbols without those that repeat an id. -/
def firstOfEach (ss : List Symbol) : List Symbol :=
  ss.foldl (fun seen s => if seen.any (·.id == s.id) then seen else seen ++ [s]) []

namespace Model

def strings (m : Model) : Document.Strings where
  id := m.id
  locale := "en"
  model := some m.texts
  points := m.points.map fun p => ⟨p.id, p.texts⟩
  symbols := (firstOfEach (m.points.flatMap (·.symbols))).map fun s => ⟨s.id, s.texts⟩

def toDocument (m : Model) : Document where
  version := "1"
  model := {
    id := m.id
    length := some m.length
    name := some m.name
    blocks := m.blocks.map Block.toDocument }
  strings := [m.strings]

def text (m : Model) : String := m.toDocument.toElement.document

end Model

/-- The name of the file of the model `id`, with five digits at least. -/
def fileName (id : Int) : String :=
  let digits := if id < 0 then "-" ++ Text.padZeros 4 (Text.natText id.natAbs)
    else Text.padZeros 5 (Text.natText id.natAbs)
  "smdx_" ++ digits ++ ".xml"

end DeviceModel.Smdx
