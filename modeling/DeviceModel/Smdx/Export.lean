import DeviceModel.Export.Error
import DeviceModel.Register.Map
import DeviceModel.Text.Blank

/-!
The SMDX form of a SunSpec model: its registers behind the header as points of one fixed block.
-/

namespace DeviceModel.Smdx

/-- A text with more than blanks in it. -/
def nonBlank (s : Option String) : Option String := s.filter fun s => !s.toList.all Text.isBlank

def Symbol.ofEnumerator (e : Node) : Symbol where
  id := (nonBlank (e.text? .abbreviation)).getD e.name
  value := e.int .value
  texts := {
    label := some ((nonBlank (e.text? .label)).getD e.name)
    description := nonBlank (e.text? .description) }

/-- The named values of a parameter. -/
def symbolsOf (l : Lookup) (parameter : Uuid) : List Symbol :=
  match l.attribute? parameter .enumeration >>= Value.uuid? with
  | none => []
  | some e =>
    match l.treeOf? e with
    | none => []
    | some t => (t.children e).map Symbol.ofEnumerator

/-- The point of a register, with `header` registers in front of the first point. -/
def Point.ofRegister (l : Lookup) (t : Tree) (header : Int) (r : Register) : Point where
  id := l.pointId r.point
  offset := r.offset - header
  type := r.type
  size := r.size
  scaleFactor := l.scaleFactorId? t r
  units := r.units?.or (nonBlank (l.parameterText? r .units))
  writable := !l.isReadOnly r
  mandatory := r.point.flag .mandatory
  texts := {
    label := nonBlank (r.parameter?.map l.name)
    description := nonBlank (l.parameterText? r .description)
    notes := nonBlank (l.parameterText? r .comment) }
  symbols := (r.parameter?.map (symbolsOf l)).getD []

def Model.ofNode (l : Lookup) (t : Tree) (model : Node) : Except ExportError Model := do
  let rs ← (l.sunSpecRegisters t model.uuid).mapError .model
  let header := ((rs.filter (·.header)).map (·.size)).foldr (· + ·) 0
  let points := (rs.filter (!·.header)).map (Point.ofRegister l t header)
  let length := (model.data.int? .length).getD ((points.map (·.size)).foldr (· + ·) 0)
  return {
    id := model.int .id
    name := model.name
    length := length
    texts := { label := nonBlank (some model.name) }
    blocks := [{
      repeating := false
      name := none
      length := length
      points := points }] }

end DeviceModel.Smdx
