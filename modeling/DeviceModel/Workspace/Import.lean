import DeviceModel.Smdx.Basic
import DeviceModel.Workspace.Edits

/-!
Import of SMDX models: a group of parameters, one for each point, and a SunSpec model whose points
stand for them.
-/

namespace DeviceModel.Edit

/-- Sets an attribute. -/
def put (k : TreeKind) (u : Uuid) (a : Attr) (v : Value) : Edit Unit := setAttribute k u a.key v

def putText (k : TreeKind) (u : Uuid) (a : Attr) : Option String → Edit Unit
  | some s => put k u a (.string s)
  | none => pure ()

/-- A new child with a name. -/
def addNamed (k : TreeKind) (parent : Uuid) (kind : Kind) (name : String) : Edit Uuid := do
  let u ← addChild k parent kind
  put k u .name (.string name)
  return u

/-- The enumeration of the point types, which is added if there is none. -/
def ensurePointTypes : Edit Uuid := do
  let t ← tree .parameters
  match (t.ofKind .enumeration).find? (·.name == PointType.enumerationName) with
  | some n => return n.uuid
  | none =>
    let e ← addNamed .parameters t.root.uuid .enumeration PointType.enumerationName
    for (type, i) in PointType.all.zipIdx do
      let u ← addNamed .parameters e .enumerator type.name
      put .parameters u .value (.integer i)
    return e

/-- The enumeration of the named values of a point. -/
def importSymbols (group : Uuid) (p : Smdx.Point) : Edit Uuid := do
  let e ← addNamed .parameters group .enumeration p.id
  for s in p.symbols do
    let u ← addNamed .parameters e .enumerator s.id
    put .parameters u .value (.integer s.value)
    putText .parameters u .label s.texts.label
    putText .parameters u .description s.texts.description
  return e

/-- The parameter of a point. -/
def importParameter (group : Uuid) (p : Smdx.Point) : Edit Uuid := do
  let u ← addNamed .parameters group .parameter (p.texts.label.getD p.id)
  put .parameters u .abbreviation (.string p.id)
  putText .parameters u .units p.units
  putText .parameters u .description p.texts.description
  putText .parameters u .comment p.texts.notes
  put .parameters u .readOnly (.bool (!p.writable))
  if !p.symbols.isEmpty then
    put .parameters u .enumeration (.uuid (← importSymbols group p))
  return u

/-- The point of the SunSpec model that stands for a parameter. -/
def importPoint (block : Uuid) (p : Smdx.Point) (parameter : Uuid) : Edit Uuid := do
  let l := (← models).lookup
  let u ← dropNode .sunSpec parameter block none
  match p.type.enumerator? l with
  | some e => put .sunSpec u .pointType (.uuid e)
  | none => pure ()
  put .sunSpec u .size (.integer p.size)
  put .sunSpec u .mandatory (.bool p.mandatory)
  putText .sunSpec u .units p.units
  return u

/-- The node of the last of the points with an id. -/
def pointWith (id : String) (points : List (Smdx.Point × Uuid)) : Option Uuid :=
  (points.reverse.find? (·.1.id == id)).map (·.2)

/-- Links a point to the one that holds its scale factor. -/
def linkFactor (points : List (Smdx.Point × Uuid)) (p : Smdx.Point) : Edit Unit := do
  match p.scaleFactorPoint? >>= (pointWith · points), pointWith p.id points with
  | some factor, some u => put .sunSpec u .factorPoint (.uuid factor)
  | _, _ => pure ()

/-- Imports a model and gives the SunSpec model that was added. -/
def importModel (m : Smdx.Model) : Edit Uuid := do
  let _ ← ensurePointTypes
  let group ← addNamed .parameters (← tree .parameters).root.uuid .group (m.texts.label.getD m.name)
  let parameters ← m.points.mapM (importParameter group)
  let model ← addNamed .sunSpec (← tree .sunSpec).root.uuid .sunSpecModel m.name
  put .sunSpec model .id (.integer m.id)
  match ((← tree .sunSpec).children model).find? (·.kind == .fixedBlock) with
  | none => throw (.notFound model)
  | some block =>
    let points ← (m.points.zip parameters).mapM fun (p, parameter) => do
      return (p, ← importPoint block.uuid p parameter)
    for p in m.points do linkFactor points p
    log .info ("Imported SMDX model " ++ Text.intText m.id ++ " (" ++ m.name ++ ") with " ++
      Text.natText parameters.length ++ " points")
    return model

end DeviceModel.Edit
