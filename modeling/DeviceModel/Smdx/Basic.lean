import DeviceModel.Register.PointType

/-!
SunSpec models as they are interchanged: blocks of points with their texts and the names of their
values.
-/

namespace DeviceModel

namespace Smdx

/-- What stands beside an element for a reader. -/
structure Texts where
  label : Option String := none
  description : Option String := none
  notes : Option String := none
  deriving DecidableEq, Repr, Inhabited

/-- A named value of a point. -/
structure Symbol where
  id : String
  value : Int
  texts : Texts
  deriving DecidableEq, Repr

structure Point where
  id : String
  /-- Registers from the end of the header on. -/
  offset : Int := 0
  type : PointType
  size : Int := (type.registers?).getD 1
  /-- The id of the point with the scale factor, or a constant exponent. -/
  scaleFactor : Option String := none
  units : Option String := none
  writable : Bool := false
  mandatory : Bool := false
  texts : Texts := {}
  symbols : List Symbol := []
  deriving DecidableEq, Repr

/-- The id of the point with the scale factor; none for a constant. -/
def Point.scaleFactorPoint? (p : Point) : Option String :=
  p.scaleFactor.filter fun s => (Text.readInt? 10 s.toList).isNone

structure Block where
  repeating : Bool
  name : Option String
  length : Int
  points : List Point
  deriving DecidableEq, Repr

structure Model where
  id : Int
  name : String
  /-- The registers behind the header. -/
  length : Int
  texts : Texts
  blocks : List Block
  deriving DecidableEq, Repr

namespace Model

/-- All points in the order of their registers. -/
def points (m : Model) : List Point := m.blocks.flatMap (·.points)

def point? (m : Model) (id : String) : Option Point := m.points.find? (·.id == id)

/-- The length of the first block that does not repeat. -/
def fixedLength? (m : Model) : Option Int := (m.blocks.find? (!·.repeating)).map (·.length)

end Model

end Smdx

/-- Why a document is not a model, or a model cannot be had. -/
inductive SmdxError
  | malformed
  | unknownType (point type : String)
  | noLength (point : String) (type : String)
  | unknownScaleFactor (point scaleFactor : String)
  | symbolValue (point symbol value : String)
  | notFound (id : Int) (searched : List String)
  | io (path : String)
  deriving DecidableEq, Repr

/-- The message; none where the document itself could not be read. -/
def SmdxError.message? : SmdxError → Option String
  | .malformed => none
  | .unknownType p t => some ("Point " ++ p ++ " has unknown type " ++ Text.quoted t)
  | .noLength p t => some ("Point " ++ p ++ " of type " ++ t ++ " has no length")
  | .unknownScaleFactor p s =>
    some ("Point " ++ p ++ " refers to unknown scale factor " ++ Text.quoted s)
  | .symbolValue p s v =>
    some ("Symbol " ++ s ++ " of point " ++ p ++ " has non-integer value " ++ Text.quoted v)
  | .notFound id dirs =>
    some ("No SMDX file for model " ++ Text.intText id ++ " in " ++ Text.quotedList dirs)
  | .io path => some path

end DeviceModel
