import DeviceModel.Register.Layout

/-!
Register maps: the points of a SunSpec model, or of the static map, with their addresses. A reference
to a repeating block stands for the points of that block, from the address of the reference on.
-/

namespace DeviceModel

/-- A point at its place in a map. -/
structure Register where
  point : Node
  /-- From the start of the model, its header included, or of the static map. -/
  offset : Int
  blockOffset : Int
  size : Int
  type : PointType
  header : Bool
  /-- The reference that put the point here. -/
  reference : Option Node

namespace Register

def parameter? (r : Register) : Option Uuid := r.point.ref? .parameter

def factor? (r : Register) : Option Uuid := r.point.ref? .factorPoint

def units? (r : Register) : Option String := (r.point.text? .units).filter (· ≠ "")

/-- The register of the point `n`, whose size must be that of its type. -/
def ofPoint (l : Lookup) (n : Node) (offset blockOffset : Int) (header : Bool)
    (reference : Option Node) : Except Error Register := do
  let size ← l.pointSize n
  let type ← l.pointType n.uuid (n.ref? .pointType)
  return ⟨n, offset, blockOffset, size, type, header, reference⟩

end Register

/-- What the layout `ps` gives an attribute of `n`; what is stored where it gives none. -/
def placed (ps : List Placement) (n : Node) (a : Attr) : Int :=
  match ps.find? fun p => p.uuid == n.uuid && p.attr == a with
  | some p => p.value
  | none => n.int a

namespace Lookup

/-- The register of one child of the reference `r`, which stands for a point of the block. -/
def referencedRegister (l : Lookup) (t : Tree) (ps : List Placement) (r c : Node) :
    Except Error Register :=
  match c.ref? .original with
  | none => .error (.notFound c.uuid)
  | some o => do
    let n ← t.node o
    let inBlock := placed ps n .blockOffset
    Register.ofPoint l n (placed ps r .offset + inBlock) inBlock false (some r)

/-- The registers of one child of a block. -/
def blockRegisters (l : Lookup) (t : Tree) (ps : List Placement) (header : Bool) (n : Node) :
    Except Error (List Register) :=
  match n.kind with
  | .dataPoint | .dataPointBitfield =>
    return [← Register.ofPoint l n (placed ps n .offset) (placed ps n .blockOffset) header none]
  | .tableRepeatingBlockReference => n.children.mapM (l.referencedRegister t ps n)
  | _ => return []

/-- The registers of a SunSpec model in the order of their addresses. -/
def sunSpecRegisters (l : Lookup) (t : Tree) (model : Uuid) : Except Error (List Register) := do
  let ps := t.layout
  let blocks ← (t.children model).mapM fun b =>
    match b.kind with
    | .headerBlock => b.children.mapM (l.blockRegisters t ps true)
    | .fixedBlock => b.children.mapM (l.blockRegisters t ps false)
    | _ => return []
  return blocks.flatten.flatten

/-- The registers of one node of the static map. -/
def flatRegisters (l : Lookup) (t : Tree) (ps : List Placement) (n : Node) :
    Except Error (List Register) :=
  let start := placed ps n .blockOffset
  match n.kind with
  | .functionData | .functionDataBitfield =>
    return [← Register.ofPoint l n start start false none]
  | .modbusTableRepeatingBlockReference =>
    match n.ref? .original with
    | none => .error (.notFound n.uuid)
    | some b => ((t.children b).filter (·.kind == .functionData)).mapM fun p =>
      let inBlock := placed ps p .blockOffset
      Register.ofPoint l p (start + inBlock) inBlock false (some n)
  | _ => return []

/-- The registers of the static map in the order of their addresses. -/
def modbusRegisters (l : Lookup) (t : Tree) : Except Error (List Register) := do
  return (← t.root.children.mapM (l.flatRegisters t t.layout)).flatten

end Lookup

end DeviceModel

/-! ### What registers are called and what their parameters say of them -/

namespace DeviceModel.Lookup

/-- The id of a point: the abbreviation of its parameter, or its own name. -/
def pointId (l : Lookup) (point : Node) : String :=
  match (point.ref? .parameter >>= (l.attributeText? · .abbreviation)).filter (· ≠ "") with
  | some a => a
  | none => point.name

/-- The id of the point that holds the scale factor of a register. -/
def scaleFactorId? (l : Lookup) (t : Tree) (r : Register) : Option String :=
  (r.factor? >>= t.find?).map l.pointId

/-- A register is read only unless its parameter says otherwise. -/
def isReadOnly (l : Lookup) (r : Register) : Bool :=
  ((r.parameter? >>= (l.attribute? · .readOnly)) >>= Value.bool?).getD true

/-- An attribute of the parameter of a register. -/
def parameterText? (l : Lookup) (r : Register) (a : Attr) : Option String :=
  r.parameter? >>= (l.attributeText? · a)

end DeviceModel.Lookup
