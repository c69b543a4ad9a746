import DeviceModel.Rules.Basic

/-!
The register maps: the SunSpec tree, of models with a header block, at least one fixed block, and views of tables
whose repeating blocks the fixed blocks refer to; and the static Modbus tree, one map of points, bit fields and
references to repeating blocks. They have points in common, bit fields and their members, and a layout that they
must agree with.
-/

namespace DeviceModel

namespace Rules.Register

/-- The bits behind the last member of a bit field. -/
def nextBit (bitfield : Node) (member : Kind) : Int :=
  maximum 0 ((bitfield.children.filter (·.kind == member)).map fun m =>
    m.int .bitOffset + m.int .bitLength)

/-- A member of a bit field for a parameter, one bit wide. -/
def memberFor (member : Kind) (bitfield source : Node) : Build Node :=
  new member [(.name, .string source.name), (.parameter, .uuid source.uuid),
    (.bitOffset, .integer (nextBit bitfield member)), (.bitLength, .integer 1)]

/-- A point for a parameter, of one register until it gets a type. -/
def pointFor (point : Kind) (source : Node) (l : Lookup) : Build Node :=
  new point [(.name, .string source.name), (.parameter, .uuid source.uuid), (.size, .integer 1),
    (.units, .orNull .string (l.effectiveText? source.uuid .units))]

def newBitfield (k : Kind) (l : Lookup) : Build Node :=
  new k [(.name, .string "New Bitfield"), (.size, .integer 1),
    (.pointType, .ofRef (PointType.bitfield16.enumerator? l))]

def newMember (k : Kind) : Build Node := new k [(.name, .string "New Member"), (.bitLength, .integer 1)]

/-- The stored values at and below `scope` that differ from the layout. -/
def driftIssues (t : Tree) (scope : Uuid) : List Issue :=
  (t.drift.filter fun (p, _) => p.uuid == scope || t.isAncestor scope p.uuid).map fun (p, stored) =>
    .drift p.attr (((t.find? p.uuid).map Node.name).getD "") stored p.value

def typeIssues (isReference : Bool) : Except Error Int → List Issue
  | .ok _ => []
  | .error (.unresolvedType _ type) =>
    if isReference then [.referenceWithoutType]
    else match type with
      | some u => [.unknownType u]
      | none => [.noType]
  | .error (.sizeMismatch u name size expected) => [.sizeMismatch u name size expected]
  | .error _ => []

def pointIssues (t : Tree) (n : Node) (l : Lookup) : List Issue :=
  let isReference := (t.parentKind? n.uuid).any fun k => k == .sunSpecTable || k == .modbusTable
  let factor := match n.ref? .factorPoint with
    | none => []
    | some u =>
      if (t.find? u >>= fun f => l.pointType? (f.ref? .pointType)) = some .sunssf then []
      else [.scaleFactorType]
  typeIssues isReference (l.pointSize n) ++ factor

def memberIssues (t : Tree) (n : Node) : List Issue :=
  let first := n.int .bitOffset
  let length := n.int .bitLength
  let size := ((t.parent? n.uuid).map (·.int .size)).getD 0
  (if length ≤ 0 then [.noBits] else []) ++
    (if first < 0 ∨ 16 * size < first + length then
      [.outsideBitfield first (first + length - 1) size]
    else [])

end Rules.Register

/-! ### SunSpec models -/

namespace Rules.SunSpec

/-- The header that every model begins with: its identifier and its length. -/
def header (l : Lookup) : Build Node := do
  let type := Value.ofRef (PointType.uint16.enumerator? l)
  let point := fun name => new .dataPoint [(.name, .string name), (.pointType, type),
    (.size, .integer 1), (.mandatory, .bool true)]
  new .headerBlock [] [← point "ID", ← point "L"]

def canDrop (t : Tree) (target source : Node) : Bool :=
  if t.contains source.uuid then
    (source.kind == .tableRepeatingBlock && target.kind == .fixedBlock) || t.canMove target source
  else if t.isGenerated target.uuid then false
  else match target.kind with
    | .fixedBlock | .dataPointBitfield => source.kind.isParameterLike
    | .sunSpecModel => source.kind == .table
    | _ => false

/-- A repeating block stays in its table. -/
def moves (t : Tree) (target source : Node) : Bool :=
  source.kind != .tableRepeatingBlock && t.canMove target source

def childFrom (_ : Tree) (target source : Node) (l : Lookup) : Build Node :=
  match source.kind, target.kind with
  | .tableRepeatingBlock, .fixedBlock =>
    new .tableRepeatingBlockReference [(.original, .uuid source.uuid)]
  | .table, .sunSpecModel =>
    newView .sunSpec (.of .sunSpecTable [(.parameterTable, .uuid source.uuid)]) source l
  | k, .dataPointBitfield =>
    if k.isParameterLike then Register.memberFor .dataPointBitfieldMember target source
    else refuse source target
  | k, .fixedBlock =>
    if k.isParameterLike then Register.pointFor .dataPoint source l else refuse source target
  | _, _ => refuse source target

def addable (t : Tree) (n : Node) : List Kind :=
  if t.isGenerated n.uuid then []
  else match n.kind with
    | .sunSpecRoot => [.sunSpecModel]
    | .sunSpecModel => [.fixedBlock]
    | .fixedBlock => [.dataPoint, .dataPointBitfield]
    | .dataPointBitfield => [.dataPointBitfieldMember]
    | _ => []

def newChild (t : Tree) (parent : Node) (k : Kind) (l : Lookup) : Build Node :=
  match k with
  | .sunSpecModel => do
    let ids := (t.ofKind .sunSpecModel).map (·.int .id + 1)
    new .sunSpecModel [(.name, .string "New Model"), (.id, .integer (maximum 1 ids))]
      [← header l, ← new .fixedBlock []]
  | .fixedBlock => new .fixedBlock []
  | .dataPoint => new .dataPoint [(.name, .string "New Point"), (.size, .integer 1)]
  | .dataPointBitfield => Register.newBitfield .dataPointBitfield l
  | .dataPointBitfieldMember => Register.newMember .dataPointBitfieldMember
  | k => notOffered parent k

/-- The header stays, and one fixed block. -/
def canDelete (t : Tree) (n : Node) : Bool :=
  n.uuid != t.root.uuid && !t.isGenerated n.uuid &&
    match n.kind with
    | .headerBlock => false
    | .fixedBlock =>
      (t.parent? n.uuid).any fun m => decide (1 < (m.children.filter (·.kind == .fixedBlock)).length)
    | _ => t.parentKind? n.uuid != some .headerBlock

def modelIssues (t : Tree) (n : Node) : List Issue :=
  let id := n.int .id
  let shared := (t.ofKind .sunSpecModel).any fun m => m.uuid != n.uuid && m.int .id == id
  Register.driftIssues t n.uuid ++ if shared then [.modelId id] else []

def issues (t : Tree) (n : Node) (l : Lookup) : List Issue :=
  match n.kind with
  | .sunSpecModel => modelIssues t n
  | .dataPoint | .dataPointBitfield => Register.pointIssues t n l
  | .dataPointBitfieldMember => Register.memberIssues t n
  | .sunSpecTable =>
    (if (n.ref? .parameterTable).isNone then [.unlinkedView] else []) ++
      (if n.children.any (·.kind == .tableRepeatingBlock) then [] else [.viewNotExpanded])
  | .tableRepeatingBlockReference =>
    if (n.ref? .original).isNone then [.referenceToNothing] else []
  | _ => []

end Rules.SunSpec

def Rules.sunSpec : Rules where
  canDrop := SunSpec.canDrop
  moves := SunSpec.moves
  childFrom := SunSpec.childFrom
  addable := SunSpec.addable
  newChild := SunSpec.newChild
  canDelete := SunSpec.canDelete
  issues := SunSpec.issues

/-! ### The static Modbus map -/

namespace Rules.Modbus

def canDrop (t : Tree) (target source : Node) : Bool :=
  if t.contains source.uuid then
    (source.kind == .modbusTableRepeatingBlock && target.kind == .staticModbusRoot) ||
      t.canMove target source
  else if t.isGenerated target.uuid then false
  else match target.kind with
    | .staticModbusRoot => source.kind == .table || source.kind.isParameterLike
    | .functionDataBitfield => source.kind.isParameterLike
    | _ => false

/-- A repeating block stays in its table. -/
def moves (t : Tree) (target source : Node) : Bool :=
  source.kind != .modbusTableRepeatingBlock && t.canMove target source

def childFrom (t : Tree) (target source : Node) (l : Lookup) : Build Node :=
  match source.kind, target.kind with
  | .modbusTableRepeatingBlock, .staticModbusRoot =>
    new .modbusTableRepeatingBlockReference
      [(.original, .uuid source.uuid), (.size, .integer (t.blockSize source.uuid))]
  | .table, .staticModbusRoot =>
    newView .staticModbus (.of .modbusTable [(.parameterTable, .uuid source.uuid)]) source l
  | k, .functionDataBitfield =>
    if k.isParameterLike then Register.memberFor .functionDataBitfieldMember target source
    else refuse source target
  | k, .staticModbusRoot =>
    if k.isParameterLike then Register.pointFor .functionData source l else refuse source target
  | _, _ => refuse source target

def addable (t : Tree) (n : Node) : List Kind :=
  if t.isGenerated n.uuid then []
  else match n.kind with
    | .staticModbusRoot => [.functionData, .functionDataBitfield]
    | .functionDataBitfield => [.functionDataBitfieldMember]
    | _ => []

def newChild (_ : Tree) (parent : Node) (k : Kind) (l : Lookup) : Build Node :=
  match k with
  | .functionData => new .functionData [(.name, .string "New Function Data"), (.size, .integer 1)]
  | .functionDataBitfield => Register.newBitfield .functionDataBitfield l
  | .functionDataBitfieldMember => Register.newMember .functionDataBitfieldMember
  | k => notOffered parent k

def canDelete (t : Tree) (n : Node) : Bool := n.uuid != t.root.uuid && !t.isGenerated n.uuid

def issues (t : Tree) (n : Node) (l : Lookup) : List Issue :=
  match n.kind with
  | .staticModbusRoot => Register.driftIssues t n.uuid
  | .functionData | .functionDataBitfield => Register.pointIssues t n l
  | .functionDataBitfieldMember => Register.memberIssues t n
  | .modbusTable => if (n.ref? .parameterTable).isNone then [.unlinkedView] else []
  | .modbusTableRepeatingBlockReference =>
    if (n.ref? .original).isNone then [.referenceToNothing] else []
  | _ => []

end Rules.Modbus

def Rules.staticModbus : Rules where
  canDrop := Modbus.canDrop
  moves := Modbus.moves
  childFrom := Modbus.childFrom
  addable := Modbus.addable
  newChild := Modbus.newChild
  canDelete := Modbus.canDelete
  issues := Modbus.issues

end DeviceModel
