import DeviceModel.Book.Sheet
import DeviceModel.Register.Map
import DeviceModel.Text.Blank
import DeviceModel.Tree.Lookup
import DeviceModel.ValueSet

/-!
The workbooks that are made of the trees of a project.

### SunSpec models

A workbook of the SunSpec models: a sheet for each, with a row for each register.
-/

namespace DeviceModel.Book

def registerColumns : List String :=
  ["Address Offset", "Block Offset", "Size", "Name", "Label", "Value", "Type", "Units", "SF", "R/W",
    "Mandatory", "Description"]

/-- The values of the registers of a header, in their order: the id and the length of the model. -/
def headerValues (model : Node) : List Cell :=
  [.ofInt (model.int .id), .ofInt (model.int .length)]

def nonEmpty (s : Option String) : Option String := s.filter (· ≠ "")

/-- The row of a register with a value. -/
def registerRow (l : Lookup) (t : Tree) (value : Cell) (r : Register) : List Cell :=
  [.ofInt r.offset, .ofInt r.blockOffset, .ofInt r.size,
    .text (l.pointId r.point),
    .ofText? (nonEmpty (r.parameter?.map l.name)),
    value,
    .text r.type.name,
    .ofText? (r.units?.or (nonEmpty (l.parameterText? r .units))),
    .ofText? (l.scaleFactorId? t r),
    .text (if l.isReadOnly r then "R" else "RW"),
    .text (if r.point.flag .mandatory || r.header then "M" else "O"),
    .ofText? (nonEmpty (l.parameterText? r .description))]

/-- The rows of some registers; those of the header take the values of `values` in turn. -/
def registerRows (l : Lookup) (t : Tree) : List Cell → List Register → List (List Cell)
  | _, [] => []
  | values, r :: rs =>
    if r.header then
      registerRow l t (values.headD .empty) r :: registerRows l t values.tail rs
    else registerRow l t .empty r :: registerRows l t values rs

def modelSheet (l : Lookup) (t : Tree) (model : Node) : Except Error Sheet := do
  let rs ← l.sunSpecRegisters t model.uuid
  let name := Text.trim (Text.intText (model.int .id) ++ " " ++ model.name)
  return .new name registerColumns ["Description"] (registerRows l t (headerValues model) rs)

def ofSunSpec (l : Lookup) (t : Tree) : Except Error Book :=
  (t.ofKind .sunSpecModel).mapM (modelSheet l t)

/-!
### CAN signals

A workbook of the CAN signals, each with its parameter and the defaults that products give it.
-/

def signalColumns : List String :=
  ["Message", "Multiplexer", "Signal", "Start Bit", "Bits", "Parameter", "Description",
    "Access Level", "Units", "Default", "Path"]

/-- The name of the nearest ancestor of one of some kinds. -/
def nearest? (t : Tree) (u : Uuid) (kinds : List Kind) : Option String :=
  ((t.ancestors u).find? (kinds.contains ·.kind)).map Node.name

/-- The value that a product gives to `u`, or to what `u` stands for. -/
def productValue? (l : Lookup) (p : Product) (u : Uuid) : Option String :=
  let derived := l.definition? u >>= fun d => p.set.value? d.uuid
  ((p.set.value? u).or derived).map (·.normalize.text)

def signalRow (l : Lookup) (t : Tree) (products : List Product) (signal : Node) : List Cell :=
  let parameter := signal.ref? .parameter
  let text (a : Attr) : Option String := (parameter >>= (l.attributeText? · a)).filter (· ≠ "")
  let value (a : Attr) : Option Value := parameter >>= (l.attribute? · a)
  [.ofText? (nearest? t signal.uuid [.message, .multiplexedMessage]),
    .ofText? (nearest? t signal.uuid [.multiplexer]),
    .text signal.name,
    .ofInt (signal.int .startBit),
    .ofInt (signal.int .bits),
    .ofText? (parameter.map l.name),
    .ofText? (text .description),
    .ofText? ((value .accessLevel >>= Value.uuid?).map l.name),
    .ofText? (text .units),
    .ofText? ((value .defaultValue >>= Value.decimal?).map (·.normalize.text)),
    .ofText? (parameter >>= fun p => (l.treeOf? p).map fun t => "/".intercalate (t.namePath p))] ++
    products.map fun product => .ofText? (parameter >>= productValue? l product)

def ofCan (l : Lookup) (t : Tree) (products : List Product) : Book :=
  [.new "CAN" (signalColumns ++ products.map (·.name)) ["Description"]
    ((t.ofKind .signal).map (signalRow l t products))]

/-!
### Anomalies

A workbook of the anomalies: their list, and what the response levels and trigger types mean.
-/

/-- The parameters of the sources of an anomaly. -/
def sourceNames (l : Lookup) (anomaly : Node) : Option String :=
  match (anomaly.children.filterMap (·.ref? .parameter)).map l.name with
  | [] => none
  | names => some (", ".intercalate names)

def anomalyCell (l : Lookup) (anomaly : Node) (c : Column) : Cell :=
  match c.attribute? anomaly.kind with
  | some f =>
    match (anomaly.data.get? f.attr).filter (!·.isNull) with
    | none => .empty
    | some (.integer i) => .ofInt i
    | some v => .text (f.display v)
  | none => if c.header = Attr.heading .parameter then .ofText? (sourceNames l anomaly) else .empty

def anomalySheet (l : Lookup) (t : Tree) : Sheet :=
  let columns := Column.all .anomalies
  .new "Anomalies" ("Table" :: columns.map (·.header)) ["Description", "Comment"]
    ((t.ofKind .anomalyTable).flatMap fun table => table.children.map fun a =>
      .text table.name :: columns.map (anomalyCell l a))

/-- A sheet of words and what they mean. -/
def legend (name : String) (entries : List (String × String)) : Sheet :=
  .new name ["Name", "Description"] ["Description"]
    (entries.map fun (word, meaning) => [.text word, .text meaning])

def ofAnomalies (l : Lookup) (t : Tree) : Book :=
  [anomalySheet l t,
    legend "Response Levels" (ResponseLevel.all.map fun r => (r.name, r.description)),
    legend "Trigger Types" (TriggerType.all.map fun r => (r.name, r.description))]

end DeviceModel.Book
