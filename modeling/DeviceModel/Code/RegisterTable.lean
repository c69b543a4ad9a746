import DeviceModel.Code.Bitfield
import DeviceModel.Register.Map
import DeviceModel.Workspace.Model

/-!
Register tables: for each register where its value comes from, and skeletons of the functions that are
written by hand.
-/

namespace DeviceModel

/-- Where the value of a register comes from. -/
inductive RegisterSource
  | unimplemented
  | bitfield (base : String)
  /-- Functions written by hand, and an interface item for what they leave. -/
  | item (getter setter : Option String) (name : Option String)

structure RegisterEntry where
  offset : Int
  size : Int
  type : PointType
  source : RegisterSource
  scaleFactor : Option String

namespace RegisterSource

def lines : RegisterSource → List Lines
  | .unimplemented => [.line ".implemented = false,"]
  | .bitfield base =>
    [.line (".getter = " ++ base ++ "_get,"), .line (".setter = " ++ base ++ "_set,")]
  | .item getter setter name =>
    (getter.toList.map fun f => .line (".getter = " ++ f ++ ",")) ++
      (setter.toList.map fun f => .line (".setter = " ++ f ++ ",")) ++
      if getter.isSome && setter.isSome then [] else [.line (".item = " ++ Code.address name ++ ",")]

end RegisterSource

namespace Code

/-- The function written by hand that gets or sets a point. -/
def manualFunction (base : String) (point : Node) (suffix : String) : String :=
  base ++ "_" ++ identifier point.name ++ "_" ++ suffix

/-- The interface item of the parameter of a point. -/
def pointItem (l : Lookup) (point : Node) : Option String :=
  ((point.ref? .parameter).filter l.hasInterfaceItem).map l.interfaceItem

end Code

namespace RegisterEntry

def sourceOf (l : Lookup) (t : Tree) (base : String) (point : Node) : RegisterSource :=
  if point.flag .notImplemented then .unimplemented
  else if Code.isBitfield point.kind then .bitfield (Code.bitfieldBase t point.uuid)
  else
    let byHand := fun a suffix =>
      if point.flag a then some (Code.manualFunction base point suffix) else none
    .item (byHand .handCodedGetter "get") (byHand .handCodedSetter "set") (Code.pointItem l point)

/-- The entry of a register in the table `base`. -/
def ofRegister (l : Lookup) (t : Tree) (base : String) (r : Register) : RegisterEntry where
  offset := r.offset
  size := r.size
  type := r.type
  source := sourceOf l t base r.point
  scaleFactor := r.factor? >>= t.find? >>= Code.pointItem l

def lines (e : RegisterEntry) : List Lines :=
  [.line "\x7b",
    .block
      ([.line (".offset = " ++ Text.intText e.offset ++ ","),
        .line (".size = " ++ Text.intText e.size ++ ","),
        .line (".type = SUNSPEC_TYPE_" ++ Code.upper e.type.name ++ ",")] ++
        e.source.lines ++ [.line (".scaleFactor = " ++ Code.address e.scaleFactor ++ ",")]),
    .line "\x7d,"]

end RegisterEntry

namespace Code

def tableType : String := "const SunspecInterfaceItem "

/-- The source file of a table. -/
def tableSource (base : String) (includes : List String) (es : List RegisterEntry) : CFile :=
  ⟨base ++ ".c", [base ++ ".h", interfaceHeader, bitfieldHeader] ++ includes,
    [.line (tableType ++ base ++ "[" ++ Text.natText es.length ++ "] = \x7b"),
      .block (es.flatMap RegisterEntry.lines), .line "\x7d;"]⟩

/-- The header of a table with some constants, of which the last is its count. -/
def tableHeader (base : String) (constants : List (String × String)) : CFile :=
  let named := constants.map fun (name, value) =>
    Lines.line ("#define " ++ upper base ++ "_" ++ name ++ " " ++ value)
  ⟨base ++ ".h", ["<stdint.h>", "sunspecInterface.h"],
    named ++ [.blank,
      .line ("extern " ++ tableType ++ base ++ "[" ++ upper base ++ "_COUNT];")]⟩

/-- A function that is written by hand. -/
structure ManualFunction where
  name : String
  point : String
  parameter : String

namespace ManualFunction

def signature (f : ManualFunction) : String :=
  "int32_t " ++ f.name ++ "(" ++ f.parameter ++ " *registers)"

def skeleton (f : ManualFunction) : List Lines :=
  [.line ("// " ++ f.point ++ ": hand-coded"), .line f.signature, .line "\x7b",
    .block [.line "(void) registers;", .line "return -1;"], .line "\x7d", .blank]

def declaration (f : ManualFunction) : Lines := .line (f.signature ++ ";")

end ManualFunction

/-- The functions by hand of a point. -/
def manualFunctions (t : Tree) (base : String) (point : Node) : List ManualFunction :=
  let path := "/".intercalate (t.namePath point.uuid)
  let named (a : Attr) (suffix parameter : String) : List ManualFunction :=
    if point.flag a then [⟨manualFunction base point suffix, path, parameter⟩] else []
  named .handCodedGetter "get" "uint16_t" ++ named .handCodedSetter "set" "const uint16_t"

/-- The points of some registers, each once. -/
def distinctPoints (rs : List Register) : List Node :=
  rs.foldl (fun ns r => if ns.any (·.uuid == r.point.uuid) then ns else ns ++ [r.point]) []

def manualOf (t : Tree) (base : String) (rs : List Register) : List ManualFunction :=
  ((distinctPoints rs).filter fun n => !n.flag .notImplemented).flatMap (manualFunctions t base)

/-- What the files of a SunSpec model are named after. -/
def sunSpecBase (id : Int) : String := "sunspecInterfaceGen" ++ Text.intText id

/-- The four files of a SunSpec model. -/
def sunSpecFiles (l : Lookup) (t : Tree) (model : Node) : Except ExportError (List CFile) := do
  let id := model.int .id
  let base := sunSpecBase id
  let rs ← (l.sunSpecRegisters t model.uuid).mapError .model
  let manual := manualOf t base rs
  let manualHeader := base ++ "_manual.h"
  return [
    tableSource base (if manual.isEmpty then [] else [manualHeader])
      (rs.map (RegisterEntry.ofRegister l t base)),
    tableHeader base [("ID", Text.intText id), ("LENGTH", Text.intText (model.int .length)),
      ("COUNT", Text.natText rs.length)],
    ⟨base ++ "_manual.c", [manualHeader, interfaceHeader],
      manual.flatMap ManualFunction.skeleton⟩,
    ⟨manualHeader, ["<stdint.h>"], manual.map ManualFunction.declaration⟩]

def modbusBase : String := "staticmodbusInterfaceGen"

/-- The two files of the static map. -/
def modbusFiles (l : Lookup) (t : Tree) : Except ExportError (List CFile) := do
  let rs ← (l.modbusRegisters t).mapError .model
  return [
    tableSource modbusBase [] (rs.map (RegisterEntry.ofRegister l t modbusBase)),
    tableHeader modbusBase [("LENGTH", Text.intText ((rs.map (·.size)).foldr (· + ·) 0)),
      ("COUNT", Text.natText rs.length)]]

end Code

end DeviceModel

/-! ### Projects -/

namespace DeviceModel.Models

/-- Every C file: interface items, bit fields, and the register tables. -/
def codeFiles (ms : Models) : Except ExportError (List CFile) := do
  let l := ms.lookup
  let sunSpec := ms.tree .sunSpec
  let modbus := ms.tree .staticModbus
  let bitfields ← Bitfield.files l [sunSpec, modbus]
  let tables ← (sunSpec.ofKind .sunSpecModel).mapM (Code.sunSpecFiles l sunSpec)
  let flat ← Code.modbusFiles l modbus
  return InterfaceItem.files l (ms.tree .parameters) ++ bitfields ++ tables.flatten ++ flat

end DeviceModel.Models
