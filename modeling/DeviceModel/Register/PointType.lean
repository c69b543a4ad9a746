import DeviceModel.Tree.Lookup

/-!
Types of register points. A point names its type by an enumerator of a particular enumeration of the
parameter tree.
-/

namespace DeviceModel

inductive PointType
  | int16
  | uint16
  | count
  | acc16
  | enum16
  | bitfield16
  | pad
  | sunssf
  | int32
  | uint32
  | acc32
  | enum32
  | bitfield32
  | ipaddr
  | float32
  | int64
  | uint64
  | acc64
  | float64
  | eui48
  | ipv6addr
  | string
  deriving DecidableEq, Repr

namespace PointType

def all : List PointType :=
  [.int16, .uint16, .count, .acc16, .enum16, .bitfield16, .pad, .sunssf, .int32, .uint32, .acc32,
    .enum32, .bitfield32, .ipaddr, .float32, .int64, .uint64, .acc64, .float64, .eui48, .ipv6addr,
    .string]

def name : PointType → String
  | .int16 => "int16"
  | .uint16 => "uint16"
  | .count => "count"
  | .acc16 => "acc16"
  | .enum16 => "enum16"
  | .bitfield16 => "bitfield16"
  | .pad => "pad"
  | .sunssf => "sunssf"
  | .int32 => "int32"
  | .uint32 => "uint32"
  | .acc32 => "acc32"
  | .enum32 => "enum32"
  | .bitfield32 => "bitfield32"
  | .ipaddr => "ipaddr"
  | .float32 => "float32"
  | .int64 => "int64"
  | .uint64 => "uint64"
  | .acc64 => "acc64"
  | .float64 => "float64"
  | .eui48 => "eui48"
  | .ipv6addr => "ipv6addr"
  | .string => "string"

def ofName? (s : String) : Option PointType := all.find? (·.name == s)

/-- The number of registers; that of a string is free. -/
def registers? : PointType → Option Int
  | .int16 | .uint16 | .count | .acc16 | .enum16 | .bitfield16 | .pad | .sunssf => some 1
  | .int32 | .uint32 | .acc32 | .enum32 | .bitfield32 | .ipaddr | .float32 => some 2
  | .int64 | .uint64 | .acc64 | .float64 | .eui48 => some 4
  | .ipv6addr => some 8
  | .string => none

/-- The C type of the interface variable behind a point. -/
def cType : PointType → String
  | .int16 | .sunssf => "int16_t"
  | .uint16 | .count | .acc16 | .enum16 | .bitfield16 | .pad => "uint16_t"
  | .int32 => "int32_t"
  | .uint32 | .acc32 | .enum32 | .bitfield32 | .ipaddr => "uint32_t"
  | .float32 => "float"
  | .int64 => "int64_t"
  | .uint64 | .acc64 | .eui48 | .ipv6addr => "uint64_t"
  | .float64 => "double"
  | .string => "char"

theorem ofName?_name (t : PointType) : ofName? t.name = some t := by cases t <;> decide

/-- The name of the enumeration whose enumerators are the point types. -/
def enumerationName : String := "SunSpecTypes"

/-- The enumerator that stands for a point type, where the project has one. -/
def enumerator? (t : PointType) (l : Lookup) : Option Uuid := do
  let e ← (← l.parameters?).all.find? fun n => n.kind == .enumeration && n.name == enumerationName
  let n ← e.children.find? (·.name == t.name)
  return n.uuid

end PointType

namespace Lookup

/-- The type that the enumerator `type` stands for. -/
def pointType? (l : Lookup) (type : Option Uuid) : Option PointType := do
  let n ← l.node? (← type)
  if n.kind = .enumerator then PointType.ofName? n.name else none

/-- The type of the point `u`. -/
def pointType (l : Lookup) (u : Uuid) (type : Option Uuid) : Except Error PointType :=
  match l.pointType? type with
  | some t => .ok t
  | none => .error (.unresolvedType u type)

/-- The size of a point, which must be the number of registers of its type. -/
def pointSize (l : Lookup) (n : Node) : Except Error Int := do
  let t ← l.pointType n.uuid (n.ref? .pointType)
  let size := n.int .size
  match t.registers? with
  | some r => if r = size then return size else .error (.sizeMismatch n.uuid t.name size r)
  | none => return size

end Lookup

end DeviceModel
