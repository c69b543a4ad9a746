import DeviceModel.Code.Interface
import DeviceModel.Export.Error
import DeviceModel.Register.PointType

/-!
Accessors of bit fields: a getter that gathers the members from their interface items, and a setter
that hands them out.
-/

namespace DeviceModel

/-- The bits of a field that an interface item holds. -/
structure BitfieldMember where
  item : String
  offset : Int
  mask : String

structure Bitfield where
  /-- What the names of the accessors begin with. -/
  base : String
  type : String
  members : List BitfieldMember

namespace Code

def bitfieldSource : String := "bitfields.c"

def bitfieldHeader : String := "bitfields.h"

def isBitfield (k : Kind) : Bool := k == .dataPointBitfield || k == .functionDataBitfield

/-- A C number of so many low bits, at most 64. -/
def mask (bits : Int) : String :=
  "0x" ++ String.ofList (Text.hexDigits (Nat.pow 2 (min bits.toNat 64) - 1)) ++ "u"

/-- What the names of a bit field's accessors begin with. -/
def bitfieldBase (t : Tree) (u : Uuid) : String :=
  "bitfield_" ++ t.kind.name ++ "_" ++
    identifier ("_".intercalate ((t.namePath u).filter (· ≠ "")))

end Code

namespace BitfieldMember

def ofNode (l : Lookup) (n : Node) : Except ExportError BitfieldMember :=
  match n.ref? .parameter with
  | some p => .ok ⟨l.interfaceItem p, n.int .bitOffset, Code.mask (n.int .bitLength)⟩
  | none => .error (.noParameter n.kind n.uuid)

def gather (type : String) (m : BitfieldMember) : Lines :=
  .line ("value |= ((" ++ type ++ ") InterfaceItem_getRaw(&" ++ m.item ++ ") & " ++ m.mask ++
    ") << " ++ Text.intText m.offset ++ ";")

def handOut (m : BitfieldMember) : Lines :=
  .line ("InterfaceItem_setRaw(&" ++ m.item ++ ", (value >> " ++ Text.intText m.offset ++ ") & " ++
    m.mask ++ ");")

end BitfieldMember

namespace Bitfield

def ofNode (l : Lookup) (t : Tree) (n : Node) : Except ExportError Bitfield := do
  let type ← (l.pointType n.uuid (n.ref? .pointType)).mapError .model
  return ⟨Code.bitfieldBase t n.uuid, type.cType, ← n.children.mapM (BitfieldMember.ofNode l)⟩

def getter (b : Bitfield) : String := b.type ++ " " ++ b.base ++ "_get(void)"

def setter (b : Bitfield) : String := "void " ++ b.base ++ "_set(" ++ b.type ++ " value)"

def definition (b : Bitfield) : List Lines :=
  [.line b.getter, .line "\x7b",
    .block (.line (b.type ++ " value = 0;") ::
      (b.members.map (BitfieldMember.gather b.type) ++ [.line "return value;"])),
    .line "\x7d", .blank,
    .line b.setter, .line "\x7b",
    .block (b.members.map BitfieldMember.handOut),
    .line "\x7d", .blank]

def declaration (b : Bitfield) : List Lines := [.line (b.getter ++ ";"), .line (b.setter ++ ";")]

/-- The bit fields of some trees, in the order of the trees. -/
def ofTrees (l : Lookup) (ts : List Tree) : Except ExportError (List Bitfield) := do
  return (← ts.mapM fun t => (t.all.filter (Code.isBitfield ·.kind)).mapM (ofNode l t)).flatten

def files (l : Lookup) (ts : List Tree) : Except ExportError (List CFile) := do
  let bs ← ofTrees l ts
  return [⟨Code.bitfieldSource, [Code.bitfieldHeader, Code.interfaceHeader], bs.flatMap definition⟩,
    ⟨Code.bitfieldHeader, ["<stdint.h>"], bs.flatMap declaration⟩]

end Bitfield

end DeviceModel
