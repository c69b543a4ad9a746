import DeviceModel.Code.Identifier
import DeviceModel.Json.Writer
import DeviceModel.Workspace.Model

/-!
The hierarchy of parameters as a document: groups as objects, and in the place of each parameter that
the bus carries the frame and the signal that carry it.
-/

namespace DeviceModel

namespace Hierarchy

/-- A frame and the signal in it that carry a parameter. -/
structure Carrier where
  parameter : Uuid
  frame : String
  signal : String

def isFrame (k : Kind) : Bool := k == .message || k == .multiplexedMessage || k == .multiplexer

/-- The carrier that a signal is for its parameter. -/
def carrier? (can : Tree) (n : Node) : Option Carrier := do
  let p ← n.ref? .parameter
  let frame := (can.ancestors n.uuid).find? (isFrame ·.kind)
  return ⟨p, (frame.map Node.name).getD "", n.name⟩

/-- The carriers in the order of the signals. -/
def carriers (can : Tree) : List Carrier := (can.ofKind .signal).filterMap (carrier? can)

/-- The place of a node; none where nothing at or below it is carried. -/
def ofNode (cs : List Carrier) : Node → Option Json
  | ⟨u, d, ns⟩ =>
    match d.kind with
    | .root | .group | .array | .arrayGroupElement | .table | .tableGroupElement =>
      match members cs [] ns with
      | [] => none
      | ms => some (.object ms)
    | .parameter | .arrayParameterElement | .tableArrayElement =>
      (cs.find? (·.parameter == u)).map fun c => .array [.string c.frame, .string c.signal]
    | _ => none
where
  /-- The members for some children; of two with one name the later takes the earlier one's place. -/
  members (cs : List Carrier) (ms : List (String × Json)) : List Node → List (String × Json)
    | [] => ms
    | n :: ns =>
      match ofNode cs n with
      | some j => members cs (Json.put ms n.name j) ns
      | none => members cs ms ns

def document (parameters can : Tree) : Json :=
  (ofNode (carriers can) parameters.root).getD (.object [])

def text (parameters can : Tree) : String := (document parameters can).indented 2 ++ "\n"

end Hierarchy

def Models.hierarchy (ms : Models) : String := Hierarchy.text (ms.tree .parameters) (ms.tree .can)

end DeviceModel
