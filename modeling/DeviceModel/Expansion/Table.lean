import DeviceModel.Expansion.Shape
import DeviceModel.Supply

/-!
Expansion of a parameter table: one level of groups per axis, a group per enumerator, and under each
combination the members of the table's arrays and groups. A generated node is known by its path, the
identifiers walked down to it, and keeps its identifier when it is generated again.
-/

namespace DeviceModel

/-- What an expansion did below a node. -/
structure Expansion where
  view : Uuid
  created : Nat
  reused : Nat
  removed : Nat
  skipped : List Uuid := []
  deriving DecidableEq, Repr

namespace Node

/-- The node and all nodes below it, each after its children. -/
def postorder : Node → List Node
  | ⟨u, d, cs⟩ => each cs ++ [⟨u, d, cs⟩]
where
  each : List Node → List Node
    | [] => []
    | c :: cs => postorder c ++ each cs

end Node

namespace TableExpansion

/-- The nodes generated before that have not been taken up again, and the counts so far. -/
structure State where
  previous : List Node
  created : Nat := 0
  reused : Nat := 0

abbrev Builder := StateT State Fresh

def samePath (path : List Uuid) (n : Node) : Bool := n.data.path == path

/-- The identifier for the node at `path`, and the attributes of the node that was there. -/
def identify (path : List Uuid) : Builder (Uuid × Option Data) := do
  let s ← get
  match s.previous.find? (samePath path) with
  | some n =>
    set { s with previous := s.previous.filter (!samePath path ·), reused := s.reused + 1 }
    return (n.uuid, some n.data)
  | none =>
    set { s with created := s.created + 1 }
    return (← liftM draw, none)

def group (source : Node) (path : List Uuid) (children : List Node) (u : Uuid) : Node :=
  ⟨u, .of .tableGroupElement [(.name, .string source.name), (.path, .ofPath path),
    (.original, .uuid source.uuid)], children⟩

/-- A leaf keeps the access level that it was given. -/
def leaf (member : Node) (prefixed : List Uuid) (index : Option Nat) : Builder Node := do
  let path := prefixed ++ [member.uuid]
  let (u, previous) ← identify path
  return .leaf u (.of .tableArrayElement [(.name, .string member.name),
    (.abbreviation, .orNull .string (member.text? .abbreviation)), (.path, .ofPath path),
    (.curveIndex, .orNull (fun i => .integer i) index), (.original, .uuid member.uuid),
    (.accessLevel, .ofRef (previous >>= (·.ref? .accessLevel)))])

/-- The parameters of a group or of an element that stands for it. -/
def members (n : Node) : List Node :=
  n.children.filter fun m => m.kind == .parameter || m.kind == .arrayParameterElement

def leaves (path : List Uuid) (index : Option Nat) : List Node → Builder (List Node)
  | [] => pure []
  | m :: ms => return (← leaf m path index) :: (← leaves path index ms)

def isGroup (n : Node) : Bool := n.kind == .group || n.kind == .arrayGroupElement

/-- The elements of an array from the one at `index` on. -/
def elements (path : List Uuid) (index : Nat) : List Node → Builder (List Node)
  | [] => pure []
  | e :: es => do
    let n ←
      if isGroup e then do
        let path := path ++ [e.uuid]
        let (u, _) ← identify path
        pure (group e path (← leaves path (some index) (members e)) u)
      else leaf e path (some index)
    return n :: (← elements path (index + 1) es)

/-- One group for each array and group of the table. -/
def row (path : List Uuid) : List Node → Builder (List Node)
  | [] => pure []
  | s :: ss => do
    let here := path ++ [s.uuid]
    let (u, _) ← identify here
    let cs ←
      match s.kind with
      | .group => leaves here none (members s)
      | .array => elements here 0 s.children
      | _ => pure []
    return group s here cs u :: (← row path ss)

/-- One group for each enumerator of an axis, around what `inner` gives. -/
def axis (inner : List Uuid → Builder (List Node)) (path : List Uuid) :
    List Node → Builder (List Node)
  | [] => pure []
  | e :: es => do
    let here := path ++ [e.uuid]
    let (u, _) ← identify here
    let cs ← inner here
    return group e here cs u :: (← axis inner path es)

/-- One level for each axis around the rows. -/
def levels (sources : List Node) : List (List Node) → List Uuid → Builder (List Node)
  | [], path => row path sources
  | enumerators :: axes, path => axis (levels sources axes) path enumerators

def axes (table : Node) : List (List Node) :=
  (table.children.filter (·.kind == .enumeration)).map Node.children

def sources (table : Node) : List Node :=
  table.children.filter fun c => c.kind == .array || c.kind == .group

def generated (table : Node) : List Node := table.children.filter (·.kind == .tableGroupElement)

/-- The table with its generated groups built anew behind its other children. -/
def expand (table : Node) : Fresh (Node × Expansion) := do
  let previous := generated table
  let (cs, s) ← (levels (sources table) (axes table) []).run
    { previous := Node.postorder.each previous }
  let kept := table.children.filter (·.kind != .tableGroupElement)
  return ({ table with children := kept ++ cs },
    ⟨table.uuid, s.created, s.reused, (Node.all.below previous).length - s.reused, []⟩)

end TableExpansion

/-- The parameter tree with the table `u` expanded. -/
def Tree.expandTable (params : Tree) (u : Uuid) : Build (Tree × Expansion) := do
  let table ← liftM (Shape.tableNode params u)
  let (table, report) ← liftM (TableExpansion.expand table)
  return (params.edit u fun _ => table, report)

end DeviceModel
