import DeviceModel.Json.Reader
import DeviceModel.Tree.Lookup
import DeviceModel.Uuid

/-!
The shape of an expanded parameter table: the sources of its reference points, and its leaves in
groups of one parent each, in the order that they are given.

### Orders

Orders of the leaves of tables, given from outside: the listed leaves come first, in the listed
order, and the others follow in the order they had.
-/

namespace DeviceModel

/-- For some tables the leaves in their order; of two entries for a table the later counts. -/
structure LeafOrder where
  tables : List (Uuid × List Uuid)
  deriving DecidableEq, Repr

namespace LeafOrder

/-- The order that comes with the program: no table has one. -/
def builtIn : LeafOrder := ⟨[]⟩

def get? (o : LeafOrder) (table : Uuid) : Option (List Uuid) :=
  (o.tables.reverse.find? (·.1 == table)).map (·.2)

/-- The place of `u` in an order, past the end when it is not listed; the last one when it is repeated. -/
def rank (order : List Uuid) (u : Uuid) : Nat :=
  if order.contains u then order.length - 1 - order.reverse.idxOf u else order.length

def sort (order : List Uuid) (key : α → Uuid) (items : List α) : List α :=
  items.mergeSort fun a b => rank order (key a) ≤ rank order (key b)

def apply (o : LeafOrder) (table : Uuid) (key : α → Uuid) (items : List α) : List α :=
  match o.get? table with
  | some order => sort order key items
  | none => items

def readUuid? (j : Json) : Option Uuid := j.string? >>= Uuid.ofText?

/-- An object of tables, each with the array of its leaves. -/
def ofText? (text : String) : Option LeafOrder := do
  let members ← (← Json.ofWholeText? text).object?
  let tables ← members.mapM fun (k, j) => do
    return (← Uuid.ofText? k, ← (← j.array?).mapM readUuid?)
  return ⟨tables⟩

end LeafOrder

/-! ### Shapes -/

/-- A node of a table for which a view has one reference point. -/
structure SeedSource where
  uuid : Uuid
  kind : Kind
  name : String
  abbreviation : Option String
  deriving DecidableEq, Repr

def SeedSource.ofNode (n : Node) : SeedSource := ⟨n.uuid, n.kind, n.name, n.text? .abbreviation⟩

/-- An element of an expanded table, whose geometry a view takes from the point for `reference`. -/
structure Leaf where
  uuid : Uuid
  name : String
  path : List Uuid
  reference : Uuid
  deriving DecidableEq, Repr

/-- The leaves of one parent. -/
structure LeafGroup where
  name : String
  path : List Uuid
  leaves : List Leaf
  deriving DecidableEq, Repr

structure Shape where
  table : Uuid
  seeds : List SeedSource
  groups : List LeafGroup
  deriving DecidableEq, Repr

namespace Shape

def leafCount (s : Shape) : Nat := (s.groups.map (·.leaves.length)).foldr (· + ·) 0

/-- The table `u` of the parameter tree. -/
def tableNode (params : Tree) (u : Uuid) : Except Error Node := do
  let n ← params.node u
  if n.kind = .table then return n else .error (.inconsistent (.notTable u n.kind))

def parameters (ns : List Node) : List SeedSource :=
  (ns.filter (·.kind == .parameter)).map SeedSource.ofNode

/-- The sources in one child of a table: an array of parameters itself, the members of the first group
of another array, and the parameters of a group. -/
def sourcesOf (n : Node) : List SeedSource :=
  match n.kind with
  | .array =>
    match n.children.head? with
    | some first => if first.kind = .group then parameters first.children else [.ofNode n]
    | none => [.ofNode n]
  | .group => parameters n.children
  | _ => []

def seedSources (params : Tree) (table : Uuid) : Except Error (List SeedSource) :=
  return (← tableNode params table).children.flatMap sourcesOf

/-- The source that the original of a leaf belongs to. -/
def referenceOf? (params : Tree) (original : Uuid) : Option Uuid := do
  let n ← params.find? original
  let p ← params.parent? original
  match p.kind, n.kind with
  | .array, _ => some p.uuid
  | .arrayGroupElement, .arrayParameterElement => n.ref? .original
  | _, _ => some original

/-- The names from below the table down to `u`. -/
def groupName (params : Tree) (table u : Uuid) : String :=
  let trail := params.trail u
  "_".intercalate (((trail.reverse.takeWhile (·.uuid ≠ table)).reverse).map Node.name)

/-- The leaf that an element of a table is. -/
def leafOf (params : Tree) (n : Node) : Except Error Leaf :=
  match n.ref? .original >>= referenceOf? params with
  | some reference => .ok ⟨n.uuid, n.name, n.data.path, reference⟩
  | none => .error (.inconsistent (.noOriginal n.uuid))

/-- The leaves of a table with their parents, in pre-order. -/
def leaves (params : Tree) (table : Uuid) : Except Error (List (Node × Leaf)) :=
  ((params.descendants table).filter (·.kind == .tableArrayElement)).mapM fun n => do
    return ((params.parent? n.uuid).getD n, ← leafOf params n)

/-- Adds a leaf to the group of its parent, the last group when there is none yet. -/
def addLeaf (params : Tree) (table : Uuid) (parent : Node) (leaf : Leaf) :
    List (Uuid × LeafGroup) → List (Uuid × LeafGroup)
  | [] => [(parent.uuid, ⟨groupName params table parent.uuid, parent.data.path, [leaf]⟩)]
  | (u, g) :: gs =>
    if u = parent.uuid then (u, { g with leaves := g.leaves ++ [leaf] }) :: gs
    else (u, g) :: addLeaf params table parent leaf gs

/-- The shape of an expanded table, with its leaves in the given order. -/
def ofTable (params : Tree) (table : Uuid) (order : LeafOrder) : Except Error Shape := do
  let seeds ← seedSources params table
  let leaves := order.apply table (·.2.uuid) (← leaves params table)
  let groups := leaves.foldl (fun gs (p, l) => addLeaf params table p l gs) []
  return ⟨table, seeds, groups.map (·.2)⟩

end Shape

end DeviceModel
