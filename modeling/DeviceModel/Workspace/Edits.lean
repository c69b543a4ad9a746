import DeviceModel.Workspace.Basic

/-!
The edits that users make: adding, deleting and dropping nodes as the rules of the tree allow, and
keeping the elements of an array and the members of its groups in step.
-/

namespace DeviceModel.Edit

/-! ### Arrays -/

/-- The name of the element at `index`: that of a named enumerator, or the first element's with the
index behind it. -/
def elementName (t : Tree) (array first : Node) (index : Nat) : String :=
  match (array.ref? .namedEnumerators >>= fun e => (t.children e)[index]?) with
  | some e => e.name
  | none => first.name ++ Text.natText index

/-- The stand-in for a member of the first group in another element. -/
def standIn (p : Node) : Fresh Node := do
  return .leaf (← draw) (.of .arrayParameterElement [(.name, .string p.name),
    (.abbreviation, .orNull .string (p.text? .abbreviation)), (.original, .uuid p.uuid)])

def newElement (t : Tree) (array first : Node) (index : Nat) : Fresh Node := do
  let attrs := [(.name, .string (elementName t array first index)), (.original, .uuid first.uuid)]
  let u ← draw
  if first.kind = .group then
    let members ← (first.children.filter (·.kind == .parameter)).mapM standIn
    return ⟨u, .of .arrayGroupElement attrs, members⟩
  else return .leaf u (.of .arrayParameterElement attrs)

/-- An array with its stored length in step. -/
def counted (array : Node) : Node := array.put .length (.integer array.children.length)

/-- The array with `length` elements: the first ones, and new ones behind them. -/
def resized (t : Tree) (array : Node) (length : Nat) : Build Node := do
  if length ≤ array.children.length then
    return counted { array with children := array.children.take length }
  else
    match array.children.head? with
    | none => throw (.inconsistent .emptyArray)
    | some first =>
      let indices := (List.range length).drop array.children.length
      let more ← liftM (indices.mapM (newElement t array first))
      return counted { array with children := array.children ++ more }

def setArrayLength (u : Uuid) (length : Nat) : Edit Unit := do
  match ((← tree .parameters).find? u).filter (·.kind == .array) with
  | none => throw (.notFound u)
  | some array =>
    transaction .parameters u fun t => do
      let array ← build (resized t array length)
      return (t.edit u fun _ => array, ())

/-- A new element of an array, or a member of its first group with its stand-ins in the others. -/
def addParameter (parent : Uuid) (child : Node) : Edit Uuid := do
  let t ← tree .parameters
  let p ← liftM (t.node parent)
  let shared := t.isFirstElement parent && child.kind == .parameter
  if p.kind ≠ .array ∧ !shared then insertNode .parameters parent none child
  else
    let scope := if shared then ((t.parent? parent).map Node.uuid).getD parent else parent
    transaction .parameters scope fun t => do
      let t ← liftM (t.insert parent none child)
      if p.kind = .array then return (t.edit parent counted, child.uuid)
      else
        let elements := ((t.children scope).drop 1).map Node.uuid
        let t ← elements.foldlM (fun t e => do
          let m ← fresh (standIn child)
          liftM (t.insert e none m)) t
        return (t, child.uuid)

/-- The stand-ins of `u` at and below `scope`. -/
def standIns (t : Tree) (scope u : Uuid) : List Uuid :=
  ((t.descendants scope).filter fun n =>
    n.kind == .arrayParameterElement && n.ref? .original == some u).map Node.uuid

/-- Removes an element of an array, or a member of its first group with its stand-ins. -/
def removeParameter (u : Uuid) : Edit Unit := do
  let t ← tree .parameters
  match t.parent? u with
  | none => throw (.notFound u)
  | some p =>
    let shared := t.isFirstElement p.uuid
    if p.kind ≠ .array ∧ !shared then removeNode .parameters u
    else
      let scope := if shared then ((t.parent? p.uuid).map Node.uuid).getD p.uuid else p.uuid
      transaction .parameters scope fun t => do
        let gone := if shared then standIns t scope u else []
        let t ← (gone ++ [u]).foldlM (fun t u => do return (← liftM (t.detach u)).2) t
        return (if p.kind = .array then t.edit p.uuid counted else t, ())

/-- Renames a node of the parameter tree, and its stand-ins. -/
def rename (u : Uuid) (name : String) : Edit Unit := do
  setAttribute .parameters u "name" (.string name)
  let t ← tree .parameters
  let followers := (t.ofKind .arrayParameterElement).filter fun n =>
    n.ref? .original == some u && t.parentKind? n.uuid == some .arrayGroupElement
  for n in followers do
    setAttribute .parameters n.uuid "name" (.string name)

/-! ### Adding, deleting and dropping -/

def addChild (k : TreeKind) (parent : Uuid) (kind : Kind) : Edit Uuid := do
  let ms ← models
  let t := ms.tree k
  let rules := Rules.ofTree k
  let p ← liftM (t.node parent)
  if !(rules.addable t p).contains kind then throw (.illegalChild p.kind kind)
  let child ← build (rules.newChild t p kind (ms.others k))
  if k = .parameters then addParameter parent child else insertNode k parent none child

def delete (k : TreeKind) (u : Uuid) : Edit Unit := do
  let t ← tree k
  let n ← liftM (t.node u)
  if u = t.root.uuid ∨ !(Rules.ofTree k).canDelete t n then
    logNode .warn k n.kind u "refused delete"
    throw (.notDeletable u n.kind)
  if k = .parameters then removeParameter u else removeNode k u

/-- The node that is dropped, of the tree itself or of one that it takes drops from. -/
def dropSource (k : TreeKind) (target : Node) (source : Uuid) : Edit (Node × Bool) := do
  let ms ← models
  match (ms.tree k).find? source with
  | some n => return (n, true)
  | none =>
    let n ← liftM ((ms.others k).node source)
    if !(ms.get k).acceptsDropsFrom n.kind.tree then
      logNode .warn k target.kind target.uuid
        ("refused drop from unregistered " ++ n.kind.tree.name ++ " tree")
      throw (.illegalDrop n.uuid n.kind target.uuid target.kind)
    return (n, false)

/-- Drops `source` on `target`: it is moved there, or a child is made from it. -/
def dropNode (k : TreeKind) (source target : Uuid) (row : Option Nat) : Edit Uuid := do
  let ms ← models
  let t := ms.tree k
  let rules := Rules.ofTree k
  let target ← liftM (t.node target)
  let (source, internal) ← dropSource k target source
  let what := source.kind.tag ++ " " ++ source.uuid.text
  if !rules.canDrop t target source then
    logNode .warn k target.kind target.uuid ("refused drop of " ++ what)
    throw (.illegalDrop source.uuid source.kind target.uuid target.kind)
  if internal ∧ rules.moves t target source then
    moveNode k source.uuid target.uuid row
    logNode .debug k target.kind target.uuid ("moved " ++ what)
    return source.uuid
  let child ← build (rules.childFrom t target source (ms.others k))
  let u ← insertNode k target.uuid row child
  logNode .info k target.kind target.uuid ("dropped " ++ what ++ " as " ++ u.text)
  return u

/-- What is dragged is the identifier of a node, as 16 bytes. -/
def readPayload (bytes : List Nat) : Except Error Uuid :=
  if bytes.length = 16 then .ok (.ofBytes bytes) else .error (.payload bytes.length)

def drop (k : TreeKind) (payload : List Nat) (target : Uuid) (row : Option Nat) : Edit Uuid := do
  dropNode k (← liftM (readPayload payload)) target row

/-!
### Expansion within a project

Of a parameter table, of a view of one, of everything there is.
-/

def logExpansion (k : TreeKind) (kind : Kind) (what : String) (e : Expansion) : Edit Unit :=
  logNode .info k kind e.view ("expanded " ++ what ++ ": " ++ Text.natText e.created ++ " created, " ++
    Text.natText e.reused ++ " reused, " ++ Text.natText e.removed ++ " removed")

/-- Expands a parameter table. -/
def expandTable (k : TreeKind) (table : Uuid) : Edit Expansion := do
  if k ≠ .parameters then throw (.inconsistent .tableElsewhere)
  let e ← transaction k table fun t => build (t.expandTable table)
  logExpansion k .table "table" e
  return e

/-- The views of a tree, and the table that `view` is linked to. -/
def linkedTable (k : TreeKind) (view : Uuid) : Edit (Family × Option Uuid) := do
  let f ← liftM (Family.ofTree k)
  let n ← liftM ((← tree k).node view)
  return (f, f.tableOf? n.data)

/-- The table to expand from: the one that is linked, which a given one must not contradict. -/
def chooseTable (view : Uuid) : Option Uuid → Option Uuid → Except Error Uuid
  | some given, some linked =>
    if given = linked then .ok given else .error (.inconsistent (.otherTable given (some linked)))
  | some given, none => .ok given
  | none, some linked => .ok linked
  | none, none => .error (.inconsistent (.unlinkedView view))

/-- Rebuilds a view from its parameter table. -/
def expandView (k : TreeKind) (view : Uuid) (table : Option Uuid) (o : ExpandOptions) :
    Edit Expansion := do
  let (f, linked) ← linkedTable k view
  let table ← liftM (chooseTable view table linked)
  let shape ← liftM (Shape.ofTable (← tree .parameters) table o.leafOrder)
  let e ← transaction k view fun t => do
    let n ← liftM (t.node view)
    let plan ← build (ViewExpansion.plan f n shape o.zeroBits)
    for name in ViewExpansion.names shape plan.skipped do
      logNode .warn k n.kind view ("skipping leaves of reference " ++ name ++ ": it has zero bits")
    build (ViewExpansion.build f t n shape plan)
  let n ← liftM ((← tree k).node view)
  logExpansion k n.kind "view" e
  return e

/-- Brings the reference points of a view in step with its table. -/
def syncSeeds (k : TreeKind) (view : Uuid) : Edit Unit := do
  let (f, linked) ← linkedTable k view
  match linked with
  | none => throw (.inconsistent (.unlinkedView view))
  | some table =>
    let sources ← liftM (Shape.seedSources (← tree .parameters) table)
    transaction k view fun t => do
      let n ← liftM (t.node view)
      let cs ← fresh (ViewExpansion.sync f n.children sources)
      return (t.edit view fun n => { n with children := cs }, ())

/-- Expands every table, then every view. -/
def expandAll (o : ExpandOptions) : Edit (List Expansion) := do
  let tables := ((← tree .parameters).ofKind .table).map Node.uuid
  let first ← tables.mapM (expandTable .parameters)
  let rest ← [TreeKind.can, .sunSpec, .staticModbus].mapM fun k => do
    let f ← liftM (Family.ofTree k)
    let views := ((← tree k).ofKind f.view).map Node.uuid
    views.mapM fun v => expandView k v none o
  return first ++ rest.flatten

end DeviceModel.Edit
