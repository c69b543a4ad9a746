import DeviceModel.Rules.Basic

/-!
The parameter tree: groups, arrays, tables and enumerations. The first element of an array determines
the others, which refer to it; elements go only from the end.
-/

namespace DeviceModel

namespace Tree

/-- Whether `u` is the first element of an array. -/
def isFirstElement (t : Tree) (u : Uuid) : Bool :=
  (t.parent? u).any fun p => p.kind == .array && p.children.head?.any (·.uuid == u)

end Tree

namespace Rules.Parameters

def addable (t : Tree) (n : Node) : List Kind :=
  if t.isGenerated n.uuid then []
  else match n.kind with
    | .root => Kind.root.childKinds
    | .group => if t.isFirstElement n.uuid then [.parameter] else Kind.group.childKinds
    | .array => if n.children.isEmpty then [.parameter, .group] else []
    | .table => [.enumeration, .array, .group]
    | .enumeration | .accessLevels => [.enumerator]
    | _ => []

def newChild (_ : Tree) (parent : Node) (k : Kind) (_ : Lookup) : Build Node :=
  match k with
  | .group => new .group [(.name, .string "New Group")]
  | .parameter =>
    new .parameter [(.name, .string "New Parameter"), (.usesInterfaceItem, .bool true)]
  | .array => new .array [(.name, .string "New Array")]
  | .table => new .table [(.name, .string "New Table")]
  | .enumeration => new .enumeration [(.name, .string "New Enumeration")]
  | .accessLevels => new .accessLevels [(.name, .string "Access Levels")]
  | .enumerator =>
    let values := (parent.children.filter (·.kind == .enumerator)).map (·.int .value + 1)
    new .enumerator [(.name, .string "New Enumerator"), (.value, .integer (maximum 0 values))]
  | k => notOffered parent k

def canDelete (t : Tree) (n : Node) : Bool :=
  n.uuid != t.root.uuid && !t.isGenerated n.uuid &&
    match t.parent? n.uuid with
    | some p => p.kind != .array || p.children.getLast?.any (·.uuid == n.uuid)
    | none => true

/-- Whether a parameter is reached through functions alone. -/
def isLegacy (l : Lookup) (u : Uuid) : Bool := l.effective? u .usesInterfaceItem == some (.bool false)

def parameterIssues (n : Node) (l : Lookup) : List Issue :=
  let low := n.data.decimal? .minimum
  let high := n.data.decimal? .maximum
  let legacy := !n.flag .usesInterfaceItem
  let range := match low, high with
    | some a, some b => if b.less a then [.reversedRange a b] else []
    | _, _ => []
  let outside := match n.data.decimal? .defaultValue with
    | some d => if low.any d.less || high.any (·.less d) then [.defaultOutside d] else []
    | none => []
  let access := if legacy && (n.ref? .accessLevel).isSome then [.legacyAccessLevel] else []
  let unreachable :=
    if legacy && (n.text? .getterFunction).isNone && (n.text? .internalVariable).isNone then
      [.legacyUnreachable]
    else []
  let enumeration :=
    if (n.ref? .enumeration >>= l.node?).any (·.children.isEmpty) then [.emptyEnumeration] else []
  range ++ outside ++ access ++ unreachable ++ enumeration

/-- The kind of the elements that follow one of kind `first`. -/
def elementKind? : Kind → Option Kind
  | .parameter => some .arrayParameterElement
  | .group => some .arrayGroupElement
  | _ => none

def elementIssues (first : Node) (k : Kind) (e : Node) : List Issue :=
  if e.kind ≠ k then [.elementKind e.uuid e.kind k]
  else if e.ref? .original ≠ some first.uuid then [.elementOriginal e.uuid]
  else []

def arrayIssues (n : Node) : List Issue :=
  let stored := n.int .length
  let length := if stored = n.children.length then [] else [.arrayLength stored n.children.length]
  let elements := match n.children with
    | [] => []
    | first :: rest =>
      match elementKind? first.kind with
      | none => [.firstElement first.kind]
      | some k => rest.flatMap (elementIssues first k)
  length ++ elements

def tableIssues (n : Node) : List Issue :=
  let has := fun k => n.children.any (·.kind == k)
  (if has .enumeration then [] else [.noAxes]) ++
    (if has .array || has .group then [] else [.noRows]) ++
    (if has .tableGroupElement then [] else [.tableNotExpanded])

def issues (_ : Tree) (n : Node) (l : Lookup) : List Issue :=
  match n.kind with
  | .parameter => parameterIssues n l
  | .array => arrayIssues n
  | .enumeration | .accessLevels =>
    Issue.repeats (fun e => if e.kind = .enumerator then some (e.int .value) else none)
      .sharedValue n.children
  | .table => tableIssues n
  | .tableArrayElement =>
    if (n.ref? .original).any (isLegacy l) && (n.ref? .accessLevel).isSome then
      [.legacyAccessLevel]
    else []
  | _ => []

end Rules.Parameters

def Rules.parameters : Rules where
  canDrop := Tree.canMove
  moves := Tree.canMove
  childFrom _ target source _ := refuse source target
  addable := Parameters.addable
  newChild := Parameters.newChild
  canDelete := Parameters.canDelete
  issues := Parameters.issues

end DeviceModel
