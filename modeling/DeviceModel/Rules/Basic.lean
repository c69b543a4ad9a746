import DeviceModel.Check.Issue
import DeviceModel.Expansion.View

/-!
What may be done by hand in a tree: which nodes may be dropped where and what then happens, which may
be added, and which deleted. Generated nodes are not for the hand.
-/

namespace DeviceModel

/-- The rules of one tree. -/
structure Rules where
  /-- Whether a source may be dropped on a target, to be moved there or to be made a child of. -/
  canDrop : Tree → Node → Node → Bool
  /-- Whether a source of the same tree is moved and not copied from. -/
  moves : Tree → Node → Node → Bool
  /-- The child that a drop of a source onto a target makes. -/
  childFrom : Tree → Node → Node → Lookup → Build Node
  /-- The kinds offered for a new child. -/
  addable : Tree → Node → List Kind
  /-- A new child of a kind that is offered. -/
  newChild : Tree → Node → Kind → Lookup → Build Node
  canDelete : Tree → Node → Bool
  /-- What is wrong with a node, apart from what can be wrong in any tree. -/
  issues : Tree → Node → Lookup → List Issue

namespace Tree

/-- Whether expansion made a node, or keeps it in step with another. -/
def isGenerated (t : Tree) (u : Uuid) : Bool :=
  match t.find? u with
  | none => false
  | some n =>
    n.kind == .tableGroupElement || n.kind == .tableArrayElement ||
      n.kind == .tableRepeatingBlockReferenceDataPointReference ||
      (t.ancestors u).any fun a => a.kind.isTableView || a.kind == .arrayGroupElement

def parentKind? (t : Tree) (u : Uuid) : Option Kind := (t.parent? u).map Node.kind

/-- Whether `source` may be moved under `target`: the kinds agree, the target is not below the source,
and neither is generated, in an array or in a header. -/
def canMove (t : Tree) (target source : Node) : Bool :=
  t.contains source.uuid && source.uuid != t.root.uuid && source.uuid != target.uuid &&
    !t.isAncestor source.uuid target.uuid && target.kind.allows source.kind &&
    !t.isGenerated source.uuid && !t.isGenerated target.uuid && !target.kind.isTableView &&
    !(target.kind == .array || target.kind == .arrayGroupElement || target.kind == .headerBlock) &&
    !((t.parentKind? source.uuid).any fun k => k == .array || k == .headerBlock)

end Tree

namespace Rules

def refuse (source target : Node) : Build Node :=
  throw (.illegalDrop source.uuid source.kind target.uuid target.kind)

def notOffered (parent : Node) (child : Kind) : Build Node := throw (.illegalChild parent.kind child)

/-- A new node of a kind with some of its attributes set. -/
def new (k : Kind) (attrs : List (Attr × Value)) (children : List Node := []) : Build Node := do
  return ⟨← liftM draw, .of k attrs, children⟩

/-- A new view of the parameter table `table`. -/
def newView (f : Family) (view : Data) (table : Node) (l : Lookup) : Build Node := do
  match l.treeOf? table.uuid with
  | none => throw (.notFound table.uuid)
  | some params =>
    let sources ← liftM (Shape.seedSources params table.uuid)
    liftM (f.seeded view sources)

/-- The greatest of some integers, or `none_`. -/
def maximum (none_ : Int) : List Int → Int
  | [] => none_
  | i :: is => is.foldl max i

end Rules

end DeviceModel
