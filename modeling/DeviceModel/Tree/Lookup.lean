import DeviceModel.Tree.Basic

/-!
Resolution of references across the trees of a project, and of the attributes that a node shares with
the original it refers to.
-/

namespace DeviceModel

/-- The trees that references may lead to, in the order in which they are searched. -/
abbrev Lookup := List Tree

namespace Tree

/-- The attribute `a` of the node `u`, in at most `fuel` steps from an array element to its original;
`none` when that is not enough. -/
def effectiveWithin (t : Tree) (a : Attr) : Nat → Uuid → Option (Option Value)
  | 0, _ => none
  | fuel + 1, u =>
    match t.find? u with
    | none => some none
    | some n =>
      match n.data.get? a with
      | some v => some (some v)
      | none =>
        if n.kind = .arrayParameterElement ∧ Kind.sharedAttributes.contains a then
          match n.ref? .original with
          | some o => if o = u then some none else effectiveWithin t a fuel o
          | none => some none
        else some none

/-- The attribute `a` of the node `u`; an element of an array shares those of its original. -/
def effective? (t : Tree) (u : Uuid) (a : Attr) : Option Value :=
  (t.effectiveWithin a (t.size + 1) u).join

end Tree

namespace Lookup

def tree? (l : Lookup) (k : TreeKind) : Option Tree := l.find? (·.kind == k)

def parameters? (l : Lookup) : Option Tree := l.tree? .parameters

def treeOf? (l : Lookup) (u : Uuid) : Option Tree := l.find? (·.contains u)

def node? (l : Lookup) (u : Uuid) : Option Node := l.findSome? (·.find? u)

def node (l : Lookup) (u : Uuid) : Except Error Node :=
  match l.node? u with
  | some n => .ok n
  | none => .error (.notFound u)

def kind? (l : Lookup) (u : Uuid) : Option Kind := (l.node? u).map Node.kind

/-- The name of a node, empty when there is none. -/
def name (l : Lookup) (u : Uuid) : String := ((l.node? u).map Node.name).getD ""

def effective? (l : Lookup) (u : Uuid) (a : Attr) : Option Value := do (← l.treeOf? u).effective? u a

def effectiveText? (l : Lookup) (u : Uuid) (a : Attr) : Option String :=
  l.effective? u a >>= Value.string?

/-- The node that `n` names as its original, unless that is itself. -/
def original? (n : Node) : Option Uuid := (n.ref? .original).filter (· ≠ n.uuid)

/-- From a leaf of a table over an element of an array to a parameter. -/
def originalSteps : Nat := 4

def definitionFrom (l : Lookup) : Nat → Node → Option Node
  | 0, n => some n
  | steps + 1, n =>
    match original? n with
    | some o => l.node? o >>= definitionFrom l steps
    | none => some n

/-- The parameter that `u` stands for. -/
def definition? (l : Lookup) (u : Uuid) : Option Node := l.node? u >>= definitionFrom l originalSteps

def attributeFrom (l : Lookup) (a : Attr) : Nat → Node → Option Value
  | 0, _ => none
  | steps + 1, n =>
    match (n.data.get? a).filter (!·.isNull) with
    | some v => some v
    | none => do attributeFrom l a steps (← l.node? (← original? n))

/-- The first value of `a`, null aside, on the way from `u` to the parameter it stands for. -/
def attribute? (l : Lookup) (u : Uuid) (a : Attr) : Option Value := do
  attributeFrom l a originalSteps (← l.node? u)

def attributeText? (l : Lookup) (u : Uuid) (a : Attr) : Option String :=
  l.attribute? u a >>= Value.string?

end Lookup

end DeviceModel
