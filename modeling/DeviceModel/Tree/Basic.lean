import DeviceModel.Error

/-!
Nodes and the trees that they form. A node holds its children, so a tree is a value, and the links
from a node to its parent and ancestors are read off the path to it.
-/

namespace DeviceModel

structure Node where
  uuid : Uuid
  data : Data
  children : List Node

namespace Node

mutual

def decEq : (a b : Node) → Decidable (a = b)
  | ⟨u, d, cs⟩, ⟨v, e, ds⟩ =>
    if hu : u = v then
      if hd : d = e then
        match decEqList cs ds with
        | isTrue hc => isTrue (by rw [hu, hd, hc])
        | isFalse hc => isFalse (by simp [hc])
      else isFalse (by simp [hd])
    else isFalse (by simp [hu])

def decEqList : (as bs : List Node) → Decidable (as = bs)
  | [], [] => isTrue rfl
  | [], _ :: _ | _ :: _, [] => isFalse (by simp)
  | a :: as, b :: bs =>
    match decEq a b, decEqList as bs with
    | isTrue h, isTrue t => isTrue (by rw [h, t])
    | isFalse h, _ => isFalse (by simp [h])
    | _, isFalse t => isFalse (by simp [t])

end

instance : DecidableEq Node := decEq

instance : Inhabited Node := ⟨⟨.nil, default, []⟩⟩

def kind (n : Node) : Kind := n.data.kind

def name (n : Node) : String := n.data.name

def text? (n : Node) (a : Attr) : Option String := n.data.text? a

def text (n : Node) (a : Attr) : String := n.data.text a

def int (n : Node) (a : Attr) : Int := n.data.int a

def flag (n : Node) (a : Attr) : Bool := n.data.flag a

def ref? (n : Node) (a : Attr) : Option Uuid := n.data.ref? a

def leaf (u : Uuid) (d : Data) : Node := ⟨u, d, []⟩

def put (n : Node) (a : Attr) (v : Value) : Node := { n with data := n.data.put a v }

/-- The node and all nodes below it in pre-order: each before its children, which come in order. -/
def all : Node → List Node
  | ⟨u, d, cs⟩ => ⟨u, d, cs⟩ :: below cs
where
  below : List Node → List Node
    | [] => []
    | c :: cs => all c ++ below cs

def uuids (n : Node) : List Uuid := n.all.map Node.uuid

/-- The nodes from this one down to the first that has the identifier `u`. -/
def trail? (u : Uuid) : Node → Option (List Node)
  | ⟨v, d, cs⟩ =>
    if v = u then some [⟨v, d, cs⟩] else (search cs).map (⟨v, d, cs⟩ :: ·)
where
  search : List Node → Option (List Node)
    | [] => none
    | c :: cs =>
      match trail? u c with
      | some t => some t
      | none => search cs

/-- The node with `f` applied at `u`. -/
def edit (u : Uuid) (f : Node → Node) : Node → Node
  | ⟨v, d, cs⟩ => if v = u then f ⟨v, d, cs⟩ else ⟨v, d, each cs⟩
where
  each : List Node → List Node
    | [] => []
    | c :: cs => edit u f c :: each cs

/-- The node without the node `u` below it. -/
def without (u : Uuid) : Node → Node
  | ⟨v, d, cs⟩ => ⟨v, d, each cs⟩
where
  each : List Node → List Node
    | [] => []
    | c :: cs => if c.uuid = u then each cs else without u c :: each cs

/-- `c` in front of the child at `row`; last when there is none. -/
def place (row : Nat) (c : Node) (cs : List Node) : List Node := cs.take row ++ c :: cs.drop row

def addChild (n : Node) (row : Option Nat) (c : Node) : Node :=
  { n with children := place (row.getD n.children.length) c n.children }

theorem mem_all_self (n : Node) : n ∈ n.all := by cases n; simp [all]

theorem mem_below {c m : Node} {cs : List Node} (hc : c ∈ cs) (hm : m ∈ c.all) :
    m ∈ all.below cs := by
  induction cs with
  | nil => simp at hc
  | cons d ds ih =>
    simp only [all.below, List.mem_append]
    rcases List.mem_cons.1 hc with rfl | hc
    · exact .inl hm
    · exact .inr (ih hc)

end Node

structure Tree where
  kind : TreeKind
  root : Node
  deriving DecidableEq, Inhabited

namespace Tree

/-- Every node in pre-order. -/
def all (t : Tree) : List Node := t.root.all

def uuids (t : Tree) : List Uuid := t.root.uuids

def size (t : Tree) : Nat := t.all.length

def find? (t : Tree) (u : Uuid) : Option Node := t.all.find? (·.uuid == u)

def contains (t : Tree) (u : Uuid) : Bool := t.all.any (·.uuid == u)

def node (t : Tree) (u : Uuid) : Except Error Node :=
  match t.find? u with
  | some n => .ok n
  | none => .error (.notFound u)

def children (t : Tree) (u : Uuid) : List Node := ((t.find? u).map Node.children).getD []

/-- The nodes from the root down to `u`. -/
def trail (t : Tree) (u : Uuid) : List Node := (t.root.trail? u).getD []

/-- The ancestors of `u` from the parent up to the root. -/
def ancestors (t : Tree) (u : Uuid) : List Node := (t.trail u).dropLast.reverse

def parent? (t : Tree) (u : Uuid) : Option Node := (t.ancestors u).head?

/-- The position of `u` among its siblings. -/
def row? (t : Tree) (u : Uuid) : Option Nat := do
  let p ← t.parent? u
  p.children.findIdx? (·.uuid == u)

/-- `u` and the nodes below it in pre-order. -/
def descendants (t : Tree) (u : Uuid) : List Node := ((t.find? u).map Node.all).getD []

def isAncestor (t : Tree) (ancestor u : Uuid) : Bool := (t.ancestors u).any (·.uuid == ancestor)

def ofKind (t : Tree) (k : Kind) : List Node := t.all.filter (·.kind == k)

/-- The names from below the root down to `u`. -/
def namePath (t : Tree) (u : Uuid) : List String := ((t.trail u).drop 1).map Node.name

def edit (t : Tree) (u : Uuid) (f : Node → Node) : Tree := { t with root := t.root.edit u f }

/-- The tree with the attributes of `u` changed. -/
def modify (t : Tree) (u : Uuid) (f : Data → Data) : Tree :=
  t.edit u fun n => { n with data := f n.data }

end Tree

/-!
### Changes

Changes of a tree keep it a tree of its kind: identifiers stay distinct and children of the
kinds that their parents allow. A change that would not is refused, and the tree is left as it is.
-/

namespace Node

/-- Finds fault with a node that is to join nodes of the identifiers `seen`: a repeated identifier, or
a child of a kind that its parent does not allow. Later siblings are looked at first. -/
def validate : Node → List Uuid → Except Error (List Uuid)
  | ⟨u, d, cs⟩, seen =>
    if u ∈ seen then .error (.inconsistent (.duplicate u))
    else
      match cs.find? fun c => !d.kind.allows c.kind with
      | some c => .error (.illegalChild d.kind c.kind)
      | none => each cs (u :: seen)
where
  each : List Node → List Uuid → Except Error (List Uuid)
    | [], seen => .ok seen
    | c :: cs, seen =>
      match each cs seen with
      | .ok seen => validate c seen
      | .error e => .error e

end Node

namespace Tree

def ofRoot? (kind : TreeKind) (root : Node) : Except Error Tree :=
  if root.kind ≠ kind.rootKind then .error (.illegalChild kind.rootKind root.kind)
  else do
    let _ ← root.validate []
    return ⟨kind, root⟩

/-- A tree of its root only. -/
def initial (kind : TreeKind) (u : Uuid) : Tree :=
  ⟨kind, .leaf u ((Data.initial kind.rootKind).put .name (.string kind.title))⟩

/-- `c` becomes the child of `parent` at `row`, the last without a row or past the end. -/
def insert (t : Tree) (parent : Uuid) (row : Option Nat) (c : Node) : Except Error Tree := do
  let p ← t.node parent
  if !p.kind.allows c.kind then .error (.illegalChild p.kind c.kind)
  else do
    let _ ← c.validate t.uuids
    return t.edit parent fun n => n.addChild row c

/-- The node `u` with all below it, and the tree that is left. -/
def detach (t : Tree) (u : Uuid) : Except Error (Node × Tree) :=
  if u = t.root.uuid then .error (.notDeletable u t.root.kind)
  else do
    let n ← t.node u
    return (n, { t with root := t.root.without u })

def detachChildren (t : Tree) (u : Uuid) : Except Error (List Node × Tree) := do
  let n ← t.node u
  return (n.children, t.edit u fun n => { n with children := [] })

/-- `u` becomes the child of `parent` at `row`, counted without `u`. -/
def move (t : Tree) (u parent : Uuid) (row : Option Nat) : Except Error Tree := do
  let n ← t.node u
  let p ← t.node parent
  if u = t.root.uuid ∨ u = parent ∨ t.isAncestor u parent then
    .error (.inconsistent (.underItself u parent))
  else if !p.kind.allows n.kind then .error (.illegalChild p.kind n.kind)
  else return { t with root := (t.root.without u).edit parent fun p => p.addChild row n }

/-- What every change of a tree keeps. -/
structure Valid (t : Tree) : Prop where
  root : t.root.kind = t.kind.rootKind
  nodup : t.uuids.Nodup
  allowed : ∀ n ∈ t.all, ∀ c ∈ n.children, n.kind.allows c.kind = true

end Tree

end DeviceModel
