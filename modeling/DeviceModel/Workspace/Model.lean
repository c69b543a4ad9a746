import DeviceModel.Check.Report
import DeviceModel.Document.Format

/-!
A model is a tree with the trees from which it takes drops, and an index of its attributes that is
built on demand and dropped with every change of the tree. The five models make up a project's content.
-/

namespace DeviceModel

/-- For some attributes every node that has it with the value. -/
abbrev AttributeIndex := List (Attr × List (Value × Uuid))

structure Model where
  tree : Tree
  dropSources : List TreeKind := []
  index : AttributeIndex := []

namespace Model

def kind (m : Model) : TreeKind := m.tree.kind

def root (m : Model) : Uuid := m.tree.root.uuid

/-- Every change of the tree goes through here. -/
def withTree (m : Model) (t : Tree) : Model := { m with tree := t, index := [] }

/-- The nodes that have the attribute `a`, with its value, in pre-order. -/
def entries (t : Tree) (a : Attr) : List (Value × Uuid) :=
  t.all.filterMap fun n => (n.data.get? a).map fun v => (v, n.uuid)

def indexed (m : Model) (a : Attr) : List (Value × Uuid) :=
  match m.index.find? (·.1 == a) with
  | some (_, es) => es
  | none => entries m.tree a

/-- The nodes whose attribute `a` equals `v`, and the model with its index built. -/
def nodesByAttribute (m : Model) (a : Attr) (v : Value) : List Uuid × Model :=
  let es := m.indexed a
  let found := (es.filter (·.1.same v)).map (·.2)
  (found, if m.index.any (·.1 == a) then m else { m with index := (a, es) :: m.index })

/-- The first identifier that repeats one of `seen` or an earlier one, with its tree. -/
def firstShared (seen : List Uuid) : List (Uuid × TreeKind) → Option (Uuid × TreeKind)
  | [] => none
  | (u, k) :: us => if u ∈ seen then some (u, k) else firstShared (u :: seen) us

/-- Takes drops from other trees too; none of their identifiers may be in use here. -/
def addDropSources (m : Model) (sources : List Tree) : Except Error Model :=
  match firstShared m.tree.uuids (sources.flatMap fun t => t.uuids.map fun u => (u, t.kind)) with
  | some (u, k) => .error (.inconsistent (.shared u m.kind k))
  | none =>
    let added := sources.foldl (fun ks t => if ks.contains t.kind then ks else ks ++ [t.kind])
      m.dropSources
    .ok { m with dropSources := added }

def acceptsDropsFrom (m : Model) (k : TreeKind) : Bool := k == m.kind || m.dropSources.contains k

/-- The model of a file, with the attributes computed that files do not store. -/
def ofText (text : String) (k : TreeKind) (others : List Tree) (s : Supply) :
    Except Error (Model × Supply) := do
  let (t, s) ← Tree.ofText text k others s
  return ({ tree := t.refreshed }, s)

/-- A model of the root only. -/
def initial (k : TreeKind) : Fresh Model := return { tree := .initial k (← draw) }

end Model

structure Models where
  parameters : Model
  can : Model
  sunSpec : Model
  staticModbus : Model
  anomalies : Model

namespace Models

def get (ms : Models) : TreeKind → Model
  | .parameters => ms.parameters
  | .can => ms.can
  | .sunSpec => ms.sunSpec
  | .staticModbus => ms.staticModbus
  | .anomalies => ms.anomalies

def set (ms : Models) (k : TreeKind) (m : Model) : Models :=
  match k with
  | .parameters => { ms with parameters := m }
  | .can => { ms with can := m }
  | .sunSpec => { ms with sunSpec := m }
  | .staticModbus => { ms with staticModbus := m }
  | .anomalies => { ms with anomalies := m }

@[simp] theorem get_set_self (ms : Models) (k : TreeKind) (m : Model) : (ms.set k m).get k = m := by
  cases k <;> rfl

theorem get_set_of_ne (ms : Models) {j k : TreeKind} (m : Model) (h : j ≠ k) :
    (ms.set k m).get j = ms.get j := by
  cases j <;> cases k <;> first | rfl | exact absurd rfl h

def tree (ms : Models) (k : TreeKind) : Tree := (ms.get k).tree

/-- All five trees. -/
def lookup (ms : Models) : Lookup := TreeKind.all.map ms.tree

/-- The trees other than `k`. -/
def others (ms : Models) (k : TreeKind) : Lookup := (TreeKind.all.filter (· != k)).map ms.tree

def uuids (ms : Models) : List Uuid := ms.lookup.flatMap Tree.uuids

/-- Lets every other tree take drops from the parameter tree, in turn up to the first that cannot. -/
def registerFrom (ms : Models) : List TreeKind → Except Error Unit × Models
  | [] => (.ok (), ms)
  | k :: ks =>
    match (ms.get k).addDropSources [ms.parameters.tree] with
    | .ok m => registerFrom (ms.set k m) ks
    | .error e => (.error e, ms)

def register (ms : Models) : Except Error Unit × Models :=
  ms.registerFrom [.can, .sunSpec, .staticModbus, .anomalies]

/-- Five trees of roots only. -/
def initial : Fresh Models := do
  let ms : Models := ⟨← Model.initial .parameters, ← Model.initial .can, ← Model.initial .sunSpec,
    ← Model.initial .staticModbus, ← Model.initial .anomalies⟩
  return ms.register.2

/-- The checks of all five trees. -/
def check (ms : Models) : List CheckResult :=
  TreeKind.all.map fun k => (ms.tree k).check ms.lookup (ms.get k).root

end Models

end DeviceModel
