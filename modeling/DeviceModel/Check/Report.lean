import DeviceModel.Rules.Anomalies
import DeviceModel.Rules.Can
import DeviceModel.Rules.Register

/-!
Checking a tree. The result has the shape of the tree, with the issues of each node; it can be counted,
flattened, and pruned to the branches that have issues.
-/

namespace DeviceModel

/-- The rules of each tree. -/
def Rules.ofTree : TreeKind → Rules
  | .parameters => .parameters
  | .can => .can
  | .sunSpec => .sunSpec
  | .staticModbus => .staticModbus
  | .anomalies => .anomalies

/-- The issues of a node and of the nodes below it. -/
structure CheckResult where
  uuid : Uuid
  kind : Kind
  name : String
  issues : List Issue
  children : List CheckResult

namespace CheckResult

/-- The issues of a node, and the node they are about. -/
structure Entry where
  uuid : Uuid
  kind : Kind
  name : String
  issue : Issue
  deriving DecidableEq, Repr

/-- Every issue with its node, in pre-order. -/
def flatten : CheckResult → List Entry
  | ⟨u, k, name, is, cs⟩ => is.map (⟨u, k, name, ·⟩) ++ each cs
where
  each : List CheckResult → List Entry
    | [] => []
    | c :: cs => c.flatten ++ each cs

def count (level : Level) : CheckResult → Nat
  | ⟨_, _, _, is, cs⟩ => is.countP (·.level == level) + each cs
where
  each : List CheckResult → Nat
    | [] => 0
    | c :: cs => count level c + each cs

def maxLevel : Option Level → Option Level → Option Level
  | some a, some b => some (a.max b)
  | some a, none => some a
  | none, b => b

/-- The most severe level of all issues. -/
def worst : CheckResult → Option Level
  | ⟨_, _, _, is, cs⟩ => maxLevel (is.foldl (fun w i => maxLevel w (some i.level)) none) (each cs)
where
  each : List CheckResult → Option Level
    | [] => none
    | c :: cs => maxLevel c.worst (each cs)

def hasErrors (r : CheckResult) : Bool := 0 < r.count .error

/-- The branches with issues. -/
def prune : CheckResult → Option CheckResult
  | ⟨u, k, name, is, cs⟩ =>
    let cs := each cs
    if is.isEmpty && cs.isEmpty then none else some ⟨u, k, name, is, cs⟩
where
  each : List CheckResult → List CheckResult
    | [] => []
    | c :: cs =>
      match prune c with
      | some c => c :: each cs
      | none => each cs

end CheckResult

namespace Check

/-- Issues that a node of any tree can have with its children and its identifier. -/
def structural (n : Node) (l : Lookup) : List Issue :=
  let misplaced := (n.children.filter (!n.kind.allows ·.kind)).map fun c => .misplaced c.kind n.kind
  let holders := (l.filter (·.contains n.uuid)).length
  misplaced ++ if 1 < holders then [.sharedUuid n.uuid holders] else []

def targetIssues (l : Lookup) (f : Field) (target : Uuid) : List Issue :=
  match l.kind? target with
  | none => [.unknownReference f.label target]
  | some k =>
    if f.targets.isEmpty || f.targets.contains k then []
    else [.wrongReference f.label k f.targets]

/-- Issues of the references from a node. -/
def references (n : Node) (l : Lookup) : List Issue :=
  n.data.entries.flatMap fun (f, v) =>
    if f.type.base = .uuid then v.uuids.flatMap (targetIssues l f) else []

def issues (t : Tree) (l : Lookup) (n : Node) : List Issue :=
  structural n l ++ references n l ++ (Rules.ofTree t.kind).issues t n l

/-- The issues of `n` and of the nodes below it. -/
def node (t : Tree) (l : Lookup) : Node → CheckResult
  | ⟨u, d, cs⟩ =>
    ⟨u, d.kind, d.name, issues t l ⟨u, d, cs⟩, each cs⟩
where
  each : List Node → List CheckResult
    | [] => []
    | c :: cs => node t l c :: each cs

end Check

/-- Checks `u` and the nodes below it; references may lead to any tree of `l`. -/
def Tree.check (t : Tree) (l : Lookup) (u : Uuid) : CheckResult :=
  match t.find? u with
  | some n => Check.node t l n
  | none => ⟨u, t.kind.rootKind, "", [.absent u], []⟩

end DeviceModel
