import DeviceModel.Rules.Basic

/-!
The anomaly tree: tables of anomalies with codes, and the parameters that the anomalies come from.
-/

namespace DeviceModel

namespace Rules.Anomalies

def canDrop (t : Tree) (target source : Node) : Bool :=
  if t.contains source.uuid then t.canMove target source
  else target.kind == .anomaly && source.kind.isParameterLike

def childFrom (_ : Tree) (target source : Node) (_ : Lookup) : Build Node :=
  if target.kind == .anomaly && source.kind.isParameterLike then
    new .anomalySource [(.name, .string source.name), (.parameter, .uuid source.uuid)]
  else refuse source target

def addable (_ : Tree) (n : Node) : List Kind :=
  match n.kind with
  | .anomaliesRoot => [.anomalyTable]
  | .anomalyTable => [.anomaly]
  | .anomaly => [.anomalySource]
  | _ => []

/-- The next code among the children of a node. -/
def nextCode (parent : Node) : Value :=
  let used := parent.children.filterMap (·.data.int? .code)
  .integer ((nextFree used 0 9223372036854775807).getD 0)

def newChild (_ : Tree) (parent : Node) (k : Kind) (_ : Lookup) : Build Node :=
  match k with
  | .anomalyTable => new .anomalyTable [(.name, .string "New Table"), (.code, nextCode parent)]
  | .anomaly => new .anomaly [(.name, .string "New Anomaly"), (.code, nextCode parent)]
  | .anomalySource => new .anomalySource [(.name, .string "New Source")]
  | k => notOffered parent k

def issues (_ : Tree) (n : Node) (_ : Lookup) : List Issue :=
  match n.kind with
  | .anomaliesRoot | .anomalyTable =>
    Issue.repeats (·.data.int? .code) .sharedCode n.children ++
      if n.kind == .anomalyTable && (n.text .abbreviation).isEmpty then [.noAbbreviation] else []
  | .anomalySource => if (n.ref? .parameter).isNone then [.noParameter] else []
  | _ => []

end Rules.Anomalies

def Rules.anomalies : Rules where
  canDrop := Anomalies.canDrop
  moves := Tree.canMove
  childFrom := Anomalies.childFrom
  addable := Anomalies.addable
  newChild := Anomalies.newChild
  canDelete t n := n.uuid != t.root.uuid
  issues := Anomalies.issues

end DeviceModel
