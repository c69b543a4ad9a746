import DeviceModel.Log
import DeviceModel.Workspace.Model

/-!
The state that edits work on: the models, the supply of identifiers, and what the views and the log
are told. An edit that fails keeps the state that it has reached.
-/

namespace DeviceModel

/-- What a view of a tree is told. Rows are positions among the children of a node. -/
inductive ViewEvent
  | beginInsert (parent : Uuid) (first last : Nat)
  | endInsert
  | beginRemove (parent : Uuid) (first last : Nat)
  | endRemove
  | beginMove (parent : Uuid) (first last : Nat) (newParent : Uuid) (row : Nat)
  | endMove
  | dataChanged (first last : Uuid)
  deriving DecidableEq, Repr

structure Workspace where
  models : Models
  supply : Supply
  events : List (TreeKind × ViewEvent) := []
  log : List LogLine := []

abbrev Edit := ExceptT Error (StateM Workspace)

/-- A line about a node. -/
def LogLine.ofNode (level : LogLevel) (k : TreeKind) (kind : Kind) (u : Uuid) (text : String) :
    LogLine :=
  ⟨level, "[tree=" ++ k.name ++ ", kind=" ++ kind.tag ++ ", uuid=" ++ u.text ++ "] " ++ text⟩

namespace Workspace

/-- Five trees of roots only; the identifiers come from the number `next` on. -/
def initial (next : Nat) : Workspace :=
  let (ms, s) := Models.initial ⟨next, []⟩
  { models := ms, supply := s }

end Workspace

namespace Edit

def models : Edit Models := return (← get).models

def model (k : TreeKind) : Edit Model := return (← models).get k

def tree (k : TreeKind) : Edit Tree := return (← models).tree k

def setModel (k : TreeKind) (m : Model) : Edit Unit :=
  modify fun w => { w with models := w.models.set k m }

/-- The nodes whose attribute of the given name equals `v`. -/
def nodesByAttribute (k : TreeKind) (name : String) (v : Value) : Edit (List Uuid) := do
  match Attr.ofKey? name with
  | none => return []
  | some a =>
    let (found, m) := (← model k).nodesByAttribute a v
    setModel k m
    return found

def tell (k : TreeKind) (e : ViewEvent) : Edit Unit :=
  modify fun w => { w with events := w.events ++ [(k, e)] }

def log (level : LogLevel) (text : String) : Edit Unit :=
  modify fun w => { w with log := w.log ++ [⟨level, text⟩] }

def logNode (level : LogLevel) (k : TreeKind) (kind : Kind) (u : Uuid) (text : String) : Edit Unit :=
  modify fun w => { w with log := w.log ++ [.ofNode level k kind u text] }

/-- A step whose new identifiers are none of the models'. -/
def build (b : Build α) : Edit α := do
  let w ← get
  let (r, s) := b.run (w.supply.avoiding w.models.uuids)
  set { w with supply := s }
  liftM r

/-- The same for a step that cannot fail. -/
def fresh (b : Fresh α) : Edit α := build (liftM b)

/-- Trees whose registers are laid out. -/
def hasLayout (k : TreeKind) : Bool := k == .sunSpec || k == .staticModbus

/-- Puts the changed tree in place, with its layout brought up to date. -/
def commit (k : TreeKind) (t : Tree) : Edit Unit := do
  let m ← model k
  setModel k (m.withTree t)
  if hasLayout k then
    let t ← build t.updateLayout
    setModel k (m.withTree t)
    tell k (.dataChanged t.root.uuid t.root.uuid)

/-- A new child of `parent` at `row`, at the end without one. -/
def insertNode (k : TreeKind) (parent : Uuid) (row : Option Nat) (n : Node) : Edit Uuid := do
  let t ← tree k
  let p ← liftM (t.node parent)
  let row := min (row.getD p.children.length) p.children.length
  tell k (.beginInsert parent row row)
  let r := t.insert parent (some row) n
  tell k .endInsert
  commit k (← liftM r)
  return n.uuid

/-- The parent of a node, which the root has not. -/
def parentOf (t : Tree) (u : Uuid) : Except Error Node :=
  match t.parent? u with
  | some p => .ok p
  | none => do
    let n ← t.node u
    .error (.notDeletable u n.kind)

def removeNode (k : TreeKind) (u : Uuid) : Edit Unit := do
  let t ← tree k
  let p ← liftM (parentOf t u)
  let row := (t.row? u).getD 0
  tell k (.beginRemove p.uuid row row)
  let r := t.detach u
  tell k .endRemove
  commit k (← liftM r).2

/-- `u` becomes the child of `parent` at `row`, counted without `u`. -/
def moveNode (k : TreeKind) (u parent : Uuid) (row : Option Nat) : Edit Unit := do
  let t ← tree k
  let p ← liftM (parentOf t u)
  let source := (t.row? u).getD 0
  tell k (.beginMove p.uuid source source parent (row.getD (t.children parent).length))
  let r := t.move u parent row
  tell k .endMove
  commit k (← liftM r)

/-- Changes a copy of the tree and puts it in place if that succeeds. Views are told that the children
of `scope` are others. -/
def transaction (k : TreeKind) (scope : Uuid) (f : Tree → Edit (Tree × α)) : Edit α := do
  let t ← tree k
  let (t', a) ← f t
  let old := (t.children scope).length
  let new := (t'.children scope).length
  if 0 < old then
    tell k (.beginRemove scope 0 (old - 1))
    tell k .endRemove
  if 0 < new then
    tell k (.beginInsert scope 0 (new - 1))
    tell k .endInsert
  commit k t'
  logNode .debug k k.rootKind scope ("committed transaction (" ++ Text.natText old ++ " -> " ++
    Text.natText new ++ " children)")
  return a

/-- The node `u` of a tree and its field of the given name. -/
def field (k : TreeKind) (u : Uuid) (name : String) : Edit Field := do
  let n ← liftM ((← tree k).node u)
  match Attr.ofKey? name >>= n.kind.field? with
  | some f => return f
  | none => throw (.noAttribute u n.kind name)

/-- Sets an attribute to a value of its type. -/
def setAttribute (k : TreeKind) (u : Uuid) (name : String) (v : Value) : Edit Unit := do
  let f ← field k u name
  if !f.type.accepts v then throw (.attribute u (.typeMismatch f.attr f.type))
  let t ← tree k
  let n ← liftM (t.node u)
  match n.data.set f.attr v with
  | .error e => throw (.attribute u e)
  | .ok d =>
    let m ← model k
    let t := t.modify u fun _ => d
    setModel k (m.withTree t)
    setModel k (m.withTree (← build t.updateLayout))
    tell k (.dataChanged u u)

/-- Sets an attribute to what was entered. -/
def setAttributeText (k : TreeKind) (u : Uuid) (name text : String) : Edit Unit := do
  let f ← field k u name
  match f.parse text with
  | .ok v => setAttribute k u name v
  | .error e => throw (.attribute u e)

/-- Puts another tree in the place of a model's. -/
def replaceTree (k : TreeKind) (t : Tree) : Edit Unit := do
  let m ← model k
  let count := m.tree.root.children.length
  if 0 < count then
    tell k (.beginRemove m.root 0 (count - 1))
    tell k .endRemove
  setModel k (m.withTree t)

/-- Loads a model from the text of a file. Its identifiers must not be in the parameter tree. -/
def load (k : TreeKind) (text : String) : Edit Unit := do
  let w ← get
  let others := if k = .parameters then [] else [w.models.parameters.tree]
  let (m, s) ← liftM (Model.ofText text k others (w.supply.avoiding w.models.uuids))
  let (r, ms) := (w.models.set k m).register
  set { w with models := ms, supply := s }
  liftM r

end Edit

end DeviceModel
