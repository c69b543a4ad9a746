import DeviceModel.Register.PointType
import DeviceModel.Supply

/-!
The layout of register maps. Offsets are running sums of sizes: of blocks in a model, of points in a
block, and of repeating blocks in a table; a reference to a repeating block takes the room of that
block. The length of a model is the size of what follows its header.
-/

namespace DeviceModel

namespace Kind

/-- References that put a repeating block into the map. -/
def isBlockReference : Kind → Bool
  | .tableRepeatingBlockReference | .modbusTableRepeatingBlockReference => true
  | _ => false

def isRepeatingBlock : Kind → Bool
  | .tableRepeatingBlock | .modbusTableRepeatingBlock => true
  | _ => false

/-- Points of their own, or bit fields. -/
def isPoint : Kind → Bool
  | .dataPoint | .dataPointBitfield | .functionData | .functionDataBitfield => true
  | _ => false

end Kind

namespace Tree

/-- The registers of a node, in at most `fuel` steps from a reference to its block; `none` when that
is not enough. -/
def sizeWithin (t : Tree) : Nat → Node → Option Int
  | 0, _ => none
  | fuel + 1, n =>
    if n.kind.isBlockReference then
      match n.ref? .original with
      | some b => ((t.children b).mapM (sizeWithin t fuel)).map fun sizes => sizes.foldr (· + ·) 0
      | none => some 0
    else some (n.int .size)

/-- The registers of a point, or of the block that a reference puts in its place. -/
def sizeOf (t : Tree) (n : Node) : Int := (t.sizeWithin (t.size + 1) n).getD 0

def total (t : Tree) (ns : List Node) : Int := (ns.map t.sizeOf).foldr (· + ·) 0

theorem total_nil (t : Tree) : t.total [] = 0 := rfl

theorem total_cons (t : Tree) (n : Node) (ns : List Node) :
    t.total (n :: ns) = t.sizeOf n + t.total ns := rfl

/-- The registers of a repeating block. -/
def blockSize (t : Tree) (block : Uuid) : Int := t.total (t.children block)

end Tree

/-- A value that the layout gives an attribute. -/
structure Placement where
  uuid : Uuid
  attr : Attr
  value : Int
  deriving DecidableEq, Repr

namespace Layout

/-- Points from `start` on in a block that begins at `base`. -/
def points (t : Tree) (base start : Int) : List Node → List Placement
  | [] => []
  | n :: ns =>
    let absolute :=
      if (n.kind.field? .offset).isSome then [⟨n.uuid, .offset, base + start⟩] else []
    ⟨n.uuid, .blockOffset, start⟩ :: absolute ++ points t base (start + t.sizeOf n) ns

/-- The repeating blocks of a table from `start` on. -/
def repeatingBlocks (t : Tree) (start : Int) : List Node → List Placement
  | [] => []
  | b :: bs =>
    if b.kind.isRepeatingBlock then
      ⟨b.uuid, .offset, start⟩ :: points t 0 0 b.children ++
        repeatingBlocks t (start + t.total b.children) bs
    else repeatingBlocks t start bs

/-- The blocks of a model from `start` on. -/
def blocks (t : Tree) (start : Int) : List Node → List Placement
  | [] => []
  | b :: bs =>
    match b.kind with
    | .headerBlock | .fixedBlock =>
      ⟨b.uuid, .offset, start⟩ :: points t start 0 b.children ++
        blocks t (start + t.total b.children) bs
    | .sunSpecTable => repeatingBlocks t 0 b.children ++ blocks t start bs
    | _ => blocks t start bs

/-- The registers behind the header of a model. -/
def modelLength (t : Tree) (model : Node) : Int :=
  ((model.children.filter (·.kind == .fixedBlock)).map fun b => t.total b.children).foldr (· + ·) 0

def model (t : Tree) (m : Node) : List Placement :=
  blocks t 0 m.children ++ [⟨m.uuid, .length, modelLength t m⟩]

/-- The nodes of the static map from `start` on. -/
def flat (t : Tree) (start : Int) : List Node → List Placement
  | [] => []
  | n :: ns =>
    let size := t.sizeOf n
    let room := if n.kind.isBlockReference then [⟨n.uuid, .size, size⟩] else []
    ⟨n.uuid, .blockOffset, start⟩ :: room ++ flat t (start + size) ns

def tables (t : Tree) (ns : List Node) : List Placement :=
  (ns.filter (·.kind == .modbusTable)).flatMap fun n => repeatingBlocks t 0 n.children

end Layout

namespace Tree

/-- Every attribute value that the layout gives. -/
def layout (t : Tree) : List Placement :=
  match t.kind with
  | .sunSpec => (t.ofKind .sunSpecModel).flatMap (Layout.model t)
  | .staticModbus =>
    Layout.tables t t.root.children ++
      Layout.flat t 0 (t.root.children.filter (·.kind != .modbusTable))
  | .parameters | .can | .anomalies => []

def placeAll (t : Tree) (ps : List Placement) : Tree :=
  ps.foldl (fun t p => t.modify p.uuid (·.put p.attr (.integer p.value))) t

def persists (t : Tree) (p : Placement) : Bool :=
  ((t.find? p.uuid >>= fun n => n.kind.field? p.attr).map Field.persisted).getD false

/-- The tree with the attributes computed that files do not store. -/
def refreshed (t : Tree) : Tree := t.placeAll (t.layout.filter (!t.persists ·))

/-- A stand-in for each point of the block, with the identifier of the one that there was. -/
def standIns (old : List Node) : List Uuid → Fresh (List Node)
  | [] => pure []
  | p :: ps => do
    let u ← match old.find? (·.ref? .original == some p) with
      | some c => pure c.uuid
      | none => draw
    let d := (Data.initial .tableRepeatingBlockReferenceDataPointReference).put .original (.uuid p)
    return .leaf u d :: (← standIns old ps)

/-- The points of the block that a reference names. -/
def referencedPoints (t : Tree) (reference : Node) : List Uuid :=
  match reference.ref? .original with
  | some b => ((t.children b).filter (·.kind == .dataPoint)).map Node.uuid
  | none => []

/-- The children of one reference brought in step with its block. -/
def syncReference (t : Tree) (u : Uuid) : Build Tree :=
  match t.find? u with
  | none => pure t
  | some r => do
    let wanted := t.referencedPoints r
    if r.children.map (·.ref? .original) = wanted.map some then return t
    let (old, t) ← liftM (t.detachChildren u)
    let cs ← liftM (standIns old wanted)
    liftM (cs.foldlM (fun t c => t.insert u none c) t)

def syncReferences (t : Tree) : Build Tree :=
  ((t.ofKind .tableRepeatingBlockReference).map Node.uuid).foldlM syncReference t

/-- Sets one attribute to the value that the layout gives it. -/
def setPlaced (t : Tree) (p : Placement) : Except Error Tree := do
  let n ← t.node p.uuid
  match n.data.set p.attr (.integer p.value) with
  | .ok d => return t.modify p.uuid fun _ => d
  | .error e => throw (.attribute p.uuid e)

/-- Brings references in step and then the layout up to date. -/
def updateLayout (t : Tree) : Build Tree := do
  let t ← if t.kind = .sunSpec then t.syncReferences else pure t
  liftM (t.layout.foldlM setPlaced t)

/-- The stored values that differ from the layout, with the value that is stored. -/
def drift (t : Tree) : List (Placement × Int) :=
  t.layout.filterMap fun p => do
    let n ← t.find? p.uuid
    let f ← n.kind.field? p.attr
    let stored ← n.data.int? p.attr
    if f.persisted ∧ stored ≠ p.value then some (p, stored) else none

end Tree

namespace Lookup

/-- Whether the size of a point counts where it stands: neither in a header nor as the reference point
of a table. -/
def isLaidOut (t : Tree) (n : Node) : Bool :=
  n.kind.isPoint && !((t.parent? n.uuid).any fun p =>
    p.kind == .headerBlock || p.kind == .sunSpecTable || p.kind == .modbusTable)

/-- The length of what is laid out at and below `scope`, whose points must all have the sizes of their
types. The points of repeating blocks count where they are referred to. -/
def length (l : Lookup) (t : Tree) (scope : Uuid) : Except Error Int := do
  let ns := t.descendants scope
  let sizes ← (ns.filter (isLaidOut t)).mapM fun n => do
    let size ← l.pointSize n
    return if (t.parent? n.uuid).any (·.kind.isRepeatingBlock) then 0 else size
  let blocks := (ns.filter (·.kind.isBlockReference)).map fun n =>
    ((n.ref? .original).map t.blockSize).getD 0
  return (sizes ++ blocks).foldr (· + ·) 0

end Lookup

end DeviceModel
