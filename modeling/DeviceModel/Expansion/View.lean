import DeviceModel.Expansion.Family

/-!
Rebuilding a view from the shape of its table. Reference points are known by their source, groups by
their path and place among the groups of that path, and leaves by path and parameter; what was there
before under the same key keeps its identifier.
-/

namespace DeviceModel

/-- What to do with leaves whose reference point is not ready. -/
inductive ZeroBits
  | abort
  | skip
  deriving DecidableEq, Repr

structure ExpandOptions where
  zeroBits : ZeroBits := .abort
  leafOrder : LeafOrder := .builtIn

namespace ViewExpansion

/-- The children that a view had, as far as they have not been taken up again, and the counts so far. -/
structure State where
  seeds : List (Uuid × Uuid × Data)
  groups : List (List Uuid × Uuid × Data)
  leaves : List ((List Uuid × Uuid) × Uuid)
  created : Nat := 0
  reused : Nat := 0

abbrev Builder := StateT State Fresh

def seedKeys (f : Family) (children : List Node) : List (Uuid × Uuid × Data) :=
  (children.filter (·.kind == f.point)).filterMap fun c =>
    (Family.sourceOf? c.data).map fun s => (s, c.uuid, c.data)

def groupKeys (f : Family) (children : List Node) : List (List Uuid × Uuid × Data) :=
  (children.filter (·.kind == f.group)).map fun c => (c.data.path, c.uuid, c.data)

def leafKeys (f : Family) (children : List Node) : List ((List Uuid × Uuid) × Uuid) :=
  (children.filter (·.kind == f.group)).flatMap fun c =>
    c.children.filterMap fun l =>
      (Family.sourceOf? l.data).map fun s => ((c.data.path, s), l.uuid)

def State.ofChildren (f : Family) (children : List Node) : State :=
  { seeds := seedKeys f children, groups := groupKeys f children, leaves := leafKeys f children }

/-- The identifier for a node: `known`, or a new one. -/
def identify (known : Option Uuid) : Builder Uuid :=
  match known with
  | some u => do
    modify fun s => { s with reused := s.reused + 1 }
    return u
  | none => do
    modify fun s => { s with created := s.created + 1 }
    liftM draw

/-- The reference point for a source; one that was there keeps all but its name. -/
def seed (f : Family) (source : SeedSource) : Builder Node := do
  let s ← get
  match s.seeds.find? (·.1 == source.uuid) with
  | some (_, u, d) =>
    set { s with seeds := s.seeds.filter (·.1 != source.uuid) }
    return .leaf (← identify (some u)) (d.put .name (.string (f.seedName source)))
  | none => return .leaf (← identify none) (f.newSeed source)

def seeds (f : Family) : List SeedSource → Builder (List Node)
  | [] => pure []
  | s :: ss => return (← seed f s) :: (← seeds f ss)

/-- The identifier of the leaf that stood for `source` at `path`. -/
def takeLeaf (path : List Uuid) (source : Uuid) : Builder (Option Uuid) := do
  let s ← get
  match s.leaves.find? (·.1 == (path, source)) with
  | some (_, u) =>
    set { s with leaves := s.leaves.filter (·.1 != (path, source)) }
    return some u
  | none => return none

/-- The groups that stood at `path`. -/
def takeGroups (path : List Uuid) : Builder (List (Uuid × Data)) := do
  let s ← get
  set { s with groups := s.groups.filter (·.1 != path) }
  return (s.groups.filter (·.1 == path)).map (·.2)

/-- The points of one chunk. -/
def points (f : Family) (path : List Uuid) (leaves : List (Leaf × Data)) :
    List Placed → Builder (List Node)
  | [] => pure []
  | p :: ps =>
    match leaves[p.index]? with
    | none => points f path leaves ps
    | some (l, d) => do
      let n := Node.leaf (← identify (← takeLeaf path l.uuid)) (f.leafData l d p.position)
      return n :: (← points f path leaves ps)

/-- A group for each chunk from `chunk` on, with the identifiers of the groups that stood there before
as far as they go; the flags tell the new ones. -/
def chunks (f : Family) (g : LeafGroup) (leaves : List (Leaf × Data)) :
    Nat → List (Uuid × Data) → List (List Placed) → Builder (List (Bool × Node))
  | _, _, [] => pure []
  | chunk, previous, c :: cs => do
    let old := previous.head?
    let u ← identify (old.map (·.1))
    let d := f.groupData g.name g.path chunk (old.map (·.2))
    let n : Node := ⟨u, d, ← points f g.path leaves c⟩
    return (old.isNone, n) :: (← chunks f g leaves (chunk + 1) (previous.drop 1) cs)

/-- The attributes of the reference point for the source `u`. -/
def seedData? (sources : List SeedSource) (seeds : List Node) (u : Uuid) : Option Data :=
  ((sources.zip seeds).find? (·.1.uuid == u)).map (·.2.data)

/-- The leaves of a group that can be placed, with their reference points. -/
def placeable (data? : Uuid → Option Data) (skipped : List Uuid) (g : LeafGroup) :
    List (Leaf × Data) :=
  (g.leaves.filter (!skipped.contains ·.reference)).filterMap fun l =>
    (data? l.reference).map fun d => (l, d)

def groups (f : Family) (data? : Uuid → Option Data) (skipped : List Uuid) :
    List LeafGroup → Builder (List (Bool × Node))
  | [] => pure []
  | g :: gs => do
    let leaves := placeable data? skipped g
    if leaves.isEmpty then groups f data? skipped gs
    else
      let previous ← takeGroups g.path
      let cs ← chunks f g leaves 0 previous (f.pack (leaves.map (·.2)))
      return cs ++ (← groups f data? skipped gs)

/-- The references of a shape's leaves, each once. -/
def references (shape : Shape) : List Uuid :=
  (shape.groups.flatMap fun g => g.leaves.map Leaf.reference).foldl
    (fun us u => if us.contains u then us else us ++ [u]) []

def names (shape : Shape) (us : List Uuid) : List String :=
  (shape.seeds.filter (us.contains ·.uuid)).map SeedSource.name

/-- A view whose reference points are built and whose groups are about to be. -/
structure Plan where
  seeds : List Node
  state : State
  skipped : List Uuid

/-- Refuses a node that is not a view of the shape's table. -/
def requireView (f : Family) (view : Node) (shape : Shape) : Except Error Unit :=
  if view.kind ≠ f.view then .error (.inconsistent (.notView view.uuid view.kind f.view))
  else if f.tableOf? view.data ≠ some shape.table then
    .error (.inconsistent (.otherTable shape.table (f.tableOf? view.data)))
  else .ok ()

/-- The reference points, and the references whose leaves are left out. -/
def plan (f : Family) (view : Node) (shape : Shape) (zeroBits : ZeroBits) : Build Plan := do
  requireView f view shape
  let (seeds, state) ← liftM ((seeds f shape.seeds).run (.ofChildren f view.children))
  let data? := seedData? shape.seeds seeds
  let oversized := (references shape).filter fun u => (data? u).any (!f.fits ·)
  let unready := (references shape).filter fun u => !(data? u).any f.ready
  if !oversized.isEmpty then
    throw (.inconsistent (.oversized (names shape oversized)))
  if !unready.isEmpty ∧ zeroBits = .abort then
    throw (.inconsistent (.unready (names shape unready)))
  return ⟨seeds, state, unready⟩

/-- The tree with the view's children replaced by those of the plan. -/
def build (f : Family) (t : Tree) (view : Node) (shape : Shape) (p : Plan) : Build (Tree × Expansion) := do
  let data? := seedData? shape.seeds p.seeds
  let (gs, s) ← liftM ((groups f data? p.skipped shape.groups).run p.state)
  let t := t.edit view.uuid fun n => { n with children := p.seeds ++ gs.map (·.2) }
  let created := (gs.filter (·.1)).map (·.2.uuid)
  let t ← f.finish t view.uuid created
  return (t, ⟨view.uuid, s.created, s.reused, (Node.all.below view.children).length - s.reused, p.skipped⟩)

/-- The children of a view with one reference point per source in front, in the order of the sources. -/
def syncFrom (f : Family) (points : List (Node × Option Uuid)) (row : Nat) (cs : List Node) :
    List SeedSource → Fresh (List Node)
  | [] => pure cs
  | s :: ss =>
    match points.find? (·.2 == some s.uuid) with
    | some (n, _) => syncFrom f points (row + 1) (Node.place row n (cs.filter (·.uuid != n.uuid))) ss
    | none => do
      let n := Node.leaf (← draw) (f.newSeed s)
      syncFrom f points (row + 1) (Node.place row n cs) ss

/-- The children of a view in step with the sources of its table, its groups left alone. -/
def sync (f : Family) (children : List Node) (sources : List SeedSource) : Fresh (List Node) :=
  let isStale := fun (n : Node) => n.kind == f.point &&
    !(Family.sourceOf? n.data).any fun s => sources.any (·.uuid == s)
  let points := (children.filter (·.kind == f.point)).map fun n => (n, Family.sourceOf? n.data)
  syncFrom f points 0 (children.filter (!isStale ·)) sources

end ViewExpansion

/-- A new view with one reference point per source. -/
def Family.seeded (f : Family) (view : Data) (sources : List SeedSource) : Fresh Node := do
  let u ← draw
  let points ← sources.mapM fun s => return Node.leaf (← draw) (f.newSeed s)
  return ⟨u, view, points⟩

end DeviceModel
