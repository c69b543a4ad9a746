import DeviceModel.Proofs.Expansion.Families
import DeviceModel.Proofs.Supply

/-!
What stands below a view that has been rebuilt. Main statements: the reference points stand for the
sources of the table (`seeds_stand`), and the groups for the blocks that the leaves of the table are
packed into (`groups_stand`).
-/

namespace DeviceModel

namespace ViewExpansion

/-- A leaf with the reference point it is taken from, at its place in a block. -/
structure Point where
  leaf : Leaf
  seed : Data
  position : Int

/-- A group of points as it is to stand below a view. -/
structure Block where
  name : String
  path : List Uuid
  chunk : Nat
  points : List Point

def pointsOf (leaves : List (Leaf × Data)) (ps : List Placed) : List Point :=
  ps.filterMap fun p => leaves[p.index]?.map fun x => ⟨x.1, x.2, p.position⟩

def blocksFrom (g : LeafGroup) (leaves : List (Leaf × Data)) : Nat → List (List Placed) → List Block
  | _, [] => []
  | i, c :: cs => ⟨g.name, g.path, i, pointsOf leaves c⟩ :: blocksFrom g leaves (i + 1) cs

def blocksOf (f : Family) (data? : Uuid → Option Data) (skipped : List Uuid) (g : LeafGroup) :
    List Block :=
  let leaves := placeable data? skipped g
  if leaves.isEmpty then [] else blocksFrom g leaves 0 (f.pack (leaves.map (·.2)))

/-- The blocks that the leaves of a table are packed into. -/
def blocks (f : Family) (data? : Uuid → Option Data) (skipped : List Uuid) (gs : List LeafGroup) :
    List Block :=
  gs.flatMap (blocksOf f data? skipped)

/-- A reference point for a source of the table. -/
structure SeedStands (f : Family) (n : Node) (s : SeedSource) : Prop where
  children : n.children = []
  kind : n.kind = f.point
  source : Family.sourceOf? n.data = some s.uuid
  name : n.data.put .name (.string (f.seedName s)) = n.data

/-- A point for a leaf of the table, wherever it has been placed. -/
structure PointStands (f : Family) (n : Node) (p : Point) : Prop where
  children : n.children = []
  kind : n.kind = f.point
  source : Family.sourceOf? n.data = some p.leaf.uuid
  data : n.data.unplaced = f.leafData p.leaf p.seed p.position

structure BlockStands (f : Family) (n : Node) (b : Block) : Prop where
  kind : n.kind = f.group
  path : n.data.path = b.path
  data : f.groupData b.name b.path b.chunk (some n.data) = n.data.unplaced
  points : List.Forall₂ (PointStands f) n.children b.points

/-- What leaves are packed and placed by. -/
def unplacedOf (data? : Uuid → Option Data) (u : Uuid) : Option Data := (data? u).map Data.unplaced

theorem placeable_unplacedOf (data? : Uuid → Option Data) (skipped : List Uuid) (g : LeafGroup) :
    placeable (unplacedOf data?) skipped g =
      (placeable data? skipped g).map fun x => (x.1, x.2.unplaced) := by
  rw [placeable, placeable, List.map_filterMap]
  simp only [unplacedOf, Option.map_map, Function.comp_def]

theorem pack_unplaced {f : Family} (hf : f.Lawful) (leaves : List (Leaf × Data)) :
    f.pack ((leaves.map fun x => (x.1, x.2.unplaced)).map (·.2)) = f.pack (leaves.map (·.2)) := by
  refine hf.pack_similar _ _ ?_
  rw [List.map_map]
  induction leaves with
  | nil => exact .nil
  | cons x xs ih => exact .cons (Data.similar_unplaced x.2) ih

/-! ### Steps -/

theorem identify_some (u : Uuid) (st : State) (sup : Supply) :
    identify (some u) st sup = ((u, { st with reused := st.reused + 1 }), sup) := rfl

theorem seed_known {f : Family} {s : SeedSource} {st : State} {e : Uuid × Uuid × Data}
    (h : st.seeds.find? (·.1 == s.uuid) = some e) (sup : Supply) :
    seed f s st sup = ((.leaf e.2.1 (e.2.2.put .name (.string (f.seedName s))),
      { st with seeds := st.seeds.filter (·.1 != s.uuid), reused := st.reused + 1 }), sup) := by
  simp only [seed, bind, StateT.bind, get, getThe, MonadStateOf.get, StateT.get, pure, StateT.pure, h]
  rfl

theorem seed_new {f : Family} {s : SeedSource} {st : State}
    (h : st.seeds.find? (·.1 == s.uuid) = none) (sup : Supply) :
    seed f s st sup = ((.leaf (draw sup).1 (f.newSeed s), { st with created := st.created + 1 }),
      (draw sup).2) := by
  simp only [seed, bind, StateT.bind, get, getThe, MonadStateOf.get, StateT.get, pure, StateT.pure, h]
  rfl

theorem takeLeaf_known {path : List Uuid} {source : Uuid} {st : State} {e : (List Uuid × Uuid) × Uuid}
    (h : st.leaves.find? (·.1 == (path, source)) = some e) (sup : Supply) :
    takeLeaf path source st sup =
      ((some e.2, { st with leaves := st.leaves.filter (·.1 != (path, source)) }), sup) := by
  simp only [takeLeaf, bind, StateT.bind, get, getThe, MonadStateOf.get, StateT.get, pure, StateT.pure,
    h]
  rfl

theorem takeLeaf_new {path : List Uuid} {source : Uuid} {st : State}
    (h : st.leaves.find? (·.1 == (path, source)) = none) (sup : Supply) :
    takeLeaf path source st sup = ((none, st), sup) := by
  simp only [takeLeaf, bind, StateT.bind, get, getThe, MonadStateOf.get, StateT.get, pure, StateT.pure,
    h]

theorem takeGroups_eq (path : List Uuid) (st : State) (sup : Supply) :
    takeGroups path st sup = (((st.groups.filter (·.1 == path)).map (·.2),
      { st with groups := st.groups.filter (·.1 != path) }), sup) := rfl

section

variable {f : Family} (hf : f.Lawful)
include hf

/-! ### Reference points -/

/-- The reference points that are known are points for the sources under which they are known. -/
def KnowsSeeds (f : Family) (st : State) : Prop :=
  ∀ e ∈ st.seeds, e.2.2.kind = f.point ∧ Family.sourceOf? e.2.2 = some e.1

omit hf in
theorem knowsSeeds_ofChildren (children : List Node) : KnowsSeeds f (.ofChildren f children) := by
  intro e he
  obtain ⟨c, hc, hce⟩ := List.mem_filterMap.1 he
  rw [Option.map_eq_some_iff] at hce
  obtain ⟨s, hs, rfl⟩ := hce
  exact ⟨eq_of_beq (List.mem_filter.1 hc).2, hs⟩

theorem seed_stands (s : SeedSource) :
    Makes (KnowsSeeds f) (seed f s) fun n => SeedStands f n s := by
  intro st sup hst
  cases h : st.seeds.find? (·.1 == s.uuid) with
  | some e =>
    obtain ⟨hk, hsource⟩ := hst e (List.mem_of_find?_eq_some h)
    have hkey : e.1 = s.uuid := by simpa using List.find?_some h
    rw [seed_known h]
    refine ⟨⟨rfl, ?_, ?_, Data.put_put _ _ _⟩, fun e he => hst e (List.mem_of_mem_filter he)⟩
    · exact (Data.kind_put _ _ _).trans hk
    · rw [← hkey, ← hsource]
      exact Family.sourceOf?_put_of_ne (a := .name) (by decide) _
  | none =>
    rw [seed_new h]
    exact ⟨⟨rfl, hf.kind_newSeed s, hf.source_newSeed s, hf.name_newSeed s⟩, hst⟩

theorem seeds_stand (ss : List SeedSource) :
    Makes (KnowsSeeds f) (seeds f ss) fun ns => List.Forall₂ (SeedStands f) ns ss := by
  induction ss with
  | nil => exact makes_pure .nil
  | cons s ss ih =>
    exact (seed_stands hf s).bind fun n hn => ih.bind fun ns hns => makes_pure (.cons hn hns)

/-! ### Groups -/

theorem points_stand {leaves : List (Leaf × Data)} (hl : ∀ x ∈ leaves, x.2.kind = f.point)
    (path : List Uuid) (ps : List Placed) : Makes (fun _ => True) (points f path leaves ps)
      fun ns => List.Forall₂ (PointStands f) ns
        (pointsOf (leaves.map fun x => (x.1, x.2.unplaced)) ps) := by
  induction ps with
  | nil => exact makes_pure .nil
  | cons p ps ih =>
    rw [points, pointsOf, List.filterMap_cons, List.getElem?_map]
    cases hp : leaves[p.index]? with
    | none => exact ih
    | some x =>
      have hk := hl x (List.mem_of_getElem? hp)
      have hstands : ∀ u, PointStands f (.leaf u (f.leafData x.1 x.2 p.position))
          ⟨x.1, x.2.unplaced, p.position⟩ := fun u =>
        ⟨rfl, (hf.kind_leafData _ _ _).trans hk, hf.source_leafData _ _ _ hk, by
          rw [Node.leaf, hf.unplaced_leafData _ _ _ hk]
          exact hf.leafData_similar _ _ _ _ hk (Data.similar_unplaced x.2).symm⟩
      exact makes_any.bind fun _ _ => makes_any.bind fun u _ => ih.bind fun ns hns =>
        makes_pure (.cons (hstands u) hns)

/-- The blocks that are built stand for those that the leaves are packed into. -/
theorem chunks_stand {g : LeafGroup} {leaves : List (Leaf × Data)}
    (hl : ∀ x ∈ leaves, x.2.kind = f.point) (i : Nat) (previous : List (Uuid × Data))
    (cs : List (List Placed)) : Makes (fun _ => True) (chunks f g leaves i previous cs)
      fun ns => List.Forall₂ (BlockStands f) (ns.map (·.2))
        (blocksFrom g (leaves.map fun x => (x.1, x.2.unplaced)) i cs) := by
  induction cs generalizing i previous with
  | nil => exact makes_pure .nil
  | cons c cs ih =>
    refine makes_any.bind fun u _ => (points_stand hf hl g.path c).bind fun ns hns => ?_
    refine (ih (i + 1) (previous.drop 1)).bind fun more hmore => makes_pure (.cons ?_ hmore)
    exact ⟨hf.kind_groupData _ _ _ _, hf.path_groupData _ _ _ _, hf.groupData_again _ _ _ _, hns⟩

omit hf in
theorem kind_of_placeable {data? : Uuid → Option Data} (hd : ∀ u d, data? u = some d → d.kind = f.point)
    {skipped : List Uuid} {g : LeafGroup} : ∀ x ∈ placeable data? skipped g, x.2.kind = f.point := by
  intro x hx
  obtain ⟨l, -, hlx⟩ := List.mem_filterMap.1 hx
  obtain ⟨d, hld, rfl⟩ := Option.map_eq_some_iff.1 hlx
  exact hd _ d hld

theorem groups_stand {data? : Uuid → Option Data} (hd : ∀ u d, data? u = some d → d.kind = f.point)
    (skipped : List Uuid) (gs : List LeafGroup) : Makes (fun _ => True) (groups f data? skipped gs)
      fun ns => List.Forall₂ (BlockStands f) (ns.map (·.2)) (blocks f (unplacedOf data?) skipped gs) := by
  induction gs with
  | nil => exact makes_pure .nil
  | cons g gs ih =>
    rw [groups, blocks, List.flatMap_cons, blocksOf, placeable_unplacedOf, List.isEmpty_map,
      pack_unplaced hf]
    split
    · exact ih
    · refine makes_any.bind fun previous _ => (chunks_stand hf (kind_of_placeable hd) 0 previous _).bind
        fun ns hns => ?_
      refine ih.bind fun more hmore => makes_pure ?_
      rw [List.map_append]
      exact List.rel_append hns hmore

end

end ViewExpansion

end DeviceModel
