import DeviceModel.Proofs.Expansion.Again

/-!
What the points and groups below a view cover. Main statements: leaves that can be placed are packed in
their order, each once (`index_pack`), so the groups of a view that has been rebuilt hold the leaves of its
table but for those that are left out (`covers_of_stands`).
-/

namespace DeviceModel

namespace Family

/-! ### Packing -/

/-- Leaves with a width are all placed: where no chunk is open the first of them opens one. -/
theorem index_packBits_of_pos {ws : List Int} (hws : ∀ w ∈ ws, 0 < w) (chunks : List (List Placed))
    {used : Int} (h : chunks ≠ [] ∨ payloadBits ≤ used) (index : Nat) :
    (packBits chunks used index ws).flatten.map Placed.index =
      chunks.flatten.map Placed.index ++ List.range' index ws.length := by
  induction ws generalizing chunks used index with
  | nil => simp [packBits]
  | cons w ws ih =>
    obtain ⟨hw, hws⟩ := List.forall_mem_cons.1 hws
    have step : ∀ (cs : List (List Placed)) (u i : Int), cs ≠ [] → cs.flatten = chunks.flatten →
        (packBits (addLast ⟨index, i⟩ cs) u (index + 1) ws).flatten.map Placed.index =
          chunks.flatten.map Placed.index ++ List.range' index (ws.length + 1) := by
      intro cs u i hne hcs
      rw [ih hws _ (.inl (addLast_ne_nil _ hne)), flatten_addLast_of_ne_nil _ hne, hcs, List.range'_succ,
        List.map_append, List.append_assoc]
      rfl
    rw [packBits, List.length_cons]
    split
    · exact step _ _ _ (by simp) (by simp)
    · exact step _ _ _ (h.resolve_right (by omega)) rfl

/-- Leaves that can be placed are packed in their order, each once. -/
theorem index_pack {k : TreeKind} {f : Family} (hf : ofTree k = .ok f) (ds : List Data)
    (hds : ∀ d ∈ ds, f.ready d = true) :
    (f.pack ds).flatten.map Placed.index = List.range ds.length := by
  cases k with
  | can =>
    cases hf
    have hpos : ∀ w ∈ ds.map (·.int .bits), 0 < w := by
      intro w hw
      obtain ⟨d, hd, rfl⟩ := List.mem_map.1 hw
      simpa [can] using hds d hd
    have h := index_packBits_of_pos hpos [] (.inr (le_refl payloadBits)) 0
    rwa [List.flatten_nil, List.map_nil, List.nil_append, List.length_map, ← List.range_eq_range'] at h
  | sunSpec | staticModbus => cases hf; exact index_packTogether ds
  | parameters | anomalies => cases hf

/-! ### Geometry -/

/-- The attributes that a leaf has for itself: what it is called, what it stands for and where it is. -/
def placing : List Attr := [.name, .parameter, .startBit, .offset, .blockOffset]

/-- A leaf has the geometry of its reference point. -/
theorem get?_leafData {k : TreeKind} {f : Family} (hf : ofTree k = .ok f) (l : Leaf) (d : Data) (i : Int)
    {a : Attr} (ha : a ∉ placing) : (f.leafData l d i).get? a = d.get? a := by
  simp only [placing, List.mem_cons, List.not_mem_nil, or_false, not_or] at ha
  obtain ⟨hname, hparameter, hstart, hoffset, hblock⟩ := ha
  have hleaf : (blockLeaf l d).get? a = d.get? a := by
    rw [blockLeaf, Data.get?_put_of_ne (Ne.symm hoffset), Data.get?_put_of_ne (Ne.symm hblock),
      Data.get?_put_of_ne (Ne.symm hparameter)]
  cases k with
  | can =>
    cases hf
    simp only [can]
    rw [Data.get?_put_of_ne (Ne.symm hparameter), Data.get?_put_of_ne (Ne.symm hstart),
      Data.get?_put_of_ne (Ne.symm hname)]
  | sunSpec | staticModbus => cases hf; exact hleaf
  | parameters | anomalies => cases hf

end Family

namespace ViewExpansion

/-! ### Leaves of a view -/

/-- The leaves of a group that are not left out. -/
def kept (skipped : List Uuid) (g : LeafGroup) : List Leaf :=
  g.leaves.filter (!skipped.contains ·.reference)

/-- A point for a leaf, with the geometry of one of the reference points `ns`. -/
structure LeafStands (f : Family) (ns : List Node) (n : Node) (l : Leaf) : Prop where
  children : n.children = []
  kind : n.kind = f.point
  source : Family.sourceOf? n.data = some l.uuid
  geometry : ∃ r ∈ ns, Family.sourceOf? r.data = some l.reference ∧
    ∀ a ∉ Family.placing, n.data.get? a = r.data.get? a

/-- Nodes for a group of leaves: there is none exactly if no leaf is kept, and the points of all of them
in a row are those for the leaves that are. -/
structure GroupStands (f : Family) (ns : List Node) (skipped : List Uuid) (gs : List Node)
    (g : LeafGroup) : Prop where
  kind : ∀ n ∈ gs, n.kind = f.group
  path : ∀ n ∈ gs, n.data.path = g.path
  leaves : List.Forall₂ (LeafStands f ns) (gs.flatMap Node.children) (kept skipped g)
  empty : gs = [] ↔ kept skipped g = []

/-- The children of a view: one reference point for each source, then the nodes for one group of leaves
after the other. -/
def Covers (f : Family) (shape : Shape) (skipped : List Uuid) (cs : List Node) : Prop :=
  ∃ ns gss, cs = ns ++ gss.flatten ∧ List.Forall₂ (SeedStands f) ns shape.seeds ∧
    List.Forall₂ (GroupStands f ns skipped) gss shape.groups

/-- A place for each leaf gives the leaves back. -/
theorem map_pointsOf {leaves : List (Leaf × Data)} {ps : List Placed}
    (h : ps.map Placed.index = List.range leaves.length) :
    (pointsOf leaves ps).map (fun p => (p.leaf, p.seed)) = leaves := by
  have hpoints : (pointsOf leaves ps).map (fun p => (p.leaf, p.seed)) =
      (ps.map Placed.index).filterMap fun i => leaves[i]? := by
    rw [pointsOf, List.map_filterMap, List.filterMap_map]
    simp only [Option.map_map, Function.comp_def, Option.map_id']
  have hrange : (List.range leaves.length).map (fun i => leaves[i]?) = leaves.map some := by
    refine List.ext_getElem (by simp) fun i hi _ => ?_
    simp only [List.length_map, List.length_range] at hi
    simp [hi]
  have hid : ∀ is : List Nat, is.filterMap (fun i => leaves[i]?) =
      (is.map fun i => leaves[i]?).filterMap id := fun is => by
    rw [List.filterMap_map]
    rfl
  rw [hpoints, h, hid, hrange, List.filterMap_map]
  exact List.filterMap_some

theorem points_blocksFrom (g : LeafGroup) (leaves : List (Leaf × Data)) (i : Nat)
    (cs : List (List Placed)) :
    (blocksFrom g leaves i cs).flatMap Block.points = pointsOf leaves cs.flatten := by
  induction cs generalizing i with
  | nil => rfl
  | cons c cs ih =>
    rw [blocksFrom, List.flatMap_cons, ih, List.flatten_cons]
    simp only [pointsOf, List.filterMap_append]

section

variable {data? : Uuid → Option Data} {skipped : List Uuid} {g : LeafGroup}

theorem mem_placeable {x : Leaf × Data} (h : x ∈ placeable data? skipped g) :
    x.1 ∈ kept skipped g ∧ data? x.1.reference = some x.2 := by
  obtain ⟨l, hl, hx⟩ := List.mem_filterMap.1 h
  obtain ⟨d, hd, rfl⟩ := Option.map_eq_some_iff.1 hx
  exact ⟨hl, hd⟩

theorem map_fst_placeable (h : ∀ l ∈ kept skipped g, (data? l.reference).isSome = true) :
    (placeable data? skipped g).map (·.1) = kept skipped g := by
  have hall : ∀ ls : List Leaf, (∀ l ∈ ls, (data? l.reference).isSome = true) →
      (ls.filterMap fun l => (data? l.reference).map fun d => (l, d)).map (·.1) = ls := by
    intro ls hls
    induction ls with
    | nil => rfl
    | cons l ls ih =>
      obtain ⟨hl, hls⟩ := List.forall_mem_cons.1 hls
      obtain ⟨d, hd⟩ := Option.isSome_iff_exists.1 hl
      rw [List.filterMap_cons_some (by rw [hd]; rfl), List.map_cons, ih hls]
  exact hall _ h

end

theorem points_of_stands {f : Family} {gs : List Node} {bs : List Block}
    (h : List.Forall₂ (BlockStands f) gs bs) :
    List.Forall₂ (PointStands f) (gs.flatMap Node.children) (bs.flatMap Block.points) := by
  induction h with
  | nil => exact .nil
  | cons h _ ih => exact List.rel_append h.points ih

section

variable {k : TreeKind} {f : Family} (hf : Family.ofTree k = .ok f) {ss : List SeedSource} {ns : List Node}
  (hns : List.Forall₂ (SeedStands f) ns ss)
include hf hns

theorem leafStands_of_point {n : Node} {l : Leaf} {d : Data} {i : Int} (h : PointStands f n ⟨l, d.unplaced, i⟩)
    (hd : seedData? ss ns l.reference = some d) : LeafStands f ns n l := by
  obtain ⟨⟨s, r⟩, hx, rfl⟩ := Option.map_eq_some_iff.1 hd
  have hmem := List.mem_of_find?_eq_some hx
  have hs : s.uuid = l.reference := by simpa using List.find?_some hx
  have hsource := (List.forall₂_zip hns.flip hmem).source
  refine ⟨h.children, h.kind, h.source, r, (List.of_mem_zip hmem).2, hs ▸ hsource, fun a ha => ?_⟩
  have hoffset : a ≠ .offset := fun he => ha (he ▸ by decide)
  have hblock : a ≠ .blockOffset := fun he => ha (he ▸ by decide)
  rw [← (Data.similar_unplaced n.data).get? a hoffset hblock, h.data, Family.get?_leafData hf _ _ _ ha,
    (Data.similar_unplaced r.data).get? a hoffset hblock]

/-- Points for all the leaves of a group that can be placed. -/
theorem leavesStand_of_points {skipped : List Uuid} {g : LeafGroup}
    (hsome : ∀ l ∈ kept skipped g, (seedData? ss ns l.reference).isSome = true) {ps : List Placed}
    (hindex : ps.map Placed.index = List.range (placeable (seedData? ss ns) skipped g).length) {ms : List Node}
    (h : List.Forall₂ (PointStands f) ms
      (pointsOf ((placeable (seedData? ss ns) skipped g).map fun x => (x.1, x.2.unplaced)) ps)) :
    List.Forall₂ (LeafStands f ns) ms (kept skipped g) := by
  have hplaced : List.Forall₂ (fun n x => ∃ i, PointStands f n ⟨x.1, x.2, i⟩) ms
      ((placeable (seedData? ss ns) skipped g).map fun x => (x.1, x.2.unplaced)) := by
    rw [← List.length_map fun x : Leaf × Data => (x.1, x.2.unplaced)] at hindex
    rw [← map_pointsOf hindex]
    exact List.forall₂_map_right_iff.2 (h.imp fun n p h => ⟨p.position, h⟩)
  have hboth := (List.forall₂_and_left _ _).2
    ⟨fun x hx => (mem_placeable hx).2, (List.forall₂_map_right_iff.1 hplaced).flip⟩
  rw [← map_fst_placeable hsome]
  exact List.forall₂_map_right_iff.2
    (hboth.flip.imp fun n x h => h.2.elim fun i hi => leafStands_of_point hf hns hi h.1)

/-- The blocks that a group of leaves is packed into hold the leaves that are kept. -/
theorem groupStands_of_blocks {skipped : List Uuid} {g : LeafGroup}
    (hready : ∀ l ∈ kept skipped g, (seedData? ss ns l.reference).any f.ready = true) {gs : List Node}
    (h : List.Forall₂ (BlockStands f) gs (blocksOf f (unplacedOf (seedData? ss ns)) skipped g)) :
    GroupStands f ns skipped gs g := by
  have hsome : ∀ l ∈ kept skipped g, (seedData? ss ns l.reference).isSome = true := fun l hl =>
    Option.isSome_of_any (hready l hl)
  have hdata : ∀ x ∈ placeable (seedData? ss ns) skipped g, f.ready x.2 = true := fun x hx => by
    have h := hready x.1 (mem_placeable hx).1
    rwa [(mem_placeable hx).2] at h
  have hstand : ∀ n ∈ gs, n.kind = f.group ∧ n.data.path = g.path := fun n hn => by
    obtain ⟨b, hb, hstands⟩ := exists_of_forall₂ h hn
    exact ⟨hstands.kind, hstands.path.trans (path_of_mem_blocksOf hb)⟩
  have hkept := map_fst_placeable hsome
  rw [blocksOf, placeable_unplacedOf, List.isEmpty_map, pack_unplaced (Family.lawful_of_ofTree hf)] at h
  split at h
  · rename_i hempty
    rw [List.isEmpty_iff.1 hempty] at hkept
    obtain rfl := List.forall₂_nil_right_iff.1 h
    exact ⟨List.forall_mem_nil _, List.forall_mem_nil _, hkept ▸ .nil, iff_of_true rfl hkept.symm⟩
  · rename_i hempty
    have hindex := Family.index_pack hf ((placeable (seedData? ss ns) skipped g).map (·.2))
      fun d hd => (List.mem_map.1 hd).elim fun x hx => hx.2 ▸ hdata x hx.1
    rw [List.length_map] at hindex
    have hpoints := points_of_stands h
    rw [points_blocksFrom] at hpoints
    have hleaves := leavesStand_of_points hf hns hsome hindex hpoints
    refine ⟨fun n hn => (hstand n hn).1, fun n hn => (hstand n hn).2, hleaves, ?_, fun h => ?_⟩
    · rintro rfl
      exact List.forall₂_nil_left_iff.1 hleaves
    · rw [h, List.map_eq_nil_iff] at hkept
      exact absurd (List.isEmpty_iff.2 hkept) hempty

/-- A view that has been rebuilt covers the leaves of its table, those aside whose reference point is not
ready. -/
theorem covers_of_stands {shape : Shape} (hss : shape.seeds = ss) {gs : List Node}
    (h : List.Forall₂ (BlockStands f) gs (blocks f (unplacedOf (seedData? ss ns))
      (unready f shape (seedData? ss ns)) shape.groups)) :
    Covers f shape (unready f shape (seedData? ss ns)) (ns ++ gs) := by
  obtain ⟨gss, rfl, hgss⟩ := exists_flatten_of_forall₂ h
  refine ⟨ns, gss, rfl, hss ▸ hns, ?_⟩
  have hready : ∀ g ∈ shape.groups, ∀ l ∈ kept (unready f shape (seedData? ss ns)) g,
      (seedData? ss ns l.reference).any f.ready = true := by
    intro g hg l hl
    obtain ⟨hl, hnot⟩ := List.mem_filter.1 hl
    have href := mem_references.2 ⟨l, List.mem_flatMap.2 ⟨g, hg, hl⟩, rfl⟩
    simpa [unready, href] using hnot
  exact (((List.forall₂_and_left _ _).2 ⟨hready, hgss.flip⟩).flip).imp fun gs g h =>
    groupStands_of_blocks hf hns h.1 h.2

end

end ViewExpansion

end DeviceModel
