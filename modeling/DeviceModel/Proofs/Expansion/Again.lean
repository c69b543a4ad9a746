import DeviceModel.Proofs.Expansion.Shapes
import DeviceModel.Proofs.Expansion.Views

/-!
Views that are built a second time. Main statements: where the children of a view stand for its table,
the reference points are taken up as they are (`seeds_again`), and so are the groups, which are only to
be placed again (`groups_again`).
-/

namespace DeviceModel

/-- The node with its points and blocks unplaced. -/
def Node.unplaced (n : Node) : Node := n.mapData fun _ d => d.unplaced

theorem filter_fst_ne {α β : Type} [BEq α] [LawfulBEq α] {k : α} {v : β} {l : List (α × β)}
    (h : k ∉ l.map Prod.fst) : ((k, v) :: l).filter (·.1 != k) = l := by
  rw [List.filter_cons_of_neg (by simp)]
  exact List.filter_eq_self.2 fun x hx => bne_iff_ne.2 fun hk => h (hk ▸ List.mem_map_of_mem hx)

namespace ViewExpansion

/-! ### Keys -/

/-- What the points of one group are known by. -/
def pointKeys (path : List Uuid) (ms : List Node) : List ((List Uuid × Uuid) × Uuid) :=
  ms.filterMap fun l => (Family.sourceOf? l.data).map fun s => ((path, s), l.uuid)

section

variable {f : Family} {n : Node} {ns gs : List Node}

theorem leafKeys_eq (ns : List Node) : leafKeys f ns =
    (ns.filter (·.kind == f.group)).flatMap fun c => pointKeys c.data.path c.children := rfl

theorem seedKeys_cons {s : SeedSource} (h : SeedStands f n s) :
    seedKeys f (n :: ns) = (s.uuid, n.uuid, n.data) :: seedKeys f ns := by
  rw [seedKeys, seedKeys, List.filter_cons_of_pos (by simp [h.kind]),
    List.filterMap_cons_some (b := (s.uuid, n.uuid, n.data))]
  rw [h.source, Option.map_some]

theorem leafKeys_cons {b : Block} (h : BlockStands f n b) :
    leafKeys f (n :: ns) = pointKeys b.path n.children ++ leafKeys f ns := by
  rw [leafKeys_eq, leafKeys_eq, List.filter_cons_of_pos (by simp [h.kind]), List.flatMap_cons, h.path]

theorem pointKeys_cons {path : List Uuid} {p : Point} (h : PointStands f n p) :
    pointKeys path (n :: ns) = ((path, p.leaf.uuid), n.uuid) :: pointKeys path ns := by
  rw [pointKeys, pointKeys, List.filterMap_cons_some (b := ((path, p.leaf.uuid), n.uuid))]
  rw [h.source, Option.map_some]

/-- The children of a view that stand for its table are the pool of the next build. -/
theorem ofChildren_append (hf : f.Lawful) (hns : ∀ n ∈ ns, n.kind = f.point)
    (hgs : ∀ n ∈ gs, n.kind = f.group) : State.ofChildren f (ns ++ gs) =
      { seeds := seedKeys f ns, groups := groupKeys f gs, leaves := leafKeys f gs } := by
  have hne := hf.point_ne_group
  have hpoints : (ns ++ gs).filter (·.kind == f.point) = ns.filter (·.kind == f.point) := by
    have hnone : gs.filter (·.kind == f.point) = [] :=
      List.filter_eq_nil_iff.2 fun n hn => by simp [hgs n hn, hne.symm]
    rw [List.filter_append, hnone, List.append_nil]
  have hgroups : (ns ++ gs).filter (·.kind == f.group) = gs.filter (·.kind == f.group) := by
    have hnone : ns.filter (·.kind == f.group) = [] :=
      List.filter_eq_nil_iff.2 fun n hn => by simp [hns n hn, hne]
    rw [List.filter_append, hnone, List.nil_append]
  rw [State.ofChildren, seedKeys, groupKeys, leafKeys_eq, hpoints, hgroups]
  rfl

end

section

variable {f : Family} (hf : f.Lawful)

/-! ### Reference points -/

theorem seeds_again {ns : List Node} {ss : List SeedSource} (h : List.Forall₂ (SeedStands f) ns ss)
    (hn : (ss.map SeedSource.uuid).Nodup) (st : State) (hst : st.seeds = seedKeys f ns) (s : Supply) :
    seeds f ss st s = ((ns, { st with seeds := [], reused := st.reused + ns.length }), s) := by
  have hkeys : ∀ {ns ss}, List.Forall₂ (SeedStands f) ns ss →
      (seedKeys f ns).map Prod.fst = ss.map SeedSource.uuid := by
    intro ns ss h
    induction h with
    | nil => rfl
    | cons h _ ih => rw [seedKeys_cons h, List.map_cons, List.map_cons, ih]
  induction h generalizing st with
  | nil =>
    obtain ⟨_, _, _, _, _⟩ := st
    cases hst
    rfl
  | @cons n src ns ss hs h ih =>
    obtain ⟨hnot, hn⟩ := List.nodup_cons.1 hn
    rw [seedKeys_cons hs] at hst
    have hfind : st.seeds.find? (·.1 == src.uuid) = some (src.uuid, n.uuid, n.data) := by
      rw [hst]
      exact List.find?_cons_of_pos (by simp)
    have hrest : st.seeds.filter (·.1 != src.uuid) = seedKeys f ns := by
      rw [hst]
      exact filter_fst_ne (hkeys h ▸ hnot)
    have hself : Node.leaf n.uuid (n.data.put .name (.string (f.seedName src))) = n := by
      rw [hs.name, Node.leaf, ← hs.children, Node.eta]
    rw [seeds, bind_of_eq (seed_known hfind s), hself, hrest]
    refine (bind_of_eq (ih hn _ rfl)).trans ?_
    simp only [List.length_cons, pure, StateT.pure, Nat.add_assoc, Nat.add_comm 1]

/-! ### Groups -/

include hf

theorem points_again {leaves : List (Leaf × Data)} (hl : ∀ x ∈ leaves, x.2.kind = f.point)
    {path : List Uuid} {ps : List Placed} {ms : List Node}
    (h : List.Forall₂ (PointStands f) ms (pointsOf (leaves.map fun x => (x.1, x.2.unplaced)) ps))
    (st : State) {rest : List ((List Uuid × Uuid) × Uuid)} (hst : st.leaves = pointKeys path ms ++ rest)
    (hn : (st.leaves.map Prod.fst).Nodup) (s : Supply) :
    points f path leaves ps st s = ((ms.map Node.unplaced,
      { st with leaves := rest, reused := st.reused + ms.length }), s) := by
  induction ps generalizing ms st with
  | nil =>
    cases h
    obtain ⟨_, _, _, _, _⟩ := st
    cases hst
    rfl
  | cons p ps ih =>
    rw [pointsOf, List.filterMap_cons, List.getElem?_map] at h
    rw [points]
    cases hp : leaves[p.index]? with
    | none =>
      rw [hp] at h
      exact ih h _ hst hn
    | some x =>
      rw [hp] at h
      obtain ⟨l, d⟩ := x
      cases h with
      | @cons m _ ms _ hm h =>
        have hk : d.kind = f.point := hl _ (List.mem_of_getElem? hp)
        rw [pointKeys_cons hm, List.cons_append] at hst
        rw [hst, List.map_cons] at hn
        obtain ⟨hnot, hn⟩ := List.nodup_cons.1 hn
        have hfind : st.leaves.find? (·.1 == (path, l.uuid)) = some ((path, l.uuid), m.uuid) := by
          rw [hst]
          exact List.find?_cons_of_pos (by simp)
        have hrest : st.leaves.filter (·.1 != (path, l.uuid)) = pointKeys path ms ++ rest := by
          rw [hst]
          exact filter_fst_ne hnot
        have hself : Node.leaf m.uuid (f.leafData l d p.position) = m.unplaced := by
          have hdata : f.leafData l d p.position = m.data.unplaced := by
            rw [hm.data]
            exact hf.leafData_similar _ _ _ _ hk (Data.similar_unplaced d).symm
          rw [Node.unplaced, Node.mapData_eq, hm.children, ← hdata]
          rfl
        refine (bind_of_eq (takeLeaf_known hfind s)).trans ?_
        refine (bind_of_eq (identify_some _ _ s)).trans ?_
        rw [hrest, hself]
        refine (bind_of_eq (ih h _ rfl hn)).trans ?_
        simp only [List.map_cons, List.length_cons, pure, StateT.pure, Nat.add_assoc, Nat.add_comm 1]

omit hf in
theorem all_of_points {ms : List Node} {ps : List Point} (h : List.Forall₂ (PointStands f) ms ps) :
    ms.flatMap Node.all = ms := by
  induction h with
  | nil => rfl
  | cons h _ ih => rw [List.flatMap_cons, ih, Node.all_eq, h.children]; rfl

theorem chunks_again {g : LeafGroup} {leaves : List (Leaf × Data)} (hl : ∀ x ∈ leaves, x.2.kind = f.point)
    {i : Nat} {cs : List (List Placed)} {gs : List Node}
    (h : List.Forall₂ (BlockStands f) gs (blocksFrom g (leaves.map fun x => (x.1, x.2.unplaced)) i cs))
    (st : State) {rest : List ((List Uuid × Uuid) × Uuid)} (hst : st.leaves = leafKeys f gs ++ rest)
    (hn : (st.leaves.map Prod.fst).Nodup) (s : Supply) :
    chunks f g leaves i (gs.map fun n => (n.uuid, n.data)) cs st s =
      ((gs.map fun n => (false, n.unplaced),
        { st with leaves := rest, reused := st.reused + (gs.flatMap Node.all).length }), s) := by
  induction cs generalizing i gs st with
  | nil =>
    cases h
    obtain ⟨_, _, _, _, _⟩ := st
    cases hst
    rfl
  | cons c cs ih =>
    cases h with
    | @cons n _ gs _ hb h =>
      rw [leafKeys_cons hb, List.append_assoc] at hst
      have hlater : ((leafKeys f gs ++ rest).map Prod.fst).Nodup := by
        rw [hst, List.map_append] at hn
        exact (List.nodup_append'.1 hn).2.1
      have hself : (⟨n.uuid, f.groupData g.name g.path i (some n.data), n.children.map Node.unplaced⟩ : Node) =
          n.unplaced := by
        rw [hb.data, Node.unplaced, Node.mapData_eq]
        rfl
      rw [chunks, List.map_cons, List.head?_cons, Option.map_some, Option.map_some]
      refine (bind_of_eq (identify_some _ _ s)).trans ?_
      refine (bind_of_eq (points_again hf hl hb.points { st with reused := st.reused + 1 } hst hn
        s)).trans ?_
      rw [hself]
      refine (bind_of_eq (ih h _ rfl hlater)).trans ?_
      simp only [List.map_cons, List.flatMap_cons, List.length_append, Node.all_eq n, all_of_points hb.points,
        List.length_cons, pure, StateT.pure, Option.isNone_some, Nat.add_assoc, Nat.add_comm 1]

omit hf in
theorem path_of_mem_blocksFrom {g : LeafGroup} {leaves : List (Leaf × Data)} {i : Nat}
    {cs : List (List Placed)} {b : Block} (h : b ∈ blocksFrom g leaves i cs) : b.path = g.path := by
  induction cs generalizing i with
  | nil => cases h
  | cons c cs ih =>
    rcases List.mem_cons.1 h with rfl | h
    · rfl
    · exact ih h

omit hf in
theorem path_of_mem_blocksOf {data? : Uuid → Option Data} {skipped : List Uuid} {g : LeafGroup} {b : Block}
    (h : b ∈ blocksOf f data? skipped g) : b.path = g.path := by
  simp only [blocksOf] at h
  split at h
  · cases h
  · exact path_of_mem_blocksFrom h

omit hf in
theorem path_of_mem_blocks {data? : Uuid → Option Data} {skipped : List Uuid} {groups : List LeafGroup}
    {b : Block} (h : b ∈ blocks f data? skipped groups) : b.path ∈ groups.map LeafGroup.path := by
  obtain ⟨g, hg, hb⟩ := List.mem_flatMap.1 h
  exact path_of_mem_blocksOf hb ▸ List.mem_map_of_mem hg

omit hf in
theorem groupKeys_append (gs hs : List Node) :
    groupKeys f (gs ++ hs) = groupKeys f gs ++ groupKeys f hs := by
  rw [groupKeys, List.filter_append, List.map_append]; rfl

omit hf in
theorem leafKeys_append (gs hs : List Node) :
    leafKeys f (gs ++ hs) = leafKeys f gs ++ leafKeys f hs := by
  rw [leafKeys_eq, List.filter_append, List.flatMap_append]; rfl

omit hf in
theorem groupKeys_of_stands {gs : List Node} {bs : List Block} (h : List.Forall₂ (BlockStands f) gs bs) :
    groupKeys f gs = gs.map fun n => (n.data.path, n.uuid, n.data) := by
  rw [groupKeys, List.filter_eq_self.2]
  intro n hn
  obtain ⟨b, -, hb⟩ := exists_of_forall₂ h hn
  simp [hb.kind]

/-- The groups that stand are taken up, and are to be placed again. -/
theorem groups_again {data? : Uuid → Option Data} (hd : ∀ u d, data? u = some d → d.kind = f.point)
    {skipped : List Uuid} {groups : List LeafGroup} {gs : List Node}
    (h : List.Forall₂ (BlockStands f) gs (blocks f (unplacedOf data?) skipped groups))
    (hp : (groups.map LeafGroup.path).Nodup) (st : State) (hg : st.groups = groupKeys f gs)
    (hst : st.leaves = leafKeys f gs) (hn : (st.leaves.map Prod.fst).Nodup) (s : Supply) :
    ViewExpansion.groups f data? skipped groups st s = ((gs.map fun n => (false, n.unplaced),
      { st with groups := [], leaves := [], reused := st.reused + (gs.flatMap Node.all).length }), s) := by
  induction groups generalizing gs st with
  | nil =>
    cases h
    obtain ⟨_, _, _, _, _⟩ := st
    cases hg
    cases hst
    rfl
  | cons g groups ih =>
    obtain ⟨hnot, hp⟩ := List.nodup_cons.1 hp
    rw [blocks, List.flatMap_cons] at h
    -- The groups at the path of this one come first.
    obtain ⟨hs, rs, rfl, hh, hr⟩ : ∃ hs rs, gs = hs ++ rs ∧
        List.Forall₂ (BlockStands f) hs (blocksOf f (unplacedOf data?) skipped g) ∧
          List.Forall₂ (BlockStands f) rs (blocks f (unplacedOf data?) skipped groups) :=
      ⟨_, _, (List.take_append_drop _ _).symm, List.forall₂_take_append _ _ _ h,
        List.forall₂_drop_append _ _ _ h⟩
    have hhere : ∀ x ∈ groupKeys f hs, (x.1 == g.path) = true := by
      intro x hx
      rw [groupKeys_of_stands hh] at hx
      obtain ⟨n, hn, rfl⟩ := List.mem_map.1 hx
      obtain ⟨b, hb, hstands⟩ := exists_of_forall₂ hh hn
      simp [hstands.path, path_of_mem_blocksOf hb]
    have hthere : ∀ x ∈ groupKeys f rs, (x.1 == g.path) = false := by
      intro x hx
      rw [groupKeys_of_stands hr] at hx
      obtain ⟨n, hn, rfl⟩ := List.mem_map.1 hx
      obtain ⟨b, hb, hstands⟩ := exists_of_forall₂ hr hn
      rw [hstands.path, beq_eq_false_iff_ne]
      exact fun heq => hnot (heq ▸ path_of_mem_blocks hb)
    rw [groupKeys_append] at hg
    rw [leafKeys_append] at hst
    rw [ViewExpansion.groups]
    rw [blocksOf, placeable_unplacedOf, List.isEmpty_map, pack_unplaced hf] at hh
    split
    · rename_i hempty
      rw [if_pos hempty] at hh
      cases hh
      exact ih hr hp _ hg hst hn
    · rename_i hempty
      rw [if_neg hempty] at hh
      have htaken : (st.groups.filter (·.1 == g.path)).map (·.2) = hs.map fun n => (n.uuid, n.data) := by
        rw [hg, List.filter_append, List.filter_eq_self.2 hhere, List.filter_eq_nil_iff.2 fun x hx => by
          simp [hthere x hx], List.append_nil, groupKeys_of_stands hh, List.map_map]
        rfl
      have hleft : st.groups.filter (·.1 != g.path) = groupKeys f rs := by
        rw [hg, List.filter_append, List.filter_eq_nil_iff.2 fun x hx => by simpa [bne] using hhere x hx,
          List.nil_append, List.filter_eq_self.2 fun x hx => by simpa [bne] using hthere x hx]
      have hlater : ((leafKeys f rs).map Prod.fst).Nodup := by
        rw [hst, List.map_append] at hn
        exact (List.nodup_append'.1 hn).2.1
      refine (bind_of_eq (takeGroups_eq g.path st s)).trans ?_
      rw [htaken, hleft]
      refine (bind_of_eq (chunks_again hf (kind_of_placeable hd) hh { st with groups := groupKeys f rs } hst hn s)).trans ?_
      refine (bind_of_eq (ih hr hp _ rfl rfl hlater)).trans ?_
      simp only [List.map_append, List.flatMap_append, List.length_append, pure, StateT.pure, Nat.add_assoc]

/-! ### Keys of leaves -/

/-- What the leaves of a block are known by. -/
def Block.keys (b : Block) : List (List Uuid × Uuid) := b.points.map fun p => (b.path, p.leaf.uuid)

omit hf in
theorem keys_of_stands {gs : List Node} {bs : List Block} (h : List.Forall₂ (BlockStands f) gs bs) :
    (leafKeys f gs).map Prod.fst = bs.flatMap Block.keys := by
  have hpoints : ∀ {path : List Uuid} {ms : List Node} {ps : List Point},
      List.Forall₂ (PointStands f) ms ps →
        (pointKeys path ms).map Prod.fst = ps.map fun p => (path, p.leaf.uuid) := by
    intro path ms ps h
    induction h with
    | nil => rfl
    | cons h _ ih => rw [pointKeys_cons h, List.map_cons, List.map_cons, ih]
  induction h with
  | nil => rfl
  | cons h _ ih => rw [leafKeys_cons h, List.map_append, List.flatMap_cons, ih, hpoints h.points]; rfl

omit hf in
theorem keys_blocksFrom (g : LeafGroup) (leaves : List (Leaf × Data)) (i : Nat) (cs : List (List Placed)) :
    (blocksFrom g leaves i cs).flatMap Block.keys =
      ((pointsOf leaves cs.flatten).map (·.leaf.uuid)).map (Prod.mk g.path) := by
  induction cs generalizing i with
  | nil => rfl
  | cons c cs ih =>
    simp only [blocksFrom, List.flatMap_cons, ih, pointsOf, List.flatten_cons, List.filterMap_append,
      List.map_append, Block.keys, List.map_map]
    rfl

/-- A leaf is in one place of a block. -/
theorem nodup_keys_blocksOf {data? : Uuid → Option Data} {skipped : List Uuid} {g : LeafGroup}
    (h : (g.leaves.map Leaf.uuid).Nodup) : ((blocksOf f data? skipped g).flatMap Block.keys).Nodup := by
  have hleaves : ((placeable data? skipped g).map (·.1.uuid)).Nodup := by
    have hsub : ((placeable data? skipped g).map (·.1)).Sublist g.leaves := by
      have hfilter : ∀ ls : List Leaf, ((ls.filterMap fun l =>
          (data? l.reference).map fun d => (l, d)).map (·.1)).Sublist ls := by
        intro ls
        induction ls with
        | nil => exact .slnil
        | cons l ls ih =>
          rw [List.filterMap_cons]
          cases data? l.reference with
          | none => exact ih.cons _
          | some d => exact ih.cons_cons _
      exact (hfilter _).trans List.filter_sublist
    have hmap := (hsub.map Leaf.uuid).nodup h
    rwa [List.map_map] at hmap
  simp only [blocksOf]
  split
  · exact List.nodup_nil
  · have hkeys : (pointsOf (placeable data? skipped g)
        (f.pack ((placeable data? skipped g).map (·.2))).flatten).map (·.leaf.uuid) =
          ((f.pack ((placeable data? skipped g).map (·.2))).flatten.map Placed.index).filterMap
            fun i => ((placeable data? skipped g).map (·.1.uuid))[i]? := by
      rw [pointsOf, List.map_filterMap, List.filterMap_map]
      simp only [List.getElem?_map, Option.map_map, Function.comp_def]
    rw [keys_blocksFrom, hkeys]
    refine List.Nodup.map (fun _ _ h => (Prod.mk.inj h).2) ?_
    refine List.Nodup.filterMap (fun i j u hi hj => ?_) (hf.nodup_pack _)
    exact (List.getElem?_inj (List.getElem?_eq_some_iff.1 hi).1 hleaves).1 (hi.trans hj.symm)

theorem nodup_keys {data? : Uuid → Option Data} {skipped : List Uuid} {groups : List LeafGroup}
    (hp : (groups.map LeafGroup.path).Nodup) (hl : ∀ g ∈ groups, (g.leaves.map Leaf.uuid).Nodup) :
    ((blocks f data? skipped groups).flatMap Block.keys).Nodup := by
  have hpath : ∀ {bs : List Block} {k : List Uuid × Uuid}, k ∈ bs.flatMap Block.keys →
      ∃ b ∈ bs, b.path = k.1 := by
    intro bs k hk
    obtain ⟨b, hb, hkb⟩ := List.mem_flatMap.1 hk
    obtain ⟨p, -, rfl⟩ := List.mem_map.1 hkb
    exact ⟨b, hb, rfl⟩
  induction groups with
  | nil => exact List.nodup_nil
  | cons g groups ih =>
    obtain ⟨hnot, hp⟩ := List.nodup_cons.1 hp
    rw [blocks, List.flatMap_cons, List.flatMap_append, List.nodup_append']
    refine ⟨nodup_keys_blocksOf hf (hl g (List.mem_cons_self ..)),
      ih hp fun h hh => hl h (List.mem_cons_of_mem _ hh), fun k hk hk' => ?_⟩
    obtain ⟨b, hb, hbk⟩ := hpath hk
    obtain ⟨c, hc, hck⟩ := hpath hk'
    rw [path_of_mem_blocksOf hb] at hbk
    exact hnot (hbk.trans hck.symm ▸ path_of_mem_blocks hc)

end

/-! ### Settled views -/

/-- The children of the view are the reference points and groups of the shape. -/
structure Settled (f : Family) (shape : Shape) (z : ZeroBits) (view : Node) (ns gs : List Node) :
    Prop where
  children : view.children = ns ++ gs
  kind : view.kind = f.view
  table : f.tableOf? view.data = some shape.table
  seeds : List.Forall₂ (SeedStands f) ns shape.seeds
  blocks : List.Forall₂ (BlockStands f) gs (blocks f (unplacedOf (seedData? shape.seeds ns))
    (unready f shape (seedData? shape.seeds ns)) shape.groups)
  fits : oversized f shape (seedData? shape.seeds ns) = []
  ready : unready f shape (seedData? shape.seeds ns) = [] ∨ z ≠ .abort

section

variable {f : Family} (hf : f.Lawful) {shape : Shape} (hp : shape.Proper) {z : ZeroBits} {view : Node}
  {ns gs : List Node} (h : Settled f shape z view ns gs)
include hf hp h

/-- A settled view is planned and built as it is, but for the places of what its groups hold. -/
theorem build_settled (s : Supply) : ∃ p reused, Gives (plan f view shape z) s p s ∧
    ∀ t t' s', Gives (f.finish (t.setChildren view.uuid (ns ++ gs.map Node.unplaced)) view.uuid []) s t' s' →
      Gives (build f t view shape p) s (t', ⟨view.uuid, 0, reused, 0, p.skipped⟩) s' := by
  have hkns : ∀ n ∈ ns, n.kind = f.point := fun n hn =>
    (exists_of_forall₂ h.seeds hn).elim fun _ hs => hs.2.kind
  have hkgs : ∀ n ∈ gs, n.kind = f.group := fun n hn =>
    (exists_of_forall₂ h.blocks hn).elim fun _ hb => hb.2.kind
  have hstart := ofChildren_append hf hkns hkgs
  rw [← h.children] at hstart
  have hseeds := seeds_again h.seeds hp.seeds (.ofChildren f view.children) (by rw [hstart]) s
  rw [hstart] at hseeds
  have hkeys : ((leafKeys f gs).map Prod.fst).Nodup := by
    rw [keys_of_stands h.blocks]
    exact nodup_keys hf hp.paths hp.leaves
  have hgroups := groups_again hf (fun _ _ => kind_of_seedData? h.seeds) h.blocks hp.paths
    { seeds := [], groups := groupKeys f gs, leaves := leafKeys f gs, reused := ns.length }
    rfl rfl hkeys s
  refine ⟨⟨ns, { seeds := [], groups := groupKeys f gs, leaves := leafKeys f gs, reused := ns.length },
    unready f shape (seedData? shape.seeds ns)⟩, ns.length + (gs.flatMap Node.all).length, ?_, ?_⟩
  · refine gives_plan.2 ⟨⟨h.kind, h.table⟩, ?_, h.fits, h.ready, rfl⟩
    rw [hstart]
    simpa using hseeds
  · intro t t' s' hfin
    have hall : Node.all.below view.children = ns ++ gs.flatMap Node.all := by
      have hns : ns.flatMap Node.all = ns := by
        have hleaf : ∀ {ns : List Node} {ss : List SeedSource}, List.Forall₂ (SeedStands f) ns ss →
            ns.flatMap Node.all = ns := by
          intro ns ss h
          induction h with
          | nil => rfl
          | cons h _ ih => rw [List.flatMap_cons, ih, Node.all_eq, h.children]; rfl
        exact hleaf h.seeds
      rw [Node.below_eq, h.children, List.flatMap_append, hns]
    have hnone : (gs.map fun n => (false, n.unplaced)).filter (·.1) = [] :=
      List.filter_eq_nil_iff.2 fun x hx => by
        obtain ⟨n, -, rfl⟩ := List.mem_map.1 hx
        exact nofun
    refine gives_build.2 ⟨_, _, _, hgroups, ?_, ?_⟩
    · rw [hnone, List.map_map]
      exact hfin
    · rw [hall, List.length_append, Nat.sub_self]

end

end ViewExpansion

end DeviceModel
