import DeviceModel.Proofs.Expansion.Coverage
import DeviceModel.Proofs.Expansion.Identifiers
import DeviceModel.Proofs.Expansion.TakenUp
import DeviceModel.Proofs.Expansion.ViewTrees

/-!
Views that have been rebuilt and completed. Main statement: a view covers its table, keeps the identities
of what was below it, and accounts for every node (`expandsView_build`), whatever its completion has placed
and numbered anew.
-/

namespace DeviceModel

namespace ViewExpansion

/-- The same but for where a point or block is, and what identifies a group in its message. -/
structure Retouched (f : Family) (d e : Data) : Prop where
  kind : e.kind = d.kind
  get? : ∀ a, a ≠ .offset → a ≠ .blockOffset → (d.kind = f.group → a ≠ .identifier) → e.get? a = d.get? a

section

variable {f : Family} {d e : Data}

theorem Retouched.similar (h : Retouched f d e) (hk : d.kind ≠ f.group) : e.Similar d :=
  ⟨h.kind, fun a ho hb => h.get? a ho hb fun hd => absurd hd hk⟩

theorem Retouched.path (h : Retouched f d e) : e.path = d.path := by
  rw [Data.path, Data.path, h.get? .path (by decide) (by decide) fun _ => by decide]

theorem Retouched.source (h : Retouched f d e) : Family.sourceOf? e = Family.sourceOf? d := by
  rw [Family.sourceOf?, Family.sourceOf?, Data.ref?, Data.ref?,
    h.get? .parameter (by decide) (by decide) fun _ => by decide]

theorem retouched_of_similar (h : e.Similar d) : Retouched f d e :=
  ⟨h.kind, fun a ho hb _ => h.get? a ho hb⟩

end

/-! ### Completing a view -/

theorem retouched_finishMultiplexers {t t' : Tree} (ht : t.uuids.Nodup) {view : Uuid} {created : List Uuid}
    (hc : created.Nodup) (hcreated : ∀ u ∈ created, ∃ n ∈ t.all, n.uuid = u ∧ n.kind = .multiplexer)
    (h : Family.finishMultiplexers t view created = .ok t') {v : Node} (hv : v ∈ t.all) :
    ∃ g, v.mapData g ∈ t'.all ∧ ∀ m ∈ v.all, Retouched .can m.data (g m.uuid m.data) := by
  obtain ⟨g, rfl, hg⟩ := Family.finished_ok ht hc h
  refine ⟨g, Tree.all_mapData (g := g) t ▸ List.mem_map_of_mem hv, fun m hm => ?_⟩
  rcases hg m.uuid m.data with hsame | ⟨hnew, i, hput⟩
  · rw [hsame]
    exact ⟨rfl, fun _ _ _ _ => rfl⟩
  · obtain ⟨n, hn, hnu, hnk⟩ := hcreated m.uuid hnew
    obtain rfl := Node.eq_of_uuid ht hn (Node.mem_all_trans hm hv) hnu
    rw [hput]
    exact ⟨Data.kind_put _ _ _, fun a _ _ ha => Data.get?_put_of_ne (Ne.symm (ha hnk)) _ _⟩

theorem retouched_relaidOut {f : Family} (hr : IsRegister f) {t : Tree} (ht : t.Valid) {s : Supply}
    (hs : s.Issued t.uuids) {v : Node} (hv : v ∈ t.all) (hk : v.kind = f.view) :
    ∃ g, v.mapData g ∈ (t.relaidOut s).1.all ∧ ∀ m ∈ v.all, Retouched f m.data (g m.uuid m.data) := by
  obtain ⟨t₁, hsync, -, he⟩ := Tree.relaidOut_spec ht hs
  rw [Tree.placeAll_eq_mapData hsync.valid.nodup] at he
  have hbelow := fun m (hm : m ∈ v.all) => hr.below ht hv hk hm
  have hv₁ := (hsync.free v fun m hm => (hbelow m hm).2.2).2 hv
  refine ⟨_, he ▸ Tree.all_mapData t₁ ▸ List.mem_map_of_mem hv₁, fun m hm => ?_⟩
  exact retouched_of_similar (Layout.similar_place hsync.valid (Node.mem_all_trans hm hv₁) (hbelow m hm).1
    (hbelow m hm).2.1)

/-- Completing a view leaves the views of the tree but for places and identifiers. -/
theorem retouched_finish {k : TreeKind} {f : Family} (hf : Family.ofTree k = .ok f) {t t' : Tree} (ht : t.Valid)
    {s s' : Supply} (hs : s.Issued t.uuids) {view : Uuid} {created : List Uuid} (hc : created.Nodup)
    (hcreated : ∀ u ∈ created, ∃ n ∈ t.all, n.uuid = u ∧ n.kind = f.group)
    (h : Gives (f.finish t view created) s t' s') {v : Node} (hv : v ∈ t.all) (hk : v.kind = f.view) :
    ∃ g, v.mapData g ∈ t'.all ∧ ∀ m ∈ v.all, Retouched f m.data (g m.uuid m.data) := by
  have hregister : IsRegister f → f.finish t view created = t.updateLayout →
      ∃ g, v.mapData g ∈ t'.all ∧ ∀ m ∈ v.all, Retouched f m.data (g m.uuid m.data) := by
    intro hr hfin
    rw [hfin, Tree.gives_updateLayout ht hs] at h
    obtain rfl : t' = (t.relaidOut s).1 := (congrArg Prod.fst h).symm
    exact retouched_relaidOut hr ht hs hv hk
  cases k with
  | can => cases hf; exact retouched_finishMultiplexers ht.nodup hc hcreated (gives_liftM.1 h).1 hv
  | sunSpec => cases hf; exact hregister (.inl rfl) rfl
  | staticModbus => cases hf; exact hregister (.inr rfl) rfl
  | parameters | anomalies => cases hf

/-! ### What completing leaves -/

section

variable {f : Family} (hf : f.Lawful) {g : Uuid → Data → Data}
include hf

theorem SeedStands.retouch {n : Node} {s : SeedSource} (h : SeedStands f n s)
    (hg : Retouched f n.data (g n.uuid n.data)) : SeedStands f (n.mapData g) s :=
  h.mapData (hg.similar (by rw [← Node.kind, h.kind]; exact hf.point_ne_group))

theorem LeafStands.retouch {ns : List Node} {n : Node} {l : Leaf} (h : LeafStands f ns n l)
    (hg : Retouched f n.data (g n.uuid n.data)) (hk : ∀ r ∈ ns, r.kind = f.point)
    (hns : ∀ r ∈ ns, Retouched f r.data (g r.uuid r.data)) :
    LeafStands f (ns.map (Node.mapData g)) (n.mapData g) l := by
  obtain ⟨r, hr, hsource, hgeometry⟩ := h.geometry
  have hsame := hg.similar (by rw [← Node.kind, h.kind]; exact hf.point_ne_group)
  have hsame' := (hns r hr).similar (by rw [← Node.kind, hk r hr]; exact hf.point_ne_group)
  refine ⟨?_, ?_, ?_, r.mapData g, List.mem_map_of_mem hr, ?_, fun a ha => ?_⟩
  · rw [Node.children_mapData, h.children, List.map_nil]
  · rw [Node.kind_mapData, hg.kind]
    exact h.kind
  · rw [Node.data_mapData, hg.source]
    exact h.source
  · rw [Node.data_mapData, (hns r hr).source]
    exact hsource
  · have hoffset : a ≠ .offset := fun he => ha (he ▸ by decide)
    have hblock : a ≠ .blockOffset := fun he => ha (he ▸ by decide)
    rw [Node.data_mapData, Node.data_mapData, hsame.get? a hoffset hblock, hsame'.get? a hoffset hblock]
    exact hgeometry a ha

theorem GroupStands.retouch {ns gs : List Node} {skipped : List Uuid} {lg : LeafGroup}
    (h : GroupStands f ns skipped gs lg) (hk : ∀ r ∈ ns, r.kind = f.point)
    (hns : ∀ r ∈ ns, Retouched f r.data (g r.uuid r.data))
    (hgs : ∀ n ∈ gs, ∀ m ∈ n.all, Retouched f m.data (g m.uuid m.data)) :
    GroupStands f (ns.map (Node.mapData g)) skipped (gs.map (Node.mapData g)) lg where
  kind := List.forall_mem_map.2 fun n hn => by
    rw [Node.kind_mapData, (hgs n hn n n.mem_all_self).kind]
    exact h.kind n hn
  path := List.forall_mem_map.2 fun n hn => by
    rw [Node.data_mapData, (hgs n hn n n.mem_all_self).path]
    exact h.path n hn
  leaves := by
    have hchildren : (gs.map (Node.mapData g)).flatMap Node.children =
        (gs.flatMap Node.children).map (Node.mapData g) := by
      simp only [List.flatMap_map, Node.children_mapData, List.map_flatMap]
    rw [hchildren]
    refine forall₂_map_left h.leaves fun m hm l hl => hl.retouch hf ?_ hk hns
    obtain ⟨n, hn, hmn⟩ := List.mem_flatMap.1 hm
    exact hgs n hn m (Node.mem_all_of_child hmn)
  empty := List.map_eq_nil_iff.trans h.empty

theorem Covers.retouch {shape : Shape} {skipped : List Uuid} {cs : List Node} (h : Covers f shape skipped cs)
    (hg : ∀ c ∈ cs, ∀ m ∈ c.all, Retouched f m.data (g m.uuid m.data)) :
    Covers f shape skipped (cs.map (Node.mapData g)) := by
  obtain ⟨ns, gss, rfl, hns, hgss⟩ := h
  have hgns : ∀ n ∈ ns, Retouched f n.data (g n.uuid n.data) := fun n hn =>
    hg n (List.mem_append_left _ hn) n n.mem_all_self
  have hkinds : ∀ n ∈ ns, n.kind = f.point := fun n hn => (exists_of_forall₂ hns hn).elim fun _ h => h.2.kind
  refine ⟨ns.map (Node.mapData g), gss.map (List.map (Node.mapData g)), ?_, ?_, ?_⟩
  · rw [List.map_append, List.map_flatten]
  · exact forall₂_map_left hns fun n hn s hs => hs.retouch hf (hgns n hn)
  · exact forall₂_map_left hgss fun gs hgs lg h => h.retouch hf hkinds hgns fun n hn =>
      hg n (List.mem_append_right _ (List.mem_flatten.2 ⟨gs, hgs, hn⟩))

end

section

variable {f : Family} {g : Uuid → Data → Data} {cs : List Node}
  (hg : ∀ c ∈ cs, ∀ m ∈ c.all, Retouched f m.data (g m.uuid m.data))
include hg

theorem filter_kind_retouch (k : Kind) : (cs.map (Node.mapData g)).filter (·.kind == k) =
    (cs.filter (·.kind == k)).map (Node.mapData g) := by
  rw [List.filter_map]
  refine congrArg _ (List.filter_congr fun c hc => ?_)
  rw [Function.comp_apply, Node.kind_mapData, (hg c hc c c.mem_all_self).kind]
  rfl

theorem seedKeys_retouch : seedKeys f (cs.map (Node.mapData g)) =
    (seedKeys f cs).map fun e => (e.1, e.2.1, g e.2.1 e.2.2) := by
  rw [seedKeys, seedKeys, filter_kind_retouch hg, List.filterMap_map, List.map_filterMap]
  refine List.filterMap_congr fun c hc => ?_
  rw [Function.comp_apply, Node.data_mapData, Node.uuid_mapData,
    (hg c (List.mem_of_mem_filter hc) c c.mem_all_self).source, Option.map_map]
  rfl

theorem groupKeys_retouch : groupKeys f (cs.map (Node.mapData g)) =
    (groupKeys f cs).map fun e => (e.1, e.2.1, g e.2.1 e.2.2) := by
  rw [groupKeys, groupKeys, filter_kind_retouch hg, List.map_map, List.map_map]
  refine List.map_congr_left fun c hc => ?_
  rw [Function.comp_apply, Node.data_mapData, Node.uuid_mapData,
    (hg c (List.mem_of_mem_filter hc) c c.mem_all_self).path]
  rfl

theorem leafKeys_retouch : leafKeys f (cs.map (Node.mapData g)) = leafKeys f cs := by
  rw [leafKeys_eq, leafKeys_eq, filter_kind_retouch hg, List.flatMap_map]
  refine List.flatMap_congr fun c hc => ?_
  have hc := hg c (List.mem_of_mem_filter hc)
  rw [Node.data_mapData, (hc c c.mem_all_self).path, Node.children_mapData, pointKeys, pointKeys,
    List.filterMap_map]
  refine List.filterMap_congr fun m hm => ?_
  rw [Function.comp_apply, Node.data_mapData, Node.uuid_mapData, (hc m (Node.mem_all_of_child hm)).source]

theorem KeepsIdentities.retouch (hne : f.point ≠ f.group) {before : List Node}
    (h : KeepsIdentities f before cs) : KeepsIdentities f before (cs.map (Node.mapData g)) where
  seeds := by
    rw [seedKeys_retouch hg]
    refine fun e he => List.forall_mem_map.2 fun e' he' hk => ?_
    obtain ⟨hu, hget⟩ := h.seeds e he e' he' hk
    refine ⟨hu, fun a hn ho hb => (Eq.trans ?_ (hget a hn ho hb))⟩
    obtain ⟨c, hc, hce⟩ := List.mem_filterMap.1 he'
    obtain ⟨u, -, rfl⟩ := Option.map_eq_some_iff.1 hce
    obtain ⟨hcm, hck⟩ := List.mem_filter.1 hc
    have hpoint : c.data.kind ≠ f.group := fun h => hne ((eq_of_beq hck).symm.trans h)
    exact ((hg c hcm c c.mem_all_self).similar hpoint).get? a ho hb
  groups := by
    rw [groupKeys_retouch hg]
    intro path i e e' he he'
    rw [List.filter_map, List.getElem?_map] at he'
    obtain ⟨x, hx, rfl⟩ := Option.map_eq_some_iff.1 he'
    exact h.groups path i e x he hx
  leaves := by
    rw [leafKeys_retouch hg]
    exact h.leaves

end

/-! ### Rebuilding -/

/-- What expanding a view of the shape makes of its children. -/
structure ExpandsView (f : Family) (shape : Shape) (before after : List Node) (e : Expansion) : Prop where
  covers : Covers f shape e.skipped after
  keeps : KeepsIdentities f before after
  made : e.created + e.reused = (after.flatMap Node.all).length
  accounted : e.reused + e.removed = (before.flatMap Node.all).length

/-- A view that is rebuilt covers its table, keeps identities and accounts for every node. -/
theorem expandsView_build {k : TreeKind} {f : Family} (hf : Family.ofTree k = .ok f) {t : Tree} (ht : t.Valid)
    {view : Node} (hv : view ∈ t.all) {shape : Shape} (hp : shape.Proper)
    (hseeds : ((seedKeys f view.children).map Prod.fst).Nodup)
    (hleaves : ((leafKeys f view.children).map Prod.fst).Nodup) {z : ZeroBits} {p : Plan} {s s₁ s' : Supply}
    (hs : s.Issued t.uuids) (hplan : Gives (plan f view shape z) s p s₁) {t' : Tree} {e : Expansion}
    (hbuild : Gives (build f t view shape p) s₁ (t', e) s') :
    ∃ v ∈ t'.all, v.uuid = view.uuid ∧ ExpandsView f shape view.children v.children e := by
  have hlaw := Family.lawful_of_ofTree hf
  obtain ⟨gs, st, s₂, hgroups, hfinish, rfl⟩ := gives_build.1 hbuild
  obtain ⟨⟨hk, -⟩, hrun, -, -, hskipped⟩ := gives_plan.1 hplan
  have hre := rebuilt hlaw ht hv hs hplan hgroups
  obtain ⟨hdistinct, hnew⟩ := hre.created ht hv
  have hself := Tree.mem_setChildren_self ht.nodup hv (p.seeds ++ gs.map (·.2))
  obtain ⟨g, hgm, hg⟩ := retouched_finish hf hre.valid hre.issued hdistinct hnew hfinish hself hk
  have hbelow : ∀ c ∈ p.seeds ++ gs.map (·.2), ∀ m ∈ c.all, Retouched f m.data (g m.uuid m.data) :=
    fun c hc m hm => hg m (Node.mem_all_trans hm (Node.mem_all_of_child hc))
  obtain ⟨hmade, hreused⟩ := tallied_run hlaw.point_ne_group hrun hgroups
  refine ⟨_, hgm, Node.uuid_mapData _, ?_⟩
  rw [Node.children_mapData]
  refine ⟨?_, ?_, ?_, ?_⟩
  · have hblocks := hre.blocks
    rw [hskipped] at hblocks
    rw [hskipped]
    exact (covers_of_stands hf hre.seeds rfl hblocks).retouch hlaw hbelow
  · exact (keepsIdentities_of_run hlaw hp hre.seeds hre.blocks hseeds hleaves hrun hgroups).retouch hbelow
      hlaw.point_ne_group
  · refine hmade.trans ?_
    simp only [List.length_flatMap, List.map_map, Function.comp_def, Node.all_mapData, List.length_map]
  · rw [Node.below_eq]
    exact Nat.add_sub_cancel' hreused

end ViewExpansion

end DeviceModel
