import DeviceModel.Proofs.Expansion.Multiplexers
import DeviceModel.Proofs.Expansion.SettledViews
import DeviceModel.Proofs.Expansion.Shapes

/-!
Trees whose views are settled. Main statements: rebuilding one view settles it and leaves the others
settled (`finished_build`, `unbuilt_build`), and rebuilding a settled one changes nothing (`build_again`).
-/

namespace DeviceModel

/-- Nothing but points and groups is below a view. -/
theorem Family.Lawful.kind_below {f : Family} (hf : f.Lawful) {n m : Node} (hn : n.Allowed)
    (hk : n.kind = f.view ∨ n.kind = f.point ∨ n.kind = f.group) (hm : m ∈ n.all) :
    m = n ∨ m.kind = f.point ∨ m.kind = f.group := by
  induction n using Node.inductOn with
  | h n ih =>
    refine (Node.mem_all.1 hm).imp_right fun ⟨c, hc, hmc⟩ => ?_
    have hck := hf.below n.kind c.kind hk (hn n n.mem_all_self c hc)
    rcases ih c hc (hn.of_mem (Node.mem_all_of_child hc)) (.inr hck) hmc with rfl | h
    · exact hck
    · exact h

namespace ViewExpansion

/-- The view is what expanding it makes of it. -/
def SettledFor (params : Tree) (o : ExpandOptions) (f : Family) (view : Node) : Prop :=
  ∃ shape ns gs, Shape.ofTable params shape.table o.leafOrder = .ok shape ∧
    Settled f shape o.zeroBits view ns gs

/-- All views are settled but those of `us`, and registers are laid out once there is a settled one. -/
def Unbuilt (params : Tree) (o : ExpandOptions) (k : TreeKind) (f : Family) (us : List Uuid) (t : Tree) :
    Prop :=
  ∀ v ∈ t.all, v.kind = f.view → v.uuid ∈ us ∨
    SettledFor params o f v ∧ (Edit.hasLayout k = true → t.UpToDate)

/-- The views of `t'` are those of `t`, and settled where they were. -/
structure KeepsViews (f : Family) (t t' : Tree) : Prop where
  stands : ∀ v ∈ t.all, v.kind = f.view → ∃ v' ∈ t'.all, v'.uuid = v.uuid ∧ v'.kind = f.view
  settled : ∀ v' ∈ t'.all, v'.kind = f.view → ∃ v ∈ t.all, v.kind = f.view ∧ v'.uuid = v.uuid ∧
    ∀ params o, SettledFor params o f v → SettledFor params o f v'

section

variable {f : Family} (hf : f.Lawful) {t : Tree}
include hf

/-- A view of a tree with other children below one view is that view or an old one. -/
theorem view_of_setChildren (ht : t.Valid) {view v : Node} (hv : view ∈ t.all) (hk : view.kind = f.view)
    {cs : List Node} (ht' : (t.setChildren view.uuid cs).Valid) (h : v ∈ (t.setChildren view.uuid cs).all)
    (hvk : v.kind = f.view) : v = { view with children := cs } ∨ v ∈ t.all ∧ v.uuid ≠ view.uuid := by
  have hself := Tree.mem_setChildren_self ht.nodup hv cs
  rcases Tree.mem_all_setChildren ht.nodup hv h with rfl | ⟨c, hc, hvc⟩ | ⟨m, hm, hne, rfl⟩
  · exact .inl rfl
  · refine (hf.kind_below (n := { view with children := cs }) (ht'.allowedRoot.of_mem hself) (.inl hk)
      (Node.mem_all.2 (.inr ⟨c, hc, hvc⟩))).imp_right fun h => ?_
    rw [hvk] at h
    exact (h.elim hf.view_ne.1 hf.view_ne.2).elim
  · -- The view is not below another.
    rw [Node.kind_edit (f := fun n => { n with children := cs }) fun _ => rfl] at hvk
    have hnot : view.uuid ∉ m.uuids := by
      intro hu
      obtain ⟨q, hq, hqu⟩ := Node.mem_uuids.1 hu
      obtain rfl := Node.eq_of_uuid ht.nodup (Node.mem_all_trans hq hm) hv hqu
      rcases hf.kind_below (ht.allowedRoot.of_mem hm) (.inl hvk) hq with rfl | h
      · exact hne rfl
      · rw [hk] at h
        exact (h.elim hf.view_ne.1 hf.view_ne.2).elim
    rw [Node.edit_of_notMem hnot]
    exact .inr ⟨hm, hne⟩

end

/-! ### Multiplexers -/

/-- Giving new multiplexers identifiers leaves the views settled. -/
theorem keepsViews_finish {t t' : Tree} (ht : t.uuids.Nodup) {view : Uuid} {created : List Uuid}
    (hc : created.Nodup) (hcreated : ∀ u ∈ created, ∃ n ∈ t.all, n.uuid = u ∧ n.kind = .multiplexer)
    (h : Family.finishMultiplexers t view created = .ok t') :
    (∃ g, t' = t.mapData g ∧ ∀ n ∈ t.all, (g n.uuid n.data).kind = n.kind) ∧ KeepsViews .can t t' := by
  obtain ⟨g, rfl, hg⟩ := Family.finished_ok ht hc h
  have hren : ∀ n ∈ t.all, Family.Renumbered n.data (g n.uuid n.data) := by
    refine fun n hn => (hg n.uuid n.data).imp_right (And.imp_left fun hnc => ?_)
    obtain ⟨m, hm, hmu, hmk⟩ := hcreated n.uuid hnc
    rwa [Node.eq_of_uuid ht hm hn hmu] at hmk
  refine ⟨⟨g, rfl, fun n hn => (hren n hn).kind⟩, ?_, fun v' hv' hk => ?_⟩
  · intro v hv hk
    refine ⟨v.mapData g, ?_, Node.uuid_mapData v, ?_⟩
    · rw [Tree.all_mapData]
      exact List.mem_map_of_mem hv
    · rw [Node.kind_mapData, (hren v hv).kind]
      exact hk
  rw [Tree.all_mapData] at hv'
  obtain ⟨v, hv, rfl⟩ := List.mem_map.1 hv'
  rw [Node.kind_mapData, (hren v hv).kind] at hk
  refine ⟨v, hv, hk, Node.uuid_mapData v, ?_⟩
  rintro params o ⟨shape, ns, gs, hshape, hset⟩
  exact ⟨shape, ns, _, hshape, hset.renumber fun m hm => hren m (Node.mem_all_trans hm hv)⟩

/-! ### Register maps -/

theorem IsRegister.lawful {f : Family} (hr : IsRegister f) : f.Lawful := by
  rcases hr with rfl | rfl
  · exact Family.lawful_sunSpec
  · exact Family.lawful_staticModbus

theorem IsRegister.kinds {f : Family} (hr : IsRegister f) {k : Kind}
    (hk : k = f.view ∨ k = f.point ∨ k = f.group) :
    k.field? .length = none ∧ k.isBlockReference = false ∧ k ≠ .tableRepeatingBlockReference ∧
      k ≠ .tableRepeatingBlockReferenceDataPointReference := by
  rcases hr with rfl | rfl <;> rcases hk with rfl | rfl | rfl <;> decide

/-- Nothing at or below a view is measured or stands for something else. -/
theorem IsRegister.below {f : Family} (hr : IsRegister f) {t : Tree} (ht : t.Valid) {v m : Node} (hv : v ∈ t.all)
    (hk : v.kind = f.view) (hm : m ∈ v.all) :
    m.kind.field? .length = none ∧ m.kind.isBlockReference = false ∧ m.kind ≠ .tableRepeatingBlockReference ∧
      m.kind ≠ .tableRepeatingBlockReferenceDataPointReference :=
  hr.kinds ((hr.lawful.kind_below (ht.allowedRoot.of_mem hv) (.inl hk) hm).imp_left
    fun h => (congrArg Node.kind h).trans hk)

/-- Laying out a tree leaves the views settled. -/
theorem keepsViews_relaidOut {f : Family} (hr : IsRegister f) {t : Tree} (ht : t.Valid) {s : Supply}
    (hs : s.Issued t.uuids) : KeepsViews f t (t.relaidOut s).1 := by
  obtain ⟨t₁, hsync, -, he⟩ := Tree.relaidOut_spec ht hs
  rw [Tree.placeAll_eq_mapData hsync.valid.nodup] at he
  refine ⟨fun v hv hk => ?_, fun v' hv' hk => ?_⟩
  · have hv₁ := (hsync.free v fun m hm => (hr.below ht hv hk hm).2.2).2 hv
    refine ⟨v.mapData (Layout.place t₁.layout), ?_, Node.uuid_mapData v, ?_⟩
    · rw [he, Tree.all_mapData]
      exact List.mem_map_of_mem hv₁
    · rw [Node.kind_mapData, Layout.kind_place]
      exact hk
  rw [he, Tree.all_mapData] at hv'
  obtain ⟨v, hv, rfl⟩ := List.mem_map.1 hv'
  rw [Node.kind_mapData, Layout.kind_place] at hk
  have hbelow := fun m (hm : m ∈ v.all) => hr.below hsync.valid hv hk hm
  have hvt : v ∈ t.all := (hsync.free v fun m hm => (hbelow m hm).2.2).1 hv
  refine ⟨v, hvt, hk, Node.uuid_mapData v, ?_⟩
  rintro params o ⟨shape, ns, gs, hshape, hset⟩
  refine ⟨shape, _, _, hshape, hset.mapData hr.lawful fun m hm => ?_⟩
  exact Layout.similar_place hsync.valid (Node.mem_all_trans hm hv) (hbelow m hm).1 (hbelow m hm).2.1

/-! ### Views of a tree -/

/-- What is left to do below a view that has been rebuilt leaves the tree valid and its views settled. -/
structure Finished (k : TreeKind) (f : Family) (t t' : Tree) : Prop where
  valid : t'.Valid
  kind : t'.kind = t.kind
  upToDate : Edit.hasLayout k = true → t'.UpToDate
  views : KeepsViews f t t'

theorem finished_finish {k : TreeKind} {f : Family} (hf : Family.ofTree k = .ok f) {t t' : Tree} (ht : t.Valid)
    {s s' : Supply} (hs : s.Issued t.uuids) {view : Uuid} {created : List Uuid} (hc : created.Nodup)
    (hcreated : ∀ u ∈ created, ∃ n ∈ t.all, n.uuid = u ∧ n.kind = f.group)
    (h : Gives (f.finish t view created) s t' s') : Finished k f t t' := by
  have hregister : IsRegister f → f.finish t view created = t.updateLayout → Finished k f t t' := by
    intro hr hfin
    rw [hfin, Tree.gives_updateLayout ht hs] at h
    obtain rfl : t' = (t.relaidOut s).1 := (congrArg Prod.fst h).symm
    exact ⟨Tree.valid_relaidOut ht hs, Tree.kind_relaidOut ht hs, fun _ => Tree.upToDate_relaidOut ht hs,
      keepsViews_relaidOut hr ht hs⟩
  cases k with
  | can =>
    cases hf
    obtain ⟨hfin, -⟩ := gives_liftM.1 h
    obtain ⟨⟨g, rfl, hg⟩, hkeeps⟩ := keepsViews_finish ht.nodup hc hcreated hfin
    exact ⟨ht.mapData hg, rfl, nofun, hkeeps⟩
  | sunSpec => cases hf; exact hregister (.inl rfl) rfl
  | staticModbus => cases hf; exact hregister (.inr rfl) rfl
  | parameters | anomalies => cases hf

theorem table_ofTable {params : Tree} {table : Uuid} {o : LeafOrder} {shape : Shape}
    (h : Shape.ofTable params table o = .ok shape) : shape.table = table := by
  unfold Shape.ofTable at h
  cases hs : Shape.seedSources params table with
  | error x => simp [hs, bind, Except.bind] at h
  | ok seeds =>
    cases hl : Shape.leaves params table with
    | error x => simp [hs, hl, bind, Except.bind] at h
    | ok leaves =>
      simp only [hs, hl, bind, Except.bind, pure, Except.pure, Except.ok.injEq] at h
      rw [← h]

/-- The new groups of a view that has been rebuilt, as its completion is told of them. -/
theorem Rebuilt.created {f : Family} {t : Tree} (ht : t.Valid) {view : Node} (hv : view ∈ t.all) {shape : Shape}
    {ns : List Node} {skipped : List Uuid} {gs : List (Bool × Node)} {s : Supply}
    (h : Rebuilt f t view shape ns skipped (gs.map (·.2)) s) :
    ((gs.filter (·.1)).map (·.2.uuid)).Nodup ∧ ∀ u ∈ (gs.filter (·.1)).map (·.2.uuid),
      ∃ n ∈ (t.setChildren view.uuid (ns ++ gs.map (·.2))).all, n.uuid = u ∧ n.kind = f.group := by
  have hself := Tree.mem_setChildren_self ht.nodup hv (ns ++ gs.map (·.2))
  refine ⟨?_, fun u hu => ?_⟩
  · have hbelow := Node.nodup_below (Node.nodup_of_mem hself h.valid.nodup)
    rw [List.flatMap_append, List.nodup_append'] at hbelow
    have hall := (Node.map_uuid_sublist (gs.map (·.2))).nodup hbelow.2.1
    rw [List.map_map] at hall
    exact (List.filter_sublist.map _).nodup hall
  · obtain ⟨x, hx, rfl⟩ := List.mem_map.1 hu
    have hg : x.2 ∈ gs.map (·.2) := List.mem_map_of_mem (List.mem_of_mem_filter hx)
    obtain ⟨b, -, hb⟩ := exists_of_forall₂ h.blocks hg
    exact ⟨x.2, Tree.mem_all_of_child hself (List.mem_append_right _ hg), rfl, hb.kind⟩

section

variable {k : TreeKind} {f : Family} (hf : Family.ofTree k = .ok f) {params : Tree} {o : ExpandOptions}
  {t : Tree} (ht : t.Valid) {view : Node} (hv : view ∈ t.all)
include hf ht hv

/-- The tree of a view that has been rebuilt is finished. -/
theorem finished_build {shape : Shape} {z : ZeroBits} {p : Plan} {s s₁ s' : Supply} (hs : s.Issued t.uuids)
    (hplan : Gives (plan f view shape z) s p s₁) {t' : Tree} {e : Expansion}
    (hbuild : Gives (build f t view shape p) s₁ (t', e) s') :
    ∃ gs s₂, Rebuilt f t view shape p.seeds p.skipped gs s₂ ∧
      Finished k f (t.setChildren view.uuid (p.seeds ++ gs)) t' := by
  obtain ⟨gs, st, s₂, hgroups, hfinish, -⟩ := gives_build.1 hbuild
  have hre := rebuilt (Family.lawful_of_ofTree hf) ht hv hs hplan hgroups
  obtain ⟨hdistinct, hnew⟩ := Rebuilt.created ht hv hre
  exact ⟨_, s₂, hre, finished_finish hf hre.valid hre.issued hdistinct hnew hfinish⟩

/-- Rebuilding a view settles it. -/
theorem settled_build {u : Uuid} {shape : Shape} (hshape : Shape.ofTable params u o.leafOrder = .ok shape)
    {p : Plan} {s s₁ s' : Supply} (hs : s.Issued t.uuids) (hplan : Gives (plan f view shape o.zeroBits) s p s₁)
    {t' : Tree} {e : Expansion} (hbuild : Gives (build f t view shape p) s₁ (t', e) s') :
    ∃ v ∈ t'.all, v.uuid = view.uuid ∧ SettledFor params o f v := by
  obtain ⟨gs, s₂, hre, hfin⟩ := finished_build hf ht hv hs hplan hbuild
  obtain ⟨⟨hk, htable⟩, -, hfits, hready, hskipped⟩ := gives_plan.1 hplan
  have hself := Tree.mem_setChildren_self ht.nodup hv (p.seeds ++ gs)
  obtain ⟨v', hv', hu', hk'⟩ := hfin.views.stands _ hself hk
  obtain ⟨v, hvm, -, hu, hset⟩ := hfin.views.settled v' hv' hk'
  obtain rfl := Node.eq_of_uuid hre.valid.nodup hvm hself (hu.symm.trans hu')
  refine ⟨v', hv', hu', hset params o ⟨shape, p.seeds, gs, ?_, ?_⟩⟩
  · rw [table_ofTable hshape]
    exact hshape
  · exact ⟨rfl, hk, htable, hre.seeds, hskipped ▸ hre.blocks, hfits, hready⟩

/-- Views that were settled are still when another one has been rebuilt. -/
theorem unbuilt_build {u : Uuid} {shape : Shape} (hshape : Shape.ofTable params u o.leafOrder = .ok shape)
    {p : Plan} {s s₁ s' : Supply} (hs : s.Issued t.uuids) (hplan : Gives (plan f view shape o.zeroBits) s p s₁)
    {t' : Tree} {e : Expansion} (hbuild : Gives (build f t view shape p) s₁ (t', e) s') {us : List Uuid}
    (h : Unbuilt params o k f (view.uuid :: us) t) : Unbuilt params o k f us t' := by
  obtain ⟨x, hx, hxu, hxs⟩ := settled_build hf ht hv hshape hs hplan hbuild
  obtain ⟨gs, s₂, hre, hfin⟩ := finished_build hf ht hv hs hplan hbuild
  obtain ⟨⟨hk, -⟩, -⟩ := gives_plan.1 hplan
  intro v' hv' hvk'
  by_cases hvu : v'.uuid = view.uuid
  · obtain rfl := Node.eq_of_uuid hfin.valid.nodup hv' hx (hvu.trans hxu.symm)
    exact .inr ⟨hxs, hfin.upToDate⟩
  · obtain ⟨v, hvm, hvk, hu, hset⟩ := hfin.views.settled v' hv' hvk'
    rcases view_of_setChildren (Family.lawful_of_ofTree hf) ht hv hk hre.valid hvm hvk with rfl | ⟨hvt, hne⟩
    · exact absurd hu hvu
    · rw [hu]
      exact (h v hvt hvk).imp (fun h => (List.mem_cons.1 h).resolve_left hne) fun h =>
        ⟨hset params o h.1, hfin.upToDate⟩

/-- Rebuilding a settled view changes nothing. -/
theorem build_again (hp : params.Valid) (hset : params.Unsettled []) (h : SettledFor params o f view)
    (hu : Edit.hasLayout k = true → t.UpToDate) {s : Supply} (hs : s.Issued t.uuids) :
    ∃ shape p reused, f.tableOf? view.data = some shape.table ∧
      Shape.ofTable params shape.table o.leafOrder = .ok shape ∧ Gives (plan f view shape o.zeroBits) s p s ∧
        Gives (build f t view shape p) s (t, ⟨view.uuid, 0, reused, 0, p.skipped⟩) s := by
  obtain ⟨shape, ns, gs, hshape, h⟩ := h
  obtain ⟨p, reused, hplan, hbuild⟩ :=
    build_settled (Family.lawful_of_ofTree hf) (Shape.proper_ofTable hp hset hshape) h s
  refine ⟨shape, p, reused, h.table, hshape, hplan, hbuild t t s ?_⟩
  have hregister : IsRegister f → t.UpToDate →
      Gives (t.setChildren view.uuid (ns ++ gs.map Node.unplaced)).updateLayout s t s :=
    fun hr hu => updateLayout_unplaced hr ht hv h hu hs
  cases k with
  | can =>
    cases hf
    have hgs : gs.map Node.unplaced = gs := by
      refine (List.map_congr_left fun n hn => ?_).trans (List.map_id _)
      exact (exists_of_forall₂ h.blocks hn).elim fun _ hb => hb.2.unplaced_can
    rw [hgs, ← h.children, Tree.setChildren_self ht.nodup hv]
    exact gives_liftM.2 ⟨Family.finished_nil ht hv h.kind, rfl⟩
  | sunSpec => cases hf; exact hregister (.inl rfl) (hu rfl)
  | staticModbus => cases hf; exact hregister (.inr rfl) (hu rfl)
  | parameters | anomalies => cases hf

end

end ViewExpansion

end DeviceModel
