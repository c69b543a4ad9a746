import DeviceModel.Proofs.Expansion.Agreeing
import DeviceModel.Proofs.Workspace.Changing

/-!
Views that have been made from a table. Main statement: as long as no reference point is made to stand for
something else, the reference points of such a view stand for different sources and before its groups
(`stands_of_reached`).
-/

namespace DeviceModel

open Edit

namespace ViewExpansion

variable {f : Family} {k : TreeKind} {t : Tree} {u : Uuid} {v : Node} {ns gs : List Node} {s : Supply}

theorem Resynced.kind {old : List Node} {us : List Uuid} {n : Node} {x : SeedSource}
    (h : Resynced f (seedNodes f old) us n x) (hf : f.Lawful) : n.kind = f.point := by
  cases h with
  | kept mem source => exact eq_of_beq (List.mem_filter.1 mem).2
  | new none uuid eq =>
    rw [eq]
    exact hf.kind_newSeed x

/-- Reference points that have been brought in step are in front. -/
theorem seeded_of_resynced (hf : f.Lawful) {old : List Node} {us : List Uuid} {ss : List SeedSource}
    (hns : List.Forall₂ (Resynced f (seedNodes f old) us) ns ss) (hgs : ∀ g ∈ gs, g.kind = f.group)
    (hss : (ss.map SeedSource.uuid).Nodup) : Seeded f (ns ++ gs) :=
  seeded_of_sources hf (hns.imp fun _ _ h => ⟨h.kind hf, h.source_eq hf⟩) hgs hss

theorem kind_of_seedNodes {cs : List Node} {n : Node} (hn : n ∈ seedNodes f cs) : n.kind = f.point :=
  eq_of_beq (List.mem_filter.1 hn).2

theorem kind_of_groupNodes {cs : List Node} {n : Node} (hn : n ∈ groupNodes f cs) : n.kind = f.group :=
  eq_of_beq (List.mem_filter.1 hn).2

theorem seedNodes_map {cs : List Node} {g : Node → Node} (hg : ∀ c ∈ cs, (g c).kind = c.kind) (f : Family) :
    seedNodes f (cs.map g) = (seedNodes f cs).map g ∧ groupNodes f (cs.map g) = (groupNodes f cs).map g := by
  rw [seedNodes, seedNodes, groupNodes, groupNodes, List.filter_map, List.filter_map]
  constructor <;> exact congrArg _ (List.filter_congr fun c hc => by rw [Function.comp_apply, hg c hc])

/-! ### Places -/

/-- Groups of a view with the places that a layout gives them, if the tree has one. -/
def placedGroups (k : TreeKind) (gs : List Node) : List Node :=
  if hasLayout k then Layout.placeBlocks 0 gs else gs

theorem isRegister_of_hasLayout (hf : Family.ofTree k = .ok f) (hk : hasLayout k = true) : IsRegister f := by
  cases k with
  | sunSpec => exact .inl (Except.ok.inj hf).symm
  | staticModbus => exact .inr (Except.ok.inj hf).symm
  | parameters | can | anomalies => cases hk

section

variable (hf : Family.ofTree k = .ok f) (ht : t.Valid) (hv : v ∈ t.all) (hk : v.kind = f.view)
  (hc : v.children = ns ++ gs) (hns : ∀ n ∈ ns, n.kind = f.point) (hgs : ∀ g ∈ gs, g.kind = f.group)
include hf ht hv hk hc hns hgs

/-- Putting a tree in place gives the groups of its views their places, and changes nothing else there. -/
theorem mem_settled (hs : s.Issued t.uuids) : { v with children := ns ++ placedGroups k gs } ∈ (settled k t s).all := by
  unfold placedGroups settled
  split
  · rename_i hl
    exact exists_relaidOut (isRegister_of_hasLayout hf hl) ht hv hk hc hns hgs hs
  · rw [← hc, Node.eta]
    exact hv

/-- They have these places already if the layout is up to date. -/
theorem placedGroups_eq (hu : hasLayout k = true → t.UpToDate) (hs : s.Issued t.uuids) : placedGroups k gs = gs := by
  have hmem := mem_settled hf ht hv hk hc hns hgs hs
  rw [settled_of_upToDate ht hu] at hmem
  have hsame := congrArg Node.children (Node.eq_of_uuid ht.nodup hmem hv rfl)
  exact List.append_cancel_left (hsame.trans hc)

end

theorem kind_placedGroups (hgs : ∀ g ∈ gs, g.kind = f.group) : ∀ g ∈ placedGroups k gs, g.kind = f.group := by
  unfold placedGroups
  split
  · exact Layout.kind_placeBlocks hgs 0
  · exact hgs

/-! ### Views with their reference points in front -/

/-- The view `u` has reference points for different sources in front, and its groups behind them. -/
def HasView (f : Family) (u : Uuid) (t : Tree) : Prop :=
  ∃ v ∈ t.all, v.uuid = u ∧ v.kind = f.view ∧ Seeded f v.children

/-- The node is a reference point of a view. -/
def IsReference (f : Family) (t : Tree) (n : Node) : Prop :=
  ∃ v ∈ t.all, v.kind = f.view ∧ n ∈ seedNodes f v.children

/-- Attributes may change as long as reference points stand for what they did. -/
theorem HasView.mapData {g : Uuid → Data → Data} (h : HasView f u t) (hg : ∀ n ∈ t.all, (g n.uuid n.data).kind = n.kind)
    (hsource : ∀ n, IsReference f t n → Family.sourceOf? (g n.uuid n.data) = Family.sourceOf? n.data) :
    HasView f u (t.mapData g) := by
  obtain ⟨v, hv, rfl, hk, hseeded⟩ := h
  have hall : v.mapData g ∈ (t.mapData g).all := by
    rw [Tree.all_mapData]
    exact List.mem_map_of_mem hv
  have hkinds : ∀ c ∈ v.children, (c.mapData g).kind = c.kind := fun c hc =>
    (Node.kind_mapData c).trans (hg c (Tree.mem_all_of_child hv hc))
  obtain ⟨hseeds, hgroups⟩ := seedNodes_map hkinds f
  refine ⟨_, hall, Node.uuid_mapData v, (Node.kind_mapData v).trans ((hg v hv).trans hk), ?_, ?_⟩
  · rw [Node.children_mapData, hseeds, hgroups, ← List.map_append, ← hseeded.sorted]
  · rw [Node.children_mapData, hseeds, List.map_map]
    have hsame : (seedNodes f v.children).map ((fun n => Family.sourceOf? n.data) ∘ Node.mapData g) =
        (seedNodes f v.children).map fun n => Family.sourceOf? n.data := List.map_congr_left fun n hn => by
      rw [Function.comp_apply, Node.data_mapData]
      exact hsource n ⟨v, hv, hk, hn⟩
    rw [hsame]
    exact hseeded.sources

section

variable (hf : Family.ofTree k = .ok f) (ht : t.Valid)
include hf ht

theorem HasView.settled (h : HasView f u t) (hs : s.Issued t.uuids) : HasView f u (settled k t s) := by
  have hlawful := Family.lawful_of_ofTree hf
  obtain ⟨v, hv, rfl, hk, hseeded⟩ := h
  have hns : ∀ n ∈ seedNodes f v.children, n.kind = f.point := fun n hn => kind_of_seedNodes hn
  have hgs : ∀ g ∈ groupNodes f v.children, g.kind = f.group := fun g hg => kind_of_groupNodes hg
  refine ⟨_, mem_settled hf ht hv hk hseeded.sorted hns hgs hs, rfl, hk, ?_⟩
  obtain ⟨hseeds, hgroups⟩ := seedNodes_append hlawful hns (kind_placedGroups (k := k) hgs)
  exact ⟨by rw [hseeds, hgroups], by rw [hseeds]; exact hseeded.sources⟩

omit hf in
/-- Views are not below one another. -/
theorem HasView.setChildren (hf : f.Lawful) (h : HasView f u t) {v : Node} (hv : v ∈ t.all) (hk : v.kind = f.view)
    (hne : v.uuid ≠ u) (cs : List Node) : HasView f u (t.setChildren v.uuid cs) := by
  obtain ⟨x, hx, rfl, hxk, hseeded⟩ := h
  -- Whatever is below a view is no view.
  have apart : ∀ y z : Node, y ∈ t.all → y.kind = f.view → z ∈ y.all → z.kind = f.view → z = y := by
    intro y z hy hyk hz hzk
    refine (hf.kind_below (ht.allowedRoot.of_mem hy) (.inl hyk) hz).resolve_right fun h => ?_
    rw [hzk] at h
    exact h.elim hf.view_ne.1 hf.view_ne.2
  refine ⟨x, Tree.mem_setChildren_of_mem ht.nodup hv hx (fun hmem => ?_) (fun c hc hmem => ?_) cs, rfl, hxk, hseeded⟩
  · obtain ⟨y, hy, hyu⟩ := Node.mem_uuids.1 hmem
    obtain rfl := Node.eq_of_uuid ht.nodup (Node.mem_all_trans hy hx) hv hyu
    exact hne (congrArg Node.uuid (apart x y hx hxk hy hk))
  · have hxv : x ∈ v.all := Node.mem_all_trans hmem (Node.mem_all_of_child hc)
    exact hne (congrArg Node.uuid (apart v x hv hk hxv hxk)).symm

/-- What is left to do below another view leaves this one. -/
theorem HasView.finish (h : HasView f u t) (hs : s.Issued t.uuids) {view : Uuid} {created : List Uuid}
    (hc : created.Nodup) {t' : Tree} {s' : Supply} (hfin : Gives (f.finish t view created) s t' s') :
    HasView f u t' := by
  have hregister : hasLayout k = true → f.finish t view created = t.updateLayout → HasView f u t' := by
    intro hk hfinish
    rw [hfinish, Tree.gives_updateLayout ht hs] at hfin
    obtain rfl : (t.relaidOut s).1 = t' := congrArg Prod.fst hfin
    have hsettled := h.settled hf ht hs
    rwa [Edit.settled, if_pos hk] at hsettled
  cases k with
  | can =>
    cases hf
    obtain ⟨g, rfl, hg⟩ := Family.finished_ok ht.nodup hc (gives_liftM.1 hfin).1
    refine h.mapData (fun n _ => ?_) fun n _ => ?_
    · rcases hg n.uuid n.data with heq | ⟨-, i, heq⟩
      · rw [heq]
        rfl
      · rw [heq, Data.kind_put]
        rfl
    · rcases hg n.uuid n.data with heq | ⟨-, i, heq⟩
      · rw [heq]
      · rw [heq, Family.sourceOf?_put_of_ne (by decide)]
  | sunSpec => cases hf; exact hregister rfl rfl
  | staticModbus => cases hf; exact hregister rfl rfl
  | parameters | anomalies => cases hf

end

end ViewExpansion

namespace Edit

open Workspace ViewExpansion

variable {w w' : Workspace} {k : TreeKind} {f : Family} {u : Uuid}

/-! ### Drops -/

/-- What is made of a table that is dropped is a view of it. -/
theorem newView_of_childFrom (hf : Family.ofTree k = .ok f) {t : Tree} {p table c : Node} {l : Lookup} {s s' : Supply}
    (hk : table.kind = .table) (h : Gives ((Rules.ofTree k).childFrom t p table l) s c s') :
    ∃ d : Data, d.kind = f.view ∧ Gives (Rules.newView f d table l) s c s' := by
  cases k with
  | can =>
    cases hf
    replace h : Gives (Rules.Can.childFrom t p table l) s c s' := h
    rw [Rules.Can.childFrom, if_neg (by rw [hk]; decide), if_pos hk] at h
    exact ⟨_, Data.kind_of _ _, h⟩
  | sunSpec =>
    cases hf
    replace h : Gives (Rules.SunSpec.childFrom t p table l) s c s' := h
    rw [Rules.SunSpec.childFrom, hk] at h
    split at h
    · contradiction
    · exact ⟨_, Data.kind_of _ _, h⟩
    · exact absurd h gives_throw
    · exact absurd h gives_throw
    · exact absurd h gives_throw
  | staticModbus =>
    cases hf
    replace h : Gives (Rules.Modbus.childFrom t p table l) s c s' := h
    rw [Rules.Modbus.childFrom, hk] at h
    split at h
    · contradiction
    · exact ⟨_, Data.kind_of _ _, h⟩
    · exact absurd h gives_throw
    · exact ⟨_, Data.kind_of _ _, h⟩
    · exact absurd h gives_throw
  | parameters | anomalies => cases hf

theorem points_stand (hf : f.Lawful) (sources : List SeedSource) (s : Supply) :
    List.Forall₂ (fun n x => n.kind = f.point ∧ Family.sourceOf? n.data = some x.uuid) (Rules.points f sources s).1
      sources := by
  induction sources generalizing s with
  | nil => exact .nil
  | cons x xs ih =>
    rw [Rules.points_cons]
    exact .cons ⟨hf.kind_newSeed x, hf.source_newSeed x⟩ (ih _)

/-- A new view has a reference point for each source of its table. -/
theorem seeded_of_newView (hf : f.Lawful) {d : Data} {table c : Node} {l : Lookup} {s s' : Supply}
    (hl : ∀ t ∈ l, t.Valid) (h : Gives (Rules.newView f d table l) s c s') : c.data = d ∧ Seeded f c.children := by
  unfold Rules.newView at h
  split at h
  · exact absurd h gives_throw
  · rename_i params hparams
    simp only [gives_bind, gives_liftM, gives_liftM_state] at h
    obtain ⟨sources, _, ⟨hsources, rfl⟩, h⟩ := h
    rw [Rules.seeded_eq] at h
    cases h
    refine ⟨rfl, ?_⟩
    have hpoints := points_stand hf sources (draw s).2
    have hnone : ∀ n ∈ ([] : List Node), n.kind = f.group := List.forall_mem_nil _
    have hseeded := seeded_of_sources hf hpoints hnone
      (Shape.nodup_seedSources (hl params (List.mem_of_find?_eq_some hparams)) hsources)
    rwa [List.append_nil] at hseeded

/-- A table is dropped in the tree `k`, where it becomes the view `view`. -/
def DropsTable (w : Workspace) (k : TreeKind) (view : Uuid) (w' : Workspace) : Prop :=
  ∃ payload target row source table, readPayload payload = .ok source ∧ w.dropped? k source = some table ∧
    table.kind = .table ∧ Gives (drop k payload target row) w view w'

theorem hasView_of_drop (hf : Family.ofTree k = .ok f) (hw : w.Proper) (h : DropsTable w k u w') :
    HasView f u (w'.tree k) := by
  obtain ⟨payload, target, row, source, table, hpayload, hfound, hk, h⟩ := h
  have hlawful := Family.lawful_of_ofTree hf
  obtain ⟨source', p, n, hpayload', hp, -, -, hfound', -, hdone⟩ := drop_ok (hw.valid k) h
  obtain rfl := Except.ok.inj (hpayload.symm.trans hpayload')
  obtain rfl := Option.some.inj (hfound.symm.trans hfound')
  rcases hdone with ⟨⟨hn, -⟩, -⟩ | ⟨-, c, s, s', hnew, hinserted, rfl⟩
  · -- Tables are parameters, and there are no views among these.
    have htree := Tree.kind_of_mem (hw.valid k) hn
    rw [hw.kind k, hk] at htree
    rw [htree] at hf
    cases hf
  · obtain ⟨d, hd, hnew⟩ := newView_of_childFrom hf hk hnew
    have hothers : ∀ t ∈ w.models.others k, t.Valid := fun t ht => by
      obtain ⟨j, -, rfl⟩ := List.mem_map.1 ht
      exact hw.valid j
    obtain ⟨rfl, hseeded⟩ := seeded_of_newView hlawful hothers hnew
    obtain ⟨r, -, htold⟩ := hinserted.told
    obtain ⟨s₀, hs₀, hput⟩ := htold.puts
    rw [hput.tree]
    refine HasView.settled hf htold.valid ⟨c, ?_, rfl, hd, hseeded⟩ hs₀
    refine Node.mem_edit_of_mem (hw.valid k).nodup hp rfl ?_
    exact Node.mem_all_of_child (Node.mem_place.2 (.inl rfl))

/-! ### Views that are expanded or brought in step -/

theorem issued_children (hw : (w.tree k).uuids.Nodup) {n : Node} (hn : n ∈ (w.tree k).all) :
    w.offered.Issued (n.children.map Node.uuid) := by
  refine (issued_offered hw).sublist (List.Sublist.trans ?_ (Node.uuids_sublist hn))
  rw [Node.uuids_eq]
  exact (Node.map_uuid_sublist n.children).trans (List.sublist_cons_self ..)

section

variable (hf : Family.ofTree k = .ok f) (hw : w.Proper) (hv : HasView f u (w.tree k))
include hf hw hv

theorem hasView_of_expandView {view : Uuid} {table : Option Uuid} {o : ExpandOptions} {e : Expansion}
    (h : Gives (expandView k view table o) w e w') : HasView f u (w'.tree k) := by
  have hlawful := Family.lawful_of_ofTree hf
  obtain ⟨f', n, shape, t, hexp, hput⟩ := expandedView (hw.valid k) h
  obtain rfl := Except.ok.inj (hf.symm.trans hexp.family)
  obtain ⟨hn, rfl⟩ := Tree.mem_of_find? hexp.node
  rw [hput.tree]
  by_cases hu : n.uuid = u
  · obtain ⟨v, hfind, shape', ns, gs, hshape, hset⟩ := hexp.settled (hw.valid k)
    obtain ⟨hvm, hvu⟩ := Tree.mem_of_find? hfind
    refine ⟨v, hvm, hvu.trans hu, hset.kind, ?_⟩
    rw [hset.children]
    refine seeded_of_sources hlawful (hset.seeds.imp fun _ _ h => ⟨h.kind, h.source⟩) (fun g hg => ?_)
      (Shape.nodup_seedSources (hw.valid _) (Shape.seedSources_of_ofTable hshape).1)
    exact (exists_of_forall₂ hset.blocks hg).elim fun _ h => h.2.kind
  · obtain ⟨p, s, s', hplan, hbuild⟩ := hexp.built
    obtain ⟨gs, st, s₁, hrun, hfin, -⟩ := ViewExpansion.gives_build.1 hbuild
    have hs : w.offered.Issued (w.tree k).uuids := issued_offered (hw.valid k).nodup
    have hre := rebuilt hlawful (hw.valid k) hn hs hplan hrun
    have hk := (gives_plan.1 hplan).1.1
    exact (hv.setChildren (hw.valid k) hlawful hn hk hu _).finish hf hre.valid hre.issued
      (Rebuilt.created (hw.valid k) hn hre).1 hfin

theorem hasView_of_syncSeeds {view : Uuid} {a : Unit} (h : Gives (syncSeeds k view) w a w') :
    HasView f u (w'.tree k) := by
  have hlawful := Family.lawful_of_ofTree hf
  obtain ⟨f', n, table, sources, s, hf', hfind, htable, hsources, hvalid, hs, hput⟩ := puts_of_syncSeeds (hw.valid k) h
  obtain rfl := Except.ok.inj (hf.symm.trans hf')
  obtain ⟨hn, rfl⟩ := Tree.mem_of_find? hfind
  have hk := kind_of_tableOf? htable
  rw [hput.tree]
  refine HasView.settled hf hvalid ?_ hs
  by_cases hu : n.uuid = u
  · obtain ⟨v, hvm, hvu, -, hseeded⟩ := hv
    obtain rfl := Node.eq_of_uuid (hw.valid k).nodup hn hvm (hu.trans hvu.symm)
    have hss := Shape.nodup_seedSources (hw.valid _) hsources
    obtain ⟨ns, hns, hresynced⟩ := sync_eq hseeded hlawful hss (issued_children (hw.valid k).nodup hn)
    refine ⟨_, Tree.mem_setChildren_self (hw.valid k).nodup hn _, hu, hk, ?_⟩
    rw [hns]
    exact seeded_of_resynced hlawful hresynced (fun g hg => kind_of_groupNodes hg) hss
  · exact hv.setChildren (hw.valid k) hlawful hn hk hu _

/-- The attribute is not what a reference point stands for. -/
def SparesSource (f : Family) (t : Tree) (u : Uuid) (name : String) : Prop :=
  Attr.ofKey? name = some .parameter → ∀ n, IsReference f t n → n.uuid ≠ u

theorem hasView_of_setAttribute {v : Uuid} {name : String} {x : Value} {a : Unit}
    (hspares : SparesSource f (w.tree k) v name) (h : Gives (setAttribute k v name x) w a w') :
    HasView f u (w'.tree k) := by
  obtain ⟨n, fld, d, s, hn, rfl, hattr, hd, hvalid, hs, hput, -⟩ := setAttribute_ok (hw.valid k) (hw.kind k) h
  rw [hput.tree]
  refine HasView.settled hf hvalid ?_ hs
  rw [Tree.modify_eq_mapData (hw.valid k).nodup]
  refine hv.mapData (fun m hm => ?_) fun m hm => ?_
  · unfold Node.only
    split
    · rename_i hu
      rw [Node.eq_of_uuid (hw.valid k).nodup hm hn hu]
      exact Data.kind_set hd
    · rfl
  · unfold Node.only
    split
    · rename_i hu
      obtain ⟨v, hvm, -, hmv⟩ := id hm
      obtain rfl := Node.eq_of_uuid (hw.valid k).nodup (Tree.mem_all_of_child hvm (List.mem_of_mem_filter hmv)) hn hu
      -- Another attribute has been set, since this one is a reference point.
      obtain ⟨b, hb, hfld⟩ := Option.bind_eq_some_iff.1 hattr
      have hfb : fld.attr = b := by simpa using List.find?_some hfld
      have hne : fld.attr ≠ .parameter := fun h => hspares (by rw [hb, ← hfb, h]) m hm rfl
      rw [Family.sourceOf?, Data.ref?, Data.get?_set_of_ne hne hd]
      rfl
    · rfl

end

end Edit

namespace Workspace

open ViewExpansion

variable {w w' : Workspace} {k j : TreeKind} {f : Family} {u : Uuid}

/-! ### Runs -/

/-- The view `u` of the tree `k` has its reference points in front, in a project that is as it should be. -/
structure Stands (k : TreeKind) (f : Family) (u : Uuid) (w : Workspace) : Prop where
  proper : w.Proper
  upToDate : hasLayout k = true → (w.tree k).UpToDate
  view : HasView f u (w.tree k)

theorem stands_of_changes (hw : w.Proper) (h : Changes w j w')
    (hu : j ≠ k → hasLayout k = true → (w.tree k).UpToDate) (hv : HasView f u (w'.tree k)) : Stands k f u w' := by
  refine ⟨h.proper hw, fun hk => ?_, hv⟩
  obtain ⟨es, t, htold⟩ := h.told
  by_cases hj : j = k
  · subst hj
    obtain ⟨s, hs, hput⟩ := htold.puts
    rw [hput.tree]
    exact upToDate_settled htold.valid hs hk
  · rw [htold.others (Ne.symm hj)]
    exact hu hj hk

/-- Views of the tree `k` are expanded and brought in step, and attributes are set other than what reference
points stand for. In other trees there may be any request. -/
def Request.Spares (k : TreeKind) (f : Family) (w : Workspace) : Request → Prop
  | .operate _ (.expandView ..) | .operate _ (.syncSeeds _) => True
  | .operate j (.setAttribute u name _) | .setAttributeText j u name _ => j = k → SparesSource f (w.tree k) u name
  | r => r.tree ≠ k

section

variable (hf : Family.ofTree k = .ok f)
include hf

theorem hasView_of_request (hw : w.Proper) (hv : HasView f u (w.tree k)) {r : Request} (hr : r.Spares k f w)
    (h : Gives r.run w () w') : HasView f u (w'.tree k) := by
  by_cases hk : r.tree = k
  swap
  · obtain ⟨es, t, htold⟩ := (changes_of_request hw h).told
    rwa [htold.others (Ne.symm hk)]
  cases r with
  | operate j op =>
    obtain rfl : j = k := hk
    have hrun := Operation.succeeds_iff.2 h
    cases op with
    | addChild | delete | drop => exact absurd rfl hr
    | setAttribute v name x => exact hasView_of_setAttribute hf hw hv (hr rfl) hrun
    | expandView view table o => exact hrun.elim fun _ h => hasView_of_expandView hf hw hv h
    | syncSeeds view => exact hasView_of_syncSeeds hf hw hv hrun
  | setAttributeText j v name text =>
    obtain rfl : j = k := hk
    simp only [Request.run, setAttributeText, gives_bind] at h
    obtain ⟨fld, v, hfield, h⟩ := h
    obtain rfl := field_ok hfield
    split at h
    · exact hasView_of_setAttribute hf hw hv (hr rfl) h
    · exact absurd h gives_throw
  | setArrayLength | expandTable => exact absurd hk hr

/-- What is reached from a table that has been dropped, where it became the view `u`, by requests that spare what
reference points stand for. -/
inductive Reached (k : TreeKind) (f : Family) (u : Uuid) : Workspace → Prop
  | dropped {w w' : Workspace} : w.Proper → DropsTable w k u w' → Reached k f u w'
  | request {w : Workspace} (r : Request) : Reached k f u w → r.Spares k f w → Reached k f u (outcome r.run w).2

theorem stands_of_reached (h : Reached k f u w) : Stands k f u w := by
  induction h with
  | @dropped w w' hw h =>
    have hchanges : Changes w k w' := by
      obtain ⟨payload, target, row, -, -, -, -, -, hdrop⟩ := h
      have hsucceeds : (Operation.drop payload target row).Succeeds k w w' := ⟨u, hdrop⟩
      exact changes_of_operation (hw.valid k) (hw.kind k) hsucceeds
    exact stands_of_changes hw hchanges (fun h => absurd rfl h) (hasView_of_drop hf hw h)
  | @request w r _ hr ih =>
    rcases ho : outcome r.run w with ⟨x, w'⟩
    cases x with
    | error x =>
      have hsame := (atomic_request ih.proper.valid r x w' ho).trees
      exact ⟨⟨fun j => hsame j ▸ ih.proper.valid j, fun j => hsame j ▸ ih.proper.kind j⟩,
        fun hk => hsame k ▸ ih.upToDate hk, hsame k ▸ ih.view⟩
    | ok _ =>
      have hrun : Gives r.run w () w' := ho
      exact stands_of_changes ih.proper (changes_of_request ih.proper hrun) (fun _ => ih.upToDate)
        (hasView_of_request hf ih.proper ih.view hr hrun)

end

end Workspace

end DeviceModel
