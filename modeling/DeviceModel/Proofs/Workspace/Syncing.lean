import DeviceModel.Proofs.Workspace.SeededViews

/-!
Views whose reference points are brought in step. Main statements: bringing them in step gives a view one
reference point for each source of its table, in their order, and leaves its groups (`synced_of_syncSeeds`);
after an expansion there is nothing to bring in step (`syncSeeds_of_expandView`); and what an expansion makes of a
view does not depend on whether that has been done before (`agrees_of_synced`).
-/

namespace DeviceModel

namespace Edit

open Workspace ViewExpansion

variable {w w' : Workspace} {k : TreeKind} {f : Family} {view : Uuid}

/-- An expansion that can be planned and built puts the tree in place that is built. -/
theorem puts_of_build (hf : Family.ofTree k = .ok f) (hw : (w.tree k).Valid) {n : Node}
    (hn : (w.tree k).find? view = some n) {table : Option Uuid} {u : Uuid}
    (hu : chooseTable view table (f.tableOf? n.data) = .ok u) {o : ExpandOptions} {shape : Shape}
    (hshape : Shape.ofTable (w.tree .parameters) u o.leafOrder = .ok shape) {p : ViewExpansion.Plan} {s s' : Supply}
    (hplan : Gives (ViewExpansion.plan f n shape o.zeroBits) w.offered p s) {t : Tree} {e : Expansion}
    (hbuild : Gives (ViewExpansion.build f (w.tree k) n shape p) s (t, e) s') :
    t.Valid ∧ ∃ w', Gives (expandView k view table o) w e w' ∧ w.Puts k t w' := by
  obtain ⟨v, hrun⟩ := exists_rebuildView hn hplan hbuild
  have hre := rebuiltView hf hw hrun
  obtain ⟨-, -, -, -, -, -, -, halike⟩ := rebuildView_ok hrun
  obtain ⟨v', htrans⟩ := exists_transaction view hrun fun _ => hre.valid
  obtain ⟨m, hm⟩ := exists_node_of_transaction hf hw htrans
  obtain ⟨w', hgives, hw'⟩ := exists_expandView hf hn hu hshape htrans hm
  obtain ⟨t', v₁, v₂, b, v₃, hrun', hc, hbefore, hafter⟩ := transaction_ok htrans
  obtain ⟨hpair, rfl⟩ := gives_unique hrun hrun'
  cases hpair
  refine ⟨hre.valid, w', hgives, (hre.puts hc).congr (fun j => (hbefore j).trans (halike j)) fun j => ?_⟩
  exact (hw' j).trans (hafter j)

/-- Views that are abreast are expanded alike. -/
theorem expandView_of_abreast (hf : Family.ofTree k = .ok f) (hw : (w.tree k).Valid) (hw' : (w'.tree k).Valid)
    (hparams : w'.tree .parameters = w.tree .parameters) {n n' : Node}
    (h : Abreast k f w.models.uuids w'.models.uuids (w.tree k) (w'.tree k) n n') {us vs : List Uuid}
    (hus : us ⊆ w.models.uuids) (hvs : vs ⊆ w'.models.uuids)
    (hseeds : ∀ u ss, f.tableOf? n.data = some u → Shape.seedSources (w.tree .parameters) u = .ok ss →
      List.Forall₂ (Twin us vs) (seeds f ss (.ofChildren f n.children) w.offered).1.1
        (seeds f ss (.ofChildren f n'.children) w'.offered).1.1)
    {table : Option Uuid} {o : ExpandOptions} {e : Expansion} {v : Workspace}
    (hx : Gives (expandView k n.uuid table o) w e v) :
    ∃ e' v', Gives (expandView k n.uuid table o) w' e' v' ∧ ∃ m m', (v.tree k).find? n.uuid = some m ∧
      (v'.tree k).find? n.uuid = some m' ∧ Twin us vs m m' := by
  obtain ⟨f', n₁, u, shape, hf', hn, hu, hshape, t, v₁, b, hrun, -⟩ := expandView_ok hx
  obtain rfl := Except.ok.inj (hf.symm.trans hf')
  obtain ⟨n₂, p, s, s', hn₂, hplan, hbuild, -⟩ := rebuildView_ok hrun
  obtain rfl := Option.some.inj (hn.symm.trans hn₂)
  obtain rfl := Option.some.inj ((Tree.find?_of_mem hw.nodup h.mem).symm.trans hn)
  obtain ⟨hsources, rfl⟩ := Shape.seedSources_of_ofTable hshape
  obtain ⟨⟨-, hlinked⟩, hrunSeeds, -⟩ := gives_plan.1 hplan
  have hall := hseeds _ _ hlinked hsources
  obtain ⟨p', s₁', hplan', hdata⟩ := plan_of_plan h.data
    (map_eq_of_forall₂ hall fun _ _ hxy => by obtain ⟨-, hdata, -⟩ := hxy; exact hdata) hplan
  obtain ⟨-, hrunSeeds', -⟩ := gives_plan.1 hplan'
  obtain ⟨t₂, e', s₂', hbuild', bs, cs, hbs, hcs, htwin⟩ := h.build hf hplan rfl hplan' rfl hdata hbuild
  have hn' : (w'.tree k).find? n.uuid = some n' := h.uuid ▸ Tree.find?_of_mem hw'.nodup h.mem'
  obtain ⟨ht, v₂, hgives, hput⟩ := puts_of_build hf hw hn hu hshape hplan hbuild
  obtain ⟨-, rfl⟩ := gives_unique hx hgives
  obtain ⟨ht', v', hgives', hput'⟩ := puts_of_build hf hw' hn' (h.data.symm ▸ hu) (hparams.symm ▸ hshape) hplan' hbuild'
  have hm := Tree.find?_of_mem ht.nodup hbs
  have hm' : t₂.find? n.uuid = some { n' with children := p'.seeds ++ cs } :=
    h.uuid ▸ Tree.find?_of_mem ht'.nodup hcs
  rw [← hput.tree] at hm
  rw [← hput'.tree] at hm'
  refine ⟨e', v', hgives', _, _, hm, hm', .intro (.inl h.uuid.symm) h.data ?_⟩
  refine List.rel_append ?_ (htwin.imp fun _ _ h => h.mono hus hvs)
  rwa [hrunSeeds, hrunSeeds'] at hall

/-! ### Reference points that are brought in step -/

/-- What a view with its reference points in step is: for each source of its table there is the reference point
that there was, or a new one, and behind them stand the groups as they were. -/
structure InStep (f : Family) (us : List Uuid) (ss : List SeedSource) (n n' : Node) : Prop where
  uuid : n'.uuid = n.uuid
  data : n'.data = n.data
  children : ∃ ns, n'.children = ns ++ groupNodes f n.children ∧
    List.Forall₂ (Resynced f (seedNodes f n.children) us) ns ss

/-- A view whose reference points have been brought in step. -/
structure Synced (k : TreeKind) (f : Family) (w w' : Workspace) (table : Uuid) (ss : List SeedSource) (n n' : Node) :
    Prop where
  mem : n ∈ (w.tree k).all
  mem' : n' ∈ (w'.tree k).all
  seeded : Seeded f n.children
  linked : f.tableOf? n.data = some table
  sources : Shape.seedSources (w.tree .parameters) table = .ok ss
  inStep : InStep f w.models.uuids ss n n'
  valid : ((w.tree k).setChildren n.uuid n'.children).Valid
  puts : ∃ s, s.Issued ((w.tree k).setChildren n.uuid n'.children).uuids ∧
    w.Puts k (settled k ((w.tree k).setChildren n.uuid n'.children) s) w'

theorem synced_of_syncSeeds (hf : Family.ofTree k = .ok f) (h : Stands k f view w) {a : Unit}
    (hx : Gives (syncSeeds k view) w a w') : ∃ table ss n n', n.uuid = view ∧ Synced k f w w' table ss n n' := by
  have hlawful := Family.lawful_of_ofTree hf
  have hw := h.proper.valid k
  obtain ⟨f', n, table, ss, s, hf', hn, htable, hss, hvalid, hs, hput⟩ := puts_of_syncSeeds hw hx
  obtain rfl := Except.ok.inj (hf.symm.trans hf')
  obtain ⟨hnm, rfl⟩ := Tree.mem_of_find? hn
  obtain ⟨v, hv, hvu, hk, hseeded⟩ := h.view
  obtain rfl := Node.eq_of_uuid hw.nodup hv hnm hvu
  obtain ⟨ns, hns, hresynced⟩ := sync_eq hseeded hlawful (Shape.nodup_seedSources (h.proper.valid _) hss)
    (issued_children hw.nodup hnm)
  have hkns : ∀ n ∈ ns, n.kind = f.point := fun n hn => (exists_of_forall₂ hresynced hn).elim fun _ h => h.2.kind hlawful
  have hkgs : ∀ g ∈ groupNodes f v.children, g.kind = f.group := fun g hg => kind_of_groupNodes hg
  rw [hns] at hput hvalid hs
  refine ⟨table, ss, v, { v with children := ns ++ groupNodes f v.children }, rfl, hnm, ?_, hseeded, htable, hss,
    ⟨rfl, rfl, ns, rfl, hresynced⟩, hvalid, s, hs, hput⟩
  have hmem := mem_settled hf hvalid (Tree.mem_setChildren_self hw.nodup hnm _) hk rfl hkns hkgs hs
  rwa [placedGroups_eq hf hw hv hk hseeded.sorted (fun n hn => kind_of_seedNodes hn) hkgs h.upToDate
    (issued_offered hw.nodup), ← hput.tree] at hmem

/-- The trees without the reference points of the view are the same. -/
theorem exists_below {t : Tree} (ht : t.Valid) {n : Node} (hn : n ∈ t.all) (ns : List Node)
    {gs : List Node} (hsub : gs.Sublist n.children) : (t.setChildren n.uuid gs).Valid ∧ (t.setChildren n.uuid gs).uuids ⊆ t.uuids ∧
      (t.setChildren n.uuid gs).uuids ⊆ (t.setChildren n.uuid (ns ++ gs)).uuids := by
  obtain ⟨outside, hold, hnew⟩ := Tree.exists_outside ht.nodup hn
  have hkept := (hsub.flatMap Node.uuids).append_right outside
  refine ⟨ht.setChildren hn (fun c hc => ?_) ?_, fun u hu => ?_, fun u hu => ?_⟩
  · exact Node.allowed_iff.1 (ht.allowedRoot.of_mem hn) c (hsub.subset hc)
  · exact (hnew gs).nodup_iff.2 ((hold.nodup_iff.1 ht.nodup).sublist hkept)
  · exact hold.mem_iff.2 (hkept.subset ((hnew gs).mem_iff.1 hu))
  · rw [(hnew _).mem_iff, List.flatMap_append, List.append_assoc]
    exact List.mem_append_right _ ((hnew gs).mem_iff.1 hu)

section

variable {table : Uuid} {ss : List SeedSource} {n n' : Node} (hy : Synced k f w w' table ss n n')
include hy

theorem Synced.validAfter : (w'.tree k).Valid := by
  obtain ⟨s, hs, hput⟩ := hy.puts
  rw [hput.tree]
  exact valid_settled hy.valid hs

variable (hf : Family.ofTree k = .ok f) (h : Stands k f view w)
include hf h

theorem Synced.abreast : Abreast k f w.models.uuids w'.models.uuids (w.tree k) (w'.tree k) n n' := by
  have hlawful := Family.lawful_of_ofTree hf
  have hw := h.proper.valid k
  obtain ⟨ns, hchildren, hresynced⟩ := hy.inStep.children
  have hgroups : groupNodes f n'.children = groupNodes f n.children := by
    rw [hchildren]
    exact (seedNodes_append hlawful (fun n hn => (exists_of_forall₂ hresynced hn).elim fun _ h => h.2.kind hlawful)
      fun g hg => kind_of_groupNodes hg).2
  refine ⟨hw, hy.validAfter, hy.mem, hy.mem', hy.inStep.uuid, hy.inStep.data, hgroups, w.models.uuids_subset k,
    w'.models.uuids_subset k, fun hk => ?_⟩
  subst hk
  obtain ⟨s, -, hput⟩ := hy.puts
  have htree : w'.tree .can = (w.tree .can).setChildren n.uuid n'.children := hput.tree
  obtain ⟨hvalid, hold, hnew⟩ := exists_below hw hy.mem ns (List.filter_sublist (p := (·.kind == f.group)))
  refine ⟨_, hvalid, fun u hu => w.models.uuids_subset .can (hold hu), fun u hu => w'.models.uuids_subset .can ?_,
    Tree.mem_setChildren_self hw.nodup hy.mem _, fun cs => ?_⟩
  · show u ∈ (w'.tree .can).uuids
    rw [htree, hchildren]
    exact hnew hu
  · rw [htree, Tree.setChildren_setChildren, Tree.setChildren_setChildren]
    exact ⟨rfl, rfl⟩

/-- The reference points that an expansion makes: of the two that stand for a source either both are the old one, or
both are new. -/
theorem Synced.twin_seeds : List.Forall₂ (Twin w.models.uuids w.models.uuids)
    (seeds f ss (.ofChildren f n.children) w.offered).1.1
      (seeds f ss (.ofChildren f n'.children) w'.offered).1.1 := by
  have hlawful := Family.lawful_of_ofTree hf
  have hss := Shape.nodup_seedSources (h.proper.valid _) hy.sources
  obtain ⟨ns, hchildren, hresynced⟩ := hy.inStep.children
  refine ViewExpansion.twin_seeds hlawful hss (fun u hu => hu) ?_
  rw [hchildren]
  exact resumes_sync hlawful hy.seeded hresynced (fun g hg => kind_of_groupNodes hg) hss

end

/-- Expanding the view fails in both workspaces or makes the same of it, but for identifiers that are not among `us`
on the one side and not among `vs` on the other. -/
def ExpandsAlike (k : TreeKind) (view : Uuid) (us vs : List Uuid) (w w' : Workspace) : Prop :=
  ∀ table o, ((∃ e v, Gives (expandView k view table o) w e v) ↔ ∃ e v, Gives (expandView k view table o) w' e v) ∧
    ∀ e v e' v', Gives (expandView k view table o) w e v → Gives (expandView k view table o) w' e' v' →
      ∃ m m', (v.tree k).find? view = some m ∧ (v'.tree k).find? view = some m' ∧ Twin us vs m m'

/-- The identifiers of `w` that `w'` still has. -/
def remaining (w w' : Workspace) : List Uuid := w.models.uuids.filter (w'.models.uuids.contains ·)

theorem Synced.expandsAlike (hf : Family.ofTree k = .ok f) (h : Stands k f view w) {table : Uuid}
    {ss : List SeedSource} {n n' : Node} (hy : Synced k f w w' table ss n n') :
    ExpandsAlike k n.uuid w.models.uuids (remaining w w') w w' := by
  have hw := h.proper.valid k
  have habreast := hy.abreast hf h
  obtain ⟨s, -, hput⟩ := hy.puts
  have hparams := hput.others .parameters (ne_parameters_of_ofTree hf).symm
  have hold : remaining w w' ⊆ w.models.uuids := fun _ hu => (List.mem_filter.1 hu).1
  have hnew : remaining w w' ⊆ w'.models.uuids := fun u hu => by simpa using (List.mem_filter.1 hu).2
  have hseeds := (hy.twin_seeds hf h).imp fun _ _ hxy => hxy.mono (fun _ hu => hu) hold
  have forth : ∀ {table o e v}, Gives (expandView k n.uuid table o) w e v → ∃ e' v',
      Gives (expandView k n.uuid table o) w' e' v' ∧ ∃ m m', (v.tree k).find? n.uuid = some m ∧
        (v'.tree k).find? n.uuid = some m' ∧ Twin w.models.uuids (remaining w w') m m' := by
    intro table o e v hx
    refine expandView_of_abreast hf hw (hy.validAfter) hparams habreast (fun _ hu => hu) hnew
      (fun u ss' hu hss' => ?_) hx
    obtain rfl := Option.some.inj (hy.linked.symm.trans hu)
    obtain rfl := Except.ok.inj (hy.sources.symm.trans hss')
    exact hseeds
  have back : ∀ {table o e v}, Gives (expandView k n.uuid table o) w' e v → ∃ e' v',
      Gives (expandView k n.uuid table o) w e' v' := by
    intro table o e v hx
    rw [← hy.inStep.uuid] at hx ⊢
    have hboth := expandView_of_abreast hf hy.validAfter hw hparams.symm habreast.symm hnew (fun _ hu => hu)
      (fun u ss' hu hss' => ?_) hx
    · obtain ⟨e', v', hx', -⟩ := hboth
      exact ⟨e', v', hx'⟩
    · rw [hparams] at hss'
      rw [hy.inStep.data] at hu
      obtain rfl := Option.some.inj (hy.linked.symm.trans hu)
      obtain rfl := Except.ok.inj (hy.sources.symm.trans hss')
      exact (hseeds.imp fun _ _ hxy => hxy.symm).flip
  refine fun table o => ⟨⟨fun ⟨e, v, hx⟩ => ?_, fun ⟨e, v, hx⟩ => back hx⟩, fun e v e' v' hx hx' => ?_⟩
  · obtain ⟨e', v', hx', -⟩ := forth hx
    exact ⟨e', v', hx'⟩
  · obtain ⟨e'', v'', hx'', hviews⟩ := forth hx
    obtain ⟨-, rfl⟩ := gives_unique hx' hx''
    exact hviews

/-! ### After an expansion -/

/-- Reference points are in step once a view has been expanded. -/
theorem syncSeeds_of_expandView (hw : w.Proper) {table : Option Uuid} {o : ExpandOptions} {e : Expansion}
    (hx : Gives (expandView k view table o) w e w') :
    ∃ w'', Gives (syncSeeds k view) w' () w'' ∧ ∀ j, w''.tree j = w'.tree j := by
  obtain ⟨f, n, shape, t, hexp, hput⟩ := expandedView (hw.valid k) hx
  have hlawful := Family.lawful_of_ofTree hexp.family
  obtain ⟨v, hv, shape', ns, gs, hshape, hset⟩ := hexp.settled (hw.valid k)
  have hsources := (Shape.seedSources_of_ofTable hshape).1
  rw [← hput.tree] at hv
  rw [← hput.others .parameters (ne_parameters_of_ofTree hexp.family).symm] at hsources
  have ht : (w'.tree k).Valid := hput.tree.symm ▸ hexp.valid
  have hu : hasLayout k = true → (w'.tree k).UpToDate := fun hk => hput.tree.symm ▸ hexp.upToDate hk
  obtain ⟨w'', hy⟩ := exists_syncSeeds ht hexp.family hv hset.table hsources
  refine ⟨w'', hy, ?_⟩
  obtain ⟨f', v', table', ss, s, hf', hv', htable', hss, -, -, hput'⟩ := puts_of_syncSeeds ht hy
  obtain rfl := Except.ok.inj (hexp.family.symm.trans hf')
  obtain rfl := Option.some.inj (hv.symm.trans hv')
  obtain rfl := Option.some.inj (hset.table.symm.trans htable')
  obtain rfl := Except.ok.inj (hsources.symm.trans hss)
  obtain ⟨hvm, rfl⟩ := Tree.mem_of_find? hv
  have hkgs : ∀ g ∈ gs, g.kind = f.group := fun g hg => (exists_of_forall₂ hset.blocks hg).elim fun _ h => h.2.kind
  have hkns : ∀ n ∈ ns, n.kind = f.point := fun n hn => (exists_of_forall₂ hset.seeds hn).elim fun _ h => h.2.kind
  have hnodup : (shape'.seeds.map SeedSource.uuid).Nodup := by
    refine Shape.nodup_seedSources ?_ hsources
    rw [hput.others .parameters (ne_parameters_of_ofTree hexp.family).symm]
    exact hw.valid _
  have hseeded := seeded_of_sources hlawful (hset.seeds.imp fun _ _ h => ⟨h.kind, h.source⟩) hkgs hnodup
  rw [← hset.children] at hseeded
  have hsync := sync_of_stands hseeded hlawful hnodup (issued_children ht.nodup hvm) (by
    rw [hset.children, (seedNodes_append hlawful hkns hkgs).1]
    exact hset.seeds.imp fun _ _ h => h.source)
  rw [hsync, Tree.setChildren_self ht.nodup hvm, settled_of_upToDate ht hu] at hput'
  intro j
  by_cases hj : j = k
  · rw [hj, hput'.tree]
  · exact hput'.others j hj

/-! ### Views that were made of tables -/

/-- For a view that was made of a table: its reference points can be brought in step if it is linked to a table, and
then stand for the sources of the table, in their order and before the groups, which are as they were; an expansion
makes the same of it then as without that, but for new identifiers; and after an expansion nothing is to be brought
in step. -/
theorem syncSeeds_agrees (hf : Family.ofTree k = .ok f) (h : Reached k f view w) :
    ((∃ w', Gives (syncSeeds k view) w () w') ↔ ∃ n table ss, (w.tree k).find? view = some n ∧
      f.tableOf? n.data = some table ∧ Shape.seedSources (w.tree .parameters) table = .ok ss) ∧
    (∀ w', Gives (syncSeeds k view) w () w' → ∃ n n' table ss, (w.tree k).find? view = some n ∧
      (w'.tree k).find? view = some n' ∧ f.tableOf? n.data = some table ∧
        Shape.seedSources (w.tree .parameters) table = .ok ss ∧ InStep f w.models.uuids ss n n' ∧
          ExpandsAlike k view w.models.uuids (remaining w w') w w') ∧
    ∀ table o e w', Gives (expandView k view table o) w e w' → ∃ w'', Gives (syncSeeds k view) w' () w'' ∧
      ∀ j, w''.tree j = w'.tree j := by
  have hstands := stands_of_reached hf h
  have hw := hstands.proper.valid k
  have linked : ∀ w', Gives (syncSeeds k view) w () w' → ∃ n n' table ss, (w.tree k).find? view = some n ∧
      (w'.tree k).find? view = some n' ∧ Synced k f w w' table ss n n' := by
    intro w' hx
    obtain ⟨table, ss, n, n', rfl, hy⟩ := synced_of_syncSeeds hf hstands hx
    have hfind' := Tree.find?_of_mem hy.validAfter.nodup hy.mem'
    rw [hy.inStep.uuid] at hfind'
    exact ⟨n, n', table, ss, Tree.find?_of_mem hw.nodup hy.mem, hfind', hy⟩
  refine ⟨⟨fun ⟨w', hx⟩ => ?_, fun ⟨n, table, ss, hn, htable, hss⟩ => exists_syncSeeds hw hf hn htable hss⟩,
    fun w' hx => ?_, fun table o e w' hx => syncSeeds_of_expandView hstands.proper hx⟩
  · obtain ⟨n, n', table, ss, hn, -, hy⟩ := linked w' hx
    exact ⟨n, table, ss, hn, hy.linked, hy.sources⟩
  · obtain ⟨n, n', table, ss, hn, hn', hy⟩ := linked w' hx
    refine ⟨n, n', table, ss, hn, hn', hy.linked, hy.sources, hy.inStep, ?_⟩
    obtain ⟨-, rfl⟩ := Tree.mem_of_find? hn
    exact hy.expandsAlike hf hstands

/-- An expanded table of one parameter. -/
def plainTable : Workspace :=
  (outcome (do
    let table ← addChild .parameters (← tree .parameters).root.uuid .table
    let axis ← addChild .parameters table .enumeration
    let _ ← addChild .parameters axis .enumerator
    let row ← addChild .parameters table .group
    let _ ← addChild .parameters row .parameter
    expandTable .parameters table) (initial 0)).2

/-- The table has been dropped on the static map, where its view has been expanded; then it has got another
parameter. -/
def grownTable : Workspace :=
  (outcome (Request.operate .parameters (.addChild ⟨8⟩ .parameter)).run
    (outcome (Request.operate .staticModbus (.expandView ⟨13⟩ none {})).run
      (outcome (drop .staticModbus (Uuid.bytes ⟨5⟩) ⟨3⟩ none) plainTable).2).2).2

theorem reached_grownTable : Reached .staticModbus .staticModbus ⟨13⟩ grownTable := by
  have hall : ∀ k ∈ TreeKind.all, (plainTable.tree k).Valid ∧ (plainTable.tree k).kind = k := by decide +kernel
  obtain ⟨table, htable, hk⟩ : ∃ n, plainTable.dropped? .staticModbus ⟨5⟩ = some n ∧ n.kind = .table := by
    have hany : (plainTable.dropped? .staticModbus ⟨5⟩).any (·.kind == .table) = true := by decide +kernel
    simpa using (Option.any_eq_true ..).1 hany
  have hdrop : Gives (drop .staticModbus (Uuid.bytes ⟨5⟩) ⟨3⟩ none) plainTable ⟨13⟩ _ :=
    gives_of_toOption (by decide +kernel)
  have hproper : plainTable.Proper := ⟨fun k => (hall k k.mem_all).1, fun k => (hall k k.mem_all).2⟩
  exact .request _ (.request _ (.dropped hproper ⟨_, _, _, ⟨5⟩, table, rfl, htable, hk, hdrop⟩) trivial)
    fun h => by cases h

/-- The view gets a reference point for the new parameter, before its block. -/
theorem syncSeeds_agrees_grownTable : ∃ n n' w', Gives (syncSeeds .staticModbus ⟨13⟩) grownTable () w' ∧
    (grownTable.tree .staticModbus).find? ⟨13⟩ = some n ∧ (w'.tree .staticModbus).find? ⟨13⟩ = some n' ∧
      n.children.map Node.kind = [.functionData, .modbusTableRepeatingBlock] ∧
      n'.children.map Node.kind = [.functionData, .functionData, .modbusTableRepeatingBlock] ∧
        ExpandsAlike .staticModbus ⟨13⟩ grownTable.models.uuids (remaining grownTable w') grownTable w' := by
  have hsync : Gives (syncSeeds .staticModbus ⟨13⟩) grownTable () (outcome (syncSeeds .staticModbus ⟨13⟩) grownTable).2 :=
    gives_of_toOption (by decide +kernel)
  obtain ⟨n, n', table, ss, hn, hn', -, -, -, halike⟩ :=
    (syncSeeds_agrees (f := .staticModbus) rfl reached_grownTable).2.1 _ hsync
  have hbefore : ((grownTable.tree .staticModbus).find? ⟨13⟩).map (·.children.map Node.kind) =
      some [.functionData, .modbusTableRepeatingBlock] := by decide +kernel
  have hafter : (((outcome (syncSeeds .staticModbus ⟨13⟩) grownTable).2.tree .staticModbus).find? ⟨13⟩).map
      (·.children.map Node.kind) = some [.functionData, .functionData, .modbusTableRepeatingBlock] := by decide +kernel
  rw [hn] at hbefore
  rw [hn'] at hafter
  exact ⟨n, n', _, hsync, hn, hn', Option.some.inj hbefore, Option.some.inj hafter, halike⟩

end Edit

end DeviceModel
