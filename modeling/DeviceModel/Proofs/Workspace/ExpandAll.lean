import DeviceModel.Proofs.Expansion.ViewTrees
import DeviceModel.Proofs.Workspace.Views

/-!
Expanding everything there is. Main statement: what has been expanded is expanded again without a change
(`expandAll_again`). Expanding all tables and then all views leaves each of them settled (`Expanded`), and
where that is so an expansion changes no tree.
-/

namespace DeviceModel

namespace Workspace

open Edit ViewExpansion

/-- All tables are settled, and so are all views but those of the trees `ks`. -/
structure Expanded (o : ExpandOptions) (ks : List TreeKind) (w : Workspace) : Prop where
  valid : ∀ k, (w.tree k).Valid
  tables : (w.tree .parameters).Unsettled []
  views : ∀ k f, Family.ofTree k = .ok f →
    k ∈ ks ∨ Unbuilt (w.tree .parameters) o k f [] (w.tree k)

variable {o : ExpandOptions} {ks : List TreeKind} {k : TreeKind} {w w' : Workspace}

theorem Expanded.congr (h : Expanded o ks w) (hw : Alike w w') : Expanded o ks w' where
  valid := fun k => by rw [hw k]; exact h.valid k
  tables := by rw [hw .parameters]; exact h.tables
  views := fun k f hf => by rw [hw .parameters, hw k]; exact h.views k f hf

theorem ne_parameters_of_ofTree {f : Family} (h : Family.ofTree k = .ok f) : k ≠ .parameters := by
  rintro rfl
  cases h

end Workspace

namespace Edit

open Workspace ViewExpansion

variable {o : ExpandOptions} {ks : List TreeKind} {k : TreeKind} {w w' : Workspace}

/-! ### The first time -/

theorem gives_expandTable {u : Uuid} {e : Expansion} : Gives (expandTable .parameters u) w e w' ↔
    ∃ v, Gives (transaction .parameters u fun t => build (t.expandTable u)) w e v ∧
      Gives (logExpansion .parameters .table "table" e) v () w' := by
  simp only [expandTable, gives_bind, gives_unless, gives_pure]
  constructor
  · rintro ⟨-, _, v, htrans, _, _, hlog, rfl, rfl⟩
    exact ⟨v, htrans, hlog⟩
  · rintro ⟨v, htrans, hlog⟩
    exact ⟨fun h => h rfl, e, v, htrans, (), w', hlog, rfl, rfl⟩

theorem expandTable_ok {u : Uuid} {e : Expansion} (hw : (w.tree .parameters).Valid)
    (h : Gives (expandTable .parameters u) w e w') :
    ∃ t s, Gives ((w.tree .parameters).expandTable u) w.offered (t, e) s ∧ w.Puts .parameters t w' := by
  obtain ⟨v, htrans, hlog⟩ := gives_expandTable.1 h
  obtain rfl := gives_logNode.1 hlog
  obtain ⟨t, v', v₁, b, v₂, hrun, hc, ha, ha'⟩ := transaction_ok htrans
  obtain ⟨s, hbuild, rfl⟩ := gives_build.1 hrun
  obtain ⟨-, -, -, -, -, -, -, hvalid⟩ := Tree.expandTable_ok hw (issued_offered hw.nodup) hbuild
  obtain ⟨_, -, hput⟩ := puts_of_commit hc hvalid
  exact ⟨t, s, hbuild, hput.congr ha ha'⟩

/-- Expanding all tables settles them. -/
theorem tables_settled {es : List Expansion} (hw : ∀ k, (w.tree k).Valid)
    (h : Gives ((((w.tree .parameters).ofKind .table).map Node.uuid).mapM (expandTable .parameters)) w es w') :
    ∃ t, w.Puts .parameters t w' ∧ t.Valid ∧ t.Unsettled [] := by
  refine inv_of_mapM (I := fun us v => ∃ t, w.Puts .parameters t v ∧ t.Valid ∧ t.Unsettled us) ?_ h ?_
  · rintro u us v e v' ⟨t, hput, ht, hus⟩ he
    obtain rfl := hput.tree
    obtain ⟨t', s, hrun, hput'⟩ := expandTable_ok ht he
    obtain ⟨ht', -, hus'⟩ := Tree.unsettled_expandTable ht (issued_offered ht.nodup) hrun hus
    exact ⟨t', hput.trans hput', ht', hus'⟩
  · refine ⟨_, ⟨rfl, fun _ _ => rfl⟩, hw _, fun a ha hk => .inl ?_⟩
    exact List.mem_map_of_mem (List.mem_filter.2 ⟨ha, by simp [hk]⟩)

/-- Expanding a view settles it. -/
theorem expandView_settles {f : Family} (hf : Family.ofTree k = .ok f) (hw : (w.tree k).Valid) {u : Uuid}
    {us : List Uuid} {e : Expansion} (h : Gives (expandView k u none o) w e w')
    (hus : Unbuilt (w.tree .parameters) o k f (u :: us) (w.tree k)) :
    ∃ t, w.Puts k t w' ∧ t.Valid ∧ Unbuilt (w.tree .parameters) o k f us t := by
  obtain ⟨f', n, shape, t, hexp, hput⟩ := expandedView hw h
  obtain rfl : f = f' := Except.ok.inj (hf.symm.trans hexp.family)
  obtain ⟨hnm, rfl⟩ := Tree.mem_of_find? hexp.node
  obtain ⟨p, s, s', hplan, hbuild⟩ := hexp.built
  have hus' := unbuilt_build hf hw hnm hexp.shaped (issued_offered hw.nodup) hplan hbuild hus
  exact ⟨t, hput, hexp.valid, hus'⟩

/-- The views of one tree. -/
def expandViews (o : ExpandOptions) (k : TreeKind) : Edit (List Expansion) := do
  let f ← liftM (Family.ofTree k)
  let views := ((← tree k).ofKind f.view).map Node.uuid
  views.mapM fun v => expandView k v none o

theorem gives_expandViews {es : List Expansion} : Gives (expandViews o k) w es w' ↔
    ∃ f, Family.ofTree k = .ok f ∧
      Gives ((((w.tree k).ofKind f.view).map Node.uuid).mapM fun v => expandView k v none o) w es w' := by
  simp only [expandViews, gives_bind, gives_liftM, gives_tree]
  constructor
  · rintro ⟨f, _, ⟨hf, rfl⟩, _, _, ⟨rfl, rfl⟩, h⟩
    exact ⟨f, hf, h⟩
  · rintro ⟨f, hf, h⟩
    exact ⟨f, w, ⟨hf, rfl⟩, _, w, ⟨rfl, rfl⟩, h⟩

/-- Expanding the views of a tree settles them, and leaves those of other trees settled. -/
theorem expanded_expandViews {es : List Expansion} (h : Gives (expandViews o k) w es w')
    (hw : Expanded o (k :: ks) w) : Expanded o ks w' := by
  obtain ⟨f, hf, h⟩ := gives_expandViews.1 h
  obtain ⟨t, hput, ht, hus⟩ : ∃ t, w.Puts k t w' ∧ t.Valid ∧ Unbuilt (w.tree .parameters) o k f [] t := by
    refine inv_of_mapM (I := fun us v => ∃ t, w.Puts k t v ∧ t.Valid ∧
      Unbuilt (w.tree .parameters) o k f us t) ?_ h ?_
    · rintro u us v e v' ⟨t, hput, ht, hus⟩ he
      obtain rfl := hput.tree
      have hparams := hput.others _ (ne_parameters_of_ofTree hf).symm
      rw [← hparams] at hus ⊢
      obtain ⟨t', hput', ht', hus'⟩ := expandView_settles hf ht he hus
      exact ⟨t', hput.trans hput', ht', hus'⟩
    · refine ⟨_, ⟨rfl, fun _ _ => rfl⟩, hw.valid k, fun v hv hk => .inl ?_⟩
      exact List.mem_map_of_mem (List.mem_filter.2 ⟨hv, by simp [hk]⟩)
  have hparams := hput.others _ (ne_parameters_of_ofTree hf).symm
  refine ⟨fun j => ?_, hparams ▸ hw.tables, fun j g hg => ?_⟩
  · by_cases hj : j = k
    · rw [hj, hput.tree]
      exact ht
    · rw [hput.others j hj]
      exact hw.valid j
  · rw [hparams]
    by_cases hj : j = k
    · subst hj
      obtain rfl : f = g := Except.ok.inj (hf.symm.trans hg)
      rw [hput.tree]
      exact .inr hus
    · rw [hput.others j hj]
      exact (hw.views j g hg).imp_left fun h => (List.mem_cons.1 h).resolve_left hj

theorem gives_expandAll {es : List Expansion} : Gives (expandAll o) w es w' ↔
    ∃ first v rest, Gives ((((w.tree .parameters).ofKind .table).map Node.uuid).mapM
        (expandTable .parameters)) w first v ∧
      Gives ([TreeKind.can, .sunSpec, .staticModbus].mapM (expandViews o)) v rest w' ∧
        first ++ rest.flatten = es := by
  have hall : expandAll o = (do
      let tables := ((← tree .parameters).ofKind .table).map Node.uuid
      let first ← tables.mapM (expandTable .parameters)
      let rest ← [TreeKind.can, .sunSpec, .staticModbus].mapM (expandViews o)
      return first ++ rest.flatten) := rfl
  rw [hall]
  simp only [gives_bind, gives_tree, gives_pure]
  constructor
  · rintro ⟨_, _, ⟨rfl, rfl⟩, first, v, hfirst, rest, _, hrest, rfl, rfl⟩
    exact ⟨first, v, rest, hfirst, hrest, rfl⟩
  · rintro ⟨first, v, rest, hfirst, hrest, rfl⟩
    exact ⟨_, w, ⟨rfl, rfl⟩, first, v, hfirst, rest, w', hrest, rfl, rfl⟩

theorem expanded_expandAll {es : List Expansion} (hw : ∀ k, (w.tree k).Valid)
    (h : Gives (expandAll o) w es w') : Expanded o [] w' := by
  obtain ⟨first, v, rest, htables, hviews, -⟩ := gives_expandAll.1 h
  obtain ⟨t, hput, ht, hset⟩ := tables_settled hw htables
  refine inv_of_mapM (I := Expanded o) (fun k ks s b s' hs hb => expanded_expandViews hb hs) hviews ?_
  refine ⟨fun j => ?_, by rw [hput.tree]; exact hset, fun j f hf => .inl ?_⟩
  · by_cases hj : j = .parameters
    · rw [hj, hput.tree]
      exact ht
    · rw [hput.others j hj]
      exact hw j
  · cases j with
    | can | sunSpec | staticModbus => simp
    | parameters | anomalies => cases hf

/-! ### The second time -/

/-- An expansion that has neither added nor taken away a node. -/
def Quiet (e : Expansion) : Prop := e.created = 0 ∧ e.removed = 0

theorem expandTable_again (hw : Expanded o ks w) {u : Uuid}
    (hu : u ∈ ((w.tree .parameters).ofKind .table).map Node.uuid) :
    ∃ e w', Gives (expandTable .parameters u) w e w' ∧ Quiet e ∧ Alike w w' := by
  obtain ⟨a, ha, rfl⟩ := List.mem_map.1 hu
  obtain ⟨ham, hk⟩ := List.mem_filter.1 ha
  have ht := hw.valid .parameters
  obtain ⟨reused, hrun⟩ := Tree.expandTable_settled ht hw.tables ham (eq_of_beq hk) w.offered
  obtain ⟨v, htrans, hv⟩ := exists_transaction_self (k := .parameters) a.uuid
    (f := fun t => build (t.expandTable a.uuid)) ht nofun (gives_build.2 ⟨_, hrun, rfl⟩) fun _ => rfl
  exact ⟨_, _, gives_expandTable.2 ⟨v, htrans, gives_logNode.2 rfl⟩, ⟨rfl, rfl⟩, hv⟩

theorem expandView_again (hw : Expanded o [] w) {f : Family} (hf : Family.ofTree k = .ok f) {u : Uuid}
    (hu : u ∈ ((w.tree k).ofKind f.view).map Node.uuid) :
    ∃ e w', Gives (expandView k u none o) w e w' ∧ Quiet e ∧ Alike w w' := by
  obtain ⟨n, hn, rfl⟩ := List.mem_map.1 hu
  obtain ⟨hnm, hk⟩ := List.mem_filter.1 hn
  have ht := hw.valid k
  obtain ⟨hset, hup⟩ := (((hw.views k f hf).resolve_left List.not_mem_nil) n hnm (eq_of_beq hk)).resolve_left
    List.not_mem_nil
  obtain ⟨shape, p, reused, htable, hshape, hplan, hbuild⟩ :=
    build_again hf ht hnm (hw.valid .parameters) hw.tables hset hup (issued_offered ht.nodup)
  have hfind := Tree.find?_of_mem ht.nodup hnm
  obtain ⟨v, hrun⟩ := exists_rebuildView (k := k) hfind hplan hbuild
  obtain ⟨-, -, -, -, -, -, -, hv⟩ := rebuildView_ok hrun
  obtain ⟨v', htrans, hv'⟩ := exists_transaction_self n.uuid ht hup hrun hv
  have hchoose : chooseTable n.uuid none (f.tableOf? n.data) = .ok shape.table := by rw [htable]; rfl
  have hnode : (v'.tree k).node n.uuid = .ok n := Tree.node_eq_ok.2 (by rw [hv' k]; exact hfind)
  obtain ⟨w', hw', ha⟩ := exists_expandView hf hfind hchoose hshape htrans hnode
  exact ⟨_, w', hw', ⟨rfl, rfl⟩, fun j => (ha j).trans (hv' j)⟩

theorem expandViews_again (hw : Expanded o [] w) {f : Family} (hf : Family.ofTree k = .ok f) :
    ∃ es w', Gives (expandViews o k) w es w' ∧ (∀ e ∈ es, Quiet e) ∧ Alike w w' := by
  have hstep : ∀ u ∈ ((w.tree k).ofKind f.view).map Node.uuid, ∀ v, Alike w v →
      ∃ e v', Gives (expandView k u none o) v e v' ∧ Quiet e ∧ Alike w v' := by
    intro u hu v hv
    rw [← hv k] at hu
    obtain ⟨e, v', he, hq, hv'⟩ := expandView_again (hw.congr hv) hf hu
    exact ⟨e, v', he, hq, fun j => (hv' j).trans (hv j)⟩
  obtain ⟨es, w', hrun, hes, hw'⟩ := exists_mapM hstep fun _ => rfl
  exact ⟨es, w', gives_expandViews.2 ⟨f, hf, hrun⟩, hes, hw'⟩

/-- What has been expanded is expanded again without a change. -/
theorem expandAll_again (hw : Expanded o [] w) :
    ∃ es w', Gives (expandAll o) w es w' ∧ (∀ e ∈ es, Quiet e) ∧ Alike w w' := by
  have htable : ∀ u ∈ ((w.tree .parameters).ofKind .table).map Node.uuid, ∀ v, Alike w v →
      ∃ e v', Gives (expandTable .parameters u) v e v' ∧ Quiet e ∧ Alike w v' := by
    intro u hu v hv
    rw [← hv .parameters] at hu
    obtain ⟨e, v', he, hq, hv'⟩ := expandTable_again (hw.congr hv) hu
    exact ⟨e, v', he, hq, fun j => (hv' j).trans (hv j)⟩
  have hviews : ∀ k ∈ [TreeKind.can, .sunSpec, .staticModbus], ∀ v, Alike w v →
      ∃ es v', Gives (expandViews o k) v es v' ∧ (∀ e ∈ es, Quiet e) ∧ Alike w v' := by
    intro k hk v hv
    obtain ⟨f, hf⟩ : ∃ f, Family.ofTree k = .ok f := by
      simp only [List.mem_cons, List.not_mem_nil, or_false] at hk
      rcases hk with rfl | rfl | rfl <;> exact ⟨_, rfl⟩
    obtain ⟨es, v', hes, hq, hv'⟩ := expandViews_again (hw.congr hv) hf
    exact ⟨es, v', hes, hq, fun j => (hv' j).trans (hv j)⟩
  obtain ⟨first, v, hfirst, hqfirst, hv⟩ := exists_mapM htable fun _ => rfl
  obtain ⟨rest, w', hrest, hqrest, hw'⟩ := exists_mapM hviews hv
  refine ⟨_, w', gives_expandAll.2 ⟨first, v, rest, hfirst, hrest, rfl⟩, fun e he => ?_, hw'⟩
  rcases List.mem_append.1 he with he | he
  · exact hqfirst e he
  · obtain ⟨es, hes, he⟩ := List.mem_flatten.1 he
    exact hqrest es hes e he

/-- Expanding everything a second time adds nothing, takes nothing away and changes no tree. -/
theorem expandAll_idempotent {es : List Expansion} (hw : ∀ k, (w.tree k).Valid)
    (h : Gives (expandAll o) w es w') : ∃ es' w'', Gives (expandAll o) w' es' w'' ∧
      (∀ e ∈ es', e.created = 0 ∧ e.removed = 0) ∧ ∀ k, w''.tree k = w'.tree k :=
  expandAll_again (expanded_expandAll hw h)

/-- A table of one axis and one parameter, and a view of it in the static Modbus map. -/
def oneTable : Edit Unit := do
  let table ← addChild .parameters (← tree .parameters).root.uuid .table
  let axis ← addChild .parameters table .enumeration
  let _ ← addChild .parameters axis .enumerator
  let row ← addChild .parameters table .group
  let _ ← addChild .parameters row .parameter
  let _ ← dropNode .staticModbus table (← tree .staticModbus).root.uuid none

theorem expandAll_idempotent_oneTable : ∃ es w,
    Gives (expandAll {}) (outcome (expandAll {}) (outcome oneTable (initial 0)).2).2 es w ∧
      (∀ e ∈ es, e.created = 0 ∧ e.removed = 0) ∧
        ∀ k, w.tree k = (outcome (expandAll {}) (outcome oneTable (initial 0)).2).2.tree k :=
  have hw : ∀ k, ((outcome oneTable (initial 0)).2.tree k).Valid := by
    intro k
    cases k <;> decide +kernel
  have hrun : Gives (expandAll {}) (outcome oneTable (initial 0)).2
      [⟨⟨5⟩, 3, 0, 0, []⟩, ⟨⟨10⟩, 2, 1, 0, []⟩] (outcome (expandAll {}) (outcome oneTable (initial 0)).2).2 :=
    gives_of_toOption (by decide +kernel)
  expandAll_idempotent hw hrun

end Edit

end DeviceModel
