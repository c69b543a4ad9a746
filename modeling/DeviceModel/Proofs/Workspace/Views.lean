import DeviceModel.Proofs.Expansion.Syncing
import DeviceModel.Proofs.Expansion.ViewTrees
import DeviceModel.Proofs.Workspace.Committing

/-!
Views in a workspace. Main statements: what an expansion of a view that succeeds has done
(`expandView_ok`), and what bringing its reference points in step has (`syncSeeds_ok`).
-/

namespace DeviceModel

namespace Edit

open Workspace ViewExpansion

variable {w w' : Workspace} {k : TreeKind}

theorem gives_logs {β : Type} {level : LogLevel} {kind : Kind} {u : Uuid} {text : β → String} {l : List β}
    {a : PUnit} : Gives (forIn l PUnit.unit fun x _ => do
        logNode level k kind u (text x)
        pure (ForInStep.yield PUnit.unit)) w a w' ↔
      w.withLog (w.log ++ l.map fun x => .ofNode level k kind u (text x)) = w' := by
  induction l generalizing w with
  | nil =>
    rw [List.forIn_nil, gives_pure, List.map_nil, List.append_nil]
    exact and_iff_right rfl
  | cons x l ih =>
    simp only [List.forIn_cons, gives_bind, gives_logNode, gives_pure]
    constructor
    · rintro ⟨_, _, ⟨_, _, rfl, rfl, rfl⟩, h⟩
      simpa [withLog] using ih.1 h
    · intro h
      exact ⟨_, _, ⟨(), _, rfl, rfl, rfl⟩, ih.2 (by simpa [withLog] using h)⟩

theorem linkedTable_ok {view : Uuid} {f : Family} {linked : Option Uuid} :
    Gives (linkedTable k view) w (f, linked) w' ↔
      (Family.ofTree k = .ok f ∧ ∃ n, (w.tree k).find? view = some n ∧ linked = f.tableOf? n.data) ∧
        w = w' := by
  simp only [linkedTable, gives_bind, gives_liftM, gives_tree, gives_pure, Prod.mk.injEq]
  constructor
  · rintro ⟨f', _, ⟨hf, rfl⟩, _, _, ⟨rfl, rfl⟩, n, _, ⟨hn, rfl⟩, ⟨rfl, rfl⟩, rfl⟩
    exact ⟨⟨hf, n, Tree.node_eq_ok.1 hn, rfl⟩, rfl⟩
  · rintro ⟨⟨hf, n, hn, rfl⟩, rfl⟩
    exact ⟨f, w, ⟨hf, rfl⟩, _, w, ⟨rfl, rfl⟩, n, w, ⟨Tree.node_eq_ok.2 hn, rfl⟩, ⟨rfl, rfl⟩, rfl⟩

/-- The supply that a step leaves which draws from what is offered. -/
theorem offered_withSupply {s : Supply} (h : s.taken = w.offered.taken) :
    (w.withSupply s).offered = s := by
  obtain ⟨next, taken⟩ := s
  cases h
  rfl

theorem taken_of_plan {f : Family} {n : Node} {shape : Shape} {z : ZeroBits} {p : ViewExpansion.Plan}
    {s s' : Supply} (h : Gives (ViewExpansion.plan f n shape z) s p s') : s'.taken = s.taken := by
  obtain ⟨-, hrun, -⟩ := gives_plan.1 h
  rw [← taken_seeds f shape.seeds (.ofChildren f n.children) s, hrun]

/-- The change that expanding a view makes to a copy of its tree. -/
def rebuildView (k : TreeKind) (view : Uuid) (f : Family) (shape : Shape) (z : ZeroBits) (t : Tree) :
    Edit (Tree × Expansion) := do
  let n ← liftM (t.node view)
  let plan ← build (ViewExpansion.plan f n shape z)
  for name in ViewExpansion.names shape plan.skipped do
    logNode .warn k n.kind view ("skipping leaves of reference " ++ name ++ ": it has zero bits")
  build (ViewExpansion.build f t n shape plan)

theorem rebuildView_ok {view : Uuid} {f : Family} {shape : Shape} {z : ZeroBits} {t t' : Tree}
    {e : Expansion} (h : Gives (rebuildView k view f shape z t) w (t', e) w') :
    ∃ n p s s', t.find? view = some n ∧ Gives (ViewExpansion.plan f n shape z) w.offered p s ∧
      Gives (ViewExpansion.build f t n shape p) s (t', e) s' ∧ Alike w w' := by
  simp only [rebuildView, gives_bind, gives_liftM, gives_build, gives_logs] at h
  obtain ⟨n, _, ⟨hn, rfl⟩, p, _, ⟨s, hplan, rfl⟩, _, _, rfl, s', hbuild, rfl⟩ := h
  have hoffered := offered_withSupply (w := w) (taken_of_plan hplan)
  exact ⟨n, p, s, s', Tree.node_eq_ok.1 hn, hplan, hoffered ▸ hbuild, fun _ => rfl⟩

/-- What rebuilding a view makes of its tree. -/
structure RebuiltView (k : TreeKind) (view : Uuid) (t t' : Tree) : Prop where
  valid : t'.Valid
  kind : t'.kind = t.kind
  upToDate : hasLayout k = true → t'.UpToDate
  stands : view ∈ t'.uuids

theorem rebuiltView {f : Family} (hf : Family.ofTree k = .ok f) (hw : (w.tree k).Valid) {view : Uuid}
    {shape : Shape} {z : ZeroBits} {t : Tree} {e : Expansion}
    (h : Gives (rebuildView k view f shape z (w.tree k)) w (t, e) w') : RebuiltView k view (w.tree k) t := by
  obtain ⟨n, p, s, s', hn, hplan, hbuild, -⟩ := rebuildView_ok h
  obtain ⟨hnm, rfl⟩ := Tree.mem_of_find? hn
  obtain ⟨gs, s₂, -, hfin⟩ := finished_build hf hw hnm (issued_offered hw.nodup) hplan hbuild
  obtain ⟨⟨hk, -⟩, -⟩ := gives_plan.1 hplan
  have hself := Tree.mem_setChildren_self hw.nodup hnm (p.seeds ++ gs)
  obtain ⟨v, hv, hu, -⟩ := hfin.views.stands { n with children := p.seeds ++ gs } hself hk
  exact ⟨hfin.valid, hfin.kind, hfin.upToDate, Tree.mem_uuids.2 ⟨v, hv, hu⟩⟩

/-- Its layout is up to date already, so the tree is put in place as it is. -/
theorem RebuiltView.puts {view : Uuid} {t t' : Tree} (h : RebuiltView k view t t') {a : Unit}
    (hc : Gives (commit k t') w a w') : w.Puts k t' w' := by
  obtain ⟨s, -, hput⟩ := puts_of_commit hc h.valid
  rwa [settled_of_upToDate h.valid h.upToDate] at hput

/-- A view is still there once it has been expanded. -/
theorem exists_node_of_transaction {f : Family} (hf : Family.ofTree k = .ok f) (hw : (w.tree k).Valid)
    {view : Uuid} {shape : Shape} {z : ZeroBits} {e : Expansion}
    (h : Gives (transaction k view (rebuildView k view f shape z)) w e w') :
    ∃ n, (w'.tree k).node view = .ok n := by
  obtain ⟨t, v, v', b, v₂, hrun, hc, -, ha⟩ := transaction_ok h
  have hre := rebuiltView hf hw hrun
  obtain ⟨n, hn, rfl⟩ := Tree.mem_uuids.1 hre.stands
  refine ⟨n, Tree.node_eq_ok.2 ?_⟩
  rw [ha, (hre.puts hc).tree]
  exact Tree.find?_of_mem hre.valid.nodup hn

theorem exists_rebuildView {view : Uuid} {f : Family} {shape : Shape} {z : ZeroBits} {t t' : Tree}
    {e : Expansion} {n : Node} {p : ViewExpansion.Plan} {s s' : Supply} (hn : t.find? view = some n)
    (hplan : Gives (ViewExpansion.plan f n shape z) w.offered p s)
    (hbuild : Gives (ViewExpansion.build f t n shape p) s (t', e) s') :
    ∃ w', Gives (rebuildView k view f shape z t) w (t', e) w' := by
  have hoffered := offered_withSupply (w := w) (taken_of_plan hplan)
  simp only [rebuildView]
  refine exists_gives_bind (gives_liftM.2 ⟨Tree.node_eq_ok.2 hn, rfl⟩) ?_
  refine exists_gives_bind (gives_build.2 ⟨s, hplan, rfl⟩) ?_
  refine exists_gives_bind (a := PUnit.unit) (gives_logs.2 rfl) ?_
  exact ⟨_, gives_build.2 ⟨s', hoffered.symm ▸ hbuild, rfl⟩⟩

theorem expandView_ok {view : Uuid} {table : Option Uuid} {o : ExpandOptions} {e : Expansion}
    (h : Gives (expandView k view table o) w e w') :
    ∃ f n u shape, Family.ofTree k = .ok f ∧ (w.tree k).find? view = some n ∧
      chooseTable view table (f.tableOf? n.data) = .ok u ∧
        Shape.ofTable (w.tree .parameters) u o.leafOrder = .ok shape ∧
          ∃ t v b, Gives (rebuildView k view f shape o.zeroBits (w.tree k)) w (t, e) v ∧
            ∃ v₁ v₂, Gives (commit k t) v₁ b v₂ ∧ Alike v v₁ ∧ Alike v₂ w' := by
  simp only [expandView, gives_bind, gives_liftM, gives_tree, logExpansion, gives_logNode,
    gives_pure] at h
  obtain ⟨⟨f, linked⟩, _, hlinked, u, _, ⟨hu, rfl⟩, _, _, ⟨rfl, rfl⟩, shape, _, ⟨hshape, rfl⟩, _, v₁,
    htrans, _, _, ⟨rfl, rfl⟩, _, _, ⟨-, rfl⟩, _, _, rfl, rfl, rfl⟩ := h
  obtain ⟨⟨hf, n, hn, rfl⟩, rfl⟩ := linkedTable_ok.1 hlinked
  obtain ⟨t, v, v', b, v₂, hrun, hc, ha, ha'⟩ := transaction_ok htrans
  exact ⟨f, n, u, shape, hf, hn, hu, hshape, t, v, b, hrun, v', v₂, hc, ha, ha'⟩

theorem exists_expandView {view : Uuid} {table : Option Uuid} {o : ExpandOptions} {e : Expansion}
    {f : Family} {n : Node} {u : Uuid} {shape : Shape} {v : Workspace}
    (hf : Family.ofTree k = .ok f) (hn : (w.tree k).find? view = some n)
    (hu : chooseTable view table (f.tableOf? n.data) = .ok u)
    (hshape : Shape.ofTable (w.tree .parameters) u o.leafOrder = .ok shape)
    (hrun : Gives (transaction k view (rebuildView k view f shape o.zeroBits)) w e v) {m : Node}
    (hm : (v.tree k).node view = .ok m) :
    ∃ w', Gives (expandView k view table o) w e w' ∧ Alike v w' := by
  have hlinked : Gives (linkedTable k view) w (f, f.tableOf? n.data) w :=
    linkedTable_ok.2 ⟨⟨hf, n, hn, rfl⟩, rfl⟩
  refine exists_gives_bind_and hlinked (exists_gives_bind_and (gives_liftM.2 ⟨hu, rfl⟩) ?_)
  refine exists_gives_bind_and (gives_tree.2 ⟨rfl, rfl⟩)
    (exists_gives_bind_and (gives_liftM.2 ⟨hshape, rfl⟩) (exists_gives_bind_and hrun ?_))
  refine exists_gives_bind_and (gives_tree.2 ⟨rfl, rfl⟩)
    (exists_gives_bind_and (gives_liftM.2 ⟨hm, rfl⟩) ?_)
  exact exists_gives_bind_and (a := ()) (gives_logNode.2 rfl) ⟨_, gives_pure.2 ⟨rfl, rfl⟩, fun _ => rfl⟩

/-- What an expansion of a view that succeeds has put in place. -/
structure ExpandedView (w : Workspace) (k : TreeKind) (view : Uuid) (o : ExpandOptions) (f : Family)
    (n : Node) (shape : Shape) (e : Expansion) (t : Tree) : Prop where
  family : Family.ofTree k = .ok f
  node : (w.tree k).find? view = some n
  shaped : Shape.ofTable (w.tree .parameters) shape.table o.leafOrder = .ok shape
  built : ∃ p s s', Gives (ViewExpansion.plan f n shape o.zeroBits) w.offered p s ∧
    Gives (ViewExpansion.build f (w.tree k) n shape p) s (t, e) s'
  valid : t.Valid
  upToDate : hasLayout k = true → t.UpToDate

theorem expandedView (hw : (w.tree k).Valid) {view : Uuid} {table : Option Uuid} {o : ExpandOptions}
    {e : Expansion} (h : Gives (expandView k view table o) w e w') :
    ∃ f n shape t, ExpandedView w k view o f n shape e t ∧ w.Puts k t w' := by
  obtain ⟨f, n, u, shape, hf, hn, -, hshape, t, v, b, hrun, v₁, v₂, hc, ha, ha'⟩ := expandView_ok h
  obtain ⟨n', p, s, s', hn', hplan, hbuild, hv⟩ := rebuildView_ok hrun
  obtain rfl := Option.some.inj (hn.symm.trans hn')
  have hre := rebuiltView hf hw hrun
  refine ⟨f, n, shape, t, ⟨hf, hn, ?_, ⟨p, s, s', hplan, hbuild⟩, hre.valid, hre.upToDate⟩, ?_⟩
  · rw [table_ofTable hshape]
    exact hshape
  · exact (hre.puts hc).congr (fun j => (ha j).trans (hv j)) ha'

/-- The view is settled then. -/
theorem ExpandedView.settled {view : Uuid} {o : ExpandOptions} {f : Family} {n : Node} {shape : Shape}
    {e : Expansion} {t : Tree} (h : ExpandedView w k view o f n shape e t) (hw : (w.tree k).Valid) :
    ∃ v, t.find? view = some v ∧ SettledFor (w.tree .parameters) o f v := by
  obtain ⟨hnm, rfl⟩ := Tree.mem_of_find? h.node
  obtain ⟨p, s, s', hplan, hbuild⟩ := h.built
  obtain ⟨v, hv, hu, hset⟩ := settled_build h.family hw hnm h.shaped (issued_offered hw.nodup) hplan hbuild
  exact ⟨v, hu ▸ Tree.find?_of_mem h.valid.nodup hv, hset⟩

theorem kind_of_tableOf? {f : Family} {d : Data} {u : Uuid} (h : f.tableOf? d = some u) :
    d.kind = f.view := by
  unfold Family.tableOf? at h
  split at h
  · assumption
  · cases h

theorem syncSeeds_ok {view : Uuid} {a : Unit} (h : Gives (syncSeeds k view) w a w') :
    ∃ f n table sources, Family.ofTree k = .ok f ∧ (w.tree k).find? view = some n ∧
      f.tableOf? n.data = some table ∧ Shape.seedSources (w.tree .parameters) table = .ok sources ∧
      ∃ v b v', Gives (commit k ((w.tree k).setChildren view
        (sync f n.children sources w.offered).1)) v b v' ∧ Alike w v ∧ Alike v' w' := by
  simp only [syncSeeds, gives_bind] at h
  obtain ⟨⟨f, linked⟩, _, hlinked, h⟩ := h
  obtain ⟨⟨hf, n, hn, rfl⟩, rfl⟩ := linkedTable_ok.1 hlinked
  cases htable : f.tableOf? n.data with
  | none => simp [htable] at h
  | some table =>
    simp only [htable, gives_bind, gives_tree, gives_liftM] at h
    obtain ⟨_, _, ⟨rfl, rfl⟩, sources, _, ⟨hsources, rfl⟩, htrans⟩ := h
    obtain ⟨t, v, v', b, v₂, hrun, hc, ha, ha'⟩ := transaction_ok htrans
    simp only [gives_bind, gives_liftM, gives_fresh, gives_pure, Prod.mk.injEq] at hrun
    obtain ⟨m, _, ⟨hm, rfl⟩, cs, _, ⟨s, hcs, rfl⟩, ⟨rfl, -⟩, rfl⟩ := hrun
    obtain rfl : n = m := Option.some.inj (hn.symm.trans (Tree.node_eq_ok.1 hm))
    have hsync : (sync f n.children sources w.offered).1 = cs := congrArg Prod.fst hcs
    rw [← hsync] at hc
    exact ⟨f, n, table, sources, hf, hn, htable, hsources, v', b, v₂, hc, fun j => (ha j).trans rfl, ha'⟩

/-- The tree that it puts in place. -/
theorem puts_of_syncSeeds (hw : (w.tree k).Valid) {view : Uuid} {a : Unit} (h : Gives (syncSeeds k view) w a w') :
    ∃ f n table sources s, Family.ofTree k = .ok f ∧ (w.tree k).find? view = some n ∧
      f.tableOf? n.data = some table ∧ Shape.seedSources (w.tree .parameters) table = .ok sources ∧
        ((w.tree k).setChildren view (sync f n.children sources w.offered).1).Valid ∧
        s.Issued ((w.tree k).setChildren view (sync f n.children sources w.offered).1).uuids ∧
          w.Puts k (settled k ((w.tree k).setChildren view (sync f n.children sources w.offered).1) s) w' := by
  obtain ⟨f, n, table, sources, hf, hn, htable, hsources, v, b, v', hc, ha, ha'⟩ := syncSeeds_ok h
  obtain ⟨hnm, rfl⟩ := Tree.mem_of_find? hn
  have hvalid := valid_sync (Family.lawful_of_ofTree hf) hw hnm (kind_of_tableOf? htable) sources
    (issued_offered hw.nodup)
  obtain ⟨s, hs, hput⟩ := puts_of_commit hc hvalid
  exact ⟨f, n, table, sources, s, hf, hn, htable, hsources, hvalid, hs, hput.congr ha ha'⟩

/-- It succeeds for every view that is linked to a table. -/
theorem exists_syncSeeds (hw : (w.tree k).Valid) {f : Family} (hf : Family.ofTree k = .ok f) {view : Uuid} {n : Node}
    (hn : (w.tree k).find? view = some n) {table : Uuid} (htable : f.tableOf? n.data = some table)
    {sources : List SeedSource} (hsources : Shape.seedSources (w.tree .parameters) table = .ok sources) :
    ∃ w', Gives (syncSeeds k view) w () w' := by
  obtain ⟨hnm, hu⟩ := Tree.mem_of_find? hn
  have hvalid := valid_sync (Family.lawful_of_ofTree hf) hw hnm (kind_of_tableOf? htable) sources
    (issued_offered hw.nodup)
  rw [hu] at hvalid
  have hlinked : Gives (linkedTable k view) w (f, some table) w := linkedTable_ok.2 ⟨⟨hf, n, hn, htable.symm⟩, rfl⟩
  refine exists_gives_bind hlinked (exists_gives_bind (gives_tree.2 ⟨rfl, rfl⟩) ?_)
  refine exists_gives_bind (gives_liftM.2 ⟨hsources, rfl⟩) ?_
  refine exists_transaction (t := (w.tree k).setChildren view (sync f n.children sources w.offered).1) view
    (gives_bind.2 ⟨n, w, gives_liftM.2 ⟨Tree.node_eq_ok.2 hn, rfl⟩, gives_bind.2 ⟨_, _, gives_fresh.2 ⟨_, rfl, rfl⟩,
      gives_pure.2 ⟨rfl, rfl⟩⟩⟩) fun _ => hvalid

end Edit

end DeviceModel
