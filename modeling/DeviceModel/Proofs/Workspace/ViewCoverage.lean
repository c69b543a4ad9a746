import DeviceModel.Proofs.Expansion.Completing
import DeviceModel.Proofs.Expansion.Numbering
import DeviceModel.Proofs.Expansion.Packing
import DeviceModel.Proofs.Workspace.Requests
import DeviceModel.Proofs.Workspace.Views

/-!
What expanding a view does in a workspace. Main statements: the view covers the leaves of its table but for
those that are skipped, what was below it before and still is keeps its identifier, and the counts of the
expansion account for every node (`expandView_covers`). In the CAN tree leaves are packed tightly, so the signals
of a view that has been expanded lie in their frames and do not overlap (`expandView_packs`); and new multiplexers
get identifiers that no other multiplexer of the message has, or the expansion fails (`expandView_identifiers`).
-/

namespace DeviceModel

namespace Edit

open Workspace ViewExpansion

variable {w w' : Workspace} {k : TreeKind}

theorem table_of_chooseTable {view u v : Uuid} {table : Option Uuid}
    (h : chooseTable view table (some u) = .ok v) : v = u := by
  cases table with
  | none => exact (Except.ok.inj h).symm
  | some given =>
    rw [chooseTable] at h
    split at h
    · rename_i hg
      exact (Except.ok.inj h).symm.trans hg
    · cases h

/-- A view of a table is expanded. Its children are one reference point for each source of the table and
then, for one group of leaves after the other, nodes whose points are those for the leaves of the group that
are not skipped; there are such nodes unless all are skipped. -/
theorem expandView_covers (hw : (w.tree k).Valid) (hparams : (w.tree .parameters).Valid) {f : Family}
    (hf : Family.ofTree k = .ok f) {view u : Uuid} {n : Node} (hn : (w.tree k).find? view = some n)
    (hu : f.tableOf? n.data = some u) {o : ExpandOptions} {shape : Shape}
    (hshape : Shape.ofTable (w.tree .parameters) u o.leafOrder = .ok shape)
    (hpaths : (shape.groups.map LeafGroup.path).Nodup)
    (hseeds : ((seedKeys f n.children).map Prod.fst).Nodup)
    (hleaves : ((leafKeys f n.children).map Prod.fst).Nodup) {table : Option Uuid} {e : Expansion}
    (h : Gives (expandView k view table o) w e w') :
    ∃ n', (w'.tree k).find? view = some n' ∧ ExpandsView f shape n.children n'.children e ∧
      (w'.tree k).uuids.Nodup := by
  obtain ⟨f', m, v, shape', hf', hm, hv, hshape', t, w₁, b, hrun, v₁, v₂, hc, ha, ha'⟩ := expandView_ok h
  obtain rfl : f = f' := Except.ok.inj (hf.symm.trans hf')
  obtain rfl : n = m := Option.some.inj (hn.symm.trans hm)
  obtain rfl : v = u := table_of_chooseTable (hu ▸ hv)
  obtain rfl : shape = shape' := Except.ok.inj (hshape.symm.trans hshape')
  obtain ⟨m, p, s, s', hm, hplan, hbuild, -⟩ := rebuildView_ok hrun
  obtain rfl : n = m := Option.some.inj (hn.symm.trans hm)
  obtain ⟨hnm, rfl⟩ := Tree.mem_of_find? hn
  have hre := rebuiltView hf hw hrun
  have htree : w'.tree k = t := (ha' k).trans (hre.puts hc).tree
  obtain ⟨n', hn', hview, hexpands⟩ := expandsView_build hf hw hnm (Shape.proper_of_paths hparams hshape hpaths)
    hseeds hleaves (issued_offered hw.nodup) hplan hbuild
  rw [htree, ← hview]
  exact ⟨n', Tree.find?_of_mem hre.valid.nodup hn', hexpands, hre.valid.nodup⟩

/-- A table of one axis with a group of two parameters is expanded, and a view of it is made whose reference
points are `bits` wide. -/
def viewOfTwo (bits : Int) : Edit (Uuid × Uuid) := do
  let root := (← tree .parameters).root.uuid
  let table ← addChild .parameters root .table
  let axis ← addChild .parameters table .enumeration
  let _ ← addChild .parameters axis .enumerator
  let row ← addChild .parameters table .group
  let _ ← addChild .parameters row .parameter
  let _ ← addChild .parameters row .parameter
  let _ ← expandTable .parameters table
  let message ← addChild .can (← tree .can).root.uuid .multiplexedMessage
  let _ ← addChild .can message .signal
  let view ← drop .can table.bytes message none
  for c in (← tree .can).children view do
    setAttribute .can c.uuid "bits" (.integer bits)
  return (axis, view)

/-- The view is expanded, each leaf to a multiplexer of its own, and then the table with another enumerator. -/
def widenTable : Edit Uuid := do
  let (axis, view) ← viewOfTwo 40
  let _ ← expandView .can view none {}
  let _ ← addChild .parameters axis .enumerator
  let tables := ((← tree .parameters).ofKind .table).map Node.uuid
  let _ ← tables.mapM (expandTable .parameters)
  return view

/-- The view of the widened table is expanded again: six nodes are kept, and four are new. -/
theorem expandView_covers_widenTable : ∃ n n' shape w,
    ((outcome widenTable (initial 0)).2.tree .can).find? ⟨17⟩ = some n ∧
      Gives (expandView .can ⟨17⟩ none {}) (outcome widenTable (initial 0)).2 ⟨⟨17⟩, 4, 6, 0, []⟩ w ∧
        (w.tree .can).find? ⟨17⟩ = some n' ∧
          ExpandsView .can shape n.children n'.children ⟨⟨17⟩, 4, 6, 0, []⟩ ∧ (w.tree .can).uuids.Nodup := by
  have hrun : Gives (expandView .can ⟨17⟩ none {}) (outcome widenTable (initial 0)).2 ⟨⟨17⟩, 4, 6, 0, []⟩
      (outcome (expandView .can ⟨17⟩ none {}) (outcome widenTable (initial 0)).2).2 :=
    gives_of_toOption (by decide +kernel)
  have hview : (((outcome widenTable (initial 0)).2.tree .can).find? ⟨17⟩).any (fun n =>
      decide (Family.can.tableOf? n.data = some ⟨5⟩ ∧ ((seedKeys .can n.children).map Prod.fst).Nodup ∧
        ((leafKeys .can n.children).map Prod.fst).Nodup)) = true := by decide +kernel
  have hshape : (Shape.ofTable ((outcome widenTable (initial 0)).2.tree .parameters) ⟨5⟩ .builtIn).toOption.any
      (fun shape => decide (shape.groups.map LeafGroup.path).Nodup) = true := by decide +kernel
  obtain ⟨n, hn, hkeys⟩ := (Option.any_eq_true _ _).1 hview
  obtain ⟨shape, hshape, hpaths⟩ := exists_ok_of_toOption hshape
  obtain ⟨hu, hseeds, hleaves⟩ := of_decide_eq_true hkeys
  obtain ⟨n', hn', hexpands, hnodup⟩ := expandView_covers (by decide +kernel) (by decide +kernel) rfl hn hu
    hshape (of_decide_eq_true hpaths) hseeds hleaves hrun
  exact ⟨n, n', shape, _, hn, hrun, hn', hexpands, hnodup⟩

/-- A view whose reference points have no width is expanded without any group, though its table has leaves
to be grouped. -/
theorem exists_group_without_nodes : ∃ shape n n' w,
    Shape.ofTable ((outcome (viewOfTwo 0) (initial 0)).2.tree .parameters) ⟨5⟩ .builtIn = .ok shape ∧
      ((∃ g ∈ shape.groups, g.leaves ≠ []) ∧ (shape.groups.map LeafGroup.path).Nodup) ∧
        ((outcome (viewOfTwo 0) (initial 0)).2.tree .can).find? ⟨17⟩ = some n ∧
          (Family.can.tableOf? n.data = some ⟨5⟩ ∧ ((seedKeys .can n.children).map Prod.fst).Nodup ∧
            ((leafKeys .can n.children).map Prod.fst).Nodup) ∧
            Gives (expandView .can ⟨17⟩ none ⟨.skip, .builtIn⟩) (outcome (viewOfTwo 0) (initial 0)).2
              ⟨⟨17⟩, 0, 2, 0, [⟨9⟩, ⟨10⟩]⟩ w ∧
            (w.tree .can).find? ⟨17⟩ = some n' ∧ ∀ c ∈ n'.children, c.kind ≠ .multiplexer := by
  have hshape : (Shape.ofTable ((outcome (viewOfTwo 0) (initial 0)).2.tree .parameters) ⟨5⟩
      .builtIn).toOption.any (fun shape => decide ((∃ g ∈ shape.groups, g.leaves ≠ []) ∧
        (shape.groups.map LeafGroup.path).Nodup)) = true := by decide +kernel
  have hbefore : (((outcome (viewOfTwo 0) (initial 0)).2.tree .can).find? ⟨17⟩).any (fun n =>
      decide (Family.can.tableOf? n.data = some ⟨5⟩ ∧ ((seedKeys .can n.children).map Prod.fst).Nodup ∧
        ((leafKeys .can n.children).map Prod.fst).Nodup)) = true := by decide +kernel
  have hrun : Gives (expandView .can ⟨17⟩ none ⟨.skip, .builtIn⟩) (outcome (viewOfTwo 0) (initial 0)).2
      ⟨⟨17⟩, 0, 2, 0, [⟨9⟩, ⟨10⟩]⟩
      (outcome (expandView .can ⟨17⟩ none ⟨.skip, .builtIn⟩) (outcome (viewOfTwo 0) (initial 0)).2).2 :=
    gives_of_toOption (by decide +kernel)
  have hafter : (((outcome (expandView .can ⟨17⟩ none ⟨.skip, .builtIn⟩)
      (outcome (viewOfTwo 0) (initial 0)).2).2.tree .can).find? ⟨17⟩).any (fun n =>
        decide (∀ c ∈ n.children, c.kind ≠ .multiplexer)) = true := by decide +kernel
  obtain ⟨shape, hshape, hgroups⟩ := exists_ok_of_toOption hshape
  obtain ⟨n, hn, hkeys⟩ := (Option.any_eq_true _ _).1 hbefore
  obtain ⟨n', hn', hkinds⟩ := (Option.any_eq_true _ _).1 hafter
  exact ⟨shape, n, n', _, hshape, of_decide_eq_true hgroups, hn, of_decide_eq_true hkeys, hrun, hn',
    of_decide_eq_true hkinds⟩

end Edit

/-! ### Frames and identifiers -/

namespace Edit

open Workspace ViewExpansion Family

variable {w w' : Workspace}

/-- The multiplexers of a view that has been expanded. -/
theorem framed_of_expandView (hw : (w.tree .can).Valid) {view : Uuid} {table : Option Uuid}
    {o : ExpandOptions} {e : Expansion} (h : Gives (expandView .can view table o) w e w') :
    ∃ v, (w'.tree .can).find? view = some v ∧ ∀ m ∈ v.children, m.kind = .multiplexer → Framed m := by
  obtain ⟨f, n, shape, t, hexp, hput⟩ := expandedView hw h
  obtain ⟨v, hv, shape', ns, gs, -, hset⟩ := hexp.settled hw
  obtain rfl : Family.can = f := Except.ok.inj hexp.family
  refine ⟨v, by rw [hput.tree]; exact hv, fun m hm hk => hset.framed ?_⟩
  rw [hset.children] at hm
  refine (List.mem_append.1 hm).resolve_left fun hns => ?_
  obtain ⟨s, -, hs⟩ := exists_of_forall₂ hset.seeds hns
  rw [hs.kind] at hk
  cases hk

/-- Leaves of 1 to 48 bits are packed into chunks: in their order and none left out, from bit 64 downwards
without a gap, within the bits 16 to 63, and into a new chunk only where the last one cannot take them. So the
signals of every view that is expanded lie in the frames of their multiplexers, and no two overlap. -/
theorem expandView_packs :
    (∀ ds : List Data, (∀ d ∈ ds, 1 ≤ d.int .bits ∧ d.int .bits ≤ 48) →
      Packed (widths ds) ds.length (Family.can.pack ds) ∧ Apart (widths ds) (Family.can.pack ds)) ∧
    ∀ (w w' : Workspace) (view : Uuid) (table : Option Uuid) (o : ExpandOptions) (e : Expansion),
      (w.tree .can).Valid → Gives (expandView .can view table o) w e w' →
        ∃ v, (w'.tree .can).find? view = some v ∧ ∀ m ∈ v.children, m.kind = .multiplexer → Framed m := by
  constructor
  · intro ds hds
    exact packed_packFrames hds
  · intro w w' view table o e hw h
    exact framed_of_expandView hw h

/-- Leaves of 40 and of 9 bits go to two chunks, and so do those of a view of two leaves of 40 bits. -/
theorem expandView_packs_twoLeaves :
    (Packed (widths [Data.of .signal [(.bits, .integer 40)], .of .signal [(.bits, .integer 9)]]) 2
        [[⟨0, 24⟩], [⟨1, 55⟩]] ∧
      Apart (widths [Data.of .signal [(.bits, .integer 40)], .of .signal [(.bits, .integer 9)]])
        [[⟨0, 24⟩], [⟨1, 55⟩]]) ∧
    ∃ v, ((outcome (expandView .can ⟨17⟩ none {}) (outcome (viewOfTwo 40) (initial 0)).2).2.tree .can).find?
      ⟨17⟩ = some v ∧ ∀ m ∈ v.children, m.kind = .multiplexer → Framed m :=
  ⟨expandView_packs.1 _ (by decide +kernel),
    expandView_packs.2 (outcome (viewOfTwo 40) (initial 0)).2 _ ⟨17⟩ none {} ⟨⟨17⟩, 4, 2, 0, []⟩ (by decide +kernel)
      (gives_of_toOption (by decide +kernel))⟩

/-! ### Identifiers -/

/-- The groups that expanding the view builds, marked where they are new; what is left to do then is to give the
new ones their identifiers. -/
def regroup (w : Workspace) (view : Node) (table : Option Uuid) (o : ExpandOptions) :
    Except Error (List (Bool × Node)) := do
  let u ← chooseTable view.uuid table (Family.can.tableOf? view.data)
  let shape ← Shape.ofTable (w.tree .parameters) u o.leafOrder
  let (p, s) := outcome (ViewExpansion.plan .can view shape o.zeroBits) w.offered
  let p ← p
  return (groups .can (seedData? shape.seeds p.seeds) p.skipped shape.groups p.state s).1.1

theorem regroup_ok {view : Node} {table : Option Uuid} {o : ExpandOptions} {gs : List (Bool × Node)}
    (h : regroup w view table o = .ok gs) : ∃ u shape p s,
      chooseTable view.uuid table (Family.can.tableOf? view.data) = .ok u ∧
        Shape.ofTable (w.tree .parameters) u o.leafOrder = .ok shape ∧
          Gives (ViewExpansion.plan .can view shape o.zeroBits) w.offered p s ∧ ∃ st s',
            groups .can (seedData? shape.seeds p.seeds) p.skipped shape.groups p.state s = ((gs, st), s') := by
  simp only [regroup, bind_eq_ok_iff] at h
  obtain ⟨u, hu, shape, hshape, p, hp, hgs⟩ := h
  obtain rfl := Except.ok.inj hgs
  exact ⟨u, shape, p, _, hu, hshape, Prod.ext hp rfl, _, _, rfl⟩

section

variable (hw : (w.tree .can).Valid) {view message : Node} (hmessage : message ∈ (w.tree .can).all)
  (hv : view ∈ message.children)
include hw hmessage hv

theorem renumbers_of_expandView {table : Option Uuid} {o : ExpandOptions} {e : Expansion}
    (h : Gives (expandView .can view.uuid table o) w e w') :
    Renumbers (view.int .multiplexerRangeFirst) (view.int .multiplexerRangeLast) (w.tree .can).uuids view.uuids
      ((w.tree .can).multiplexers message.uuid) ((w'.tree .can).multiplexers message.uuid) ∧
        (((w'.tree .can).multiplexers message.uuid).map Prod.fst).Nodup := by
  have hview := Tree.mem_all_of_child hmessage hv
  obtain ⟨f, n, shape, t, hexp, hput⟩ := expandedView hw h
  obtain rfl : Family.can = f := Except.ok.inj hexp.family
  obtain rfl : view = n := Option.some.inj ((Tree.find?_of_mem hw.nodup hview).symm.trans hexp.node)
  obtain ⟨p, s, s', hplan, hbuild⟩ := hexp.built
  obtain ⟨gs, st, s₁, hrun, hfinish, -⟩ := ViewExpansion.gives_build.1 hbuild
  obtain ⟨⟨hk, -⟩, -⟩ := gives_plan.1 hplan
  have hre := rebuilt Family.lawful_can hw hview (issued_offered hw.nodup) hplan hrun
  have hgs := regrouped Family.lawful_can hplan hrun
  rw [hput.tree]
  exact ⟨renumbers_finish hw hmessage hv hk hre (w.models.uuids_subset .can) hgs (gives_liftM.1 hfinish).1,
    Tree.nodup_multiplexers hexp.valid.nodup message.uuid⟩

theorem fails_of_exhausted {table : Option Uuid} {o : ExpandOptions} {gs : List (Bool × Node)}
    (h : regroup w view table o = .ok gs)
    (hfew : (unused (view.int .multiplexerRangeFirst) (view.int .multiplexerRangeLast)
      (staying ((w.tree .can).multiplexers message.uuid) view gs)).card < (gs.filter (·.1)).length) :
    Fails (expandView .can view.uuid table o) w (.inconsistent .identifiersExhausted) := by
  have hview := Tree.mem_all_of_child hmessage hv
  have hfind := Tree.find?_of_mem hw.nodup hview
  obtain ⟨u, shape, p, s, hu, hshape, hplan, st, s', hrun⟩ := regroup_ok h
  obtain ⟨⟨hk, -⟩, -⟩ := gives_plan.1 hplan
  have hre := rebuilt Family.lawful_can hw hview (issued_offered hw.nodup) hplan hrun
  have hgs := regrouped Family.lawful_can hplan hrun
  have hfinish := finish_exhausted hw hmessage hv hk hre (w.models.uuids_subset .can) hgs hfew
  have hbuild : Fails (ViewExpansion.build .can (w.tree .can) view shape p) s
      (.inconsistent .identifiersExhausted) :=
    fails_bind_of_gives (gives_liftM_state.2 hrun) (fails_bind _ (fails_liftM hfinish))
  have hoffered := offered_withSupply (w := w) (taken_of_plan hplan)
  have hrebuild : Fails (rebuildView .can view.uuid .can shape o.zeroBits (w.tree .can)) w
      (.inconsistent .identifiersExhausted) := by
    refine fails_bind_of_gives (gives_liftM.2 ⟨Tree.node_eq_ok.2 hfind, rfl⟩) ?_
    refine fails_bind_of_gives (gives_build.2 ⟨s, hplan, rfl⟩) ?_
    exact fails_bind_of_gives (a := PUnit.unit) (gives_logs.2 rfl) (fails_build (hoffered.symm ▸ hbuild))
  refine fails_bind_of_gives (linkedTable_ok.2 ⟨⟨rfl, view, hfind, rfl⟩, rfl⟩) ?_
  refine fails_bind_of_gives (gives_liftM.2 ⟨hu, rfl⟩) (fails_bind_of_gives (gives_tree.2 ⟨rfl, rfl⟩) ?_)
  refine fails_bind_of_gives (gives_liftM.2 ⟨hshape, rfl⟩) (fails_bind _ ?_)
  exact fails_bind_of_gives (gives_tree.2 ⟨rfl, rfl⟩) (fails_bind _ hrebuild)

/-- Where a view below a message is expanded, multiplexers that stay keep their identifiers, and each new one
gets an identifier of the range that no other multiplexer below the message has, so identifiers that were
distinct still are. Where fewer are left than there are new multiplexers, the expansion fails and no tree
changes. -/
theorem expandView_identifiers (table : Option Uuid) (o : ExpandOptions) :
    (∀ e w', Gives (expandView .can view.uuid table o) w e w' →
      Renumbers (view.int .multiplexerRangeFirst) (view.int .multiplexerRangeLast) (w.tree .can).uuids view.uuids
        ((w.tree .can).multiplexers message.uuid) ((w'.tree .can).multiplexers message.uuid) ∧
      ((((w.tree .can).multiplexers message.uuid).map Prod.snd).Nodup →
        (((w'.tree .can).multiplexers message.uuid).map Prod.snd).Nodup)) ∧
    ∀ gs, regroup w view table o = .ok gs → (unused (view.int .multiplexerRangeFirst)
        (view.int .multiplexerRangeLast) (staying ((w.tree .can).multiplexers message.uuid) view gs)).card <
          (gs.filter (·.1)).length →
      ∃ w', outcome (expandView .can view.uuid table o) w =
        (.error (.inconsistent .identifiersExhausted), w') ∧ ∀ k, w'.tree k = w.tree k := by
  refine ⟨fun e w' h => ?_, fun gs hgs hfew => ?_⟩
  · obtain ⟨hre, hdistinct⟩ := renumbers_of_expandView hw hmessage hv h
    exact ⟨hre, hre.nodup hdistinct⟩
  · obtain ⟨w', h⟩ := fails_of_exhausted hw hmessage hv hgs hfew
    exact ⟨w', h, (atomic_expandView hw view.uuid table o _ w' h).trees⟩

end

/-- A view of two wide leaves, with identifiers up to `last`. -/
def viewInRange (last : Int) : Workspace :=
  (outcome (do
    let (_, view) ← viewOfTwo 40
    setAttribute .can view "multiplexer_range_last" (.integer last)) (initial 0)).2

/-- The node of the CAN tree with this identifier. -/
def canNode (w : Workspace) (u : Uuid) : Node := ((w.tree .can).find? u).getD default

/-- Two new multiplexers get two identifiers, and the expansion fails where there is only one. -/
theorem expandView_identifiers_twoLeaves :
    (∃ message ∈ ((viewInRange 255).tree .can).all, ∃ view ∈ message.children, ∃ e w',
      Gives (expandView .can view.uuid none {}) (viewInRange 255) e w' ∧
        Renumbers (view.int .multiplexerRangeFirst) (view.int .multiplexerRangeLast)
          ((viewInRange 255).tree .can).uuids view.uuids (((viewInRange 255).tree .can).multiplexers message.uuid)
            ((w'.tree .can).multiplexers message.uuid) ∧
        (w'.tree .can).multiplexers message.uuid = [(⟨20⟩, 1), (⟨22⟩, 2)]) ∧
    ∃ message ∈ ((viewInRange 1).tree .can).all, ∃ view ∈ message.children, ∃ w',
      outcome (expandView .can view.uuid none {}) (viewInRange 1) =
        (.error (.inconsistent .identifiersExhausted), w') ∧ ∀ k, w'.tree k = (viewInRange 1).tree k := by
  constructor
  · have hmessage : canNode (viewInRange 255) ⟨15⟩ ∈ ((viewInRange 255).tree .can).all := by decide +kernel
    have hview : canNode (viewInRange 255) ⟨17⟩ ∈ (canNode (viewInRange 255) ⟨15⟩).children := by decide +kernel
    have hrun : Gives (expandView .can (canNode (viewInRange 255) ⟨17⟩).uuid none {}) (viewInRange 255)
        ⟨⟨17⟩, 4, 2, 0, []⟩ _ := gives_of_toOption (by decide +kernel)
    exact ⟨_, hmessage, _, hview, _, _, hrun,
      ((expandView_identifiers (by decide +kernel) hmessage hview none {}).1 _ _ hrun).1, by decide +kernel⟩
  · have hmessage : canNode (viewInRange 1) ⟨15⟩ ∈ ((viewInRange 1).tree .can).all := by decide +kernel
    have hview : canNode (viewInRange 1) ⟨17⟩ ∈ (canNode (viewInRange 1) ⟨15⟩).children := by decide +kernel
    obtain ⟨gs, hgs, hfew⟩ := exists_ok_of_toOption
      (x := regroup (viewInRange 1) (canNode (viewInRange 1) ⟨17⟩) none {})
      (p := fun gs => decide ((unused ((canNode (viewInRange 1) ⟨17⟩).int .multiplexerRangeFirst)
        ((canNode (viewInRange 1) ⟨17⟩).int .multiplexerRangeLast) (staying (((viewInRange 1).tree .can).multiplexers
          (canNode (viewInRange 1) ⟨15⟩).uuid) (canNode (viewInRange 1) ⟨17⟩) gs)).card < (gs.filter (·.1)).length))
      (by decide +kernel)
    exact ⟨_, hmessage, _, hview, (expandView_identifiers (by decide +kernel) hmessage hview none {}).2 gs hgs
      (of_decide_eq_true hfew)⟩

end Edit

end DeviceModel
