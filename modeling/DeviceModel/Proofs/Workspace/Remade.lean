import DeviceModel.Proofs.Check.Referring
import DeviceModel.Proofs.Expansion.Regrown
import DeviceModel.Proofs.Expansion.Sources
import DeviceModel.Proofs.Workspace.ExpandAll

/-!
What the expansion of everything makes of a project. Main statements: each tree has grown from what it was, and no
identifier is in two of them (`grown_expandAll`); a node has stayed or is a part of what was made (`Remade.part`); and
each of its references led somewhere before or leads somewhere now (`Remade.resolves`).
-/

namespace DeviceModel

namespace Workspace

/-- The trees are what expansion has made of those of `w`, and no identifier is in two of them. -/
structure Grown (w w' : Workspace) : Prop where
  valid : ∀ k, (w'.tree k).Valid
  regrown : ∀ k, (w.tree k).Regrown (w'.tree k)
  apart : w'.models.uuids.Nodup

variable {w v v' : Workspace} {k : TreeKind} {t : Tree}

theorem nodup_of_puts (hv : v.models.uuids.Nodup) {s : Supply} (h : (v.tree k).Regrows v.offered t s)
    (hp : v.Puts k t v') : v'.models.uuids.Nodup := by
  have hissued := (Supply.issued_of_taken hv (List.Subset.refl _) : v.offered.Issued _)
  have hnew := (h.issued _ (hissued.perm (v.models.uuids_perm k).symm)).nodup
  have hothers : (TreeKind.all.filter (· != k)).flatMap (fun j => (v'.models.tree j).uuids) =
      (TreeKind.all.filter (· != k)).flatMap fun j => (v.models.tree j).uuids :=
    List.flatMap_congr fun j hj => congrArg Tree.uuids (hp.others j (by simpa using (List.mem_filter.1 hj).2))
  rw [(v'.models.uuids_perm k).nodup_iff, hothers]
  rwa [show v'.models.tree k = t from hp.tree]

theorem Grown.puts (h : Grown w v) {s : Supply} (hs : (v.tree k).Regrows v.offered t s)
    (ht : (v.tree k).Regrown t) (hvalid : t.Valid) (hp : v.Puts k t v') : Grown w v' where
  valid := fun j => by
    by_cases hj : j = k
    · rw [hj, hp.tree]
      exact hvalid
    · rw [hp.others j hj]
      exact h.valid j
  regrown := fun j => by
    by_cases hj : j = k
    · rw [hj, hp.tree]
      exact (h.regrown k).trans ht
    · rw [hp.others j hj]
      exact h.regrown j
  apart := nodup_of_puts h.apart hs hp

end Workspace

namespace Edit

open Workspace ViewExpansion

variable {w v v' : Workspace} {k : TreeKind} {o : ExpandOptions}

theorem grown_expandTable (hkind : (v.tree .parameters).kind = .parameters) {u : Uuid} {e : Expansion}
    (h : Gives (expandTable .parameters u) v e v') (hw : Grown w v) : Grown w v' := by
  obtain ⟨t, s, hrun, hput⟩ := expandTable_ok (hw.valid .parameters) h
  have ht := hw.valid .parameters
  have hissued := issued_offered ht.nodup
  obtain ⟨-, -, -, -, -, -, -, hvalid⟩ := Tree.expandTable_ok ht hissued hrun
  exact hw.puts (Tree.regrows_expandTable ht hrun) (Tree.regrown_expandTable ht hkind hissued hrun) hvalid hput

theorem grown_expandView (hkind : (v.tree k).kind = k) {u : Uuid} {e : Expansion}
    (h : Gives (expandView k u none o) v e v') (hw : Grown w v) : Grown w v' := by
  have ht := hw.valid k
  obtain ⟨f, n, shape, t, hexp, hput⟩ := expandedView ht h
  obtain ⟨p, s, s', hplan, hbuild⟩ := hexp.built
  have hn := (Tree.mem_of_find? hexp.node).1
  have htaken : (v.tree k).uuids ⊆ v.offered.taken := v.models.uuids_subset k
  exact hw.puts (regrows_build hexp.family ht hn (issued_offered ht.nodup) hplan hbuild)
    (regrown_build hexp.family ht hn htaken hplan hbuild hkind) hexp.valid hput

/-- Expanding all makes the trees grow. -/
theorem grown_expandAll {w' : Workspace} (hvalid : ∀ k, (w.tree k).Valid) (hkind : ∀ k, (w.tree k).kind = k)
    (hapart : w.models.uuids.Nodup) {es : List Expansion} (h : Gives (expandAll o) w es w') : Grown w w' := by
  have kind_of_grown : ∀ {v : Workspace} (k : TreeKind), Grown w v → (v.tree k).kind = k := fun k hv =>
    (Tree.kind_of_core (hv.regrown k).core).trans (hkind k)
  obtain ⟨first, v, rest, htables, hviews, -⟩ := gives_expandAll.1 h
  have hfirst : Grown w v := inv_of_mapM (I := fun _ => Grown w)
    (fun u _ v e v' hv he => grown_expandTable (kind_of_grown _ hv) he hv) htables
    ⟨hvalid, fun k => .refl _, hapart⟩
  refine inv_of_mapM (I := fun _ => Grown w) (fun k _ v es v' hv he => ?_) hviews hfirst
  obtain ⟨f, -, he⟩ := gives_expandViews.1 he
  exact inv_of_mapM (I := fun _ => Grown w)
    (fun u _ v e v' hv he => grown_expandView (kind_of_grown _ hv) he hv) he hv

end Edit

open ViewExpansion

/-- A node stays, or was made for a table, a reference to a block or a view. -/
theorem Tree.stays_or_below {t : Tree} (ht : t.Valid) {n : Node} (hn : n ∈ t.all) : t.Stays n ∨
    (n.kind = .tableGroupElement ∨ n.kind = .tableArrayElement) ∨
    (∃ r ∈ t.all, r.kind = .tableRepeatingBlockReference ∧ n ∈ r.children) ∨
    ∃ v ∈ t.all, v.kind.isTableView = true ∧ ∃ c ∈ v.children, n ∈ c.all := by
  obtain hstays | ⟨p, hp, c, hc, hnc⟩ := t.stays_or_made hn
  · exact .inl hstays
  right
  have hcp := Node.mem_children_of_made hc
  unfold Node.made at hc
  split at hc
  · rename_i hk
    rcases Bool.or_eq_true_iff.1 hk with hk | hk
    · exact .inr (.inr ⟨p, hp.mem, hk, c, hcp, hnc⟩)
    · have hallows := ht.allowed p hp.mem c hcp
      rw [eq_of_beq hk] at hallows
      have hleaf : c.children = [] := List.eq_nil_iff_forall_not_mem.2 fun m hm => by
        have hm := ht.allowed c (mem_all_of_child hp.mem hcp) m hm
        rw [show c.kind = .tableRepeatingBlockReferenceDataPointReference by
          simpa [Kind.allows, Kind.childKinds] using hallows] at hm
        cases hm
      rw [Node.all_eq, hleaf, List.flatMap_nil, List.mem_singleton] at hnc
      exact .inr (.inl ⟨p, hp.mem, eq_of_beq hk, hnc ▸ hcp⟩)
  · have hck : c.kind = .tableGroupElement := by simpa using (List.mem_filter.1 hc).2
    refine .inl ((ht.allowedRoot.of_mem (mem_all_of_child hp.mem hcp)).kind_of_mem
      (P := fun k => k = .tableGroupElement ∨ k = .tableArrayElement) ?_ (.inl hck) hnc)
    rintro k d (rfl | rfl) hd
    · simpa [Kind.allows, Kind.childKinds] using hd
    · cases hd

/-- The points that a reference stands for are in the tree. -/
theorem Tree.exists_of_referencedPoints {t : Tree} {r : Node} {u : Uuid} (h : u ∈ t.referencedPoints r) :
    ∃ p ∈ t.all, p.uuid = u ∧ p.kind = .dataPoint := by
  unfold referencedPoints at h
  split at h
  · obtain ⟨p, hp, rfl⟩ := List.mem_map.1 h
    obtain ⟨hp, hk⟩ := List.mem_filter.1 hp
    exact ⟨p, mem_all_of_mem_children hp, rfl, by simpa using hk⟩
  · cases h

theorem Family.eq_source {k : TreeKind} {f : Family} (hf : ofTree k = .ok f) {d : Data} (hk : d.kind = f.point)
    {g : Field} {u : Uuid} (hu : d.Refers g u) (hg : g.attr = .parameter) : g = .ref .parameter Kind.sources := by
  have h := hu.1
  rw [hg, hk, field?_point hf] at h
  exact (Option.some.inj h).symm

/-- A new reference point refers to its source alone. -/
theorem Family.eq_parameter_of_newSeed {k : TreeKind} {f : Family} (hf : ofTree k = .ok f) {s : SeedSource} {g : Field}
    {u : Uuid} (hu : (f.newSeed s).Refers g u) : g.attr = .parameter := by
  by_contra hg
  have hk : (f.newSeed s).kind = f.point := (lawful_of_ofTree hf).kind_newSeed s
  have hplain : g.attr ∉ [Attr.name, .factor, .parameter, .size] := by
    simp [hg, hu.ne (a := .name) rfl, hu.ne (a := .factor) rfl, hu.ne (a := .size) rfl]
  exact Data.not_refers_initial _ _ _ (hu.congr (e := Data.initial f.point) hk (get?_newSeed hf s hplain))

theorem Data.SameSeed.refers {d e : Data} (h : d.SameSeed e) {g : Field} {u : Uuid} (hu : d.Refers g u) :
    e.Refers g u :=
  hu.congr h.kind (h.get? _ (hu.ne rfl) (hu.ne rfl) (hu.ne rfl))

namespace Workspace

/-- What expansion has made of a project without errors. -/
structure Remade (o : ExpandOptions) (w w' : Workspace) : Prop where
  clean : w.models.Clean
  grown : Grown w w'
  expanded : Expanded o [] w'

/-- A view in step with its table. -/
structure Viewed (o : ExpandOptions) (w : Workspace) (k : TreeKind) (f : Family) (view : Node) (shape : Shape)
    (ns gs : List Node) : Prop where
  family : Family.ofTree k = .ok f
  mem : view ∈ (w.tree k).all
  shaped : Shape.ofTable (w.tree .parameters) shape.table o.leafOrder = .ok shape
  settled : Settled f shape o.zeroBits view ns gs

/-- What a node is in a tree where all has been expanded. -/
inductive Part (o : ExpandOptions) (w : Workspace) (k : TreeKind) (n : Node) : Prop
  | stays (h : (w.tree k).Stays n)
  | element (h : n.kind = .tableGroupElement ∨ n.kind = .tableArrayElement)
  | standIn {r : Node} (hr : r ∈ (w.tree k).all) (hk : r.kind = .tableRepeatingBlockReference) (hn : n ∈ r.children)
  | seed {f : Family} {view : Node} {shape : Shape} {ns gs : List Node} (v : Viewed o w k f view shape ns gs)
      (hn : n ∈ ns)
  | group {f : Family} {view : Node} {shape : Shape} {ns gs : List Node} (v : Viewed o w k f view shape ns gs)
      (hn : n ∈ gs)
  | leaf {f : Family} {view g : Node} {shape : Shape} {ns gs : List Node} (v : Viewed o w k f view shape ns gs)
      (hg : g ∈ gs) (hn : n ∈ g.children)

section

variable {o : ExpandOptions} {w : Workspace} {k : TreeKind} {f : Family} {view : Node} {shape : Shape}
  {ns gs : List Node} (v : Viewed o w k f view shape ns gs)
include v

theorem Viewed.seed_mem {n : Node} (hn : n ∈ ns) : n ∈ view.children :=
  v.settled.children ▸ List.mem_append_left _ hn

theorem Viewed.group_mem {g : Node} (hg : g ∈ gs) : g ∈ view.children :=
  v.settled.children ▸ List.mem_append_right _ hg

theorem Viewed.kind_seed {n : Node} (hn : n ∈ ns) : n.kind = f.point := by
  obtain ⟨s, -, hs⟩ := exists_of_forall₂ v.settled.seeds hn
  exact hs.kind

theorem Viewed.kind_group {g : Node} (hg : g ∈ gs) : g.kind = f.group := by
  obtain ⟨-, -, b, -, hb⟩ := v.settled.exists_block hg
  exact hb.kind

/-- A leaf is what its reference point is, but for what it is called, what it stands for and where it is. -/
theorem Viewed.leafStands {g n : Node} (hg : g ∈ gs) (hn : n ∈ g.children) :
    ∃ l ∈ shape.groups.flatMap LeafGroup.leaves, LeafStands f ns n l :=
  v.settled.exists_leaf v.family hg hn

end

namespace Remade

variable {o : ExpandOptions} {w w' : Workspace} (h : Remade o w w') {k : TreeKind}
include h

theorem kind : (w'.tree k).kind = k := (Tree.kind_of_core (h.grown.regrown k).core).trans (h.clean.kind k)

theorem part {n : Node} (hn : n ∈ (w'.tree k).all) : Part o w' k n := by
  obtain hstays | helement | ⟨r, hr, hk, hc⟩ | ⟨v, hv, hk, c, hc, hnc⟩ := Tree.stays_or_below (h.grown.valid k) hn
  · exact .stays hstays
  · exact .element helement
  · exact .standIn hr hk hc
  · obtain ⟨f, hf, hfv⟩ := Family.exists_of_isTableView hk
    have htree : v.kind.tree = k := (Tree.kind_of_mem (h.grown.valid k) hv).symm.trans h.kind
    rw [htree] at hf
    obtain ⟨shape, ns, gs, hshape, hsettled⟩ :=
      (((h.expanded.views k f hf).resolve_left List.not_mem_nil) v hv hfv).resolve_left List.not_mem_nil |>.1
    have hviewed : Viewed o w' k f v shape ns gs := ⟨hf, hv, hshape, hsettled⟩
    rw [hsettled.children] at hc
    rcases List.mem_append.1 hc with hc | hc
    · obtain ⟨s, -, hs⟩ := exists_of_forall₂ hsettled.seeds hc
      rw [Node.all_eq, hs.children, List.flatMap_nil, List.mem_singleton] at hnc
      exact .seed hviewed (hnc ▸ hc)
    · obtain ⟨-, -, b, -, hb⟩ := hsettled.exists_block hc
      rcases hb.mem_all hnc with rfl | ⟨hn, -⟩
      · exact .group hviewed hc
      · exact .leaf hviewed hc hn

/-- A node of the core was there before. -/
theorem exists_kept {n : Node} (hn : (w'.tree k).Stays n) : ∃ m, Tree.Kept (w.tree k) (w'.tree k) m n :=
  Tree.exists_kept (h.grown.regrown k).core hn

/-- A node of the core is there still. -/
theorem exists_kept_of_stays {m : Node} (hm : (w.tree k).Stays m) : ∃ n, Tree.Kept (w.tree k) (w'.tree k) m n :=
  (Tree.exists_kept (h.grown.regrown k).core.symm hm).imp fun _ h => h.symm

theorem exists_kept_of_kind {m : Node} (hm : m ∈ (w.tree k).all) (hk : m.kind ∉ Kind.madeKinds) :
    ∃ n, Tree.Kept (w.tree k) (w'.tree k) m n :=
  h.exists_kept_of_stays (Tree.stays_of_kind (h.clean.valid k) hm hk)

/-! ### References -/

theorem resolves_of_mem {n : Node} (hn : n ∈ (w'.tree k).all) {f : Field} (hf : f.targets = [] ∨ n.kind ∈ f.targets) :
    Check.Resolves w'.models.lookup f n.uuid :=
  ⟨n.kind, Models.kind?_of_mem h.grown.apart hn, hf⟩

/-- What is of a kind that is not made is found again. -/
theorem resolves_again {f : Field} {u : Uuid} (hu : Check.Resolves w.models.lookup f u) (hne : f.targets ≠ [])
    (hf : ∀ c ∈ f.targets, c ∉ Kind.madeKinds) : Check.Resolves w'.models.lookup f u := by
  obtain ⟨c, hc, htarget⟩ := hu
  replace htarget := htarget.resolve_left hne
  obtain ⟨m, hm, rfl⟩ := Option.map_eq_some_iff.1 hc
  obtain ⟨rfl, j, hmj⟩ := Models.exists_of_node? hm
  obtain ⟨n, hkept⟩ := h.exists_kept_of_kind hmj (hf _ htarget)
  rw [hkept.uuid]
  exact h.resolves_of_mem hkept.after.mem (.inr (hkept.kind ▸ htarget))

/-- A reference point that refers to more than its source was there before. -/
theorem exists_seed {f : Family} {view : Node} {shape : Shape} {ns gs : List Node}
    (v : Viewed o w' k f view shape ns gs) {r : Node} (hr : r ∈ ns) {g : Field} {u : Uuid}
    (hu : r.data.Refers g u) (hg : g.attr ≠ .parameter) : ∃ v₀ ∈ (w.tree k).all, v₀.kind = f.view ∧
      ∃ c ∈ v₀.children, c.kind = f.point ∧ r.data.SameSeed c.data := by
  refine ((h.grown.regrown k).seeds f (by rw [show (w.tree k).kind = k from h.clean.kind k]; exact v.family) view
    v.mem v.settled.kind r (v.seed_mem hr) (v.kind_seed hr)).resolve_left ?_
  rintro ⟨s, hs⟩
  exact hg (Family.eq_parameter_of_newSeed v.family (hs.refers hu))

/-- What a reference point refers to, its source apart, it referred to before. -/
theorem resolves_seed {f : Family} {view : Node} {shape : Shape} {ns gs : List Node}
    (v : Viewed o w' k f view shape ns gs) {r : Node} (hr : r ∈ ns) {g : Field} {u : Uuid}
    (hu : r.data.Refers g u) (hg : g.attr ≠ .parameter) : Check.Resolves w.models.lookup g u := by
  obtain ⟨v₀, hv₀, -, c, hc, -, hs⟩ := h.exists_seed v hr hu hg
  exact h.clean.resolves (Tree.mem_all_of_child hv₀ hc) (hs.refers hu)

/-- What stands for a table names nodes of it, and an access level as before. -/
theorem resolves_element {n : Node} (hn : n ∈ (w'.tree k).all)
    (hk : n.kind = .tableGroupElement ∨ n.kind = .tableArrayElement) {f : Field} {u : Uuid} (hu : n.data.Refers f u) :
    Check.Resolves w'.models.lookup f u := by
  obtain rfl : TreeKind.parameters = k := by
    rw [← h.kind (k := k), Tree.kind_of_mem (h.grown.valid k) hn]
    rcases hk with hk | hk <;> rw [hk] <;> rfl
  obtain ⟨a, ha, hpath, horiginal⟩ := Tree.names_of_kind (h.grown.valid _) h.expanded.tables hn hk
  have hsource : ∀ s ∈ a.all, f.targets = [] ∨ s.kind ∈ f.targets → Check.Resolves w'.models.lookup f s.uuid :=
    fun s hs => h.resolves_of_mem (Node.mem_all_trans hs ha)
  have hpath : f = .path → Check.Resolves w'.models.lookup f u := by
    rintro rfl
    rcases hpath u (Data.mem_path_of_refers hu) with ⟨s, hs, rfl, -⟩ | ⟨s, hs, rfl, -⟩ <;>
      exact hsource s hs (.inl rfl)
  obtain ⟨hk, v, hv, s, hs, rfl, hsk⟩ | ⟨hk, v, hv, s, hs, rfl, hsk⟩ := horiginal
  · have hfields : ∀ f ∈ Kind.tableGroupElement.fields, f.type.base = .uuid → f = .path ∨
        f = .ref .original [.enumerator, .array, .group, .arrayGroupElement] := by decide
    rcases hfields f (hk ▸ hu.mem_fields) hu.2.1 with hf | rfl
    · exact hpath hf
    · obtain rfl := Option.some.inj (hv.symm.trans (hu.ref? (by decide)))
      exact hsource s hs (.inr hsk)
  · have hfields : ∀ f ∈ Kind.tableArrayElement.fields, f.type.base = .uuid → f = .path ∨
        f = .ref .original [.parameter, .arrayParameterElement] ∨ f = .ref .accessLevel [.enumerator] := by decide
    rcases hfields f (hk ▸ hu.mem_fields) hu.2.1 with hf | rfl | rfl
    · exact hpath hf
    · obtain rfl := Option.some.inj (hv.symm.trans (hu.ref? (by decide)))
      exact hsource s hs (.inr hsk)
    · obtain ⟨m, hm, hmk, hlevel⟩ := (h.grown.regrown _).levels u ⟨n, hn, hk, hu.ref? (by decide)⟩
      have hbefore := h.clean.resolves hm (Data.refers_of_ref? (by rw [← Node.kind, hmk]; rfl) rfl hlevel)
      exact h.resolves_again hbefore (by decide) (by decide)

/-- A stand-in names a point of the block. -/
theorem resolves_standIn {r n : Node} (hr : r ∈ (w'.tree k).all) (hk : r.kind = .tableRepeatingBlockReference)
    (hn : n ∈ r.children) {f : Field} {u : Uuid} (hu : n.data.Refers f u) :
    Check.Resolves w'.models.lookup f u := by
  have hnt := Tree.mem_all_of_child hr hn
  have hallows := (h.grown.valid k).allowed r hr n hn
  have hnk : n.kind = .tableRepeatingBlockReferenceDataPointReference := by
    simpa [hk, Kind.allows, Kind.childKinds] using hallows
  have hfields : ∀ f ∈ Kind.tableRepeatingBlockReferenceDataPointReference.fields, f.type.base = .uuid →
      f = .ref .original [.dataPoint] := by decide
  obtain rfl := hfields f (hnk ▸ hu.mem_fields) hu.2.1
  rcases (h.grown.regrown k).laidOut with hsame | hup
  · -- The point is in the same tree, which has not changed.
    have hnw : n ∈ (w.tree k).all := hsame ▸ hnt
    obtain ⟨m, hm, hmk⟩ := h.clean.target hnw (by rw [hnk]; rfl) rfl (List.cons_ne_nil _ _) (hu.ref? (by decide))
    have hmk : m.kind = .dataPoint := List.mem_singleton.1 hmk
    have hfind := Models.find?_of_node? h.clean.valid h.clean.kind hm (k := k) (by
      rw [hmk, ← h.kind (k := k), Tree.kind_of_mem (h.grown.valid k) hr, hk]
      rfl)
    obtain ⟨hmw, rfl⟩ := Tree.mem_of_find? hfind
    exact h.resolves_of_mem (k := k) (hsame ▸ hmw) (.inr (by rw [hmk]; exact List.mem_singleton_self _))
  · have hmem : n.ref? .original ∈ ((w'.tree k).referencedPoints r).map some :=
      hup.inStep r hr hk ▸ List.mem_map_of_mem hn
    rw [show n.ref? .original = some u from hu.ref? (by decide)] at hmem
    obtain ⟨p, hp, rfl, hpk⟩ := Tree.exists_of_referencedPoints (by simpa using hmem)
    exact h.resolves_of_mem hp (.inr (hpk ▸ List.mem_singleton_self _))

/-- A source of a reference point is in its table. -/
theorem resolves_source {f : Family} {view : Node} {shape : Shape} {ns gs : List Node}
    (v : Viewed o w' k f view shape ns gs) {r : Node} (hr : r ∈ ns) {u : Uuid}
    (hu : r.ref? .parameter = some u) :
    Check.Resolves w'.models.lookup (.ref .parameter Kind.sources) u := by
  obtain ⟨s, hs, hstands⟩ := exists_of_forall₂ v.settled.seeds hr
  obtain ⟨m, hm, hms, hmk⟩ := Shape.source_of_shape v.shaped hs
  obtain rfl := Option.some.inj (hu.symm.trans hstands.source)
  rw [← hms]
  exact h.resolves_of_mem hm (.inr (by rcases hmk with hmk | hmk <;> rw [hmk] <;> decide))

/-- The path of a group is that of an element of the table. -/
theorem resolves_path {f : Family} {view g : Node} {shape : Shape} {ns gs : List Node}
    (v : Viewed o w' k f view shape ns gs) (hg : g ∈ gs) {u : Uuid} (hu : u ∈ g.data.path) :
    Check.Resolves w'.models.lookup .path u := by
  obtain ⟨lg, hlg, hpath⟩ := v.settled.exists_group hg
  obtain ⟨q, hq, hqk, hqpath⟩ := Shape.group_of_shape (h.grown.valid _) v.shaped hlg
  obtain ⟨a, ha, hnames⟩ := Tree.names_of_kind (h.grown.valid _) h.expanded.tables hq (.inl hqk)
  rcases hnames.path u (hqpath ▸ hpath ▸ hu) with ⟨s, hs, rfl, -⟩ | ⟨s, hs, rfl, -⟩ <;>
    exact h.resolves_of_mem (Node.mem_all_trans hs ha) (.inl rfl)

/-- What a reference point or a leaf refers to is there, its scale factor apart. -/
theorem resolves_point {f : Family} {view : Node} {shape : Shape} {ns gs : List Node}
    (v : Viewed o w' k f view shape ns gs) {r : Node} (hr : r ∈ ns) {g : Field} {u : Uuid}
    (hu : r.data.Refers g u) (hg : g.attr ≠ .parameter) (hfactor : g.attr ≠ .factorPoint) :
    Check.Resolves w'.models.lookup g u := by
  have hfields : ∀ c ∈ f.point.fields, c.type.base = .uuid → c.attr ≠ .parameter → c.attr ≠ .factorPoint →
      c.targets ≠ [] ∧ ∀ k ∈ c.targets, k ∉ Kind.madeKinds := by
    have hf := v.family
    cases k with
    | can | sunSpec | staticModbus => cases hf; decide
    | parameters | anomalies => cases hf
  obtain ⟨hne, hkinds⟩ := hfields g (v.kind_seed hr ▸ hu.mem_fields) hu.2.1 hg hfactor
  exact h.resolves_again (h.resolves_seed v hr hu hg) hne hkinds

/-- A reference leads somewhere, or to what was there before: then it is one of a node that stays or of a
scale factor. -/
theorem resolves {n : Node} (hn : n ∈ (w'.tree k).all) {f : Field} {u : Uuid} (hu : n.data.Refers f u) :
    Check.Resolves w'.models.lookup f u ∨
      Check.Resolves w.models.lookup f u ∧ ((w'.tree k).Stays n ∨ f.attr = .factorPoint) := by
  cases h.part hn with
  | stays hs =>
    obtain ⟨m, hkept⟩ := h.exists_kept hs
    refine .inr ⟨h.clean.resolves hkept.before.mem (hu.congr hkept.kind.symm ?_), .inl hs⟩
    exact (hkept.get? (Kind.not_given (Attr.isLaidOut_of_refers hu.refers))).symm
  | element hk => exact .inl (h.resolves_element hn hk hu)
  | standIn hr hrk hc => exact .inl (h.resolves_standIn hr hrk hc hu)
  | seed v hc =>
    by_cases hg : f.attr = .parameter
    · obtain rfl := Family.eq_source v.family (v.kind_seed hc) hu hg
      exact .inl (h.resolves_source v hc (hu.ref? (by decide)))
    by_cases hfactor : f.attr = .factorPoint
    · exact .inr ⟨h.resolves_seed v hc hu hg, .inr hfactor⟩
    · exact .inl (h.resolves_point v hc hu hg hfactor)
  | group v hg =>
    obtain rfl := Family.eq_path_of_group v.family f (v.kind_group hg ▸ hu.mem_fields) hu.2.1
    exact .inl (h.resolves_path v hg (Data.mem_path_of_refers hu))
  | leaf v hg hc =>
    obtain ⟨l, hl, hstands⟩ := v.leafStands hg hc
    by_cases hp : f.attr = .parameter
    · obtain rfl := Family.eq_source v.family hstands.kind hu hp
      obtain rfl := Option.some.inj ((hu.ref? (by decide)).symm.trans hstands.source)
      obtain ⟨m, hm, hml, hmk⟩ := Shape.leaf_of_shape v.shaped hl
      rw [← hml]
      exact .inl (h.resolves_of_mem hm (.inr (by rw [hmk]; decide)))
    obtain ⟨r, hr, -, hgeometry⟩ := hstands.geometry
    have hplacing : f.attr ∉ Family.placing := by
      simp [Family.placing, hp, hu.ne (a := .name) rfl, hu.ne (a := .startBit) rfl, hu.ne (a := .offset) rfl,
        hu.ne (a := .blockOffset) rfl]
    have hr' := hu.congr (hstands.kind.trans (v.kind_seed hr).symm) (hgeometry _ hplacing)
    by_cases hfactor : f.attr = .factorPoint
    · exact .inr ⟨h.resolves_seed v hr hr' hp, .inr hfactor⟩
    · exact .inl (h.resolves_point v hr hr' hp hfactor)

end Remade

end Workspace

end DeviceModel
