import DeviceModel.Proofs.Expansion.LeafReferences
import DeviceModel.Proofs.Expansion.Packing
import DeviceModel.Proofs.Expansion.Shapes
import DeviceModel.Proofs.Register.Sums

/-!
What the nodes that expansion makes name: the sources of a table by its groups and leaves (`names_of_settled`),
these by the shape from which views are rebuilt (`source_of_shape`, `group_of_shape`, `leaf_of_shape`), and what
shapes have by the groups and leaves of a view (`Settled.exists_group`, `Settled.exists_leaf`).
-/

namespace DeviceModel

namespace TableExpansion

/-- Groups stand for nodes of which `G` holds and leaves for those of which `L` holds. -/
def Scheme.Over (G L : Uuid → Prop) : Scheme → Prop
  | .nil => True
  | .leaf u _ _ _ rest => L u ∧ rest.Over G L
  | .group u _ inner rest => G u ∧ inner.Over G L ∧ rest.Over G L

/-- A group or a leaf names its original, and its path leads over sources. -/
structure Names (G L : Uuid → Prop) (n : Node) : Prop where
  path : ∀ u ∈ n.data.path, G u ∨ L u
  original : n.kind = .tableGroupElement ∧ (∃ u, n.ref? .original = some u ∧ G u) ∨
    n.kind = .tableArrayElement ∧ ∃ u, n.ref? .original = some u ∧ L u

section

open Scheme

variable {G L : Uuid → Prop}

theorem original_groupData (u : Uuid) (name : String) (path : List Uuid) :
    (groupData u name path).ref? .original = some u :=
  Data.ref?_of_get? (Data.get?_of (f := .ref .original [.enumerator, .array, .group, .arrayGroupElement]) (by simp)
    (by simp; rfl) rfl rfl)

theorem original_leafData (u : Uuid) (name : String) (abbr : Option String) (i : Option Nat) (path : List Uuid)
    (access : Option Uuid) : (leafData u name abbr i path access).ref? .original = some u :=
  Data.ref?_of_get? (Data.get?_of (f := .ref .original [.parameter, .arrayParameterElement]) (by simp) (by simp; rfl)
    rfl rfl)

theorem names_of_stands {sch : Scheme} {path : List Uuid} {ns : List Node} (h : Stands sch path ns)
    (hs : sch.Over G L) (hp : ∀ u ∈ path, G u ∨ L u) : ∀ n ∈ ns.flatMap Node.all, Names G L n := by
  have hstep : ∀ {path : List Uuid} {u : Uuid}, (∀ v ∈ path, G v ∨ L v) → G u ∨ L u → ∀ v ∈ path ++ [u], G v ∨ L v :=
    fun hp hu v hv => (List.mem_append.1 hv).elim (hp v) fun h => List.mem_singleton.1 h ▸ hu
  induction h with
  | nil => exact nofun
  | @leaf u v name abbr i rest path access ns _ ih =>
    intro n hn
    rw [List.flatMap_cons, List.mem_append] at hn
    rcases hn with hn | hn
    · obtain rfl := List.mem_singleton.1 hn
      refine ⟨?_, .inr ⟨kind_leafData .., u, original_leafData .., hs.1⟩⟩
      simp only [path_leafData]
      exact hstep hp (.inr hs.1)
    · exact ih hs.2 hp n hn
  | @group u v name inner rest path cs ns _ _ ihi ihr =>
    intro n hn
    rw [List.flatMap_cons, List.mem_append, Node.mem_all] at hn
    rcases hn with (rfl | ⟨c, hc, hnc⟩) | hn
    · refine ⟨?_, .inl ⟨kind_groupData .., u, original_groupData .., hs.1⟩⟩
      rw [path_groupData]
      exact hstep hp (.inl hs.1)
    · exact ihi hs.2.1 (hstep hp (.inl hs.1)) n (List.mem_flatMap.2 ⟨c, hc, hnc⟩)
    · exact ihr hs.2.2 hp n hn

theorem over_ofLeaves {ms : List Node} (h : ∀ m ∈ ms, L m.uuid) (i : Option Nat) : (ofLeaves i ms).Over G L := by
  induction ms with
  | nil => trivial
  | cons m ms ih => exact ⟨h m (List.mem_cons_self ..), ih fun m hm => h m (List.mem_cons_of_mem _ hm)⟩

theorem over_ofElements {es : List Node}
    (h : ∀ e ∈ es, if isGroup e = true then G e.uuid ∧ ∀ m ∈ members e, L m.uuid else L e.uuid) (i : Nat) :
    (ofElements i es).Over G L := by
  induction es generalizing i with
  | nil => trivial
  | cons e es ih =>
    have he := h e (List.mem_cons_self ..)
    have hes := ih (fun e he => h e (List.mem_cons_of_mem _ he)) (i + 1)
    rw [ofElements]
    split at he
    · rw [if_pos ‹_›]
      exact ⟨he.1, over_ofLeaves he.2 _, hes⟩
    · rw [if_neg ‹_›]
      exact ⟨he, hes⟩

theorem over_ofRow {ss : List Node} (h : ∀ s ∈ ss, G s.uuid ∧ (ofSource s).Over G L) : (ofRow ss).Over G L := by
  induction ss with
  | nil => trivial
  | cons s ss ih =>
    obtain ⟨hg, hs⟩ := h s (List.mem_cons_self ..)
    exact ⟨hg, hs, ih fun s hs => h s (List.mem_cons_of_mem _ hs)⟩

theorem over_ofAxis {inner : Scheme} (hi : inner.Over G L) {es : List Node} (h : ∀ e ∈ es, G e.uuid) :
    (ofAxis inner es).Over G L := by
  induction es with
  | nil => trivial
  | cons e es ih => exact ⟨h e (List.mem_cons_self ..), hi, ih fun e he => h e (List.mem_cons_of_mem _ he)⟩

theorem over_ofLevels {ss : List Node} (hs : (ofRow ss).Over G L) {axes : List (List Node)}
    (h : ∀ es ∈ axes, ∀ e ∈ es, G e.uuid) : (ofLevels ss axes).Over G L := by
  induction axes with
  | nil => exact hs
  | cons es axes ih =>
    exact over_ofAxis (ih fun es hes => h es (List.mem_cons_of_mem _ hes)) (h es (List.mem_cons_self ..))

end

/-- A node that a generated group may stand for. -/
def GroupSource (a : Node) (u : Uuid) : Prop :=
  ∃ s ∈ a.all, s.uuid = u ∧ s.kind ∈ [Kind.enumerator, .array, .group, .arrayGroupElement]

/-- A node that a leaf may stand for. -/
def LeafSource (a : Node) (u : Uuid) : Prop :=
  ∃ s ∈ a.all, s.uuid = u ∧ s.kind ∈ [Kind.parameter, .arrayParameterElement]

theorem leafSource_of_member {a s m : Node} (hs : s ∈ a.all) (hm : m ∈ members s) : LeafSource a m.uuid := by
  obtain ⟨hc, hk⟩ := List.mem_filter.1 hm
  exact ⟨m, Node.mem_all_trans (Node.mem_all_of_child hc) hs, rfl, by simpa using hk⟩

theorem over_ofSource {a s : Node} (ha : a.Allowed) (hs : s ∈ a.all) :
    (Scheme.ofSource s).Over (GroupSource a) (LeafSource a) := by
  unfold Scheme.ofSource
  split
  · exact over_ofLeaves (fun m hm => leafSource_of_member hs hm) none
  · rename_i hk
    refine over_ofElements (fun e he => ?_) 0
    have hea := Node.mem_all_trans (Node.mem_all_of_child he) hs
    have hallows := ha s hs e he
    rw [hk] at hallows
    split
    · rename_i hg
      refine ⟨⟨e, hea, rfl, ?_⟩, fun m hm => leafSource_of_member hea hm⟩
      simp only [isGroup, Bool.or_eq_true, beq_iff_eq] at hg
      rcases hg with hg | hg <;> simp [hg]
    · rename_i hg
      refine ⟨e, hea, rfl, ?_⟩
      have hkinds : ∀ k : Kind, Kind.array.allows k = true → k ∈ [Kind.parameter, .arrayParameterElement] ∨
          k = .group ∨ k = .arrayGroupElement := by
        intro k; cases k <;> decide
      simp only [isGroup, Bool.or_eq_true, beq_iff_eq] at hg
      exact (hkinds _ hallows).resolve_right hg
  · trivial

theorem over_scheme {a : Node} (ha : a.Allowed) : (scheme a).Over (GroupSource a) (LeafSource a) := by
  refine over_ofLevels (over_ofRow fun s hs => ?_) fun es hes e he => ?_
  · obtain ⟨hc, hk⟩ := List.mem_filter.1 hs
    have hsa := Node.mem_all_of_child hc
    simp only [Bool.or_eq_true, beq_iff_eq] at hk
    exact ⟨⟨s, hsa, rfl, by rcases hk with hk | hk <;> simp [hk]⟩, over_ofSource ha hsa⟩
  · obtain ⟨c, hc, rfl⟩ := List.mem_map.1 hes
    obtain ⟨hc, hk⟩ := List.mem_filter.1 hc
    have hallows := ha c (Node.mem_all_of_child hc) e he
    have hkinds : ∀ k : Kind, Kind.enumeration.allows k = true → k = .enumerator := by intro k; cases k <;> decide
    refine ⟨e, Node.mem_all_trans (Node.mem_all_of_child he) (Node.mem_all_of_child hc), rfl, ?_⟩
    rw [show c.kind = .enumeration by simpa using hk] at hallows
    simp [hkinds _ hallows]

/-- The groups and leaves of a settled table name its sources. -/
theorem names_of_settled {a : Node} (ha : a.Allowed) (h : Settled a) :
    ∀ n ∈ (generated a).flatMap Node.all, Names (GroupSource a) (LeafSource a) n :=
  names_of_stands h.stands (over_scheme ha) nofun

end TableExpansion

namespace Tree

open TableExpansion

variable {t : Tree} (ht : t.Valid) (hset : t.Unsettled [])
include ht hset

/-- A generated node names the sources of the table that it belongs to. -/
theorem names_of_kind {n : Node} (hn : n ∈ t.all) (hk : n.kind = .tableGroupElement ∨ n.kind = .tableArrayElement) :
    ∃ a ∈ t.all, Names (GroupSource a) (LeafSource a) n := by
  have table : ∀ p ∈ t.all, p.kind = .tableGroupElement → ∃ a ∈ t.all, a.kind = .table ∧
      p ∈ (generated a).flatMap Node.all := fun p hp hpk => by
    refine (exists_table ht.allowedRoot hp hpk).resolve_left fun h => ?_
    rw [ht.root] at h
    cases hk : t.kind <;> rw [hk] at h <;> cases h
  rcases hk with hk | hk
  · obtain ⟨a, ha, hak, hna⟩ := table n hn hk
    exact ⟨a, ha, names_of_settled (ht.allowedRoot.of_mem ha) ((hset a ha hak).resolve_left nofun) n hna⟩
  · obtain ⟨p, hp, hpk, hnp⟩ : ∃ p ∈ t.all, p.kind = .tableGroupElement ∧ n ∈ p.children :=
      parent_of_kind ht (by intro k; cases k <;> decide) (by cases t.kind <;> decide) hn hk
    obtain ⟨a, ha, hak, hpa⟩ := table p hp hpk
    obtain ⟨c, hc, hpc⟩ := List.mem_flatMap.1 hpa
    exact ⟨a, ha, names_of_settled (ht.allowedRoot.of_mem ha) ((hset a ha hak).resolve_left nofun) n
      (List.mem_flatMap.2 ⟨c, hc, Node.mem_all_trans (Node.mem_all_of_child hnp) hpc⟩)⟩

end Tree

namespace Shape

variable {params : Tree} {table : Uuid} {o : LeafOrder} {shape : Shape}

theorem source_of_sourcesOf {c : Node} (hc : c ∈ params.all) {s : SeedSource} (hs : s ∈ sourcesOf c) :
    ∃ n ∈ params.all, n.uuid = s.uuid ∧ (n.kind = .parameter ∨ n.kind = .array) := by
  have hparams : ∀ ns : List Node, (∀ n ∈ ns, n ∈ params.all) → s ∈ parameters ns →
      ∃ n ∈ params.all, n.uuid = s.uuid ∧ (n.kind = .parameter ∨ n.kind = .array) := by
    intro ns hns hs
    obtain ⟨n, hn, rfl⟩ := List.mem_map.1 hs
    obtain ⟨hn, hk⟩ := List.mem_filter.1 hn
    exact ⟨n, hns n hn, rfl, .inl (by simpa using hk)⟩
  have hself : c.kind = .array → s ∈ [SeedSource.ofNode c] →
      ∃ n ∈ params.all, n.uuid = s.uuid ∧ (n.kind = .parameter ∨ n.kind = .array) := fun hk hs =>
    ⟨c, hc, by rw [List.mem_singleton.1 hs]; rfl, .inr hk⟩
  unfold sourcesOf at hs
  split at hs
  · rename_i hk
    split at hs
    · rename_i first hfirst
      have hf := Tree.mem_all_of_child hc (List.mem_of_mem_head? hfirst)
      split at hs
      · exact hparams _ (fun n hn => Tree.mem_all_of_child hf hn) hs
      · exact hself hk hs
    · exact hself hk hs
  · exact hparams _ (fun n hn => Tree.mem_all_of_child hc hn) hs
  · cases hs

/-- The sources of a shape are parameters and arrays. -/
theorem source_of_shape (h : ofTable params table o = .ok shape) {s : SeedSource} (hs : s ∈ shape.seeds) :
    ∃ n ∈ params.all, n.uuid = s.uuid ∧ (n.kind = .parameter ∨ n.kind = .array) := by
  obtain ⟨a, ls, ha, -, rfl⟩ := exists_of_ofTable h
  obtain ⟨c, hc, hs⟩ := List.mem_flatMap.1 hs
  exact source_of_sourcesOf (Tree.mem_all_of_child (Tree.mem_of_find? ha).1 hc) hs

/-- The leaves of a shape are those of the table. -/
theorem leaf_of_shape (h : ofTable params table o = .ok shape) {l : Leaf}
    (hl : l ∈ shape.groups.flatMap LeafGroup.leaves) :
    ∃ n ∈ params.all, n.uuid = l.uuid ∧ n.kind = .tableArrayElement := by
  obtain ⟨a, ls, -, hls, rfl⟩ := exists_of_ofTable h
  rw [List.flatMap_map] at hl
  have hmem := (leaves_foldl params table (o.apply table (·.2.uuid) ls) []).mem_iff.1 hl
  rw [List.flatMap_nil, List.nil_append] at hmem
  obtain ⟨x, hx, rfl⟩ := List.mem_map.1 hmem
  obtain ⟨n, hn, hk, -, hu⟩ := node_of_leaves hls ((o.apply_perm table _ ls).mem_iff.1 hx)
  exact ⟨n, hn, hu.symm, hk⟩

/-- The groups of a shape have the paths of the groups of the table. -/
theorem group_of_shape (hp : params.Valid) (h : ofTable params table o = .ok shape) {g : LeafGroup}
    (hg : g ∈ shape.groups) : ∃ n ∈ params.all, n.kind = .tableGroupElement ∧ n.data.path = g.path := by
  obtain ⟨-, parents, us, gs, hparents, -, hgrouped, hgroups⟩ := grouped_ofTable hp h
  rw [hgroups] at hg
  obtain ⟨x, hx, rfl⟩ := List.mem_map.1 hg
  obtain ⟨p, hpm, -, hpath⟩ := hgrouped.path x hx
  exact ⟨p, (hparents p hpm).1, (hparents p hpm).2, hpath.symm⟩

end Shape

/-! ### Parts of a settled view -/

namespace Family

/-- But for the source and the size, a new reference point is as any new node. -/
theorem get?_newSeed {k : TreeKind} {f : Family} (hf : ofTree k = .ok f) (s : SeedSource) {a : Attr}
    (ha : a ∉ [Attr.name, .factor, .parameter, .size]) : (f.newSeed s).get? a = (Data.initial f.point).get? a := by
  simp only [List.mem_cons, List.not_mem_nil, or_false, not_or] at ha
  obtain ⟨hname, hfactor, hparameter, hsize⟩ := ha
  cases k with
  | can => cases hf; exact Data.get?_foldl_put_of_notMem (by simp [hname, hfactor, hparameter])
  | sunSpec | staticModbus => cases hf; exact Data.get?_foldl_put_of_notMem (by simp [hname, hsize, hparameter])
  | parameters | anomalies => cases hf

theorem field?_point {k : TreeKind} {f : Family} (hf : ofTree k = .ok f) :
    f.point.field? .parameter = some (.ref .parameter Kind.sources) := by
  cases k with
  | can | sunSpec | staticModbus => cases hf; rfl
  | parameters | anomalies => cases hf

/-- A group refers by its path alone. -/
theorem eq_path_of_group {k : TreeKind} {f : Family} (hf : ofTree k = .ok f) :
    ∀ g ∈ f.group.fields, g.type.base = .uuid → g = .path := by
  cases k with
  | can | sunSpec | staticModbus => cases hf; decide
  | parameters | anomalies => cases hf

/-- The kinds of views are those of the families. -/
theorem exists_of_isTableView {v : Kind} (h : v.isTableView = true) : ∃ f, ofTree v.tree = .ok f ∧ v = f.view := by
  cases v <;> first | exact ⟨_, rfl, rfl⟩ | cases h

end Family

namespace ViewExpansion

theorem path_blocksFrom {g : LeafGroup} {leaves : List (Leaf × Data)} {i : Nat} {cs : List (List Placed)} {b : Block}
    (h : b ∈ blocksFrom g leaves i cs) : b.path = g.path := by
  induction cs generalizing i with
  | nil => cases h
  | cons c cs ih =>
    rcases List.mem_cons.1 h with rfl | h
    · rfl
    · exact ih h

theorem path_blocksOf {f : Family} {data? : Uuid → Option Data} {skipped : List Uuid} {g : LeafGroup} {b : Block}
    (h : b ∈ blocksOf f data? skipped g) : b.path = g.path := by
  rw [blocksOf] at h
  split at h
  · cases h
  · exact path_blocksFrom h

section

variable {f : Family} {shape : Shape} {z : ZeroBits} {view : Node} {ns gs : List Node}
  (h : Settled f shape z view ns gs)
include h

theorem Settled.exists_block {g : Node} (hg : g ∈ gs) : ∃ lg ∈ shape.groups, ∃ b, b ∈ blocksOf f
    (unplacedOf (seedData? shape.seeds ns)) (unready f shape (seedData? shape.seeds ns)) lg ∧ BlockStands f g b := by
  obtain ⟨b, hb, hstands⟩ := exists_of_forall₂ h.blocks hg
  obtain ⟨lg, hlg, hb⟩ := List.mem_flatMap.1 hb
  exact ⟨lg, hlg, b, hb, hstands⟩

theorem Settled.exists_group {g : Node} (hg : g ∈ gs) : ∃ lg ∈ shape.groups, g.data.path = lg.path := by
  obtain ⟨lg, hlg, b, hb, hstands⟩ := h.exists_block hg
  exact ⟨lg, hlg, hstands.path.trans (path_blocksOf hb)⟩

/-- A leaf stands in a group with the geometry of its reference point. -/
theorem Settled.exists_leaf {k : TreeKind} (hf : Family.ofTree k = .ok f) {g n : Node} (hg : g ∈ gs)
    (hn : n ∈ g.children) : ∃ l ∈ shape.groups.flatMap LeafGroup.leaves, LeafStands f ns n l := by
  obtain ⟨lg, hlg, b, hb, hstands⟩ := h.exists_block hg
  obtain ⟨q, hq, hpoint⟩ := exists_of_forall₂ hstands.points hn
  simp only [blocksOf] at hb
  split at hb
  · cases hb
  · obtain ⟨c, -, hpoints⟩ := mem_blocksFrom hb
    rw [hpoints, pointsOf] at hq
    obtain ⟨p, -, hq⟩ := List.mem_filterMap.1 hq
    obtain ⟨⟨l, d⟩, hx, rfl⟩ := Option.map_eq_some_iff.1 hq
    obtain ⟨hl, hd⟩ := mem_placeable (List.mem_of_getElem? hx)
    obtain ⟨r, hr, rfl⟩ := Option.map_eq_some_iff.1 hd
    exact ⟨l, List.mem_flatMap.2 ⟨lg, hlg, (List.mem_filter.1 hl).1⟩, leafStands_of_point hf h.seeds hpoint hr⟩

end

end ViewExpansion

end DeviceModel
