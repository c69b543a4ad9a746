import DeviceModel.Proofs.Expansion.Products
import DeviceModel.Proofs.Expansion.Shapes
import DeviceModel.Proofs.Expansion.Views

/-!
The reference points that the leaves of a table go by. Main statement: where the elements of arrays stand
for the first one, every leaf that is generated for a table has one of the sources of the table as its
reference (`exists_ofTable`), so no leaf is left without a place where the reference points are ready
(`unready_of_hasReadyPoints`).
-/

namespace DeviceModel

/-- The elements of an array are parameters all, or they are groups and the parameters of the others
stand for parameters of the first. -/
def Node.IsRegular (array : Node) : Prop :=
  ∀ first ∈ array.children.head?,
    if first.kind = .group then
      ∀ e ∈ array.children.tail, e.kind = .arrayGroupElement ∧ ∀ m ∈ e.children,
        ∃ p ∈ first.children, p.kind = .parameter ∧ m.ref? .original = some p.uuid
    else ∀ e ∈ array.children, TableExpansion.isGroup e = false

instance (array : Node) : Decidable array.IsRegular :=
  inferInstanceAs (Decidable (∀ first ∈ array.children.head?, if first.kind = .group then
    ∀ e ∈ array.children.tail, e.kind = .arrayGroupElement ∧ ∀ m ∈ e.children,
      ∃ p ∈ first.children, p.kind = .parameter ∧ m.ref? .original = some p.uuid
    else ∀ e ∈ array.children, TableExpansion.isGroup e = false))

namespace TableExpansion

/-! ### What leaves stand for -/

/-- What an element of an array gives leaves for: itself, or the parameters in it. -/
def elementMembers (e : Node) : List Node := if isGroup e then members e else [e]

/-- What an array or group gives leaves for. -/
def membersOf (s : Node) : List Node :=
  if s.kind = .group then members s else s.children.flatMap elementMembers

/-- The leaves among `ns` and below stand for nodes of `ms`. -/
def LeavesStandFor (ms ns : List Node) : Prop :=
  ∀ x ∈ ns.flatMap Node.all, x.kind = .tableArrayElement → ∃ m ∈ ms, x.ref? .original = some m.uuid

theorem LeavesStandFor.mono {ms ms' ns : List Node} (h : LeavesStandFor ms ns) (hs : ms ⊆ ms') :
    LeavesStandFor ms' ns :=
  fun x hx hk => (h x hx hk).imp fun _ hm => ⟨hs hm.1, hm.2⟩

theorem LeafOf.standsFor {m n : Node} {path : List Uuid} {i : Option Nat} (h : LeafOf m path i n) :
    LeavesStandFor [m] [n] := by
  intro x hx hk
  rw [List.flatMap_singleton, Node.all_eq, h.leaf, List.flatMap_nil, List.mem_singleton] at hx
  exact ⟨m, List.mem_singleton_self m, hx ▸ h.original⟩

theorem GroupOf.standsFor {s n : Node} {path : List Uuid} (h : GroupOf s path n) {ms : List Node}
    (hc : LeavesStandFor ms n.children) : LeavesStandFor ms [n] := by
  intro x hx hk
  rw [List.flatMap_singleton, Node.all_eq] at hx
  rcases List.mem_cons.1 hx with rfl | hx
  · rw [h.kind] at hk
    cases hk
  · exact hc x hx hk

theorem standsFor_of_forall₂ {R : α → Node → Prop} {f : α → List Node} {xs : List α} {ns : List Node}
    (h : List.Forall₂ R xs ns) (hR : ∀ x ∈ xs, ∀ n, R x n → LeavesStandFor (f x) [n]) :
    LeavesStandFor (xs.flatMap f) ns := by
  intro y hy hk
  obtain ⟨n, hn, hyn⟩ := List.mem_flatMap.1 hy
  obtain ⟨x, hx, hxn⟩ := exists_of_forall₂ h.flip hn
  obtain ⟨m, hm, ho⟩ := hR x hx n hxn y (by simpa using hyn) hk
  exact ⟨m, List.mem_flatMap.2 ⟨x, hx, hm⟩, ho⟩

theorem standsFor_leavesOf {n : Node} {path : List Uuid} {i : Option Nat} {cs : List Node}
    (h : LeavesOf n path i cs) : LeavesStandFor (members n) cs := by
  have hall := standsFor_of_forall₂ (f := fun m => [m]) h fun m _ c hc => hc.standsFor
  rwa [List.flatMap_singleton'] at hall

theorem standsFor_elementOf {e c : Node} {i : Nat} {path : List Uuid} (h : ElementOf e i path c) :
    LeavesStandFor (elementMembers e) [c] := by
  rw [elementMembers]
  rw [ElementOf] at h
  split at h
  · rename_i hg
    rw [if_pos hg]
    exact h.1.standsFor (standsFor_leavesOf h.2)
  · rename_i hg
    rw [if_neg hg]
    exact h.standsFor

theorem standsFor_contentsOf {s : Node} {path : List Uuid} {cs : List Node}
    (h : ContentsOf s path cs) : LeavesStandFor (membersOf s) cs := by
  rw [membersOf]
  rw [ContentsOf] at h
  split at h
  · rename_i hk
    rw [if_pos hk]
    exact standsFor_leavesOf h
  · rename_i hk
    rw [if_neg hk]
    have hall := standsFor_of_forall₂ (f := fun x : Node × Nat => elementMembers x.1) h
      fun x _ c hc => standsFor_elementOf hc
    refine hall.mono fun m hm => ?_
    obtain ⟨x, hx, hm⟩ := List.mem_flatMap.1 hm
    exact List.mem_flatMap.2 ⟨x.1, List.fst_mem_of_mem_zipIdx hx, hm⟩

/-- The leaves of a table stand for members of its arrays and groups. -/
theorem standsFor_product {ss : List Node} {axes : List (List Node)} {path : List Uuid}
    {ns : List Node} (h : ProductOf ss axes path ns) : LeavesStandFor (ss.flatMap membersOf) ns := by
  induction axes generalizing path ns with
  | nil => exact standsFor_of_forall₂ h fun s _ n hn => hn.1.standsFor (standsFor_contentsOf hn.2)
  | cons es axes ih =>
    have hall := standsFor_of_forall₂ (f := fun _ => ss.flatMap membersOf) h
      fun e _ n hn => hn.1.standsFor (ih hn.2)
    refine hall.mono fun m hm => ?_
    obtain ⟨_, -, hm⟩ := List.mem_flatMap.1 hm
    exact hm

end TableExpansion

namespace Shape

open TableExpansion

/-! ### References -/

section

variable {t : Tree} (ht : t.Valid)
include ht

theorem referenceOf?_of_child {p n : Node} (hp : p ∈ t.all) (hn : n ∈ p.children) :
    referenceOf? t n.uuid = match p.kind, n.kind with
      | .array, _ => some p.uuid
      | .arrayGroupElement, .arrayParameterElement => n.ref? .original
      | _, _ => some n.uuid := by
  rw [referenceOf?, Tree.find?_of_mem ht.nodup (Tree.mem_all_of_child hp hn),
    Tree.parent?_of_child ht.nodup hp hn]
  rfl

omit ht in
theorem mem_parameters {p : Node} {ns : List Node} (hp : p ∈ ns) (hk : p.kind = .parameter) :
    p.uuid ∈ (parameters ns).map SeedSource.uuid := by
  rw [parameters, List.map_map]
  exact List.mem_map_of_mem (f := SeedSource.uuid ∘ SeedSource.ofNode)
    (List.mem_filter.2 ⟨hp, by simp [hk]⟩)

/-- The parameters of a group are sources themselves. -/
theorem referenceOf?_of_group {g m : Node} (hg : g ∈ t.all) (hk : g.kind = .group)
    (hm : m ∈ TableExpansion.members g) : referenceOf? t m.uuid = some m.uuid ∧
      m.uuid ∈ (parameters g.children).map SeedSource.uuid := by
  obtain ⟨hmg, hmk⟩ := List.mem_filter.1 hm
  have hallows := ht.allowed g hg m hmg
  rw [hk] at hallows
  have hkind : m.kind = .parameter := by
    revert hmk hallows
    cases m.kind <;> decide
  rw [referenceOf?_of_child ht hg hmg, hk]
  exact ⟨rfl, mem_parameters hmg hkind⟩

/-- Members of arrays and groups have references among the sources. -/
theorem referenceOf?_mem {s m : Node} (hs : s ∈ t.all) (hk : s.kind = .array ∨ s.kind = .group)
    (hreg : s.kind = .array → s.IsRegular) (hm : m ∈ membersOf s) :
    ∃ r, referenceOf? t m.uuid = some r ∧ r ∈ (sourcesOf s).map SeedSource.uuid := by
  rcases hk with hk | hk
  · rw [membersOf, if_neg (by simp [hk])] at hm
    obtain ⟨e, he, hm⟩ := List.mem_flatMap.1 hm
    have het := Tree.mem_all_of_child hs he
    obtain ⟨first, rest, hc⟩ := List.exists_cons_of_ne_nil (List.ne_nil_of_mem he)
    have hreg := hreg hk first (by rw [hc]; rfl)
    have hsources : sourcesOf s = if first.kind = .group then parameters first.children else [.ofNode s] := by
      rw [sourcesOf, hk, hc]
      rfl
    rw [hsources]
    split at hreg
    · rename_i hfirst
      rw [if_pos hfirst]
      have hft := Tree.mem_all_of_child hs (hc ▸ List.mem_cons_self .. : first ∈ s.children)
      rw [hc] at he
      rcases List.mem_cons.1 he with rfl | he
      · rw [elementMembers, if_pos (by simp [isGroup, hfirst])] at hm
        exact ⟨_, referenceOf?_of_group ht hft hfirst hm⟩
      · obtain ⟨hek, hmembers⟩ := hreg e (hc ▸ he)
        rw [elementMembers, if_pos (by simp [isGroup, hek])] at hm
        have hme := List.mem_of_mem_filter hm
        obtain ⟨p, hp, hpk, ho⟩ := hmembers m hme
        have hallows := ht.allowed e het m hme
        rw [hek] at hallows
        have hmk : m.kind = .arrayParameterElement := by
          revert hallows
          cases m.kind <;> decide
        rw [referenceOf?_of_child ht het hme, hek, hmk]
        exact ⟨p.uuid, ho, mem_parameters hp hpk⟩
    · rename_i hfirst
      rw [if_neg hfirst]
      rw [elementMembers, if_neg (by simp [hreg e he])] at hm
      obtain rfl := List.mem_singleton.1 hm
      rw [referenceOf?_of_child ht hs he, hk]
      exact ⟨s.uuid, rfl, List.mem_singleton_self _⟩
  · rw [membersOf, if_pos hk] at hm
    rw [sourcesOf, hk]
    exact ⟨_, referenceOf?_of_group ht hs hk hm⟩

/-! ### Leaves -/

/-- The leaves that there are for a table. -/
def tableLeaves (table : Node) : List Node :=
  ((generated table).flatMap Node.all).filter (·.kind == .tableArrayElement)

/-- A table whose leaves stand for members of its arrays and groups, and which has no other leaves. -/
structure Complete (t : Tree) (table : Node) : Prop where
  mem : table ∈ t.all
  kind : table.kind = .table
  regular : ∀ s ∈ table.children, s.kind = .array → s.IsRegular
  stand : LeavesStandFor ((sources table).flatMap membersOf) (generated table)
  alone : ∀ c ∈ kept table, ∀ x ∈ c.all, x.kind ≠ .tableArrayElement

variable {a : Node} (ha : Complete t a)
include ha

omit ht in
theorem leaves_perm : (a.all.filter (·.kind == .tableArrayElement)).Perm (tableLeaves a) := by
  have hself : a.all.filter (·.kind == .tableArrayElement) =
      (a.children.flatMap Node.all).filter (·.kind == .tableArrayElement) := by
    rw [Node.all_eq, List.filter_cons, ha.kind]
    rfl
  have hkept : ((kept a).flatMap Node.all).filter (·.kind == .tableArrayElement) = [] := by
    refine List.filter_eq_nil_iff.2 fun x hx => ?_
    obtain ⟨c, hc, hx⟩ := List.mem_flatMap.1 hx
    simpa using ha.alone c hc x hx
  have hperm := ((Tree.children_perm a).flatMap_right Node.all).filter (·.kind == .tableArrayElement)
  rw [List.flatMap_append, List.filter_append, hkept, List.append_nil] at hperm
  exact hself ▸ hperm.symm

/-- A leaf has a source of its table as its reference. -/
theorem leafOf_ok {n : Node} (hn : n ∈ tableLeaves a) : ∃ leaf, leafOf t n = .ok leaf ∧
    leaf.uuid = n.uuid ∧ leaf.reference ∈ (a.children.flatMap sourcesOf).map SeedSource.uuid := by
  obtain ⟨hx, hxk⟩ := List.mem_filter.1 hn
  obtain ⟨m, hm, ho⟩ := ha.stand n hx (by simpa using hxk)
  obtain ⟨s, hs, hm⟩ := List.mem_flatMap.1 hm
  obtain ⟨hsa, hsk⟩ := List.mem_filter.1 hs
  obtain ⟨r, hr, hrs⟩ := referenceOf?_mem ht (Tree.mem_all_of_child ha.mem hsa) (by simpa using hsk)
    (ha.regular s hsa) hm
  refine ⟨⟨n.uuid, n.name, n.data.path, r⟩, ?_, rfl, ?_⟩
  · rw [leafOf, ho, Option.bind_eq_bind, Option.bind_some, hr]
  · rw [List.map_flatMap]
    exact List.mem_flatMap.2 ⟨s, hsa, hrs⟩

theorem exists_leaves : ∃ ls, leaves t a.uuid = .ok ls ∧
    (ls.map (·.2.uuid)).Perm ((tableLeaves a).map Node.uuid) ∧
    ∀ x ∈ ls, x.2.reference ∈ (a.children.flatMap sourcesOf).map SeedSource.uuid := by
  have hperm := leaves_perm ha
  have hrun : ∀ ns : List Node, (∀ n ∈ ns, n ∈ tableLeaves a) → ∃ ls : List (Node × Leaf),
      (ns.mapM fun n => do return ((t.parent? n.uuid).getD n, ← leafOf t n)) = Except.ok ls ∧
        ls.map (·.2.uuid) = ns.map Node.uuid ∧
        ∀ x ∈ ls, x.2.reference ∈ (a.children.flatMap sourcesOf).map SeedSource.uuid := by
    intro ns hns
    induction ns with
    | nil => exact ⟨[], rfl, rfl, by simp⟩
    | cons n ns ih =>
      obtain ⟨leaf, hleaf, hu, hr⟩ := leafOf_ok ht ha (hns n (by simp))
      obtain ⟨ls, hls, hus, hrs⟩ := ih fun m hm => hns m (by simp [hm])
      refine ⟨((t.parent? n.uuid).getD n, leaf) :: ls, ?_, by simp [hu, hus], ?_⟩
      · rw [List.mapM_cons, hls, hleaf]
        rfl
      · exact List.forall_mem_cons.2 ⟨hr, hrs⟩
  obtain ⟨ls, hls, hus, hrs⟩ := hrun _ fun n hn => hperm.mem_iff.1 hn
  refine ⟨ls, ?_, hus ▸ hperm.map Node.uuid, hrs⟩
  rw [leaves, Tree.descendants, Tree.find?_of_mem ht.nodup ha.mem]
  exact hls

theorem seedSources_of_complete : seedSources t a.uuid = .ok (a.children.flatMap sourcesOf) := by
  rw [seedSources, tableNode, Tree.node_eq_ok.2 (Tree.find?_of_mem ht.nodup ha.mem)]
  simp only [bind, Except.bind, ha.kind]
  rfl

/-- The shape of a table, in whatever order: all leaves of the table, each with a source as its
reference. -/
theorem exists_ofTable (o : LeafOrder) : ∃ shape, ofTable t a.uuid o = .ok shape ∧
    shape.table = a.uuid ∧ shape.seeds = a.children.flatMap sourcesOf ∧
      ((shape.groups.flatMap LeafGroup.leaves).map Leaf.uuid).Perm ((tableLeaves a).map Node.uuid) ∧
      ∀ l ∈ shape.groups.flatMap LeafGroup.leaves, l.reference ∈ shape.seeds.map SeedSource.uuid := by
  obtain ⟨ls, hls, hperm, hrefs⟩ := exists_leaves ht ha
  have horder := o.apply_perm a.uuid (fun x : Node × Leaf => x.2.uuid) ls
  have hgroups := leaves_foldl t a.uuid (o.apply a.uuid (·.2.uuid) ls) []
  rw [List.flatMap_nil, List.nil_append] at hgroups
  refine ⟨_, by rw [ofTable, seedSources_of_complete ht ha, hls]; rfl, rfl, rfl, ?_, ?_⟩
  · rw [List.flatMap_map]
    exact ((hgroups.trans (horder.map _)).map _).trans (by rwa [List.map_map])
  · intro l hl
    rw [List.flatMap_map] at hl
    obtain ⟨x, hx, rfl⟩ := List.mem_map.1 ((hgroups.trans (horder.map _)).mem_iff.1 hl)
    exact hrefs x hx

end

/-- A node that is not generated has no leaves below it where no table has. -/
theorem ne_leaf_of_mem {c x : Node} (hc : c.Allowed) (hk : c.kind ≠ .tableArrayElement)
    (hg : c.kind ≠ .tableGroupElement) (hinner : ∀ b ∈ c.all, b.kind = .table → generated b = [])
    (hx : x ∈ c.all) : x.kind ≠ .tableArrayElement := by
  intro hxk
  have parent : ∀ k : Kind, k.allows .tableArrayElement = true → k = .tableGroupElement := by
    intro k; cases k <;> decide
  obtain ⟨p, hp, hxp⟩ := Node.exists_parent hx fun h => hk (h ▸ hxk)
  have hpk := parent p.kind (hxk ▸ hc p hp x hxp)
  obtain ⟨b, hb, hbk, hpb⟩ := (Tree.exists_table hc hp hpk).resolve_left hg
  rw [hinner b hb hbk] at hpb
  cases hpb

/-- What was expanded last is complete, where arrays are regular and no table below has leaves of its
own. -/
theorem complete_expandTable {t t' : Tree} {s s' : Supply} {e : Expansion} (ht : t.Valid)
    (hs : s.Issued t.uuids) {a : Node} (ha : a ∈ t.all) (hk : a.kind = .table)
    (hinner : ∀ b ∈ a.all, b.kind = .table → b = a ∨ generated b = [])
    (hreg : ∀ c ∈ a.children, c.kind = .array → c.IsRegular)
    (h : Gives (t.expandTable a.uuid) s (t', e) s') :
    t'.Valid ∧ ∃ b, t'.find? a.uuid = some b ∧ Complete t' b := by
  obtain ⟨_, _, _, _, _, _, _, hvalid⟩ := Tree.expandTable_ok ht hs h
  obtain ⟨ns, st, hstands, -, -, ht', -⟩ := Tree.expandTable_generates ht ha h
  have hkind := kind_scheme hstands
  have hmem := Tree.mem_setChildren_self ht.nodup ha (kept a ++ ns)
  rw [← ht'] at hmem
  have hchild : ∀ c ∈ kept a ++ ns, c.kind ≠ .tableGroupElement → c ∈ kept a := fun c hc hck =>
    (List.mem_append.1 hc).resolve_right fun h => hck (hkind c h)
  refine ⟨hvalid, { a with children := kept a ++ ns }, Tree.find?_of_mem hvalid.nodup hmem, hmem, hk, ?_, ?_, ?_⟩
  · intro c hc hck
    exact hreg c (List.mem_of_mem_filter (hchild c hc (by simp [hck]))) hck
  · have hsources : sources { a with children := kept a ++ ns } = sources a := by
      rw [sources_eq_filter, kept_expanded hkind, ← sources_eq_filter]
    rw [generated_expanded hkind, hsources]
    exact standsFor_product (product_stands (fun c hc => by simpa [sources] using (List.mem_filter.1 hc).2) hstands)
  · rw [kept_expanded hkind]
    intro c hc x hx
    obtain ⟨hca, hck⟩ := List.mem_filter.1 hc
    have hallows := ht.allowed a ha c hca
    rw [hk] at hallows
    refine ne_leaf_of_mem (ht.allowedRoot.of_mem (Tree.mem_all_of_child ha hca)) ?_ (by simpa using hck) ?_ hx
    · revert hallows
      cases c.kind <;> decide
    · intro b hb hbk
      refine (hinner b (Node.mem_all_trans hb (Node.mem_all_of_child hca)) hbk).resolve_left fun h => ?_
      have hlt := Node.length_all_lt_of_child hca
      have hle := Node.length_all_le hb
      rw [h] at hle
      omega

end Shape

namespace ViewExpansion

/-! ### Ready reference points -/

/-- The reference points of a view can take leaves, and where a source has none a new one can. -/
def HasReadyPoints (f : Family) (view : Node) (sources : List SeedSource) : Prop :=
  (∀ c ∈ view.children, c.kind = f.point → f.ready c.data = true) ∧
    ∀ x ∈ sources, f.ready (f.newSeed x) = true ∨
      ∃ c ∈ view.children, c.kind = f.point ∧ Family.sourceOf? c.data = some x.uuid

theorem ready_put_name {k : TreeKind} {f : Family} (hf : Family.ofTree k = .ok f) (d : Data) (v : Value) :
    f.ready (d.put .name v) = f.ready d := by
  cases k with
  | can =>
    cases hf
    have hbits : (d.put .name v).int .bits = d.int .bits := by
      rw [Data.int, Data.int, Data.int?, Data.int?, Data.get?_put_of_ne (by decide)]
    exact congrArg (fun i : Int => decide (0 < i)) hbits
  | sunSpec | staticModbus => cases hf; rfl
  | parameters | anomalies => cases hf

/-- The points that are built are ready where the known ones are, and for other sources the new ones. -/
theorem ready_of_seeds {k : TreeKind} {f : Family} (hf : Family.ofTree k = .ok f)
    {ss : List SeedSource} (hss : (ss.map SeedSource.uuid).Nodup) {st : State} {s : Supply}
    (hknown : ∀ e ∈ st.seeds, f.ready e.2.2 = true)
    (hnew : ∀ x ∈ ss, f.ready (f.newSeed x) = true ∨ ∃ e ∈ st.seeds, e.1 = x.uuid) :
    ∀ n ∈ (seeds f ss st s).1.1, f.ready n.data = true := by
  induction ss generalizing st s with
  | nil => simp [seeds, pure, StateT.pure]
  | cons x ss ih =>
    rw [List.map_cons, List.nodup_cons] at hss
    have hcons : (seeds f (x :: ss) st s).1.1 = (seed f x st s).1.1 ::
        (seeds f ss (seed f x st s).1.2 (seed f x st s).2).1.1 := rfl
    rw [hcons]
    cases hfind : st.seeds.find? (·.1 == x.uuid) with
    | some e =>
      rw [seed_known hfind]
      refine List.forall_mem_cons.2 ⟨?_, ih hss.2 (fun e he => hknown e (List.mem_of_mem_filter he))
        fun y hy => (hnew y (List.mem_cons_of_mem x hy)).imp_right fun ⟨e, he, hu⟩ => ?_⟩
      · exact (ready_put_name hf _ _).trans (hknown e (List.mem_of_find?_eq_some hfind))
      · have hne : e.1 ≠ x.uuid := fun h => hss.1 (h ▸ hu ▸ List.mem_map_of_mem hy)
        exact ⟨e, List.mem_filter.2 ⟨he, by simpa using hne⟩, hu⟩
    | none =>
      rw [seed_new hfind]
      refine List.forall_mem_cons.2 ⟨?_, ih hss.2 hknown fun y hy => hnew y (List.mem_cons_of_mem x hy)⟩
      refine (hnew x (List.mem_cons_self ..)).resolve_right fun ⟨e, he, hu⟩ => ?_
      simpa [hu] using List.find?_eq_none.1 hfind e he

theorem exists_seedData? {ss : List SeedSource} {ns : List Node} (h : ss.length ≤ ns.length)
    {x : SeedSource} (hx : x ∈ ss) : ∃ n ∈ ns, seedData? ss ns x.uuid = some n.data := by
  cases hf : (ss.zip ns).find? (·.1.uuid == x.uuid) with
  | some p =>
    refine ⟨p.2, (List.of_mem_zip (List.mem_of_find?_eq_some hf)).2, ?_⟩
    rw [seedData?, hf]
    rfl
  | none =>
    rw [← List.map_fst_zip h] at hx
    obtain ⟨p, hp, rfl⟩ := List.mem_map.1 hx
    simpa using List.find?_eq_none.1 hf p hp

/-- No reference is without a point that can take its leaves. -/
theorem unready_of_hasReadyPoints {k : TreeKind} {f : Family} (hf : Family.ofTree k = .ok f)
    {shape : Shape} (hss : (shape.seeds.map SeedSource.uuid).Nodup)
    (hrefs : ∀ l ∈ shape.groups.flatMap LeafGroup.leaves, l.reference ∈ shape.seeds.map SeedSource.uuid)
    {view : Node} (hready : HasReadyPoints f view shape.seeds) (s : Supply) :
    unready f shape (seedData? shape.seeds (seeds f shape.seeds (.ofChildren f view.children) s).1.1) = [] := by
  have hstand := (seeds_stand (Family.lawful_of_ofTree hf) shape.seeds (.ofChildren f view.children) s
    (knowsSeeds_ofChildren view.children)).1
  suffices hall : ∀ n ∈ (seeds f shape.seeds (.ofChildren f view.children) s).1.1,
      f.ready n.data = true by
    refine List.filter_eq_nil_iff.2 fun u hu => ?_
    obtain ⟨l, hl, rfl⟩ := mem_references.1 hu
    obtain ⟨x, hx, hxu⟩ := List.mem_map.1 (hrefs l hl)
    obtain ⟨n, hn, hdata⟩ := exists_seedData? (Nat.le_of_eq hstand.length_eq.symm) hx
    rw [← hxu, hdata]
    simp [hall n hn]
  refine ready_of_seeds hf hss (fun e he => ?_) fun x hx => (hready.2 x hx).imp_right ?_
  · obtain ⟨c, hc, hce⟩ := List.mem_filterMap.1 he
    obtain ⟨hcv, hck⟩ := List.mem_filter.1 hc
    obtain ⟨x, -, rfl⟩ := Option.map_eq_some_iff.1 hce
    exact hready.1 c hcv (by simpa using hck)
  · rintro ⟨c, hc, hck, hcs⟩
    refine ⟨(x.uuid, c.uuid, c.data), List.mem_filterMap.2 ⟨c, List.mem_filter.2 ⟨hc, by simp [hck]⟩, ?_⟩, rfl⟩
    rw [hcs]
    rfl

/-- Where the points are ready, planning is not refused for those that are not. -/
theorem plan_ne_unready {k : TreeKind} {f : Family} (hf : Family.ofTree k = .ok f) {shape : Shape}
    (hss : (shape.seeds.map SeedSource.uuid).Nodup)
    (hrefs : ∀ l ∈ shape.groups.flatMap LeafGroup.leaves, l.reference ∈ shape.seeds.map SeedSource.uuid)
    {view : Node} (hready : HasReadyPoints f view shape.seeds) (z : ZeroBits) (s : Supply)
    (us : List String) : (outcome (plan f view shape z) s).1 ≠ .error (.inconsistent (.unready us)) := by
  have hunready := unready_of_hasReadyPoints hf hss hrefs hready s
  unfold plan
  rw [outcome_bind]
  cases hview : requireView f view shape with
  | error x =>
    change Except.error x ≠ _
    unfold requireView at hview
    split_ifs at hview <;> cases hview <;> simp
  | ok u =>
    change (outcome (_ >>= _) s).1 ≠ _
    rw [outcome_bind]
    change (outcome _ (seeds f shape.seeds (.ofChildren f view.children) s).2).1 ≠ _
    revert hunready
    generalize seeds f shape.seeds (.ofChildren f view.children) s = r
    intro hunready
    simp only
    split
    · change Except.error _ ≠ _
      simp
    · split
      · rename_i hnot
        rw [show (references shape).filter _ = [] from hunready] at hnot
        simp at hnot
      · change Except.ok _ ≠ _
        simp

end ViewExpansion

end DeviceModel
