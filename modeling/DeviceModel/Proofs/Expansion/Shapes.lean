import DeviceModel.Expansion.Shape
import DeviceModel.Proofs.Expansion.TableTrees
import DeviceModel.Proofs.Tree.Trail

/-!
Shapes of settled tables. Main statements: groups of a parameter tree with settled tables have different
paths (`eq_of_path`), so the reference points, groups and leaves of a shape are told apart by what they
are known by (`proper_ofTable`).
-/

namespace DeviceModel

namespace TableExpansion

/-! ### Keys -/

/-- What is generated at the top of a table comes from an array or a group of it, or from an enumerator of
an axis. -/
theorem source_of_mem_keys {table : Node} {k : Uuid} (h : k ∈ (scheme table).keys) :
    (∃ c ∈ table.children, c.uuid = k ∧ (c.kind = .array ∨ c.kind = .group)) ∨
      ∃ c ∈ table.children, c.kind = .enumeration ∧ k ∈ c.children.map Node.uuid := by
  unfold scheme at h
  cases hax : axes table with
  | nil =>
    rw [hax, Scheme.ofLevels, keys_ofRow, List.mem_map] at h
    obtain ⟨c, hc, rfl⟩ := h
    obtain ⟨hm, hk⟩ := List.mem_filter.1 hc
    exact .inl ⟨c, hm, rfl, by simpa using hk⟩
  | cons es rest =>
    rw [hax, Scheme.ofLevels, keys_ofAxis] at h
    obtain ⟨c, hc, rfl⟩ := List.mem_map.1 (hax ▸ List.mem_cons_self .. : es ∈ axes table)
    obtain ⟨hm, hk⟩ := List.mem_filter.1 hc
    exact .inr ⟨c, hm, by simpa using hk, h⟩

end TableExpansion

namespace Tree

open TableExpansion

section

variable {t : Tree} (ht : t.Valid)
include ht

/-- The key at the top tells the table. -/
theorem table_of_key {a b : Node} (ha : a ∈ t.all) (hb : b ∈ t.all) {k : Uuid}
    (hka : k ∈ (scheme a).keys) (hkb : k ∈ (scheme b).keys) : a = b := by
  have henum : ∀ {e c : Node}, e ∈ t.all → e.kind = .enumeration → c ∈ e.children →
      c.kind = .enumerator := by
    intro e c he hek hc
    have h := ht.allowed e he c hc
    rw [hek] at h
    revert h
    cases c.kind <;> decide
  -- A child of a table is no enumerator.
  have mixed : ∀ {a b c d e : Node}, a ∈ t.all → b ∈ t.all → c ∈ a.children →
      (c.kind = .array ∨ c.kind = .group) → d ∈ b.children → d.kind = .enumeration → e ∈ d.children →
        c.uuid ≠ e.uuid := by
    intro a b c d e ha hb hc hck hd hdk he hce
    have hdm := mem_all_of_child hb hd
    rw [Node.eq_of_uuid ht.nodup (mem_all_of_child ha hc) (mem_all_of_child hdm he) hce,
      henum hdm hdk he] at hck
    simp at hck
  rcases source_of_mem_keys hka with ⟨c, hc, rfl, hck⟩ | ⟨c, hc, hck, hkc⟩ <;>
    rcases source_of_mem_keys hkb with ⟨d, hd, hdk, hdkind⟩ | ⟨d, hd, hdk, hkd⟩
  · exact Node.parent_unique ht.nodup ha hb hc hd hdk.symm
  · obtain ⟨e, he, hec⟩ := List.mem_map.1 hkd
    exact absurd hec.symm (mixed ha hb hc hck hd hdk he)
  · obtain ⟨e, he, rfl⟩ := List.mem_map.1 hkc
    exact absurd hdk (mixed hb ha hd hdkind hc hck he)
  · obtain ⟨e, he, rfl⟩ := List.mem_map.1 hkc
    obtain ⟨f, hf, hfe⟩ := List.mem_map.1 hkd
    obtain rfl := Node.parent_unique ht.nodup (mem_all_of_child ha hc) (mem_all_of_child hb hd) he hf
      hfe.symm
    exact Node.parent_unique ht.nodup ha hb hc hd rfl

omit ht in
/-- Groups of expanded tables are below tables only. -/
theorem exists_table {n p : Node} (hn : n.Allowed) (hp : p ∈ n.all) (hk : p.kind = .tableGroupElement) :
    n.kind = .tableGroupElement ∨
      ∃ a ∈ n.all, a.kind = .table ∧ p ∈ (generated a).flatMap Node.all := by
  have parent : ∀ k : Kind, k.allows .tableGroupElement = true → k = .table ∨ k = .tableGroupElement := by
    intro k; cases k <;> decide
  induction n using Node.inductOn with
  | h n ih =>
    rcases Node.mem_all.1 hp with rfl | ⟨c, hc, hp⟩
    · exact .inl hk
    · have hcn := Node.mem_all_of_child hc
      rcases ih c hc (hn.of_mem hcn) hp with hck | ⟨a, ha, h⟩
      · refine (parent _ (hck ▸ hn n n.mem_all_self c hc)).symm.imp_right fun hnk => ?_
        exact ⟨n, n.mem_all_self, hnk, List.mem_flatMap.2 ⟨c, List.mem_filter.2 ⟨hc, by simp [hck]⟩, hp⟩⟩
      · exact .inr ⟨a, Node.mem_all_trans ha hcn, h⟩

variable (hset : Unsettled [] t)
include hset

/-- A group is known by its path. -/
theorem eq_of_path {p q : Node} (hp : p ∈ t.all) (hq : q ∈ t.all) (hpk : p.kind = .tableGroupElement)
    (hqk : q.kind = .tableGroupElement) (h : p.data.path = q.data.path) : p = q := by
  have hroot : t.root.kind ≠ .tableGroupElement := by
    rw [ht.root]
    cases t.kind <;> decide
  obtain ⟨a, ha, hak, hpa⟩ := (exists_table ht.allowedRoot hp hpk).resolve_left hroot
  obtain ⟨b, hb, hbk, hqb⟩ := (exists_table ht.allowedRoot hq hqk).resolve_left hroot
  have hsa := (hset a ha hak).resolve_left List.not_mem_nil
  have hsb := (hset b hb hbk).resolve_left List.not_mem_nil
  obtain ⟨k, hka, hkp⟩ := exists_key hsa.stands (List.mem_map_of_mem (f := (·.data.path)) hpa)
  obtain ⟨l, hlb, hlq⟩ := exists_key hsb.stands (List.mem_map_of_mem (f := (·.data.path)) hqb)
  have hkl := (List.prefix_of_prefix_length_le hkp (h ▸ hlq) (by simp)).eq_of_length (by simp)
  obtain rfl : k = l := by simpa using hkl
  obtain rfl := table_of_key ht ha hb hka hlb
  have hd := nodup_paths hsa.stands (distinct_scheme (Node.nodup_of_mem ha ht.nodup))
  exact List.inj_on_of_nodup_map hd hpa hqb h

end

end Tree

/-! ### Groups of leaves -/

namespace LeafOrder

theorem apply_perm (o : LeafOrder) (table : Uuid) (key : α → Uuid) (items : List α) :
    (o.apply table key items).Perm items := by
  unfold apply
  split
  · exact List.mergeSort_perm _ _
  · exact .refl _

end LeafOrder

namespace Shape

/-- Reference points, groups and leaves are told apart by what they are known by. -/
structure Proper (shape : Shape) : Prop where
  seeds : (shape.seeds.map SeedSource.uuid).Nodup
  paths : (shape.groups.map LeafGroup.path).Nodup
  leaves : ∀ g ∈ shape.groups, (g.leaves.map Leaf.uuid).Nodup

theorem parameters_sublist (ns : List Node) :
    ((parameters ns).map SeedSource.uuid).Sublist (ns.map Node.uuid) := by
  rw [parameters, List.map_map]
  exact List.filter_sublist.map _

theorem sourcesOf_sublist (n : Node) : ((sourcesOf n).map SeedSource.uuid).Sublist n.uuids := by
  have hself : ([SeedSource.ofNode n].map SeedSource.uuid).Sublist n.uuids := by
    rw [Node.uuids_eq]
    exact (List.nil_sublist _).cons_cons _
  have hbelow : ∀ m ∈ n.all, ((parameters m.children).map SeedSource.uuid).Sublist n.uuids := by
    intro m hm
    have hs := (parameters_sublist m.children).trans (Node.map_uuid_sublist _)
    exact (hs.trans (by rw [Node.uuids_eq]; exact .cons _ (.refl _))).trans (Node.uuids_sublist hm)
  unfold sourcesOf
  split
  · split
    · rename_i first hf
      split
      · exact hbelow first (Node.mem_all_of_child (List.mem_of_head? hf))
      · exact hself
    · exact hself
  · exact hbelow n n.mem_all_self
  · exact List.nil_sublist _

theorem nodup_sourcesOf {n : Node} (h : n.uuids.Nodup) :
    ((n.children.flatMap sourcesOf).map SeedSource.uuid).Nodup := by
  rw [List.map_flatMap]
  exact (List.Sublist.flatMap_right _ fun c _ => sourcesOf_sublist c).nodup (Node.nodup_below h)

/-- The leaves of some groups, by their identifiers. -/
def members (gs : List (Uuid × LeafGroup)) : List Uuid := gs.flatMap fun x => x.2.leaves.map Leaf.uuid

section

variable {params : Tree} {table : Uuid}

/-- The group of the leaves whose parent is `u`. -/
def groupAt (params : Tree) (table : Uuid) (ls : List (Node × Leaf)) (u : Uuid) : LeafGroup :=
  ⟨groupName params table u, ((params.find? u).map (·.data.path)).getD [],
    (ls.filter (·.1.uuid == u)).map Prod.snd⟩

theorem groupAt_concat_self (ls : List (Node × Leaf)) (x : Node × Leaf) :
    groupAt params table (ls ++ [x]) x.1.uuid =
      { groupAt params table ls x.1.uuid with leaves := (groupAt params table ls x.1.uuid).leaves ++ [x.2] } := by
  simp [groupAt]

theorem groupAt_concat_of_ne (ls : List (Node × Leaf)) {x : Node × Leaf} {u : Uuid} (h : u ≠ x.1.uuid) :
    groupAt params table (ls ++ [x]) u = groupAt params table ls u := by
  simp [groupAt, Ne.symm h]

/-- The groups of the leaves `ls`, whose parents are `us`. -/
def groupsAt (params : Tree) (table : Uuid) (ls : List (Node × Leaf)) (us : List Uuid) :
    List (Uuid × LeafGroup) :=
  us.map fun u => (u, groupAt params table ls u)

theorem groupsAt_cons (ls : List (Node × Leaf)) (u : Uuid) (us : List Uuid) :
    groupsAt params table ls (u :: us) = (u, groupAt params table ls u) :: groupsAt params table ls us := rfl

theorem groupsAt_concat_of_notMem (ls : List (Node × Leaf)) {x : Node × Leaf} {us : List Uuid}
    (h : x.1.uuid ∉ us) : groupsAt params table (ls ++ [x]) us = groupsAt params table ls us :=
  List.map_congr_left fun _ hu => by rw [groupAt_concat_of_ne ls fun hux => h (hux ▸ hu)]

/-- A leaf joins the group of its parent. -/
theorem addLeaf_of_mem (ls : List (Node × Leaf)) {x : Node × Leaf} {us : List Uuid} (hn : us.Nodup)
    (h : x.1.uuid ∈ us) : addLeaf params table x.1 x.2 (groupsAt params table ls us) =
      groupsAt params table (ls ++ [x]) us := by
  induction us with
  | nil => cases h
  | cons u us ih =>
    rw [List.nodup_cons] at hn
    rw [groupsAt_cons, groupsAt_cons, addLeaf]
    by_cases hu : u = x.1.uuid
    · subst hu
      rw [if_pos rfl, groupAt_concat_self, groupsAt_concat_of_notMem ls hn.1]
    · rw [if_neg hu, groupAt_concat_of_ne ls hu, ih hn.2 ((List.mem_cons.1 h).resolve_left (Ne.symm hu))]

/-- A leaf without others of its parent begins a group. -/
theorem addLeaf_of_notMem {ls : List (Node × Leaf)} {x : Node × Leaf} (hx : params.find? x.1.uuid = some x.1)
    (hls : x.1.uuid ∉ ls.map (·.1.uuid)) {us : List Uuid} (h : x.1.uuid ∉ us) :
    addLeaf params table x.1 x.2 (groupsAt params table ls us) =
      groupsAt params table (ls ++ [x]) (us ++ [x.1.uuid]) := by
  induction us with
  | nil =>
    have hnone : ls.filter (·.1.uuid == x.1.uuid) = [] :=
      List.filter_eq_nil_iff.2 fun y hy hyx => hls (beq_iff_eq.1 hyx ▸ List.mem_map_of_mem hy)
    simp [groupsAt, addLeaf, groupAt, hnone, hx]
  | cons u us ih =>
    rw [List.mem_cons, not_or] at h
    rw [groupsAt_cons, addLeaf, if_neg (Ne.symm h.1), ih h.2, List.cons_append, groupsAt_cons,
      groupAt_concat_of_ne ls (Ne.symm h.1)]

/-- Leaves come in one group for each parent. -/
theorem exists_groupsAt {ls : List (Node × Leaf)} (hls : ∀ x ∈ ls, params.find? x.1.uuid = some x.1) :
    ∃ us : List Uuid, us.Nodup ∧ (∀ u, u ∈ us ↔ u ∈ ls.map (·.1.uuid)) ∧
      ls.foldl (fun gs (x : Node × Leaf) => addLeaf params table x.1 x.2 gs) [] =
        groupsAt params table ls us := by
  induction ls using List.reverseRecOn with
  | nil => exact ⟨[], List.nodup_nil, fun _ => .rfl, rfl⟩
  | append_singleton ls x ih =>
    rw [List.forall_mem_append, List.forall_mem_singleton] at hls
    obtain ⟨us, hn, hus, hgs⟩ := ih hls.1
    rw [List.foldl_append, hgs, List.foldl_cons, List.foldl_nil]
    by_cases hx : x.1.uuid ∈ us
    · refine ⟨us, hn, fun u => ?_, addLeaf_of_mem ls hn hx⟩
      rw [List.map_append, List.mem_append, ← hus]
      exact ⟨.inl, fun h => h.elim id fun h => List.mem_singleton.1 h ▸ hx⟩
    · refine ⟨us ++ [x.1.uuid], List.nodup_append'.2 ⟨hn, List.nodup_singleton _, by simpa using hx⟩,
        fun u => ?_, addLeaf_of_notMem hls.2 (fun h => hx ((hus _).2 h)) hx⟩
      rw [List.map_append, List.mem_append, List.mem_append, hus]
      rfl

theorem leaves_addLeaf {parent : Node} {leaf : Leaf} (gs : List (Uuid × LeafGroup)) :
    ((addLeaf params table parent leaf gs).flatMap (·.2.leaves)).Perm (leaf :: gs.flatMap (·.2.leaves)) := by
  induction gs with
  | nil => exact .refl _
  | cons x gs ih =>
    rw [addLeaf]
    split
    · simp only [List.flatMap_cons, List.append_assoc, List.singleton_append]
      exact List.perm_middle
    · exact (ih.append_left _).trans List.perm_middle

/-- Grouping neither loses nor adds a leaf. -/
theorem leaves_foldl (params : Tree) (table : Uuid) (ls : List (Node × Leaf)) (gs : List (Uuid × LeafGroup)) :
    ((ls.foldl (fun gs (x : Node × Leaf) => addLeaf params table x.1 x.2 gs) gs).flatMap (·.2.leaves)).Perm
      (gs.flatMap (·.2.leaves) ++ ls.map (·.2)) := by
  induction ls generalizing gs with
  | nil => simp
  | cons x ls ih =>
    refine (ih _).trans (((leaves_addLeaf gs).append_right _).trans ?_)
    exact List.perm_middle.symm

end

/-- Groups of leaves with different parents, each with the path of its parent. -/
structure Grouped (parents : List Node) (us : List Uuid) (gs : List (Uuid × LeafGroup)) : Prop where
  keys : (gs.map Prod.fst).Nodup
  path : ∀ x ∈ gs, ∃ p ∈ parents, x.1 = p.uuid ∧ x.2.path = p.data.path
  members : (members gs).Perm us

theorem grouped_foldl {params : Tree} (table : Uuid) {ls : List (Node × Leaf)}
    (hls : ∀ x ∈ ls, params.find? x.1.uuid = some x.1) :
    Grouped (ls.map Prod.fst) (ls.map (·.2.uuid))
      (ls.foldl (fun gs (x : Node × Leaf) => addLeaf params table x.1 x.2 gs) []) where
  keys := by
    obtain ⟨us, hn, -, hgs⟩ := exists_groupsAt hls
    rw [hgs, groupsAt, List.map_map]
    exact (List.map_id us).symm ▸ hn
  path := by
    obtain ⟨us, -, hus, hgs⟩ := exists_groupsAt hls
    rw [hgs]
    intro x hx
    obtain ⟨u, hu, rfl⟩ := List.mem_map.1 hx
    obtain ⟨y, hy, rfl⟩ := List.mem_map.1 ((hus u).1 hu)
    exact ⟨y.1, List.mem_map_of_mem hy, rfl, by simp [groupAt, hls y hy]⟩
  members := by
    have hleaves := (leaves_foldl params table ls []).map Leaf.uuid
    rwa [List.map_flatMap, List.flatMap_nil, List.nil_append, List.map_map] at hleaves

/-- The leaves of a table with their parents. -/
theorem leaves_ok {params : Tree} {table : Uuid} {ls : List (Node × Leaf)}
    (h : leaves params table = .ok ls) :
    List.Forall₂ (fun n x => x.1 = (params.parent? n.uuid).getD n ∧ x.2.uuid = n.uuid)
      ((params.descendants table).filter (·.kind == .tableArrayElement)) ls := by
  refine (forall₂_of_mapM h).imp fun n x hx => ?_
  unfold leafOf at hx
  split at hx
  · cases hx
    exact ⟨rfl, rfl⟩
  · cases hx

/-- Leaves are nodes of the tree, and so are their parents. -/
theorem node_of_leaves {params : Tree} {table : Uuid} {ls : List (Node × Leaf)}
    (h : leaves params table = .ok ls) {x : Node × Leaf} (hx : x ∈ ls) :
    ∃ n ∈ params.all, n.kind = .tableArrayElement ∧ x.1 = (params.parent? n.uuid).getD n ∧
      x.2.uuid = n.uuid := by
  obtain ⟨n, hn, hnx⟩ := exists_of_forall₂ (leaves_ok h).flip hx
  obtain ⟨hn, hk⟩ := List.mem_filter.1 hn
  exact ⟨n, Tree.mem_all_of_mem_descendants hn, by simpa using hk, hnx⟩

theorem find?_of_leaves {params : Tree} {table : Uuid} (hp : params.uuids.Nodup) {ls : List (Node × Leaf)}
    (h : leaves params table = .ok ls) : ∀ x ∈ ls, params.find? x.1.uuid = some x.1 := by
  intro x hx
  obtain ⟨n, hn, -, hparent, -⟩ := node_of_leaves h hx
  rw [hparent]
  cases hpn : params.parent? n.uuid with
  | none => exact Tree.find?_of_mem hp hn
  | some p => exact Tree.find?_of_mem hp ((Tree.parent?_eq_some hp).1 hpn).1

/-- The parent of a leaf is a group. -/
theorem parent_of_leaf {params : Tree} (hp : params.Valid) {n : Node} (hn : n ∈ params.all)
    (hk : n.kind = .tableArrayElement) : (params.parent? n.uuid).getD n ∈ params.all ∧
      ((params.parent? n.uuid).getD n).kind = .tableGroupElement := by
  have parent : ∀ k : Kind, k.allows .tableArrayElement = true → k = .tableGroupElement := by
    intro k; cases k <;> decide
  have hroot : n ≠ params.root := by
    rintro rfl
    have h := hp.root
    rw [hk] at h
    revert h
    cases params.kind <;> decide
  obtain ⟨p, hpm, hc⟩ := Node.exists_parent hn hroot
  rw [Tree.parent?_of_child hp.nodup hpm hc, Option.getD_some]
  exact ⟨hpm, parent _ (hk ▸ hp.allowed p hpm n hc)⟩

/-- A leaf is in one group, once. -/
theorem Grouped.nodup_leaves {parents : List Node} {us : List Uuid} {gs : List (Uuid × LeafGroup)}
    (h : Grouped parents us gs) (hus : us.Nodup) :
    ∀ g ∈ gs.map (·.2), (g.leaves.map Leaf.uuid).Nodup := by
  intro g hg
  obtain ⟨x, hx, rfl⟩ := List.mem_map.1 hg
  have hsub : (x.2.leaves.map Leaf.uuid).Sublist (Shape.members gs) := by
    rw [Shape.members, List.flatMap]
    exact List.sublist_flatten_of_mem (List.mem_map_of_mem hx)
  exact hsub.nodup (h.members.nodup_iff.2 hus)

/-- Groups of leaves have different paths, since their parents have. -/
theorem Grouped.nodup_paths {params : Tree} (hp : params.Valid) (hset : params.Unsettled [])
    {parents : List Node} (hparents : ∀ p ∈ parents, p ∈ params.all ∧ p.kind = .tableGroupElement)
    {us : List Uuid} {gs : List (Uuid × LeafGroup)} (h : Grouped parents us gs) :
    ((gs.map (·.2)).map LeafGroup.path).Nodup := by
  have hkeys : ∀ x ∈ gs, ∀ y ∈ gs, x.2.path = y.2.path → x = y := by
    intro x hx y hy hxy
    obtain ⟨p, hpm, hpx, hpp⟩ := h.path x hx
    obtain ⟨q, hqm, hqy, hqp⟩ := h.path y hy
    obtain ⟨hpt, hpk⟩ := hparents p hpm
    obtain ⟨hqt, hqk⟩ := hparents q hqm
    have hpq := Tree.eq_of_path hp hset hpt hqt hpk hqk (hpp.symm.trans (hxy.trans hqp))
    exact List.inj_on_of_nodup_map h.keys hx hy (hpx.trans (hpq ▸ hqy.symm))
  rw [List.map_map]
  exact h.keys.of_map.map_on hkeys

theorem seedSources_ok {params : Tree} {table : Uuid} {ss : List SeedSource} (h : seedSources params table = .ok ss) :
    ∃ n, params.find? table = some n ∧ n.kind = .table ∧ ss = n.children.flatMap sourcesOf := by
  simp only [seedSources, tableNode, bind_eq_ok_iff] at h
  obtain ⟨n, ⟨m, hm, hn⟩, hss⟩ := h
  split at hn
  · rename_i hk
    cases hn
    exact ⟨n, Tree.node_eq_ok.1 hm, hk, (Except.ok.inj hss).symm⟩
  · cases hn

/-- No source of a table is there twice. -/
theorem nodup_seedSources {params : Tree} (hp : params.Valid) {table : Uuid} {ss : List SeedSource}
    (h : seedSources params table = .ok ss) : (ss.map SeedSource.uuid).Nodup := by
  obtain ⟨n, hn, -, rfl⟩ := seedSources_ok h
  exact nodup_sourcesOf (Node.nodup_of_mem (Tree.mem_of_find? hn).1 hp.nodup)

theorem seedSources_of_ofTable {params : Tree} {table : Uuid} {o : LeafOrder} {shape : Shape}
    (h : ofTable params table o = .ok shape) : seedSources params table = .ok shape.seeds ∧ shape.table = table := by
  simp only [ofTable, bind_eq_ok_iff] at h
  obtain ⟨seeds, hseeds, ls, -, hshape⟩ := h
  obtain rfl := Except.ok.inj hshape
  exact ⟨hseeds, rfl⟩

theorem exists_of_ofTable {params : Tree} {table : Uuid} {o : LeafOrder} {shape : Shape}
    (h : ofTable params table o = .ok shape) :
    ∃ n ls, params.find? table = some n ∧ leaves params table = .ok ls ∧
      shape = ⟨table, n.children.flatMap sourcesOf, ((o.apply table (·.2.uuid) ls).foldl
        (fun gs (x : Node × Leaf) => addLeaf params table x.1 x.2 gs) []).map (·.2)⟩ := by
  obtain ⟨seeds, hseeds, h⟩ := bind_eq_ok_iff.1 h
  obtain ⟨ls, hls, h⟩ := bind_eq_ok_iff.1 h
  obtain ⟨n, hn, -, rfl⟩ := seedSources_ok hseeds
  exact ⟨n, ls, hn, hls, (Except.ok.inj h).symm⟩

/-- The leaves of a table are grouped by their parents, which are groups, and no source is there twice. -/
theorem grouped_ofTable {params : Tree} (hp : params.Valid) {table : Uuid} {o : LeafOrder} {shape : Shape}
    (h : ofTable params table o = .ok shape) : (shape.seeds.map SeedSource.uuid).Nodup ∧
      ∃ parents us gs, (∀ p ∈ parents, p ∈ params.all ∧ p.kind = .tableGroupElement) ∧ us.Nodup ∧
        Grouped parents us gs ∧ shape.groups = gs.map (·.2) := by
  obtain ⟨n, ls, hn, hls, rfl⟩ := exists_of_ofTable h
  obtain ⟨hnm, rfl⟩ := Tree.mem_of_find? hn
  have hnn := Node.nodup_of_mem hnm hp.nodup
  have horder := o.apply_perm n.uuid (fun x : Node × Leaf => x.2.uuid) ls
  have hus : ((o.apply n.uuid (fun x : Node × Leaf => x.2.uuid) ls).map (·.2.uuid)).Nodup := by
    rw [(horder.map _).nodup_iff, map_eq_of_forall₂ (leaves_ok hls) fun _ _ h => h.2,
      Tree.descendants_of_mem hp.nodup hnm]
    exact (List.filter_sublist.map _).nodup hnn
  refine ⟨nodup_sourcesOf hnn, _, _, _, fun p hpm => ?_, hus, grouped_foldl n.uuid fun x hx =>
    find?_of_leaves hp.nodup hls x (horder.mem_iff.1 hx), rfl⟩
  obtain ⟨x, hx, rfl⟩ := List.mem_map.1 hpm
  obtain ⟨m, hm, hk, hparent, -⟩ := node_of_leaves hls (horder.mem_iff.1 hx)
  exact hparent ▸ parent_of_leaf hp hm hk

/-- Where groups are told apart by their paths, so are sources and leaves. -/
theorem proper_of_paths {params : Tree} (hp : params.Valid) {table : Uuid} {o : LeafOrder} {shape : Shape}
    (h : ofTable params table o = .ok shape) (hpaths : (shape.groups.map LeafGroup.path).Nodup) :
    shape.Proper := by
  obtain ⟨hseeds, parents, us, gs, -, hus, hgrouped, hgs⟩ := grouped_ofTable hp h
  exact ⟨hseeds, hpaths, hgs ▸ hgrouped.nodup_leaves hus⟩

/-- The shape of a settled table. -/
theorem proper_ofTable {params : Tree} (hp : params.Valid) (hset : params.Unsettled []) {table : Uuid}
    {o : LeafOrder} {shape : Shape} (h : ofTable params table o = .ok shape) : shape.Proper := by
  obtain ⟨-, parents, us, gs, hparents, -, hgrouped, hgs⟩ := grouped_ofTable hp h
  exact proper_of_paths hp h (hgs ▸ hgrouped.nodup_paths hp hset hparents)

end Shape

end DeviceModel
