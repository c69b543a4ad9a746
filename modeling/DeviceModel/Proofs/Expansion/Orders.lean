import DeviceModel.Proofs.Expansion.Shapes

/-!
Orders of leaves. An order only arranges: listed items come first, as they are listed, and the others keep
their order (`arranged_apply`); and the shape of a table has the same groups of the same leaves in any order
(`sameGroups_ofTable`). Main statement: `apply_permutes`.
-/

namespace DeviceModel

namespace LeafOrder

/-- The leaves that are listed for a table, none when it has no order. -/
def listed (o : LeafOrder) (table : Uuid) : List Uuid := (o.get? table).getD []

/-! ### Ranks -/

section

variable {order : List Uuid} {u : Uuid}

theorem rank_of_notMem (h : u ∉ order) : rank order u = order.length := by
  rw [rank, if_neg (by simpa using h)]

theorem rank_lt_iff : rank order u < order.length ↔ u ∈ order := by
  by_cases h : u ∈ order
  · have hlength := List.length_pos_of_mem h
    rw [rank, if_pos (by simpa using h)]
    exact iff_of_true (by omega) h
  · rw [rank_of_notMem h]
    exact iff_of_false (lt_irrefl _) h

/-- Without repetition a rank is a place. -/
theorem rank_of_nodup (h : order.Nodup) : rank order u = order.idxOf u := by
  by_cases hu : u ∈ order
  · obtain ⟨front, back, rfl⟩ := List.append_of_mem hu
    have hfront : u ∉ front := fun hm => List.disjoint_of_nodup_append h hm (by simp)
    have hback : u ∉ back := (List.nodup_cons.1 (List.nodup_append.1 h).2.1).1
    rw [rank, if_pos (by simp), List.reverse_append, List.reverse_cons, List.append_assoc,
      List.singleton_append, List.idxOf_append_of_notMem (by simpa using hback),
      List.idxOf_append_of_notMem hfront]
    simp
  · rw [rank_of_notMem hu, List.idxOf_eq_length hu]

end

/-! ### Sorting -/

/-- `arranged` has the items in an order. -/
structure Arranged (order : List Uuid) (key : α → Uuid) (items arranged : List α) : Prop where
  perm : arranged.Perm items
  /-- No listed item comes after one that is not listed. -/
  listed_first : arranged.Pairwise fun a b => key b ∈ order → key a ∈ order
  /-- The others keep the order that they have. -/
  others : arranged.filter (key · ∉ order) = items.filter (key · ∉ order)
  /-- Listed items come as they are listed, when none is listed twice. -/
  as_listed : order.Nodup → (arranged.filter (key · ∈ order)).Pairwise fun a b =>
    order.idxOf (key a) ≤ order.idxOf (key b)

theorem sort_of_pairwise {order : List Uuid} {key : α → Uuid} {items : List α}
    (h : items.Pairwise fun a b => rank order (key a) ≤ rank order (key b)) : sort order key items = items :=
  List.mergeSort_of_pairwise (by simpa only [decide_eq_true_eq] using h)

section

variable (order : List Uuid) (key : α → Uuid) (items : List α)

theorem pairwise_sort : (sort order key items).Pairwise fun a b => rank order (key a) ≤ rank order (key b) := by
  have hsorted : (sort order key items).Pairwise fun a b =>
      decide (rank order (key a) ≤ rank order (key b)) = true :=
    List.pairwise_mergeSort (by simpa using fun a b c => le_trans) (by simpa using fun a b => le_total _ _) _
  simpa only [decide_eq_true_eq] using hsorted

/-- What is of one rank keeps its order. -/
theorem filter_sort {p : α → Bool} {n : Nat} (hp : ∀ a, p a = true → rank order (key a) = n) :
    (sort order key items).filter p = items.filter p := by
  have hranks : (items.filter p).Pairwise fun a b => rank order (key a) ≤ rank order (key b) := by
    refine List.pairwise_of_forall_mem_list fun a ha b hb => ?_
    rw [hp a (List.mem_filter.1 ha).2, hp b (List.mem_filter.1 hb).2]
  have hsub : (items.filter p).Sublist (sort order key items) :=
    List.sublist_mergeSort (by simpa using fun a b c => le_trans) (by simpa using fun a b => le_total _ _)
      (by simpa only [decide_eq_true_eq] using hranks) List.filter_sublist
  -- They are as many as before, so no others of the rank come between them.
  have hkept := hsub.filter p
  simp only [List.filter_filter, Bool.and_self] at hkept
  exact (hkept.eq_of_length ((List.mergeSort_perm _ _).filter p).length_eq.symm).symm

theorem arranged_sort : Arranged order key items (sort order key items) where
  perm := List.mergeSort_perm _ _
  listed_first := (pairwise_sort order key items).imp fun h hb =>
    rank_lt_iff.1 (h.trans_lt (rank_lt_iff.2 hb))
  others := filter_sort order key items fun a ha => rank_of_notMem (by simpa using ha)
  as_listed h := by
    have hsorted := (pairwise_sort order key items).filter (key · ∈ order)
    simpa only [rank_of_nodup h] using hsorted

end

/-- A table without an order is one with nothing listed. -/
theorem apply_eq_sort (o : LeafOrder) (table : Uuid) (key : α → Uuid) (items : List α) :
    o.apply table key items = sort (o.listed table) key items := by
  unfold apply listed
  cases o.get? table with
  | none => exact (sort_of_pairwise (List.pairwise_of_forall fun _ _ => by simp [rank])).symm
  | some order => rfl

theorem arranged_apply (o : LeafOrder) (table : Uuid) (key : α → Uuid) (items : List α) :
    Arranged (o.listed table) key items (o.apply table key items) :=
  apply_eq_sort o table key items ▸ arranged_sort ..

theorem apply_apply (o : LeafOrder) (table : Uuid) (key : α → Uuid) (items : List α) :
    o.apply table key (o.apply table key items) = o.apply table key items := by
  rw [apply_eq_sort, apply_eq_sort]
  exact sort_of_pairwise (pairwise_sort _ key items)

end LeafOrder

namespace Shape

/-! ### Groups in any order -/

/-- One group, with its leaves in any order. -/
structure SameLeaves (g h : LeafGroup) : Prop where
  name : g.name = h.name
  path : g.path = h.path
  leaves : g.leaves.Perm h.leaves

/-- The groups of the one are those of the other, each with its leaves, in any order. -/
structure SameGroups (s s' : Shape) : Prop where
  table : s.table = s'.table
  seeds : s.seeds = s'.seeds
  groups : ∃ gs, gs.Perm s.groups ∧ List.Forall₂ SameLeaves gs s'.groups

section

variable {params : Tree} {table : Uuid}

/-- The order of leaves decides about the order of groups, and of leaves within them, only. -/
theorem sameLeaves_of_perm {ls ms : List (Node × Leaf)} (h : ls.Perm ms)
    (hls : ∀ x ∈ ls, params.find? x.1.uuid = some x.1) :
    ∃ gs, gs.Perm ((ls.foldl (fun gs (x : Node × Leaf) => addLeaf params table x.1 x.2 gs) []).map Prod.snd) ∧
      List.Forall₂ SameLeaves gs
        ((ms.foldl (fun gs (x : Node × Leaf) => addLeaf params table x.1 x.2 gs) []).map Prod.snd) := by
  obtain ⟨us, hn, hus, hgs⟩ := exists_groupsAt hls
  obtain ⟨vs, hm, hvs, hhs⟩ := exists_groupsAt fun x hx => hls x (h.mem_iff.2 hx)
  have hparents : vs.Perm us := (List.perm_ext_iff_of_nodup hm hn).2 fun u => by
    rw [hus, hvs, (h.map _).mem_iff]
  refine ⟨vs.map (groupAt params table ls), ?_, ?_⟩
  · rw [hgs, groupsAt, List.map_map]
    exact hparents.map _
  · rw [hhs, groupsAt, List.map_map, List.forall₂_map_left_iff, List.forall₂_map_right_iff]
    exact List.forall₂_same.2 fun u _ => ⟨rfl, rfl, (h.filter _).map _⟩

/-- A shape with leaves in one order and that with leaves in another. -/
theorem sameGroups_ofTable (hp : params.uuids.Nodup) {o o' : LeafOrder} {s s' : Shape}
    (h : ofTable params table o = .ok s) (h' : ofTable params table o' = .ok s') : s.SameGroups s' := by
  obtain ⟨n, ls, hn, hls, rfl⟩ := exists_of_ofTable h
  obtain ⟨n', ls', hn', hls', rfl⟩ := exists_of_ofTable h'
  obtain rfl := Option.some.inj (hn.symm.trans hn')
  obtain rfl := Except.ok.inj (hls.symm.trans hls')
  have horder := o.apply_perm table (fun x : Node × Leaf => x.2.uuid) ls
  have horder' := o'.apply_perm table (fun x : Node × Leaf => x.2.uuid) ls
  exact ⟨rfl, rfl, sameLeaves_of_perm (horder.trans horder'.symm) fun x hx =>
    find?_of_leaves hp hls x (horder.mem_iff.1 hx)⟩

/-- Whether there is a shape, and what is wrong with the table, is no matter of order. -/
theorem ofTable_eq_error_iff {o o' : LeafOrder} {e : Error} :
    ofTable params table o = .error e ↔ ofTable params table o' = .error e := by
  unfold ofTable
  cases seedSources params table with
  | error x => rfl
  | ok seeds => cases leaves params table <;> simp [bind, Except.bind, pure, Except.pure]

end

end Shape

/-- The order of a table arranges items: listed ones come first, as they are listed, and the others keep
their order. Arranging them again changes nothing. So the shape of a table has the groups that it has with
another order or with none, and in them the same leaves. -/
theorem LeafOrder.apply_permutes (o : LeafOrder) (table : Uuid) (key : α → Uuid) (items : List α)
    {params : Tree} (hp : params.uuids.Nodup) :
    Arranged (o.listed table) key items (o.apply table key items) ∧
    o.apply table key (o.apply table key items) = o.apply table key items ∧
    ∀ o', (∀ e, Shape.ofTable params table o = .error e ↔ Shape.ofTable params table o' = .error e) ∧
      ∀ s s', Shape.ofTable params table o = .ok s → Shape.ofTable params table o' = .ok s' →
        s.SameGroups s' :=
  ⟨o.arranged_apply table key items, o.apply_apply table key items, fun _ =>
    ⟨fun _ => Shape.ofTable_eq_error_iff, fun _ _ => Shape.sameGroups_ofTable hp⟩⟩

namespace LeafOrder

/-- An expanded table of two groups with two parameters each. -/
def twoGroups : Tree :=
  let leaf (u source : Uuid) : Node := .leaf u (.of .tableArrayElement [(.original, .uuid source)])
  ⟨.parameters, ⟨⟨1⟩, .initial .root, [⟨⟨2⟩, .initial .table,
    [⟨⟨3⟩, .initial .group, [.leaf ⟨4⟩ (.initial .parameter), .leaf ⟨5⟩ (.initial .parameter)]⟩,
      ⟨⟨6⟩, .initial .group, [.leaf ⟨7⟩ (.initial .parameter), .leaf ⟨8⟩ (.initial .parameter)]⟩,
      ⟨⟨9⟩, .of .tableGroupElement [(.path, .ofPath [⟨3⟩])], [leaf ⟨10⟩ ⟨4⟩, leaf ⟨11⟩ ⟨5⟩]⟩,
      ⟨⟨12⟩, .of .tableGroupElement [(.path, .ofPath [⟨6⟩])], [leaf ⟨13⟩ ⟨7⟩, leaf ⟨14⟩ ⟨8⟩]⟩]⟩]⟩⟩

/-- The last leaf of the table and then the first, and one that the table does not have. -/
def lastAndFirst : LeafOrder := ⟨[(⟨2⟩, [⟨14⟩, ⟨10⟩, ⟨99⟩])]⟩

/-- The leaves of the first group stand between those of the second, and still are one group. -/
theorem apply_permutes_twoGroups :
    twoGroups.uuids.Nodup ∧ (lastAndFirst.listed ⟨2⟩).Nodup ∧
    lastAndFirst.apply ⟨2⟩ id [⟨10⟩, ⟨11⟩, ⟨13⟩, ⟨14⟩] = [⟨14⟩, ⟨10⟩, ⟨11⟩, ⟨13⟩] ∧
    Arranged (lastAndFirst.listed ⟨2⟩) id [⟨10⟩, ⟨11⟩, ⟨13⟩, ⟨14⟩]
      (lastAndFirst.apply ⟨2⟩ id [⟨10⟩, ⟨11⟩, ⟨13⟩, ⟨14⟩]) ∧
    ∃ s s', Shape.ofTable twoGroups ⟨2⟩ lastAndFirst = .ok s ∧
      Shape.ofTable twoGroups ⟨2⟩ builtIn = .ok s' ∧
      s.groups.map (·.leaves.map Leaf.uuid) = [[⟨14⟩, ⟨13⟩], [⟨10⟩, ⟨11⟩]] ∧
      s'.groups.map (·.leaves.map Leaf.uuid) = [[⟨10⟩, ⟨11⟩], [⟨13⟩, ⟨14⟩]] ∧ s.SameGroups s' := by
  have hp : twoGroups.uuids.Nodup := by decide +kernel
  have hshape : (Shape.ofTable twoGroups ⟨2⟩ lastAndFirst).toOption.any (fun s =>
      s.groups.map (·.leaves.map Leaf.uuid) = [[⟨14⟩, ⟨13⟩], [⟨10⟩, ⟨11⟩]]) = true := by cbv
  have hplain : (Shape.ofTable twoGroups ⟨2⟩ builtIn).toOption.any (fun s =>
      s.groups.map (·.leaves.map Leaf.uuid) = [[⟨10⟩, ⟨11⟩], [⟨13⟩, ⟨14⟩]]) = true := by decide +kernel
  obtain ⟨s, hs, hgroups⟩ := (Option.any_eq_true _ _).1 hshape
  obtain ⟨s', hs', hgroups'⟩ := (Option.any_eq_true _ _).1 hplain
  obtain ⟨harranged, -, hshapes⟩ :=
    apply_permutes lastAndFirst ⟨2⟩ id [⟨10⟩, ⟨11⟩, ⟨13⟩, ⟨14⟩] hp
  replace hs := mem_toOption_iff.1 hs
  replace hs' := mem_toOption_iff.1 hs'
  exact ⟨hp, by decide +kernel, by cbv, harranged, s, s', hs, hs', of_decide_eq_true hgroups,
    of_decide_eq_true hgroups', (hshapes builtIn).2 s s' hs hs'⟩

end LeafOrder

end DeviceModel
