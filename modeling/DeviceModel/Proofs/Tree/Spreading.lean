import DeviceModel.Proofs.Tree.Validity

/-!
Nodes added and taken out at several places of a tree. Main statements: what a tree lists then is an old
node with its children changed, or one of those added (`mem_all_extend`, `mem_all_withoutAll`), and adding
a child last, one after the other, is adding all of them at once (`edit_eq_extend`, `extend_extend`).
-/

namespace DeviceModel

namespace Node

/-! ### Children added -/

/-- The node with the children `g u` behind those of each node `u` at or below it. -/
def extend (g : Uuid → List Node) : Node → Node
  | ⟨u, d, cs⟩ => ⟨u, d, each cs ++ g u⟩
where
  each : List Node → List Node
    | [] => []
    | c :: cs => extend g c :: each cs

/-- Children for one node. -/
def solely (u : Uuid) (cs : List Node) (v : Uuid) : List Node := if v = u then cs else []

@[simp] theorem solely_self (u : Uuid) (cs : List Node) : solely u cs u = cs := if_pos rfl

theorem solely_of_ne {u v : Uuid} (h : v ≠ u) (cs : List Node) : solely u cs v = [] := if_neg h

variable {g h : Uuid → List Node}

@[simp] theorem each_extend (cs : List Node) : extend.each g cs = cs.map (extend g) := by
  induction cs with
  | nil => rfl
  | cons c cs ih => simp [extend.each, ih]

theorem extend_eq (n : Node) :
    n.extend g = { n with children := n.children.map (extend g) ++ g n.uuid } := by
  cases n; simp [extend]

@[simp] theorem uuid_extend (n : Node) : (n.extend g).uuid = n.uuid := by rw [extend_eq]

@[simp] theorem data_extend (n : Node) : (n.extend g).data = n.data := by rw [extend_eq]

@[simp] theorem kind_extend (n : Node) : (n.extend g).kind = n.kind := by rw [kind, data_extend, kind]

@[simp] theorem children_extend (n : Node) :
    (n.extend g).children = n.children.map (extend g) ++ g n.uuid := by rw [extend_eq]

theorem extend_eq_self {n : Node} (hg : ∀ u ∈ n.uuids, g u = []) : n.extend g = n := by
  induction n using inductOn with
  | h n ih =>
    have hc : n.children.map (extend g) = n.children := (List.map_congr_left fun c hc =>
      ih c hc fun u hu => hg u (uuids_subset (mem_all_of_child hc) hu)).trans (List.map_id _)
    rw [extend_eq, hc, hg _ (uuid_mem_uuids n.mem_all_self), List.append_nil, eta]

theorem extend_extend (n : Node) :
    (n.extend g).extend h = n.extend fun u => (g u).map (extend h) ++ h u := by
  induction n using inductOn with
  | h n ih =>
    simp only [extend_eq n, extend_eq (Node.mk _ _ _), List.map_append, List.map_map, List.append_assoc]
    exact congrArg (fun cs => Node.mk _ _ (cs ++ _)) (List.map_congr_left ih)

/-- A child added last. -/
theorem edit_eq_extend {n c : Node} {u : Uuid} (hn : n.uuids.Nodup) :
    (n.edit u fun m => m.addChild none c) = n.extend (solely u [c]) := by
  induction n using inductOn with
  | h n ih =>
    by_cases hu : n.uuid = u
    · have hbelow : ∀ d ∈ n.children, d.extend (solely u [c]) = d := fun d hd => extend_eq_self fun v hv =>
        solely_of_ne (fun h => uuid_notMem_below hn (List.mem_flatMap.2 ⟨d, hd, by rwa [hu, ← h]⟩)) _
      rw [edit_self hu, extend_eq, hu, solely_self, (List.map_congr_left hbelow).trans (List.map_id _)]
      simp [addChild, place, ← hu]
    · rw [edit_of_ne hu, extend_eq, solely_of_ne hu, List.append_nil]
      exact congrArg _ (List.map_congr_left fun d hd => ih d hd (nodup_of_mem (mem_all_of_child hd) hn))

theorem mem_all_extend {n k : Node} (hk : k ∈ (n.extend g).all) :
    (∃ m ∈ n.all, k = m.extend g) ∨ ∃ m ∈ n.all, ∃ c ∈ g m.uuid, k ∈ c.all := by
  induction n using inductOn with
  | h n ih =>
    rw [mem_all, children_extend] at hk
    rcases hk with rfl | ⟨d, hd, hk⟩
    · exact .inl ⟨n, n.mem_all_self, rfl⟩
    · rcases List.mem_append.1 hd with hd | hd
      · obtain ⟨c, hc, rfl⟩ := List.mem_map.1 hd
        have hcn := mem_all_of_child hc
        exact (ih c hc hk).imp (fun ⟨m, hm, h⟩ => ⟨m, mem_all_trans hm hcn, h⟩)
          fun ⟨m, hm, h⟩ => ⟨m, mem_all_trans hm hcn, h⟩
      · exact .inr ⟨n, n.mem_all_self, d, hd, hk⟩

theorem extend_mem_extend {n m : Node} (hm : m ∈ n.all) : m.extend g ∈ (n.extend g).all := by
  induction n using inductOn with
  | h n ih =>
    rcases mem_all.1 hm with rfl | ⟨c, hc, hm⟩
    · exact mem_all_self _
    · have hd : c.extend g ∈ (n.extend g).children := by
        rw [children_extend]
        exact List.mem_append_left _ (List.mem_map_of_mem hc)
      exact mem_all_trans (ih c hc hm) (mem_all_of_child hd)

/-! ### Nodes taken out -/

/-- The node without any of the nodes `us` below it. -/
def withoutAll (us : List Uuid) (n : Node) : Node := us.foldl (fun n u => n.without u) n

theorem withoutAll_cons (u : Uuid) (us : List Uuid) (n : Node) :
    n.withoutAll (u :: us) = (n.without u).withoutAll us := rfl

theorem withoutAll_eq (us : List Uuid) (n : Node) : n.withoutAll us =
    { n with children := (n.children.filter (·.uuid ∉ us)).map (withoutAll us) } := by
  induction us generalizing n with
  | nil =>
    have hid : (withoutAll []) = id := rfl
    simp [withoutAll, hid]
  | cons u us ih =>
    rw [withoutAll_cons, ih, without_eq]
    simp only [List.filter_map, List.map_map, List.filter_filter]
    refine congrArg (Node.mk _ _) (congrArg₂ List.map rfl (List.filter_congr fun c _ => ?_))
    simp [not_or, Bool.and_comm]

@[simp] theorem uuid_withoutAll (us : List Uuid) (n : Node) : (n.withoutAll us).uuid = n.uuid := by
  rw [withoutAll_eq]

@[simp] theorem data_withoutAll (us : List Uuid) (n : Node) : (n.withoutAll us).data = n.data := by
  rw [withoutAll_eq]

@[simp] theorem kind_withoutAll (us : List Uuid) (n : Node) : (n.withoutAll us).kind = n.kind := by
  rw [kind, data_withoutAll, kind]

@[simp] theorem children_withoutAll (us : List Uuid) (n : Node) : (n.withoutAll us).children =
    (n.children.filter (·.uuid ∉ us)).map (withoutAll us) := by
  rw [withoutAll_eq]

theorem children_withoutAll_of_notMem {us : List Uuid} {n : Node} (h : ∀ c ∈ n.children, c.uuid ∉ us) :
    (n.withoutAll us).children = n.children.map (withoutAll us) := by
  rw [children_withoutAll, List.filter_eq_self.2 fun c hc => decide_eq_true (h c hc)]

/-- Without the last of its children, a node has those in front of it. -/
theorem map_children_without_prefix {β : Type} {n c : Node} (hn : n.uuids.Nodup)
    (hc : n.children.getLast? = some c) {f : Node → β} (hf : ∀ d ∈ n.children, f (d.without c.uuid) = f d) :
    (n.without c.uuid).children.map f <+: n.children.map f := by
  obtain ⟨l, hl⟩ := List.getLast?_eq_some_iff.1 hc
  have hnotMem : ∀ d ∈ l, d.uuid ≠ c.uuid := by
    have huuids := (map_uuid_sublist n.children).nodup (nodup_below hn)
    rw [hl, List.map_append, List.nodup_append] at huuids
    exact fun d hd hu => huuids.2.2 d.uuid (List.mem_map_of_mem hd) c.uuid (by simp) hu
  have hfilter : n.children.filter (·.uuid ≠ c.uuid) = l := by
    rw [hl, List.filter_append, List.filter_eq_self.2 fun d hd => decide_eq_true (hnotMem d hd)]
    simp
  have hmap : l.map (f ∘ without c.uuid) = l.map f :=
    List.map_congr_left fun d hd => hf d (hl ▸ List.mem_append_left _ hd)
  rw [without_eq]
  simp only [hfilter, List.map_map]
  rw [hl, List.map_append, hmap]
  exact List.prefix_append ..

theorem mem_all_withoutAll {us : List Uuid} {n k : Node} (h : k ∈ (n.withoutAll us).all) :
    ∃ m ∈ n.all, k = m.withoutAll us := by
  induction us generalizing n with
  | nil => exact ⟨k, h, rfl⟩
  | cons u us ih =>
    rw [withoutAll_cons] at h
    obtain ⟨m, hm, rfl⟩ := ih h
    obtain ⟨q, hq, rfl⟩ := mem_all_without hm
    exact ⟨q, hq, rfl⟩

end Node

namespace Tree

section

variable {t t' : Tree} {u : Uuid} {n : Node} (ht : t.Valid) (h : t.insert u none n = .ok t')
include ht h

theorem mem_uuids_insert {v : Uuid} (hv : v ∈ t.uuids) : v ∈ t'.uuids := by
  obtain ⟨p, hp, rfl, -, -, rfl⟩ := insert_ok h
  exact (uuids_edit_addChild ht.nodup hp none).mem_iff.2 (List.mem_append_left _ hv)

theorem insert_eq_extend : t' = { t with root := t.root.extend (Node.solely u [n]) } := by
  obtain ⟨p, hp, rfl, -, -, rfl⟩ := insert_ok h
  exact congrArg (Tree.mk t.kind) (Node.edit_eq_extend ht.nodup)

/-- A node put in last, and then others below nodes that were there before. -/
theorem extend_insert {g : Uuid → List Node} (hg : ∀ v, v ∉ t.uuids → g v = []) :
    { t' with root := t'.root.extend g } =
      { t with root := t.root.extend fun v => Node.solely u [n] v ++ g v } := by
  obtain ⟨-, -, -, -, hjoins, -⟩ := insert_ok h
  have hself : n.extend g = n := Node.extend_eq_self fun v hv => hg v (hjoins.2.1 v hv)
  have hsolely : ∀ v, (Node.solely u [n] v).map (Node.extend g) = Node.solely u [n] v := by
    intro v
    unfold Node.solely
    split <;> simp [hself]
  rw [insert_eq_extend ht h]
  simp only [Node.extend_extend, hsolely]

end

/-- A node found again among those that there were before. -/
theorem children_of_extend {t t' : Tree} {g : Uuid → List Node} (ht : t'.uuids.Nodup)
    (h : t'.root = t.root.extend g) {a : Node} (ha : a ∈ t.all) (hg : g a.uuid = []) :
    t'.children a.uuid = a.children.map (Node.extend g) := by
  have hmem : a.extend g ∈ t'.all := by
    rw [all, h]
    exact Node.extend_mem_extend ha
  have hfind := find?_of_mem ht hmem
  rw [Node.uuid_extend] at hfind
  rw [children, hfind, Option.map_some, Option.getD_some, Node.children_extend, hg, List.append_nil]

end Tree

end DeviceModel
