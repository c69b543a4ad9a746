import DeviceModel.Proofs.Tree.Validity

/-!
Changing attributes all over a tree. Main statements: nodes, links and rules stay as they are
(`all_mapData`, `Valid.mapData`), and changing one node of a tree of distinct identifiers is such a
change (`modify_eq_mapData`).
-/

namespace DeviceModel

namespace Node

/-- The node with the attributes of every node `n` at or below it set to `g n.uuid n.data`. -/
def mapData (g : Uuid → Data → Data) : Node → Node
  | ⟨u, d, cs⟩ => ⟨u, g u d, each cs⟩
where
  each : List Node → List Node
    | [] => []
    | c :: cs => mapData g c :: each cs

variable {g h : Uuid → Data → Data}

@[simp] theorem each_mapData (cs : List Node) : mapData.each g cs = cs.map (mapData g) := by
  induction cs with
  | nil => rfl
  | cons c cs ih => simp [mapData.each, ih]

theorem mapData_eq (n : Node) :
    n.mapData g = ⟨n.uuid, g n.uuid n.data, n.children.map (mapData g)⟩ := by
  cases n; simp [mapData]

@[simp] theorem uuid_mapData (n : Node) : (n.mapData g).uuid = n.uuid := by rw [mapData_eq]

@[simp] theorem data_mapData (n : Node) : (n.mapData g).data = g n.uuid n.data := by rw [mapData_eq]

theorem kind_mapData (n : Node) : (n.mapData g).kind = (g n.uuid n.data).kind := by
  rw [kind, data_mapData]

@[simp] theorem children_mapData (n : Node) :
    (n.mapData g).children = n.children.map (mapData g) := by rw [mapData_eq]

theorem all_mapData (n : Node) : (n.mapData g).all = n.all.map (mapData g) := by
  induction n using inductOn with
  | h n ih =>
    rw [all_eq, all_eq n, List.map_cons, children_mapData, List.flatMap_map, List.map_flatMap]
    exact congrArg _ (List.flatMap_congr ih)

@[simp] theorem uuids_mapData (n : Node) : (n.mapData g).uuids = n.uuids := by
  rw [uuids, uuids, all_mapData, List.map_map]
  exact List.map_congr_left fun m _ => uuid_mapData m

theorem mapData_congr {n : Node} (hgh : ∀ m ∈ n.all, g m.uuid m.data = h m.uuid m.data) :
    n.mapData g = n.mapData h := by
  induction n using inductOn with
  | h n ih =>
    rw [mapData_eq, mapData_eq, hgh n (mem_all_self n)]
    refine congrArg _ (List.map_congr_left fun c hc => ih c hc fun m hm => hgh m ?_)
    exact mem_all_trans hm (mem_all_of_child hc)

theorem mapData_id (n : Node) : n.mapData (fun _ d => d) = n := by
  induction n using inductOn with
  | h n ih =>
    have hc : n.children.map (mapData fun _ d => d) = n.children :=
      (List.map_congr_left ih).trans (List.map_id _)
    rw [mapData_eq, hc, eta]

theorem mapData_eq_self {n : Node} (hg : ∀ m ∈ n.all, g m.uuid m.data = m.data) :
    n.mapData g = n :=
  (mapData_congr hg).trans n.mapData_id

theorem mapData_mapData (n : Node) :
    (n.mapData g).mapData h = n.mapData fun u d => h u (g u d) := by
  induction n using inductOn with
  | h n ih =>
    simp only [mapData_eq n, mapData_eq (Node.mk _ _ _), List.map_map]
    exact congrArg _ (List.map_congr_left ih)

theorem Allowed.mapData {n : Node} (hn : n.Allowed)
    (hg : ∀ m ∈ n.all, (g m.uuid m.data).kind = m.kind) : (n.mapData g).Allowed := by
  intro k hk c hc
  rw [all_mapData, List.mem_map] at hk
  obtain ⟨m, hm, rfl⟩ := hk
  rw [children_mapData, List.mem_map] at hc
  obtain ⟨d, hd, rfl⟩ := hc
  have hdn := mem_all_trans (mem_all_of_child hd) hm
  rw [kind, kind, data_mapData, data_mapData, hg m hm, hg d hdn]
  exact hn m hm d hd

/-- The change of the attributes of one node. -/
def only (u : Uuid) (f : Data → Data) (v : Uuid) (d : Data) : Data := if v = u then f d else d

theorem edit_eq_mapData {u : Uuid} {f : Data → Data} {n : Node} (hn : n.uuids.Nodup) :
    (n.edit u fun m => { m with data := f m.data }) = n.mapData (only u f) := by
  induction n using inductOn with
  | h n ih =>
    by_cases hu : n.uuid = u
    · have hc : n.children.map (mapData (only u f)) = n.children := by
        refine (List.map_congr_left fun c hc => mapData_eq_self fun m hm => ?_).trans (List.map_id _)
        refine if_neg fun hmu => uuid_notMem_below hn ?_
        exact List.mem_flatMap.2 ⟨c, hc, hu.trans hmu.symm ▸ uuid_mem_uuids hm⟩
      rw [edit_self hu, mapData_eq, hc, only, if_pos hu]
    · rw [edit_of_ne hu, mapData_eq, only, if_neg hu]
      exact congrArg _ (List.map_congr_left fun c hc =>
        ih c hc (nodup_of_mem (mem_all_of_child hc) hn))

end Node

namespace Tree

def mapData (t : Tree) (g : Uuid → Data → Data) : Tree := { t with root := t.root.mapData g }

variable {g h : Uuid → Data → Data}

@[simp] theorem kind_mapData (t : Tree) : (t.mapData g).kind = t.kind := rfl

@[simp] theorem root_mapData (t : Tree) : (t.mapData g).root = t.root.mapData g := rfl

theorem all_mapData (t : Tree) : (t.mapData g).all = t.all.map (Node.mapData g) :=
  t.root.all_mapData

@[simp] theorem uuids_mapData (t : Tree) : (t.mapData g).uuids = t.uuids := t.root.uuids_mapData

theorem find?_mapData (t : Tree) (u : Uuid) :
    (t.mapData g).find? u = (t.find? u).map (Node.mapData g) := by
  rw [find?, find?, all_mapData, List.find?_map]
  simp only [Function.comp_def, Node.uuid_mapData]

theorem children_mapData (t : Tree) (u : Uuid) :
    (t.mapData g).children u = (t.children u).map (Node.mapData g) := by
  rw [children, children, find?_mapData]
  cases t.find? u <;> simp

theorem mapData_congr {t : Tree} (hgh : ∀ m ∈ t.all, g m.uuid m.data = h m.uuid m.data) :
    t.mapData g = t.mapData h :=
  congrArg (Tree.mk t.kind) (Node.mapData_congr hgh)

theorem mapData_eq_self {t : Tree} (hg : ∀ m ∈ t.all, g m.uuid m.data = m.data) :
    t.mapData g = t :=
  congrArg (Tree.mk t.kind) (Node.mapData_eq_self hg)

theorem mapData_mapData (t : Tree) :
    (t.mapData g).mapData h = t.mapData fun u d => h u (g u d) :=
  congrArg _ t.root.mapData_mapData

theorem Valid.mapData {t : Tree} (ht : t.Valid)
    (hg : ∀ m ∈ t.all, (g m.uuid m.data).kind = m.kind) : (t.mapData g).Valid where
  root := by
    rw [root_mapData, Node.kind, Node.data_mapData, hg _ t.root_mem]
    exact ht.root
  nodup := by rw [uuids_mapData]; exact ht.nodup
  allowed := ht.allowedRoot.mapData hg

theorem modify_eq_mapData {t : Tree} (ht : t.uuids.Nodup) (u : Uuid) (f : Data → Data) :
    t.modify u f = t.mapData (Node.only u f) :=
  congrArg _ (Node.edit_eq_mapData ht)

theorem Valid.modify {t : Tree} (ht : t.Valid) {u : Uuid} {f : Data → Data}
    (hf : ∀ m ∈ t.all, m.uuid = u → (f m.data).kind = m.kind) : (t.modify u f).Valid := by
  rw [modify_eq_mapData ht.nodup]
  refine ht.mapData fun m hm => ?_
  rw [Node.only]
  split
  · rename_i hu
    exact hf m hm hu
  · rfl

theorem Valid.setData {t : Tree} (ht : t.Valid) {n : Node} (hn : n ∈ t.all) {d : Data}
    (hd : d.kind = n.kind) : (t.modify n.uuid fun _ => d).Valid :=
  ht.modify fun m hm hu => by rw [Node.eq_of_uuid ht.nodup hm hn hu, hd]

end Tree

end DeviceModel
