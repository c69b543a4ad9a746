import DeviceModel.Proofs.Lists
import DeviceModel.Proofs.Tree.Relabel
import DeviceModel.Register.Layout

/-!
What the layout of a tree depends on: the links, the sizes of points and the blocks that references
name, but none of the values that it gives. Main statement: `layout_mapData`.
-/

namespace DeviceModel

namespace Layout

/-- A change of attributes that leaves what the layout is computed from. -/
structure Keeps (g : Uuid → Data → Data) (n : Node) : Prop where
  kind : (g n.uuid n.data).kind = n.data.kind
  original : (g n.uuid n.data).get? .original = n.data.get? .original
  size : n.kind.isBlockReference = false → (g n.uuid n.data).get? .size = n.data.get? .size

variable {t : Tree} {g : Uuid → Data → Data}

theorem Keeps.kind_eq {n : Node} (h : Keeps g n) : (n.mapData g).kind = n.kind := by
  rw [Node.kind, Node.data_mapData]
  exact h.kind

theorem Keeps.ref_eq {n : Node} (h : Keeps g n) : (n.mapData g).ref? .original = n.ref? .original := by
  rw [Node.ref?, Node.ref?, Data.ref?, Data.ref?, Node.data_mapData, h.original]

theorem Keeps.size_eq {n : Node} (h : Keeps g n) (hr : n.kind.isBlockReference = false) :
    (n.mapData g).int .size = n.int .size := by
  rw [Node.int, Node.int, Data.int, Data.int, Data.int?, Data.int?, Node.data_mapData, h.size hr]

variable (hg : ∀ n ∈ t.all, Keeps g n)
include hg

theorem sizeWithin_mapData (fuel : Nat) {n : Node} (hn : n ∈ t.all) :
    (t.mapData g).sizeWithin fuel (n.mapData g) = t.sizeWithin fuel n := by
  induction fuel generalizing n with
  | zero => rfl
  | succ fuel ih =>
    rw [Tree.sizeWithin, Tree.sizeWithin, (hg n hn).kind_eq, (hg n hn).ref_eq]
    split
    · cases n.ref? .original with
      | none => rfl
      | some b =>
        have hc : (t.children b).mapM (fun c => (t.mapData g).sizeWithin fuel (c.mapData g)) =
            (t.children b).mapM (t.sizeWithin fuel) :=
          mapM_congr_left fun c hc => ih (Tree.mem_all_of_mem_children hc)
        simp only [Tree.children_mapData, List.mapM_map, Function.comp_def, hc]
    · rename_i hr
      rw [(hg n hn).size_eq (by simpa using hr)]

theorem sizeOf_mapData {n : Node} (hn : n ∈ t.all) :
    (t.mapData g).sizeOf (n.mapData g) = t.sizeOf n := by
  rw [Tree.sizeOf, Tree.sizeOf, Tree.size, Tree.all_mapData, List.length_map,
    sizeWithin_mapData hg _ hn]
  rfl

theorem total_mapData {ns : List Node} (hns : ∀ n ∈ ns, n ∈ t.all) :
    (t.mapData g).total (ns.map (Node.mapData g)) = t.total ns := by
  rw [Tree.total, Tree.total, List.map_map]
  exact congrArg _ (List.map_congr_left fun n hn => sizeOf_mapData hg (hns n hn))

theorem points_mapData {ns : List Node} (hns : ∀ n ∈ ns, n ∈ t.all) (base start : Int) :
    points (t.mapData g) base start (ns.map (Node.mapData g)) = points t base start ns := by
  induction ns generalizing start with
  | nil => rfl
  | cons n ns ih =>
    have hn := hns n (by simp)
    simp only [List.map_cons, points, (hg n hn).kind_eq, sizeOf_mapData hg hn, Node.uuid_mapData,
      ih fun m hm => hns m (by simp [hm])]

theorem repeatingBlocks_mapData {bs : List Node} (hbs : ∀ b ∈ bs, b ∈ t.all) (start : Int) :
    repeatingBlocks (t.mapData g) start (bs.map (Node.mapData g)) = repeatingBlocks t start bs := by
  induction bs generalizing start with
  | nil => rfl
  | cons b bs ih =>
    have hb := hbs b (by simp)
    have hc := fun c (hc : c ∈ b.children) => Tree.mem_all_of_child hb hc
    simp only [List.map_cons, repeatingBlocks, (hg b hb).kind_eq, Node.uuid_mapData,
      Node.children_mapData, points_mapData hg hc, total_mapData hg hc,
      ih fun m hm => hbs m (by simp [hm])]

theorem blocks_mapData {bs : List Node} (hbs : ∀ b ∈ bs, b ∈ t.all) (start : Int) :
    blocks (t.mapData g) start (bs.map (Node.mapData g)) = blocks t start bs := by
  induction bs generalizing start with
  | nil => rfl
  | cons b bs ih =>
    have hb := hbs b (by simp)
    have hc := fun c (hc : c ∈ b.children) => Tree.mem_all_of_child hb hc
    simp only [List.map_cons, blocks, (hg b hb).kind_eq, Node.uuid_mapData, Node.children_mapData,
      points_mapData hg hc, repeatingBlocks_mapData hg hc, total_mapData hg hc,
      ih fun m hm => hbs m (by simp [hm])]

theorem model_mapData {m : Node} (hm : m ∈ t.all) :
    model (t.mapData g) (m.mapData g) = model t m := by
  have hc := fun c (hc : c ∈ m.children) => Tree.mem_all_of_child hm hc
  have hl : modelLength (t.mapData g) (m.mapData g) = modelLength t m := by
    rw [modelLength, modelLength, Node.children_mapData, List.filter_map, List.map_map]
    have hf : m.children.filter ((·.kind == .fixedBlock) ∘ Node.mapData g) =
        m.children.filter (·.kind == .fixedBlock) :=
      List.filter_congr fun c h => by simp [(hg c (hc c h)).kind_eq]
    rw [hf]
    refine congrArg _ (List.map_congr_left fun b hb => ?_)
    have hb := hc b (List.mem_of_mem_filter hb)
    rw [Function.comp_apply, Node.children_mapData]
    exact total_mapData hg fun c h => Tree.mem_all_of_child hb h
  rw [model, model, Node.children_mapData, blocks_mapData hg hc, hl, Node.uuid_mapData]

theorem flat_mapData {ns : List Node} (hns : ∀ n ∈ ns, n ∈ t.all) (start : Int) :
    flat (t.mapData g) start (ns.map (Node.mapData g)) = flat t start ns := by
  induction ns generalizing start with
  | nil => rfl
  | cons n ns ih =>
    have hn := hns n (by simp)
    simp only [List.map_cons, flat, (hg n hn).kind_eq, sizeOf_mapData hg hn, Node.uuid_mapData,
      ih fun m hm => hns m (by simp [hm])]

theorem tables_mapData {ns : List Node} (hns : ∀ n ∈ ns, n ∈ t.all) :
    tables (t.mapData g) (ns.map (Node.mapData g)) = tables t ns := by
  have hf : ns.filter ((·.kind == .modbusTable) ∘ Node.mapData g) =
      ns.filter (·.kind == .modbusTable) :=
    List.filter_congr fun n hn => by simp [(hg n (hns n hn)).kind_eq]
  rw [tables, tables, List.filter_map, hf, List.flatMap_map]
  refine List.flatMap_congr fun n hn => ?_
  have hn := hns n (List.mem_of_mem_filter hn)
  rw [Node.children_mapData]
  exact repeatingBlocks_mapData hg (fun c hc => Tree.mem_all_of_child hn hc) 0

/-- The layout does not depend on the values that it gives. -/
theorem layout_mapData : (t.mapData g).layout = t.layout := by
  have hroot := fun c (hc : c ∈ t.root.children) => Tree.mem_all_of_child t.root_mem hc
  unfold Tree.layout
  rw [Tree.kind_mapData]
  split
  · rw [Tree.ofKind, Tree.ofKind, Tree.all_mapData, List.filter_map, List.flatMap_map]
    have hf : t.all.filter ((·.kind == .sunSpecModel) ∘ Node.mapData g) =
        t.all.filter (·.kind == .sunSpecModel) :=
      List.filter_congr fun n hn => by simp [(hg n hn).kind_eq]
    rw [hf]
    exact List.flatMap_congr fun m hm => model_mapData hg (List.mem_of_mem_filter hm)
  · rw [Tree.root_mapData, Node.children_mapData, tables_mapData hg hroot, List.filter_map]
    have hf : t.root.children.filter ((·.kind != .modbusTable) ∘ Node.mapData g) =
        t.root.children.filter (·.kind != .modbusTable) :=
      List.filter_congr fun n hn => by simp [bne, (hg n (hroot n hn)).kind_eq]
    rw [hf, flat_mapData hg fun n hn => hroot n (List.mem_of_mem_filter hn)]
  · rfl
  · rfl
  · rfl

end Layout

end DeviceModel
