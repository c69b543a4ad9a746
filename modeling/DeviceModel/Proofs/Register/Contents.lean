import DeviceModel.Proofs.Register.UpToDate

/-!
What stands in a tree, its layout aside. Main statements: what stood there stands there still when a node
gets a last child (`HasNode.addChild`), when an attribute is set (`HasNode.put`) and when the tree is laid out
(`HasNode.placeAll`).
-/

namespace DeviceModel

/-- The attributes that layouts give values; the size of a reference aside. -/
def Attr.isPlaced : Attr → Bool
  | .offset | .blockOffset | .length => true
  | _ => false

/-- Attributes of one kind that are the same but for those of a layout. -/
structure Data.Agrees (d e : Data) : Prop where
  kind : d.kind = e.kind
  get? : ∀ a, a.isPlaced = false → d.get? a = e.get? a

namespace Data.Agrees

variable {d e f : Data}

theorem refl (d : Data) : d.Agrees d := ⟨rfl, fun _ _ => rfl⟩

theorem trans (h : d.Agrees e) (k : e.Agrees f) : d.Agrees f :=
  ⟨h.kind.trans k.kind, fun a ha => (h.get? a ha).trans (k.get? a ha)⟩

theorem put (h : d.Agrees e) (a : Attr) (v : Value) : (d.put a v).Agrees (e.put a v) := by
  refine ⟨by rw [kind_put, kind_put, h.kind], fun b hb => ?_⟩
  by_cases hab : a = b
  · subst hab
    exact get?_put_congr h.kind (h.get? a hb) v
  · rw [get?_put_of_ne hab, get?_put_of_ne hab, h.get? b hb]

end Data.Agrees

namespace Node

/-- What a node is without the nodes below it. -/
def record (n : Node) : Uuid × Data × List Uuid := (n.uuid, n.data, n.children.map uuid)

theorem record_edit_of_ne {u : Uuid} {f : Node → Node} {n : Node} (hn : n.uuid ≠ u)
    (hf : ∀ c ∈ n.children, c.uuid = u → (f c).uuid = u) : (n.edit u f).record = n.record := by
  rw [edit_of_ne hn, record, record, List.map_map]
  exact congrArg (Prod.mk _) (congrArg (Prod.mk _) (List.map_congr_left fun c hc => uuid_edit (hf c hc)))

/-- A node stays as it is when another gets a last child. -/
theorem record_mem_addChild {p : Uuid} {c n m : Node} (hn : n.uuids.Nodup) (hm : m ∈ n.all) :
    ∃ m' ∈ (n.edit p fun n => n.addChild none c).all,
      m'.record = (m.uuid, m.data, m.children.map uuid ++ if m.uuid = p then [c.uuid] else []) := by
  induction n using inductOn with
  | h n ih =>
    have hchildren : (n.addChild none c).children = n.children ++ [c] := by simp [addChild, place]
    by_cases hu : n.uuid = p
    · rw [edit_self hu]
      rcases mem_all.1 hm with rfl | ⟨d, hd, hmd⟩
      · refine ⟨_, mem_all_self _, ?_⟩
        rw [record, hchildren, if_pos hu, List.map_append]
        rfl
      · have hne : m.uuid ≠ p := fun h => uuid_notMem_below hn
          (List.mem_flatMap.2 ⟨d, hd, (hu.trans h.symm) ▸ uuid_mem_uuids hmd⟩)
        refine ⟨m, mem_all.2 (.inr ⟨d, ?_, hmd⟩), by rw [if_neg hne, List.append_nil]; rfl⟩
        rw [hchildren]
        exact List.mem_append_left _ hd
    · rcases mem_all.1 hm with rfl | ⟨d, hd, hmd⟩
      · refine ⟨_, mem_all_self _, ?_⟩
        rw [record_edit_of_ne (f := fun n => n.addChild none c) hu fun _ _ h => h, if_neg hu, List.append_nil]
        rfl
      · obtain ⟨m', hm', hrecord⟩ := ih d hd (nodup_of_mem (mem_all_of_child hd) hn) hmd
        refine ⟨m', mem_all.2 (.inr ⟨_, ?_, hm'⟩), hrecord⟩
        rw [edit_of_ne hu]
        exact List.mem_map_of_mem hd

end Node

namespace Tree

/-- The node `u` has the attributes `d`, its layout aside, and the children `us`. -/
def HasNode (t : Tree) (u : Uuid) (d : Data) (us : List Uuid) : Prop :=
  ∃ n ∈ t.all, n.uuid = u ∧ n.data.Agrees d ∧ n.children.map Node.uuid = us

variable {t : Tree} {u : Uuid} {d e : Data} {us vs : List Uuid}

theorem HasNode.mem_uuids (h : t.HasNode u d us) : u ∈ t.uuids := by
  obtain ⟨n, hn, rfl, -, -⟩ := h
  exact Node.uuid_mem_uuids hn

theorem HasNode.congr (h : t.HasNode u d us) (hd : d.Agrees e) : t.HasNode u e us := by
  obtain ⟨n, hn, hu, hnd, hus⟩ := h
  exact ⟨n, hn, hu, hnd.trans hd, hus⟩

/-- The node that stands there. -/
theorem HasNode.node (ht : t.uuids.Nodup) (h : t.HasNode u d us) {n : Node} (hn : n ∈ t.all) (hu : n.uuid = u) :
    n.data.Agrees d ∧ n.children.map Node.uuid = us := by
  obtain ⟨m, hm, hmu, hd, hus⟩ := h
  obtain rfl := Node.eq_of_uuid ht hn hm (hu.trans hmu.symm)
  exact ⟨hd, hus⟩

theorem HasNode.find? (ht : t.uuids.Nodup) (h : t.HasNode u d us) :
    ∃ n, t.find? u = some n ∧ n ∈ t.all ∧ n.uuid = u ∧ n.data.Agrees d ∧ n.children.map Node.uuid = us := by
  obtain ⟨n, hn, rfl, hd, hus⟩ := h
  exact ⟨n, find?_of_mem ht hn, hn, rfl, hd, hus⟩

/-- A last child under `p`. -/
theorem HasNode.addChild (ht : t.uuids.Nodup) (h : t.HasNode u d us) (p : Uuid) (c : Node) :
    (t.edit p fun n => n.addChild none c).HasNode u d (us ++ if u = p then [c.uuid] else []) := by
  obtain ⟨n, hn, rfl, hd, rfl⟩ := h
  obtain ⟨m, hm, hrecord⟩ := Node.record_mem_addChild (p := p) (c := c) ht hn
  obtain ⟨hu, hmd, hus⟩ : m.uuid = n.uuid ∧ m.data = n.data ∧ _ := by simpa [Node.record] using hrecord
  exact ⟨m, hm, hu, hmd ▸ hd, hus⟩

theorem HasNode.mapData (h : t.HasNode u d us) {g : Uuid → Data → Data}
    (hg : ∀ n ∈ t.all, n.uuid = u → (g u n.data).Agrees e) : (t.mapData g).HasNode u e us := by
  obtain ⟨n, hn, rfl, hd, rfl⟩ := h
  refine ⟨n.mapData g, by rw [all_mapData]; exact List.mem_map_of_mem hn, n.uuid_mapData, ?_, ?_⟩
  · rw [Node.data_mapData]
    exact hg n hn rfl
  · rw [Node.children_mapData, List.map_map]
    exact List.map_congr_left fun c _ => c.uuid_mapData

/-- An attribute of `v` is set. -/
theorem HasNode.put (ht : t.uuids.Nodup) (h : t.HasNode u d us) (v : Uuid) (a : Attr) (w : Value) :
    (t.modify v (·.put a w)).HasNode u (if u = v then d.put a w else d) us := by
  rw [modify_eq_mapData ht]
  refine h.mapData fun n hn hu => ?_
  have hd := (h.node ht hn hu).1
  rw [Node.only]
  split
  · exact hd.put a w
  · exact hd

/-- Layouts are given to what is no part of what stands in a tree without references. -/
theorem HasNode.placeAll (ht : t.Valid) (hr : ∀ n ∈ t.all, n.kind.isBlockReference = false)
    (h : t.HasNode u d us) : (t.placeAll t.layout).HasNode u d us := by
  rw [placeAll_eq_mapData ht.nodup]
  refine h.mapData fun n hn hu => .trans ⟨Layout.kind_place _ _ _, fun a ha => ?_⟩ (h.node ht.nodup hn hu).1
  subst hu
  by_cases hsize : a = .size
  · exact hsize ▸ (keeps_place ht hn).size (hr n hn)
  · refine Layout.get?_place_of_notMem _ fun p hp _ hpa => ?_
    have hl := (within_layout ht).laidOut p hp
    rw [hpa] at hl
    cases a <;> simp_all [Attr.isLaidOut, Attr.isPlaced]

end Tree

end DeviceModel
