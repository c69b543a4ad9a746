import DeviceModel.Proofs.Expansion.Again
import DeviceModel.Proofs.Register.Sums
import DeviceModel.Proofs.Register.Updating

/-!
Views that are settled stay so. Main statements: where their points and groups are placed does not matter
(`Settled.mapData`). Laying a register map out leaves its points and blocks but for their places
(`similar_place`), and what a settled view is built from anew is laid out as it was (`updateLayout_unplaced`).
-/

namespace DeviceModel

namespace ViewExpansion

section

variable {f : Family} (hf : f.Lawful) {g : Uuid → Data → Data}

/-! ### Points and blocks that are placed -/

theorem SeedStands.mapData {n : Node} {s : SeedSource} (h : SeedStands f n s)
    (hg : (g n.uuid n.data).Similar n.data) : SeedStands f (n.mapData g) s where
  children := by rw [Node.children_mapData, h.children, List.map_nil]
  kind := by rw [Node.kind_mapData, hg.kind]; exact h.kind
  source := by
    rw [Node.data_mapData, Family.sourceOf?, Data.ref?, hg.get? .parameter (by decide) (by decide)]
    exact h.source
  name := by
    rw [Node.data_mapData]
    refine Data.ext_get? (Data.kind_put _ _ _) fun a => ?_
    by_cases ha : .name = a
    · subst ha
      rw [Data.get?_put_congr hg.kind (hg.get? .name (by decide) (by decide)), h.name, hg.get? .name (by decide) (by decide)]
    · rw [Data.get?_put_of_ne ha]

theorem PointStands.mapData {n : Node} {p : Point} (h : PointStands f n p)
    (hg : (g n.uuid n.data).Similar n.data) : PointStands f (n.mapData g) p where
  children := by rw [Node.children_mapData, h.children, List.map_nil]
  kind := by rw [Node.kind_mapData, hg.kind]; exact h.kind
  source := by
    rw [Node.data_mapData, Family.sourceOf?, Data.ref?, hg.get? .parameter (by decide) (by decide)]
    exact h.source
  data := by rw [Node.data_mapData, hg.unplaced]; exact h.data

theorem forall₂_map_left {α β : Type} {R S : α → β → Prop} {k : α → α} {l : List α} {m : List β}
    (h : List.Forall₂ R l m) (hk : ∀ a ∈ l, ∀ b, R a b → S (k a) b) : List.Forall₂ S (l.map k) m := by
  induction h with
  | nil => exact .nil
  | cons hr _ ih =>
    exact .cons (hk _ (List.mem_cons_self ..) _ hr) (ih fun a ha => hk a (List.mem_cons_of_mem _ ha))

include hf

theorem BlockStands.mapData {n : Node} {b : Block} (h : BlockStands f n b)
    (hg : ∀ m ∈ n.all, (g m.uuid m.data).Similar m.data) : BlockStands f (n.mapData g) b where
  kind := by rw [Node.kind_mapData, (hg n n.mem_all_self).kind]; exact h.kind
  path := by
    rw [Node.data_mapData, Data.path, (hg n n.mem_all_self).get? .path (by decide) (by decide)]
    exact h.path
  data := by
    rw [Node.data_mapData, hf.groupData_similar _ _ _ _ _ (hg n n.mem_all_self),
      (hg n n.mem_all_self).unplaced]
    exact h.data
  points := by
    rw [Node.children_mapData]
    exact forall₂_map_left h.points fun c hc p hp => hp.mapData (hg c (Node.mem_all_of_child hc))

/-! ### Reference points that are placed -/

omit hf in
theorem seedData?_mapData (ss : List SeedSource) {ns : List Node}
    (hg : ∀ n ∈ ns, (g n.uuid n.data).Similar n.data) (u : Uuid) :
    Option.Rel Data.Similar (seedData? ss (ns.map (Node.mapData g)) u) (seedData? ss ns u) := by
  induction ss generalizing ns with
  | nil => exact .none
  | cons s ss ih =>
    cases ns with
    | nil => exact .none
    | cons n ns =>
      simp only [seedData?, List.map_cons, List.zip_cons_cons, List.find?_cons]
      cases s.uuid == u with
      | true =>
        rw [Option.map_some, Option.map_some, Node.data_mapData]
        exact .some (hg n (List.mem_cons_self ..))
      | false => exact ih fun m hm => hg m (List.mem_cons_of_mem _ hm)

omit hf in
theorem any_congr {o o' : Option Data} (h : Option.Rel Data.Similar o o') {p : Data → Bool}
    (hp : ∀ d e, d.Similar e → p d = p e) : o.any p = o'.any p := by
  cases h with
  | none => rfl
  | some h => exact hp _ _ h

omit hf in
theorem map_unplaced_congr {o o' : Option Data} (h : Option.Rel Data.Similar o o') :
    o.map Data.unplaced = o'.map Data.unplaced := by
  cases h with
  | none => rfl
  | some h => rw [Option.map_some, Option.map_some, h.unplaced]

variable {data? data?' : Uuid → Option Data} (h : ∀ u, Option.Rel Data.Similar (data? u) (data?' u))
include h

omit hf in
theorem unplacedOf_congr : unplacedOf data? = unplacedOf data?' := by
  funext u
  exact map_unplaced_congr (h u)

theorem oversized_congr (shape : Shape) : oversized f shape data? = oversized f shape data?' := by
  apply List.filter_congr
  intro u _
  exact any_congr (h u) fun d e hde => congrArg (!·) (hf.fits_similar d e hde)

theorem unready_congr (shape : Shape) : unready f shape data? = unready f shape data?' := by
  apply List.filter_congr
  intro u _
  exact congrArg (!·) (any_congr (h u) hf.ready_similar)

omit h

/-- Where points and groups are placed does not matter. -/
theorem Settled.mapData {shape : Shape} {z : ZeroBits} {view : Node} {ns gs : List Node}
    (h : Settled f shape z view ns gs) (hg : ∀ m ∈ view.all, (g m.uuid m.data).Similar m.data) :
    Settled f shape z (view.mapData g) (ns.map (Node.mapData g)) (gs.map (Node.mapData g)) := by
  have hgns : ∀ n ∈ ns, ∀ m ∈ n.all, (g m.uuid m.data).Similar m.data := fun n hn m hm =>
    hg m (Node.mem_all_trans hm (Node.mem_all_of_child (h.children ▸ List.mem_append_left _ hn)))
  have hggs : ∀ n ∈ gs, ∀ m ∈ n.all, (g m.uuid m.data).Similar m.data := fun n hn m hm =>
    hg m (Node.mem_all_trans hm (Node.mem_all_of_child (h.children ▸ List.mem_append_right _ hn)))
  have hdata := seedData?_mapData shape.seeds fun n hn => hgns n hn n n.mem_all_self
  have hview := hg view view.mem_all_self
  refine ⟨?_, ?_, ?_, ?_, ?_, ?_, ?_⟩
  · rw [Node.children_mapData, h.children, List.map_append]
  · rw [Node.kind_mapData, hview.kind]
    exact h.kind
  · rw [Node.data_mapData, hf.tableOf_similar _ _ hview]
    exact h.table
  · exact forall₂_map_left h.seeds fun n hn s hs => hs.mapData (hgns n hn n n.mem_all_self)
  · rw [unplacedOf_congr hdata, unready_congr hf hdata]
    exact forall₂_map_left h.blocks fun n hn b hb => hb.mapData hf (hggs n hn)
  · rw [oversized_congr hf hdata]
    exact h.fits
  · rw [unready_congr hf hdata]
    exact h.ready

end

end ViewExpansion

/-! ### Register maps -/

namespace Layout

/-- Points and blocks of tables get nothing but places. -/
theorem similar_place {t : Tree} (ht : t.Valid) {n : Node} (hn : n ∈ t.all)
    (hl : n.kind.field? .length = none) (hr : n.kind.isBlockReference = false) :
    (place t.layout n.uuid n.data).Similar n.data := by
  refine ⟨kind_place _ _ _, fun a ho hb => ?_⟩
  by_cases hal : a = .length
  · subst hal
    rw [Data.get?_eq_none.2 hl, Data.get?_eq_none.2 (kind_place t.layout n.uuid n.data ▸ hl)]
  by_cases has : a = .size
  · subst has
    exact (Tree.keeps_place ht hn).size hr
  · refine get?_place_of_notMem _ fun p hp _ ha => ?_
    have hlaid := (Tree.within_layout ht).laidOut p hp
    rw [ha] at hlaid
    cases a <;> simp_all [Attr.isLaidOut]

/-- Points and blocks that the layout places are placed again as they were. -/
theorem place_unplaced {t : Tree} (ht : t.Valid) (hu : t.Holds t.layout) {n : Node} (hn : n ∈ t.all)
    (ho : (n.kind.field? .offset).isSome = true → ∃ i, ⟨n.uuid, .offset, i⟩ ∈ t.layout)
    (hb : (n.kind.field? .blockOffset).isSome = true → ∃ i, ⟨n.uuid, .blockOffset, i⟩ ∈ t.layout) :
    place t.layout n.uuid n.data.unplaced = n.data := by
  have hw := Tree.within_layout ht
  refine Data.ext_get? (by simp) fun a => ?_
  cases hf : n.data.kind.field? a with
  | none => rw [Data.get?_eq_none.2 hf, Data.get?_eq_none.2 (by simpa using hf)]
  | some f =>
    have hsome : (n.kind.field? a).isSome = true := by rw [Node.kind, hf]; rfl
    by_cases hp : ∃ i, ⟨n.uuid, a, i⟩ ∈ t.layout
    · obtain ⟨i, hi⟩ := hp
      have hplaced := get?_place hi (hw.laidOut _ hi) (fun q hq hqu hqa => hw.agree hi hq hqu hqa)
        (d := n.data.unplaced) (by simp [hf])
      rw [hu _ hi n hn rfl hsome]
      exact hplaced
    · rw [get?_place_of_notMem _ fun p hpm hpu hpa => hp ⟨p.value, by rw [← hpu, ← hpa]; exact hpm⟩]
      exact (Data.similar_unplaced n.data).get? a (fun h => hp (h ▸ ho (h ▸ hsome)))
        (fun h => hp (h ▸ hb (h ▸ hsome)))

end Layout

namespace Tree

/-- The layout places the repeating blocks of a table and their points. -/
theorem placed_of_table {t : Tree} (ht : t.Valid) {view b : Node} (hv : view ∈ t.all)
    (hk : view.kind = .sunSpecTable ∨ view.kind = .modbusTable) (hb : b ∈ view.children)
    (hbk : b.kind.isRepeatingBlock = true) :
    (∃ i, ⟨b.uuid, .offset, i⟩ ∈ t.layout) ∧ ∀ c ∈ b.children,
      ((c.kind.field? .offset).isSome = true → ∃ i, ⟨c.uuid, .offset, i⟩ ∈ t.layout) ∧
        ∃ i, ⟨c.uuid, .blockOffset, i⟩ ∈ t.layout := by
  have hsub := repeatingBlocks_subset_layout ht hv hk
  obtain ⟨before, behind, he⟩ := List.append_of_mem hb
  obtain ⟨hblock, hpoints⟩ := Layout.mem_repeatingBlocks (t := t) 0 before behind hbk
  rw [← he] at hblock hpoints
  refine ⟨⟨_, hsub hblock⟩, fun c hc => ?_⟩
  obtain ⟨before, behind, he⟩ := List.append_of_mem hc
  obtain ⟨hbo, ho⟩ := Layout.mem_points (t := t) 0 0 before c behind
  rw [← he] at hbo ho
  exact ⟨fun h => ⟨_, hsub (hpoints (ho h))⟩, _, hsub (hpoints hbo)⟩

end Tree

namespace ViewExpansion

/-- Points and blocks of the identifiers `us` unplaced. -/
def unplacing (us : List Uuid) (u : Uuid) (d : Data) : Data := if u ∈ us then d.unplaced else d

theorem similar_unplacing (us : List Uuid) (u : Uuid) (d : Data) : (unplacing us u d).Similar d := by
  unfold unplacing
  split
  · exact d.similar_unplaced
  · exact .refl d

theorem keeps_unplacing (us : List Uuid) (n : Node) : Layout.Keeps (unplacing us) n where
  kind := (similar_unplacing us n.uuid n.data).kind
  original := (similar_unplacing us n.uuid n.data).get? .original (by decide) (by decide)
  size := fun _ => (similar_unplacing us n.uuid n.data).get? .size (by decide) (by decide)

/-- A view of a register map. -/
def IsRegister (f : Family) : Prop := f = .sunSpec ∨ f = .staticModbus

theorem IsRegister.view {f : Family} (h : IsRegister f) :
    f.view = .sunSpecTable ∨ f.view = .modbusTable := by
  rcases h with rfl | rfl
  · exact .inl rfl
  · exact .inr rfl

theorem IsRegister.group {f : Family} (h : IsRegister f) :
    f.group.isRepeatingBlock = true ∧ f.group.field? .blockOffset = none := by
  rcases h with rfl | rfl <;> exact ⟨rfl, rfl⟩

section

variable {f : Family} (hr : IsRegister f) {t : Tree} (ht : t.Valid) {shape : Shape} {z : ZeroBits}
  {view : Node} {ns gs : List Node} (hv : view ∈ t.all) (h : Settled f shape z view ns gs)
include ht hv h

/-- The groups of a settled view unplaced, as a change of attributes of the tree. -/
theorem setChildren_unplaced : t.setChildren view.uuid (ns ++ gs.map Node.unplaced) =
    t.mapData (unplacing (gs.flatMap Node.uuids)) := by
  have hbelow := Node.nodup_below (Node.nodup_of_mem hv ht.nodup)
  rw [h.children, List.flatMap_append, List.nodup_append'] at hbelow
  have hns : ns.map (Node.mapData (unplacing (gs.flatMap Node.uuids))) = ns := by
    refine (List.map_congr_left fun n hn => Node.mapData_eq_self fun m hm => ?_).trans (List.map_id _)
    exact if_neg fun hmg => hbelow.2.2 (List.mem_flatMap.2 ⟨n, hn, Node.uuid_mem_uuids hm⟩) hmg
  have hgs : gs.map (Node.mapData (unplacing (gs.flatMap Node.uuids))) = gs.map Node.unplaced := by
    refine List.map_congr_left fun b hb => Node.mapData_congr fun m hm => ?_
    exact if_pos (List.mem_flatMap.2 ⟨b, hb, Node.uuid_mem_uuids hm⟩)
  have hchildren : view.children.map (Node.mapData (unplacing (gs.flatMap Node.uuids))) =
      ns ++ gs.map Node.unplaced := by rw [h.children, List.map_append, hns, hgs]
  rw [← hchildren]
  refine Tree.setChildren_map_mapData ht.nodup hv fun m _ hm => if_neg fun hmg => hm ?_
  rw [h.children, List.flatMap_append]
  exact List.mem_append_right _ hmg

include hr

/-- What a settled view is built from anew is laid out as it was. -/
theorem relaidOut_unplaced (hu : t.UpToDate) (s : Supply) :
    (t.setChildren view.uuid (ns ++ gs.map Node.unplaced)).relaidOut s = (t, s) := by
  rw [setChildren_unplaced ht hv h]
  refine Tree.relaidOut_mapData ht hu (fun n _ => keeps_unplacing _ n) (fun n hn => ?_) s
  unfold unplacing
  split
  · rename_i hng
    obtain ⟨b, hb, hnb⟩ := List.mem_flatMap.1 hng
    obtain ⟨m, hmb, hmn⟩ := Node.mem_uuids.1 hnb
    have hbv : b ∈ view.children := h.children ▸ List.mem_append_right _ hb
    have hbt := Tree.mem_all_of_child hv hbv
    obtain rfl := Node.eq_of_uuid ht.nodup (Node.mem_all_trans hmb hbt) hn hmn
    obtain ⟨bl, -, hstands⟩ := exists_of_forall₂ h.blocks hb
    obtain ⟨hrep, hnone⟩ := hr.group
    rw [← hstands.kind] at hrep hnone
    obtain ⟨hblock, hpoints⟩ := Tree.placed_of_table ht hv (h.kind ▸ hr.view) hbv hrep
    rcases hstands.mem_all hmb with rfl | ⟨hc, -⟩
    · exact Layout.place_unplaced ht hu.holds hn (fun _ => hblock) fun hf => by simp [hnone] at hf
    · exact Layout.place_unplaced ht hu.holds hn (hpoints m hc).1 fun _ => (hpoints m hc).2
  · exact Layout.place_eq_self fun p hp hpu hf => hu.holds p hp n hn hpu.symm hf

theorem updateLayout_unplaced (hu : t.UpToDate) {s : Supply} (hs : s.Issued t.uuids) :
    Gives (t.setChildren view.uuid (ns ++ gs.map Node.unplaced)).updateLayout s t s := by
  have hmap := setChildren_unplaced ht hv h
  have hvalid : (t.setChildren view.uuid (ns ++ gs.map Node.unplaced)).Valid :=
    hmap ▸ ht.mapData fun n _ => (keeps_unplacing _ n).kind
  have hissued : s.Issued (t.setChildren view.uuid (ns ++ gs.map Node.unplaced)).uuids := by
    rwa [hmap, Tree.uuids_mapData]
  exact (Tree.gives_updateLayout hvalid hissued).2 (relaidOut_unplaced hr ht hv h hu s)

end

end ViewExpansion

end DeviceModel
