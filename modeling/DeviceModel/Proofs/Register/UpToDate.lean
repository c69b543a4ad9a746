import DeviceModel.Proofs.Register.Keys
import DeviceModel.Proofs.Register.References

/-!
Trees whose layout is up to date. Main statements: laying out a valid tree gives one whose stored values
are those of its own layout (`relaidOut_spec`), and laying it out again changes nothing
(`relaidOut_of_upToDate`).
-/

namespace DeviceModel

namespace Layout

/-! ### Sizes that are placed -/

theorem attr_points {t : Tree} {ns : List Node} {base start : Int} {p : Placement}
    (hp : p ∈ points t base start ns) : p.attr ≠ .size := by
  induction ns generalizing start with
  | nil => cases hp
  | cons n ns ih =>
    rw [points, List.mem_append] at hp
    rcases hp with hp | hp
    · cases ho : (n.kind.field? .offset).isSome <;> simp only [ho] at hp <;> aesop
    · exact ih hp

theorem attr_repeatingBlocks {t : Tree} {bs : List Node} {start : Int} {p : Placement}
    (hp : p ∈ repeatingBlocks t start bs) : p.attr ≠ .size := by
  induction bs generalizing start with
  | nil => cases hp
  | cons b bs ih =>
    rw [repeatingBlocks] at hp
    split at hp
    · rw [List.cons_append, List.mem_cons, List.mem_append] at hp
      rcases hp with rfl | hp | hp
      · simp
      · exact attr_points hp
      · exact ih hp
    · exact ih hp

theorem attr_blocks {t : Tree} {bs : List Node} {start : Int} {p : Placement}
    (hp : p ∈ blocks t start bs) : p.attr ≠ .size := by
  have hblock : ∀ {b : Node} {q : Placement} {i : Int} {rest : List Placement},
      (∀ q ∈ rest, q.attr ≠ .size) → q ∈ ⟨b.uuid, .offset, i⟩ :: points t i 0 b.children ++ rest →
        q.attr ≠ .size := by
    intro b q i rest hrest hq
    rw [List.cons_append, List.mem_cons, List.mem_append] at hq
    rcases hq with rfl | hq | hq
    · simp
    · exact attr_points hq
    · exact hrest q hq
  induction bs generalizing start p with
  | nil => cases hp
  | cons b bs ih =>
    rw [blocks] at hp
    split at hp
    · exact hblock (fun q hq => ih hq) hp
    · exact hblock (fun q hq => ih hq) hp
    · exact (List.mem_append.1 hp).elim attr_repeatingBlocks ih
    · exact ih hp

theorem attr_model {t : Tree} {m : Node} {p : Placement} (hp : p ∈ model t m) : p.attr ≠ .size := by
  rcases List.mem_append.1 hp with hp | hp
  · exact attr_blocks hp
  · rw [List.mem_singleton.1 hp]
    simp

theorem size_flat {t : Tree} {ns : List Node} {start : Int} {p : Placement}
    (hp : p ∈ flat t start ns) (ha : p.attr = .size) :
    ∃ n ∈ ns, n.uuid = p.uuid ∧ n.kind.isBlockReference = true := by
  induction ns generalizing start with
  | nil => cases hp
  | cons n ns ih =>
    rw [flat, List.cons_append, List.mem_cons, List.mem_append] at hp
    rcases hp with rfl | hp | hp
    · cases ha
    · cases hr : n.kind.isBlockReference with
      | false => rw [if_neg (by simp [hr])] at hp; cases hp
      | true =>
        rw [if_pos hr] at hp
        rw [List.mem_singleton.1 hp]
        exact ⟨n, by simp, rfl, hr⟩
    · obtain ⟨m, hm, h⟩ := ih hp
      exact ⟨m, by simp [hm], h⟩

end Layout

namespace Tree

/-- Sizes are given to references only. -/
theorem size_layout {t : Tree} {p : Placement} (hp : p ∈ t.layout) (ha : p.attr = .size) :
    ∃ n ∈ t.all, n.uuid = p.uuid ∧ n.kind.isBlockReference = true := by
  unfold layout at hp
  split at hp
  · obtain ⟨m, -, hp⟩ := List.mem_flatMap.1 hp
    exact absurd ha (Layout.attr_model hp)
  · rcases List.mem_append.1 hp with hp | hp
    · obtain ⟨n, -, hp⟩ := List.mem_flatMap.1 hp
      exact absurd ha (Layout.attr_repeatingBlocks hp)
    · obtain ⟨n, hn, h⟩ := Layout.size_flat hp ha
      exact ⟨n, mem_all_of_child t.root_mem (List.mem_of_mem_filter hn), h⟩
  · cases hp
  · cases hp
  · cases hp

/-- Placing a layout leaves what the layout is computed from. -/
theorem keeps_place {t : Tree} (ht : t.Valid) {n : Node} (hn : n ∈ t.all) :
    Layout.Keeps (Layout.place t.layout) n where
  kind := Layout.kind_place _ _ _
  original := Layout.get?_place_of_notMem _ fun p hp _ ha => by
    have hl := (within_layout ht).laidOut p hp
    rw [ha] at hl
    cases hl
  size := fun hr => Layout.get?_place_of_notMem _ fun p hp hu ha => by
    obtain ⟨m, hm, hmu, hmr⟩ := size_layout hp ha
    rw [Node.eq_of_uuid ht.nodup hm hn (hmu.trans hu), hr] at hmr
    cases hmr

/-! ### Up to date -/

/-- The stored values are those of the layout, and references are in step with their blocks. -/
structure UpToDate (t : Tree) : Prop where
  holds : t.Holds t.layout
  inStep : t.InStep

theorem mirrors_mapData {t : Tree} {g : Uuid → Data → Data} (hg : ∀ n ∈ t.all, Layout.Keeps g n)
    {r : Node} (hr : r ∈ t.all) : (t.mapData g).Mirrors (r.mapData g) ↔ t.Mirrors r := by
  have hpoints : (t.mapData g).referencedPoints (r.mapData g) = t.referencedPoints r := by
    rw [referencedPoints, referencedPoints, (hg r hr).ref_eq]
    split
    · rename_i b _
      rw [children_mapData, List.filter_map, List.map_map]
      have hf : (t.children b).filter ((·.kind == .dataPoint) ∘ Node.mapData g) =
          (t.children b).filter (·.kind == .dataPoint) :=
        List.filter_congr fun c hc => by simp [(hg c (mem_all_of_mem_children hc)).kind_eq]
      rw [hf]
      exact List.map_congr_left fun c _ => Node.uuid_mapData c
    · rfl
  have horiginals : (r.mapData g).children.map (·.ref? .original) =
      r.children.map (·.ref? .original) := by
    rw [Node.children_mapData, List.map_map]
    exact List.map_congr_left fun c hc => (hg c (mem_all_of_child hr hc)).ref_eq
  rw [Mirrors, Mirrors, hpoints, horiginals]

theorem inStep_mapData {t : Tree} {g : Uuid → Data → Data} (hg : ∀ n ∈ t.all, Layout.Keeps g n)
    (h : t.InStep) : (t.mapData g).InStep := by
  intro r hr hk
  rw [all_mapData, List.mem_map] at hr
  obtain ⟨q, hq, rfl⟩ := hr
  exact (mirrors_mapData hg hq).2 (h q hq ((hg q hq).kind_eq ▸ hk))

/-- There are no such references in other trees. -/
theorem inStep_of_kind {t : Tree} (ht : t.Valid) (hk : t.kind ≠ .sunSpec) : t.InStep := by
  intro r hr hrk
  have htree := kind_of_mem ht hr
  rw [hrk] at htree
  exact absurd htree hk

theorem upToDate_placeAll {t : Tree} (ht : t.Valid) (h : t.InStep) :
    (t.placeAll t.layout).UpToDate := by
  have hkeeps := fun n (hn : n ∈ t.all) => keeps_place ht hn
  have heq := placeAll_eq_mapData ht.nodup t.layout
  have hlayout : (t.placeAll t.layout).layout = t.layout := by
    rw [heq]
    exact Layout.layout_mapData hkeeps
  refine ⟨?_, heq ▸ inStep_mapData hkeeps h⟩
  rw [hlayout]
  exact holds_placeAll ht.nodup (within_layout ht).toDistinct

/-- The tree with its references in step and its layout up to date. -/
def relaidOut (t : Tree) : Fresh Tree :=
  match t.kind with
  | .sunSpec => do
    let t ← t.syncedReferences
    return t.placeAll t.layout
  | .staticModbus => return t.placeAll t.layout
  | .parameters | .can | .anomalies => return t

/-- The tree laid out is one with its references in step that has its own layout placed. -/
theorem relaidOut_spec {t : Tree} (ht : t.Valid) {s : Supply} (hs : s.Issued t.uuids) :
    ∃ t₁, Synced t s t₁ (t.relaidOut s).2 ∧ t₁.InStep ∧
      (t.relaidOut s).1 = t₁.placeAll t₁.layout := by
  have hnone : t.layout = [] → t.placeAll t.layout = t := fun h => by rw [h]; rfl
  cases hk : t.kind with
  | sunSpec =>
    obtain ⟨hsync, hstep⟩ := syncedReferences_spec ht hs
    simp only [relaidOut, hk]
    exact ⟨_, hsync, hstep, rfl⟩
  | staticModbus =>
    simp only [relaidOut, hk]
    exact ⟨t, .refl ht hs, inStep_of_kind ht (by simp [hk]), rfl⟩
  | parameters | can | anomalies =>
    simp only [relaidOut, hk]
    refine ⟨t, .refl ht hs, inStep_of_kind ht (by simp [hk]), (hnone ?_).symm⟩
    simp only [layout, hk]

section

variable {t : Tree} (ht : t.Valid) {s : Supply} (hs : s.Issued t.uuids)
include ht hs

theorem valid_relaidOut : (t.relaidOut s).1.Valid := by
  obtain ⟨t₁, hsync, -, he⟩ := relaidOut_spec ht hs
  exact he ▸ hsync.valid.placeAll _

theorem kind_relaidOut : (t.relaidOut s).1.kind = t.kind := by
  obtain ⟨t₁, hsync, -, he⟩ := relaidOut_spec ht hs
  rw [he, placeAll_eq_mapData hsync.valid.nodup, kind_mapData]
  exact hsync.kind

theorem upToDate_relaidOut : (t.relaidOut s).1.UpToDate := by
  obtain ⟨t₁, hsync, hstep, he⟩ := relaidOut_spec ht hs
  exact he ▸ upToDate_placeAll hsync.valid hstep

/-- A node without references at or below it keeps all that a layout gives no values. -/
theorem exists_mem_relaidOut {n : Node} (hn : n ∈ t.all) (hf : ReferenceFree n) :
    ∃ m ∈ (t.relaidOut s).1.all, m.uuid = n.uuid ∧ m.kind = n.kind ∧
      ∀ a : Attr, a.isLaidOut = false → m.data.get? a = n.data.get? a := by
  obtain ⟨t₁, hsync, -, he⟩ := relaidOut_spec ht hs
  rw [he, placeAll_eq_mapData hsync.valid.nodup, all_mapData]
  refine ⟨_, List.mem_map_of_mem ((hsync.free n hf).2 hn), Node.uuid_mapData n, ?_, fun a ha => ?_⟩
  · rw [Node.kind_mapData]
    exact Layout.kind_place _ _ _
  · rw [Node.data_mapData]
    refine Layout.get?_place_of_notMem _ fun p hp _ hpa => ?_
    have hl := (within_layout hsync.valid).laidOut p hp
    rw [hpa, ha] at hl
    cases hl

end

/-- A tree is laid out again as it was, when what its layout gives has been changed only. -/
theorem relaidOut_mapData {t : Tree} (ht : t.Valid) (h : t.UpToDate) {g : Uuid → Data → Data}
    (hg : ∀ n ∈ t.all, Layout.Keeps g n)
    (hplace : ∀ n ∈ t.all, Layout.place t.layout n.uuid (g n.uuid n.data) = n.data) (s : Supply) :
    (t.mapData g).relaidOut s = (t, s) := by
  have hvalid : (t.mapData g).Valid := ht.mapData fun n hn => (hg n hn).kind
  have hback : (t.mapData g).placeAll (t.mapData g).layout = t := by
    rw [Layout.layout_mapData hg, placeAll_eq_mapData hvalid.nodup, mapData_mapData]
    exact mapData_eq_self hplace
  have hnone : t.layout = [] → t.mapData g = t := by
    intro hl
    rw [Layout.layout_mapData hg, hl] at hback
    exact hback
  have hk := kind_mapData (g := g) t
  cases hkind : t.kind with
  | sunSpec =>
    rw [hkind] at hk
    simp only [relaidOut, hk, bind, StateT.bind,
      syncedReferences_of_inStep hvalid (inStep_mapData hg h.inStep) s]
    exact congrArg (·, s) hback
  | staticModbus =>
    rw [hkind] at hk
    simp only [relaidOut, hk]
    exact congrArg (·, s) hback
  | parameters | can | anomalies =>
    rw [hkind] at hk
    simp only [relaidOut, hk]
    exact congrArg (·, s) (hnone (by simp only [layout, hkind]))

/-- Nothing is done to a tree whose layout is up to date. -/
theorem relaidOut_of_upToDate {t : Tree} (ht : t.Valid) (h : t.UpToDate) (s : Supply) :
    t.relaidOut s = (t, s) := by
  have hrun := relaidOut_mapData ht h (g := fun _ d => d) (fun _ _ => ⟨rfl, rfl, fun _ => rfl⟩)
    (fun n hn => Layout.place_eq_self fun p hp hu hf => h.holds p hp n hn hu.symm hf) s
  rwa [mapData_eq_self fun _ _ => rfl] at hrun

/-- A tree of the root only is up to date. -/
theorem upToDate_initial (k : TreeKind) (u : Uuid) : (Tree.initial k u).UpToDate := by
  have hempty : (Tree.initial k u).layout = [] := by cases k <;> rfl
  have hall : (Tree.initial k u).all = [(Tree.initial k u).root] := rfl
  refine ⟨by simp [Holds, hempty], fun r hr hrk => ?_⟩
  rw [hall, List.mem_singleton] at hr
  have hroot := (valid_initial k u).root
  rw [← hr, hrk] at hroot
  cases k <;> cases hroot

end Tree

end DeviceModel
