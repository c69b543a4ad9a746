import DeviceModel.Proofs.Register.Measure
import DeviceModel.Proofs.Schema.Attributes
import DeviceModel.Proofs.Tree.Relabel
import DeviceModel.Register.Layout
import Mathlib

/-!
What a layout gives to which attributes.

### Placing

Giving attributes the values of a layout. Main statements: a placed value is read back where no later
one contradicts it (`get?_place`), and placing what is stored already changes nothing (`place_eq_self`).
-/

namespace DeviceModel

namespace Layout

/-- What placing `ps` makes of the attributes `d` of the node `u`. -/
def place (ps : List Placement) (u : Uuid) (d : Data) : Data :=
  ps.foldl (fun d p => if p.uuid = u then d.put p.attr (.integer p.value) else d) d

theorem place_cons (p : Placement) (ps : List Placement) (u : Uuid) (d : Data) :
    place (p :: ps) u d = place ps u (if p.uuid = u then d.put p.attr (.integer p.value) else d) := rfl

@[simp] theorem kind_place (ps : List Placement) (u : Uuid) (d : Data) :
    (place ps u d).kind = d.kind := by
  induction ps generalizing d with
  | nil => rfl
  | cons p ps ih =>
    rw [place_cons, ih]
    split <;> simp

/-- An attribute that is not placed stays. -/
theorem get?_place_of_notMem {ps : List Placement} {u : Uuid} {a : Attr} (d : Data)
    (h : ∀ p ∈ ps, p.uuid = u → p.attr ≠ a) : (place ps u d).get? a = d.get? a := by
  induction ps generalizing d with
  | nil => rfl
  | cons p ps ih =>
    rw [place_cons, ih _ fun q hq => h q (by simp [hq])]
    split
    · rename_i hp
      exact Data.get?_put_of_ne (h p (by simp) hp) d _
    · rfl

/-- A placed attribute reads as the value placed, where all placements of it agree. -/
theorem get?_place {ps : List Placement} {p : Placement} (hp : p ∈ ps) (ha : p.attr.isLaidOut = true)
    (hv : ∀ q ∈ ps, q.uuid = p.uuid → q.attr = p.attr → q.value = p.value)
    {d : Data} (hf : (d.kind.field? p.attr).isSome = true) :
    (place ps p.uuid d).get? p.attr = some (.integer p.value) := by
  induction ps generalizing p d with
  | nil => cases hp
  | cons q ps ih =>
    rw [place_cons]
    by_cases hm : ∃ r ∈ ps, r.uuid = p.uuid ∧ r.attr = p.attr
    · obtain ⟨r, hr, hru, hra⟩ := hm
      have hrv := hv r (by simp [hr]) hru hra
      rw [← hru, ← hra, ← hrv]
      refine ih hr (hra ▸ ha) (fun s hs hsu hsa => ?_) ?_
      · rw [hrv]
        exact hv s (by simp [hs]) (hsu.trans hru) (hsa.trans hra)
      · rw [hra]
        split
        · rwa [Data.kind_put]
        · exact hf
    · have hpq : p = q := (List.mem_cons.1 hp).resolve_right fun h => hm ⟨p, h, rfl, rfl⟩
      subst hpq
      rw [if_pos rfl, get?_place_of_notMem _ fun r hr hru hra => hm ⟨r, hr, hru, hra⟩]
      exact Data.get?_put_integer ha hf _

/-- Placing what is stored changes nothing. -/
theorem place_eq_self {ps : List Placement} {u : Uuid} {d : Data}
    (h : ∀ p ∈ ps, p.uuid = u → (d.kind.field? p.attr).isSome = true →
      d.get? p.attr = some (.integer p.value)) : place ps u d = d := by
  induction ps generalizing d with
  | nil => rfl
  | cons p ps ih =>
    have hp : (if p.uuid = u then d.put p.attr (.integer p.value) else d) = d := by
      split
      · rename_i hu
        cases hf : d.kind.field? p.attr with
        | none => exact Data.put_of_field?_eq_none hf _
        | some f => exact Data.put_of_get? (h p (by simp) hu (by simp [hf]))
      · rfl
    rw [place_cons, hp]
    exact ih fun q hq => h q (by simp [hq])

/-- Placements of attributes that a layout gives values, none of them twice. -/
structure Distinct (ps : List Placement) : Prop where
  laidOut : ∀ p ∈ ps, p.attr.isLaidOut = true
  nodup : (ps.map fun p => (p.uuid, p.attr)).Nodup

theorem Distinct.agree {ps : List Placement} (h : Distinct ps) {p q : Placement}
    (hp : p ∈ ps) (hq : q ∈ ps) (hu : q.uuid = p.uuid) (ha : q.attr = p.attr) : q.value = p.value := by
  have hpq := List.inj_on_of_nodup_map h.nodup hq hp (by rw [hu, ha])
  rw [hpq]

end Layout

namespace Tree

theorem placeAll_eq_mapData {t : Tree} (ht : t.uuids.Nodup) (ps : List Placement) :
    t.placeAll ps = t.mapData (Layout.place ps) := by
  induction ps generalizing t with
  | nil => exact (mapData_eq_self fun _ _ => rfl).symm
  | cons p ps ih =>
    rw [placeAll, List.foldl_cons, modify_eq_mapData ht]
    refine (ih (by rwa [uuids_mapData])).trans ?_
    rw [mapData_mapData]
    refine mapData_congr fun m _ => ?_
    rw [Layout.place_cons, Node.only]
    simp only [eq_comm]

theorem Valid.placeAll {t : Tree} (ht : t.Valid) (ps : List Placement) : (t.placeAll ps).Valid := by
  rw [placeAll_eq_mapData ht.nodup]
  exact ht.mapData fun m _ => Layout.kind_place ps m.uuid m.data

/-- Every placed attribute that its node has holds the value placed. -/
def Holds (t : Tree) (ps : List Placement) : Prop :=
  ∀ p ∈ ps, ∀ n ∈ t.all, n.uuid = p.uuid → (n.kind.field? p.attr).isSome = true →
    n.data.get? p.attr = some (.integer p.value)

instance (t : Tree) (ps : List Placement) : Decidable (t.Holds ps) :=
  inferInstanceAs (Decidable (∀ p ∈ ps, ∀ n ∈ t.all, n.uuid = p.uuid →
    (n.kind.field? p.attr).isSome = true → n.data.get? p.attr = some (.integer p.value)))

theorem holds_placeAll {t : Tree} {ps : List Placement} (ht : t.uuids.Nodup)
    (hps : Layout.Distinct ps) : (t.placeAll ps).Holds ps := by
  rw [placeAll_eq_mapData ht]
  intro p hp n hn hu hf
  rw [all_mapData, List.mem_map] at hn
  obtain ⟨m, hm, rfl⟩ := hn
  rw [Node.uuid_mapData] at hu
  rw [Node.kind, Node.data_mapData, Layout.kind_place] at hf
  rw [Node.data_mapData, hu]
  exact Layout.get?_place hp (hps.laidOut p hp) (fun q hq hqu hqa => hps.agree hp hq hqu hqa) hf

end Tree

/-!
### Keys

Which attributes a layout gives values. Main statement: none of them twice, and only attributes of
nodes of the tree (`within_layout`).
-/

namespace Layout

/-- Distinct placements at nodes with identifiers of `us`. -/
structure Within (us : List Uuid) (ps : List Placement) : Prop extends Distinct ps where
  mem : ∀ p ∈ ps, p.uuid ∈ us

theorem within_nil (us : List Uuid) : Within us [] where
  laidOut := by simp
  nodup := by simp
  mem := by simp

theorem Within.mono {us vs : List Uuid} {ps : List Placement} (h : Within us ps) (hs : us ⊆ vs) :
    Within vs ps where
  toDistinct := h.toDistinct
  mem := fun p hp => hs (h.mem p hp)

theorem Within.append {us vs : List Uuid} {ps qs : List Placement} (hp : Within us ps)
    (hq : Within vs qs) (hd : us.Disjoint vs) : Within (us ++ vs) (ps ++ qs) where
  laidOut := fun p h => (List.mem_append.1 h).elim (hp.laidOut p) (hq.laidOut p)
  nodup := by
    rw [List.map_append]
    refine hp.nodup.append hq.nodup fun k hk hl => ?_
    obtain ⟨p, hpm, rfl⟩ := List.mem_map.1 hk
    obtain ⟨q, hqm, heq⟩ := List.mem_map.1 hl
    exact hd (hp.mem p hpm) ((Prod.mk.inj heq).1 ▸ hq.mem q hqm)
  mem := fun p h => List.mem_append.2 ((List.mem_append.1 h).imp (hp.mem p) (hq.mem p))

theorem within_flatMap {us : Node → List Uuid} {ps : Node → List Placement} {ns : List Node}
    (hn : (ns.flatMap us).Nodup) (h : ∀ n ∈ ns, Within (us n) (ps n)) :
    Within (ns.flatMap us) (ns.flatMap ps) := by
  induction ns with
  | nil => exact within_nil _
  | cons n ns ih =>
    rw [List.flatMap_cons, List.nodup_append'] at hn
    exact (h n (by simp)).append (ih hn.2.1 fun m hm => h m (by simp [hm])) hn.2.2

/-- The attributes of one node. -/
theorem within_one {u : Uuid} {ps : List Placement} (hu : ∀ p ∈ ps, p.uuid = u)
    (ha : ∀ p ∈ ps, p.attr.isLaidOut = true) (hn : (ps.map Placement.attr).Nodup) :
    Within [u] ps where
  laidOut := ha
  nodup := by
    have : ps.map (fun p => (p.uuid, p.attr)) = (ps.map Placement.attr).map (Prod.mk u) := by
      rw [List.map_map]
      exact List.map_congr_left fun p hp => by rw [hu p hp]; rfl
    rw [this]
    exact hn.map fun a b h => (Prod.mk.inj h).2
  mem := fun p hp => by simp [hu p hp]

variable (t : Tree)

theorem within_points {ns : List Node} (hn : (ns.map Node.uuid).Nodup) (base start : Int) :
    Within (ns.map Node.uuid) (points t base start ns) := by
  induction ns generalizing start with
  | nil => exact within_nil _
  | cons n ns ih =>
    rw [List.map_cons, List.nodup_cons] at hn
    have hone : Within [n.uuid] (⟨n.uuid, .blockOffset, start⟩ ::
        if (n.kind.field? .offset).isSome then [⟨n.uuid, .offset, base + start⟩] else []) := by
      cases (n.kind.field? .offset).isSome <;> exact within_one (by simp) (by simp [Attr.isLaidOut]) (by simp)
    exact hone.append (ih hn.2 _) (by simpa using hn.1)

/-- A block with its points. -/
theorem within_block {b : Node} (hn : b.uuids.Nodup) (base start : Int) :
    Within b.uuids (⟨b.uuid, .offset, start⟩ :: points t base 0 b.children) := by
  have hs := Node.map_uuid_sublist b.children
  have hone : Within [b.uuid] [⟨b.uuid, .offset, start⟩] :=
    within_one (by simp) (by simp [Attr.isLaidOut]) (by simp)
  have hpoints := within_points t (hs.nodup (Node.nodup_below hn)) base 0
  have hd : [b.uuid].Disjoint (b.children.map Node.uuid) := by
    rw [List.singleton_disjoint]
    exact fun h => Node.uuid_notMem_below hn (hs.subset h)
  refine (hone.append hpoints hd).mono ?_
  rw [Node.uuids_eq]
  exact List.cons_subset_cons _ hs.subset

theorem within_repeatingBlocks {bs : List Node} (hn : (bs.flatMap Node.uuids).Nodup) (start : Int) :
    Within (bs.flatMap Node.uuids) (repeatingBlocks t start bs) := by
  induction bs generalizing start with
  | nil => exact within_nil _
  | cons b bs ih =>
    rw [List.flatMap_cons, List.nodup_append'] at hn
    rw [List.flatMap_cons, repeatingBlocks]
    split
    · exact (within_block t hn.1 0 start).append (ih hn.2.1 _) hn.2.2
    · exact (ih hn.2.1 start).mono (List.subset_append_right _ _)

theorem within_blocks {bs : List Node} (hn : (bs.flatMap Node.uuids).Nodup) (start : Int) :
    Within (bs.flatMap Node.uuids) (blocks t start bs) := by
  induction bs generalizing start with
  | nil => exact within_nil _
  | cons b bs ih =>
    rw [List.flatMap_cons, List.nodup_append'] at hn
    rw [List.flatMap_cons, blocks]
    split
    · exact (within_block t hn.1 start start).append (ih hn.2.1 _) hn.2.2
    · exact (within_block t hn.1 start start).append (ih hn.2.1 _) hn.2.2
    · refine ((within_repeatingBlocks t (Node.nodup_below hn.1) 0).mono ?_).append (ih hn.2.1 _) hn.2.2
      rw [Node.uuids_eq]
      exact List.subset_cons_self _ _
    · exact (ih hn.2.1 start).mono (List.subset_append_right _ _)

theorem within_model {m : Node} (hn : m.uuids.Nodup) : Within m.uuids (model t m) := by
  have hone : Within [m.uuid] [⟨m.uuid, .length, modelLength t m⟩] :=
    within_one (by simp) (by simp [Attr.isLaidOut]) (by simp)
  have hd : (m.children.flatMap Node.uuids).Disjoint [m.uuid] := by
    simpa using Node.uuid_notMem_below hn
  refine ((within_blocks t (Node.nodup_below hn) 0).append hone hd).mono ?_
  rw [Node.uuids_eq]
  grind

theorem within_flat {ns : List Node} (hn : (ns.map Node.uuid).Nodup) (start : Int) :
    Within (ns.map Node.uuid) (flat t start ns) := by
  induction ns generalizing start with
  | nil => exact within_nil _
  | cons n ns ih =>
    rw [List.map_cons, List.nodup_cons] at hn
    have hone : Within [n.uuid] (⟨n.uuid, .blockOffset, start⟩ ::
        if n.kind.isBlockReference then [⟨n.uuid, .size, t.sizeOf n⟩] else []) := by
      cases n.kind.isBlockReference <;> exact within_one (by simp) (by simp [Attr.isLaidOut]) (by simp)
    exact hone.append (ih hn.2 _) (by simpa using hn.1)

end Layout

namespace Tree

/-- The models of a valid tree are the children of its root. -/
theorem ofKind_sunSpecModel {t : Tree} (ht : t.Valid) (hk : t.kind = .sunSpec) :
    t.ofKind .sunSpecModel = t.root.children := by
  have hroot : t.root.kind = .sunSpecRoot := by rw [ht.root, hk]; rfl
  have hmodel : ∀ k : Kind, k.allows .sunSpecModel = true → k = .sunSpecRoot := by
    intro k; cases k <;> decide
  have hup : ∀ k : Kind, k.allows .sunSpecRoot = false := by intro k; cases k <;> decide
  have hdown : ∀ k : Kind, Kind.sunSpecRoot.allows k = true → k = .sunSpecModel := by
    intro k; cases k <;> decide
  have hc : ∀ c ∈ t.root.children, c.all.filter (·.kind == .sunSpecModel) = [c] := by
    intro c hc
    have hcm : c ∈ t.all := Node.mem_all_of_child hc
    have hck : c.kind = .sunSpecModel := hdown _ (hroot ▸ ht.allowed _ t.root_mem c hc)
    -- A model below another one would have the root for its parent.
    have hnone : (c.children.flatMap Node.all).filter (·.kind == .sunSpecModel) = [] := by
      rw [List.filter_eq_nil_iff]
      intro m hm hmk
      obtain ⟨d, hd, hmd⟩ := List.mem_flatMap.1 hm
      have hmc : m ∈ c.all := Node.mem_all_trans hmd (Node.mem_all_of_child hd)
      have hne : m ≠ c := by
        rintro rfl
        have := Node.length_all_le hmd
        have := Node.length_all_lt_of_child hd
        omega
      obtain ⟨p, hp, hmp⟩ := Node.exists_parent hmc hne
      have hpm : p ∈ t.all := Node.mem_all_trans hp hcm
      have hpk : p.kind = .sunSpecRoot := by
        refine hmodel _ ?_
        rw [← (by simpa using hmk : m.kind = .sunSpecModel)]
        exact ht.allowed p hpm m hmp
      have hpr : p ≠ t.root := by
        rintro rfl
        have := Node.length_all_le hp
        have := Node.length_all_lt_of_child hc
        omega
      obtain ⟨q, hq, hpq⟩ := Node.exists_parent hpm hpr
      have := ht.allowed q hq p hpq
      rw [hpk, hup] at this
      cases this
    rw [Node.all_eq, List.filter_cons_of_pos (by simp [hck]), hnone]
  rw [ofKind, all, Node.all_eq, List.filter_cons_of_neg (by simp [hroot]), List.filter_flatMap]
  exact (List.flatMap_congr hc).trans (List.flatMap_singleton' _)

/-- The layout gives no attribute two values, and only attributes of nodes of the tree any. -/
theorem within_layout {t : Tree} (ht : t.Valid) : Layout.Within t.uuids t.layout := by
  have hbelow := Node.nodup_below ht.nodup_root
  have hsub : t.root.children.flatMap Node.uuids ⊆ t.uuids := by
    rw [uuids, Node.uuids_eq]
    exact List.subset_cons_self _ _
  have hfilter : ∀ p : Node → Bool, ((t.root.children.filter p).flatMap Node.uuids).Sublist
      (t.root.children.flatMap Node.uuids) := fun p => List.filter_sublist.flatMap _
  unfold layout
  split
  · rename_i hk
    rw [ofKind_sunSpecModel ht hk]
    refine (Layout.within_flatMap hbelow fun m hm => ?_).mono hsub
    exact Layout.within_model t (Node.nodup_of_mem (Node.mem_all_of_child hm) ht.nodup_root)
  · have htables : Layout.Within
        ((t.root.children.filter (·.kind == .modbusTable)).flatMap Node.uuids)
        (Layout.tables t t.root.children) := by
      refine Layout.within_flatMap ((hfilter _).nodup hbelow) fun n hn => ?_
      have hnn := Node.nodup_of_mem (Node.mem_all_of_child (List.mem_of_mem_filter hn)) ht.nodup_root
      refine (Layout.within_repeatingBlocks t (Node.nodup_below hnn) 0).mono ?_
      rw [Node.uuids_eq]
      exact List.subset_cons_self _ _
    have hflat := Layout.within_flat t ((Node.map_uuid_sublist _).nodup
      ((hfilter (·.kind != .modbusTable)).nodup hbelow)) 0
    refine (htables.append hflat fun u hu hv => ?_).mono fun u hu => ?_
    · obtain ⟨c, hc, huc⟩ := List.mem_flatMap.1 hu
      obtain ⟨d, hd, rfl⟩ := List.mem_map.1 hv
      rw [List.mem_filter] at hc hd
      obtain rfl := Node.child_unique ht.nodup_root hc.1 hd.1 huc (Node.uuid_mem_uuids d.mem_all_self)
      simp [bne, hc.2] at hd
    · rcases List.mem_append.1 hu with hu | hu
      · exact hsub ((hfilter _).subset hu)
      · exact hsub ((hfilter _).subset ((Node.map_uuid_sublist _).subset hu))
  · exact Layout.within_nil _
  · exact Layout.within_nil _
  · exact Layout.within_nil _

end Tree

/-! ### Attributes that there are -/

namespace Layout

/-- Placements of attributes that nodes of the tree have. -/
def Present (t : Tree) (ps : List Placement) : Prop :=
  ∀ p ∈ ps, ∃ n ∈ t.all, n.uuid = p.uuid ∧ (n.kind.field? p.attr).isSome = true

theorem present_nil (t : Tree) : Present t [] := by simp [Present]

theorem Present.append {t : Tree} {ps qs : List Placement} (hp : Present t ps) (hq : Present t qs) :
    Present t (ps ++ qs) :=
  fun p h => (List.mem_append.1 h).elim (hp p) (hq p)

theorem Present.cons {t : Tree} {n : Node} {a : Attr} {i : Int} {ps : List Placement} (hn : n ∈ t.all)
    (ha : (n.kind.field? a).isSome = true) (h : Present t ps) : Present t (⟨n.uuid, a, i⟩ :: ps) := by
  intro p hp
  rcases List.mem_cons.1 hp with rfl | hp
  · exact ⟨n, hn, rfl, ha⟩
  · exact h p hp

/-- Kinds whose children have an offset in their parent. -/
def holdsPoints (k : Kind) : Bool :=
  k == .headerBlock || k == .fixedBlock || k.isRepeatingBlock

theorem field?_offset {k : Kind} (h : holdsPoints k = true) : (k.field? .offset).isSome = true := by
  revert h; cases k <;> decide

theorem field?_blockOffset {k child : Kind} (h : holdsPoints k = true) (hc : k.allows child = true) :
    (child.field? .blockOffset).isSome = true := by
  revert h hc; cases k <;> cases child <;> decide

variable {t : Tree} (ht : t.Valid)
include ht

omit ht in
theorem present_points {ns : List Node} (hns : ∀ n ∈ ns, n ∈ t.all)
    (hb : ∀ n ∈ ns, (n.kind.field? .blockOffset).isSome = true) (base start : Int) :
    Present t (points t base start ns) := by
  induction ns generalizing start with
  | nil => exact present_nil t
  | cons n ns ih =>
    have hn := hns n (by simp)
    have hrest := ih (fun m hm => hns m (by simp [hm])) (fun m hm => hb m (by simp [hm]))
      (start + t.sizeOf n)
    refine .append (.cons hn (hb n (by simp)) ?_) hrest
    split
    · rename_i ho; exact .cons hn ho (present_nil t)
    · exact present_nil t

theorem present_block {b : Node} (hb : b ∈ t.all) (hk : holdsPoints b.kind = true) (base start : Int) :
    Present t (⟨b.uuid, .offset, start⟩ :: points t base 0 b.children) := by
  have hc := fun c (hc : c ∈ b.children) => Tree.mem_all_of_child hb hc
  refine .cons hb (field?_offset hk) (present_points hc (fun c hcb => ?_) base 0)
  exact field?_blockOffset hk (ht.allowed b hb c hcb)

theorem present_repeatingBlocks {bs : List Node} (hbs : ∀ b ∈ bs, b ∈ t.all) (start : Int) :
    Present t (repeatingBlocks t start bs) := by
  induction bs generalizing start with
  | nil => exact present_nil t
  | cons b bs ih =>
    have hrest := ih fun m hm => hbs m (by simp [hm])
    rw [repeatingBlocks]
    split
    · rename_i hk
      exact (present_block ht (hbs b (by simp)) (by simp [holdsPoints, hk]) 0 start).append (hrest _)
    · exact hrest start

theorem present_blocks {bs : List Node} (hbs : ∀ b ∈ bs, b ∈ t.all) (start : Int) :
    Present t (blocks t start bs) := by
  induction bs generalizing start with
  | nil => exact present_nil t
  | cons b bs ih =>
    have hb := hbs b (by simp)
    have hrest := ih fun m hm => hbs m (by simp [hm])
    rw [blocks]
    split
    · rename_i hk
      exact (present_block ht hb (by simp [holdsPoints, hk]) start start).append (hrest _)
    · rename_i hk
      exact (present_block ht hb (by simp [holdsPoints, hk]) start start).append (hrest _)
    · exact (present_repeatingBlocks ht (fun c hc => Tree.mem_all_of_child hb hc) 0).append (hrest start)
    · exact hrest start

omit ht in
theorem present_flat {ns : List Node} (hns : ∀ n ∈ ns, n ∈ t.all)
    (hb : ∀ n ∈ ns, (n.kind.field? .blockOffset).isSome = true)
    (hs : ∀ n ∈ ns, n.kind.isBlockReference = true → (n.kind.field? .size).isSome = true) (start : Int) :
    Present t (flat t start ns) := by
  induction ns generalizing start with
  | nil => exact present_nil t
  | cons n ns ih =>
    have hn := hns n (by simp)
    have hrest := ih (fun m hm => hns m (by simp [hm])) (fun m hm => hb m (by simp [hm]))
      (fun m hm => hs m (by simp [hm])) (start + t.sizeOf n)
    refine .append (.cons hn (hb n (by simp)) ?_) hrest
    split
    · rename_i hr; exact .cons hn (hs n (by simp) hr) (present_nil t)
    · exact present_nil t

end Layout

namespace Tree

/-- Every attribute that the layout of a valid tree gives a value is there. -/
theorem present_layout {t : Tree} (ht : t.Valid) : Layout.Present t t.layout := by
  have hroot := fun c (hc : c ∈ t.root.children) => mem_all_of_child t.root_mem hc
  unfold layout
  split
  · intro p hp
    obtain ⟨m, hm, hp⟩ := List.mem_flatMap.1 hp
    rw [ofKind, List.mem_filter] at hm
    have hlength : (m.kind.field? .length).isSome = true := by
      rw [(by simpa using hm.2 : m.kind = .sunSpecModel)]
      decide
    have hblocks := Layout.present_blocks ht (fun c hc => mem_all_of_child hm.1 hc) 0
    exact hblocks.append (.cons hm.1 hlength (Layout.present_nil t)) p hp
  · rename_i hk
    have hkind : t.root.kind = .staticModbusRoot := by rw [ht.root, hk]; rfl
    have allowed : ∀ k : Kind, Kind.staticModbusRoot.allows k = true → (k != .modbusTable) = true →
        (k.field? .blockOffset).isSome = true ∧
          (k.isBlockReference = true → (k.field? .size).isSome = true) := by
      intro k; cases k <;> decide
    have hkid := fun c (hc : c ∈ t.root.children.filter (·.kind != .modbusTable)) =>
      allowed c.kind (hkind ▸ ht.allowed _ t.root_mem c (List.mem_of_mem_filter hc))
        (List.mem_filter.1 hc).2
    refine Layout.Present.append (fun p hp => ?_) (Layout.present_flat
      (fun c hc => hroot c (List.mem_of_mem_filter hc)) (fun c hc => (hkid c hc).1)
      (fun c hc => (hkid c hc).2) 0)
    obtain ⟨n, hn, hp⟩ := List.mem_flatMap.1 hp
    have hnm := hroot n (List.mem_of_mem_filter hn)
    exact Layout.present_repeatingBlocks ht (fun c hc => mem_all_of_child hnm hc) 0 p hp
  · exact Layout.present_nil t
  · exact Layout.present_nil t
  · exact Layout.present_nil t

end Tree

end DeviceModel
