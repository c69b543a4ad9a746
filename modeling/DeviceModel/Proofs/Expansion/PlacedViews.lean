import DeviceModel.Proofs.Expansion.ViewTrees

/-!
What a layout makes of a view. Main statements: no reference point of a table is laid out (`held_of_layout`);
and laying out a tree gives the blocks of a view their places, one behind the other, and changes nothing else
there (`exists_relaidOut`).
-/

namespace DeviceModel

namespace Layout

/-! ### What is laid out -/

/-- A block with points of its own, or one of these. -/
def Held (t : Tree) (u : Uuid) : Prop :=
  ∃ b ∈ t.all, holdsPoints b.kind = true ∧ (b.uuid = u ∨ ∃ c ∈ b.children, c.uuid = u)

variable {t : Tree}

theorem uuid_of_mem_points {base start : Int} {ns : List Node} {p : Placement} (hp : p ∈ points t base start ns) :
    ∃ n ∈ ns, n.uuid = p.uuid := by
  induction ns generalizing start with
  | nil => cases hp
  | cons n ns ih =>
    rw [points, List.mem_append] at hp
    rcases hp with hp | hp
    · refine ⟨n, List.mem_cons_self, ?_⟩
      rcases List.mem_cons.1 hp with rfl | hp
      · rfl
      · split at hp
        · rw [List.mem_singleton.1 hp]
        · cases hp
    · obtain ⟨m, hm, hmp⟩ := ih hp
      exact ⟨m, List.mem_cons_of_mem _ hm, hmp⟩

theorem uuid_of_mem_flat {start : Int} {ns : List Node} {p : Placement} (hp : p ∈ flat t start ns) :
    ∃ n ∈ ns, n.uuid = p.uuid := by
  induction ns generalizing start with
  | nil => cases hp
  | cons n ns ih =>
    rw [flat, List.mem_append] at hp
    rcases hp with hp | hp
    · refine ⟨n, List.mem_cons_self, ?_⟩
      rcases List.mem_cons.1 hp with rfl | hp
      · rfl
      · split at hp
        · rw [List.mem_singleton.1 hp]
        · cases hp
    · obtain ⟨m, hm, hmp⟩ := ih hp
      exact ⟨m, List.mem_cons_of_mem _ hm, hmp⟩

theorem held_of_block {b : Node} (hb : b ∈ t.all) (hk : holdsPoints b.kind = true) {base start : Int}
    {p : Placement} (hp : p ∈ ⟨b.uuid, .offset, start⟩ :: points t base 0 b.children) : Held t p.uuid := by
  refine ⟨b, hb, hk, ?_⟩
  rcases List.mem_cons.1 hp with rfl | hp
  · exact .inl rfl
  · exact .inr (uuid_of_mem_points hp)

theorem held_of_repeatingBlocks {bs : List Node} (hbs : ∀ b ∈ bs, b ∈ t.all) {start : Int} {p : Placement}
    (hp : p ∈ repeatingBlocks t start bs) : Held t p.uuid := by
  induction bs generalizing start with
  | nil => cases hp
  | cons b bs ih =>
    have hrest := fun start => @ih (fun m hm => hbs m (List.mem_cons_of_mem _ hm)) start
    rw [repeatingBlocks] at hp
    split at hp
    · rename_i hk
      rcases List.mem_append.1 hp with hp | hp
      · exact held_of_block (hbs b List.mem_cons_self) (by simp [holdsPoints, hk]) hp
      · exact hrest _ hp
    · exact hrest _ hp

theorem held_of_blocks {bs : List Node} (hbs : ∀ b ∈ bs, b ∈ t.all) {start : Int} {p : Placement}
    (hp : p ∈ blocks t start bs) : Held t p.uuid := by
  induction bs generalizing start with
  | nil => cases hp
  | cons b bs ih =>
    have hb := hbs b List.mem_cons_self
    have hrest := fun start => @ih (fun m hm => hbs m (List.mem_cons_of_mem _ hm)) start
    rw [blocks] at hp
    split at hp
    · rename_i hk
      exact (List.mem_append.1 hp).elim (held_of_block hb (by simp [holdsPoints, hk])) (hrest _)
    · rename_i hk
      exact (List.mem_append.1 hp).elim (held_of_block hb (by simp [holdsPoints, hk])) (hrest _)
    · exact (List.mem_append.1 hp).elim
        (held_of_repeatingBlocks fun c hc => Tree.mem_all_of_child hb hc) (hrest _)
    · exact hrest _ hp

/-- Blocks and their points are laid out, models, and what is below the root of a static map but its tables. -/
theorem held_of_layout {p : Placement} (hp : p ∈ t.layout) : Held t p.uuid ∨
    (∃ m ∈ t.all, m.kind = .sunSpecModel ∧ m.uuid = p.uuid) ∨ ∃ c ∈ t.root.children,
      t.kind = .staticModbus ∧ c.kind ≠ .modbusTable ∧ c.uuid = p.uuid := by
  unfold Tree.layout at hp
  split at hp
  · obtain ⟨m, hm, hp⟩ := List.mem_flatMap.1 hp
    obtain ⟨hm, hk⟩ := List.mem_filter.1 hm
    rcases List.mem_append.1 hp with hp | hp
    · exact .inl (held_of_blocks (fun c hc => Tree.mem_all_of_child hm hc) hp)
    · rw [List.mem_singleton.1 hp]
      exact .inr (.inl ⟨m, hm, by simpa using hk, rfl⟩)
  · rename_i hkind
    rcases List.mem_append.1 hp with hp | hp
    · obtain ⟨n, hn, hp⟩ := List.mem_flatMap.1 hp
      have hn := Tree.mem_all_of_child t.root_mem (List.mem_of_mem_filter hn)
      exact .inl (held_of_repeatingBlocks (fun c hc => Tree.mem_all_of_child hn hc) hp)
    · obtain ⟨c, hc, hcp⟩ := uuid_of_mem_flat hp
      obtain ⟨hc, hk⟩ := List.mem_filter.1 hc
      exact .inr (.inr ⟨c, hc, hkind, by simpa using hk, hcp⟩)
  · cases hp
  · cases hp
  · cases hp

/-! ### Places -/

/-- The points of a repeating block at their places, from `start` on. -/
def placePoints (start : Int) : List Node → List Node
  | [] => []
  | c :: cs => { c with data := c.data.placedAt start start } :: placePoints (start + c.int .size) cs

/-- Repeating blocks at their places, from `start` on. -/
def placeBlocks (start : Int) : List Node → List Node
  | [] => []
  | b :: bs => { b with data := b.data.placedAt 0 start, children := placePoints 0 b.children } ::
      placeBlocks (start + (b.children.map (·.int .size)).sum) bs

theorem kind_placeBlocks {k : Kind} {bs : List Node} (hbs : ∀ b ∈ bs, b.kind = k) (start : Int) :
    ∀ b ∈ placeBlocks start bs, b.kind = k := by
  induction bs generalizing start with
  | nil => exact nofun
  | cons b bs ih =>
    intro c hc
    rcases List.mem_cons.1 hc with rfl | hc
    · exact (b.data.kind_placedAt 0 start).trans (hbs b List.mem_cons_self)
    · exact ih (fun m hm => hbs m (List.mem_cons_of_mem _ hm)) _ c hc

/-- What the layout gives a node is its place. -/
theorem place_eq_placedAt (ht : t.Valid) {n : Node} (hn : n ∈ t.all) (hl : n.kind.field? .length = none)
    (hr : n.kind.isBlockReference = false) {i j : Int}
    (hb : (n.kind.field? .blockOffset).isSome = true → ⟨n.uuid, .blockOffset, i⟩ ∈ t.layout)
    (ho : (n.kind.field? .offset).isSome = true → ⟨n.uuid, .offset, j⟩ ∈ t.layout) :
    place t.layout n.uuid n.data = n.data.placedAt i j := by
  have hw := Tree.within_layout ht
  have hread : ∀ {a : Attr} {i : Int}, (n.kind.field? a).isSome = true → ⟨n.uuid, a, i⟩ ∈ t.layout →
      (place t.layout n.uuid n.data).get? a = some (.integer i) := fun hf hp =>
    get?_place hp (hw.laidOut _ hp) (fun q hq hqu hqa => hw.agree hp hq hqu hqa) hf
  exact (similar_place ht hn hl hr).eq_placedAt (fun hf => hread hf (hb hf)) fun hf => hread hf (ho hf)

theorem sizeOf_point {n : Node} (h : n.kind.isBlockReference = false) : t.sizeOf n = n.int .size := by
  rw [Tree.sizeOf, Tree.sizeWithin, if_neg (by simp [h])]
  rfl

/-- Points of a table. -/
structure IsTablePoint (n : Node) : Prop where
  length : n.kind.field? .length = none
  reference : n.kind.isBlockReference = false
  children : n.children = []

theorem map_placePoints (ht : t.Valid) {cs : List Node} (hcs : ∀ c ∈ cs, c ∈ t.all)
    (hpoints : ∀ c ∈ cs, IsTablePoint c) {start : Int} (h : points t 0 start cs ⊆ t.layout) :
    cs.map (Node.mapData (place t.layout)) = placePoints start cs := by
  induction cs generalizing start with
  | nil => rfl
  | cons c cs ih =>
    have hc := hpoints c List.mem_cons_self
    rw [points, zero_add, sizeOf_point hc.reference] at h
    rw [List.map_cons, placePoints]
    congr 1
    · rw [Node.mapData_eq, hc.children]
      congr 1
      refine place_eq_placedAt ht (hcs c List.mem_cons_self) hc.length hc.reference (fun _ => ?_) fun ho => ?_
      · exact h (List.mem_append_left _ List.mem_cons_self)
      · exact h (List.mem_append_left _ (List.mem_cons_of_mem _ (by simp [ho])))
    · exact ih (fun m hm => hcs m (List.mem_cons_of_mem _ hm)) (fun m hm => hpoints m (List.mem_cons_of_mem _ hm))
        fun p hp => h (List.mem_append_right _ hp)

theorem total_points {cs : List Node} (h : ∀ c ∈ cs, IsTablePoint c) :
    t.total cs = (cs.map (·.int .size)).sum := by
  rw [Tree.total, List.sum_eq_foldr, List.map_congr_left fun c hc => sizeOf_point (h c hc).reference]

theorem map_placeBlocks (ht : t.Valid) {bs : List Node} (hbs : ∀ b ∈ bs, b ∈ t.all)
    (hblocks : ∀ b ∈ bs, b.kind.isRepeatingBlock = true ∧ b.kind.field? .blockOffset = none ∧
      b.kind.field? .length = none ∧ b.kind.isBlockReference = false)
    (hpoints : ∀ b ∈ bs, ∀ c ∈ b.children, IsTablePoint c) {start : Int}
    (h : repeatingBlocks t start bs ⊆ t.layout) :
    bs.map (Node.mapData (place t.layout)) = placeBlocks start bs := by
  induction bs generalizing start with
  | nil => rfl
  | cons b bs ih =>
    obtain ⟨hrep, hnone, hlength, href⟩ := hblocks b List.mem_cons_self
    have hb := hbs b List.mem_cons_self
    have hcs := hpoints b List.mem_cons_self
    rw [repeatingBlocks, if_pos hrep, total_points hcs] at h
    rw [List.map_cons, placeBlocks, Node.mapData_eq]
    congr 2
    · refine place_eq_placedAt ht hb hlength href (fun hf => by simp [hnone] at hf) fun _ => ?_
      exact h (List.mem_append_left _ List.mem_cons_self)
    · exact map_placePoints ht (fun c hc => Tree.mem_all_of_child hb hc) hcs fun p hp =>
        h (List.mem_append_left _ (List.mem_cons_of_mem _ hp))
    · exact ih (fun m hm => hbs m (List.mem_cons_of_mem _ hm)) (fun m hm => hblocks m (List.mem_cons_of_mem _ hm))
        (fun m hm => hpoints m (List.mem_cons_of_mem _ hm)) fun p hp => h (List.mem_append_right _ hp)

/-- What is no repeating block takes no room among them. -/
theorem repeatingBlocks_append {ns : List Node} (hns : ∀ n ∈ ns, n.kind.isRepeatingBlock = false) (start : Int)
    (bs : List Node) : repeatingBlocks t start (ns ++ bs) = repeatingBlocks t start bs := by
  induction ns with
  | nil => rfl
  | cons n ns ih =>
    rw [List.cons_append, repeatingBlocks, if_neg (by simp [hns n List.mem_cons_self])]
    exact ih fun m hm => hns m (List.mem_cons_of_mem _ hm)

end Layout

namespace ViewExpansion

open Layout

/-! ### Views -/

theorem IsRegister.facts {f : Family} (hr : IsRegister f) : (∀ k : Kind, f.point.allows k = false) ∧
    f.point.isRepeatingBlock = false ∧ holdsPoints f.point = false ∧ holdsPoints f.view = false ∧
      f.point ≠ .sunSpecModel ∧ ∀ a : Attr, a.isLaidOut = true → f.view.field? a = none := by
  rcases hr with rfl | rfl <;>
    exact ⟨fun k => by cases k <;> rfl, rfl, rfl, rfl, nofun, fun a => by cases a <;> decide⟩

section

variable {f : Family} (hr : IsRegister f) {t : Tree} (ht : t.Valid)
include hr ht

/-- The points of a view, those in its blocks as well. -/
theorem isTablePoint {n : Node} (hn : n ∈ t.all) (hk : n.kind = f.point) : IsTablePoint n := by
  obtain ⟨hlength, href, -⟩ := hr.kinds (.inr (.inl hk))
  refine ⟨hlength, href, List.eq_nil_iff_forall_not_mem.2 fun c hc => ?_⟩
  have hallows := ht.allowed n hn c hc
  rw [hk, hr.facts.1] at hallows
  cases hallows

variable {v : Node} (hv : v ∈ t.all) (hk : v.kind = f.view)
include hv hk

/-- A reference point has no place. -/
theorem place_reference {n : Node} (hn : n ∈ v.children) (hnk : n.kind = f.point) :
    n.mapData (place t.layout) = n := by
  have hnt := Tree.mem_all_of_child hv hn
  obtain ⟨-, -, hheld, hview, hmodel, -⟩ := hr.facts
  have hnot : ∀ p ∈ t.layout, p.uuid ≠ n.uuid := by
    intro p hp hu
    -- A block or a parent of its own would be the reference point or the view.
    rcases held_of_layout hp with ⟨b, hb, hbk, hbn | ⟨c, hc, hcn⟩⟩ | ⟨m, hm, hmk, hmn⟩ | ⟨c, hc, hkind, -, hcn⟩
    · obtain rfl := Node.eq_of_uuid ht.nodup hb hnt (hbn.trans hu)
      rw [hnk, hheld] at hbk
      cases hbk
    · obtain rfl := Node.eq_of_uuid ht.nodup (Tree.mem_all_of_child hb hc) hnt (hcn.trans hu)
      obtain rfl := Node.parent_unique ht.nodup hb hv hc hn rfl
      rw [hk, hview] at hbk
      cases hbk
    · obtain rfl := Node.eq_of_uuid ht.nodup hm hnt (hmn.trans hu)
      exact hmodel (hnk.symm.trans hmk)
    · obtain rfl := Node.eq_of_uuid ht.nodup (Tree.mem_all_of_child t.root_mem hc) hnt (hcn.trans hu)
      obtain rfl := Node.parent_unique ht.nodup t.root_mem hv hc hn rfl
      have hroot := ht.root
      rw [hk, hkind] at hroot
      rcases hr.view with h | h <;> rw [h] at hroot <;> cases hroot
  rw [Node.mapData_eq, (isTablePoint hr ht hnt hnk).children, place_eq_self fun p hp hu _ => absurd hu (hnot p hp),
    List.map_nil, ← (isTablePoint hr ht hnt hnk).children]
  exact n.eta

/-- The blocks of a view get their places, and nothing else changes. -/
theorem place_view {ns gs : List Node} (hc : v.children = ns ++ gs) (hns : ∀ n ∈ ns, n.kind = f.point)
    (hgs : ∀ g ∈ gs, g.kind = f.group) :
    v.mapData (place t.layout) = { v with children := ns ++ placeBlocks 0 gs } := by
  have hdata : place t.layout v.uuid v.data = v.data := place_eq_self fun p hp _ hf => by
    rw [show v.data.kind = f.view from hk, hr.facts.2.2.2.2.2 _ ((Tree.within_layout ht).laidOut p hp)] at hf
    cases hf
  have hgroup : ∀ g ∈ gs, g ∈ v.children := fun g hg => hc ▸ List.mem_append_right _ hg
  have hseeds : ns.map (Node.mapData (place t.layout)) = ns :=
    (List.map_congr_left fun n hn => place_reference hr ht hv hk (hc ▸ List.mem_append_left _ hn)
      (hns n hn)).trans (List.map_id _)
  have hblocks : gs.map (Node.mapData (place t.layout)) = placeBlocks 0 gs :=
    map_placeBlocks ht (fun g hg => Tree.mem_all_of_child hv (hgroup g hg)) (fun g hg => ?_) (fun g hg c hcg => ?_) ?_
  · rw [Node.mapData_eq, hdata, hc, List.map_append, hseeds, hblocks]
  · obtain ⟨hlength, href, -⟩ := hr.kinds (.inr (.inr (hgs g hg)))
    exact ⟨hgs g hg ▸ hr.group.1, hgs g hg ▸ hr.group.2, hlength, href⟩
  · have hgt := Tree.mem_all_of_child hv (hgroup g hg)
    refine isTablePoint hr ht (Tree.mem_all_of_child hgt hcg) ?_
    have hbelow := hr.lawful.below g.kind c.kind (.inr (.inr (hgs g hg))) (ht.allowed g hgt c hcg)
    refine hbelow.resolve_right fun hcgroup => ?_
    have hallows := ht.allowed g hgt c hcg
    rw [hgs g hg, hcgroup] at hallows
    rcases hr with rfl | rfl <;> cases hallows
  · have hsub := Tree.repeatingBlocks_subset_layout ht hv (hk ▸ hr.view)
    rwa [hc, repeatingBlocks_append fun n hn => hns n hn ▸ hr.facts.2.1] at hsub

/-- Laying out a tree gives the blocks of a view their places, and changes nothing else there. -/
theorem exists_relaidOut {ns gs : List Node} (hc : v.children = ns ++ gs) (hns : ∀ n ∈ ns, n.kind = f.point)
    (hgs : ∀ g ∈ gs, g.kind = f.group) {s : Supply} (hs : s.Issued t.uuids) :
    { v with children := ns ++ placeBlocks 0 gs } ∈ (t.relaidOut s).1.all := by
  obtain ⟨t₁, hsync, -, he⟩ := Tree.relaidOut_spec ht hs
  have hv₁ : v ∈ t₁.all := (hsync.free v fun m hm => (hr.below ht hv hk hm).2.2).2 hv
  rw [he, Tree.placeAll_eq_mapData hsync.valid.nodup, Tree.all_mapData]
  rw [← place_view hr hsync.valid hv₁ hk hc hns hgs]
  exact List.mem_map_of_mem hv₁

end

end ViewExpansion

end DeviceModel
