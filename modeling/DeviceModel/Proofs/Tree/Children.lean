import DeviceModel.Proofs.Tree.Relabel
import Mathlib

/-!
Giving a node other children. Main statements: identifiers outside the node stay (`exists_outside`), and
so do the nodes (`mem_all_setChildren`).
-/

namespace DeviceModel

namespace Tree

/-- The tree with other children of `u`. -/
def setChildren (t : Tree) (u : Uuid) (cs : List Node) : Tree :=
  t.edit u fun n => { n with children := cs }

variable {t : Tree}

/-- Only the identifiers below the node change. -/
theorem exists_outside (ht : t.uuids.Nodup) {n : Node} (hn : n ∈ t.all) :
    ∃ outside, t.uuids.Perm (n.children.flatMap Node.uuids ++ outside) ∧
      ∀ cs, (t.setChildren n.uuid cs).uuids.Perm (cs.flatMap Node.uuids ++ outside) := by
  obtain ⟨before, behind, he, hf⟩ := Node.outline_edit ht hn fun u _ => u
  have perm : ∀ cs : List Node, (before ++ (n.uuid :: cs.flatMap Node.uuids) ++ behind).Perm
      (cs.flatMap Node.uuids ++ (before ++ n.uuid :: behind)) := by
    intro cs
    grind [List.perm_append_comm]
  refine ⟨before ++ n.uuid :: behind, ?_, fun cs => ?_⟩
  · rw [uuids, Node.uuids_eq_outline, he, ← Node.uuids_eq_outline, Node.uuids_eq]
    exact perm n.children
  · rw [uuids, Node.uuids_eq_outline, setChildren, Tree.edit, hf, ← Node.uuids_eq_outline,
      Node.uuids_eq]
    exact perm cs

/-- A node of a tree with other children of `u` is `u` itself, one of those below it, or an old node. -/
theorem mem_all_setChildren (ht : t.uuids.Nodup) {n k : Node} (hn : n ∈ t.all) {cs : List Node}
    (h : k ∈ (t.setChildren n.uuid cs).all) :
    k = { n with children := cs } ∨ (∃ c ∈ cs, k ∈ c.all) ∨
      ∃ m ∈ t.all, m.uuid ≠ n.uuid ∧ k = m.edit n.uuid fun n => { n with children := cs } := by
  rcases Node.mem_all_edit h with ⟨m, hm, hu, hk⟩ | ⟨m, hm, hu, hk⟩
  · obtain rfl := Node.eq_of_uuid ht hm hn hu
    rcases Node.mem_all.1 hk with rfl | ⟨c, hc, hk⟩
    · exact .inl rfl
    · exact .inr (.inl ⟨c, hc, hk⟩)
  · exact .inr (.inr ⟨m, hm, hu, hk⟩)

theorem mem_setChildren_self {n : Node} (ht : t.uuids.Nodup) (hn : n ∈ t.all) (cs : List Node) :
    { n with children := cs } ∈ (t.setChildren n.uuid cs).all :=
  Node.mem_edit_of_mem ht hn rfl (Node.mem_all_self _)

/-- The parent of `n` has it with the other children. -/
theorem mem_setChildren_parent (ht : t.uuids.Nodup) {p n : Node} (hp : p ∈ t.all) (hn : n ∈ p.children)
    (cs : List Node) : ∃ q ∈ (t.setChildren n.uuid cs).all, q = p.edit n.uuid (fun n => { n with children := cs }) ∧
      q.uuid = p.uuid ∧ { n with children := cs } ∈ q.children := by
  have hne : p.uuid ≠ n.uuid := fun h => Node.uuid_notMem_below (Node.nodup_of_mem hp ht)
    (List.mem_flatMap.2 ⟨n, hn, h ▸ Node.uuid_mem_uuids n.mem_all_self⟩)
  refine ⟨_, Node.edit_mem_edit hp fun m hm hmu hin => ?_, rfl, Node.uuid_edit fun h => absurd h hne, ?_⟩
  · obtain rfl := Node.eq_of_uuid ht hm (mem_all_of_child hp hn) hmu
    exact absurd (Node.length_all_le hin) (not_le.2 (Node.length_all_lt_of_child hn))
  · rw [Node.edit_of_ne hne]
    exact List.mem_map.2 ⟨n, hn, Node.edit_self rfl⟩

/-- A node that `n` is not in, and that is not below `n`, stays. -/
theorem mem_setChildren_of_mem (ht : t.uuids.Nodup) {n k : Node} (hn : n ∈ t.all) (hk : k ∈ t.all)
    (hnk : n.uuid ∉ k.uuids) (hkn : ∀ c ∈ n.children, k ∉ c.all) (cs : List Node) :
    k ∈ (t.setChildren n.uuid cs).all := by
  have hmem : (k.edit n.uuid fun n => { n with children := cs }) ∈ (t.setChildren n.uuid cs).all := by
    refine Node.edit_mem_edit hk fun m hm hu hkm => ?_
    obtain rfl := Node.eq_of_uuid ht hm hn hu
    exact (Node.mem_all.1 hkm).resolve_right fun ⟨c, hc, h⟩ => hkn c hc h
  rwa [Node.edit_of_notMem hnk] at hmem

/-- A node that `n` is not in, and that is not among what was put below `n`, was there before. -/
theorem mem_of_mem_setChildren (ht : t.uuids.Nodup) {n k : Node} (hn : n ∈ t.all) {cs : List Node}
    (hk : k ∈ (t.setChildren n.uuid cs).all) (hnk : n.uuid ∉ k.uuids) (hkc : ∀ c ∈ cs, k ∉ c.all) :
    k ∈ t.all := by
  rcases mem_all_setChildren ht hn hk with rfl | ⟨c, hc, h⟩ | ⟨m, hm, -, rfl⟩
  · exact absurd (Node.uuid_mem_uuids (Node.mem_all_self _)) hnk
  · exact absurd h (hkc c hc)
  · have hnm : n.uuid ∉ m.uuids := by
      intro hnm
      obtain ⟨q, hq, hqu⟩ := Node.mem_uuids.1 hnm
      have hqe := Node.mem_edit_of_mem (Node.nodup_of_mem hm ht) hq hqu
        (f := fun n => { n with children := cs }) (Node.mem_all_self _)
      have hself := Node.uuid_mem_uuids hqe
      rw [show ({ q with children := cs } : Node).uuid = n.uuid from hqu] at hself
      exact hnk hself
    rwa [Node.edit_of_notMem hnm]

theorem Valid.setChildren (h : t.Valid) {n : Node} (hn : n ∈ t.all) {cs : List Node}
    (hk : ∀ c ∈ cs, n.kind.allows c.kind = true ∧ c.Allowed)
    (hu : (t.setChildren n.uuid cs).uuids.Nodup) : (t.setChildren n.uuid cs).Valid := by
  refine h.edit (fun m hm hmu => ⟨rfl, ?_⟩) hu
  obtain rfl := Node.eq_of_uuid h.nodup hm hn hmu
  exact Node.allowed_iff.2 hk

/-- The children that a node has are no change. -/
theorem setChildren_self {n : Node} (ht : t.uuids.Nodup) (hn : n ∈ t.all) :
    t.setChildren n.uuid n.children = t := by
  apply congrArg (Tree.mk t.kind)
  apply Node.edit_eq_self
  intro k hk hu
  obtain rfl := Node.eq_of_uuid ht hk hn hu
  exact k.eta

/-- The last children that are put below a node stay. -/
theorem setChildren_setChildren (t : Tree) (u : Uuid) (cs ds : List Node) :
    (t.setChildren u cs).setChildren u ds = t.setChildren u ds :=
  congrArg (Tree.mk t.kind) (Node.edit_edit t.root fun _ h => h)

/-- What is put in the place of a node that keeps its attributes. -/
theorem edit_eq_setChildren {n : Node} (ht : t.uuids.Nodup) (hn : n ∈ t.all) (cs : List Node) :
    (t.edit n.uuid fun _ => { n with children := cs }) = t.setChildren n.uuid cs := by
  apply congrArg (Tree.mk t.kind)
  apply Node.edit_congr
  intro k hk hu
  obtain rfl := Node.eq_of_uuid ht hk hn hu
  rfl

/-- A change of the attributes below a node only. -/
theorem setChildren_map_mapData {n : Node} (ht : t.uuids.Nodup) (hn : n ∈ t.all)
    {g : Uuid → Data → Data} (hg : ∀ m ∈ t.all, m.uuid ∉ n.children.flatMap Node.uuids →
      g m.uuid m.data = m.data) :
    t.setChildren n.uuid (n.children.map (Node.mapData g)) = t.mapData g := by
  have hroot : ∀ r : Node, r.uuids.Nodup → n ∈ r.all →
      (∀ m ∈ r.all, m.uuid ∉ n.children.flatMap Node.uuids → g m.uuid m.data = m.data) →
        (r.edit n.uuid fun k => { k with children := n.children.map (Node.mapData g) }) = r.mapData g := by
    intro r
    induction r using Node.inductOn with
    | h r ih =>
      intro hr hnr hg
      have hself : g r.uuid r.data = r.data := by
        refine hg r r.mem_all_self fun h => Node.uuid_notMem_below hr ?_
        obtain ⟨c, hc, hu⟩ := List.mem_flatMap.1 h
        rcases Node.mem_all.1 hnr with rfl | ⟨d, hd, hnd⟩
        · exact List.mem_flatMap.2 ⟨c, hc, hu⟩
        · exact List.mem_flatMap.2 ⟨d, hd, Node.uuids_subset
            (Node.mem_all_trans (Node.mem_all_of_child hc) hnd) hu⟩
      rcases Node.mem_all.1 hnr with rfl | ⟨d, hd, hnd⟩
      · rw [Node.edit_self rfl, Node.mapData_eq, hself]
      · have hne : r.uuid ≠ n.uuid := fun h =>
          Node.uuid_notMem_below hr (List.mem_flatMap.2 ⟨d, hd, h ▸ Node.uuid_mem_uuids hnd⟩)
        rw [Node.edit_of_ne hne, Node.mapData_eq, hself]
        refine congrArg (Node.mk _ _) (List.map_congr_left fun c hc => ?_)
        have hcr := Node.mem_all_of_child hc
        by_cases hnc : n ∈ c.all
        · exact ih c hc (Node.nodup_of_mem hcr hr) hnc fun m hm => hg m (Node.mem_all_trans hm hcr)
        · -- Another child is left alone.
          have hother : ∀ u ∈ n.uuids, u ∉ c.uuids := fun u hu huc =>
            hnc (Node.child_unique hr hc hd huc (Node.uuids_subset hnd hu) ▸ hnd)
          rw [Node.edit_of_notMem (hother _ (Node.uuid_mem_uuids n.mem_all_self)), Node.mapData_eq_self]
          refine fun m hm => hg m (Node.mem_all_trans hm hcr) fun h => ?_
          exact hother m.uuid (by rw [Node.uuids_eq]; exact List.mem_cons_of_mem _ h) (Node.uuid_mem_uuids hm)
  exact congrArg (Tree.mk t.kind) (hroot t.root ht hn hg)

end Tree

end DeviceModel
