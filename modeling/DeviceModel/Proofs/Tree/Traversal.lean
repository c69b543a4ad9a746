import DeviceModel.Tree.Basic
import Mathlib

/-!
Nodes in pre-order. Main statements: where identifiers are distinct, an identifier finds its node
(`find?_of_mem`), and a node is listed below one parent only (`parent_unique`).
-/

namespace DeviceModel

namespace Node

@[simp] theorem eta (n : Node) : (⟨n.uuid, n.data, n.children⟩ : Node) = n := by cases n; rfl

/-- Induction on a node from its children. -/
theorem inductOn {P : Node → Prop} (n : Node)
    (h : ∀ n : Node, (∀ c ∈ n.children, P c) → P n) : P n :=
  h n fun c _ => inductOn c h
termination_by sizeOf n
decreasing_by
  rename_i hc
  obtain ⟨u, d, cs⟩ := n
  have := List.sizeOf_lt_of_mem hc
  simp only [Node.mk.sizeOf_spec] at *
  omega

@[simp] theorem below_eq (cs : List Node) : all.below cs = cs.flatMap all := by
  induction cs with
  | nil => rfl
  | cons c cs ih => simp [all.below, ih]

theorem all_eq (n : Node) : n.all = n :: n.children.flatMap all := by
  cases n; simp [all]

theorem mem_all {m n : Node} : m ∈ n.all ↔ m = n ∨ ∃ c ∈ n.children, m ∈ c.all := by
  rw [all_eq]; simp

theorem mem_all_of_child {c n : Node} (h : c ∈ n.children) : c ∈ n.all :=
  mem_all.2 (.inr ⟨c, h, mem_all_self c⟩)

theorem mem_all_trans {k m n : Node} (hk : k ∈ m.all) (hm : m ∈ n.all) : k ∈ n.all := by
  induction n using inductOn with
  | h n ih =>
    rcases mem_all.1 hm with rfl | ⟨c, hc, hm⟩
    · exact hk
    · exact mem_all.2 (.inr ⟨c, hc, ih c hc hm⟩)

/-- A node is no smaller than the nodes below it. -/
theorem length_all_le {m n : Node} (h : m ∈ n.all) : m.all.length ≤ n.all.length := by
  induction n using inductOn with
  | h n ih =>
    rcases mem_all.1 h with rfl | ⟨c, hc, h⟩
    · exact Nat.le_refl _
    · have hs : c.all.Sublist (n.children.flatMap all) := by
        rw [List.flatMap]
        exact List.sublist_flatten_of_mem (List.mem_map_of_mem hc)
      rw [all_eq n, List.length_cons]
      exact Nat.le_succ_of_le (Nat.le_trans (ih c hc h) hs.length_le)

theorem length_all_lt_of_child {c n : Node} (h : c ∈ n.children) : c.all.length < n.all.length := by
  have hs : c.all.Sublist (n.children.flatMap all) := by
    rw [List.flatMap]
    exact List.sublist_flatten_of_mem (List.mem_map_of_mem h)
  rw [all_eq n, List.length_cons]
  exact Nat.lt_succ_of_le hs.length_le

/-! ### Identifiers -/

theorem uuids_eq (n : Node) : n.uuids = n.uuid :: n.children.flatMap uuids := by
  rw [uuids, all_eq, List.map_cons, List.map_flatMap]; rfl

theorem mem_uuids {u : Uuid} {n : Node} : u ∈ n.uuids ↔ ∃ m ∈ n.all, m.uuid = u := by
  simp [uuids]

theorem uuid_mem_uuids {m n : Node} (h : m ∈ n.all) : m.uuid ∈ n.uuids := mem_uuids.2 ⟨m, h, rfl⟩

theorem uuids_subset {m n : Node} (h : m ∈ n.all) : m.uuids ⊆ n.uuids := by
  intro u hu
  obtain ⟨k, hk, rfl⟩ := mem_uuids.1 hu
  exact uuid_mem_uuids (mem_all_trans hk h)

theorem uuids_sublist {m n : Node} (h : m ∈ n.all) : m.uuids.Sublist n.uuids := by
  induction n using inductOn with
  | h n ih =>
    rcases mem_all.1 h with rfl | ⟨c, hc, h⟩
    · exact List.Sublist.refl _
    · rw [uuids_eq n, List.flatMap]
      exact ((ih c hc h).trans (List.sublist_flatten_of_mem (List.mem_map_of_mem hc))).cons _

theorem map_uuid_sublist (ns : List Node) : (ns.map uuid).Sublist (ns.flatMap uuids) := by
  induction ns with
  | nil => exact .slnil
  | cons n ns ih =>
    rw [List.map_cons, List.flatMap_cons, uuids_eq, List.cons_append]
    exact (ih.trans (List.sublist_append_right _ _)).cons_cons _

theorem nodup_of_mem {m n : Node} (h : m ∈ n.all) (hn : n.uuids.Nodup) : m.uuids.Nodup :=
  (uuids_sublist h).nodup hn

theorem uuid_notMem_below {n : Node} (hn : n.uuids.Nodup) : n.uuid ∉ n.children.flatMap uuids := by
  rw [uuids_eq] at hn
  exact (List.nodup_cons.1 hn).1

theorem nodup_below {n : Node} (hn : n.uuids.Nodup) : (n.children.flatMap uuids).Nodup := by
  rw [uuids_eq] at hn
  exact (List.nodup_cons.1 hn).2

/-- Siblings have no identifier in common. -/
theorem child_unique {n c d : Node} {u : Uuid} (hn : n.uuids.Nodup) (hc : c ∈ n.children)
    (hd : d ∈ n.children) (huc : u ∈ c.uuids) (hud : u ∈ d.uuids) : c = d := by
  by_contra hne
  have h := (List.nodup_flatMap.1 (nodup_below hn)).2
  have : Std.Symm (Function.onFun List.Disjoint uuids) := ⟨fun _ _ h _ ha hb => h hb ha⟩
  exact h.forall hc hd hne huc hud

/-- The siblings on both sides of the child that has `u` do not have it. -/
theorem notMem_siblings {n c : Node} {l r : List Node} {u : Uuid} (hn : n.uuids.Nodup)
    (h : n.children = l ++ c :: r) (hu : u ∈ c.uuids) : (∀ d ∈ l, u ∉ d.uuids) ∧ ∀ d ∈ r, u ∉ d.uuids := by
  have hb := nodup_below hn
  rw [h, List.flatMap_append, List.flatMap_cons, List.nodup_append, List.nodup_append] at hb
  refine ⟨fun d hd hud => ?_, fun d hd hud => ?_⟩
  · exact hb.2.2 u (List.mem_flatMap.2 ⟨d, hd, hud⟩) u (List.mem_append_left _ hu) rfl
  · exact hb.2.1.2.2 u hu u (List.mem_flatMap.2 ⟨d, hd, hud⟩) rfl

theorem exists_siblings {n c : Node} {u : Uuid} (hn : n.uuids.Nodup) (hc : c ∈ n.children)
    (hu : u ∈ c.uuids) :
    ∃ l r, n.children = l ++ c :: r ∧ (∀ d ∈ l, u ∉ d.uuids) ∧ ∀ d ∈ r, u ∉ d.uuids := by
  obtain ⟨l, r, hlr⟩ := List.append_of_mem hc
  exact ⟨l, r, hlr, notMem_siblings hn hlr hu⟩

/-- Where identifiers are distinct they tell nodes apart. -/
theorem eq_of_uuid {k m n : Node} (hn : n.uuids.Nodup) (hk : k ∈ n.all) (hm : m ∈ n.all)
    (h : k.uuid = m.uuid) : k = m :=
  List.inj_on_of_nodup_map hn hk hm h

/-- A node is a child of one node only. -/
theorem parent_unique {n p q c d : Node} (hn : n.uuids.Nodup) (hp : p ∈ n.all) (hq : q ∈ n.all)
    (hc : c ∈ p.children) (hd : d ∈ q.children) (h : c.uuid = d.uuid) : p = q := by
  induction n using inductOn with
  | h n ih =>
    have hcu : c.uuid ∈ p.uuids := uuid_mem_uuids (mem_all_of_child hc)
    have hdu : c.uuid ∈ q.uuids := h ▸ uuid_mem_uuids (mem_all_of_child hd)
    -- A child of `n` lies in no other child's tree, so that one of `n` itself is listed nowhere else.
    have top : ∀ {a b c d : Node}, c ∈ n.children → a ∈ n.children → b ∈ a.all → d ∈ b.children →
        c.uuid = d.uuid → False := by
      intro a b c d hc ha hb hd h
      have hda : d.uuid ∈ a.uuids := uuids_subset hb (uuid_mem_uuids (mem_all_of_child hd))
      obtain rfl := child_unique hn hc ha (uuid_mem_uuids (mem_all_self c)) (h ▸ hda)
      refine uuid_notMem_below (nodup_of_mem (mem_all_of_child hc) hn) ?_
      rw [h]
      rcases mem_all.1 hb with rfl | ⟨e, he, hb⟩
      · exact List.mem_flatMap.2 ⟨d, hd, uuid_mem_uuids (mem_all_self d)⟩
      · exact List.mem_flatMap.2 ⟨e, he, uuids_subset hb (uuid_mem_uuids (mem_all_of_child hd))⟩
    rcases mem_all.1 hp with rfl | ⟨a, ha, hpa⟩ <;> rcases mem_all.1 hq with rfl | ⟨b, hb, hqb⟩
    · rfl
    · exact (top hc hb hqb hd h).elim
    · exact (top hd ha hpa hc h.symm).elim
    · obtain rfl := child_unique hn ha hb (uuids_subset hpa hcu) (uuids_subset hqb hdu)
      exact ih a ha (nodup_of_mem (mem_all_of_child ha) hn) hpa hqb

end Node

namespace Tree

theorem mem_uuids {t : Tree} {u : Uuid} : u ∈ t.uuids ↔ ∃ n ∈ t.all, n.uuid = u := Node.mem_uuids

theorem root_mem (t : Tree) : t.root ∈ t.all := Node.mem_all_self _

theorem mem_of_find? {t : Tree} {u : Uuid} {n : Node} (h : t.find? u = some n) :
    n ∈ t.all ∧ n.uuid = u :=
  ⟨List.mem_of_find?_eq_some h, by simpa using List.find?_some h⟩

theorem find?_of_mem {t : Tree} {n : Node} (ht : t.uuids.Nodup) (h : n ∈ t.all) :
    t.find? n.uuid = some n := by
  cases hf : t.find? n.uuid with
  | none => simpa using List.find?_eq_none.1 hf n h
  | some m =>
    obtain ⟨hm, hu⟩ := mem_of_find? hf
    rw [Node.eq_of_uuid ht hm h hu]

theorem contains_iff {t : Tree} {u : Uuid} : t.contains u = true ↔ u ∈ t.uuids := by
  simp [contains, mem_uuids]

theorem node_eq_ok {t : Tree} {u : Uuid} {n : Node} : t.node u = .ok n ↔ t.find? u = some n := by
  unfold node; split <;> simp_all

theorem mem_all_of_mem_children {t : Tree} {u : Uuid} {c : Node} (h : c ∈ t.children u) :
    c ∈ t.all := by
  unfold children at h
  cases hf : t.find? u with
  | none => simp [hf] at h
  | some n =>
    rw [hf] at h
    exact Node.mem_all_trans (Node.mem_all_of_child h) (mem_of_find? hf).1

theorem mem_all_of_child {t : Tree} {n c : Node} (hn : n ∈ t.all) (hc : c ∈ n.children) :
    c ∈ t.all :=
  Node.mem_all_trans (Node.mem_all_of_child hc) hn

theorem descendants_of_mem {t : Tree} {n : Node} (ht : t.uuids.Nodup) (hn : n ∈ t.all) :
    t.descendants n.uuid = n.all := by
  rw [descendants, find?_of_mem ht hn]
  rfl

theorem mem_all_of_mem_descendants {t : Tree} {u : Uuid} {n : Node} (h : n ∈ t.descendants u) : n ∈ t.all := by
  unfold descendants at h
  cases hf : t.find? u with
  | none => simp [hf] at h
  | some m =>
    rw [hf] at h
    exact Node.mem_all_trans h (mem_of_find? hf).1

end Tree

end DeviceModel
