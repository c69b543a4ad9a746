import DeviceModel.Proofs.Tree.Traversal

/-!
What a change at one node does to the nodes of a tree. Main statements: an edit replaces one stretch of
the pre-order and keeps the rest (`outline_edit`), and what an edited tree lists is either new or an
edited node of the old one (`mem_all_edit`).
-/

namespace DeviceModel

namespace Node

@[simp] theorem each_edit (u : Uuid) (f : Node → Node) (cs : List Node) :
    edit.each u f cs = cs.map (edit u f) := by
  induction cs with
  | nil => rfl
  | cons c cs ih => simp [edit.each, ih]

theorem edit_self {u : Uuid} {f : Node → Node} {n : Node} (h : n.uuid = u) : n.edit u f = f n := by
  cases n; simp_all [edit]

theorem edit_of_ne {u : Uuid} {f : Node → Node} {n : Node} (h : n.uuid ≠ u) :
    n.edit u f = { n with children := n.children.map (edit u f) } := by
  cases n; simp_all [edit]

theorem edit_congr {u : Uuid} {f g : Node → Node} {n : Node}
    (h : ∀ m ∈ n.all, m.uuid = u → f m = g m) : n.edit u f = n.edit u g := by
  induction n using inductOn with
  | h n ih =>
    by_cases hu : n.uuid = u
    · rw [edit_self hu, edit_self hu, h n n.mem_all_self hu]
    · have hc : n.children.map (edit u f) = n.children.map (edit u g) :=
        List.map_congr_left fun c hc => ih c hc fun m hm => h m (mem_all_trans hm (mem_all_of_child hc))
      rw [edit_of_ne hu, edit_of_ne hu, hc]

theorem edit_eq_self {u : Uuid} {f : Node → Node} {n : Node}
    (h : ∀ m ∈ n.all, m.uuid = u → f m = m) : n.edit u f = n := by
  induction n using inductOn with
  | h n ih =>
    by_cases hu : n.uuid = u
    · rw [edit_self hu, h n n.mem_all_self hu]
    · have hc : n.children.map (edit u f) = n.children := (List.map_congr_left fun c hc =>
        ih c hc fun m hm => h m (mem_all_trans hm (mem_all_of_child hc))).trans (List.map_id _)
      rw [edit_of_ne hu, hc, eta]

/-- Two changes of one node that keep its identifier. -/
theorem edit_edit {u : Uuid} {f g : Node → Node} (n : Node) (hf : ∀ m, m.uuid = u → (f m).uuid = u) :
    (n.edit u f).edit u g = n.edit u fun m => g (f m) := by
  induction n using inductOn with
  | h n ih =>
    by_cases hu : n.uuid = u
    · rw [edit_self hu, edit_self hu, edit_self (hf n hu)]
    · rw [edit_of_ne hu, edit_of_ne hu, edit_of_ne (by exact hu), List.map_map]
      exact congrArg (Node.mk _ _) (List.map_congr_left ih)

theorem edit_of_notMem {u : Uuid} {f : Node → Node} {n : Node} (h : u ∉ n.uuids) : n.edit u f = n :=
  edit_eq_self fun _ hm hu => absurd (hu ▸ uuid_mem_uuids hm) h

theorem map_edit_of_notMem {u : Uuid} {f : Node → Node} {ns : List Node}
    (h : ∀ n ∈ ns, u ∉ n.uuids) : ns.map (edit u f) = ns :=
  (List.map_congr_left fun n hn => edit_of_notMem (h n hn)).trans (List.map_id _)

theorem uuid_edit {u : Uuid} {f : Node → Node} {n : Node} (hf : n.uuid = u → (f n).uuid = u) :
    (n.edit u f).uuid = n.uuid := by
  by_cases h : n.uuid = u
  · rw [edit_self h, hf h, h]
  · rw [edit_of_ne h]

theorem kind_edit {u : Uuid} {f : Node → Node} {n : Node} (hf : n.uuid = u → (f n).kind = n.kind) :
    (n.edit u f).kind = n.kind := by
  by_cases h : n.uuid = u
  · rw [edit_self h, hf h]
  · rw [edit_of_ne h]; rfl

/-- A node of an edited tree is one of the nodes put in or an edited node of the tree. -/
theorem mem_all_edit {u : Uuid} {f : Node → Node} {n k : Node} (h : k ∈ (n.edit u f).all) :
    (∃ m ∈ n.all, m.uuid = u ∧ k ∈ (f m).all) ∨ ∃ m ∈ n.all, m.uuid ≠ u ∧ k = m.edit u f := by
  induction n using inductOn with
  | h n ih =>
    by_cases hu : n.uuid = u
    · rw [edit_self hu] at h
      exact .inl ⟨n, mem_all_self n, hu, h⟩
    · rw [edit_of_ne hu, mem_all] at h
      rcases h with rfl | ⟨c, hc, h⟩
      · exact .inr ⟨n, mem_all_self n, hu, (edit_of_ne hu).symm⟩
      · obtain ⟨d, hd, rfl⟩ := List.mem_map.1 hc
        have up : ∀ {m}, m ∈ d.all → m ∈ n.all := fun hm => mem_all_trans hm (mem_all_of_child hd)
        rcases ih d hd h with ⟨m, hm, hmu, hk⟩ | ⟨m, hm, hmu, hk⟩
        · exact .inl ⟨m, up hm, hmu, hk⟩
        · exact .inr ⟨m, up hm, hmu, hk⟩

/-- The node put in at `u`, with all below it, is in the edited tree. -/
theorem mem_edit_of_mem {u : Uuid} {f : Node → Node} {n m k : Node} (hn : n.uuids.Nodup)
    (hm : m ∈ n.all) (hu : m.uuid = u) (hk : k ∈ (f m).all) : k ∈ (n.edit u f).all := by
  induction n using inductOn with
  | h n ih =>
    by_cases hnu : n.uuid = u
    · rw [edit_self hnu, eq_of_uuid hn (mem_all_self n) hm (hnu.trans hu.symm)]
      exact hk
    · rcases mem_all.1 hm with rfl | ⟨c, hc, hm⟩
      · exact absurd hu hnu
      · rw [edit_of_ne hnu]
        refine mem_all_trans (ih c hc (nodup_of_mem (mem_all_of_child hc) hn) hm) ?_
        exact mem_all_of_child (List.mem_map_of_mem hc)

/-- A node that is not below `u` stays, edited. -/
theorem edit_mem_edit {u : Uuid} {f : Node → Node} {n k : Node} (hk : k ∈ n.all)
    (h : ∀ m ∈ n.all, m.uuid = u → k ∈ m.all → k = m) : k.edit u f ∈ (n.edit u f).all := by
  induction n using inductOn with
  | h n ih =>
    rcases mem_all.1 hk with rfl | ⟨c, hc, hkc⟩
    · exact mem_all_self _
    · by_cases hu : n.uuid = u
      · rw [h n (mem_all_self n) hu hk]; exact mem_all_self _
      · have hd : c.edit u f ∈ (n.edit u f).children := by
          rw [edit_of_ne hu]; exact List.mem_map_of_mem hc
        refine mem_all_trans (ih c hc hkc fun m hm => ?_) (mem_all_of_child hd)
        exact h m (mem_all_trans hm (mem_all_of_child hc))

/-! ### The pre-order as a list -/

/-- What `h` tells of each node in pre-order. -/
def outline (h : Uuid → Data → β) (n : Node) : List β := n.all.map fun m => h m.uuid m.data

theorem outline_eq (h : Uuid → Data → β) (n : Node) :
    n.outline h = h n.uuid n.data :: n.children.flatMap (outline h) := by
  rw [outline, all_eq, List.map_cons, List.map_flatMap]; rfl

theorem uuids_eq_outline (n : Node) : n.uuids = n.outline fun u _ => u := rfl

/-- Before the part of the pre-order in `m` and behind it nothing changes when `m` is edited. -/
theorem outline_edit {n m : Node} (hn : n.uuids.Nodup) (hm : m ∈ n.all) (h : Uuid → Data → β) :
    ∃ before behind, n.outline h = before ++ m.outline h ++ behind ∧
      ∀ f, (n.edit m.uuid f).outline h = before ++ (f m).outline h ++ behind := by
  induction n using inductOn with
  | h n ih =>
    rcases mem_all.1 hm with rfl | ⟨c, hc, hmc⟩
    · exact ⟨[], [], by simp, fun f => by simp [edit_self]⟩
    · obtain ⟨before, behind, he, hf⟩ := ih c hc (nodup_of_mem (mem_all_of_child hc) hn) hmc
      obtain ⟨l, r, hlr, hl, hr⟩ := exists_siblings hn hc (uuid_mem_uuids hmc)
      have hne : n.uuid ≠ m.uuid := fun h => uuid_notMem_below hn
        (List.mem_flatMap.2 ⟨c, hc, h ▸ uuid_mem_uuids hmc⟩)
      refine ⟨h n.uuid n.data :: l.flatMap (outline h) ++ before,
        behind ++ r.flatMap (outline h), ?_, fun f => ?_⟩
      · rw [outline_eq, hlr, List.flatMap_append, List.flatMap_cons, he]
        simp only [List.cons_append, List.append_assoc]
      · rw [edit_of_ne hne, outline_eq]
        simp only [hlr, List.map_append, List.map_cons, map_edit_of_notMem hl,
          map_edit_of_notMem hr, List.flatMap_append, List.flatMap_cons, hf f, List.cons_append,
          List.append_assoc]

/-! ### Without a node -/

@[simp] theorem each_without (u : Uuid) (cs : List Node) :
    without.each u cs = (cs.filter (·.uuid ≠ u)).map (without u) := by
  induction cs with
  | nil => rfl
  | cons c cs ih => by_cases h : c.uuid = u <;> simp [without.each, h, ih]

theorem without_eq (u : Uuid) (n : Node) :
    n.without u = { n with children := (n.children.filter (·.uuid ≠ u)).map (without u) } := by
  cases n; simp [without]

@[simp] theorem uuid_without (u : Uuid) (n : Node) : (n.without u).uuid = n.uuid := by
  rw [without_eq]

@[simp] theorem kind_without (u : Uuid) (n : Node) : (n.without u).kind = n.kind := by
  rw [without_eq]; rfl

theorem without_of_notMem {u : Uuid} {n : Node} (h : u ∉ n.uuids) : n.without u = n := by
  induction n using inductOn with
  | h n ih =>
    rw [uuids_eq, List.mem_cons, List.mem_flatMap, not_or] at h
    have hf : n.children.filter (·.uuid ≠ u) = n.children := List.filter_eq_self.2 fun c hc =>
      decide_eq_true fun hcu => h.2 ⟨c, hc, hcu ▸ uuid_mem_uuids (mem_all_self c)⟩
    have hc : n.children.map (without u) = n.children :=
      (List.map_congr_left fun c hc => ih c hc fun hu => h.2 ⟨c, hc, hu⟩).trans (List.map_id _)
    rw [without_eq, hf, hc, eta]

theorem each_without_of_notMem {u : Uuid} {ns : List Node} (h : ∀ n ∈ ns, u ∉ n.uuids) :
    (ns.filter (·.uuid ≠ u)).map (without u) = ns := by
  have hf : ns.filter (·.uuid ≠ u) = ns := List.filter_eq_self.2 fun n hn =>
    decide_eq_true fun hnu => h n hn (hnu ▸ uuid_mem_uuids (mem_all_self n))
  rw [hf]
  exact (List.map_congr_left fun n hn => without_of_notMem (h n hn)).trans (List.map_id _)

theorem mem_all_without {u : Uuid} {n k : Node} (h : k ∈ (n.without u).all) :
    ∃ m ∈ n.all, k = m.without u := by
  induction n using inductOn with
  | h n ih =>
    rw [without_eq, mem_all] at h
    rcases h with rfl | ⟨c, hc, h⟩
    · exact ⟨n, mem_all_self n, (without_eq u n).symm⟩
    · obtain ⟨d, hd, rfl⟩ := List.mem_map.1 hc
      have hd := List.mem_of_mem_filter hd
      obtain ⟨m, hm, hk⟩ := ih d hd h
      exact ⟨m, mem_all_trans hm (mem_all_of_child hd), hk⟩

/-- A node that is not in what is taken out stays, without it. -/
theorem without_mem_without {u : Uuid} {n k : Node} (hk : k ∈ n.all)
    (h : ∀ m ∈ n.all, m.uuid = u → k ∉ m.all) : k.without u ∈ (n.without u).all := by
  induction n using inductOn with
  | h n ih =>
    rcases mem_all.1 hk with rfl | ⟨c, hc, hkc⟩
    · exact mem_all_self _
    · have hcu : c.uuid ≠ u := fun hcu => h c (mem_all_of_child hc) hcu hkc
      have hmem : c.without u ∈ (n.without u).children := by
        rw [without_eq]
        exact List.mem_map_of_mem (List.mem_filter.2 ⟨hc, by simpa using hcu⟩)
      refine mem_all_trans (ih c hc hkc fun m hm => ?_) (mem_all_of_child hmem)
      exact h m (mem_all_trans hm (mem_all_of_child hc))

/-- Taking a node out takes its part out of the pre-order. -/
theorem outline_without {n m : Node} (hn : n.uuids.Nodup) (hm : m ∈ n.all) (hr : m.uuid ≠ n.uuid)
    (h : Uuid → Data → β) :
    ∃ before behind, n.outline h = before ++ m.outline h ++ behind ∧
      (n.without m.uuid).outline h = before ++ behind := by
  induction n using inductOn with
  | h n ih =>
    rcases mem_all.1 hm with rfl | ⟨c, hc, hmc⟩
    · exact absurd rfl hr
    · obtain ⟨l, r, hlr, hl, hr⟩ := exists_siblings hn hc (uuid_mem_uuids hmc)
      have hnc := nodup_of_mem (mem_all_of_child hc) hn
      by_cases hcm : c.uuid = m.uuid
      · obtain rfl := eq_of_uuid hnc (mem_all_self c) hmc hcm
        refine ⟨h n.uuid n.data :: l.flatMap (outline h), r.flatMap (outline h), ?_, ?_⟩
        · rw [outline_eq, hlr, List.flatMap_append, List.flatMap_cons]
          simp only [List.cons_append, List.append_assoc]
        · rw [without_eq, outline_eq]
          simp only [hlr, List.filter_append, List.map_append, each_without_of_notMem hl,
            List.filter_cons, ne_eq, not_true_eq_false, decide_false, Bool.false_eq_true, if_false,
            each_without_of_notMem hr, List.flatMap_append, List.cons_append]
      · obtain ⟨before, behind, he, hf⟩ := ih c hc hnc hmc (Ne.symm hcm)
        refine ⟨h n.uuid n.data :: l.flatMap (outline h) ++ before,
          behind ++ r.flatMap (outline h), ?_, ?_⟩
        · rw [outline_eq, hlr, List.flatMap_append, List.flatMap_cons, he]
          simp only [List.cons_append, List.append_assoc]
        · rw [without_eq, outline_eq]
          simp only [hlr, List.filter_append, List.map_append, each_without_of_notMem hl,
            List.filter_cons, ne_eq, hcm, not_false_eq_true, decide_true, if_true, List.map_cons,
            each_without_of_notMem hr, List.flatMap_append, List.flatMap_cons, hf,
            List.cons_append, List.append_assoc]

end Node

end DeviceModel
