import DeviceModel.Proofs.Tree.Traversal

/-!
The way from the root down to a node, and the links read off it. Main statements: the parent of a node
is the one node that lists it (`parent?_eq_some`), and the ancestors of a node are its parent and the
ancestors of that (`ancestors_of_parent?`).
-/

namespace DeviceModel

namespace Node

theorem search_eq (u : Uuid) (cs : List Node) : trail?.search u cs = cs.findSome? (trail? u) := by
  induction cs with
  | nil => rfl
  | cons c cs ih =>
    rw [trail?.search, List.findSome?_cons, ih]
    cases c.trail? u <;> rfl

theorem trail?_eq (u : Uuid) (n : Node) :
    n.trail? u =
      if n.uuid = u then some [n] else (n.children.findSome? (trail? u)).map (n :: ·) := by
  cases n; simp [trail?, search_eq]

theorem trail?_self (n : Node) : n.trail? n.uuid = some [n] := by rw [trail?_eq, if_pos rfl]

theorem trail?_eq_none {u : Uuid} {n : Node} : n.trail? u = none ↔ u ∉ n.uuids := by
  induction n using inductOn with
  | h n ih =>
    rw [trail?_eq, uuids_eq, List.mem_cons, List.mem_flatMap]
    split
    · simp_all
    · rename_i hu
      simp only [Option.map_eq_none_iff, List.findSome?_eq_none_iff, Ne.symm hu, false_or,
        not_exists, not_and]
      exact forall₂_congr fun c hc => ih c hc

/-- The way to a node leads through the child that it lies in. -/
theorem trail?_of_child {n c : Node} {u : Uuid} (hn : n.uuids.Nodup) (hc : c ∈ n.children)
    (hu : u ∈ c.uuids) : n.trail? u = (c.trail? u).map (n :: ·) := by
  obtain ⟨l, r, hlr, hl, -⟩ := exists_siblings hn hc hu
  have hne : n.uuid ≠ u := fun h => uuid_notMem_below hn (List.mem_flatMap.2 ⟨c, hc, h ▸ hu⟩)
  have hnone : l.findSome? (trail? u) = none :=
    List.findSome?_eq_none_iff.2 fun d hd => trail?_eq_none.2 (hl d hd)
  obtain ⟨tr, htr⟩ := Option.ne_none_iff_exists'.1 (mt trail?_eq_none.1 (not_not.2 hu))
  rw [trail?_eq, if_neg hne, hlr, List.findSome?_append, hnone, Option.none_or,
    List.findSome?_cons, htr]

/-- The way to a child is the way to its parent and the child. -/
theorem trail?_child {n p c : Node} (hn : n.uuids.Nodup) (hp : p ∈ n.all) (hc : c ∈ p.children) :
    n.trail? c.uuid = (n.trail? p.uuid).map (· ++ [c]) := by
  induction n using inductOn with
  | h n ih =>
    rcases mem_all.1 hp with rfl | ⟨d, hd, hpd⟩
    · rw [trail?_of_child hn hc (uuid_mem_uuids (mem_all_self c)), trail?_self, trail?_self]
      rfl
    · have hcd := uuids_subset hpd (uuid_mem_uuids (mem_all_of_child hc))
      rw [trail?_of_child hn hd hcd, trail?_of_child hn hd (uuid_mem_uuids hpd),
        ih d hd (nodup_of_mem (mem_all_of_child hd) hn) hpd]
      cases d.trail? p.uuid <;> rfl

/-- The way to a node ends at it. -/
theorem trail?_of_mem {n m : Node} (hn : n.uuids.Nodup) (hm : m ∈ n.all) :
    ∃ above, n.trail? m.uuid = some (above ++ [m]) ∧ m ∉ above := by
  induction n using inductOn with
  | h n ih =>
    rcases mem_all.1 hm with rfl | ⟨c, hc, hmc⟩
    · exact ⟨[], trail?_self m, List.not_mem_nil⟩
    · obtain ⟨above, ha, hma⟩ := ih c hc (nodup_of_mem (mem_all_of_child hc) hn) hmc
      refine ⟨n :: above, by rw [trail?_of_child hn hc (uuid_mem_uuids hmc), ha]; rfl, ?_⟩
      rw [List.mem_cons, not_or]
      refine ⟨?_, hma⟩
      rintro rfl
      exact uuid_notMem_below hn (List.mem_flatMap.2 ⟨c, hc, uuid_mem_uuids hmc⟩)

/-- A node other than the one given has a parent in its tree. -/
theorem exists_parent {n m : Node} (hm : m ∈ n.all) (hne : m ≠ n) :
    ∃ p ∈ n.all, m ∈ p.children := by
  induction n using inductOn with
  | h n ih =>
    rcases mem_all.1 hm with rfl | ⟨c, hc, hmc⟩
    · exact absurd rfl hne
    · by_cases h : m = c
      · exact ⟨n, mem_all_self n, h ▸ hc⟩
      · obtain ⟨p, hp, hmp⟩ := ih c hc hmc h
        exact ⟨p, mem_all_trans hp (mem_all_of_child hc), hmp⟩

/-- Exactly the nodes that have `u` at or below them are on the way to it. -/
theorem mem_trail? {n x : Node} {u : Uuid} {tr : List Node} (hn : n.uuids.Nodup)
    (h : n.trail? u = some tr) : x ∈ tr ↔ x ∈ n.all ∧ u ∈ x.uuids := by
  induction n using inductOn generalizing tr with
  | h n ih =>
    by_cases hu : n.uuid = u
    · subst hu
      rw [trail?_self] at h
      cases h
      rw [List.mem_singleton]
      refine ⟨fun h => h ▸ ⟨mem_all_self x, uuid_mem_uuids (mem_all_self x)⟩, fun ⟨hx, hxu⟩ => ?_⟩
      rcases mem_all.1 hx with rfl | ⟨c, hc, hxc⟩
      · rfl
      · exact absurd (List.mem_flatMap.2 ⟨c, hc, uuids_subset hxc hxu⟩) (uuid_notMem_below hn)
    · have hmem : u ∈ n.uuids := by
        by_contra hmem
        rw [trail?_eq_none.2 hmem] at h
        cases h
      have hbelow := hmem
      rw [uuids_eq, List.mem_cons, List.mem_flatMap] at hbelow
      obtain ⟨c, hc, huc⟩ := hbelow.resolve_left (Ne.symm hu)
      rw [trail?_of_child hn hc huc, Option.map_eq_some_iff] at h
      obtain ⟨rest, hrest, rfl⟩ := h
      rw [List.mem_cons, ih c hc (nodup_of_mem (mem_all_of_child hc) hn) hrest,
        mem_all (m := x) (n := n)]
      constructor
      · rintro (rfl | ⟨hx, hxu⟩)
        · exact ⟨.inl rfl, hmem⟩
        · exact ⟨.inr ⟨c, hc, hx⟩, hxu⟩
      · rintro ⟨rfl | ⟨d, hd, hx⟩, hxu⟩
        · exact .inl rfl
        · obtain rfl := child_unique hn hc hd huc (uuids_subset hx hxu)
          exact .inr ⟨hx, hxu⟩

end Node

namespace Tree

theorem trail_of_mem {t : Tree} {n : Node} (ht : t.uuids.Nodup) (h : n ∈ t.all) :
    t.trail n.uuid = (t.ancestors n.uuid).reverse ++ [n] := by
  obtain ⟨above, ha, -⟩ := Node.trail?_of_mem ht h
  simp [ancestors, trail, ha]

theorem trail_of_notMem {t : Tree} {u : Uuid} (h : u ∉ t.uuids) : t.trail u = [] := by
  simp [trail, Node.trail?_eq_none.2 h]

theorem ancestors_of_notMem {t : Tree} {u : Uuid} (h : u ∉ t.uuids) : t.ancestors u = [] := by
  simp [ancestors, trail_of_notMem h]

theorem ancestors_root (t : Tree) : t.ancestors t.root.uuid = [] := by
  simp [ancestors, trail, Node.trail?_self]

theorem ancestors_of_child {t : Tree} {p c : Node} (ht : t.uuids.Nodup) (hp : p ∈ t.all)
    (hc : c ∈ p.children) : t.ancestors c.uuid = p :: t.ancestors p.uuid := by
  have h := trail_of_mem ht hp
  have hcp : t.trail c.uuid = t.trail p.uuid ++ [c] := by
    obtain ⟨above, ha, -⟩ := Node.trail?_of_mem ht hp
    simp only [trail, Node.trail?_child ht hp hc, ha, Option.map_some, Option.getD_some]
  rw [ancestors, hcp, List.dropLast_concat, h, List.reverse_append, List.reverse_reverse]
  rfl

/-- The parent of `u` is the one node that lists it. -/
theorem parent?_eq_some {t : Tree} {u : Uuid} {p : Node} (ht : t.uuids.Nodup) :
    t.parent? u = some p ↔ p ∈ t.all ∧ ∃ c ∈ p.children, c.uuid = u := by
  constructor
  · intro h
    by_cases hu : u ∈ t.uuids
    · obtain ⟨n, hn, rfl⟩ := mem_uuids.1 hu
      by_cases hr : n = t.root
      · rw [hr, parent?, ancestors_root] at h
        cases h
      · obtain ⟨q, hq, hnq⟩ := Node.exists_parent hn hr
        rw [parent?, ancestors_of_child ht hq hnq] at h
        cases h
        exact ⟨hq, n, hnq, rfl⟩
    · rw [parent?, ancestors_of_notMem hu] at h
      cases h
  · rintro ⟨hp, c, hc, rfl⟩
    rw [parent?, ancestors_of_child ht hp hc]
    rfl

theorem parent?_of_child {t : Tree} {p c : Node} (ht : t.uuids.Nodup) (hp : p ∈ t.all)
    (hc : c ∈ p.children) : t.parent? c.uuid = some p :=
  (parent?_eq_some ht).2 ⟨hp, c, hc, rfl⟩

/-- Going up by one link leads to the ancestors of the parent. -/
theorem ancestors_of_parent? {t : Tree} {u : Uuid} {p : Node} (ht : t.uuids.Nodup)
    (h : t.parent? u = some p) : t.ancestors u = p :: t.ancestors p.uuid := by
  obtain ⟨hp, c, hc, rfl⟩ := (parent?_eq_some ht).1 h
  exact ancestors_of_child ht hp hc

theorem ancestors_of_parent?_eq_none {t : Tree} {u : Uuid} (h : t.parent? u = none) :
    t.ancestors u = [] := by
  simpa [parent?] using h

theorem mem_ancestors {t : Tree} {n a : Node} (ht : t.uuids.Nodup) (hn : n ∈ t.all) :
    a ∈ t.ancestors n.uuid ↔ a ∈ t.all ∧ n.uuid ∈ a.uuids ∧ a ≠ n := by
  obtain ⟨above, ha, hna⟩ := Node.trail?_of_mem ht hn
  have hmem := fun x => Node.mem_trail? (x := x) ht ha
  have hanc : t.ancestors n.uuid = above.reverse := by simp [ancestors, trail, ha]
  rw [hanc, List.mem_reverse, all, ← and_assoc, ← hmem, List.mem_append, List.mem_singleton]
  refine ⟨fun h => ⟨.inl h, ?_⟩, fun ⟨h, hne⟩ => h.resolve_right hne⟩
  rintro rfl
  exact hna h

/-- What lies at or below a node is that node, or has it as an ancestor. -/
theorem mem_uuids_iff_isAncestor {t : Tree} {n a : Node} (ht : t.uuids.Nodup) (hn : n ∈ t.all) (ha : a ∈ t.all) :
    n.uuid ∈ a.uuids ↔ a.uuid = n.uuid ∨ t.isAncestor a.uuid n.uuid = true := by
  rw [isAncestor, List.any_eq_true]
  constructor
  · intro h
    by_cases hu : a.uuid = n.uuid
    · exact .inl hu
    · have habove := (mem_ancestors ht hn).2 ⟨ha, h, fun han => hu (congrArg Node.uuid han)⟩
      exact .inr ⟨a, habove, beq_self_eq_true _⟩
  · rintro (hu | ⟨b, hb, hu⟩)
    · exact hu ▸ Node.uuid_mem_uuids a.mem_all_self
    · obtain ⟨hb, hmem, -⟩ := (mem_ancestors ht hn).1 hb
      exact Node.eq_of_uuid ht hb ha (beq_iff_eq.1 hu) ▸ hmem

theorem notMem_of_isAncestor {t : Tree} {n a : Node} (ht : t.uuids.Nodup) (hn : n ∈ t.all) (ha : a ∈ t.all)
    (hne : a.uuid ≠ n.uuid) (h : t.isAncestor a.uuid n.uuid = false) : n.uuid ∉ a.uuids := by
  rw [mem_uuids_iff_isAncestor ht hn ha, h]
  simp [hne]

end Tree

end DeviceModel
