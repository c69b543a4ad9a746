import DeviceModel.Proofs.Expansion.Edits
import DeviceModel.Proofs.Tree.Spreading

/-!
Where nodes stand, with their attributes and without what is below them. Main statements: a change puts in
what it adds and keeps the rest, or some of it (`stands_edit_addChild`, `stands_without`, `stands_extend` and
others), and a node that is moved is the only one that stands elsewhere (`stands_move`).
-/

namespace DeviceModel

namespace Node

/-- Below the node `p` stands the node `u` with the attributes `d`. -/
def Stands (n : Node) (p u : Uuid) (d : Data) : Prop :=
  ∃ m ∈ n.all, m.uuid = p ∧ ∃ c ∈ m.children, c.uuid = u ∧ c.data = d

variable {n m c : Node} {p q u v : Uuid} {d : Data}

theorem stands_of_child (hm : m ∈ n.all) (hc : c ∈ m.children) : n.Stands m.uuid c.uuid c.data :=
  ⟨m, hm, rfl, c, hc, rfl, rfl⟩

theorem Stands.of_mem (h : m.Stands p u d) (hm : m ∈ n.all) : n.Stands p u d := by
  obtain ⟨k, hk, hp, hc⟩ := h
  exact ⟨k, mem_all_trans hk hm, hp, hc⟩

theorem not_stands_of_leaf (h : n.children = []) : ¬n.Stands p u d := by
  rintro ⟨m, hm, -, c, hc, -⟩
  rcases mem_all.1 hm with rfl | ⟨e, he, -⟩
  · rw [h] at hc
    cases hc
  · rw [h] at he
    cases he

/-- The node below `p`, where identifiers are distinct. -/
theorem Stands.child (h : n.Stands m.uuid u d) (hn : n.uuids.Nodup) (hm : m ∈ n.all) :
    ∃ c ∈ m.children, c.uuid = u ∧ c.data = d := by
  obtain ⟨k, hk, hu, hc⟩ := h
  exact eq_of_uuid hn hk hm hu ▸ hc

@[simp] theorem data_without (u : Uuid) (n : Node) : (n.without u).data = n.data := by rw [without_eq]

theorem data_edit {f : Node → Node} (hf : n.uuid = u → (f n).data = n.data) : (n.edit u f).data = n.data := by
  by_cases h : n.uuid = u
  · rw [edit_self h, hf h]
  · rw [edit_of_ne h]

/-! ### Added -/

theorem stands_addChild {row : Option Nat} (h : (n.addChild row c).Stands q u d) :
    n.Stands q u d ∨ c.Stands q u d ∨ (q = n.uuid ∧ u = c.uuid ∧ d = c.data) := by
  obtain ⟨k, hk, rfl, e, he, rfl, rfl⟩ := h
  rcases mem_all.1 hk with rfl | ⟨x, hx, hkx⟩
  · rcases mem_place.1 he with rfl | he
    · exact .inr (.inr ⟨rfl, rfl, rfl⟩)
    · exact .inl ⟨n, n.mem_all_self, rfl, e, he, rfl, rfl⟩
  · rcases mem_place.1 hx with rfl | hx
    · exact .inr (.inl (stands_of_child hkx he))
    · exact .inl ((stands_of_child hkx he).of_mem (mem_all_of_child hx))

theorem stands_edit_addChild {row : Option Nat} (h : (n.edit p fun m => m.addChild row c).Stands q u d) :
    n.Stands q u d ∨ c.Stands q u d ∨ (q = p ∧ u = c.uuid ∧ d = c.data) := by
  obtain ⟨k, hk, rfl, e, he, rfl, rfl⟩ := h
  rcases mem_all_edit hk with ⟨m, hm, rfl, hkm⟩ | ⟨m, hm, hu, rfl⟩
  · exact (stands_addChild (stands_of_child hkm he)).imp_left (·.of_mem hm)
  · rw [edit_of_ne hu] at he ⊢
    obtain ⟨x, hx, rfl⟩ := List.mem_map.1 he
    refine .inl ⟨m, hm, rfl, x, hx, ?_, ?_⟩
    · rw [uuid_edit fun h => h]
    · rw [data_edit fun _ => rfl]

/-- What stood somewhere stands there still. -/
theorem Stands.edit_addChild (hn : n.uuids.Nodup) (h : n.Stands q u d) (p : Uuid) (row : Option Nat) (c : Node) :
    (n.edit p fun m => m.addChild row c).Stands q u d := by
  obtain ⟨m, hm, rfl, e, he, rfl, rfl⟩ := h
  induction n using inductOn with
  | h n ih =>
    by_cases hu : n.uuid = p
    · rw [edit_self hu]
      rcases mem_all.1 hm with rfl | ⟨x, hx, hmx⟩
      · exact ⟨_, mem_all_self _, rfl, e, mem_place.2 (.inr he), rfl, rfl⟩
      · exact ⟨m, mem_all.2 (.inr ⟨x, mem_place.2 (.inr hx), hmx⟩), rfl, e, he, rfl, rfl⟩
    · rcases mem_all.1 hm with rfl | ⟨x, hx, hmx⟩
      · refine ⟨_, mem_all_self _, ?_, e.edit p fun m => m.addChild row c, ?_, ?_, ?_⟩
        · rw [edit_of_ne hu]
        · rw [edit_of_ne hu]
          exact List.mem_map_of_mem he
        · rw [uuid_edit fun h => h]
        · rw [data_edit fun _ => rfl]
      · have hmem : (x.edit p fun m => m.addChild row c) ∈ (n.edit p fun m => m.addChild row c).children := by
          rw [edit_of_ne hu]
          exact List.mem_map_of_mem hx
        exact (ih x hx (nodup_of_mem (mem_all_of_child hx) hn) hmx).of_mem (mem_all_of_child hmem)

theorem stands_extend {g : Uuid → List Node} (h : (n.extend g).Stands q u d) :
    n.Stands q u d ∨ ∃ m ∈ n.all, ∃ c ∈ g m.uuid, c.Stands q u d ∨ (q = m.uuid ∧ u = c.uuid ∧ d = c.data) := by
  obtain ⟨k, hk, rfl, e, he, rfl, rfl⟩ := h
  rcases mem_all_extend hk with ⟨m, hm, rfl⟩ | ⟨m, hm, c, hc, hkc⟩
  · rw [children_extend] at he
    rcases List.mem_append.1 he with he | he
    · obtain ⟨x, hx, rfl⟩ := List.mem_map.1 he
      exact .inl ⟨m, hm, m.uuid_extend.symm, x, hx, x.uuid_extend.symm, x.data_extend.symm⟩
    · exact .inr ⟨m, hm, e, he, .inr ⟨m.uuid_extend, rfl, rfl⟩⟩
  · exact .inr ⟨m, hm, c, hc, .inl (stands_of_child hkc he)⟩

/-- A change of attributes changes those of one node. -/
theorem stands_edit {f : Node → Node} (hf : ∀ m : Node, (f m).uuid = m.uuid ∧ (f m).children = m.children)
    (h : (n.edit p f).Stands q u d) : n.Stands q u d ∨ ∃ m ∈ n.all, m.uuid = p ∧ d = (f m).data := by
  obtain ⟨k, hk, rfl, e, he, rfl, rfl⟩ := h
  rcases mem_all_edit hk with ⟨m, hm, rfl, hkm⟩ | ⟨m, hm, hu, rfl⟩
  · rcases mem_all.1 hkm with rfl | ⟨x, hx, hkx⟩
    · rw [(hf m).1]
      exact .inl (stands_of_child hm ((hf m).2 ▸ he))
    · exact .inl ((stands_of_child hkx he).of_mem (mem_all_trans (mem_all_of_child ((hf m).2 ▸ hx)) hm))
  · have huuid : ∀ x : Node, (x.edit p f).uuid = x.uuid := fun x => by
      by_cases hx : x.uuid = p
      · rw [edit_self hx, (hf x).1]
      · rw [edit_of_ne hx]
    have hold := he
    rw [edit_of_ne hu] at hold
    obtain ⟨x, hx, rfl⟩ := List.mem_map.1 hold
    by_cases hxp : x.uuid = p
    · exact .inr ⟨x, mem_all_trans (mem_all_of_child hx) hm, hxp, by rw [edit_self hxp]⟩
    · rw [huuid, huuid, data_edit fun h => absurd h hxp]
      exact .inl (stands_of_child hm hx)

/-! ### Taken out -/

theorem stands_withoutAll {us : List Uuid} (h : (n.withoutAll us).Stands q u d) : n.Stands q u d := by
  obtain ⟨k, hk, rfl, e, he, rfl, rfl⟩ := h
  obtain ⟨m, hm, rfl⟩ := mem_all_withoutAll hk
  rw [children_withoutAll] at he
  obtain ⟨x, hx, rfl⟩ := List.mem_map.1 he
  exact ⟨m, hm, (uuid_withoutAll us m).symm, x, List.mem_of_mem_filter hx, (uuid_withoutAll us x).symm,
    (data_withoutAll us x).symm⟩

theorem stands_without (h : (n.without v).Stands q u d) : n.Stands q u d := by
  have hall : (n.withoutAll [v]).Stands q u d := h
  exact stands_withoutAll hall

/-- What is neither taken out nor below that stands where it stood. -/
theorem Stands.without (h : n.Stands q u d) (hu : u ≠ v) (hq : ∀ m ∈ n.all, m.uuid = v → q ∉ m.uuids) :
    (n.without v).Stands q u d := by
  obtain ⟨m, hm, rfl, e, he, rfl, rfl⟩ := h
  have hmem : m.without v ∈ (n.without v).all :=
    without_mem_without hm fun k hk hkv hmk => hq k hk hkv (uuid_mem_uuids hmk)
  refine ⟨_, hmem, uuid_without v m, e.without v, ?_, uuid_without v e, data_without v e⟩
  rw [without_eq]
  exact List.mem_map_of_mem (List.mem_filter.2 ⟨he, by simpa using hu⟩)

end Node

namespace Tree

variable {t t' : Tree}

/-- A node other than the root stands below another. -/
theorem exists_stands {n : Node} (hn : n ∈ t.all) (h : n ≠ t.root) : ∃ p, t.root.Stands p n.uuid n.data := by
  obtain ⟨m, hm, hnm⟩ := Node.exists_parent hn h
  exact ⟨m.uuid, Node.stands_of_child hm hnm⟩

/-- The node that something is moved to has it as a child. -/
theorem mem_all_move (ht : t.Valid) {n m : Node} (hn : n ∈ t.all) (hm : m ∈ t.all) {row : Option Nat}
    (h : t.move n.uuid m.uuid row = .ok t') : (m.without n.uuid).addChild row n ∈ t'.all := by
  obtain ⟨n', hn', m', hm', hnu, hmu, hr, hne, hanc, -, rfl⟩ := move_ok h
  obtain rfl := Node.eq_of_uuid ht.nodup hn' hn hnu
  obtain rfl := Node.eq_of_uuid ht.nodup hm' hm hmu
  have hstays := mem_without ht.nodup hn hm (notMem_of_isAncestor ht.nodup hm hn hne hanc)
  exact Node.mem_edit_of_mem (f := fun p => p.addChild row n') (ht.without hn hr).nodup_root hstays
    (Node.uuid_without _ m') (Node.mem_all_self _)

/-- What stands somewhere after a move is what was moved, or stood there before. -/
theorem stands_move (ht : t.Valid) {v p : Uuid} {row : Option Nat} (h : t.move v p row = .ok t') {q u : Uuid}
    {d : Data} : t'.root.Stands q u d ↔
      (t.root.Stands q u d ∧ u ≠ v) ∨ (q = p ∧ u = v ∧ ∃ n ∈ t.all, n.uuid = v ∧ n.data = d) := by
  obtain ⟨n, hn, m, hm, rfl, rfl, hr, -, -, -, ht'⟩ := move_ok h
  have hself := mem_all_move ht hn hm h
  have hwn := (ht.without hn hr).nodup_root
  have hmoved : n ∈ ((m.without n.uuid).addChild row n).children := Node.mem_place.2 (.inl rfl)
  subst ht'
  constructor
  · intro hstands
    rcases Node.stands_edit_addChild hstands with hold | hbelow | ⟨rfl, rfl, rfl⟩
    · refine .inl ⟨Node.stands_without hold, fun hu => ?_⟩
      obtain ⟨k, hk, rfl, e, he, hen, rfl⟩ := hold
      have hdis := (List.nodup_append.1 ((uuids_without ht.nodup hn hr).nodup_iff.2 ht.nodup)).2.2
      exact hdis _ (Node.uuid_mem_uuids (Node.mem_all_trans (Node.mem_all_of_child he) hk)) _
        (Node.uuid_mem_uuids n.mem_all_self) (hen.trans hu)
    · refine .inl ⟨hbelow.of_mem hn, fun hu => ?_⟩
      obtain ⟨k, hk, rfl, e, he, hen, rfl⟩ := hbelow
      have hlt := Node.length_all_lt_of_child he
      have hen' := Node.eq_of_uuid ht.nodup (Node.mem_all_trans (Node.mem_all_trans (Node.mem_all_of_child he) hk) hn)
        hn (hen.trans hu)
      have hle := Node.length_all_le hk
      rw [hen'] at hlt
      omega
    · exact .inr ⟨rfl, rfl, n, hn, rfl, rfl⟩
  · rintro (⟨hstands, hu⟩ | ⟨rfl, rfl, k, hk, hkn, rfl⟩)
    · by_cases hq : q ∈ n.uuids
      · -- Below what is moved.
        obtain ⟨k, hk, rfl⟩ := Node.mem_uuids.1 hq
        obtain ⟨e, he, rfl, rfl⟩ := hstands.child ht.nodup (Node.mem_all_trans hk hn)
        exact Node.stands_of_child (Node.mem_all_trans hk (Node.mem_all_trans (Node.mem_all_of_child hmoved) hself)) he
      · refine Node.Stands.edit_addChild hwn (hstands.without hu fun k hk hkn => ?_) _ _ _
        rwa [Node.eq_of_uuid ht.nodup hk hn hkn]
    · obtain rfl := Node.eq_of_uuid ht.nodup hk hn hkn
      exact ⟨_, hself, Node.uuid_without _ m, k, hmoved, rfl, rfl⟩

end Tree

end DeviceModel
