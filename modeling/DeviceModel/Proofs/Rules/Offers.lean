import DeviceModel.Proofs.Rules.NewNodes

/-!
What the rules offer they also make. Main statements: no child of a kind that is offered fails to be made
(`makes_newChild`), and none of a drop that is not refused (`makes_childFrom`); there are no references to
blocks in it but the one that is made of a repeating block (`noReference_newChild`, `references_childFrom`).
-/

namespace DeviceModel

namespace Lookup

variable {l : Lookup} {u : Uuid} {n : Node}

/-- A node is found in the first tree that has its identifier. -/
theorem exists_treeOf? (h : l.node? u = some n) : ∃ t, l.treeOf? u = some t ∧ t.find? u = some n := by
  induction l with
  | nil => cases h
  | cons t l ih =>
    rw [node?, List.findSome?_cons] at h
    rw [treeOf?, List.find?_cons]
    cases hf : t.find? u with
    | some m =>
      rw [hf] at h
      obtain ⟨hm, rfl⟩ := Tree.mem_of_find? hf
      rw [Tree.contains_iff.2 (Node.uuid_mem_uuids hm)]
      exact ⟨t, rfl, hf.trans h⟩
    | none =>
      rw [hf] at h
      have hno : t.contains u = false := Bool.eq_false_iff.2 fun hc => by
        obtain ⟨m, hm, hu⟩ := Tree.mem_uuids.1 (Tree.contains_iff.1 hc)
        exact List.find?_eq_none.1 hf m hm (by simp [hu])
      rw [hno]
      exact ih h

end Lookup

/-- Neither the node is a reference to a block nor anything below it. -/
def Node.NoReference (n : Node) : Prop := ∀ x ∈ n.all, x.kind.isBlockReference = false

namespace Rules

/-- Whatever the supply, the step gives a node. -/
def Makes (b : Build Node) : Prop := ∀ s, ∃ n s', Gives b s n s'

variable {j : TreeKind} {t : Tree} {p n : Node} {k : Kind} {l : Lookup}

theorem makes_new (k : Kind) (attrs : List (Attr × Value)) (cs : List Node) : Makes (new k attrs cs) :=
  fun _ => ⟨_, _, gives_new.2 ⟨rfl, rfl⟩⟩

theorem makes_bind {b : Build Node} {f : Node → Build Node} (hb : Makes b) (hf : ∀ n, Makes (f n)) :
    Makes (b >>= f) := by
  intro s
  obtain ⟨m, v, hm⟩ := hb s
  obtain ⟨n, s', hn⟩ := hf m v
  exact ⟨n, s', gives_bind.2 ⟨m, v, hm, hn⟩⟩

/-! ### Children that are asked for -/

/-- The kinds of which new children are made. -/
def newKinds : TreeKind → List Kind
  | .parameters => .enumerator :: Kind.root.childKinds
  | .can => [.message, .multiplexedMessage, .multiplexedMessageClone, .multiplexer, .signal]
  | .sunSpec => [.sunSpecModel, .fixedBlock, .dataPoint, .dataPointBitfield, .dataPointBitfieldMember]
  | .staticModbus => [.functionData, .functionDataBitfield, .functionDataBitfieldMember]
  | .anomalies => [.anomalyTable, .anomaly, .anomalySource]

theorem mem_newKinds (h : k ∈ (Rules.ofTree j).addable t p) : k ∈ newKinds j := by
  have listed : ∀ {ks : List Kind}, k ∈ ks → ks.all (newKinds j).contains = true → k ∈ newKinds j :=
    fun hk hks => List.contains_iff_mem.1 (List.all_eq_true.1 hks _ hk)
  cases j with
  | parameters =>
    replace h : k ∈ Parameters.addable t p := h
    unfold Parameters.addable at h
    (repeat' split at h) <;> exact listed h (by decide)
  | can =>
    replace h : k ∈ Can.addable t p := h
    unfold Can.addable at h
    (repeat' split at h) <;> exact listed h (by decide)
  | sunSpec =>
    replace h : k ∈ SunSpec.addable t p := h
    unfold SunSpec.addable at h
    (repeat' split at h) <;> exact listed h (by decide)
  | staticModbus =>
    replace h : k ∈ Modbus.addable t p := h
    unfold Modbus.addable at h
    (repeat' split at h) <;> exact listed h (by decide)
  | anomalies =>
    replace h : k ∈ Anomalies.addable t p := h
    unfold Anomalies.addable at h
    split at h <;> exact listed h (by decide)

theorem SunSpec.makes_header (l : Lookup) : Makes (SunSpec.header l) :=
  makes_bind (makes_new _ _ _) fun _ => makes_bind (makes_new _ _ _) fun _ => makes_new _ _ _

/-- In the parameter tree one new node is made. -/
theorem Parameters.gives_newChild {s s' : Supply} (h : Gives (Parameters.newChild t p k l) s n s') :
    ∃ attrs, Gives (new k attrs) s n s' := by
  unfold Parameters.newChild at h
  split at h <;> first | exact ⟨_, h⟩ | exact absurd h gives_throw

theorem makes_newChild (h : k ∈ (Rules.ofTree j).addable t p) : Makes ((Rules.ofTree j).newChild t p k l) := by
  have hk := mem_newKinds h
  cases j with
  | parameters =>
    simp only [newKinds, Kind.childKinds, List.mem_cons, List.not_mem_nil, or_false] at hk
    rcases hk with rfl | rfl | rfl | rfl | rfl | rfl | rfl <;> exact makes_new _ _ _
  | can =>
    simp only [newKinds, List.mem_cons, List.not_mem_nil, or_false] at hk
    rcases hk with rfl | rfl | rfl | rfl | rfl <;> exact makes_new _ _ _
  | sunSpec =>
    simp only [newKinds, List.mem_cons, List.not_mem_nil, or_false] at hk
    rcases hk with rfl | rfl | rfl | rfl | rfl
    · exact makes_bind (SunSpec.makes_header l) fun _ => makes_bind (makes_new _ _ _) fun _ => makes_new _ _ _
    all_goals exact makes_new _ _ _
  | staticModbus =>
    simp only [newKinds, List.mem_cons, List.not_mem_nil, or_false] at hk
    rcases hk with rfl | rfl | rfl <;> exact makes_new _ _ _
  | anomalies =>
    simp only [newKinds, List.mem_cons, List.not_mem_nil, or_false] at hk
    rcases hk with rfl | rfl | rfl <;> exact makes_new _ _ _

/-! ### Children that drops make -/

/-- A view can be made of a table that is found. -/
theorem makes_newView (f : Family) (view : Data) (hn : l.node? n.uuid = some n) (hk : n.kind = .table) :
    Makes (newView f view n l) := by
  obtain ⟨params, hparams, hfind⟩ := Lookup.exists_treeOf? hn
  have hsources : Shape.seedSources params n.uuid = .ok (n.children.flatMap Shape.sourcesOf) := by
    rw [Shape.seedSources, Shape.tableNode, Tree.node_eq_ok.2 hfind]
    simp only [bind, Except.bind, hk, if_true]
    rfl
  intro s
  rw [newView, hparams]
  exact ⟨_, _, gives_bind.2 ⟨_, s, gives_liftM.2 ⟨hsources, rfl⟩, gives_liftM_state.2 rfl⟩⟩

/-- Nothing is moved to where only what expansion makes may stand. -/
theorem not_canMove_of_kind (hk : ∀ q : Kind, q.allows n.kind = true → q.isTableView = true) :
    t.canMove p n = false := by
  refine Bool.eq_false_iff.2 fun h => ?_
  simp only [Tree.canMove, Bool.and_eq_true, Bool.not_eq_true'] at h
  obtain ⟨⟨⟨⟨⟨⟨-, hallows⟩, -⟩, -⟩, hview⟩, -⟩, -⟩ := h
  exact Bool.false_ne_true (hview.symm.trans (hk _ hallows))

/-- What is dropped where it stands is moved, or it is a block that is named there. -/
theorem kind_of_canDrop {block target : Kind} (hb : ∀ q : Kind, q.allows block = true → q.isTableView = true)
    (hd : (n.kind == block && p.kind == target || t.canMove p n) = true)
    (hm : (n.kind != block && t.canMove p n) = false) : n.kind = block ∧ p.kind = target := by
  have hno : t.canMove p n = false := by
    by_cases hk : n.kind = block
    · exact not_canMove_of_kind (hk ▸ hb)
    · simpa [hk] using hm
  simpa [hno] using hd

theorem parameterLike_cases {k : Kind} (h : k.isParameterLike = true) :
    k = .parameter ∨ k = .arrayParameterElement ∨ k = .tableArrayElement := by
  simpa [Kind.isParameterLike, Kind.parameterLike] using h

/-- A node that may be dropped and is not moved gets a child made from it. -/
theorem makes_childFrom (hd : (Rules.ofTree j).canDrop t p n = true)
    (hm : t.contains n.uuid = true → (Rules.ofTree j).moves t p n = false)
    (hn : t.contains n.uuid = false → l.node? n.uuid = some n) : Makes ((Rules.ofTree j).childFrom t p n l) := by
  cases j with
  | parameters =>
    replace hd : t.canMove p n = true := hd
    have hc := hd
    simp only [Tree.canMove, Bool.and_eq_true] at hc
    exact absurd (hd.symm.trans (hm hc.1.1.1.1.1.1.1.1.1)) (by decide)
  | can =>
    replace hd : Can.canDrop t p n = true := hd
    show Makes (Can.childFrom t p n l)
    unfold Can.canDrop at hd
    split at hd
    · rename_i hc
      exact absurd (hd.symm.trans (hm hc)) (by decide)
    · rename_i hc
      have hkind : n.kind.isParameterLike = true ∨ n.kind = .table := by
        (repeat' split at hd) <;> simp_all
      unfold Can.childFrom
      rcases hkind with hk | hk
      · rw [if_pos hk]
        exact makes_new _ _ _
      · rw [if_neg (by rw [hk]; decide), if_pos hk]
        exact makes_newView _ _ (hn (Bool.eq_false_iff.2 hc)) hk
  | sunSpec =>
    replace hd : SunSpec.canDrop t p n = true := hd
    show Makes (SunSpec.childFrom t p n l)
    unfold SunSpec.canDrop at hd
    unfold SunSpec.childFrom
    split at hd
    · rename_i hc
      obtain ⟨hk, hp⟩ := kind_of_canDrop (by intro q; cases q <;> decide) hd (hm hc)
      rw [hk, hp]
      exact makes_new _ _ _
    · rename_i hc
      have hkind : ((p.kind = .fixedBlock ∨ p.kind = .dataPointBitfield) ∧ n.kind.isParameterLike = true) ∨
          (p.kind = .sunSpecModel ∧ n.kind = .table) := by
        (repeat' split at hd) <;> simp_all
      rcases hkind with ⟨hp, hk⟩ | ⟨hp, hk⟩
      · rcases hp with hp | hp <;> rcases parameterLike_cases hk with hk | hk | hk <;> rw [hp, hk] <;>
          exact makes_new _ _ _
      · rw [hp, hk]
        exact makes_newView _ _ (hn (Bool.eq_false_iff.2 hc)) hk
  | staticModbus =>
    replace hd : Modbus.canDrop t p n = true := hd
    show Makes (Modbus.childFrom t p n l)
    unfold Modbus.canDrop at hd
    unfold Modbus.childFrom
    split at hd
    · rename_i hc
      obtain ⟨hk, hp⟩ := kind_of_canDrop (by intro q; cases q <;> decide) hd (hm hc)
      rw [hk, hp]
      exact makes_new _ _ _
    · rename_i hc
      have hkind : (p.kind = .staticModbusRoot ∧ (n.kind = .table ∨ n.kind.isParameterLike = true)) ∨
          (p.kind = .functionDataBitfield ∧ n.kind.isParameterLike = true) := by
        (repeat' split at hd) <;> simp_all
      rcases hkind with ⟨hp, hk | hk⟩ | ⟨hp, hk⟩
      · rw [hp, hk]
        exact makes_newView _ _ (hn (Bool.eq_false_iff.2 hc)) hk
      all_goals rcases parameterLike_cases hk with hk | hk | hk <;> rw [hp, hk] <;> exact makes_new _ _ _
  | anomalies =>
    replace hd : Anomalies.canDrop t p n = true := hd
    show Makes (Anomalies.childFrom t p n l)
    unfold Anomalies.canDrop at hd
    split at hd
    · rename_i hc
      exact absurd (hd.symm.trans (hm hc)) (by decide)
    · rw [Anomalies.childFrom, if_pos hd]
      exact makes_new _ _ _

/-- A repeating block is dropped within its tree only. -/
theorem contains_of_canDrop (hd : (Rules.ofTree j).canDrop t p n = true) (hk : n.kind.isRepeatingBlock = true) :
    t.contains n.uuid = true := by
  by_contra hc
  have hlike : n.kind.isParameterLike = false ∧ n.kind ≠ .table := by
    revert hk
    cases n.kind <;> decide
  cases j with
  | parameters =>
    replace hd : t.canMove p n = true := hd
    simp only [Tree.canMove, Bool.and_eq_true] at hd
    exact hc hd.1.1.1.1.1.1.1.1.1
  | can =>
    replace hd : Can.canDrop t p n = true := hd
    rw [Can.canDrop, if_neg hc] at hd
    (repeat' split at hd) <;> simp_all
  | sunSpec =>
    replace hd : SunSpec.canDrop t p n = true := hd
    rw [SunSpec.canDrop, if_neg hc] at hd
    (repeat' split at hd) <;> simp_all
  | staticModbus =>
    replace hd : Modbus.canDrop t p n = true := hd
    rw [Modbus.canDrop, if_neg hc] at hd
    (repeat' split at hd) <;> simp_all
  | anomalies =>
    replace hd : Anomalies.canDrop t p n = true := hd
    rw [Anomalies.canDrop, if_neg hc] at hd
    simp_all

/-! ### References to blocks -/

section

variable {s s' : Supply} {c : Node}

theorem noReference_of_children (hk : c.kind.isBlockReference = false) (h : ∀ d ∈ c.children, d.NoReference) :
    c.NoReference := by
  intro x hx
  rcases Node.mem_all.1 hx with rfl | ⟨d, hd, hx⟩
  · exact hk
  · exact h d hd x hx

theorem noReference_new {attrs : List (Attr × Value)} {cs : List Node} (hk : k.isBlockReference = false)
    (hcs : ∀ d ∈ cs, d.NoReference) (h : Gives (new k attrs cs) s c s') : c.NoReference := by
  obtain ⟨rfl, -⟩ := gives_new.1 h
  exact noReference_of_children (by rwa [Node.kind, Data.kind_of]) hcs

theorem noReference_leaf {attrs : List (Attr × Value)} (hk : k.isBlockReference = false)
    (h : Gives (new k attrs) s c s') : c.NoReference :=
  noReference_new hk (by simp) h

theorem noReference_newView {f : Family} (hf : f.Lawful) {view : Data} (hk : view.kind = f.view)
    (hf' : f.view.isBlockReference = false ∧ f.point.isBlockReference = false) (h : Gives (newView f view n l) s c s') :
    c.NoReference := by
  unfold newView at h
  split at h
  · exact absurd h gives_throw
  · simp only [gives_bind, gives_liftM, gives_liftM_state] at h
    obtain ⟨sources, _, ⟨-, rfl⟩, h⟩ := h
    rw [seeded_eq] at h
    cases h
    refine noReference_of_children (by rw [Node.kind, hk, hf'.1]) fun d hd => ?_
    obtain ⟨hdk, hdc⟩ := (points_new hf sources (draw s).2).1 d hd
    exact noReference_of_children (hdk ▸ hf'.2) (by simp [hdc])

theorem noReference_newChild (h : Gives ((Rules.ofTree j).newChild t p k l) s c s') : c.NoReference := by
  cases j with
  | parameters =>
    replace h : Gives (Parameters.newChild t p k l) s c s' := h
    unfold Parameters.newChild at h
    split at h <;> first | exact noReference_leaf (by decide) h | exact absurd h gives_throw
  | can =>
    replace h : Gives (Can.newChild t p k l) s c s' := h
    unfold Can.newChild at h
    split at h <;> first | exact noReference_leaf (by decide) h | exact absurd h gives_throw
  | sunSpec =>
    replace h : Gives (SunSpec.newChild t p k l) s c s' := h
    unfold SunSpec.newChild at h
    split at h <;> first | exact noReference_leaf (by decide) h | exact absurd h gives_throw | skip
    simp only [SunSpec.header, gives_bind] at h
    obtain ⟨b, _, ⟨x, _, hx, y, _, hy, hb⟩, d, _, hd, h⟩ := h
    have hheader := noReference_new (by decide)
      (List.forall_mem_cons.2 ⟨noReference_leaf (by decide) hx, List.forall_mem_singleton.2 (noReference_leaf (by decide) hy)⟩) hb
    exact noReference_new (by decide)
      (List.forall_mem_cons.2 ⟨hheader, List.forall_mem_singleton.2 (noReference_leaf (by decide) hd)⟩) h
  | staticModbus =>
    replace h : Gives (Modbus.newChild t p k l) s c s' := h
    unfold Modbus.newChild at h
    split at h <;> first | exact noReference_leaf (by decide) h | exact absurd h gives_throw
  | anomalies =>
    replace h : Gives (Anomalies.newChild t p k l) s c s' := h
    unfold Anomalies.newChild at h
    split at h <;> first | exact noReference_leaf (by decide) h | exact absurd h gives_throw

/-- Nothing is made from a reference to a block. -/
theorem not_reference_of_childFrom (h : Gives ((Rules.ofTree j).childFrom t p n l) s c s') :
    n.kind.isBlockReference = false := by
  have hlike : n.kind.isParameterLike = true → n.kind.isBlockReference = false := by cases n.kind <;> decide
  cases j with
  | parameters => exact absurd h gives_throw
  | can =>
    replace h : Gives (Can.childFrom t p n l) s c s' := h
    unfold Can.childFrom at h
    split at h
    · exact hlike ‹_›
    split at h
    · rw [‹n.kind = _›]
      rfl
    · exact absurd h gives_throw
  | sunSpec =>
    replace h : Gives (SunSpec.childFrom t p n l) s c s' := h
    unfold SunSpec.childFrom at h
    (repeat' split at h) <;> first | exact hlike ‹_› | exact absurd h gives_throw | simp_all [Kind.isBlockReference]
  | staticModbus =>
    replace h : Gives (Modbus.childFrom t p n l) s c s' := h
    unfold Modbus.childFrom at h
    (repeat' split at h) <;> first | exact hlike ‹_› | exact absurd h gives_throw | simp_all [Kind.isBlockReference]
  | anomalies =>
    replace h : Gives (Anomalies.childFrom t p n l) s c s' := h
    unfold Anomalies.childFrom at h
    split at h
    · exact hlike (Bool.and_eq_true_iff.1 ‹_›).2
    · exact absurd h gives_throw

/-- What a drop makes has no references to blocks in it, or is one to the repeating block that is dropped. -/
theorem references_childFrom (h : Gives ((Rules.ofTree j).childFrom t p n l) s c s') : c.NoReference ∨
    (c.children = [] ∧ n.kind.isRepeatingBlock = true ∧ c.ref? .original = some n.uuid) := by
  cases j with
  | parameters => exact absurd h gives_throw
  | can =>
    replace h : Gives (Can.childFrom t p n l) s c s' := h
    unfold Can.childFrom at h
    split at h
    · exact .inl (noReference_leaf (by decide) h)
    split at h
    · exact .inl (noReference_newView Family.lawful_can (Data.kind_of _ _) (by decide) h)
    · exact absurd h gives_throw
  | sunSpec =>
    replace h : Gives (SunSpec.childFrom t p n l) s c s' := h
    unfold SunSpec.childFrom at h
    split at h
    · rename_i hk _
      obtain ⟨rfl, -⟩ := gives_new.1 h
      exact .inr ⟨rfl, by rw [hk]; rfl, rfl⟩
    · exact .inl (noReference_newView Family.lawful_sunSpec (Data.kind_of _ _) (by decide) h)
    · split at h
      · exact .inl (noReference_leaf (by decide) h)
      · exact absurd h gives_throw
    · split at h
      · exact .inl (noReference_leaf (by decide) h)
      · exact absurd h gives_throw
    · exact absurd h gives_throw
  | staticModbus =>
    replace h : Gives (Modbus.childFrom t p n l) s c s' := h
    unfold Modbus.childFrom at h
    split at h
    · rename_i hk _
      obtain ⟨rfl, -⟩ := gives_new.1 h
      exact .inr ⟨rfl, by rw [hk]; rfl, rfl⟩
    · exact .inl (noReference_newView Family.lawful_staticModbus (Data.kind_of _ _) (by decide) h)
    · split at h
      · exact .inl (noReference_leaf (by decide) h)
      · exact absurd h gives_throw
    · split at h
      · exact .inl (noReference_leaf (by decide) h)
      · exact absurd h gives_throw
    · exact absurd h gives_throw
  | anomalies =>
    replace h : Gives (Anomalies.childFrom t p n l) s c s' := h
    unfold Anomalies.childFrom at h
    split at h
    · exact .inl (noReference_leaf (by decide) h)
    · exact absurd h gives_throw

end

end Rules

end DeviceModel
