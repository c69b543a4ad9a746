import DeviceModel.Proofs.Rules.Generated

/-!
What the rules keep from the hand. Main statements: children are not offered below what expansion made, nor
made there by drops (`not_isDerived_of_addable`, `not_isDerived_of_childFrom`), and nothing is moved there
(`not_isDerived_of_canMove`); and what expansion made may not be deleted (`isGenerated_of_canDelete`).
-/

namespace DeviceModel

namespace Tree

variable {t : Tree} {n : Node}

/-- Nothing is generated in the tree of anomalies. -/
theorem isGenerated_of_anomalies (ht : t.Valid) (hk : t.kind = .anomalies) (hn : n ∈ t.all) :
    t.isGenerated n.uuid = false := by
  have hother : ∀ m ∈ t.all, ∀ k : Kind, k.tree ≠ .anomalies → m.kind ≠ k := by
    rintro m hm k h rfl
    exact h ((kind_of_mem ht hm).symm.trans hk)
  rw [isGenerated, find?_of_mem ht.nodup hn]
  simp only [Bool.or_eq_false_iff, beq_eq_false_iff_ne, List.any_eq_false, Bool.or_eq_true, beq_iff_eq, not_or]
  refine ⟨⟨⟨hother n hn _ (by decide), hother n hn _ (by decide)⟩, hother n hn _ (by decide)⟩, fun a ha => ?_⟩
  have hat := ((mem_ancestors ht.nodup hn).1 ha).1
  refine ⟨fun hview => ?_, hother a hat _ (by decide)⟩
  have htree := (kind_of_mem ht hat).symm.trans hk
  revert hview htree
  cases a.kind <;> decide

theorem allows_of_canMove {p : Node} (h : t.canMove p n = true) : p.kind.allows n.kind = true := by
  simp only [canMove, Bool.and_eq_true] at h
  exact h.1.1.1.1.1.2

end Tree

namespace Rules

variable {t : Tree} {p n : Node} {j : TreeKind}

/-- Nothing is offered below a view of a table, nor of a kind that is made in step with others. -/
theorem kind_of_addable {k : Kind} (h : k ∈ (Rules.ofTree j).addable t p) :
    p.kind.isTableView = false ∧ k.isMade = false := by
  refine ⟨Bool.eq_false_iff.2 fun hview => ?_, Bool.eq_false_iff.2 fun hmade => ?_⟩
  · have hk : p.kind = .canTable ∨ p.kind = .sunSpecTable ∨ p.kind = .modbusTable := by
      revert hview
      cases p.kind <;> decide
    rcases hk with hk | hk | hk <;> cases j <;> simp [Rules.ofTree, Rules.parameters, Rules.can, Rules.sunSpec,
      Rules.staticModbus, Rules.anomalies, Parameters.addable, Can.addable, SunSpec.addable, Modbus.addable,
      Anomalies.addable, hk] at h
  · have hk : (p.kind = .table ∧ k = .tableGroupElement) ∨ p.kind = .tableGroupElement ∨
        p.kind = .tableRepeatingBlockReference := by
      have hallows := allows_of_addable j h
      have hkinds : k = .tableGroupElement ∨ k = .tableArrayElement ∨
          k = .tableRepeatingBlockReferenceDataPointReference := by simpa [Kind.isMade] using hmade
      rcases hkinds with rfl | rfl | rfl <;> (revert hallows; cases p.kind <;> decide)
    rcases hk with ⟨hk, rfl⟩ | hk | hk <;> cases j <;> simp [Rules.ofTree, Rules.parameters, Rules.can, Rules.sunSpec,
      Rules.staticModbus, Rules.anomalies, Parameters.addable, Can.addable, SunSpec.addable, Modbus.addable,
      Anomalies.addable, hk] at h

/-- Whether nodes below one of the kind may be made in step with others. -/
def takesMade (k : Kind) : Bool := k.childKinds.any Kind.isMade

theorem isMade_of_allows {p k : Kind} (hp : takesMade p = false) (hk : p.allows k = true) : k.isMade = false :=
  Bool.eq_false_iff.2 fun hmade =>
    Bool.eq_false_iff.1 hp (List.any_eq_true.2 ⟨k, by simpa [Kind.allows] using hk, hmade⟩)

/-- What a drop makes a child of is for the hand, or of a kind that expansion does not make. -/
theorem kind_of_childFrom {l : Lookup} {s s' : Supply} {c : Node} (hd : (Rules.ofTree j).canDrop t p n = true)
    (hm : t.contains n.uuid = true → (Rules.ofTree j).moves t p n = false)
    (h : Gives ((Rules.ofTree j).childFrom t p n l) s c s') :
    takesMade p.kind = false ∧
      (p.kind ∉ Tree.derivedKinds ∨ (p.kind.isTableView = false ∧ t.isGenerated p.uuid = false)) := by
  -- The kinds that take drops, apart from those of the CAN tree.
  have hbeside : ∀ k, p.kind = k → takesMade k = false ∧ k ∉ Tree.derivedKinds → takesMade p.kind = false ∧
      (p.kind ∉ Tree.derivedKinds ∨ (p.kind.isTableView = false ∧ t.isGenerated p.uuid = false)) := by
    rintro k rfl ⟨hmade, hk⟩
    exact ⟨hmade, .inl hk⟩
  cases j with
  | parameters => exact absurd h gives_throw
  | can =>
    replace hd : Can.canDrop t p n = true := hd
    unfold Can.canDrop at hd
    split at hd
    · rename_i hcontains
      exact absurd (hd.symm.trans (hm hcontains)) (by decide)
    split at hd
    · cases hd
    rename_i hg
    have hkind : p.kind = .message ∨ p.kind = .multiplexer ∨ p.kind = .multiplexedMessage := by
      split at hd <;> simp_all
    rcases hkind with hk | hk | hk <;> exact ⟨by rw [hk]; decide, .inr ⟨by rw [hk]; decide, by simpa using hg⟩⟩
  | sunSpec =>
    replace h : Gives (SunSpec.childFrom t p n l) s c s' := h
    unfold SunSpec.childFrom at h
    split at h
    · exact hbeside .fixedBlock ‹_› (by decide)
    · exact hbeside .sunSpecModel ‹_› (by decide)
    · exact hbeside .dataPointBitfield ‹_› (by decide)
    · exact hbeside .fixedBlock ‹_› (by decide)
    · exact absurd h gives_throw
  | staticModbus =>
    replace h : Gives (Modbus.childFrom t p n l) s c s' := h
    unfold Modbus.childFrom at h
    split at h
    · exact hbeside .staticModbusRoot ‹_› (by decide)
    · exact hbeside .staticModbusRoot ‹_› (by decide)
    · exact hbeside .functionDataBitfield ‹_› (by decide)
    · exact hbeside .staticModbusRoot ‹_› (by decide)
    · exact absurd h gives_throw
  | anomalies =>
    replace h : Gives (Anomalies.childFrom t p n l) s c s' := h
    unfold Anomalies.childFrom at h
    split at h
    · rename_i hk
      exact hbeside .anomaly (by simpa using (Bool.and_eq_true_iff.1 hk).1) (by decide)
    · exact absurd h gives_throw

section

variable (ht : t.Valid)
include ht

theorem not_isDerived_of_childFrom {l : Lookup} {s s' : Supply} {c : Node} (hp : p ∈ t.all)
    (hd : (Rules.ofTree j).canDrop t p n = true)
    (hm : t.contains n.uuid = true → (Rules.ofTree j).moves t p n = false)
    (h : Gives ((Rules.ofTree j).childFrom t p n l) s c s') : ¬t.IsDerived p.uuid := by
  rcases (kind_of_childFrom hd hm h).2 with hk | ⟨hview, hg⟩
  · exact fun hderived => hk (Tree.kind_of_isDerived ht hp hderived)
  · exact Tree.not_isDerived_of_not_isGenerated ht hp hg hview

theorem not_isDerived_of_canMove (hp : p ∈ t.all) (h : t.canMove p n = true) :
    t.isGenerated n.uuid = false ∧ ¬t.IsDerived p.uuid := by
  simp only [Tree.canMove, Bool.and_eq_true, Bool.not_eq_true'] at h
  obtain ⟨⟨⟨⟨⟨-, hn⟩, hg⟩, hview⟩, -⟩, -⟩ := h
  exact ⟨hn, Tree.not_isDerived_of_not_isGenerated ht hp hg hview⟩

variable (hk : t.kind = j)
include hk

theorem isGenerated_of_addable {k : Kind} (hp : p ∈ t.all) (h : k ∈ (Rules.ofTree j).addable t p) :
    t.isGenerated p.uuid = false := by
  cases j with
  | anomalies => exact Tree.isGenerated_of_anomalies ht hk hp
  | parameters | can | sunSpec | staticModbus =>
    refine Bool.eq_false_iff.2 fun hg => ?_
    simp [Rules.ofTree, Rules.parameters, Rules.can, Rules.sunSpec, Rules.staticModbus, Parameters.addable, Can.addable,
      SunSpec.addable, Modbus.addable, hg] at h

theorem not_isDerived_of_addable {k : Kind} (hp : p ∈ t.all) (h : k ∈ (Rules.ofTree j).addable t p) :
    ¬t.IsDerived p.uuid :=
  Tree.not_isDerived_of_not_isGenerated ht hp (isGenerated_of_addable ht hk hp h) (kind_of_addable h).1

theorem isGenerated_of_canDelete (hn : n ∈ t.all) (h : (Rules.ofTree j).canDelete t n = true) :
    t.isGenerated n.uuid = false := by
  cases j with
  | anomalies => exact Tree.isGenerated_of_anomalies ht hk hn
  | parameters | can | sunSpec | staticModbus =>
    refine Bool.eq_false_iff.2 fun hg => ?_
    simp [Rules.ofTree, Rules.parameters, Rules.can, Rules.sunSpec, Rules.staticModbus, Parameters.canDelete,
      Can.canDelete, SunSpec.canDelete, Modbus.canDelete, hg] at h

end

end Rules

end DeviceModel
