import DeviceModel.Proofs.Rules.ArrayTrees
import DeviceModel.Proofs.Rules.SharedSearches

/-!
What an element of an array takes from the parameter that it stands for. Main statements: in consistent arrays that
are mirrored there is such a parameter (`Consistent.exists_original`), and the attributes that are shared with it
are those found along the originals (`attribute?_eq_effective?`).
-/

namespace DeviceModel

namespace Tree

variable {t : Tree} {n : Node}

section

variable (h : t.Consistent)
include h

/-- An element that is not of the kind of a first one is behind it. -/
theorem Consistent.behind_first {a e : Node} (ha : a ∈ t.all) (hk : a.kind = .array) (he : e ∈ a.children)
    (hek : e.kind = .arrayParameterElement ∨ e.kind = .arrayGroupElement) : ∃ first ∈ a.children.head?,
      e ∈ a.children.tail ∧ Rules.Parameters.elementKind? first.kind = some e.kind ∧
        (first.kind = .parameter ∨ first.kind = .group) ∧ e.ref? .original = some first.uuid := by
  obtain ⟨first, hfirst, ⟨-, hself⟩ | ⟨htail, -, horiginal⟩⟩ := h.element ha hk he
  · rcases hek with hek | hek <;> simp [hek] at hself
  · have hcons := h.arrays a ha hk
    exact ⟨first, hfirst, htail, (hcons.others first hfirst e htail).1, hcons.first first hfirst, horiginal⟩

/-- An element of an array of parameters stands for the first one. -/
theorem Consistent.original_of_array {a : Node} (ha : a ∈ t.all) (hk : a.kind = .array) (hn : n ∈ a.children)
    (hnk : n.kind = .arrayParameterElement) :
    ∃ p ∈ t.all, p.kind = .parameter ∧ n.ref? .original = some p.uuid := by
  obtain ⟨first, hfirst, -, hkinds, hkind, horiginal⟩ := h.behind_first ha hk hn (.inl hnk)
  refine ⟨first, mem_all_of_child ha (List.mem_of_mem_head? hfirst), hkind.resolve_right fun hgroup => ?_, horiginal⟩
  rw [hgroup, hnk] at hkinds
  cases hkinds

/-- An element of another group of an array stands for a parameter of the first one. -/
theorem Consistent.original_of_group (hm : t.Mirrored) {a e : Node} (ha : a ∈ t.all) (hk : a.kind = .array)
    (he : e ∈ a.children) (hek : e.kind = .arrayGroupElement) (hn : n ∈ e.children)
    (hnk : n.kind = .arrayParameterElement) :
    ∃ p ∈ t.all, p.kind = .parameter ∧ n.ref? .original = some p.uuid := by
  obtain ⟨first, hfirst, htail, hkinds, hkind, -⟩ := h.behind_first ha hk he (.inr hek)
  have hgroup : first.kind = .group := hkind.resolve_left fun hparameter => by
    rw [hparameter, hek] at hkinds
    cases hkinds
  have hf := mem_all_of_child ha (List.mem_of_mem_head? hfirst)
  have hmember : n ∈ TableExpansion.members e := List.mem_filter.2 ⟨hn, by simp [hnk]⟩
  have horiginal := List.mem_map_of_mem (f := (·.ref? .original)) hmember
  rw [hm a ha hk first hfirst hgroup e htail, h.valid.members_group hf hgroup] at horiginal
  obtain ⟨p, hp, hpu⟩ := List.mem_map.1 horiginal
  obtain ⟨hpf, hpk⟩ := List.mem_filter.1 hp
  exact ⟨p, mem_all_of_child hf hpf, eq_of_beq hpk, hpu.symm⟩

/-- In consistent arrays that are mirrored, an element stands for a parameter. -/
theorem Consistent.exists_original (hm : t.Mirrored) (hn : n ∈ t.all) (hk : n.kind = .arrayParameterElement) :
    ∃ p ∈ t.all, p.kind = .parameter ∧ n.ref? .original = some p.uuid := by
  have holders : ∀ k : Kind, k.allows .arrayParameterElement = true → k = .array ∨ k = .arrayGroupElement := by
    intro k; cases k <;> decide
  have arrays : ∀ k : Kind, k.allows .arrayGroupElement = true → k = .array := by intro k; cases k <;> decide
  obtain ⟨e, he, hne⟩ := Node.exists_parent hn (h.valid.standIn_ne_root hk)
  rcases holders e.kind (hk ▸ h.valid.allowed e he n hne) with hek | hek
  · exact h.original_of_array he hek hne hk
  · have hroot : e ≠ t.root := by
      rintro rfl
      rw [h.valid.root, h.kind] at hek
      cases hek
    obtain ⟨a, ha, hea⟩ := Node.exists_parent he hroot
    exact h.original_of_group hm ha (arrays a.kind (hek ▸ h.valid.allowed a ha e hea)) hea hek hne hk

end

section

variable (ht : t.uuids.Nodup) (hn : n ∈ t.all) {a : Attr}
include ht hn

/-- What is no element of an array has its own attributes only. -/
theorem effective?_of_ne (hk : n.kind ≠ .arrayParameterElement) : t.effective? n.uuid a = n.data.get? a := by
  have hsearch : t.effectiveWithin a 1 n.uuid = some (n.data.get? a) := by
    rw [effectiveWithin, find?_of_mem ht hn]
    cases hv : n.data.get? a <;> simp [hv, hk]
  exact effective?_of_effectiveWithin hsearch

theorem effective?_of_original {p : Node} (hp : p ∈ t.all) (hk : n.kind = .arrayParameterElement)
    (hpk : p.kind ≠ .arrayParameterElement) (ho : n.ref? .original = some p.uuid)
    (ha : Kind.sharedAttributes.contains a = true) : t.effective? n.uuid a = p.data.get? a := by
  have hne : p.uuid ≠ n.uuid := fun hu => hpk (Node.eq_of_uuid ht hp hn hu ▸ hk)
  have hsearch : t.effectiveWithin a 2 n.uuid = some (p.data.get? a) := by
    rw [effectiveWithin, find?_of_mem ht hn]
    simp only [get?_of_shared hk ha, hk, ha, and_self, if_true, ho, hne, if_false]
    rw [effectiveWithin, find?_of_mem ht hp]
    cases hv : p.data.get? a <;> simp [hv, hpk]
  exact effective?_of_effectiveWithin hsearch

end

end Tree

namespace Lookup

variable {t : Tree} {l : Lookup} {n p : Node} {a : Attr}

theorem treeOf?_cons {u : Uuid} (hu : u ∈ t.uuids) : treeOf? (t :: l) u = some t := by
  rw [treeOf?, List.find?_cons, Tree.contains_iff.2 hu]

theorem effective?_cons (hn : n ∈ t.all) : effective? (t :: l) n.uuid a = t.effective? n.uuid a := by
  rw [effective?, treeOf?_cons (Node.uuid_mem_uuids hn)]
  rfl

theorem node?_cons (ht : t.uuids.Nodup) (hn : n ∈ t.all) : node? (t :: l) n.uuid = some n := by
  rw [node?, List.findSome?_cons, Tree.find?_of_mem ht hn]

/-- A parameter has no original. -/
theorem attributeFrom_parameter (hk : n.kind = .parameter) (steps : Nat) :
    attributeFrom l a (steps + 1) n = (n.data.get? a).filter (!·.isNull) := by
  have hnone : original? n = none := by
    have horiginal : n.data.get? .original = none := by
      rw [Data.get?_eq_none, show n.data.kind = _ from hk]
      rfl
    rw [original?, Node.ref?, Data.ref?, horiginal]
    rfl
  rw [attributeFrom]
  cases hv : (n.data.get? a).filter (!·.isNull) with
  | some v => rfl
  | none => simp [hnone]

theorem attributeFrom_original (hv : n.data.get? a = none) (ho : n.ref? .original = some p.uuid)
    (hne : p.uuid ≠ n.uuid) (hp : l.node? p.uuid = some p) (steps : Nat) :
    attributeFrom l a (steps + 1) n = attributeFrom l a steps p := by
  have horiginal : original? n = some p.uuid := by simp [original?, ho, hne]
  simp [attributeFrom, hv, horiginal, hp]

/-- What a parameter or an element of an array has in its own tree is what is found along the originals, but for
null. -/
theorem attribute?_eq_effective? (h : t.Consistent) (hm : t.Mirrored) (hn : n ∈ t.all)
    (hk : n.kind = .parameter ∨ n.kind = .arrayParameterElement) (ha : Kind.sharedAttributes.contains a = true) :
    attribute? (t :: l) n.uuid a = (t.effective? n.uuid a).filter (!·.isNull) := by
  have hnt := h.valid.nodup
  rw [attribute?, node?_cons hnt hn]
  rcases hk with hk | hk
  · rw [Tree.effective?_of_ne hnt hn (by simp [hk])]
    exact attributeFrom_parameter hk _
  · obtain ⟨p, hp, hpk, ho⟩ := h.exists_original hm hn hk
    have hne : p.uuid ≠ n.uuid := fun hu => by
      rw [Node.eq_of_uuid hnt hp hn hu, hk] at hpk
      cases hpk
    rw [Tree.effective?_of_original hnt hn hp hk (by simp [hpk]) ho ha]
    exact (attributeFrom_original (Tree.get?_of_shared hk ha) ho hne (node?_cons hnt hp) _).trans
      (attributeFrom_parameter hpk _)

end Lookup

end DeviceModel
