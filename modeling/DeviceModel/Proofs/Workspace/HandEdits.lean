import DeviceModel.Proofs.Rules.ByHand
import DeviceModel.Proofs.Workspace.ArrayRows
import DeviceModel.Proofs.Workspace.ExpandAll

/-!
Edits by hand and what expansion made. Main statements: adding, deleting and dropping spare the tree
(`spares_of_succeeds`), so that views of tables keep all that is below them, and tables their elements
(`generated_eq_of_succeeds`).
-/

namespace DeviceModel

open Edit

/-! ### Rows -/

namespace Workspace

variable {w w' : Workspace} {k : TreeKind} {p q n c : Node} {row : Option Nat}

section

variable (hw : (w.tree k).Valid)
include hw

theorem Inserted.spares (h : Inserted w k p row c w') (hd : ¬(w.tree k).IsDerived p.uuid)
    (hc : c.kind.isMade = false) : (w.tree k).Spares (w'.tree k) := by
  intro l hl hp
  rcases h.listing hw hl hp with hl | ⟨m, hm, rfl⟩
  · exact .inl (h.joins.2.1 _ (Node.uuid_mem_of_listing hl))
  · exact .inr ⟨m, hm, Tree.spared_withRow hd hc m⟩

/-- What is not generated goes with its row. -/
theorem spared_without (hn : n ∈ (w.tree k).all) (hg : (w.tree k).isGenerated n.uuid = false) {m : Listing}
    (hm : m ∈ (w.tree k).listings) : (w.tree k).Spared m (m.withoutAll [n.uuid]) := by
  refine Tree.spared_withoutAll (fun x hx hu => ?_) hm
  obtain rfl := Node.eq_of_uuid hw.nodup hx hn (List.mem_singleton.1 hu)
  exact ⟨Tree.isMade_of_not_isGenerated hw hx hg, fun p hp hxp => Tree.not_isDerived_of_child hw hp hxp hg⟩

theorem Removed.spares (h : Removed w k p n w') (hg : (w.tree k).isGenerated n.uuid = false) :
    (w.tree k).Spares (w'.tree k) := by
  intro l hl hp
  obtain ⟨m, hm, rfl⟩ := h.listing hl hp
  exact .inr ⟨m, hm, spared_without hw (Tree.mem_all_of_child h.mem h.child) hg hm⟩

theorem Moved.spares (h : Moved w k q n p row w') (hg : (w.tree k).isGenerated n.uuid = false)
    (hd : ¬(w.tree k).IsDerived p.uuid) : (w.tree k).Spares (w'.tree k) := by
  intro l hl hp
  obtain ⟨m, hm, rfl⟩ := h.listing hw hl hp
  have hn := Tree.mem_all_of_child h.mem h.child
  refine .inr ⟨m, hm, (spared_without hw hn hg hm).trans (Tree.spared_withRow hd ?_ _)⟩
  exact Tree.isMade_of_not_isGenerated hw hn hg

end

/-- All trees are valid, and of their kinds. -/
structure Proper (w : Workspace) : Prop where
  valid : ∀ k, (w.tree k).Valid
  kind : ∀ k, (w.tree k).kind = k

/-- Whether the operation is adding, deleting or dropping. -/
def Operation.isByHand : Operation → Bool
  | .addChild .. | .delete .. | .drop .. => true
  | .setAttribute .. | .expandView .. | .syncSeeds .. => false

theorem Replaced.congr {a : Node} {t : Tree} {v : Workspace} (h : Replaced w k a t w') (hv : Untouched v w) :
    Replaced v k a t w' := by
  obtain ⟨hmem, hout, htold⟩ := h
  rw [hv.trees k] at hmem hout
  exact ⟨hmem, hout, htold.congr hv (.refl w')⟩

end Workspace

/-! ### Edits -/

namespace Edit

open Workspace

variable {w w' : Workspace} {k : TreeKind} (hw : (w.tree k).Valid) (hk : (w.tree k).kind = k)
include hw hk

/-- A child comes in where nothing was made by expansion. -/
theorem addChild_told {parent u : Uuid} {kind : Kind} (h : Gives (addChild k parent kind) w u w') :
    (∃ p c, ¬(w.tree k).IsDerived p.uuid ∧ c.kind.isMade = false ∧ Inserted w k p none c w') ∨
      ∃ a t, a.kind = .array ∧ Replaced w k a t w' ∧ (w.tree k).Spares t := by
  obtain ⟨p, hp, rfl, hadd, c, s, s', hnew, v, hv, hrun⟩ := addChild_ok h
  have hd := Rules.not_isDerived_of_addable hw hk hp hadd
  obtain ⟨hck, -⟩ := Rules.produces_newChild k _ p kind _ s c s' hnew
  have hc : c.kind.isMade = false := hck ▸ (Rules.kind_of_addable hadd).2
  rw [← hv.trees k] at hw hp hd
  split at hrun
  · subst k
    rcases addParameter_told hw hp hd hc hrun with hinserted | ⟨a, t, ha, hreplaced, hspares⟩
    · exact .inl ⟨p, c, hv.trees .parameters ▸ hd, hc, hinserted.congr hv (.refl w')⟩
    · exact .inr ⟨a, t, ha, hreplaced.congr hv, hv.trees .parameters ▸ hspares⟩
  · exact .inl ⟨p, c, hv.trees k ▸ hd, hc, (inserted_of_insertNode hw hp hrun).congr hv (.refl w')⟩

/-- What goes was not made by expansion. -/
theorem delete_told {u : Uuid} (h : Gives (delete k u) w () w') :
    (∃ p n, (w.tree k).isGenerated n.uuid = false ∧ Removed w k p n w') ∨
      ∃ a t, a.kind = .array ∧ Replaced w k a t w' ∧ (w.tree k).Spares t := by
  obtain ⟨n, hn, rfl, hcan, hrun⟩ := delete_ok h
  have hg := Rules.isGenerated_of_canDelete hw hk hn hcan
  split at hrun
  · subst k
    exact (removeParameter_told hw hn hg hrun).imp_left fun ⟨p, hremoved⟩ => ⟨p, n, hg, hremoved⟩
  · obtain ⟨p, hremoved⟩ := removed_of_removeNode hw hn hrun
    exact .inl ⟨p, n, hg, hremoved⟩

omit hk in
/-- What is dropped comes in, or is moved, where nothing was made by expansion. -/
theorem drop_told {payload : List Nat} {target : Uuid} {row : Option Nat} {u : Uuid}
    (h : Gives (drop k payload target row) w u w') : ∃ p, ¬(w.tree k).IsDerived p.uuid ∧
      ((∃ q n, (w.tree k).isGenerated n.uuid = false ∧ Moved w k q n p row w') ∨
        ∃ c, c.kind.isMade = false ∧ Inserted w k p row c w') := by
  obtain ⟨source, p, n, -, hp, -, -, -, hdrop, ⟨-, hmove, q, hmoved⟩ | ⟨hcopy, c, s, s', hnew, hinserted, -⟩⟩ :=
    drop_ok hw h
  · obtain ⟨hg, hd⟩ := Rules.not_isDerived_of_canMove hw hp hmove
    exact ⟨p, hd, .inl ⟨q, n, hg, hmoved⟩⟩
  · have hd := Rules.not_isDerived_of_childFrom hw hp hdrop hcopy hnew
    have htakes := (Rules.kind_of_childFrom hdrop hcopy hnew).1
    exact ⟨p, hd, .inr ⟨c, Rules.isMade_of_allows htakes hinserted.allows, hinserted⟩⟩

end Edit

namespace Workspace

variable {w w' : Workspace} {k : TreeKind} {op : Operation}

/-- An operation by hand spares its tree, and leaves the others alone. -/
theorem spares_of_succeeds (hw : w.Proper) (hop : op.isByHand = true) (h : op.Succeeds k w w') :
    (w.tree k).Spares (w'.tree k) ∧ ∀ j, j ≠ k → w'.tree j = w.tree j := by
  have hv := hw.valid k
  have hreplaced : (∃ a t, a.kind = .array ∧ Replaced w k a t w' ∧ (w.tree k).Spares t) →
      (w.tree k).Spares (w'.tree k) ∧ ∀ j, j ≠ k → w'.tree j = w.tree j := fun ⟨_, _, _, hr, hs⟩ =>
    ⟨hs.sameRows hr.told.sameRows, fun _ => hr.told.others⟩
  have hinserted : ∀ {p c row}, ¬(w.tree k).IsDerived p.uuid → c.kind.isMade = false →
      Inserted w k p row c w' → (w.tree k).Spares (w'.tree k) ∧ ∀ j, j ≠ k → w'.tree j = w.tree j := fun hd hc hi =>
    ⟨hi.spares hv hd hc, fun _ => hi.exists_told.elim fun _ ⟨_, ht⟩ => ht.others⟩
  cases op with
  | addChild parent kind =>
    obtain ⟨u, h⟩ := h
    rcases addChild_told hv (hw.kind k) h with ⟨p, c, hd, hc, hi⟩ | hr
    · exact hinserted hd hc hi
    · exact hreplaced hr
  | delete u =>
    rcases delete_told hv (hw.kind k) h with ⟨p, n, hg, hremoved⟩ | hr
    · exact ⟨hremoved.spares hv hg, fun _ => hremoved.exists_told.elim fun _ ⟨_, ht⟩ => ht.others⟩
    · exact hreplaced hr
  | drop payload target row =>
    obtain ⟨u, h⟩ := h
    obtain ⟨p, hd, ⟨q, n, hg, hmoved⟩ | ⟨c, hc, hi⟩⟩ := drop_told hv h
    · exact ⟨hmoved.spares hv hg hd, fun _ => hmoved.exists_told.elim fun _ ⟨_, ht⟩ => ht.others⟩
    · exact hinserted hd hc hi
  | setAttribute | expandView | syncSeeds => cases hop

/-- Whatever is added, deleted or dropped: a view of a table that is still there has the same below it, with
the same parents and in the same order, and a table that is still there the same expanded elements. -/
theorem generated_eq_of_succeeds (hw : w.Proper) (hop : op.isByHand = true) (h : op.Succeeds k w w') {j : TreeKind}
    {n n' : Node} (hn : n ∈ (w.tree j).all) (hn' : n' ∈ (w'.tree j).all) (hu : n'.uuid = n.uuid)
    (hk : n'.kind = n.kind) :
    (n.kind.isTableView = true → n'.listings = n.listings) ∧ (n.kind = .table → n'.forest = n.forest) := by
  obtain ⟨hspares, hothers⟩ := spares_of_succeeds hw hop h
  by_cases hj : j = k
  · subst hj
    have he : n'.entry = n.entry := Prod.ext hu hk
    refine ⟨fun hview => ?_, fun htable => ?_⟩
    · exact hspares.listings (hw.valid j) hn hn' he fun m hm => ⟨n, hn, Node.uuid_mem_uuids hm, .inl hview⟩
    · refine hspares.forest (hw.valid j) hn hn' he ?_
      rw [Listing.IsPlain, Node.kind_listing, htable]
      decide
  · rw [hothers j hj] at hn'
    obtain rfl := Node.eq_of_uuid (hw.valid j).nodup hn' hn hu
    exact ⟨fun _ => rfl, fun _ => rfl⟩

/-- A table and a view of it, both expanded. -/
def withView : Workspace := (outcome (do oneTable; let _ ← expandAll {}) (initial 0)).2

/-- The repeating block of the view is dropped on the map, which gets a reference to it. -/
theorem generated_eq_of_succeeds_blockDropped :
    ∃ w', (Operation.drop (Uuid.bytes ⟨15⟩) ⟨3⟩ none).Succeeds .staticModbus withView w' ∧
      (∃ n ∈ (withView.tree .staticModbus).all, ∃ n' ∈ (w'.tree .staticModbus).all,
        n.kind = .modbusTable ∧ n.all.length = 4 ∧ n'.listings = n.listings) ∧
      ∃ n ∈ (withView.tree .parameters).all, ∃ n' ∈ (w'.tree .parameters).all,
        n.kind = .table ∧ n.forest.length = 1 ∧ n'.forest = n.forest := by
  have hall : ∀ k ∈ TreeKind.all, (withView.tree k).Valid ∧ (withView.tree k).kind = k := by decide +kernel
  have hw : withView.Proper := ⟨fun k => (hall k k.mem_all).1, fun k => (hall k k.mem_all).2⟩
  obtain ⟨u, hu⟩ := Option.isSome_iff_exists.1 (show
    (outcome (Edit.drop .staticModbus (Uuid.bytes ⟨15⟩) ⟨3⟩ none) withView).1.toOption.isSome by decide +kernel)
  have hrun : (Operation.drop (Uuid.bytes ⟨15⟩) ⟨3⟩ none).Succeeds .staticModbus withView
      (outcome (Edit.drop .staticModbus (Uuid.bytes ⟨15⟩) ⟨3⟩ none) withView).2 := ⟨u, gives_of_toOption hu⟩
  have hview : ∃ n ∈ (withView.tree .staticModbus).all,
      ∃ n' ∈ ((outcome (Edit.drop .staticModbus (Uuid.bytes ⟨15⟩) ⟨3⟩ none) withView).2.tree .staticModbus).all,
        n.kind = .modbusTable ∧ n.all.length = 4 ∧ n'.uuid = n.uuid ∧ n'.kind = n.kind := by decide +kernel
  have htable : ∃ n ∈ (withView.tree .parameters).all,
      ∃ n' ∈ ((outcome (Edit.drop .staticModbus (Uuid.bytes ⟨15⟩) ⟨3⟩ none) withView).2.tree .parameters).all,
        n.kind = .table ∧ n.forest.length = 1 ∧ n'.uuid = n.uuid ∧ n'.kind = n.kind := by decide +kernel
  obtain ⟨v, hv, v', hv', hvk, hlength, hvu, hvk'⟩ := hview
  obtain ⟨n, hn, n', hn', hnk, hforest, hnu, hnk'⟩ := htable
  refine ⟨_, hrun, ⟨v, hv, v', hv', hvk, hlength, ?_⟩, n, hn, n', hn', hnk, hforest, ?_⟩
  · exact (generated_eq_of_succeeds hw rfl hrun hv hv' hvu hvk').1 (by rw [hvk]; rfl)
  · exact (generated_eq_of_succeeds hw rfl hrun hn hn' hnu hnk').2 hnk

end Workspace

end DeviceModel
