import DeviceModel.Proofs.Register.Circles
import DeviceModel.Proofs.Rules.SharedSearches
import DeviceModel.Proofs.Workspace.Arrays
import DeviceModel.Proofs.Workspace.EditShapes
import DeviceModel.Proofs.Workspace.HandEdits
import DeviceModel.Proofs.Workspace.Succeeding

/-!
What the rules offer and allow decides what succeeds. Main statement: `policies_decide`. A child can be added
exactly if its kind is offered, a node deleted exactly if it may be, and a drop succeeds exactly if it is
accepted. All sizes have an end afterwards as they had before, unless a reference is dropped into what its size
depends on.
-/

namespace DeviceModel

open Edit

/-! ### Trees -/

namespace Tree

variable {t t' : Tree} {p n c : Node}

theorem settles_settled {k : TreeKind} (ht : t.Valid) {s : Supply} (hs : s.Issued t.uuids) :
    (settled k t s).Settles ↔ t.Settles := by
  unfold settled
  split
  · exact settles_relaidOut ht hs
  · exact Iff.rfl

/-- Sizes are not counted in the tree that has arrays. -/
theorem settles_recounted (ht : t.Valid) (hp : p ∈ t.all) (hv : (t'.recounted p).Valid) (hk : t'.kind = t.kind)
    (h : t'.Settles) : (t'.recounted p).Settles := by
  by_cases hpk : p.kind = .array
  · refine settles_of_kind hv ?_
    rw [show (t'.recounted p).kind = t'.kind by rw [recounted, if_pos hpk]; rfl, hk, kind_of_mem ht hp, hpk]
    decide
  · rwa [recounted_of_ne hpk]

theorem searchesEnd_recounted (ht' : t'.Valid) (hp : ∀ m ∈ t'.all, m.uuid = p.uuid → m.kind = p.kind)
    (h : t'.SearchesEnd) : (t'.recounted p).SearchesEnd := by
  by_cases hpk : p.kind = .array
  · rw [recounted, if_pos hpk]
    by_cases hmem : p.uuid ∈ t'.uuids
    · obtain ⟨m, hm, hu⟩ := mem_uuids.1 hmem
      rw [← hu]
      exact searchesEnd_counted h ht' hm ((hp m hm hu).trans hpk)
    · have hsame : t'.edit p.uuid counted = t' := congrArg (Tree.mk t'.kind) (Node.edit_of_notMem hmem)
      rwa [hsame]
  · rwa [recounted_of_ne hpk]

/-- A child without references, and stand-ins. -/
theorem Gains.settles (h : t.Gains p c t') (ht : t.Valid) (hs : t.Settles) (hc : c.NoReference) : t'.Settles := by
  obtain ⟨hv, g, rfl, hself, hfollowers, hnone⟩ := h
  refine settles_extend ht hs hv fun u m hm => ?_
  by_cases hu : u = p.uuid
  · rw [hu, hself, List.mem_singleton] at hm
    exact hm ▸ hc
  · by_cases hfollower : u ∈ t.followers p c.kind
    · obtain ⟨m', hm', hstand, -⟩ := hfollowers u hfollower
      rw [hm', List.mem_singleton] at hm
      subst hm
      refine Rules.noReference_of_children (by rw [hstand.kind]; rfl) ?_
      simp [hstand.leaf]
    · rw [hnone u hu hfollower] at hm
      cases hm

theorem Gains.searchesEnd (h : t.Gains p c t') (ht : t.Valid) (hp : p ∈ t.all) (hs : t.SearchesEnd)
    (hleaf : c.children = []) (hk : c.kind ≠ .arrayParameterElement) : (t'.recounted p).SearchesEnd := by
  obtain ⟨hv, g, rfl, hself, hfollowers, hnone⟩ := h
  refine searchesEnd_recounted hv (fun m hm hu => ?_) ?_
  · rw [Node.eq_of_uuid hv.nodup hm (Node.extend_mem_extend hp) (hu.trans (Node.uuid_extend p).symm), Node.kind_extend]
  refine searchesEnd_extend hs ht hv hp (by rw [hself]; exact List.mem_singleton.2 rfl) hk fun u m hm => ?_
  by_cases hu : u = p.uuid
  · rw [hu, hself, List.mem_singleton] at hm
    subst hm
    exact ⟨hleaf, fun h => absurd h hk⟩
  · by_cases hfollower : u ∈ t.followers p c.kind
    · obtain ⟨m', hm', hstand, -⟩ := hfollowers u hfollower
      rw [hm', List.mem_singleton] at hm
      subst hm
      exact ⟨hstand.leaf, fun _ => hstand.original⟩
    · rw [hnone u hu hfollower] at hm
      cases hm

theorem Loses.settles (h : t.Loses p n t') (ht : t.Valid) (hs : t.Settles) : t'.Settles := by
  obtain ⟨hv, us, rfl, -⟩ := h
  exact settles_withoutAll ht hs hv

theorem Loses.searchesEnd (h : t.Loses p n t') (ht : t.Valid) (hp : p ∈ t.all) (hs : t.SearchesEnd) :
    (t'.recounted p).SearchesEnd := by
  obtain ⟨hv, us, rfl, -⟩ := h
  refine searchesEnd_recounted hv (fun m hm hu => ?_) (searchesEnd_withoutAll hs ht hv)
  obtain ⟨q, hq, rfl⟩ := Node.mem_all_withoutAll hm
  rw [Node.uuid_withoutAll] at hu
  rw [Node.kind_withoutAll, Node.eq_of_uuid ht.nodup hq hp hu]

end Tree

/-! ### Workspaces -/

namespace Workspace

/-- The sizes of all trees have an end. -/
def Settled (w : Workspace) : Prop := ∀ k, (w.tree k).Settles

/-- All searches for shared attributes have an end. -/
def SearchesEnd (w : Workspace) : Prop := (w.tree .parameters).SearchesEnd

variable {w w' : Workspace} {k : TreeKind} {p n c : Node} {t : Tree} {row : Option Nat}

theorem Becomes.settled_iff (h : w.Becomes k t w') (hs : w.Settled) : w'.Settled ↔ t.Settles := by
  obtain ⟨hv, s, hs₀, hput⟩ := h
  rw [← Tree.settles_settled (k := k) hv hs₀, ← hput.tree]
  refine ⟨fun h => h k, fun h j => ?_⟩
  by_cases hj : j = k
  · exact hj ▸ h
  · rw [hput.others j hj]
    exact hs j

theorem Becomes.searchesEnd (h : w.Becomes k t w') (hs : w.SearchesEnd) (ht : k = .parameters → t.SearchesEnd) :
    w'.SearchesEnd := by
  obtain ⟨-, s, -, hput⟩ := h
  by_cases hk : k = .parameters
  · subst k
    rw [SearchesEnd, hput.tree]
    exact ht rfl
  · rw [SearchesEnd, hput.others _ (Ne.symm hk)]
    exact hs

/-- What is found and stands in the tree is a node of it. -/
theorem Accepts.mem {payload : List Nat} (h : w.Accepts k payload p n) (hn : (w.tree k).contains n.uuid = true) :
    n ∈ (w.tree k).all := by
  obtain ⟨t, ht, hfind⟩ := Lookup.exists_treeOf? h.found
  obtain ⟨hnt, hu⟩ := Tree.mem_of_find? hfind
  rw [Lookup.treeOf?, List.find?_cons, ← hu, hn, Option.some.injEq] at ht
  exact ht ▸ hnt

section

variable (hw : w.Proper) (hs : w.Settled)
include hw hs

theorem Added.settled {kind : Kind} (h : w.Added k p kind c w') (hp : p ∈ (w.tree k).all) : w'.Settled := by
  obtain ⟨⟨s, s', hnew⟩, -, -, ⟨t, hgains, hbecomes⟩, -⟩ := h
  have ht := hgains.settles (hw.valid k) (hs k) (Rules.noReference_newChild hnew)
  refine (hbecomes.settled_iff hs).2 (Tree.settles_recounted (hw.valid k) hp hbecomes.valid ?_ ht)
  obtain ⟨-, g, rfl, -⟩ := hgains
  rfl

theorem Deleted.settled (h : w.Deleted k p n w') : w'.Settled := by
  obtain ⟨hp, -, t, hloses, hbecomes⟩ := h
  have ht := hloses.settles (hw.valid k) (hs k)
  refine (hbecomes.settled_iff hs).2 (Tree.settles_recounted (hw.valid k) hp hbecomes.valid ?_ ht)
  obtain ⟨-, us, rfl, -⟩ := hloses
  rfl

theorem Dropped.settled_iff {payload : List Nat} (h : w.Dropped k p n row c w') (ha : w.Accepts k payload p n) :
    w'.Settled ↔ ¬(w.tree k).LeadsInto n p := by
  rcases h.source with ⟨-, hn, t, hmove, hbecomes⟩ | ⟨-, hallows, ⟨s, s', hnew⟩, hbecomes⟩
  · rw [hbecomes.settled_iff hs]
    exact Tree.settles_move_iff (hw.valid k) hn hmove (hs k)
  · refine iff_of_true ((hbecomes.settled_iff hs).2 ?_) (Tree.not_leadsInto (Rules.not_reference_of_childFrom hnew))
    rcases Rules.references_childFrom hnew with hnone | ⟨hleaf, hblock, horiginal⟩
    · refine Tree.settles_addChild (hw.valid k) (hs k) ha.target hallows hbecomes.valid (fun q u d hstands => ?_)
        fun hk => ?_
      · obtain ⟨m, hm, -, x, hx, -, rfl⟩ := hstands
        exact hnone x (Node.mem_all_trans (Node.mem_all_of_child hx) hm)
      · rw [hnone c c.mem_all_self] at hk
        cases hk
    · refine Tree.settles_addChild (hw.valid k) (hs k) ha.target hallows hbecomes.valid
        (fun q u d hstands => absurd hstands (Node.not_stands_of_leaf hleaf)) fun _ => ?_
      exact ⟨n, ha.mem (Rules.contains_of_canDrop ha.allowed hblock), hblock, horiginal⟩

end

section

variable (hw : w.Proper) (hs : w.SearchesEnd)
include hw hs

theorem Added.searchesEnd {kind : Kind} (h : w.Added k p kind c w') (hp : p ∈ (w.tree k).all)
    (hkind : kind ∈ (Rules.ofTree k).addable (w.tree k) p) : w'.SearchesEnd := by
  obtain ⟨⟨s, s', hnew⟩, hk, -, ⟨t, hgains, hbecomes⟩, -⟩ := h
  refine hbecomes.searchesEnd hs ?_
  rintro rfl
  have hleaf := Rules.Parameters.newChild_leaf (t := w.tree .parameters) (l := w.models.others .parameters) hnew
  refine hgains.searchesEnd (hw.valid _) hp hs hleaf.1 fun hck => ?_
  have hoffered := Rules.mem_newKinds hkind
  rw [← hk, hck] at hoffered
  revert hoffered
  decide

theorem Deleted.searchesEnd (h : w.Deleted k p n w') : w'.SearchesEnd := by
  obtain ⟨hp, -, t, hloses, hbecomes⟩ := h
  refine hbecomes.searchesEnd hs ?_
  rintro rfl
  exact hloses.searchesEnd (hw.valid _) hp hs

theorem Dropped.searchesEnd (h : w.Dropped k p n row c w') : w'.SearchesEnd := by
  rcases h.source with ⟨-, -, t, hmove, hbecomes⟩ | ⟨-, -, ⟨s, s', hnew⟩, hbecomes⟩
  · refine hbecomes.searchesEnd hs ?_
    rintro rfl
    exact Tree.searchesEnd_move hs (hw.valid _) hmove
  · refine hbecomes.searchesEnd hs ?_
    rintro rfl
    exact absurd hnew gives_throw

end

/-! ### What decides -/

section

variable (hw : w.Proper) (hs : w.Settled)
include hw hs

theorem addChild_iff (hc : (w.tree .parameters).Consistent) {parent : Uuid} {kind : Kind} :
    (∃ u w', Gives (addChild k parent kind) w u w' ∧ w'.Settled) ↔
      ∃ p ∈ (w.tree k).all, p.uuid = parent ∧ kind ∈ (Rules.ofTree k).addable (w.tree k) p := by
  constructor
  · rintro ⟨u, w', h, -⟩
    obtain ⟨p, hp, hu, hkind, -⟩ := added_of_addChild (hw.valid k) (hw.kind k) h
    exact ⟨p, hp, hu, hkind⟩
  · rintro ⟨p, hp, rfl, hkind⟩
    obtain ⟨u, w', h⟩ := exists_addChild_of_addable (hw.valid k) hc hp hkind
    obtain ⟨q, hq, -, -, c, -, hadded⟩ := added_of_addChild (hw.valid k) (hw.kind k) h
    exact ⟨u, w', h, hadded.settled hw hs hq⟩

theorem delete_iff (hc : (w.tree .parameters).Consistent) {u : Uuid} :
    (∃ w', Gives (delete k u) w () w' ∧ w'.Settled) ↔
      ∃ n ∈ (w.tree k).all, n.uuid = u ∧ u ≠ (w.tree k).root.uuid ∧ (Rules.ofTree k).canDelete (w.tree k) n = true := by
  constructor
  · rintro ⟨w', h, -⟩
    obtain ⟨n, hn, hu, hr, hcan, -⟩ := deleted_of_delete (hw.valid k) (hw.kind k) h
    exact ⟨n, hn, hu, hr, hcan⟩
  · rintro ⟨n, hn, rfl, hr, hcan⟩
    obtain ⟨w', h⟩ := exists_delete (hw.valid k) hc hn hr hcan
    obtain ⟨m, -, -, -, -, p, hdeleted⟩ := deleted_of_delete (hw.valid k) (hw.kind k) h
    exact ⟨w', h, hdeleted.settled hw hs⟩

omit hs in
theorem drop_iff {payload : List Nat} {target : Uuid} {row : Option Nat} :
    (∃ u w', Gives (drop k payload target row) w u w') ↔ ∃ p n, w.Accepts k payload p n ∧ p.uuid = target := by
  constructor
  · rintro ⟨u, w', h⟩
    obtain ⟨p, n, -, haccepts, hu, -⟩ := dropped_of_drop (hw.valid k) h
    exact ⟨p, n, haccepts, hu⟩
  · rintro ⟨p, n, haccepts, rfl⟩
    exact exists_drop (hw.valid k) haccepts row

end

/-- Where arrays are consistent and sizes have an end, a child can be added exactly if its kind is offered, and a
node deleted exactly if it may be; sizes still have an end then. Where searches have an end as well, a drop
succeeds exactly if it is accepted; but sizes still have an end exactly if nothing is moved into what its own
size depends on. What succeeds does as it says. -/
theorem policies_decide (hw : w.Proper) (hc : (w.tree .parameters).Consistent) (hs : w.Settled) (k : TreeKind) :
    (∀ parent kind,
      ((∃ u w', Gives (addChild k parent kind) w u w' ∧ w'.Settled) ↔
        ∃ p ∈ (w.tree k).all, p.uuid = parent ∧ kind ∈ (Rules.ofTree k).addable (w.tree k) p) ∧
      ∀ u w', Gives (addChild k parent kind) w u w' → ∃ p ∈ (w.tree k).all, ∃ c, p.uuid = parent ∧ c.uuid = u ∧
        w.Added k p kind c w' ∧ (w.SearchesEnd → w'.SearchesEnd)) ∧
    (∀ u,
      ((∃ w', Gives (delete k u) w () w' ∧ w'.Settled) ↔ ∃ n ∈ (w.tree k).all,
        n.uuid = u ∧ u ≠ (w.tree k).root.uuid ∧ (Rules.ofTree k).canDelete (w.tree k) n = true) ∧
      ∀ w', Gives (delete k u) w () w' → ∃ p n, n.uuid = u ∧
        w.Deleted k p n w' ∧ (w.SearchesEnd → w'.SearchesEnd)) ∧
    (w.SearchesEnd → ∀ payload target row,
      ((∃ u w', Gives (drop k payload target row) w u w') ↔ ∃ p n, w.Accepts k payload p n ∧ p.uuid = target) ∧
      ∀ u w', Gives (drop k payload target row) w u w' → ∃ p n c, w.Accepts k payload p n ∧ p.uuid = target ∧
        c.uuid = u ∧ w.Dropped k p n row c w' ∧ (w'.Settled ↔ ¬(w.tree k).LeadsInto n p) ∧ w'.SearchesEnd) := by
  refine ⟨fun parent kind => ⟨addChild_iff hw hs hc, fun u w' h => ?_⟩,
    fun u => ⟨delete_iff hw hs hc, fun w' h => ?_⟩, fun hends payload target row => ⟨drop_iff hw, fun u w' h => ?_⟩⟩
  · obtain ⟨p, hp, hu, hkind, c, hcu, hadded⟩ := added_of_addChild (hw.valid k) (hw.kind k) h
    exact ⟨p, hp, c, hu, hcu, hadded, fun hends => hadded.searchesEnd hw hends hp hkind⟩
  · obtain ⟨n, -, hu, -, -, p, hdeleted⟩ := deleted_of_delete (hw.valid k) (hw.kind k) h
    exact ⟨p, n, hu, hdeleted, fun hends => hdeleted.searchesEnd hw hends⟩
  · obtain ⟨p, n, c, haccepts, hu, hcu, hdropped⟩ := dropped_of_drop (hw.valid k) h
    exact ⟨p, n, c, haccepts, hu, hcu, hdropped, hdropped.settled_iff hw hs haccepts, hdropped.searchesEnd hw hends⟩

/-- A reference stands in one block and names the other one, in which a point stands. -/
def twoBlocks : Workspace :=
  (initial 0).withModel .sunSpec { tree := ⟨.sunSpec, ⟨⟨11⟩, .initial .sunSpecRoot, [⟨⟨12⟩, .initial .sunSpecModel,
    [⟨⟨13⟩, .initial .fixedBlock, [.leaf ⟨14⟩ (.of .tableRepeatingBlockReference [(.original, .uuid ⟨15⟩)])]⟩,
      ⟨⟨15⟩, .initial .fixedBlock, [.leaf ⟨16⟩ (.of .dataPoint [(.size, .integer 2)])]⟩]⟩]⟩⟩ }

theorem twoBlocks_spec : twoBlocks.Proper ∧ (twoBlocks.tree .parameters).Consistent ∧ twoBlocks.Settled ∧
    twoBlocks.SearchesEnd := by
  have hall : ∀ k ∈ TreeKind.all, (twoBlocks.tree k).Valid ∧ (twoBlocks.tree k).kind = k ∧
      ∀ n ∈ (twoBlocks.tree k).all, ((twoBlocks.tree k).sizeWithin 9 n).isSome = true := by decide +kernel
  have hinitial : twoBlocks.tree .parameters = .initial .parameters ⟨0⟩ := by decide +kernel
  have hnone : ∀ n ∈ (twoBlocks.tree .parameters).all, n.kind ≠ .arrayParameterElement := by decide +kernel
  refine ⟨⟨fun k => (hall k k.mem_all).1, fun k => (hall k k.mem_all).2.1⟩, hinitial ▸ consistent_initial ⟨0⟩,
    fun k n hn => ⟨9, (hall k k.mem_all).2.2 n hn⟩, Tree.searchesEnd_iff.2 fun u => Links.ends_iff.2 fun v hv => ?_⟩
  obtain ⟨n, hn, -, hk, -⟩ := (Tree.mem_originals (hall _ (TreeKind.mem_all .parameters)).1.nodup).1 hv
  exact absurd hk (hnone n hn)

/-- The point is moved to the first row of the other block. -/
theorem policies_decide_twoBlocks : (twoBlocks.Proper ∧ (twoBlocks.tree .parameters).Consistent ∧ twoBlocks.Settled) ∧
    twoBlocks.SearchesEnd ∧ ∃ p n w', Gives (drop .sunSpec (Uuid.bytes ⟨16⟩) ⟨13⟩ (some 0)) twoBlocks ⟨16⟩ w' ∧
      p.uuid = ⟨13⟩ ∧ twoBlocks.Accepts .sunSpec (Uuid.bytes ⟨16⟩) p n ∧ w'.Settled ∧ w'.SearchesEnd := by
  obtain ⟨hw, hc, hs, hends⟩ := twoBlocks_spec
  obtain ⟨-, -, hdrop⟩ := policies_decide hw hc hs .sunSpec
  have hrun : Gives (drop .sunSpec (Uuid.bytes ⟨16⟩) ⟨13⟩ (some 0)) twoBlocks ⟨16⟩
      (outcome (drop .sunSpec (Uuid.bytes ⟨16⟩) ⟨13⟩ (some 0)) twoBlocks).2 :=
    gives_of_toOption (by decide +kernel)
  obtain ⟨p, n, c, haccepts, hp, -, -, hsettled, hends'⟩ := (hdrop hends _ _ _).2 _ _ hrun
  have hpoint : (twoBlocks.dropped? .sunSpec (.ofBytes (Uuid.bytes ⟨16⟩))).all
      (fun n => !n.kind.isBlockReference) = true := by decide +kernel
  rw [haccepts.found, Option.all_some, Bool.not_eq_true'] at hpoint
  exact ⟨⟨hw, hc, hs⟩, hends, p, n, _, hrun, hp, haccepts, hsettled.2 (Tree.not_leadsInto hpoint), hends'⟩

/-- The reference is moved into the block that it names, as is allowed, and no number of steps gives it a size
then. -/
theorem exists_dropped_endless : (twoBlocks.Proper ∧ (twoBlocks.tree .parameters).Consistent ∧ twoBlocks.Settled ∧
    twoBlocks.SearchesEnd) ∧ ∃ p n w', twoBlocks.Accepts .sunSpec (Uuid.bytes ⟨14⟩) p n ∧ p.uuid = ⟨15⟩ ∧
      Gives (drop .sunSpec (Uuid.bytes ⟨14⟩) ⟨15⟩ none) twoBlocks ⟨14⟩ w' ∧
        ∃ r ∈ (w'.tree .sunSpec).all, r.kind.isBlockReference = true ∧
          ∀ fuel, (w'.tree .sunSpec).sizeWithin fuel r = none := by
  have hrun : Gives (drop .sunSpec (Uuid.bytes ⟨14⟩) ⟨15⟩ none) twoBlocks ⟨14⟩
      (outcome (drop .sunSpec (Uuid.bytes ⟨14⟩) ⟨15⟩ none) twoBlocks).2 :=
    gives_of_toOption (by decide +kernel)
  have hself : ∃ r ∈ ((outcome (drop .sunSpec (Uuid.bytes ⟨14⟩) ⟨15⟩ none) twoBlocks).2.tree .sunSpec).all,
      r.kind.isBlockReference = true ∧
        r ∈ ((outcome (drop .sunSpec (Uuid.bytes ⟨14⟩) ⟨15⟩ none) twoBlocks).2.tree .sunSpec).parts r := by
    decide +kernel
  obtain ⟨p, n, c, haccepts, hp, -⟩ := dropped_of_drop (twoBlocks_spec.1.valid .sunSpec) hrun
  obtain ⟨r, hr, hk, hrr⟩ := hself
  refine ⟨twoBlocks_spec, p, n, _, haccepts, hp, hrun, r, hr, hk, fun fuel => ?_⟩
  rw [← Option.not_isSome_iff_eq_none, Tree.isSome_sizeWithin]
  exact Links.not_endsWithin (.single hrr) fuel

end Workspace

end DeviceModel
