import DeviceModel.Proofs.Rules.Offers
import DeviceModel.Proofs.Workspace.RowEdits

/-!
Requests that succeed. Main statements: a child of a kind that is offered can be added
(`exists_addChild_of_addable`), a node that may be deleted can be deleted (`exists_delete`), and a drop that is
accepted succeeds (`exists_drop`).
-/

namespace DeviceModel

namespace Edit

open Workspace

variable {w : Workspace} {k : TreeKind}

/-! ### Arrays -/

/-- Stand-ins can come into elements for groups, one after the other. -/
theorem exists_standIns (child : Node) {es : List Uuid} {t : Tree} (ht : t.Valid) (hs : w.offered.Issued t.uuids)
    (hes : ∀ u ∈ es, ∃ e ∈ t.all, e.uuid = u ∧ e.kind = .arrayGroupElement) :
    ∃ t' w', Gives (es.foldlM (fun t e => do
      let m ← fresh (standIn child)
      liftM (t.insert e none m)) t) w t' w' := by
  induction es generalizing t w with
  | nil => exact ⟨t, w, gives_pure.2 ⟨rfl, rfl⟩⟩
  | cons u es ih =>
    obtain ⟨e, he, rfl, hek⟩ := hes u (List.mem_cons_self ..)
    obtain ⟨hstand, hnew⟩ : IsStandInFor child (standIn child w.offered).1 ∧
        Rules.IsNew w.offered (standIn child w.offered).1 (standIn child w.offered).2 := standIn_new rfl
    have hallows : e.kind.allows (standIn child w.offered).1.kind = true := by
      rw [hek, hstand.kind]
      decide
    have hinsert := Tree.insert_of_joins ht.nodup he hallows (hnew.joins hs) none
    have hissued : (w.withSupply (standIn child w.offered).2).offered.Issued
        (t.edit e.uuid (·.addChild none (standIn child w.offered).1)).uuids :=
      (hnew.issued _ hs).perm ((Tree.uuids_edit_addChild ht.nodup he none).trans List.perm_append_comm)
    obtain ⟨t', w', hrun⟩ := ih (ht.insert hinsert) hissued fun v hv => by
      obtain ⟨d, hd, rfl, hdk⟩ := hes v (List.mem_cons_of_mem _ hv)
      rw [Tree.insert_eq_extend ht hinsert]
      exact ⟨_, Node.extend_mem_extend hd, Node.uuid_extend d, (Node.kind_extend d).trans hdk⟩
    refine ⟨t', w', ?_⟩
    rw [List.foldlM_cons]
    exact gives_bind.2 ⟨_, _, gives_bind.2 ⟨_, _, gives_fresh.2 ⟨_, rfl, rfl⟩, gives_liftM.2 ⟨hinsert, rfl⟩⟩, hrun⟩

/-- Nodes can be taken out one after the other if none stands at or below one that goes earlier. -/
theorem exists_detach {us : List Uuid} {t : Tree} (ht : t.Valid)
    (hus : ∀ u ∈ us, ∃ n ∈ t.all, n.uuid = u ∧ u ≠ t.root.uuid)
    (hapart : us.Pairwise fun u v => ∀ n ∈ t.all, n.uuid = u → v ∉ n.uuids) (w : Workspace) :
    ∃ t', Gives (us.foldlM (fun (t : Tree) u => do return (← liftM (t.detach u)).2 : Tree → Uuid → Edit Tree) t)
      w t' w := by
  induction us generalizing t with
  | nil => exact ⟨t, gives_pure.2 ⟨rfl, rfl⟩⟩
  | cons u us ih =>
    obtain ⟨n, hn, rfl, hr⟩ := hus u (List.mem_cons_self ..)
    rw [List.pairwise_cons] at hapart
    have hdetach := Tree.detach_of_mem ht.nodup hn hr
    have hleft : ∀ v ∈ us, ∃ m ∈ (t.root.without n.uuid).all, m.uuid = v ∧ v ≠ (t.root.without n.uuid).uuid := by
      intro v hv
      obtain ⟨m, hm, rfl, hmr⟩ := hus v (List.mem_cons_of_mem _ hv)
      refine ⟨m.without n.uuid, Node.without_mem_without hm fun x hx hxn hmx => ?_, Node.uuid_without _ m, ?_⟩
      · exact hapart.1 m.uuid hv x hx hxn (Node.uuid_mem_uuids hmx)
      · rwa [Node.uuid_without]
    have hleftApart : us.Pairwise fun u v => ∀ m ∈ (t.root.without n.uuid).all, m.uuid = u → v ∉ m.uuids := by
      refine hapart.2.imp fun {u v} h x hx hxu hv => ?_
      obtain ⟨m, hm, rfl⟩ := Node.mem_all_without hx
      obtain ⟨y, hy, rfl⟩ := Node.mem_uuids.1 hv
      obtain ⟨z, hz, rfl⟩ := Node.mem_all_without hy
      rw [Node.uuid_without] at hxu h
      exact h m hm hxu (Node.uuid_mem_uuids hz)
    obtain ⟨t', hrun⟩ := ih (ht.without hn hr) hleft hleftApart
    refine ⟨t', ?_⟩
    rw [List.foldlM_cons]
    exact gives_bind.2 ⟨_, w, gives_bind.2 ⟨_, w, gives_liftM.2 ⟨hdetach, rfl⟩, gives_pure.2 ⟨rfl, rfl⟩⟩, hrun⟩

theorem exists_of_mem_standIns {t : Tree} (ht : t.uuids.Nodup) {a : Node} (ha : a ∈ t.all) {n u : Uuid}
    (hu : u ∈ standIns t a.uuid n) : ∃ x ∈ t.all, x.uuid = u ∧ x.kind = .arrayParameterElement := by
  obtain ⟨x, hx, rfl⟩ := List.mem_map.1 hu
  simp only [Tree.descendants_of_mem ht ha, List.mem_filter, Bool.and_eq_true, beq_iff_eq] at hx
  exact ⟨x, Node.mem_all_trans hx.1 ha, rfl, hx.2.1⟩

theorem nodup_standIns {t : Tree} (ht : t.uuids.Nodup) {a : Node} (ha : a ∈ t.all) (n : Uuid) :
    (standIns t a.uuid n).Nodup := by
  rw [standIns, Tree.descendants_of_mem ht ha]
  exact (List.filter_sublist.map Node.uuid).nodup (Node.nodup_of_mem ha ht)

/-- A transaction on the parameter tree, which is not laid out. -/
theorem exists_transaction_parameters {scope : Uuid} {f : Tree → Edit (Tree × α)} {a : α}
    (h : ∃ t v, Gives (f (w.tree .parameters)) w (t, a) v) : ∃ w', Gives (transaction .parameters scope f) w a w' := by
  obtain ⟨t, v, hrun⟩ := h
  exact exists_transaction scope hrun fun h => by cases h

section

variable (h : (w.tree .parameters).Consistent)
include h

/-- A new node whose parent allows it comes in, with its stand-ins where it has any. -/
theorem exists_addParameter {p child : Node} (hp : p ∈ (w.tree .parameters).all)
    (hk : p.kind.allows child.kind = true) (hc : child.Joins (w.tree .parameters).uuids)
    (hs : w.offered.Issued (child.uuids ++ (w.tree .parameters).uuids)) :
    ∃ w', Gives (addParameter p.uuid child) w child.uuid w' := by
  have hnt := h.valid.nodup
  have hinsert := Tree.insert_of_joins hnt hp hk hc none
  refine exists_gives_bind (gives_tree.2 ⟨rfl, rfl⟩) ?_
  refine exists_gives_bind (gives_liftM.2 ⟨Tree.node_eq_ok.2 (Tree.find?_of_mem hnt hp), rfl⟩) ?_
  simp only
  split
  · exact exists_insertNode h.valid hp hk hc none
  rename_i hspecial
  refine exists_transaction_parameters ?_
  by_cases hpk : p.kind = .array
  · simp only [if_pos hpk]
    exact ⟨_, w, gives_bind.2 ⟨_, w, gives_liftM.2 ⟨hinsert, rfl⟩, gives_pure.2 ⟨rfl, rfl⟩⟩⟩
  · have hshared : ((w.models.tree .parameters).isFirstElement p.uuid && child.kind == .parameter) = true := by
      simpa [hpk] using hspecial
    obtain ⟨a, ha, hak, hfirst⟩ := Tree.exists_array_of_isFirstElement hnt hp (Bool.and_eq_true_iff.1 hshared).1
    have hpa := List.mem_of_mem_head? hfirst
    have hparent := Tree.parent?_of_child hnt ha hpa
    simp only [if_neg hpk, hshared, if_true, show (w.models.tree .parameters).parent? p.uuid = some a from hparent,
      Option.map_some, Option.getD_some]
    have hgroup := h.group_of_allows ha hak hfirst hk
    have helements : ∀ u ∈ a.children.tail.map Node.uuid,
        ∃ e ∈ ((w.tree .parameters).edit p.uuid (·.addChild none child)).all, e.uuid = u ∧ e.kind = .arrayGroupElement := by
      intro u hu
      obtain ⟨e, he, rfl⟩ := List.mem_map.1 hu
      rw [Tree.insert_eq_extend h.valid hinsert]
      exact ⟨_, Node.extend_mem_extend (Tree.mem_all_of_child ha (List.mem_of_mem_tail he)), Node.uuid_extend e,
        (Node.kind_extend e).trans (h.kind_other ha hak hfirst hgroup he)⟩
    obtain ⟨t, v, hrun⟩ := exists_standIns child (h.valid.insert hinsert)
      (hs.perm ((Tree.uuids_edit_addChild hnt hp none).trans List.perm_append_comm)) helements
    rw [← elements_of_insert h.valid ha hak hpa hinsert] at hrun
    exact ⟨t, v, gives_bind.2 ⟨_, w, gives_liftM.2 ⟨hinsert, rfl⟩, gives_bind.2 ⟨t, v, hrun, gives_pure.2 ⟨rfl, rfl⟩⟩⟩⟩

/-- What goes with a member of the first group of an array are leaves, and others than that. -/
theorem exists_detach_shared {a p n : Node} (hs : (w.tree .parameters).IsShared a p n)
    (hr : n.uuid ≠ (w.tree .parameters).root.uuid) :
    ∃ t', Gives ((standIns (w.tree .parameters) a.uuid n.uuid ++ [n.uuid]).foldlM
      (fun (t : Tree) u => do return (← liftM (t.detach u)).2 : Tree → Uuid → Edit Tree) (w.tree .parameters)) w t' w := by
  have hnt := h.valid.nodup
  have hn := Tree.mem_all_of_child hs.mem hs.child
  have hstand := fun u hu => exists_of_mem_standIns hnt hs.array (n := n.uuid) (u := u) hu
  -- The member itself is in a group, where no stand-ins are.
  have hother : n.kind ≠ .arrayParameterElement := fun hk => by
    have hallows := h.valid.allowed p hs.mem n hs.child
    rw [hs.group h, hk] at hallows
    cases hallows
  have halone : ∀ u ∈ standIns (w.tree .parameters) a.uuid n.uuid, ∀ v, v ≠ u →
      ∀ x ∈ (w.tree .parameters).all, x.uuid = u → v ∉ x.uuids := by
    intro u hu v hv x hx hxu
    obtain ⟨y, hy, hyu, hk⟩ := hstand u hu
    obtain rfl := Node.eq_of_uuid hnt hx hy (hxu.trans hyu.symm)
    rw [h.valid.uuids_standIn hx hk, hxu]
    simpa using hv
  refine exists_detach h.valid (fun u hu => ?_) (List.pairwise_append.2 ⟨?_, List.pairwise_singleton .., ?_⟩) w
  · rcases List.mem_append.1 hu with hu | hu
    · obtain ⟨x, hx, rfl, hk⟩ := hstand u hu
      exact ⟨x, hx, rfl, fun hroot => h.valid.standIn_ne_root hk (Node.eq_of_uuid hnt hx (Tree.root_mem _) hroot)⟩
    · exact ⟨n, hn, (List.mem_singleton.1 hu).symm, List.mem_singleton.1 hu ▸ hr⟩
  · exact (nodup_standIns hnt hs.array n.uuid).imp_of_mem fun hu _ hne => halone _ hu _ (Ne.symm hne)
  · intro u hu v hv
    refine halone u hu v fun hvu => ?_
    obtain ⟨x, hx, hxu, hk⟩ := hstand u hu
    obtain rfl := Node.eq_of_uuid hnt hx hn (hxu.trans (hvu.symm.trans (List.mem_singleton.1 hv)))
    exact hother hk

/-- A node other than the root goes, with its stand-ins where it has any. -/
theorem exists_removeParameter {n : Node} (hn : n ∈ (w.tree .parameters).all)
    (hr : n.uuid ≠ (w.tree .parameters).root.uuid) : ∃ w', Gives (removeParameter n.uuid) w () w' := by
  have hnt := h.valid.nodup
  obtain ⟨p, hp, hnp⟩ := Node.exists_parent hn fun hroot => hr (congrArg Node.uuid hroot)
  have hparent : (w.models.tree .parameters).parent? n.uuid = some p := Tree.parent?_of_child hnt hp hnp
  refine exists_gives_bind (gives_tree.2 ⟨rfl, rfl⟩) ?_
  simp only [hparent]
  split
  · exact exists_removeNode h.valid hn hr
  refine exists_transaction_parameters ?_
  cases hfirst : (w.models.tree .parameters).isFirstElement p.uuid with
  | false =>
    have hgone : ∀ u ∈ [n.uuid], ∃ m ∈ (w.tree .parameters).all, m.uuid = u ∧ u ≠ (w.tree .parameters).root.uuid :=
      fun u hu => ⟨n, hn, (List.mem_singleton.1 hu).symm, List.mem_singleton.1 hu ▸ hr⟩
    obtain ⟨t, hrun⟩ := exists_detach h.valid hgone (List.pairwise_singleton ..) w
    exact ⟨_, w, gives_bind.2 ⟨t, w, hrun, gives_pure.2 ⟨rfl, rfl⟩⟩⟩
  | true =>
    obtain ⟨a, ha, hak, hhead⟩ := Tree.exists_array_of_isFirstElement hnt hp hfirst
    have hs : (w.tree .parameters).IsShared a p n := ⟨ha, hak, hhead, hnp⟩
    have hscope : (w.models.tree .parameters).parent? p.uuid = some a := Tree.parent?_of_child hnt ha hs.element
    obtain ⟨t, hrun⟩ := exists_detach_shared h hs hr
    simp only [hscope, if_true, Option.map_some, Option.getD_some]
    exact ⟨_, w, gives_bind.2 ⟨t, w, hrun, gives_pure.2 ⟨rfl, rfl⟩⟩⟩

end

/-! ### Adding, deleting and dropping -/

section

variable (hw : (w.tree k).Valid)
include hw

/-- A child of a kind that is offered can be added. -/
theorem exists_addChild_of_addable (h : (w.tree .parameters).Consistent) {p : Node} (hp : p ∈ (w.tree k).all) {kind : Kind}
    (hk : kind ∈ (Rules.ofTree k).addable (w.tree k) p) : ∃ u w', Gives (addChild k p.uuid kind) w u w' := by
  obtain ⟨c, s, hnew⟩ := Rules.makes_newChild (l := w.models.others k) hk w.offered
  obtain ⟨hck, hc⟩ := Rules.produces_newChild k _ p kind _ _ c s hnew
  have hallows : p.kind.allows c.kind = true := hck ▸ Rules.allows_of_addable k hk
  have hissued := issued_offered hw.nodup
  suffices hrun : ∃ w', Gives (if k = .parameters then addParameter p.uuid c else insertNode k p.uuid none c)
      (w.withSupply s) c.uuid w' by
    obtain ⟨w', hrun⟩ := hrun
    refine ⟨c.uuid, w', ?_⟩
    simp only [addChild, gives_bind, gives_models, gives_liftM, gives_unless, gives_build]
    refine ⟨_, w, ⟨rfl, rfl⟩, p, w, ⟨Tree.node_eq_ok.2 (Tree.find?_of_mem hw.nodup hp), rfl⟩, ?_, c, _, ⟨s, hnew, rfl⟩, hrun⟩
    simpa [Workspace.tree] using hk
  split
  · subst k
    refine exists_addParameter (w := w.withSupply s) h hp hallows (hc.joins hissued) ?_
    obtain ⟨attrs, hnew⟩ := Rules.Parameters.gives_newChild (t := w.tree .parameters) (l := w.models.others .parameters) hnew
    obtain ⟨rfl, rfl⟩ := Rules.gives_new.1 hnew
    exact hissued.draw
  · exact exists_insertNode (w := w.withSupply s) hw hp hallows (hc.joins hissued) none

/-- A node that may be deleted can be deleted. -/
theorem exists_delete (h : (w.tree .parameters).Consistent) {n : Node} (hn : n ∈ (w.tree k).all)
    (hr : n.uuid ≠ (w.tree k).root.uuid) (hcan : (Rules.ofTree k).canDelete (w.tree k) n = true) :
    ∃ w', Gives (delete k n.uuid) w () w' := by
  simp only [delete, gives_bind, gives_tree, gives_liftM, gives_unless_told]
  suffices hrun : ∃ w', Gives (if k = .parameters then removeParameter n.uuid else removeNode k n.uuid) w () w' by
    obtain ⟨w', hrun⟩ := hrun
    refine ⟨w', _, w, ⟨rfl, rfl⟩, n, w, ⟨Tree.node_eq_ok.2 (Tree.find?_of_mem hw.nodup hn), rfl⟩, ?_, hrun⟩
    rw [not_or, Bool.not_eq_true', Bool.not_eq_false]
    exact ⟨hr, hcan⟩
  split
  · subst k
    exact exists_removeParameter h hn hr
  · exact exists_removeNode hw hn hr

omit hw in
/-- What is dropped is found, in another tree if not in this one. -/
theorem exists_dropSource {payload : List Nat} {p n : Node} (h : w.Accepts k payload p n) : ∃ internal,
    Gives (dropSource k p (.ofBytes payload)) w (n, internal) w ∧
      (internal = false → (w.models.others k).node? n.uuid = some n) := by
  have hn := h.found
  rw [dropped?, Lookup.node?, List.findSome?_cons] at hn
  cases hf : (w.tree k).find? (.ofBytes payload) with
  | some m =>
    rw [hf, Option.some.injEq] at hn
    subst hn
    refine ⟨true, ?_, fun h => by cases h⟩
    refine gives_bind.2 ⟨_, w, gives_models.2 ⟨rfl, rfl⟩, ?_⟩
    rw [show (w.models.tree k).find? (.ofBytes payload) = some m from hf]
    exact gives_pure.2 ⟨rfl, rfl⟩
  | none =>
    rw [hf] at hn
    have hnode : (w.models.others k).node (.ofBytes payload) = .ok n := by
      rw [Lookup.node, show (w.models.others k).node? (.ofBytes payload) = some n from hn]
    have hu := uuid_of_node hnode
    have haccepts : (w.models.get k).acceptsDropsFrom n.kind.tree = true := h.known.resolve_left fun hmem =>
      List.find?_eq_none.1 hf n hmem (by simp [hu])
    refine ⟨false, ?_, fun _ => hu ▸ hn⟩
    refine gives_bind.2 ⟨_, w, gives_models.2 ⟨rfl, rfl⟩, ?_⟩
    rw [show (w.models.tree k).find? (.ofBytes payload) = none from hf]
    refine gives_bind.2 ⟨n, w, gives_liftM.2 ⟨hnode, rfl⟩, ?_⟩
    exact gives_unless_told.2 ⟨by simp [haccepts], gives_pure.2 ⟨rfl, rfl⟩⟩

/-- A drop that is accepted succeeds. -/
theorem exists_drop {payload : List Nat} {p n : Node} (h : w.Accepts k payload p n) (row : Option Nat) :
    ∃ u w', Gives (drop k payload p.uuid row) w u w' := by
  obtain ⟨internal, hsource, hother⟩ := exists_dropSource h
  obtain ⟨-, hinternal, hmem⟩ := internal_of_dropSource hsource
  have hpayload : readPayload payload = .ok (.ofBytes payload) := if_pos h.length
  have htarget : (w.models.tree k).node p.uuid = .ok p := Tree.node_eq_ok.2 (Tree.find?_of_mem hw.nodup h.target)
  have hcan : ¬(!(Rules.ofTree k).canDrop (w.models.tree k) p n) = true := by
    rw [Bool.not_eq_true', Bool.not_eq_false]
    exact h.allowed
  refine (?_ : ∃ u w', Gives _ w u w').imp fun u ⟨w', hrest⟩ => ⟨w', gives_bind.2 ⟨_, w, gives_liftM.2 ⟨hpayload, rfl⟩,
    gives_bind.2 ⟨_, w, gives_models.2 ⟨rfl, rfl⟩, gives_bind.2 ⟨p, w, gives_liftM.2 ⟨htarget, rfl⟩,
      gives_bind.2 ⟨(n, internal), w, hsource, gives_unless_told.2 ⟨hcan, hrest⟩⟩⟩⟩⟩⟩
  split
  · rename_i hmove
    obtain ⟨v, hrun⟩ := exists_moveNode hw h.target (hmem hmove.1) (Rules.canMove_of_moves k hmove.2) row
    exact ⟨n.uuid, exists_gives_bind hrun (exists_gives_bind (a := ()) (gives_logNode.2 rfl)
      ⟨_, gives_pure.2 ⟨rfl, rfl⟩⟩)⟩
  · rename_i hcopy
    have hstay : (w.tree k).contains n.uuid = true → (Rules.ofTree k).moves (w.tree k) p n = false :=
      fun hc => Bool.eq_false_iff.2 fun hm => hcopy ⟨hinternal.trans hc, hm⟩
    obtain ⟨c, s, hnew⟩ := Rules.makes_childFrom h.allowed hstay (fun hc => hother (hinternal.trans hc)) w.offered
    obtain ⟨hallows, hc⟩ := Rules.produces_childFrom k _ h.allowed hstay _ c s hnew
    obtain ⟨v, hrun⟩ := exists_insertNode (w := w.withSupply s) hw h.target hallows (hc.joins (issued_offered hw.nodup)) row
    exact ⟨c.uuid, exists_gives_bind (gives_build.2 ⟨s, hnew, rfl⟩) (exists_gives_bind hrun
      (exists_gives_bind (a := ()) (gives_logNode.2 rfl) ⟨_, gives_pure.2 ⟨rfl, rfl⟩⟩))⟩

end

end Edit

end DeviceModel
