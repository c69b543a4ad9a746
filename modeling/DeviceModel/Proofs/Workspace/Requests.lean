import DeviceModel.Proofs.Rules.NewNodes
import DeviceModel.Proofs.Workspace.Failing
import DeviceModel.Proofs.Workspace.RegisterRuns

/-!
Requests of users that fail. Main statement: a request that fails in a project of valid trees leaves every
tree as it was and has told the views nothing (`unchanged_of_error`). The views are told of a change before it is
made, and a layout is brought up to date afterwards; so by then nothing may be left that can fail.
-/

namespace DeviceModel

namespace Edit

open Workspace

variable {w w' : Workspace} {k : TreeKind}

/-! ### One node -/

theorem exists_insertNode (hw : (w.tree k).Valid) {p : Node} (hp : p ∈ (w.tree k).all) {n : Node}
    (hk : p.kind.allows n.kind = true) (hn : n.Joins (w.tree k).uuids) (row : Option Nat) :
    ∃ w', Gives (insertNode k p.uuid row n) w n.uuid w' := by
  refine exists_gives_bind (gives_tree.2 ⟨rfl, rfl⟩) ?_
  refine exists_gives_bind (gives_liftM.2 ⟨Tree.node_eq_ok.2 (Tree.find?_of_mem hw.nodup hp), rfl⟩) ?_
  refine exists_gives_bind (a := ()) (gives_tell.2 rfl) (exists_gives_bind (a := ()) (gives_tell.2 rfl) ?_)
  have hinsert := Tree.insert_of_joins hw.nodup hp hk hn
    (some (min (row.getD p.children.length) p.children.length))
  refine exists_gives_bind (gives_liftM.2 ⟨hinsert, rfl⟩) ?_
  obtain ⟨_, hc⟩ := exists_commit (k := k) (fun _ => hw.insert hinsert) _
  exact exists_gives_bind hc ⟨_, gives_pure.2 ⟨rfl, rfl⟩⟩

theorem parentOf_ok {t : Tree} {u : Uuid} {p : Node} (h : parentOf t u = .ok p) : t.parent? u = some p := by
  unfold parentOf at h
  split at h
  · rename_i hp
    rw [hp, Except.ok.inj h]
  · cases hn : t.node u with
    | error x => rw [hn] at h; cases h
    | ok n => rw [hn] at h; cases h

/-- What has a parent is a node other than the root. -/
theorem mem_of_parent? {t : Tree} (ht : t.uuids.Nodup) {u : Uuid} {p : Node} (h : t.parent? u = some p) :
    ∃ n ∈ t.all, n.uuid = u ∧ u ≠ t.root.uuid := by
  obtain ⟨hp, n, hn, rfl⟩ := (Tree.parent?_eq_some ht).1 h
  refine ⟨n, Tree.mem_all_of_child hp hn, rfl, fun hr => ?_⟩
  rw [Tree.parent?, hr, Tree.ancestors_root] at h
  cases h

/-- A node other than the root can go. -/
theorem exists_removeNode (hw : (w.tree k).Valid) {n : Node} (hn : n ∈ (w.tree k).all)
    (hr : n.uuid ≠ (w.tree k).root.uuid) : ∃ w', Gives (removeNode k n.uuid) w () w' := by
  obtain ⟨p, hp, hnp⟩ := Node.exists_parent hn fun h => hr (congrArg Node.uuid h)
  have hparent : parentOf (w.tree k) n.uuid = .ok p := by
    rw [parentOf, Tree.parent?_of_child hw.nodup hp hnp]
  have hdetach := Tree.detach_of_mem hw.nodup hn hr
  refine exists_gives_bind (gives_tree.2 ⟨rfl, rfl⟩) (exists_gives_bind (gives_liftM.2 ⟨hparent, rfl⟩) ?_)
  refine exists_gives_bind (a := ()) (gives_tell.2 rfl) (exists_gives_bind (a := ()) (gives_tell.2 rfl) ?_)
  refine exists_gives_bind (gives_liftM.2 ⟨hdetach, rfl⟩) ?_
  exact exists_commit (fun _ => hw.detach hdetach) _

theorem atomic_removeNode (hw : (w.tree k).Valid) (u : Uuid) : Atomic w (removeNode k u) := by
  cases hp : parentOf (w.tree k) u with
  | error x =>
    refine atomic_bind (silent_tree k) fun t _ ht => ?_
    obtain ⟨rfl, rfl⟩ := gives_tree.1 ht
    exact atomic_bind (silent_liftM _) fun p _ hok => absurd (hp.symm.trans (gives_liftM.1 hok).1) (by simp)
  | ok p =>
    obtain ⟨n, hn, rfl, hr⟩ := mem_of_parent? hw.nodup (parentOf_ok hp)
    exact atomic_of_gives (exists_removeNode hw hn hr)

/-- What the rules allow to be moved can be moved. -/
theorem exists_moveNode (hw : (w.tree k).Valid) {target source : Node} (ht : target ∈ (w.tree k).all)
    (hs : source ∈ (w.tree k).all) (h : (w.tree k).canMove target source = true) (row : Option Nat) :
    ∃ w', Gives (moveNode k source.uuid target.uuid row) w () w' := by
  simp only [Tree.canMove, Bool.and_eq_true, bne_iff_ne, Bool.not_eq_true'] at h
  obtain ⟨⟨⟨⟨⟨⟨⟨⟨⟨-, hroot⟩, hne⟩, hanc⟩, hk⟩, -⟩, -⟩, -⟩, -⟩, -⟩ := h
  have hmove := Tree.move_of_mem hw.nodup hs ht hroot hne hanc hk row
  obtain ⟨p, hp, hsp⟩ := Node.exists_parent hs fun h => hroot (congrArg Node.uuid h)
  have hparent : parentOf (w.tree k) source.uuid = .ok p := by
    rw [parentOf, Tree.parent?_of_child hw.nodup hp hsp]
  refine exists_gives_bind (gives_tree.2 ⟨rfl, rfl⟩) (exists_gives_bind (gives_liftM.2 ⟨hparent, rfl⟩) ?_)
  refine exists_gives_bind (a := ()) (gives_tell.2 rfl) (exists_gives_bind (a := ()) (gives_tell.2 rfl) ?_)
  refine exists_gives_bind (gives_liftM.2 ⟨hmove, rfl⟩) ?_
  exact exists_commit (fun _ => hw.move hmove) _

/-! ### Attributes -/

theorem silent_field (k : TreeKind) (u : Uuid) (name : String) : Silent (field k u name) := by
  refine silent_bind (silent_tree k) fun t => silent_bind (silent_liftM _) fun n => ?_
  split
  · exact silent_pure _
  · exact silent_throw _

theorem atomic_setAttribute (hw : (w.tree k).Valid) (u : Uuid) (name : String) (v : Value) :
    Atomic w (setAttribute k u name v) := by
  refine atomic_bind (silent_field k u name) fun f _ hf => ?_
  obtain rfl := field_ok hf
  refine atomic_unless fun _ => atomic_bind (silent_tree k) fun t _ ht => ?_
  obtain ⟨rfl, rfl⟩ := gives_tree.1 ht
  refine atomic_bind (silent_liftM _) fun n _ hn => ?_
  obtain ⟨hfind, rfl⟩ := gives_liftM.1 hn
  split
  · exact (silent_throw _).atomic w
  · rename_i d hd
    obtain ⟨hnm, rfl⟩ := Tree.mem_of_find? (Tree.node_eq_ok.1 hfind)
    have hvalid : ((w.tree k).modify n.uuid fun _ => d).Valid := hw.setData hnm (Data.kind_set hd)
    obtain ⟨t', v, hrun⟩ := exists_updateLayout k (w.models.get k) hvalid w
    refine atomic_of_gives (a := ()) (exists_gives_bind (gives_model.2 ⟨rfl, rfl⟩) ?_)
    refine exists_gives_bind (a := ()) (gives_setModel.2 rfl) (exists_gives_bind hrun ?_)
    exact exists_gives_bind (a := ()) (gives_setModel.2 rfl) ⟨_, gives_tell.2 rfl⟩

theorem atomic_setAttributeText (hw : (w.tree k).Valid) (u : Uuid) (name text : String) :
    Atomic w (setAttributeText k u name text) := by
  refine atomic_bind (silent_field k u name) fun f _ hf => ?_
  obtain rfl := field_ok hf
  split
  · exact atomic_setAttribute hw u name _
  · exact (silent_throw _).atomic w

/-! ### Arrays -/

theorem atomic_setArrayLength (w : Workspace) (u : Uuid) (length : Nat) :
    Atomic w (setArrayLength u length) := by
  refine atomic_bind (silent_tree _) fun t _ _ => ?_
  split
  · exact (silent_throw _).atomic _
  · refine atomic_transaction ?_ fun _ _ _ _ h => by cases h
    exact silent_bind (silent_build _) fun _ => silent_pure _

/-- A new parameter joins under its parent, or the tree has been changed as a copy only. -/
theorem atomic_addParameter (hw : (w.tree .parameters).Valid) {p child : Node}
    (hp : p ∈ (w.tree .parameters).all) (hk : p.kind.allows child.kind = true)
    (hc : child.Joins (w.tree .parameters).uuids) : Atomic w (addParameter p.uuid child) := by
  refine atomic_bind (silent_tree _) fun t _ ht => ?_
  obtain ⟨rfl, rfl⟩ := gives_tree.1 ht
  refine atomic_bind (silent_liftM _) fun _ _ hn => ?_
  obtain ⟨-, rfl⟩ := gives_liftM.1 hn
  simp only
  split
  · exact atomic_of_gives (exists_insertNode hw hp hk hc none)
  · refine atomic_transaction (silent_bind (silent_liftM _) fun t => ?_) fun _ _ _ _ h => by cases h
    split
    · exact silent_pure _
    · refine silent_bind (silent_foldlM (fun t e => ?_) _ _) fun _ => silent_pure _
      exact silent_bind (silent_fresh _) fun _ => silent_liftM _

theorem atomic_removeParameter (hw : (w.tree .parameters).Valid) (u : Uuid) :
    Atomic w (removeParameter u) := by
  refine atomic_bind (silent_tree _) fun t _ ht => ?_
  obtain ⟨rfl, rfl⟩ := gives_tree.1 ht
  split
  · exact (silent_throw _).atomic w
  · simp only
    split
    · exact atomic_removeNode hw u
    · refine atomic_transaction ?_ fun _ _ _ _ h => by cases h
      refine silent_bind (silent_foldlM (fun t u => ?_) _ _) fun _ => silent_pure _
      exact silent_bind (silent_liftM _) fun _ => silent_pure _

/-! ### Adding, deleting and dropping -/

theorem atomic_addChild (hw : (w.tree k).Valid) (parent : Uuid) (kind : Kind) :
    Atomic w (addChild k parent kind) := by
  refine atomic_bind silent_models fun ms _ hms => ?_
  obtain ⟨rfl, rfl⟩ := gives_models.1 hms
  refine atomic_bind (silent_liftM _) fun p _ hp => ?_
  obtain ⟨hfind, rfl⟩ := gives_liftM.1 hp
  obtain ⟨hpm, rfl⟩ := Tree.mem_of_find? (Tree.node_eq_ok.1 hfind)
  refine atomic_unless fun hoffered => atomic_bind (silent_build _) fun child _ hchild => ?_
  obtain ⟨s, hnew, rfl⟩ := gives_build.1 hchild
  obtain ⟨hkind, hnew⟩ := Rules.produces_newChild k _ p kind _ _ _ _ hnew
  have hallowed : p.kind.allows child.kind = true :=
    hkind ▸ Rules.allows_of_addable k (by simpa using hoffered)
  have hjoins := hnew.joins (issued_offered hw.nodup)
  split
  · rename_i hk
    subst hk
    exact atomic_addParameter (w := w.withSupply s) hw hpm hallowed hjoins
  · exact atomic_of_gives (exists_insertNode (w := w.withSupply s) hw hpm hallowed hjoins none)

theorem atomic_delete (hw : (w.tree k).Valid) (u : Uuid) : Atomic w (delete k u) := by
  refine atomic_bind (silent_tree k) fun t _ ht => ?_
  obtain ⟨rfl, rfl⟩ := gives_tree.1 ht
  refine atomic_bind (silent_liftM _) fun n _ hn => ?_
  obtain ⟨-, rfl⟩ := gives_liftM.1 hn
  refine atomic_unless_told (silent_logNode _ _ _ _ _) fun _ => ?_
  split
  · rename_i hk
    subst hk
    exact atomic_removeParameter hw u
  · exact atomic_removeNode hw u

theorem silent_dropSource (k : TreeKind) (target : Node) (source : Uuid) :
    Silent (dropSource k target source) := by
  refine silent_bind silent_models fun ms => ?_
  split
  · exact silent_pure _
  · refine silent_bind (silent_liftM _) fun n => ?_
    exact silent_unless_told (silent_logNode _ _ _ _ _) _ (silent_pure _)

theorem uuid_of_node {l : Lookup} {u : Uuid} {n : Node} (h : l.node u = .ok n) : n.uuid = u := by
  unfold Lookup.node at h
  split at h
  · rename_i m hm
    obtain ⟨t, -, ht⟩ := List.exists_of_findSome?_eq_some hm
    cases h
    exact (Tree.mem_of_find? ht).2
  · cases h

/-- What is dropped is of the tree itself exactly if it is found there. -/
theorem internal_of_dropSource {target : Node} {source : Uuid} {n : Node} {internal : Bool}
    (h : Gives (dropSource k target source) w (n, internal) w') :
    w = w' ∧ internal = (w.tree k).contains n.uuid ∧ (internal = true → n ∈ (w.tree k).all) := by
  obtain rfl := dropSource_ok h
  refine ⟨rfl, ?_⟩
  simp only [dropSource, gives_bind, gives_models] at h
  obtain ⟨_, _, ⟨rfl, rfl⟩, h⟩ := h
  split at h
  · rename_i m hm
    obtain ⟨hmm, -⟩ := Tree.mem_of_find? hm
    obtain ⟨hpair, -⟩ := gives_pure.1 h
    cases hpair
    exact ⟨(Tree.contains_iff.2 (Node.uuid_mem_uuids hmm)).symm, fun _ => hmm⟩
  · rename_i hnone
    simp only [gives_bind, gives_liftM, gives_unless_told, gives_pure] at h
    obtain ⟨m, _, ⟨hm, rfl⟩, -, hpair, -⟩ := h
    cases hpair
    rw [uuid_of_node hm]
    refine ⟨(Bool.eq_false_iff.2 fun hc => ?_).symm, fun h => by cases h⟩
    obtain ⟨c, hcm, hcu⟩ := Tree.mem_uuids.1 (Tree.contains_iff.1 hc)
    exact List.find?_eq_none.1 hnone c hcm (by simp [hcu])

theorem atomic_dropNode (hw : (w.tree k).Valid) (source target : Uuid) (row : Option Nat) :
    Atomic w (dropNode k source target row) := by
  refine atomic_bind silent_models fun ms _ hms => ?_
  obtain ⟨rfl, rfl⟩ := gives_models.1 hms
  refine atomic_bind (silent_liftM _) fun p _ hp => ?_
  obtain ⟨hfind, rfl⟩ := gives_liftM.1 hp
  obtain ⟨hpm, rfl⟩ := Tree.mem_of_find? (Tree.node_eq_ok.1 hfind)
  refine atomic_bind (silent_dropSource k p source) fun found _ hfound => ?_
  obtain ⟨n, internal⟩ := found
  obtain ⟨rfl, hinternal, hmem⟩ := internal_of_dropSource hfound
  refine atomic_unless_told (silent_logNode _ _ _ _ _) fun hdrop => ?_
  have hdrop : (Rules.ofTree k).canDrop (w.models.tree k) p n = true := by simpa using hdrop
  split
  · rename_i hmove
    have hcan := Rules.canMove_of_moves k hmove.2
    exact atomic_logged (atomic_of_gives (exists_moveNode hw hpm (hmem hmove.1) hcan row)) _ _ _ _ _
  · rename_i hcopy
    refine atomic_bind (silent_build _) fun child _ hchild => ?_
    obtain ⟨s, hnew, rfl⟩ := gives_build.1 hchild
    have hstay : (w.tree k).contains n.uuid = true → (Rules.ofTree k).moves (w.tree k) p n = false :=
      fun hc => Bool.eq_false_iff.2 fun hm => hcopy ⟨hinternal.trans hc, hm⟩
    obtain ⟨hallowed, hnew⟩ := Rules.produces_childFrom k _ hdrop hstay _ _ _ hnew
    have hjoins := hnew.joins (issued_offered hw.nodup)
    have hinsert := exists_insertNode (w := w.withSupply s) hw hpm hallowed hjoins row
    exact atomic_logged (atomic_of_gives hinsert) _ _ _ _ _

theorem atomic_drop (hw : (w.tree k).Valid) (payload : List Nat) (target : Uuid) (row : Option Nat) :
    Atomic w (drop k payload target row) := by
  refine atomic_bind (silent_liftM _) fun source _ hsource => ?_
  obtain ⟨-, rfl⟩ := gives_liftM.1 hsource
  exact atomic_dropNode hw source target row

/-! ### Expansion -/

theorem atomic_expandTable (w : Workspace) (k : TreeKind) (table : Uuid) :
    Atomic w (expandTable k table) := by
  refine atomic_unless fun hk => ?_
  obtain rfl := not_not.1 hk
  exact atomic_logged (atomic_transaction (silent_build _) fun _ _ _ _ h => by cases h) _ _ _ _ _

theorem silent_linkedTable (k : TreeKind) (view : Uuid) : Silent (linkedTable k view) :=
  silent_bind (silent_liftM _) fun _ => silent_bind (silent_tree k) fun _ =>
    silent_bind (silent_liftM _) fun _ => silent_pure _

theorem silent_rebuildView (k : TreeKind) (view : Uuid) (f : Family) (shape : Shape) (z : ZeroBits)
    (t : Tree) : Silent (rebuildView k view f shape z t) := by
  refine silent_bind (silent_liftM _) fun n => silent_bind (silent_build _) fun plan => ?_
  refine silent_bind (silent_forIn (fun name _ => ?_) _ _) fun _ => silent_build _
  exact silent_bind (silent_logNode _ _ _ _ _) fun _ => silent_pure _

theorem atomic_expandView (hw : (w.tree k).Valid) (view : Uuid) (table : Option Uuid) (o : ExpandOptions) :
    Atomic w (expandView k view table o) := by
  refine atomic_bind (silent_linkedTable k view) fun x _ hx => ?_
  obtain ⟨f, linked⟩ := x
  obtain ⟨⟨hf, -⟩, rfl⟩ := linkedTable_ok.1 hx
  refine atomic_bind (silent_liftM _) fun u _ hu => ?_
  obtain ⟨-, rfl⟩ := gives_liftM.1 hu
  refine atomic_bind (silent_tree _) fun params _ hparams => ?_
  obtain ⟨rfl, rfl⟩ := gives_tree.1 hparams
  refine atomic_bind (silent_liftM _) fun shape _ hshape => ?_
  obtain ⟨-, rfl⟩ := gives_liftM.1 hshape
  have hvalid : ∀ t e v, Gives (rebuildView k view f shape o.zeroBits (w.tree k)) w (t, e) v →
      hasLayout k = true → t.Valid := fun t e v h _ => (rebuiltView hf hw h).valid
  have hsilent := silent_rebuildView k view f shape o.zeroBits (w.tree k)
  refine atomic_bind_of_gives (atomic_transaction hsilent hvalid) fun e v htrans => ?_
  -- The view is read once more for the log.
  obtain ⟨n, hn⟩ := exists_node_of_transaction hf hw htrans
  refine ⟨e, exists_gives_bind (gives_tree.2 ⟨rfl, rfl⟩) (exists_gives_bind (gives_liftM.2 ⟨hn, rfl⟩) ?_)⟩
  exact exists_gives_bind (a := ()) (gives_logNode.2 rfl) ⟨_, gives_pure.2 ⟨rfl, rfl⟩⟩

theorem atomic_syncSeeds (hw : (w.tree k).Valid) (view : Uuid) : Atomic w (syncSeeds k view) := by
  refine atomic_bind (silent_linkedTable k view) fun x _ hx => ?_
  obtain ⟨f, linked⟩ := x
  obtain ⟨⟨hf, n, hn, rfl⟩, rfl⟩ := linkedTable_ok.1 hx
  cases htable : f.tableOf? n.data with
  | none => exact (silent_throw _).atomic w
  | some table =>
    have hkind : n.kind = f.view := kind_of_tableOf? htable
    refine atomic_bind (silent_tree _) fun params _ hparams => ?_
    obtain ⟨rfl, rfl⟩ := gives_tree.1 hparams
    refine atomic_bind (silent_liftM _) fun sources _ hsources => ?_
    obtain ⟨-, rfl⟩ := gives_liftM.1 hsources
    refine atomic_transaction ?_ fun t a v h _ => ?_
    · exact silent_bind (silent_liftM _) fun _ => silent_bind (silent_fresh _) fun _ => silent_pure _
    · simp only [gives_bind, gives_liftM, gives_fresh, gives_pure, Prod.mk.injEq] at h
      obtain ⟨m, _, ⟨hm, rfl⟩, cs, _, ⟨s, hcs, rfl⟩, ⟨rfl, -⟩, rfl⟩ := h
      obtain rfl : n = m := Option.some.inj (hn.symm.trans (Tree.node_eq_ok.1 hm))
      obtain ⟨hnm, rfl⟩ := Tree.mem_of_find? hn
      have hvalid := ViewExpansion.valid_sync (Family.lawful_of_ofTree hf) hw hnm hkind sources
        (issued_offered hw.nodup)
      rwa [show (ViewExpansion.sync f n.children sources w.offered).1 = cs from congrArg Prod.fst hcs] at hvalid

end Edit

/-! ### Any request -/

namespace Workspace

open Edit

/-- The edit that an operation on the tree `k` is. -/
def Operation.run (k : TreeKind) : Operation → Edit Unit
  | .addChild parent kind => do let _ ← Edit.addChild k parent kind
  | .delete u => Edit.delete k u
  | .drop payload target row => do let _ ← Edit.drop k payload target row
  | .setAttribute u name v => Edit.setAttribute k u name v
  | .expandView view table o => do let _ ← Edit.expandView k view table o
  | .syncSeeds view => Edit.syncSeeds k view

/-- What a user may ask of a project: an operation on one of its trees, an attribute as it was entered, an
array of another length, or an expanded table. -/
inductive Request
  | operate (k : TreeKind) (op : Operation)
  | setAttributeText (k : TreeKind) (u : Uuid) (name text : String)
  | setArrayLength (array : Uuid) (length : Nat)
  | expandTable (k : TreeKind) (table : Uuid)

def Request.run : Request → Edit Unit
  | .operate k op => op.run k
  | .setAttributeText k u name text => Edit.setAttributeText k u name text
  | .setArrayLength array length => Edit.setArrayLength array length
  | .expandTable k table => do let _ ← Edit.expandTable k table

/-- The tree that a request changes. -/
def Request.tree : Request → TreeKind
  | .operate k _ | .setAttributeText k .. | .expandTable k _ => k
  | .setArrayLength .. => .parameters

variable {w w' : Workspace}

theorem atomic_operation {k : TreeKind} (hw : (w.tree k).Valid) (op : Operation) : Atomic w (op.run k) := by
  cases op with
  | addChild parent kind => exact atomic_discard (atomic_addChild hw parent kind)
  | delete u => exact atomic_delete hw u
  | drop payload target row => exact atomic_discard (atomic_drop hw payload target row)
  | setAttribute u name v => exact atomic_setAttribute hw u name v
  | expandView view table o => exact atomic_discard (atomic_expandView hw view table o)
  | syncSeeds view => exact atomic_syncSeeds hw view

theorem atomic_request (hw : ∀ k, (w.tree k).Valid) (r : Request) : Atomic w r.run := by
  cases r with
  | operate k op => exact atomic_operation (hw k) op
  | setAttributeText k u name text => exact atomic_setAttributeText (hw k) u name text
  | setArrayLength array length => exact atomic_setArrayLength w array length
  | expandTable k table => exact atomic_discard (atomic_expandTable w k table)

/-- A request that fails leaves every tree as it was and has told the views nothing. -/
theorem unchanged_of_error {r : Request} {x : Error} (hw : ∀ k, (w.tree k).Valid)
    (h : outcome r.run w = (.error x, w')) : (∀ k, w'.tree k = w.tree k) ∧ w'.events = w.events :=
  have huntouched := atomic_request hw r x w' h
  ⟨huntouched.trees, huntouched.events⟩

/-- An expanded table, and a view of it in the CAN tree whose reference point has no bits yet. -/
def withoutBits : Edit Unit := do
  let table ← Edit.addChild .parameters (← Edit.tree .parameters).root.uuid .table
  let axis ← Edit.addChild .parameters table .enumeration
  let _ ← Edit.addChild .parameters axis .enumerator
  let row ← Edit.addChild .parameters table .group
  let _ ← Edit.addChild .parameters row .parameter
  let _ ← Edit.expandTable .parameters table
  let message ← Edit.addChild .can (← Edit.tree .can).root.uuid .multiplexedMessage
  let _ ← Edit.addChild .can message .signal
  let _ ← dropNode .can table message none

/-- Without bits nothing can be placed, so the view is not rebuilt. -/
theorem unchanged_of_error_withoutBits : ∃ x w',
    outcome (Request.operate .can (.expandView ⟨15⟩ none {})).run (outcome withoutBits (initial 0)).2 =
        (.error x, w') ∧
      (∀ k, w'.tree k = (outcome withoutBits (initial 0)).2.tree k) ∧
        w'.events = (outcome withoutBits (initial 0)).2.events := by
  have hw : ∀ k, ((outcome withoutBits (initial 0)).2.tree k).Valid := by
    intro k
    cases k <;> decide +kernel
  obtain ⟨x, hx⟩ := error_of_toOption (s := (outcome withoutBits (initial 0)).2)
    (e := (Request.operate .can (.expandView ⟨15⟩ none {})).run) (by decide +kernel)
  exact ⟨x, _, hx, unchanged_of_error hw hx⟩

end Workspace

end DeviceModel
