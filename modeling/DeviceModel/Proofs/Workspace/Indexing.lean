import DeviceModel.Proofs.Workspace.Arrays
import DeviceModel.Workspace.Import

/-!
Looking nodes up by an attribute. A model keeps an index of an attribute from the first time it is asked for
it until its tree changes. What carries the proof is that whatever is indexed is what the tree has
(`Model.Indexed`): a query keeps it, and an edit that puts another tree in place leaves nothing indexed. Main
statement: whatever is asked and edited before, a query answers from the tree as it is then
(`nodesByAttribute_of_run`).
-/

namespace DeviceModel

/-- The nodes whose attribute of the given name equals `v`, in pre-order. -/
def Tree.withAttribute (t : Tree) (name : String) (v : Value) : List Uuid :=
  (t.all.filter fun n => (Attr.ofKey? name >>= n.data.get?).any (·.same v)).map (·.uuid)

/-! ### One model -/

namespace Model

/-- Whatever is indexed is what the tree has. -/
def Indexed (m : Model) : Prop := ∀ p ∈ m.index, p.2 = entries m.tree p.1

theorem indexed_of_index {m : Model} (h : m.index = []) : m.Indexed := by
  simp [Indexed, h]

theorem indexed_withTree (m : Model) (t : Tree) : (m.withTree t).Indexed := indexed_of_index rfl

/-- The entries of an attribute that are as `p` says, by their nodes. -/
theorem map_filter_entries (t : Tree) (a : Attr) (p : Value → Bool) :
    ((entries t a).filter (p ·.1)).map (·.2) =
      (t.all.filter fun n => (n.data.get? a).any p).map (·.uuid) := by
  unfold entries
  induction t.all with
  | nil => rfl
  | cons n ns ih =>
    cases h : n.data.get? a with
    | none => simp [h, ih]
    | some x => cases hp : p x <;> simp [h, hp, ih]

section

variable {m : Model} (h : m.Indexed)
include h

/-- What is taken from the index is what the tree would give. -/
theorem Indexed.indexed_eq (a : Attr) : m.indexed a = entries m.tree a := by
  unfold indexed
  split
  · rename_i b es hfind
    have hkey : b = a := by simpa using List.find?_some hfind
    exact hkey ▸ h _ (List.mem_of_find?_eq_some hfind)
  · rfl

theorem Indexed.fst_nodesByAttribute {name : String} {a : Attr} (ha : Attr.ofKey? name = some a) (v : Value) :
    (m.nodesByAttribute a v).1 = m.tree.withAttribute name v := by
  simp only [nodesByAttribute, h.indexed_eq, Tree.withAttribute, ha]
  exact map_filter_entries m.tree a (·.same v)

theorem Indexed.nodesByAttribute (a : Attr) (v : Value) : (m.nodesByAttribute a v).2.Indexed := by
  unfold Model.nodesByAttribute
  simp only
  split
  · exact h
  · exact List.forall_mem_cons.2 ⟨h.indexed_eq a, h⟩

omit h in
theorem tree_nodesByAttribute (a : Attr) (v : Value) : (m.nodesByAttribute a v).2.tree = m.tree := by
  unfold nodesByAttribute
  simp only
  split <;> rfl

end

/-- A model takes drops from more trees with its index as it is. -/
theorem Indexed.addDropSources {m m' : Model} (h : m.Indexed) {sources : List Tree}
    (hm : m.addDropSources sources = .ok m') : m'.Indexed := by
  unfold Model.addDropSources at hm
  split at hm
  · cases hm
  · cases hm
    exact h

theorem indexed_ofText {text : String} {k : TreeKind} {others : List Tree} {s : Supply} {r : Model × Supply}
    (h : ofText text k others s = .ok r) : r.1.Indexed := by
  unfold ofText at h
  cases ht : Tree.ofText text k others s with
  | error x => rw [ht] at h; cases h
  | ok r =>
    rw [ht] at h
    cases h
    exact indexed_of_index rfl

end Model

/-! ### All models -/

namespace Models

/-- No model has anything indexed that its tree does not have. -/
def Indexed (ms : Models) : Prop := ∀ k, (ms.get k).Indexed

variable {ms : Models}

theorem Indexed.set (h : ms.Indexed) (k : TreeKind) {m : Model} (hm : m.Indexed) : (ms.set k m).Indexed := by
  intro j
  by_cases hj : j = k
  · rw [hj, get_set_self]
    exact hm
  · rw [get_set_of_ne _ _ hj]
    exact h j

theorem Indexed.registerFrom (h : ms.Indexed) (ks : List TreeKind) : (ms.registerFrom ks).2.Indexed := by
  induction ks generalizing ms with
  | nil => exact h
  | cons k ks ih =>
    rw [Models.registerFrom]
    split
    · rename_i m hm
      exact ih (h.set k ((h k).addDropSources hm))
    · exact h

end Models

def Workspace.Indexed (w : Workspace) : Prop := w.models.Indexed

namespace Edit

open Workspace

variable {k : TreeKind}

/-- A query answers from the tree and leaves it as it is. -/
theorem gives_nodesByAttribute {w : Workspace} (hw : w.Indexed) (k : TreeKind) (name : String) (v : Value) :
    ∃ w', Gives (nodesByAttribute k name v) w ((w.tree k).withAttribute name v) w' ∧ Alike w w' ∧ w'.Indexed := by
  unfold nodesByAttribute
  split
  · rename_i hname
    exact ⟨w, gives_pure.2 ⟨by simp [Tree.withAttribute, hname], rfl⟩, fun _ => rfl, hw⟩
  · rename_i a hname
    have hfound := (hw k).fst_nodesByAttribute hname v
    have hindexed := (hw k).nodesByAttribute a v
    have htree := (w.models.get k).tree_nodesByAttribute a v
    refine ⟨w.withModel k ((w.models.get k).nodesByAttribute a v).2, ?_, fun j => ?_,
      Models.Indexed.set hw k hindexed⟩
    · refine gives_bind.2 ⟨_, w, gives_model.2 ⟨rfl, rfl⟩, gives_bind.2 ⟨(), _, gives_setModel.2 rfl, ?_⟩⟩
      exact gives_pure.2 ⟨hfound, rfl⟩
    · by_cases hj : j = k
      · rw [hj, (puts_withModel w k _).tree, htree]
        rfl
      · exact (puts_withModel w k _).others j hj

theorem indexed_nodesByAttribute (k : TreeKind) (name : String) (v : Value) :
    Keeps Indexed (nodesByAttribute k name v) := by
  intro w hw
  obtain ⟨w', hrun, -, hw'⟩ := gives_nodesByAttribute hw k name v
  rwa [show outcome (nodesByAttribute k name v) w = _ from hrun]

/-! ### Steps of edits -/

theorem indexed_tell (k : TreeKind) (e : ViewEvent) : Keeps Indexed (tell k e) := fun _ h => h

theorem indexed_logNode (l : LogLevel) (k : TreeKind) (kind : Kind) (u : Uuid) (text : String) :
    Keeps Indexed (logNode l k kind u text) := fun _ h => h

theorem indexed_build (b : Build α) : Keeps Indexed (build b) := by
  intro w hw
  rw [outcome_build]
  exact hw

theorem indexed_fresh (b : Fresh α) : Keeps Indexed (fresh b) := indexed_build _

/-- A tree that is put in place leaves nothing indexed. -/
theorem indexed_setModel (k : TreeKind) (m : Model) (t : Tree) : Keeps Indexed (setModel k (m.withTree t)) :=
  fun _ hw => Models.Indexed.set hw k (m.indexed_withTree t)

theorem indexed_commit (k : TreeKind) (t : Tree) : Keeps Indexed (commit k t) := by
  refine keeps_bind (keeps_model k) fun m => keeps_bind (indexed_setModel k m t) fun _ => ?_
  split
  · refine keeps_bind (indexed_build _) fun t => keeps_bind (indexed_setModel k m t) fun _ => ?_
    exact indexed_tell k _
  · exact keeps_pure _

theorem indexed_insertNode (k : TreeKind) (parent : Uuid) (row : Option Nat) (n : Node) :
    Keeps Indexed (insertNode k parent row n) := by
  refine keeps_bind (keeps_tree k) fun t => keeps_bind (keeps_liftM _) fun p => ?_
  refine keeps_bind (indexed_tell k _) fun _ => keeps_bind (indexed_tell k _) fun _ => ?_
  refine keeps_bind (keeps_liftM _) fun t => keeps_bind (indexed_commit k t) fun _ => ?_
  exact keeps_pure _

theorem indexed_removeNode (k : TreeKind) (u : Uuid) : Keeps Indexed (removeNode k u) := by
  refine keeps_bind (keeps_tree k) fun t => keeps_bind (keeps_liftM _) fun p => ?_
  refine keeps_bind (indexed_tell k _) fun _ => keeps_bind (indexed_tell k _) fun _ => ?_
  exact keeps_bind (keeps_liftM _) fun r => indexed_commit k r.2

theorem indexed_moveNode (k : TreeKind) (u parent : Uuid) (row : Option Nat) :
    Keeps Indexed (moveNode k u parent row) := by
  refine keeps_bind (keeps_tree k) fun t => keeps_bind (keeps_liftM _) fun p => ?_
  refine keeps_bind (indexed_tell k _) fun _ => keeps_bind (indexed_tell k _) fun _ => ?_
  exact keeps_bind (keeps_liftM _) fun t => indexed_commit k t

/-- Announcements change no index. -/
theorem indexed_announce {c : Prop} [Decidable c] {e e' : ViewEvent} {rest : Edit α} (h : Keeps Indexed rest) :
    Keeps Indexed (if c then do tell k e; tell k e'; rest else rest) := by
  split
  · exact keeps_bind (indexed_tell k e) fun _ => keeps_bind (indexed_tell k e') fun _ => h
  · exact h

/-- A transaction that keeps what is indexed while it works on the copy keeps it altogether. -/
theorem indexed_transaction {scope : Uuid} {f : Tree → Edit (Tree × α)} (hf : ∀ t, Keeps Indexed (f t)) :
    Keeps Indexed (transaction k scope f) := by
  refine keeps_bind (keeps_tree k) fun t => keeps_bind (hf t) fun p => ?_
  refine indexed_announce (indexed_announce ?_)
  refine keeps_bind (indexed_commit k _) fun _ => keeps_bind (indexed_logNode _ _ _ _ _) fun _ => ?_
  exact keeps_pure _

/-! ### Attributes -/

theorem indexed_field (k : TreeKind) (u : Uuid) (name : String) : Keeps Indexed (field k u name) := by
  refine keeps_bind (keeps_tree k) fun t => keeps_bind (keeps_liftM _) fun n => ?_
  split
  · exact keeps_pure _
  · exact keeps_throw _

/-- Setting an attribute puts two trees in place, the second one laid out. -/
theorem indexed_setAttribute (k : TreeKind) (u : Uuid) (name : String) (v : Value) :
    Keeps Indexed (setAttribute k u name v) := by
  refine keeps_bind (indexed_field k u name) fun f => keeps_unless ?_
  refine keeps_bind (keeps_tree k) fun t => keeps_bind (keeps_liftM _) fun n => ?_
  split
  · exact keeps_throw _
  · refine keeps_bind (keeps_model k) fun m => keeps_bind (indexed_setModel k m _) fun _ => ?_
    refine keeps_bind (indexed_build _) fun t => keeps_bind (indexed_setModel k m t) fun _ => ?_
    exact indexed_tell k _

theorem indexed_setAttributeText (k : TreeKind) (u : Uuid) (name text : String) :
    Keeps Indexed (setAttributeText k u name text) := by
  refine keeps_bind (indexed_field k u name) fun f => ?_
  split
  · exact indexed_setAttribute k u name _
  · exact keeps_throw _

/-! ### Whole trees -/

theorem indexed_replaceTree (k : TreeKind) (t : Tree) : Keeps Indexed (replaceTree k t) :=
  keeps_bind (keeps_model k) fun m => indexed_announce (indexed_setModel k m t)

theorem indexed_load (k : TreeKind) (text : String) : Keeps Indexed (load k text) := by
  intro w hw
  rw [load, outcome_bind, show outcome (get : Edit Workspace) w = (.ok w, w) from rfl]
  simp only
  rw [outcome_bind, outcome_liftM]
  split
  · rename_i r v hm
    obtain ⟨hr, rfl⟩ := Prod.mk.inj hm
    have hloaded := Models.Indexed.set hw k (Model.indexed_ofText hr)
    rw [outcome_bind, show ∀ v : Workspace, outcome (set v : Edit PUnit) w = (.ok ⟨⟩, v) from fun _ => rfl]
    simp only [outcome_liftM]
    exact hloaded.registerFrom _
  · rename_i x v hm
    obtain ⟨-, rfl⟩ := Prod.mk.inj hm
    exact hw

/-! ### Arrays -/

theorem indexed_setArrayLength (u : Uuid) (length : Nat) : Keeps Indexed (setArrayLength u length) := by
  refine keeps_bind (keeps_tree .parameters) fun t => ?_
  split
  · exact keeps_throw _
  · exact indexed_transaction fun t => keeps_bind (indexed_build _) fun _ => keeps_pure _

theorem indexed_addParameter (parent : Uuid) (child : Node) : Keeps Indexed (addParameter parent child) := by
  refine keeps_bind (keeps_tree .parameters) fun t => keeps_bind (keeps_liftM _) fun p => ?_
  simp only
  split
  · exact indexed_insertNode .parameters parent none child
  · refine indexed_transaction fun t => keeps_bind (keeps_liftM _) fun t => ?_
    split
    · exact keeps_pure _
    · refine keeps_bind (keeps_foldlM (fun t e => ?_) _ _) fun _ => keeps_pure _
      exact keeps_bind (indexed_fresh _) fun m => keeps_liftM _

theorem indexed_removeParameter (u : Uuid) : Keeps Indexed (removeParameter u) := by
  refine keeps_bind (keeps_tree .parameters) fun t => ?_
  split
  · exact keeps_throw _
  · simp only
    split
    · exact indexed_removeNode .parameters u
    · refine indexed_transaction fun t => ?_
      refine keeps_bind (keeps_foldlM (fun t u => ?_) _ _) fun _ => keeps_pure _
      exact keeps_bind (keeps_liftM _) fun _ => keeps_pure _

theorem indexed_rename (u : Uuid) (name : String) : Keeps Indexed (rename u name) :=
  keeps_rename (fun u v => indexed_setAttribute .parameters u "name" v) u name

/-! ### Adding, deleting and dropping -/

theorem indexed_addChild (k : TreeKind) (parent : Uuid) (kind : Kind) : Keeps Indexed (addChild k parent kind) := by
  refine keeps_bind keeps_models fun ms => keeps_bind (keeps_liftM _) fun p => keeps_unless ?_
  refine keeps_bind (indexed_build _) fun child => ?_
  split
  · exact indexed_addParameter parent child
  · exact indexed_insertNode k parent none child

theorem indexed_delete (k : TreeKind) (u : Uuid) : Keeps Indexed (delete k u) := by
  refine keeps_bind (keeps_tree k) fun t => keeps_bind (keeps_liftM _) fun n => ?_
  refine keeps_unless_told (indexed_logNode _ _ _ _ _) ?_
  split
  · exact indexed_removeParameter u
  · exact indexed_removeNode k u

theorem indexed_dropSource (k : TreeKind) (target : Node) (source : Uuid) :
    Keeps Indexed (dropSource k target source) := by
  refine keeps_bind keeps_models fun ms => ?_
  split
  · exact keeps_pure _
  · refine keeps_bind (keeps_liftM _) fun n => ?_
    exact keeps_unless_told (indexed_logNode _ _ _ _ _) (keeps_pure _)

theorem indexed_dropNode (k : TreeKind) (source target : Uuid) (row : Option Nat) :
    Keeps Indexed (dropNode k source target row) := by
  refine keeps_bind keeps_models fun ms => keeps_bind (keeps_liftM _) fun p => ?_
  refine keeps_bind (indexed_dropSource k p source) fun found => ?_
  refine keeps_unless_told (indexed_logNode _ _ _ _ _) ?_
  split
  · refine keeps_bind (indexed_moveNode k _ _ row) fun _ => ?_
    exact keeps_bind (indexed_logNode _ _ _ _ _) fun _ => keeps_pure _
  · refine keeps_bind (indexed_build _) fun child => keeps_bind (indexed_insertNode k _ row child) fun u => ?_
    exact keeps_bind (indexed_logNode _ _ _ _ _) fun _ => keeps_pure _

theorem indexed_drop (k : TreeKind) (payload : List Nat) (target : Uuid) (row : Option Nat) :
    Keeps Indexed (drop k payload target row) :=
  keeps_bind (keeps_liftM _) fun source => indexed_dropNode k source target row

/-! ### Expansion -/

theorem indexed_logExpansion (k : TreeKind) (kind : Kind) (what : String) (e : Expansion) :
    Keeps Indexed (logExpansion k kind what e) := indexed_logNode _ _ _ _ _

theorem indexed_expandTable (k : TreeKind) (table : Uuid) : Keeps Indexed (expandTable k table) := by
  refine keeps_unless (keeps_bind (indexed_transaction fun t => indexed_build _) fun e => ?_)
  exact keeps_bind (indexed_logExpansion _ _ _ e) fun _ => keeps_pure e

theorem indexed_linkedTable (k : TreeKind) (view : Uuid) : Keeps Indexed (linkedTable k view) := by
  refine keeps_bind (keeps_liftM _) fun f => keeps_bind (keeps_tree k) fun t => ?_
  exact keeps_bind (keeps_liftM _) fun n => keeps_pure _

theorem indexed_rebuildView (k : TreeKind) (view : Uuid) (f : Family) (shape : Shape) (z : ZeroBits) (t : Tree) :
    Keeps Indexed (rebuildView k view f shape z t) := by
  refine keeps_bind (keeps_liftM _) fun n => keeps_bind (indexed_build _) fun plan => ?_
  refine keeps_bind (keeps_forIn (fun name _ => ?_) _ _) fun _ => indexed_build _
  exact keeps_bind (indexed_logNode _ _ _ _ _) fun _ => keeps_pure _

theorem indexed_expandView (k : TreeKind) (view : Uuid) (table : Option Uuid) (o : ExpandOptions) :
    Keeps Indexed (expandView k view table o) := by
  refine keeps_bind (indexed_linkedTable k view) fun x => ?_
  obtain ⟨f, linked⟩ := x
  refine keeps_bind (keeps_liftM _) fun table => keeps_bind (keeps_tree .parameters) fun params => ?_
  refine keeps_bind (keeps_liftM _) fun shape => ?_
  refine keeps_bind (indexed_transaction (indexed_rebuildView k view f shape o.zeroBits)) fun e => ?_
  refine keeps_bind (keeps_tree k) fun t => keeps_bind (keeps_liftM _) fun n => ?_
  exact keeps_bind (indexed_logExpansion _ _ _ e) fun _ => keeps_pure e

theorem indexed_syncSeeds (k : TreeKind) (view : Uuid) : Keeps Indexed (syncSeeds k view) := by
  refine keeps_bind (indexed_linkedTable k view) fun x => ?_
  obtain ⟨f, linked⟩ := x
  cases linked with
  | none => exact keeps_throw _
  | some table =>
    refine keeps_bind (keeps_tree .parameters) fun params => keeps_bind (keeps_liftM _) fun sources => ?_
    refine indexed_transaction fun t => keeps_bind (keeps_liftM _) fun n => ?_
    exact keeps_bind (indexed_fresh _) fun cs => keeps_pure _

theorem indexed_expandAll (o : ExpandOptions) : Keeps Indexed (expandAll o) := by
  refine keeps_bind (keeps_tree .parameters) fun t => ?_
  refine keeps_bind (keeps_mapM (indexed_expandTable .parameters) _) fun first => ?_
  refine keeps_bind (keeps_mapM (fun k => ?_) _) fun rest => keeps_pure _
  refine keeps_bind (keeps_liftM _) fun f => keeps_bind (keeps_tree k) fun t => ?_
  exact keeps_mapM (fun v => indexed_expandView k v none o) _

/-! ### Import -/

theorem indexed_putText (k : TreeKind) (u : Uuid) (a : Attr) (s : Option String) : Keeps Indexed (putText k u a s) := by
  cases s with
  | none => exact keeps_pure _
  | some s => exact indexed_setAttribute k u a.key _

theorem indexed_addNamed (k : TreeKind) (parent : Uuid) (kind : Kind) (name : String) :
    Keeps Indexed (addNamed k parent kind name) := by
  refine keeps_bind (indexed_addChild k parent kind) fun u => ?_
  exact keeps_bind (indexed_setAttribute k u _ _) fun _ => keeps_pure u

theorem indexed_ensurePointTypes : Keeps Indexed ensurePointTypes := by
  refine keeps_bind (keeps_tree .parameters) fun t => ?_
  split
  · exact keeps_pure _
  · refine keeps_bind (indexed_addNamed _ _ _ _) fun e => ?_
    refine keeps_bind (keeps_forIn (fun p _ => ?_) _ _) fun _ => keeps_pure e
    refine keeps_bind (indexed_addNamed _ _ _ _) fun u => ?_
    exact keeps_bind (indexed_setAttribute _ u _ _) fun _ => keeps_pure _

theorem indexed_importSymbols (group : Uuid) (p : Smdx.Point) : Keeps Indexed (importSymbols group p) := by
  refine keeps_bind (indexed_addNamed _ _ _ _) fun e => ?_
  refine keeps_bind (keeps_forIn (fun s _ => ?_) _ _) fun _ => keeps_pure e
  refine keeps_bind (indexed_addNamed _ _ _ _) fun u => keeps_bind (indexed_setAttribute _ u _ _) fun _ => ?_
  refine keeps_bind (indexed_putText _ u _ _) fun _ => keeps_bind (indexed_putText _ u _ _) fun _ => ?_
  exact keeps_pure _

theorem indexed_importParameter (group : Uuid) (p : Smdx.Point) : Keeps Indexed (importParameter group p) := by
  refine keeps_bind (indexed_addNamed _ _ _ _) fun u => keeps_bind (indexed_setAttribute _ u _ _) fun _ => ?_
  refine keeps_bind (indexed_putText _ u _ _) fun _ => keeps_bind (indexed_putText _ u _ _) fun _ => ?_
  refine keeps_bind (indexed_putText _ u _ _) fun _ => keeps_bind (indexed_setAttribute _ u _ _) fun _ => ?_
  split
  · refine keeps_bind (indexed_importSymbols group p) fun e => ?_
    exact keeps_bind (indexed_setAttribute _ u _ _) fun _ => keeps_pure u
  · exact keeps_pure u

theorem indexed_importPoint (block : Uuid) (p : Smdx.Point) (parameter : Uuid) :
    Keeps Indexed (importPoint block p parameter) := by
  have hrest : ∀ u, Keeps Indexed (do
      put .sunSpec u .size (.integer p.size)
      put .sunSpec u .mandatory (.bool p.mandatory)
      putText .sunSpec u .units p.units
      return u) := fun u => by
    refine keeps_bind (indexed_setAttribute _ u _ _) fun _ => keeps_bind (indexed_setAttribute _ u _ _) fun _ => ?_
    exact keeps_bind (indexed_putText _ u _ _) fun _ => keeps_pure u
  refine keeps_bind keeps_models fun ms => keeps_bind (indexed_dropNode _ _ _ _) fun u => ?_
  split
  · exact keeps_bind (indexed_setAttribute _ u _ _) fun _ => hrest u
  · exact hrest u

theorem indexed_linkFactor (points : List (Smdx.Point × Uuid)) (p : Smdx.Point) :
    Keeps Indexed (linkFactor points p) := by
  unfold linkFactor
  split
  · exact indexed_setAttribute _ _ _ _
  · exact keeps_pure _

theorem indexed_importModel (m : Smdx.Model) : Keeps Indexed (importModel m) := by
  refine keeps_bind indexed_ensurePointTypes fun _ => keeps_bind (keeps_tree .parameters) fun t => ?_
  refine keeps_bind (indexed_addNamed _ _ _ _) fun group => ?_
  refine keeps_bind (keeps_mapM (indexed_importParameter group) _) fun parameters => ?_
  refine keeps_bind (keeps_tree .sunSpec) fun t => keeps_bind (indexed_addNamed _ _ _ _) fun model => ?_
  refine keeps_bind (indexed_setAttribute _ model _ _) fun _ => keeps_bind (keeps_tree .sunSpec) fun t => ?_
  split
  · exact keeps_throw _
  · rename_i block _
    refine keeps_bind (keeps_mapM (fun p => ?_) _) fun points => ?_
    · exact keeps_bind (indexed_importPoint block.uuid p.1 p.2) fun u => keeps_pure _
    refine keeps_bind (keeps_forIn (fun p _ => ?_) _ _) fun _ => ?_
    · exact keeps_bind (indexed_linkFactor points p) fun _ => keeps_pure _
    exact keeps_bind (fun _ h => h) fun _ => keeps_pure model

end Edit

/-! ### Runs -/

namespace Workspace

open Edit

/-- What may be done to a project in turn: a question, what a user asks for, a renamed parameter, an edit of
one node or of a copy of a tree, another tree or file in the place of a model, expansion, and import. -/
inductive Step
  | query (k : TreeKind) (name : String) (v : Value)
  | request (r : Request)
  | rename (u : Uuid) (name : String)
  | insertNode (k : TreeKind) (parent : Uuid) (row : Option Nat) (n : Node)
  | removeNode (k : TreeKind) (u : Uuid)
  | moveNode (k : TreeKind) (u parent : Uuid) (row : Option Nat)
  | transaction (k : TreeKind) (scope : Uuid) (f : Tree → Except Error Tree)
  | replaceTree (k : TreeKind) (t : Tree)
  | load (k : TreeKind) (text : String)
  | expandAll (o : ExpandOptions)
  | importModel (m : Smdx.Model)

def Step.run : Step → Edit Unit
  | query k name v => do let _ ← Edit.nodesByAttribute k name v
  | request r => r.run
  | rename u name => Edit.rename u name
  | insertNode k parent row n => do let _ ← Edit.insertNode k parent row n
  | removeNode k u => Edit.removeNode k u
  | moveNode k u parent row => Edit.moveNode k u parent row
  | transaction k scope f => Edit.transaction k scope fun t => do return (← liftM (f t), ())
  | replaceTree k t => Edit.replaceTree k t
  | load k text => Edit.load k text
  | expandAll o => do let _ ← Edit.expandAll o
  | importModel m => do let _ ← Edit.importModel m

/-- One step after the other, whether they succeed or not. -/
def stepped (w : Workspace) (steps : List Step) : Workspace :=
  steps.foldl (fun w s => (outcome s.run w).2) w

theorem indexed_operation (k : TreeKind) (op : Operation) : Keeps Indexed (op.run k) := by
  cases op with
  | addChild parent kind => exact keeps_discard (indexed_addChild k parent kind)
  | delete u => exact indexed_delete k u
  | drop payload target row => exact keeps_discard (indexed_drop k payload target row)
  | setAttribute u name v => exact indexed_setAttribute k u name v
  | expandView view table o => exact keeps_discard (indexed_expandView k view table o)
  | syncSeeds view => exact indexed_syncSeeds k view

theorem indexed_request (r : Request) : Keeps Indexed r.run := by
  cases r with
  | operate k op => exact indexed_operation k op
  | setAttributeText k u name text => exact indexed_setAttributeText k u name text
  | setArrayLength array length => exact indexed_setArrayLength array length
  | expandTable k table => exact keeps_discard (indexed_expandTable k table)

/-- A step leaves nothing indexed that the trees do not have. -/
theorem indexed_step (s : Step) : Keeps Indexed s.run := by
  cases s with
  | query k name v => exact keeps_discard (indexed_nodesByAttribute k name v)
  | request r => exact indexed_request r
  | rename u name => exact indexed_rename u name
  | insertNode k parent row n => exact keeps_discard (indexed_insertNode k parent row n)
  | removeNode k u => exact indexed_removeNode k u
  | moveNode k u parent row => exact indexed_moveNode k u parent row
  | transaction k scope f =>
    exact indexed_transaction fun t => keeps_bind (keeps_liftM _) fun _ => keeps_pure _
  | replaceTree k t => exact indexed_replaceTree k t
  | load k text => exact indexed_load k text
  | expandAll o => exact keeps_discard (indexed_expandAll o)
  | importModel m => exact keeps_discard (indexed_importModel m)

variable {w : Workspace}

theorem indexed_stepped (hw : w.Indexed) (steps : List Step) : (w.stepped steps).Indexed := by
  induction steps generalizing w with
  | nil => exact hw
  | cons s steps ih => exact ih (indexed_step s w hw)

/-- Beginning with nothing indexed, and whatever is asked and done before, a query answers with the nodes that
have the attribute with the value then. It changes no tree. -/
theorem nodesByAttribute_of_run (hw : ∀ k, (w.models.get k).index = []) (steps : List Step) (k : TreeKind)
    (name : String) (v : Value) :
    ∃ w', Gives (nodesByAttribute k name v) (w.stepped steps)
        (((w.stepped steps).tree k).withAttribute name v) w' ∧
      ∀ j, w'.tree j = (w.stepped steps).tree j := by
  have hindexed := indexed_stepped (fun k => Model.indexed_of_index (hw k)) steps
  obtain ⟨w', hrun, htrees, -⟩ := gives_nodesByAttribute hindexed k name v
  exact ⟨w', hrun, htrees⟩

/-- The second of two registers is looked up by its offset, and then the first one grows. -/
def shifted : List Step :=
  [.request (.operate .staticModbus (.addChild ⟨3⟩ .functionData)),
    .request (.operate .staticModbus (.addChild ⟨3⟩ .functionData)),
    .query .staticModbus "block_offset" (.integer 1),
    .request (.operate .staticModbus (.setAttribute ⟨5⟩ "size" (.integer 3)))]

/-- The second one is found at the offset that it has been moved to. -/
theorem nodesByAttribute_of_run_shifted : (∀ k, ((initial 0).models.get k).index = []) ∧
    ∃ w', Gives (nodesByAttribute .staticModbus "block_offset" (.integer 3)) ((initial 0).stepped shifted)
        [⟨6⟩] w' ∧
      ∀ j, w'.tree j = ((initial 0).stepped shifted).tree j := by
  have hw : ∀ k, ((initial 0).models.get k).index = [] := by
    intro k
    cases k <;> decide +kernel
  have hfound : (((initial 0).stepped shifted).tree .staticModbus).withAttribute "block_offset" (.integer 3) =
      [⟨6⟩] := by decide +kernel
  exact ⟨hw, hfound ▸ nodesByAttribute_of_run hw shifted .staticModbus "block_offset" (.integer 3)⟩

end Workspace

end DeviceModel
