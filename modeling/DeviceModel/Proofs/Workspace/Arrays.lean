import DeviceModel.Proofs.Workspace.ArrayEdits

/-!
Arrays over whole runs. Main statements: whatever is done to a parameter tree that begins empty, short of
setting lengths and originals by hand, its arrays are consistent and nothing is reported about them
(`consistent_of_run`), and the groups of an array mirror the first one as long as no parameter is moved
into or out of that (`mirrored_of_run`). A move of that sort leaves them behind
(`exists_not_mirrored`).
-/

namespace DeviceModel

namespace Rules.Parameters

/-- Nothing is wrong with a consistent array. -/
theorem issues_of_isConsistent {a : Node} (h : a.IsConsistent) (hk : a.kind = .array) (t : Tree) (l : Lookup) :
    issues t a l = [] := by
  have hlength := h.length
  have hothers := h.others
  simp only [issues, hk, arrayIssues, if_pos hlength, List.nil_append]
  split
  · rfl
  · rename_i first rest hc
    rw [hc] at hothers
    split
    · rename_i hnone
      rcases h.first first (by rw [hc]; rfl) with hf | hf <;> rw [hf] at hnone <;> cases hnone
    · rename_i k hkind
      refine List.flatMap_eq_nil_iff.2 fun e he => ?_
      obtain ⟨hek, heo⟩ := hothers first rfl e he
      rw [hkind] at hek
      rw [elementIssues, if_neg (not_not.2 (Option.some.inj hek).symm), if_neg (not_not.2 heo)]

end Rules.Parameters

namespace Edit

open Workspace

/-! ### Renaming -/

variable {I : Workspace → Prop}

/-- A node is renamed, and then one after the other its stand-ins. -/
theorem keeps_rename (h : ∀ u v, Keeps I (setAttribute .parameters u "name" v)) (u : Uuid) (name : String) :
    Keeps I (rename u name) := by
  refine keeps_bind (h u (.string name)) fun _ => keeps_bind (keeps_tree .parameters) fun t => ?_
  refine keeps_discard (keeps_forIn (fun n _ => ?_) _ _)
  exact keeps_bind (h n.uuid (.string name)) fun _ => keeps_pure _

end Edit

/-! ### Edits of the parameter tree -/

inductive ParameterEdit
  | addChild (parent : Uuid) (kind : Kind)
  | delete (u : Uuid)
  | drop (payload : List Nat) (target : Uuid) (row : Option Nat)
  | setArrayLength (array : Uuid) (length : Nat)
  | rename (u : Uuid) (name : String)
  | expandTable (table : Uuid)
  | setAttribute (u : Uuid) (name : String) (v : Value)

namespace ParameterEdit

open Edit Workspace

def run : ParameterEdit → Edit Unit
  | addChild parent kind => do let _ ← Edit.addChild .parameters parent kind
  | delete u => Edit.delete .parameters u
  | drop payload target row => do let _ ← Edit.drop .parameters payload target row
  | setArrayLength array length => Edit.setArrayLength array length
  | rename u name => Edit.rename u name
  | expandTable table => do let _ ← Edit.expandTable .parameters table
  | setAttribute u name v => Edit.setAttribute .parameters u name v

/-- Neither the length of an array nor an original is set by hand. -/
def LeavesArrays (t : Tree) : ParameterEdit → Prop
  | setAttribute u name _ => name ≠ Attr.original.key ∧
      (name = Attr.length.key → ∀ n ∈ t.all, n.uuid = u → n.kind ≠ .array)
  | _ => True

/-- No parameter is moved into or out of the first element of an array. -/
def LeavesMembers (t : Tree) : ParameterEdit → Prop
  | drop payload target _ => ∀ source, readPayload payload = .ok source → KeepsMembers t source target
  | _ => True

variable {w : Workspace}

/-- An edit that fails leaves the tree, and one that succeeds makes of it what it should. -/
theorem evolves_of_atomic {c : Prop} {e : Edit α} (h : (w.tree .parameters).Consistent) (ha : Atomic w e)
    (hok : ∀ a w', Gives e w a w' → (w.tree .parameters).Evolves c (w'.tree .parameters)) :
    (w.tree .parameters).Evolves c ((outcome e w).2.tree .parameters) := by
  rcases ho : outcome e w with ⟨r, v⟩
  cases r with
  | error x =>
    rw [(ha x v ho).trees .parameters]
    exact .refl h
  | ok a => exact hok a v ho

theorem evolves_setAttribute_name (h : (w.tree .parameters).Consistent) (u : Uuid) (v : Value) :
    (w.tree .parameters).Evolves True
      ((outcome (Edit.setAttribute .parameters u "name" v) w).2.tree .parameters) :=
  evolves_of_atomic h (atomic_setAttribute h.valid u _ v) fun _ _ hrun =>
    evolves_setAttribute h (by decide) (fun h => absurd h (by decide)) hrun

/-- What one edit does to the arrays. -/
theorem evolves_run (h : (w.tree .parameters).Consistent) (e : ParameterEdit)
    (he : e.LeavesArrays (w.tree .parameters)) :
    (w.tree .parameters).Evolves (e.LeavesMembers (w.tree .parameters))
      ((outcome e.run w).2.tree .parameters) := by
  have always : ∀ {e' : Edit Unit}, Atomic w e' →
      (∀ a w', Gives e' w a w' → (w.tree .parameters).Evolves True (w'.tree .parameters)) →
      ∀ {c : Prop}, (w.tree .parameters).Evolves c ((outcome e' w).2.tree .parameters) := by
    intro e' ha hok c
    have hevolves := evolves_of_atomic h ha hok
    exact ⟨hevolves.consistent, fun _ => hevolves.mirrored trivial⟩
  cases e with
  | addChild parent kind =>
    refine always (atomic_discard (atomic_addChild h.valid parent kind)) fun _ w' hrun => ?_
    exact (gives_discard.1 hrun).elim fun _ hrun => Edit.evolves_addChild h hrun
  | delete u => exact always (atomic_delete h.valid u) fun _ _ hrun => evolves_delete h hrun
  | drop payload target row =>
    refine evolves_of_atomic h (atomic_discard (atomic_drop h.valid payload target row)) fun _ w' hrun => ?_
    obtain ⟨_, hrun⟩ := gives_discard.1 hrun
    obtain ⟨source, hpayload, hevolves⟩ := evolves_drop h hrun
    exact ⟨hevolves.consistent, fun hleaves => hevolves.mirrored (hleaves source hpayload)⟩
  | setArrayLength array length =>
    exact always (atomic_setArrayLength w array length) fun _ _ hrun => evolves_setArrayLength h hrun
  | rename u name =>
    have hkeeps : Keeps (fun v => (w.tree .parameters).Evolves True (v.tree .parameters)) (Edit.rename u name) :=
      keeps_rename (fun u v w₁ h₁ => h₁.trans (evolves_setAttribute_name h₁.consistent u v)) u name
    have hevolves := hkeeps w (.refl h)
    exact ⟨hevolves.consistent, fun _ => hevolves.mirrored trivial⟩
  | expandTable table =>
    refine always (atomic_discard (atomic_expandTable w .parameters table)) fun _ w' hrun => ?_
    exact (gives_discard.1 hrun).elim fun _ hrun => evolves_expandTable h hrun
  | setAttribute u name v =>
    exact always (atomic_setAttribute h.valid u name v) fun _ _ hrun => evolves_setAttribute h he.1 he.2 hrun

end ParameterEdit

/-! ### Runs -/

namespace Workspace

open Edit ParameterEdit

/-- A run of edits that are as `P` says, whether they succeed or not. Whatever else happens in between
leaves the parameter tree alone. -/
inductive ParameterRun (P : Tree → ParameterEdit → Prop) (w : Workspace) : Workspace → Prop
  | start : ParameterRun P w w
  | edit {v : Workspace} (e : ParameterEdit) : ParameterRun P w v → P (v.tree .parameters) e →
      ParameterRun P w (outcome e.run v).2
  | elsewhere {v v' : Workspace} : ParameterRun P w v → v'.tree .parameters = v.tree .parameters →
      ParameterRun P w v'

variable {w w' : Workspace} {u : Uuid}

theorem ne_array_of_initial {u : Uuid} {a : Node} (ha : a ∈ (Tree.initial .parameters u).all) :
    a.kind ≠ .array := by
  obtain rfl : a = (Tree.initial .parameters u).root := by
    simpa [Tree.all, Node.all_eq, Tree.initial, Node.leaf] using ha
  rw [(Tree.valid_initial .parameters u).root]
  exact Kind.noConfusion

theorem consistent_initial (u : Uuid) : (Tree.initial .parameters u).Consistent :=
  ⟨Tree.valid_initial .parameters u, rfl, fun _ ha hk => absurd hk (ne_array_of_initial ha)⟩

theorem mirrored_initial (u : Uuid) : (Tree.initial .parameters u).Mirrored :=
  fun _ ha hk => absurd hk (ne_array_of_initial ha)

theorem consistent_run (hw : (w.tree .parameters).Consistent)
    (h : ParameterRun (fun t e => e.LeavesArrays t) w w') : (w'.tree .parameters).Consistent := by
  induction h with
  | start => exact hw
  | edit e _ he ih => exact (evolves_run ih e he).consistent
  | elsewhere _ ht ih => exact ht ▸ ih

theorem mirrored_run (hw : (w.tree .parameters).Consistent) (hm : (w.tree .parameters).Mirrored)
    (h : ParameterRun (fun t e => e.LeavesArrays t ∧ e.LeavesMembers t) w w') :
    (w'.tree .parameters).Consistent ∧ (w'.tree .parameters).Mirrored := by
  induction h with
  | start => exact ⟨hw, hm⟩
  | edit e _ he ih =>
    have hevolves := evolves_run ih.1 e he.1
    exact ⟨hevolves.consistent, hevolves.mirrored he.2 ih.2⟩
  | elsewhere _ ht ih => exact ht ▸ ih

/-- One edit after the other. -/
def edited (w : Workspace) (es : List ParameterEdit) : Workspace :=
  es.foldl (fun w e => (outcome e.run w).2) w

theorem run_edited {P : Tree → ParameterEdit → Prop} {es : List ParameterEdit} (h : ∀ e ∈ es, ∀ t, P t e) :
    ParameterRun P w (w.edited es) := by
  induction es using List.reverseRecOn with
  | nil => exact .start
  | append_singleton es e ih =>
    rw [edited, List.foldl_append]
    exact .edit e (ih fun e he => h e (List.mem_append_left _ he)) (h e (by simp) _)

/-- In whatever order the tree is edited from its beginning, each array has its length stored and elements
that stand for the first one, and the check finds nothing wrong with it. -/
theorem consistent_of_run (hw : w.tree .parameters = .initial .parameters u)
    (h : ParameterRun (fun t e => e.LeavesArrays t) w w') {a : Node} (ha : a ∈ (w'.tree .parameters).all)
    (hk : a.kind = .array) :
    a.IsConsistent ∧ ∀ l, Rules.Parameters.issues (w'.tree .parameters) a l = [] := by
  have hrun := consistent_run (hw ▸ consistent_initial u) h
  exact ⟨hrun.arrays a ha hk, Rules.Parameters.issues_of_isConsistent (hrun.arrays a ha hk) hk _⟩

/-- An array of parameters is made, and its last element taken out again. -/
def twoElements : List ParameterEdit :=
  [.addChild ⟨0⟩ .array, .addChild ⟨5⟩ .parameter, .setArrayLength ⟨5⟩ 3, .delete ⟨8⟩]

theorem consistent_of_run_twoElements : ∃ a ∈ (((initial 0).edited twoElements).tree .parameters).all,
    a.kind = .array ∧ a.children.length = 2 ∧ a.IsConsistent ∧
      ∀ l, Rules.Parameters.issues (((initial 0).edited twoElements).tree .parameters) a l = [] := by
  have hrun : ParameterRun (fun t e => e.LeavesArrays t) (initial 0) ((initial 0).edited twoElements) :=
    run_edited (by simp [twoElements, LeavesArrays])
  have hfind : ∃ a ∈ (((initial 0).edited twoElements).tree .parameters).all,
      a.kind = .array ∧ a.children.length = 2 := by decide +kernel
  obtain ⟨a, ha, hk, hlength⟩ := hfind
  exact ⟨a, ha, hk, hlength, consistent_of_run (u := ⟨0⟩) (by decide +kernel) hrun ha hk⟩

/-- As long as no parameter is moved into or out of the first element of an array, the other elements of an
array of groups have a stand-in for each of its parameters, in their order, and nothing else. -/
theorem mirrored_of_run (hw : w.tree .parameters = .initial .parameters u)
    (h : ParameterRun (fun t e => e.LeavesArrays t ∧ e.LeavesMembers t) w w') {a first : Node}
    (ha : a ∈ (w'.tree .parameters).all) (hk : a.kind = .array) (hfirst : first ∈ a.children.head?)
    (hg : first.kind = .group) {e : Node} (he : e ∈ a.children.tail) :
    e.kind = .arrayGroupElement ∧ (∀ m ∈ e.children, m.kind = .arrayParameterElement) ∧
      e.children.map (·.ref? .original) =
        (first.children.filter (·.kind == .parameter)).map (some ·.uuid) := by
  obtain ⟨hcons, hmirrored⟩ := mirrored_run (hw ▸ consistent_initial u) (hw ▸ mirrored_initial u) h
  have hft := Tree.mem_all_of_child ha (List.mem_of_mem_head? hfirst)
  have het := Tree.mem_all_of_child ha (List.mem_of_mem_tail he)
  have hek := hcons.kind_other ha hk hfirst hg he
  have hkinds := fun m hm => hcons.valid.kind_standIn het hek (m := m) hm
  have hall : TableExpansion.members e = e.children := List.filter_eq_self.2 fun m hm => by simp [hkinds m hm]
  refine ⟨hek, hkinds, ?_⟩
  rw [← hall, ← hcons.valid.members_group hft hg]
  exact hmirrored a ha hk first hfirst hg e he

/-- An array of two groups is made, and then a parameter comes into the first one and another goes. -/
def twoGroups : List ParameterEdit :=
  [.addChild ⟨0⟩ .array, .addChild ⟨5⟩ .group, .addChild ⟨6⟩ .parameter, .setArrayLength ⟨5⟩ 2,
    .addChild ⟨6⟩ .parameter, .delete ⟨7⟩]

theorem mirrored_of_run_twoGroups : ∃ a ∈ (((initial 0).edited twoGroups).tree .parameters).all,
    a.kind = .array ∧ ∃ first ∈ a.children.head?, first.kind = .group ∧
      ∃ e ∈ a.children.tail, e.children.length = 1 ∧ e.kind = .arrayGroupElement ∧
        (∀ m ∈ e.children, m.kind = .arrayParameterElement) ∧
        e.children.map (·.ref? .original) =
          (first.children.filter (·.kind == .parameter)).map (some ·.uuid) := by
  have hrun : ParameterRun (fun t e => e.LeavesArrays t ∧ e.LeavesMembers t) (initial 0)
      ((initial 0).edited twoGroups) := run_edited (by simp [twoGroups, LeavesArrays, LeavesMembers])
  have hfind : ∃ a ∈ (((initial 0).edited twoGroups).tree .parameters).all, a.kind = .array ∧
      ∃ first ∈ a.children.head?, first.kind = .group ∧
        ∃ e ∈ a.children.tail, e.children.length = 1 := by decide +kernel
  obtain ⟨a, ha, hk, first, hfirst, hg, e, he, hlength⟩ := hfind
  exact ⟨a, ha, hk, first, hfirst, hg, e, he, hlength,
    mirrored_of_run (u := ⟨0⟩) (by decide +kernel) hrun ha hk hfirst hg he⟩

/-- A parameter of the first group of an array is moved out of the array. -/
def memberMoved : List ParameterEdit :=
  [.addChild ⟨0⟩ .array, .addChild ⟨5⟩ .group, .addChild ⟨6⟩ .parameter, .addChild ⟨6⟩ .parameter,
    .setArrayLength ⟨5⟩ 2, .addChild ⟨0⟩ .group, .drop (Uuid.bytes ⟨8⟩) ⟨12⟩ none]

/-- Its stand-in stays in the second group. -/
theorem exists_not_mirrored : ∃ a ∈ (((initial 0).edited memberMoved).tree .parameters).all,
    a.kind = .array ∧ ∃ first ∈ a.children.head?, first.kind = .group ∧ ∃ e ∈ a.children.tail,
      e.kind = .arrayGroupElement ∧ e.children.map (·.ref? .original) ≠
        (first.children.filter (·.kind == .parameter)).map (some ·.uuid) := by
  decide +kernel

end Workspace

end DeviceModel
