import DeviceModel.Command.Run
import DeviceModel.Proofs.Check.Findings

/-!
What is reported of a check. Main statements: the entries are the issues of all nodes (`flatten_eq_all`), what
is pruned has no entry (`prune_eq_none`, `flatten_of_prune`), counts and the worst level are those of the
entries (`count_eq_countP`, `worst_of_entries`), and validation prints each entry of each tree and fails exactly
if one is an error (`report_complete`).
-/

namespace DeviceModel

namespace Level

/-- The most severe of some levels, if there are any. -/
def IsWorst (ls : List Level) : Option Level → Prop
  | none => ls = []
  | some l => l ∈ ls ∧ ∀ m ∈ ls, m.rank ≤ l.rank

theorem rank_injective {a b : Level} (h : a.rank = b.rank) : a = b := by
  cases a <;> cases b <;> first | rfl | cases h

theorem max_eq (a b : Level) : (a.max b = a ∧ b.rank ≤ a.rank) ∨ (a.max b = b ∧ a.rank ≤ b.rank) := by
  unfold Level.max
  split
  · exact .inr ⟨rfl, by omega⟩
  · exact .inl ⟨rfl, by omega⟩

variable {ls ms : List Level} {v w : Option Level}

theorem IsWorst.append (hv : IsWorst ls v) (hw : IsWorst ms w) :
    IsWorst (ls ++ ms) (CheckResult.maxLevel v w) := by
  cases v with
  | none =>
    obtain rfl : ls = [] := hv
    exact hw
  | some a =>
    cases w with
    | none =>
      obtain rfl : ms = [] := hw
      rwa [List.append_nil]
    | some b =>
      obtain ⟨ha, hla⟩ := hv
      obtain ⟨hb, hmb⟩ := hw
      rcases max_eq a b with ⟨h, hle⟩ | ⟨h, hle⟩
      all_goals
        rw [CheckResult.maxLevel, h]
        refine ⟨by simp [*], fun m hm => ?_⟩
        rcases List.mem_append.1 hm with hm | hm
      · exact hla m hm
      · exact (hmb m hm).trans hle
      · exact (hla m hm).trans hle
      · exact hmb m hm

theorem IsWorst.foldl (hw : IsWorst ls w) (is : List Issue) :
    IsWorst (ls ++ is.map Issue.level)
      (is.foldl (fun w i => CheckResult.maxLevel w (some i.level)) w) := by
  induction is generalizing ls w with
  | nil => rwa [List.map_nil, List.append_nil]
  | cons i is ih =>
    have hone : IsWorst [i.level] (some i.level) := ⟨List.mem_singleton_self _, by simp⟩
    rw [List.map_cons, List.append_cons]
    exact ih (hw.append hone)

theorem IsWorst.eq_some_iff (hw : IsWorst ls w) {l : Level} :
    w = some l ↔ l ∈ ls ∧ ∀ m ∈ ls, m.rank ≤ l.rank := by
  constructor
  · rintro rfl
    exact hw
  · rintro ⟨hl, hle⟩
    cases w with
    | none =>
      obtain rfl : ls = [] := hw
      cases hl
    | some k => rw [rank_injective (le_antisymm (hle k hw.1) (hw.2 l hl))]

theorem IsWorst.eq_none_iff (hw : IsWorst ls w) : w = none ↔ ls = [] := by
  cases w with
  | none => exact iff_of_true rfl hw
  | some l => exact iff_of_false nofun (List.ne_nil_of_mem hw.1)

end Level

namespace CheckResult

/-- The result of a node and those of the nodes below it, in pre-order. -/
def all : CheckResult → List CheckResult
  | ⟨u, k, name, is, cs⟩ => ⟨u, k, name, is, cs⟩ :: each cs
where
  each : List CheckResult → List CheckResult
    | [] => []
    | c :: cs => c.all ++ each cs

/-- The issues of the node itself, with the node. -/
def entries (r : CheckResult) : List Entry := r.issues.map (⟨r.uuid, r.kind, r.name, ·⟩)

/-- Induction on a result from those below it. -/
theorem inductOn {P : CheckResult → Prop} (r : CheckResult)
    (h : ∀ r : CheckResult, (∀ c ∈ r.children, P c) → P r) : P r :=
  h r fun c _ => inductOn c h
termination_by sizeOf r
decreasing_by
  rename_i hc
  obtain ⟨u, k, name, is, cs⟩ := r
  have := List.sizeOf_lt_of_mem hc
  simp only [CheckResult.mk.sizeOf_spec] at *
  omega

theorem all_each (rs : List CheckResult) : all.each rs = rs.flatMap all := by
  induction rs with
  | nil => rfl
  | cons r rs ih => rw [all.each, ih, List.flatMap_cons]

theorem prune_each (rs : List CheckResult) : prune.each rs = rs.filterMap prune := by
  induction rs with
  | nil => rfl
  | cons r rs ih =>
    rw [prune.each, ih, List.filterMap_cons]
    cases r.prune <;> rfl

theorem all_eq (r : CheckResult) : r.all = r :: r.children.flatMap all := by
  obtain ⟨u, k, name, is, cs⟩ := r
  rw [all, all_each]

theorem flatten_eq (r : CheckResult) : r.flatten = r.entries ++ r.children.flatMap flatten := by
  obtain ⟨u, k, name, is, cs⟩ := r
  rw [flatten, flatten_each]
  rfl

theorem count_eq (level : Level) (r : CheckResult) :
    r.count level = r.issues.countP (·.level == level) + (r.children.map (count level)).sum := by
  obtain ⟨u, k, name, is, cs⟩ := r
  rw [count, count_each]

theorem prune_eq (r : CheckResult) : r.prune =
    if r.issues = [] ∧ r.children.filterMap prune = [] then none
    else some { r with children := r.children.filterMap prune } := by
  obtain ⟨u, k, name, is, cs⟩ := r
  simp only [prune, prune_each, Bool.and_eq_true, List.isEmpty_iff]

/-- The entries are the issues of all nodes, each with its node. -/
theorem flatten_eq_all (r : CheckResult) : r.flatten = r.all.flatMap entries := by
  induction r using inductOn with
  | h r ih =>
    rw [flatten_eq, all_eq, List.flatMap_cons, List.flatMap_assoc]
    exact congrArg _ (List.flatMap_congr ih)

theorem flatten_eq_nil {r : CheckResult} : r.flatten = [] ↔ ∀ n ∈ r.all, n.issues = [] := by
  simp only [flatten_eq_all, List.flatMap_eq_nil_iff, entries, List.map_eq_nil_iff]

/-! ### Pruned results -/

/-- What is pruned has no entry, and what is left has those it had. -/
theorem prune_elim (r : CheckResult) :
    (r.prune = none → r.flatten = []) ∧ ∀ p, r.prune = some p → p.flatten = r.flatten ∧ p.flatten ≠ [] := by
  induction r using inductOn with
  | h r ih =>
    have hbelow : (r.children.filterMap prune).flatMap flatten = r.children.flatMap flatten := by
      rw [List.filterMap_eq_flatMap_toList, List.flatMap_assoc]
      refine List.flatMap_congr fun c hc => ?_
      cases hp : c.prune with
      | none => exact ((ih c hc).1 hp).symm
      | some p => exact (List.append_nil _).trans ((ih c hc).2 p hp).1
    rw [prune_eq]
    split
    · rename_i hnone
      refine ⟨fun _ => ?_, nofun⟩
      rw [flatten_eq, entries, hnone.1, ← hbelow, hnone.2]
      rfl
    · rename_i hsome
      refine ⟨nofun, ?_⟩
      rintro p ⟨⟩
      have hsame : ({ r with children := r.children.filterMap prune } : CheckResult).flatten = r.flatten := by
        rw [flatten_eq, flatten_eq r, ← hbelow]
        rfl
      refine ⟨hsame, fun hnil => hsome ?_⟩
      rw [flatten_eq, List.append_eq_nil_iff, entries, List.map_eq_nil_iff] at hnil
      refine ⟨hnil.1, List.eq_nil_iff_forall_not_mem.2 fun q hq => ?_⟩
      -- A branch that is left has an entry.
      obtain ⟨c, hc, hcq⟩ := List.mem_filterMap.1 hq
      exact ((ih c hc).2 q hcq).2 (List.flatMap_eq_nil_iff.1 hnil.2 q hq)

theorem prune_eq_none {r : CheckResult} : r.prune = none ↔ ∀ n ∈ r.all, n.issues = [] := by
  rw [← flatten_eq_nil]
  refine ⟨(prune_elim r).1, fun h => ?_⟩
  cases hp : r.prune with
  | none => rfl
  | some p =>
    obtain ⟨hsame, hne⟩ := (prune_elim r).2 p hp
    exact absurd (hsame.trans h) hne

theorem flatten_of_prune {r p : CheckResult} (h : r.prune = some p) : p.flatten = r.flatten :=
  ((prune_elim r).2 p h).1

/-! ### Counts and levels -/

theorem count_eq_countP (level : Level) (r : CheckResult) :
    r.count level = r.flatten.countP (·.issue.level == level) := by
  induction r using inductOn with
  | h r ih =>
    rw [count_eq, flatten_eq, List.countP_append, List.countP_flatMap, entries, List.countP_map]
    exact congrArg (_ + List.sum ·) (List.map_congr_left ih)

/-- The worst level is that of the entries. -/
theorem worst_of_entries (r : CheckResult) : Level.IsWorst (r.flatten.map (·.issue.level)) r.worst := by
  induction r using inductOn with
  | h r ih =>
    have each : ∀ cs : List CheckResult, (∀ c ∈ cs, c ∈ r.children) →
        Level.IsWorst ((cs.flatMap flatten).map (·.issue.level)) (worst.each cs) := by
      intro cs hcs
      induction cs with
      | nil => rfl
      | cons c cs ihs =>
        rw [worst.each, List.flatMap_cons, List.map_append]
        exact (ih c (hcs c (List.mem_cons_self ..))).append (ihs fun d hd => hcs d (List.mem_cons_of_mem _ hd))
    have hself := (show Level.IsWorst [] none from rfl).foldl r.issues
    have hboth := hself.append (each r.children fun _ hc => hc)
    rw [flatten_eq, List.map_append, entries, List.map_map]
    obtain ⟨u, k, name, is, cs⟩ := r
    exact hboth

end CheckResult

/-! ### Validation -/

namespace Models

/-- Every issue of every node, with the tree that it is in. -/
def findings (ms : Models) : List (TreeKind × CheckResult.Entry) :=
  (TreeKind.all.zip ms.check).flatMap fun (k, r) => r.flatten.map (k, ·)

theorem report_eq (ms : Models) : ms.report = String.join (ms.findings.map fun (k, e) => e.line k) := by
  rw [report, findings, List.map_flatMap]
  refine congrArg String.join (List.flatMap_congr fun p _ => ?_)
  obtain ⟨k, r⟩ := p
  simp only [List.map_map]
  cases hp : r.prune with
  | none =>
    rw [(CheckResult.prune_elim r).1 hp]
    rfl
  | some p =>
    rw [← CheckResult.flatten_of_prune hp]
    rfl

theorem errorCount_eq (ms : Models) : ms.errorCount = ms.findings.countP (·.2.issue.level == .error) := by
  have hzip : ms.check = (TreeKind.all.zip ms.check).map Prod.snd := by
    rw [List.map_snd_zip]
    rw [check, List.length_map]
  have hsum : ms.errorCount = (ms.check.map (·.count .error)).sum := rfl
  rw [hsum, hzip, List.map_map, findings, List.countP_flatMap]
  refine congrArg List.sum (List.map_congr_left fun p _ => ?_)
  rw [Function.comp_apply, CheckResult.count_eq_countP, Function.comp_apply, List.countP_map]
  rfl

end Models

/-- The report of a check is complete: pruning takes away what has no issue and nothing else, counts and the
worst level are those of the entries, and validation prints each issue of each tree once and fails exactly if
one is an error. -/
theorem CheckResult.report_complete :
    (∀ r : CheckResult,
      r.flatten = r.all.flatMap (fun n => n.issues.map (⟨n.uuid, n.kind, n.name, ·⟩)) ∧
      (r.prune = none ↔ ∀ n ∈ r.all, n.issues = []) ∧ (∀ p, r.prune = some p → p.flatten = r.flatten) ∧
      (∀ l, r.count l = r.flatten.countP (·.issue.level == l)) ∧
      (∀ l, r.worst = some l ↔ l ∈ r.flatten.map (·.issue.level) ∧ ∀ e ∈ r.flatten, e.issue.level.rank ≤ l.rank) ∧
      (r.worst = none ↔ r.flatten = [])) ∧
    ∀ (m : Type → Type) [Monad m] [Host m] (path : String) (next : Nat),
      (Command.run (.validate path) next : Command.Run m CommandResult) = do
        let p ← Command.openProject path next
        let found := p.workspace.models.findings
        return { success := found.all (·.2.issue.level != .error)
                 output := String.join (found.map fun (k, e) => e.line k) } := by
  constructor
  · intro r
    have hworst := worst_of_entries r
    refine ⟨flatten_eq_all r, prune_eq_none, fun p h => flatten_of_prune h, fun l => count_eq_countP l r, fun l => ?_,
      hworst.eq_none_iff.trans List.map_eq_nil_iff⟩
    rw [hworst.eq_some_iff, List.forall_mem_map]
  · intro m _ _ path next
    refine congrArg (bind (Command.openProject path next)) (funext fun p => ?_)
    have hsuccess : decide (p.workspace.models.errorCount = 0) =
        p.workspace.models.findings.all (·.2.issue.level != .error) := by
      rw [Models.errorCount_eq, Bool.eq_iff_iff, decide_eq_true_iff, List.countP_eq_zero, List.all_eq_true]
      simp
    show (pure { success := decide (p.workspace.models.errorCount = 0), output := p.workspace.models.report } :
      Command.Run m CommandResult) = _
    rw [hsuccess, Models.report_eq]

end DeviceModel
