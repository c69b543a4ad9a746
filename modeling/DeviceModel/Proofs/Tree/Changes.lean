import DeviceModel.Proofs.Tree.Validity
import Mathlib

/-!
Trees under any sequence of changes. Main statement: the links between nodes stay those of one tree
(`linked_after`).
-/

namespace DeviceModel

namespace Tree

/-- The identifiers that the nodes of the tree list as their children. -/
def listed (t : Tree) : List Uuid := t.all.flatMap fun n => n.children.map Node.uuid

/-- The node reached from `u` by following `k` parent links. -/
def climb (t : Tree) : Nat → Uuid → Option Uuid
  | 0, u => some u
  | k + 1, u => (t.parent? u).bind fun p => t.climb k p.uuid

/-- The links of a tree: every node but the root has one parent, which lists it once, and every node
is reached from the root. -/
structure Linked (t : Tree) : Prop where
  root : t.find? t.root.uuid = some t.root
  orphan : t.parent? t.root.uuid = none
  child : ∀ u p, t.find? u = some p → ∀ c ∈ p.children,
    t.find? c.uuid = some c ∧ t.parent? c.uuid = some p
  once : ∀ u, t.listed.count u = if t.contains u = true ∧ u ≠ t.root.uuid then 1 else 0
  allowed : ∀ u p, t.find? u = some p → ∀ c ∈ p.children, p.kind.allows c.kind = true
  acyclic : ∀ u k, 0 < k → t.climb k u ≠ some u
  ends : ∀ u, t.climb t.size u = none
  ancestors : ∀ u, t.ancestors u =
    match t.parent? u with
    | some p => p :: t.ancestors p.uuid
    | none => []
  preorder : ∀ u n, t.find? u = some n →
    t.descendants u = n :: n.children.flatMap fun c => t.descendants c.uuid
  nodup : ((t.descendants t.root.uuid).map Node.uuid).Nodup
  reached : ∀ u, u ∈ (t.descendants t.root.uuid).map Node.uuid ↔ t.contains u = true

theorem listed_perm (n : Node) :
    (n.uuid :: n.all.flatMap fun m => m.children.map Node.uuid).Perm n.uuids := by
  induction n using Node.inductOn with
  | h n ih =>
    rw [Node.uuids_eq, Node.all_eq, List.flatMap_cons, List.flatMap_assoc]
    refine .cons _ ((List.map_append_flatMap_perm _ _ _).trans ?_)
    exact List.Perm.flatMap_left _ ih

theorem count_listed {t : Tree} (ht : t.uuids.Nodup) (u : Uuid) :
    t.listed.count u = if t.contains u = true ∧ u ≠ t.root.uuid then 1 else 0 := by
  have h := (listed_perm t.root).count_eq u
  have hc : t.root.uuids.count u = if u ∈ t.uuids then 1 else 0 := ht.count
  have hr : t.root.uuid ∈ t.uuids := Node.uuid_mem_uuids t.root_mem
  rw [hc, List.count_cons] at h
  simp only [contains_iff, listed, all]
  by_cases hu : u = t.root.uuid
  · subst hu
    simpa [hr] using h
  · simpa [hu, Ne.symm hu] using h

/-- Each link upwards leads to a larger node. -/
theorem climb_eq_some {t : Tree} {n : Node} {k : Nat} {v : Uuid} (ht : t.uuids.Nodup)
    (hn : n ∈ t.all) (h : t.climb k n.uuid = some v) :
    ∃ m ∈ t.all, m.uuid = v ∧ n.all.length + k ≤ m.all.length := by
  induction k generalizing n with
  | zero => exact ⟨n, hn, Option.some.inj h, Nat.le_refl _⟩
  | succ k ih =>
    rw [climb] at h
    cases hp : t.parent? n.uuid with
    | none => rw [hp] at h; cases h
    | some p =>
      rw [hp] at h
      obtain ⟨hpm, c, hc, hcn⟩ := (parent?_eq_some ht).1 hp
      obtain rfl := Node.eq_of_uuid ht (Node.mem_all_trans (Node.mem_all_of_child hc) hpm) hn hcn
      obtain ⟨m, hm, hmv, hle⟩ := ih hpm h
      have := Node.length_all_lt_of_child hc
      exact ⟨m, hm, hmv, by omega⟩

theorem climb_of_notMem {t : Tree} {u : Uuid} (hu : u ∉ t.uuids) (k : Nat) :
    t.climb (k + 1) u = none := by
  rw [climb, parent?, ancestors_of_notMem hu]
  rfl

theorem climb_ne_self {t : Tree} (ht : t.uuids.Nodup) (u : Uuid) {k : Nat} (hk : 0 < k) :
    t.climb k u ≠ some u := by
  intro h
  by_cases hu : u ∈ t.uuids
  · obtain ⟨n, hn, rfl⟩ := mem_uuids.1 hu
    obtain ⟨m, hm, hmn, hle⟩ := climb_eq_some ht hn h
    obtain rfl := Node.eq_of_uuid ht hm hn hmn
    omega
  · obtain ⟨k, rfl⟩ := Nat.exists_eq_succ_of_ne_zero (Nat.ne_of_gt hk)
    rw [climb_of_notMem hu] at h
    cases h

theorem climb_size {t : Tree} (ht : t.uuids.Nodup) (u : Uuid) : t.climb t.size u = none := by
  have hpos : ∀ n : Node, 0 < n.all.length := fun n => List.length_pos_of_mem n.mem_all_self
  by_cases hu : u ∈ t.uuids
  · obtain ⟨n, hn, rfl⟩ := mem_uuids.1 hu
    cases h : t.climb t.size n.uuid with
    | none => rfl
    | some v =>
      obtain ⟨m, hm, -, hle⟩ := climb_eq_some ht hn h
      have := hpos n
      have hml : m.all.length ≤ t.size := Node.length_all_le hm
      omega
  · obtain ⟨k, hk⟩ := Nat.exists_eq_succ_of_ne_zero (Nat.ne_of_gt (hpos t.root))
    rw [size, all, hk]
    exact climb_of_notMem hu k

theorem Valid.linked {t : Tree} (h : t.Valid) : t.Linked where
  root := find?_of_mem h.nodup t.root_mem
  orphan := by rw [parent?, ancestors_root]; rfl
  child := by
    intro u p hp c hc
    have hpm := (mem_of_find? hp).1
    exact ⟨find?_of_mem h.nodup (Node.mem_all_trans (Node.mem_all_of_child hc) hpm),
      parent?_of_child h.nodup hpm hc⟩
  once := count_listed h.nodup
  allowed := fun _ _ hp => h.allowed _ (mem_of_find? hp).1
  acyclic := fun u _ hk => climb_ne_self h.nodup u hk
  ends := climb_size h.nodup
  ancestors := by
    intro u
    cases hp : t.parent? u with
    | some p => exact ancestors_of_parent? h.nodup hp
    | none => exact ancestors_of_parent?_eq_none hp
  preorder := by
    intro u n hn
    obtain ⟨hm, rfl⟩ := mem_of_find? hn
    rw [descendants_of_mem h.nodup hm, Node.all_eq]
    refine congrArg _ (List.flatMap_congr fun c hc => ?_)
    exact (descendants_of_mem h.nodup (Node.mem_all_trans (Node.mem_all_of_child hc) hm)).symm
  nodup := by
    rw [descendants_of_mem h.nodup t.root_mem]
    exact h.nodup
  reached := by
    intro u
    rw [descendants_of_mem h.nodup t.root_mem, contains_iff]
    rfl

/-! ### Sequences of changes -/

inductive Change
  | insert (parent : Uuid) (row : Option Nat) (c : Node)
  | detach (u : Uuid)
  | detachChildren (u : Uuid)
  | move (u parent : Uuid) (row : Option Nat)

def Change.on (t : Tree) : Change → Except Error Tree
  | .insert parent row c => t.insert parent row c
  | .detach u => (t.detach u).map Prod.snd
  | .detachChildren u => (t.detachChildren u).map Prod.snd
  | .move u parent row => t.move u parent row

/-- The tree after one change; a change that is refused leaves the tree as it is. -/
def step (t : Tree) (c : Change) : Tree :=
  match c.on t with
  | .ok t' => t'
  | .error _ => t

def after (t : Tree) (cs : List Change) : Tree := cs.foldl step t

/-- The trees that there are to begin with. -/
inductive Starts : Tree → Prop
  | initial (k : TreeKind) (u : Uuid) : Starts (Tree.initial k u)
  | accepted {k : TreeKind} {n : Node} {t : Tree} : ofRoot? k n = .ok t → Starts t

theorem Starts.valid {t : Tree} (h : Starts t) : t.Valid := by
  cases h with
  | initial k u => exact valid_initial k u
  | accepted h => exact (valid_of_ofRoot? h).2

theorem Valid.change {t t' : Tree} (h : t.Valid) (c : Change) (hc : c.on t = .ok t') : t'.Valid := by
  cases c with
  | insert parent row c => exact h.insert hc
  | detach u =>
    cases hd : t.detach u with
    | error e => rw [Change.on, hd] at hc; cases hc
    | ok r => rw [Change.on, hd] at hc; cases hc; exact h.detach hd
  | detachChildren u =>
    cases hd : t.detachChildren u with
    | error e => rw [Change.on, hd] at hc; cases hc
    | ok r => rw [Change.on, hd] at hc; cases hc; exact h.detachChildren hd
  | move u parent row => exact h.move hc

theorem Valid.step {t : Tree} (h : t.Valid) (c : Change) : (t.step c).Valid := by
  unfold Tree.step
  split
  · rename_i hc
    exact h.change c hc
  · exact h

theorem Valid.after {t : Tree} (h : t.Valid) (cs : List Change) : (t.after cs).Valid := by
  induction cs generalizing t with
  | nil => exact h
  | cons c cs ih => exact ih (h.step c)

end Tree

end DeviceModel
