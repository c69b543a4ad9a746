import DeviceModel.Proofs.Register.Updating

/-!
Putting changed trees in place. Main statements: a change of one tree leaves the others (`Puts`), and a
tree with a layout is laid out when it is put in place (`puts_of_commit`).
-/

namespace DeviceModel

theorem Models.tree_set_self (ms : Models) (k : TreeKind) (m : Model) : (ms.set k m).tree k = m.tree := by
  rw [tree, get_set_self]

theorem Models.tree_set_of_ne (ms : Models) {j k : TreeKind} (m : Model) (h : j ≠ k) :
    (ms.set k m).tree j = ms.tree j := by
  rw [tree, get_set_of_ne ms m h, tree]

theorem Models.uuids_subset (ms : Models) (k : TreeKind) : (ms.tree k).uuids ⊆ ms.uuids :=
  fun _ hu => List.mem_flatMap.2 ⟨_, List.mem_map_of_mem (TreeKind.mem_all k), hu⟩

theorem Models.lookup_eq (ms : Models) : ms.lookup = ms.tree .parameters :: ms.others .parameters := rfl

/-- The first of the other trees is the parameter tree. -/
theorem Models.exists_others (ms : Models) {k : TreeKind} (hk : k ≠ .parameters) :
    ∃ l, ms.others k = ms.tree .parameters :: l := by
  cases k <;> first | exact absurd rfl hk | exact ⟨_, rfl⟩

namespace Workspace

def tree (w : Workspace) (k : TreeKind) : Tree := w.models.tree k

/-- The supply that new identifiers come from: none that is in use. -/
def offered (w : Workspace) : Supply := w.supply.avoiding w.models.uuids

theorem issued_offered {w : Workspace} {k : TreeKind} (h : (w.tree k).uuids.Nodup) :
    w.offered.Issued (w.tree k).uuids :=
  Supply.issued_of_taken h (w.models.uuids_subset k)

/-- What is offered once a tree has been put in place is none of its identifiers. -/
theorem issued_withTree {w : Workspace} (k : TreeKind) (m : Model) {t : Tree} (ht : t.uuids.Nodup) :
    (w.withModel k (m.withTree t)).offered.Issued t.uuids := by
  have htree : (w.withModel k (m.withTree t)).tree k = t := w.models.tree_set_self k (m.withTree t)
  have hissued := issued_offered (w := w.withModel k (m.withTree t)) (k := k) (by rwa [htree])
  rwa [htree] at hissued

/-- `w'` has the tree `t` in the place of `k`, and the other trees of `w`. -/
structure Puts (w : Workspace) (k : TreeKind) (t : Tree) (w' : Workspace) : Prop where
  tree : w'.tree k = t
  others : ∀ j, j ≠ k → w'.tree j = w.tree j

theorem Puts.trans {w w₁ w₂ : Workspace} {k : TreeKind} {t₁ t₂ : Tree} (h₁ : w.Puts k t₁ w₁)
    (h₂ : w₁.Puts k t₂ w₂) : w.Puts k t₂ w₂ :=
  ⟨h₂.tree, fun j hj => (h₂.others j hj).trans (h₁.others j hj)⟩

theorem puts_withModel (w : Workspace) (k : TreeKind) (m : Model) : w.Puts k m.tree (w.withModel k m) :=
  ⟨w.models.tree_set_self k m, fun _ hj => w.models.tree_set_of_ne m hj⟩

/-- The same trees. -/
def Alike (w w' : Workspace) : Prop := ∀ k, w'.tree k = w.tree k

theorem Puts.congr {w v w' v' : Workspace} {k : TreeKind} {t : Tree} (h : w.Puts k t w')
    (hv : Alike v w) (hv' : Alike w' v') : v.Puts k t v' :=
  ⟨(hv' k).trans h.tree, fun j hj => (hv' j).trans ((h.others j hj).trans (hv j))⟩

end Workspace

namespace Edit

open Workspace

variable {w w' : Workspace} {k : TreeKind}

/-- What is put in place is the tree itself, or the tree laid out. -/
def settled (k : TreeKind) (t : Tree) (s : Supply) : Tree :=
  if hasLayout k then (t.relaidOut s).1 else t

/-- A tree put in place, and again when it is laid out. -/
theorem puts_of_updateLayout {m : Model} {t t' : Tree} {s : Supply} (ht : t.Valid)
    (hs : Gives t.updateLayout (w.withModel k (m.withTree t)).offered t' s) :
    ∃ s₀, s₀.Issued t.uuids ∧ (t.relaidOut s₀).1 = t' ∧
      w.Puts k t' (((w.withModel k (m.withTree t)).withSupply s).withModel k (m.withTree t')) := by
  have hput := puts_withModel w k (m.withTree t)
  have hissued := issued_withTree (w := w) k m ht.nodup
  refine ⟨_, hissued, congrArg Prod.fst ((Tree.gives_updateLayout ht hissued).1 hs), ?_⟩
  exact hput.trans ((puts_withModel _ k (m.withTree t')).congr (fun _ => rfl) fun _ => rfl)

/-- Putting a tree in place succeeds. -/
theorem puts_of_commit {t : Tree} {a : Unit} (h : Gives (commit k t) w a w') (ht : t.Valid) :
    ∃ s, s.Issued t.uuids ∧ w.Puts k (settled k t s) w' := by
  simp only [commit, gives_bind, gives_model] at h
  obtain ⟨_, _, ⟨rfl, rfl⟩, _, v, hv, h⟩ := h
  rw [gives_setModel] at hv
  subst hv
  unfold settled
  split at h
  · rename_i hk
    simp only [if_pos hk]
    simp only [gives_bind, gives_build, gives_setModel, gives_tell] at h
    obtain ⟨t', _, ⟨s, hs, rfl⟩, _, _, rfl, rfl⟩ := h
    obtain ⟨s₀, hissued, rfl, hput⟩ := puts_of_updateLayout ht hs
    exact ⟨s₀, hissued, hput.congr (fun _ => rfl) fun _ => rfl⟩
  · rename_i hk
    simp only [if_neg hk]
    rw [gives_pure] at h
    obtain ⟨-, rfl⟩ := h
    exact ⟨_, issued_withTree (w := w) k (w.models.get k) ht.nodup,
      puts_withModel w k ((w.models.get k).withTree t)⟩

/-- A valid tree can be laid out where it has been put. -/
theorem exists_updateLayout (k : TreeKind) (m : Model) {t : Tree} (ht : t.Valid) (w : Workspace) :
    ∃ t' w', Gives (build t.updateLayout) (w.withModel k (m.withTree t)) t' w' :=
  have hissued := issued_withTree (w := w) k m ht.nodup
  ⟨_, _, gives_build.2 ⟨_, (Tree.gives_updateLayout ht hissued).2 rfl, rfl⟩⟩

/-- A tree can be put in place, valid if it is to be laid out. -/
theorem exists_commit {t : Tree} (ht : hasLayout k = true → t.Valid) (w : Workspace) :
    ∃ w', Gives (commit k t) w () w' := by
  refine exists_gives_bind (gives_model.2 ⟨rfl, rfl⟩) (exists_gives_bind (a := ()) (gives_setModel.2 rfl) ?_)
  split
  · rename_i hk
    obtain ⟨t', v, hrun⟩ := exists_updateLayout k (w.models.get k) (ht hk) w
    refine exists_gives_bind hrun (exists_gives_bind (a := ()) (gives_setModel.2 rfl) ?_)
    exact ⟨_, gives_tell.2 rfl⟩
  · exact ⟨_, gives_pure.2 ⟨rfl, rfl⟩⟩

section

variable {t : Tree} (ht : t.Valid) {s : Supply} (hs : s.Issued t.uuids)
include ht hs

theorem valid_settled : (settled k t s).Valid := by
  unfold settled
  split
  · exact Tree.valid_relaidOut ht hs
  · exact ht

theorem kind_settled : (settled k t s).kind = t.kind := by
  unfold settled
  split
  · exact Tree.kind_relaidOut ht hs
  · rfl

theorem upToDate_settled (hk : hasLayout k = true) : (settled k t s).UpToDate := by
  rw [settled, if_pos hk]
  exact Tree.upToDate_relaidOut ht hs

end

theorem settled_of_upToDate {t : Tree} (ht : t.Valid) (h : hasLayout k = true → t.UpToDate)
    (s : Supply) : settled k t s = t := by
  unfold settled
  split
  · rename_i hk
    rw [Tree.relaidOut_of_upToDate ht (h hk)]
  · rfl

theorem insertNode_ok {parent : Uuid} {row : Option Nat} {n : Node} {u : Uuid}
    (h : Gives (insertNode k parent row n) w u w') :
    ∃ t r v a, (w.tree k).insert parent (some r) n = .ok t ∧ Gives (commit k t) v a w' ∧
      Alike w v := by
  simp only [insertNode, gives_bind, gives_tree, gives_tell, gives_liftM, gives_pure] at h
  obtain ⟨_, _, ⟨rfl, rfl⟩, p, _, ⟨-, rfl⟩, _, _, rfl, _, _, rfl, t, _, ⟨ht, rfl⟩, a, _, hc, -, rfl⟩ := h
  exact ⟨t, _, _, a, ht, hc, fun _ => rfl⟩

theorem removeNode_ok {u : Uuid} {a : Unit} (h : Gives (removeNode k u) w a w') :
    ∃ n t v, (w.tree k).detach u = .ok (n, t) ∧ Gives (commit k t) v a w' ∧ Alike w v := by
  simp only [removeNode, gives_bind, gives_tree, gives_tell, gives_liftM] at h
  obtain ⟨_, _, ⟨rfl, rfl⟩, p, _, ⟨-, rfl⟩, _, _, rfl, _, _, rfl, ⟨n, t⟩, _, ⟨ht, rfl⟩, hc⟩ := h
  exact ⟨n, t, _, ht, hc, fun _ => rfl⟩

theorem moveNode_ok {u parent : Uuid} {row : Option Nat} {a : Unit}
    (h : Gives (moveNode k u parent row) w a w') :
    ∃ t v, (w.tree k).move u parent row = .ok t ∧ Gives (commit k t) v a w' ∧ Alike w v := by
  simp only [moveNode, gives_bind, gives_tree, gives_tell, gives_liftM] at h
  obtain ⟨_, _, ⟨rfl, rfl⟩, p, _, ⟨-, rfl⟩, _, _, rfl, _, _, rfl, t, _, ⟨ht, rfl⟩, hc⟩ := h
  exact ⟨t, _, ht, hc, fun _ => rfl⟩

/-- Announcements change no tree. -/
theorem gives_announce {c : Prop} [Decidable c] {e e' : ViewEvent} {rest : Edit α} {a : α} :
    Gives (if c then do tell k e; tell k e'; rest else rest) w a w' ↔
      Gives rest (w.withEvents (w.events ++ if c then [(k, e), (k, e')] else [])) a w' := by
  split
  · simp only [gives_bind, gives_tell]
    constructor
    · rintro ⟨_, _, rfl, _, _, rfl, h⟩
      simpa [withEvents] using h
    · intro h
      exact ⟨(), _, rfl, (), _, rfl, by simpa [withEvents] using h⟩
  · rw [List.append_nil]
    exact Iff.rfl

theorem transaction_ok {scope : Uuid} {f : Tree → Edit (Tree × α)} {a : α}
    (h : Gives (transaction k scope f) w a w') :
    ∃ t v v₁ b v₂, Gives (f (w.tree k)) w (t, a) v ∧ Gives (commit k t) v₁ b v₂ ∧ Alike v v₁ ∧
      Alike v₂ w' := by
  simp only [transaction, gives_bind, gives_tree] at h
  obtain ⟨_, _, ⟨rfl, rfl⟩, ⟨t, a'⟩, v, hf, h⟩ := h
  rw [gives_announce, gives_announce] at h
  simp only [gives_bind, gives_logNode, gives_pure] at h
  obtain ⟨b, v₂, hc, _, _, rfl, rfl, rfl⟩ := h
  exact ⟨t, v, _, b, v₂, hf, hc, fun _ => rfl, fun _ => rfl⟩

/-- A transaction succeeds if its change of the copy does, and leaves it valid where it is laid out. -/
theorem exists_transaction (scope : Uuid) {f : Tree → Edit (Tree × α)} {t : Tree} {a : α}
    {v : Workspace} (h : Gives (f (w.tree k)) w (t, a) v) (ht : hasLayout k = true → t.Valid) :
    ∃ w', Gives (transaction k scope f) w a w' := by
  refine exists_gives_bind (gives_tree.2 ⟨rfl, rfl⟩) (exists_gives_bind h ?_)
  simp only [gives_announce]
  obtain ⟨_, hc⟩ := exists_commit ht _
  exact exists_gives_bind hc (exists_gives_bind (a := ()) (gives_logNode.2 rfl) ⟨_, gives_pure.2 ⟨rfl, rfl⟩⟩)

/-- A transaction that puts the tree in place that was there changes no tree. -/
theorem exists_transaction_self (scope : Uuid) {f : Tree → Edit (Tree × α)} {a : α} {v : Workspace}
    (ht : (w.tree k).Valid) (hu : hasLayout k = true → (w.tree k).UpToDate)
    (h : Gives (f (w.tree k)) w (w.tree k, a) v) (hv : Alike w v) :
    ∃ w', Gives (transaction k scope f) w a w' ∧ Alike w w' := by
  obtain ⟨w', hw'⟩ := exists_transaction scope h fun _ => ht
  obtain ⟨t, v', v₁, b, v₂, hrun, hc, ha, ha'⟩ := transaction_ok hw'
  obtain ⟨hta, rfl⟩ := gives_unique h hrun
  obtain rfl : w.tree k = t := congrArg Prod.fst hta
  obtain ⟨s, -, hput⟩ := puts_of_commit hc ht
  rw [settled_of_upToDate ht hu] at hput
  have hputs := hput.congr (fun j => (ha j).trans (hv j)) ha'
  refine ⟨w', hw', fun j => ?_⟩
  by_cases hj : j = k
  · rw [hj, hputs.tree]
  · exact hputs.others j hj

end Edit

end DeviceModel
