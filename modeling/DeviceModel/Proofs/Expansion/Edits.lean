import DeviceModel.Proofs.Expansion.Tables
import DeviceModel.Proofs.Tree.Relabel

/-!
Edits around what a table has generated: of its axes, arrays, groups and all that is in them, and of
anything elsewhere. Main statement: they leave the generated nodes as they are (`hasTable_of_edits`).
-/

namespace DeviceModel

namespace Tree

open TableExpansion

/-- The tree has a table `u`, and `ns` are its generated groups. -/
def HasTable (t : Tree) (u : Uuid) (ns : List Node) : Prop :=
  ∃ a ∈ t.all, a.uuid = u ∧ a.kind = .table ∧ generated a = ns

/-- `v` is none of the nodes generated for `u`. -/
def Apart (t : Tree) (u v : Uuid) : Prop :=
  ∀ a ∈ t.all, a.uuid = u → v ∉ (generated a).flatMap Node.uuids

/-- `t'` comes from `t` by edits that leave the table `u` in the tree, and touch none of its generated
nodes and add none. -/
inductive Edits (u : Uuid) (t : Tree) : Tree → Prop
  | start : Edits u t t
  | insert {t₁ t₂ : Tree} {parent : Uuid} {row : Option Nat} {c : Node} (before : Edits u t t₁)
    (apart : t₁.Apart u parent) (kind : c.kind ≠ .tableGroupElement)
    (done : t₁.insert parent row c = .ok t₂) : Edits u t t₂
  | detach {t₁ t₂ : Tree} {v : Uuid} {n : Node} (before : Edits u t t₁) (apart : t₁.Apart u v)
    (stays : u ∉ n.uuids) (done : t₁.detach v = .ok (n, t₂)) : Edits u t t₂
  | move {t₁ t₂ : Tree} {v parent : Uuid} {row : Option Nat} {n : Node} (before : Edits u t t₁)
    (found : t₁.find? v = some n) (apart : t₁.Apart u v) (there : t₁.Apart u parent)
    (stays : u ∉ n.uuids) (kind : n.kind ≠ .tableGroupElement)
    (done : t₁.move v parent row = .ok t₂) : Edits u t t₂
  | set {t₁ : Tree} {v : Uuid} {g : Data → Data} (before : Edits u t t₁) (apart : t₁.Apart u v)
    (kind : ∀ n, t₁.find? v = some n → (g n.data).kind = n.kind) : Edits u t (t₁.modify v g)

instance (t : Tree) (u v : Uuid) : Decidable (t.Apart u v) :=
  inferInstanceAs (Decidable (∀ a ∈ t.all, a.uuid = u → v ∉ (generated a).flatMap Node.uuids))

variable {t : Tree} {u : Uuid} {ns : List Node}

theorem HasTable.edit (h : t.HasTable u ns) {p : Uuid} {f : Node → Node}
    (hp : p ∉ ns.flatMap Node.uuids) (hkind : ∀ m ∈ t.all, m.uuid = p → (f m).kind = m.kind)
    (huuid : ∀ m ∈ t.all, m.uuid = p → (f m).uuid = p)
    (hgen : ∀ m ∈ t.all, m.uuid = p → generated (f m) = generated m)
    (hsub : ∀ m ∈ t.all, m.uuid = p → m.children ⊆ (f m).children) (ht : t.uuids.Nodup) :
    (t.edit p f).HasTable u ns := by
  obtain ⟨a, ha, hau, hk, rfl⟩ := h
  by_cases hap : a.uuid = p
  · refine ⟨f a, Node.mem_edit_of_mem ht ha hap (Node.mem_all_self _), ?_, ?_, hgen a ha hap⟩
    · rw [huuid a ha hap, ← hap, hau]
    · rw [hkind a ha hap, hk]
  · by_cases hbelow : ∃ m ∈ t.all, m.uuid = p ∧ a ∈ m.all
    · -- The edited node keeps its children, and the table is in one of them.
      obtain ⟨m, hm, hmp, ham⟩ := hbelow
      obtain ⟨c, hc, hac⟩ := (Node.mem_all.1 ham).resolve_left fun h => hap (h ▸ hmp)
      have hfm := Node.mem_all_trans hac (Node.mem_all_of_child (hsub m hm hmp hc))
      exact ⟨a, Node.mem_edit_of_mem ht hm hmp hfm, hau, hk, rfl⟩
    · have hmem := Node.edit_mem_edit (f := f) ha fun m hm hmp ham => absurd ⟨m, hm, hmp, ham⟩ hbelow
      refine ⟨a.edit p f, hmem, ?_, ?_, ?_⟩
      · rw [Node.edit_of_ne hap, hau]
      · rw [Node.kind_edit fun h => absurd h hap, hk]
      · have hkids : ∀ c ∈ a.children, (c.edit p f).kind = c.kind := fun c hc =>
          Node.kind_edit fun hcp => hkind c (mem_all_of_child ha hc) hcp
        rw [Node.edit_of_ne hap, generated, List.filter_map, generated,
          List.filter_congr (fun c hc => by rw [Function.comp_apply, hkids c hc] :
            ∀ c ∈ a.children, _ = (c.kind == .tableGroupElement))]
        exact Node.map_edit_of_notMem fun c hc hpc => hp (List.mem_flatMap.2 ⟨c, hc, hpc⟩)

theorem HasTable.without (h : t.HasTable u ns) {n : Node} (hn : n ∈ t.all) (hu : u ∉ n.uuids)
    (hp : n.uuid ∉ ns.flatMap Node.uuids) (ht : t.uuids.Nodup) :
    ({ t with root := t.root.without n.uuid } : Tree).HasTable u ns := by
  obtain ⟨a, ha, hau, hk, rfl⟩ := h
  refine ⟨a.without n.uuid, Node.without_mem_without ha fun m hm hmn ham => ?_, by simp [hau],
    by simp [hk], ?_⟩
  · obtain rfl := Node.eq_of_uuid ht hm hn hmn
    exact hu (hau ▸ Node.uuid_mem_uuids ham)
  · have hcomm : generated (a.without n.uuid) =
        ((generated a).filter (·.uuid ≠ n.uuid)).map (Node.without n.uuid) := by
      rw [Node.without_eq, generated, List.filter_map, generated, List.filter_filter, List.filter_filter]
      congr 1
      apply List.filter_congr
      intro c _
      simp [Bool.and_comm]
    rw [hcomm]
    exact Node.each_without_of_notMem fun c hc hnc => hp (List.mem_flatMap.2 ⟨c, hc, hnc⟩)

theorem generated_addChild {m c : Node} (hc : c.kind ≠ .tableGroupElement) (row : Option Nat) :
    generated (m.addChild row c) = generated m := by
  have hsplit := List.take_append_drop (row.getD m.children.length) m.children
  rw [generated, Node.addChild, Node.place, List.filter_append, List.filter_cons,
    if_neg (by simpa using hc), ← List.filter_append, hsplit, generated]

/-- Another node joins at a place that is not generated. -/
theorem HasTable.addChild (h : t.HasTable u ns) {p : Uuid} (hp : p ∉ ns.flatMap Node.uuids)
    {c : Node} (hc : c.kind ≠ .tableGroupElement) (row : Option Nat) (ht : t.uuids.Nodup) :
    (t.edit p fun n => n.addChild row c).HasTable u ns :=
  h.edit hp (fun _ _ _ => rfl) (fun _ _ hm => hm) (fun _ _ _ => generated_addChild hc row)
    (fun _ _ _ _ hd => Node.mem_place.2 (.inr hd)) ht

/-- Edits leave the generated nodes of the table as they are. -/
theorem hasTable_of_edits {t' : Tree} (h : Edits u t t') (ht : t.Valid) (hg : t.HasTable u ns) :
    t'.Valid ∧ t'.HasTable u ns := by
  have apart : ∀ {t : Tree} {v : Uuid}, t.HasTable u ns → t.Apart u v → v ∉ ns.flatMap Node.uuids := by
    rintro t v ⟨a, ha, hau, -, rfl⟩ hv
    exact hv a ha hau
  induction h with
  | start => exact ⟨ht, hg⟩
  | insert before there kind done ih =>
    obtain ⟨hv, hg⟩ := ih
    refine ⟨hv.insert done, ?_⟩
    obtain ⟨p, hp, rfl, -, -, rfl⟩ := insert_ok done
    exact hg.addChild (apart hg there) kind _ hv.nodup
  | detach before there stays done ih =>
    obtain ⟨hv, hg⟩ := ih
    refine ⟨hv.detach done, ?_⟩
    obtain ⟨-, hn, rfl, rfl⟩ := detach_ok done
    exact hg.without hn stays (apart hg there) hv.nodup
  | move before found from_ there stays kind done ih =>
    obtain ⟨hv, hg⟩ := ih
    refine ⟨hv.move done, ?_⟩
    obtain ⟨n, hn, p, hp, rfl, rfl, hr, -, -, -, rfl⟩ := move_ok done
    obtain rfl := Option.some.inj (found.symm.trans (find?_of_mem hv.nodup hn))
    have hout := hg.without hn stays (apart hg from_) hv.nodup
    exact hout.addChild (apart hg there) kind _ (hv.without hn hr).nodup
  | @set t₁ v g before there kind ih =>
    obtain ⟨hv, hg⟩ := ih
    have hkind : ∀ m ∈ t₁.all, m.uuid = v → (g m.data).kind = m.kind := fun m hm hmv =>
      kind m (hmv ▸ find?_of_mem hv.nodup hm)
    exact ⟨hv.modify hkind, hg.edit (apart hg there) hkind (fun _ _ hm => hm) (fun _ _ _ => rfl)
      (fun _ _ _ _ hd => hd) hv.nodup⟩

end Tree

end DeviceModel
