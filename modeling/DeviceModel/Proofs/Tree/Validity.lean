import DeviceModel.Proofs.Tree.Editing
import DeviceModel.Proofs.Tree.Trail

/-!
Validity of trees and what keeps it. Main statements: a node passes validation exactly if it keeps the
rules of its kinds and brings new identifiers only (`validate_isOk`), and every accepted change of a
valid tree gives a valid one.
-/

namespace DeviceModel

/-- Roots stand below nothing. -/
theorem Kind.not_allows_rootKind (t : TreeKind) (k : Kind) : k.allows t.rootKind = false := by
  cases t <;> cases k <;> rfl

namespace Node

/-- Children only of the kinds that their parents allow. -/
def Allowed (n : Node) : Prop := ∀ m ∈ n.all, ∀ c ∈ m.children, m.kind.allows c.kind = true

theorem allowed_iff {n : Node} :
    n.Allowed ↔ ∀ c ∈ n.children, n.kind.allows c.kind = true ∧ c.Allowed := by
  constructor
  · intro h c hc
    exact ⟨h n (mem_all_self n) c hc, fun m hm => h m (mem_all_trans hm (mem_all_of_child hc))⟩
  · intro h m hm c hc
    rcases mem_all.1 hm with rfl | ⟨d, hd, hm⟩
    · exact (h c hc).1
    · exact (h d hd).2 m hm c hc

theorem Allowed.of_mem {m n : Node} (h : n.Allowed) (hm : m ∈ n.all) : m.Allowed :=
  fun k hk => h k (mem_all_trans hk hm)

/-- Nothing below is of a kind that a parent of another kind would need. -/
theorem Allowed.tree_eq {m n : Node} (h : n.Allowed) (hm : m ∈ n.all) :
    m.kind.tree = n.kind.tree := by
  induction n using inductOn with
  | h n ih =>
    rcases mem_all.1 hm with rfl | ⟨c, hc, hm⟩
    · rfl
    · have hnc := allowed_iff.1 h c hc
      exact (ih c hc hnc.2 hm).trans (Kind.tree_of_allows hnc.1)

/-! ### Validation -/

/-- What `validate` asks of a node that is to join nodes of the identifiers `seen`. -/
def Joins (n : Node) (seen : List Uuid) : Prop :=
  n.uuids.Nodup ∧ (∀ u ∈ n.uuids, u ∉ seen) ∧ n.Allowed

/-- Validation remembers the identifiers that it has passed, and those alone. -/
theorem validate_ok {n : Node} {seen passed : List Uuid} (h : n.validate seen = .ok passed) :
    n.Joins seen ∧ ∀ u, u ∈ passed ↔ u ∈ n.uuids ∨ u ∈ seen := by
  induction n using inductOn generalizing seen passed with
  | h n ih =>
    -- Later siblings are validated first, so that their identifiers are seen by the earlier ones.
    have each : ∀ cs : List Node, (∀ c ∈ cs, c ∈ n.children) → ∀ {seen passed : List Uuid},
        validate.each cs seen = .ok passed →
        (cs.flatMap uuids).Nodup ∧ (∀ u ∈ cs.flatMap uuids, u ∉ seen) ∧ (∀ c ∈ cs, c.Allowed) ∧
          ∀ u, u ∈ passed ↔ u ∈ cs.flatMap uuids ∨ u ∈ seen := by
      intro cs hcs
      induction cs with
      | nil =>
        intro seen passed h
        cases h
        simp
      | cons c cs ihs =>
        intro seen passed h
        simp only [validate.each] at h
        split at h
        · rename_i middle hm
          obtain ⟨hnd, hdis, hall, hpass⟩ := ihs (fun d hd => hcs d (by simp [hd])) hm
          obtain ⟨⟨hcn, hcd, hca⟩, hcp⟩ := ih c (hcs c (by simp)) h
          refine ⟨?_, ?_, by simpa using ⟨hca, hall⟩, fun u => ?_⟩
          · rw [List.flatMap_cons, List.nodup_append]
            refine ⟨hcn, hnd, fun u hu v hv huv => hcd u hu ?_⟩
            exact (hpass u).2 (.inl (huv ▸ hv))
          · intro u hu
            rcases List.mem_append.1 hu with hu | hu
            · exact fun hs => hcd u hu ((hpass u).2 (.inr hs))
            · exact hdis u hu
          · rw [hcp, hpass, List.flatMap_cons, List.mem_append, or_assoc]
        · cases h
    obtain ⟨u, d, cs⟩ := n
    rw [validate] at h
    split at h
    · cases h
    · rename_i hu
      split at h
      · cases h
      · rename_i hk
        obtain ⟨hnd, hdis, hall, hpass⟩ := each cs (fun _ hc => hc) h
        refine ⟨⟨?_, ?_, ?_⟩, fun v => ?_⟩
        · rw [uuids_eq]
          exact List.nodup_cons.2 ⟨fun hm => hdis u hm (by simp), hnd⟩
        · intro v hv
          rw [uuids_eq] at hv
          rcases List.mem_cons.1 hv with rfl | hv
          · exact hu
          · exact fun hs => hdis v hv (by simp [hs])
        · exact allowed_iff.2 fun c hc => ⟨by simpa [Node.kind] using List.find?_eq_none.1 hk c hc, hall c hc⟩
        · rw [hpass, uuids_eq, List.mem_cons, List.mem_cons, or_left_comm, or_assoc]

theorem validate_of_joins {n : Node} {seen : List Uuid} (h : n.Joins seen) :
    ∃ passed, n.validate seen = .ok passed := by
  induction n using inductOn generalizing seen with
  | h n ih =>
    have each : ∀ cs : List Node, (∀ c ∈ cs, c ∈ n.children) → ∀ seen : List Uuid,
        (cs.flatMap uuids).Nodup → (∀ u ∈ cs.flatMap uuids, u ∉ seen) → (∀ c ∈ cs, c.Allowed) →
        ∃ passed, validate.each cs seen = .ok passed ∧
          ∀ u, u ∈ passed ↔ u ∈ cs.flatMap uuids ∨ u ∈ seen := by
      intro cs hcs
      induction cs with
      | nil => exact fun seen _ _ _ => ⟨seen, rfl, by simp⟩
      | cons c cs ihs =>
        intro seen hnd hdis hall
        rw [List.flatMap_cons, List.nodup_append] at hnd
        obtain ⟨middle, hm, hpass⟩ := ihs (fun d hd => hcs d (by simp [hd])) seen hnd.2.1
          (fun u hu => hdis u (by simp [hu])) (fun d hd => hall d (by simp [hd]))
        have hc : ∀ u ∈ c.uuids, u ∉ middle := by
          intro u hu hs
          rcases (hpass u).1 hs with hs | hs
          · exact hnd.2.2 u hu u hs rfl
          · exact hdis u (by simp [hu]) hs
        obtain ⟨passed, hp⟩ := ih c (hcs c (by simp)) ⟨hnd.1, hc, hall c (by simp)⟩
        refine ⟨passed, by simp [validate.each, hm, hp], fun u => ?_⟩
        rw [(validate_ok hp).2, hpass, List.flatMap_cons, List.mem_append, or_assoc]
    obtain ⟨u, d, cs⟩ := n
    obtain ⟨hn, hd, ha⟩ := h
    rw [uuids_eq] at hn hd
    have hn := List.nodup_cons.1 hn
    have ha := allowed_iff.1 ha
    obtain ⟨passed, hp, -⟩ := each cs (fun _ hc => hc) (u :: seen) hn.2
      (fun v hv hs => by
        rcases List.mem_cons.1 hs with rfl | hs
        · exact hn.1 hv
        · exact hd v (by simp [hv]) hs)
      (fun c hc => (ha c hc).2)
    have hk : cs.find? (fun c => !d.kind.allows c.kind) = none :=
      List.find?_eq_none.2 fun c hc => by simpa [Node.kind] using (ha c hc).1
    exact ⟨passed, by rw [validate, if_neg (hd u (by simp)), hk]; exact hp⟩

theorem validate_isOk {n : Node} {seen : List Uuid} :
    (∃ passed, n.validate seen = .ok passed) ↔ n.Joins seen :=
  ⟨fun ⟨_, h⟩ => (validate_ok h).1, validate_of_joins⟩

/-- An edit that keeps kinds keeps the rules of the kinds. -/
theorem Allowed.edit {n : Node} {u : Uuid} {f : Node → Node} (h : n.Allowed)
    (hk : ∀ m ∈ n.all, m.uuid = u → (f m).kind = m.kind ∧ (f m).Allowed) :
    (n.edit u f).Allowed := by
  intro k hke c hc
  rcases mem_all_edit hke with ⟨m, hm, hu, hkm⟩ | ⟨m, hm, hu, rfl⟩
  · exact (hk m hm hu).2 k hkm c hc
  · rw [edit_of_ne hu] at hc
    obtain ⟨d, hd, rfl⟩ := List.mem_map.1 hc
    have hdm := mem_all_trans (mem_all_of_child hd) hm
    rw [kind_edit (fun hu => (hk m hm hu).1), kind_edit (fun hu => (hk d hdm hu).1)]
    exact h m hm d hd

theorem Allowed.without {n : Node} (h : n.Allowed) (u : Uuid) : (n.without u).Allowed := by
  intro k hk c hc
  obtain ⟨m, hm, rfl⟩ := mem_all_without hk
  rw [without_eq] at hc
  obtain ⟨d, hd, rfl⟩ := List.mem_map.1 hc
  simpa using h m hm d (List.mem_of_mem_filter hd)

theorem mem_place {row : Nat} {c d : Node} {cs : List Node} :
    d ∈ place row c cs ↔ d = c ∨ d ∈ cs := by
  rw [place, List.mem_append, List.mem_cons, or_left_comm, ← List.mem_append, List.take_append_drop]

theorem place_perm (row : Nat) (c : Node) (cs : List Node) : (place row c cs).Perm (c :: cs) := by
  rw [place]
  exact List.perm_middle.trans (by rw [List.take_append_drop])

theorem uuids_addChild_perm (n : Node) (row : Option Nat) (c : Node) :
    (n.addChild row c).uuids.Perm (n.uuids ++ c.uuids) := by
  rw [uuids_eq, uuids_eq n]
  refine .cons _ (((place_perm _ c n.children).flatMap_right uuids).trans ?_)
  rw [List.flatMap_cons]
  exact List.perm_append_comm

theorem Allowed.addChild {n c : Node} (h : n.Allowed) (hc : c.Allowed)
    (hk : n.kind.allows c.kind = true) (row : Option Nat) : (n.addChild row c).Allowed := by
  refine allowed_iff.2 fun d hd => ?_
  rcases mem_place.1 hd with rfl | hd
  · exact ⟨hk, hc⟩
  · exact allowed_iff.1 h d hd

end Node

namespace Tree

instance (t : Tree) : Decidable t.Valid :=
  decidable_of_iff (t.root.kind = t.kind.rootKind ∧ t.uuids.Nodup ∧
      ∀ n ∈ t.all, ∀ c ∈ n.children, n.kind.allows c.kind = true)
    ⟨fun ⟨hr, hn, ha⟩ => ⟨hr, hn, ha⟩, fun h => ⟨h.root, h.nodup, h.allowed⟩⟩

theorem Valid.allowedRoot {t : Tree} (h : t.Valid) : t.root.Allowed := h.allowed

theorem Valid.nodup_root {t : Tree} (h : t.Valid) : t.root.uuids.Nodup := h.nodup

/-- The kinds of a tree are kinds for it. -/
theorem kind_of_mem {t : Tree} (ht : t.Valid) {n : Node} (hn : n ∈ t.all) : t.kind = n.kind.tree := by
  rw [ht.allowedRoot.tree_eq hn, ht.root, TreeKind.tree_rootKind]

theorem valid_of_ofRoot? {k : TreeKind} {n : Node} {t : Tree} (h : Tree.ofRoot? k n = .ok t) :
    t = ⟨k, n⟩ ∧ t.Valid := by
  unfold ofRoot? at h
  split at h
  · cases h
  · rename_i hk
    cases hv : n.validate [] with
    | error e => rw [hv] at h; cases h
    | ok passed =>
      rw [hv] at h
      cases h
      obtain ⟨hn, -, ha⟩ := (Node.validate_ok hv).1
      exact ⟨rfl, not_not.1 hk, hn, ha⟩

theorem ofRoot?_of_valid {t : Tree} (h : t.Valid) : Tree.ofRoot? t.kind t.root = .ok t := by
  have hj : t.root.Joins [] := ⟨h.nodup_root, by simp, h.allowedRoot⟩
  obtain ⟨passed, hp⟩ := Node.validate_of_joins hj
  rw [ofRoot?, if_neg (not_not.2 h.root), hp]
  rfl

theorem valid_initial (k : TreeKind) (u : Uuid) : (Tree.initial k u).Valid where
  root := by cases k <;> rfl
  nodup := by simp [initial, uuids, Node.uuids_eq, Node.leaf]
  allowed := by simp [initial, all, Node.all_eq, Node.leaf]

/-- Changing one node keeps a tree valid if the node keeps its kind and the rules, and identifiers stay
distinct. -/
theorem Valid.edit {t : Tree} (h : t.Valid) {u : Uuid} {f : Node → Node}
    (hk : ∀ m ∈ t.all, m.uuid = u → (f m).kind = m.kind ∧ (f m).Allowed)
    (hn : (t.edit u f).uuids.Nodup) : (t.edit u f).Valid where
  root := (Node.kind_edit fun hu => (hk t.root t.root_mem hu).1).trans h.root
  nodup := hn
  allowed := h.allowedRoot.edit hk

theorem uuids_edit_addChild {t : Tree} {p c : Node} (ht : t.uuids.Nodup) (hp : p ∈ t.all)
    (row : Option Nat) :
    (t.edit p.uuid fun n => n.addChild row c).uuids.Perm (t.uuids ++ c.uuids) := by
  obtain ⟨before, behind, he, hf⟩ := Node.outline_edit ht hp fun u _ => u
  have hpc := p.uuids_addChild_perm row c
  rw [uuids, uuids, Tree.edit, Node.uuids_eq_outline, Node.uuids_eq_outline t.root, hf, he]
  rw [Node.uuids_eq_outline, Node.uuids_eq_outline p] at hpc
  grind [List.perm_append_comm]

/-- A node that brings new identifiers only may join under any parent that allows it. -/
theorem Valid.addChild {t : Tree} {p c : Node} (h : t.Valid) (hp : p ∈ t.all)
    (hc : c.Joins t.uuids) (hk : p.kind.allows c.kind = true) (row : Option Nat) :
    (t.edit p.uuid fun n => n.addChild row c).Valid := by
  obtain ⟨hcn, hcd, hca⟩ := hc
  refine h.edit (fun m hm hu => ?_) ?_
  · obtain rfl := Node.eq_of_uuid h.nodup_root hm hp hu
    exact ⟨rfl, (h.allowedRoot.of_mem hm).addChild hca hk row⟩
  · refine (uuids_edit_addChild h.nodup hp row).nodup_iff.2 ?_
    exact List.nodup_append.2 ⟨h.nodup, hcn, fun a ha b hb hab => hcd b hb (hab ▸ ha)⟩

/-! ### Changes -/

theorem insert_ok {t t' : Tree} {parent : Uuid} {row : Option Nat} {c : Node}
    (h : t.insert parent row c = .ok t') :
    ∃ p ∈ t.all, p.uuid = parent ∧ p.kind.allows c.kind = true ∧ c.Joins t.uuids ∧
      t' = t.edit parent fun n => n.addChild row c := by
  unfold Tree.insert at h
  cases hp : t.node parent with
  | error e => rw [hp] at h; cases h
  | ok p =>
    simp only [hp, bind, Except.bind] at h
    split at h
    · cases h
    · rename_i hk
      cases hv : c.validate t.uuids with
      | error e => rw [hv] at h; cases h
      | ok passed =>
        rw [hv] at h
        cases h
        obtain ⟨hm, hu⟩ := mem_of_find? (node_eq_ok.1 hp)
        exact ⟨p, hm, hu, by simpa using hk, (Node.validate_ok hv).1, rfl⟩

theorem insert_of_joins {t : Tree} {p c : Node} (ht : t.uuids.Nodup) (hp : p ∈ t.all)
    (hk : p.kind.allows c.kind = true) (hc : c.Joins t.uuids) (row : Option Nat) :
    t.insert p.uuid row c = .ok (t.edit p.uuid fun n => n.addChild row c) := by
  obtain ⟨passed, hv⟩ := Node.validate_of_joins hc
  rw [Tree.insert, node_eq_ok.2 (find?_of_mem ht hp)]
  simp only [bind, Except.bind, hk, hv, Bool.not_true, Bool.false_eq_true, if_false]
  rfl

theorem Valid.insert {t t' : Tree} {parent : Uuid} {row : Option Nat} {c : Node} (h : t.Valid)
    (hi : t.insert parent row c = .ok t') : t'.Valid := by
  obtain ⟨p, hp, rfl, hk, hc, rfl⟩ := insert_ok hi
  exact h.addChild hp hc hk row

theorem detach_ok {t t' : Tree} {u : Uuid} {n : Node} (h : t.detach u = .ok (n, t')) :
    u ≠ t.root.uuid ∧ n ∈ t.all ∧ n.uuid = u ∧ t' = { t with root := t.root.without u } := by
  unfold Tree.detach at h
  split at h
  · cases h
  · rename_i hr
    cases hn : t.node u with
    | error e => rw [hn] at h; cases h
    | ok m =>
      rw [hn] at h
      cases h
      obtain ⟨hm, hu⟩ := mem_of_find? (node_eq_ok.1 hn)
      exact ⟨hr, hm, hu, rfl⟩

theorem detach_of_mem {t : Tree} {n : Node} (ht : t.uuids.Nodup) (hn : n ∈ t.all)
    (hr : n.uuid ≠ t.root.uuid) :
    t.detach n.uuid = .ok (n, { t with root := t.root.without n.uuid }) := by
  rw [Tree.detach, if_neg hr, node_eq_ok.2 (find?_of_mem ht hn)]
  rfl

/-- What is left without `n` has the identifiers that are not in `n`. -/
theorem uuids_without {t : Tree} {n : Node} (ht : t.uuids.Nodup) (hn : n ∈ t.all)
    (hr : n.uuid ≠ t.root.uuid) : ((t.root.without n.uuid).uuids ++ n.uuids).Perm t.uuids := by
  obtain ⟨before, behind, he, hf⟩ := Node.outline_without ht hn hr fun u _ => u
  rw [uuids, Node.uuids_eq_outline, Node.uuids_eq_outline t.root, Node.uuids_eq_outline n, he, hf,
    List.append_assoc, List.append_assoc]
  exact .append_left _ List.perm_append_comm

theorem Valid.without {t : Tree} {n : Node} (h : t.Valid) (hn : n ∈ t.all)
    (hr : n.uuid ≠ t.root.uuid) : { t with root := t.root.without n.uuid : Tree }.Valid where
  root := (Node.kind_without n.uuid t.root).trans h.root
  nodup := (List.nodup_append.1 ((uuids_without h.nodup hn hr).nodup_iff.2 h.nodup)).1
  allowed := h.allowedRoot.without n.uuid

/-- What is taken out may join what is left. -/
theorem Valid.joins_without {t : Tree} {n : Node} (h : t.Valid) (hn : n ∈ t.all)
    (hr : n.uuid ≠ t.root.uuid) : n.Joins (t.root.without n.uuid).uuids := by
  obtain ⟨-, hnn, hdis⟩ := List.nodup_append.1 ((uuids_without h.nodup hn hr).nodup_iff.2 h.nodup)
  exact ⟨hnn, fun u hu hw => hdis u hw u hu rfl, h.allowedRoot.of_mem hn⟩

/-- What is not below `n` stays without it. -/
theorem mem_without {t : Tree} {n k : Node} (ht : t.uuids.Nodup) (hn : n ∈ t.all) (hk : k ∈ t.all)
    (h : k.uuid ∉ n.uuids) : k.without n.uuid ∈ (t.root.without n.uuid).all := by
  refine Node.without_mem_without hk fun m hm hmn hkm => h ?_
  obtain rfl := Node.eq_of_uuid ht hm hn hmn
  exact Node.uuid_mem_uuids hkm

theorem Valid.detach {t t' : Tree} {u : Uuid} {n : Node} (h : t.Valid)
    (hd : t.detach u = .ok (n, t')) : t'.Valid := by
  obtain ⟨hr, hn, rfl, rfl⟩ := detach_ok hd
  exact h.without hn hr

theorem detachChildren_ok {t t' : Tree} {u : Uuid} {cs : List Node}
    (h : t.detachChildren u = .ok (cs, t')) :
    ∃ n ∈ t.all, n.uuid = u ∧ cs = n.children ∧ t' = t.edit u fun n => { n with children := [] } := by
  unfold Tree.detachChildren at h
  cases hn : t.node u with
  | error e => rw [hn] at h; cases h
  | ok n =>
    rw [hn] at h
    cases h
    obtain ⟨hm, hu⟩ := mem_of_find? (node_eq_ok.1 hn)
    exact ⟨n, hm, hu, rfl, rfl⟩

theorem detachChildren_of_mem {t : Tree} {n : Node} (ht : t.uuids.Nodup) (hn : n ∈ t.all) :
    t.detachChildren n.uuid = .ok (n.children, t.edit n.uuid fun n => { n with children := [] }) := by
  rw [Tree.detachChildren, node_eq_ok.2 (find?_of_mem ht hn)]
  rfl

theorem Valid.detachChildren {t t' : Tree} {u : Uuid} {cs : List Node} (h : t.Valid)
    (hd : t.detachChildren u = .ok (cs, t')) : t'.Valid := by
  obtain ⟨n, hn, rfl, -, rfl⟩ := detachChildren_ok hd
  refine h.edit (fun m _ _ => ⟨rfl, Node.allowed_iff.2 fun c hc => by cases hc⟩) ?_
  obtain ⟨before, behind, he, hf⟩ := Node.outline_edit h.nodup_root hn fun u _ => u
  have hs : [n.uuid].Sublist n.uuids := by rw [Node.uuids_eq]; simp
  have hnd := h.nodup
  rw [uuids, Node.uuids_eq_outline, he] at hnd
  rw [uuids, Node.uuids_eq_outline, Tree.edit, hf, Node.outline_eq]
  exact (((List.Sublist.refl before).append hs).append (.refl behind)).nodup hnd

theorem move_ok {t t' : Tree} {u parent : Uuid} {row : Option Nat} (h : t.move u parent row = .ok t') :
    ∃ n ∈ t.all, ∃ p ∈ t.all, n.uuid = u ∧ p.uuid = parent ∧ u ≠ t.root.uuid ∧ u ≠ parent ∧
      t.isAncestor u parent = false ∧ p.kind.allows n.kind = true ∧
      t' = { t with root := (t.root.without u).edit parent fun p => p.addChild row n } := by
  unfold Tree.move at h
  cases hn : t.node u with
  | error e => rw [hn] at h; cases h
  | ok n =>
    cases hp : t.node parent with
    | error e => rw [hn, hp] at h; cases h
    | ok p =>
      simp only [hn, hp, bind, Except.bind] at h
      split at h
      · cases h
      · rename_i hu
        split at h
        · cases h
        · rename_i hk
          cases h
          obtain ⟨hnm, hnu⟩ := mem_of_find? (node_eq_ok.1 hn)
          obtain ⟨hpm, hpu⟩ := mem_of_find? (node_eq_ok.1 hp)
          exact ⟨n, hnm, p, hpm, hnu, hpu, fun h => hu (.inl h), fun h => hu (.inr (.inl h)),
            by simpa using fun h => hu (.inr (.inr h)), by simpa using hk, rfl⟩

theorem move_of_mem {t : Tree} {n p : Node} (ht : t.uuids.Nodup) (hn : n ∈ t.all) (hp : p ∈ t.all)
    (hr : n.uuid ≠ t.root.uuid) (hne : n.uuid ≠ p.uuid) (ha : t.isAncestor n.uuid p.uuid = false)
    (hk : p.kind.allows n.kind = true) (row : Option Nat) :
    t.move n.uuid p.uuid row =
      .ok { t with root := (t.root.without n.uuid).edit p.uuid fun p => p.addChild row n } := by
  rw [Tree.move, node_eq_ok.2 (find?_of_mem ht hn), node_eq_ok.2 (find?_of_mem ht hp)]
  simp only [bind, Except.bind, hr, hne, ha, hk, Bool.not_true, Bool.false_eq_true, or_self, if_false]
  rfl

theorem Valid.move {t t' : Tree} {u parent : Uuid} {row : Option Nat} (h : t.Valid)
    (hm : t.move u parent row = .ok t') : t'.Valid := by
  obtain ⟨n, hn, p, hp, rfl, rfl, hr, hne, hanc, hk, rfl⟩ := move_ok hm
  -- The new parent is not in what was taken out, or else `n` were above it.
  have hpn := notMem_of_isAncestor h.nodup hp hn hne hanc
  have hadd := (h.without hn hr).addChild (mem_without h.nodup hn hp hpn) (h.joins_without hn hr)
    (by rwa [Node.kind_without]) row
  rwa [Node.uuid_without] at hadd

end Tree

end DeviceModel
