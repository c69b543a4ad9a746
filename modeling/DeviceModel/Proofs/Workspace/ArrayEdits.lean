import DeviceModel.Proofs.Rules.ArrayElements
import DeviceModel.Proofs.Tree.Changes
import DeviceModel.Proofs.Workspace.Requests
import DeviceModel.Proofs.Workspace.Tables

/-!
What the edits of the parameter tree do to its arrays. Main statements: an edit that succeeds leaves the
arrays consistent, and the groups of an array in step with the first one, moves of parameters into and out
of that aside (`evolves_addChild`, `evolves_delete`, `evolves_drop` and others).
-/

namespace DeviceModel

open Rules (IsNew)

/-! ### What the rules offer -/

namespace Rules.Parameters

/-- A new node is a leaf, and a new array has no elements. -/
theorem newChild_leaf {t : Tree} {p n : Node} {k : Kind} {l : Lookup} {s s' : Supply}
    (h : Gives (newChild t p k l) s n s') : n.children = [] ∧ (n.kind = .array → n.int .length = 0) := by
  have leaf : ∀ {j : Kind} {attrs : List (Attr × Value)}, j ≠ .array →
      Gives (new j attrs) s n s' → n.children = [] ∧ (n.kind = .array → n.int .length = 0) := by
    intro j attrs hj h
    obtain ⟨rfl, -⟩ := gives_new.1 h
    refine ⟨rfl, fun hk => ?_⟩
    rw [Node.kind, Data.kind_of] at hk
    exact absurd hk hj
  unfold newChild at h
  split at h <;> first | exact leaf (by decide) h | exact absurd h gives_throw | skip
  obtain ⟨rfl, -⟩ := gives_new.1 h
  exact ⟨rfl, fun _ => rfl⟩

/-- Nothing is offered below the other elements of an array, and an array is offered its first only. -/
theorem of_mem_addable {t : Tree} {p : Node} {k : Kind} (h : k ∈ addable t p) :
    p.kind ≠ .arrayGroupElement ∧
      (p.kind = .array → p.children = [] ∧ (k = .parameter ∨ k = .group)) := by
  unfold addable at h
  split at h
  · cases h
  · refine ⟨fun hk => ?_, fun hk => ?_⟩
    · rw [hk] at h
      cases h
    · rw [hk] at h
      split at h
      · cases ‹Kind.array = .root›
      · cases ‹Kind.array = .group›
      · split at h
        · rename_i hempty
          exact ⟨List.isEmpty_iff.1 hempty, by simpa using h⟩
        · cases h
      all_goals simp_all

end Rules.Parameters

namespace Tree

variable {t : Tree} (ht : t.Valid)
include ht

/-- What stands in an element of an array is kept in step with something else. -/
theorem isGenerated_of_element {p n : Node} (hp : p ∈ t.all) (hn : n ∈ p.children)
    (hk : p.kind = .arrayGroupElement) : t.isGenerated n.uuid = true := by
  have hnt := Tree.mem_all_of_child hp hn
  have hmem : p ∈ t.ancestors n.uuid := by
    rw [ancestors_of_child ht.nodup hp hn]
    exact List.mem_cons_self ..
  rw [isGenerated, find?_of_mem ht.nodup hnt]
  simp only [Bool.or_eq_true, List.any_eq_true, beq_iff_eq]
  exact .inr ⟨p, hmem, .inr hk⟩

omit ht in
/-- A stand-in is allowed below an array and its elements only. -/
theorem kind_of_allows_standIn {p : Node} (h : p.kind.allows .arrayParameterElement = true) :
    p.kind = .array ∨ p.kind = .arrayGroupElement := by
  revert h
  cases p.kind <;> decide

end Tree

namespace Edit

open Workspace

variable {w w' : Workspace}

/-! ### Putting in place -/

theorem tree_of_commit {t : Tree} {a : Unit} (h : Gives (commit .parameters t) w a w') (ht : t.Valid) :
    w'.tree .parameters = t := by
  obtain ⟨s, -, hput⟩ := puts_of_commit h ht
  exact hput.tree

theorem tree_of_transaction {α : Type} {scope : Uuid} {f : Tree → Edit (Tree × α)} {a : α}
    (h : Gives (transaction .parameters scope f) w a w') :
    ∃ t v, Gives (f (w.tree .parameters)) w (t, a) v ∧ (t.Valid → w'.tree .parameters = t) := by
  obtain ⟨t, v, v₁, b, v₂, hf, hc, -, ha⟩ := transaction_ok h
  exact ⟨t, v, hf, fun ht => (ha .parameters).trans (tree_of_commit hc ht)⟩

/-- Stand-ins for `child` come into the elements `es`, one after the other. -/
theorem extend_of_standIns {child : Node} {es : List Uuid} {t t' : Tree} (ht : t.Valid) (hes : es.Nodup)
    (hmem : ∀ u ∈ es, u ∈ t.uuids) (h : Gives (es.foldlM (fun t e => do
      let m ← fresh (standIn child)
      liftM (t.insert e none m)) t) w t' w') :
    t'.Valid ∧ ∃ g, t' = { t with root := t.root.extend g } ∧
      (∀ u ∈ es, ∃ m, g u = [m] ∧ IsStandInFor child m ∧ m.uuid ∉ t.uuids) ∧ ∀ u, u ∉ es → g u = [] := by
  induction es generalizing t w with
  | nil =>
    rw [List.foldlM_nil, gives_pure] at h
    obtain ⟨rfl, -⟩ := h
    refine ⟨ht, fun _ => [], ?_, by simp, fun _ _ => rfl⟩
    rw [Node.extend_eq_self fun _ _ => rfl]
  | cons e es ih =>
    rw [List.nodup_cons] at hes
    simp only [List.foldlM_cons, gives_bind, gives_fresh, gives_liftM] at h
    obtain ⟨t₁, v, ⟨m, _, ⟨s, hm, rfl⟩, hinsert, rfl⟩, h⟩ := h
    obtain ⟨hstand, -⟩ := standIn_new hm
    obtain ⟨-, -, -, -, hjoins, -⟩ := Tree.insert_ok hinsert
    have hbehind : ∀ u ∈ es, u ∈ t.uuids := fun u hu => hmem u (List.mem_cons_of_mem _ hu)
    obtain ⟨hv, g, rfl, hg, hnone⟩ := ih (ht.insert hinsert) hes.2
      (fun u hu => Tree.mem_uuids_insert ht hinsert (hbehind u hu)) h
    refine ⟨hv, fun u => Node.solely e [m] u ++ g u,
      Tree.extend_insert ht hinsert fun u hu => hnone u fun hes => hu (hbehind u hes), fun u hu => ?_, fun u hu => ?_⟩
    · rcases List.mem_cons.1 hu with rfl | hu
      · exact ⟨m, by simp [hnone _ hes.1], hstand, hjoins.2.1 _ (Node.uuid_mem_uuids m.mem_all_self)⟩
      · have hne : u ≠ e := fun h => hes.1 (h ▸ hu)
        obtain ⟨m', hm', hstand', hnew⟩ := hg u hu
        refine ⟨m', by simp [Node.solely_of_ne hne, hm'], hstand', fun h => hnew ?_⟩
        exact Tree.mem_uuids_insert ht hinsert h
    · rw [List.mem_cons, not_or] at hu
      simp [Node.solely_of_ne hu.1, hnone u hu.2]

/-- Nodes are taken out, one after the other. -/
theorem withoutAll_of_detach {us : List Uuid} {t t' : Tree} (ht : t.Valid)
    (h : Gives (us.foldlM (fun (t : Tree) u => do return (← liftM (t.detach u)).2 : Tree → Uuid → Edit Tree) t)
      w t' w') : t'.Valid ∧ t' = { t with root := t.root.withoutAll us } := by
  induction us generalizing t w with
  | nil =>
    rw [List.foldlM_nil, gives_pure] at h
    obtain ⟨rfl, -⟩ := h
    exact ⟨ht, rfl⟩
  | cons u us ih =>
    simp only [List.foldlM_cons, gives_bind, gives_liftM, gives_pure] at h
    obtain ⟨t₁, v, ⟨⟨n, t₂⟩, _, ⟨hdetach, rfl⟩, rfl, rfl⟩, h⟩ := h
    obtain ⟨-, -, -, rfl⟩ := Tree.detach_ok hdetach
    obtain ⟨hv, rfl⟩ := ih (ht.detach hdetach) h
    exact ⟨hv, rfl⟩

/-- The elements of an array are different nodes. -/
theorem nodup_elements {t : Tree} (ht : t.uuids.Nodup) {a first : Node} (ha : a ∈ t.all)
    (hfirst : first ∈ a.children.head?) :
    first.uuid ∉ a.children.tail.map Node.uuid ∧ (a.children.tail.map Node.uuid).Nodup := by
  have huuids := (Node.map_uuid_sublist a.children).nodup (Node.nodup_below (Node.nodup_of_mem ha ht))
  obtain ⟨rest, hc⟩ := List.head?_eq_some_iff.1 hfirst
  rw [hc, List.map_cons, List.nodup_cons] at huuids
  rwa [hc]

/-- A new child of the first element of an array does not change the others. -/
theorem elements_of_insert {t t₁ : Tree} (ht : t.Valid) {a first child : Node} (ha : a ∈ t.all) (hak : a.kind = .array)
    (hfirst : first ∈ a.children) (hinsert : t.insert first.uuid none child = .ok t₁) :
    ((t₁.children a.uuid).drop 1).map Node.uuid = a.children.tail.map Node.uuid := by
  have hne : a.uuid ≠ first.uuid := fun hu => ht.kind_element ha hak hfirst (k := .array) (by decide)
    (Node.eq_of_uuid ht.nodup ha (Tree.mem_all_of_child ha hfirst) hu ▸ hak)
  have hroot := congrArg Tree.root (Tree.insert_eq_extend ht hinsert)
  rw [Tree.children_of_extend (ht.insert hinsert).nodup hroot ha (Node.solely_of_ne hne _), ← List.map_drop,
    List.map_map, List.drop_one]
  exact List.map_congr_left fun e _ => Node.uuid_extend e

/-- A new member of the first group of an array, and a stand-in for it in every other element. -/
theorem extended_of_member {t t' : Tree} (ht : t.Valid) {a first child : Node} (ha : a ∈ t.all) (hak : a.kind = .array)
    (hfirst : first ∈ a.children.head?) {u : Uuid} (hrun : Gives (do
      let t ← liftM (t.insert first.uuid none child)
      let elements := ((t.children a.uuid).drop 1).map Node.uuid
      let t ← elements.foldlM (fun t e => do
        let m ← fresh (standIn child)
        liftM (t.insert e none m)) t
      return (t, child.uuid) : Edit (Tree × Uuid)) w (t', u) w') :
    first.kind.allows child.kind = true ∧ child.Joins t.uuids ∧ t'.Valid ∧
      ∃ g, t' = { t with root := t.root.extend g } ∧ g first.uuid = [child] ∧
        (∀ v ∈ a.children.tail.map Node.uuid, ∃ m, g v = [m] ∧ IsStandInFor child m ∧ m.uuid ∉ t.uuids) ∧
        ∀ v, v ≠ first.uuid → v ∉ a.children.tail.map Node.uuid → g v = [] := by
  have hfa := List.mem_of_mem_head? hfirst
  simp only [gives_bind, gives_liftM, gives_pure, Prod.mk.injEq] at hrun
  obtain ⟨t₁, _, ⟨hinsert, rfl⟩, t₂, _, hfold, ⟨rfl, -⟩, rfl⟩ := hrun
  have hv₁ := ht.insert hinsert
  rw [elements_of_insert ht ha hak hfa hinsert] at hfold
  obtain ⟨p, hp, hpu, hallows, hjoins, -⟩ := Tree.insert_ok hinsert
  obtain rfl := Node.eq_of_uuid ht.nodup hp (Tree.mem_all_of_child ha hfa) hpu
  obtain ⟨hnotMem, hnodup⟩ := nodup_elements ht.nodup ha hfirst
  have htail : ∀ v ∈ a.children.tail.map Node.uuid, v ∈ t.uuids := fun v hv => by
    obtain ⟨e, he, rfl⟩ := List.mem_map.1 hv
    exact Node.uuid_mem_uuids (Tree.mem_all_of_child ha (List.mem_of_mem_tail he))
  obtain ⟨hv₂, g, rfl, hg, hnone⟩ := extend_of_standIns hv₁ hnodup
    (fun v hv => Tree.mem_uuids_insert ht hinsert (htail v hv)) hfold
  refine ⟨hallows, hjoins, hv₂, fun v => Node.solely p.uuid [child] v ++ g v,
    Tree.extend_insert ht hinsert fun v hv => hnone v fun hes => hv (htail v hes),
    by simp [hnone _ hnotMem], fun v hv => ?_, fun v hv hvt => ?_⟩
  · obtain ⟨m, hm, hstand, hfresh⟩ := hg v hv
    have hne : v ≠ p.uuid := fun hvp => hnotMem (hvp ▸ hv)
    exact ⟨m, by simp [Node.solely_of_ne hne, hm], hstand, fun hmt => hfresh (Tree.mem_uuids_insert ht hinsert hmt)⟩
  · simp [Node.solely_of_ne hv, hnone v hvt]

section

variable (h : (w.tree .parameters).Consistent)
include h

/-! ### Adding -/

/-- A new child of a node that is no array. -/
theorem evolves_insertNode {p child : Node} {row : Option Nat} {u : Uuid} (hp : p ∈ (w.tree .parameters).all)
    (hpk : p.kind ≠ .array) (hage : p.kind ≠ .arrayGroupElement)
    (hshared : child.kind = .parameter → (w.tree .parameters).isFirstElement p.uuid = false)
    (hleaf : child.children = [] ∧ (child.kind = .array → child.int .length = 0))
    (hrun : Gives (insertNode .parameters p.uuid row child) w u w') :
    (w.tree .parameters).Evolves True (w'.tree .parameters) := by
  obtain ⟨t, r, v, a, hinsert, hc, -⟩ := insertNode_ok hrun
  have hv := h.valid.insert hinsert
  rw [tree_of_commit hc hv]
  obtain ⟨p', hp', hpu, hallows, -, rfl⟩ := Tree.insert_ok hinsert
  obtain rfl := Node.eq_of_uuid h.valid.nodup hp' hp hpu
  refine Tree.evolves_addChild h hp hpk (fun _ => h.isApart hallows hage fun hm => ?_) hleaf.1 hleaf.2 hv
  refine hshared ?_
  simp only [Node.isMember, Bool.or_eq_true, beq_iff_eq] at hm
  refine hm.resolve_right fun hk => ?_
  rw [hk] at hallows
  exact (Tree.kind_of_allows_standIn hallows).elim hpk hage

/-- A parameter in the first group of an array. -/
theorem evolves_addShared {p child : Node} {scope u : Uuid} (hp : p ∈ (w.tree .parameters).all)
    (hshared : (w.tree .parameters).isFirstElement p.uuid = true) (hk : child.kind = .parameter)
    (hleaf : child.children = [])
    (hscope : scope = (((w.tree .parameters).parent? p.uuid).map Node.uuid).getD p.uuid)
    (hrun : Gives (transaction .parameters scope fun t => do
      let t ← liftM (t.insert p.uuid none child)
      let elements := ((t.children scope).drop 1).map Node.uuid
      let t ← elements.foldlM (fun t e => do
        let m ← fresh (standIn child)
        liftM (t.insert e none m)) t
      return (t, child.uuid)) w u w') :
    (w.tree .parameters).Evolves True (w'.tree .parameters) := by
  have hnt := h.valid.nodup
  obtain ⟨a, ha, hak, hfirst⟩ := Tree.exists_array_of_isFirstElement hnt hp hshared
  rw [Tree.parent?_of_child hnt ha (List.mem_of_mem_head? hfirst), Option.map_some, Option.getD_some] at hscope
  subst hscope
  obtain ⟨t, v, hrun, hput⟩ := tree_of_transaction hrun
  obtain ⟨hallows, -, hv, g, rfl, hself, hg, hnone⟩ := extended_of_member h.valid ha hak hfirst hrun
  rw [hput hv]
  refine Tree.evolves_extend h ha hak hfirst (h.group_of_allows ha hak hfirst hallows) hk hleaf hself
    (fun e he => ?_) hnone hv
  obtain ⟨m, hm, hstand, -⟩ := hg e.uuid (List.mem_map_of_mem he)
  exact ⟨m, hm, hstand.kind, hstand.leaf, hstand.original⟩

/-- A new node where it is offered. -/
theorem evolves_addParameter {p child : Node} {u : Uuid} (hp : p ∈ (w.tree .parameters).all)
    (hage : p.kind ≠ .arrayGroupElement)
    (harray : p.kind = .array → p.children = [] ∧ (child.kind = .parameter ∨ child.kind = .group))
    (hleaf : child.children = [] ∧ (child.kind = .array → child.int .length = 0))
    (hrun : Gives (addParameter p.uuid child) w u w') :
    (w.tree .parameters).Evolves True (w'.tree .parameters) := by
  simp only [addParameter, gives_bind, gives_tree, gives_liftM] at hrun
  obtain ⟨_, _, ⟨rfl, rfl⟩, p', _, ⟨hfind, rfl⟩, hrun⟩ := hrun
  obtain ⟨hp', hpu⟩ := Tree.mem_of_find? (Tree.node_eq_ok.1 hfind)
  obtain rfl := Node.eq_of_uuid h.valid.nodup hp hp' hpu.symm
  split at hrun
  · rename_i hplain
    refine evolves_insertNode h hp hplain.1 hage (fun hk => ?_) hleaf hrun
    show (w.models.tree .parameters).isFirstElement p.uuid = false
    simpa [hk] using hplain.2
  · rename_i hspecial
    by_cases hpk : p.kind = .array
    · obtain ⟨hempty, hk⟩ := harray hpk
      obtain ⟨t, v, hrun, hput⟩ := tree_of_transaction hrun
      simp only [gives_bind, gives_liftM, if_pos hpk, gives_pure, Prod.mk.injEq] at hrun
      obtain ⟨t₁, _, ⟨hinsert, rfl⟩, ⟨rfl, -⟩, rfl⟩ := hrun
      have hv := h.valid.insert hinsert
      obtain ⟨-, -, -, -, -, rfl⟩ := Tree.insert_ok hinsert
      have hevolves := Tree.evolves_addFirst (c := True) h hp hpk hempty hleaf.1 hk hv
      rwa [hput hevolves.consistent.valid]
    · have hshared : ((w.models.tree .parameters).isFirstElement p.uuid && child.kind == .parameter) = true := by
        simpa [hpk] using hspecial
      have hboth := hshared
      rw [Bool.and_eq_true, beq_iff_eq] at hboth
      simp only [if_neg hpk, hshared, if_true] at hrun
      exact evolves_addShared h hp hboth.1 hboth.2 hleaf.1 rfl hrun

theorem evolves_addChild {parent u : Uuid} {kind : Kind}
    (hrun : Gives (addChild .parameters parent kind) w u w') :
    (w.tree .parameters).Evolves True (w'.tree .parameters) := by
  simp only [addChild, gives_bind, gives_models, gives_liftM, gives_unless, gives_build, if_true] at hrun
  obtain ⟨_, _, ⟨rfl, rfl⟩, p, _, ⟨hfind, rfl⟩, hoffered, child, _, ⟨s, hnew, rfl⟩, hrun⟩ := hrun
  obtain ⟨hp, rfl⟩ := Tree.mem_of_find? (Tree.node_eq_ok.1 hfind)
  have hmem : kind ∈ (Rules.ofTree .parameters).addable (w.models.tree .parameters) p := by simpa using hoffered
  obtain ⟨hage, harray⟩ := Rules.Parameters.of_mem_addable hmem
  have hleaf := Rules.Parameters.newChild_leaf (t := w.tree .parameters) (l := w.models.others .parameters) hnew
  obtain ⟨hkind, -⟩ := Rules.produces_newChild .parameters _ p kind _ _ _ _ hnew
  exact evolves_addParameter (w := w.withSupply s) h hp hage (fun hk => hkind ▸ harray hk) hleaf hrun

/-! ### Deleting -/

omit h in
/-- A node that may be deleted is in no element of an array but the first. -/
theorem kind_of_canDelete {p n : Node} {t : Tree} (ht : t.Valid) (hp : p ∈ t.all) (hn : n ∈ p.children)
    (hcan : Rules.Parameters.canDelete t n = true) :
    p.kind ≠ .arrayGroupElement ∧ (p.kind = .array → p.children.getLast? = some n) := by
  rw [Rules.Parameters.canDelete, Tree.parent?_of_child ht.nodup hp hn] at hcan
  simp only [Bool.and_eq_true, Bool.or_eq_true, bne_iff_ne, Bool.not_eq_true'] at hcan
  refine ⟨fun hk => ?_, fun hk => ?_⟩
  · rw [Tree.isGenerated_of_element ht hp hn hk] at hcan
    simp at hcan
  · obtain ⟨x, hx, hu⟩ := (Option.any_eq_true ..).1 (hcan.2.resolve_left (fun h => h hk))
    have hxp := List.mem_of_getLast? hx
    rw [hx, Node.eq_of_uuid ht.nodup (Tree.mem_all_of_child hp hxp) (Tree.mem_all_of_child hp hn) (by simpa using hu)]

omit h in
/-- What goes with a child of the first group of an array. -/
theorem mem_standIns {t : Tree} (ht : t.uuids.Nodup) {a n x : Node} (ha : a ∈ t.all) (hn : n ∈ t.all)
    (hx : x ∈ t.all) : x.uuid ∈ standIns t a.uuid n.uuid ++ [n.uuid] ↔ Tree.GoesWith a n x := by
  simp only [standIns, Tree.descendants_of_mem ht ha, List.mem_append, List.mem_map, List.mem_filter,
    List.mem_singleton, Bool.and_eq_true, beq_iff_eq]
  constructor
  · rintro (⟨y, ⟨hy, hyk⟩, hyx⟩ | hu)
    · obtain rfl := Node.eq_of_uuid ht (Node.mem_all_trans hy ha) hx hyx
      exact .inl ⟨hy, hyk⟩
    · exact .inr (Node.eq_of_uuid ht hx hn hu)
  · rintro (⟨hxa, hxk⟩ | rfl)
    · exact .inl ⟨x, ⟨hxa, hxk⟩, rfl⟩
    · exact .inr rfl

/-- A node goes that is in no element of an array but the first. -/
theorem evolves_removeParameter {n : Node} {a : Unit} (hn : n ∈ (w.tree .parameters).all)
    (hcan : Rules.Parameters.canDelete (w.tree .parameters) n = true)
    (hrun : Gives (removeParameter n.uuid) w a w') :
    (w.tree .parameters).Evolves True (w'.tree .parameters) := by
  have hnt := h.valid.nodup
  simp only [removeParameter, gives_bind, gives_tree] at hrun
  obtain ⟨_, _, ⟨rfl, rfl⟩, hrun⟩ := hrun
  split at hrun
  · exact absurd hrun gives_throw
  rename_i p hparent
  obtain ⟨hp, n', hn', hnu⟩ := (Tree.parent?_eq_some hnt).1 hparent
  obtain rfl := Node.eq_of_uuid hnt (Tree.mem_all_of_child hp hn') hn hnu
  obtain ⟨hage, hlast⟩ := kind_of_canDelete h.valid hp hn' hcan
  have hallows := h.valid.allowed p hp n' hn'
  split at hrun
  · rename_i hplain
    obtain ⟨_, t, v, hdetach, hc, -⟩ := removeNode_ok hrun
    have hv := h.valid.detach hdetach
    rw [tree_of_commit hc hv]
    obtain ⟨-, -, -, rfl⟩ := Tree.detach_ok hdetach
    have hno : (w.models.tree .parameters).isFirstElement p.uuid = false := by simpa using hplain.2
    exact Tree.evolves_without h hp hn' hplain.1 (fun _ => h.isApart hallows hage fun _ => hno) hv
  · rename_i hspecial
    obtain ⟨t, v, hrun, hput⟩ := tree_of_transaction hrun
    simp only [gives_bind, gives_pure, Prod.mk.injEq] at hrun
    obtain ⟨t₁, _, hfold, ⟨rfl, -⟩, rfl⟩ := hrun
    obtain ⟨hv, rfl⟩ := withoutAll_of_detach h.valid hfold
    by_cases hpk : p.kind = .array
    · have hno : (w.models.tree .parameters).isFirstElement p.uuid = false := h.isFirstElement_array hp hpk
      simp only [hno, Bool.false_eq_true, if_false, List.nil_append, if_pos hpk] at hput hv ⊢
      have hevolves := Tree.evolves_withoutLast (c := True) h hp hpk (hlast hpk) hv
      rwa [hput hevolves.consistent.valid]
    · have hshared : (w.models.tree .parameters).isFirstElement p.uuid = true := by
        simpa [hpk] using hspecial
      obtain ⟨a, ha, hak, hfirst⟩ := Tree.exists_array_of_isFirstElement hnt hp hshared
      have hs : (w.tree .parameters).IsShared a p n' := ⟨ha, hak, hfirst, hn'⟩
      simp only [hshared, if_true, if_neg hpk] at hput hv
      rw [hput hv]
      have hscope : (((w.models.tree .parameters).parent? p.uuid).map Node.uuid).getD p.uuid = a.uuid := by
        rw [show (w.models.tree .parameters).parent? p.uuid = some a from Tree.parent?_of_child hnt ha hs.element]
        rfl
      exact Tree.evolves_withoutShared h hs (fun x hx => hscope ▸ mem_standIns hnt ha hn hx) hv

theorem evolves_delete {u : Uuid} (hrun : Gives (delete .parameters u) w () w') :
    (w.tree .parameters).Evolves True (w'.tree .parameters) := by
  simp only [delete, gives_bind, gives_tree, gives_liftM, gives_unless_told, if_true] at hrun
  obtain ⟨_, _, ⟨rfl, rfl⟩, n, _, ⟨hfind, rfl⟩, hcan, hrun⟩ := hrun
  obtain ⟨hn, rfl⟩ := Tree.mem_of_find? (Tree.node_eq_ok.1 hfind)
  rw [not_or, Bool.not_eq_true', Bool.not_eq_false] at hcan
  exact evolves_removeParameter h hn hcan.2 hrun

/-! ### Moving -/

omit h in
/-- What is looked for is what is dropped. -/
theorem uuid_of_dropSource {k : TreeKind} {target n : Node} {source : Uuid} {internal : Bool}
    (hrun : Gives (dropSource k target source) w (n, internal) w') : n.uuid = source := by
  simp only [dropSource, gives_bind, gives_models] at hrun
  obtain ⟨_, _, ⟨rfl, rfl⟩, hrun⟩ := hrun
  split at hrun
  · rename_i m hm
    obtain ⟨hpair, -⟩ := gives_pure.1 hrun
    cases hpair
    exact (Tree.mem_of_find? hm).2
  · simp only [gives_bind, gives_liftM, gives_unless_told, gives_pure] at hrun
    obtain ⟨m, _, ⟨hm, rfl⟩, -, hpair, -⟩ := hrun
    cases hpair
    exact uuid_of_node hm

omit h in
/-- A field goes by the key of its attribute. -/
theorem key_of_field {k : TreeKind} {u : Uuid} {name : String} {f : Field} (hrun : Gives (field k u name) w f w') :
    f.attr.key = name := by
  simp only [field, gives_bind, gives_tree, gives_liftM] at hrun
  obtain ⟨_, _, ⟨rfl, rfl⟩, n, _, ⟨-, rfl⟩, hrun⟩ := hrun
  split at hrun
  · rename_i f' hf
    obtain ⟨rfl, -⟩ := gives_pure.1 hrun
    obtain ⟨a, ha, hfa⟩ := Option.bind_eq_some_iff.1 hf
    have hkey := List.find?_some ha
    have hattr := List.find?_some hfa
    rw [beq_iff_eq] at hkey hattr
    rw [hattr, hkey]
  · exact absurd hrun gives_throw

/-- Whether a drop of `source` on `target` leaves alone which parameters are in the first elements of
arrays. -/
def KeepsMembers (t : Tree) (source target : Uuid) : Prop :=
  ∀ n ∈ t.all, n.uuid = source → n.kind = .parameter →
    t.isFirstElement target = false ∧ ∀ q, t.parent? source = some q → t.isFirstElement q.uuid = false

omit h in
/-- What is moved is no element of an array, is in none but the first, and comes into none but the first. -/
theorem kind_of_canMove {t : Tree} {p q n : Node} (ht : t.Valid) (hq : q ∈ t.all) (hn : n ∈ q.children)
    (hcan : t.canMove p n = true) : (p.kind ≠ .array ∧ p.kind ≠ .arrayGroupElement) ∧
      (q.kind ≠ .array ∧ q.kind ≠ .arrayGroupElement) ∧ p.kind.allows n.kind = true := by
  simp only [Tree.canMove, Bool.and_eq_true, Bool.not_eq_true', Bool.or_eq_false_iff, beq_eq_false_iff_ne,
    Tree.parentKind?, Tree.parent?_of_child ht.nodup hq hn, Option.map_some, Option.any_some] at hcan
  obtain ⟨⟨⟨⟨⟨⟨-, hallows⟩, hgenerated⟩, -⟩, -⟩, ⟨hp, hpe⟩, -⟩, hqk, -⟩ := hcan
  refine ⟨⟨hp, hpe⟩, ⟨hqk, fun hk => ?_⟩, hallows⟩
  rw [Tree.isGenerated_of_element ht hq hn hk] at hgenerated
  cases hgenerated

theorem evolves_moveNode {p n : Node} {row : Option Nat} {a : Unit} (hp : p ∈ (w.tree .parameters).all)
    (hn : n ∈ (w.tree .parameters).all) (hcan : (w.tree .parameters).canMove p n = true)
    (hrun : Gives (moveNode .parameters n.uuid p.uuid row) w a w') :
    (w.tree .parameters).Evolves (KeepsMembers (w.tree .parameters) n.uuid p.uuid) (w'.tree .parameters) := by
  have hnt := h.valid.nodup
  obtain ⟨t, v, hmove, hc, -⟩ := moveNode_ok hrun
  rw [tree_of_commit hc (h.valid.move hmove)]
  obtain ⟨-, -, -, -, -, -, hr, -⟩ := Tree.move_ok hmove
  obtain ⟨q, hq, hnq⟩ := Node.exists_parent hn fun hroot => hr (congrArg Node.uuid hroot)
  obtain ⟨⟨hpk, hpe⟩, ⟨hqk, hqe⟩, hallows⟩ := kind_of_canMove h.valid hq hnq hcan
  refine Tree.evolves_move h hp hq hnq hpk hqk (fun hkeeps => ?_) hmove
  have hmember : n.isMember = true → n.kind = .parameter := fun hm => by
    simp only [Node.isMember, Bool.or_eq_true, beq_iff_eq] at hm
    refine hm.resolve_right fun hk => ?_
    rw [hk] at hallows
    exact (Tree.kind_of_allows_standIn hallows).elim hpk hpe
  have hfirsts := fun hm => hkeeps n hn rfl (hmember hm)
  exact ⟨h.isApart hallows hpe fun hm => (hfirsts hm).1,
    h.isApart (h.valid.allowed q hq n hnq) hqe fun hm => (hfirsts hm).2 q (Tree.parent?_of_child hnt hq hnq)⟩

/-- What is dropped is moved, for there is nothing in the parameter tree that is copied from elsewhere. -/
theorem evolves_drop {payload : List Nat} {target u : Uuid} {row : Option Nat}
    (hrun : Gives (drop .parameters payload target row) w u w') :
    ∃ source, readPayload payload = .ok source ∧
      (w.tree .parameters).Evolves (KeepsMembers (w.tree .parameters) source target) (w'.tree .parameters) := by
  simp only [drop, dropNode, gives_bind, gives_models, gives_liftM, gives_unless_told] at hrun
  obtain ⟨source, _, ⟨hpayload, rfl⟩, _, _, ⟨rfl, rfl⟩, p, _, ⟨hfind, rfl⟩, ⟨n, internal⟩, _, hsource, hdrop,
    hrun⟩ := hrun
  refine ⟨source, hpayload, ?_⟩
  obtain ⟨hp, rfl⟩ := Tree.mem_of_find? (Tree.node_eq_ok.1 hfind)
  have hnu := uuid_of_dropSource hsource
  obtain ⟨rfl, hinternal, hmem⟩ := internal_of_dropSource hsource
  have hcan : (w.tree .parameters).canMove p n = true := by
    rw [Bool.not_eq_true', Bool.not_eq_false] at hdrop
    exact hdrop
  have hhere : internal = true := by
    rw [hinternal]
    simp only [Tree.canMove, Bool.and_eq_true] at hcan
    exact hcan.1.1.1.1.1.1.1.1.1
  rw [if_pos ⟨hhere, hcan⟩] at hrun
  simp only [gives_bind, gives_logNode, gives_pure] at hrun
  obtain ⟨a, v, hmove, -, -, rfl, -, rfl⟩ := hrun
  have hevolves := evolves_moveNode h hp (hmem hhere) hcan hmove
  exact hnu ▸ hevolves

/-! ### Lengths, attributes and tables -/

theorem evolves_setArrayLength {u : Uuid} {length : Nat} (hrun : Gives (setArrayLength u length) w () w') :
    (w.tree .parameters).Evolves True (w'.tree .parameters) := by
  simp only [setArrayLength, gives_bind, gives_tree] at hrun
  obtain ⟨_, _, ⟨rfl, rfl⟩, hrun⟩ := hrun
  split at hrun
  · exact absurd hrun gives_throw
  · rename_i a ha
    obtain ⟨hfind, hk⟩ := Option.filter_eq_some_iff.1 ha
    obtain ⟨ham, rfl⟩ := Tree.mem_of_find? hfind
    obtain ⟨t, v, hrun, hput⟩ := tree_of_transaction hrun
    simp only [gives_bind, gives_build, gives_pure, Prod.mk.injEq] at hrun
    obtain ⟨b, _, ⟨s, hresized, rfl⟩, ⟨rfl, -⟩, rfl⟩ := hrun
    have hevolves := Tree.evolves_resized (c := True) h ham (by simpa using hk) (issued_offered h.valid.nodup) hresized
    rwa [hput hevolves.consistent.valid]

/-- An attribute that is neither the length of an array nor an original. -/
theorem evolves_setAttribute {u : Uuid} {name : String} {v : Value} (horiginal : name ≠ Attr.original.key)
    (hlength : name = Attr.length.key → ∀ n ∈ (w.tree .parameters).all, n.uuid = u → n.kind ≠ .array)
    (hrun : Gives (setAttribute .parameters u name v) w () w') :
    (w.tree .parameters).Evolves True (w'.tree .parameters) := by
  simp only [setAttribute, gives_bind, gives_unless, gives_tree, gives_liftM] at hrun
  obtain ⟨f, _, hfield, -, _, _, ⟨rfl, rfl⟩, n, _, ⟨hfind, rfl⟩, hrun⟩ := hrun
  have hkey := key_of_field hfield
  obtain rfl := field_ok hfield
  obtain ⟨hn, rfl⟩ := Tree.mem_of_find? (Tree.node_eq_ok.1 hfind)
  split at hrun
  · exact absurd hrun gives_throw
  · rename_i d hd
    have hevolves : (w.tree .parameters).Evolves True ((w.tree .parameters).modify n.uuid fun _ => d) := by
      refine Tree.evolves_setData h hn (Data.kind_set hd) (Data.get?_set_of_ne (fun h => horiginal ?_) hd)
        fun hk => Data.get?_set_of_ne (fun h => hlength ?_ n hn rfl hk) hd
      · rw [← hkey, h]
      · rw [← hkey, h]
    have hvalid := hevolves.consistent.valid
    simp only [gives_bind, gives_model, gives_setModel, gives_build, gives_tell] at hrun
    obtain ⟨_, _, ⟨rfl, rfl⟩, _, _, rfl, t, _, ⟨s, hs, rfl⟩, _, _, rfl, rfl⟩ := hrun
    obtain ⟨s₀, -, rfl, hput⟩ := puts_of_updateLayout hvalid hs
    have hsame : (((w.tree .parameters).modify n.uuid fun _ => d).relaidOut s₀).1 =
        (w.tree .parameters).modify n.uuid fun _ => d := by
      simp only [Tree.relaidOut, show ((w.tree .parameters).modify n.uuid fun _ => d).kind = .parameters from h.kind]
      rfl
    exact Eq.subst (motive := Tree.Evolves True (w.tree .parameters)) (hput.tree.trans hsame).symm hevolves

theorem evolves_expandTable {u : Uuid} {e : Expansion} (hrun : Gives (expandTable .parameters u) w e w') :
    (w.tree .parameters).Evolves True (w'.tree .parameters) := by
  obtain ⟨t, s, hexpand, hput⟩ := expandTable_ok h.valid hrun
  obtain ⟨a, ha, rfl, hk, ns, hstands, rfl, hvalid⟩ :=
    Tree.expandTable_ok h.valid (issued_offered h.valid.nodup) hexpand
  rw [hput.tree]
  refine Tree.evolves_setChildren h ha (by simp [hk]) (fun q hq hqk haq => ?_) (fun d hd b hb hbk => ?_) hvalid
  · exact h.valid.kind_element hq hqk haq (k := .table) (by decide) hk
  · rcases List.mem_append.1 hd with hd | hd
    · exact Node.mem_all_trans hb (Tree.mem_all_of_child ha (List.mem_of_mem_filter hd))
    · obtain ⟨hgen, hallowed⟩ := TableExpansion.allowed_of_stands hstands d hd
      have hb := TableExpansion.isGenerated_of_mem hallowed hgen hb
      rw [TableExpansion.IsGenerated, hbk] at hb
      simp at hb

end

end Edit

end DeviceModel
