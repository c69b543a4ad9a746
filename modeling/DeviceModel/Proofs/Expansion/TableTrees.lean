import DeviceModel.Proofs.Expansion.Tables
import DeviceModel.Proofs.Tree.Validity
import DeviceModel.Proofs.Workspace.Outcomes

/-!
Parameter trees whose tables are settled. Main statements: expanding one table settles it and leaves the
others settled (`unsettled_expandTable`), and expanding a settled one changes nothing
(`expandTable_settled`).
-/

namespace DeviceModel

namespace TableExpansion

open Scheme

/-! ### Changes elsewhere -/

section

variable {g : Node → Node} (hu : ∀ n, (g n).uuid = n.uuid) (hd : ∀ n, (g n).data = n.data)
include hu hd

theorem ofLeaves_map (i : Option Nat) (ms : List Node) : ofLeaves i (ms.map g) = ofLeaves i ms := by
  induction ms with
  | nil => rfl
  | cons m ms ih => simp only [List.map_cons, ofLeaves, ih, hu, Node.name, Node.text?, hd]

omit hu in
theorem members_map {n : Node} (hc : (g n).children = n.children.map g) :
    members (g n) = (members n).map g := by
  rw [members, members, hc, List.filter_map]
  congr 1
  apply List.filter_congr
  intro m _
  simp only [Function.comp_apply, Node.kind, hd]

theorem ofElements_map {es : List Node} (hc : ∀ e ∈ es, isGroup e = true → (g e).children = e.children.map g)
    (i : Nat) : ofElements i (es.map g) = ofElements i es := by
  induction es generalizing i with
  | nil => rfl
  | cons e es ih =>
    have hg : isGroup (g e) = isGroup e := by simp only [isGroup, Node.kind, hd]
    rw [List.map_cons, ofElements, ofElements, hg, ih (fun f hf => hc f (List.mem_cons_of_mem _ hf))]
    simp only [hu, Node.name, Node.text?, hd]
    split
    · rename_i he
      rw [members_map hd (hc e (List.mem_cons_self ..) he), ofLeaves_map hu hd]
    · rfl

variable {P : Node → Prop} (hP : ∀ n, P n → ∀ c ∈ n.children, P c)
  (hc : ∀ n, P n → n.kind ≠ .table → (g n).children = n.children.map g)
include hP hc

theorem ofSource_map {s : Node} (hs : P s) : ofSource (g s) = ofSource s := by
  have hk : (g s).kind = s.kind := by rw [Node.kind, hd, Node.kind]
  rw [ofSource, ofSource, hk]
  split
  · rename_i h
    rw [members_map hd (hc s hs (by simp [h])), ofLeaves_map hu hd]
  · rename_i h
    rw [hc s hs (by simp [h]), ofElements_map hu hd]
    intro e he hg
    exact hc e (hP s hs e he) fun h => by simp [isGroup, h] at hg
  · rfl

theorem ofRow_map {ss : List Node} (hs : ∀ s ∈ ss, P s) : ofRow (ss.map g) = ofRow ss := by
  induction ss with
  | nil => rfl
  | cons s ss ih =>
    simp only [List.map_cons, ofRow, hu, Node.name, hd, ih fun t ht => hs t (List.mem_cons_of_mem _ ht),
      ofSource_map hu hd hP hc (hs s (List.mem_cons_self ..))]

omit hP hc in
theorem ofAxis_map (inner : Scheme) (es : List Node) : ofAxis inner (es.map g) = ofAxis inner es := by
  induction es with
  | nil => rfl
  | cons e es ih => simp only [List.map_cons, ofAxis, hu, Node.name, hd, ih]

theorem ofLevels_map {ss : List Node} (hs : ∀ s ∈ ss, P s) (axes : List (List Node)) :
    ofLevels (ss.map g) (axes.map (List.map g)) = ofLevels ss axes := by
  induction axes with
  | nil => exact ofRow_map hu hd hP hc hs
  | cons es axes ih => rw [List.map_cons, ofLevels, ofLevels, ih, ofAxis_map hu hd]

/-- A scheme stays under changes that keep the attributes of nodes, and the children of all but tables. -/
theorem scheme_map {table : Node} (ht : P table) :
    scheme { table with children := table.children.map g } = scheme table := by
  have hfilter : ∀ p : Kind → Bool, (table.children.map g).filter (p ·.kind) =
      (table.children.filter (p ·.kind)).map g := by
    intro p
    rw [List.filter_map]
    congr 1
    apply List.filter_congr
    intro m _
    simp only [Function.comp_apply, Node.kind, hd]
  have haxes : axes { table with children := table.children.map g } = (axes table).map (List.map g) := by
    rw [axes, axes, hfilter (· == .enumeration), List.map_map, List.map_map]
    apply List.map_congr_left
    intro e he
    obtain ⟨hm, hk⟩ := List.mem_filter.1 he
    exact hc e (hP table ht e hm) fun h => by simp [h] at hk
  rw [scheme, scheme, haxes, sources, sources, hfilter fun k => k == .array || k == .group]
  exact ofLevels_map hu hd hP hc (fun s hs => hP table ht s (List.mem_of_mem_filter hs)) _

end

/-! ### Trees -/

/-- A table stays settled when another gets other children. -/
theorem settled_edit {t : Tree} (ht : t.Valid) {a b : Node} (ha : a ∈ t.all)
    (hb : b ∈ t.all) (hbk : b.kind = .table) (hab : a.uuid ≠ b.uuid) (h : Settled a) (cs : List Node) :
    Settled (a.edit b.uuid fun n => { n with children := cs }) := by
  have hu := fun n : Node => Node.uuid_edit (n := n) (u := b.uuid)
    (f := fun n => { n with children := cs }) fun h => h
  have hd : ∀ n : Node, (n.edit b.uuid fun n => { n with children := cs }).data = n.data := by
    intro n
    by_cases h : n.uuid = b.uuid
    · rw [Node.edit_self h]
    · rw [Node.edit_of_ne h]
  have hc : ∀ n ∈ t.all, n.kind ≠ .table → (n.edit b.uuid fun n => { n with children := cs }).children =
      n.children.map (Node.edit b.uuid fun n => { n with children := cs }) := by
    intro n hn hk
    rw [Node.edit_of_ne fun h => hk (Node.eq_of_uuid ht.nodup hn hb h ▸ hbk)]
  have hkind : ∀ n : Node, (n.edit b.uuid fun n => { n with children := cs }).kind = n.kind := by
    intro n
    rw [Node.kind, hd, Node.kind]
  -- What has been generated does not hold the other table.
  have hgen : (generated a).map (Node.edit b.uuid fun n => { n with children := cs }) = generated a := by
    apply Node.map_edit_of_notMem
    intro n hn hnb
    obtain ⟨m, hm, hmb⟩ := Node.mem_uuids.1 hnb
    have hna := Tree.mem_all_of_child ha (List.mem_of_mem_filter hn)
    have hmk := isGenerated_of_mem (ht.allowedRoot.of_mem hna)
      (.inl (by simpa using (List.mem_filter.1 hn).2)) hm
    rw [IsGenerated, Node.eq_of_uuid ht.nodup (Node.mem_all_trans hm hna) hb hmb, hbk] at hmk
    simp at hmk
  rw [Node.edit_of_ne hab]
  have hgenerated : generated { a with children := a.children.map (Node.edit b.uuid fun n =>
      { n with children := cs }) } = generated a := by
    rw [generated, List.filter_map, List.filter_congr (fun n _ => by
      rw [Function.comp_apply, hkind] : ∀ n ∈ a.children, _ = (n.kind == .tableGroupElement))]
    exact hgen
  refine ⟨?_, ?_⟩
  · rw [hgenerated, kept, List.filter_map, List.filter_congr (fun n _ => by
      rw [Function.comp_apply, hkind] : ∀ n ∈ a.children, _ = (n.kind != .tableGroupElement)), ← hgen,
      ← List.map_append]
    exact congrArg _ h.order
  · rw [hgenerated, scheme_map hu hd (fun n hn c hc => Tree.mem_all_of_child hn hc) hc ha]
    exact h.stands

end TableExpansion

namespace Tree

open TableExpansion

theorem gives_expandTable {t t' : Tree} {u : Uuid} {s s' : Supply} {e : Expansion} :
    Gives (t.expandTable u) s (t', e) s' ↔ ∃ a, (t.find? u = some a ∧ a.kind = .table) ∧
      ∃ b, expand a s = ((b, e), s') ∧ t' = t.edit u fun _ => b := by
  have htable : ∀ a, Shape.tableNode t u = .ok a ↔ t.find? u = some a ∧ a.kind = .table := by
    intro a
    unfold Shape.tableNode
    rw [← node_eq_ok]
    cases t.node u with
    | error x => exact iff_of_false (fun h => by cases h) fun h => by cases h.1
    | ok n =>
      simp only [bind, Except.bind, Except.ok.injEq]
      split
      · rename_i hk
        exact ⟨fun h => by cases h; exact ⟨rfl, hk⟩, fun h => h.1 ▸ rfl⟩
      · rename_i hk
        exact iff_of_false (by simp) fun h => hk (h.1 ▸ h.2)
  simp only [expandTable, gives_bind, gives_liftM, gives_liftM_state, gives_pure, htable, Prod.mk.injEq]
  constructor
  · rintro ⟨a, _, ⟨ha, rfl⟩, ⟨b, _⟩, _, hb, ⟨rfl, rfl⟩, rfl⟩
    exact ⟨a, ha, b, hb, rfl⟩
  · rintro ⟨a, ha, b, hb, rfl⟩
    exact ⟨a, s, ⟨ha, rfl⟩, (b, e), s', hb, ⟨rfl, rfl⟩, rfl⟩

/-- All tables are settled but those of `us`. -/
def Unsettled (us : List Uuid) (t : Tree) : Prop :=
  ∀ a ∈ t.all, a.kind = .table → a.uuid ∈ us ∨ Settled a

section

variable {t t' : Tree} (ht : t.Valid) {u : Uuid} {s s' : Supply} {e : Expansion}
include ht

omit ht in
theorem children_perm (a : Node) :
    (generated a ++ kept a).Perm a.children := List.filter_append_perm _ _

omit ht in
theorem pool_start (a : Node) : (start a).pool.Perm ((generated a).flatMap Node.uuids) := by
  have hperm := (Node.postorder_each_perm (generated a)).map Node.uuid
  rwa [List.map_flatMap] at hperm

/-- What expanding a table makes of the tree. -/
theorem expandTable_ok (hs : s.Issued t.uuids) (h : Gives (t.expandTable u) s (t', e) s') :
    ∃ a ∈ t.all, a.uuid = u ∧ a.kind = .table ∧ ∃ ns, Stands (scheme a) [] ns ∧
      t' = t.setChildren u (kept a ++ ns) ∧ t'.Valid := by
  obtain ⟨a, ⟨ha, hk⟩, b, hb, rfl⟩ := gives_expandTable.1 h
  obtain ⟨ham, rfl⟩ := mem_of_find? ha
  have hstands := (stands_realize (scheme a) [] (start a) s trivial).1
  have hcarries := carries_realize (scheme a) [] (start a) s
  rcases hrun : realize (scheme a) [] (start a) s with ⟨⟨ns, st⟩, s₁⟩
  rw [hrun] at hstands hcarries
  obtain ⟨rfl⟩ : b = { a with children := kept a ++ ns } :=
    congrArg (fun r => r.1.1) (hb.symm.trans (expand_eq hrun))
  have hset := edit_eq_setChildren ht.nodup ham (kept a ++ ns)
  refine ⟨a, ham, rfl, hk, ns, hstands, hset, ?_⟩
  rw [hset]
  apply ht.setChildren ham
  · intro c hc
    rw [hk]
    rcases List.mem_append.1 hc with hc | hc
    · have hca := List.mem_of_mem_filter hc
      exact ⟨hk ▸ ht.allowed a ham c hca, ht.allowedRoot.of_mem (mem_all_of_child ham hca)⟩
    · exact ⟨by rw [kind_scheme hstands c hc]; rfl, (allowed_of_stands hstands c hc).2⟩
  · -- The identifiers that can be taken up are those of the generated children.
    obtain ⟨outside, hold, hnew⟩ := exists_outside ht.nodup ham
    have hpool := pool_start a
    have hold' := hold.trans (((children_perm a).symm.flatMap_right _).append_right outside)
    have hissued := hcarries ((kept a).flatMap Node.uuids ++ outside) (hs.perm ?_)
    · apply (hnew _).nodup_iff.2
      refine (hissued.count fun v => ?_).nodup
      simp only [List.flatMap_append, List.count_append]
      omega
    · rw [List.flatMap_append, List.append_assoc] at hold'
      exact (hpool.append_right _).trans hold'.symm

/-- It is settled then, and tables that were settled are still. -/
theorem unsettled_expandTable {us : List Uuid} (hs : s.Issued t.uuids)
    (h : Gives (t.expandTable u) s (t', e) s') (hus : Unsettled (u :: us) t) :
    t'.Valid ∧ t'.kind = t.kind ∧ Unsettled us t' := by
  obtain ⟨a, ha, rfl, hk, ns, hstands, rfl, hvalid⟩ := expandTable_ok ht hs h
  refine ⟨hvalid, rfl, fun b hb hbk => ?_⟩
  rcases mem_all_setChildren ht.nodup ha hb with rfl | ⟨c, hc, hbc⟩ | ⟨m, hm, hma, rfl⟩
  · exact .inr (settled_expanded hstands)
  · rcases List.mem_append.1 hc with hc | hc
    · have hca := List.mem_of_mem_filter hc
      have hbelow := Node.uuid_notMem_below (Node.nodup_of_mem ha ht.nodup)
      have hba : b.uuid ≠ a.uuid := fun h =>
        hbelow (List.mem_flatMap.2 ⟨c, hca, h ▸ Node.uuid_mem_uuids hbc⟩)
      exact (hus b (Node.mem_all_trans hbc (mem_all_of_child ha hca)) hbk).imp_left fun h =>
        (List.mem_cons.1 h).resolve_left hba
    · have hbg := isGenerated_of_mem (allowed_of_stands hstands c hc).2 (allowed_of_stands hstands c hc).1 hbc
      rw [IsGenerated, hbk] at hbg
      simp at hbg
  · rw [Node.kind_edit (f := fun n => { n with children := kept a ++ ns }) fun _ => rfl] at hbk
    rw [Node.uuid_edit (f := fun n => { n with children := kept a ++ ns }) fun h => h]
    rcases hus m hm hbk with h | h
    · exact .inl ((List.mem_cons.1 h).resolve_left hma)
    · exact .inr (settled_edit ht hm ha hk hma h _)

/-- Expanding a settled table changes nothing. -/
theorem expandTable_settled (h : Unsettled [] t) {a : Node} (ha : a ∈ t.all) (hk : a.kind = .table)
    (s : Supply) : ∃ reused, Gives (t.expandTable a.uuid) s (t, ⟨a.uuid, 0, reused, 0, []⟩) s := by
  have hsettled := (h a ha hk).resolve_left List.not_mem_nil
  obtain ⟨reused, hrun⟩ := expand_settled (Node.nodup_of_mem ha ht.nodup) hsettled s
  refine ⟨reused, gives_expandTable.2 ⟨a, ⟨find?_of_mem ht.nodup ha, hk⟩, a, hrun, ?_⟩⟩
  have hset := edit_eq_setChildren ht.nodup ha a.children
  rw [Node.eta, setChildren_self ht.nodup ha] at hset
  exact hset.symm

end

end Tree

end DeviceModel
