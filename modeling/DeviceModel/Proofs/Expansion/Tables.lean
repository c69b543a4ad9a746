import DeviceModel.Proofs.Expansion.Schemes
import DeviceModel.Proofs.Tree.Children
import Mathlib

/-!
Tables whose generated groups stand as they would be generated. Main statements: a table that has been
expanded is one (`settled_expand`), and expanding it again changes nothing (`expand_settled`).
-/

namespace DeviceModel

namespace Node

theorem each_postorder (cs : List Node) : postorder.each cs = cs.flatMap postorder := by
  induction cs with
  | nil => rfl
  | cons c cs ih => simp [postorder.each, ih]

theorem postorder_perm (n : Node) : n.postorder.Perm n.all := by
  induction n using inductOn with
  | h n ih =>
    rw [all_eq, ← n.eta, postorder, each_postorder, n.eta]
    apply (List.perm_append_singleton _ _).trans
    exact (List.Perm.flatMap_left _ ih).cons n

theorem postorder_each_perm (cs : List Node) : (postorder.each cs).Perm (cs.flatMap all) := by
  rw [each_postorder]
  exact List.Perm.flatMap_left _ fun c _ => c.postorder_perm

end Node

namespace TableExpansion

open Scheme

/-! ### Schemes of tables -/

theorem keys_ofLeaves (i : Option Nat) (ms : List Node) : (ofLeaves i ms).keys = ms.map Node.uuid := by
  induction ms with
  | nil => rfl
  | cons m ms ih => rw [ofLeaves, keys, ih, List.map_cons]

theorem distinct_ofLeaves {i : Option Nat} {ms : List Node} (h : (ms.map Node.uuid).Nodup) :
    (ofLeaves i ms).Distinct := by
  induction ms with
  | nil => exact .nil
  | cons m ms ih =>
    obtain ⟨hm, hms⟩ := List.nodup_cons.1 h
    exact .leaf (keys_ofLeaves i ms ▸ hm) (ih hms)

theorem nodup_members {n : Node} (h : n.uuids.Nodup) : ((members n).map Node.uuid).Nodup :=
  ((List.filter_sublist.map _).trans (Node.map_uuid_sublist _)).nodup (Node.nodup_below h)

theorem keys_ofElements (i : Nat) (es : List Node) : (ofElements i es).keys = es.map Node.uuid := by
  induction es generalizing i with
  | nil => rfl
  | cons e es ih =>
    rw [ofElements]
    split <;> rw [keys, ih, List.map_cons]

theorem distinct_ofElements {i : Nat} {es : List Node} (h : (es.flatMap Node.uuids).Nodup) :
    (ofElements i es).Distinct := by
  induction es generalizing i with
  | nil => exact .nil
  | cons e es ih =>
    have hkeys := (Node.map_uuid_sublist (e :: es)).nodup h
    rw [List.map_cons, List.nodup_cons, ← keys_ofElements (i + 1)] at hkeys
    rw [List.flatMap_cons, List.nodup_append'] at h
    rw [ofElements]
    split
    · exact .group hkeys.1 (distinct_ofLeaves (nodup_members h.1)) (ih h.2.1)
    · exact .leaf hkeys.1 (ih h.2.1)

theorem distinct_ofSource {s : Node} (h : s.uuids.Nodup) : (ofSource s).Distinct := by
  unfold ofSource
  split
  · exact distinct_ofLeaves (nodup_members h)
  · exact distinct_ofElements (Node.nodup_below h)
  · exact .nil

theorem keys_ofRow (ss : List Node) : (ofRow ss).keys = ss.map Node.uuid := by
  induction ss with
  | nil => rfl
  | cons s ss ih => rw [ofRow, keys, ih, List.map_cons]

theorem distinct_ofRow {ss : List Node} (h : (ss.flatMap Node.uuids).Nodup) : (ofRow ss).Distinct := by
  induction ss with
  | nil => exact .nil
  | cons s ss ih =>
    have hkeys := (Node.map_uuid_sublist (s :: ss)).nodup h
    rw [List.map_cons, List.nodup_cons, ← keys_ofRow] at hkeys
    rw [List.flatMap_cons, List.nodup_append'] at h
    exact .group hkeys.1 (distinct_ofSource h.1) (ih h.2.1)

theorem keys_ofAxis (inner : Scheme) (es : List Node) : (ofAxis inner es).keys = es.map Node.uuid := by
  induction es with
  | nil => rfl
  | cons e es ih => rw [ofAxis, keys, ih, List.map_cons]

theorem distinct_ofAxis {inner : Scheme} (hi : inner.Distinct) {es : List Node}
    (h : (es.map Node.uuid).Nodup) : (ofAxis inner es).Distinct := by
  induction es with
  | nil => exact .nil
  | cons e es ih =>
    obtain ⟨he, hes⟩ := List.nodup_cons.1 h
    exact .group (keys_ofAxis inner es ▸ he) hi (ih hes)

theorem distinct_ofLevels {ss : List Node} (hs : (ss.flatMap Node.uuids).Nodup) {axes : List (List Node)}
    (h : ∀ es ∈ axes, (es.map Node.uuid).Nodup) : (ofLevels ss axes).Distinct := by
  induction axes with
  | nil => exact distinct_ofRow hs
  | cons es axes ih =>
    exact distinct_ofAxis (ih fun fs hfs => h fs (List.mem_cons_of_mem _ hfs)) (h es (List.mem_cons_self ..))

/-- What the table generates. -/
def scheme (table : Node) : Scheme := ofLevels (sources table) (axes table)

theorem distinct_scheme {table : Node} (h : table.uuids.Nodup) : (scheme table).Distinct := by
  apply distinct_ofLevels
  · exact (List.filter_sublist.flatMap _).nodup (Node.nodup_below h)
  · intro es hes
    obtain ⟨e, he, rfl⟩ := List.mem_map.1 hes
    have he := Node.mem_all_of_child (List.mem_of_mem_filter he)
    exact (Node.map_uuid_sublist _).nodup (Node.nodup_below (Node.nodup_of_mem he h))

/-- The kept children of a table, before the generated ones. -/
def kept (table : Node) : List Node := table.children.filter (·.kind != .tableGroupElement)

theorem filter_kept {table : Node} {p : Node → Bool}
    (hp : ∀ n, p n = true → n.kind ≠ .tableGroupElement) : (kept table).filter p = table.children.filter p := by
  rw [kept, List.filter_filter]
  apply List.filter_congr
  intro n _
  by_cases h : p n = true
  · simp [h, hp n h]
  · simp [h]

theorem sources_eq_filter (table : Node) :
    sources table = (kept table).filter fun c => c.kind == .array || c.kind == .group := by
  rw [sources, filter_kept]
  rintro n hn hk
  simp [hk] at hn

/-- The scheme is one of the kept children. -/
theorem scheme_congr {t t' : Node} (h : kept t = kept t') : scheme t = scheme t' := by
  have haxes : ∀ u : Node, axes u = ((kept u).filter (·.kind == .enumeration)).map Node.children := by
    intro u
    rw [axes, filter_kept]
    simp +contextual
  rw [scheme, scheme, haxes, haxes, sources_eq_filter, sources_eq_filter, h]

/-! ### Settled tables -/

/-- The generated groups stand for the scheme, behind the other children. -/
structure Settled (table : Node) : Prop where
  order : table.children = kept table ++ generated table
  stands : Stands (scheme table) [] (generated table)

theorem kind_groupData (u : Uuid) (name : String) (path : List Uuid) :
    (groupData u name path).kind = .tableGroupElement := Data.kind_of _ _

theorem kind_leafData (u : Uuid) (name : String) (abbr : Option String) (i : Option Nat)
    (path : List Uuid) (access : Option Uuid) :
    (leafData u name abbr i path access).kind = .tableArrayElement := Data.kind_of _ _

theorem kind_ofRow {ss : List Node} {path : List Uuid} {ns : List Node} (h : Stands (ofRow ss) path ns) :
    ∀ n ∈ ns, n.kind = .tableGroupElement := by
  induction ss generalizing ns with
  | nil => cases h; simp
  | cons s ss ih =>
    cases h with
    | group _ h => exact List.forall_mem_cons.2 ⟨kind_groupData _ _ _, ih h⟩

theorem kind_ofAxis {inner : Scheme} {es : List Node} {path : List Uuid} {ns : List Node}
    (h : Stands (ofAxis inner es) path ns) : ∀ n ∈ ns, n.kind = .tableGroupElement := by
  induction es generalizing ns with
  | nil => cases h; simp
  | cons e es ih =>
    cases h with
    | group _ h => exact List.forall_mem_cons.2 ⟨kind_groupData _ _ _, ih h⟩

/-- Below a table there are groups first. -/
theorem kind_scheme {table : Node} {ns : List Node} (h : Stands (scheme table) [] ns) :
    ∀ n ∈ ns, n.kind = .tableGroupElement := by
  unfold scheme at h
  cases hax : axes table with
  | nil => exact kind_ofRow (hax ▸ h)
  | cons es axes => exact kind_ofAxis (hax ▸ h)

/-- Groups and elements of expanded tables. -/
def IsGenerated (n : Node) : Prop := n.kind = .tableGroupElement ∨ n.kind = .tableArrayElement

theorem allowed_of_stands {sch : Scheme} {path : List Uuid} {ns : List Node} (h : Stands sch path ns) :
    ∀ n ∈ ns, IsGenerated n ∧ n.Allowed := by
  induction h with
  | nil => simp
  | leaf _ ih =>
    exact List.forall_mem_cons.2 ⟨⟨.inr (kind_leafData ..), Node.allowed_iff.2 (by simp [Node.leaf])⟩, ih⟩
  | group _ _ ihi ih =>
    refine List.forall_mem_cons.2 ⟨⟨.inl (kind_groupData ..), Node.allowed_iff.2 fun c hc => ?_⟩, ih⟩
    refine ⟨?_, (ihi c hc).2⟩
    rw [Node.kind, kind_groupData]
    rcases (ihi c hc).1 with hk | hk <;> rw [hk] <;> rfl

/-- Nothing else stands below what is generated. -/
theorem isGenerated_of_mem {n m : Node} (h : n.Allowed) (hn : IsGenerated n) (hm : m ∈ n.all) :
    IsGenerated m := by
  have allows : ∀ k child : Kind, (k = .tableGroupElement ∨ k = .tableArrayElement) →
      k.allows child = true → child = .tableGroupElement ∨ child = .tableArrayElement := by
    rintro k child (rfl | rfl) <;> cases child <;> decide
  induction n using Node.inductOn with
  | h n ih =>
    rcases Node.mem_all.1 hm with rfl | ⟨c, hc, hm⟩
    · exact hn
    · exact ih c hc (h.of_mem (Node.mem_all_of_child hc))
        (allows _ _ hn (h n n.mem_all_self c hc)) hm

/-! ### Expanding -/

/-- The state in which a table is expanded. -/
def start (table : Node) : State := { previous := Node.postorder.each (generated table) }

theorem expand_eq {table : Node} {ns : List Node} {st : State} {s s' : Supply}
    (h : realize (scheme table) [] (start table) s = ((ns, st), s')) :
    expand table s = (({ table with children := kept table ++ ns },
      ⟨table.uuid, st.created, st.reused, (Node.all.below (generated table)).length - st.reused, []⟩),
        s') := by
  have hlevels : levels (sources table) (axes table) [] (start table) s = ((ns, st), s') := by
    rw [levels_eq]
    exact h
  simp only [expand, bind, StateT.bind]
  rw [show StateT.run (levels (sources table) (axes table) []) ({ previous := _ } : State) s = _ from hlevels]
  rfl

theorem kept_expanded {table : Node} {ns : List Node} (h : ∀ n ∈ ns, n.kind = .tableGroupElement) :
    kept { table with children := kept table ++ ns } = kept table := by
  have hns : ns.filter (·.kind != .tableGroupElement) = [] :=
    List.filter_eq_nil_iff.2 fun n hn => by simp [h n hn]
  have hkept : (kept table).filter (·.kind != .tableGroupElement) = kept table := by
    rw [kept, List.filter_filter]
    simp
  rw [kept, List.filter_append, hkept, hns, List.append_nil]

theorem generated_expanded {table : Node} {ns : List Node} (h : ∀ n ∈ ns, n.kind = .tableGroupElement) :
    generated { table with children := kept table ++ ns } = ns := by
  have hkept : (kept table).filter (·.kind == .tableGroupElement) = [] :=
    List.filter_eq_nil_iff.2 fun n hn => by simpa using (List.mem_filter.1 hn).2
  have hns : ns.filter (·.kind == .tableGroupElement) = ns :=
    List.filter_eq_self.2 fun n hn => by simp [h n hn]
  rw [generated, List.filter_append, hkept, hns, List.nil_append]

/-- A table that has been expanded. -/
theorem settled_expanded {table : Node} {ns : List Node} (h : Stands (scheme table) [] ns) :
    Settled { table with children := kept table ++ ns } := by
  have hk := kind_scheme h
  refine ⟨?_, ?_⟩
  · rw [kept_expanded hk, generated_expanded hk]
  · rw [generated_expanded hk, scheme_congr (kept_expanded hk)]
    exact h

/-- Expanding it again changes nothing. -/
theorem expand_settled {table : Node} (hn : table.uuids.Nodup) (h : Settled table) (s : Supply) :
    ∃ reused, expand table s = ((table, ⟨table.uuid, 0, reused, 0, []⟩), s) := by
  have hd := nodup_paths h.stands (distinct_scheme hn)
  have hperm := Node.postorder_each_perm (generated table)
  have hprevious : ((start table).previous.map (·.data.path)).Nodup := (hperm.map _).nodup_iff.2 hd
  obtain ⟨st, hrun, ht⟩ := realize_again h.stands hd hprevious (fun m hm => hperm.mem_iff.2 hm) s
  refine ⟨st.reused, ?_⟩
  rw [expand_eq hrun, ← h.order, Node.eta, ht.created, ht.reused]
  simp [start, paths]

end TableExpansion

end DeviceModel
