import DeviceModel.Proofs.Export.Exportable
import DeviceModel.Proofs.Schema.Attributes

/-!
The references of a node and what a check says of them. Main statements: a check finds fault with a reference that
leads nowhere it may (`targetIssues_eq_nil`), and in a project without errors none does (`Clean.resolves`).
-/

namespace DeviceModel

/-- The attributes that refer to nodes. -/
def Attr.refers : Attr → Bool
  | .accessLevel | .defaultAccessLevel | .enumeration | .namedEnumerators | .original | .path | .parameter
  | .parameterTable | .factorPoint | .pointType => true
  | _ => false

theorem Attr.isLaidOut_of_refers {a : Attr} (h : a.refers = true) : a.isLaidOut = false := by
  cases a <;> first | rfl | cases h

namespace Data

theorem lookUp_of_mem_zip {f : Field} {fs : List Field} {vs : List Value} {v : Value}
    (hn : (fs.map Field.attr).Nodup) (h : (f, v) ∈ fs.zip vs) :
    fs.find? (·.attr == f.attr) = some f ∧ lookUp f.attr fs vs = some v := by
  induction fs generalizing vs with
  | nil => cases h
  | cons g fs ih =>
    obtain ⟨hg, hn⟩ := List.nodup_cons.1 hn
    cases vs with
    | nil => cases h
    | cons w vs =>
      rw [List.zip_cons_cons, List.mem_cons] at h
      rcases h with h | h
      · cases h
        exact ⟨List.find?_cons_of_pos (by simp), if_pos rfl⟩
      · have hne : g.attr ≠ f.attr := fun he => hg (he ▸ List.mem_map_of_mem (List.of_mem_zip h).1)
        rw [List.find?_cons_of_neg (by simpa using hne), lookUp, if_neg hne]
        exact ih hn h

theorem mem_entries_iff {d : Data} {f : Field} {v : Value} :
    (f, v) ∈ d.entries ↔ d.kind.field? f.attr = some f ∧ d.get? f.attr = some v :=
  ⟨lookUp_of_mem_zip d.kind.nodup_attrs, fun h => mem_entries h.1 h.2⟩

/-- The attribute of the field holds the identifier. -/
def Refers (d : Data) (f : Field) (u : Uuid) : Prop :=
  d.kind.field? f.attr = some f ∧ f.type.base = .uuid ∧ ∃ v, d.get? f.attr = some v ∧ u ∈ v.uuids

theorem Refers.congr {d e : Data} {f : Field} {u : Uuid} (h : d.Refers f u) (hk : d.kind = e.kind)
    (ha : d.get? f.attr = e.get? f.attr) : e.Refers f u :=
  ⟨hk ▸ h.1, h.2.1, ha ▸ h.2.2⟩

theorem Refers.mem_fields {d : Data} {f : Field} {u : Uuid} (h : d.Refers f u) : f ∈ d.kind.fields :=
  List.mem_of_find?_eq_some h.1

theorem refers_of_ref? {d : Data} {a : Attr} {f : Field} {u : Uuid} (hf : d.kind.field? a = some f)
    (hb : f.type.base = .uuid) (h : d.ref? a = some u) : d.Refers f u := by
  obtain rfl : f.attr = a := by simpa using List.find?_some hf
  exact ⟨hf, hb, .uuid u, get?_of_ref? h, List.mem_singleton_self u⟩

theorem mem_path_of_refers {d : Data} {u : Uuid} (h : d.Refers .path u) : u ∈ d.path := by
  obtain ⟨-, -, v, hv, hu⟩ := h
  rw [path, show d.get? .path = some v from hv]
  exact hu

/-- But for those of a path, a reference is the identifier itself. -/
theorem Refers.ref? {d : Data} {f : Field} {u : Uuid} (h : d.Refers f u) (hne : f ≠ .path) :
    d.ref? f.attr = some u := by
  have hpaths : ∀ k : Kind, ∀ f ∈ k.fields, f.type.list = true → f = .path := by
    intro k; cases k <;> decide
  have hlist : f.type.list = false := Bool.eq_false_of_not_eq_true fun hl => hne (hpaths _ _ h.mem_fields hl)
  obtain ⟨hf, -, v, hv, hu⟩ := h
  obtain ⟨g, hg, hholds⟩ := exists_field_of_get? hv
  obtain rfl := Option.some.inj (hf.symm.trans hg)
  cases v with
  | uuid w =>
    obtain rfl := List.mem_singleton.1 hu
    exact ref?_of_get? hv
  | list items => simp [FieldType.holds, hlist] at hholds
  | _ => cases hu

/-- A new node refers to nothing. -/
theorem not_refers_initial (k : Kind) (f : Field) (u : Uuid) : ¬(initial k).Refers f u := by
  have hempty : ∀ k : Kind, ∀ f ∈ k.fields, f.type.base = .uuid →
      ((initial k).get? f.attr).all (·.uuids.isEmpty) = true := by
    intro k; cases k <;> decide
  rintro h
  have hall := hempty k f h.mem_fields h.2.1
  obtain ⟨-, -, v, hv, hu⟩ := h
  rw [hv] at hall
  exact absurd hu (by simp [List.isEmpty_iff.1 hall])

theorem Refers.refers {d : Data} {f : Field} {u : Uuid} (h : d.Refers f u) : f.attr.refers = true := by
  have hfields : ∀ k : Kind, ∀ f ∈ k.fields, f.type.base = .uuid → f.attr.refers = true := by
    intro k; cases k <;> decide
  exact hfields _ f h.mem_fields h.2.1

theorem Refers.ne {d : Data} {f : Field} {u : Uuid} (h : d.Refers f u) {a : Attr} (ha : a.refers = false) :
    f.attr ≠ a :=
  fun he => Bool.noConfusion (ha.symm.trans (he ▸ h.refers))

end Data

namespace Check

theorem mem_references {n : Node} {l : Lookup} {i : Issue} :
    i ∈ references n l ↔ ∃ f u, n.data.Refers f u ∧ i ∈ targetIssues l f u := by
  constructor
  · intro h
    obtain ⟨⟨f, v⟩, hm, hi⟩ := List.mem_flatMap.1 h
    obtain ⟨hf, hv⟩ := Data.mem_entries_iff.1 hm
    by_cases hb : f.type.base = .uuid
    · simp only [hb, if_true] at hi
      obtain ⟨u, hu, hi⟩ := List.mem_flatMap.1 hi
      exact ⟨f, u, ⟨hf, hb, v, hv, hu⟩, hi⟩
    · simp only [hb, if_false] at hi
      cases hi
  · rintro ⟨f, u, ⟨hf, hb, v, hv, hu⟩, hi⟩
    refine List.mem_flatMap.2 ⟨(f, v), Data.mem_entries_iff.2 ⟨hf, hv⟩, ?_⟩
    simp only [hb, if_true]
    exact List.mem_flatMap.2 ⟨u, hu, hi⟩

/-- A reference leads to a node, of a kind that it may lead to. -/
def Resolves (l : Lookup) (f : Field) (u : Uuid) : Prop :=
  ∃ k, l.kind? u = some k ∧ (f.targets = [] ∨ k ∈ f.targets)

theorem targetIssues_eq_nil {l : Lookup} {f : Field} {u : Uuid} : targetIssues l f u = [] ↔ Resolves l f u := by
  unfold targetIssues Resolves
  cases l.kind? u <;> simp [or_iff_not_imp_left]

theorem level_of_targetIssues {l : Lookup} {f : Field} {u : Uuid} {i : Issue} (h : i ∈ targetIssues l f u) :
    i.level = .error := by
  unfold targetIssues at h
  split at h
  · rw [List.mem_singleton.1 h]
    rfl
  · split at h
    · cases h
    · rw [List.mem_singleton.1 h]
      rfl

end Check

namespace Models

/-- The references of a project without errors resolve. -/
theorem Clean.resolves {ms : Models} (h : ms.Clean) {k : TreeKind} {n : Node} (hn : n ∈ (ms.tree k).all) {f : Field}
    {u : Uuid} (hr : n.data.Refers f u) : Check.Resolves ms.lookup f u := by
  rw [← Check.targetIssues_eq_nil, List.eq_nil_iff_forall_not_mem]
  intro i hi
  refine passes_of_check h.valid h.check hn i ?_ (Check.level_of_targetIssues hi)
  exact List.mem_append_left _ (List.mem_append_right _ (Check.mem_references.2 ⟨f, u, hr, hi⟩))

/-- The identifiers of a project are those of one tree and those of the others. -/
theorem uuids_perm (ms : Models) (k : TreeKind) :
    ms.uuids.Perm ((ms.tree k).uuids ++ (TreeKind.all.filter (· != k)).flatMap fun j => (ms.tree j).uuids) := by
  have hall : TreeKind.all.Perm (k :: TreeKind.all.filter (· != k)) := by cases k <;> decide
  have hperm := hall.flatMap_right fun j => (ms.tree j).uuids
  rw [List.flatMap_cons] at hperm
  rwa [uuids, lookup, List.flatMap_map]

theorem exists_of_node? {ms : Models} {u : Uuid} {n : Node} (h : ms.lookup.node? u = some n) :
    n.uuid = u ∧ ∃ k, n ∈ (ms.tree k).all := by
  obtain ⟨t, ht, hf⟩ := List.exists_of_findSome?_eq_some h
  obtain ⟨k, -, rfl⟩ := List.mem_map.1 ht
  exact ⟨(Tree.mem_of_find? hf).2, k, (Tree.mem_of_find? hf).1⟩

section

variable {ms : Models} (h : ms.uuids.Nodup)
include h

theorem eq_of_mem_uuids {j k : TreeKind} {u : Uuid} (hj : u ∈ (ms.tree j).uuids) (hk : u ∈ (ms.tree k).uuids) :
    j = k := by
  by_contra hne
  have hn := (ms.uuids_perm k).nodup_iff.1 h
  exact (List.nodup_append.1 hn).2.2 u hk u
    (List.mem_flatMap.2 ⟨j, List.mem_filter.2 ⟨TreeKind.mem_all j, by simpa using hne⟩, hj⟩) rfl

/-- An identifier leads to the one node that has it. -/
theorem node?_of_mem {k : TreeKind} {n : Node} (hn : n ∈ (ms.tree k).all) : ms.lookup.node? n.uuid = some n := by
  have hnodup := (List.nodup_append.1 ((ms.uuids_perm k).nodup_iff.1 h)).1
  have hfind := Tree.find?_of_mem hnodup hn
  cases hm : ms.lookup.node? n.uuid with
  | none =>
    rw [List.findSome?_eq_none_iff.1 hm _ (List.mem_map_of_mem (TreeKind.mem_all k))] at hfind
    cases hfind
  | some m =>
    obtain ⟨hu, j, hj⟩ := exists_of_node? hm
    obtain rfl := eq_of_mem_uuids h (hu ▸ Node.uuid_mem_uuids hj) (Node.uuid_mem_uuids hn)
    rw [Node.eq_of_uuid hnodup hj hn hu]

theorem kind?_of_mem {k : TreeKind} {n : Node} (hn : n ∈ (ms.tree k).all) : ms.lookup.kind? n.uuid = some n.kind := by
  rw [Lookup.kind?, node?_of_mem h hn]
  rfl

end

/-- No node of such trees stands in the wrong place or shares its identifier. -/
theorem structural_eq_nil {ms : Models} (hv : ∀ k, (ms.tree k).Valid) (h : ms.uuids.Nodup) {k : TreeKind} {n : Node}
    (hn : n ∈ (ms.tree k).all) : Check.structural n ms.lookup = [] := by
  have hkinds : TreeKind.all.Nodup := by decide
  have hplaced : n.children.filter (!n.kind.allows ·.kind) = [] :=
    List.filter_eq_nil_iff.2 fun c hc => by simpa using (hv k).allowed n hn c hc
  have hholders : (ms.lookup.filter (·.contains n.uuid)).length ≤ 1 := by
    have hsub : TreeKind.all.filter (fun j => (ms.tree j).contains n.uuid) ⊆ [k] := fun j hj =>
      List.mem_singleton.2 (eq_of_mem_uuids h (Tree.contains_iff.1 (List.mem_filter.1 hj).2) (Node.uuid_mem_uuids hn))
    rw [lookup, List.filter_map, List.length_map]
    exact (List.subperm_of_subset (hkinds.filter _) hsub).length_le
  rw [Check.structural, hplaced, List.map_nil, List.nil_append, if_neg (by omega)]

/-- In a project without errors no identifier is in two trees. -/
theorem Clean.nodup {ms : Models} (h : ms.Clean) : ms.uuids.Nodup := by
  have hkinds : TreeKind.all.Nodup := by decide
  rw [uuids, lookup, List.flatMap_map, List.nodup_flatMap]
  refine ⟨fun k _ => (h.valid k).nodup, hkinds.imp fun {j k} hne u hj hk => ?_⟩
  obtain ⟨n, hn, rfl⟩ := List.mem_map.1 hj
  have hholders : 1 < (ms.lookup.filter (·.contains n.uuid)).length := by
    have hsub : [j, k] ⊆ TreeKind.all.filter fun i => (ms.tree i).contains n.uuid := by
      intro i hi
      refine List.mem_filter.2 ⟨TreeKind.mem_all i, Tree.contains_iff.2 ?_⟩
      rcases List.mem_pair.1 hi with rfl | rfl
      exacts [hj, hk]
    rw [lookup, List.filter_map, List.length_map]
    exact (List.subperm_of_subset (by simpa using hne) hsub).length_le
  refine passes_of_check h.valid h.check hn
    (.sharedUuid n.uuid (ms.lookup.filter (·.contains n.uuid)).length) ?_ rfl
  refine List.mem_append_left _ (List.mem_append_left _ (List.mem_append_right _ ?_))
  rw [if_pos hholders]
  exact List.mem_singleton_self _

end Models

end DeviceModel
