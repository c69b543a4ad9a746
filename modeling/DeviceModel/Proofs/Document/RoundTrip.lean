import DeviceModel.Proofs.Document.Values
import DeviceModel.Proofs.Tree.Relabel

/-!
Reading a tree from the text of its file. Main statement: it comes back as it was, transient attributes
begun anew (`ofText_of_writes`).
-/

namespace DeviceModel

namespace Json

theorem member?_of_mem {k : String} {j : Json} {ms : List (String × Json)}
    (hk : (ms.map Prod.fst).Nodup) (h : (k, j) ∈ ms) : member? k ms = some j := by
  induction ms with
  | nil => cases h
  | cons m ms ih =>
    rw [List.map_cons, List.nodup_cons] at hk
    rcases List.mem_cons.1 h with rfl | h
    · simp [member?]
    · have hm : m.1 ≠ k := fun hm => hk.1 (hm ▸ List.mem_map_of_mem (f := Prod.fst) h)
      have hfind : member? k (m :: ms) = member? k ms := by simp [member?, hm]
      rw [hfind, ih hk.2 h]

end Json

namespace Node

@[simp] theorem each_toJson (cs : List Node) : toJson.each cs = cs.map toJson := by
  induction cs with
  | nil => rfl
  | cons c cs ih => simp [toJson.each, ih]

/-- The members of the document of a node. -/
def members (n : Node) : List (String × Json) :=
  ("_type", .string n.kind.tag) :: n.data.members ++ ("uuid", .string n.uuid.text) ::
    if n.kind.hasChildren then [("children", .array (n.children.map toJson))] else []

theorem toJson_eq (n : Node) : n.toJson = .object n.members := by
  cases n
  simp only [toJson, members, each_toJson]
  rfl

theorem nodup_keys_members (n : Node) : (n.members.map Prod.fst).Nodup := by
  have hne : ∀ k ∈ n.data.members.map Prod.fst, k ≠ "_type" ∧ k ≠ "uuid" ∧ k ≠ "children" := by
    intro k hk
    obtain ⟨m, hm, rfl⟩ := List.mem_map.1 hk
    exact Data.ne_of_mem_members hm
  have hd := n.data.nodup_keys_members
  generalize hks : n.data.members.map Prod.fst = ks at hne hd
  have hkeys : n.members.map Prod.fst =
      "_type" :: ks ++ "uuid" :: if n.kind.hasChildren then ["children"] else [] := by
    rw [← hks]
    unfold members
    cases n.kind.hasChildren <;> simp
  have hrest : ("uuid" :: if n.kind.hasChildren then ["children"] else []).Nodup := by
    cases n.kind.hasChildren <;> decide
  rw [hkeys, List.nodup_append, List.nodup_cons]
  refine ⟨⟨fun h => (hne _ h).1 rfl, hd⟩, hrest, ?_⟩
  rintro a ha b hb rfl
  have hb : a = "uuid" ∨ a = "children" := by
    cases hc : n.kind.hasChildren <;> simp [hc] at hb <;> simp [hb]
  rcases List.mem_cons.1 ha with rfl | ha
  · revert hb; decide
  · exact hb.elim (hne a ha).2.1 (hne a ha).2.2

theorem mem_members_of_mem {n : Node} {m : String × Json} (h : m ∈ n.data.members) : m ∈ n.members := by
  simp [members, h]

/-- A tree of nodes all of whose values have a written form. -/
def Storable (n : Node) : Prop := ∀ m ∈ n.all, m.uuid.Storable ∧ m.data.Storable

instance (n : Node) : Decidable n.Storable :=
  inferInstanceAs (Decidable (∀ m ∈ n.all, m.uuid.Storable ∧ m.data.Storable))

theorem Storable.of_mem {m n : Node} (h : n.Storable) (hm : m ∈ n.all) : m.Storable :=
  fun k hk => h k (mem_all_trans hk hm)

end Node

namespace Document

theorem readUuid?_members {n : Node} (h : n.uuid.Storable) :
    readUuid? n.members = .ok (some n.uuid) := by
  have hm : Json.member? "uuid" n.members = some (.string n.uuid.text) :=
    Json.member?_of_mem n.nodup_keys_members (by simp [Node.members])
  rw [readUuid?, hm]
  simp only [Uuid.ofText?_text h]

theorem readKind_members (n : Node) : readKind n.kind.tree n.members = .ok n.kind := by
  have hm : Json.member? "_type" n.members = some (.string n.kind.tag) :=
    Json.member?_of_mem n.nodup_keys_members (by simp [Node.members])
  simp [readKind, hm, Json.string?, Kind.ofTag?_tag, Option.filter_some]

theorem knowsKey_of_mem_members {n : Node} {m : String × Json} (h : m ∈ n.members) :
    knowsKey n.kind m.1 = true := by
  rw [Node.members, List.mem_append, List.mem_cons, List.mem_cons] at h
  rcases h with (rfl | h) | rfl | h
  · simp [knowsKey]
  · obtain ⟨e, he, hp, rfl⟩ := Data.mem_members.1 h
    have hf : e.1 ∈ n.kind.fields := by
      rw [Node.kind, ← Data.fst_entries]
      exact List.mem_map_of_mem he
    have hs : (storedField? n.kind e.1.attr.key).isSome = true := by
      rw [storedField?, List.find?_isSome]
      exact ⟨e.1, hf, by simp [hp]⟩
    simp [knowsKey, hs]
  · simp [knowsKey]
  · cases hc : n.kind.hasChildren with
    | false => simp [hc] at h
    | true =>
      rw [hc, if_pos rfl, List.mem_singleton] at h
      simp [knowsKey, hc, h]

theorem readValues_eq {ms : List (String × Json)} {fs : List Field} {vs : List Value}
    (h : conforms fs vs = true)
    (hm : ∀ e ∈ fs.zip vs, e.1.persisted = true →
      Json.member? e.1.attr.key ms = some e.2.toJson ∧ e.2.Storable) :
    readValues ms fs = .ok (Data.kept fs vs) := by
  induction fs generalizing vs with
  | nil => cases vs <;> rfl
  | cons f fs ih =>
    cases vs with
    | nil => simp [conforms] at h
    | cons v vs =>
      rw [conforms, Bool.and_eq_true] at h
      have hv : readValue ms f = .ok (if f.persisted then v else f.type.initial) := by
        cases hp : f.persisted with
        | false => simp [readValue, hp]
        | true =>
          obtain ⟨hj, hs⟩ := hm (f, v) (by simp) hp
          simp [readValue, hp, hj, FieldType.ofJson?_toJson h.1 hs]
      simp [readValues, hv, ih h.2 fun e he => hm e (by simp [he]), Data.kept]

/-- The attributes of a node come back as they are stored. -/
theorem readData_members {n : Node} (h : n.data.Storable) :
    readData n.kind n.members = .ok n.data.stored := by
  have hknown : n.members.find? (fun m => !knowsKey n.kind m.1) = none :=
    List.find?_eq_none.2 fun m hm => by simp [knowsKey_of_mem_members hm]
  have hvalues : readValues n.members n.kind.fields = .ok (Data.kept n.kind.fields n.data.values) := by
    refine readValues_eq n.data.typed fun e he hp => ⟨?_, h e he hp⟩
    refine Json.member?_of_mem n.nodup_keys_members (Node.mem_members_of_mem ?_)
    exact Data.mem_members.2 ⟨e, he, hp, rfl⟩
  unfold readData
  rw [hknown]
  dsimp only
  split
  · rename_i vs hvs
    rw [hvalues] at hvs
    cases hvs
    rfl
  · rename_i e he
    rw [hvalues] at he
    cases he

theorem readHead_members {n : Node} (path : List Nat) (hu : n.uuid.Storable) (hd : n.data.Storable) :
    readHead n.kind.tree path n.members = .ok (some n.uuid, n.data.stored) := by
  simp [readHead, readUuid?_members hu, readKind_members, readData_members hd, bind, Except.bind]

/-! ### Nodes -/

theorem children_append {tree : TreeKind} {path : List Nat} {u : Option Uuid} {d : Data}
    {ms : List (String × Json)} (h : ∀ m ∈ ms, m.1 ≠ "children") (rest : List (String × Json)) :
    read.children tree path u d (ms ++ rest) = read.children tree path u d rest := by
  induction ms with
  | nil => rfl
  | cons m ms ih =>
    obtain ⟨k, j⟩ := m
    have hk : k ≠ "children" := h (k, j) (by simp)
    have ih := ih fun m hm => h m (by simp [hm])
    cases j <;> simp only [List.cons_append, read.children, if_neg hk, ih]

end Document

namespace Node

/-- The draft that a document gives of a node. -/
def draft : Node → Draft
  | ⟨u, d, cs⟩ => ⟨some u, d.stored, each cs⟩
where
  each : List Node → List Draft
    | [] => []
    | c :: cs => draft c :: each cs

@[simp] theorem each_draft (cs : List Node) : draft.each cs = cs.map draft := by
  induction cs with
  | nil => rfl
  | cons c cs ih => simp [draft.each, ih]

theorem draft_eq (n : Node) : n.draft = ⟨some n.uuid, n.data.stored, n.children.map draft⟩ := by
  cases n; simp [draft]

end Node

namespace Document

theorem read_each {k : Kind} {tree : TreeKind} {path : List Nat} {cs : List Node} (i : Nat)
    (hk : ∀ c ∈ cs, k.allows c.kind = true)
    (hc : ∀ c ∈ cs, ∀ path, read tree path c.toJson = .ok c.draft) :
    read.each tree path k i (cs.map Node.toJson) = .ok (cs.map Node.draft) := by
  induction cs generalizing i with
  | nil => rfl
  | cons c cs ih =>
    have hkc : k.allows c.draft.data.kind = true := by
      rw [Node.draft_eq]
      exact hk c (by simp)
    simp [read.each, hc c (by simp), hkc,
      ih (i + 1) (fun d hd => hk d (by simp [hd])) fun d hd => hc d (by simp [hd])]

/-- A node is read back from its document. -/
theorem read_toJson {n : Node} (ha : n.Allowed) (hs : n.Storable) (path : List Nat) :
    read n.kind.tree path n.toJson = .ok n.draft := by
  induction n using Node.inductOn generalizing path with
  | h n ih =>
    obtain ⟨hu, hd⟩ := hs n n.mem_all_self
    have hallowed := Node.allowed_iff.1 ha
    have hc : ∀ c ∈ n.children, ∀ path, read n.kind.tree path c.toJson = .ok c.draft := by
      intro c hc path
      rw [← Kind.tree_of_allows (hallowed c hc).1]
      exact ih c hc (hallowed c hc).2 (hs.of_mem (Node.mem_all_of_child hc)) path
    have hskip : ∀ m ∈ ("_type", Json.string n.kind.tag) :: n.data.members, m.1 ≠ "children" := by
      intro m hm
      rcases List.mem_cons.1 hm with rfl | hm
      · show "_type" ≠ "children"
        decide
      · exact (Data.ne_of_mem_members hm).2.2
    have hchildren : read.children n.kind.tree path (some n.uuid) n.data.stored n.members =
        .ok (n.children.map Node.draft) := by
      have heach : read.each n.kind.tree path n.data.kind 0 (n.children.map Node.toJson) = _ :=
        read_each 0 (fun c hc => (hallowed c hc).1) hc
      rw [Node.members, children_append hskip]
      cases hk : n.kind.hasChildren with
      | true => simpa [read.children] using heach
      | false =>
        -- A kind without children has none, or else one of them would not be allowed.
        have hnil : n.children = [] := by
          cases hcs : n.children with
          | nil => rfl
          | cons c cs =>
            have hcc := (hallowed c (by simp [hcs])).1
            simp only [Kind.hasChildren, Bool.not_eq_false', List.isEmpty_iff] at hk
            simp [Kind.allows, hk] at hcc
        simp [hnil, read.children]
    rw [Node.toJson_eq, read, readHead_members path hu hd]
    simp only [hchildren, Node.draft_eq]

end Document

/-! ### Identifiers of a draft -/

namespace Draft

/-- Distinct identifiers that nothing else has are collected without fault. -/
theorem collect_draft {n : Node} {seen : List Uuid} (hn : n.uuids.Nodup)
    (hs : ∀ u ∈ n.uuids, u ∉ seen) (path : List Nat) :
    n.draft.collect path seen = .ok (n.uuids.reverse ++ seen) := by
  induction n using Node.inductOn generalizing seen path with
  | h n ih =>
    have each : ∀ (cs : List Node) (i : Nat) (seen : List Uuid), (∀ c ∈ cs, c ∈ n.children) →
        (cs.flatMap Node.uuids).Nodup → (∀ u ∈ cs.flatMap Node.uuids, u ∉ seen) →
        collect.each path i (cs.map Node.draft) seen =
          .ok ((cs.flatMap Node.uuids).reverse ++ seen) := by
      intro cs
      induction cs with
      | nil => exact fun _ _ _ _ _ => rfl
      | cons c cs ihs =>
        intro i seen hcs hnd hdis
        rw [List.flatMap_cons, List.nodup_append] at hnd
        rw [List.flatMap_cons] at hdis
        have hc := ih c (hcs c (by simp)) hnd.1 (fun u hu => hdis u (by simp [hu])) (path ++ [i])
        have hrest := ihs (i + 1) (c.uuids.reverse ++ seen) (fun d hd => hcs d (by simp [hd])) hnd.2.1
          (by
            intro u hu hm
            rcases List.mem_append.1 hm with hm | hm
            · exact hnd.2.2 u (List.mem_reverse.1 hm) u hu rfl
            · exact hdis u (List.mem_append_right _ hu) hm)
        simp [collect.each, hc, hrest]
    rw [Node.uuids_eq, List.nodup_cons] at hn
    rw [Node.uuids_eq] at hs
    have hrest := each n.children 0 (n.uuid :: seen) (fun _ hc => hc) hn.2 (by
      intro u hu hm
      rcases List.mem_cons.1 hm with rfl | hm
      · exact hn.1 hu
      · exact hs u (by simp [hu]) hm)
    rw [Node.draft_eq, collect, if_neg (hs n.uuid (by simp)), hrest, Node.uuids_eq]
    simp

/-- Nothing is left to fill in. -/
theorem fill_draft (n : Node) (s : Supply) :
    n.draft.fill s = (n.mapData fun _ d => d.stored, s) := by
  induction n using Node.inductOn generalizing s with
  | h n ih =>
    have each : ∀ cs : List Node, (∀ c ∈ cs, c ∈ n.children) →
        fill.each (cs.map Node.draft) s = (cs.map (Node.mapData fun _ d => d.stored), s) := by
      intro cs hcs
      induction cs with
      | nil => rfl
      | cons c cs ihs =>
        have hc := ih c (hcs c (by simp)) s
        have hrest := ihs fun d hd => hcs d (by simp [hd])
        simp only [List.map_cons, fill.each, bind, StateT.bind, hc, hrest]
        rfl
    have hcs := each n.children fun _ hc => hc
    rw [Node.draft_eq, fill, Node.mapData_eq]
    simp only [bind, StateT.bind, pure, StateT.pure, hcs]

end Draft

end DeviceModel
