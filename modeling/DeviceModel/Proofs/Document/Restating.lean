import DeviceModel.Proofs.Document.Conformance
import DeviceModel.Proofs.Lists

/-!
What becomes of a document that is read and stored again. Main statement: exactly the conforming
documents are read, and each is stored with all that it held, identifiers and decimals in their
canonical spelling, what it left out written out (`read_iff_conforms_and_restates`).
-/

namespace DeviceModel

/-- The stored member of an attribute, next to the one in the document that was read. -/
inductive FieldType.Restates (t : FieldType) : Option Json → Option Json → Prop
  | given {j c : Json} (spells : t.Spells j c) : Restates t (some j) (some c)
  | null (optional : t.optional = true) : Restates t none (some .null)
  | empty (required : t.optional = false) (list : t.list = true) : Restates t none (some (.array []))

/-- The stored identifier, next to the one in the document that was read. -/
inductive Uuid.Restates : Option Json → Option Json → Prop
  | absent (u : Uuid) : Restates none (some (.string u.text))
  | null (u : Uuid) : Restates (some .null) (some (.string u.text))
  | given {s : String} {u : Uuid} (reads : Uuid.ofText? s = some u) :
    Restates (some (.string s)) (some (.string u.text))

namespace Document

/-- `w` says all that `v` says, with every member of the schema once. -/
inductive Restates : Json → Json → Prop
  | object {members stored : List (String × Json)} {k : Kind} {items storedItems : List Json}
    (once : (stored.map Prod.fst).Nodup)
    (keys : ∀ key, key ∈ stored.map Prod.fst ↔ Known k key)
    (kept : ∀ m ∈ members, m.1 ∈ stored.map Prod.fst)
    (named : Json.member? "_type" members = some (.string k.tag))
    (sameName : Json.member? "_type" stored = some (.string k.tag))
    (identified : Uuid.Restates (Json.member? "uuid" members) (Json.member? "uuid" stored))
    (valued : ∀ f ∈ k.fields, f.persisted = true →
      f.type.Restates (Json.member? f.attr.key members) (Json.member? f.attr.key stored))
    (listed : childItems? members = some items)
    (sameItems : childItems? stored = some storedItems)
    (restate : List.Forall₂ Restates items storedItems) :
    Restates (.object members) (.object stored)

variable {tree : TreeKind} {members : List (String × Json)}

theorem uuid_restates {u : Option Uuid} (h : readUuid? members = .ok u) {v : Uuid}
    (hv : ∀ w, u = some w → v = w) :
    Uuid.Restates (Json.member? "uuid" members) (some (.string v.text)) := by
  unfold readUuid? at h
  cases hm : Json.member? "uuid" members with
  | none => exact .absent v
  | some j =>
    cases j with
    | null => exact .null v
    | string s =>
      cases hs : Uuid.ofText? s with
      | none => simp [hm, hs] at h
      | some w =>
        simp only [hm, hs, Except.ok.injEq] at h
        rw [hv w h.symm]
        exact .given hs
    | _ => simp [hm] at h

theorem value_restates {f : Field} {v : Value} (hp : f.persisted = true)
    (h : readValue members f = .ok v) :
    f.type.Restates (Json.member? f.attr.key members) (some v.toJson) := by
  unfold readValue at h
  rw [if_pos hp] at h
  cases hm : Json.member? f.attr.key members with
  | none =>
    simp only [hm, FieldType.missing?] at h
    cases ho : f.type.optional with
    | true =>
      simp only [ho, if_true, Except.ok.injEq] at h
      subst h
      exact .null ho
    | false =>
      cases hl : f.type.list with
      | true =>
        simp only [ho, hl, if_true, Except.ok.injEq, Bool.false_eq_true, if_false] at h
        subst h
        exact .empty ho hl
      | false => simp [ho, hl] at h
  | some j =>
    cases hj : f.type.ofJson? j with
    | none => simp [hm, hj] at h
    | some w =>
      simp only [hm, hj, Except.ok.injEq] at h
      subst h
      exact .given (FieldType.spells_of_ofJson? hj)

end Document

theorem Kind.hasChildren_of_allows {k c : Kind} (h : k.allows c = true) : k.hasChildren = true := by
  have hc : c ∈ k.childKinds := by simpa [allows] using h
  simpa [hasChildren] using List.ne_nil_of_mem hc

namespace Node

theorem member?_stored {n : Node} {f : Field} {v : Value}
    (h : (f, v) ∈ n.kind.fields.zip n.data.values) (hp : f.persisted = true) :
    Json.member? f.attr.key n.members = some v.toJson :=
  Json.member?_of_mem n.nodup_keys_members
    (mem_members_of_mem (Data.mem_members.2 ⟨(f, v), h, hp, rfl⟩))

theorem mem_keys_members {n : Node} {key : String} :
    key ∈ n.members.map Prod.fst ↔ Document.Known n.kind key := by
  have hdata : key ∈ n.data.members.map Prod.fst ↔
      ∃ f ∈ n.kind.fields, f.persisted = true ∧ f.attr.key = key := by
    rw [kind, ← Data.fst_entries]
    simp only [List.mem_map, Data.mem_members, exists_exists_and_eq_and]
    constructor
    · rintro ⟨_, ⟨e, he, hp, rfl⟩, rfl⟩
      exact ⟨e, he, hp, rfl⟩
    · rintro ⟨e, he, hp, rfl⟩
      exact ⟨_, ⟨e, he, hp, rfl⟩, rfl⟩
  have hlast : key ∈ (if n.kind.hasChildren = true then
        [("children", Json.array (n.children.map toJson))] else []).map Prod.fst ↔
      key = "children" ∧ n.kind.hasChildren = true := by
    cases n.kind.hasChildren <;> simp
  rw [members, List.map_append, List.map_cons, List.map_cons, List.mem_append, List.mem_cons,
    List.mem_cons, hdata, hlast, Document.Known]
  constructor
  · rintro ((h | h) | h | h)
    exacts [.inl h, .inr (.inr (.inr h)), .inr (.inl h), .inr (.inr (.inl h))]
  · rintro (h | h | h | h)
    exacts [.inl (.inl h), .inr (.inl h), .inr (.inr h), .inl (.inr h)]

theorem childItems?_members {n : Node} (h : n.kind.hasChildren = false → n.children = []) :
    Document.childItems? n.members = some (n.children.map toJson) := by
  cases hk : n.kind.hasChildren with
  | true =>
    have hm : Json.member? "children" n.members = some (.array (n.children.map toJson)) :=
      Json.member?_of_mem n.nodup_keys_members (by simp [members, hk])
    simp [Document.childItems?, hm]
  | false =>
    have hkeys : "children" ∉ n.members.map Prod.fst := by
      rw [mem_keys_members]
      rintro (h | h | ⟨-, h⟩ | ⟨f, -, -, h⟩)
      · exact absurd h (by decide)
      · exact absurd h (by decide)
      · simp [hk] at h
      · exact f.attr.key_ne.2.2 h
    have hm : Json.member? "children" n.members = none := by
      rw [Json.member?, Option.map_eq_none_iff, List.find?_eq_none]
      intro m hm hc
      exact hkeys (List.mem_map.2 ⟨m, hm, by simpa using hc⟩)
    simp [Document.childItems?, hm, h hk]

end Node

namespace Draft

theorem forall₂_fill (cs : List Draft) (s : Supply) :
    List.Forall₂ (fun c n => ∃ s, n = (fill c s).1) cs (fill.each cs s).1 := by
  induction cs generalizing s with
  | nil => exact .nil
  | cons c cs ih => exact .cons ⟨s, rfl⟩ (ih _)

/-- Filling in identifiers keeps those of the draft, and all but identifiers. -/
theorem fill_spec (d : Draft) (s : Supply) :
    (d.fill s).1.data = d.data ∧ (∀ u, d.uuid = some u → (d.fill s).1.uuid = u) ∧
      List.Forall₂ (fun c n => ∃ s, n = (fill c s).1) d.children (d.fill s).1.children := by
  obtain ⟨u, d, cs⟩ := d
  cases u with
  | none => exact ⟨rfl, fun u h => (by cases h), forall₂_fill cs _⟩
  | some u => exact ⟨rfl, fun v h => Option.some.inj h, forall₂_fill cs s⟩

end Draft

namespace Document

/-- The stored document of what was read restates the document. -/
theorem restates_of_read {v : Json} {path : List Nat} {d : Draft} (h : read tree path v = .ok d)
    (s : Supply) : Restates v (d.fill s).1.toJson := by
  induction v using inductOn generalizing path d s with
  | h v ih =>
    cases v with
    | object members =>
      obtain ⟨hhead, items, hitems, heach⟩ := read_object_eq_ok.1 h
      obtain ⟨hu, k, hk, hd⟩ := readHead_eq_ok.1 hhead
      obtain ⟨hknown, rfl, hvalues⟩ := readData_eq_ok.1 hd
      obtain ⟨hnamed, -⟩ := readKind_eq_ok.1 hk
      obtain ⟨hread, hallowed⟩ := each_eq_ok heach
      obtain ⟨hdata, huuid, hchildren⟩ := d.fill_spec s
      generalize (d.fill s).1 = n at hdata huuid hchildren
      have hkind : n.kind = d.data.kind := congrArg Data.kind hdata
      have hleaf : n.kind.hasChildren = false → n.children = [] := by
        intro hk
        have hnone : d.children = [] := List.eq_nil_iff_forall_not_mem.2 fun c hc => by
          rw [hkind, Kind.hasChildren_of_allows (hallowed c hc)] at hk
          cases hk
        simpa [hnone] using hchildren
      have hkeys : ∀ key, key ∈ n.members.map Prod.fst ↔ Known d.data.kind key :=
        fun key => hkind ▸ Node.mem_keys_members
      have hname : Json.member? "_type" n.members = some (.string d.data.kind.tag) :=
        hkind ▸ Json.member?_of_mem n.nodup_keys_members (by simp [Node.members])
      have hid : Json.member? "uuid" n.members = some (.string n.uuid.text) :=
        Json.member?_of_mem n.nodup_keys_members (by simp [Node.members])
      have hvalued : ∀ f ∈ d.data.kind.fields, f.persisted = true → f.type.Restates
          (Json.member? f.attr.key members) (Json.member? f.attr.key n.members) := by
        intro f hf hp
        obtain ⟨v, hv, hr⟩ := exists_value_of_mem hvalues hf
        rw [← hdata] at hv
        rw [Node.member?_stored hv hp]
        exact value_restates hp hr
      have hrestate : List.Forall₂ Restates items (n.children.map Node.toJson) := by
        rw [List.forall₂_map_right_iff]
        refine ((List.forall₂_and_left _ _).2
          ⟨ih members items rfl hitems, forall₂_comp hread hchildren⟩).imp ?_
        rintro c m ⟨hc, e, ⟨_, he⟩, s, rfl⟩
        exact hc he s
      rw [n.toJson_eq]
      exact .object n.nodup_keys_members hkeys (fun m hm => (hkeys m.1).2 (hknown m hm)) hnamed hname
        (hid ▸ uuid_restates hu huuid) hvalued hitems (Node.childItems?_members hleaf) hrestate
    | _ => simp [read] at h

/-- Exactly the conforming documents are read, as nodes of the kind to which they conform; and with the
missing identifiers filled in, whatever they are, such a node is stored as a document that restates the
one that was read. -/
theorem read_iff_conforms_and_restates (tree : TreeKind) (path : List Nat) (v : Json) :
    (∀ k, (∃ d, read tree path v = .ok d ∧ d.data.kind = k) ↔ Conforms tree v k) ∧
      ∀ d, read tree path v = .ok d → ∀ s, Restates v (d.fill s).1.toJson := by
  refine ⟨fun k => ⟨?_, fun h => exists_read_of_conforms h path⟩, fun d h s => restates_of_read h s⟩
  rintro ⟨d, h, rfl⟩
  exact conforms_of_read h

/-- An array of one element without identifiers, with a sign that is not written. -/
def oneElement : Json :=
  .object [("children", .array [.object [("default", .string "+1.50"), ("name", .string "E"),
    ("_type", .string "array_parameter_element"), ("access_level_uuid", .null)]]),
    ("_type", .string "array"), ("name", .string "A"), ("length", .integer 1)]

theorem read_iff_conforms_and_restates_oneElement :
    Conforms .parameters oneElement .array ∧ ∃ d, read .parameters [] oneElement = .ok d ∧
      ∀ s, Restates oneElement (d.fill s).1.toJson := by
  have hkind : (read .parameters [] oneElement).toOption.map (·.data.kind) = some .array := by
    decide +kernel
  obtain ⟨hconforms, hrestates⟩ := read_iff_conforms_and_restates .parameters [] oneElement
  cases hd : read .parameters [] oneElement with
  | error e => simp [hd, Except.toOption] at hkind
  | ok d =>
    have hk : d.data.kind = .array := by simpa [hd, Except.toOption] using hkind
    exact ⟨(hconforms .array).1 ⟨d, hd, hk⟩, d, rfl, hrestates d hd⟩

end Document

end DeviceModel
