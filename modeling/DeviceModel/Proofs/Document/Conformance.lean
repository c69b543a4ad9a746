import DeviceModel.Proofs.Document.RoundTrip

/-!
The documents that are read. A document conforms if it has the keys, the values and the children that
the schema gives its kind, at every level. Main statement: the conforming documents are read, and no
others (`conforms_of_read`, `exists_read_of_conforms`).
-/

namespace DeviceModel

/-! ### Spellings of values -/

/-- `j` spells a value of a base, and `c` is how that value is written. -/
inductive Base.Spells : Base → Json → Json → Prop
  | string (s : String) : Spells .string (.string s) (.string s)
  | integer {i : Int} (fits : -2 ^ 63 ≤ i ∧ i < 2 ^ 63) : Spells .integer (.integer i) (.integer i)
  | decimal {s : String} {d : Decimal} (reads : Decimal.ofText? s = some d) :
    Spells .decimal (.string s) (.string d.text)
  | bool (b : Bool) : Spells .bool (.bool b) (.bool b)
  | uuid {s : String} {u : Uuid} (reads : Uuid.ofText? s = some u) :
    Spells .uuid (.string s) (.string u.text)
  | choice {names : List String} {s : String} (named : s ∈ names) :
    Spells (.choice names) (.string s) (.string s)

/-- `j` spells a value of a type, and `c` is how that value is written. -/
inductive FieldType.Spells (t : FieldType) : Json → Json → Prop
  | null (optional : t.optional = true) : Spells t .null .null
  | single {j c : Json} (single : t.list = false) (spells : t.base.Spells j c) : Spells t j c
  | list {js cs : List Json} (list : t.list = true) (spell : List.Forall₂ t.base.Spells js cs) :
    Spells t (.array js) (.array cs)

namespace Base

variable {b : Base} {j c : Json}

theorem spells_of_ofJson? {v : Value} (h : b.ofJson? j = some v) : b.Spells j v.toJson := by
  cases b <;> simp only [ofJson?, Option.map_eq_some_iff, Option.bind_eq_bind,
    Option.bind_eq_some_iff, Option.filter_eq_some_iff] at h
  case string =>
    obtain ⟨s, hs, rfl⟩ := h
    cases j <;> cases hs
    exact .string s
  case integer =>
    obtain ⟨i, hi, rfl⟩ := h
    cases j <;> simp only [Json.integer?, reduceCtorEq] at hi
    split at hi
    · rename_i hfits
      cases hi
      exact .integer (Text.is64_iff.1 hfits)
    · cases hi
  case decimal =>
    obtain ⟨d, ⟨s, hs, hd⟩, rfl⟩ := h
    cases j <;> cases hs
    exact .decimal hd
  case bool =>
    obtain ⟨x, hx, rfl⟩ := h
    cases j <;> cases hx
    exact .bool x
  case uuid =>
    obtain ⟨u, ⟨s, hs, hu⟩, rfl⟩ := h
    cases j <;> cases hs
    exact .uuid hu
  case choice names =>
    obtain ⟨s, ⟨hs, hn⟩, rfl⟩ := h
    cases j <;> cases hs
    exact .choice (by simpa using hn)

theorem Spells.exists_ofJson? (h : b.Spells j c) : ∃ v, b.ofJson? j = some v := by
  cases h with
  | string s => exact ⟨_, rfl⟩
  | @integer i fits =>
    exact ⟨.integer i, by simp [ofJson?, Json.integer?, Text.is64_iff.2 fits]⟩
  | @decimal s d reads => exact ⟨.decimal d, by simp [ofJson?, Json.string?, reads]⟩
  | bool b => exact ⟨_, rfl⟩
  | @uuid s u reads => exact ⟨.uuid u, by simp [ofJson?, Json.string?, reads]⟩
  | @choice names s named =>
    have hn : names.contains s = true := by simpa using named
    exact ⟨.string s, by simp only [ofJson?, Json.string?, Option.filter_some, hn]; rfl⟩

end Base

namespace FieldType

variable {t : FieldType} {j c : Json}

theorem spell_of_itemsOfJson? {b : Base} {js : List Json} {vs : List Value}
    (h : itemsOfJson? b js = some vs) : List.Forall₂ b.Spells js (Value.toJson.each vs) := by
  induction js generalizing vs with
  | nil => cases h; exact .nil
  | cons j js ih =>
    simp only [itemsOfJson?, Option.bind_eq_bind, Option.bind_eq_some_iff] at h
    obtain ⟨v, hv, us, hus, h⟩ := h
    cases h
    exact .cons (Base.spells_of_ofJson? hv) (ih hus)

theorem exists_itemsOfJson? {b : Base} {js cs : List Json} (h : List.Forall₂ b.Spells js cs) :
    ∃ vs, itemsOfJson? b js = some vs := by
  induction h with
  | nil => exact ⟨_, rfl⟩
  | cons hj _ ih =>
    obtain ⟨v, hv⟩ := hj.exists_ofJson?
    obtain ⟨vs, hvs⟩ := ih
    exact ⟨v :: vs, by simp [itemsOfJson?, hv, hvs]⟩

/-- What is read of a type is spelled there, and is written as that spelling says. -/
theorem spells_of_ofJson? {v : Value} (h : t.ofJson? j = some v) : t.Spells j v.toJson := by
  unfold ofJson? at h
  split at h
  · split at h
    · rename_i ho; cases h; exact .null ho
    · cases h
  · split at h
    · rename_i hl
      obtain ⟨vs, hvs, rfl⟩ := Option.map_eq_some_iff.1 h
      exact .list hl (spell_of_itemsOfJson? hvs)
    · cases h
  · split at h
    · cases h
    · rename_i hl; exact .single (by simpa using hl) (Base.spells_of_ofJson? h)

theorem Spells.exists_ofJson? (h : t.Spells j c) : ∃ v, t.ofJson? j = some v := by
  cases h with
  | null ho => exact ⟨.null, by simp [ofJson?, ho]⟩
  | single hl hb =>
    obtain ⟨v, hv⟩ := hb.exists_ofJson?
    -- No base has null or a list among its values.
    have ht : t.ofJson? j = t.base.ofJson? j := by
      obtain ⟨b, o, l⟩ := t
      cases hb <;> simp [ofJson?, show l = false from hl]
    exact ⟨v, ht.trans hv⟩
  | list hl hs =>
    obtain ⟨vs, hvs⟩ := exists_itemsOfJson? hs
    exact ⟨.list vs, by simp [ofJson?, hl, hvs]⟩

end FieldType

/-! ### Conforming documents -/

namespace Document

/-- The documents of the children of a node, none where the member is absent. -/
def childItems? (members : List (String × Json)) : Option (List Json) :=
  match Json.member? "children" members with
  | none => some []
  | some (.array items) => some items
  | some _ => none

/-- A document has no identifier, or one that can be read. -/
def Identified (members : List (String × Json)) : Prop :=
  Json.member? "uuid" members = none ∨ Json.member? "uuid" members = some .null ∨
    ∃ s u, Json.member? "uuid" members = some (.string s) ∧ Uuid.ofText? s = some u

/-- The keys that the document of a node of kind `k` may have. -/
def Known (k : Kind) (key : String) : Prop :=
  key = "_type" ∨ key = "uuid" ∨ (key = "children" ∧ k.hasChildren = true) ∨
    ∃ f ∈ k.fields, f.persisted = true ∧ f.attr.key = key

/-- A document has a value of the type of an attribute, or lacks one that may be left out. -/
def Valued (members : List (String × Json)) (f : Field) : Prop :=
  (∃ j c, Json.member? f.attr.key members = some j ∧ f.type.Spells j c) ∨
    (Json.member? f.attr.key members = none ∧ (f.type.optional = true ∨ f.type.list = true))

/-- `v` is the document of a node of a kind of `tree`, with all below it. -/
inductive Conforms (tree : TreeKind) : Json → Kind → Prop
  | object {members : List (String × Json)} {k : Kind} {items : List Json} {kinds : List Kind}
    (identified : Identified members)
    (named : Json.member? "_type" members = some (.string k.tag))
    (here : k.tree = tree)
    (known : ∀ m ∈ members, Known k m.1)
    (valued : ∀ f ∈ k.fields, f.persisted = true → Valued members f)
    (listed : childItems? members = some items)
    (conform : List.Forall₂ (Conforms tree) items kinds)
    (allowed : ∀ c ∈ kinds, k.allows c = true) :
    Conforms tree (.object members) k

/-! ### One node -/

variable {tree : TreeKind} {members : List (String × Json)} {k : Kind}

theorem identified_iff : Identified members ↔ ∃ u, readUuid? members = .ok u := by
  unfold Identified readUuid?
  cases h : Json.member? "uuid" members with
  | none => simp
  | some j =>
    cases j with
    | string s => cases hu : Uuid.ofText? s <;> simp [hu]
    | _ => simp

theorem readKind_eq_ok : readKind tree members = .ok k ↔
    Json.member? "_type" members = some (.string k.tag) ∧ k.tree = tree := by
  constructor
  · intro h
    unfold readKind at h
    split at h
    · cases h
    · rename_i tag htag
      split at h
      · rename_i l hl
        cases h
        obtain ⟨hof, htree⟩ := Option.filter_eq_some_iff.1 hl
        obtain ⟨j, hj, hs⟩ := Option.bind_eq_some_iff.1 htag
        have ht : k.tag = tag := by simpa using List.find?_some hof
        cases j <;> cases hs
        exact ⟨by rw [hj, ht], by simpa using htree⟩
      · cases h
  · rintro ⟨hm, rfl⟩
    simp [readKind, hm, Json.string?, Kind.ofTag?_tag, Option.filter_some]

theorem known_iff {key : String} : Known k key ↔ knowsKey k key = true := by
  have hs : (storedField? k key).isSome = true ↔
      ∃ f ∈ k.fields, f.persisted = true ∧ f.attr.key = key := by
    simp [storedField?, List.find?_isSome]
  simp [Known, knowsKey, hs, or_assoc]

theorem valued_iff {f : Field} (hf : f.persisted = true) :
    Valued members f ↔ ∃ v, readValue members f = .ok v := by
  unfold Valued readValue
  rw [if_pos hf]
  cases Json.member? f.attr.key members with
  | none => cases ho : f.type.optional <;> cases hl : f.type.list <;> simp [FieldType.missing?, ho, hl]
  | some j =>
    constructor
    · rintro (⟨j, c, hj, hs⟩ | ⟨hj, -⟩)
      · cases hj
        obtain ⟨v, hv⟩ := hs.exists_ofJson?
        exact ⟨v, by simp [hv]⟩
      · cases hj
    · rintro ⟨v, hv⟩
      cases ht : f.type.ofJson? j with
      | none => simp [ht] at hv
      | some w => exact .inl ⟨j, w.toJson, rfl, FieldType.spells_of_ofJson? ht⟩

theorem exists_value_of_mem {fs : List Field} {vs : List Value} {f : Field}
    (h : readValues members fs = .ok vs) (hf : f ∈ fs) :
    ∃ v, (f, v) ∈ fs.zip vs ∧ readValue members f = .ok v := by
  induction fs generalizing vs with
  | nil => cases hf
  | cons g fs ih =>
    simp only [readValues] at h
    split at h
    · cases h
    · rename_i w hw
      split at h
      · cases h
      · rename_i ws hws
        cases h
        rcases List.mem_cons.1 hf with rfl | hf
        · exact ⟨w, by simp, hw⟩
        · obtain ⟨v, hv, hr⟩ := ih hws hf
          exact ⟨v, by simp [hv], hr⟩

theorem exists_readValues {fs : List Field} (h : ∀ f ∈ fs, ∃ v, readValue members f = .ok v) :
    ∃ vs, readValues members fs = .ok vs := by
  induction fs with
  | nil => exact ⟨[], rfl⟩
  | cons f fs ih =>
    obtain ⟨v, hv⟩ := h f (by simp)
    obtain ⟨vs, hvs⟩ := ih fun g hg => h g (by simp [hg])
    exact ⟨v :: vs, by simp [readValues, hv, hvs]⟩

theorem readData_eq_ok {d : Data} : readData k members = .ok d ↔
    (∀ m ∈ members, Known k m.1) ∧ d.kind = k ∧ readValues members k.fields = .ok d.values := by
  have hknown : members.find? (fun m => !knowsKey k m.1) = none ↔ ∀ m ∈ members, Known k m.1 := by
    simp [List.find?_eq_none, known_iff]
  rw [← hknown]
  unfold readData
  split
  · rename_i hm; simp [hm]
  · rename_i hm
    split
    · rename_i vs hvs
      constructor
      · intro h
        cases h
        exact ⟨hm, rfl, hvs⟩
      · rintro ⟨-, rfl, h⟩
        cases hvs.symm.trans h
        rfl
    · rename_i e he
      simp [he]

theorem readHead_eq_ok {path : List Nat} {u : Option Uuid} {d : Data} :
    readHead tree path members = .ok (u, d) ↔ readUuid? members = .ok u ∧
      ∃ k, readKind tree members = .ok k ∧ readData k members = .ok d := by
  unfold readHead
  cases readUuid? members with
  | error e => simp
  | ok w =>
    cases readKind tree members with
    | error e => simp [bind, Except.bind]
    | ok k => cases hd : readData k members <;> simp [bind, Except.bind, hd]

/-! ### Children -/

theorem children_eq_ok {path : List Nat} {u : Option Uuid} {d : Data} {cs : List Draft} :
    read.children tree path u d members = .ok cs ↔
      ∃ items, childItems? members = some items ∧ read.each tree path d.kind 0 items = .ok cs := by
  induction members with
  | nil => simp [read.children, childItems?, Json.member?, read.each]
  | cons m ms ih =>
    obtain ⟨key, j⟩ := m
    by_cases hk : key = "children"
    · subst hk
      cases j <;> simp [read.children, childItems?, Json.member?]
    · have hm : childItems? ((key, j) :: ms) = childItems? ms := by
        simp [childItems?, Json.member?, hk]
      rw [hm, ← ih]
      cases j <;> simp [read.children, hk]

theorem read_object_eq_ok {path : List Nat} {d : Draft} : read tree path (.object members) = .ok d ↔
    readHead tree path members = .ok (d.uuid, d.data) ∧
      ∃ items, childItems? members = some items ∧
        read.each tree path d.data.kind 0 items = .ok d.children := by
  obtain ⟨u, d, cs⟩ := d
  rw [read, ← children_eq_ok (u := u)]
  cases readHead tree path members with
  | error e => simp
  | ok w =>
    obtain ⟨v, e⟩ := w
    constructor
    · intro h
      cases hc : read.children tree path v e members with
      | error e => simp [hc] at h
      | ok cs =>
        simp only [hc, Except.ok.injEq, Draft.mk.injEq] at h
        obtain ⟨rfl, rfl, rfl⟩ := h
        exact ⟨rfl, hc⟩
    · rintro ⟨h, hc⟩
      cases h
      simp [hc]

/-- The children of a node are read one by one, and each is of a kind allowed there. -/
theorem each_eq_ok {path : List Nat} {items : List Json} {i : Nat} {cs : List Draft}
    (h : read.each tree path k i items = .ok cs) :
    List.Forall₂ (fun v c => ∃ path, read tree path v = .ok c) items cs ∧
      ∀ c ∈ cs, k.allows c.data.kind = true := by
  induction items generalizing i cs with
  | nil => cases h; simp
  | cons v vs ih =>
    simp only [read.each] at h
    split at h
    · cases h
    · rename_i c hc
      split at h
      · cases h
      · rename_i hk
        split at h
        · cases h
        · rename_i ds hds
          cases h
          obtain ⟨hvs, hks⟩ := ih hds
          refine ⟨.cons ⟨_, hc⟩ hvs, ?_⟩
          simpa using ⟨by simpa using hk, hks⟩

theorem exists_each {path : List Nat} {items : List Json} {kinds : List Kind} (i : Nat)
    (h : List.Forall₂
      (fun v l => ∀ path, ∃ d, read tree path v = .ok d ∧ d.data.kind = l) items kinds)
    (hk : ∀ l ∈ kinds, k.allows l = true) : ∃ cs, read.each tree path k i items = .ok cs := by
  induction h generalizing i with
  | nil => exact ⟨[], rfl⟩
  | @cons v l vs ls hv _ ih =>
    obtain ⟨d, hd, rfl⟩ := hv (path ++ [i])
    obtain ⟨cs, hcs⟩ := ih (i + 1) fun l hl => hk l (by simp [hl])
    exact ⟨d :: cs, by simp [read.each, hd, hk d.data.kind (by simp), hcs]⟩

theorem sizeOf_lt_of_item {items : List Json} {c : Json} (h : childItems? members = some items)
    (hc : c ∈ items) : sizeOf c < sizeOf (Json.object members) := by
  unfold childItems? at h
  split at h
  · cases h; cases hc
  · rename_i js hm
    cases h
    obtain ⟨⟨key, j⟩, hfind, rfl⟩ := Option.map_eq_some_iff.1 hm
    have hj := List.sizeOf_lt_of_mem (List.mem_of_find?_eq_some hfind)
    have hcj := List.sizeOf_lt_of_mem hc
    simp only [Prod.mk.sizeOf_spec, Json.array.sizeOf_spec] at hj
    simp only [Json.object.sizeOf_spec]
    omega
  · cases h

/-- Induction over documents, from the documents of the children to that of the node. -/
theorem inductOn {P : Json → Prop} (v : Json)
    (h : ∀ v, (∀ members items, v = .object members → childItems? members = some items →
      ∀ c ∈ items, P c) → P v) : P v :=
  h v fun _ _ hv hi c hc =>
    have : sizeOf c < sizeOf v := hv ▸ sizeOf_lt_of_item hi hc
    inductOn c h
termination_by sizeOf v

/-- What is read conforms. -/
theorem conforms_of_read {v : Json} {path : List Nat} {d : Draft} (h : read tree path v = .ok d) :
    Conforms tree v d.data.kind := by
  induction v using inductOn generalizing path d with
  | h v ih =>
    cases v with
    | object members =>
      obtain ⟨hhead, items, hitems, heach⟩ := read_object_eq_ok.1 h
      obtain ⟨hu, k, hk, hd⟩ := readHead_eq_ok.1 hhead
      obtain ⟨hknown, rfl, hvalues⟩ := readData_eq_ok.1 hd
      obtain ⟨hnamed, hhere⟩ := readKind_eq_ok.1 hk
      obtain ⟨hread, hallowed⟩ := each_eq_ok heach
      have hvalued : ∀ f ∈ d.data.kind.fields, f.persisted = true → Valued members f := by
        intro f hf hp
        obtain ⟨v, -, hv⟩ := exists_value_of_mem hvalues hf
        exact (valued_iff hp).2 ⟨v, hv⟩
      have hconform : List.Forall₂ (Conforms tree) items (d.children.map (·.data.kind)) := by
        rw [List.forall₂_map_right_iff]
        refine ((List.forall₂_and_left _ _).2 ⟨ih members items rfl hitems, hread⟩).imp ?_
        rintro c e ⟨hc, _, he⟩
        exact hc he
      exact .object (identified_iff.2 ⟨_, hu⟩) hnamed hhere hknown hvalued hitems hconform
        (by simpa using hallowed)
    | _ => simp [read] at h

/-- Whatever conforms is read. -/
theorem exists_read_of_conforms {v : Json} {k : Kind} (h : Conforms tree v k) (path : List Nat) :
    ∃ d, read tree path v = .ok d ∧ d.data.kind = k := by
  induction v using inductOn generalizing path k with
  | h v ih =>
    cases h with
    | @object members _ items kinds identified named here known valued listed conform allowed =>
      obtain ⟨u, hu⟩ := identified_iff.1 identified
      have hvalues : ∃ vs, readValues members k.fields = .ok vs := by
        refine exists_readValues fun f hf => ?_
        cases hp : f.persisted with
        | true => exact (valued_iff hp).1 (valued f hf hp)
        | false => exact ⟨f.type.initial, by simp [readValue, hp]⟩
      obtain ⟨vs, hvs⟩ := hvalues
      let data : Data := ⟨k, vs, conforms_readValues holds_initial_of_mem hvs⟩
      have hhead : readHead tree path members = .ok (u, data) :=
        readHead_eq_ok.2 ⟨hu, k, readKind_eq_ok.2 ⟨named, here⟩, readData_eq_ok.2 ⟨known, rfl, hvs⟩⟩
      have hread : List.Forall₂
          (fun v l => ∀ path, ∃ d, read tree path v = .ok d ∧ d.data.kind = l) items kinds :=
        ((List.forall₂_and_left _ _).2 ⟨ih members items rfl listed, conform⟩).imp
          fun c l hc path => hc.1 hc.2 path
      obtain ⟨cs, hcs⟩ := exists_each 0 hread allowed
      exact ⟨⟨u, data, cs⟩, read_object_eq_ok.2 ⟨hhead, items, listed, hcs⟩, rfl⟩

end Document

end DeviceModel
