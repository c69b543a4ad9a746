import DeviceModel.Document.Format
import DeviceModel.Proofs.Json.Scanning
import DeviceModel.Proofs.Schema.Attributes
import DeviceModel.Proofs.Text.Decimal
import DeviceModel.Proofs.Text.Uuid

/-!
Values and attributes in documents. Main statements: a value is read back from its document form
(`ofJson?_toJson`), and the attributes of a node are read back as they are stored (`readData_members`).
-/

namespace DeviceModel

/-- Values that have a written form: integers of 64 bits, identifiers of 128 bits, and decimals whose
sign is not lost with their digits. -/
def Value.Storable : Value → Prop
  | .integer i => Text.is64 i = true
  | .decimal d => d.Storable ∧ (d.mantissa = 0 → d.negative = false)
  | .uuid u => u.Storable
  | .list vs => each vs
  | .null | .string _ | .bool _ => True
where
  each : List Value → Prop
    | [] => True
    | v :: vs => v.Storable ∧ each vs

def Value.decStorable : (v : Value) → Decidable v.Storable
  | .null | .string _ | .bool _ => isTrue trivial
  | .integer i => inferInstanceAs (Decidable (Text.is64 i = true))
  | .decimal d => inferInstanceAs (Decidable (d.Storable ∧ (d.mantissa = 0 → d.negative = false)))
  | .uuid u => inferInstanceAs (Decidable u.Storable)
  | .list vs => decEach vs
where
  decEach : (vs : List Value) → Decidable (Storable.each vs)
    | [] => isTrue trivial
    | v :: vs => @instDecidableAnd _ _ (decStorable v) (decEach vs)

instance : DecidablePred Value.Storable := Value.decStorable

theorem Base.ofJson?_toJson {b : Base} {v : Value} (h : b.holds v = true) (hs : v.Storable) :
    b.ofJson? v.toJson = some v := by
  cases b <;> cases v <;> first | cases h | skip
  case string.string => rfl
  case integer.integer i => simp [ofJson?, Value.toJson, Json.integer?, show Text.is64 i = true from hs]
  case decimal.decimal d =>
    simp [ofJson?, Value.toJson, Json.string?, Decimal.ofText?_text hs.1, Decimal.reread_eq hs.2]
  case bool.bool => rfl
  case uuid.uuid u => simp [ofJson?, Value.toJson, Json.string?, Uuid.ofText?_text (u := u) hs]
  case choice.string names s =>
    have hn : names.contains s = true := h
    simp only [ofJson?, Value.toJson, Json.string?, Option.filter_some, hn, if_true, Option.map_some]

theorem FieldType.itemsOfJson?_toJson {b : Base} {vs : List Value} (h : vs.all b.holds = true)
    (hs : Value.Storable.each vs) : itemsOfJson? b (Value.toJson.each vs) = some vs := by
  induction vs with
  | nil => rfl
  | cons v vs ih =>
    rw [List.all_cons, Bool.and_eq_true] at h
    simp [Value.toJson.each, itemsOfJson?, Base.ofJson?_toJson h.1 hs.1, ih h.2 hs.2]

/-- A value of a type is read back from its document form. -/
theorem FieldType.ofJson?_toJson {t : FieldType} {v : Value} (h : t.holds v = true)
    (hs : v.Storable) : t.ofJson? v.toJson = some v := by
  cases v with
  | null => simp_all [holds, ofJson?, Value.toJson]
  | list vs =>
    simp only [holds, Bool.and_eq_true] at h
    simp [ofJson?, Value.toJson, h.1, itemsOfJson?_toJson h.2 hs]
  | _ =>
    simp only [holds, Bool.and_eq_true, Bool.not_eq_true'] at h
    have hb := Base.ofJson?_toJson h.2 hs
    simp only [Value.toJson] at hb ⊢
    simp [ofJson?, h.1, hb]

theorem Value.plain_each {vs : List Value} (h : ∀ v ∈ vs, v.Storable → v.toJson.Plain)
    (hs : Storable.each vs) : ∀ j ∈ toJson.each vs, j.Plain := by
  induction vs with
  | nil => simp [toJson.each]
  | cons v vs ih =>
    intro j hj
    rcases List.mem_cons.1 hj with rfl | hj
    · exact h v (by simp) hs.1
    · exact ih (fun w hw => h w (by simp [hw])) hs.2 j hj

theorem Value.plain_toJson : {v : Value} → v.Storable → v.toJson.Plain
  | .null, _ => .null
  | .string s, _ => .string s
  | .integer _, h => .integer h
  | .decimal d, _ => .string d.text
  | .bool b, _ => .bool b
  | .uuid u, _ => .string u.text
  | .list _, h => .array (plain_each (fun _ _ => plain_toJson) h)

/-! ### Attributes -/

namespace Attr

theorem key_inj {a b : Attr} (h : a.key = b.key) : a = b :=
  Option.some.inj ((ofKey?_key a).symm.trans (h ▸ ofKey?_key b))

/-- No attribute has a key that a document uses for something else. -/
theorem key_ne (a : Attr) : a.key ≠ "_type" ∧ a.key ≠ "uuid" ∧ a.key ≠ "children" := by
  cases a <;> decide

end Attr

namespace Data

/-- The values that files keep; the others begin anew. -/
def kept : List Field → List Value → List Value
  | f :: fs, v :: vs => (if f.persisted then v else f.type.initial) :: kept fs vs
  | _, _ => []

theorem conforms_kept {fs : List Field} {vs : List Value}
    (hi : ∀ f ∈ fs, f.type.holds f.type.initial = true) (h : conforms fs vs = true) :
    conforms fs (kept fs vs) = true := by
  induction fs generalizing vs with
  | nil => cases vs <;> simp_all [kept, conforms]
  | cons f fs ih =>
    cases vs with
    | nil => simp [conforms] at h
    | cons v vs =>
      rw [conforms, Bool.and_eq_true] at h
      have hfs := ih (fun g hg => hi g (by simp [hg])) h.2
      rw [kept, conforms, hfs, Bool.and_true]
      split
      · exact h.1
      · exact hi f (by simp)

/-- The attributes as they come back from a file. -/
def stored (d : Data) : Data :=
  ⟨d.kind, kept d.kind.fields d.values, conforms_kept Document.holds_initial_of_mem d.typed⟩

@[simp] theorem kind_stored (d : Data) : d.stored.kind = d.kind := rfl

theorem lookUp_kept {a : Attr} {f : Field} {fs : List Field} {vs : List Value}
    (hf : fs.find? (·.attr == a) = some f) (h : conforms fs vs = true) :
    lookUp a fs (kept fs vs) = if f.persisted then lookUp a fs vs else some f.type.initial := by
  induction fs generalizing vs with
  | nil => cases hf
  | cons g fs ih =>
    cases vs with
    | nil => simp [conforms] at h
    | cons v vs =>
      rw [conforms, Bool.and_eq_true] at h
      by_cases hg : g.attr = a
      · rw [List.find?_cons_of_pos (by simpa using hg)] at hf
        cases hf
        rw [kept, lookUp, lookUp, if_pos hg, if_pos hg]
        split <;> rfl
      · rw [List.find?_cons_of_neg (by simpa using hg)] at hf
        rw [kept, lookUp, lookUp, if_neg hg, if_neg hg]
        exact ih hf h.2

/-- What a file keeps reads as before, and the rest as in a new node. -/
theorem get?_stored {d : Data} {a : Attr} {f : Field} (hf : d.kind.field? a = some f) :
    d.stored.get? a = if f.persisted then d.get? a else some f.type.initial :=
  lookUp_kept hf d.typed

/-- Attributes that files all keep read as before. -/
theorem get?_stored_of_persisted {d : Data} {a : Attr}
    (h : ∀ f ∈ d.kind.field? a, f.persisted = true) : d.stored.get? a = d.get? a := by
  cases hf : d.kind.field? a with
  | none =>
    have hs : d.stored.kind.field? a = none := hf
    rw [get?_eq_none.2 hf, get?_eq_none.2 hs]
  | some f => rw [get?_stored hf, if_pos (h f hf)]

theorem stored_stored (d : Data) : d.stored.stored = d.stored := by
  refine ext_get? rfl fun a => ?_
  cases hf : d.kind.field? a with
  | none =>
    have hs : d.stored.kind.field? a = none := hf
    have hss : d.stored.stored.kind.field? a = none := hf
    rw [get?_eq_none.2 hs, get?_eq_none.2 hss]
  | some f =>
    have hs : d.stored.kind.field? a = some f := hf
    rw [get?_stored hs, get?_stored hf]
    split <;> rfl

theorem stored_put {d : Data} {a : Attr} (h : ∀ f ∈ d.kind.field? a, f.persisted = false) (v : Value) :
    (d.put a v).stored = d.stored := by
  refine ext_get? (kind_put d a v) fun b => ?_
  cases hf : d.kind.field? b with
  | none =>
    have hs : d.stored.kind.field? b = none := hf
    have hp : (d.put a v).stored.kind.field? b = none := by rwa [kind_stored, kind_put]
    rw [get?_eq_none.2 hs, get?_eq_none.2 hp]
  | some f =>
    have hp : (d.put a v).kind.field? b = some f := by rwa [kind_put]
    rw [get?_stored hf, get?_stored hp]
    split
    · rename_i hfp
      refine get?_put_of_ne ?_ d v
      rintro rfl
      rw [h f hf] at hfp
      cases hfp
    · rfl

theorem filter_zip_kept {β : Type} (g : Field → Value → β) (fs : List Field) (vs : List Value) :
    ((fs.zip (kept fs vs)).filter (·.1.persisted)).map (fun e => g e.1 e.2) =
      ((fs.zip vs).filter (·.1.persisted)).map fun e => g e.1 e.2 := by
  induction fs generalizing vs with
  | nil => rfl
  | cons f fs ih =>
    cases vs with
    | nil => rfl
    | cons v vs => cases hf : f.persisted <;> simp [kept, hf, ih]

theorem members_stored (d : Data) : d.stored.members = d.members :=
  filter_zip_kept (fun f v => (f.attr.key, v.toJson)) d.kind.fields d.values

/-- Stored attributes whose values all have a written form. -/
def Storable (d : Data) : Prop := ∀ e ∈ d.entries, e.1.persisted = true → e.2.Storable

instance (d : Data) : Decidable d.Storable :=
  inferInstanceAs (Decidable (∀ e ∈ d.entries, e.1.persisted = true → e.2.Storable))

theorem mem_members {d : Data} {m : String × Json} :
    m ∈ d.members ↔ ∃ e ∈ d.entries, e.1.persisted = true ∧ m = (e.1.attr.key, e.2.toJson) := by
  simp only [members, List.mem_map, List.mem_filter, Prod.exists]
  constructor
  · rintro ⟨f, v, ⟨he, hp⟩, rfl⟩; exact ⟨f, v, he, hp, rfl⟩
  · rintro ⟨f, v, he, hp, rfl⟩; exact ⟨f, v, ⟨he, hp⟩, rfl⟩

theorem fst_entries (d : Data) : d.entries.map Prod.fst = d.kind.fields :=
  List.map_fst_zip (Nat.le_of_eq (length_of_conforms d.typed).symm)

theorem nodup_keys_members (d : Data) : (d.members.map Prod.fst).Nodup := by
  have hkeys : d.members.map Prod.fst =
      (((d.entries.filter (·.1.persisted)).map Prod.fst).map Field.attr).map Attr.key := by
    simp only [members, List.map_map, Function.comp_def]
  have hsub : (((d.entries.filter (·.1.persisted)).map Prod.fst).map Field.attr).Sublist
      (d.kind.fields.map Field.attr) := by
    rw [← fst_entries]
    exact (List.filter_sublist.map _).map _
  rw [hkeys]
  exact (hsub.nodup d.kind.nodup_attrs).map fun a b h => Attr.key_inj h

theorem ne_of_mem_members {d : Data} {m : String × Json} (h : m ∈ d.members) :
    m.1 ≠ "_type" ∧ m.1 ≠ "uuid" ∧ m.1 ≠ "children" := by
  obtain ⟨e, -, -, rfl⟩ := mem_members.1 h
  exact e.1.attr.key_ne

end Data

end DeviceModel
