import DeviceModel.Proofs.Schema.Entering

/-!
Values that a type accepts, and values that an attribute can be set to. Main statements: a type accepts its own
values and those of other types in whose document form it reads one of its own (`FieldType.accepts_iff`), and an
attribute can be set to the values of its type, decimals also to integers (`FieldType.isSome_coerce?_iff`); for all
other values accepting and setting agree, and what was set is read back (`Data.accepts_iff_isOk_set`).
-/

namespace DeviceModel

theorem Decimal.ofText?_uuid (u : Uuid) : Decimal.ofText? u.text = none := by
  cases h : Decimal.ofText? u.text with
  | none => rfl
  | some d =>
    rw [Decimal.ofText?, Uuid.text, String.toList_ofList] at h
    have hfew := Decimal.count_minus_of_ofChars? h
    have hmany := u.count_minus_chars
    omega

theorem Uuid.ofText?_decimal {d : Decimal} (hd : d.Storable) : Uuid.ofText? d.text = none := by
  cases h : Uuid.ofText? d.text with
  | none => rfl
  | some u =>
    rw [Uuid.ofText?, Decimal.text, String.toList_ofList] at h
    have hlong := Uuid.length_of_ofChars? h
    have hshort := Decimal.length_chars_le hd
    omega

/-! ### Single values -/

namespace Base

/-- A value of another base, in whose document form one of this base is read. -/
def Misreads : Base → Value → Prop
  | .string, .decimal _ | .string, .uuid _ => True
  | .decimal, .string s => (Decimal.ofText? s).isSome = true
  | .uuid, .string s => (Uuid.ofText? s).isSome = true
  | _, _ => False

/-- An integer that stands for a decimal number. -/
def Widens : Base → Value → Prop
  | .decimal, .integer _ => True
  | _, _ => False

/-- No name of a choice is the text of a number or of an identifier. -/
def NamesOnly : Base → Prop
  | .choice names => ∀ s ∈ names, Decimal.ofText? s = none ∧ Uuid.ofText? s = none
  | _ => True

instance : DecidablePred NamesOnly
  | .choice names => inferInstanceAs (Decidable (∀ s ∈ names, Decimal.ofText? s = none ∧ Uuid.ofText? s = none))
  | .string | .integer | .decimal | .bool | .uuid => inferInstanceAs (Decidable True)

variable {b : Base} {v : Value}

theorem Misreads.not_holds (h : b.Misreads v) : b.holds v = false := by
  cases b <;> cases v <;> first | rfl | cases h

theorem Misreads.not_widens (h : b.Misreads v) : ¬b.Widens v := by
  cases b <;> cases v <;> first | exact id | cases h

theorem Widens.not_holds (h : b.Widens v) : b.holds v = false := by
  cases b <;> cases v <;> first | rfl | cases h

theorem isSome_ofJson?_iff (hb : b.NamesOnly) (hv : v.InRange) :
    (b.ofJson? v.toJson).isSome = true ↔ b.holds v = true ∨ b.Misreads v := by
  -- Most documents of one base are no documents of another; the others are decided by the texts.
  cases b <;> cases v <;> first
    | (simp [ofJson?, Value.toJson, Json.string?, Json.integer?, Json.bool?, holds, Misreads]; done)
    | skip
  case integer.integer i =>
    have hi : Text.is64 i = true := hv
    simp [ofJson?, Value.toJson, Json.integer?, hi, holds]
  case decimal.decimal d =>
    have hd : d.Storable := hv
    simp [ofJson?, Value.toJson, Json.string?, Decimal.ofText?_text hd, holds]
  case decimal.uuid u => simp [ofJson?, Value.toJson, Json.string?, Decimal.ofText?_uuid, holds, Misreads]
  case uuid.decimal d =>
    have hd : d.Storable := hv
    simp [ofJson?, Value.toJson, Json.string?, Uuid.ofText?_decimal hd, holds, Misreads]
  case uuid.uuid u =>
    have hu : u.Storable := hv
    simp [ofJson?, Value.toJson, Json.string?, Uuid.ofText?_text hu, holds]
  case choice.decimal names d =>
    have hd : d.Storable := hv
    have hnot : d.text ∉ names := fun h => by simpa [(hb _ h).1] using Decimal.ofText?_text hd
    simp [ofJson?, Value.toJson, Json.string?, hnot, holds, Misreads]
  case choice.uuid names u =>
    have hu : u.Storable := hv
    have hnot : u.text ∉ names := fun h => by simpa [(hb _ h).2] using Uuid.ofText?_text hu
    simp [ofJson?, Value.toJson, Json.string?, hnot, holds, Misreads]

theorem isSome_coerce?_iff : (b.coerce? v).isSome = true ↔ b.holds v = true ∨ b.Widens v := by
  cases b <;> cases v <;> simp [coerce?, holds, Widens]

end Base

/-! ### Values of attributes -/

namespace Value

/-- Integers, decimals and identifiers are in range, those in a list too. -/
def Fits : Value → Prop
  | .list vs => ∀ v ∈ vs, v.InRange
  | v => v.InRange

def isSingle : Value → Bool
  | .null | .list _ => false
  | _ => true

end Value

namespace FieldType

/-- The same for an attribute. A list is misread for one of its items. -/
def Misreads (t : FieldType) : Value → Prop
  | .list vs => t.list = true ∧ (∀ v ∈ vs, t.base.holds v = true ∨ t.base.Misreads v) ∧ ∃ v ∈ vs, t.base.Misreads v
  | v => t.list = false ∧ t.base.Misreads v

def Widens (t : FieldType) (v : Value) : Prop := t.list = false ∧ t.base.Widens v

variable {t : FieldType} {v : Value}

theorem holds_single (t : FieldType) (h : v.isSingle = true) : t.holds v = (!t.list && t.base.holds v) := by
  cases v <;> first | rfl | cases h

theorem misreads_single (h : v.isSingle = true) : t.Misreads v ↔ t.list = false ∧ t.base.Misreads v := by
  cases v <;> first | rfl | cases h

theorem accepts_single (t : FieldType) (h : v.isSingle = true) :
    t.accepts v = (!t.list && (t.base.ofJson? v.toJson).isSome) := by
  cases v <;> cases h
  all_goals
    rw [accepts, Value.toJson, ofJson?]
    · split <;> simp [*]
    all_goals
      intros
      contradiction

theorem coerce?_single (t : FieldType) (h : v.isSingle = true) :
    t.coerce? v = if t.list then none else t.base.coerce? v := by
  cases v <;> cases h <;> simp [coerce?, Value.isNull]

theorem isSome_itemsOfJson?_iff {b : Base} {vs : List Value} :
    (itemsOfJson? b (Value.toJson.each vs)).isSome = true ↔ ∀ v ∈ vs, (b.ofJson? v.toJson).isSome = true := by
  induction vs with
  | nil => simp [Value.toJson.each, itemsOfJson?]
  | cons v vs ih =>
    rw [List.forall_mem_cons, ← ih, Value.toJson.each, itemsOfJson?]
    cases b.ofJson? v.toJson <;> cases itemsOfJson? b (Value.toJson.each vs) <;> simp

theorem isSome_coerceItems?_iff {b : Base} {vs : List Value} :
    (coerceItems? b vs).isSome = true ↔ ∀ v ∈ vs, (b.coerce? v).isSome = true := by
  induction vs with
  | nil => simp [coerceItems?]
  | cons v vs ih =>
    rw [List.forall_mem_cons, ← ih, coerceItems?]
    cases b.coerce? v <;> cases coerceItems? b vs <;> simp

/-- Accepted are the values of the type, and those that are misread for one. -/
theorem accepts_iff (hb : t.base.NamesOnly) (hv : v.Fits) :
    t.accepts v = true ↔ t.holds v = true ∨ t.Misreads v := by
  cases hs : v.isSingle with
  | true =>
    have hrange : v.InRange := by cases v <;> first | exact hv | cases hs
    rw [accepts_single t hs, holds_single t hs, misreads_single hs, Bool.and_eq_true, Bool.and_eq_true,
      Base.isSome_ofJson?_iff hb hrange, Bool.not_eq_true', and_or_left]
  | false =>
    cases v with
    | null => cases ho : t.optional <;> simp [accepts, Value.toJson, ofJson?, holds, Misreads, Base.Misreads, ho]
    | list vs =>
      have hitems : (itemsOfJson? t.base (Value.toJson.each vs)).isSome = true ↔
          ∀ v ∈ vs, t.base.holds v = true ∨ t.base.Misreads v :=
        isSome_itemsOfJson?_iff.trans (forall₂_congr fun w hw => Base.isSome_ofJson?_iff hb (hv w hw))
      rw [accepts, Value.toJson, ofJson?, holds, Misreads, Bool.and_eq_true, List.all_eq_true, ← and_or_left]
      cases hl : t.list with
      | false => simp
      | true =>
        simp only [if_true, Option.isSome_map, hitems, true_and]
        by_cases hmis : ∃ v ∈ vs, t.base.Misreads v
        · refine ⟨fun h => .inr ⟨h, hmis⟩, ?_⟩
          rintro (h | h)
          · exact fun v hv => .inl (h v hv)
          · exact h.1
        · refine ⟨fun h => .inl fun v hv => (h v hv).resolve_right fun hm => hmis ⟨v, hv, hm⟩, ?_⟩
          rintro (h | h)
          · exact fun v hv => .inl (h v hv)
          · exact h.1
    | _ => cases hs

/-- An attribute can be set to the values of its type, and to those that stand for one. -/
theorem isSome_coerce?_iff (hlist : t.list = true → t.base = .uuid) :
    (t.coerce? v).isSome = true ↔ t.holds v = true ∨ t.Widens v := by
  cases hs : v.isSingle with
  | true =>
    rw [coerce?_single t hs, holds_single t hs, Widens]
    cases t.list <;> simp [Base.isSome_coerce?_iff]
  | false =>
    cases v with
    | null =>
      have hnone : t.base.coerce? .null = none := by cases t.base <;> rfl
      have hwidens : ¬t.base.Widens .null := by cases t.base <;> exact id
      cases ho : t.optional <;> simp [coerce?, holds, Widens, Value.isNull, ho, hnone, hwidens]
    | list vs =>
      have hnone : t.base.coerce? (.list vs) = none := by cases t.base <;> rfl
      have hwidens : ¬t.base.Widens (.list vs) := by cases t.base <;> exact id
      cases hl : t.list with
      | false => simp [coerce?, holds, Widens, Value.isNull, hl, hnone, hwidens]
      | true =>
        have hitems : (coerceItems? t.base vs).isSome = true ↔ vs.all t.base.holds = true := by
          rw [isSome_coerceItems?_iff, List.all_eq_true, hlist hl]
          refine forall₂_congr fun w _ => Base.isSome_coerce?_iff.trans (or_iff_left ?_)
          cases w <;> exact id
        simp [coerce?, holds, Widens, Value.isNull, hl, hitems]
    | _ => cases hs

theorem Misreads.not_holds (h : t.Misreads v) : t.holds v = false := by
  cases hs : v.isSingle with
  | true => rw [holds_single t hs, ((misreads_single hs).1 h).2.not_holds, Bool.and_false]
  | false =>
    cases v with
    | null =>
      obtain ⟨-, h⟩ := h
      cases hb : t.base <;> rw [hb] at h <;> cases h
    | list vs =>
      obtain ⟨-, -, w, hw, h⟩ := h
      rw [holds, Bool.and_eq_false_iff, List.all_eq_false]
      exact .inr ⟨w, hw, by simp [h.not_holds]⟩
    | _ => cases hs

theorem Widens.not_holds (h : t.Widens v) : t.holds v = false := by
  obtain ⟨hl, h⟩ := h
  cases v with
  | integer i => rw [holds_single t rfl, h.not_holds, Bool.and_false]
  | _ => cases hb : t.base <;> rw [hb] at h <;> cases h

theorem Misreads.not_widens (h : t.Misreads v) : ¬t.Widens v := by
  rintro ⟨-, hw⟩
  cases v with
  | integer i => exact h.2.not_widens hw
  | _ => cases hb : t.base <;> rw [hb] at hw <;> cases hw

end FieldType

namespace Kind

theorem namesOnly {k : Kind} : ∀ f ∈ k.fields, f.type.base.NamesOnly := by
  cases k <;> decide

/-- Lists are of identifiers. -/
theorem base_of_list {k : Kind} : ∀ f ∈ k.fields, f.type.list = true → f.type.base = .uuid := by
  cases k <;> decide

end Kind

namespace Data

variable {d : Data} {a : Attr} {f : Field} {v : Value}

theorem isOk_set_iff (hf : d.kind.field? a = some f) :
    (∃ e, d.set a v = .ok e) ↔ (f.type.coerce? v).isSome = true := by
  unfold set
  split
  · rename_i h
    cases hf.symm.trans h
  · rename_i g hg
    cases hf.symm.trans hg
    split
    · rename_i h
      simp [h]
    · rename_i h
      simp [h]

/-- Whether a type accepts a value and whether its attribute can be set to it agree, but for the values that are
misread, which are accepted only, and integers for decimals, which are not. An accepted value that was set is
read back, and other attributes stay. -/
theorem accepts_iff_isOk_set (hf : d.kind.field? a = some f) (hv : v.Fits) :
    ((f.type.accepts v = true ↔ ∃ e, d.set a v = .ok e) ↔ ¬(f.type.Misreads v ∨ f.type.Widens v)) ∧
    ∀ e, f.type.accepts v = true → d.set a v = .ok e → e.get? a = some v ∧ ∀ b, b ≠ a → e.get? b = d.get? b := by
  have hmem : f ∈ d.kind.fields := List.mem_of_find?_eq_some hf
  have haccepts := FieldType.accepts_iff (Kind.namesOnly f hmem) hv
  have hset : (∃ e, d.set a v = .ok e) ↔ f.type.holds v = true ∨ f.type.Widens v :=
    (isOk_set_iff hf).trans (FieldType.isSome_coerce?_iff (Kind.base_of_list f hmem))
  constructor
  · rw [haccepts, hset]
    constructor
    · rintro h (hm | hw)
      · rcases h.1 (.inr hm) with hh | hw
        · simp [hm.not_holds] at hh
        · exact hm.not_widens hw
      · rcases h.2 (.inr hw) with hh | hm
        · simp [hw.not_holds] at hh
        · exact hm.not_widens hw
    · intro h
      rw [not_or] at h
      rw [or_iff_left h.1, or_iff_left h.2]
  · intro e ha he
    have hholds : f.type.holds v = true := by
      rcases hset.1 ⟨e, he⟩ with hh | hw
      · exact hh
      · rcases haccepts.1 ha with hh | hm
        · exact hh
        · exact absurd hw hm.not_widens
    exact ⟨get?_set hf (FieldType.coerce?_of_holds hholds) he, fun b hb => get?_set_of_ne (Ne.symm hb) he⟩

/-- The factor of a signal. -/
theorem accepts_iff_isOk_set_factor : ∃ e, (initial .signal).set .factor (.decimal ⟨false, 25, 1⟩) = .ok e ∧
    e.get? .factor = some (.decimal ⟨false, 25, 1⟩) ∧
    ∀ b, b ≠ .factor → e.get? b = (initial .signal).get? b := by
  have hfits : (Value.decimal ⟨false, 25, 1⟩).Fits := ⟨by decide, by decide⟩
  have hfield : (initial .signal).kind.field? .factor = some (.decimal .factor) := by decide
  obtain ⟨hagree, hback⟩ := accepts_iff_isOk_set hfield hfits
  have haccepts : (Field.decimal .factor).type.accepts (.decimal ⟨false, 25, 1⟩) = true := by decide +kernel
  obtain ⟨e, he⟩ := (hagree.2 (by rintro (h | h) <;> exact h.2)).1 haccepts
  exact ⟨e, he, hback e haccepts he⟩

/-- The text of an identifier is accepted for an enumeration, which cannot be set to it. -/
theorem exists_accepted_unset : ∃ (d : Data) (a : Attr) (f : Field) (v : Value), d.kind.field? a = some f ∧ v.Fits ∧
    f.type.accepts v = true ∧ ∀ e, d.set a v ≠ .ok e := by
  refine ⟨initial .signal, .enumeration, .ref .enumeration Kind.enumerations,
    .string "00000000-0000-0000-0000-000000000001", by decide, trivial, by decide +kernel, fun e h => ?_⟩
  have hset : (initial .signal).set .enumeration (.string "00000000-0000-0000-0000-000000000001") =
      .error (.typeMismatch .enumeration (Field.ref .enumeration Kind.enumerations).type) := rfl
  rw [hset] at h
  cases h

end Data

end DeviceModel
