import DeviceModel.Schema.Data
import Mathlib

/-!
Reading and setting attributes. Main statements: the attributes of a node are what is read of them
(`ext_get?`), and setting an attribute to what it reads as changes nothing (`put_of_get?`).
-/

namespace DeviceModel

theorem Kind.nodup_attrs (k : Kind) : (k.fields.map Field.attr).Nodup := by cases k <;> decide

theorem FieldType.coerceItems?_of_holds {b : Base} {vs : List Value} (h : vs.all b.holds = true) :
    coerceItems? b vs = some vs := by
  induction vs with
  | nil => rfl
  | cons v vs ih =>
    rw [List.all_cons, Bool.and_eq_true] at h
    simp [coerceItems?, Base.coerce?_of_holds h.1, ih h.2]

/-- A value of a type stands for itself. -/
theorem FieldType.coerce?_of_holds {t : FieldType} {v : Value} (h : t.holds v = true) :
    t.coerce? v = some v := by
  obtain ⟨b, o, l⟩ := t
  cases v with
  | null => simp_all [holds, coerce?, Value.isNull]
  | list vs =>
    simp only [holds, Bool.and_eq_true] at h
    simp [coerce?, Value.isNull, h.1, coerceItems?_of_holds h.2]
  | _ =>
    simp only [holds, Bool.and_eq_true, Bool.not_eq_true'] at h
    simp [coerce?, Value.isNull, h.1, Base.coerce?_of_holds h.2]

namespace Data

theorem length_of_conforms {fs : List Field} {vs : List Value} (h : conforms fs vs = true) :
    vs.length = fs.length := by
  induction fs generalizing vs with
  | nil => cases vs <;> simp_all [conforms]
  | cons f fs ih =>
    cases vs with
    | nil => simp [conforms] at h
    | cons v vs =>
      rw [conforms, Bool.and_eq_true] at h
      simp [ih h.2]

theorem lookUp_of_conforms {a : Attr} {fs : List Field} {vs : List Value}
    (h : conforms fs vs = true) :
    (lookUp a fs vs = none ∧ fs.find? (·.attr == a) = none) ∨
      ∃ v f, lookUp a fs vs = some v ∧ fs.find? (·.attr == a) = some f ∧ f.type.holds v = true := by
  induction fs generalizing vs with
  | nil => cases vs <;> simp [lookUp]
  | cons f fs ih =>
    cases vs with
    | nil => simp [conforms] at h
    | cons v vs =>
      rw [conforms, Bool.and_eq_true] at h
      by_cases hf : f.attr = a
      · exact .inr ⟨v, f, by simp [lookUp, hf], by simp [hf], h.1⟩
      · simpa [lookUp, hf] using ih h.2

theorem eq_of_lookUp {fs : List Field} {vs ws : List Value} (hn : (fs.map Field.attr).Nodup)
    (hv : conforms fs vs = true) (hw : conforms fs ws = true)
    (h : ∀ a, lookUp a fs vs = lookUp a fs ws) : vs = ws := by
  induction fs generalizing vs ws with
  | nil => cases vs <;> cases ws <;> simp_all [conforms]
  | cons f fs ih =>
    cases vs with
    | nil => simp [conforms] at hv
    | cons v vs =>
      cases ws with
      | nil => simp [conforms] at hw
      | cons w ws =>
        rw [conforms, Bool.and_eq_true] at hv hw
        rw [List.map_cons, List.nodup_cons] at hn
        have hvw : v = w := by simpa [lookUp] using h f.attr
        refine congr (congrArg _ hvw) (ih hn.2 hv.2 hw.2 fun a => ?_)
        by_cases ha : f.attr = a
        · subst ha
          have hnone : fs.find? (·.attr == f.attr) = none :=
            List.find?_eq_none.2 fun g hg hgf =>
              hn.1 (List.mem_map.2 ⟨g, hg, by simpa using hgf⟩)
          have none_of : ∀ {us}, conforms fs us = true → lookUp f.attr fs us = none := by
            intro us hus
            rcases lookUp_of_conforms (a := f.attr) hus with ⟨hl, -⟩ | ⟨_, _, -, hf, -⟩
            · exact hl
            · rw [hnone] at hf; cases hf
          rw [none_of hv.2, none_of hw.2]
        · simpa [lookUp, ha] using h a

/-- Attributes of one kind that read the same are the same. -/
theorem ext_get? {d e : Data} (hk : d.kind = e.kind) (h : ∀ a, d.get? a = e.get? a) : d = e := by
  obtain ⟨k, vs, hv⟩ := d
  obtain ⟨l, ws, hw⟩ := e
  cases hk
  cases eq_of_lookUp k.nodup_attrs hv hw h
  rfl

theorem get?_eq_none {d : Data} {a : Attr} : d.get? a = none ↔ d.kind.field? a = none := by
  rcases lookUp_of_conforms (a := a) d.typed with ⟨hl, hf⟩ | ⟨v, f, hl, hf, -⟩
  · simp [get?, Kind.field?, hl, hf]
  · simp [get?, Kind.field?, hl, hf]

theorem exists_field_of_get? {d : Data} {a : Attr} {v : Value} (h : d.get? a = some v) :
    ∃ f, d.kind.field? a = some f ∧ f.type.holds v = true := by
  rcases lookUp_of_conforms (a := a) d.typed with ⟨hl, -⟩ | ⟨w, f, hl, hf, hw⟩
  · rw [get?, hl] at h; cases h
  · rw [get?, hl] at h; cases h; exact ⟨f, hf, hw⟩

theorem put_of_field?_eq_none {d : Data} {a : Attr} (h : d.kind.field? a = none) (v : Value) :
    d.put a v = d := by
  unfold put set
  split
  · rename_i heq
    split at heq
    · cases heq
    · rename_i hf; rw [h] at hf; cases hf
  · rfl

theorem get?_put_of_ne {a b : Attr} (hab : a ≠ b) (d : Data) (v : Value) :
    (d.put a v).get? b = d.get? b := by
  unfold put
  split
  · rename_i h; exact get?_set_of_ne hab h
  · rfl

theorem get?_put {d : Data} {a : Attr} {f : Field} {v w : Value} (hf : d.kind.field? a = some f)
    (hw : f.type.coerce? v = some w) : (d.put a v).get? a = some w := by
  unfold put
  split
  · rename_i h; exact get?_set hf hw h
  · rename_i h
    unfold set at h
    split at h
    · rename_i hn; rw [hf] at hn; cases hn
    · rename_i g hg
      rw [hf] at hg
      cases hg
      split at h
      · rename_i hn; rw [hw] at hn; cases hn
      · cases h

/-- Setting an attribute to what it reads as changes nothing. -/
theorem put_of_get? {d : Data} {a : Attr} {v : Value} (h : d.get? a = some v) : d.put a v = d := by
  obtain ⟨f, hf, hv⟩ := exists_field_of_get? h
  refine ext_get? (kind_put d a v) fun b => ?_
  by_cases hab : a = b
  · subst hab
    rw [get?_put hf (FieldType.coerce?_of_holds hv), h]
  · exact get?_put_of_ne hab d v

theorem put_of_coerce?_eq_none {d : Data} {a : Attr} {f : Field} {v : Value}
    (hf : d.kind.field? a = some f) (hv : f.type.coerce? v = none) : d.put a v = d := by
  unfold put
  split
  · rename_i h
    unfold set at h
    split at h
    · cases h
    · rename_i g hg
      rw [hf] at hg
      cases hg
      split at h
      · cases h
      · rename_i hw; rw [hv] at hw; cases hw
  · rfl

theorem get?_put_congr {d e : Data} {a : Attr} (hk : d.kind = e.kind) (ha : d.get? a = e.get? a)
    (v : Value) : (d.put a v).get? a = (e.put a v).get? a := by
  cases hf : d.kind.field? a with
  | none => rw [put_of_field?_eq_none hf, put_of_field?_eq_none (hk ▸ hf), ha]
  | some f =>
    cases hv : f.type.coerce? v with
    | some w => rw [get?_put hf hv, get?_put (hk ▸ hf) hv]
    | none => rw [put_of_coerce?_eq_none hf hv, put_of_coerce?_eq_none (hk ▸ hf) hv, ha]

/-! ### Integers that the layout sets -/

end Data

/-- The attributes that a layout gives values. -/
def Attr.isLaidOut : Attr → Bool
  | .offset | .blockOffset | .length | .size => true
  | _ => false

theorem Kind.type_of_isLaidOut {k : Kind} {a : Attr} {f : Field} (ha : a.isLaidOut = true)
    (hf : k.field? a = some f) : f.type = ⟨.integer, false, false⟩ := by
  have all : ∀ a ∈ [Attr.offset, .blockOffset, .length, .size], ∀ g ∈ k.field? a,
      g.type = ⟨.integer, false, false⟩ := by
    cases k <;> decide
  refine all a ?_ f hf
  cases a <;> simp_all [Attr.isLaidOut]

namespace Data

theorem get?_put_integer {d : Data} {a : Attr} (ha : a.isLaidOut = true)
    (hf : (d.kind.field? a).isSome = true) (i : Int) :
    (d.put a (.integer i)).get? a = some (.integer i) := by
  obtain ⟨f, hf⟩ := Option.isSome_iff_exists.1 hf
  exact get?_put hf (by rw [Kind.type_of_isLaidOut ha hf]; rfl)

theorem set_integer {d : Data} {a : Attr} (ha : a.isLaidOut = true)
    (hf : (d.kind.field? a).isSome = true) (i : Int) :
    d.set a (.integer i) = .ok (d.put a (.integer i)) := by
  cases h : d.set a (.integer i) with
  | ok e => rw [put, h]
  | error x =>
    obtain ⟨f, hf⟩ := Option.isSome_iff_exists.1 hf
    have hv : f.type.coerce? (.integer i) = some (.integer i) := by
      rw [Kind.type_of_isLaidOut ha hf]
      rfl
    unfold set at h
    split at h
    · rename_i hn
      rw [hf] at hn
      cases hn
    · rename_i g hg
      obtain rfl := Option.some.inj (hf.symm.trans hg)
      split at h
      · rename_i hn
        rw [hv] at hn
        cases hn
      · cases h

theorem put_put (d : Data) (a : Attr) (v : Value) : (d.put a v).put a v = d.put a v := by
  refine ext_get? (by simp) fun b => ?_
  by_cases hab : a = b
  · subst hab
    cases hf : d.kind.field? a with
    | none => rw [put_of_field?_eq_none (by simpa using hf)]
    | some f =>
      cases hv : f.type.coerce? v with
      | some w => rw [get?_put (by simpa using hf) hv, get?_put hf hv]
      | none => rw [put_of_coerce?_eq_none (f := f) (by simpa using hf) hv]
  · rw [get?_put_of_ne hab]

theorem foldl_put_kind (d : Data) (attrs : List (Attr × Value)) :
    (attrs.foldl (fun d (p : Attr × Value) => d.put p.1 p.2) d).kind = d.kind := by
  induction attrs generalizing d with
  | nil => rfl
  | cons p attrs ih => rw [List.foldl_cons, ih, kind_put]

@[simp] theorem kind_of (k : Kind) (attrs : List (Attr × Value)) : (of k attrs).kind = k :=
  foldl_put_kind _ attrs

theorem get?_foldl_put_of_notMem {d : Data} {a : Attr} {attrs : List (Attr × Value)}
    (ha : a ∉ attrs.map Prod.fst) :
    (attrs.foldl (fun d (p : Attr × Value) => d.put p.1 p.2) d).get? a = d.get? a := by
  induction attrs generalizing d with
  | nil => rfl
  | cons p attrs ih =>
    rw [List.map_cons, List.mem_cons, not_or] at ha
    rw [List.foldl_cons, ih ha.2, get?_put_of_ne (Ne.symm ha.1)]

/-- Attributes that are set depend on what was there before only where it shows. -/
theorem get?_foldl_put_congr {d e : Data} {a : Attr} (hk : d.kind = e.kind) (h : d.get? a = e.get? a)
    (attrs : List (Attr × Value)) :
    (attrs.foldl (fun d (p : Attr × Value) => d.put p.1 p.2) d).get? a =
      (attrs.foldl (fun d (p : Attr × Value) => d.put p.1 p.2) e).get? a := by
  induction attrs generalizing d e with
  | nil => exact h
  | cons p attrs ih =>
    refine ih (by simp [hk]) ?_
    by_cases hp : p.1 = a
    · rw [← hp] at h ⊢
      exact get?_put_congr hk h p.2
    · rw [get?_put_of_ne hp, get?_put_of_ne hp, h]

/-- What one attribute is set to does not show in another. -/
theorem get?_of_congr {a b : Attr} (hab : b ≠ a) (k : Kind) (before behind : List (Attr × Value))
    (v w : Value) : (of k (before ++ (b, v) :: behind)).get? a = (of k (before ++ (b, w) :: behind)).get? a := by
  rw [of, of, List.foldl_append, List.foldl_append]
  refine get?_foldl_put_congr (by simp) ?_ behind
  rw [get?_put_of_ne hab, get?_put_of_ne hab]

/-- A node of given attributes has them. -/
theorem get?_of {k : Kind} {attrs : List (Attr × Value)} {a : Attr} {v w : Value} {f : Field}
    (hn : (attrs.map Prod.fst).Nodup) (hm : (a, v) ∈ attrs) (hf : k.field? a = some f)
    (hw : f.type.coerce? v = some w) : (of k attrs).get? a = some w := by
  have foldl : ∀ d : Data, d.kind = k →
      (attrs.foldl (fun d (p : Attr × Value) => d.put p.1 p.2) d).get? a = some w := by
    induction attrs with
    | nil => cases hm
    | cons p attrs ih =>
      intro d hd
      rw [List.map_cons, List.nodup_cons] at hn
      rw [List.foldl_cons]
      rcases List.mem_cons.1 hm with rfl | hm
      · rw [get?_foldl_put_of_notMem hn.1]
        exact get?_put (hd ▸ hf) hw
      · exact ih hn.2 hm _ (by simp [hd])
  exact foldl _ rfl

theorem text_of_get? {d : Data} {a : Attr} {s : String} (h : d.get? a = some (.string s)) :
    d.text a = s := by
  simp [text, text?, h, Value.string?]

theorem ref?_of_get? {d : Data} {a : Attr} {u : Uuid} (h : d.get? a = some (.uuid u)) :
    d.ref? a = some u := by
  simp [ref?, h, Value.uuid?]

theorem coerce?_ofPath (path : List Uuid) :
    Field.path.type.coerce? (.ofPath path) = some (.ofPath path) :=
  FieldType.coerce?_of_holds (by simp [FieldType.holds, Value.ofPath, Field.path, Base.holds])

theorem path_of {k : Kind} {attrs : List (Attr × Value)} {path : List Uuid}
    (hn : (attrs.map Prod.fst).Nodup) (hm : (.path, .ofPath path) ∈ attrs)
    (hf : k.field? .path = some Field.path) : (of k attrs).path = path := by
  rw [Data.path, get?_of hn hm hf (coerce?_ofPath path)]
  simp [Value.ofPath, Value.uuids, List.filterMap_map, Function.comp_def, Value.uuid?]

end Data

end DeviceModel
