import DeviceModel.Schema.Field

/-!
The attributes of one node: a value of the right type for every field of its kind. Main statements:
what was set is read back, and the other attributes stay.
-/

namespace DeviceModel

/-- A value of its type for each field, and no more. -/
def conforms : List Field → List Value → Bool
  | [], [] => true
  | f :: fs, v :: vs => f.type.holds v && conforms fs vs
  | _, _ => false

structure Data where
  kind : Kind
  values : List Value
  typed : conforms kind.fields values = true

namespace Data

def lookUp (a : Attr) : List Field → List Value → Option Value
  | f :: fs, v :: vs => if f.attr = a then some v else lookUp a fs vs
  | _, _ => none

def update (a : Attr) (w : Value) : List Field → List Value → List Value
  | f :: fs, v :: vs => if f.attr = a then w :: vs else v :: update a w fs vs
  | _, vs => vs

theorem conforms_update {a : Attr} {w : Value} {f : Field} {fs : List Field} {vs : List Value}
    (hf : fs.find? (·.attr == a) = some f) (hw : f.type.holds w = true)
    (h : conforms fs vs = true) : conforms fs (update a w fs vs) = true := by
  induction fs generalizing vs with
  | nil => simp at hf
  | cons g fs ih =>
    cases vs with
    | nil => simp [conforms] at h
    | cons v vs =>
      simp only [conforms, Bool.and_eq_true] at h
      by_cases hg : g.attr = a
      · simp only [List.find?_cons, hg, beq_self_eq_true, Option.some.injEq] at hf
        subst hf
        simp [update, hg, conforms, hw, h.2]
      · rw [List.find?_cons_of_neg (by simpa using hg)] at hf
        simp [update, hg, conforms, h.1, ih hf h.2]

theorem conforms_initial (k : Kind) :
    conforms k.fields (k.fields.map (·.type.initial)) = true := by
  cases k <;> decide

/-- The attributes of a new node. -/
def initial (k : Kind) : Data := ⟨k, k.fields.map (·.type.initial), conforms_initial k⟩

instance : Inhabited Data := ⟨initial .root⟩

instance : DecidableEq Data := fun a b =>
  decidable_of_iff (a.kind = b.kind ∧ a.values = b.values) (by cases a; cases b; simp)

def get? (d : Data) (a : Attr) : Option Value := lookUp a d.kind.fields d.values

def set (d : Data) (a : Attr) (v : Value) : Except AttrError Data :=
  match hf : d.kind.field? a with
  | none => .error (.unknownAttribute d.kind a.key)
  | some f =>
    match hw : f.type.coerce? v with
    | none => .error (.typeMismatch a f.type)
    | some w =>
      .ok ⟨d.kind, update a w d.kind.fields d.values,
        conforms_update hf (FieldType.holds_coerce? hw) d.typed⟩

/-- The attributes with `a` set to `v`, unchanged where the kind has no such attribute or type. -/
def put (d : Data) (a : Attr) (v : Value) : Data :=
  match d.set a v with
  | .ok e => e
  | .error _ => d

/-- The attributes of a new node of kind `k` with some of them set. -/
def of (k : Kind) (attrs : List (Attr × Value)) : Data :=
  attrs.foldl (fun d (a, v) => d.put a v) (initial k)

/-- The attribute of a name. -/
def setNamed (d : Data) (name : String) (v : Value) : Except AttrError Data :=
  match Attr.ofKey? name with
  | some a => d.set a v
  | none => .error (.unknownAttribute d.kind name)

def text? (d : Data) (a : Attr) : Option String := d.get? a >>= Value.string?

def text (d : Data) (a : Attr) : String := (d.text? a).getD ""

/-- The name of a node; some kinds have none. -/
def name (d : Data) : String := d.text .name

def int? (d : Data) (a : Attr) : Option Int := d.get? a >>= Value.integer?

def int (d : Data) (a : Attr) : Int := (d.int? a).getD 0

def decimal? (d : Data) (a : Attr) : Option Decimal := d.get? a >>= Value.decimal?

def flag (d : Data) (a : Attr) : Bool := d.get? a == some (.bool true)

def ref? (d : Data) (a : Attr) : Option Uuid := d.get? a >>= Value.uuid?

def path (d : Data) : List Uuid := ((d.get? .path).map Value.uuids).getD []

/-- The fields with their values. -/
def entries (d : Data) : List (Field × Value) := d.kind.fields.zip d.values

/-- Equality up to the scale of decimals. -/
def same (d e : Data) : Bool := d.kind == e.kind && (Value.list d.values).same (.list e.values)

theorem lookUp_update {a : Attr} {w : Value} {f : Field} {fs : List Field} {vs : List Value}
    (hf : fs.find? (·.attr == a) = some f) (h : conforms fs vs = true) :
    lookUp a fs (update a w fs vs) = some w := by
  induction fs generalizing vs with
  | nil => simp at hf
  | cons g fs ih =>
    cases vs with
    | nil => simp [conforms] at h
    | cons v vs =>
      simp only [conforms, Bool.and_eq_true] at h
      by_cases hg : g.attr = a
      · simp [update, hg, lookUp]
      · rw [List.find?_cons_of_neg (by simpa using hg)] at hf
        simp [update, hg, lookUp, ih hf h.2]

theorem lookUp_update_of_ne {a b : Attr} {w : Value} (hab : a ≠ b) (fs : List Field)
    (vs : List Value) : lookUp b fs (update a w fs vs) = lookUp b fs vs := by
  induction fs generalizing vs with
  | nil => cases vs <;> rfl
  | cons g fs ih =>
    cases vs with
    | nil => rfl
    | cons v vs =>
      by_cases hg : g.attr = a
      · have hb : g.attr ≠ b := fun h => hab (hg.symm.trans h)
        simp [update, hg, lookUp, hab]
      · simp [update, hg, lookUp, ih]

theorem kind_set {d e : Data} {a : Attr} {v : Value} (h : d.set a v = .ok e) : e.kind = d.kind := by
  unfold set at h
  split at h
  · cases h
  · split at h
    · cases h
    · cases h; rfl

@[simp] theorem kind_put (d : Data) (a : Attr) (v : Value) : (d.put a v).kind = d.kind := by
  unfold put
  split
  · rename_i h; exact kind_set h
  · rfl

theorem get?_set_of_ne {d e : Data} {a b : Attr} {v : Value} (hab : a ≠ b)
    (h : d.set a v = .ok e) : e.get? b = d.get? b := by
  unfold set at h
  split at h
  · cases h
  · split at h
    · cases h
    · cases h; exact lookUp_update_of_ne hab _ _

/-- An attribute of the field `f` reads back as what `f` stores for the value that was set. -/
theorem get?_set {d e : Data} {a : Attr} {f : Field} {v w : Value} (hf : d.kind.field? a = some f)
    (hw : f.type.coerce? v = some w) (h : d.set a v = .ok e) : e.get? a = some w := by
  unfold set at h
  split at h
  · cases h
  · rename_i g hg
    cases hf.symm.trans hg
    split at h
    · cases h
    · rename_i u hu
      cases hw.symm.trans hu
      cases h
      exact lookUp_update hg d.typed

end Data

end DeviceModel
