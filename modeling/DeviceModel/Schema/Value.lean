import DeviceModel.Json.Writer
import DeviceModel.Schema.Attribute
import DeviceModel.Schema.Kind
import DeviceModel.Text.Quoted
import DeviceModel.Uuid

/-!
Values of attributes and their types. A value has a document form, from which its type reads it back,
and a text, shown to and entered by the user. Main statements: a value of a type is read back from
its document form, and a value that was coerced to a type has that type.
-/

namespace DeviceModel

/-- How the firmware responds while an anomaly is active or inactive. -/
inductive ResponseLevel
  | ignore
  | log
  | warning
  | fault
  deriving DecidableEq, Repr

namespace ResponseLevel

def all : List ResponseLevel := [.ignore, .log, .warning, .fault]

def name : ResponseLevel → String
  | .ignore => "ignore"
  | .log => "log"
  | .warning => "warning"
  | .fault => "fault"

def ofName? (s : String) : Option ResponseLevel := all.find? (·.name == s)

def description : ResponseLevel → String
  | .ignore => "No action is taken."
  | .log => "The anomaly is recorded in the event log."
  | .warning => "The anomaly is logged and reported as a warning."
  | .fault => "The anomaly is logged and the unit trips."

end ResponseLevel

/-- When an anomaly is raised. -/
inductive TriggerType
  | edge
  | level
  | latched
  deriving DecidableEq, Repr

namespace TriggerType

def all : List TriggerType := [.edge, .level, .latched]

def name : TriggerType → String
  | .edge => "edge"
  | .level => "level"
  | .latched => "latched"

def ofName? (s : String) : Option TriggerType := all.find? (·.name == s)

def description : TriggerType → String
  | .edge => "Raised once when the condition starts."
  | .level => "Active for as long as the condition holds."
  | .latched => "Stays active until explicitly cleared."

end TriggerType

inductive Base
  | string
  | integer
  | decimal
  | bool
  | uuid
  | choice (names : List String)
  deriving DecidableEq, Repr

def Base.name : Base → String
  | .string => "string"
  | .integer => "integer"
  | .decimal => "decimal"
  | .bool => "bool"
  | .uuid => "uuid"
  | .choice _ => "choice"

/-- A type of attributes: one value of the base or, for `list`, any number of them; for `optional`
also null. -/
structure FieldType where
  base : Base
  optional : Bool := false
  list : Bool := false
  deriving DecidableEq, Repr

def FieldType.name (t : FieldType) : String :=
  let s := if t.list then "list<" ++ t.base.name ++ ">" else t.base.name
  if t.optional then "optional<" ++ s ++ ">" else s

inductive Value
  | null
  | string (s : String)
  | integer (i : Int)
  | decimal (d : Decimal)
  | bool (b : Bool)
  | uuid (u : Uuid)
  | list (items : List Value)
  deriving Repr, Inhabited

namespace Value

mutual

def decEq : (a b : Value) → Decidable (a = b)
  | .null, .null => isTrue rfl
  | .string s, .string t => decidable_of_iff (s = t) (by simp)
  | .integer s, .integer t => decidable_of_iff (s = t) (by simp)
  | .decimal s, .decimal t => decidable_of_iff (s = t) (by simp)
  | .bool s, .bool t => decidable_of_iff (s = t) (by simp)
  | .uuid s, .uuid t => decidable_of_iff (s = t) (by simp)
  | .list s, .list t => @decidable_of_iff _ (s = t) (by simp) (decEqList s t)
  | .null, .string _ | .null, .integer _ | .null, .decimal _ | .null, .bool _ | .null, .uuid _
  | .null, .list _ | .string _, .null | .string _, .integer _ | .string _, .decimal _
  | .string _, .bool _ | .string _, .uuid _ | .string _, .list _ | .integer _, .null
  | .integer _, .string _ | .integer _, .decimal _ | .integer _, .bool _ | .integer _, .uuid _
  | .integer _, .list _ | .decimal _, .null | .decimal _, .string _ | .decimal _, .integer _
  | .decimal _, .bool _ | .decimal _, .uuid _ | .decimal _, .list _ | .bool _, .null
  | .bool _, .string _ | .bool _, .integer _ | .bool _, .decimal _ | .bool _, .uuid _
  | .bool _, .list _ | .uuid _, .null | .uuid _, .string _ | .uuid _, .integer _
  | .uuid _, .decimal _ | .uuid _, .bool _ | .uuid _, .list _ | .list _, .null
  | .list _, .string _ | .list _, .integer _ | .list _, .decimal _ | .list _, .bool _
  | .list _, .uuid _ => isFalse (by simp)

def decEqList : (a b : List Value) → Decidable (a = b)
  | [], [] => isTrue rfl
  | [], _ :: _ | _ :: _, [] => isFalse (by simp)
  | a :: as, b :: bs =>
    match decEq a b, decEqList as bs with
    | isTrue h, isTrue t => isTrue (by rw [h, t])
    | isFalse h, _ => isFalse (by simp [h])
    | _, isFalse t => isFalse (by simp [t])

end

instance : DecidableEq Value := decEq

/-- The document form: decimals and identifiers are strings. -/
def toJson : Value → Json
  | .null => .null
  | .string s => .string s
  | .integer i => .integer i
  | .decimal d => .string d.text
  | .bool b => .bool b
  | .uuid u => .string u.text
  | .list items => .array (each items)
where
  each : List Value → List Json
    | [] => []
    | v :: vs => v.toJson :: each vs

/-- The text shown to the user. -/
def text : Value → String
  | .null => ""
  | .string s => s
  | .integer i => Text.intText i
  | .decimal d => d.text
  | .bool b => if b then "true" else "false"
  | .uuid u => u.text
  | .list items => "[" ++ each items ++ "]"
where
  each : List Value → String
    | [] => ""
    | [v] => v.text
    | v :: vs => v.text ++ ", " ++ each vs

/-- Equality up to the scale of decimals. -/
def same : Value → Value → Bool
  | .decimal a, .decimal b => a.same b
  | .list a, .list b => each a b
  | a, b => a == b
where
  each : List Value → List Value → Bool
    | [], [] => true
    | a :: as, b :: bs => same a b && each as bs
    | _, _ => false

def isNull : Value → Bool
  | .null => true
  | _ => false

def string? : Value → Option String
  | .string s => some s
  | _ => none

def integer? : Value → Option Int
  | .integer i => some i
  | _ => none

def decimal? : Value → Option Decimal
  | .decimal d => some d
  | .integer i => some (.ofInt i)
  | _ => none

def bool? : Value → Option Bool
  | .bool b => some b
  | _ => none

def uuid? : Value → Option Uuid
  | .uuid u => some u
  | _ => none

/-- The identifiers in a value. -/
def uuids : Value → List Uuid
  | .uuid u => [u]
  | .list items => items.filterMap uuid?
  | _ => []

/-- The value that `f` gives, or null. -/
def orNull (f : α → Value) : Option α → Value
  | none => .null
  | some a => f a

def ofRef : Option Uuid → Value := orNull .uuid

def ofPath (path : List Uuid) : Value := .list (path.map .uuid)

end Value

namespace Base

/-- The values of a base. -/
def holds : Base → Value → Bool
  | .string, .string _ | .integer, .integer _ | .decimal, .decimal _ | .bool, .bool _
  | .uuid, .uuid _ => true
  | .choice names, .string s => names.contains s
  | _, _ => false

/-- The value that stands for `v`: an integer is also a decimal. -/
def coerce? : Base → Value → Option Value
  | .decimal, .integer i => some (.decimal (.ofInt i))
  | b, v => if b.holds v then some v else none

def ofJson? : Base → Json → Option Value
  | .string, j => j.string?.map .string
  | .integer, j => j.integer?.map .integer
  | .decimal, j => (j.string? >>= Decimal.ofText?).map .decimal
  | .bool, j => j.bool?.map .bool
  | .uuid, j => (j.string? >>= Uuid.ofText?).map .uuid
  | .choice names, j => (j.string?.filter names.contains).map .string

/-- Upper and lower case of ASCII letters are not told apart. -/
def sameLetters (s t : String) : Bool := s.toList.map Char.toLower == t.toList.map Char.toLower

/-- Entered text, without blanks at its ends. -/
def ofText? (b : Base) (s : String) : Option Value :=
  match b with
  | .string => some (.string s)
  | .integer => (Text.parseInteger? s).map .integer
  | .decimal => (Decimal.ofText? s).map .decimal
  | .bool =>
    if ["true", "1", "yes"].any (sameLetters s) then some (.bool true)
    else if ["false", "0", "no"].any (sameLetters s) then some (.bool false)
    else none
  | .uuid => (Uuid.ofText? s).map .uuid
  | .choice names => (names.find? (sameLetters s)).map .string

def initial : Base → Value
  | .string => .string ""
  | .integer => .integer 0
  | .decimal => .decimal .zero
  | .bool => .bool false
  | .uuid => .uuid .nil
  | .choice names => .string (names.headD "")

theorem holds_coerce? {b : Base} {v w : Value} (h : b.coerce? v = some w) : b.holds w = true := by
  unfold coerce? at h
  split at h
  · cases h; rfl
  · split at h
    · cases h; assumption
    · cases h

theorem coerce?_of_holds {b : Base} {v : Value} (h : b.holds v = true) : b.coerce? v = some v := by
  cases b <;> cases v <;> simp_all [holds, coerce?]

end Base

namespace FieldType

def element (t : FieldType) : FieldType := ⟨t.base, false, false⟩

/-- The values of a type. -/
def holds (t : FieldType) : Value → Bool
  | .null => t.optional
  | .list items => t.list && items.all t.base.holds
  | v => !t.list && t.base.holds v

/-- The values of the items of a list, if each stands for one. -/
def coerceItems? (b : Base) : List Value → Option (List Value)
  | [] => some []
  | v :: vs => do return (← b.coerce? v) :: (← coerceItems? b vs)

/-- The value that is stored for `v`. -/
def coerce? (t : FieldType) (v : Value) : Option Value :=
  if t.optional ∧ v.isNull then some .null
  else if t.list then
    match v with
    | .list items => (coerceItems? t.base items).map .list
    | _ => none
  else t.base.coerce? v

def itemsOfJson? (b : Base) : List Json → Option (List Value)
  | [] => some []
  | j :: js => do return (← b.ofJson? j) :: (← itemsOfJson? b js)

def ofJson? (t : FieldType) (j : Json) : Option Value :=
  match j with
  | .null => if t.optional then some .null else none
  | .array items => if t.list then (itemsOfJson? t.base items).map .list else none
  | j => if t.list then none else t.base.ofJson? j

/-- The value of an attribute that a file leaves out; `none` if files must have it. -/
def missing? (t : FieldType) : Option Value :=
  if t.optional then some .null else if t.list then some (.list []) else none

def initial (t : FieldType) : Value := t.missing?.getD t.base.initial

/-- Whether `v` has the document form of a value of the type. -/
def accepts (t : FieldType) (v : Value) : Bool := (t.ofJson? v.toJson).isSome

theorem all_holds_coerceItems? {b : Base} {vs ws : List Value} (h : coerceItems? b vs = some ws) :
    ws.all b.holds = true := by
  induction vs generalizing ws with
  | nil => cases h; rfl
  | cons v vs ih =>
    simp only [coerceItems?, Option.bind_eq_bind, Option.bind_eq_some_iff] at h
    obtain ⟨w, hw, us, hus, h⟩ := h
    cases h
    simp [Base.holds_coerce? hw, ih hus]

theorem holds_coerce? {t : FieldType} {v w : Value} (h : t.coerce? v = some w) :
    t.holds w = true := by
  unfold coerce? at h
  split at h
  · rename_i ho; cases h; exact ho.1
  · split at h
    · rename_i hl
      split at h
      · simp only [Option.map_eq_some_iff] at h
        obtain ⟨ws, hws, rfl⟩ := h
        simpa [holds, hl] using all_holds_coerceItems? hws
      · cases h
    · rename_i hl
      have hb := Base.holds_coerce? h
      cases w <;> simp_all [holds, Base.holds]

theorem holds_initial (t : FieldType) (h : ∀ names, t.base = .choice names → names ≠ []) :
    t.holds t.initial = true := by
  obtain ⟨b, o, l⟩ := t
  cases o <;> cases l <;> cases b <;> simp_all [holds, initial, missing?, Base.initial, Base.holds]
  rename_i names; cases names <;> simp_all

end FieldType

end DeviceModel
