import DeviceModel.Binary64

/-!
Documents: values with the members of an object in document order.
-/

namespace DeviceModel

/-- A document value. A number without fraction and exponent that fits in 64 bits is an integer. -/
inductive Json where
  | null
  | bool (b : Bool)
  | integer (i : Int)
  | float (x : Binary64)
  | string (s : String)
  | array (items : List Json)
  | object (members : List (String × Json))
  deriving Repr, Inhabited

namespace Json

def string? : Json → Option String
  | .string s => some s
  | _ => none

def bool? : Json → Option Bool
  | .bool b => some b
  | _ => none

/-- An integer of 64 bits with sign; a document also has those without sign. -/
def integer? : Json → Option Int
  | .integer i => if Text.is64 i then some i else none
  | _ => none

def array? : Json → Option (List Json)
  | .array items => some items
  | _ => none

def object? : Json → Option (List (String × Json))
  | .object members => some members
  | _ => none

/-- The value of the member `key`. -/
def member? (key : String) (members : List (String × Json)) : Option Json :=
  (members.find? (·.1 == key)).map (·.2)

/-- A later member of the same key replaces the value and stays in the earlier one's place. -/
def put (members : List (String × Json)) (key : String) (value : Json) : List (String × Json) :=
  match members with
  | [] => [(key, value)]
  | (k, v) :: r => if k = key then (k, value) :: r else (k, v) :: put r key value

theorem member?_put (members : List (String × Json)) (key : String) (value : Json) :
    member? key (put members key value) = some value := by
  induction members with
  | nil => simp [put, member?]
  | cons m r ih =>
    obtain ⟨k, v⟩ := m
    simp only [put]
    split
    · rename_i h; simp [member?, h]
    · rename_i h; simpa [member?, h] using ih

theorem keys_put (members : List (String × Json)) (key : String) (value : Json) :
    (put members key value).map (·.1) =
      if key ∈ members.map (·.1) then members.map (·.1) else members.map (·.1) ++ [key] := by
  induction members with
  | nil => simp [put]
  | cons m r ih =>
    obtain ⟨k, v⟩ := m
    simp only [put]
    split
    · rename_i h; simp [h]
    · rename_i h
      simp only [List.map_cons, ih, List.mem_cons, eq_comm (a := key), h, false_or]
      split <;> simp

end Json

end DeviceModel
