import DeviceModel.Tree.Lookup

/-!
Names in generated C. Main statement: an identifier has no character that C does not allow.
-/

namespace DeviceModel

namespace Code

def isWordChar (c : Char) : Bool := c.isAlphanum || c == '_'

def identifierChars (cs : List Char) : List Char :=
  let out := cs.map fun c => if c.isAlphanum then c else '_'
  match out with
  | c :: _ => if c.isDigit then '_' :: out else out
  | [] => []

/-- The text with an underscore for each character that a name may not have there. -/
def identifier (s : String) : String := String.ofList (identifierChars s.toList)

def upper (s : String) : String := s.map Char.toUpper

/-- The name that guards a header from being included twice. -/
def guard (fileName : String) : String := upper (identifier fileName)

theorem isWordChar_of_mem_identifierChars {cs : List Char} {c : Char}
    (h : c ∈ identifierChars cs) : isWordChar c = true := by
  have all : ∀ d ∈ cs.map fun c => if c.isAlphanum then c else '_', isWordChar d = true := by
    intro d hd
    obtain ⟨e, _, rfl⟩ := List.mem_map.1 hd
    by_cases he : e.isAlphanum <;> simp [isWordChar, he]
  unfold identifierChars at h
  simp only at h
  split at h
  · rename_i d ds hds
    split at h
    · rcases List.mem_cons.1 h with rfl | h
      · decide
      · exact all c h
    · exact all c h
  · simp at h

end Code

namespace Lookup

/-- The variable that holds a parameter at run time. -/
def interfaceItem (l : Lookup) (parameter : Uuid) : String :=
  let path := (l.parameters?.map (·.namePath parameter)).getD []
  "interfaceItem_" ++ Code.identifier ("_".intercalate path)

/-- The type of that variable. -/
def itemType (l : Lookup) (parameter : Uuid) : String :=
  match (l.attributeText? parameter .typeName).filter (· ≠ "") with
  | some t => Code.identifier t
  | none => "int16"

/-- The parameter has such a variable; legacy parameters are reached through functions. -/
def hasInterfaceItem (l : Lookup) (parameter : Uuid) : Bool :=
  l.attribute? parameter .usesInterfaceItem == some (.bool true)

end Lookup

end DeviceModel
