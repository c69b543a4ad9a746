import DeviceModel.Json.Reader
import DeviceModel.Json.Writer

/-!
The texts of documents as the writers give them. Main statements: both writers give such a text
(`writes_compactChars`, `writes_indentedChars`).
-/

namespace DeviceModel.Json

/-- Induction on a document from its items and members. -/
theorem inductOn {P : Json → Prop} (j : Json) (null : P .null) (bool : ∀ b, P (.bool b))
    (integer : ∀ i, P (.integer i)) (float : ∀ x, P (.float x)) (string : ∀ s, P (.string s))
    (array : ∀ js, (∀ j ∈ js, P j) → P (.array js))
    (object : ∀ ms, (∀ m ∈ ms, P m.2) → P (.object ms)) : P j :=
  match j with
  | .null => null
  | .bool b => bool b
  | .integer i => integer i
  | .float x => float x
  | .string s => string s
  | .array js => array js fun j _ => inductOn j null bool integer float string array object
  | .object ms => object ms fun m _ => inductOn m.2 null bool integer float string array object
termination_by sizeOf j
decreasing_by
  · have := List.sizeOf_lt_of_mem ‹j ∈ js›
    simp only [Json.array.sizeOf_spec]
    omega
  · have := List.sizeOf_lt_of_mem ‹m ∈ ms›
    obtain ⟨k, j⟩ := m
    simp only [Json.object.sizeOf_spec, Prod.mk.sizeOf_spec] at *
    omega

/-- Documents that are read back as they are written: no floating-point numbers, integers of 64 bits,
and the keys of an object distinct. -/
inductive Plain : Json → Prop
  | null : Plain .null
  | bool (b : Bool) : Plain (.bool b)
  | integer (h : Text.is64 i = true) : Plain (.integer i)
  | string (s : String) : Plain (.string s)
  | array (h : ∀ j ∈ js, Plain j) : Plain (.array js)
  | object (hk : (ms.map Prod.fst).Nodup) (h : ∀ m ∈ ms, Plain m.2) : Plain (.object ms)

/-- The levels of nesting. -/
def depth : Json → Nat
  | .array js => items js + 1
  | .object ms => members ms + 1
  | .null | .bool _ | .integer _ | .float _ | .string _ => 0
where
  items : List Json → Nat
    | [] => 0
    | j :: js => max j.depth (items js)
  members : List (String × Json) → Nat
    | [] => 0
    | (_, j) :: ms => max j.depth (members ms)

def Blank (w : List Char) : Prop := ∀ c ∈ w, isSpace c = true

theorem blank_nil : Blank [] := by simp [Blank]

theorem blank_newline (width depth : Nat) : Blank (newline width depth) := by
  intro c hc
  rcases List.mem_cons.1 hc with rfl | hc
  · rfl
  · rw [(List.mem_replicate.1 hc).2]
    rfl

mutual

/-- The texts of a document, with any blanks where the writers have some. -/
inductive Writes : Json → List Char → Prop
  | null : Writes .null ['n', 'u', 'l', 'l']
  | true : Writes (.bool true) ['t', 'r', 'u', 'e']
  | false : Writes (.bool false) ['f', 'a', 'l', 's', 'e']
  | integer (i : Int) (h : Text.is64 i = true) : Writes (.integer i) (Text.intText i).toList
  | string (s : String) : Writes (.string s) (quote s)
  | emptyArray : Writes (.array []) ['[', ']']
  | array (w : List Char) (hw : Blank w) (h : WritesItems js cs) : Writes (.array js) ('[' :: (w ++ cs))
  | emptyObject : Writes (.object []) ['\x7b', '\x7d']
  | object (w : List Char) (hw : Blank w) (h : WritesMembers ms cs) :
      Writes (.object ms) ('\x7b' :: (w ++ cs))

/-- The texts of items up to the closing bracket. -/
inductive WritesItems : List Json → List Char → Prop
  | last (w : List Char) (hw : Blank w) (h : Writes j cs) : WritesItems [j] (cs ++ (w ++ [']']))
  | more (w : List Char) (hw : Blank w) (h : Writes j cs) (hs : WritesItems js ds) :
      WritesItems (j :: js) (cs ++ ',' :: (w ++ ds))

/-- The texts of members up to the closing brace. -/
inductive WritesMembers : List (String × Json) → List Char → Prop
  | last (k : String) (v w : List Char) (hv : Blank v) (hw : Blank w) (h : Writes j cs) :
      WritesMembers [(k, j)] (quote k ++ ':' :: (v ++ (cs ++ (w ++ ['\x7d']))))
  | more (k : String) (v w : List Char) (hv : Blank v) (hw : Blank w) (h : Writes j cs)
      (hs : WritesMembers ms ds) :
      WritesMembers ((k, j) :: ms) (quote k ++ ':' :: (v ++ (cs ++ ',' :: (w ++ ds))))

end

theorem writesItems_compact {j : Json} {js : List Json} (h : ∀ i ∈ j :: js, Writes i (compactChars i)) :
    WritesItems (j :: js) (compactChars j ++ compactChars.rest js) := by
  induction js generalizing j with
  | nil => exact .last [] blank_nil (h j (by simp))
  | cons i js ih => exact .more [] blank_nil (h j (by simp)) (ih fun k hk => h k (List.mem_cons_of_mem _ hk))

theorem writesMembers_compact {m : String × Json} {ms : List (String × Json)}
    (h : ∀ i ∈ m :: ms, Writes i.2 (compactChars i.2)) :
    WritesMembers (m :: ms)
      (quote m.1 ++ ':' :: compactChars m.2 ++ compactChars.members ms) := by
  induction ms generalizing m with
  | nil =>
    have := WritesMembers.last m.1 [] [] blank_nil blank_nil (h m (by simp))
    simpa [compactChars.members] using this
  | cons i ms ih =>
    have := WritesMembers.more m.1 [] [] blank_nil blank_nil (h m (by simp))
      (ih fun k hk => h k (List.mem_cons_of_mem _ hk))
    simpa [compactChars.members] using this

theorem writes_compactChars {j : Json} (h : j.Plain) : Writes j (compactChars j) := by
  induction j using inductOn with
  | null => exact .null
  | bool b => cases b <;> constructor
  | integer i => cases h with | integer h => exact .integer i h
  | float x => cases h
  | string s => exact .string s
  | array js ih =>
    cases h with
    | array h =>
      cases js with
      | nil => exact .emptyArray
      | cons j js => exact .array [] blank_nil (writesItems_compact fun i hi => ih i hi (h i hi))
  | object ms ih =>
    cases h with
    | object _ h =>
      cases ms with
      | nil => exact .emptyObject
      | cons m ms => exact .object [] blank_nil (writesMembers_compact fun i hi => ih i hi (h i hi))

theorem writesItems_indented (width depth : Nat) {j : Json} {js : List Json}
    (h : ∀ i ∈ j :: js, Writes i (indentedChars width (depth + 1) i)) :
    WritesItems (j :: js)
      (indentedChars width (depth + 1) j ++ indentedChars.rest width depth js) := by
  induction js generalizing j with
  | nil => exact .last _ (blank_newline width depth) (h j (by simp))
  | cons i js ih =>
    have := WritesItems.more _ (blank_newline width (depth + 1)) (h j (by simp))
      (ih fun k hk => h k (List.mem_cons_of_mem _ hk))
    simpa [indentedChars.rest] using this

theorem writesMembers_indented (width depth : Nat) {m : String × Json} {ms : List (String × Json)}
    (h : ∀ i ∈ m :: ms, Writes i.2 (indentedChars width (depth + 1) i.2)) :
    WritesMembers (m :: ms) (quote m.1 ++ ':' :: ' ' ::
      indentedChars width (depth + 1) m.2 ++ indentedChars.members width depth ms) := by
  have space : Blank [' '] := by simp [Blank, isSpace]
  induction ms generalizing m with
  | nil =>
    have := WritesMembers.last m.1 [' '] _ space (blank_newline width depth) (h m (by simp))
    simpa [indentedChars.members] using this
  | cons i ms ih =>
    have := WritesMembers.more m.1 [' '] _ space (blank_newline width (depth + 1)) (h m (by simp))
      (ih fun k hk => h k (List.mem_cons_of_mem _ hk))
    simpa [indentedChars.members] using this

theorem writes_indentedChars {j : Json} (h : j.Plain) (width depth : Nat) :
    Writes j (indentedChars width depth j) := by
  induction j using inductOn generalizing depth with
  | null => exact .null
  | bool b => cases b <;> constructor
  | integer i => cases h with | integer h => exact .integer i h
  | float x => cases h
  | string s => exact .string s
  | array js ih =>
    cases h with
    | array h =>
      cases js with
      | nil => exact .emptyArray
      | cons j js =>
        have := Writes.array _ (blank_newline width (depth + 1))
          (writesItems_indented width depth fun i hi => ih i hi (h i hi) _)
        simpa [indentedChars] using this
  | object ms ih =>
    cases h with
    | object _ h =>
      cases ms with
      | nil => exact .emptyObject
      | cons m ms =>
        have := Writes.object _ (blank_newline width (depth + 1))
          (writesMembers_indented width depth fun i hi => ih i hi (h i hi) _)
        simpa [indentedChars] using this

end DeviceModel.Json
