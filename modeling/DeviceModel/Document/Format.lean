import DeviceModel.Json.Reader
import DeviceModel.Supply
import DeviceModel.Tree.Basic

/-!
Model files: the stored form of a tree, and reading it back.

### Writing

The stored form has for each node its kind, its stored attributes in the order of the schema,
its identifier and, where the kind has children at all, the children.
-/

namespace DeviceModel

/-- The stored attributes with their keys. -/
def Data.members (d : Data) : List (String × Json) :=
  (d.entries.filter (·.1.persisted)).map fun (f, v) => (f.attr.key, v.toJson)

namespace Node

def toJson : Node → Json
  | ⟨u, d, cs⟩ =>
    .object (("_type", .string d.kind.tag) :: d.members ++ ("uuid", .string u.text) ::
      if d.kind.hasChildren then [("children", .array (each cs))] else [])
where
  each : List Node → List Json
    | [] => []
    | c :: cs => c.toJson :: each cs

end Node

namespace Tree

/-- The text of a model file. -/
def text (t : Tree) : String := t.root.toJson.indented 4

/-- The text on one line. -/
def line (t : Tree) : String := t.root.toJson.compact

end Tree

/-!
### Reading

A document is first decoded to a draft, in which nodes may still lack an
identifier; then the identifiers are checked and the missing ones filled in. Reading is strict: every
key must be one that the kind stores, and every value must have the type of its attribute.
-/

/-- A node as a document gives it. -/
structure Draft where
  uuid : Option Uuid
  data : Data
  children : List Draft

namespace Document

/-- The identifier that a document gives a node. -/
def readUuid? (members : List (String × Json)) : Except SchemaCause (Option Uuid) :=
  match Json.member? "uuid" members with
  | none | some .null => .ok none
  | some (.string s) =>
    match Uuid.ofText? s with
    | some u => .ok (some u)
    | none => .error (.uuidText s)
  | some j => .error (.uuidValue j)

def readKind (tree : TreeKind) (members : List (String × Json)) : Except SchemaCause Kind :=
  match Json.member? "_type" members >>= Json.string? with
  | none => .error .noKind
  | some tag =>
    match (Kind.ofTag? tag).filter (·.tree == tree) with
    | some k => .ok k
    | none => .error (.foreignKind tag tree)

/-- The stored attribute of a key. -/
def storedField? (k : Kind) (key : String) : Option Field :=
  k.fields.find? fun f => f.persisted && f.attr.key == key

def knowsKey (k : Kind) (key : String) : Bool :=
  key == "_type" || key == "uuid" || (key == "children" && k.hasChildren) ||
    (storedField? k key).isSome

/-- The value that a document gives an attribute; transient attributes begin anew. -/
def readValue (members : List (String × Json)) (f : Field) : Except SchemaCause Value :=
  if f.persisted then
    match Json.member? f.attr.key members with
    | some j =>
      match f.type.ofJson? j with
      | some v => .ok v
      | none => .error (.mismatch f.attr f.type j)
    | none =>
      match f.type.missing? with
      | some v => .ok v
      | none => .error (.missing f.attr)
  else .ok f.type.initial

def readValues (members : List (String × Json)) : List Field → Except SchemaCause (List Value)
  | [] => .ok []
  | f :: fs =>
    match readValue members f with
    | .error e => .error e
    | .ok v =>
      match readValues members fs with
      | .error e => .error e
      | .ok vs => .ok (v :: vs)

theorem holds_ofJson? {b : Base} {j : Json} {v : Value} (h : b.ofJson? j = some v) :
    b.holds v = true := by
  cases b <;> simp only [Base.ofJson?, Option.map_eq_some_iff] at h <;> obtain ⟨x, hx, rfl⟩ := h
  case choice names => exact (Option.filter_eq_some_iff.1 hx).2
  all_goals rfl

theorem all_holds_itemsOfJson? {b : Base} {js : List Json} {vs : List Value}
    (h : FieldType.itemsOfJson? b js = some vs) : vs.all b.holds = true := by
  induction js generalizing vs with
  | nil => cases h; rfl
  | cons j js ih =>
    simp only [FieldType.itemsOfJson?, Option.bind_eq_bind, Option.bind_eq_some_iff] at h
    obtain ⟨v, hv, us, hus, h⟩ := h
    cases h
    simp [holds_ofJson? hv, ih hus]

/-- A value read as a type has that type. -/
theorem holds_read {t : FieldType} {j : Json} {v : Value} (h : t.ofJson? j = some v) :
    t.holds v = true := by
  have single : ∀ j, ¬t.list → t.base.ofJson? j = some v → t.holds v = true := by
    intro j hl h
    have := holds_ofJson? h
    cases v <;> simp_all [FieldType.holds, Base.holds]
  unfold FieldType.ofJson? at h
  split at h
  · split at h
    · rename_i ho; cases h; exact ho
    · cases h
  · split at h
    · rename_i hl
      simp only [Option.map_eq_some_iff] at h
      obtain ⟨vs, hvs, rfl⟩ := h
      simpa [FieldType.holds, hl] using all_holds_itemsOfJson? hvs
    · cases h
  · split at h
    · cases h
    · rename_i hl; exact single _ hl h

theorem holds_missing {t : FieldType} {v : Value} (h : t.missing? = some v) : t.holds v = true := by
  unfold FieldType.missing? at h
  split at h
  · rename_i ho; cases h; exact ho
  · split at h
    · rename_i hl; cases h; simp [FieldType.holds, hl]
    · cases h

theorem holds_initial_of_mem {k : Kind} : ∀ f ∈ k.fields, f.type.holds f.type.initial = true := by
  cases k <;> decide

theorem holds_readValue {members : List (String × Json)} {f : Field} {v : Value}
    (hi : f.type.holds f.type.initial = true) (h : readValue members f = .ok v) :
    f.type.holds v = true := by
  unfold readValue at h
  split at h
  · split at h
    · split at h
      · rename_i hv; cases h; exact holds_read hv
      · cases h
    · split at h
      · rename_i hv; cases h; exact holds_missing hv
      · cases h
  · cases h; exact hi

theorem conforms_readValues {members : List (String × Json)} {fs : List Field} {vs : List Value}
    (hi : ∀ f ∈ fs, f.type.holds f.type.initial = true) (h : readValues members fs = .ok vs) :
    conforms fs vs = true := by
  induction fs generalizing vs with
  | nil => cases h; rfl
  | cons f fs ih =>
    simp only [readValues] at h
    split at h
    · cases h
    · rename_i v hv
      split at h
      · cases h
      · rename_i us hus
        cases h
        simp [conforms, holds_readValue (hi f (by simp)) hv,
          ih (fun g hg => hi g (by simp [hg])) hus]

/-- The attributes of a node of kind `k`. -/
def readData (k : Kind) (members : List (String × Json)) : Except SchemaCause Data :=
  match members.find? fun m => !knowsKey k m.1 with
  | some (key, _) => .error (.unknownKey key k.tag)
  | none =>
    match h : readValues members k.fields with
    | .ok vs => .ok ⟨k, vs, conforms_readValues holds_initial_of_mem h⟩
    | .error e => .error e

/-- All of a node but its children. -/
def readHead (tree : TreeKind) (path : List Nat) (members : List (String × Json)) :
    Except SchemaError (Option Uuid × Data) :=
  match readUuid? members with
  | .error cause => .error ⟨cause, none, path⟩
  | .ok u =>
    match readKind tree members >>= fun k => readData k members with
    | .error cause => .error ⟨cause, u, path⟩
    | .ok d => .ok (u, d)

/-- A node with all below it. -/
def read (tree : TreeKind) (path : List Nat) : Json → Except SchemaError Draft
  | .object members =>
    match readHead tree path members with
    | .error e => .error e
    | .ok (u, d) =>
      match children u d members with
      | .error e => .error e
      | .ok cs => .ok ⟨u, d, cs⟩
  | _ => .error ⟨.notObject, none, path⟩
where
  children (u : Option Uuid) (d : Data) : List (String × Json) → Except SchemaError (List Draft)
    | [] => .ok []
    | (key, .array items) :: ms =>
      if key = "children" then each d.kind 0 items else children u d ms
    | (key, j) :: ms =>
      if key = "children" then .error ⟨.childrenValue j, u, path⟩ else children u d ms
  each (parent : Kind) (i : Nat) : List Json → Except SchemaError (List Draft)
    | [] => .ok []
    | j :: js =>
      match read tree (path ++ [i]) j with
      | .error e => .error e
      | .ok c =>
        if !parent.allows c.data.kind then
          .error ⟨.misplaced c.data.kind parent, c.uuid, path ++ [i]⟩
        else
          match each parent (i + 1) js with
          | .error e => .error e
          | .ok cs => .ok (c :: cs)

end Document

namespace Draft

/-- The draft of a whole tree. -/
def ofText (text : String) (tree : TreeKind) : Except Error Draft :=
  match Json.ofText? text with
  | none => .error .json
  | some j =>
    match Document.read tree [] j with
    | .error e => .error (.schema e)
    | .ok d =>
      if d.data.kind = tree.rootKind then .ok d
      else .error (.schema ⟨.wrongRoot tree, d.uuid, []⟩)

/-- The identifiers in `seen` and of the draft; refuses the first in pre-order that is repeated. -/
def collect (path : List Nat) : Draft → List Uuid → Except SchemaError (List Uuid)
  | ⟨none, _, cs⟩, seen => each 0 cs seen
  | ⟨some u, _, cs⟩, seen =>
    if u ∈ seen then .error ⟨.duplicate, some u, path⟩ else each 0 cs (u :: seen)
where
  each (i : Nat) : List Draft → List Uuid → Except SchemaError (List Uuid)
    | [], seen => .ok seen
    | c :: cs, seen =>
      match collect (path ++ [i]) c seen with
      | .error e => .error e
      | .ok seen => each (i + 1) cs seen

/-- The node with new identifiers where the draft has none. -/
def fill : Draft → Fresh Node
  | ⟨u, d, cs⟩ => do
    let u ← match u with
      | some u => pure u
      | none => draw
    return ⟨u, d, ← each cs⟩
where
  each : List Draft → Fresh (List Node)
    | [] => pure []
    | c :: cs => return (← fill c) :: (← each cs)

/-- The node of a draft whose identifiers are distinct and none of `others`. -/
def complete (d : Draft) (others : List Uuid) (s : Supply) : Except SchemaError (Node × Supply) :=
  match d.collect [] others with
  | .error e => .error e
  | .ok seen => .ok (d.fill (s.avoiding (seen ++ s.taken)))

end Draft

/-- The tree in the text of a model file; its identifiers must not be among those of `others`. -/
def Tree.ofText (text : String) (kind : TreeKind) (others : List Tree) (s : Supply) :
    Except Error (Tree × Supply) := do
  let draft ← Draft.ofText text kind
  match draft.complete (others.flatMap Tree.uuids) s with
  | .error e => .error (.schema e)
  | .ok (n, s) => return (← Tree.ofRoot? kind n, s)

end DeviceModel
