import DeviceModel.Schema.Data

/-!
Errors by cause, and their messages. An error of a file names the place in the document; one of an
edit names the nodes involved.
-/

namespace DeviceModel

/-- What is wrong with a node of a document. -/
inductive SchemaCause
  | notObject
  | uuidText (text : String)
  | uuidValue (got : Json)
  | noKind
  | foreignKind (tag : String) (tree : TreeKind)
  | wrongRoot (tree : TreeKind)
  | unknownKey (key tag : String)
  | missing (attr : Attr)
  | mismatch (attr : Attr) (expected : FieldType) (got : Json)
  | childrenValue (got : Json)
  | misplaced (child parent : Kind)
  | duplicate

/-- Classes of violations, by which messages begin. -/
inductive Violation
  | unknownKind
  | attributeMissing
  | unknownAttribute
  | typeMismatch
  | duplicateUuid
  | invalidChild
  deriving DecidableEq, Repr

def Violation.text : Violation → String
  | .unknownKind => "unknown kind"
  | .attributeMissing => "attribute missing"
  | .unknownAttribute => "unknown attribute"
  | .typeMismatch => "type mismatch"
  | .duplicateUuid => "duplicate uuid"
  | .invalidChild => "invalid child"

namespace SchemaCause

def violation : SchemaCause → Violation
  | .notObject | .uuidText _ | .uuidValue _ | .mismatch .. | .childrenValue _ => .typeMismatch
  | .noKind | .foreignKind .. | .wrongRoot _ => .unknownKind
  | .unknownKey .. => .unknownAttribute
  | .missing _ => .attributeMissing
  | .misplaced .. => .invalidChild
  | .duplicate => .duplicateUuid

def detail : SchemaCause → String
  | .notObject => "expected an object"
  | .uuidText s => "uuid: " ++ Text.quoted s
  | .uuidValue j => "uuid: " ++ j.compact
  | .noKind => "missing `_type`"
  | .foreignKind tag t => "`" ++ tag ++ "` is not a " ++ t.name ++ " kind"
  | .wrongRoot t => "expected `" ++ t.rootKind.tag ++ "` at the top of the " ++ t.name ++ " tree"
  | .unknownKey key tag => "`" ++ key ++ "` on " ++ tag
  | .missing a => a.key
  | .mismatch a t j => a.key ++ ": expected " ++ t.name ++ ", got " ++ j.compact
  | .childrenValue j => "children: expected an array, got " ++ j.compact
  | .misplaced c p => c.tag ++ " under " ++ p.tag
  | .duplicate => "uuid already used by another node"

end SchemaCause

/-- A violation at the node reached by the positions of `path`. -/
structure SchemaError where
  cause : SchemaCause
  uuid : Option Uuid
  path : List Nat

namespace SchemaError

def pathText (path : List Nat) : String :=
  path.foldl (fun s i => s ++ ".children[" ++ Text.natText i ++ "]") "$"

def message (e : SchemaError) : String :=
  let node := match e.uuid with
    | some u => " (uuid " ++ u.text ++ ")"
    | none => ""
  e.cause.violation.text ++ " at " ++ pathText e.path ++ node ++ ": " ++ e.cause.detail

end SchemaError

/-- A state of the project that an operation cannot start from or would break. -/
inductive Inconsistency
  | duplicate (uuid : Uuid)
  | underItself (uuid parent : Uuid)
  | shared (uuid : Uuid) (tree source : TreeKind)
  | notProject (path kind : String)
  | notView (node : Uuid) (kind view : Kind)
  | otherTable (table : Uuid) (linked : Option Uuid)
  | oversized (names : List String)
  | unready (names : List String)
  | noTableViews (tree : TreeKind)
  | unlinkedView (view : Uuid)
  | notTable (node : Uuid) (kind : Kind)
  | noOriginal (leaf : Uuid)
  | tableElsewhere
  | identifiersExhausted
  | emptyArray
  | aborted (reason : String)
  deriving DecidableEq, Repr

def Inconsistency.message : Inconsistency → String
  | .duplicate u => "uuid " ++ u.text ++ " is already in use"
  | .underItself u p => "cannot move " ++ u.text ++ " under itself or its descendant " ++ p.text
  | .shared u t s =>
    "uuid " ++ u.text ++ " appears in both the " ++ t.name ++ " and " ++ s.name ++ " trees"
  | .notProject p k => p ++ " is a \"" ++ k ++ "\" file, not a project"
  | .notView u k v => u.text ++ " is a " ++ k.tag ++ ", not a " ++ v.tag
  | .otherTable t linked =>
    "table " ++ t.text ++ " does not match the view's parameter table " ++
      (linked.map Uuid.text).getD "(none)"
  | .oversized names =>
    "reference points are wider than a group's payload: " ++ ", ".intercalate names
  | .unready names => "reference points cannot be laid out: " ++ ", ".intercalate names
  | .noTableViews t => "the " ++ t.name ++ " tree has no table views"
  | .unlinkedView u => "view " ++ u.text ++ " is not linked to a parameter table"
  | .notTable u k => u.text ++ " is a " ++ k.tag ++ ", not a parameter table"
  | .noOriginal u => "table leaf " ++ u.text ++ " has no original parameter"
  | .tableElsewhere => "parameter tables live in the parameter model"
  | .identifiersExhausted => "multiplexer id space exhausted"
  | .emptyArray => "array has no first element to copy"
  | .aborted reason => reason

/-- An error of an operation on the models of a project. -/
inductive Error
  | schema (e : SchemaError)
  | notFound (uuid : Uuid)
  | inconsistent (c : Inconsistency)
  | sizeMismatch (uuid : Uuid) (typeName : String) (size expected : Int)
  | unresolvedType (uuid : Uuid) (type : Option Uuid)
  | notDeletable (uuid : Uuid) (kind : Kind)
  | illegalDrop (source : Uuid) (sourceKind : Kind) (target : Uuid) (targetKind : Kind)
  | illegalChild (parent child : Kind)
  | attribute (uuid : Uuid) (e : AttrError)
  | noAttribute (uuid : Uuid) (kind : Kind) (name : String)
  | payload (size : Nat)
  | json
  | io (path : String)

namespace Error

/-- How messages show an identifier that may be absent. -/
def optionText : Option Uuid → String
  | some u => "Some(" ++ u.text ++ ")"
  | none => "None"

/-- The message; none where the document itself could not be read. -/
def message? : Error → Option String
  | .schema e => some ("schema error: " ++ e.message)
  | .notFound u => some ("node " ++ u.text ++ " not found")
  | .inconsistent c => some ("consistency error: " ++ c.message)
  | .sizeMismatch u t n m =>
    some ("point " ++ u.text ++ " has size " ++ Text.intText n ++ " but type " ++ t ++ " requires " ++
      Text.intText m)
  | .unresolvedType u t => some ("point " ++ u.text ++ " has unresolved type uuid " ++ optionText t)
  | .notDeletable u k => some (k.name ++ " node " ++ u.text ++ " cannot be deleted")
  | .illegalDrop s sk t tk =>
    some ("cannot drop " ++ sk.name ++ " " ++ s.text ++ " onto " ++ tk.name ++ " " ++ t.text)
  | .illegalChild p c => some (c.name ++ " is not a valid child of " ++ p.name)
  | .attribute u e => some ("attribute error on " ++ u.text ++ ": " ++ e.message)
  | .noAttribute u k name =>
    some ("attribute error on " ++ u.text ++ ": " ++ k.tag ++ " has no attribute `" ++ name ++ "`")
  | .payload n => some ("drop payload must be 16 bytes, got " ++ Text.natText n)
  | .json => none
  | .io path => some path

end Error

end DeviceModel
