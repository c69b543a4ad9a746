import DeviceModel.Tree.Basic

/-!
What a check can find fault with, how severe it is, and how it is put.
-/

namespace DeviceModel

inductive Level
  | information
  | warning
  | error
  deriving DecidableEq, Repr

namespace Level

def all : List Level := [.information, .warning, .error]

def name : Level → String
  | .information => "information"
  | .warning => "warning"
  | .error => "error"

def rank : Level → Nat
  | .information => 0
  | .warning => 1
  | .error => 2

/-- The more severe of two. -/
def max (a b : Level) : Level := if a.rank < b.rank then b else a

end Level

inductive Issue
  -- Any tree
  | absent (uuid : Uuid)
  | misplaced (child parent : Kind)
  | sharedUuid (uuid : Uuid) (trees : Nat)
  | unknownReference (label : String) (target : Uuid)
  | wrongReference (label : String) (kind : Kind) (expected : List Kind)
  -- Parameters
  | reversedRange (minimum maximum : Decimal)
  | defaultOutside (value : Decimal)
  | legacyAccessLevel
  | legacyUnreachable
  | emptyEnumeration
  | arrayLength (stored : Int) (elements : Nat)
  | firstElement (kind : Kind)
  | elementKind (uuid : Uuid) (kind expected : Kind)
  | elementOriginal (uuid : Uuid)
  | sharedValue (first second : String) (value : Int)
  | noAxes
  | noRows
  | tableNotExpanded
  -- CAN
  | frameIdentifier (identifier : Int)
  | noSelector
  | cloneOfNothing
  | multiplexerIdentifier
  | unlinkedView
  | emptyRange
  | zeroBitsReference
  | zeroBits
  | outsideMessage (first last end_ : Int)
  | legacySignal
  -- Register maps
  | drift (attr : Attr) (name : String) (stored computed : Int)
  | modelId (id : Int)
  | referenceWithoutType
  | unknownType (type : Uuid)
  | noType
  | sizeMismatch (uuid : Uuid) (typeName : String) (size expected : Int)
  | scaleFactorType
  | noBits
  | outsideBitfield (first last size : Int)
  | viewNotExpanded
  | referenceToNothing
  -- Anomalies
  | sharedCode (first second : String) (code : Int)
  | noAbbreviation
  | noParameter
  deriving DecidableEq, Repr

namespace Issue

def level : Issue → Level
  | .absent _ | .misplaced .. | .sharedUuid .. | .unknownReference .. | .wrongReference ..
  | .reversedRange .. | .arrayLength .. | .firstElement _ | .elementKind .. | .elementOriginal _
  | .frameIdentifier _ | .noSelector | .multiplexerIdentifier | .unlinkedView | .emptyRange
  | .outsideMessage .. | .drift .. | .modelId _ | .unknownType _ | .noType | .sizeMismatch ..
  | .outsideBitfield .. | .referenceToNothing | .sharedCode .. => .error
  | .defaultOutside _ | .legacyAccessLevel | .emptyEnumeration | .sharedValue .. | .noAxes | .noRows
  | .cloneOfNothing | .zeroBitsReference | .zeroBits | .referenceWithoutType | .scaleFactorType
  | .noBits | .noAbbreviation | .noParameter => .warning
  | .legacyUnreachable | .tableNotExpanded | .legacySignal | .viewNotExpanded => .information

open Text in
def message : Issue → String
  | .absent u => "node " ++ u.text ++ " not found"
  | .misplaced c p => c.tag ++ " is not allowed under " ++ p.tag
  | .sharedUuid u n => "uuid " ++ u.text ++ " is used in " ++ natText n ++ " trees"
  | .unknownReference label u => label ++ " references unknown node " ++ u.text
  | .wrongReference label k expected =>
    label ++ " references a " ++ k.tag ++ " (expected " ++
      " or ".intercalate (expected.map Kind.tag) ++ ")"
  | .reversedRange low high =>
    "minimum " ++ low.text ++ " is greater than maximum " ++ high.text
  | .defaultOutside d => "default " ++ d.text ++ " is outside the parameter range"
  | .legacyAccessLevel => "access level will not be enforced on a legacy parameter"
  | .legacyUnreachable =>
    "legacy parameter has neither a getter function nor an internal variable"
  | .emptyEnumeration => "enumeration has no enumerators"
  | .arrayLength stored n =>
    "array length is " ++ intText stored ++ " but it has " ++ natText n ++ " elements"
  | .firstElement k => k.tag ++ " cannot be an array's first element"
  | .elementKind u k expected =>
    "element " ++ u.text ++ " is a " ++ k.tag ++ ", expected " ++ expected.tag
  | .elementOriginal u => "element " ++ u.text ++ " does not refer to the first element"
  | .sharedValue a b v => "enumerators " ++ a ++ " and " ++ b ++ " share value " ++ intText v
  | .noAxes => "table has no axis enumerations"
  | .noRows => "table has no arrays or groups"
  | .tableNotExpanded => "table has not been expanded"
  | .frameIdentifier i => "frame identifier 0x" ++ hexText i ++ " is used by another message"
  | .noSelector => "multiplexed message must start with its selector signal"
  | .cloneOfNothing => "clone does not name a multiplexed message"
  | .multiplexerIdentifier => "multiplexer identifier is used twice in the message"
  | .unlinkedView => "table view is not linked to a parameter table"
  | .emptyRange => "multiplexer range is empty"
  | .zeroBitsReference => "reference signal has zero bits; its table leaves cannot be laid out"
  | .zeroBits => "signal has zero bits"
  | .outsideMessage first last end_ =>
    "signal bits [" ++ intText first ++ ", " ++ intText last ++ "] fall outside message bits [0, " ++
      intText end_ ++ "]"
  | .legacySignal => "signal carries a legacy parameter with an access level"
  | .drift a name stored computed =>
    a.key ++ " of " ++ name ++ " is " ++ intText stored ++ ", layout gives " ++ intText computed
  | .modelId i => "model id " ++ intText i ++ " is used twice"
  | .referenceWithoutType => "reference point has no type yet"
  | .unknownType u => "point has unknown type uuid " ++ u.text
  | .noType => "point has no type"
  | .sizeMismatch u t n m => ((Error.sizeMismatch u t n m).message?).getD ""
  | .scaleFactorType => "scale factor point is not of type sunssf"
  | .noBits => "bitfield member has no bits"
  | .outsideBitfield first last size =>
    "bits [" ++ intText first ++ ", " ++ intText last ++ "] do not fit a " ++ intText size ++
      "-register bitfield"
  | .viewNotExpanded => "table view has not been expanded"
  | .referenceToNothing => "reference does not name a repeating block"
  | .sharedCode a b c => a ++ " and " ++ b ++ " share code " ++ intText c
  | .noAbbreviation => "anomaly table has no abbreviation"
  | .noParameter => "anomaly source has no parameter"

/-- An issue for each node whose key an earlier one has; it names the nearest of those. -/
def repeats (key : Node → Option Int) (issue : String → String → Int → Issue) (ns : List Node) :
    List Issue :=
  go [] ns
where
  go (seen : List (Int × String)) : List Node → List Issue
    | [] => []
    | n :: ns =>
      match key n with
      | none => go seen ns
      | some k =>
        let issues := match seen.find? (·.1 == k) with
          | some (_, name) => [issue name n.name k]
          | none => []
        issues ++ go ((k, n.name) :: seen) ns

end Issue

end DeviceModel
