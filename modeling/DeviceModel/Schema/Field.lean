import DeviceModel.Schema.Value

/-!
The schema: the attributes of every kind in the order in which files and views list them, and the
columns of the view of a tree.
-/

namespace DeviceModel

/-- One attribute of one kind. A transient attribute is not stored but computed anew, and an empty
`targets` lets an identifier refer to a node of any kind. -/
structure Field where
  attr : Attr
  type : FieldType
  label : String := attr.heading
  hexadecimal : Bool := false
  persisted : Bool := true
  targets : List Kind := []
  deriving DecidableEq, Repr

namespace Field

def of (b : Base) (a : Attr) : Field := { attr := a, type := { base := b } }

def text (a : Attr) : Field := of .string a

def integer (a : Attr) : Field := of .integer a

def decimal (a : Attr) : Field := of .decimal a

def flag (a : Attr) : Field := of .bool a

def level (a : Attr) : Field := of (.choice (ResponseLevel.all.map ResponseLevel.name)) a

def trigger (a : Attr) : Field := of (.choice (TriggerType.all.map TriggerType.name)) a

/-- The same attribute, which may also be null. -/
def orNull (f : Field) : Field := { f with type := { f.type with optional := true } }

/-- A reference to a node of one of the kinds `targets`, or null. -/
def ref (a : Attr) (targets : List Kind) : Field := { (of .uuid a).orNull with targets }

/-- The identifiers walked from an expanded table down to a node. -/
def path : Field := { attr := .path, type := { base := .uuid, list := true } }

def hex (a : Attr) : Field := { integer a with hexadecimal := true }

def transient (f : Field) : Field := { f with persisted := false }

/-- The text of a value in the view. -/
def display (f : Field) : Value → String
  | .integer i => if f.hexadecimal then "0x" ++ Text.hexText i else Text.intText i
  | v => v.text

end Field

/-- An error of one attribute. -/
inductive AttrError
  | unknownAttribute (kind : Kind) (name : String)
  | typeMismatch (attr : Attr) (expected : FieldType)
  | parse (attr : Attr) (text : String)
  deriving DecidableEq, Repr

def AttrError.message : AttrError → String
  | .unknownAttribute k name => k.name ++ " has no attribute `" ++ name ++ "`"
  | .typeMismatch a t => "attribute `" ++ a.key ++ "` expects " ++ t.name
  | .parse a s => "cannot parse " ++ Text.quoted s ++ " for attribute `" ++ a.key ++ "`"

namespace Field

/-- One value from text, which has no blanks at its ends. -/
def parseBase (f : Field) (s : String) : Except AttrError Value :=
  match f.type.base.ofText? s with
  | some v => .ok v
  | none => .error (.parse f.attr s)

/-- A value from entered text. Empty text is null where that is allowed, and commas separate the items
of a list, where empty items do not count. -/
def parse (f : Field) (entered : String) : Except AttrError Value :=
  let s := Text.trim entered
  if s = "" ∧ f.type.optional then .ok .null
  else if f.type.list then
    let items := (Text.splitOn ',' s.toList).map fun cs => String.ofList (Text.trimChars cs)
    ((items.filter (· ≠ "")).mapM f.parseBase).map .list
  else f.parseBase s

end Field

namespace Kind

/-- The kinds that a parameter reference of a view may refer to. -/
def sources : List Kind := [.parameter, .arrayParameterElement, .tableArrayElement, .array]

def enumerations : List Kind := [.enumeration, .accessLevels]

open DeviceModel.Field in
def fields : Kind → List Field
  | .root => [text .name]
  | .group => [text .name, (text .typeName).orNull]
  | .parameter =>
    [text .name, (text .abbreviation).orNull, (text .typeName).orNull, (text .units).orNull,
      (decimal .defaultValue).orNull, (decimal .minimum).orNull, (decimal .maximum).orNull,
      (integer .decimalPlaces).orNull, flag .displayHexadecimal, (text .nvFormat).orNull,
      (text .nvFactor).orNull, flag .nvCast, flag .readOnly, ref .accessLevel [.enumerator],
      ref .enumeration enumerations, (text .internalVariable).orNull,
      integer .internalScaleFactor, (text .getterFunction).orNull, (text .setterFunction).orNull,
      flag .usesInterfaceItem, (text .description).orNull, (text .comment).orNull]
  | .array => [text .name, integer .length, ref .namedEnumerators [.enumeration]]
  | .arrayParameterElement =>
    [text .name, (text .abbreviation).orNull, (decimal .defaultValue).orNull,
      ref .accessLevel [.enumerator], ref .original [.parameter, .arrayParameterElement]]
  | .arrayGroupElement => [text .name, ref .original [.group]]
  | .table => [text .name]
  | .tableGroupElement =>
    [text .name, path, ref .original [.enumerator, .array, .group, .arrayGroupElement]]
  | .tableArrayElement =>
    [text .name, (text .abbreviation).orNull, path, (integer .curveIndex).orNull,
      ref .original [.parameter, .arrayParameterElement], ref .accessLevel [.enumerator]]
  | .enumeration => [text .name]
  | .enumerator =>
    [text .name, (text .abbreviation).orNull, (text .label).orNull, (text .description).orNull,
      integer .value]
  | .accessLevels => [text .name, ref .defaultAccessLevel [.enumerator]]
  | .canRoot => [text .name]
  | .message | .multiplexedMessage =>
    [text .name, hex .identifier, flag .extended, integer .length, (integer .cycleTime).orNull,
      flag .sendable, flag .receivable, (text .comment).orNull]
  | .multiplexer =>
    [text .name, hex .identifier, integer .length, (integer .cycleTime).orNull,
      (text .comment).orNull, path]
  | .signal =>
    [text .name, integer .bits, flag .signed, decimal .factor, integer .startBit,
      flag .hexadecimalOutput, ref .enumeration enumerations, ref .parameter sources]
  | .canTable =>
    [text .name, { ref .parameter [.table] with label := "Parameter Table" },
      hex .multiplexerRangeFirst, hex .multiplexerRangeLast]
  | .multiplexedMessageClone =>
    [text .name, hex .identifier, flag .extended, ref .original [.multiplexedMessage]]
  | .sunSpecRoot => []
  | .sunSpecModel => [text .name, integer .id, integer .length]
  | .headerBlock | .fixedBlock => [integer .offset]
  | .dataPoint =>
    [text .name, ref .parameter sources, ref .factorPoint [.dataPoint],
      ref .pointType [.enumerator], integer .size, integer .blockOffset,
      (integer .offset).transient, (text .units).orNull, flag .mandatory, flag .notImplemented,
      flag .handCodedGetter, flag .handCodedSetter]
  | .dataPointBitfield =>
    [text .name, ref .parameter sources, ref .pointType [.enumerator], integer .size,
      integer .blockOffset, (integer .offset).transient]
  | .dataPointBitfieldMember | .functionDataBitfieldMember =>
    [text .name, ref .parameter sources, integer .bitOffset, integer .bitLength]
  | .sunSpecTable | .modbusTable => [ref .parameterTable [.table]]
  | .tableRepeatingBlock | .modbusTableRepeatingBlock => [text .name, path, integer .offset]
  | .tableRepeatingBlockReference =>
    [ref .original [.tableRepeatingBlock], integer .blockOffset, (integer .offset).transient]
  | .tableRepeatingBlockReferenceDataPointReference => [ref .original [.dataPoint]]
  | .staticModbusRoot => []
  | .functionData =>
    [text .name, ref .parameter sources, ref .factorPoint [.functionData],
      ref .pointType [.enumerator], integer .size, integer .blockOffset, (text .units).orNull,
      flag .notImplemented, flag .handCodedGetter, flag .handCodedSetter]
  | .functionDataBitfield =>
    [text .name, ref .parameter sources, ref .pointType [.enumerator], integer .size,
      integer .blockOffset]
  | .modbusTableRepeatingBlockReference =>
    [ref .original [.modbusTableRepeatingBlock], integer .blockOffset, integer .size]
  | .anomaliesRoot => [text .name]
  | .anomalyTable => [text .name, text .abbreviation, integer .code]
  | .anomaly =>
    [text .name, (text .abbreviation).orNull, integer .code, (text .description).orNull,
      level .responseLevelActive, level .responseLevelInactive, trigger .triggerType,
      (text .comment).orNull]
  | .anomalySource => [text .name, ref .parameter parameterLike]

def field? (k : Kind) (a : Attr) : Option Field := k.fields.find? (·.attr == a)

/-- The attributes that an element of an array takes from its original. -/
def sharedAttributes : List Attr :=
  [.typeName, .units, .nvFormat, .nvFactor, .nvCast, .minimum, .maximum, .decimalPlaces,
    .displayHexadecimal, .enumeration, .internalScaleFactor, .readOnly, .usesInterfaceItem,
    .description]

end Kind

/-- A column of a view: the attribute that it shows, for some kinds another one. -/
structure Column where
  header : String
  attr : Attr
  overrides : List (Kind × Attr) := []

namespace Column

def ofAttr (a : Attr) : Column := { header := a.heading, attr := a }

def attribute? (c : Column) (k : Kind) : Option Field :=
  k.field? (((c.overrides.find? (·.1 == k)).map (·.2)).getD c.attr)

def all : TreeKind → List Column
  | .parameters =>
    [ofAttr .name, ofAttr .abbreviation, ofAttr .typeName, ofAttr .units, ofAttr .defaultValue,
      ofAttr .minimum, ofAttr .maximum, ofAttr .decimalPlaces,
      { ofAttr .accessLevel with overrides := [(.accessLevels, .defaultAccessLevel)] },
      { ofAttr .enumeration with overrides := [(.array, .namedEnumerators)] },
      ofAttr .value, ofAttr .length, ofAttr .original, ofAttr .description]
  | .can =>
    [ofAttr .name, ofAttr .identifier, ofAttr .extended, ofAttr .length, ofAttr .cycleTime,
      ofAttr .bits, ofAttr .startBit, ofAttr .signed, ofAttr .factor, ofAttr .parameter,
      ofAttr .enumeration, { header := "Range First", attr := .multiplexerRangeFirst },
      { header := "Range Last", attr := .multiplexerRangeLast }, ofAttr .comment]
  | .sunSpec =>
    [ofAttr .name, ofAttr .id, ofAttr .length, ofAttr .size, ofAttr .offset, ofAttr .blockOffset,
      ofAttr .pointType,
      { ofAttr .parameter with overrides := [(.sunSpecTable, .parameterTable)] },
      ofAttr .factorPoint, ofAttr .units, ofAttr .mandatory, ofAttr .original]
  | .staticModbus =>
    [ofAttr .name, ofAttr .size, ofAttr .offset, ofAttr .blockOffset, ofAttr .pointType,
      { ofAttr .parameter with overrides := [(.modbusTable, .parameterTable)] },
      ofAttr .factorPoint, ofAttr .units, ofAttr .original]
  | .anomalies =>
    [ofAttr .name, ofAttr .abbreviation, ofAttr .code, ofAttr .responseLevelActive,
      ofAttr .responseLevelInactive, ofAttr .triggerType, ofAttr .parameter, ofAttr .description,
      ofAttr .comment]

end Column

end DeviceModel
