/-!
Names of attributes. An attribute has the same name, and but for one kind the same heading, at every
kind that has it.
-/

namespace DeviceModel

inductive Attr
  | name
  | typeName
  | abbreviation
  | units
  | defaultValue
  | minimum
  | maximum
  | decimalPlaces
  | displayHexadecimal
  | nvFormat
  | nvFactor
  | nvCast
  | readOnly
  | accessLevel
  | enumeration
  | internalVariable
  | internalScaleFactor
  | getterFunction
  | setterFunction
  | usesInterfaceItem
  | description
  | comment
  | length
  | namedEnumerators
  | original
  | path
  | curveIndex
  | label
  | value
  | defaultAccessLevel
  | identifier
  | extended
  | cycleTime
  | sendable
  | receivable
  | bits
  | signed
  | factor
  | startBit
  | hexadecimalOutput
  | parameter
  | multiplexerRangeFirst
  | multiplexerRangeLast
  | id
  | offset
  | factorPoint
  | pointType
  | size
  | blockOffset
  | mandatory
  | notImplemented
  | handCodedGetter
  | handCodedSetter
  | bitOffset
  | bitLength
  | parameterTable
  | code
  | responseLevelActive
  | responseLevelInactive
  | triggerType
  deriving DecidableEq, Repr, Inhabited

namespace Attr

def all : List Attr :=
  [.name, .typeName, .abbreviation, .units, .defaultValue, .minimum, .maximum, .decimalPlaces,
    .displayHexadecimal, .nvFormat, .nvFactor, .nvCast, .readOnly, .accessLevel, .enumeration,
    .internalVariable, .internalScaleFactor, .getterFunction, .setterFunction, .usesInterfaceItem,
    .description, .comment, .length, .namedEnumerators, .original, .path, .curveIndex, .label,
    .value, .defaultAccessLevel, .identifier, .extended, .cycleTime, .sendable, .receivable,
    .bits, .signed, .factor, .startBit, .hexadecimalOutput, .parameter, .multiplexerRangeFirst,
    .multiplexerRangeLast, .id, .offset, .factorPoint, .pointType, .size, .blockOffset,
    .mandatory, .notImplemented, .handCodedGetter, .handCodedSetter, .bitOffset, .bitLength,
    .parameterTable, .code, .responseLevelActive, .responseLevelInactive, .triggerType]

/-- The name under which files store an attribute. -/
def key : Attr → String
  | .name => "name"
  | .typeName => "type_name"
  | .abbreviation => "abbreviation"
  | .units => "units"
  | .defaultValue => "default"
  | .minimum => "minimum"
  | .maximum => "maximum"
  | .decimalPlaces => "decimal_places"
  | .displayHexadecimal => "display_hexadecimal"
  | .nvFormat => "nv_format"
  | .nvFactor => "nv_factor"
  | .nvCast => "nv_cast"
  | .readOnly => "read_only"
  | .accessLevel => "access_level_uuid"
  | .enumeration => "enumeration_uuid"
  | .internalVariable => "internal_variable"
  | .internalScaleFactor => "internal_scale_factor"
  | .getterFunction => "getter_function"
  | .setterFunction => "setter_function"
  | .usesInterfaceItem => "uses_interface_item"
  | .description => "description"
  | .comment => "comment"
  | .length => "length"
  | .namedEnumerators => "named_enumerators_uuid"
  | .original => "original"
  | .path => "path"
  | .curveIndex => "curve_index"
  | .label => "label"
  | .value => "value"
  | .defaultAccessLevel => "default_access_level_uuid"
  | .identifier => "identifier"
  | .extended => "extended"
  | .cycleTime => "cycle_time"
  | .sendable => "sendable"
  | .receivable => "receivable"
  | .bits => "bits"
  | .signed => "signed"
  | .factor => "factor"
  | .startBit => "start_bit"
  | .hexadecimalOutput => "hexadecimal_output"
  | .parameter => "parameter_uuid"
  | .multiplexerRangeFirst => "multiplexer_range_first"
  | .multiplexerRangeLast => "multiplexer_range_last"
  | .id => "id"
  | .offset => "offset"
  | .factorPoint => "factor_uuid"
  | .pointType => "type_uuid"
  | .size => "size"
  | .blockOffset => "block_offset"
  | .mandatory => "mandatory"
  | .notImplemented => "not_implemented"
  | .handCodedGetter => "hand_coded_getter"
  | .handCodedSetter => "hand_coded_setter"
  | .bitOffset => "bit_offset"
  | .bitLength => "bit_length"
  | .parameterTable => "parameter_table_uuid"
  | .code => "code"
  | .responseLevelActive => "response_level_active"
  | .responseLevelInactive => "response_level_inactive"
  | .triggerType => "trigger_type"

/-- The heading that views give an attribute. -/
def heading : Attr → String
  | .name => "Name"
  | .typeName => "Type Name"
  | .abbreviation => "Abbreviation"
  | .units => "Units"
  | .defaultValue => "Default"
  | .minimum => "Minimum"
  | .maximum => "Maximum"
  | .decimalPlaces => "Decimal Places"
  | .displayHexadecimal => "Display Hexadecimal"
  | .nvFormat => "NV Format"
  | .nvFactor => "NV Factor"
  | .nvCast => "NV Cast"
  | .readOnly => "Read Only"
  | .accessLevel => "Access Level"
  | .enumeration => "Enumeration"
  | .internalVariable => "Internal Variable"
  | .internalScaleFactor => "Internal Scale Factor"
  | .getterFunction => "Getter Function"
  | .setterFunction => "Setter Function"
  | .usesInterfaceItem => "Uses Interface Item"
  | .description => "Description"
  | .comment => "Comment"
  | .length => "Length"
  | .namedEnumerators => "Named Enumerators"
  | .original => "Original"
  | .path => "Path"
  | .curveIndex => "Curve Index"
  | .label => "Label"
  | .value => "Value"
  | .defaultAccessLevel => "Default Access Level"
  | .identifier => "Identifier"
  | .extended => "Extended"
  | .cycleTime => "Cycle Time"
  | .sendable => "Sendable"
  | .receivable => "Receivable"
  | .bits => "Bits"
  | .signed => "Signed"
  | .factor => "Factor"
  | .startBit => "Start Bit"
  | .hexadecimalOutput => "Hexadecimal Output"
  | .parameter => "Parameter"
  | .multiplexerRangeFirst => "Multiplexer Range First"
  | .multiplexerRangeLast => "Multiplexer Range Last"
  | .id => "Id"
  | .offset => "Offset"
  | .factorPoint => "Scale Factor"
  | .pointType => "Type"
  | .size => "Size"
  | .blockOffset => "Block Offset"
  | .mandatory => "Mandatory"
  | .notImplemented => "Not Implemented"
  | .handCodedGetter => "Hand Coded Getter"
  | .handCodedSetter => "Hand Coded Setter"
  | .bitOffset => "Bit Offset"
  | .bitLength => "Bit Length"
  | .parameterTable => "Parameter Table"
  | .code => "Code"
  | .responseLevelActive => "Response Level Active"
  | .responseLevelInactive => "Response Level Inactive"
  | .triggerType => "Trigger Type"

def ofKey? (s : String) : Option Attr := all.find? (·.key == s)

theorem mem_all (a : Attr) : a ∈ all := by cases a <;> decide

theorem ofKey?_key (a : Attr) : ofKey? a.key = some a := by cases a <;> decide

end Attr

end DeviceModel
