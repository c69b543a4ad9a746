/-!
The five trees of a project and the kinds of their nodes. Main statements: tags and names identify a
kind, and the children a kind may have belong to its own tree.
-/

namespace DeviceModel

inductive TreeKind
  | parameters
  | can
  | sunSpec
  | staticModbus
  | anomalies
  deriving DecidableEq, Repr, Inhabited

namespace TreeKind

def all : List TreeKind := [.parameters, .can, .sunSpec, .staticModbus, .anomalies]

def name : TreeKind → String
  | .parameters => "parameters"
  | .can => "can"
  | .sunSpec => "sunspec"
  | .staticModbus => "staticmodbus"
  | .anomalies => "anomalies"

def ofName? (s : String) : Option TreeKind := all.find? (·.name == s)

/-- The name given to the root of a new tree. -/
def title : TreeKind → String
  | .parameters => "Parameters"
  | .can => "CAN"
  | .sunSpec => "SunSpec"
  | .staticModbus => "Static Modbus"
  | .anomalies => "Anomalies"

def fileName (t : TreeKind) : String := t.name ++ ".json"

theorem mem_all (t : TreeKind) : t ∈ all := by cases t <;> decide

theorem ofName?_name (t : TreeKind) : ofName? t.name = some t := by cases t <;> decide

end TreeKind

inductive Kind
  -- Parameters
  | root
  | group
  | parameter
  | array
  | arrayParameterElement
  | arrayGroupElement
  | table
  | tableGroupElement
  | tableArrayElement
  | enumeration
  | enumerator
  | accessLevels
  -- CAN
  | canRoot
  | message
  | multiplexedMessage
  | multiplexer
  | signal
  | canTable
  | multiplexedMessageClone
  -- SunSpec
  | sunSpecRoot
  | sunSpecModel
  | headerBlock
  | fixedBlock
  | dataPoint
  | dataPointBitfield
  | dataPointBitfieldMember
  | sunSpecTable
  | tableRepeatingBlock
  | tableRepeatingBlockReference
  | tableRepeatingBlockReferenceDataPointReference
  -- Static Modbus
  | staticModbusRoot
  | functionData
  | functionDataBitfield
  | functionDataBitfieldMember
  | modbusTable
  | modbusTableRepeatingBlock
  | modbusTableRepeatingBlockReference
  -- Anomalies
  | anomaliesRoot
  | anomalyTable
  | anomaly
  | anomalySource
  deriving DecidableEq, Repr, Inhabited

namespace Kind

/-- Every kind, tree by tree. -/
def all : List Kind :=
  [.root, .group, .parameter, .array, .arrayParameterElement, .arrayGroupElement, .table,
    .tableGroupElement, .tableArrayElement, .enumeration, .enumerator, .accessLevels,
    .canRoot, .message, .multiplexedMessage, .multiplexer, .signal, .canTable,
    .multiplexedMessageClone,
    .sunSpecRoot, .sunSpecModel, .headerBlock, .fixedBlock, .dataPoint, .dataPointBitfield,
    .dataPointBitfieldMember, .sunSpecTable, .tableRepeatingBlock, .tableRepeatingBlockReference,
    .tableRepeatingBlockReferenceDataPointReference,
    .staticModbusRoot, .functionData, .functionDataBitfield, .functionDataBitfieldMember,
    .modbusTable, .modbusTableRepeatingBlock, .modbusTableRepeatingBlockReference,
    .anomaliesRoot, .anomalyTable, .anomaly, .anomalySource]

def tree : Kind → TreeKind
  | .root | .group | .parameter | .array | .arrayParameterElement | .arrayGroupElement | .table
  | .tableGroupElement | .tableArrayElement | .enumeration | .enumerator | .accessLevels =>
    .parameters
  | .canRoot | .message | .multiplexedMessage | .multiplexer | .signal | .canTable
  | .multiplexedMessageClone => .can
  | .sunSpecRoot | .sunSpecModel | .headerBlock | .fixedBlock | .dataPoint | .dataPointBitfield
  | .dataPointBitfieldMember | .sunSpecTable | .tableRepeatingBlock | .tableRepeatingBlockReference
  | .tableRepeatingBlockReferenceDataPointReference => .sunSpec
  | .staticModbusRoot | .functionData | .functionDataBitfield | .functionDataBitfieldMember
  | .modbusTable | .modbusTableRepeatingBlock | .modbusTableRepeatingBlockReference => .staticModbus
  | .anomaliesRoot | .anomalyTable | .anomaly | .anomalySource => .anomalies

/-- The name under which files store a kind. -/
def tag : Kind → String
  | .root => "root"
  | .group => "group"
  | .parameter => "parameter"
  | .array => "array"
  | .arrayParameterElement => "array_parameter_element"
  | .arrayGroupElement => "array_group_element"
  | .table => "table"
  | .tableGroupElement => "table_group_element"
  | .tableArrayElement => "table_array_element"
  | .enumeration => "enumeration"
  | .enumerator => "enumerator"
  | .accessLevels => "access_levels"
  | .canRoot => "can_root"
  | .message => "message"
  | .multiplexedMessage => "multiplexed_message"
  | .multiplexer => "multiplexer"
  | .signal => "signal"
  | .canTable => "can_table"
  | .multiplexedMessageClone => "multiplexed_message_clone"
  | .sunSpecRoot => "sunspec_root"
  | .sunSpecModel => "sunspec_model"
  | .headerBlock => "sunspec_header_block"
  | .fixedBlock => "sunspec_fixed_block"
  | .dataPoint => "sunspec_data_point"
  | .dataPointBitfield => "sunspec_data_point_bitfield"
  | .dataPointBitfieldMember => "sunspec_data_point_bitfield_member"
  | .sunSpecTable => "sunspec_table"
  | .tableRepeatingBlock => "sunspec_table_repeating_block"
  | .tableRepeatingBlockReference => "sunspec_table_repeating_block_reference"
  | .tableRepeatingBlockReferenceDataPointReference =>
    "sunspec_table_repeating_block_reference_data_point_reference"
  | .staticModbusRoot => "staticmodbus_root"
  | .functionData => "staticmodbus_function_data"
  | .functionDataBitfield => "staticmodbus_function_data_bitfield"
  | .functionDataBitfieldMember => "staticmodbus_function_data_bitfield_member"
  | .modbusTable => "staticmodbus_table"
  | .modbusTableRepeatingBlock => "staticmodbus_table_repeating_block"
  | .modbusTableRepeatingBlockReference => "staticmodbus_table_repeating_block_reference"
  | .anomaliesRoot => "anomalies_root"
  | .anomalyTable => "anomaly_table"
  | .anomaly => "anomaly"
  | .anomalySource => "anomaly_source"

def ofTag? (s : String) : Option Kind := all.find? (·.tag == s)

/-- The name under which messages show a kind. -/
def name : Kind → String
  | .root => "Root"
  | .group => "Group"
  | .parameter => "Parameter"
  | .array => "Array"
  | .arrayParameterElement => "ArrayParameterElement"
  | .arrayGroupElement => "ArrayGroupElement"
  | .table => "Table"
  | .tableGroupElement => "TableGroupElement"
  | .tableArrayElement => "TableArrayElement"
  | .enumeration => "Enumeration"
  | .enumerator => "Enumerator"
  | .accessLevels => "AccessLevels"
  | .canRoot => "CanRoot"
  | .message => "Message"
  | .multiplexedMessage => "MultiplexedMessage"
  | .multiplexer => "Multiplexer"
  | .signal => "Signal"
  | .canTable => "CanTable"
  | .multiplexedMessageClone => "MultiplexedMessageClone"
  | .sunSpecRoot => "SunSpecRoot"
  | .sunSpecModel => "SunSpecModel"
  | .headerBlock => "HeaderBlock"
  | .fixedBlock => "FixedBlock"
  | .dataPoint => "DataPoint"
  | .dataPointBitfield => "DataPointBitfield"
  | .dataPointBitfieldMember => "DataPointBitfieldMember"
  | .sunSpecTable => "SunSpecTable"
  | .tableRepeatingBlock => "TableRepeatingBlock"
  | .tableRepeatingBlockReference => "TableRepeatingBlockReference"
  | .tableRepeatingBlockReferenceDataPointReference =>
    "TableRepeatingBlockReferenceDataPointReference"
  | .staticModbusRoot => "StaticModbusRoot"
  | .functionData => "FunctionData"
  | .functionDataBitfield => "FunctionDataBitfield"
  | .functionDataBitfieldMember => "FunctionDataBitfieldMember"
  | .modbusTable => "ModbusTable"
  | .modbusTableRepeatingBlock => "ModbusTableRepeatingBlock"
  | .modbusTableRepeatingBlockReference => "ModbusTableRepeatingBlockReference"
  | .anomaliesRoot => "AnomaliesRoot"
  | .anomalyTable => "AnomalyTable"
  | .anomaly => "Anomaly"
  | .anomalySource => "AnomalySource"

/-- The kinds a node may have as children, in the order of the menu that offers them. -/
def childKinds : Kind → List Kind
  | .root | .group => [.group, .parameter, .array, .table, .enumeration, .accessLevels]
  | .array => [.parameter, .arrayParameterElement, .group, .arrayGroupElement]
  | .arrayGroupElement => [.arrayParameterElement]
  | .table => [.enumeration, .array, .group, .tableGroupElement]
  | .tableGroupElement => [.tableGroupElement, .tableArrayElement]
  | .enumeration | .accessLevels => [.enumerator]
  | .canRoot => [.message, .multiplexedMessage, .multiplexedMessageClone]
  | .message | .multiplexer => [.signal]
  | .multiplexedMessage => [.signal, .multiplexer, .canTable]
  | .canTable => [.signal, .multiplexer]
  | .sunSpecRoot => [.sunSpecModel]
  | .sunSpecModel => [.headerBlock, .fixedBlock, .sunSpecTable]
  | .headerBlock => [.dataPoint]
  | .fixedBlock => [.dataPoint, .dataPointBitfield, .tableRepeatingBlockReference]
  | .dataPointBitfield => [.dataPointBitfieldMember]
  | .sunSpecTable => [.dataPoint, .tableRepeatingBlock]
  | .tableRepeatingBlock => [.dataPoint]
  | .tableRepeatingBlockReference => [.tableRepeatingBlockReferenceDataPointReference]
  | .staticModbusRoot =>
    [.functionData, .functionDataBitfield, .modbusTableRepeatingBlockReference, .modbusTable]
  | .functionDataBitfield => [.functionDataBitfieldMember]
  | .modbusTable => [.functionData, .modbusTableRepeatingBlock]
  | .modbusTableRepeatingBlock => [.functionData]
  | .anomaliesRoot => [.anomalyTable]
  | .anomalyTable => [.anomaly]
  | .anomaly => [.anomalySource]
  | .parameter | .arrayParameterElement | .tableArrayElement | .enumerator | .signal
  | .multiplexedMessageClone | .dataPoint | .dataPointBitfieldMember
  | .tableRepeatingBlockReferenceDataPointReference | .functionData | .functionDataBitfieldMember
  | .modbusTableRepeatingBlockReference | .anomalySource => []

/-- Nodes of other kinds are leaves; files store no children for them. -/
def hasChildren (k : Kind) : Bool := !k.childKinds.isEmpty

def allows (k child : Kind) : Bool := k.childKinds.contains child

/-- The kinds that stand for one parameter. -/
def parameterLike : List Kind := [.parameter, .arrayParameterElement, .tableArrayElement]

def isParameterLike (k : Kind) : Bool := parameterLike.contains k

/-- The views that expansion rebuilds from a parameter table. -/
def tableViews : List Kind := [.canTable, .sunSpecTable, .modbusTable]

def isTableView (k : Kind) : Bool := tableViews.contains k

theorem mem_all (k : Kind) : k ∈ all := by cases k <;> decide

theorem ofTag?_tag (k : Kind) : ofTag? k.tag = some k := by cases k <;> decide

theorem tree_of_allows {k child : Kind} (h : k.allows child = true) : child.tree = k.tree := by
  revert h; cases k <;> cases child <;> decide

end Kind

def TreeKind.rootKind : TreeKind → Kind
  | .parameters => .root
  | .can => .canRoot
  | .sunSpec => .sunSpecRoot
  | .staticModbus => .staticModbusRoot
  | .anomalies => .anomaliesRoot

theorem TreeKind.tree_rootKind (t : TreeKind) : t.rootKind.tree = t := by cases t <;> rfl

end DeviceModel
