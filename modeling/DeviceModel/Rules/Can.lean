import DeviceModel.Rules.Parameters

/-!
The CAN tree: messages, multiplexers, signals and views of tables. A multiplexed message begins with
the signal that selects one of its multiplexers.
-/

namespace DeviceModel

namespace Rules.Can

/-- The highest identifier that a table's multiplexers get unless the range is changed. -/
def maxMultiplexer : Int := 0xFF

/-- The highest identifier of a frame that is not extended. -/
def maxFrame : Int := 0x7FF

/-- The length in bytes of the frame in which a signal lies. -/
def frameLength? (t : Tree) (signal : Uuid) : Option Int :=
  ((t.ancestors signal).find? fun a =>
    a.kind == .message || a.kind == .multiplexedMessage || a.kind == .multiplexer).map (·.int .length)

def hasSelector (message : Node) : Bool := message.children.any (·.kind == .signal)

/-- A signal that carries a parameter. -/
def signalFor (source : Node) (l : Lookup) : Build Node :=
  let hexadecimal := l.effective? source.uuid .displayHexadecimal >>= Value.bool?
  let enumeration := l.effective? source.uuid .enumeration >>= Value.uuid?
  new .signal [(.name, .string source.name), (.factor, .decimal .one),
    (.hexadecimalOutput, .bool (hexadecimal.getD false)), (.enumeration, .ofRef enumeration),
    (.parameter, .uuid source.uuid)]

def canDrop (t : Tree) (target source : Node) : Bool :=
  if t.contains source.uuid then t.canMove target source
  else if t.isGenerated target.uuid then false
  else match target.kind with
    | .message | .multiplexer => source.kind.isParameterLike
    | .multiplexedMessage =>
      if hasSelector target then source.kind == .table else source.kind.isParameterLike
    | _ => false

def childFrom (t : Tree) (target source : Node) (l : Lookup) : Build Node :=
  if source.kind.isParameterLike then signalFor source l
  else if source.kind = .table then
    let used := Family.identifiers t target.uuid []
    let first := (nextFree used 1 maxMultiplexer).getD maxMultiplexer
    newView .can (.of .canTable [(.name, .string source.name), (.parameter, .uuid source.uuid),
      (.multiplexerRangeFirst, .integer first), (.multiplexerRangeLast, .integer maxMultiplexer)])
      source l
  else refuse source target

def addable (t : Tree) (n : Node) : List Kind :=
  if t.isGenerated n.uuid then []
  else match n.kind with
    | .canRoot => Kind.canRoot.childKinds
    | .message | .multiplexer => [.signal]
    | .multiplexedMessage => if hasSelector n then [.multiplexer] else [.signal]
    | _ => []

/-- The next identifier of a frame, zero when there is none. -/
def nextFrame (t : Tree) : Value :=
  .integer ((nextFree (t.root.children.filterMap (·.data.int? .identifier)) 1 maxFrame).getD 0)

def newChild (t : Tree) (parent : Node) (k : Kind) (_ : Lookup) : Build Node :=
  let frame := [(.length, .integer 8), (.sendable, .bool true), (.receivable, .bool true)]
  match k with
  | .message => new .message ((.name, .string "New Message") :: (.identifier, nextFrame t) :: frame)
  | .multiplexedMessage =>
    new .multiplexedMessage
      ((.name, .string "New Multiplexed Message") :: (.identifier, nextFrame t) :: frame)
  | .multiplexedMessageClone =>
    new .multiplexedMessageClone [(.name, .string "New Clone"), (.identifier, nextFrame t)]
  | .multiplexer =>
    let i := (nextFree (Family.identifiers t parent.uuid []) 0 maxMultiplexer).getD 0
    new .multiplexer
      [(.name, .string "New Multiplexer"), (.identifier, .integer i), (.length, .integer 8)]
  | .signal => new .signal [(.name, .string "New Signal"), (.factor, .decimal .one)]
  | k => notOffered parent k

/-- A selector stays as long as there is something to select. -/
def canDelete (t : Tree) (n : Node) : Bool :=
  n.uuid != t.root.uuid && !t.isGenerated n.uuid &&
    match t.parent? n.uuid with
    | some p =>
      !(p.kind == .multiplexedMessage && n.kind == .signal &&
        p.children.any fun c => c.kind == .multiplexer || c.kind == .canTable)
    | none => true

def signalIssues (t : Tree) (n : Node) (l : Lookup) : List Issue :=
  let isReference := t.parentKind? n.uuid == some .canTable
  let bits := n.int .bits
  let start := n.int .startBit
  let zero :=
    if bits ≠ 0 then [] else if isReference then [.zeroBitsReference] else [.zeroBits]
  let outside := match frameLength? t n.uuid with
    | some length =>
      if !isReference && (start < 0 || 8 * length < start + bits) then
        [.outsideMessage start (start + bits - 1) (8 * length - 1)]
      else []
    | none => []
  let legacy := match n.ref? .parameter with
    | some p =>
      if Parameters.isLegacy l p && (l.effective? p .accessLevel).any (!·.isNull) then
        [.legacySignal]
      else []
    | none => []
  zero ++ outside ++ legacy

def messageIssues (t : Tree) (n : Node) : List Issue :=
  let identifier := n.data.int? .identifier
  let shared := t.root.children.any fun m =>
    m.uuid != n.uuid && m.data.int? .identifier == identifier
  let selector := n.kind == .multiplexedMessage && decide (1 < n.children.length) &&
    !n.children.head?.any (·.kind == .signal)
  (if shared then [.frameIdentifier (identifier.getD 0)] else []) ++
    (if selector then [.noSelector] else []) ++
    (if n.kind == .multiplexedMessageClone && (n.ref? .original).isNone then [.cloneOfNothing]
      else [])

def multiplexerIssues (t : Tree) (n : Node) : List Issue :=
  match (t.ancestors n.uuid).find? (·.kind == .multiplexedMessage) with
  | some message =>
    if (Family.identifiers t message.uuid [n.uuid]).contains (n.int .identifier) then
      [.multiplexerIdentifier]
    else []
  | none => []

def viewIssues (n : Node) : List Issue :=
  (if (n.ref? .parameter).isNone then [.unlinkedView] else []) ++
    (if n.int .multiplexerRangeLast < n.int .multiplexerRangeFirst then [.emptyRange] else [])

def issues (t : Tree) (n : Node) (l : Lookup) : List Issue :=
  match n.kind with
  | .signal => signalIssues t n l
  | .message | .multiplexedMessage | .multiplexedMessageClone => messageIssues t n
  | .multiplexer => multiplexerIssues t n
  | .canTable => viewIssues n
  | _ => []

end Rules.Can

def Rules.can : Rules where
  canDrop := Can.canDrop
  moves := Tree.canMove
  childFrom := Can.childFrom
  addable := Can.addable
  newChild := Can.newChild
  canDelete := Can.canDelete
  issues := Can.issues

end DeviceModel
