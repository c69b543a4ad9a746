import DeviceModel.Code.Identifier
import DeviceModel.Export.Error
import DeviceModel.Rules.Can
import DeviceModel.Workspace.Model

/-!
The CAN matrix: the frames of the bus with the signals in them, and the enumerations that name values
of signals. Main statement: the enumerations are in the order of their names.
-/

namespace DeviceModel

namespace Can

inductive Direction
  | send
  | receive
  | both
  deriving DecidableEq, Repr

def Direction.ofFlags (sendable receivable : Bool) : Direction :=
  match sendable, receivable with
  | true, false => .send
  | false, true => .receive
  | _, _ => .both

structure Signal where
  name : String
  startBit : Int
  bits : Int
  signed : Bool := false
  factor : Decimal := .one
  unit : Option String := none
  minimum : Option Decimal := none
  maximum : Option Decimal := none
  enumeration : Option String := none
  comment : Option String := none
  decimalPlaces : Option String := none
  longName : Option String := none
  /-- The default, as the signal carries it. -/
  startValue : Option String := none
  hexadecimal : Bool := false
  deriving DecidableEq, Repr

/-- The signal whose value tells which section of a frame is sent. -/
structure Selector where
  name : String
  startBit : Int
  bits : Int
  deriving DecidableEq, Repr

/-- The signals of a frame for one value of its selector. -/
structure Section where
  name : String
  value : Int
  length : Int
  comment : Option String
  signals : List Signal
  deriving DecidableEq, Repr

structure Frame where
  name : String
  id : Int
  extended : Bool
  /-- In bytes. -/
  length : Int
  comment : Option String
  direction : Direction
  cycleTime : Option String := none
  /-- The signals of every section. -/
  signals : List Signal := []
  selector : Option Selector := none
  sections : List Section := []
  deriving DecidableEq, Repr

/-- Names for values. -/
abbrev Enumeration := List (Int × String)

structure Matrix where
  title : String
  frames : List Frame
  enumerations : List (String × Enumeration)
  deriving DecidableEq, Repr

/-- The enumeration in the order of the names; of two with one name the first stays. -/
def addEnumeration (name : String) (e : Enumeration) :
    List (String × Enumeration) → List (String × Enumeration)
  | [] => [(name, e)]
  | (k, v) :: r =>
    if name = k then (k, v) :: r
    else if name < k then (name, e) :: (k, v) :: r
    else (k, v) :: addEnumeration name e r

def isBlankText (s : String) : Bool := s.toList.all Text.isBlank

def nonBlank (s : Option String) : Option String := s.filter (!isBlankText ·)

/-- The enumeration that names the values of a signal: its own, or that of its parameter. -/
def enumerationOf (l : Lookup) (n : Node) : Option Uuid :=
  match n.ref? .enumeration with
  | some e => some e
  | none => do l.attribute? (← n.ref? .parameter) .enumeration >>= Value.uuid?

def enumerationName (l : Lookup) (e : Uuid) : String := Code.identifier (l.name e)

/-- What is known of a parameter, with its access level in angle brackets. -/
def commentOf (l : Lookup) (p : Uuid) : Option String :=
  let text := match nonBlank (l.attributeText? p .description) with
    | some d => some d
    | none => nonBlank (l.attributeText? p .comment)
  let level := (((l.attribute? p .accessLevel >>= Value.uuid?).map l.name).filter (· ≠ "")).map
    fun name => "<" ++ name ++ ">"
  match text, level with
  | some t, some v => some (t ++ " " ++ v)
  | some t, none => some t
  | none, v => v

/-- The value of a signal with the factor `factor` that stands for `d`. -/
def rawValue (factor d : Decimal) : Decimal :=
  (if factor.isZero then d else d.div factor).round.normalize

/-- The signal of a node, with what its parameter `p` says of it. -/
def Signal.describe (l : Lookup) (p : Uuid) (s : Signal) : Signal :=
  let decimal (a : Attr) : Option Decimal := l.attribute? p a >>= Value.decimal?
  { s with
    unit := (l.attributeText? p .units).filter (· ≠ "")
    minimum := decimal .minimum
    maximum := decimal .maximum
    comment := commentOf l p
    longName := some (l.name p) |>.filter (· ≠ "")
    decimalPlaces := (l.attribute? p .decimalPlaces >>= Value.integer?).map Text.intText
    startValue := (decimal .defaultValue).map fun d => (rawValue s.factor d).text
    hexadecimal := s.hexadecimal || l.attribute? p .displayHexadecimal == some (.bool true) }

/-- The signal of a node; it must lie within its frame. -/
def Signal.ofNode (l : Lookup) (t : Tree) (n : Node) : Except ExportError Signal :=
  let start := n.int .startBit
  let last := start + n.int .bits - 1
  let frameLast := 8 * (Rules.Can.frameLength? t n.uuid).getD 0 - 1
  if start < 0 ∨ frameLast < last then
    .error (.outsideFrame ("/".intercalate (t.namePath n.uuid)) start last frameLast)
  else
    let s : Signal := {
      name := n.name
      startBit := start
      bits := n.int .bits
      signed := n.flag .signed
      factor := (n.data.decimal? .factor).getD .one
      enumeration := (enumerationOf l n).map (enumerationName l)
      hexadecimal := n.flag .hexadecimalOutput }
    .ok (match n.ref? .parameter with
      | some p => s.describe l p
      | none => s)

/-- What a child of a message adds to its frame. -/
inductive Part
  | signal (s : Signal)
  | sections (ss : List Section)

def Part.signal? : Part → Option Signal
  | .signal s => some s
  | .sections _ => none

def Part.sectionList : Part → List Section
  | .signal _ => []
  | .sections ss => ss

def Section.ofNode (l : Lookup) (t : Tree) (n : Node) : Except ExportError Section := do
  return ⟨n.name, n.int .identifier, n.int .length, nonBlank (n.text? .comment),
    ← n.children.mapM (Signal.ofNode l t)⟩

/-- The part of a node; the reference signals of a table are not sent. -/
def Part.ofNode (l : Lookup) (t : Tree) (n : Node) : Except ExportError Part :=
  match n.kind with
  | .signal => return .signal (← Signal.ofNode l t n)
  | .multiplexer => return .sections [← Section.ofNode l t n]
  | .canTable =>
    return .sections (← (n.children.filter (·.kind == .multiplexer)).mapM (Section.ofNode l t))
  | _ => return .sections []

namespace Frame

/-- The frame of a message, without signals. -/
def header (n : Node) : Frame where
  name := n.name
  id := n.int .identifier
  extended := n.flag .extended
  length := n.int .length
  comment := nonBlank (n.text? .comment)
  direction := .ofFlags (n.flag .sendable) (n.flag .receivable)
  cycleTime := (n.data.int? .cycleTime).map Text.intText

def plain (l : Lookup) (t : Tree) (n : Node) : Except ExportError Frame := do
  return { header n with signals := ← n.children.mapM (Signal.ofNode l t) }

/-- The frame of a multiplexed message, whose first signal is the selector. -/
def multiplexed (l : Lookup) (t : Tree) (n : Node) : Except ExportError Frame := do
  let parts ← n.children.mapM (Part.ofNode l t)
  let signals := parts.filterMap Part.signal?
  return { header n with
    selector := signals.head?.map fun s => ⟨s.name, s.startBit, s.bits⟩
    signals := signals.drop 1
    sections := parts.flatMap Part.sectionList }

/-- The frame of a node of the CAN tree, where it has one, in at most `fuel` steps from a clone to its
original. -/
def within (l : Lookup) (t : Tree) : Nat → Node → Except ExportError (Option Frame)
  | fuel, n =>
    match n.kind with
    | .message => return some (← plain l t n)
    | .multiplexedMessage => return some (← multiplexed l t n)
    | .multiplexedMessageClone =>
      match fuel, n.ref? .original with
      | fuel + 1, some o => do
        let original ← (t.node o).mapError .model
        let f ← within l t fuel original
        return f.map fun f =>
          { f with name := n.name, id := n.int .identifier, extended := n.flag .extended }
      | _, _ => .error (.model (.notFound n.uuid))
    | _ => do
      let _ ← Part.ofNode l t n
      return none

end Frame

/-- The enumerations that the signals of `t` refer to. -/
def enumerationsOf (l : Lookup) (t : Tree) : List (String × Enumeration) :=
  (t.ofKind .signal).foldl (fun es n =>
    match enumerationOf l n with
    | none => es
    | some e =>
      match l.treeOf? e with
      | none => es
      | some owner =>
        addEnumeration (enumerationName l e)
          ((owner.children e).map fun v => (v.int .value, v.name)) es) []

/-- The matrix of a project. -/
def Matrix.ofModels (ms : Models) (title : String) : Except ExportError Matrix := do
  let l := ms.lookup
  let t := ms.tree .can
  let frames ← t.root.children.mapM (Frame.within l t (t.size + 1))
  return ⟨title, frames.filterMap id, enumerationsOf l t⟩

/-- What the log is told of a matrix. -/
def Matrix.summary (m : Matrix) : String :=
  "Built CAN matrix with " ++ Text.natText m.frames.length ++ " frames"

theorem mem_addEnumeration {name k : String} {e v : Enumeration}
    {es : List (String × Enumeration)} (h : (k, v) ∈ addEnumeration name e es) :
    (k, v) = (name, e) ∨ (k, v) ∈ es := by
  induction es with
  | nil => simpa [addEnumeration] using h
  | cons p r ih =>
    obtain ⟨j, w⟩ := p
    simp only [addEnumeration] at h
    split at h
    · exact .inr h
    · split at h
      · simpa using h
      · rcases List.mem_cons.1 h with h | h
        · exact .inr (h ▸ List.mem_cons_self)
        · exact (ih h).imp_right (List.mem_cons_of_mem _)

theorem pairwise_addEnumeration (name : String) (e : Enumeration)
    {es : List (String × Enumeration)} (h : es.Pairwise (·.1 < ·.1)) :
    (addEnumeration name e es).Pairwise (·.1 < ·.1) := by
  induction es with
  | nil => simp [addEnumeration]
  | cons p r ih =>
    obtain ⟨j, w⟩ := p
    obtain ⟨hr, hp⟩ := List.pairwise_cons.1 h
    simp only [addEnumeration]
    split
    · exact h
    · rename_i hne
      split
      · rename_i hlt
        refine List.pairwise_cons.2 ⟨fun q hq => ?_, h⟩
        rcases List.mem_cons.1 hq with rfl | hq
        · exact hlt
        · exact String.lt_trans hlt (hr q hq)
      · rename_i hnlt
        refine List.pairwise_cons.2 ⟨fun q hq => ?_, ih hp⟩
        rcases mem_addEnumeration (k := q.1) (v := q.2) hq with hq | hq
        · have : q.1 = name := congrArg Prod.fst hq
          rw [this]
          exact Std.lt_of_le_of_ne (String.not_lt.1 hnlt) fun h => hne h.symm
        · exact hr q hq

end Can

end DeviceModel
