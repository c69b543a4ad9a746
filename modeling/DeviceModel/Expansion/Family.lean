import DeviceModel.Expansion.Table
import DeviceModel.Register.Layout

/-!
The views of an expanded table: in the CAN tree, among the SunSpec models and in the static
Modbus map. A view holds one reference point per source of the table, and for each group of leaves one
group of points or, where a frame cannot take them all, several.
-/

namespace DeviceModel

/-- The least integer from `first` to `last` that is not used. -/
def nextFree (used : List Int) (first last : Int) : Option Int :=
  ((List.range (used.length + 1)).map fun n => first + Int.ofNat n).find? fun i =>
    i ≤ last && !used.contains i

/-- The leaf at `index` of a group, placed at a position of its frame. -/
structure Placed where
  index : Nat
  position : Int
  deriving DecidableEq, Repr

structure Family where
  /-- The kind of the view, which names its table in `link`. -/
  view : Kind
  link : Attr
  /-- The kind of reference points and of leaves. -/
  point : Kind
  /-- The kind of the nodes that hold the leaves of one group. -/
  group : Kind
  seedName : SeedSource → String
  newSeed : SeedSource → Data
  /-- Whether leaves can be placed by a reference point. -/
  ready : Data → Bool := fun _ => true
  /-- Whether one group can take a leaf of a reference point. -/
  fits : Data → Bool := fun _ => true
  /-- Distributes the leaves of a group, given by their reference points. -/
  pack : List Data → List (List Placed)
  groupData : String → List Uuid → Nat → Option Data → Data
  leafData : Leaf → Data → Int → Data
  /-- What remains to be done below the view `u`, where the nodes of `created` are new groups. -/
  finish : Tree → Uuid → List Uuid → Build Tree

namespace Family

/-- The table that a view is linked to. -/
def tableOf? (f : Family) (d : Data) : Option Uuid := if d.kind = f.view then d.ref? f.link else none

/-- The source that a point stands for. -/
def sourceOf? (d : Data) : Option Uuid := d.ref? .parameter

/-- All leaves in one group. -/
def packTogether (seeds : List Data) : List (List Placed) :=
  [(List.range seeds.length).map fun i => ⟨i, 0⟩]

/-- Letters counted A to Z, AA to ZZ and so on, from zero. -/
def letters (n : Nat) : List Char :=
  if n < 26 then [Char.ofNat (65 + n)] else letters (n / 26 - 1) ++ [Char.ofNat (65 + n % 26)]
termination_by n

/-- What the name of an overflow group ends in: nothing for the first, then `_A`, `_B` and so on. -/
def chunkSuffix : Nat → String
  | 0 => ""
  | n + 1 => String.ofList ('_' :: letters n)

/-! ### Multiplexers -/

/-- The bits of a multiplexed frame behind the identifier and the header. -/
def payloadBits : Int := 48

/-- The bit behind the payload, from which leaves are placed downwards. -/
def payloadEnd : Int := 64

def multiplexerLength : Int := 8

def addLast (p : Placed) : List (List Placed) → List (List Placed)
  | [] => []
  | [c] => [c ++ [p]]
  | c :: cs => c :: addLast p cs

/-- Places leaves of the given widths behind `used` bits of the last chunk; a leaf that does not fit
begins the next chunk. -/
def packBits (chunks : List (List Placed)) (used : Int) (index : Nat) :
    List Int → List (List Placed)
  | [] => chunks
  | w :: ws =>
    if payloadBits < used + w then
      packBits (addLast ⟨index, payloadEnd - w⟩ (chunks ++ [[]])) w (index + 1) ws
    else
      packBits (addLast ⟨index, payloadEnd - (used + w)⟩ chunks) (used + w) (index + 1) ws

/-- No chunk is open at first. -/
def packFrames (seeds : List Data) : List (List Placed) :=
  packBits [] payloadBits 0 (seeds.map (·.int .bits))

/-- The identifiers of the multiplexers below a message, those in `but` aside. -/
def identifiers (t : Tree) (message : Uuid) (but : List Uuid) : List Int :=
  ((t.descendants message).filter fun n => n.kind == .multiplexer && !but.contains n.uuid).map
    (·.int .identifier)

/-- Gives each new multiplexer the next identifier of the range that is free in the message. -/
def assignIdentifiers (first last : Int) (t : Tree) (used : List Int) : List Uuid → Except Error Tree
  | [] => .ok t
  | u :: us =>
    match nextFree used first last with
    | none => .error (.inconsistent .identifiersExhausted)
    | some i => assignIdentifiers first last (t.modify u (·.put .identifier (.integer i))) (i :: used) us

def finishMultiplexers (t : Tree) (view : Uuid) (created : List Uuid) : Except Error Tree := do
  let v ← t.node view
  match t.parent? view with
  | none => .error (.notFound view)
  | some message =>
    assignIdentifiers (v.int .multiplexerRangeFirst) (v.int .multiplexerRangeLast) t
      (identifiers t message.uuid created) created

def can : Family where
  view := .canTable
  link := .parameter
  point := .signal
  group := .multiplexer
  seedName s := s.name
  newSeed s := .of .signal [(.name, .string s.name), (.factor, .decimal .one), (.parameter, .uuid s.uuid)]
  ready d := 0 < d.int .bits
  fits d := d.int .bits ≤ payloadBits
  pack := packFrames
  groupData name path chunk previous :=
    let old := previous.getD (.initial .multiplexer)
    .of .multiplexer [(.name, .string (name ++ chunkSuffix chunk)),
      (.identifier, .integer (old.int .identifier)), (.length, .integer multiplexerLength),
      (.cycleTime, .orNull .integer (old.int? .cycleTime)),
      (.comment, .orNull .string (old.text? .comment)), (.path, .ofPath path)]
  leafData l seed position :=
    ((seed.put .name (.string l.name)).put .startBit (.integer position)).put .parameter (.uuid l.uuid)
  finish t view created := liftM (finishMultiplexers t view created)

/-! ### Repeating blocks -/

def blockSeedName (s : SeedSource) : String := s.abbreviation.getD s.name

def blockSeed (point : Kind) (s : SeedSource) : Data :=
  .of point [(.name, .string (blockSeedName s)), (.parameter, .uuid s.uuid), (.size, .integer 1)]

def blockData (block : Kind) (name : String) (path : List Uuid) : Data :=
  .of block [(.name, .string name), (.path, .ofPath path)]

/-- A leaf is its reference point with another parameter, not yet placed. -/
def blockLeaf (l : Leaf) (seed : Data) : Data :=
  ((seed.put .parameter (.uuid l.uuid)).put .blockOffset (.integer 0)).put .offset (.integer 0)

def sunSpec : Family where
  view := .sunSpecTable
  link := .parameterTable
  point := .dataPoint
  group := .tableRepeatingBlock
  seedName := blockSeedName
  newSeed := blockSeed .dataPoint
  pack := packTogether
  groupData name path _ _ := blockData .tableRepeatingBlock name path
  leafData l seed _ := blockLeaf l seed
  finish t _ _ := t.updateLayout

def staticModbus : Family where
  view := .modbusTable
  link := .parameterTable
  point := .functionData
  group := .modbusTableRepeatingBlock
  seedName := blockSeedName
  newSeed := blockSeed .functionData
  pack := packTogether
  groupData name path _ _ := blockData .modbusTableRepeatingBlock name path
  leafData l seed _ := blockLeaf l seed
  finish t _ _ := t.updateLayout

def ofTree? : TreeKind → Option Family
  | .can => some can
  | .sunSpec => some sunSpec
  | .staticModbus => some staticModbus
  | .parameters | .anomalies => none

/-- The views of a tree, which must be one that has views. -/
def ofTree (t : TreeKind) : Except Error Family :=
  match ofTree? t with
  | some f => .ok f
  | none => .error (.inconsistent (.noTableViews t))

end Family

end DeviceModel
