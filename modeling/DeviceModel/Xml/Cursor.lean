import DeviceModel.Xml.Token

/-!
Reading of a document from its beginning to its end. A place in it knows which namespaces are in force
one token ahead of it, and an element that is passed over unread leaves the namespaces in force as they
are: what its tags bind outlives it.

### Namespaces

The prefixes that the tags around a place have bound. Main statement: what an element binds is not in force
behind it.
-/

namespace DeviceModel.Xml

/-- The name of a namespace that a standard defines. -/
def standardSpace (path : String) : List Char := ("http:" ++ "//www.w3.org/" ++ path).toList

def xmlSpace : List Char := standardSpace "XML/1998/namespace"

def bindingSpace : List Char := standardSpace "2000/xmlns/"

/-- The namespace of the attribute that tells an element to be absent. -/
def instanceSpace : List Char := standardSpace "2001/XMLSchema-instance"

structure Binding where
  short : List Char
  space : List Char
  level : Nat
  deriving DecidableEq, Repr

/-- The bindings in force, the innermost first, and the number of elements around the place. -/
structure Scope where
  level : Nat := 0
  bindings : List Binding := []
  deriving DecidableEq, Repr

namespace Scope

/-- What an attribute that is named `xmlns:` and a prefix binds. The two reserved prefixes and their
namespaces go with each other only, and nothing binds the second of them. -/
def bind? (s : Scope) (short space : List Char) : Option Scope :=
  if short = "xml".toList then if space = xmlSpace then some s else none
  else if short = "xmlns".toList ∨ space = xmlSpace ∨ space = bindingSpace then none
  else some { s with bindings := ⟨short, space, s.level⟩ :: s.bindings }

/-- The scope inside an element with the tag `ps`. -/
def enter? (s : Scope) (ps : List TagPart) : Option Scope :=
  (TagPart.leading ps).foldlM
    (fun s (name, value) =>
      match "xmlns:".toList.isPrefixOf? name with
      | some short => s.bind? short value
      | none => some s)
    { s with level := s.level + 1 }

/-- The scope behind an element. -/
def leave (s : Scope) : Scope where
  level := s.level - 1
  bindings := s.bindings.filter (·.level ≤ s.level - 1)

/-- The namespace of a prefix. -/
def space? (s : Scope) (short : List Char) : Option (List Char) :=
  (s.bindings.find? (·.short == short)).map (·.space)

/-- The name is `nil` in the namespace that is meant for it. -/
def isNilName (s : Scope) (name : List Char) : Bool :=
  match Text.cut? [':'] name with
  | some (short, rest) =>
    rest == "nil".toList && !short.isEmpty && s.space? short == some instanceSpace
  | none => false

/-- The tag says that its element is absent. -/
def isNil (s : Scope) (ps : List TagPart) : Bool :=
  (TagPart.first [] ps).any fun (name, value) =>
    s.isNilName name && (value == "true".toList || value == "1".toList)

theorem level_le_of_mem_leave {s : Scope} {b : Binding} (h : b ∈ s.leave.bindings) :
    b.level ≤ s.leave.level := by
  simpa [leave] using (List.mem_filter.mp h).2

end Scope

/-! ### Places -/

/-- Beginnings and ends of elements, and text in one piece between them. -/
inductive Event
  | start (name : List Char) (parts : List TagPart)
  | stop
  | text (s : List Char)
  deriving DecidableEq, Repr

/-- A place in a document: the events that come a second time, and the tokens behind them. The
namespaces of the first token are in force already. -/
structure Cursor where
  again : List Event
  tokens : List Token
  scope : Scope
  deriving DecidableEq, Repr

/-- The scope with the namespaces of the first token. -/
def arrive? (s : Scope) : List Token → Option Scope
  | .start _ parts :: _ => s.enter? parts
  | _ => some s

/-- The next event. Text that a document type divides is two texts. -/
def event? : List Token → Scope → Option (Event × Cursor)
  | [], _ => none
  | .documentType :: ts, s => do event? ts (← arrive? s ts)
  | .start name parts :: ts, s => do return (.start name parts, ⟨[], ts, ← arrive? s ts⟩)
  | .stop :: ts, s => do return (.stop, ⟨[], ts, ← arrive? s.leave ts⟩)
  | .text piece :: ts, s => do
    let pieces ← (ts.takeWhile Token.isText).mapM fun
      | .text piece => piece
      | _ => none
    let rest := ts.dropWhile Token.isText
    return (.text ((← piece) ++ pieces.flatten), ⟨[], rest, ← arrive? s rest⟩)

/-- What follows the end of the element around the place, which is `depth` elements further in. -/
def tokensBehind (depth : Nat) : List Token → List Token
  | [] => []
  | .start .. :: ts => tokensBehind (depth + 1) ts
  | .stop :: ts =>
    match depth with
    | 0 => ts
    | depth + 1 => tokensBehind depth ts
  | .text _ :: ts | .documentType :: ts => tokensBehind depth ts

def eventsBehind (depth : Nat) : List Event → List Event
  | [] => []
  | .start .. :: es => eventsBehind (depth + 1) es
  | .stop :: es =>
    match depth with
    | 0 => es
    | depth + 1 => eventsBehind depth es
  | .text _ :: es => eventsBehind depth es

namespace Cursor

def ofTokens? (ts : List Token) : Option Cursor := do return ⟨[], ts, ← arrive? {} ts⟩

def next? (c : Cursor) : Option (Event × Cursor) :=
  match c.again with
  | e :: es => some (e, { c with again := es })
  | [] => event? c.tokens c.scope

/-- The place behind the element whose beginning was the last event. An end that is the next token ends
the scope of the element; any other token, and with it the element, does not. -/
def pass? (c : Cursor) : Option Cursor :=
  match c.again, c.tokens with
  | e :: es, _ => some { c with again := eventsBehind 0 (e :: es) }
  | [], .stop :: ts => do return ⟨[], ts, ← arrive? c.scope.leave ts⟩
  | [], ts => do
    let rest := tokensBehind 0 ts
    return ⟨[], rest, ← arrive? c.scope rest⟩

/-- The events to the end of the element around the place, which is `depth` elements further in. -/
def eventsToEnd? : Nat → Nat → Cursor → Option (List Event × Cursor)
  | 0, _, _ => none
  | fuel + 1, depth, c => do
    let (e, c) ← c.next?
    let more := fun depth => do
      let (es, c) ← eventsToEnd? fuel depth c
      return (e :: es, c)
    match e, depth with
    | .stop, 0 => return ([e], c)
    | .stop, depth + 1 => more depth
    | .start .., depth => more (depth + 1)
    | .text _, depth => more depth

/-- The rest of the element whose beginning was the last event. -/
def rest? (c : Cursor) : Option (List Event × Cursor) :=
  eventsToEnd? (c.again.length + c.tokens.length) 0 c

/-- The text of an element that holds nothing else, and whose beginning was the last event. -/
def onlyText? (c : Cursor) : Option (List Char × Cursor) := do
  match ← c.next? with
  | (.stop, c) => return ([], c)
  | (.text s, c) =>
    match ← c.next? with
    | (.stop, c) => return (s, c)
    | _ => none
  | (.start .., _) => none

end Cursor

end DeviceModel.Xml
