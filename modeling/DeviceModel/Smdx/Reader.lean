import DeviceModel.Smdx.Document

/-!
SunSpec models from SMDX documents: offsets and lengths that a document leaves out are those of points
one behind the other, and texts are the English ones where there are any.
-/

namespace DeviceModel.Smdx

/-- A text with more than blanks in it, without those around it. -/
def trimmed (s : Option String) : Option String := (s.map Text.trim).filter (· ≠ "")

def Texts.trimmed (t : Texts) : Texts :=
  ⟨Smdx.trimmed t.label, Smdx.trimmed t.description, Smdx.trimmed t.notes⟩

/-- The texts under an id, the last ones if there are several. -/
def textsFor (es : List Document.Entry) (id : String) : Texts :=
  ((es.reverse.find? (·.id == id)).map fun e => e.texts.trimmed).getD {}

def Symbol.ofDocument (symbols : List Document.Entry) (point : String) (s : Document.Symbol) :
    Except SmdxError Symbol :=
  match Text.readInt? 10 (Text.trimChars s.value.toList) with
  | some v => .ok ⟨s.id, v, textsFor symbols s.id⟩
  | none => .error (.symbolValue point s.id s.value)

/-- The registers of a point. -/
def sizeOf (p : Document.Point) (t : PointType) : Except SmdxError Int :=
  match p.length, t.registers? with
  | some n, _ => .ok n
  | none, some n => .ok n
  | none, none => .error (.noLength p.id t.name)

/-- The point that begins at register `next`, where the document does not say otherwise. -/
def Point.ofDocument (points symbols : List Document.Entry) (next : Int) (p : Document.Point) :
    Except SmdxError Point :=
  match PointType.ofName? p.type with
  | none => .error (.unknownType p.id p.type)
  | some t => do
    return {
      id := p.id
      offset := p.offset.getD next
      type := t
      size := ← sizeOf p t
      scaleFactor := p.scaleFactor
      units := p.units
      writable := p.access == some "rw" || p.access == some "RW"
      mandatory := p.mandatory == some "true" || p.mandatory == some "M"
      texts := textsFor points p.id
      symbols := ← p.symbols.mapM (Symbol.ofDocument symbols p.id) }

/-- Points from register `next` on, and the register behind them. -/
def pointsOf (points symbols : List Document.Entry) (next : Int) :
    List Document.Point → Except SmdxError (List Point × Int)
  | [] => .ok ([], next)
  | p :: ps => do
    let p ← Point.ofDocument points symbols next p
    let (ps, next) ← pointsOf points symbols (p.offset + p.size) ps
    return (p :: ps, next)

def blocksOf (points symbols : List Document.Entry) (next : Int) :
    List Document.Block → Except SmdxError (List Block)
  | [] => .ok []
  | b :: bs => do
    let (ps, next) ← pointsOf points symbols next b.points
    let b : Block := {
      repeating := b.type == some "repeating"
      name := b.name
      length := b.length.getD ((ps.map (·.size)).foldr (· + ·) 0)
      points := ps }
    return b :: (← blocksOf points symbols next bs)

namespace Model

/-- The first point whose scale factor is neither a constant nor a point of the model. -/
def danglingFactor? (m : Model) : Option (String × String) :=
  m.points.findSome? fun p => do
    let sf ← p.scaleFactorPoint?
    if (m.point? sf).isSome then none else some (p.id, sf)

def ofDocument (d : Document) : Except SmdxError Model := do
  let strings := (d.strings.find? (·.locale == "en")).or d.strings.head?
  let points := (strings.map (·.points)).getD []
  let symbols := (strings.map (·.symbols)).getD []
  let blocks ← blocksOf points symbols 0 d.model.blocks
  let m : Model := {
    id := d.model.id
    name := d.model.name.getD ("model_" ++ Text.intText d.model.id)
    length := d.model.length.getD ((blocks.map (·.length)).foldr (· + ·) 0)
    texts := ((strings >>= (·.model)).map Texts.trimmed).getD {}
    blocks := blocks }
  match m.danglingFactor? with
  | some (p, sf) => .error (.unknownScaleFactor p sf)
  | none => return m

/-- The model of an SMDX document. -/
def ofText (s : String) : Except SmdxError Model :=
  match Document.ofText? s with
  | some d => ofDocument d
  | none => .error .malformed

/-- What the log is told of a model that was read. -/
def summary (m : Model) : String :=
  "Parsed SMDX model " ++ Text.intText m.id ++ " (" ++ Text.natText m.points.length ++
    " points, length " ++ Text.intText m.length ++ ")"

end Model

end DeviceModel.Smdx
