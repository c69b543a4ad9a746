import DeviceModel.Code.Identifier
import DeviceModel.Code.Template

/-!
Generated C files: what they include and contain, and the frame around it. A header is guarded by its
own name. Interface items: for each parameter that has one the variable through which firmware reads and
writes it.
-/

namespace DeviceModel

structure CFile where
  name : String
  /-- In angle brackets, or bare for a file of the project. -/
  includes : List String
  body : List Lines

structure Templates where
  source : Template
  header : Template

namespace Templates

/-- A banner, what is included, and the body. -/
def plainSource : Template :=
  [.text "/* ", .field "banner", .text " */\n\n", .field "includes", .text "\n\n", .field "body",
    .text "\n"]

def guardedHeader : Template :=
  [.text "/* ", .field "banner", .text " */\n\n#ifndef ", .field "guard", .text "\n#define ",
    .field "guard", .text "\n\n", .field "includes", .text "\n\n", .field "body",
    .text "\n\n#endif /* ", .field "guard", .text " */\n"]

def plain : Templates := ⟨plainSource, guardedHeader⟩

end Templates

namespace CFile

def isHeader (f : CFile) : Bool := f.name.endsWith ".h"

def includeLine (h : String) : String :=
  if h.startsWith "<" then "#include " ++ h else "#include \"" ++ h ++ "\""

/-- The file in its frame; it ends with one newline. -/
def render (f : CFile) (templates : Templates) (banner : String) : Except TemplateError String := do
  let template := if f.isHeader then templates.header else templates.source
  let text ← template.fill
    [("banner", banner), ("guard", Code.guard f.name),
      ("includes", "\n".intercalate (f.includes.map includeLine)),
      ("body", Text.trimEnd (Lines.render f.body))]
  return Text.trimEnd text ++ "\n"

end CFile

structure InterfaceItem where
  name : String
  type : String
  path : String
  accessLevel : Int
  scaleFactor : Int
  storage? : Option String
  getter? : Option String
  setter? : Option String

namespace Code

def interfaceSource : String := "interface.c"

def interfaceHeader : String := "interface.h"

/-- The address of a variable. -/
def address : Option String → String
  | some name => "&" ++ name
  | none => "NULL"

end Code

namespace InterfaceItem

/-- The value of the access level that a parameter names. -/
def levelOf (l : Lookup) (u : Uuid) : Int :=
  ((l.attribute? u .accessLevel >>= Value.uuid? >>= l.node?).map (·.int .value)).getD 0

def functionOf (n : Node) (a : Attr) : Option String :=
  ((n.text? a).map Code.identifier).filter (· ≠ "")

/-- The item of a parameter, unless that is reached through functions. -/
def ofNode? (l : Lookup) (t : Tree) (n : Node) : Option InterfaceItem :=
  if l.hasInterfaceItem n.uuid then
    some {
      name := l.interfaceItem n.uuid
      type := "InterfaceItem_" ++ l.itemType n.uuid
      path := "/".intercalate (t.namePath n.uuid)
      accessLevel := levelOf l n.uuid
      scaleFactor := (l.attribute? n.uuid .internalScaleFactor >>= Value.integer?).getD 0
      storage? := (n.text? .internalVariable).filter (· ≠ "")
      getter? := functionOf n .getterFunction
      setter? := functionOf n .setterFunction }
  else none

/-- The items of a parameter tree, in the order of the tree. -/
def ofTree (l : Lookup) (t : Tree) : List InterfaceItem :=
  (t.all.filter (·.kind.isParameterLike)).filterMap (ofNode? l t)

def definition (i : InterfaceItem) : List Lines :=
  [.line ("// " ++ i.path),
    .line (i.type ++ " " ++ i.name ++ " = \x7b"),
    .block
      [.line ".common = \x7b",
        .block
          [.line (".accessLevel = " ++ Text.intText i.accessLevel ++ ","),
            .line (".internalScaleFactor = " ++ Text.intText i.scaleFactor ++ ",")],
        .line "\x7d,",
        .line (".variable = " ++ Code.address i.storage? ++ ","),
        .line (".getter = " ++ i.getter?.getD "NULL" ++ ","),
        .line (".setter = " ++ i.setter?.getD "NULL" ++ ",")],
    .line "\x7d;",
    .blank]

def declaration (i : InterfaceItem) : Lines := .line ("extern " ++ i.type ++ " " ++ i.name ++ ";")

def files (l : Lookup) (t : Tree) : List CFile :=
  let items := ofTree l t
  [⟨Code.interfaceSource, [Code.interfaceHeader], items.flatMap definition⟩,
    ⟨Code.interfaceHeader, ["<stdint.h>", "interfaceTypes.h"], items.map declaration⟩]

end InterfaceItem

end DeviceModel
