import DeviceModel.Files.Host
import DeviceModel.Json.Reader
import DeviceModel.Json.Writer
import DeviceModel.Schema.Kind
import DeviceModel.Workspace.Basic

/-!
Projects: a workspace with the files that it is loaded from and saved to. Main statement: what is written of the
paths of these files reads back.

### Project files

Where the models of a project are kept, relative to the project file.
-/

namespace DeviceModel

structure ProjectPaths where
  parameters : String
  can : String
  sunSpec : String
  staticModbus : String
  anomalies : String
  deriving DecidableEq, Repr

namespace ProjectPaths

/-- Each model in a file named after its tree. -/
def initial : ProjectPaths :=
  ⟨TreeKind.parameters.fileName, TreeKind.can.fileName, TreeKind.sunSpec.fileName,
    TreeKind.staticModbus.fileName, TreeKind.anomalies.fileName⟩

def get (p : ProjectPaths) : TreeKind → String
  | .parameters => p.parameters
  | .can => p.can
  | .sunSpec => p.sunSpec
  | .staticModbus => p.staticModbus
  | .anomalies => p.anomalies

def toJson (p : ProjectPaths) : Json :=
  .object (TreeKind.all.map fun k => (k.name, .string (p.get k)))

def ofJson? (j : Json) : Option ProjectPaths := do
  match ← (← Json.record? (TreeKind.all.map TreeKind.name) j).mapM fun v => v >>= Json.string? with
  | [parameters, can, sunSpec, staticModbus, anomalies] =>
    some ⟨parameters, can, sunSpec, staticModbus, anomalies⟩
  | _ => none

theorem ofJson?_toJson (p : ProjectPaths) : ofJson? p.toJson = some p := by
  cases p
  rfl

end ProjectPaths

/-- What a project file says: its type and the paths. -/
structure ProjectFile where
  type : String
  paths : ProjectPaths
  deriving DecidableEq, Repr

namespace ProjectFile

/-- The type of a project file. -/
def projectType : String := "project"

def toJson (f : ProjectFile) : Json :=
  .object [("_type", .string f.type), ("paths", f.paths.toJson)]

def ofJson? (j : Json) : Option ProjectFile := do
  match ← Json.record? ["_type", "paths"] j with
  | [some (.string type), some paths] => some ⟨type, ← ProjectPaths.ofJson? paths⟩
  | _ => none

def ofText? (s : String) : Option ProjectFile := Json.ofWholeText? s >>= ofJson?

def text (f : ProjectFile) : String := f.toJson.indented 4

theorem ofJson?_toJson (f : ProjectFile) : ofJson? f.toJson = some f := by
  obtain ⟨type, paths⟩ := f
  cases paths
  rfl

end ProjectFile

/-!
### Loading and saving

A file is written next to its place first and then put there.
-/

structure Project where
  path : String
  paths : ProjectPaths
  workspace : Workspace

namespace Project

variable {m : Type → Type} [Monad m] [Host m]

/-- A project of empty trees; identifiers come from the number `next` on. -/
def initial (path : String) (next : Nat) : Project :=
  { path := path, paths := .initial, workspace := .initial next }

/-- The directory that the paths of the models start from. -/
def directory (p : Project) : String := (Path.parent? p.path).getD ""

def modelPath (p : Project) (k : TreeKind) : String := Path.join p.directory (p.paths.get k)

def readFile (path : String) : ExceptT Error m String := do
  match ← (Host.read path : m _) with
  | some s => return s
  | none => throw (.io path)

def tell (line : LogLine) : ExceptT Error m Unit := liftM (Host.log line : m Unit)

/-- Fails as an access to `path` when `step` could not be done. -/
def require (path : String) (step : m Bool) : ExceptT Error m Unit := do
  if !(← step) then throw (.io path)

def writeFile (path text : String) : ExceptT Error m Unit := do
  let temporary := path ++ ".tmp"
  require temporary (Host.write temporary text)
  require path (Host.rename temporary path)

/-- The model of a file, and the supply that is left. -/
def loadModel (p : Project) (others : List Tree) (k : TreeKind) (s : Supply) :
    ExceptT Error m (Model × Supply) := do
  let text ← readFile (p.modelPath k)
  let (model, s) ← liftM (Model.ofText text k others s)
  return (model, s.avoiding (s.taken ++ model.tree.uuids))

/-- The project of a file. The parameters come first, so that the others can be checked against them. -/
def load (path : String) (next : Nat) : ExceptT Error m Project := do
  match ProjectFile.ofText? (← readFile path) with
  | none => throw .json
  | some f =>
    if f.type ≠ ProjectFile.projectType then throw (.inconsistent (.notProject path f.type))
    let p : Project := { initial path next with paths := f.paths }
    let (parameters, s) ← p.loadModel [] .parameters p.workspace.supply
    let others := [parameters.tree]
    let (can, s) ← p.loadModel others .can s
    let (sunSpec, s) ← p.loadModel others .sunSpec s
    let (staticModbus, s) ← p.loadModel others .staticModbus s
    let (anomalies, s) ← p.loadModel others .anomalies s
    let (registered, ms) := Models.register ⟨parameters, can, sunSpec, staticModbus, anomalies⟩
    liftM registered
    tell (.ofNode .info .parameters .root ms.parameters.root ("loaded project " ++ path))
    return { p with workspace := { models := ms, supply := s } }

/-- Writes the models, then the project file. -/
def save (p : Project) : ExceptT Error m Unit := do
  for k in TreeKind.all do
    let path := p.modelPath k
    match Path.parent? path with
    | none | some "" => pure ()
    | some d => require d (Host.makeDirectory d)
    writeFile path (p.workspace.models.tree k).text
  writeFile p.path (ProjectFile.text ⟨ProjectFile.projectType, p.paths⟩)

/-- Saves the project under another path, from which the paths of the models start then. -/
def saveAs (p : Project) (path : String) : ExceptT Error m Project := do
  let p := { p with path := path }
  p.save
  return p

/-- A new project that is saved at once. -/
def create (path : String) (next : Nat) : ExceptT Error m Project := (initial path next).saveAs path

end Project

end DeviceModel
