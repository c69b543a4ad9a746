import DeviceModel.Command.Arguments
import DeviceModel.Export.All
import DeviceModel.Project
import DeviceModel.Smdx.Reader
import DeviceModel.Workspace.Edits
import DeviceModel.Workspace.Import

/-!
The commands: import of an SMDX model into a project, export of all that is made from one, its
validation, and the build that expands all tables before the export.
-/

namespace DeviceModel

/-- A line about a finding in a tree. -/
def CheckResult.Entry.line (k : TreeKind) (e : Entry) : String :=
  e.issue.level.name ++ ": " ++ k.name ++ " " ++ e.kind.tag ++ " \"" ++ e.name ++ "\" (" ++
    e.uuid.text ++ "): " ++ e.issue.message ++ "\n"

/-- Findings of all trees, a line for each. -/
def Models.report (ms : Models) : String :=
  String.join ((TreeKind.all.zip ms.check).flatMap fun (k, r) =>
    match r.prune with
    | some r => r.flatten.map (CheckResult.Entry.line k)
    | none => [])

/-- How many of the findings are errors. -/
def Models.errorCount (ms : Models) : Nat := (ms.check.map (·.count .error)).foldr (· + ·) 0

/-- What a command failed of. -/
inductive CommandCause
  | model (e : Error)
  | smdx (e : SmdxError)
  | export (e : ExportError)
  /-- A file that could not be read, with no more to say of it. -/
  | unreadable

structure CommandError where
  /-- What was being done. -/
  context : String
  cause : CommandCause

/-- What a command that did not fail says. -/
structure CommandResult where
  success : Bool := true
  output : String := ""

namespace Command

variable {m : Type → Type} [Monad m] [Host m]

abbrev Run (m : Type → Type) := ExceptT CommandError m

/-- Does a step in a context. -/
def within (context : String) (wrap : ε → CommandCause) (step : ExceptT ε m α) : Run m α :=
  ExceptT.adapt (fun e => ⟨context, wrap e⟩) step

def tell (level : LogLevel) (text : String) : Run m Unit := liftM (Host.log ⟨level, text⟩ : m Unit)

/-- Edits a project; what the edit logs goes to the log. -/
def edit (p : Project) (e : Edit α) : ExceptT Error m (α × Project) := do
  let (r, w) := e.run { p.workspace with log := [] }
  for line in w.log do Project.tell line
  return (← liftM r, { p with workspace := w })

def openProject (path : String) (next : Nat) : Run m Project :=
  within ("loading project " ++ path) .model (Project.load path next)

def exportTo (ms : Models) (o : OutputOptions) : Run m Unit := do
  let count ← within ("exporting to " ++ o.directory) .export
    (Export.all ms { directory := o.directory, templates := o.templates, products := o.products })
  tell .info ("Wrote " ++ Text.natText count ++ " files")

def readText (path : String) : Run m String := do
  match ← (Host.read path : m _) with
  | some s => return s
  | none => throw ⟨"reading " ++ path, .unreadable⟩

def importFile (project smdx : String) (next : Nat) : Run m Unit := do
  let p ← if ← (Host.isPresent project : m Bool) then openProject project next
    else within ("creating project " ++ project) .model (Project.create project next)
  let text ← readText smdx
  let model ← within ("parsing " ++ smdx) .smdx (liftM (Smdx.Model.ofText text))
  tell .debug model.summary
  let (_, p) ← within ("importing SMDX model " ++ Text.intText model.id) .model
    (edit p (Edit.importModel model))
  within "saving project" .model p.save

/-- A line about an expansion that left something out. -/
def skippedLine (e : Expansion) : Option LogLine :=
  if e.skipped.isEmpty then none
  else some ⟨.warn, "Expansion of " ++ e.view.text ++ " skipped " ++
    Text.natText e.skipped.length ++ " references"⟩

def buildProject (project : String) (o : OutputOptions) (next : Nat) : Run m Unit := do
  let p ← openProject project next
  let (es, p) ← within "expanding tables" .model (edit p (Edit.expandAll {}))
  for line in es.filterMap skippedLine do tell line.level line.text
  tell .info ("Expanded " ++ Text.natText es.length ++ " tables and views")
  within "saving project" .model p.save
  exportTo p.workspace.models o

/-- Runs a command; new identifiers come from the number `next` on. -/
def run (c : Command) (next : Nat) : Run m CommandResult := do
  match c with
  | .import project smdx =>
    importFile project smdx next
    return {}
  | .export project o =>
    let p ← openProject project next
    exportTo p.workspace.models o
    return {}
  | .validate project =>
    let ms := (← openProject project next).workspace.models
    return { success := ms.errorCount = 0, output := ms.report }
  | .build project o =>
    buildProject project o next
    return {}

end Command

end DeviceModel
