import DeviceModel.Book.Trees
import DeviceModel.Can.SymbolFile
import DeviceModel.Code.RegisterTable
import DeviceModel.Export.Error
import DeviceModel.Files.Host
import DeviceModel.Hierarchy
import DeviceModel.Smdx.Export
import DeviceModel.Smdx.Writer
import DeviceModel.ValueSet

/-!
Everything that is made from a project, written into one directory: C files, the symbol file, the
hierarchy, SMDX documents and workbooks. The first failure ends the export; what was written stays.

### Products

The products of a directory: one for each file of values, in the order of the file names.
-/

namespace DeviceModel.Product

variable {m : Type → Type} [Monad m] [Host m]

def extension : String := "pmvs"

/-- The product of a file, named after the file unless its values have a name. -/
def load (path fileStem : String) : ExceptT ExportError m Product := do
  match ← (Host.read path : m _) with
  | none => throw (.io path)
  | some text =>
    match ValueSet.ofText? text with
    | none => throw (.valueSet path)
    | some set =>
      let name := set.name.getD fileStem
      liftM (Host.log ⟨.debug, "Loaded value set " ++ name ++ " (" ++
        Text.natText set.values.length ++ " values)"⟩ : m Unit)
      return ⟨name, path, set⟩

/-- The files of a directory that hold values. -/
def files (directory : String) : ExceptT ExportError m (List (String × String)) := do
  match ← (Host.names? directory : m _) with
  | none => throw (.io directory)
  | some names =>
    let found := names.filterMap fun n =>
      (Path.stem? extension n).map fun stem => (n, Path.join directory n, stem)
    let sorted := found.mergeSort fun a b => decide (a.1 ≤ b.1)
    (sorted.map (·.2)).filterM fun (path, _) => (Host.isFile path : m Bool)

def loadAll (directory : String) : ExceptT ExportError m (List Product) := do
  (← files directory).mapM fun (path, stem) => load path stem

end DeviceModel.Product

/-! ### Exports -/

namespace DeviceModel

structure ExportOptions where
  directory : String
  /-- Where templates are that replace the plain ones. -/
  templates : Option String := none
  /-- Where the values of products are. -/
  products : Option String := none
  symbolTitle : String := "pmc"
  banner : String := "Generated by pmc. Do not edit."

namespace Export

variable {m : Type → Type} [Monad m] [Host m]

def codeDirectory : String := "c"

def symbolFile : String := "can.sym"

def hierarchyFile : String := "hierarchy.json"

def tell (level : LogLevel) (text : String) : ExceptT ExportError m Unit :=
  liftM (Host.log ⟨level, text⟩ : m Unit)

/-- Fails as an access to `path` when `step` could not be done. -/
def require (path : String) (step : m Bool) : ExceptT ExportError m Unit := do
  if !(← step) then throw (.io path)

def writeFile (path text : String) : ExceptT ExportError m Unit := do
  match Path.parent? path with
  | some d => require d (Host.makeDirectory d)
  | none => pure ()
  require path (Host.write path text)

/-- The template of a name, unless the directory has none. -/
def loadTemplate (directory : Option String) (name : String) (plain : Template) :
    ExceptT ExportError m Template := do
  match directory.map (Path.join · (name ++ ".hbs")) with
  | none => return plain
  | some path =>
    if !(← (Host.isFile path : m Bool)) then return plain
    tell .debug ("Using template " ++ path)
    match ← (Host.read path : m _) with
    | none => throw (.io path)
    | some text => liftM ((Template.ofText text).mapError ExportError.template)

def loadTemplates (directory : Option String) : ExceptT ExportError m Templates := do
  return ⟨← loadTemplate directory "c_source" Templates.plain.source,
    ← loadTemplate directory "c_header" Templates.plain.header⟩

/-- Writes the C files; gives how many there are. -/
def writeCode (ms : Models) (o : ExportOptions) : ExceptT ExportError m Nat := do
  let templates ← loadTemplates o.templates
  let files ← liftM ms.codeFiles
  for f in files do
    let text ← liftM ((f.render templates o.banner).mapError ExportError.template)
    writeFile (Path.join (Path.join o.directory codeDirectory) f.name) text
  return files.length

def writeModels (ms : Models) (directory : String) : ExceptT ExportError m Nat := do
  let t := ms.tree .sunSpec
  let models := t.ofKind .sunSpecModel
  for n in models do
    let smdx ← liftM (Smdx.Model.ofNode ms.lookup t n)
    writeFile (Path.join directory (Smdx.fileName smdx.id)) smdx.text
  return models.length

/-- A book whose sheets have the same name is written and then found unusable. -/
def writeBook (path : String) (b : Book) : ExceptT ExportError m Unit := do
  if !b.all Sheet.isWritable then throw .workbook
  if !(← (Host.writeBook path b : m Bool)) then throw .workbook
  if !b.namesDiffer then throw .workbook
  tell .debug ("Wrote workbook " ++ path ++ " (" ++ Text.natText b.length ++ " sheets)")

/-- The workbooks with the names of their files; all are made before one is written. -/
def makeBooks (ms : Models) (products : Option String) :
    ExceptT ExportError m (List (String × Book)) := do
  let l := ms.lookup
  let sunSpec ← liftM ((Book.ofSunSpec l (ms.tree .sunSpec)).mapError ExportError.model)
  let products ← match products with
    | some d => Product.loadAll d
    | none => pure []
  return [("sunspec.xlsx", sunSpec),
    ("anomalies.xlsx", Book.ofAnomalies l (ms.tree .anomalies)),
    ("can.xlsx", Book.ofCan l (ms.tree .can) products)]

/-- The matrix of a project as a symbol file. -/
def symbols (ms : Models) (title : String) : ExceptT ExportError m String := do
  let matrix ← liftM (Can.Matrix.ofModels ms title)
  tell .debug matrix.summary
  return matrix.text

/-- Writes everything; gives how many files there are. -/
def all (ms : Models) (o : ExportOptions) : ExceptT ExportError m Nat := do
  let place (name : String) := Path.join o.directory name
  require o.directory (Host.makeDirectory o.directory)
  let code ← writeCode ms o
  writeFile (place symbolFile) (← symbols ms o.symbolTitle)
  writeFile (place hierarchyFile) ms.hierarchy
  let models ← writeModels ms o.directory
  let books ← makeBooks ms o.products
  for (name, b) in books do writeBook (place name) b
  let count := code + 2 + models + books.length
  tell .info ("Exported " ++ Text.natText count ++ " files to " ++ o.directory)
  return count

end Export

end DeviceModel
