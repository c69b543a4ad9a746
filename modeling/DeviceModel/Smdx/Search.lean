import DeviceModel.Files.Host
import DeviceModel.Smdx.Reader
import DeviceModel.Smdx.Writer

/-!
SMDX models on a search path: the file of a model is the one in the first directory that has it.
-/

namespace DeviceModel.Smdx.Model

variable {m : Type → Type} [Monad m] [Host m]

/-- The path of the file of the model `id`. -/
def locate? (id : Int) : List String → m (Option String)
  | [] => return none
  | d :: ds => do
    let path := Path.join d (fileName id)
    if ← (Host.isFile path : m Bool) then return some path else locate? id ds

/-- The model `id` of the search path `directories`. -/
def find (directories : List String) (id : Int) : ExceptT SmdxError m Model := do
  match ← (locate? id directories : m _) with
  | none => throw (.notFound id directories)
  | some path =>
    match ← (Host.read path : m _) with
    | none => throw (.io path)
    | some text =>
      liftM (Host.log ⟨.debug, "Parsing SMDX file " ++ path⟩ : m Unit)
      let model ← liftM (Model.ofText text)
      liftM (Host.log ⟨.debug, model.summary⟩ : m Unit)
      return model

end DeviceModel.Smdx.Model
