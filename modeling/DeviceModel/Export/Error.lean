import DeviceModel.Code.Template
import DeviceModel.Smdx.Basic

/-!
Errors of exports, by cause.
-/

namespace DeviceModel

inductive ExportError
  | model (e : Error)
  | smdx (e : SmdxError)
  /-- A signal reaches from bit `first` to bit `last`, past the last bit of its frame. -/
  | outsideFrame (signal : String) (first last frameLast : Int)
  | noParameter (kind : Kind) (uuid : Uuid)
  | template (e : TemplateError)
  | valueSet (path : String)
  | workbook
  | io (path : String)

namespace ExportError

/-- The message; none where a text could not be read or a workbook not be written. -/
def message? : ExportError → Option String
  | .model e => e.message?
  | .smdx e => e.message?
  | .outsideFrame s a b z =>
    some ("signal " ++ s ++ " occupies bits [" ++ Text.intText a ++ ", " ++ Text.intText b ++
      "] outside message bits [0, " ++ Text.intText z ++ "]")
  | .noParameter k u => some (k.name ++ " " ++ u.text ++ " has no parameter")
  | .template _ | .workbook => none
  | .valueSet path | .io path => some path

end ExportError

end DeviceModel
