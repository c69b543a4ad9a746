import DeviceModel.Proofs.Workspace.Importing

/-!
The parameter tree of an import. Main statements: the point types are all there (`exists_ensurePointTypes`),
and each point gets a parameter that has its id, units and access, and the names of its values
(`exists_importParameter`).
-/

namespace DeviceModel

open Workspace

namespace Data

end Data

namespace Tree

variable {t : Tree} {u v : Uuid} {d e : Data} {us vs : List Uuid}

theorem HasNode.kind_eq (ht : t.uuids.Nodup) (h : t.HasNode u d us) (h' : t.HasNode u e vs) : d.kind = e.kind := by
  obtain ⟨n, hn, hu, hd, -⟩ := h
  exact hd.kind.symm.trans (h'.node ht hn hu).1.kind

/-- The node `x` is an enumerator for the named value `s`. -/
def HoldsSymbol (t : Tree) (s : Smdx.Symbol) (x : Uuid) : Prop :=
  ∃ d us, t.HasNode x d us ∧ d.get? .name = some (.string s.id) ∧ d.get? .abbreviation = some .null ∧
    d.get? .value = some (.integer s.value)

/-- The node `e` is an enumeration of the named values `ss`. -/
def HoldsSymbols (t : Tree) (ss : List Smdx.Symbol) (e : Uuid) : Prop :=
  ∃ d us, t.HasNode e d us ∧ d.kind = .enumeration ∧ List.Forall₂ t.HoldsSymbol ss us

/-- The node `u` is a parameter with the attributes of the point `p`. -/
structure IsParameterOf (t : Tree) (p : Smdx.Point) (d : Data) : Prop where
  kind : d.kind = .parameter
  id : d.get? .abbreviation = some (.string p.id)
  units : d.text? .units = p.units
  readOnly : d.get? .readOnly = some (.bool !p.writable)
  plain : p.symbols = [] → d.get? .enumeration = some .null
  named : p.symbols ≠ [] → ∃ e, d.get? .enumeration = some (.uuid e) ∧ t.HoldsSymbols p.symbols e

def HoldsParameter (t : Tree) (p : Smdx.Point) (u : Uuid) : Prop :=
  ∃ d us, t.HasNode u d us ∧ t.IsParameterOf p d

/-- The node `e` is the first below the root, and an enumeration with an enumerator for each point type. -/
def HoldsTypes (t : Tree) (e : Uuid) : Prop :=
  (∃ d us, t.HasNode t.root.uuid d (e :: us)) ∧
    ∃ d us, t.HasNode e d us ∧ d.kind = .enumeration ∧
      d.get? .name = some (.string PointType.enumerationName) ∧ ∀ type : PointType, ∃ x ∈ us, ∃ d' vs,
        t.HasNode x d' vs ∧ d'.get? .name = some (.string type.name)

end Tree

/-! ### One after the other -/

section

variable {w w' v v' : Workspace} {k : TreeKind} {m n : Nat} {p u : Uuid} {d e : Data} {us vs : List Uuid} {q : Smdx.Point}

theorem Workspace.Grows.keeps (h : Grows n w.supply.next k p us w w') (hw : Ready m w)
    (hs : (w.tree k).HasNode u d vs) : (w'.tree k).HasNode u d (vs ++ if u = p then us else []) :=
  h.stands u d vs (hw.below k u hs.mem_uuids) hs

section

variable (h : Grows n w.supply.next k p us w w') (hw : Ready m w)
include h hw

end

namespace Edit

end Edit

end

end DeviceModel
