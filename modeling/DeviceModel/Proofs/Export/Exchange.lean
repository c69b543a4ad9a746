import DeviceModel.Proofs.Export.Exportable
import DeviceModel.Proofs.Document.Files
import DeviceModel.Proofs.Smdx.RoundTrip

/-!
Models of a project that are written as documents and read again. Main statement: a reader takes the
document of a model exactly if the scale factors of its registers are constants or registers of the same
model, and then has the same points (`Smdx.Model.ofText_text_iff`).
-/

namespace DeviceModel

theorem Data.is64_int {d : Data} (h : d.Storable) {a : Attr}
    (ha : ∀ f, d.kind.field? a = some f → f.persisted = true) : Text.is64 (d.int a) = true := by
  unfold int int?
  cases hv : d.get? a with
  | none => rfl
  | some v =>
    obtain ⟨f, hf, -⟩ := exists_field_of_get? hv
    have hs := h _ (mem_entries hf hv) (ha f hf)
    cases v with
    | integer i => exact hs
    | _ => rfl

/-- Every value of the project has a written form. -/
def Models.Storable (ms : Models) : Prop := ∀ k, (ms.tree k).root.Storable

namespace Lookup

/-- The registers of a map that follow its header. -/
def body (rs : List Register) : List Register := rs.filter (!·.header)

/-- The scale factors of the registers are constants, or ids of registers among them. -/
def NamesFactors (l : Lookup) (t : Tree) (rs : List Register) : Prop :=
  ∀ r ∈ rs, ∀ id, l.scaleFactorId? t r = some id →
    (Text.readInt? 10 id.toList).isSome = true ∨ ∃ q ∈ rs, l.pointId q.point = id

/-- The points with the scale factors of the registers are themselves registers among them. -/
def HoldsFactors (t : Tree) (rs : List Register) : Prop :=
  ∀ r ∈ rs, ∀ n, r.factor? >>= t.find? = some n → ∃ q ∈ rs, q.point = n

theorem namesFactors_of_holdsFactors {t : Tree} {rs : List Register} (l : Lookup)
    (h : HoldsFactors t rs) : l.NamesFactors t rs := by
  intro r hr id hid
  obtain ⟨n, hn, rfl⟩ := Option.map_eq_some_iff.1 hid
  obtain ⟨q, hq, rfl⟩ := h r hr n hn
  exact .inr ⟨q, hq, rfl⟩

end Lookup

namespace Smdx

/-- The point without its texts. -/
def Point.bare (p : Point) : Point :=
  { p with texts := {}, symbols := p.symbols.map fun s => { s with texts := {} } }

theorem Point.bare_retexted (points symbols : String → Texts) (p : Point) :
    (p.retexted points symbols).bare = p.bare := by
  simp only [bare, retexted, List.map_map]
  rfl

theorem is64_of_mem_symbolsOf {ms : Models} (h : ms.Storable) {parameter : Uuid} {s : Symbol}
    (hs : s ∈ symbolsOf ms.lookup parameter) : Text.is64 s.value = true := by
  unfold symbolsOf at hs
  split at hs
  · cases hs
  · split at hs
    · cases hs
    · rename_i t ht
      obtain ⟨e, he, rfl⟩ := List.mem_map.1 hs
      obtain ⟨k, -, rfl⟩ := List.mem_map.1 (List.mem_of_find?_eq_some ht)
      refine Data.is64_int (h k e (Tree.mem_all_of_mem_children he)).2 ?_
      cases e.data.kind <;> decide

theorem Point.hasWords_ofRegister {ms : Models} (h : ms.Storable) (t : Tree) (header : Int) (r : Register) :
    (Point.ofRegister ms.lookup t header r).HasWords := by
  intro s hs
  cases hp : r.parameter? with
  | none => simp [ofRegister, hp] at hs
  | some p => exact is64_of_mem_symbolsOf h (by simpa [ofRegister, hp] using hs)

theorem Point.scaleFactorPoint?_eq_some {p : Point} {sf : String} : p.scaleFactorPoint? = some sf ↔
    p.scaleFactor = some sf ∧ ¬(Text.readInt? 10 sf.toList).isSome = true := by
  simp [scaleFactorPoint?, Option.filter_eq_some_iff]

namespace Model

/-- The scale factors of a model's points are constants or points of it. -/
def NamesFactors (m : Model) : Prop :=
  ∀ p ∈ m.points, ∀ sf, p.scaleFactor = some sf →
    (Text.readInt? 10 sf.toList).isSome = true ∨ ∃ q ∈ m.points, q.id = sf

theorem point?_isSome_iff {m : Model} {id : String} :
    (m.point? id).isSome = true ↔ ∃ q ∈ m.points, q.id = id := by
  simp [point?_isSome, List.any_eq_true]

theorem danglingFactor?_eq_none {m : Model} : m.danglingFactor? = none ↔ m.NamesFactors := by
  rw [danglingFactor?, List.findSome?_eq_none_iff]
  refine forall₂_congr fun p _ => ?_
  rw [Option.bind_eq_bind, Option.bind_eq_none_iff]
  refine forall_congr' fun sf => ?_
  rw [Point.scaleFactorPoint?_eq_some, and_imp, ← point?_isSome_iff]
  refine forall_congr' fun _ => ?_
  rw [or_iff_not_imp_left]
  refine forall_congr' fun _ => ?_
  split <;> simp_all

theorem exists_point_of_danglingFactor? {m : Model} {id sf : String} (h : m.danglingFactor? = some (id, sf)) :
    ∃ p ∈ m.points, p.id = id ∧ p.scaleFactor = some sf := by
  obtain ⟨p, hp, h⟩ := List.exists_of_findSome?_eq_some h
  obtain ⟨sf', hsf, h⟩ := Option.bind_eq_some_iff.1 h
  split at h
  · cases h
  · cases h
    exact ⟨p, hp, rfl, (Point.scaleFactorPoint?_eq_some.1 hsf).1⟩

variable {l : Lookup} {t : Tree} {n : Node} {m : Model}

/-- The points of an exported model are the registers behind the header. -/
theorem points_of_ofNode (h : ofNode l t n = .ok m) : ∃ rs header, l.sunSpecRegisters t n.uuid = .ok rs ∧
    m.points = (Lookup.body rs).map (Point.ofRegister l t header) := by
  obtain ⟨rs, hrs, rfl⟩ := return_eq_ok_iff.1 h
  refine ⟨rs, ((rs.filter (·.header)).map (·.size)).foldr (· + ·) 0, mapError_eq_ok_iff.1 hrs, ?_⟩
  rw [points, List.flatMap_singleton]
  rfl

theorem namesFactors_iff {rs : List Register} {header : Int}
    (h : m.points = rs.map (Point.ofRegister l t header)) : m.NamesFactors ↔ l.NamesFactors t rs := by
  simp only [NamesFactors, Lookup.NamesFactors, h, List.mem_map, exists_exists_and_eq_and,
    forall_exists_index, and_imp, forall_apply_eq_imp_iff₂]
  rfl

/-- A model that a project gives is written as a text that is read again exactly if its scale factors are
constants or ids of its registers behind the header, as they are where the points that hold them are such
registers. All but the texts of its points is then as it was. -/
theorem ofText_text_iff {ms : Models} (hs : ms.Storable)
    (h : ofNode ms.lookup (ms.tree .sunSpec) n = .ok m)
    (hraw : Document.ofText? m.text = some m.toDocument) : ∃ rs,
    ms.lookup.sunSpecRegisters (ms.tree .sunSpec) n.uuid = .ok rs ∧
    (ms.lookup.NamesFactors (ms.tree .sunSpec) (Lookup.body rs) ↔
      ∃ m', ofText m.text = .ok m' ∧ m'.points.map Point.bare = m.points.map Point.bare) ∧
    (Lookup.HoldsFactors (ms.tree .sunSpec) (Lookup.body rs) →
      ∃ m', ofText m.text = .ok m' ∧ m'.points.map Point.bare = m.points.map Point.bare) := by
  obtain ⟨rs, header, hrs, hpoints⟩ := points_of_ofNode h
  have hwords : ∀ p ∈ m.points, p.HasWords := by
    rw [hpoints]
    exact List.forall_mem_map.2 fun r _ => Point.hasWords_ofRegister hs _ _ r
  have hdocument : ofText m.text = ofDocument m.toDocument := by rw [ofText, hraw]
  have hread := hdocument.trans (ofDocument_toDocument hwords)
  have hsame : m.reread.points.map Point.bare = m.points.map Point.bare := by
    rw [points_reread, List.map_map]
    exact List.map_congr_left fun p _ => p.bare_retexted _ _
  have hiff : ms.lookup.NamesFactors (ms.tree .sunSpec) (Lookup.body rs) ↔
      ∃ m', ofText m.text = .ok m' ∧ m'.points.map Point.bare = m.points.map Point.bare := by
    rw [← namesFactors_iff hpoints, ← danglingFactor?_eq_none, hread]
    constructor
    · intro hnone
      exact ⟨m.reread, by rw [hnone], hsame⟩
    · rintro ⟨m', hm', -⟩
      split at hm'
      · cases hm'
      · assumption
  exact ⟨rs, hrs, hiff, fun hholds => hiff.1 (Lookup.namesFactors_of_holdsFactors _ hholds)⟩

/-- Two models, the first of which has the scale factor of one of its points in `factor`. -/
def twoModels (factor : Uuid) : Models :=
  let header (u v : Nat) : Node := ⟨⟨u⟩, .initial .headerBlock, [.leaf ⟨v⟩ (shortPoint .dataPoint)]⟩
  let point (name : String) (factor : Value) : Data :=
    .of .dataPoint [(.name, .string name), (.pointType, .uuid ⟨3⟩), (.size, .integer 1), (.factorPoint, factor)]
  let t : Tree := ⟨.sunSpec, ⟨⟨10⟩, .initial .sunSpecRoot,
    [⟨⟨11⟩, .of .sunSpecModel [(.name, .string "A"), (.id, .integer 7)],
        [header 12 13, ⟨⟨14⟩, .initial .fixedBlock,
          [.leaf ⟨15⟩ (point "P" (.uuid factor)), .leaf ⟨16⟩ (point "S" .null)]⟩]⟩,
      ⟨⟨21⟩, .of .sunSpecModel [(.name, .string "B"), (.id, .integer 8)],
        [header 22 23, ⟨⟨24⟩, .initial .fixedBlock, [.leaf ⟨25⟩ (point "Q" .null)]⟩]⟩]⟩⟩
  { parameters := { tree := pointTypes }
    can := { tree := .initial .can ⟨30⟩ }
    sunSpec := { tree := t.placeAll t.layout }
    staticModbus := { tree := .initial .staticModbus ⟨40⟩ }
    anomalies := { tree := .initial .anomalies ⟨50⟩ } }

/-- The first of the two models. -/
def modelOf (scaleFactor : String) : Model where
  id := 7
  name := "A"
  length := 2
  texts := { label := "A" }
  blocks := [{
    repeating := false
    name := none
    length := 2
    points := [
      { id := "P", type := .uint16, scaleFactor := some scaleFactor },
      { id := "S", offset := 1, type := .uint16 }] }]

theorem ofText_text_iff_twoModels : ∃ n m, (twoModels ⟨16⟩).Storable ∧
    ofNode (twoModels ⟨16⟩).lookup ((twoModels ⟨16⟩).tree .sunSpec) n = .ok m ∧
      ∃ m', ofText m.text = .ok m' ∧ m'.points.map Point.bare = m.points.map Point.bare := by
  have hs : (twoModels ⟨16⟩).Storable := by intro k; cases k <;> decide +kernel
  have hmodel : ∃ n ∈ ((twoModels ⟨16⟩).tree .sunSpec).all,
      modelOf "S" ∈ (ofNode (twoModels ⟨16⟩).lookup ((twoModels ⟨16⟩).tree .sunSpec) n).toOption := by
    decide +kernel
  obtain ⟨n, -, hn⟩ := hmodel
  rw [mem_toOption_iff] at hn
  have hraw : Document.ofText? (modelOf "S").text = some (modelOf "S").toDocument :=
    ofText?_text (n := 40) (by decide +kernel)
  obtain ⟨rs, hrs, hiff, -⟩ := ofText_text_iff hs hn hraw
  refine ⟨n, modelOf "S", hs, hn, hiff.1 ?_⟩
  obtain ⟨rs', header, hrs', hpoints⟩ := points_of_ofNode hn
  rw [hrs] at hrs'
  cases hrs'
  exact (namesFactors_iff hpoints).1 (danglingFactor?_eq_none.1 (by decide +kernel))

/-- The check finds no errors where a point has its scale factor in another model, but the document of the
model is refused for it. -/
theorem exists_clean_unread : ∃ ms : Models, ms.Clean ∧ ms.Storable ∧
    ∃ n ∈ (ms.tree .sunSpec).all, n.kind = .sunSpecModel ∧
      ∃ m, ofNode ms.lookup (ms.tree .sunSpec) n = .ok m ∧
        Document.ofText? m.text = some m.toDocument ∧
        ofText m.text = .error (.unknownScaleFactor "P" "Q") := by
  have hclean : (twoModels ⟨25⟩).Clean :=
    ⟨by intro k; cases k <;> decide +kernel, by intro k; cases k <;> rfl, by decide +kernel⟩
  have hs : (twoModels ⟨25⟩).Storable := by intro k; cases k <;> decide +kernel
  have hmodel : ∃ n ∈ ((twoModels ⟨25⟩).tree .sunSpec).all, n.kind = .sunSpecModel ∧
      modelOf "Q" ∈ (ofNode (twoModels ⟨25⟩).lookup ((twoModels ⟨25⟩).tree .sunSpec) n).toOption := by
    decide +kernel
  obtain ⟨n, hn, hk, hmodel⟩ := hmodel
  rw [mem_toOption_iff] at hmodel
  have hraw : Document.ofText? (modelOf "Q").text = some (modelOf "Q").toDocument :=
    ofText?_text (n := 40) (by decide +kernel)
  refine ⟨twoModels ⟨25⟩, hclean, hs, n, hn, hk, modelOf "Q", hmodel, hraw, ?_⟩
  rw [ofText, hraw]
  decide +kernel

end Model

end Smdx

end DeviceModel
