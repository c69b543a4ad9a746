import DeviceModel.Proofs.Register.Settling
import DeviceModel.Proofs.Register.Tiling
import DeviceModel.Proofs.Tree.Changes

/-!
The length of what is laid out at and below a model, whose points must have the sizes of their types, is
the length that the layout gives the model. Main statement: `length_ok_iff`.
-/

namespace DeviceModel

namespace Node

/-- Each node but the first is a child of one of them. -/
theorem sum_all (n : Node) (f : Node → Int) :
    (n.all.map f).sum = f n + (n.all.map fun p => (p.children.map f).sum).sum := by
  have flat : ∀ (cs : List Node) (g : Node → Int),
      ((cs.flatMap all).map g).sum = (cs.map fun c => (c.all.map g).sum).sum := by
    intro cs g
    rw [List.map_flatMap, List.flatMap_def, List.sum_flatten, List.map_map]
    rfl
  induction n using inductOn with
  | h n ih =>
    have hbelow : ((n.children.flatMap all).map f).sum =
        (n.children.map f).sum +
          ((n.children.flatMap all).map fun p => (p.children.map f).sum).sum := by
      rw [flat, flat, ← List.sum_map_add]
      exact congrArg _ (List.map_congr_left ih)
    rw [all_eq, List.map_cons, List.sum_cons, List.map_cons, List.sum_cons, hbelow]

end Node

namespace Lookup

/-- The type of the point is found, and the point has as many registers as that takes, if it says. -/
def Fits (l : Lookup) (n : Node) : Prop :=
  ∃ type, l.pointType? (n.ref? .pointType) = some type ∧ ∀ r, type.registers? = some r → r = n.int .size

theorem pointSize_ok_iff {l : Lookup} {n : Node} : (∃ size, l.pointSize n = .ok size) ↔ l.Fits n := by
  unfold pointSize pointType Fits
  cases l.pointType? (n.ref? .pointType) with
  | none => simp [bind, Except.bind]
  | some type =>
    simp only [bind, Except.bind, Option.some.injEq, exists_eq_left']
    cases type.registers? with
    | none => simp [pure, Except.pure]
    | some r => by_cases hr : r = n.int .size <;> simp [hr, pure, Except.pure]

/-- The registers that the strict length counts for a node: of a point outside of headers, tables and
repeating blocks its own, of a reference those of its block. -/
def room (t : Tree) (n : Node) : Int :=
  (if isLaidOut t n then
    if (t.parent? n.uuid).any (·.kind.isRepeatingBlock) then 0 else n.int .size
  else 0) + if n.kind.isBlockReference then ((n.ref? .original).map t.blockSize).getD 0 else 0

variable {l : Lookup} {t : Tree} {scope : Uuid}

theorem exists_length_iff : (∃ size, l.length t scope = .ok size) ↔
    ∀ n ∈ t.descendants scope, isLaidOut t n = true → l.Fits n := by
  unfold length
  rw [exists_return_iff, exists_mapM_iff]
  simp only [exists_return_iff, pointSize_ok_iff, List.mem_filter, and_imp]

theorem length_eq_sum {size : Int} (h : l.length t scope = .ok size) :
    size = ((t.descendants scope).map (room t)).sum := by
  unfold length at h
  obtain ⟨sizes, hsizes, rfl⟩ := return_eq_ok_iff.1 h
  have hpoints : sizes = ((t.descendants scope).filter (isLaidOut t)).map fun n =>
      if (t.parent? n.uuid).any (·.kind.isRepeatingBlock) then 0 else n.int .size := by
    refine (List.map_id sizes).symm.trans (map_eq_of_forall₂ (forall₂_of_mapM hsizes) fun n b hb => ?_)
    obtain ⟨size, hsize, rfl⟩ := return_eq_ok_iff.1 hb
    rw [pointSize_eq hsize]
    rfl
  rw [← List.sum_eq_foldr, List.sum_append, hpoints, sum_map_filter, sum_map_filter, ← List.sum_map_add]
  rfl

end Lookup

namespace Tree

variable {t : Tree} (ht : t.Valid)
include ht

theorem isLaidOut_of_child {p c : Node} (hp : p ∈ t.all) (hc : c ∈ p.children) :
    Lookup.isLaidOut t c = true ↔
      c.kind.isPoint = true ∧ p.kind ≠ .headerBlock ∧ p.kind ≠ .sunSpecTable ∧ p.kind ≠ .modbusTable := by
  simp [Lookup.isLaidOut, parent?_of_child ht.nodup hp hc, and_assoc]

/-- In a tree of models there is room for the children of fixed blocks only. -/
theorem room_of_child (hs : t.Settles) (hsun : t.kind = .sunSpec) {p c : Node} (hp : p ∈ t.all)
    (hc : c ∈ p.children) : Lookup.room t c = if p.kind = .fixedBlock then t.sizeOf c else 0 := by
  have hplaces : ∀ k child : Kind, k.tree = .sunSpec → k.allows child = true →
      if k = .fixedBlock then child.isPoint = !child.isBlockReference
      else child.isBlockReference = false ∧ (child.isPoint = true →
        k = .headerBlock ∨ k = .sunSpecTable ∨ k.isRepeatingBlock = true) := by
    intro k child; cases k <;> cases child <;> decide
  have hplace := hplaces _ _ (by rw [← kind_of_mem ht hp, hsun]) (ht.allowed p hp c hc)
  have hlaid := isLaidOut_of_child ht hp hc
  rw [Lookup.room, parent?_of_child ht.nodup hp hc, Option.any_some]
  by_cases hfixed : p.kind = .fixedBlock
  · rw [if_pos hfixed] at hplace ⊢
    have hrep : p.kind.isRepeatingBlock = false := by rw [hfixed]; rfl
    cases href : c.kind.isBlockReference with
    | false =>
      have hpoint : c.kind.isPoint = true := by rw [hplace, href]; rfl
      simp [hlaid.2 ⟨hpoint, by simp [hfixed]⟩, hrep, sizeOf_of_not_reference href]
    | true =>
      have hpoint : c.kind.isPoint = false := by rw [hplace, href]; rfl
      have hnot : ¬Lookup.isLaidOut t c = true := fun h => by
        have := (hlaid.1 h).1
        simp [hpoint] at this
      rw [if_neg hnot, Int.zero_add, if_pos rfl, hs.sizeOf_reference (mem_all_of_child hp hc) href]
  · rw [if_neg hfixed] at hplace ⊢
    rw [hplace.1]
    cases hl : Lookup.isLaidOut t c with
    | false => rfl
    | true =>
      obtain ⟨hpoint, hheader, htable, -⟩ := hlaid.1 hl
      obtain h | h | h := hplace.2 hpoint
      · exact absurd h hheader
      · exact absurd h htable
      · rw [h]; rfl

/-- Below a model there is no other. -/
theorem eq_of_sunSpecModel {m q : Node} (hm : m ∈ t.all) (hk : m.kind = .sunSpecModel) (hq : q ∈ m.all)
    (hqk : q.kind = .sunSpecModel) : q = m := by
  have hup : ∀ k : Kind, k.allows .sunSpecModel = true → k = .sunSpecRoot := by
    intro k; cases k <;> decide
  by_contra hne
  obtain ⟨p, hp, hqp⟩ := Node.exists_parent hq hne
  have hpt := Node.mem_all_trans hp hm
  have hpk := hup _ (hqk ▸ ht.allowed p hpt q hqp)
  have hpm : p ≠ m := by
    rintro rfl
    rw [hk] at hpk
    cases hpk
  obtain ⟨r, hr, hpr⟩ := Node.exists_parent hp hpm
  have hallows := ht.allowed r (Node.mem_all_trans hr hm) p hpr
  rw [hpk] at hallows
  exact absurd hallows (by simp [show Kind.sunSpecRoot = TreeKind.sunSpec.rootKind from rfl,
    Kind.not_allows_rootKind])

theorem sum_room (hs : t.Settles) {m : Node} (hm : m ∈ t.all) (hk : m.kind = .sunSpecModel) :
    (m.all.map (Lookup.room t)).sum = Layout.modelLength t m := by
  have hsun : t.kind = .sunSpec := by rw [kind_of_mem ht hm, hk]; rfl
  let fixed (n : Node) : Int := if n.kind = .fixedBlock then t.total n.children else 0
  have hup : ∀ k : Kind, k.allows .fixedBlock = true → k = .sunSpecModel := by
    intro k; cases k <;> decide
  have hrooms : ∀ p ∈ m.all, (p.children.map (Lookup.room t)).sum = fixed p := by
    intro p hp
    have hpt := Node.mem_all_trans hp hm
    rw [List.map_congr_left fun c hc => room_of_child ht hs hsun hpt hc]
    by_cases hpk : p.kind = .fixedBlock
    · simp [fixed, hpk, total, List.sum_eq_foldr]
    · simp [fixed, hpk]
  have hdeeper : ∀ c ∈ m.children, ∀ q ∈ c.all, (q.children.map fixed).sum = 0 := by
    intro c hc q hq
    refine List.sum_eq_zero fun i hi => ?_
    obtain ⟨d, hd, rfl⟩ := List.mem_map.1 hi
    refine if_neg fun hdk => ?_
    have hqm := Node.mem_all_trans hq (Node.mem_all_of_child hc)
    have hqk := hup _ (hdk ▸ ht.allowed q (Node.mem_all_trans hqm hm) d hd)
    rw [eq_of_sunSpecModel ht hm hk hqm hqk] at hq
    exact absurd (Node.length_all_le hq) (by have := Node.length_all_lt_of_child hc; omega)
  have hself : Lookup.room t m = 0 := by
    simp [Lookup.room, Lookup.isLaidOut, hk, Kind.isPoint, Kind.isBlockReference]
  have hblocks : (m.all.map fixed).sum = (m.children.map fixed).sum := by
    have hnone : ((m.children.flatMap Node.all).map fun q => (q.children.map fixed).sum).sum = 0 := by
      refine List.sum_eq_zero fun i hi => ?_
      obtain ⟨q, hq, rfl⟩ := List.mem_map.1 hi
      obtain ⟨c, hc, hqc⟩ := List.mem_flatMap.1 hq
      exact hdeeper c hc q hqc
    rw [Node.sum_all, Node.all_eq, List.map_cons, List.sum_cons, hnone]
    simp [fixed, hk]
  rw [Node.sum_all, hself, Int.zero_add, List.map_congr_left hrooms, hblocks, Layout.modelLength,
    ← List.sum_eq_foldr, sum_map_filter]
  simp [fixed]

end Tree

/-- In a tree whose layout comes to an end and is up to date, the strict length of a model is found
exactly if each point and bit field below the model, but for those of headers and the reference points of
tables, has a type that fits its size; and it is the length that the layout has given the model. -/
theorem length_ok_iff {t : Tree} (ht : t.Valid) (hu : t.UpToDate) (hs : t.Settles) (l : Lookup) {m : Node}
    (hm : m ∈ t.all) (hk : m.kind = .sunSpecModel) :
    ((∃ size, l.length t m.uuid = .ok size) ↔
      ∀ b ∈ m.all, b.kind ≠ .headerBlock → b.kind ≠ .sunSpecTable →
        ∀ p ∈ b.children, p.kind = .dataPoint ∨ p.kind = .dataPointBitfield → l.Fits p) ∧
    ∀ size, l.length t m.uuid = .ok size → m.data.int? .length = some size := by
  have hsun : t.kind = .sunSpec := by rw [Tree.kind_of_mem ht hm, hk]; rfl
  have hpoint : ∀ k : Kind, k.tree = .sunSpec →
      (k.isPoint = true ↔ k = .dataPoint ∨ k = .dataPointBitfield) := by
    intro k; cases k <;> decide
  have hall := Tree.descendants_of_mem ht.nodup hm
  constructor
  · rw [Lookup.exists_length_iff, hall]
    constructor
    · intro h b hb hheader htable p hp hpk
      have hbt := Node.mem_all_trans hb hm
      have hpt := Tree.mem_all_of_child hbt hp
      refine h p (Node.mem_all_trans (Node.mem_all_of_child hp) hb)
        ((Tree.isLaidOut_of_child ht hbt hp).2 ⟨?_, hheader, htable, fun hmodbus => ?_⟩)
      · exact (hpoint _ (by rw [← Tree.kind_of_mem ht hpt, hsun])).2 hpk
      · have htree := Tree.kind_of_mem ht hbt
        rw [hsun, hmodbus] at htree
        cases htree
    · intro h p hp hlaid
      have hpm : p ≠ m := by
        rintro rfl
        simp [Lookup.isLaidOut, hk, Kind.isPoint] at hlaid
      obtain ⟨b, hb, hpb⟩ := Node.exists_parent hp hpm
      obtain ⟨hpk, hheader, htable, -⟩ :=
        (Tree.isLaidOut_of_child ht (Node.mem_all_trans hb hm) hpb).1 hlaid
      have htree := Tree.kind_of_mem ht (Node.mem_all_trans hp hm)
      exact h b hb hheader htable p hpb ((hpoint _ (htree.symm.trans hsun)).1 hpk)
  · intro size hsize
    rw [Lookup.length_eq_sum hsize, hall, Tree.sum_room ht hs hm hk]
    exact Tree.int?_of_mem_layout ht hu.holds hm
      (Tree.model_subset_layout ht hm hk (List.mem_append_right _ (List.mem_singleton_self _)))

/-- A model with a bit field and two references to one repeating block, whose point takes `size`
registers. Neither its header point nor the reference point of its table has a type. -/
def modelOfParts (size : Int) : Tree :=
  let field : Data := .of .dataPointBitfield [(.pointType, .uuid ⟨3⟩), (.size, .integer 1)]
  let loose : Data := .of .dataPoint [(.size, .integer 7)]
  let block : Data := .of .tableRepeatingBlockReference [(.original, .uuid ⟨21⟩)]
  let standIn : Data := .of .tableRepeatingBlockReferenceDataPointReference [(.original, .uuid ⟨22⟩)]
  let t : Tree := ⟨.sunSpec, ⟨⟨10⟩, .initial .sunSpecRoot, [⟨⟨11⟩, .initial .sunSpecModel,
    [⟨⟨12⟩, .initial .headerBlock, [.leaf ⟨13⟩ loose]⟩,
      ⟨⟨14⟩, .initial .fixedBlock,
        [⟨⟨15⟩, block, [.leaf ⟨16⟩ standIn]⟩, .leaf ⟨17⟩ field, ⟨⟨18⟩, block, [.leaf ⟨19⟩ standIn]⟩]⟩,
      ⟨⟨20⟩, .initial .sunSpecTable, [.leaf ⟨23⟩ loose, ⟨⟨21⟩, .initial .tableRepeatingBlock,
        [.leaf ⟨22⟩ ((longPoint .dataPoint).put .size (.integer size))]⟩]⟩]⟩]⟩⟩
  t.placeAll t.layout

theorem length_ok_iff_modelOfParts :
    (∃ size, Lookup.length [pointTypes, modelOfParts 2] (modelOfParts 2) ⟨11⟩ = .ok size ∧
      ∃ m ∈ (modelOfParts 2).all, m.data.int? .length = some size) ∧
    ∃ m ∈ (modelOfParts 3).all, ¬∀ b ∈ m.all, b.kind ≠ .headerBlock → b.kind ≠ .sunSpecTable →
      ∀ p ∈ b.children, p.kind = .dataPoint ∨ p.kind = .dataPointBitfield →
        Lookup.Fits [pointTypes, modelOfParts 3] p := by
  have hsettles : ∀ i ∈ ([2, 3] : List Int), (modelOfParts i).Settles := by
    have hsizes : ∀ i ∈ ([2, 3] : List Int), ∀ n ∈ (modelOfParts i).all,
        ((modelOfParts i).sizeWithin 2 n).isSome = true := by decide +kernel
    exact fun i hi n hn => ⟨2, hsizes i hi n hn⟩
  have hu : ∀ i ∈ ([2, 3] : List Int), (modelOfParts i).UpToDate := by
    have hholds : ∀ i ∈ ([2, 3] : List Int), (modelOfParts i).Holds (modelOfParts i).layout := by
      decide +kernel
    have hstep : ∀ i ∈ ([2, 3] : List Int), ∀ r ∈ (modelOfParts i).all,
        r.kind = .tableRepeatingBlockReference → r.children.map (·.ref? .original) =
          ((modelOfParts i).referencedPoints r).map some := by decide +kernel
    exact fun i hi => ⟨hholds i hi, hstep i hi⟩
  have hfind : ∀ i ∈ ([2, 3] : List Int), ∃ m ∈ (modelOfParts i).all, m.uuid = ⟨11⟩ ∧
      m.kind = .sunSpecModel := by decide +kernel
  constructor
  · obtain ⟨m, hm, hmu, hmk⟩ := hfind 2 (by simp)
    obtain ⟨size, hsize⟩ := Option.isSome_iff_exists.1 (show
      (Lookup.length [pointTypes, modelOfParts 2] (modelOfParts 2) ⟨11⟩).toOption.isSome = true by
        decide +kernel)
    rw [← Option.mem_def, mem_toOption_iff] at hsize
    exact ⟨size, hsize, m, hm, (length_ok_iff (by decide +kernel) (hu 2 (by simp)) (hsettles 2 (by simp))
      [pointTypes, modelOfParts 2] hm hmk).2 size (hmu ▸ hsize)⟩
  · obtain ⟨m, hm, hmu, hmk⟩ := hfind 3 (by simp)
    have hfails : (Lookup.length [pointTypes, modelOfParts 3] (modelOfParts 3) ⟨11⟩).toOption = none := by
      decide +kernel
    refine ⟨m, hm, fun h => ?_⟩
    obtain ⟨size, hsize⟩ := (length_ok_iff (by decide +kernel) (hu 3 (by simp)) (hsettles 3 (by simp))
      [pointTypes, modelOfParts 3] hm hmk).1.2 h
    rw [hmu] at hsize
    rw [hsize] at hfails
    cases hfails

end DeviceModel
