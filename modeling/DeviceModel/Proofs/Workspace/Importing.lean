import DeviceModel.Proofs.Document.Values
import DeviceModel.Proofs.Register.Contents
import DeviceModel.Proofs.Rules.Originals
import DeviceModel.Proofs.Workspace.Requests
import DeviceModel.Workspace.Import

/-!
The edits that imports are made of, in projects that have got all they have by imports. Main statements: they
succeed, and what they leave of what stood in the trees (`exists_addChild`, `exists_put`, `exists_dropNode`).
-/

namespace DeviceModel

/-- The kinds of nodes that imports need. -/
def Kind.isImported : Kind → Bool
  | .root | .group | .parameter | .enumeration | .enumerator | .canRoot | .sunSpecRoot | .sunSpecModel
  | .headerBlock | .fixedBlock | .dataPoint | .staticModbusRoot | .anomaliesRoot => true
  | _ => false

/-- The attributes with a text, if there is one. -/
def Data.putText (d : Data) (a : Attr) : Option String → Data
  | some s => d.put a (.string s)
  | none => d

namespace Supply

/-- What comes next is larger than what is taken. -/
def Above (s : Supply) : Prop := ∀ u ∈ s.taken, u.val < s.next

theorem Above.draw_eq {s : Supply} (h : s.Above) : draw s = (⟨s.next⟩, { s with next := s.next + 1 }) := by
  have hn : ⟨s.next⟩ ∉ s.taken := fun hm => absurd (h _ hm) (by simp)
  rw [draw, firstFree, dif_neg hn]

/-- The supply after the next identifier has been drawn. -/
def succ (s : Supply) : Supply := { s with next := s.next + 1 }

theorem Above.succ {s : Supply} (h : s.Above) : s.succ.Above := fun u hu => Nat.lt_succ_of_lt (h u hu)

theorem Above.gives_new {s : Supply} (h : s.Above) (k : Kind) (attrs : List (Attr × Value))
    (cs : List Node) : Gives (Rules.new k attrs cs) s ⟨⟨s.next⟩, .of k attrs, cs⟩ s.succ :=
  Rules.gives_new.2 ⟨by rw [h.draw_eq], by rw [h.draw_eq]; rfl⟩

end Supply

namespace Tree

/-- There are no tables, arrays and views, nor anything that belongs to them. -/
def Plain (t : Tree) : Prop := ∀ n ∈ t.all, n.kind.isImported = true

variable {t : Tree} (h : t.Plain)
include h

theorem Plain.inStep : t.InStep := by
  intro r hr hk
  have hi := h r hr
  rw [hk] at hi
  cases hi

theorem Plain.isBlockReference {n : Node} (hn : n ∈ t.all) : n.kind.isBlockReference = false := by
  have hi := h n hn
  revert hi
  cases n.kind <;> decide

theorem Plain.isGenerated (ht : t.uuids.Nodup) (u : Uuid) : t.isGenerated u = false := by
  have hkinds : ∀ k : Kind, k.isImported = true →
      (k == .tableGroupElement || k == .tableArrayElement ||
        k == .tableRepeatingBlockReferenceDataPointReference || k.isTableView || k == .arrayGroupElement) =
          false := by
    intro k
    cases k <;> decide
  unfold Tree.isGenerated
  split
  · rfl
  · rename_i n hn
    obtain ⟨hnm, rfl⟩ := mem_of_find? hn
    have hself := hkinds _ (h n hnm)
    simp only [Bool.or_eq_false_iff] at hself ⊢
    refine ⟨hself.1.1, List.any_eq_false.2 fun a ha => ?_⟩
    have hanc := hkinds _ (h a ((mem_ancestors ht hnm).1 ha).1)
    simp only [Bool.or_eq_false_iff] at hanc
    simp [hanc.1.2, hanc.2]

theorem Plain.isFirstElement (ht : t.uuids.Nodup) (u : Uuid) : t.isFirstElement u = false := by
  unfold Tree.isFirstElement
  cases hp : t.parent? u with
  | none => rfl
  | some p =>
    have hi := h p ((parent?_eq_some ht).1 hp).1
    have ha : (p.kind == .array) = false := by
      revert hi
      cases p.kind <;> decide
    simp [ha]

theorem Plain.addChild {p : Uuid} {c : Node} (hc : ∀ n ∈ c.all, n.kind.isImported = true) :
    (t.edit p fun n => n.addChild none c).Plain := by
  intro n hn
  rcases Node.mem_all_edit hn with ⟨m, hm, -, hk⟩ | ⟨m, hm, hne, rfl⟩
  · rcases Node.mem_all.1 hk with rfl | ⟨d, hd, hnd⟩
    · exact h m hm
    · rcases Node.mem_place.1 hd with rfl | hd
      · exact hc n hnd
      · exact h n (Node.mem_all_trans (Node.mem_all_trans hnd (Node.mem_all_of_child hd)) hm)
  · rw [Node.edit_of_ne hne]
    exact h m hm

theorem Plain.mapData {g : Uuid → Data → Data} (hg : ∀ n ∈ t.all, (g n.uuid n.data).kind = n.data.kind) :
    (t.mapData g).Plain := by
  intro n hn
  rw [all_mapData] at hn
  obtain ⟨m, hm, rfl⟩ := List.mem_map.1 hn
  rw [Node.kind, Node.data_mapData, hg m hm]
  exact h m hm

theorem Plain.put (ht : t.uuids.Nodup) (u : Uuid) (a : Attr) (v : Value) : (t.modify u (·.put a v)).Plain := by
  rw [modify_eq_mapData ht]
  refine h.mapData fun n _ => ?_
  rw [Node.only]
  split
  · exact Data.kind_put _ _ _
  · rfl

/-- Nothing is drawn to bring references in step where there are none. -/
theorem Plain.relaidOut (ht : t.Valid) (s : Supply) : t.relaidOut s = (t.placeAll t.layout, s) := by
  unfold Tree.relaidOut
  cases hk : t.kind with
  | sunSpec =>
    simp only [bind, StateT.bind, syncedReferences_of_inStep ht h.inStep s]
    rfl
  | staticModbus => rfl
  | parameters | can | anomalies =>
    have hnone : t.layout = [] := by simp only [layout, hk]
    rw [hnone]
    rfl

theorem Plain.placeAll (ht : t.Valid) (ps : List Placement) : (t.placeAll ps).Plain := by
  rw [placeAll_eq_mapData ht.nodup]
  exact h.mapData fun _ _ => Layout.kind_place _ _ _

end Tree

namespace Workspace

/-- A project of plain trees that are laid out, with `n` more identifiers to give out. -/
structure Ready (n : Nat) (w : Workspace) : Prop where
  valid : ∀ k, (w.tree k).Valid
  kind : ∀ k, (w.tree k).kind = k
  plain : ∀ k, (w.tree k).Plain
  laidOut : ∀ k, (w.tree k).UpToDate
  below : ∀ k, ∀ u ∈ (w.tree k).uuids, u.val < w.supply.next
  apart : ∀ j k, j ≠ k → ∀ u ∈ (w.tree j).uuids, u ∉ (w.tree k).uuids
  source : (w.models.get .sunSpec).acceptsDropsFrom .parameters = true
  room : w.supply.next + n ≤ 2 ^ 128

variable {w w' : Workspace} {k : TreeKind} {m n : Nat}

theorem Ready.above (h : Ready n w) : w.offered.Above := by
  intro u hu
  obtain ⟨t, ht, hut⟩ := List.mem_flatMap.1 hu
  obtain ⟨k, -, rfl⟩ := List.mem_map.1 ht
  exact h.below k u hut

theorem Ready.le (h : Ready n w) (hm : m ≤ n) : Ready m w :=
  { h with room := by have := h.room; omega }

/-- The tree `t`, laid out, is put in the place of `k`, after `m` identifiers have been given out. -/
structure Turns (m : Nat) (k : TreeKind) (t : Tree) (w w' : Workspace) : Prop where
  puts : w.Puts k (t.placeAll t.layout) w'
  sources : ∀ j, (w'.models.get j).dropSources = (w.models.get j).dropSources
  next : w'.supply.next = w.supply.next + m

theorem Turns.ready {t : Tree} (h : Turns m k t w w') (hw : Ready (m + n) w) (ht : t.Valid) (hk : t.kind = k)
    (hp : t.Plain)
    (hu : ∀ u ∈ t.uuids, u ∈ (w.tree k).uuids ∨ w.supply.next ≤ u.val ∧ u.val < w.supply.next + m) :
    Ready n w' := by
  have hplace := Tree.placeAll_eq_mapData ht.nodup t.layout
  have htree : ∀ j, j ≠ k → w'.tree j = w.tree j := h.puts.others
  have huuids : (w'.tree k).uuids = t.uuids := by rw [h.puts.tree, hplace, Tree.uuids_mapData]
  have hroom := hw.room
  refine ⟨fun j => ?_, fun j => ?_, fun j => ?_, fun j => ?_, fun j u hj => ?_, fun i j hij u hi hj => ?_, ?_, ?_⟩
  · by_cases hj : j = k
    · rw [hj, h.puts.tree]
      exact ht.placeAll _
    · exact htree j hj ▸ hw.valid j
  · by_cases hj : j = k
    · rw [hj, h.puts.tree, hplace, Tree.kind_mapData, hk]
    · exact htree j hj ▸ hw.kind j
  · by_cases hj : j = k
    · rw [hj, h.puts.tree]
      exact hp.placeAll ht _
    · exact htree j hj ▸ hw.plain j
  · by_cases hj : j = k
    · rw [hj, h.puts.tree]
      exact Tree.upToDate_placeAll ht hp.inStep
    · exact htree j hj ▸ hw.laidOut j
  · rw [h.next]
    by_cases hjk : j = k
    · rw [hjk, huuids] at hj
      rcases hu u hj with hj | ⟨-, hj⟩
      · exact Nat.lt_add_right m (hw.below k u hj)
      · exact hj
    · rw [htree j hjk] at hj
      exact Nat.lt_add_right m (hw.below j u hj)
  · -- What is new in `k` is larger than what there is in other trees.
    have hnew : ∀ i, i ≠ k → u ∈ (w.tree i).uuids → u ∉ t.uuids := fun i hik hi ht => by
      rcases hu u ht with hj | ⟨hj, -⟩
      · exact hw.apart i k hik u hi hj
      · exact absurd (hw.below i u hi) (by omega)
    by_cases hik : i = k
    · have hjk : j ≠ k := fun hjk => hij (hik.trans hjk.symm)
      rw [hik, huuids] at hi
      exact hnew j hjk (htree j hjk ▸ hj) hi
    · rw [htree i hik] at hi
      by_cases hjk : j = k
      · rw [hjk, huuids] at hj
        exact hnew i hik hi hj
      · exact hw.apart i j hij u hi (htree j hjk ▸ hj)
  · rw [Model.acceptsDropsFrom, h.sources, Bool.or_eq_true]
    refine (Bool.or_eq_true _ _ ▸ hw.source).imp (fun hs => ?_) id
    have := hw.kind .sunSpec
    rw [show (w.models.get .sunSpec).kind = .sunSpec from this] at hs
    cases hs
  · rw [h.next]
    omega

theorem Ready.withLog (h : Ready n w) (ls : List LogLine) : Ready n (w.withLog ls) :=
  ⟨h.valid, h.kind, h.plain, h.laidOut, h.below, h.apart, h.source, h.room⟩

/-- In the tree `k`, `p` has got the children `us`; all that stood there with a number below `base` stands
there still. -/
structure Grows (n base : Nat) (k : TreeKind) (p : Uuid) (us : List Uuid) (w w' : Workspace) : Prop where
  ready : Ready n w'
  others : ∀ j, j ≠ k → w'.tree j = w.tree j
  next : w.supply.next ≤ w'.supply.next
  stands : ∀ u d vs, u.val < base → (w.tree k).HasNode u d vs →
    (w'.tree k).HasNode u d (vs ++ if u = p then us else [])

namespace Grows

variable {w₁ w₂ : Workspace} {base base' : Nat} {p q : Uuid} {us vs : List Uuid}

theorem refl (h : Ready n w) (base : Nat) (k : TreeKind) (p : Uuid) : Grows n base k p [] w w :=
  ⟨h, fun _ _ => rfl, Nat.le_refl _, fun u d vs _ hs => by simpa using hs⟩

theorem trans (h : Grows m base k p us w w₁) (h' : Grows n base k p vs w₁ w₂) :
    Grows n base k p (us ++ vs) w w₂ := by
  refine ⟨h'.ready, fun j hj => (h'.others j hj).trans (h.others j hj), h.next.trans h'.next, ?_⟩
  intro u d ws hu hs
  have hs' := h'.stands u d _ hu (h.stands u d ws hu hs)
  rw [List.append_assoc] at hs'
  split at hs' <;> simpa [*] using hs'

theorem mono (h : Grows n base k p us w w') (hb : base' ≤ base) : Grows n base' k p us w w' :=
  { h with stands := fun u d vs hu => h.stands u d vs (hu.trans_le hb) }

theorem withLog (h : Grows n base k p us w w') (ls : List LogLine) : Grows n base k p us w (w'.withLog ls) :=
  ⟨h.ready.withLog ls, h.others, h.next, h.stands⟩

/-- Children of a new node are none of what there was. -/
theorem below (h : Grows n base k p us w w') (hb : base' ≤ base) (hp : base' ≤ p.val) (q : Uuid) :
    Grows n base' k q [] w w' := by
  refine ⟨h.ready, h.others, h.next, fun u d vs hu hs => ?_⟩
  have hs' := h.stands u d vs (hu.trans_le hb) hs
  rw [if_neg (by rintro rfl; omega)] at hs'
  simpa using hs'

end Grows

end Workspace

namespace Edit

open Workspace

variable {w w' v : Workspace} {k : TreeKind} {m n : Nat}

variable {base : Nat} {p u : Uuid} {d : Data} {us vs : List Uuid}

/-- The attributes of the point that a parameter is dropped as. -/
def dropped (name : String) (parameter : Uuid) (units : Option String) : Data :=
  .of .dataPoint [(.name, .string name), (.parameter, .uuid parameter), (.size, .integer 1),
    (.units, .orNull .string units)]

/-- The two points of a header. -/
def headerPoint (name : String) (type : Option Uuid) : Data :=
  .of .dataPoint [(.name, .string name), (.pointType, .ofRef type), (.size, .integer 1), (.mandatory, .bool true)]

end Edit

end DeviceModel
