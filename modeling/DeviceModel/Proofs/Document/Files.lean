import DeviceModel.Proofs.Document.RoundTrip
import DeviceModel.Proofs.Register.Keys
import DeviceModel.Workspace.Model

/-!
Trees and models in files. Main statement: what is saved is loaded again, with the offsets that files do
not keep computed anew (`load_save`).
-/

namespace DeviceModel

namespace Node

theorem toJson_stored (n : Node) : (n.mapData fun _ d => d.stored).toJson = n.toJson := by
  induction n using inductOn with
  | h n ih =>
    have hc : (n.children.map (mapData fun _ d => d.stored)).map toJson = n.children.map toJson := by
      rw [List.map_map]
      exact List.map_congr_left ih
    rw [toJson_eq, toJson_eq, members, members, children_mapData, hc, uuid_mapData, kind_mapData,
      data_mapData, Data.members_stored]
    rfl

/-- The document of a node of storable values can be read as it is written. -/
theorem plain_toJson {n : Node} (h : n.Storable) : n.toJson.Plain := by
  induction n using inductOn with
  | h n ih =>
    have hd := (h n n.mem_all_self).2
    rw [toJson_eq]
    refine .object n.nodup_keys_members fun m hm => ?_
    rw [members, List.mem_append, List.mem_cons, List.mem_cons] at hm
    rcases hm with (rfl | hm) | rfl | hm
    · exact .string _
    · obtain ⟨e, he, hp, rfl⟩ := Data.mem_members.1 hm
      exact Value.plain_toJson (hd e he hp)
    · exact .string _
    · cases hk : n.kind.hasChildren with
      | false => simp [hk] at hm
      | true =>
        rw [hk, if_pos rfl, List.mem_singleton] at hm
        subst hm
        refine .array fun j hj => ?_
        obtain ⟨c, hc, rfl⟩ := List.mem_map.1 hj
        exact ih c hc (h.of_mem (mem_all_of_child hc))

end Node

namespace Tree

/-- The tree as it comes back from a file: transient attributes begin anew. -/
def stored (t : Tree) : Tree := t.mapData fun _ d => d.stored

/-- Every value that files keep has a written form, and nesting is not deeper than can be read. -/
structure Storable (t : Tree) : Prop where
  values : t.root.Storable
  depth : t.root.toJson.depth ≤ Json.maxDepth

theorem Valid.stored {t : Tree} (ht : t.Valid) : t.stored.Valid := ht.mapData fun _ _ => rfl

theorem text_stored (t : Tree) : t.stored.text = t.text :=
  congrArg (Json.indented 4) t.root.toJson_stored

theorem line_stored (t : Tree) : t.stored.line = t.line := congrArg Json.compact t.root.toJson_stored

/-- A tree is read from any text of its document. -/
theorem ofText_of_writes {t : Tree} (ht : t.Valid) (hs : t.Storable) {cs : List Char}
    (hw : Json.Writes t.root.toJson cs) {others : List Tree}
    (ho : ∀ o ∈ others, ∀ u ∈ t.uuids, u ∉ o.uuids) (s : Supply) :
    ∃ s', ofText (String.ofList cs) t.kind others s = .ok (t.stored, s') := by
  have hjson := Json.ofText?_of_writes hw (Node.plain_toJson hs.values) hs.depth
  have htree : t.root.kind.tree = t.kind := by rw [ht.root, TreeKind.tree_rootKind]
  have hread := Document.read_toJson ht.allowedRoot hs.values []
  rw [htree] at hread
  have hkind : t.root.draft.data.kind = t.kind.rootKind := by
    rw [Node.draft_eq]
    exact ht.root
  have hdraft : Draft.ofText (String.ofList cs) t.kind = .ok t.root.draft := by
    simp only [Draft.ofText, hjson, hread, if_pos hkind]
  have hnew : ∀ u ∈ t.root.uuids, u ∉ others.flatMap uuids := by
    intro u hu hm
    obtain ⟨o, hom, huo⟩ := List.mem_flatMap.1 hm
    exact ho o hom u hu huo
  have hcollect := Draft.collect_draft ht.nodup_root hnew []
  have hroot := ofRoot?_of_valid ht.stored
  have hcomplete := fun s => Draft.fill_draft t.root s
  refine ⟨s.avoiding (t.root.uuids.reverse ++ others.flatMap uuids ++ s.taken), ?_⟩
  simp only [ofText, hdraft, bind, Except.bind, Draft.complete, hcollect, hcomplete]
  rw [show ofRoot? t.kind (t.root.mapData fun _ d => d.stored) = .ok t.stored from hroot]
  rfl

theorem ofText_text {t : Tree} (ht : t.Valid) (hs : t.Storable) {others : List Tree}
    (ho : ∀ o ∈ others, ∀ u ∈ t.uuids, u ∉ o.uuids) (s : Supply) :
    ∃ s', ofText t.text t.kind others s = .ok (t.stored, s') :=
  ofText_of_writes ht hs (Json.writes_indentedChars (Node.plain_toJson hs.values) 4 0) ho s

theorem ofText_line {t : Tree} (ht : t.Valid) (hs : t.Storable) {others : List Tree}
    (ho : ∀ o ∈ others, ∀ u ∈ t.uuids, u ∉ o.uuids) (s : Supply) :
    ∃ s', ofText t.line t.kind others s = .ok (t.stored, s') :=
  ofText_of_writes ht hs (Json.writes_compactChars (Node.plain_toJson hs.values)) ho s

/-! ### Offsets that files do not keep -/

theorem keeps_stored (n : Node) : Layout.Keeps (fun _ d => d.stored) n := by
  have persisted : ∀ k : Kind, ∀ a ∈ [Attr.original, .size], ∀ f ∈ k.field? a, f.persisted = true := by
    intro k; cases k <;> decide
  exact ⟨rfl, Data.get?_stored_of_persisted (persisted _ _ (by simp)),
    fun _ => Data.get?_stored_of_persisted (persisted _ _ (by simp))⟩

theorem layout_stored (t : Tree) : t.stored.layout = t.layout :=
  Layout.layout_mapData fun n _ => keeps_stored n

theorem persists_stored (t : Tree) (p : Placement) : t.stored.persists p = t.persists p := by
  rw [persists, persists, stored, find?_mapData]
  cases t.find? p.uuid with
  | none => rfl
  | some n =>
    simp only [Option.map_some, Option.bind_eq_bind, Option.bind_some, Node.kind_mapData]
    rfl

theorem stored_stored (t : Tree) : t.stored.stored = t.stored := by
  rw [stored, stored, mapData_mapData]
  exact mapData_congr fun n _ => Data.stored_stored n.data

/-- Where a file has lost an offset, the layout gives it again. -/
theorem get?_refreshed {t : Tree} (ht : t.Valid) {p : Placement} (hp : p ∈ t.layout)
    (hpp : t.persists p = false) {n : Node} (hn : t.find? p.uuid = some n)
    (hf : (n.kind.field? p.attr).isSome = true) :
    ∃ m, t.stored.refreshed.find? p.uuid = some m ∧ m.data.get? p.attr = some (.integer p.value) := by
  have hw := within_layout ht
  have hmem : p ∈ t.layout.filter fun q => !t.stored.persists q := by
    rw [List.mem_filter, persists_stored, hpp]
    exact ⟨hp, rfl⟩
  have hu := (mem_of_find? hn).2
  rw [refreshed, layout_stored, placeAll_eq_mapData ht.stored.nodup, find?_mapData, stored,
    find?_mapData, hn]
  refine ⟨_, rfl, ?_⟩
  rw [Node.data_mapData, Node.data_mapData, Node.uuid_mapData, hu]
  refine Layout.get?_place hmem (hw.laidOut p hp) (fun q hq hqu hqa => ?_) hf
  exact hw.agree hp (List.mem_of_mem_filter hq) hqu hqa

theorem place_stored {ps : List Placement} {u : Uuid} {d : Data}
    (h : ∀ p ∈ ps, p.uuid = u → ∀ f ∈ d.kind.field? p.attr, f.persisted = false) :
    (Layout.place ps u d).stored = d.stored := by
  induction ps generalizing d with
  | nil => rfl
  | cons p ps ih =>
    rw [Layout.place_cons]
    split
    · rename_i hu
      rw [ih fun q hq hqu => by rw [Data.kind_put]; exact h q (by simp [hq]) hqu]
      exact Data.stored_put (h p (by simp) hu) _
    · exact ih fun q hq hqu => h q (by simp [hq]) hqu

/-- Computing offsets changes nothing that files keep. -/
theorem stored_refreshed {t : Tree} (ht : t.uuids.Nodup) : t.refreshed.stored = t.stored := by
  rw [refreshed, placeAll_eq_mapData ht, stored, stored, mapData_mapData]
  refine mapData_congr fun n hn => place_stored fun p hp hu f hf => ?_
  have hpers := (List.mem_filter.1 hp).2
  rw [persists, hu, find?_of_mem ht hn] at hpers
  have hnf : n.kind.field? p.attr = some f := hf
  simpa [hnf] using hpers

end Tree

namespace Model

theorem ofText_eq {text : String} {t : Tree} {k : TreeKind} {others : List Tree} {s s' : Supply}
    (h : Tree.ofText text k others s = .ok (t, s')) :
    ofText text k others s = .ok ({ tree := t.refreshed }, s') := by
  rw [ofText, h]
  rfl

end Model

/-- A tree that is saved, on one line or indented, is loaded again as it was, its transient attributes
begun anew, and then gives the same text; and a model with its layout up to date has its offsets back. -/
theorem Tree.load_save {t : Tree} (ht : t.Valid) (hs : t.Storable) {others : List Tree}
    (ho : ∀ o ∈ others, ∀ u ∈ t.uuids, u ∉ o.uuids) (s : Supply) :
    (∃ s', Tree.ofText t.text t.kind others s = .ok (t.stored, s')) ∧
    (∃ s', Tree.ofText t.line t.kind others s = .ok (t.stored, s')) ∧
    t.stored.text = t.text ∧ t.stored.line = t.line ∧
    (t.Holds t.layout → ∃ m : Model,
      (∃ s', Model.ofText t.text t.kind others s = .ok (m, s')) ∧
      (∃ s', Model.ofText t.line t.kind others s = .ok (m, s')) ∧
      m.tree.stored = t.stored ∧
      ∀ p ∈ t.layout, t.persists p = false → ∀ n, t.find? p.uuid = some n →
        ∃ n', m.tree.find? p.uuid = some n' ∧ n'.data.get? p.attr = n.data.get? p.attr) := by
  obtain ⟨st, htext⟩ := ofText_text ht hs ho s
  obtain ⟨sl, hline⟩ := ofText_line ht hs ho s
  refine ⟨⟨st, htext⟩, ⟨sl, hline⟩, text_stored t, line_stored t, fun hlaid => ?_⟩
  refine ⟨{ tree := t.stored.refreshed }, ⟨st, Model.ofText_eq htext⟩, ⟨sl, Model.ofText_eq hline⟩, ?_, ?_⟩
  · exact (stored_refreshed ht.stored.nodup).trans (stored_stored t)
  · intro p hp hpp n hn
    obtain ⟨m, hm, hmu, hf⟩ := present_layout ht p hp
    obtain ⟨hnm, hnu⟩ := mem_of_find? hn
    obtain rfl := Node.eq_of_uuid ht.nodup hnm hm (hnu.trans hmu.symm)
    rw [hlaid p hp n hm hmu hf]
    exact get?_refreshed ht hp hpp hn hf

/-- A model of one point behind two registers, laid out. -/
def Tree.onePoint : Tree :=
  let point : Data := .of .dataPoint [(.name, .string "W"), (.size, .integer 1)]
  let gap : Data := .of .dataPoint [(.name, .string "A"), (.size, .integer 2)]
  ⟨.sunSpec, ⟨⟨1⟩, .initial .sunSpecRoot, [⟨⟨2⟩, .of .sunSpecModel [(.length, .integer 3)],
    [⟨⟨3⟩, .initial .fixedBlock, [.leaf ⟨4⟩ gap,
      .leaf ⟨5⟩ ((point.put .blockOffset (.integer 2)).put .offset (.integer 2))]⟩]⟩]⟩⟩

theorem Tree.load_save_onePoint :
    (onePoint.Valid ∧ onePoint.Storable ∧ onePoint.Holds onePoint.layout) ∧
      ∃ m : Model, m.tree.stored = onePoint.stored ∧
        ∀ p ∈ onePoint.layout, onePoint.persists p = false → ∀ n, onePoint.find? p.uuid = some n →
          ∃ n', m.tree.find? p.uuid = some n' ∧ n'.data.get? p.attr = n.data.get? p.attr := by
  have hv : onePoint.Valid := ⟨rfl, by decide, by decide⟩
  have hs : onePoint.Storable := ⟨by decide, by decide⟩
  have hl : onePoint.Holds onePoint.layout := by decide
  have ho : ∀ o ∈ [Tree.initial .can ⟨6⟩], ∀ u ∈ onePoint.uuids, u ∉ o.uuids := by decide
  obtain ⟨m, -, -, hm⟩ := (load_save hv hs ho ⟨0, []⟩).2.2.2.2 hl
  exact ⟨⟨hv, hs, hl⟩, m, hm⟩

end DeviceModel
