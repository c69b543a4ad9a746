import DeviceModel.Expansion.View
import DeviceModel.Proofs.Schema.Attributes
import Mathlib

/-!
What the families of views have in common. Main statement: each keeps the rules that rebuilding relies
on (`Lawful`), in particular that a group or a leaf that is built again is what it was, up to where the
layout has placed it.
-/

namespace DeviceModel

namespace Data

/-- The same but for what a layout gives points and blocks. -/
structure Similar (d e : Data) : Prop where
  kind : d.kind = e.kind
  get? : ∀ a, a ≠ .offset → a ≠ .blockOffset → d.get? a = e.get? a

theorem Similar.refl (d : Data) : Similar d d := ⟨rfl, fun _ _ _ => rfl⟩

theorem Similar.symm {d e : Data} (h : Similar d e) : Similar e d :=
  ⟨h.kind.symm, fun a ho hb => (h.get? a ho hb).symm⟩

/-- The attributes of a point or block that has not been placed. -/
def unplaced (d : Data) : Data := (d.put .blockOffset (.integer 0)).put .offset (.integer 0)

/-- The attributes of a point or block at a place in its block, and in the map. -/
def placedAt (d : Data) (blockOffset offset : Int) : Data :=
  (d.put .blockOffset (.integer blockOffset)).put .offset (.integer offset)

@[simp] theorem kind_placedAt (d : Data) (i j : Int) : (d.placedAt i j).kind = d.kind := by simp [placedAt]

theorem similar_placedAt (d : Data) (i j : Int) : Similar (d.placedAt i j) d :=
  ⟨d.kind_placedAt i j, fun a ho hb => by
    rw [placedAt, get?_put_of_ne ho.symm, get?_put_of_ne hb.symm]⟩

theorem get?_placedAt {d : Data} (i j : Int) :
    ((d.kind.field? .blockOffset).isSome = true → (d.placedAt i j).get? .blockOffset = some (.integer i)) ∧
      ((d.kind.field? .offset).isSome = true → (d.placedAt i j).get? .offset = some (.integer j)) := by
  refine ⟨fun hb => ?_, fun ho => get?_put_integer rfl (by simpa using ho) j⟩
  rw [placedAt, get?_put_of_ne (a := .offset) (by decide)]
  exact get?_put_integer rfl hb i

/-- Places are all that there is to tell apart. -/
theorem Similar.eq_placedAt {d e : Data} (h : Similar e d) {i j : Int}
    (hb : (d.kind.field? .blockOffset).isSome = true → e.get? .blockOffset = some (.integer i))
    (ho : (d.kind.field? .offset).isSome = true → e.get? .offset = some (.integer j)) : e = d.placedAt i j := by
  have hplaced := get?_placedAt (d := d) i j
  have hnone : ∀ {a : Attr}, ¬(d.kind.field? a).isSome = true → e.get? a = (d.placedAt i j).get? a := by
    intro a ha
    rw [Option.not_isSome_iff_eq_none] at ha
    rw [get?_eq_none.2 (h.kind ▸ ha), get?_eq_none.2 (by simpa using ha)]
  refine ext_get? (h.kind.trans (d.kind_placedAt i j).symm) fun a => ?_
  by_cases ha : (d.kind.field? a).isSome = true
  · by_cases hao : a = .offset
    · subst hao
      rw [ho ha, hplaced.2 ha]
    · by_cases hab : a = .blockOffset
      · subst hab
        rw [hb ha, hplaced.1 ha]
      · rw [h.get? a hao hab, (d.similar_placedAt i j).get? a hao hab]
  · exact hnone ha

theorem Similar.placedAt {d e : Data} (h : Similar d e) (i j : Int) : d.placedAt i j = e.placedAt i j := by
  have hplaced := get?_placedAt (d := d) i j
  refine Similar.eq_placedAt ⟨by simp [h.kind], fun a ho hb => ?_⟩ (h.kind ▸ hplaced.1) (h.kind ▸ hplaced.2)
  rw [(d.similar_placedAt i j).get? a ho hb, h.get? a ho hb]

@[simp] theorem kind_unplaced (d : Data) : d.unplaced.kind = d.kind := d.kind_placedAt 0 0

theorem similar_unplaced (d : Data) : Similar d.unplaced d := d.similar_placedAt 0 0

theorem Similar.unplaced {d e : Data} (h : Similar d e) : d.unplaced = e.unplaced := h.placedAt 0 0

theorem Similar.int {d e : Data} (h : Similar d e) (a : Attr) (ho : a ≠ .offset)
    (hb : a ≠ .blockOffset) : d.int a = e.int a := by
  rw [Data.int, Data.int, Data.int?, Data.int?, h.get? a ho hb]

theorem Similar.put {d e : Data} (h : Similar d e) (a : Attr) (v : Value) :
    Similar (d.put a v) (e.put a v) := by
  refine ⟨by simp [h.kind], fun b ho hb => ?_⟩
  by_cases hab : a = b
  · subst hab
    exact get?_put_congr h.kind (h.get? a ho hb) v
  · rw [get?_put_of_ne hab, get?_put_of_ne hab, h.get? b ho hb]

/-- Kinds that are not laid out. -/
theorem Similar.eq {d e : Data} (h : Similar d e) (ho : d.kind.field? .offset = none)
    (hb : d.kind.field? .blockOffset = none) : d = e := by
  have hoe := h.kind ▸ ho
  have hbe := h.kind ▸ hb
  refine ext_get? h.kind fun a => ?_
  by_cases hao : a = .offset
  · rw [hao, get?_eq_none.2 ho, get?_eq_none.2 hoe]
  · by_cases hab : a = .blockOffset
    · rw [hab, get?_eq_none.2 hb, get?_eq_none.2 hbe]
    · exact h.get? a hao hab

theorem unplaced_of_field? {d : Data} (ho : d.kind.field? .offset = none)
    (hb : d.kind.field? .blockOffset = none) : d.unplaced = d := by
  rw [unplaced, put_of_field?_eq_none hb, put_of_field?_eq_none ho]

theorem unplaced_unplaced (d : Data) : d.unplaced.unplaced = d.unplaced :=
  (similar_unplaced d).unplaced

end Data

namespace Family

/-- The rules that rebuilding a view relies on. -/
structure Lawful (f : Family) : Prop where
  allows_point : f.view.allows f.point = true
  allows_group : f.view.allows f.group = true
  group_allows : f.group.allows f.point = true
  point_ne_group : f.point ≠ f.group
  view_ne : f.view ≠ f.point ∧ f.view ≠ f.group
  /-- Nothing but points and groups stands below a view. -/
  below : ∀ k child : Kind, k = f.view ∨ k = f.point ∨ k = f.group → k.allows child = true →
    child = f.point ∨ child = f.group
  kind_newSeed : ∀ s, (f.newSeed s).kind = f.point
  source_newSeed : ∀ s, sourceOf? (f.newSeed s) = some s.uuid
  name_newSeed : ∀ s, (f.newSeed s).put .name (.string (f.seedName s)) = f.newSeed s
  kind_groupData : ∀ name path i old, (f.groupData name path i old).kind = f.group
  path_groupData : ∀ name path i old, (f.groupData name path i old).path = path
  kind_leafData : ∀ l d i, (f.leafData l d i).kind = d.kind
  source_leafData : ∀ l d i, d.kind = f.point → sourceOf? (f.leafData l d i) = some l.uuid
  /-- A leaf is built unplaced, from what its reference point is but for its place. -/
  unplaced_leafData : ∀ l d i, d.kind = f.point → (f.leafData l d i).unplaced = f.leafData l d i
  leafData_similar : ∀ l d e i, d.kind = f.point → d.Similar e → f.leafData l d i = f.leafData l e i
  /-- A group that is built again is what it was before it was placed. -/
  groupData_again : ∀ name path i old, f.groupData name path i (some (f.groupData name path i old)) =
    (f.groupData name path i old).unplaced
  groupData_similar : ∀ name path i d e, d.Similar e →
    f.groupData name path i (some d) = f.groupData name path i (some e)
  tableOf_similar : ∀ d e, d.Similar e → f.tableOf? d = f.tableOf? e
  ready_similar : ∀ d e, d.Similar e → f.ready d = f.ready e
  fits_similar : ∀ d e, d.Similar e → f.fits d = f.fits e
  pack_similar : ∀ ds es, List.Forall₂ Data.Similar ds es → f.pack ds = f.pack es
  /-- No leaf is placed twice. -/
  nodup_pack : ∀ ds, ((f.pack ds).flatten.map Placed.index).Nodup

theorem tableOf?_similar {f : Family} (ho : f.link ≠ .offset) (hb : f.link ≠ .blockOffset) {d e : Data}
    (h : d.Similar e) : f.tableOf? d = f.tableOf? e := by
  rw [tableOf?, tableOf?, h.kind, Data.ref?, Data.ref?, h.get? _ ho hb]

theorem sourceOf?_put {d : Data} (hk : d.kind.field? .parameter = some (.ref .parameter Kind.sources))
    (u : Uuid) : sourceOf? (d.put .parameter (.uuid u)) = some u := by
  rw [sourceOf?, Data.ref?, Data.get?_put hk rfl]
  rfl

theorem sourceOf?_put_of_ne {d : Data} {a : Attr} (ha : a ≠ .parameter) (v : Value) :
    sourceOf? (d.put a v) = sourceOf? d := by
  rw [sourceOf?, sourceOf?, Data.ref?, Data.ref?, Data.get?_put_of_ne ha]

/-! ### Packing -/

theorem index_packTogether (ds : List Data) :
    (packTogether ds).flatten.map Placed.index = List.range ds.length := by
  simp [packTogether, Function.comp_def]

theorem addLast_ne_nil (p : Placed) {cs : List (List Placed)} (h : cs ≠ []) : addLast p cs ≠ [] := by
  rcases cs with _ | ⟨c, _ | ⟨d, cs⟩⟩
  · exact absurd rfl h
  · exact List.cons_ne_nil _ _
  · exact List.cons_ne_nil _ _

theorem flatten_addLast_of_ne_nil (p : Placed) {cs : List (List Placed)} (h : cs ≠ []) :
    (addLast p cs).flatten = cs.flatten ++ [p] := by
  induction cs with
  | nil => exact absurd rfl h
  | cons c cs ih =>
    cases cs with
    | nil => simp [addLast]
    | cons d cs =>
      have hne : addLast p (c :: d :: cs) = c :: addLast p (d :: cs) := rfl
      rw [hne, List.flatten_cons, ih (List.cons_ne_nil _ _), ← List.append_assoc]
      rfl

theorem flatten_addLast (p : Placed) (cs : List (List Placed)) :
    (addLast p cs).flatten.Sublist (cs.flatten ++ [p]) := by
  by_cases h : cs = []
  · subst h
    exact List.nil_sublist _
  · rw [flatten_addLast_of_ne_nil p h]

/-- Leaves are placed in their order, each at most once. -/
theorem index_packBits (chunks : List (List Placed)) (used : Int) (index : Nat) (ws : List Int) :
    ((packBits chunks used index ws).flatten.map Placed.index).Sublist
      (chunks.flatten.map Placed.index ++ List.range' index ws.length) := by
  induction ws generalizing chunks used index with
  | nil => simp [packBits]
  | cons w ws ih =>
    have step : ∀ (cs : List (List Placed)) (u i : Int), cs.flatten = chunks.flatten →
        ((packBits (addLast ⟨index, i⟩ cs) u (index + 1) ws).flatten.map Placed.index).Sublist
          (chunks.flatten.map Placed.index ++ List.range' index (ws.length + 1)) := by
      intro cs u i hcs
      have hadd := (flatten_addLast ⟨index, i⟩ cs).map Placed.index
      rw [hcs, List.map_append, List.map_singleton] at hadd
      rw [List.range'_succ, ← List.singleton_append, ← List.append_assoc]
      exact (ih _ _ _).trans (hadd.append_right _)
    rw [packBits, List.length_cons]
    split
    · exact step _ _ _ (by simp)
    · exact step _ _ _ rfl

theorem map_int_similar {ds es : List Data} (h : List.Forall₂ Data.Similar ds es) (a : Attr)
    (ho : a ≠ .offset) (hb : a ≠ .blockOffset) : ds.map (·.int a) = es.map (·.int a) := by
  induction h with
  | nil => rfl
  | cons h _ ih => rw [List.map_cons, List.map_cons, ih, h.int a ho hb]

/-! ### The families -/

theorem sourceOf?_of {k : Kind} {attrs : List (Attr × Value)} {u : Uuid}
    (hn : (attrs.map Prod.fst).Nodup) (hm : (.parameter, .uuid u) ∈ attrs)
    (hf : k.field? .parameter = some (.ref .parameter Kind.sources)) :
    sourceOf? (.of k attrs) = some u := by
  rw [sourceOf?, Data.ref?, Data.get?_of hn hm hf rfl]
  rfl

theorem coerce?_orNull_integer (o : Option Int) :
    (FieldType.mk .integer true false).coerce? (.orNull .integer o) = some (.orNull .integer o) := by
  cases o <;> rfl

theorem coerce?_orNull_string (o : Option String) :
    (FieldType.mk .string true false).coerce? (.orNull .string o) = some (.orNull .string o) := by
  cases o <;> rfl

/-- The attributes of a multiplexer that stands in the place of `old`. -/
def multiplexerAttrs (name : String) (path : List Uuid) (chunk : Nat) (old : Data) :
    List (Attr × Value) :=
  [(.name, .string (name ++ chunkSuffix chunk)), (.identifier, .integer (old.int .identifier)),
    (.length, .integer multiplexerLength), (.cycleTime, .orNull .integer (old.int? .cycleTime)),
    (.comment, .orNull .string (old.text? .comment)), (.path, .ofPath path)]

theorem groupData_can (name : String) (path : List Uuid) (i : Nat) (old : Option Data) :
    can.groupData name path i old =
      .of .multiplexer (multiplexerAttrs name path i (old.getD (.initial .multiplexer))) := (rfl)

theorem multiplexerAttrs_congr {name : String} {path : List Uuid} {i : Nat} {d e : Data}
    (hid : d.get? .identifier = e.get? .identifier) (hcycle : d.get? .cycleTime = e.get? .cycleTime)
    (hcomment : d.get? .comment = e.get? .comment) :
    multiplexerAttrs name path i d = multiplexerAttrs name path i e := by
  simp only [multiplexerAttrs, Data.int, Data.int?, Data.text?, hid, hcycle, hcomment]

/-- A multiplexer has the identifier, the cycle time and the comment of the one in whose place it
stands. -/
theorem multiplexerAttrs_of (name : String) (path : List Uuid) (i : Nat) (old : Data) {d : Data}
    (hid : d.int .identifier = old.int .identifier)
    (hd : ∀ a v w f, (a, v) ∈ multiplexerAttrs name path i old → a ≠ .identifier →
      Kind.multiplexer.field? a = some f → f.type.coerce? v = some w → d.get? a = some w) :
    multiplexerAttrs name path i d = multiplexerAttrs name path i old := by
  have hcycle : d.int? .cycleTime = old.int? .cycleTime := by
    rw [Data.int?, hd .cycleTime _ _ _ (by simp [multiplexerAttrs]) (by decide) rfl
      (coerce?_orNull_integer (old.int? .cycleTime))]
    cases old.int? .cycleTime <;> rfl
  have hcomment : d.text? .comment = old.text? .comment := by
    rw [Data.text?, hd .comment _ _ _ (by simp [multiplexerAttrs]) (by decide) rfl
      (coerce?_orNull_string (old.text? .comment))]
    cases old.text? .comment <;> rfl
  simp only [multiplexerAttrs, hid, hcycle, hcomment]

theorem nodup_multiplexerAttrs (name : String) (path : List Uuid) (i : Nat) (old : Data) :
    ((multiplexerAttrs name path i old).map Prod.fst).Nodup := by
  simp [multiplexerAttrs]

theorem multiplexer_again (name : String) (path : List Uuid) (i : Nat) (old : Option Data) :
    can.groupData name path i (some (can.groupData name path i old)) =
      can.groupData name path i old := by
  have hn := nodup_multiplexerAttrs name path i (old.getD (.initial .multiplexer))
  rw [groupData_can, groupData_can, Option.getD_some]
  refine congrArg _ (multiplexerAttrs_of name path i _ ?_ fun a v w f hm _ hf hw =>
    Data.get?_of hn hm hf hw)
  rw [Data.int, Data.int?, Data.get?_of (f := .hex .identifier) hn (by simp [multiplexerAttrs]; rfl)
    rfl rfl]
  rfl

theorem lawful_can : can.Lawful where
  allows_point := rfl
  allows_group := rfl
  group_allows := rfl
  point_ne_group := by decide
  view_ne := ⟨by decide, by decide⟩
  below := by
    rintro k child (rfl | rfl | rfl) <;> cases child <;> decide
  kind_newSeed := fun _ => Data.kind_of _ _
  source_newSeed := fun _ => sourceOf?_of (by simp) (by simp) rfl
  name_newSeed := fun s => Data.put_of_get?
    (Data.get?_of (f := .text .name) (by simp) (List.mem_cons_self ..) rfl rfl)
  kind_groupData := fun _ _ _ _ => Data.kind_of _ _
  path_groupData := fun _ _ _ _ => Data.path_of (by simp) (by simp) rfl
  kind_leafData := fun _ _ _ => by simp [can]
  source_leafData := fun l d i hd => sourceOf?_put (by simp [hd]; rfl) l.uuid
  unplaced_leafData := fun l d i hd =>
    Data.unplaced_of_field? (by simp [hd, can]; rfl) (by simp [hd, can]; rfl)
  leafData_similar := fun l d e i hd h => by rw [h.eq (by rw [hd]; rfl) (by rw [hd]; rfl)]
  groupData_again := fun name path i old => by
    rw [multiplexer_again, Data.unplaced_of_field?] <;> rw [groupData_can, Data.kind_of] <;> rfl
  groupData_similar := fun name path i d e h => by
    rw [groupData_can, groupData_can]
    refine congrArg _ (multiplexerAttrs_congr ?_ ?_ ?_) <;> exact h.get? _ (by decide) (by decide)
  tableOf_similar := fun d e h => tableOf?_similar (by simp [can]) (by simp [can]) h
  ready_similar := fun d e h => congrArg (fun i => decide (0 < i)) (h.int .bits (by decide) (by decide))
  fits_similar := fun d e h => congrArg (fun i => decide (i ≤ payloadBits)) (h.int .bits (by decide) (by decide))
  pack_similar := fun ds es h => congrArg (packBits [] payloadBits 0) (map_int_similar h .bits (by decide) (by decide))
  nodup_pack := fun ds => (index_packBits [] payloadBits 0 _).nodup (by simp [List.nodup_range'])

theorem similar_blockLeaf (l : Leaf) {d e : Data} (h : d.Similar e) : blockLeaf l d = blockLeaf l e :=
  (h.put .parameter (.uuid l.uuid)).unplaced

/-- The two families of repeating blocks differ in their kinds only. -/
theorem lawful_blocks {f : Family} (hlink : f.link = .parameterTable) (hseed : f.newSeed = blockSeed f.point)
    (hname : f.seedName = blockSeedName) (hready : f.ready = fun _ => true)
    (hfits : f.fits = fun _ => true) (hpack : f.pack = packTogether)
    (hgroup : f.groupData = fun name path _ _ => blockData f.group name path)
    (hleaf : f.leafData = fun l d _ => blockLeaf l d)
    (hallows : f.view.allows f.point = true ∧ f.view.allows f.group = true ∧
      f.group.allows f.point = true) (hne : f.point ≠ f.group ∧ f.view ≠ f.point ∧ f.view ≠ f.group)
    (hbelow : ∀ k child : Kind, k = f.view ∨ k = f.point ∨ k = f.group → k.allows child = true →
      child = f.point ∨ child = f.group)
    (hpoint : f.point.field? .name = some (.text .name) ∧
      f.point.field? .parameter = some (.ref .parameter Kind.sources))
    (hblock : f.group.field? .path = some .path ∧ f.group.field? .blockOffset = none ∧
      (Data.initial f.group).get? .offset = some (.integer 0)) : f.Lawful where
  allows_point := hallows.1
  allows_group := hallows.2.1
  group_allows := hallows.2.2
  point_ne_group := hne.1
  view_ne := hne.2
  below := hbelow
  kind_newSeed := fun s => by rw [hseed]; exact Data.kind_of _ _
  source_newSeed := fun s => by rw [hseed]; exact sourceOf?_of (by simp) (by simp) hpoint.2
  name_newSeed := fun s => by
    rw [hseed, hname]
    exact Data.put_of_get? (Data.get?_of (by simp) (List.mem_cons_self ..) hpoint.1 rfl)
  kind_groupData := fun name path i old => by rw [hgroup]; exact Data.kind_of _ _
  path_groupData := fun name path i old => by
    rw [hgroup]
    exact Data.path_of (by simp) (by simp) hblock.1
  kind_leafData := fun l d i => by simp [hleaf, blockLeaf]
  source_leafData := fun l d i hd => by
    simp only [hleaf, blockLeaf]
    rw [sourceOf?_put_of_ne (a := .offset) (by decide), sourceOf?_put_of_ne (a := .blockOffset) (by decide)]
    exact sourceOf?_put (hd ▸ hpoint.2) l.uuid
  unplaced_leafData := fun l d i _ => by rw [hleaf]; exact Data.unplaced_unplaced _
  leafData_similar := fun l d e i _ h => by rw [hleaf]; exact similar_blockLeaf l h
  groupData_again := fun name path i old => by
    have hoffset : (blockData f.group name path).get? .offset = some (.integer 0) :=
      (Data.get?_foldl_put_of_notMem (by simp)).trans hblock.2.2
    have hkind : (blockData f.group name path).kind.field? .blockOffset = none := by
      rw [blockData, Data.kind_of]
      exact hblock.2.1
    simp only [hgroup]
    rw [Data.unplaced, Data.put_of_field?_eq_none hkind, Data.put_of_get? hoffset]
  groupData_similar := fun name path i d e _ => by rw [hgroup]
  tableOf_similar := fun d e h => tableOf?_similar (by rw [hlink]; decide) (by rw [hlink]; decide) h
  ready_similar := fun d e _ => by rw [hready]
  fits_similar := fun d e _ => by rw [hfits]
  pack_similar := fun ds es h => by rw [hpack, packTogether, packTogether, h.length_eq]
  nodup_pack := fun ds => by rw [hpack, index_packTogether]; exact List.nodup_range

theorem lawful_sunSpec : sunSpec.Lawful :=
  lawful_blocks rfl rfl rfl rfl rfl rfl rfl rfl ⟨rfl, rfl, rfl⟩ ⟨by decide, by decide, by decide⟩
    (by rintro k child (rfl | rfl | rfl) <;> cases child <;> decide) ⟨rfl, rfl⟩ ⟨rfl, rfl, rfl⟩

theorem lawful_staticModbus : staticModbus.Lawful :=
  lawful_blocks rfl rfl rfl rfl rfl rfl rfl rfl ⟨rfl, rfl, rfl⟩ ⟨by decide, by decide, by decide⟩
    (by rintro k child (rfl | rfl | rfl) <;> cases child <;> decide) ⟨rfl, rfl⟩ ⟨rfl, rfl, rfl⟩

theorem lawful_of_ofTree {k : TreeKind} {f : Family} (h : ofTree k = .ok f) : f.Lawful := by
  cases k with
  | can => cases h; exact lawful_can
  | sunSpec => cases h; exact lawful_sunSpec
  | staticModbus => cases h; exact lawful_staticModbus
  | parameters | anomalies => cases h

end Family

end DeviceModel
