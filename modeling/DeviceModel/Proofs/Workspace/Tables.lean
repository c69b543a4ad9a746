import DeviceModel.Proofs.Expansion.Edits
import DeviceModel.Proofs.Expansion.LeafReferences
import DeviceModel.Proofs.Expansion.Products
import DeviceModel.Proofs.Expansion.Reuse
import DeviceModel.Proofs.Workspace.ExpandAll

/-!
Expanding one parameter table of a project. Main statements: the table gets its combinations
(`expandTable_product`), and what was generated before keeps its identifiers, whatever has been edited
around it (`expandTable_keepsIdentities`). Once a table with regular arrays has been expanded, its shape has the
leaves that were generated for it and no others, each with a source of the table as its reference
(`exists_shape_of_expandTable`); arrays do not stay regular when a parameter is moved out of the first element
(`exists_reference_notMem`).
-/

namespace DeviceModel

namespace Edit

open Workspace TableExpansion

variable {w w' : Workspace} {a : Node}

/-- A table of a valid tree can be expanded, and nothing else in the project changes. -/
theorem exists_expandTable (hw : (w.tree .parameters).Valid) (ha : a ∈ (w.tree .parameters).all)
    (hk : a.kind = .table) : ∃ e w' t s, Gives (expandTable .parameters a.uuid) w e w' ∧
      Gives ((w.tree .parameters).expandTable a.uuid) w.offered (t, e) s ∧ w.Puts .parameters t w' := by
  obtain ⟨t, e, s, hrun⟩ := Tree.exists_expandTable hw ha hk w.offered
  obtain ⟨v, htrans⟩ := exists_transaction (k := .parameters) a.uuid
    (f := fun t => build (t.expandTable a.uuid)) (gives_build.2 ⟨s, hrun, rfl⟩) fun h => by cases h
  have hgives : Gives (expandTable .parameters a.uuid) w e _ :=
    gives_expandTable.2 ⟨v, htrans, gives_logNode.2 rfl⟩
  obtain ⟨t', s', hrun', hput⟩ := expandTable_ok hw hgives
  obtain ⟨hte, rfl⟩ := gives_unique hrun hrun'
  obtain rfl : t = t' := congrArg Prod.fst hte
  exact ⟨e, _, t, s, hgives, hrun, hput⟩

/-- A table is expanded to the product of its axes and what is in its arrays and groups, and nothing else
in the project changes. -/
theorem expandTable_product (hw : (w.tree .parameters).Valid) (ha : a ∈ (w.tree .parameters).all)
    (hk : a.kind = .table) : ∃ e w' forest, Gives (expandTable .parameters a.uuid) w e w' ∧
      Expands (w.tree .parameters) a forest e (w'.tree .parameters) ∧
        ∀ k, k ≠ .parameters → w'.tree k = w.tree k := by
  obtain ⟨e, w', t, s, hgives, hrun, hput⟩ := exists_expandTable hw ha hk
  obtain ⟨forest, h⟩ := Tree.expands_expandTable hw (issued_offered hw.nodup) ha hrun
  exact ⟨e, w', forest, hgives, hput.tree ▸ h, hput.others⟩

/-- A table of two axes, with a group of one parameter and an array of a parameter and a group. -/
def twoAxes : Tree :=
  ⟨.parameters, ⟨⟨1⟩, .initial .root, [⟨⟨2⟩, .initial .table,
    [⟨⟨3⟩, .initial .enumeration, [.leaf ⟨4⟩ (.initial .enumerator), .leaf ⟨5⟩ (.initial .enumerator)]⟩,
      ⟨⟨6⟩, .initial .array, [.leaf ⟨7⟩ (.initial .parameter),
        ⟨⟨8⟩, .initial .arrayGroupElement, [.leaf ⟨9⟩ (.initial .arrayParameterElement)]⟩]⟩,
      ⟨⟨10⟩, .initial .enumeration, [.leaf ⟨11⟩ (.initial .enumerator)]⟩,
      ⟨⟨12⟩, .initial .group, [.leaf ⟨13⟩ (.initial .parameter)]⟩]⟩]⟩⟩

/-- A project with `t` as its parameter tree. -/
def projectOf (t : Tree) : Workspace := (initial 100).withModel .parameters { tree := t }

theorem expandTable_product_twoAxes : ∃ a ∈ twoAxes.all, a.kind = .table ∧
    ∃ e w' forest, Gives (expandTable .parameters a.uuid) (projectOf twoAxes) e w' ∧
      Expands twoAxes a forest e (w'.tree .parameters) ∧ leafCount forest = 6 ∧
        ∀ k, k ≠ .parameters → w'.tree k = (projectOf twoAxes).tree k := by
  have hw : ((projectOf twoAxes).tree .parameters).Valid := by decide +kernel
  have hfind : ∃ a ∈ twoAxes.all, a.kind = .table ∧
      ((axes a).map List.length).prod * ((sources a).map width).sum = 6 := by decide +kernel
  obtain ⟨a, ha, hk, hcount⟩ := hfind
  obtain ⟨e, w', forest, hgives, hexpands, hothers⟩ :=
    expandTable_product (w := projectOf twoAxes) hw ha hk
  exact ⟨a, ha, hk, e, w', forest, hgives, hexpands, hexpands.leaves.trans hcount, hothers⟩

/-- A table whose generated nodes have distinct paths is edited and expanded: a path that was there
before keeps its identifier and its access level, and other paths have identifiers that are neither in
use nor have been given out before. -/
theorem expandTable_keepsIdentities {w₀ : Workspace} (hw : (w₀.tree .parameters).Valid)
    (ha : a ∈ (w₀.tree .parameters).all) (hk : a.kind = .table) (hp : (paths (generated a)).Nodup)
    (hedits : (w₀.tree .parameters).Edits a.uuid (w.tree .parameters)) :
    ∃ e w' b, Gives (expandTable .parameters a.uuid) w e w' ∧
      (w'.tree .parameters).find? a.uuid = some b ∧
      KeepsIdentities a b (fun v => v ∈ w.models.uuids ∨ v.val < w.supply.next) ∧
      (paths (generated b)).Nodup ∧ (w'.tree .parameters).uuids.Nodup := by
  obtain ⟨hw₁, a₁, ha₁, hu, hk₁, hsame⟩ := Tree.hasTable_of_edits hedits hw ⟨a, ha, rfl, hk, rfl⟩
  obtain ⟨e, w', t, s, hgives, hrun, hput⟩ := exists_expandTable hw₁ ha₁ hk₁
  obtain ⟨b, hb, hkeeps, hpaths, hnodup⟩ :=
    Tree.expandTable_identities hw₁ (issued_offered hw₁.nodup) ha₁ (hsame ▸ hp) hrun
  rw [hu] at hgives hb
  rw [← hput.tree] at hb hnodup
  have hproducts : products a₁ = products a := by rw [products, hsame, products]
  exact ⟨e, w', b, hgives, hb, ⟨hproducts ▸ hkeeps.same, hproducts ▸ hkeeps.access,
    hproducts ▸ hkeeps.new⟩, hpaths, hnodup⟩

/-- An expanded table of one axis and one parameter, whose leaf has an access level. -/
def oneLeaf : Tree :=
  ⟨.parameters, ⟨⟨1⟩, .initial .root, [⟨⟨2⟩, .initial .table,
    [⟨⟨3⟩, .initial .enumeration, [.leaf ⟨4⟩ (.initial .enumerator)]⟩,
      ⟨⟨5⟩, .initial .group, [.leaf ⟨6⟩ (.initial .parameter)]⟩,
      ⟨⟨7⟩, groupData ⟨4⟩ "" [⟨4⟩], [⟨⟨8⟩, groupData ⟨5⟩ "" [⟨4⟩, ⟨5⟩],
        [.leaf ⟨9⟩ (leafData ⟨6⟩ "" none none [⟨4⟩, ⟨5⟩, ⟨6⟩] (some ⟨4⟩))]⟩]⟩]⟩]⟩⟩

/-- The same with another enumerator in front. -/
def oneLeafEdited : Tree :=
  oneLeaf.edit ⟨3⟩ fun n => n.addChild (some 0) (.leaf ⟨20⟩ (.initial .enumerator))

theorem expandTable_keepsIdentities_oneLeaf : ∃ a ∈ oneLeaf.all,
    (paths (generated a)).Nodup ∧ oneLeaf.Edits a.uuid oneLeafEdited ∧
      ∃ e w' b, Gives (expandTable .parameters a.uuid) (projectOf oneLeafEdited) e w' ∧
        (w'.tree .parameters).find? a.uuid = some b ∧
        KeepsIdentities a b (fun v => v ∈ (projectOf oneLeafEdited).models.uuids ∨
          v.val < (projectOf oneLeafEdited).supply.next) ∧
        (paths (generated b)).Nodup ∧ (w'.tree .parameters).uuids.Nodup := by
  have hw : ((projectOf oneLeaf).tree .parameters).Valid := by decide +kernel
  have hfind : ∃ a ∈ oneLeaf.all, a.uuid = ⟨2⟩ ∧ a.kind = .table ∧ (paths (generated a)).Nodup := by
    decide +kernel
  obtain ⟨a, ha, hu, hk, hp⟩ := hfind
  have hedits : oneLeaf.Edits a.uuid oneLeafEdited := by
    have hdone : oneLeaf.insert ⟨3⟩ (some 0) (.leaf ⟨20⟩ (.initial .enumerator)) = .ok oneLeafEdited := rfl
    rw [hu]
    exact .insert .start (by decide +kernel) (by decide +kernel) hdone
  exact ⟨a, ha, hp, hedits, expandTable_keepsIdentities (w := projectOf oneLeafEdited)
    hw ha hk hp hedits⟩

end Edit

/-! ### Leaves and their references -/

namespace Edit

open Workspace TableExpansion Shape

variable {w : Workspace} {a : Node}

/-- A table with regular arrays and without expanded tables below is expanded: in whatever order, its
shape has the leaves of the table, and their references are sources. Views with ready reference points
are not refused for any that is not. -/
theorem exists_shape_of_expandTable (hw : (w.tree .parameters).Valid)
    (ha : a ∈ (w.tree .parameters).all) (hk : a.kind = .table)
    (hinner : ∀ b ∈ a.all, b.kind = .table → b = a ∨ generated b = [])
    (hreg : ∀ c ∈ a.children, c.kind = .array → c.IsRegular) :
    ∃ e w' b, Gives (expandTable .parameters a.uuid) w e w' ∧
      (w'.tree .parameters).find? a.uuid = some b ∧
      ∀ o, ∃ shape, ofTable (w'.tree .parameters) a.uuid o = .ok shape ∧
        seedSources (w'.tree .parameters) a.uuid = .ok shape.seeds ∧
        ((shape.groups.flatMap LeafGroup.leaves).map Leaf.uuid).Perm ((tableLeaves b).map Node.uuid) ∧
        (∀ l ∈ shape.groups.flatMap LeafGroup.leaves, l.reference ∈ shape.seeds.map SeedSource.uuid) ∧
        ∀ k f, Family.ofTree k = .ok f → ∀ view, ViewExpansion.HasReadyPoints f view shape.seeds →
          ∀ z s us, (outcome (ViewExpansion.plan f view shape z) s).1 ≠
            .error (.inconsistent (.unready us)) := by
  obtain ⟨e, w', t, s, hgives, hrun, hput⟩ := exists_expandTable hw ha hk
  obtain ⟨hvalid, b, hb, hcomplete⟩ :=
    complete_expandTable hw (issued_offered hw.nodup) ha hk hinner hreg hrun
  rw [← hput.tree] at hvalid hb hcomplete
  refine ⟨e, w', b, hgives, hb, fun o => ?_⟩
  obtain ⟨hbm, hbu⟩ := Tree.mem_of_find? hb
  obtain ⟨shape, hshape, -, hseeds, hleaves, hrefs⟩ := exists_ofTable hvalid hcomplete o
  rw [hbu] at hshape
  have hsources : seedSources (w'.tree .parameters) a.uuid = .ok shape.seeds := by
    rw [hseeds, ← hbu]
    exact seedSources_of_complete hvalid hcomplete
  have hnodup : (shape.seeds.map SeedSource.uuid).Nodup :=
    hseeds ▸ nodup_sourcesOf (Node.nodup_of_mem hbm hvalid.nodup)
  exact ⟨shape, hshape, hsources, hleaves, hrefs, fun k f hf view hready z s us =>
    ViewExpansion.plan_ne_unready hf hnodup hrefs hready z s us⟩

/-- A table of one axis with a group, an array of parameters and an array of groups. -/
def regularArrays : Tree :=
  ⟨.parameters, ⟨⟨1⟩, .initial .root, [⟨⟨2⟩, .initial .table,
    [⟨⟨3⟩, .initial .enumeration, [.leaf ⟨4⟩ (.initial .enumerator)]⟩,
      ⟨⟨5⟩, .initial .group, [.leaf ⟨6⟩ (.initial .parameter)]⟩,
      ⟨⟨7⟩, .initial .array, [.leaf ⟨8⟩ (.initial .parameter),
        .leaf ⟨9⟩ (.of .arrayParameterElement [(.original, .uuid ⟨8⟩)])]⟩,
      ⟨⟨10⟩, .initial .array, [⟨⟨11⟩, .initial .group, [.leaf ⟨12⟩ (.initial .parameter)]⟩,
        ⟨⟨13⟩, .of .arrayGroupElement [(.original, .uuid ⟨11⟩)],
          [.leaf ⟨14⟩ (.of .arrayParameterElement [(.original, .uuid ⟨12⟩)])]⟩]⟩]⟩]⟩⟩

theorem exists_shape_of_expandTable_regularArrays :
    ∃ e w' b, Gives (expandTable .parameters ⟨2⟩) (projectOf regularArrays) e w' ∧
      (w'.tree .parameters).find? ⟨2⟩ = some b ∧
      ∃ shape, ofTable (w'.tree .parameters) ⟨2⟩ .builtIn = .ok shape ∧
        ((shape.groups.flatMap LeafGroup.leaves).map Leaf.uuid).Perm ((tableLeaves b).map Node.uuid) ∧
        ∀ l ∈ shape.groups.flatMap LeafGroup.leaves, l.reference ∈ shape.seeds.map SeedSource.uuid := by
  have hw : ((projectOf regularArrays).tree .parameters).Valid := by decide +kernel
  have hfind : ∃ a ∈ regularArrays.all, a.uuid = ⟨2⟩ ∧ a.kind = .table ∧
      (∀ b ∈ a.all, b.kind = .table → b = a ∨ generated b = []) ∧
        ∀ c ∈ a.children, c.kind = .array → c.IsRegular := by decide +kernel
  obtain ⟨a, ha, hu, hk, hinner, hreg⟩ := hfind
  obtain ⟨e, w', b, hgives, hb, hshapes⟩ :=
    exists_shape_of_expandTable (w := projectOf regularArrays) hw ha hk hinner hreg
  rw [hu] at hgives hb hshapes
  obtain ⟨shape, hshape, -, hleaves, hrefs, -⟩ := hshapes .builtIn
  exact ⟨e, w', b, hgives, hb, shape, hshape, hleaves, hrefs⟩

/-- A table with an array of two groups is made; one of the two parameters of the first group is then
moved out of the array, and the table is expanded. -/
def moveMember : Edit Uuid := do
  let root := (← tree .parameters).root.uuid
  let table ← addChild .parameters root .table
  let axis ← addChild .parameters table .enumeration
  let _ ← addChild .parameters axis .enumerator
  let array ← addChild .parameters table .array
  let first ← addChild .parameters array .group
  let _ ← addChild .parameters first .parameter
  let member ← addChild .parameters first .parameter
  setArrayLength array 2
  let other ← addChild .parameters root .group
  let _ ← drop .parameters member.bytes other none
  let _ ← expandTable .parameters table
  return table

/-- A view of the table is made, its one reference point gets a width, and it is expanded. -/
def expandMoved (table : Uuid) : Edit Expansion := do
  let root := (← tree .can).root.uuid
  let message ← addChild .can root .multiplexedMessage
  let _ ← addChild .can message .signal
  let view ← drop .can table.bytes message none
  for c in (← tree .can).children view do
    setAttribute .can c.uuid "bits" (.integer 8)
  expandView .can view none {}

/-- The stand-in that is left in the second group is expanded to a leaf whose reference is no source of
the table, and views of the table are refused. -/
theorem exists_reference_notMem : ∃ table w, Gives moveMember (initial 0) table w ∧
    (∃ shape, ofTable (w.tree .parameters) table .builtIn = .ok shape ∧
      ∃ l ∈ shape.groups.flatMap LeafGroup.leaves, l.reference ∉ shape.seeds.map SeedSource.uuid) ∧
    (outcome (expandMoved table) w).1 = .error (.inconsistent (.unready [])) := by
  have hrun : (outcome moveMember (initial 0)).1.toOption = some ⟨5⟩ := by decide +kernel
  refine ⟨⟨5⟩, (outcome moveMember (initial 0)).2, gives_of_toOption hrun, ?_, ?_⟩
  · have hshape : ((ofTable ((outcome moveMember (initial 0)).2.tree .parameters) ⟨5⟩
        .builtIn).toOption.any fun shape => (shape.groups.flatMap LeafGroup.leaves).any fun l =>
          !(shape.seeds.map SeedSource.uuid).contains l.reference) = true := by decide +kernel
    obtain ⟨shape, hs, hany⟩ := exists_ok_of_toOption hshape
    obtain ⟨l, hl, hr⟩ := List.any_eq_true.1 hany
    exact ⟨shape, hs, l, hl, by simpa using hr⟩
  · have herror : (match (outcome (expandMoved ⟨5⟩) (outcome moveMember (initial 0)).2).1 with
        | .error (.inconsistent (.unready us)) => us.isEmpty
        | _ => false) = true := by decide +kernel
    split at herror
    · rename_i us hus
      rw [hus, List.isEmpty_iff.1 herror]
    · cases herror

end Edit

end DeviceModel
