import DeviceModel.Proofs.Expansion.Packing
import DeviceModel.Proofs.Rules.Demands
import DeviceModel.Proofs.Workspace.Remade

/-!
What a check finds in a project without errors once all of it has been expanded. Main statement: its errors are
references to generated nodes that are no longer there, and generated points whose reference points have no type
(`Edit.errors_expandAll`). The rules find nothing wrong with a node that stays (`Remade.sound_stays`) or with what is
made (`Remade.sound_group`, `Remade.sound_seed`), but for the type of a leaf (`Remade.untyped_of_leaf`).
-/

namespace DeviceModel

open ViewExpansion

/-- All fields of this attribute refer to enumerators. -/
theorem Kind.field?_pointType {k : Kind} {f : Field} (h : k.field? .pointType = some f) :
    f = .ref .pointType [.enumerator] := by
  have hkinds : ∀ k : Kind, (k.field? .pointType).all (· == .ref .pointType [.enumerator]) = true := by
    intro k; cases k <;> decide
  simpa [h] using hkinds k

theorem Node.refers_pointType {n : Node} {u : Uuid} (h : n.ref? .pointType = some u) :
    n.data.Refers (.ref .pointType [.enumerator]) u := by
  obtain ⟨f, hf, -⟩ := Data.exists_field_of_get? (Data.get?_of_ref? h)
  obtain rfl := Kind.field?_pointType hf
  exact Data.refers_of_ref? hf rfl h

/-- Leaves are signals of multiplexers, or points of blocks in a register map. -/
theorem Family.can_or_isPoint {k : TreeKind} {f : Family} (hf : ofTree k = .ok f) : (k = .can ∧ f = .can) ∨
    f.point.isPoint = true ∧ f.point.tree = k ∧ (f.view == .sunSpecTable || f.view == .modbusTable) = true ∧
      (f.group == .sunSpecTable || f.group == .modbusTable) = false := by
  cases k with
  | can => cases hf; exact .inl ⟨rfl, rfl⟩
  | sunSpec | staticModbus => cases hf; exact .inr (by decide)
  | parameters | anomalies => cases hf

/-- What is in a group of a view is not directly in a view. -/
theorem Tree.parentKind?_of_group {t : Tree} (ht : t.Valid) {v g n : Node} (hv : v ∈ t.all)
    (hvk : v.kind.isTableView = true) (hg : g ∈ v.children) (hn : n ∈ g.children) :
    ((t.parentKind? n.uuid).any fun k => k == .sunSpecTable || k == .modbusTable) = false := by
  have hkinds : ∀ k : Kind, k.isTableView = true → ∀ g ∈ k.childKinds,
      (g == .sunSpecTable || g == .modbusTable) = false := by
    intro k; cases k <;> decide
  rw [parentKind?, parent?_of_child ht.nodup (mem_all_of_child hv hg) hn, Option.map_some,
    Option.any_some]
  exact hkinds _ hvk _ (by simpa [Kind.allows] using ht.allowed v hv g hg)

namespace Workspace

namespace Remade

variable {o : ExpandOptions} {w w' : Workspace} (h : Remade o w w') {k : TreeKind}
include h

/-! ### Types -/

theorem pointType?_of_resolves {u : Uuid} (hu : Check.Resolves w.models.lookup (.ref .pointType [.enumerator]) u) :
    w'.models.lookup.pointType? (some u) = w.models.lookup.pointType? (some u) := by
  obtain ⟨c, hc, htarget⟩ := hu
  obtain rfl : c = .enumerator := List.mem_singleton.1 (htarget.resolve_left nofun)
  obtain ⟨m, hm, hmk⟩ := Option.map_eq_some_iff.1 hc
  obtain ⟨rfl, j, hmj⟩ := Models.exists_of_node? hm
  obtain ⟨n, hkept⟩ := h.exists_kept_of_kind hmj (by rw [hmk]; decide)
  have hn := Models.node?_of_mem h.grown.apart (k := j) hkept.after.mem
  rw [← hkept.uuid] at hn
  simp [Lookup.pointType?, hm, hn, hmk, hkept.name, ← hkept.kind]

theorem pointType?_kept {m n : Node} (hkept : Tree.Kept (w.tree k) (w'.tree k) m n) :
    w'.models.lookup.pointType? (n.ref? .pointType) = w.models.lookup.pointType? (m.ref? .pointType) := by
  rw [← hkept.ref? (a := .pointType) rfl]
  cases hu : m.ref? .pointType with
  | none => rfl
  | some u => exact h.pointType?_of_resolves (h.clean.resolves hkept.before.mem (Node.refers_pointType hu))

/-! ### What is made of each part -/

theorem numbered : (w'.tree k).Numbered := by
  refine (h.grown.regrown k).numbered ?_
  by_cases hk : k = .can
  · subst hk
    refine (Rules.Can.numbered_iff (h.clean.valid _)).2 fun n hn hnk => ?_
    have hrules : DeviceModel.Sound _ := h.clean.rules hn
    simpa only [Rules.ofTree, Rules.can, Rules.Can.issues, hnk] using hrules
  · exact Tree.numbered_of_kind (h.clean.valid k) fun hcan => hk ((h.clean.kind k).symm.trans hcan)

theorem sound_stays {n : Node} (hn : (w'.tree k).Stays n) :
    DeviceModel.Sound ((Rules.ofTree k).issues (w'.tree k) n w'.models.lookup) := by
  obtain ⟨m, hkept⟩ := h.exists_kept hn
  have hsound := hkept.sound_rules (h.grown.regrown k).core (h.clean.valid k) (h.grown.valid k)
    (h.grown.regrown k).laidOut (h.pointType?_kept hkept) h.numbered (by
      rw [show (w.tree k).kind = k from h.clean.kind k]
      exact h.clean.rules hkept.before.mem)
  rwa [h.kind] at hsound

theorem sound_element {n : Node} (hn : n ∈ (w'.tree k).all)
    (hk : n.kind = .tableGroupElement ∨ n.kind = .tableArrayElement) :
    DeviceModel.Sound ((Rules.ofTree k).issues (w'.tree k) n w'.models.lookup) := by
  obtain rfl : TreeKind.parameters = k := by
    rw [← h.kind (k := k), Tree.kind_of_mem (h.grown.valid k) hn]
    rcases hk with hk | hk <;> rw [hk] <;> rfl
  have hkinds : n.kind ≠ .parameter ∧ n.kind ≠ .array := by rcases hk with hk | hk <;> rw [hk] <;> decide
  exact Rules.Parameters.sound_of_kind (t := w'.tree .parameters) hkinds.1 hkinds.2

/-- There is nothing to find in what stands for the points of a block. -/
theorem sound_standIn {r n : Node} (hr : r ∈ (w'.tree k).all) (hk : r.kind = .tableRepeatingBlockReference)
    (hn : n ∈ r.children) : DeviceModel.Sound ((Rules.ofTree k).issues (w'.tree k) n w'.models.lookup) := by
  have hallows := (h.grown.valid k).allowed r hr n hn
  have hnk : n.kind = .tableRepeatingBlockReferenceDataPointReference := by
    simpa [hk, Kind.allows, Kind.childKinds] using hallows
  obtain rfl : TreeKind.sunSpec = k := by
    rw [← h.kind (k := k), Tree.kind_of_mem (h.grown.valid k) hr, hk]
    rfl
  simp only [Rules.ofTree, Rules.sunSpec, Rules.SunSpec.issues, hnk]
  exact sound_nil

section

variable {f : Family} {view : Node} {shape : Shape} {ns gs : List Node} (v : Viewed o w' k f view shape ns gs)
include v

theorem sound_group {g : Node} (hg : g ∈ gs) :
    DeviceModel.Sound ((Rules.ofTree k).issues (w'.tree k) g w'.models.lookup) := by
  have hgt := Tree.mem_all_of_child v.mem (v.group_mem hg)
  have hf := v.family
  cases k with
  | can =>
    cases hf
    have hgk : g.kind = .multiplexer := v.kind_group hg
    have hsound := (Rules.Can.numbered_iff (h.grown.valid .can)).1 h.numbered g hgt hgk
    simpa only [Rules.ofTree, Rules.can, Rules.Can.issues, hgk] using hsound
  | sunSpec =>
    cases hf
    have hgk : g.kind = .tableRepeatingBlock := v.kind_group hg
    simp only [Rules.ofTree, Rules.sunSpec, Rules.SunSpec.issues, hgk, sound_nil]
  | staticModbus =>
    cases hf
    have hgk : g.kind = .modbusTableRepeatingBlock := v.kind_group hg
    simp only [Rules.ofTree, Rules.staticModbus, Rules.Modbus.issues, hgk, sound_nil]
  | parameters | anomalies => cases hf

/-- The size of a reference point is that of its type, if it has one. -/
theorem size_seed (hp : f.point.isPoint = true) {r : Node} (hr : r ∈ ns) {t : PointType}
    (ht : w'.models.lookup.pointType? (r.ref? .pointType) = some t) {size : Int} (hsize : t.registers? = some size) :
    r.int .size = size := by
  obtain ⟨u, hu⟩ : ∃ u, r.ref? .pointType = some u := by
    refine Option.ne_none_iff_exists'.1 fun hnone => ?_
    rw [hnone] at ht
    cases ht
  obtain ⟨v₀, hv₀, -, c, hc, hck, hs⟩ := h.exists_seed v hr (Node.refers_pointType hu) (by decide)
  have hct := Tree.mem_all_of_child hv₀ hc
  have htype := Node.ref?_congr (hs.get? .pointType (by decide) (by decide) (by decide)).symm
  rw [hu] at ht htype
  rw [h.pointType?_of_resolves (h.clean.resolves hct (Node.refers_pointType htype)), ← htype] at ht
  have hsound : DeviceModel.Sound _ := h.clean.rules hct
  have hkind : k = c.kind.tree := (h.clean.kind k).symm.trans (Tree.kind_of_mem (h.clean.valid k) hct)
  rw [Check.issues_of_isPoint hkind (hck ▸ hp), Rules.Register.sound_pointIssues,
    Rules.Register.sound_typeIssues] at hsound
  rw [Node.int_congr (hs.get? .size (by decide) (by decide) (by decide))]
  exact hsound.2 t ht size hsize

/-- A reference point is not asked for a place or for a type. -/
theorem sound_seed {r : Node} (hr : r ∈ ns) :
    DeviceModel.Sound ((Rules.ofTree k).issues (w'.tree k) r w'.models.lookup) := by
  have hparent : (w'.tree k).parentKind? r.uuid = some f.view := by
    rw [Tree.parentKind?, Tree.parent?_of_child (h.grown.valid k).nodup v.mem (v.seed_mem hr), Option.map_some,
      v.settled.kind]
  have hrk := v.kind_seed hr
  obtain ⟨rfl, rfl⟩ | ⟨hp, hk, hview, -⟩ := Family.can_or_isPoint v.family
  · simp only [Rules.ofTree, Rules.can, Rules.Can.issues, show r.kind = .signal from hrk]
    exact Rules.Can.sound_signalIssues.2 fun hne => absurd hparent hne
  · rw [Check.issues_of_isPoint (by rw [hrk, hk]) (by rw [hrk, hp]), Rules.Register.sound_pointIssues,
      Rules.Register.sound_typeIssues, hparent, Option.any_some, hview]
    exact ⟨fun hf => absurd hf (by decide), fun t ht size hs => h.size_seed v hp hr ht hs⟩

/-- A leaf is asked for both: it has its place, and only the type can be missing. -/
theorem sound_leaf {g n : Node} (hg : g ∈ gs) (hn : n ∈ g.children)
    (htype : n.kind.isPoint = true → (w'.models.lookup.pointType? (n.ref? .pointType)).isSome = true) :
    DeviceModel.Sound ((Rules.ofTree k).issues (w'.tree k) n w'.models.lookup) := by
  have hgt := Tree.mem_all_of_child v.mem (v.group_mem hg)
  have hgk := v.kind_group hg
  obtain ⟨l, -, hstands⟩ := v.leafStands hg hn
  have hnk := hstands.kind
  obtain ⟨rfl, rfl⟩ | ⟨hp, hk, -, -⟩ := Family.can_or_isPoint v.family
  · simp only [Rules.ofTree, Rules.can, Rules.Can.issues, show n.kind = .signal from hnk]
    refine Rules.Can.sound_signalIssues.2 fun _ length hlength => ?_
    have hframe := Tree.frameLength?_of_child (h.grown.valid _) hgt hn (.inr (.inr hgk))
    obtain rfl := Option.some.inj (hframe.symm.trans hlength)
    have hframed := v.settled.framed hg
    have hinside := hframed.inside n hn
    rw [hframed.length]
    omega
  · obtain ⟨r, hr, -, hgeometry⟩ := hstands.geometry
    have hsize := Node.int_congr (hgeometry .size (by decide))
    have hsame := Node.ref?_congr (hgeometry .pointType (by decide))
    rw [Check.issues_of_isPoint (by rw [hnk, hk]) (by rw [hnk, hp]), Rules.Register.sound_pointIssues,
      Rules.Register.sound_typeIssues, hsize]
    exact ⟨fun _ => htype (by rw [hnk, hp]), fun t ht size hs => h.size_seed v hp hr (hsame ▸ ht) hs⟩

end

end Remade

/-! ### What is wrong -/

/-- The node that the identifier led to had been made, and it is no longer there. -/
def TakenAway (w w' : Workspace) (u : Uuid) : Prop :=
  ∃ k, ∃ m ∈ (w.tree k).all, m.uuid = u ∧ ¬(w.tree k).Stays m ∧
    ∀ j, ∀ n ∈ (w'.tree j).all, n.uuid = u → n.kind ≠ m.kind

/-- A generated point of a register map, without a type because its reference point has none. -/
structure Untyped (w : Workspace) (k : TreeKind) (n : Node) : Prop where
  isPoint : n.kind.isPoint = true
  unknown : w.models.lookup.pointType? (n.ref? .pointType) = none
  generated : ∃ v ∈ (w.tree k).all, v.kind.isTableView = true ∧ (∃ g ∈ v.children, n ∈ g.children) ∧
    ∃ r ∈ v.children, r.kind = n.kind ∧ r.ref? .pointType = n.ref? .pointType

/-- What is wrong with a node of `w'` that was made of `w`. -/
inductive Flaw (w w' : Workspace) (k : TreeKind) (n : Node) (i : Issue) : Prop
  | dangling {f : Field} {u : Uuid} (refers : n.data.Refers f u) (away : TakenAway w w' u)
      (kept : (w'.tree k).Stays n ∨ f.attr = .factorPoint) (found : i ∈ Check.targetIssues w'.models.lookup f u)
  | untyped (h : Untyped w' k n) (found : i = match n.ref? .pointType with
      | some u => .unknownType u
      | none => .noType)

namespace Remade

variable {o : ExpandOptions} {w w' : Workspace} (h : Remade o w w') {k : TreeKind}
include h

theorem takenAway {f : Field} {u : Uuid} (hw : Check.Resolves w.models.lookup f u)
    (hw' : ¬Check.Resolves w'.models.lookup f u) : TakenAway w w' u := by
  obtain ⟨c, hc, htarget⟩ := hw
  obtain ⟨m, hm, hmk⟩ := Option.map_eq_some_iff.1 hc
  obtain ⟨rfl, j, hmj⟩ := Models.exists_of_node? hm
  have hgone : ∀ i, ∀ n ∈ (w'.tree i).all, n.uuid = m.uuid → n.kind ≠ m.kind := fun i n hn hu hk =>
    hw' (hu ▸ h.resolves_of_mem hn (by rwa [hk, hmk]))
  refine ⟨j, m, hmj, rfl, fun hstays => ?_, hgone⟩
  obtain ⟨n, hkept⟩ := h.exists_kept_of_stays hstays
  exact hgone j n hkept.after.mem hkept.uuid.symm hkept.kind.symm

/-- A leaf has no other error than that it has no type. -/
theorem untyped_of_leaf {f : Family} {view : Node} {shape : Shape} {ns gs : List Node}
    (v : Viewed o w' k f view shape ns gs) {g n : Node} (hg : g ∈ gs) (hn : n ∈ g.children)
    (hs : ¬DeviceModel.Sound ((Rules.ofTree k).issues (w'.tree k) n w'.models.lookup)) : Untyped w' k n := by
  have hpoint : n.kind.isPoint = true := by
    by_contra hp
    exact hs (h.sound_leaf v hg hn fun h => absurd h hp)
  have hnone : w'.models.lookup.pointType? (n.ref? .pointType) = none := by
    by_contra hsome
    exact hs (h.sound_leaf v hg hn fun _ => Option.isSome_iff_ne_none.2 hsome)
  obtain ⟨l, -, hstands⟩ := v.leafStands hg hn
  obtain ⟨r, hr, -, hgeometry⟩ := hstands.geometry
  refine ⟨hpoint, hnone, view, v.mem, ?_, ⟨g, v.group_mem hg, hn⟩, r, v.seed_mem hr, ?_, ?_⟩
  · rw [v.settled.kind]
    have hf := v.family
    cases k <;> cases hf <;> rfl
  · rw [v.kind_seed hr, hstands.kind]
  · exact (Node.ref?_congr (hgeometry .pointType (by decide))).symm

/-- Whatever the rules find fault with is a leaf. -/
theorem untyped_of_rules {n : Node} (hn : n ∈ (w'.tree k).all)
    (hs : ¬DeviceModel.Sound ((Rules.ofTree k).issues (w'.tree k) n w'.models.lookup)) : Untyped w' k n := by
  cases h.part hn with
  | stays hstays => exact absurd (h.sound_stays hstays) hs
  | element hk => exact absurd (h.sound_element hn hk) hs
  | standIn hr hk hc => exact absurd (h.sound_standIn hr hk hc) hs
  | seed v hc => exact absurd (h.sound_seed v hc) hs
  | group v hg => exact absurd (h.sound_group v hg) hs
  | leaf v hg hc => exact h.untyped_of_leaf v hg hc hs

theorem error_of_rules_iff {n : Node} (hn : n ∈ (w'.tree k).all) (hu : Untyped w' k n) {i : Issue} :
    i ∈ (Rules.ofTree k).issues (w'.tree k) n w'.models.lookup ∧ i.level = .error ↔
      i = match n.ref? .pointType with
        | some u => .unknownType u
        | none => .noType := by
  obtain ⟨hpoint, hnone, v, hv, hvk, ⟨g, hg, hng⟩, -⟩ := hu
  rw [Check.issues_of_isPoint (h.kind (k := k) ▸ Tree.kind_of_mem (h.grown.valid k) hn) hpoint]
  exact Rules.Register.error_of_pointIssues_iff (Tree.parentKind?_of_group (h.grown.valid k) hv hvk hg hng) hnone

/-- The errors of a node are its flaws. -/
theorem flaw_iff {n : Node} (hn : n ∈ (w'.tree k).all) {i : Issue} :
    i ∈ Check.issues (w'.tree k) w'.models.lookup n ∧ i.level = .error ↔ Flaw w w' k n i := by
  rw [Check.issues, show (w'.tree k).kind = k from h.kind,
    Models.structural_eq_nil (k := k) h.grown.valid h.grown.apart hn, List.nil_append, List.mem_append]
  constructor
  · rintro ⟨hi | hi, hlevel⟩
    · obtain ⟨f, u, hu, hi⟩ := Check.mem_references.1 hi
      have hlost : ¬Check.Resolves w'.models.lookup f u := fun hres => by
        rw [Check.targetIssues_eq_nil.2 hres] at hi
        cases hi
      obtain ⟨hbefore, hkept⟩ := (h.resolves hn hu).resolve_left hlost
      exact .dangling hu (h.takenAway hbefore hlost) hkept hi
    · have huntyped := h.untyped_of_rules hn fun hs => hs i hi hlevel
      exact .untyped huntyped ((h.error_of_rules_iff hn huntyped).1 ⟨hi, hlevel⟩)
  · rintro (⟨hu, -, -, hi⟩ | ⟨huntyped, rfl⟩)
    · exact ⟨.inl (Check.mem_references.2 ⟨_, _, hu, hi⟩), Check.level_of_targetIssues hi⟩
    · exact ((h.error_of_rules_iff hn huntyped).2 rfl).imp_left .inr

end Remade

/-- Expanding all of a project without errors. -/
theorem remade_expandAll {o : ExpandOptions} {w w' : Workspace} (hw : w.models.Clean) {es : List Expansion}
    (h : Gives (Edit.expandAll o) w es w') : Remade o w w' :=
  ⟨hw, Edit.grown_expandAll hw.valid hw.kind hw.nodup h, Edit.expanded_expandAll hw.valid h⟩

end Workspace

namespace Edit

open Workspace

variable {o : ExpandOptions} {w w' : Workspace}

/-- After a project without errors has been expanded, the errors that a check finds are references to generated
nodes that are no longer there and generated points whose reference points have no type, and no others. -/
theorem errors_expandAll (hw : w.models.Clean) {es : List Expansion} (h : Gives (expandAll o) w es w')
    (e : CheckResult.Entry) : ((∃ r ∈ w'.models.check, e ∈ r.flatten) ∧ e.issue.level = .error) ↔
      ∃ k, ∃ n ∈ (w'.tree k).all, ∃ i, e = ⟨n.uuid, n.kind, n.name, i⟩ ∧ Flaw w w' k n i := by
  have hremade := remade_expandAll hw h
  rw [Models.mem_flatten_check hremade.grown.valid]
  constructor
  · rintro ⟨⟨k, n, hn, i, hi, rfl⟩, hlevel⟩
    exact ⟨k, n, hn, i, rfl, (hremade.flaw_iff hn).1 ⟨hi, hlevel⟩⟩
  · rintro ⟨k, n, hn, i, rfl, hflaw⟩
    obtain ⟨hi, hlevel⟩ := (hremade.flaw_iff hn).2 hflaw
    exact ⟨⟨k, n, hn, i, hi, rfl⟩, hlevel⟩

/-- A table of two groups. A CAN signal stands for the leaf of the second, which is then moved out of the table,
and a view in the static Modbus map has a reference point without a type. -/
def shrunkTable : Edit Unit := do
  let parameters := (← tree .parameters).root.uuid
  let table ← addChild .parameters parameters .table
  let axis ← addChild .parameters table .enumeration
  let _ ← addChild .parameters axis .enumerator
  let row ← addChild .parameters table .group
  let _ ← addChild .parameters row .parameter
  let spare ← addChild .parameters table .group
  let source ← addChild .parameters spare .parameter
  let _ ← expandTable .parameters table
  let message ← addChild .can (← tree .can).root.uuid .message
  for leaf in (← tree .parameters).ofKind .tableArrayElement do
    if leaf.ref? .original = some source then
      let _ ← dropNode .can leaf.uuid message none
  let _ ← dropNode .parameters spare parameters none
  let _ ← dropNode .staticModbus table (← tree .staticModbus).root.uuid none

theorem clean_shrunkTable : (outcome shrunkTable (initial 0)).2.models.Clean where
  valid := by intro k; cases k <;> decide +kernel
  kind := by intro k; cases k <;> decide +kernel
  check := by decide +kernel

theorem gives_shrunkTable : Gives (expandAll {}) (outcome shrunkTable (initial 0)).2
    [⟨⟨5⟩, 0, 3, 2, []⟩, ⟨⟨19⟩, 2, 1, 0, []⟩] (outcome (expandAll {}) (outcome shrunkTable (initial 0)).2).2 :=
  gives_of_toOption (by decide +kernel)

/-- The signal refers to the leaf that is no longer there. -/
theorem errors_expandAll_shrunkTable : (outcome shrunkTable (initial 0)).2.models.Clean ∧
    ∃ es w', Gives (expandAll {}) (outcome shrunkTable (initial 0)).2 es w' ∧
      ∃ k, ∃ n ∈ (w'.tree k).all,
        Flaw (outcome shrunkTable (initial 0)).2 w' k n (.unknownReference "Parameter" ⟨16⟩) := by
  obtain ⟨k, n, hn, i, he, hflaw⟩ := (errors_expandAll clean_shrunkTable gives_shrunkTable
    ⟨⟨18⟩, .signal, "New Parameter", .unknownReference "Parameter" ⟨16⟩⟩).1 ⟨by decide +kernel, rfl⟩
  obtain rfl : Issue.unknownReference "Parameter" ⟨16⟩ = i := congrArg CheckResult.Entry.issue he
  exact ⟨clean_shrunkTable, _, _, gives_shrunkTable, k, n, hn, hflaw⟩

/-- Expanding everything can leave a project with errors that had none. -/
theorem exists_errors_expandAll : ∃ w w' : Workspace, w.models.Clean ∧ (∃ es, Gives (expandAll {}) w es w') ∧
    ((w'.models.check.flatMap CheckResult.flatten).filter (·.issue.level == .error)).map (·.issue) =
      [.unknownReference "Parameter" ⟨16⟩, .noType] :=
  ⟨_, _, clean_shrunkTable, ⟨_, gives_shrunkTable⟩, by decide +kernel⟩

end Edit

end DeviceModel
