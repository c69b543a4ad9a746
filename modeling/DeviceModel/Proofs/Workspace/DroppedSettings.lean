import DeviceModel.Proofs.Rules.Originals
import DeviceModel.Proofs.Workspace.EditShapes
import DeviceModel.Proofs.Workspace.Policies
import DeviceModel.Proofs.Workspace.Succeeding

/-!
The settings of a parameter in what is made of it by a drop. Main statement: a signal or a point that is made of a
parameter or of an element of an array has the settings found along the originals of that, and one that is made of
a leaf of a table has none (`carries_of_drop`).
-/

namespace DeviceModel

/-! ### What is made of a parameter -/

/-- The kind of what is made of a parameter that is dropped on a node of the kind. -/
def Kind.carrier? : Kind → Option Kind
  | .message | .multiplexedMessage | .multiplexer => some .signal
  | .fixedBlock => some .dataPoint
  | .dataPointBitfield => some .dataPointBitfieldMember
  | .staticModbusRoot => some .functionData
  | .functionDataBitfield => some .functionDataBitfieldMember
  | .anomaly => some .anomalySource
  | _ => none

namespace Node

/-- The settings that signals and points take over from what they are made of: a signal is shown in hexadecimal and
has an enumeration as they say, and a point has their units. -/
structure Carries (c : Node) (settings : Attr → Option Value) : Prop where
  hexadecimal : c.kind = .signal →
    c.data.get? .hexadecimalOutput = some (.bool ((settings .displayHexadecimal >>= Value.bool?).getD false))
  enumeration : c.kind = .signal → c.data.get? .enumeration = some (.ofRef (settings .enumeration >>= Value.uuid?))
  units : c.kind = .dataPoint ∨ c.kind = .functionData →
    c.data.get? .units = some (.orNull .string (settings .units >>= Value.string?))

variable {c m : Node} {settings settings' : Attr → Option Value}

theorem Carries.of_signal (hk : c.kind = .signal)
    (hx : c.data.get? .hexadecimalOutput = some (.bool ((settings .displayHexadecimal >>= Value.bool?).getD false)))
    (he : c.data.get? .enumeration = some (.ofRef (settings .enumeration >>= Value.uuid?))) : c.Carries settings :=
  ⟨fun _ => hx, fun _ => he, fun hp => by simp [hk] at hp⟩

theorem Carries.of_ne_signal (hk : c.kind ≠ .signal) (hu : c.kind = .dataPoint ∨ c.kind = .functionData →
    c.data.get? .units = some (.orNull .string (settings .units >>= Value.string?))) : c.Carries settings :=
  ⟨fun hs => absurd hs hk, fun hs => absurd hs hk, hu⟩

/-- A layout changes none of them. -/
theorem Carries.congr (h : c.Carries settings) (hk : m.kind = c.kind)
    (hm : ∀ a : Attr, a.isLaidOut = false → m.data.get? a = c.data.get? a) : m.Carries settings where
  hexadecimal := fun hs => (hm .hexadecimalOutput rfl).trans (h.hexadecimal (hk ▸ hs))
  enumeration := fun hs => (hm .enumeration rfl).trans (h.enumeration (hk ▸ hs))
  units := fun hs => (hm .units rfl).trans (h.units (hk ▸ hs))

/-- Null is no setting. -/
theorem Carries.filter (h : c.Carries settings) (hs : ∀ a ∈ [Attr.displayHexadecimal, .enumeration, .units],
    settings' a = (settings a).filter (!·.isNull)) : c.Carries settings' := by
  have hread : ∀ {α : Type} (read : Value → Option α), read .null = none →
      ∀ a ∈ [Attr.displayHexadecimal, .enumeration, .units], settings' a >>= read = settings a >>= read := by
    intro α read hnull a ha
    rw [hs a ha]
    cases hv : settings a with
    | none => rfl
    | some v =>
      cases v with
      | null => exact hnull.symm
      | _ => rfl
  constructor
  · rw [hread Value.bool? rfl _ (by simp)]
    exact h.hexadecimal
  · rw [hread Value.uuid? rfl _ (by simp)]
    exact h.enumeration
  · rw [hread Value.string? rfl _ (by simp)]
    exact h.units

end Node

namespace Rules

variable {j : TreeKind} {t : Tree} {p n c : Node} {l : Lookup} {s s' : Supply}

theorem carries_signalFor (h : Gives (Can.signalFor n l) s c s') : c.Carries (l.effective? n.uuid) := by
  have hk := (leaf_of_gives_new h).2
  refine .of_signal hk (get?_of_gives_new h (by simp) (by simp) rfl rfl)
    (get?_of_gives_new h (by simp) (by simp) rfl ?_)
  cases (l.effective? n.uuid .enumeration >>= Value.uuid?) <;> rfl

theorem carries_pointFor {k : Kind} (hk : k = .dataPoint ∨ k = .functionData)
    (h : Gives (Register.pointFor k n l) s c s') : c.Carries (l.effective? n.uuid) := by
  have hck := (leaf_of_gives_new h).2
  refine .of_ne_signal (by rcases hk with rfl | rfl <;> simp [hck]) fun _ => ?_
  have hstored : ∀ x : Option String,
      (Field.text .units).orNull.type.coerce? (.orNull .string x) = some (.orNull .string x) := by
    rintro (_ | x) <;> rfl
  rw [← Lookup.effectiveText?]
  rcases hk with rfl | rfl <;> exact get?_of_gives_new h (by simp) (by simp) rfl (hstored _)

/-- A node of the kind that goes with the target is made of what is like a parameter. -/
theorem carries_childFrom (hj : j ≠ .parameters) (hd : (Rules.ofTree j).canDrop t p n = true)
    (hn : n.kind.isParameterLike = true) (ht : t.contains n.uuid = false)
    (h : Gives ((Rules.ofTree j).childFrom t p n l) s c s') :
    c.children = [] ∧ p.kind.carrier? = some c.kind ∧ c.Carries (l.effective? n.uuid) := by
  -- No signal and no point: there is nothing to take over.
  have hother : ∀ {k : Kind} {attrs : List (Attr × Value)}, Gives (new k attrs) s c s' →
      k ≠ .signal ∧ k ≠ .dataPoint ∧ k ≠ .functionData → p.kind.carrier? = some k →
      c.children = [] ∧ p.kind.carrier? = some c.kind ∧ c.Carries (l.effective? n.uuid) := by
    rintro k attrs hnew ⟨hs, hp, hf⟩ hk
    obtain ⟨hc, rfl⟩ := leaf_of_gives_new hnew
    exact ⟨hc, hk, .of_ne_signal hs fun h => absurd h (not_or.2 ⟨hp, hf⟩)⟩
  have hpoint : ∀ {k : Kind}, Gives (Register.pointFor k n l) s c s' → k = .dataPoint ∨ k = .functionData →
      p.kind.carrier? = some k →
      c.children = [] ∧ p.kind.carrier? = some c.kind ∧ c.Carries (l.effective? n.uuid) := by
    intro k hnew hk hp
    obtain ⟨hc, hck⟩ := leaf_of_gives_new hnew
    exact ⟨hc, hck ▸ hp, carries_pointFor hk hnew⟩
  have htable : n.kind ≠ .table := fun hk => by
    rw [hk] at hn
    cases hn
  cases j with
  | parameters => exact absurd rfl hj
  | can =>
    replace hd : Can.canDrop t p n = true := hd
    replace h : Gives (Can.childFrom t p n l) s c s' := h
    unfold Can.childFrom at h
    rw [if_pos hn] at h
    have hk : p.kind.carrier? = some .signal := by
      unfold Can.canDrop at hd
      rw [ht, if_neg Bool.false_ne_true] at hd
      split at hd
      · cases hd
      split at hd <;> first | (rename_i hk; rw [hk]; rfl) | cases hd
    obtain ⟨hc, hck⟩ := leaf_of_gives_new h
    exact ⟨hc, hck ▸ hk, carries_signalFor h⟩
  | sunSpec =>
    replace h : Gives (SunSpec.childFrom t p n l) s c s' := h
    unfold SunSpec.childFrom at h
    split at h
    · rename_i hk _
      rw [hk] at hn
      cases hn
    · exact absurd ‹_› htable
    · rw [if_pos hn] at h
      exact hother h (by decide) (by rw [‹p.kind = .dataPointBitfield›]; rfl)
    · rw [if_pos hn] at h
      exact hpoint h (.inl rfl) (by rw [‹p.kind = .fixedBlock›]; rfl)
    · exact absurd h gives_throw
  | staticModbus =>
    replace h : Gives (Modbus.childFrom t p n l) s c s' := h
    unfold Modbus.childFrom at h
    split at h
    · rename_i hk _
      rw [hk] at hn
      cases hn
    · exact absurd ‹_› htable
    · rw [if_pos hn] at h
      exact hother h (by decide) (by rw [‹p.kind = .functionDataBitfield›]; rfl)
    · rw [if_pos hn] at h
      exact hpoint h (.inr rfl) (by rw [‹p.kind = .staticModbusRoot›]; rfl)
    · exact absurd h gives_throw
  | anomalies =>
    replace h : Gives (Anomalies.childFrom t p n l) s c s' := h
    unfold Anomalies.childFrom at h
    split at h
    · rename_i hk
      exact hother h (by decide) (by rw [eq_of_beq (Bool.and_eq_true_iff.1 hk).1]; rfl)
    · exact absurd h gives_throw

end Rules

/-! ### Drops -/

namespace Workspace

variable {w w' : Workspace} {k : TreeKind} {t : Tree} {p n : Node} {payload : List Nat}

/-- What is like a parameter and is dropped in another tree comes from the parameter tree. -/
theorem Accepts.mem_parameters (hw : w.Proper) (hk : k ≠ .parameters) (h : w.Accepts k payload p n)
    (hn : n.kind.isParameterLike = true) : n ∈ (w.tree .parameters).all ∧ (w.tree k).contains n.uuid = false := by
  have htree : n.kind.tree = .parameters := by
    cases hkind : n.kind <;> first | rfl | (rw [hkind] at hn; cases hn)
  have hplace : ∀ j, n ∈ (w.tree j).all → j = .parameters := fun j hj => by
    rw [← hw.kind j, Tree.kind_of_mem (hw.valid j) hj, htree]
  refine ⟨?_, Bool.eq_false_iff.2 fun hin => hk (hplace k (h.mem hin))⟩
  obtain ⟨t, ht, hfind⟩ := Lookup.exists_treeOf? h.found
  have hnt := (Tree.mem_of_find? hfind).1
  rcases List.mem_cons.1 (List.mem_of_find?_eq_some ht) with rfl | ht
  · exact absurd (hplace k hnt) hk
  · obtain ⟨j, -, rfl⟩ := List.mem_map.1 ht
    obtain rfl := hplace j hnt
    exact hnt

/-- The node made by a drop of what is like a parameter. -/
theorem Dropped.made (hw : w.Proper) (hk : k ≠ .parameters) (ha : w.Accepts k payload p n)
    (hn : n.kind.isParameterLike = true) {row : Option Nat} {c : Node} (h : w.Dropped k p n row c w') :
    c.uuid ∉ (w.tree k).uuids ∧ ∃ m ∈ (w'.tree k).all, m.uuid = c.uuid ∧ p.kind.carrier? = some m.kind ∧
      m.Carries ((w.models.others k).effective? n.uuid) := by
  obtain ⟨-, hout⟩ := ha.mem_parameters hw hk hn
  rcases h.source with ⟨-, hmoved, -⟩ | ⟨hjoins, -, ⟨s, s', hnew⟩, hbecomes⟩
  · exact absurd (Tree.contains_iff.2 (Node.uuid_mem_uuids hmoved)) (by rw [hout]; decide)
  obtain ⟨hleaf, hcarrier, hcarries⟩ := Rules.carries_childFrom hk ha.allowed hn hout hnew
  have hmem : c ∈ ((w.tree k).edit p.uuid fun m => m.addChild row c).all :=
    Node.mem_edit_of_mem (f := fun m => m.addChild row c) (hw.valid k).nodup ha.target rfl
      (Node.mem_all_of_child (Node.mem_place.2 (.inl rfl)))
  have hfree : Tree.ReferenceFree c := by
    have hkinds : ∀ i j : Kind, i.carrier? = some j → j ≠ .tableRepeatingBlockReference ∧
        j ≠ .tableRepeatingBlockReferenceDataPointReference := by
      intro i j; cases i <;> rintro ⟨⟩ <;> decide
    exact Tree.referenceFree_of_leaf hleaf (hkinds _ _ hcarrier)
  obtain ⟨m, hm, hu, hmk, hget⟩ := hbecomes.exists_mem hmem hfree
  exact ⟨hjoins.2.1 _ (Node.uuid_mem_uuids c.mem_all_self), m, hm, hu, hmk ▸ hcarrier, hcarries.congr hmk hget⟩

end Workspace

namespace Edit

open Workspace

variable {w : Workspace} {k : TreeKind} {p n : Node} {payload : List Nat}

/-- What is like a parameter can be dropped wherever that is accepted, and a new node of the kind that goes with the
target is made of it. It carries the settings that are found from a parameter or an element of an array on along
the originals; of a leaf of a table it carries none. -/
theorem carries_of_drop (hw : w.Proper) (hc : (w.tree .parameters).Consistent) (hm : (w.tree .parameters).Mirrored)
    (hk : k ≠ .parameters) (ha : w.Accepts k payload p n) (hn : n.kind.isParameterLike = true) (row : Option Nat) :
    (∃ u w', Gives (drop k payload p.uuid row) w u w') ∧
    ∀ u w', Gives (drop k payload p.uuid row) w u w' → u ∉ (w.tree k).uuids ∧ ∃ c ∈ (w'.tree k).all, c.uuid = u ∧
      p.kind.carrier? = some c.kind ∧
      (n.kind ≠ .tableArrayElement → c.Carries (w.models.lookup.attribute? n.uuid)) ∧
      (n.kind = .tableArrayElement → c.Carries fun _ => none) := by
  refine ⟨exists_drop (hw.valid k) ha row, fun u w' h => ?_⟩
  obtain ⟨p', n', c, ha', hpu, rfl, hdropped⟩ := dropped_of_drop (hw.valid k) h
  obtain rfl := Node.eq_of_uuid (hw.valid k).nodup ha'.target ha.target hpu
  obtain rfl := Option.some.inj (ha'.found.symm.trans ha.found)
  obtain ⟨hnew, m, hmt, hu, hcarrier, hcarries⟩ := hdropped.made hw hk ha' hn
  obtain ⟨hnt, -⟩ := ha'.mem_parameters hw hk hn
  obtain ⟨others, hothers⟩ : ∃ l, w.models.others k = w.tree .parameters :: l := w.models.exists_others hk
  have hall : w.models.lookup = w.tree .parameters :: w.models.others .parameters := w.models.lookup_eq
  rw [hothers] at hcarries
  refine ⟨hnew, m, hmt, hu, hcarrier, fun hk' => hcarries.filter fun a ha => ?_,
    fun hk' => hcarries.filter fun a ha => ?_⟩
  · have hkind : n'.kind = .parameter ∨ n'.kind = .arrayParameterElement := by
      simpa [Kind.isParameterLike, Kind.parameterLike, hk'] using hn
    have hshared : ∀ a ∈ [Attr.displayHexadecimal, .enumeration, .units],
        Kind.sharedAttributes.contains a = true := by decide
    rw [hall, Lookup.attribute?_eq_effective? hc hm hnt hkind (hshared a ha), Lookup.effective?_cons hnt]
  · have hfields : ∀ a ∈ [Attr.displayHexadecimal, .enumeration, .units],
        Kind.tableArrayElement.field? a = none := by decide
    have hnone : n'.data.get? a = none := by
      rw [Data.get?_eq_none, show n'.data.kind = _ from hk']
      exact hfields a ha
    rw [Lookup.effective?_cons hnt, Tree.effective?_of_ne (hw.valid .parameters).nodup hnt (by simp [hk']), hnone]
    rfl

/-- A table of one axis and one parameter, an array of a parameter and another element, and a message. -/
def tableAndArray : Workspace :=
  let settings := [(.displayHexadecimal, .bool true), (.enumeration, .uuid ⟨3⟩), (.units, .string "A")]
  ((initial 100).withModel .parameters { tree := ⟨.parameters, ⟨⟨1⟩, .initial .root,
    [⟨⟨2⟩, .initial .table,
      [⟨⟨3⟩, .initial .enumeration, [.leaf ⟨4⟩ (.initial .enumerator)]⟩,
        ⟨⟨5⟩, .initial .group, [.leaf ⟨6⟩ (.of .parameter settings)]⟩]⟩,
      ⟨⟨7⟩, .of .array [(.length, .integer 2)], [.leaf ⟨8⟩ (.of .parameter settings),
        .leaf ⟨9⟩ (.of .arrayParameterElement [(.original, .uuid ⟨8⟩)])]⟩]⟩⟩ }).withModel .can
    { tree := ⟨.can, ⟨⟨10⟩, .initial .canRoot, [.leaf ⟨11⟩ (.initial .message)]⟩⟩, dropSources := [.parameters] }

/-- With the table expanded. -/
def leafAndArray : Workspace := (outcome (expandTable .parameters ⟨2⟩) tableAndArray).2

theorem leafAndArray_spec : leafAndArray.Proper ∧ (leafAndArray.tree .parameters).Consistent ∧
    (leafAndArray.tree .parameters).Mirrored ∧ (leafAndArray.tree .parameters).Unsettled [] := by
  have hall : ∀ k ∈ TreeKind.all, (leafAndArray.tree k).Valid ∧ (leafAndArray.tree k).kind = k := by decide +kernel
  have hproper : leafAndArray.Proper := ⟨fun k => (hall k k.mem_all).1, fun k => (hall k k.mem_all).2⟩
  have harray : ∀ a ∈ (leafAndArray.tree .parameters).all, a.kind = .array → a.int .length = a.children.length ∧
      ∃ first ∈ a.children.head?, first.kind = .parameter ∧ ∀ e ∈ a.children.tail,
        e.kind = .arrayParameterElement ∧ e.ref? .original = some first.uuid := by decide +kernel
  refine ⟨hproper, ⟨hproper.valid _, hproper.kind _, fun a ha hk => ?_⟩, fun a ha hk first hfirst hgroup => ?_, ?_⟩
  · obtain ⟨hlength, first, hfirst, hparameter, hothers⟩ := harray a ha hk
    refine ⟨hlength, fun x hx => ?_, fun x hx e he => ?_⟩ <;> obtain rfl := Option.mem_unique hfirst hx
    · exact .inl hparameter
    · rw [hparameter]
      exact ⟨congrArg some (hothers e he).1.symm, (hothers e he).2⟩
  · obtain ⟨-, x, hx, hparameter, -⟩ := harray a ha hk
    obtain rfl := Option.mem_unique hfirst hx
    rw [hgroup] at hparameter
    cases hparameter
  · have hvalid : (tableAndArray.tree .parameters).Valid := by decide +kernel
    have hsome : (outcome (expandTable .parameters ⟨2⟩) tableAndArray).1.toOption.isSome = true := by decide +kernel
    obtain ⟨e, he⟩ := Option.isSome_iff_exists.1 hsome
    obtain ⟨t, s, hrun, hput⟩ := expandTable_ok hvalid (gives_of_toOption he)
    have hus : (tableAndArray.tree .parameters).Unsettled [⟨2⟩] := by
      have hone : ∀ a ∈ (tableAndArray.tree .parameters).all, a.kind = .table → a.uuid ∈ [⟨2⟩] := by decide +kernel
      exact fun a ha hk => .inl (hone a ha hk)
    rw [leafAndArray, hput.tree]
    exact (Tree.unsettled_expandTable hvalid (issued_offered hvalid.nodup) hrun hus).2.2

/-- The signal made of the element has the settings of the parameter that it stands for. -/
theorem carries_of_drop_leafAndArray : leafAndArray.Proper ∧ (leafAndArray.tree .parameters).Consistent ∧
    (leafAndArray.tree .parameters).Mirrored ∧ ∃ p n u w' c, leafAndArray.Accepts .can (Uuid.bytes ⟨9⟩) p n ∧
      n.kind.isParameterLike = true ∧ Gives (drop .can (Uuid.bytes ⟨9⟩) p.uuid none) leafAndArray u w' ∧
      c ∈ (w'.tree .can).all ∧ c.uuid = u ∧ c.data.get? .hexadecimalOutput = some (.bool true) ∧
      c.data.get? .enumeration = some (.uuid ⟨3⟩) := by
  obtain ⟨hw, hc, hm, -⟩ := leafAndArray_spec
  have hfound : ∃ p ∈ (leafAndArray.tree .can).all, ∃ n ∈ leafAndArray.dropped? .can (.ofBytes (Uuid.bytes ⟨9⟩)),
      (Uuid.bytes ⟨9⟩).length = 16 ∧ (leafAndArray.models.get .can).acceptsDropsFrom n.kind.tree = true ∧
      (Rules.ofTree .can).canDrop (leafAndArray.tree .can) p n = true ∧ n.kind = .arrayParameterElement ∧
      p.kind.carrier? = some .signal ∧
      leafAndArray.models.lookup.attribute? n.uuid .displayHexadecimal = some (.bool true) ∧
      leafAndArray.models.lookup.attribute? n.uuid .enumeration = some (.uuid ⟨3⟩) := by decide +kernel
  obtain ⟨p, hp, n, hn, hlength, hknown, hdrop, hk, hpk, hx, he⟩ := hfound
  have ha : leafAndArray.Accepts .can (Uuid.bytes ⟨9⟩) p n := ⟨hlength, hp, hn, .inr hknown, hdrop⟩
  have hlike : n.kind.isParameterLike = true := by rw [hk]; rfl
  obtain ⟨⟨u, w', h⟩, hall⟩ := carries_of_drop hw hc hm (by decide) ha hlike none
  obtain ⟨-, c, hct, hu, hck, hcarries, -⟩ := hall u w' h
  have hs : c.kind = .signal := Option.some.inj (hck.symm.trans hpk)
  have hc' := hcarries (by rw [hk]; decide)
  refine ⟨hw, hc, hm, p, n, u, w', c, ha, hlike, h, hct, hu, ?_, ?_⟩
  · rw [hc'.hexadecimal hs, hx]
    rfl
  · rw [hc'.enumeration hs, he]
    rfl

/-- A leaf of an expanded table is dropped on a message, and the signal has nothing of what is found along the
originals of the leaf. -/
theorem exists_dropped_unset : (leafAndArray.Proper ∧ (leafAndArray.tree .parameters).Consistent ∧
    (leafAndArray.tree .parameters).Mirrored ∧ (leafAndArray.tree .parameters).Unsettled []) ∧
    ∃ p n u w' c, leafAndArray.Accepts .can (Uuid.bytes ⟨107⟩) p n ∧ p.kind = .message ∧ n.kind = .tableArrayElement ∧
      Gives (drop .can (Uuid.bytes ⟨107⟩) p.uuid none) leafAndArray u w' ∧ c ∈ (w'.tree .can).all ∧ c.uuid = u ∧
      c.kind = .signal ∧
      leafAndArray.models.lookup.attribute? n.uuid .displayHexadecimal = some (.bool true) ∧
      c.data.get? .hexadecimalOutput = some (.bool false) ∧
      leafAndArray.models.lookup.attribute? n.uuid .enumeration = some (.uuid ⟨3⟩) ∧
      c.data.get? .enumeration = some .null := by
  have hfound : ∃ p ∈ (leafAndArray.tree .can).all, ∃ n ∈ leafAndArray.dropped? .can (.ofBytes (Uuid.bytes ⟨107⟩)),
      ((Uuid.bytes ⟨107⟩).length = 16 ∧ (leafAndArray.models.get .can).acceptsDropsFrom n.kind.tree = true ∧
        (Rules.ofTree .can).canDrop (leafAndArray.tree .can) p n = true) ∧ p.kind = .message ∧
      n.kind = .tableArrayElement ∧
      ∃ u ∈ (outcome (drop .can (Uuid.bytes ⟨107⟩) p.uuid none) leafAndArray).1.toOption,
      ∃ c ∈ ((outcome (drop .can (Uuid.bytes ⟨107⟩) p.uuid none) leafAndArray).2.tree .can).all, c.uuid = u ∧
        c.kind = .signal ∧ leafAndArray.models.lookup.attribute? n.uuid .displayHexadecimal = some (.bool true) ∧
        c.data.get? .hexadecimalOutput = some (.bool false) ∧
        leafAndArray.models.lookup.attribute? n.uuid .enumeration = some (.uuid ⟨3⟩) ∧
        c.data.get? .enumeration = some .null := by decide +kernel
  obtain ⟨p, hp, n, hn, ⟨hlength, hknown, hdrop⟩, hpk, hk, u, hu, c, hc, hcu, hrest⟩ := hfound
  exact ⟨leafAndArray_spec, p, n, u, _, c, ⟨hlength, hp, hn, .inr hknown, hdrop⟩, hpk, hk, gives_of_toOption hu, hc,
    hcu, hrest⟩

end Edit

end DeviceModel
