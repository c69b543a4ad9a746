import DeviceModel.Hierarchy
import DeviceModel.Proofs.Can.LaidOut
import DeviceModel.Proofs.Export.Exportable
import DeviceModel.Proofs.Workspace.Outcomes

/-!
The hierarchy of parameters. Main statements: where siblings have different names, what stands at the names of a
parameter is what stands for it (`at?_namePath`); and where no reference signal of a table names it before, that is
the first signal of the matrix that carries it (`pair_at_namePath`).
-/

namespace DeviceModel

namespace Json

/-- What stands at the end of a path of keys. -/
def at? : Json → List String → Option Json
  | j, [] => some j
  | .object ms, key :: keys => (member? key ms).bind (at? · keys)
  | _, _ :: _ => none

theorem member?_put_of_ne {ms : List (String × Json)} {key k : String} (h : k ≠ key) (j : Json) :
    member? k (put ms key j) = member? k ms := by
  induction ms with
  | nil => simp [put, member?, Ne.symm h]
  | cons m ms ih =>
    obtain ⟨l, v⟩ := m
    rw [put]
    split
    · rename_i hl
      subst hl
      simp [member?, Ne.symm h]
    · rw [member?, member?, List.find?_cons, List.find?_cons]
      split
      · rfl
      · exact ih

end Json

/-- No two siblings of the tree have the same name. -/
def Tree.HasDistinctNames (t : Tree) : Prop := ∀ n ∈ t.all, (n.children.map Node.name).Nodup

instance (t : Tree) : Decidable t.HasDistinctNames :=
  inferInstanceAs (Decidable (∀ n ∈ t.all, (n.children.map Node.name).Nodup))

namespace Hierarchy

variable {cs : List Carrier} {n c x : Node}

/-- Whether nodes of the kind are objects. -/
def isBranch (k : Kind) : Bool :=
  [Kind.root, .group, .array, .arrayGroupElement, .table, .tableGroupElement].contains k

theorem ofNode_branch (h : isBranch n.kind = true) : ofNode cs n =
    match ofNode.members cs [] n.children with
    | [] => none
    | ms => some (.object ms) := by
  obtain ⟨u, d, ns⟩ := n
  replace h : isBranch d.kind = true := h
  rw [ofNode]
  revert h
  cases d.kind <;> first | exact fun _ => rfl | exact fun h => by cases h

theorem ofNode_leaf (h : n.kind.isParameterLike = true) : ofNode cs n =
    (cs.find? (·.parameter == n.uuid)).map fun c => .array [.string c.frame, .string c.signal] := by
  obtain ⟨u, d, ns⟩ := n
  replace h : d.kind.isParameterLike = true := h
  rw [ofNode]
  revert h
  cases d.kind <;> first | exact fun _ => rfl | exact fun h => by cases h

/-! ### Members -/

theorem member?_members_of_notMem {ns : List Node} {name : String} (h : name ∉ ns.map Node.name)
    (ms : List (String × Json)) : Json.member? name (ofNode.members cs ms ns) = Json.member? name ms := by
  induction ns generalizing ms with
  | nil => rw [ofNode.members]
  | cons n ns ih =>
    rw [List.map_cons, List.mem_cons, not_or] at h
    rw [ofNode.members]
    split
    · rw [ih h.2, Json.member?_put_of_ne h.1]
    · exact ih h.2 ms

/-- Under the name of a child stands what stands for the child. -/
theorem member?_members {ns : List Node} (hn : (ns.map Node.name).Nodup) (hc : c ∈ ns) {ms : List (String × Json)}
    (hms : Json.member? c.name ms = none) : Json.member? c.name (ofNode.members cs ms ns) = ofNode cs c := by
  induction ns generalizing ms with
  | nil => cases hc
  | cons n ns ih =>
    obtain ⟨hnotMem, hn⟩ := List.nodup_cons.1 hn
    rw [ofNode.members]
    rcases List.mem_cons.1 hc with rfl | hc
    · split
      · rename_i j hj
        rw [member?_members_of_notMem hnotMem, Json.member?_put, hj]
      · rename_i hj
        rw [member?_members_of_notMem hnotMem, hms, hj]
    · have hne : c.name ≠ n.name := fun h => hnotMem (h ▸ List.mem_map_of_mem hc)
      split
      · exact ih hn hc (by rwa [Json.member?_put_of_ne hne])
      · exact ih hn hc hms

/-- One step down a path of names. -/
theorem at?_child (hb : isBranch n.kind = true) (hn : (n.children.map Node.name).Nodup) (hc : c ∈ n.children)
    (names : List String) : (ofNode cs n).bind (·.at? (c.name :: names)) = (ofNode cs c).bind (·.at? names) := by
  have hmember : Json.member? c.name (ofNode.members cs [] n.children) = ofNode cs c := member?_members hn hc rfl
  rw [ofNode_branch hb, ← hmember]
  split
  · rename_i hms
    rw [hms]
    rfl
  · rfl

/-- What has parameters below it is an object. -/
theorem isBranch_of_mem (hn : n.Allowed) (hx : x ∈ n.all) (hk : x.kind.isParameterLike = true) :
    n = x ∨ isBranch n.kind = true := by
  induction n using Node.inductOn with
  | h n ih =>
    rcases Node.mem_all.1 hx with rfl | ⟨c, hc, hx⟩
    · exact .inl rfl
    · obtain ⟨hallows, hca⟩ := Node.allowed_iff.1 hn c hc
      have hkinds : ∀ j : Kind, isBranch j = false → ∀ k ∈ j.childKinds, (k.isParameterLike || isBranch k) = false := by
        intro j; cases j <;> decide
      refine .inr (by_contra fun hb => ?_)
      have hck := hkinds _ (Bool.eq_false_iff.2 hb) c.kind (by simpa [Kind.allows] using hallows)
      rw [Bool.or_eq_false_iff] at hck
      rcases ih c hc hca hx with rfl | h
      · exact Bool.false_ne_true (hck.1.symm.trans hk)
      · exact Bool.false_ne_true (hck.2.symm.trans h)

/-- At the names of a parameter stands what stands for it. -/
theorem at?_ofNode (cs : List Carrier) (hu : n.uuids.Nodup) (hn : n.Allowed) (hnames : ∀ m ∈ n.all, (m.children.map Node.name).Nodup)
    (hx : x ∈ n.all) (hk : x.kind.isParameterLike = true) : ∃ rest, n.trail? x.uuid = some (n :: rest) ∧
      (ofNode cs n).bind (·.at? (rest.map Node.name)) = ofNode cs x := by
  induction n using Node.inductOn with
  | h n ih =>
    rcases Node.mem_all.1 hx with rfl | ⟨c, hc, hxc⟩
    · refine ⟨[], Node.trail?_self x, ?_⟩
      cases ofNode cs x <;> rfl
    · have hcn := Node.mem_all_of_child hc
      obtain ⟨rest, hrest, hat⟩ := ih c hc (Node.nodup_of_mem hcn hu) (hn.of_mem hcn)
        (fun m hm => hnames m (Node.mem_all_trans hm hcn)) hxc
      refine ⟨c :: rest, ?_, ?_⟩
      · rw [Node.trail?_of_child hu hc (Node.uuid_mem_uuids hxc), hrest]
        rfl
      · have hne : n ≠ x := by
          rintro rfl
          exact Node.uuid_notMem_below hu (List.mem_flatMap.2 ⟨c, hc, Node.uuid_mem_uuids hxc⟩)
        have hb := (isBranch_of_mem hn hx hk).resolve_left hne
        rw [List.map_cons, at?_child hb (hnames n n.mem_all_self) hc, hat]

/-! ### Carriers -/

/-- Whether the node names the parameter `u`. -/
def carries (u : Uuid) (n : Node) : Bool := n.ref? .parameter == some u

/-- The carrier of a parameter is the first signal that names it. -/
theorem find?_carriers (can : Tree) (u : Uuid) : (carriers can).find? (·.parameter == u) =
    ((can.ofKind .signal).find? (carries u)).bind (carrier? can) := by
  rw [carriers, List.find?_filterMap]
  congr 2
  funext n
  unfold carrier? carries
  cases n.ref? .parameter with
  | none => rfl
  | some p => simp

/-- A signal that is laid out carries its parameter in the message or multiplexer that it lies in. -/
theorem carrier?_of_laidOut {can : Tree} (ht : can.Valid) {y : Node × Node} (hy : y ∈ Can.laidOut can) {u : Uuid}
    (hu : carries u y.2 = true) : carrier? can y.2 = some ⟨u, y.1.name, y.2.name⟩ := by
  obtain ⟨hh, hs, -, hk⟩ := Can.holder_of_laidOut ht hy
  have hframe : isFrame y.1.kind = true := by rcases hk with hk | hk | hk <;> rw [hk] <;> rfl
  have hparent := Tree.parent?_of_child ht.nodup hh hs
  rw [carrier?, eq_of_beq hu, Tree.ancestors_of_parent? ht.nodup hparent, List.find?_cons_of_pos (by exact hframe)]
  rfl

/-- The first signal that names the parameter is laid out, if there is one. -/
def FirstIsLaidOut (can : Tree) (u : Uuid) : Prop :=
  ∀ s ∈ (can.ofKind .signal).find? (carries u), can.parentKind? s.uuid ≠ some .canTable

instance (can : Tree) (u : Uuid) : Decidable (FirstIsLaidOut can u) :=
  inferInstanceAs (Decidable (∀ s ∈ (can.ofKind .signal).find? (carries u), can.parentKind? s.uuid ≠ some .canTable))

/-- A first match that was not dropped is the first match among what is left. -/
theorem find?_eq_of_sublist {α : Type} {p : α → Bool} {l l' : List α} (h : l'.Sublist l) (hl : l.Nodup)
    (hmem : ∀ a, l.find? p = some a → a ∈ l') : l'.find? p = l.find? p := by
  induction h with
  | slnil => rfl
  | @cons l' l a h ih =>
    obtain ⟨ha, hl⟩ := List.nodup_cons.1 hl
    have hpa : ¬ p a := fun hpa => ha (h.subset (hmem a (List.find?_cons_of_pos hpa)))
    rw [List.find?_cons_of_neg hpa] at hmem ⊢
    exact ih hl hmem
  | @cons_cons l' l a h ih =>
    by_cases hpa : p a
    · rw [List.find?_cons_of_pos hpa, List.find?_cons_of_pos hpa]
    · rw [List.find?_cons_of_neg hpa] at hmem ⊢
      rw [List.find?_cons_of_neg hpa]
      refine ih (List.nodup_cons.1 hl).2 fun b hb => ?_
      exact (List.mem_cons.1 (hmem b hb)).resolve_left fun hba => hpa (hba ▸ List.find?_some hb)

theorem find?_carriers_of_laidOut {can : Tree} (ht : can.Valid) (hk : can.kind = .can) {u : Uuid}
    (hfirst : FirstIsLaidOut can u) : (carriers can).find? (·.parameter == u) =
      ((Can.laidOut can).find? fun y => carries u y.2).map fun y => ⟨u, y.1.name, y.2.name⟩ := by
  have hlaid : ((Can.laidOut can).map Prod.snd).find? (carries u) = (can.ofKind .signal).find? (carries u) := by
    refine find?_eq_of_sublist (Can.laidOut_sublist ht) (.filter _ (.of_map _ ht.nodup)) fun s hs => ?_
    obtain ⟨hst, hsk⟩ := List.mem_filter.1 (List.mem_of_find?_eq_some hs)
    obtain ⟨h, hh⟩ := Can.exists_mem_laidOut ht hk hst (eq_of_beq hsk) (hfirst s hs)
    exact List.mem_map.2 ⟨(h, s), hh, rfl⟩
  rw [find?_carriers, ← hlaid, List.find?_map]
  cases hy : (Can.laidOut can).find? (carries u ∘ Prod.snd) with
  | none =>
    rw [show ((Can.laidOut can).find? fun y => carries u y.2) = none from hy]
    rfl
  | some y =>
    rw [show ((Can.laidOut can).find? fun y => carries u y.2) = some y from hy]
    have hyu := List.find?_some hy
    exact carrier?_of_laidOut ht (List.mem_of_find?_eq_some hy) hyu

/-! ### The document -/

/-- What stands at the names of a parameter is what stands for it. -/
theorem at?_namePath {can t : Tree} (ht : t.Valid) (hnames : t.HasDistinctNames) (hx : x ∈ t.all)
    (hk : x.kind.isParameterLike = true) : (document t can).at? (t.namePath x.uuid) = ofNode (carriers can) x := by
  obtain ⟨rest, hrest, hat⟩ := at?_ofNode (carriers can) ht.nodup ht.allowedRoot hnames hx hk
  have hpath : t.namePath x.uuid = rest.map Node.name := by
    rw [Tree.namePath, Tree.trail, hrest]
    rfl
  have hrest : rest ≠ [] := by
    rintro rfl
    obtain ⟨above, habove, -⟩ := Node.trail?_of_mem ht.nodup hx
    have hsingle : above ++ [x] = [t.root] := Option.some.inj (habove.symm.trans hrest)
    have hroot : t.root.kind = x.kind := congrArg Node.kind (by simpa using congrArg List.getLast? hsingle.symm)
    rw [← hroot, ht.root] at hk
    revert hk
    cases t.kind <;> decide
  obtain ⟨key, keys, hkeys⟩ := List.exists_cons_of_ne_nil (mt List.map_eq_nil_iff.1 hrest)
  rw [hpath, document, ← hat, hkeys]
  cases ofNode (carriers can) t.root <;> rfl

/-- The pair that stands in the place of a parameter. -/
def Carrier.pair (c : Carrier) : Json := .array [.string c.frame, .string c.signal]

/-- Where siblings have different names, what stands at the names of a parameter is the first signal that names it.
If that is no reference signal of a table then it is the first signal of the matrix that carries the parameter, with
the message or the multiplexer that it lies in; and where nothing stands, no signal of the matrix carries it. -/
theorem pair_at_namePath {ms : Models} (hv : ∀ k, (ms.tree k).Valid) (hk : ∀ k, (ms.tree k).kind = k)
    (hnames : (ms.tree .parameters).HasDistinctNames) {title : String} {m : Can.Matrix}
    (hm : Can.Matrix.ofModels ms title = .ok m) : m.LaysOut (ms.tree .can) ∧
      ∀ n ∈ (ms.tree .parameters).all, n.kind.isParameterLike = true →
        (document (ms.tree .parameters) (ms.tree .can)).at? ((ms.tree .parameters).namePath n.uuid) =
          (((ms.tree .can).ofKind .signal).find? (carries n.uuid)).bind
            (fun s => (carrier? (ms.tree .can) s).map Carrier.pair) ∧
        (FirstIsLaidOut (ms.tree .can) n.uuid →
          (document (ms.tree .parameters) (ms.tree .can)).at? ((ms.tree .parameters).namePath n.uuid) =
            ((Can.laidOut (ms.tree .can)).find? fun y => carries n.uuid y.2).map fun y =>
              .array [.string y.1.name, .string y.2.name]) := by
  refine ⟨Can.laysOut_of_ofModels (hv .can) (hk .can) hm, fun n hn hnk => ?_⟩
  rw [at?_namePath (hv .parameters) hnames hn hnk, ofNode_leaf hnk]
  refine ⟨?_, fun hfirst => ?_⟩
  · rw [find?_carriers, Option.map_bind]
    rfl
  · rw [find?_carriers_of_laidOut (hv .can) (hk .can) hfirst, Option.map_map]
    rfl

/-- An expanded table of one parameter, dropped on a multiplexed message, where its view has been expanded. -/
def droppedTable : Models :=
  (outcome (do
    let table ← Edit.addChild .parameters (← Edit.tree .parameters).root.uuid .table
    let axis ← Edit.addChild .parameters table .enumeration
    let _ ← Edit.addChild .parameters axis .enumerator
    let row ← Edit.addChild .parameters table .group
    let _ ← Edit.addChild .parameters row .parameter
    let _ ← Edit.expandTable .parameters table
    let message ← Edit.addChild .can (← Edit.tree .can).root.uuid .multiplexedMessage
    let selector ← Edit.addChild .can message .signal
    Edit.setAttribute .can selector Attr.bits.key (.integer 8)
    let view ← Edit.drop .can table.bytes message none
    for reference in (((← Edit.tree .can).find? view).map Node.children).getD [] do
      Edit.setAttribute .can reference.uuid Attr.bits.key (.integer 8)
    Edit.expandView .can view none {}) (.initial 0)).2.models

theorem valid_droppedTable : (∀ k, (droppedTable.tree k).Valid) ∧ ∀ k, (droppedTable.tree k).kind = k := by
  have hall : ∀ k ∈ TreeKind.all, (droppedTable.tree k).Valid ∧ (droppedTable.tree k).kind = k := by decide +kernel
  exact ⟨fun k => (hall k k.mem_all).1, fun k => (hall k k.mem_all).2⟩

/-- The generated signal lies in the multiplexer that was made for the row. -/
theorem pair_at_namePath_droppedTable :
    ∃ n ∈ (droppedTable.tree .parameters).all, n.kind = .tableArrayElement ∧
      (document (droppedTable.tree .parameters) (droppedTable.tree .can)).at?
          ((droppedTable.tree .parameters).namePath n.uuid) =
        some (.array [.string "New Enumerator_New Group", .string "New Parameter"]) := by
  have hmatrix : (Can.Matrix.ofModels droppedTable "pmc").toOption.isSome := by decide +kernel
  obtain ⟨m, hm⟩ := Option.isSome_iff_exists.1 hmatrix
  obtain ⟨n, hn, hnk, hfirst, hlaid⟩ : ∃ n ∈ (droppedTable.tree .parameters).all, n.kind = .tableArrayElement ∧
      FirstIsLaidOut (droppedTable.tree .can) n.uuid ∧
        ((Can.laidOut (droppedTable.tree .can)).find? fun y => carries n.uuid y.2).map
          (fun y => (y.1.name, y.2.name)) = some ("New Enumerator_New Group", "New Parameter") := by decide +kernel
  obtain ⟨hv, hk⟩ := valid_droppedTable
  have hpair := ((pair_at_namePath hv hk (by decide +kernel) (mem_toOption_iff.1 hm)).2 n hn (by rw [hnk]; rfl)).2 hfirst
  obtain ⟨y, hy, hyn⟩ := Option.map_eq_some_iff.1 hlaid
  obtain ⟨hframe, hsignal⟩ := Prod.mk.inj hyn
  refine ⟨n, hn, hnk, ?_⟩
  rw [hpair, hy, Option.map_some, hframe, hsignal]

/-- The parameter that the table is built from stands in the document with the reference signal that was dropped for
it, which is not laid out. -/
theorem exists_pair_not_laidOut : ∃ ms : Models, ms.Clean ∧ (ms.tree .parameters).HasDistinctNames ∧ (∃ m, Can.Matrix.ofModels ms "pmc" = .ok m) ∧
      ∃ n ∈ (ms.tree .parameters).all, n.kind.isParameterLike = true ∧
        (∀ y ∈ Can.laidOut (ms.tree .can), carries n.uuid y.2 = false) ∧
          (document (ms.tree .parameters) (ms.tree .can)).at? ((ms.tree .parameters).namePath n.uuid) =
            some (.array [.string "New Multiplexed Message", .string "New Parameter"]) := by
  have hmatrix : (Can.Matrix.ofModels droppedTable "pmc").toOption.isSome := by decide +kernel
  obtain ⟨m, hm⟩ := Option.isSome_iff_exists.1 hmatrix
  obtain ⟨n, hn, hnk, hnone, hcarrier⟩ : ∃ n ∈ (droppedTable.tree .parameters).all, n.kind.isParameterLike = true ∧
      (∀ y ∈ Can.laidOut (droppedTable.tree .can), carries n.uuid y.2 = false) ∧
        ((carriers (droppedTable.tree .can)).find? (·.parameter == n.uuid)).map (fun c => (c.frame, c.signal)) =
          some ("New Multiplexed Message", "New Parameter") := by decide +kernel
  obtain ⟨hv, hk⟩ := valid_droppedTable
  obtain ⟨c, hc, hcn⟩ := Option.map_eq_some_iff.1 hcarrier
  obtain ⟨hframe, hsignal⟩ := Prod.mk.inj hcn
  refine ⟨droppedTable, ⟨hv, hk, by decide +kernel⟩, by decide +kernel, ⟨m, mem_toOption_iff.1 hm⟩, n, hn, hnk, hnone, ?_⟩
  rw [at?_namePath (hv .parameters) (by decide +kernel) hn hnk, ofNode_leaf hnk, hc, Option.map_some, hframe, hsignal]

end Hierarchy

end DeviceModel
