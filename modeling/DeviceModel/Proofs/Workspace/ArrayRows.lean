import DeviceModel.Proofs.Rules.Generated
import DeviceModel.Proofs.Workspace.ScopeEdits

/-!
Rows of arrays that come and go together. Main statements: a new element of an array, or a new member of its
first group with its stand-ins, changes rows below the array only and none that expansion made
(`addParameter_told`), and so does one that goes (`removeParameter_told`).
-/

namespace DeviceModel

open Node

open Edit (counted standIn)

namespace Tree

variable {t : Tree} (ht : t.Valid)
include ht

/-- What stands below something derived is derived. -/
theorem IsDerived.child {p n : Node} (hp : p ∈ t.all) (hn : n ∈ p.children) (h : t.IsDerived p.uuid) :
    t.IsDerived n.uuid := by
  obtain ⟨v, hv, hu, hk⟩ := h
  obtain ⟨m, hm, hmu⟩ := Node.mem_uuids.1 hu
  obtain rfl := Node.eq_of_uuid ht.nodup (Node.mem_all_trans hm hv) hp hmu
  exact ⟨v, hv, Node.uuid_mem_uuids (Node.mem_all_trans (Node.mem_all_of_child hn) hm), hk⟩

/-- Neither the elements of arrays are derived nor what stands in for a parameter. -/
theorem not_isDerived_of_kind {n : Node} (hn : n ∈ t.all) (hk : n.kind ∉ derivedKinds) :
    ¬t.IsDerived n.uuid :=
  fun h => hk (kind_of_isDerived ht hn h)

theorem not_isDerived_element {a e : Node} (ha : a ∈ t.all) (hk : a.kind = .array) (he : e ∈ a.children) :
    ¬t.IsDerived e.uuid := by
  refine not_isDerived_of_kind ht (mem_all_of_child ha he) ?_
  have hallows := ht.allowed a ha e he
  rw [hk] at hallows
  revert hallows
  cases e.kind <;> decide

/-- An array is no element of one. -/
theorem isFirstElement_array {p : Node} (hp : p ∈ t.all) (hk : p.kind = .array) :
    t.isFirstElement p.uuid = false := by
  refine Bool.eq_false_iff.2 fun h => ?_
  obtain ⟨a, ha, hak, hfirst⟩ := exists_array_of_isFirstElement ht.nodup hp h
  exact ht.kind_element ha hak (List.mem_of_mem_head? hfirst) (k := .array) (by decide) hk

omit ht in
/-- Counting changes no rows. -/
theorem sameRows_counted (u : Uuid) : t.SameRows (t.edit u counted) :=
  sameRows_of_listings
    (Node.listings_edit_of_listing (f := counted) (fun m => Prod.ext rfl (kind_counted m)) (fun _ => rfl) t.root)

omit ht in
theorem isPlain_of_array {a : Node} (h : a.kind = .array) : a.listing.IsPlain := by
  rw [Listing.IsPlain, Node.kind_listing, h]
  decide

end Tree

namespace Edit

open Workspace

variable {w w' : Workspace} (hw : (w.tree .parameters).Valid)
include hw

/-! ### Coming -/

/-- A new element of an array. -/
theorem addElement_told {p child : Node} (hp : p ∈ (w.tree .parameters).all) (hpk : p.kind = .array)
    (hd : ¬(w.tree .parameters).IsDerived p.uuid) (hck : child.kind.isMade = false) {u : Uuid}
    (hrun : Gives (transaction .parameters p.uuid fun t => do
      let t ← liftM (t.insert p.uuid none child)
      return (t.edit p.uuid counted, child.uuid)) w u w') :
    ∃ t, Replaced w .parameters p t w' ∧ (w.tree .parameters).Spares t := by
  have hnt := hw.nodup
  have hinserted : ∀ t₁, (w.tree .parameters).insert p.uuid none child = .ok t₁ →
      t₁ = (w.tree .parameters).edit p.uuid (·.addChild none child) ∧ t₁.Valid ∧
        child.Joins (w.tree .parameters).uuids ∧ p.addChild none child ∈ t₁.all := by
    intro t₁ hinsert
    have hv := hw.insert hinsert
    obtain ⟨-, -, -, -, hjoins, rfl⟩ := Tree.insert_ok hinsert
    exact ⟨rfl, hv, hjoins, Node.mem_edit_of_mem (f := (·.addChild none child)) hnt hp rfl (mem_all_self _)⟩
  obtain ⟨t, v, hrun, hreplaced⟩ := replaced_of_transaction hw hp hrun fun t b v hrun => by
    simp only [gives_bind, gives_liftM, gives_pure, Prod.mk.injEq] at hrun
    obtain ⟨t₁, _, ⟨hinsert, rfl⟩, ⟨rfl, -⟩, rfl⟩ := hrun
    obtain ⟨rfl, hv, -, hself⟩ := hinserted t₁ hinsert
    have hcounted := Tree.valid_counted hv hself
    have hout := Tree.keepsOutside_edit (f := (·.addChild none child)) hnt hp rfl
    exact ⟨hcounted, rfl, .refl w, hout.trans hv hcounted.nodup (Tree.sameRows_counted _) (Tree.isPlain_of_array hpk)⟩
  refine ⟨t, hreplaced, ?_⟩
  simp only [gives_bind, gives_liftM, gives_pure, Prod.mk.injEq] at hrun
  obtain ⟨t₁, _, ⟨hinsert, rfl⟩, ⟨rfl, -⟩, rfl⟩ := hrun
  obtain ⟨rfl, -, hjoins, -⟩ := hinserted t₁ hinsert
  refine Tree.Spares.sameRows (fun l hl _ => ?_) (Tree.sameRows_counted _)
  rcases Node.mem_listings_addChild hw.nodup_root hl with hl | ⟨m, hm, rfl⟩
  · exact .inl (hjoins.2.1 _ (Node.uuid_mem_of_listing hl))
  · exact .inr ⟨m, hm, Tree.spared_withRow hd hck m⟩

/-- A new member of the first group of an array, and its stand-ins. -/
theorem addMember_told {a p child : Node} (ha : a ∈ (w.tree .parameters).all) (hak : a.kind = .array)
    (hfirst : p ∈ a.children.head?) (hck : child.kind.isMade = false) {u : Uuid}
    (hrun : Gives (transaction .parameters a.uuid fun t => do
      let t ← liftM (t.insert p.uuid none child)
      let elements := ((t.children a.uuid).drop 1).map Node.uuid
      let t ← elements.foldlM (fun t e => do
        let m ← fresh (standIn child)
        liftM (t.insert e none m)) t
      return (t, child.uuid)) w u w') :
    ∃ t, Replaced w .parameters a t w' ∧ (w.tree .parameters).Spares t := by
  have hpa := List.mem_of_mem_head? hfirst
  -- What comes in comes in below elements, and is new.
  have hextended : ∀ t v b, Gives (do
      let t ← liftM ((w.tree .parameters).insert p.uuid none child)
      let elements := ((t.children a.uuid).drop 1).map Node.uuid
      let t ← elements.foldlM (fun t e => do
        let m ← fresh (standIn child)
        liftM (t.insert e none m)) t
      return (t, child.uuid) : Edit (Tree × Uuid)) w (t, b) v →
      t.Valid ∧ ∃ g, t = { w.tree .parameters with root := (w.tree .parameters).root.extend g } ∧
        ∀ u, g u ≠ [] → (∃ e ∈ a.children, e.uuid = u) ∧
          ∀ c ∈ g u, c.kind.isMade = false ∧ ∀ x ∈ c.uuids, x ∉ (w.tree .parameters).uuids := by
    intro t v b hrun
    obtain ⟨-, hjoins, hv, g, rfl, hself, hg, hnone⟩ := extended_of_member hw ha hak hfirst hrun
    refine ⟨hv, g, rfl, fun u hne => ?_⟩
    by_cases hup : u = p.uuid
    · subst hup
      refine ⟨⟨p, hpa, rfl⟩, fun c hc => ?_⟩
      rw [hself, List.mem_singleton] at hc
      exact hc ▸ ⟨hck, fun x hx => hjoins.2.1 x hx⟩
    · have hu : u ∈ a.children.tail.map Node.uuid := by_contra fun hu => hne (hnone u hup hu)
      obtain ⟨e, he, heu⟩ := List.mem_map.1 hu
      refine ⟨⟨e, List.mem_of_mem_tail he, heu⟩, fun c hc => ?_⟩
      obtain ⟨m, hm, hstand, hfresh⟩ := hg u hu
      rw [hm, List.mem_singleton] at hc
      subst hc
      refine ⟨by rw [hstand.kind]; decide, fun x hx hxt => ?_⟩
      rw [Node.uuids_eq, hstand.leaf, List.flatMap_nil, List.mem_singleton] at hx
      exact hfresh (hx ▸ hxt)
  obtain ⟨t, v, hrun, hreplaced⟩ := replaced_of_transaction hw ha hrun fun t b v hrun => by
    obtain ⟨hv, g, rfl, hg⟩ := hextended t v b hrun
    have huntouched : Untouched w v := by
      refine (silent_bind (silent_liftM _) fun t => silent_bind (silent_foldlM (fun t e => ?_) _ _) fun _ =>
        silent_pure _).untouched hrun
      exact silent_bind (silent_fresh _) fun _ => silent_liftM _
    refine ⟨hv, rfl, huntouched, ?_⟩
    have hedit := Node.extend_eq_edit (g := g) hw.nodup_root ha fun u _ hua => by_contra fun hne => by
      obtain ⟨⟨e, he, rfl⟩, -⟩ := hg u hne
      exact hua (Node.uuid_mem_uuids (Node.mem_all_of_child he))
    rw [hedit]
    exact Tree.keepsOutside_edit hw.nodup ha (Prod.ext (Node.uuid_extend a) (Node.kind_extend a))
  refine ⟨t, hreplaced, ?_⟩
  obtain ⟨-, g, rfl, hg⟩ := hextended t v u hrun
  refine Tree.spares_extend fun u _ hne => ?_
  obtain ⟨⟨e, he, rfl⟩, hnew⟩ := hg u hne
  exact ⟨Tree.not_isDerived_element hw ha hak he, hnew⟩

/-- A new node comes in alone, or rows of an array are told of anew. -/
theorem addParameter_told {p child : Node} (hp : p ∈ (w.tree .parameters).all)
    (hd : ¬(w.tree .parameters).IsDerived p.uuid) (hck : child.kind.isMade = false) {u : Uuid}
    (hrun : Gives (addParameter p.uuid child) w u w') : Inserted w .parameters p none child w' ∨
      ∃ a t, a.kind = .array ∧ Replaced w .parameters a t w' ∧ (w.tree .parameters).Spares t := by
  simp only [addParameter, gives_bind, gives_tree, gives_liftM] at hrun
  obtain ⟨_, _, ⟨rfl, rfl⟩, p', _, ⟨hfind, rfl⟩, hrun⟩ := hrun
  obtain ⟨hp', hpu⟩ := Tree.mem_of_find? (Tree.node_eq_ok.1 hfind)
  obtain rfl := Node.eq_of_uuid hw.nodup hp hp' hpu.symm
  split at hrun
  · exact .inl (inserted_of_insertNode hw hp hrun)
  · rename_i hspecial
    refine .inr ?_
    by_cases hpk : p.kind = .array
    · have hno : (w.models.tree .parameters).isFirstElement p.uuid = false := Tree.isFirstElement_array hw hp hpk
      simp only [hno, Bool.false_and, Bool.false_eq_true, if_false, if_pos hpk] at hrun
      obtain ⟨t, hreplaced, hspares⟩ := addElement_told hw hp hpk hd hck hrun
      exact ⟨p, t, hpk, hreplaced, hspares⟩
    · have hshared : ((w.models.tree .parameters).isFirstElement p.uuid && child.kind == .parameter) = true := by
        simpa [hpk] using hspecial
      obtain ⟨a, ha, hak, hfirst⟩ :=
        Tree.exists_array_of_isFirstElement hw.nodup hp (Bool.and_eq_true_iff.1 hshared).1
      have hparent := Tree.parent?_of_child hw.nodup ha (List.mem_of_mem_head? hfirst)
      simp only [if_neg hpk, hshared, if_true, show (w.models.tree .parameters).parent? p.uuid = some a from hparent,
        Option.map_some, Option.getD_some] at hrun
      obtain ⟨t, hreplaced, hspares⟩ := addMember_told hw ha hak hfirst hck hrun
      exact ⟨a, t, hak, hreplaced, hspares⟩

/-! ### Going -/

/-- What goes from below an array, which may be counted then. -/
theorem withoutAll_told {a : Node} (ha : a ∈ (w.tree .parameters).all) (hak : a.kind = .array) (us : List Uuid)
    (finish : Tree → Tree) (hbelow : ∀ u ∈ us, u ∈ a.children.flatMap Node.uuids)
    (hspared : ∀ n ∈ (w.tree .parameters).all, n.uuid ∈ us →
      n.kind.isMade = false ∧ ∀ p ∈ (w.tree .parameters).all, n ∈ p.children → ¬(w.tree .parameters).IsDerived p.uuid)
    (hfinish : ∀ t, t.Valid → ∀ a' ∈ t.all, a'.uuid = a.uuid →
      (finish t).Valid ∧ (finish t).kind = t.kind ∧ t.SameRows (finish t))
    {f : Tree → Edit (Tree × Unit)} (hf : f (w.tree .parameters) = do
      let t ← us.foldlM (fun t u => do return (← liftM (t.detach u)).2) (w.tree .parameters)
      return (finish t, ()))
    {x : Unit} (hrun : Gives (transaction .parameters a.uuid f) w x w') :
    ∃ t, Replaced w .parameters a t w' ∧ (w.tree .parameters).Spares t := by
  have hgone : ∀ t b v, Gives (f (w.tree .parameters)) w (t, b) v → Untouched w v ∧
      ∃ t₁, t₁ = { w.tree .parameters with root := (w.tree .parameters).root.withoutAll us } ∧ t₁.Valid ∧
        t = finish t₁ := by
    intro t b v hrun
    rw [hf] at hrun
    have huntouched : Untouched w v := by
      refine (silent_bind (silent_foldlM (fun t u => ?_) _ _) fun _ => silent_pure _).untouched hrun
      exact silent_bind (silent_liftM _) fun _ => silent_pure _
    simp only [gives_bind, gives_pure, Prod.mk.injEq] at hrun
    obtain ⟨t₁, _, hfold, ⟨rfl, -⟩, rfl⟩ := hrun
    obtain ⟨hv, ht⟩ := withoutAll_of_detach hw (by simpa only [gives_bind, gives_pure] using hfold)
    exact ⟨huntouched, t₁, ht, hv, rfl⟩
  have hkept : ∀ t₁ : Tree, t₁ = { w.tree .parameters with root := (w.tree .parameters).root.withoutAll us } →
      (w.tree .parameters).KeepsOutside a t₁ := by
    rintro _ rfl
    rw [Node.withoutAll_eq_edit hw.nodup_root ha hbelow]
    exact Tree.keepsOutside_edit hw.nodup ha (Prod.ext (uuid_withoutAll us a) (kind_withoutAll us a))
  have hfinished : ∀ t₁ : Tree, t₁ = { w.tree .parameters with root := (w.tree .parameters).root.withoutAll us } →
      t₁.Valid → (finish t₁).Valid ∧ (finish t₁).kind = t₁.kind ∧ t₁.SameRows (finish t₁) := by
    intro t₁ ht₁ hv₁
    obtain ⟨a', ha', he, -⟩ := hkept t₁ ht₁
    exact hfinish t₁ hv₁ a' ha' (Prod.mk.inj he).1
  obtain ⟨t, v, hrun, hreplaced⟩ := replaced_of_transaction hw ha hrun fun t b v hrun => by
    obtain ⟨huntouched, t₁, ht₁, hv₁, rfl⟩ := hgone t b v hrun
    obtain ⟨hv, hk, hrows⟩ := hfinished t₁ ht₁ hv₁
    exact ⟨hv, hk.trans (by rw [ht₁]), huntouched,
      (hkept t₁ ht₁).trans hv₁ hv.nodup hrows (Tree.isPlain_of_array hak)⟩
  refine ⟨t, hreplaced, ?_⟩
  obtain ⟨-, t₁, ht₁, hv₁, rfl⟩ := hgone t _ v hrun
  obtain ⟨-, -, hrows⟩ := hfinished t₁ ht₁ hv₁
  refine Tree.Spares.sameRows (fun l hl _ => ?_) hrows
  rw [ht₁] at hl
  obtain ⟨m, hm, rfl⟩ := Node.mem_listings_withoutAll hl
  exact .inr ⟨m, hm, Tree.spared_withoutAll hspared hm⟩

/-- A node goes alone, or rows of an array are told of anew. -/
theorem removeParameter_told {n : Node} (hn : n ∈ (w.tree .parameters).all)
    (hg : (w.tree .parameters).isGenerated n.uuid = false) {x : Unit} (hrun : Gives (removeParameter n.uuid) w x w') :
    (∃ p, Removed w .parameters p n w') ∨
      ∃ a t, a.kind = .array ∧ Replaced w .parameters a t w' ∧ (w.tree .parameters).Spares t := by
  have hnt := hw.nodup
  -- Nothing that goes was made by expansion.
  have hspared : ∀ x ∈ (w.tree .parameters).all, x = n ∨ x.kind = .arrayParameterElement →
      x.kind.isMade = false ∧ ∀ p ∈ (w.tree .parameters).all, x ∈ p.children → ¬(w.tree .parameters).IsDerived p.uuid := by
    rintro x hx (rfl | hk)
    · exact ⟨Tree.isMade_of_not_isGenerated hw hx hg, fun p hp hxp => Tree.not_isDerived_of_child hw hp hxp hg⟩
    · refine ⟨by rw [hk]; decide, fun p hp hxp hd => ?_⟩
      exact Tree.not_isDerived_of_kind hw hx (by rw [hk]; decide) (hd.child hw hp hxp)
  simp only [removeParameter, gives_bind, gives_tree] at hrun
  obtain ⟨_, _, ⟨rfl, rfl⟩, hrun⟩ := hrun
  split at hrun
  · exact absurd hrun gives_throw
  rename_i p hparent
  obtain ⟨hp, n', hn', hnu⟩ := (Tree.parent?_eq_some hnt).1 hparent
  obtain rfl := Node.eq_of_uuid hnt (Tree.mem_all_of_child hp hn') hn hnu
  split at hrun
  · exact .inl (removed_of_removeNode hw hn hrun)
  rename_i hspecial
  refine .inr ?_
  by_cases hpk : p.kind = .array
  · have hno : (w.models.tree .parameters).isFirstElement p.uuid = false := Tree.isFirstElement_array hw hp hpk
    simp only [hno, Bool.false_eq_true, if_false, List.nil_append, if_pos hpk] at hrun
    obtain ⟨t, hreplaced, hspares⟩ := withoutAll_told hw hp hpk [n'.uuid] (·.edit p.uuid counted)
      (by simpa using ⟨n', hn', Node.uuid_mem_uuids n'.mem_all_self⟩)
      (fun x hx hxu => hspared x hx (.inl (Node.eq_of_uuid hnt hx hn (List.mem_singleton.1 hxu))))
      (fun t ht a' ha' hu => ⟨hu ▸ Tree.valid_counted ht ha', rfl, Tree.sameRows_counted _⟩) rfl hrun
    exact ⟨p, t, hpk, hreplaced, hspares⟩
  · have hshared : (w.models.tree .parameters).isFirstElement p.uuid = true := by simpa [hpk] using hspecial
    obtain ⟨a, ha, hak, hfirst⟩ := Tree.exists_array_of_isFirstElement hnt hp hshared
    have hpa := List.mem_of_mem_head? hfirst
    have hparent : (w.models.tree .parameters).parent? p.uuid = some a := Tree.parent?_of_child hnt ha hpa
    simp only [hshared, if_true, if_neg hpk, hparent, Option.map_some, Option.getD_some] at hrun
    have hnp : n'.uuid ∈ p.uuids := Node.uuid_mem_uuids (Node.mem_all_of_child hn')
    have hbelow : ∀ u ∈ standIns (w.tree .parameters) a.uuid n'.uuid ++ [n'.uuid], u ∈ a.children.flatMap Node.uuids := by
      intro u hu
      rcases List.mem_append.1 hu with hu | hu
      · obtain ⟨x, hx, rfl⟩ := List.mem_map.1 hu
        simp only [Tree.descendants_of_mem hnt ha, List.mem_filter, Bool.and_eq_true, beq_iff_eq] at hx
        rcases Node.mem_all.1 hx.1 with rfl | ⟨c, hc, hxc⟩
        · exact absurd (hak.symm.trans hx.2.1) (by decide)
        · exact List.mem_flatMap.2 ⟨c, hc, Node.uuid_mem_uuids hxc⟩
      · exact List.mem_singleton.1 hu ▸ List.mem_flatMap.2 ⟨p, hpa, hnp⟩
    have hgoes : ∀ x ∈ (w.tree .parameters).all, x.uuid ∈ standIns (w.tree .parameters) a.uuid n'.uuid ++ [n'.uuid] →
        x = n' ∨ x.kind = .arrayParameterElement :=
      fun x hx hxu => ((mem_standIns hnt ha hn hx).1 hxu).symm.imp_right fun h => h.2.1
    obtain ⟨t, hreplaced, hspares⟩ := withoutAll_told hw ha hak _ id hbelow
      (fun x hx hxu => hspared x hx (hgoes x hx hxu)) (fun t ht _ _ _ => ⟨ht, rfl, .refl t⟩) rfl hrun
    exact ⟨a, t, hak, hreplaced, hspares⟩

end Edit

end DeviceModel
