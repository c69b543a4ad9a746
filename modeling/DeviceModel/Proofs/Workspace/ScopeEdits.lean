import DeviceModel.Proofs.Register.Rows
import DeviceModel.Proofs.Workspace.RowEdits

/-!
Changes below one node. Main statements: an edit of a node that keeps its identifier and kind leaves the
rows of all nodes that are not in it (`keepsOutside_edit`); adding children, and taking nodes out, below one
node only are such edits (`extend_eq_edit`, `withoutAll_eq_edit`).
-/

namespace DeviceModel

namespace Node

/-- A change that leaves alone what is beside the ancestors of `a`, and keeps these, is one of `a`. -/
theorem eq_edit {φ : Node → Node} {n a : Node} (hn : n.uuids.Nodup) (ha : a ∈ n.all)
    (hbeside : ∀ m ∈ n.all, m.uuid ≠ a.uuid → a ∈ m.all → ∀ c ∈ m.children, a ∉ c.all → φ c = c)
    (habove : ∀ m ∈ n.all, m.uuid ≠ a.uuid → a ∈ m.all → φ m = { m with children := m.children.map φ }) :
    φ n = n.edit a.uuid φ := by
  induction n using inductOn with
  | h n ih =>
    by_cases hu : n.uuid = a.uuid
    · rw [edit_self hu]
    · rw [habove n n.mem_all_self hu ha, edit_of_ne hu]
      refine congrArg _ (List.map_congr_left fun c hc => ?_)
      have hcn := mem_all_of_child hc
      by_cases hac : a ∈ c.all
      · exact ih c hc (nodup_of_mem hcn hn) hac (fun m hm => hbeside m (mem_all_trans hm hcn))
          fun m hm => habove m (mem_all_trans hm hcn)
      · have hnotMem : a.uuid ∉ c.uuids := fun h => by
          obtain ⟨x, hx, hxu⟩ := mem_uuids.1 h
          exact hac (eq_of_uuid hn (mem_all_trans hx hcn) ha hxu ▸ hx)
        rw [hbeside n n.mem_all_self hu ha c hc hac, edit_of_notMem hnotMem]

/-- What is below `a` is in one child only of an ancestor of `a`. -/
theorem uuid_notMem_of_notMem {n a m c : Node} {u : Uuid} (hn : n.uuids.Nodup) (hm : m ∈ n.all)
    (hma : m.uuid ≠ a.uuid) (ha : a ∈ m.all) (hc : c ∈ m.children) (hac : a ∉ c.all) (hu : u ∈ a.uuids) :
    u ∉ c.uuids := by
  obtain ⟨d, hd, had⟩ := (mem_all.1 ha).resolve_left fun h => hma (congrArg uuid h).symm
  intro huc
  exact hac (child_unique (nodup_of_mem hm hn) hc hd huc (uuids_subset had hu) ▸ had)

theorem extend_eq_edit {g : Uuid → List Node} {n a : Node} (hn : n.uuids.Nodup) (ha : a ∈ n.all)
    (hg : ∀ u ∈ n.uuids, u ∉ a.uuids → g u = []) : n.extend g = n.edit a.uuid (extend g) := by
  refine eq_edit hn ha (fun m hm hma ham c hc hac => extend_eq_self fun u hu => ?_) fun m hm hma ham => ?_
  · exact hg u (uuids_subset (mem_all_trans (mem_all_of_child hc) hm) hu)
      fun hua => uuid_notMem_of_notMem hn hm hma ham hc hac hua hu
  · have hnotMem : m.uuid ∉ a.uuids := by
      obtain ⟨d, hd, had⟩ := (mem_all.1 ham).resolve_left fun h => hma (congrArg uuid h).symm
      exact fun h => uuid_notMem_below (nodup_of_mem hm hn) (List.mem_flatMap.2 ⟨d, hd, uuids_subset had h⟩)
    rw [extend_eq, hg _ (uuid_mem_uuids hm) hnotMem, List.append_nil]

theorem withoutAll_of_notMem {us : List Uuid} {n : Node} (h : ∀ u ∈ us, u ∉ n.uuids) : n.withoutAll us = n := by
  induction us with
  | nil => rfl
  | cons u us ih =>
    rw [withoutAll_cons, without_of_notMem (h u (List.mem_cons_self ..))]
    exact ih fun v hv => h v (List.mem_cons_of_mem _ hv)

theorem withoutAll_eq_edit {us : List Uuid} {n a : Node} (hn : n.uuids.Nodup) (ha : a ∈ n.all)
    (hus : ∀ u ∈ us, u ∈ a.children.flatMap uuids) : n.withoutAll us = n.edit a.uuid (withoutAll us) := by
  have hbelow : ∀ u ∈ us, u ∈ a.uuids := fun u hu => by
    rw [uuids_eq]
    exact List.mem_cons_of_mem _ (hus u hu)
  refine eq_edit hn ha (fun m hm hma ham c hc hac => withoutAll_of_notMem fun u hu => ?_) fun m hm hma ham => ?_
  · exact uuid_notMem_of_notMem hn hm hma ham hc hac (hbelow u hu)
  · have hkept : ∀ c ∈ m.children, c.uuid ∉ us := by
      intro c hc hcu
      have hcn := mem_all_trans (mem_all_of_child hc) hm
      by_cases hac : a ∈ c.all
      · -- Then `a` would be below itself.
        obtain ⟨d, hd, hcd⟩ := List.mem_flatMap.1 (hus _ hcu)
        obtain ⟨x, hx, hxu⟩ := mem_uuids.1 hcd
        obtain rfl := eq_of_uuid hn (mem_all_trans hx (mem_all_trans (mem_all_of_child hd) ha)) hcn hxu
        have hlt := (length_all_le hx).trans_lt (length_all_lt_of_child hd)
        exact absurd (length_all_le hac) hlt.not_ge
      · exact uuid_notMem_of_notMem hn hm hma ham hc hac (hbelow _ hcu) (uuid_mem_uuids c.mem_all_self)
    rw [withoutAll_eq, List.filter_eq_self.2 fun c hc => decide_eq_true (hkept c hc)]

end Node

namespace Tree

variable {t t' t₁ : Tree} {a : Node}

/-- The node `a` stays, and every node that is not in it keeps its rows, references to repeating blocks and
the stand-ins below these aside. -/
def KeepsOutside (t : Tree) (a : Node) (t' : Tree) : Prop :=
  ∃ a' ∈ t'.all, a'.entry = a.entry ∧ ∀ l ∈ t'.listings, l.IsPlain → l.uuid ∈ a'.uuids ∨ l ∈ t.listings

theorem keepsOutside_edit (ht : t.uuids.Nodup) (ha : a ∈ t.all) {f : Node → Node} (hf : (f a).entry = a.entry) :
    t.KeepsOutside a (t.edit a.uuid f) := by
  refine ⟨f a, Node.mem_edit_of_mem ht ha rfl (f a).mem_all_self, hf, fun l hl _ => ?_⟩
  have hentry : ∀ m ∈ t.all, m.uuid = a.uuid → (f m).entry = m.entry := fun m hm hu => by
    rw [Node.eq_of_uuid ht hm ha hu, hf]
  rcases Node.mem_listings_edit hentry hl with ⟨m, hm, hu, hl⟩ | ⟨hl, -⟩
  · rw [Node.eq_of_uuid ht hm ha hu] at hl
    exact .inl (Node.uuid_mem_of_listing hl)
  · exact .inr hl

theorem KeepsOutside.trans (h : t.KeepsOutside a t₁) (ht : t₁.Valid) (ht' : t'.uuids.Nodup) (hr : t₁.SameRows t')
    (hp : a.listing.IsPlain) : t.KeepsOutside a t' := by
  obtain ⟨a₁, ha₁, he₁, h⟩ := h
  have hp₁ : a₁.listing.IsPlain := by
    rwa [Listing.IsPlain, Node.kind_listing, (Prod.mk.inj he₁).2]
  obtain ⟨a', ha', he'⟩ := mem_listings.1 ((hr _ hp₁).2 (Node.listing_mem_listings ha₁))
  have hu : a'.uuid = a₁.uuid := congrArg Listing.uuid he'
  have hk : a'.kind = a₁.kind := congrArg Listing.kind he'
  refine ⟨a', ha', by rw [← he₁, Node.entry, hu, hk, Node.entry], fun l hl hlp => ?_⟩
  refine (h l ((hr l hlp).1 hl) hlp).imp_left fun hla => ?_
  obtain ⟨m, hm, hmu⟩ := Node.mem_uuids.1 hla
  have hml : m.listing = l :=
    (Node.eq_listing_of_uuid ht.nodup ((hr l hlp).1 hl) (Node.mem_all_trans hm ha₁) hmu.symm).symm
  exact hmu ▸ uuid_mem_of_sameRows ht ht' hr ha₁ ha' hu hm (hml ▸ hlp)

end Tree

/-!
### Rows below a node

Edits of all rows below a node, and of none. Main statement for each of them: views are told of the rows
below one node, and no other node has other rows (`Replaced`).
-/

open Node

open Edit (counted newElement standIn)

/-! ### Arrays of another length -/

/-- A new element is of a kind that arrays allow. -/
theorem newElement_new {t : Tree} (ht : t.Valid) {array first : Node} {i : Nat} {s s' : Supply} {e : Node}
    (hfirst : first ∈ t.all) (h : newElement t array first i s = (e, s')) :
    Kind.array.allows e.kind = true ∧ Rules.IsNew s e s' := by
  by_cases hg : first.kind = .group
  · have hboth : IsElementFor first (newElement t array first i s).1 ∧
        Rules.IsNew s (newElement t array first i s).1 (newElement t array first i s).2 :=
      isElementFor_group hg (ht.members_group hfirst hg) s
    rw [h] at hboth
    obtain ⟨helement, hnew⟩ := hboth
    have hk := helement.kind
    rw [hg] at hk
    refine ⟨?_, hnew⟩
    rw [← Option.some.inj hk]
    rfl
  · rw [newElement_parameter hg] at h
    obtain ⟨rfl, rfl⟩ := Prod.mk.inj h
    refine ⟨?_, Node.allowed_iff.2 (by simp [Node.leaf]), fun us hus => hus.draw⟩
    rw [Node.kind, Node.leaf, Data.kind_of]
    rfl

theorem Tree.valid_resized {t : Tree} (ht : t.Valid) {a b : Node} (ha : a ∈ t.all) (hk : a.kind = .array)
    {length : Nat} {s s' : Supply} (hs : s.Issued t.uuids) (hrun : Gives (Edit.resized t a length) s b s') :
    (t.edit a.uuid fun _ => b).Valid ∧ b.entry = a.entry := by
  -- Either way the array gets other children and is counted.
  have hcounted : ∀ cs : List Node, (t.setChildren a.uuid cs).Valid →
      (t.edit a.uuid fun _ => counted { a with children := cs }).Valid ∧
        (counted { a with children := cs }).entry = a.entry := fun cs hv => by
    rw [edit_counted ht ha]
    exact ⟨valid_counted (a := { a with children := cs }) hv (mem_setChildren_self ht.nodup ha cs),
      Prod.ext rfl (kind_counted _)⟩
  unfold Edit.resized at hrun
  split at hrun
  · obtain ⟨rfl, -⟩ := gives_pure.1 hrun
    exact hcounted _ (valid_take ht ha length)
  · split at hrun
    · exact absurd hrun gives_throw
    · rename_i first hfirst
      simp only [gives_bind, gives_liftM_state, gives_pure] at hrun
      obtain ⟨more, _, hmore, rfl, -⟩ := hrun
      have hft := mem_all_of_child ha (List.mem_of_mem_head? hfirst)
      obtain ⟨hkinds, hmoreAllowed, hissued⟩ := mapM_new (P := fun _ e => Kind.array.allows e.kind = true)
        (fun i _ s e s' he => newElement_new ht hft he) hmore
      refine hcounted _ (valid_append ht ha hs (fun e he => ⟨?_, hmoreAllowed e he⟩) hissued)
      exact hk ▸ (exists_of_forall₂ hkinds.flip he).elim fun _ hx => hx.2

namespace Workspace

open Edit

/-- Views have been told that the rows below `a` are others, and `t` has been put in place. -/
structure Replaced (w : Workspace) (k : TreeKind) (a : Node) (t : Tree) (w' : Workspace) : Prop where
  mem : a ∈ (w.tree k).all
  outside : (w.tree k).KeepsOutside a t
  told : Told w k (replaced a.uuid a.children.length (t.children a.uuid).length) t w'

end Workspace

namespace Edit

open Workspace

variable {w w' : Workspace} {k : TreeKind}

/-- A transaction that succeeds, on a node of the tree. -/
theorem replaced_of_transaction (hw : (w.tree k).Valid) {a : Node} (ha : a ∈ (w.tree k).all)
    {f : Tree → Edit (Tree × α)} {x : α} (h : Gives (transaction k a.uuid f) w x w')
    (hf : ∀ t b v, Gives (f (w.tree k)) w (t, b) v → t.Valid ∧ t.kind = (w.tree k).kind ∧ Untouched w v ∧
      (w.tree k).KeepsOutside a t) : ∃ t v, Gives (f (w.tree k)) w (t, x) v ∧ Replaced w k a t w' := by
  obtain ⟨t, v, hrun, htold⟩ := transaction_told h fun t b v hrun => by
    obtain ⟨hvalid, hkind, huntouched, -⟩ := hf t b v hrun
    exact ⟨hvalid, hkind, huntouched⟩
  rw [Tree.children, Tree.find?_of_mem hw.nodup ha] at htold
  exact ⟨t, v, hrun, ha, (hf t x v hrun).2.2.2, htold⟩

theorem setArrayLength_told (hw : (w.tree .parameters).Valid) {u : Uuid} {length : Nat} {x : Unit}
    (h : Gives (setArrayLength u length) w x w') : ∃ a t, Replaced w .parameters a t w' := by
  simp only [setArrayLength, gives_bind, gives_tree] at h
  obtain ⟨_, _, ⟨rfl, rfl⟩, h⟩ := h
  split at h
  · exact absurd h gives_throw
  · rename_i a ha
    obtain ⟨hfind, hk⟩ := Option.filter_eq_some_iff.1 ha
    obtain ⟨ham, rfl⟩ := Tree.mem_of_find? hfind
    obtain ⟨t, v, -, hreplaced⟩ := replaced_of_transaction hw ham h fun t b v hrun => by
      simp only [gives_bind, gives_build, gives_pure, Prod.mk.injEq] at hrun
      obtain ⟨b, _, ⟨s, hresized, rfl⟩, ⟨rfl, -⟩, rfl⟩ := hrun
      obtain ⟨hvalid, hentry⟩ := Tree.valid_resized hw ham (by simpa using hk) (issued_offered hw.nodup) hresized
      exact ⟨hvalid, rfl, ⟨fun _ => rfl, rfl⟩, Tree.keepsOutside_edit hw.nodup ham hentry⟩
    exact ⟨a, t, hreplaced⟩

theorem expandTable_told (hw : (w.tree .parameters).Valid) {u : Uuid} {e : Expansion}
    (h : Gives (expandTable .parameters u) w e w') : ∃ a t, Replaced w .parameters a t w' := by
  obtain ⟨v, htrans, hlog⟩ := gives_expandTable.1 h
  obtain rfl := gives_logNode.1 hlog
  have hbuild : ∀ t e v, Gives (build ((w.tree .parameters).expandTable u)) w (t, e) v →
      ∃ a ∈ (w.tree .parameters).all, a.uuid = u ∧ ∃ cs, t = (w.tree .parameters).setChildren u cs ∧
        t.Valid ∧ Untouched w v := by
    intro t e v hrun
    obtain ⟨s, hexpand, rfl⟩ := gives_build.1 hrun
    obtain ⟨a, ha, hu, -, ns, -, ht, hvalid⟩ := Tree.expandTable_ok hw (issued_offered hw.nodup) hexpand
    exact ⟨a, ha, hu, _, ht, hvalid, fun _ => rfl, rfl⟩
  obtain ⟨t, v', -, b, -, hrun, -⟩ := transaction_ok htrans
  obtain ⟨a, ha, rfl, -⟩ := hbuild _ _ _ hrun
  obtain ⟨t, v, -, hreplaced⟩ := replaced_of_transaction hw ha htrans fun t b v hrun => by
    obtain ⟨-, -, -, cs, rfl, hvalid, huntouched⟩ := hbuild _ _ _ hrun
    exact ⟨hvalid, rfl, huntouched, Tree.keepsOutside_edit hw.nodup ha rfl⟩
  exact ⟨a, t, hreplaced.mem, hreplaced.outside, hreplaced.told.congr (.refl w) ⟨fun _ => rfl, rfl⟩⟩

/-! ### Views -/

/-- What is left to do below a view that has been rebuilt changes attributes and references only. -/
theorem sameRows_finish {f : Family} (hf : Family.ofTree k = .ok f) {t t' : Tree} (ht : t.Valid)
    {s s' : Supply} (hs : s.Issued t.uuids) {view : Uuid} {created : List Uuid} (hc : created.Nodup)
    (hcreated : ∀ u ∈ created, ∃ n ∈ t.all, n.uuid = u ∧ n.kind = f.group)
    (h : Gives (f.finish t view created) s t' s') : t.SameRows t' := by
  have hregister : f.finish t view created = t.updateLayout → t.SameRows t' := by
    intro hfin
    rw [hfin, Tree.gives_updateLayout ht hs] at h
    obtain rfl : t' = (t.relaidOut s).1 := (congrArg Prod.fst h).symm
    exact Tree.sameRows_relaidOut ht hs
  cases k with
  | can =>
    cases hf
    obtain ⟨hfin, -⟩ := gives_liftM.1 h
    obtain ⟨⟨g, rfl, hg⟩, -⟩ := ViewExpansion.keepsViews_finish ht.nodup hc hcreated hfin
    exact Tree.sameRows_mapData hg
  | sunSpec => cases hf; exact hregister rfl
  | staticModbus => cases hf; exact hregister rfl
  | parameters | anomalies => cases hf

theorem isPlain_of_view {n : Node} (h : n.kind.isTableView = true) : n.listing.IsPlain := by
  constructor <;> intro hk <;> (rw [show n.kind = _ from hk] at h; revert h; decide)

theorem isTableView_of_family {f : Family} (hf : Family.ofTree k = .ok f) : f.view.isTableView = true := by
  cases k <;> cases hf <;> rfl

theorem expandView_told (hw : (w.tree k).Valid) {view : Uuid} {table : Option Uuid} {o : ExpandOptions}
    {e : Expansion} (h : Gives (expandView k view table o) w e w') :
    ∃ a t, a.kind.isTableView = true ∧ Replaced w k a t w' := by
  simp only [expandView, gives_bind, gives_liftM, gives_tree, logExpansion, gives_logNode,
    gives_pure] at h
  obtain ⟨⟨f, linked⟩, _, hlinked, u, _, ⟨-, rfl⟩, _, _, ⟨rfl, rfl⟩, shape, _, ⟨-, rfl⟩, _, v₁,
    htrans, _, _, ⟨rfl, rfl⟩, m, _, ⟨-, rfl⟩, _, _, rfl, rfl, rfl⟩ := h
  obtain ⟨⟨hf, n, hn, -⟩, rfl⟩ := linkedTable_ok.1 hlinked
  obtain ⟨hnm, rfl⟩ := Tree.mem_of_find? hn
  have hrebuild : ∀ t b v, Gives (rebuildView k n.uuid f shape o.zeroBits (w.tree k)) w (t, b) v →
      n.kind.isTableView = true ∧ t.Valid ∧ t.kind = (w.tree k).kind ∧ Untouched w v ∧
        (w.tree k).KeepsOutside n t := by
    intro t b v hrun
    have hre := rebuiltView hf hw hrun
    have hsilent := silent_rebuildView k n.uuid f shape o.zeroBits (w.tree k) w
    rw [show outcome _ w = _ from hrun] at hsilent
    obtain ⟨n', p, s, s', hn', hplan, hbuild, -⟩ := rebuildView_ok hrun
    obtain rfl : n = n' := Option.some.inj (hn.symm.trans hn')
    obtain ⟨⟨hk, -⟩, -⟩ := ViewExpansion.gives_plan.1 hplan
    have hview : n.kind.isTableView = true := hk ▸ isTableView_of_family hf
    obtain ⟨gs, st, s₂, hgroups, hfinish, -⟩ := ViewExpansion.gives_build.1 hbuild
    have hrebuilt := ViewExpansion.rebuilt (Family.lawful_of_ofTree hf) hw hnm (issued_offered hw.nodup) hplan hgroups
    obtain ⟨hdistinct, hnew⟩ := ViewExpansion.Rebuilt.created hw hnm hrebuilt
    have hrows := sameRows_finish hf hrebuilt.valid hrebuilt.issued hdistinct hnew hfinish
    have hout := Tree.keepsOutside_edit (f := fun m => { m with children := p.seeds ++ gs.map (·.2) }) hw.nodup hnm rfl
    exact ⟨hview, hre.valid, hre.kind, hsilent, hout.trans hrebuilt.valid hre.valid.nodup hrows (isPlain_of_view hview)⟩
  obtain ⟨t, v, hrun, hreplaced⟩ := replaced_of_transaction (f := rebuildView k n.uuid f shape o.zeroBits) hw hnm htrans
    fun t b v hrun => (hrebuild t b v hrun).2
  exact ⟨n, t, (hrebuild t _ v hrun).1, hreplaced.mem, hreplaced.outside,
    hreplaced.told.congr (.refl w) ⟨fun _ => rfl, rfl⟩⟩

theorem syncSeeds_told (hw : (w.tree k).Valid) {view : Uuid} {x : Unit} (h : Gives (syncSeeds k view) w x w') :
    ∃ a t, a.kind.isTableView = true ∧ Replaced w k a t w' := by
  simp only [syncSeeds, gives_bind] at h
  obtain ⟨⟨f, linked⟩, _, hlinked, h⟩ := h
  obtain ⟨⟨hf, n, hn, rfl⟩, rfl⟩ := linkedTable_ok.1 hlinked
  obtain ⟨hnm, rfl⟩ := Tree.mem_of_find? hn
  cases htable : f.tableOf? n.data with
  | none => simp [htable] at h
  | some table =>
    have hk : n.kind = f.view := kind_of_tableOf? htable
    simp only [htable, gives_bind, gives_tree, gives_liftM] at h
    obtain ⟨_, _, ⟨rfl, rfl⟩, sources, _, ⟨-, rfl⟩, htrans⟩ := h
    obtain ⟨t, v, -, hreplaced⟩ := replaced_of_transaction hw hnm htrans fun t b v hrun => by
      simp only [gives_bind, gives_liftM, gives_fresh, gives_pure, Prod.mk.injEq] at hrun
      obtain ⟨m, _, ⟨hm, rfl⟩, cs, _, ⟨s, hcs, rfl⟩, ⟨rfl, -⟩, rfl⟩ := hrun
      obtain rfl : n = m := Option.some.inj (hn.symm.trans (Tree.node_eq_ok.1 hm))
      have hvalid := ViewExpansion.valid_sync (Family.lawful_of_ofTree hf) hw hnm hk sources (issued_offered hw.nodup)
      rw [show (ViewExpansion.sync f n.children sources w.offered).1 = cs from congrArg Prod.fst hcs] at hvalid
      exact ⟨hvalid, rfl, ⟨fun _ => rfl, rfl⟩, Tree.keepsOutside_edit hw.nodup hnm rfl⟩
    exact ⟨n, t, hk ▸ isTableView_of_family hf, hreplaced⟩

/-! ### Attributes -/

theorem settled_eq_relaidOut {t : Tree} (hk : t.kind = k) (s : Supply) : settled k t s = (t.relaidOut s).1 := by
  subst hk
  cases hk : t.kind <;> simp only [settled, hasLayout, hk, Tree.relaidOut] <;> rfl

/-- An attribute that has been set, with the tree that is put in place. -/
theorem setAttribute_ok (hw : (w.tree k).Valid) (hk : (w.tree k).kind = k) {u : Uuid} {name : String} {x : Value}
    {a : Unit} (h : Gives (setAttribute k u name x) w a w') :
    ∃ n f d s, n ∈ (w.tree k).all ∧ n.uuid = u ∧ (Attr.ofKey? name >>= n.kind.field?) = some f ∧
      n.data.set f.attr x = .ok d ∧ ((w.tree k).modify u fun _ => d).Valid ∧
        s.Issued ((w.tree k).modify u fun _ => d).uuids ∧
          w.Puts k (settled k ((w.tree k).modify u fun _ => d) s) w' ∧
            w'.events = w.events ++ [(k, .dataChanged u u)] := by
  simp only [setAttribute, gives_bind, gives_unless, gives_tree, gives_liftM] at h
  obtain ⟨f, _, hfield, -, _, _, ⟨rfl, rfl⟩, n, _, ⟨hfind, rfl⟩, h⟩ := h
  obtain ⟨⟨n', hn', hattr⟩, rfl⟩ := field_eq hfield
  obtain rfl : n = n' := Option.some.inj ((Tree.node_eq_ok.1 hfind).symm.trans hn')
  obtain ⟨hn, rfl⟩ := Tree.mem_of_find? hn'
  split at h
  · exact absurd h gives_throw
  · rename_i d hd
    have hvalid : ((w.tree k).modify n.uuid fun _ => d).Valid := hw.setData hn (Data.kind_set hd)
    simp only [gives_bind, gives_model, gives_setModel, gives_build, gives_tell] at h
    obtain ⟨_, _, ⟨rfl, rfl⟩, _, _, rfl, t, _, ⟨s, hs, rfl⟩, _, _, rfl, rfl⟩ := h
    obtain ⟨s₀, hissued, rfl, hput⟩ := puts_of_updateLayout hvalid hs
    refine ⟨n, f, d, s₀, hn, rfl, hattr, hd, hvalid, hissued, ?_, rfl⟩
    rw [settled_eq_relaidOut (t := (w.tree k).modify n.uuid fun _ => d) hk]
    exact hput.congr (fun _ => rfl) fun _ => rfl

theorem setAttribute_told (hw : (w.tree k).Valid) (hk : (w.tree k).kind = k) {u : Uuid} {name : String} {x : Value}
    {a : Unit} (h : Gives (setAttribute k u name x) w a w') :
    ∃ t, t.listings = (w.tree k).listings ∧ Told w k [] t w' := by
  obtain ⟨n, f, d, s, hn, rfl, -, hd, hvalid, hs, hput, hevents⟩ := setAttribute_ok hw hk h
  have hlistings : ((w.tree k).modify n.uuid fun _ => d).listings = (w.tree k).listings := by
    rw [Tree.modify_eq_mapData hw.nodup]
    refine Node.listings_mapData fun m hm => ?_
    unfold Node.only
    split
    · rename_i hu
      rw [Node.eq_of_uuid hw.nodup hm hn hu]
      exact Data.kind_set hd
    · rfl
  exact ⟨_, hlistings, hvalid, rfl, ⟨s, hs, hput⟩, [.dataChanged n.uuid n.uuid], by simp [ViewEvent.isData], hevents⟩

end Edit

end DeviceModel
