import DeviceModel.Proofs.Can.Frames
import DeviceModel.Proofs.Expansion.Completing
import DeviceModel.Proofs.Expansion.Cores
import DeviceModel.Proofs.Expansion.Numbering
import DeviceModel.Proofs.Expansion.Reuse
import DeviceModel.Proofs.Expansion.ViewTrees

/-!
What a tree has from the one that expansion began with. Each step of expansion keeps the core of a tree, and the
identifiers that it gives out are in use nowhere else (`regrows_expandTable`, `regrows_build`). A leaf of a table has
no access level but one that was there (`access_realize`), a reference point of a view is new or has the attributes
of one that was there (`seedFrom_seeds`), and the multiplexers of each message keep having identifiers of their own
(`numbered_build`); so expanding a table and rebuilding a view keep all that (`regrown_expandTable`,
`regrown_build`), also one after the other (`Regrown.trans`).
-/

namespace DeviceModel

/-- What a step of expansion keeps, where `rest` are the identifiers in use elsewhere. -/
structure Tree.Regrows (t : Tree) (s : Supply) (t' : Tree) (s' : Supply) : Prop where
  core : t'.core = t.core
  issued : ∀ rest, s.Issued (t.uuids ++ rest) → s'.Issued (t'.uuids ++ rest)

namespace Tree

variable {t t' t'' : Tree} {s s' s'' : Supply}

theorem Regrows.refl (t : Tree) (s : Supply) : Regrows t s t s := ⟨rfl, fun _ h => h⟩

theorem Regrows.trans (h : Regrows t s t' s') (h' : Regrows t' s' t'' s'') : Regrows t s t'' s'' :=
  ⟨h'.core.trans h.core, fun rest hs => h'.issued rest (h.issued rest hs)⟩

/-- Other children of a node come with its old identifiers or new ones. -/
theorem regrows_setChildren (ht : t.uuids.Nodup) {n : Node} (hn : n ∈ t.all) {cs : List Node}
    (hown : ({ n with children := cs } : Node).own = n.own)
    (h : ∀ rest, s.Issued (n.children.flatMap Node.uuids ++ rest) → s'.Issued (cs.flatMap Node.uuids ++ rest)) :
    Regrows t s (t.setChildren n.uuid cs) s' := by
  refine ⟨core_setChildren ht hn hown, fun rest hs => ?_⟩
  obtain ⟨outside, hold, hnew⟩ := exists_outside ht hn
  have hcs := h (outside ++ rest) (hs.perm (by
    rw [← List.append_assoc]
    exact (hold.append_right rest).symm))
  refine hcs.perm ?_
  rw [← List.append_assoc]
  exact (hnew cs).append_right rest

theorem regrows_mapData {g : Uuid → Data → Data} (hg : ∀ m, t.Stays m → (g m.uuid m.data).bare = m.data.bare)
    (hk : ∀ m ∈ t.all, (g m.uuid m.data).kind = m.kind) : Regrows t s (t.mapData g) s :=
  ⟨core_mapData hg hk, fun rest hs => by rwa [uuids_mapData]⟩

/-- Children of a node that is filled do not show in the core. -/
theorem own_setChildren {n : Node} (h : n.kind.isFilled = true) (cs : List Node) :
    ({ n with children := cs } : Node).own = n.own :=
  (Node.own_of_isFilled (n := { n with children := cs }) h).trans (Node.own_of_isFilled h).symm

/-! ### Layout -/

theorem regrows_syncedReference (ht : t.Valid) (u : Uuid)
    (hu : ∃ r ∈ t.all, r.uuid = u ∧ r.kind = .tableRepeatingBlockReference) :
    Regrows t s (t.syncedReference u s).1 (t.syncedReference u s).2 := by
  obtain ⟨r, hr, rfl, hk⟩ := hu
  have hfind := find?_of_mem ht.nodup hr
  by_cases hm : t.Mirrors r
  · rw [syncedReference_of_mirrors fun q hq => by rw [hfind] at hq; cases hq; exact hm]
    exact .refl t s
  · rw [syncedReference_of_not_mirrors hfind hm]
    refine regrows_setChildren ht.nodup hr (own_setChildren (by rw [hk]; rfl) _) fun rest hs => ?_
    have hsub : ((standingFor (t.referencedPoints r) r.children).map Node.uuid).Sublist
        (r.children.flatMap Node.uuids) :=
      (List.filter_sublist.map _).trans (Node.map_uuid_sublist r.children)
    have hissued := issued_standIns (mem_referencedPoints_nodup ht.nodup r)
      (hs.sublist (hsub.append_right rest))
    rwa [uuids_standIns]

theorem regrows_syncedReferences (ht : t.Valid) (hs : s.Issued t.uuids) :
    Regrows t s (t.syncedReferences s).1 (t.syncedReferences s).2 := by
  have fold : ∀ (us : List Uuid) (t₁ : Tree) (s₁ : Supply), t₁.Valid → s₁.Issued t₁.uuids →
      Pending us t₁ → Regrows t₁ s₁ (us.foldlM syncedReference t₁ s₁).1 (us.foldlM syncedReference t₁ s₁).2 := by
    intro us
    induction us with
    | nil => exact fun t₁ s₁ _ _ _ => .refl t₁ s₁
    | cons u us ih =>
      intro t₁ s₁ h₁ hs₁ hp
      obtain ⟨hsync, hp₂⟩ := syncedReference_spec h₁ hs₁ hp
      exact (regrows_syncedReference h₁ u (hp.found u (List.mem_cons_self ..))).trans
        (ih _ _ hsync.valid hsync.issued hp₂)
  exact fold _ t s ht hs (pending_ofKind t)

theorem hasLayout_of_mem {p : Placement} (h : p ∈ t.layout) : t.kind = .sunSpec ∨ t.kind = .staticModbus := by
  unfold layout at h
  split at h <;> simp_all

/-- The layout gives none but the values that are given to a kind. -/
theorem given_of_layout (ht : t.Valid) {n : Node} (hn : n ∈ t.all) {p : Placement} (hp : p ∈ t.layout)
    (hu : p.uuid = n.uuid) : p.attr ∈ n.kind.given := by
  obtain ⟨m, hm, hmu, hf⟩ := present_layout ht p hp
  obtain rfl := Node.eq_of_uuid ht.nodup hm hn (hmu.trans hu)
  have hlength : ∀ k : Kind, (k.field? .length).isSome = true → k.tree = .sunSpec ∨ k.tree = .staticModbus →
      k = .sunSpecModel := by
    intro k; cases k <;> decide
  have hlaid := (within_layout ht).laidOut p hp
  cases ha : p.attr with
  | offset | blockOffset => simp [Kind.given]
  | length =>
    rw [ha] at hf
    rw [hlength _ hf (kind_of_mem ht hm ▸ hasLayout_of_mem hp)]
    decide
  | size =>
    obtain ⟨q, hq, hqu, hr⟩ := size_layout hp ha
    obtain rfl := Node.eq_of_uuid ht.nodup hq hm (hqu.trans hu)
    have hne : q.kind ≠ .sunSpecModel := fun h => by rw [h] at hr; cases hr
    simp [Kind.given, hne, hr]
  | _ =>
    rw [ha] at hlaid
    cases hlaid

/-- Laying out a tree changes no others. -/
theorem bare_place (ht : t.Valid) {n : Node} (hn : n ∈ t.all) :
    (Layout.place t.layout n.uuid n.data).bare = n.data.bare := by
  refine Data.bare_congr (Layout.kind_place _ _ _) fun a ha => ?_
  rw [Layout.kind_place] at ha
  exact Layout.get?_place_of_notMem _ fun p hp hu hpa => ha (hpa ▸ given_of_layout ht hn hp hu)

theorem regrows_relaidOut (ht : t.Valid) (hs : s.Issued t.uuids) :
    Regrows t s (t.relaidOut s).1 (t.relaidOut s).2 := by
  have hplace : ∀ {t₁ : Tree} (s₁ : Supply), t₁.Valid → Regrows t₁ s₁ (t₁.placeAll t₁.layout) s₁ := by
    intro t₁ s₁ h₁
    rw [placeAll_eq_mapData h₁.nodup]
    exact regrows_mapData (fun m hm => bare_place h₁ hm.mem) fun _ _ => Layout.kind_place _ _ _
  cases hk : t.kind with
  | sunSpec =>
    simp only [relaidOut, hk]
    exact (regrows_syncedReferences ht hs).trans (hplace _ (syncedReferences_spec ht hs).1.valid)
  | staticModbus =>
    simp only [relaidOut, hk]
    exact hplace s ht
  | parameters | can | anomalies =>
    simp only [relaidOut, hk]
    exact .refl t s

/-! ### Tables -/

open TableExpansion in
theorem regrows_expandTable (ht : t.Valid) {u : Uuid} {e : Expansion} (h : Gives (t.expandTable u) s (t', e) s') :
    Regrows t s t' s' := by
  obtain ⟨a, ⟨ha, hk⟩, ns, st, hrun, rfl, -⟩ := gives_expandTable_iff.1 h
  obtain ⟨ham, rfl⟩ := mem_of_find? ha
  have hstands := (stands_realize (scheme a) [] (start a) s trivial).1
  have hcarries := carries_realize (scheme a) [] (start a) s
  rw [hrun] at hstands hcarries
  have hown : ∀ b : Node, b.kind = .table → b.own = kept b := fun b hb => by rw [Node.own, hb]; rfl
  rw [edit_eq_setChildren ht.nodup ham]
  refine regrows_setChildren ht.nodup ham ?_ fun rest hs => ?_
  · rw [hown _ hk, hown { a with children := kept a ++ ns } hk]
    exact kept_expanded (kind_scheme hstands)
  · -- The identifiers that can be taken up are those of the generated children.
    have hpool := pool_start a
    have hissued := hcarries ((kept a).flatMap Node.uuids ++ rest) (hs.count fun v => ?_)
    · refine hissued.count fun v => ?_
      simp only [List.flatMap_append, List.count_append]
      omega
    · have hv := (((children_perm a).flatMap_right Node.uuids).count_eq v)
      simp only [List.flatMap_append, List.count_append] at hv
      simp only [List.count_append, List.count_nil, hpool.count_eq]
      omega

/-! ### Views -/

end Tree

open ViewExpansion in
theorem Tree.regrows_finish {k : TreeKind} {f : Family} (hf : Family.ofTree k = .ok f) {t t' : Tree} (ht : t.Valid)
    {s s' : Supply} (hs : s.Issued t.uuids) {view : Node} (hv : view ∈ t.all) (hk : view.kind = f.view)
    {created : List Uuid} (hc : created.Nodup)
    (hcreated : ∀ u ∈ created, ∃ n ∈ view.children, n.uuid = u ∧ n.kind = f.group)
    (h : Gives (f.finish t view.uuid created) s t' s') : Regrows t s t' s' := by
  have hregister : f.finish t view.uuid created = t.updateLayout → Regrows t s t' s' := by
    intro hfin
    rw [hfin, gives_updateLayout ht hs] at h
    have hre := regrows_relaidOut ht hs
    rwa [h] at hre
  cases k with
  | can =>
    cases hf
    obtain ⟨hfin, rfl⟩ := gives_liftM.1 h
    obtain ⟨g, rfl, hg⟩ := Family.finished_ok ht.nodup hc hfin
    have hmade : view.made = view.children := by rw [Node.made, hk]; rfl
    refine regrows_mapData (fun m hm => ?_) fun m hm => ?_
    · rcases hg m.uuid m.data with h | ⟨hmc, -⟩
      · rw [h]
      · -- What is new is below the view.
        obtain ⟨n, hn, hnu, -⟩ := hcreated m.uuid hmc
        obtain rfl := Node.eq_of_uuid ht.nodup (mem_all_of_child hv hn) hm.mem hnu
        exact absurd n.mem_all_self (hm.notMem_made ht.nodup hv (hmade ▸ hn))
    · rcases hg m.uuid m.data with h | ⟨-, i, h⟩ <;> rw [h]
      · rfl
      · exact Data.kind_put _ _ _
  | sunSpec => cases hf; exact hregister rfl
  | staticModbus => cases hf; exact hregister rfl
  | parameters | anomalies => cases hf

namespace ViewExpansion

variable {k : TreeKind} {f : Family} (hf : Family.ofTree k = .ok f) {t t' : Tree} (ht : t.Valid) {view : Node}
  (hv : view ∈ t.all) {shape : Shape} {p : Plan} {s s' : Supply} {e : Expansion}
include hf ht hv

/-- What rebuilding a view puts below it comes with the identifiers that were there or new ones. -/
theorem regrows_rebuilt {z : ZeroBits} {gs : List (Bool × Node)} {st : State} {s₁ : Supply}
    (hplan : Gives (plan f view shape z) s p s₁)
    (hrun : groups f (seedData? shape.seeds p.seeds) p.skipped shape.groups p.state s₁ = ((gs, st), s')) :
    t.Regrows s (t.setChildren view.uuid (p.seeds ++ gs.map (·.2))) s' := by
  obtain ⟨⟨hk, -⟩, hseeds, -⟩ := gives_plan.1 hplan
  have hfilled : f.view.isFilled = true := by
    cases k <;> cases hf <;> rfl
  refine Tree.regrows_setChildren ht.nodup hv (Tree.own_setChildren (hk ▸ hfilled) _) fun rest hs => ?_
  have hpool := hs.subperm ((pool_ofChildren (Family.lawful_of_ofTree hf).point_ne_group view.children).append
    (.refl rest))
  have hone := carries_seeds f shape.seeds _ s rest hpool
  rw [hseeds] at hone
  have htwo := (carries_groups f (seedData? shape.seeds p.seeds) p.skipped shape.groups).after
    (p.seeds.flatMap Node.uuids) p.state s₁ rest hone
  rw [hrun] at htwo
  refine htwo.count fun u => ?_
  simp only [List.flatMap_append, List.flatMap_map, List.count_append]
  omega

theorem regrows_build (hs : s.Issued t.uuids) {z : ZeroBits} {s₁ : Supply}
    (hplan : Gives (plan f view shape z) s p s₁) (hbuild : Gives (build f t view shape p) s₁ (t', e) s') :
    t.Regrows s t' s' := by
  obtain ⟨⟨hk, -⟩, -⟩ := gives_plan.1 hplan
  obtain ⟨gs, st, s₂, hgroups, hfinish, -⟩ := gives_build.1 hbuild
  have hre := rebuilt (Family.lawful_of_ofTree hf) ht hv hs hplan hgroups
  refine (regrows_rebuilt hf ht hv hplan hgroups).trans ?_
  have hself := Tree.mem_setChildren_self ht.nodup hv (p.seeds ++ gs.map (·.2))
  refine Tree.regrows_finish hf hre.valid hre.issued hself hk (Rebuilt.created ht hv hre).1 (fun u hu => ?_) hfinish
  obtain ⟨x, hx, rfl⟩ := List.mem_map.1 hu
  have hg : x.2 ∈ gs.map (·.2) := List.mem_map_of_mem (List.mem_of_mem_filter hx)
  obtain ⟨b, -, hb⟩ := exists_of_forall₂ hre.blocks hg
  exact ⟨x.2, List.mem_append_right _ hg, rfl, hb.kind⟩

end ViewExpansion

/-! ### Access levels -/

namespace TableExpansion

/-- A leaf has the access level of one that was there. -/
theorem access_realize {P : Uuid → Prop} (sch : Scheme) (path : List Uuid) :
    Makes (fun st => ∀ m ∈ st.previous, ∀ u, m.ref? .accessLevel = some u → P u) (realize sch path)
      fun ns => ∀ n ∈ ns.flatMap Node.all, ∀ u, n.ref? .accessLevel = some u → P u := by
  have found : ∀ path, Makes (fun st => ∀ m ∈ st.previous, ∀ u, m.ref? .accessLevel = some u → P u)
      (identify path) fun x => ∀ u, x.2 >>= (·.ref? .accessLevel) = some u → P u := by
    intro path st s hst
    cases h : st.previous.find? (samePath path) with
    | some n =>
      rw [identify_known h]
      exact ⟨hst n (List.mem_of_find?_eq_some h), fun m hm => hst m (List.mem_of_mem_filter hm)⟩
    | none =>
      rw [identify_new h]
      exact ⟨nofun, hst⟩
  induction sch generalizing path with
  | nil => exact makes_pure nofun
  | leaf u name abbr i rest ih =>
    refine (found _).bind fun x hx => (ih path).bind fun ns hns => makes_pure fun n hn => ?_
    rw [List.flatMap_cons, List.mem_append] at hn
    rcases hn with hn | hn
    · obtain rfl := List.mem_singleton.1 hn
      simpa only [Node.leaf, Node.ref?, access_leafData] using hx
    · exact hns n hn
  | group u name inner rest ihi ihr =>
    refine (found _).bind fun x _ => (ihi _).bind fun cs hcs => (ihr path).bind fun ns hns => makes_pure fun n hn => ?_
    rw [List.flatMap_cons, List.mem_append, Node.mem_all] at hn
    rcases hn with (rfl | ⟨c, hc, hnc⟩) | hn
    · have hnone : (groupData u name (path ++ [u])).get? .accessLevel = none :=
        Data.get?_eq_none.2 (by rw [kind_groupData]; rfl)
      intro v hv
      rw [Node.ref?, Data.ref?, hnone] at hv
      cases hv
    · exact hcs n (List.mem_flatMap.2 ⟨c, hc, hnc⟩)
    · exact hns n hn

end TableExpansion

/-! ### Reference points -/

namespace ViewExpansion

/-- The attributes of a reference point: new, or those that it had but for its name. -/
def SeedFrom (f : Family) (P : Data → Prop) (d : Data) : Prop :=
  (∃ s, d = f.newSeed s) ∨ ∃ e v, P e ∧ d = e.put .name v

theorem seedFrom_seeds {f : Family} {P : Data → Prop} (ss : List SeedSource) :
    Makes (fun st => ∀ e ∈ st.seeds, P e.2.2) (seeds f ss) fun ns => ∀ n ∈ ns, SeedFrom f P n.data := by
  have one : ∀ s, Makes (fun st => ∀ e ∈ st.seeds, P e.2.2) (seed f s) fun n => SeedFrom f P n.data := by
    intro s st sup hst
    cases h : st.seeds.find? (·.1 == s.uuid) with
    | some e =>
      rw [seed_known h]
      exact ⟨.inr ⟨_, _, hst e (List.mem_of_find?_eq_some h), rfl⟩, fun e he => hst e (List.mem_of_mem_filter he)⟩
    | none =>
      rw [seed_new h]
      exact ⟨.inl ⟨s, rfl⟩, hst⟩
  induction ss with
  | nil => exact makes_pure nofun
  | cons s ss ih =>
    exact (one s).bind fun n hn => ih.bind fun ns hns => makes_pure (List.forall_mem_cons.2 ⟨hn, hns⟩)

/-- The reference points of a plan are new or among the children of the view. -/
theorem seedFrom_plan {f : Family} {view : Node} {shape : Shape} {z : ZeroBits} {p : Plan} {s s' : Supply}
    (h : Gives (plan f view shape z) s p s') :
    ∀ n ∈ p.seeds, SeedFrom f (fun d => ∃ c ∈ view.children, c.kind = f.point ∧ c.data = d) n.data := by
  obtain ⟨-, hseeds, -⟩ := gives_plan.1 h
  have hfrom := seedFrom_seeds (f := f) (P := fun d => ∃ c ∈ view.children, c.kind = f.point ∧ c.data = d) shape.seeds
    (.ofChildren f view.children) s fun e he => by
      obtain ⟨c, hc, he⟩ := List.mem_filterMap.1 he
      obtain ⟨s, -, rfl⟩ := Option.map_eq_some_iff.1 he
      exact ⟨c, (List.mem_filter.1 hc).1, by simpa using (List.mem_filter.1 hc).2, rfl⟩
  rw [hseeds] at hfrom
  exact hfrom.1

end ViewExpansion

/-! ### Multiplexers -/

namespace Tree

/-- Below a multiplexed message no two multiplexers share an identifier. -/
def Numbered (t : Tree) : Prop :=
  ∀ m ∈ t.all, m.kind = .multiplexedMessage → ((t.multiplexers m.uuid).map Prod.snd).Nodup

theorem message_unique {t : Tree} (ht : t.Valid) {m n x : Node} (hm : m ∈ t.all) (hn : n ∈ t.all)
    (hmk : m.kind = .multiplexedMessage) (hnk : n.kind = .multiplexedMessage) (hxm : x ∈ m.all) (hxn : x ∈ n.all) :
    m = n := by
  have hkind : t.kind = .can := by rw [kind_of_mem ht hm, hmk]; rfl
  exact Node.child_unique ht.nodup (mem_children_root_of_message ht hkind hm (.inr (.inl hmk)))
    (mem_children_root_of_message ht hkind hn (.inr (.inl hnk))) (Node.uuid_mem_uuids hxm) (Node.uuid_mem_uuids hxn)

end Tree

namespace ViewExpansion

open Family

/-- At and below a view there is no message. -/
theorem not_message_of_mem {view : Node} (ha : view.Allowed) (hk : view.kind = .canTable) {m : Node}
    (hm : m ∈ view.all) : m.kind ≠ .multiplexedMessage := by
  intro hmk
  rcases lawful_can.kind_below ha (.inl hk) hm with rfl | h | h
  · exact absurd (hmk.symm.trans hk) (by decide)
  · exact absurd (hmk.symm.trans h) (by decide)
  · exact absurd (hmk.symm.trans h) (by decide)

variable {t : Tree} (ht : t.Valid) {view : Node} (hv : view ∈ t.all) (hk : view.kind = .canTable)
include ht hv hk

/-- A message that the view is not in keeps the multiplexers that it has. -/
theorem multiplexers_of_notMem {cs : List Node} (hcs : (t.setChildren view.uuid cs).Valid) {created : List Uuid}
    (hnew : ∀ u ∈ created, u ∉ t.uuids) (is : List Int) {m : Node} (hm : m ∈ t.all)
    (hmk : m.kind = .multiplexedMessage) (hmv : view.uuid ∉ m.uuids) :
    ((t.setChildren view.uuid cs).mapData (numbered (created.zip is))).multiplexers m.uuid =
      t.multiplexers m.uuid := by
  have hbelow : ∀ c ∈ view.children, m ∉ c.all := fun c hc hmc =>
    not_message_of_mem (ht.allowedRoot.of_mem hv) hk (Node.mem_all.2 (.inr ⟨c, hc, hmc⟩)) hmk
  have hmem := Tree.mem_setChildren_of_mem ht.nodup hv hm hmv hbelow cs
  rw [Tree.multiplexers_numbered, Tree.multiplexers_of_mem hcs.nodup hmem, Tree.multiplexers_of_mem ht.nodup hm]
  refine (List.map_congr_left fun x hx => ?_).trans (List.map_id _)
  have hxt := Node.uuids_subset hm (Node.uuid_of_mem_multiplexers (i := x.2) hx)
  rcases lookup_or (created.zip is) x.1 with ⟨-, h⟩ | ⟨i, hi, -⟩
  · rw [h]
    rfl
  · exact absurd hxt (hnew _ (List.of_mem_zip hi).1)

/-- Rebuilding a view leaves the multiplexers of each message with identifiers of their own. -/
theorem numbered_build {shape : Shape} {z : ZeroBits} {p : Plan} {s s₁ s' : Supply} {e : Expansion} {t' : Tree}
    (hs : t.uuids ⊆ s.taken) (hplan : Gives (plan .can view shape z) s p s₁)
    (hbuild : Gives (build .can t view shape p) s₁ (t', e) s') (h : t.Numbered) : t'.Numbered := by
  obtain ⟨gs, st, s₂, hrun, hfinish, -⟩ := gives_build.1 hbuild
  have hre := rebuilt lawful_can ht hv (Supply.issued_of_taken ht.nodup hs) hplan hrun
  have hgs := regrouped lawful_can hplan hrun
  have hfin := (gives_liftM.1 hfinish).1
  obtain ⟨message, hmessage, hmk, hvm⟩ : ∃ m ∈ t.all, m.kind = .multiplexedMessage ∧ view ∈ m.children :=
    Tree.parent_of_kind ht (by intro j; cases j <;> decide) (by cases t.kind <;> decide) hv hk
  have hrenumbers := renumbers_finish ht hmessage hvm hk hre hs hgs hfin
  have hnodup := Tree.nodup_multiplexers (t := t')
  rw [finishMultiplexers_setChildren ht hmessage hvm hre] at hfin
  split at hfin
  swap
  · cases hfin
  rename_i is his
  obtain rfl := Except.ok.inj hfin
  intro m' hm' hmk'
  rw [Tree.all_mapData] at hm'
  obtain ⟨m₁, hm₁, rfl⟩ := List.mem_map.1 hm'
  replace hmk' : m₁.kind = .multiplexedMessage := by rwa [Node.kind_mapData, kind_numbered] at hmk'
  obtain ⟨m, hm, hmu, hmk₀⟩ : ∃ m ∈ t.all, m.uuid = m₁.uuid ∧ m.kind = .multiplexedMessage := by
    have hself := Tree.mem_setChildren_self ht.nodup hv (p.seeds ++ gs.map (·.2))
    have hnone := fun m => not_message_of_mem (m := m) (hre.valid.allowedRoot.of_mem hself) hk
    rcases Tree.mem_all_setChildren ht.nodup hv hm₁ with rfl | ⟨c, hc, hmc⟩ | ⟨m, hm, hne, rfl⟩
    · exact absurd hmk' (hnone _ (Node.mem_all_self _))
    · exact absurd hmk' (hnone _ (Node.mem_all.2 (.inr ⟨c, hc, hmc⟩)))
    · rw [Node.kind_edit fun h => absurd h hne] at hmk'
      exact ⟨m, hm, (Node.uuid_edit fun h => absurd h hne).symm, hmk'⟩
  rw [Node.uuid_mapData, ← hmu]
  by_cases hmv : view.uuid ∈ m.uuids
  · -- The view is in one message only.
    obtain ⟨x, hx, hxu⟩ := Node.mem_uuids.1 hmv
    obtain rfl := Node.eq_of_uuid ht.nodup (Node.mem_all_trans hx hm) hv hxu
    obtain rfl := Tree.message_unique ht hm hmessage hmk₀ hmk hx (Node.mem_all_of_child hvm)
    exact hrenumbers.nodup (hnodup (by rw [Tree.uuids_mapData]; exact hre.valid.nodup) _) (h m hm hmk₀)
  · rw [multiplexers_of_notMem ht hv hk hre.valid (fun u hu hut => notMem_of_created hgs hu (hs hut)) is hm hmk₀ hmv]
    exact h m hm hmk₀

end ViewExpansion

/-! ### All of it -/

/-- The same attributes but for the name and the place. -/
structure Data.SameSeed (d e : Data) : Prop where
  kind : d.kind = e.kind
  get? : ∀ a, a ≠ .name → a ≠ .offset → a ≠ .blockOffset → d.get? a = e.get? a

theorem Data.SameSeed.refl (d : Data) : SameSeed d d := ⟨rfl, fun _ _ _ _ => rfl⟩

theorem Data.SameSeed.trans {c d e : Data} (h : SameSeed c d) (h' : SameSeed d e) : SameSeed c e :=
  ⟨h.kind.trans h'.kind, fun a hn ho hb => (h.get? a hn ho hb).trans (h'.get? a hn ho hb)⟩

namespace Tree

/-- The access level of a leaf of a table. -/
def HasLevel (t : Tree) (u : Uuid) : Prop :=
  ∃ n ∈ t.all, n.kind = .tableArrayElement ∧ n.ref? .accessLevel = some u

/-- The attributes of a new reference point, or of one that there is. -/
def HasSeed (t : Tree) (f : Family) (d : Data) : Prop :=
  (∃ s, d.SameSeed (f.newSeed s)) ∨
    ∃ v ∈ t.all, v.kind = f.view ∧ ∃ c ∈ v.children, c.kind = f.point ∧ d.SameSeed c.data

theorem HasSeed.congr {t : Tree} {f : Family} {d e : Data} (h : t.HasSeed f e) (hd : d.SameSeed e) : t.HasSeed f d :=
  h.imp (fun ⟨s, hs⟩ => ⟨s, hd.trans hs⟩) fun ⟨v, hv, hk, c, hc, hck, hs⟩ => ⟨v, hv, hk, c, hc, hck, hd.trans hs⟩

structure Regrown (t t' : Tree) : Prop where
  core : t'.core = t.core
  levels : ∀ u, t'.HasLevel u → t.HasLevel u
  seeds : ∀ f, Family.ofTree t.kind = .ok f → ∀ v ∈ t'.all, v.kind = f.view → ∀ c ∈ v.children,
    c.kind = f.point → t.HasSeed f c.data
  numbered : t.Numbered → t'.Numbered
  laidOut : t' = t ∨ t'.UpToDate

theorem Regrown.refl (t : Tree) : Regrown t t where
  core := rfl
  levels := fun _ h => h
  seeds := fun _ _ v hv hk c hc hck => .inr ⟨v, hv, hk, c, hc, hck, .refl _⟩
  numbered := fun h => h
  laidOut := .inl rfl

theorem Regrown.trans {t t' t'' : Tree} (h : Regrown t t') (h' : Regrown t' t'') : Regrown t t'' where
  core := h'.core.trans h.core
  levels := fun u hu => h.levels u (h'.levels u hu)
  seeds := fun f hf v'' hv'' hk c'' hc'' hck => by
    rcases h'.seeds f (kind_of_core h.core ▸ hf) v'' hv'' hk c'' hc'' hck with
      ⟨s, hs⟩ | ⟨v', hv', hk', c', hc', hck', hd⟩
    · exact .inl ⟨s, hs⟩
    · exact (h.seeds f hf v' hv' hk' c' hc' hck').congr hd
  numbered := fun hn => h'.numbered (h.numbered hn)
  laidOut := h'.laidOut.elim (fun he => he ▸ h.laidOut) .inr

section

variable {t t' : Tree} (ht : t.Valid)
include ht

theorem not_hasLevel (hk : t.kind ≠ .parameters) (u : Uuid) : ¬t.HasLevel u := by
  rintro ⟨n, hn, hnk, -⟩
  rw [kind_of_mem ht hn, hnk] at hk
  exact hk rfl

theorem numbered_of_kind (hk : t.kind ≠ .can) : t.Numbered := by
  intro m hm hmk
  rw [kind_of_mem ht hm, hmk] at hk
  exact absurd rfl hk

theorem upToDate_of_kind (hk : Edit.hasLayout t.kind = false) : t.UpToDate := by
  refine ⟨?_, inStep_of_kind ht fun h => by rw [h] at hk; cases hk⟩
  have hnone : t.layout = [] := by
    unfold layout
    cases h : t.kind <;> rw [h] at hk <;> first | rfl | cases hk
  rw [hnone]
  exact nofun

end

section

open TableExpansion

/-- Expanding a table. -/
theorem regrown_expandTable {t t' : Tree} (ht : t.Valid) (hkind : t.kind = .parameters) {u : Uuid} {s s' : Supply}
    {e : Expansion} (hs : s.Issued t.uuids) (h : Gives (t.expandTable u) s (t', e) s') : t.Regrown t' := by
  have hus : Unsettled (u :: t.uuids) t := fun a ha _ => .inl (List.mem_cons_of_mem _ (Node.uuid_mem_uuids ha))
  obtain ⟨ht', hk', -⟩ := unsettled_expandTable ht hs h hus
  rw [hkind] at hk'
  refine ⟨(regrows_expandTable ht h).core, ?_, ?_, ?_, .inr (upToDate_of_kind ht' (by rw [hk']; rfl))⟩
  · intro v
    obtain ⟨a, ⟨ha, hk⟩, ns, st, hrun, rfl, -⟩ := gives_expandTable_iff.1 h
    obtain ⟨ham, rfl⟩ := mem_of_find? ha
    have hns := access_realize (P := t.HasLevel) (scheme a) [] (start a) s fun m hm w hw => by
      obtain ⟨c, hc, hmc⟩ := List.mem_flatMap.1 ((Node.postorder_each_perm (generated a)).mem_iff.1 hm)
      have hct := mem_all_of_child ham (List.mem_of_mem_filter hc)
      refine ⟨m, Node.mem_all_trans hmc hct, ?_, hw⟩
      have hck : c.kind = .tableGroupElement := by simpa using (List.mem_filter.1 hc).2
      refine (isGenerated_of_mem (ht.allowedRoot.of_mem hct) (.inl hck) hmc).resolve_left fun hmk => ?_
      -- A group has no access level.
      rw [Node.ref?, Data.ref?, Data.get?_eq_none.2 (show m.kind.field? .accessLevel = none by rw [hmk]; rfl)] at hw
      cases hw
    rw [hrun] at hns
    rw [edit_eq_setChildren ht.nodup ham]
    rintro ⟨n, hn, hnk, hnv⟩
    rcases mem_all_setChildren ht.nodup ham hn with rfl | ⟨c, hc, hnc⟩ | ⟨m, hm, hne, rfl⟩
    · exact absurd (hk.symm.trans hnk) (by decide)
    · rcases List.mem_append.1 hc with hc | hc
      · exact ⟨n, Node.mem_all_trans hnc (mem_all_of_child ham (List.mem_of_mem_filter hc)), hnk, hnv⟩
      · exact hns.1 n (List.mem_flatMap.2 ⟨c, hc, hnc⟩) v hnv
    · rw [Node.edit_of_ne hne] at hnk hnv
      exact ⟨m, hm, hnk, hnv⟩
  · rw [hkind]
    intro f hf
    cases hf
  · exact fun _ => numbered_of_kind ht' (by rw [hk']; decide)

end

end Tree

namespace ViewExpansion

theorem sameSeed_of_put {d e : Data} {v : Value} (h : d = e.put .name v) : d.SameSeed e := by
  subst h
  exact ⟨Data.kind_put _ _ _, fun a hn _ _ => Data.get?_put_of_ne (Ne.symm hn) _ _⟩

section

variable {k : TreeKind} {f : Family} (hf : Family.ofTree k = .ok f) {t t' : Tree} (ht : t.Valid) {view : Node}
  (hv : view ∈ t.all) {shape : Shape} {z : ZeroBits} {p : Plan} {s s₁ s' : Supply} {e : Expansion}
  (hs : t.uuids ⊆ s.taken) (hplan : Gives (plan f view shape z) s p s₁)
  (hbuild : Gives (build f t view shape p) s₁ (t', e) s')
include hf ht hv hs hplan hbuild

/-- A reference point is new when a view has been rebuilt, or it has what one had that was there. -/
theorem hasSeed_build : ∀ v ∈ t'.all, v.kind = f.view → ∀ c ∈ v.children, c.kind = f.point → t.HasSeed f c.data := by
  obtain ⟨⟨hk, -⟩, -⟩ := gives_plan.1 hplan
  obtain ⟨gs, st, s₂, hgroups, hfinish, -⟩ := gives_build.1 hbuild
  have hlaw := Family.lawful_of_ofTree hf
  have hre := rebuilt hlaw ht hv (Supply.issued_of_taken ht.nodup hs) hplan hgroups
  obtain ⟨hdistinct, hnew⟩ := Rebuilt.created ht hv hre
  have hfin := finished_finish hf hre.valid hre.issued hdistinct hnew hfinish
  intro v' hv' hvk' c' hc' hck'
  obtain ⟨v, hv₁, hvk, hu, -⟩ := hfin.views.settled v' hv' hvk'
  obtain ⟨g, hg, hre'⟩ := retouched_finish hf hre.valid hre.issued hdistinct hnew hfinish hv₁ hvk
  obtain rfl := Node.eq_of_uuid hfin.valid.nodup hg hv' ((Node.uuid_mapData v).trans hu.symm)
  rw [Node.children_mapData] at hc'
  obtain ⟨c, hc, rfl⟩ := List.mem_map.1 hc'
  have htouch := hre' c (Node.mem_all_of_child hc)
  rw [Node.kind_mapData, htouch.kind] at hck'
  have hsame : (c.mapData g).data.SameSeed c.data := by
    rw [Node.data_mapData]
    exact ⟨htouch.kind, fun a _ ho hb => htouch.get? a ho hb fun hg => absurd (hck'.symm.trans hg) hlaw.point_ne_group⟩
  refine Tree.HasSeed.congr ?_ hsame
  rcases view_of_setChildren hlaw ht hv hk hre.valid hv₁ hvk with rfl | ⟨hvt, -⟩
  · rcases List.mem_append.1 hc with hc | hc
    · rcases seedFrom_plan hplan c hc with ⟨s, hs⟩ | ⟨_, w, ⟨o, ho, hok, rfl⟩, hd⟩
      · exact .inl ⟨s, hs ▸ .refl _⟩
      · exact .inr ⟨view, hv, hk, o, ho, hok, sameSeed_of_put hd⟩
    · obtain ⟨b, -, hb⟩ := exists_of_forall₂ hre.blocks hc
      exact absurd (hck'.symm.trans hb.kind) hlaw.point_ne_group
  · exact .inr ⟨v, hvt, hvk, c, hc, hck', .refl _⟩

/-- Rebuilding a view. -/
theorem regrown_build (hkind : t.kind = k) : t.Regrown t' := by
  have hissued := Supply.issued_of_taken ht.nodup hs
  obtain ⟨gs, s₂, -, hfin⟩ := finished_build hf ht hv hissued hplan hbuild
  have hk' : t'.kind = k := hfin.kind.trans hkind
  refine ⟨(regrows_build hf ht hv hissued hplan hbuild).core, fun u hu => ?_, fun g hg => ?_, fun hn => ?_, .inr ?_⟩
  · refine absurd hu (Tree.not_hasLevel hfin.valid (fun hp => ?_) u)
    rw [hk'.symm.trans hp] at hf
    cases hf
  · rw [hkind, hf] at hg
    obtain rfl := Except.ok.inj hg
    exact hasSeed_build hf ht hv hs hplan hbuild
  · by_cases hcan : k = .can
    · subst hcan
      cases hf
      exact numbered_build ht hv (gives_plan.1 hplan).1.1 hs hplan hbuild hn
    · exact Tree.numbered_of_kind hfin.valid (hk' ▸ hcan)
  · by_cases hlayout : Edit.hasLayout k = true
    · exact hfin.upToDate hlayout
    · exact Tree.upToDate_of_kind hfin.valid (by simpa [hk'] using hlayout)

end

end ViewExpansion

end DeviceModel
