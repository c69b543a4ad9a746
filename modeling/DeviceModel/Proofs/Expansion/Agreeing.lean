import DeviceModel.Proofs.Expansion.Numbering
import DeviceModel.Proofs.Expansion.PlacedViews

/-!
Views that are rebuilt from the same groups. Main statements: what is left to do below them succeeds for both of
them or for none, and makes the same of both but for identifiers that are drawn (`twin_finishMultiplexers`,
`twin_updateLayout`); and two views that also have reference points of the same attributes, as when these have
been brought in step, are planned and built for both or for none (`plan_of_plan`, `Abreast.build`).
-/

namespace DeviceModel

variable {us vs : List Uuid}

theorem Corresponds.symm {u v : Uuid} (h : Corresponds us vs u v) : Corresponds vs us v u :=
  h.imp Eq.symm And.symm

theorem Twin.symm {n m : Node} (h : Twin us vs n m) : Twin vs us m n := by
  induction n using Node.inductOn generalizing m with
  | h n ih =>
    obtain ⟨uuid, data, children⟩ := h
    have hmem := (List.forall₂_and_left (p := (· ∈ n.children)) _ _).2 ⟨fun c hc => hc, children⟩
    exact .intro uuid.symm data.symm (hmem.imp fun c d hcd => ih c hcd.1 hcd.2).flip

theorem Twin.int {n m : Node} (h : Twin us vs n m) (a : Attr) : m.int a = n.int a := by
  cases h with
  | intro uuid data children => rw [Node.int, Node.int, data]

/-! ### Places -/

namespace Layout

theorem twin_placePoints {cs ds : List Node} (h : List.Forall₂ (Twin us vs) cs ds) (start : Int) :
    List.Forall₂ (Twin us vs) (placePoints start cs) (placePoints start ds) := by
  induction h generalizing start with
  | nil => exact .nil
  | cons hcd _ ih =>
    rw [placePoints, placePoints, hcd.int]
    refine .cons ?_ (ih _)
    obtain ⟨uuid, data, children⟩ := hcd
    exact .intro uuid (by rw [data]) children

theorem twin_placeBlocks {bs cs : List Node} (h : List.Forall₂ (Twin us vs) bs cs) (start : Int) :
    List.Forall₂ (Twin us vs) (placeBlocks start bs) (placeBlocks start cs) := by
  induction h generalizing start with
  | nil => exact .nil
  | cons hbc _ ih =>
    obtain ⟨uuid, data, children⟩ := hbc
    rw [placeBlocks, placeBlocks, map_eq_of_forall₂ children fun c d hcd => hcd.int .size]
    exact .cons (.intro uuid (by rw [data]) (twin_placePoints children 0)) (ih _)

end Layout

/-! ### Identifiers -/

namespace Family

/-- The groups with the new ones numbered in turn. -/
def numberGroups : List (Bool × Node) → List Int → List Node
  | [], _ => []
  | (true, g) :: gs, i :: is => { g with data := g.data.put .identifier (.integer i) } :: numberGroups gs is
  | (_, g) :: gs, is => g :: numberGroups gs is

theorem mapData_numbered_of_notMem {l : List (Uuid × Int)} {n : Node} (h : ∀ u ∈ n.uuids, u ∉ l.map Prod.fst) :
    n.mapData (numbered l) = n :=
  Node.mapData_eq_self fun m hm => numbered_of_notMem (h m.uuid (Node.uuid_mem_uuids hm)) m.data

/-- The groups that get identifiers are among those that are built. -/
theorem mem_flatMap_of_key {gs : List (Bool × Node)} {is : List Int} {u : Uuid}
    (h : u ∈ (((gs.filter (·.1)).map (·.2.uuid)).zip is).map Prod.fst) : u ∈ gs.flatMap (·.2.uuids) := by
  obtain ⟨p, hp, rfl⟩ := List.mem_map.1 h
  obtain ⟨x, hx, hxp⟩ := List.mem_map.1 (List.of_mem_zip hp).1
  exact List.mem_flatMap.2 ⟨x, List.mem_of_mem_filter hx, hxp ▸ Node.uuid_mem_uuids x.2.mem_all_self⟩

/-- Numbering new groups by their identifiers numbers them in turn. -/
theorem map_numbered {gs : List (Bool × Node)} (hn : (gs.flatMap (·.2.uuids)).Nodup) {is : List Int}
    (hlength : is.length = (gs.filter (·.1)).length) :
    (gs.map (·.2)).map (Node.mapData (numbered (((gs.filter (·.1)).map (·.2.uuid)).zip is))) =
      numberGroups gs is := by
  induction gs generalizing is with
  | nil => rfl
  | cons x gs ih =>
    obtain ⟨flag, g⟩ := x
    rw [List.flatMap_cons, List.nodup_append'] at hn
    obtain ⟨hg, hgs, hdis⟩ := hn
    cases flag with
    | false =>
      have hself : g.mapData (numbered (((gs.filter (·.1)).map (·.2.uuid)).zip is)) = g :=
        mapData_numbered_of_notMem fun u hu h => hdis hu (mem_flatMap_of_key h)
      rw [List.filter_cons_of_neg (by simp)] at hlength ⊢
      rw [List.map_cons, List.map_cons, hself, ih hgs hlength]
      rfl
    | true =>
      rw [List.filter_cons_of_pos rfl] at hlength ⊢
      obtain ⟨i, is, rfl⟩ := List.exists_cons_of_length_eq_add_one hlength
      rw [List.map_cons, List.zip_cons_cons, List.map_cons, List.map_cons, numberGroups,
        ← ih hgs (by simpa using hlength)]
      congr 1
      · rw [Node.mapData_eq, numbered_cons_self]
        refine congrArg (Node.mk _ _) ((List.map_congr_left fun c hc => ?_).trans (List.map_id _))
        refine mapData_numbered_of_notMem fun u hu h => ?_
        have hug : u ∈ g.children.flatMap Node.uuids := List.mem_flatMap.2 ⟨c, hc, hu⟩
        rcases List.mem_cons.1 h with rfl | h
        · exact Node.uuid_notMem_below hg hug
        · refine hdis ?_ (mem_flatMap_of_key h)
          rw [Node.uuids_eq]
          exact List.mem_cons_of_mem _ hug
      · refine List.map_congr_left fun h hh => Node.mapData_congr fun m hm => numbered_cons_of_ne _ i (fun heq => ?_) _
        obtain ⟨y, hy, rfl⟩ := List.mem_map.1 hh
        exact hdis (heq ▸ Node.uuid_mem_uuids g.mem_all_self) (List.mem_flatMap.2 ⟨y, hy, Node.uuid_mem_uuids hm⟩)

theorem twin_numberGroups {gs hs : List (Bool × Node)}
    (h : List.Forall₂ (fun x y => y.1 = x.1 ∧ Twin us vs x.2 y.2) gs hs) (is : List Int) :
    List.Forall₂ (Twin us vs) (numberGroups gs is) (numberGroups hs is) := by
  induction h generalizing is with
  | nil => exact .nil
  | @cons x y gs hs hxy _ ih =>
    obtain ⟨⟨flag, g⟩, flag', g'⟩ := x, y
    obtain ⟨rfl, htwin⟩ := hxy
    cases flag' with
    | false => exact .cons htwin (ih is)
    | true =>
      cases is with
      | nil => exact .cons htwin (ih [])
      | cons i is =>
        obtain ⟨uuid, data, children⟩ := htwin
        exact .cons (.intro uuid (by simp only at data; rw [data]) children) (ih is)

end Family

namespace ViewExpansion

open Family

variable {f : Family} {known : List (List Uuid × Uuid × Data)} {gs hs : List (Bool × Node)}

theorem Regrouped.symm {x y : Bool × Node} (h : Regrouped f us vs known x y) : Regrouped f vs us known y x where
  flag := h.flag.symm
  twin := h.twin.symm
  fresh := fun hy => (h.fresh (h.flag ▸ hy)).symm
  known := fun hy => by
    obtain ⟨hu, e, he, heu, name, i, hdata⟩ := h.known (h.flag ▸ hy)
    obtain ⟨-, data, -⟩ := h.twin
    exact ⟨hu.symm, e, he, heu.trans hu.symm, name, i, by rw [data]; exact hdata⟩

/-- The one of the two that was built first, on its own. -/
theorem Regrouped.left {x y : Bool × Node} (h : Regrouped f us vs known x y) : Regrouped f us us known x x where
  flag := rfl
  twin := .refl _
  fresh := fun hx => ⟨(h.fresh hx).1, (h.fresh hx).1⟩
  known := fun hx => ⟨rfl, (h.known hx).2⟩

theorem forall₂_regrouped_symm (h : List.Forall₂ (Regrouped f us vs known) gs hs) :
    List.Forall₂ (Regrouped f vs us known) hs gs := (h.imp fun _ _ h => h.symm).flip

theorem left_of_regrouped (h : List.Forall₂ (Regrouped f us vs known) gs hs) :
    ∀ x ∈ gs, Regrouped f us us known x x := fun _ hx =>
  (exists_of_forall₂ h hx).elim fun _ h => h.2.left

/-- The same multiplexers stay. -/
theorem staying_congr (h : List.Forall₂ (Regrouped f us vs known) gs hs) (ms : List (Uuid × Int)) (view : Node)
    (i : Int) : i ∈ staying ms view gs ↔ i ∈ staying ms view hs := by
  have hsub : ∀ {us vs : List Uuid} {gs hs : List (Bool × Node)}, List.Forall₂ (Regrouped f us vs known) gs hs →
      ∀ u, (∃ g ∈ gs, g.1 = false ∧ g.2.uuid = u) → ∃ g ∈ hs, g.1 = false ∧ g.2.uuid = u := by
    rintro us vs gs hs h u ⟨g, hg, hflag, hu⟩
    obtain ⟨g', hg', hgg'⟩ := exists_of_forall₂ h hg
    exact ⟨g', hg', hgg'.flag.trans hflag, (hgg'.known hflag).1.trans hu⟩
  rw [mem_staying, mem_staying]
  refine exists_congr fun u => and_congr_right' (or_congr_right ⟨hsub h u, hsub (forall₂_regrouped_symm h) u⟩)

section

variable {t : Tree} {view : Node} {shape : Shape} {ns ns' : List Node} {skipped : List Uuid} {s s' : Supply}

/-- What a view is with its new multiplexers numbered. -/
theorem numbered_view (ht : t.Valid) (hv : view ∈ t.all) (hre : Rebuilt f t view shape ns skipped (gs.map (·.2)) s)
    {is : List Int} (hlength : is.length = (gs.filter (·.1)).length) :
    { view with children := ns ++ numberGroups gs is } ∈ ((t.setChildren view.uuid (ns ++ gs.map (·.2))).mapData
      (numbered (((gs.filter (·.1)).map (·.2.uuid)).zip is))).all := by
  have hself := Tree.mem_setChildren_self ht.nodup hv (ns ++ gs.map (·.2))
  have hnodup := Node.nodup_of_mem hself hre.valid.nodup
  have hbelow := Node.nodup_below hnodup
  rw [List.flatMap_append, List.nodup_append', List.flatMap_map] at hbelow
  have hseeds : ns.map (Node.mapData (numbered (((gs.filter (·.1)).map (·.2.uuid)).zip is))) = ns :=
    (List.map_congr_left fun n hn => mapData_numbered_of_notMem fun u hu h =>
      hbelow.2.2 (List.mem_flatMap.2 ⟨n, hn, hu⟩) (mem_flatMap_of_key h)).trans (List.map_id _)
  have hview : numbered (((gs.filter (·.1)).map (·.2.uuid)).zip is) view.uuid view.data = view.data :=
    numbered_of_notMem (fun h => Node.uuid_notMem_below hnodup (by
      rw [List.flatMap_append, List.flatMap_map]
      exact List.mem_append_right _ (mem_flatMap_of_key h))) view.data
  rw [Tree.all_mapData, ← map_numbered hbelow.2.1 hlength]
  refine List.mem_map.2 ⟨_, hself, ?_⟩
  rw [Node.mapData_eq, List.map_append, hseeds, hview]

variable (ht : t.Valid) (hv : view ∈ t.all) (hk : view.kind = f.view)
  (hre : Rebuilt f t view shape ns skipped (gs.map (·.2)) s)
  (hre' : Rebuilt f t view shape ns' skipped (hs.map (·.2)) s')
  (hus : t.uuids ⊆ us) (hvs : t.uuids ⊆ vs)
  (hgs : List.Forall₂ (Regrouped f us vs (groupKeys f view.children)) gs hs)
include ht hv hk hre hre' hus hvs hgs

/-- Where there are identifiers for the new multiplexers of one view there are the same ones for those of the
other. -/
theorem twin_finishMultiplexers (hf : f = .can) {t₁ : Tree}
    (h : finishMultiplexers (t.setChildren view.uuid (ns ++ gs.map (·.2))) view.uuid
      ((gs.filter (·.1)).map (·.2.uuid)) = .ok t₁) :
    ∃ t₂, finishMultiplexers (t.setChildren view.uuid (ns' ++ hs.map (·.2))) view.uuid
        ((hs.filter (·.1)).map (·.2.uuid)) = .ok t₂ ∧
      ∃ bs cs, { view with children := ns ++ bs } ∈ t₁.all ∧ { view with children := ns' ++ cs } ∈ t₂.all ∧
        List.Forall₂ (Twin us vs) bs cs := by
  subst hf
  have hne : view ≠ t.root := by
    rintro rfl
    have hroot := ht.root
    rw [hk] at hroot
    cases hkind : t.kind <;> rw [hkind] at hroot <;> cases hroot
  obtain ⟨message, hmessage, hvm⟩ := Node.exists_parent hv hne
  have hlength : (hs.filter (·.1)).length = (gs.filter (·.1)).length := by
    rw [← List.countP_eq_length_filter, ← List.countP_eq_length_filter]
    exact countP_eq_of_forall₂ hgs fun x y hxy => hxy.flag
  have hused : ∀ i, i ∈ identifiers (t.setChildren view.uuid (ns ++ gs.map (·.2))) message.uuid
      ((gs.filter (·.1)).map (·.2.uuid)) ↔ i ∈ identifiers (t.setChildren view.uuid (ns' ++ hs.map (·.2)))
        message.uuid ((hs.filter (·.1)).map (·.2.uuid)) := fun i => by
    rw [mem_identifiers_setChildren ht hmessage hvm hk hre hus (left_of_regrouped hgs), staying_congr hgs,
      mem_identifiers_setChildren ht hmessage hvm hk hre' hvs (left_of_regrouped (forall₂_regrouped_symm hgs))]
  rw [finishMultiplexers_setChildren ht hmessage hvm hre, nextIdentifiers_congr hused] at h
  rw [finishMultiplexers_setChildren ht hmessage hvm hre', hlength]
  cases his : nextIdentifiers (view.int .multiplexerRangeFirst) (view.int .multiplexerRangeLast)
      (identifiers (t.setChildren view.uuid (ns' ++ hs.map (·.2))) message.uuid
        ((hs.filter (·.1)).map (·.2.uuid))) (gs.filter (·.1)).length with
  | none => rw [his] at h; cases h
  | some is =>
    rw [his] at h
    obtain rfl := Except.ok.inj h
    have hcount := ((nextIdentifiers_spec _).1 is his).1
    exact ⟨_, rfl, _, _, numbered_view ht hv hre hcount, numbered_view ht hv hre' (hcount.trans hlength.symm),
      twin_numberGroups (hgs.imp fun x y hxy => ⟨hxy.flag, hxy.twin⟩) is⟩

end

section

variable {t t' : Tree} {view view' : Node} {shape : Shape} {ns ns' : List Node} {skipped : List Uuid}
  {s s' : Supply}

theorem placed_of_relaidOut (hr : IsRegister f) (ht : t.Valid) (hv : view ∈ t.all) (hk : view.kind = f.view)
    (hre : Rebuilt f t view shape ns skipped (gs.map (·.2)) s) :
    { view with children := ns ++ Layout.placeBlocks 0 (gs.map (·.2)) } ∈
      ((t.setChildren view.uuid (ns ++ gs.map (·.2))).relaidOut s).1.all :=
  exists_relaidOut hr hre.valid (Tree.mem_setChildren_self ht.nodup hv _) hk rfl
    (fun _ hn => (exists_of_forall₂ hre.seeds hn).elim fun _ h => h.2.kind)
    (fun _ hg => (exists_of_forall₂ hre.blocks hg).elim fun _ h => h.2.kind) hre.issued

/-- Both trees can be laid out, and the groups of both views get the same places. -/
theorem twin_updateLayout (hr : IsRegister f) (ht : t.Valid) (hv : view ∈ t.all) (ht' : t'.Valid)
    (hv' : view' ∈ t'.all) (hk : view.kind = f.view) (hk' : view'.kind = f.view)
    (hre : Rebuilt f t view shape ns skipped (gs.map (·.2)) s)
    (hre' : Rebuilt f t' view' shape ns' skipped (hs.map (·.2)) s')
    (hgs : List.Forall₂ (Regrouped f us vs known) gs hs) {t₁ : Tree} {s₁ : Supply}
    (h : Gives (t.setChildren view.uuid (ns ++ gs.map (·.2))).updateLayout s t₁ s₁) :
    ∃ t₂ s₂, Gives (t'.setChildren view'.uuid (ns' ++ hs.map (·.2))).updateLayout s' t₂ s₂ ∧
      ∃ bs cs, { view with children := ns ++ bs } ∈ t₁.all ∧ { view' with children := ns' ++ cs } ∈ t₂.all ∧
        List.Forall₂ (Twin us vs) bs cs := by
  rw [Tree.gives_updateLayout hre.valid hre.issued] at h
  obtain rfl : _ = t₁ := congrArg Prod.fst h
  refine ⟨_, _, (Tree.gives_updateLayout hre'.valid hre'.issued).2 rfl, _, _,
    placed_of_relaidOut hr ht hv hk hre, placed_of_relaidOut hr ht' hv' hk' hre', ?_⟩
  exact Layout.twin_placeBlocks (List.forall₂_map_left_iff.2 (List.forall₂_map_right_iff.2
    (hgs.imp fun x y hxy => hxy.twin))) 0

end

/-! ### Views in step -/

section

variable {k : TreeKind} {t t' : Tree} {view view' : Node} {shape : Shape}
  {z : ZeroBits} {p p' : Plan} {s s' s₁ s₁' : Supply}

theorem seedData?_eq (ss : List SeedSource) (ns : List Node) (u : Uuid) : seedData? ss ns u =
    ((ss.zip (ns.map Node.data)).find? (·.1.uuid == u)).map (·.2) := by
  rw [seedData?, List.zip_map_right, List.find?_map, Option.map_map]
  rfl

/-- Two trees with a view in the same place, linked to the same table and with the same groups. Where its
message matters the trees differ below the view only. -/
structure Abreast (k : TreeKind) (f : Family) (us vs : List Uuid) (t t' : Tree) (view view' : Node) : Prop where
  valid : t.Valid
  valid' : t'.Valid
  mem : view ∈ t.all
  mem' : view' ∈ t'.all
  uuid : view'.uuid = view.uuid
  data : view'.data = view.data
  groups : groupNodes f view'.children = groupNodes f view.children
  subset : t.uuids ⊆ us
  subset' : t'.uuids ⊆ vs
  base : k = .can → ∃ t₀ : Tree, t₀.Valid ∧ t₀.uuids ⊆ us ∧ t₀.uuids ⊆ vs ∧
    { view with children := groupNodes f view.children } ∈ t₀.all ∧
      ∀ cs, t.setChildren view.uuid cs = t₀.setChildren view.uuid cs ∧
        t'.setChildren view.uuid cs = t₀.setChildren view.uuid cs

theorem Abreast.symm (h : Abreast k f us vs t t' view view') : Abreast k f vs us t' t view' view where
  valid := h.valid'
  valid' := h.valid
  mem := h.mem'
  mem' := h.mem
  uuid := h.uuid.symm
  data := h.data.symm
  groups := h.groups.symm
  subset := h.subset'
  subset' := h.subset
  base := fun hk => by
    obtain ⟨t₀, ht₀, hus, hvs, hmem, hset⟩ := h.base hk
    exact ⟨t₀, ht₀, hvs, hus, by rw [h.uuid, h.data, h.groups]; exact hmem, fun cs => by rw [h.uuid]; exact (hset cs).symm⟩

theorem Rebuilt.congr {ns : List Node} {skipped : List Uuid} {gs : List Node}
    (h : Rebuilt f t view shape ns skipped gs s) (ht : ∀ cs, t.setChildren view.uuid cs = t'.setChildren view'.uuid cs) :
    Rebuilt f t' view' shape ns skipped gs s :=
  ⟨h.seeds, h.blocks, ht _ ▸ h.valid, ht _ ▸ h.issued⟩

/-- Planning looks at the attributes of reference points only. -/
theorem plan_of_plan (hdata : view'.data = view.data)
    (hseeds : (seeds f shape.seeds (.ofChildren f view'.children) s').1.1.map Node.data =
      (seeds f shape.seeds (.ofChildren f view.children) s).1.1.map Node.data)
    (hplan : Gives (plan f view shape z) s p s₁) : ∃ p' s₁', Gives (plan f view' shape z) s' p' s₁' ∧
      p'.seeds.map Node.data = p.seeds.map Node.data := by
  obtain ⟨⟨hk, htable⟩, hrun, hfits, hready, -⟩ := gives_plan.1 hplan
  rcases hrun' : seeds f shape.seeds (.ofChildren f view'.children) s' with ⟨⟨ns, st⟩, s₁'⟩
  rw [hrun, hrun'] at hseeds
  have hsame : seedData? shape.seeds ns = seedData? shape.seeds p.seeds := funext fun u => by
    rw [seedData?_eq, seedData?_eq, hseeds]
  refine ⟨⟨ns, st, unready f shape (seedData? shape.seeds ns)⟩, s₁',
    gives_plan.2 ⟨⟨?_, hdata ▸ htable⟩, hrun', ?_, ?_, rfl⟩, hseeds⟩
  · rw [Node.kind, hdata]
    exact hk
  · rw [hsame]
    exact hfits
  · rw [hsame]
    exact hready

theorem skipped_of_plan (hplan : Gives (plan f view shape z) s p s₁) (hplan' : Gives (plan f view' shape z) s' p' s₁')
    (hdata : p'.seeds.map Node.data = p.seeds.map Node.data) :
    seedData? shape.seeds p'.seeds = seedData? shape.seeds p.seeds ∧ p'.skipped = p.skipped := by
  have hsame : seedData? shape.seeds p'.seeds = seedData? shape.seeds p.seeds := funext fun u => by
    rw [seedData?_eq, seedData?_eq, hdata]
  rw [(gives_plan.1 hplan).2.2.2.2, (gives_plan.1 hplan').2.2.2.2, hsame]
  exact ⟨rfl, rfl⟩

/-- The groups that are built for two views with the same groups and the same reference points. -/
theorem Abreast.regrouped (h : Abreast k f us vs t t' view view') (hf : f.Lawful)
    (hplan : Gives (plan f view shape z) s p s₁) (hs : s.taken = us) (hplan' : Gives (plan f view' shape z) s' p' s₁')
    (hs' : s'.taken = vs) (hdata : p'.seeds.map Node.data = p.seeds.map Node.data) {gs gs' : List (Bool × Node)}
    {st st' : State} {s₂ s₂' : Supply}
    (hrun : ViewExpansion.groups f (seedData? shape.seeds p.seeds) p.skipped shape.groups p.state s₁ = ((gs, st), s₂))
    (hrun' : ViewExpansion.groups f (seedData? shape.seeds p'.seeds) p'.skipped shape.groups p'.state s₁' =
      ((gs', st'), s₂')) : List.Forall₂ (Regrouped f us vs (groupKeys f view.children)) gs gs' := by
  obtain ⟨hsame, hskipped⟩ := skipped_of_plan hplan hplan' hdata
  obtain ⟨-, hseeds, -⟩ := gives_plan.1 hplan
  obtain ⟨-, hseeds', -⟩ := gives_plan.1 hplan'
  have hpool := pool_seeds f shape.seeds (.ofChildren f view.children) s
  have hpool' := pool_seeds f shape.seeds (.ofChildren f view'.children) s'
  have htaken := taken_seeds f shape.seeds (.ofChildren f view.children) s
  have htaken' := taken_seeds f shape.seeds (.ofChildren f view'.children) s'
  rw [hseeds] at hpool htaken
  rw [hseeds'] at hpool' htaken'
  have hgroups : groupKeys f view'.children = groupKeys f view.children :=
    congrArg (List.map _) h.groups
  have hleaves : leafKeys f view'.children = leafKeys f view.children :=
    congrArg (List.flatMap _) h.groups
  have hboth := (parallel_groups hf (seedData? shape.seeds p.seeds) p.skipped shape.groups p.state p'.state s₁ s₁'
    ⟨(hpool'.1.trans hgroups).trans hpool.1.symm, (hpool'.2.trans hleaves).trans hpool.2.symm,
      fun _ he => hpool.1 ▸ he⟩ (htaken.trans hs) (htaken'.trans hs')).1
  rw [hrun, ← hsame, ← hskipped, hrun'] at hboth
  exact hboth

/-- Building succeeds for both or for none, and gives both the same groups. -/
theorem Abreast.build (h : Abreast k f us vs t t' view view') (hf : Family.ofTree k = .ok f)
    (hplan : Gives (plan f view shape z) s p s₁) (hs : s.taken = us) (hplan' : Gives (plan f view' shape z) s' p' s₁')
    (hs' : s'.taken = vs) (hdata : p'.seeds.map Node.data = p.seeds.map Node.data) {t₁ : Tree} {e : Expansion}
    {s₂ : Supply} (hbuild : Gives (build f t view shape p) s₁ (t₁, e) s₂) :
    ∃ t₂ e' s₂', Gives (ViewExpansion.build f t' view' shape p') s₁' (t₂, e') s₂' ∧
      ∃ bs cs, { view with children := p.seeds ++ bs } ∈ t₁.all ∧ { view' with children := p'.seeds ++ cs } ∈ t₂.all ∧
        List.Forall₂ (Twin us vs) bs cs := by
  have hlawful := Family.lawful_of_ofTree hf
  obtain ⟨gs, st, s₃, hrun, hfin, -⟩ := gives_build.1 hbuild
  rcases hrun' : ViewExpansion.groups f (seedData? shape.seeds p'.seeds) p'.skipped shape.groups p'.state s₁' with
    ⟨⟨gs', st'⟩, s₃'⟩
  have hgs := h.regrouped hlawful hplan hs hplan' hs' hdata hrun hrun'
  have hre := rebuilt hlawful h.valid h.mem (Supply.issued_of_taken h.valid.nodup (hs.symm ▸ h.subset)) hplan hrun
  have hre' := rebuilt hlawful h.valid' h.mem' (Supply.issued_of_taken h.valid'.nodup (hs'.symm ▸ h.subset')) hplan' hrun'
  rw [(skipped_of_plan hplan hplan' hdata).2] at hre'
  obtain ⟨⟨hk, -⟩, -⟩ := gives_plan.1 hplan
  obtain ⟨⟨hk', -⟩, -⟩ := gives_plan.1 hplan'
  have hregister : ∀ (hr : IsRegister f), (∀ t u created, f.finish t u created = t.updateLayout) →
      ∃ t₂ e' s₂', Gives (ViewExpansion.build f t' view' shape p') s₁' (t₂, e') s₂' ∧
        ∃ bs cs, { view with children := p.seeds ++ bs } ∈ t₁.all ∧
          { view' with children := p'.seeds ++ cs } ∈ t₂.all ∧ List.Forall₂ (Twin us vs) bs cs := by
    intro hr hfinish
    rw [hfinish] at hfin
    obtain ⟨t₂, s₂', hfin', hviews⟩ :=
      twin_updateLayout hr h.valid h.mem h.valid' h.mem' hk hk' hre hre' hgs hfin
    exact ⟨t₂, _, s₂', gives_build.2 ⟨gs', st', s₃', hrun', by rw [hfinish]; exact hfin', rfl⟩, hviews⟩
  cases k with
  | can =>
    obtain ⟨t₀, ht₀, hus, hvs, hmem, hset⟩ := h.base rfl
    cases hf
    obtain ⟨hnumbered, rfl⟩ := gives_liftM.1 hfin
    rw [(hset _).1] at hnumbered
    have hkeys : groupKeys .can (groupNodes .can view.children) = groupKeys .can view.children := by
      rw [groupKeys, groupKeys, groupNodes, List.filter_filter]
      simp only [Bool.and_self]
    obtain ⟨t₂, hfin', bs, cs, hbs, hcs, htwin⟩ := twin_finishMultiplexers ht₀ hmem hk
      (hre.congr fun cs => (hset cs).1) (hre'.congr fun cs => by rw [h.uuid]; exact (hset cs).2) hus hvs
      (hkeys.symm ▸ hgs) rfl hnumbered
    refine ⟨t₂, _, s₃', gives_build.2 ⟨gs', st', s₃', hrun', gives_liftM.2 ⟨?_, rfl⟩, rfl⟩, bs, cs, hbs, ?_, htwin⟩
    · rw [h.uuid]
      show finishMultiplexers (t'.setChildren view.uuid _) _ _ = _
      rw [(hset _).2]
      exact hfin'
    · rw [h.uuid, h.data]
      exact hcs
  | sunSpec => cases hf; exact hregister (.inl rfl) fun _ _ _ => rfl
  | staticModbus => cases hf; exact hregister (.inr rfl) fun _ _ _ => rfl
  | parameters | anomalies => cases hf

end

end ViewExpansion

end DeviceModel
