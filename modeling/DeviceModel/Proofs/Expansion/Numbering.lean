import DeviceModel.Proofs.Expansion.Twins
import DeviceModel.Proofs.Expansion.ViewTrees
import DeviceModel.Proofs.Tree.Changes

/-!
The multiplexers of a message where a view below it is rebuilt. Main statements: multiplexers that stay
keep their identifiers and new ones get identifiers of their own (`renumbers_finish`), and that fails where
fewer are left than there are new ones (`finish_exhausted`).
-/

namespace DeviceModel

/-! ### Multiplexers at and below a node -/

/-- The multiplexers at and below a node, with their identifiers. -/
def Node.multiplexers (n : Node) : List (Uuid × Int) :=
  (n.all.filter (·.kind == .multiplexer)).map fun m => (m.uuid, m.int .identifier)

/-- The multiplexers below a message, with their identifiers. -/
def Tree.multiplexers (t : Tree) (message : Uuid) : List (Uuid × Int) :=
  ((t.descendants message).filter (·.kind == .multiplexer)).map fun m => (m.uuid, m.int .identifier)

theorem Tree.multiplexers_of_mem {t : Tree} (ht : t.uuids.Nodup) {n : Node} (hn : n ∈ t.all) :
    t.multiplexers n.uuid = n.multiplexers := by
  rw [multiplexers, descendants_of_mem ht hn]
  rfl

/-- The identifiers in use are those of the multiplexers that are not left out. -/
theorem Family.mem_identifiers {t : Tree} {message : Uuid} {but : List Uuid} {i : Int} :
    i ∈ identifiers t message but ↔ ∃ u, (u, i) ∈ t.multiplexers message ∧ u ∉ but := by
  simp only [identifiers, Tree.multiplexers, List.mem_map, List.mem_filter, Bool.and_eq_true, beq_iff_eq,
    Bool.not_eq_true', List.contains_eq_mem, decide_eq_false_iff_not, Prod.mk.injEq]
  constructor
  · rintro ⟨m, ⟨hm, hk, hnot⟩, rfl⟩
    exact ⟨m.uuid, ⟨m, ⟨hm, hk⟩, rfl, rfl⟩, hnot⟩
  · rintro ⟨u, ⟨m, ⟨hm, hk⟩, rfl, rfl⟩, hnot⟩
    exact ⟨m, ⟨hm, hk, hnot⟩, rfl⟩

namespace Node

variable {n m : Node}

theorem mem_multiplexers {u : Uuid} {i : Int} : (u, i) ∈ n.multiplexers ↔
    ∃ m ∈ n.all, m.kind = .multiplexer ∧ m.uuid = u ∧ m.int .identifier = i := by
  simp only [multiplexers, List.mem_map, List.mem_filter, beq_iff_eq, Prod.mk.injEq, and_assoc]

theorem uuid_of_mem_multiplexers {u : Uuid} {i : Int} (h : (u, i) ∈ n.multiplexers) : u ∈ n.uuids := by
  obtain ⟨m, hm, -, rfl, -⟩ := mem_multiplexers.1 h
  exact uuid_mem_uuids hm

/-- A multiplexer has one identifier. -/
theorem multiplexers_unique (hn : n.uuids.Nodup) {u : Uuid} {i j : Int} (hi : (u, i) ∈ n.multiplexers)
    (hj : (u, j) ∈ n.multiplexers) : i = j := by
  obtain ⟨m, hm, -, hu, rfl⟩ := mem_multiplexers.1 hi
  obtain ⟨m', hm', -, hu', rfl⟩ := mem_multiplexers.1 hj
  rw [eq_of_uuid hn hm hm' (hu.trans hu'.symm)]

theorem multiplexers_sublist (n : Node) : (n.multiplexers.map Prod.fst).Sublist n.uuids := by
  rw [multiplexers, List.map_map]
  exact List.filter_sublist.map _

end Node

theorem Tree.nodup_multiplexers {t : Tree} (ht : t.uuids.Nodup) (message : Uuid) :
    ((t.multiplexers message).map Prod.fst).Nodup := by
  by_cases hm : message ∈ t.uuids
  · obtain ⟨n, hn, rfl⟩ := mem_uuids.1 hm
    rw [multiplexers_of_mem ht hn]
    exact n.multiplexers_sublist.nodup (Node.nodup_of_mem hn ht)
  · have hnone : t.find? message = none := by
      rw [find?, List.find?_eq_none]
      intro n hn
      simpa using fun h => hm (mem_uuids.2 ⟨n, hn, h⟩)
    rw [multiplexers, descendants, hnone]
    exact List.nodup_nil

namespace Node

variable {n m : Node}

/-- Around a node nothing changes when it is edited. -/
theorem exists_around (hn : n.uuids.Nodup) (hm : m ∈ n.all) : ∃ around : List (Uuid × Int),
    (∀ x, x ∈ n.multiplexers ↔ x ∈ around ∨ x ∈ m.multiplexers) ∧ (∀ x ∈ around, x.1 ∉ m.uuids) ∧
      ∀ f x, x ∈ (n.edit m.uuid f).multiplexers ↔ x ∈ around ∨ x ∈ (f m).multiplexers := by
  obtain ⟨before, behind, hself, hedit⟩ := outline_edit hn hm Prod.mk
  -- A multiplexer is read off its entry in the outline.
  have houtline : ∀ k : Node, k.multiplexers =
      ((k.outline Prod.mk).filter (·.2.kind == .multiplexer)).map fun x => (x.1, x.2.int .identifier) := by
    intro k
    rw [multiplexers, outline, List.filter_map, List.map_map]
    rfl
  refine ⟨((before ++ behind).filter (·.2.kind == .multiplexer)).map fun x => (x.1, x.2.int .identifier),
    fun x => ?_, fun x hx hmem => ?_, fun f x => ?_⟩
  · simp only [houtline, hself, List.filter_append, List.map_append, List.mem_append]
    tauto
  · obtain ⟨y, hy, rfl⟩ := List.mem_map.1 hx
    have huuids : n.uuids = before.map Prod.fst ++ m.uuids ++ behind.map Prod.fst := by
      have hfst : ∀ k : Node, k.uuids = (k.outline Prod.mk).map Prod.fst := fun k => by
        rw [outline, List.map_map]
        rfl
      rw [hfst n, hself, List.map_append, List.map_append, ← hfst]
    rw [huuids] at hn
    obtain ⟨hfront, -, hback⟩ := List.nodup_append'.1 hn
    obtain ⟨-, -, hmiddle⟩ := List.nodup_append'.1 hfront
    rcases List.mem_append.1 (List.mem_of_mem_filter hy) with h | h
    · exact hmiddle (List.mem_map_of_mem h) hmem
    · exact hback (List.mem_append_right _ hmem) (List.mem_map_of_mem h)
  · simp only [houtline, hedit, List.filter_append, List.map_append, List.mem_append]
    tauto

end Node

/-! ### The multiplexers of a view -/

/-- What becomes of the multiplexers `ms` of a message when a view below it is rebuilt, where there were the
nodes `us`, and `vs` at and below the view: multiplexers outside the view stay, one that was there keeps its
identifier, and each new one has an identifier of the range that no other has. -/
structure Renumbers (first last : Int) (us vs : List Uuid) (ms ms' : List (Uuid × Int)) : Prop where
  outside : ∀ x ∈ ms, x.1 ∉ vs → x ∈ ms'
  kept : ∀ x ∈ ms', x.1 ∈ us → x ∈ ms
  inside : ∀ x ∈ ms', x.1 ∉ us → first ≤ x.2 ∧ x.2 ≤ last
  apart : ∀ x ∈ ms', x.1 ∉ us → ∀ y ∈ ms', y.1 ≠ x.1 → y.2 ≠ x.2

/-- So identifiers that were distinct are distinct again. -/
theorem Renumbers.nodup {first last : Int} {us vs : List Uuid} {ms ms' : List (Uuid × Int)}
    (h : Renumbers first last us vs ms ms') (hn : (ms'.map Prod.fst).Nodup) (hms : (ms.map Prod.snd).Nodup) :
    (ms'.map Prod.snd).Nodup := by
  refine List.Nodup.map_on (fun x hx y hy hxy => ?_) (List.Nodup.of_map _ hn)
  by_cases hfst : x.1 = y.1
  · exact Prod.ext hfst hxy
  · by_cases hxu : x.1 ∈ us
    · by_cases hyu : y.1 ∈ us
      · exact List.inj_on_of_nodup_map hms (h.kept x hx hxu) (h.kept y hy hyu) hxy
      · exact absurd hxy (h.apart y hy hyu x hx hfst)
    · exact absurd hxy.symm (h.apart x hx hxu y hy (Ne.symm hfst))

/-- New multiplexers get free identifiers, all of them different. -/
theorem renumbers_of_lookup {first last : Int} {us vs created : List Uuid} {is used : List Int}
    {ms ms' : List (Uuid × Int)} (hlength : is.length = created.length) (hdistinct : is.Nodup)
    (hfree : ∀ i ∈ is, i ∈ unused first last used) (hused : ∀ x ∈ ms', x.1 ∉ created → x.2 ∈ used)
    (hnew : ∀ u ∈ created, u ∉ us) (hold : ∀ x ∈ ms', x.1 ∈ created ∨ x.1 ∈ us ∧ x ∈ ms)
    (houtside : ∀ x ∈ ms, x.1 ∉ vs → x ∈ ms' ∧ x.1 ∈ us) :
    Renumbers first last us vs ms (ms'.map fun x => (x.1, ((created.zip is).lookup x.1).getD x.2)) := by
  have hfst : (created.zip is).map Prod.fst = created := List.map_fst_zip hlength.ge
  have hsnd : (created.zip is).map Prod.snd = is := List.map_snd_zip hlength.le
  have hnone : ∀ x : Uuid × Int, x.1 ∉ created → ((created.zip is).lookup x.1).getD x.2 = x.2 := by
    intro x hx
    rcases lookup_or (created.zip is) x.1 with ⟨-, h⟩ | ⟨i, hi, -⟩
    · rw [h, Option.getD_none]
    · exact absurd (List.of_mem_zip hi).1 hx
  have hsome : ∀ x : Uuid × Int, x.1 ∈ created →
      (x.1, ((created.zip is).lookup x.1).getD x.2) ∈ created.zip is := by
    intro x hx
    rcases lookup_or (created.zip is) x.1 with ⟨h, -⟩ | ⟨i, hi, h⟩
    · exact absurd (hfst.symm ▸ hx) h
    · rwa [h, Option.getD_some]
  refine ⟨fun x hx hvs => ?_, fun y hy hyu => ?_, fun y hy hyu => ?_, fun y hy hyu z hz hzy => ?_⟩
  · obtain ⟨hx', hxu⟩ := houtside x hx hvs
    exact List.mem_map.2 ⟨x, hx', Prod.ext rfl (hnone x fun h => hnew _ h hxu)⟩
  · obtain ⟨x, hx, rfl⟩ := List.mem_map.1 hy
    obtain ⟨-, hxm⟩ := (hold x hx).resolve_left fun h => hnew _ h hyu
    rwa [show (x.1, ((created.zip is).lookup x.1).getD x.2) = x from
      Prod.ext rfl (hnone x fun h => hnew _ h hyu)]
  · obtain ⟨x, hx, rfl⟩ := List.mem_map.1 hy
    have hxc := (hold x hx).resolve_right fun h => hyu h.1
    exact (mem_unused.1 (hfree _ (List.of_mem_zip (hsome x hxc)).2)).1
  · obtain ⟨x, hx, rfl⟩ := List.mem_map.1 hy
    obtain ⟨x', hx', rfl⟩ := List.mem_map.1 hz
    have hpair := hsome x ((hold x hx).resolve_right fun h => hyu h.1)
    intro heq
    simp only at heq hzy
    by_cases hc : x'.1 ∈ created
    · have hpairs := List.inj_on_of_nodup_map (hsnd.symm ▸ hdistinct) (hsome x' hc) hpair heq
      exact hzy (Prod.ext_iff.1 hpairs).1
    · rw [hnone x' hc] at heq
      exact (mem_unused.1 (hfree _ (List.of_mem_zip hpair).2)).2 (heq ▸ hused x' hx' hc)

/-- The identifiers of multiplexers `ms` that are used when the groups `gs` are built for a view: those outside
the view, and those that are built again. -/
def staying (ms : List (Uuid × Int)) (view : Node) (gs : List (Bool × Node)) : List Int :=
  (ms.filter fun x => x.1 ∉ view.uuids ∨ ∃ g ∈ gs, g.1 = false ∧ g.2.uuid = x.1).map Prod.snd

theorem mem_staying {ms : List (Uuid × Int)} {view : Node} {gs : List (Bool × Node)} {i : Int} :
    i ∈ staying ms view gs ↔
      ∃ u, (u, i) ∈ ms ∧ (u ∉ view.uuids ∨ ∃ g ∈ gs, g.1 = false ∧ g.2.uuid = u) := by
  simp [staying]

/-! ### Multiplexers with other identifiers -/

namespace Family

theorem kind_numbered (l : List (Uuid × Int)) (u : Uuid) (d : Data) : (numbered l u d).kind = d.kind := by
  rcases numbered_or l u d with h | ⟨i, -, h⟩
  · rw [h]
  · rw [h, Data.kind_put]

theorem int_numbered (l : List (Uuid × Int)) (u : Uuid) {d : Data} (hk : d.kind = .multiplexer) :
    (numbered l u d).int .identifier = (l.lookup u).getD (d.int .identifier) := by
  rw [numbered]
  cases l.lookup u with
  | none => rfl
  | some i =>
    simp only [Option.getD_some]
    rw [Data.int, Data.int?, Data.get?_put (f := .hex .identifier) (hk ▸ rfl) rfl]
    rfl

end Family

theorem Tree.descendants_mapData {g : Uuid → Data → Data} (t : Tree) (u : Uuid) :
    (t.mapData g).descendants u = (t.descendants u).map (Node.mapData g) := by
  rw [descendants, descendants, find?_mapData]
  cases t.find? u with
  | none => rfl
  | some n => exact n.all_mapData

/-- The multiplexers with the identifiers that they are given. -/
theorem Tree.multiplexers_numbered (t : Tree) (message : Uuid) (l : List (Uuid × Int)) :
    (t.mapData (Family.numbered l)).multiplexers message =
      (t.multiplexers message).map fun x => (x.1, (l.lookup x.1).getD x.2) := by
  rw [multiplexers, multiplexers, descendants_mapData, List.filter_map, List.map_map, List.map_map]
  have hkind : ((·.kind == .multiplexer) ∘ Node.mapData (Family.numbered l)) = (·.kind == .multiplexer) := by
    funext m
    rw [Function.comp_apply, Node.kind_mapData, Family.kind_numbered]
    rfl
  rw [hkind]
  refine List.map_congr_left fun m hm => ?_
  have hk : m.data.kind = .multiplexer := beq_iff_eq.1 (List.mem_filter.1 hm).2
  simp only [Function.comp_apply, Node.uuid_mapData, Node.int, Node.data_mapData, Family.int_numbered l m.uuid hk]

namespace ViewExpansion

open Family

/-- The multiplexers of a view are those that were put below it. -/
theorem mem_multiplexers_view {view : Node} (hk : view.kind = .canTable) {ns gs : List Node}
    {ss : List SeedSource} {bs : List Block} (hns : List.Forall₂ (SeedStands .can) ns ss)
    (hgs : List.Forall₂ (BlockStands .can) gs bs) {u : Uuid} {i : Int} :
    (u, i) ∈ ({ view with children := ns ++ gs } : Node).multiplexers ↔
      ∃ g ∈ gs, g.uuid = u ∧ g.int .identifier = i := by
  rw [Node.mem_multiplexers]
  constructor
  · rintro ⟨m, hm, hmk, hmu, hmi⟩
    rcases Node.mem_all.1 hm with rfl | ⟨c, hc, hmc⟩
    · rw [show Node.kind { view with children := ns ++ gs } = view.kind from rfl, hk] at hmk
      cases hmk
    · rcases List.mem_append.1 hc with hc | hc
      · obtain ⟨s, -, hs⟩ := exists_of_forall₂ hns hc
        rw [Node.all_eq, hs.children, List.flatMap_nil, List.mem_singleton] at hmc
        subst hmc
        rw [hs.kind] at hmk
        cases hmk
      · obtain ⟨b, -, hb⟩ := exists_of_forall₂ hgs hc
        rcases hb.mem_all hmc with rfl | ⟨-, p, hp⟩
        · exact ⟨_, hc, hmu, hmi⟩
        · rw [hp.kind] at hmk
          cases hmk
  · rintro ⟨g, hg, hu, hi⟩
    obtain ⟨b, -, hb⟩ := exists_of_forall₂ hgs hg
    exact ⟨g, Node.mem_all_of_child (List.mem_append_right _ hg), hb.kind, hu, hi⟩

/-- A multiplexer that is built again has the identifier that it had. -/
theorem int_groupData (name : String) (path : List Uuid) (chunk : Nat) (d : Data) :
    (can.groupData name path chunk (some d)).int .identifier = d.int .identifier := by
  rw [groupData_can, Option.getD_some, Data.int, Data.int?, Data.get?_of (f := .hex .identifier)
    (v := .integer (d.int .identifier)) (nodup_multiplexerAttrs ..) (by simp [multiplexerAttrs]) rfl rfl]
  rfl

/-- A group that has been built is new, or stands in the place of an old multiplexer with its identifier. -/
theorem Regrouped.or {us : List Uuid} {cs : List Node} {x : Bool × Node}
    (h : Regrouped .can us us (groupKeys .can cs) x x) :
    x.1 = true ∧ x.2.uuid ∉ us ∨ x.1 = false ∧
      ∃ c ∈ cs, c.kind = .multiplexer ∧ c.uuid = x.2.uuid ∧ c.int .identifier = x.2.int .identifier := by
  obtain ⟨flag, g⟩ := x
  cases flag with
  | true => exact .inl ⟨rfl, (h.fresh rfl).1⟩
  | false =>
    obtain ⟨-, e, he, hu, name, i, hdata⟩ := h.known rfl
    obtain ⟨c, hc, rfl⟩ := List.mem_map.1 he
    obtain ⟨hc, hck⟩ := List.mem_filter.1 hc
    refine .inr ⟨rfl, c, hc, beq_iff_eq.1 hck, hu, ?_⟩
    rw [show g.int .identifier = g.data.int .identifier from rfl, hdata, int_groupData]
    rfl

/-! ### Numbering -/

section

variable {t : Tree} (ht : t.Valid) {view message : Node} (hmessage : message ∈ t.all)
  (hv : view ∈ message.children) (hk : view.kind = .canTable) {shape : Shape} {ns : List Node}
  {skipped : List Uuid} {gs : List (Bool × Node)} {s : Supply}
  (hre : Rebuilt .can t view shape ns skipped (gs.map (·.2)) s) {us : List Uuid} (hus : t.uuids ⊆ us)
  (hgs : ∀ x ∈ gs, Regrouped .can us us (groupKeys .can view.children) x x)
include ht hmessage hv hk hre hus hgs

omit hus hgs in
/-- The multiplexers of the message before and after, but for the identifiers of new ones. -/
theorem exists_multiplexers : ∃ around : List (Uuid × Int),
    (∀ x, x ∈ t.multiplexers message.uuid ↔ x ∈ around ∨ x ∈ view.multiplexers) ∧
    (∀ x ∈ around, x.1 ∈ t.uuids ∧ x.1 ∉ view.uuids) ∧
    ∀ u i, (u, i) ∈ (t.setChildren view.uuid (ns ++ gs.map (·.2))).multiplexers message.uuid ↔
      (u, i) ∈ around ∨ ∃ x ∈ gs, x.2.uuid = u ∧ x.2.int .identifier = i := by
  have hn := Node.nodup_of_mem hmessage ht.nodup
  obtain ⟨around, hbefore, hout, hafter⟩ := Node.exists_around hn (Node.mem_all_of_child hv)
  refine ⟨around, fun x => ?_, fun x hx => ⟨?_, hout x hx⟩, fun u i => ?_⟩
  · rw [Tree.multiplexers_of_mem ht.nodup hmessage]
    exact hbefore x
  · have hx := (hbefore x).2 (.inl hx)
    exact Node.uuids_subset hmessage (Node.uuid_of_mem_multiplexers (i := x.2) hx)
  · obtain ⟨q, hq, hqe, hqu, -⟩ := Tree.mem_setChildren_parent ht.nodup hmessage hv (ns ++ gs.map (·.2))
    rw [← hqu, Tree.multiplexers_of_mem hre.valid.nodup hq, hqe, hafter,
      mem_multiplexers_view hk hre.seeds hre.blocks]
    simp only [List.mem_map, exists_exists_and_eq_and]

omit hus in
/-- A multiplexer of the view is new, or it is an old one with its identifier. -/
theorem new_or_old {x : Bool × Node} (hx : x ∈ gs) :
    x.2.uuid ∈ (gs.filter (·.1)).map (·.2.uuid) ∧ x.2.uuid ∉ us ∨
      x.1 = false ∧ x.2.uuid ∈ t.uuids ∧ (x.2.uuid, x.2.int .identifier) ∈ t.multiplexers message.uuid := by
  obtain ⟨around, hbefore, -⟩ := exists_multiplexers ht hmessage hv hk hre
  rcases (hgs x hx).or with ⟨hflag, hnot⟩ | ⟨hflag, c, hc, hck, hcu, hci⟩
  · exact .inl ⟨List.mem_map_of_mem (List.mem_filter.2 ⟨hx, hflag⟩), hnot⟩
  · rw [← hcu, ← hci]
    refine .inr ⟨hflag, ?_, (hbefore _).2 (.inr (Node.mem_multiplexers.2 ⟨c, ?_, hck, rfl, rfl⟩))⟩
    · exact Node.uuid_mem_uuids (Tree.mem_all_of_child (Tree.mem_all_of_child hmessage hv) hc)
    · exact Node.mem_all_of_child hc

omit ht hmessage hv hk hre hus in
theorem notMem_of_created {u : Uuid} (h : u ∈ (gs.filter (·.1)).map (·.2.uuid)) : u ∉ us := by
  obtain ⟨x, hx, rfl⟩ := List.mem_map.1 h
  obtain ⟨hx, hflag⟩ := List.mem_filter.1 hx
  exact ((hgs x hx).fresh hflag).1

/-- The identifiers that are used when new ones are given out. -/
theorem mem_identifiers_setChildren {i : Int} :
    i ∈ identifiers (t.setChildren view.uuid (ns ++ gs.map (·.2))) message.uuid
        ((gs.filter (·.1)).map (·.2.uuid)) ↔ i ∈ staying (t.multiplexers message.uuid) view gs := by
  obtain ⟨around, hbefore, hout, hafter⟩ := exists_multiplexers ht hmessage hv hk hre
  rw [mem_identifiers, mem_staying]
  constructor
  · rintro ⟨u, hu, hnot⟩
    rcases (hafter u i).1 hu with h | ⟨x, hx, rfl, rfl⟩
    · exact ⟨u, (hbefore _).2 (.inl h), .inl (hout _ h).2⟩
    · obtain ⟨hflag, -, hold⟩ :=
        (new_or_old ht hmessage hv hk hre hgs hx).resolve_left fun h => hnot h.1
      exact ⟨x.2.uuid, hold, .inr ⟨x, hx, hflag, rfl⟩⟩
  · rintro ⟨u, hu, h | ⟨x, hx, hflag, rfl⟩⟩
    · have ha := ((hbefore _).1 hu).resolve_right fun ha => h (Node.uuid_of_mem_multiplexers ha)
      exact ⟨u, (hafter u i).2 (.inl ha), fun hmem => notMem_of_created hgs hmem (hus (hout _ ha).1)⟩
    · have hin : x.2.uuid ∈ t.uuids := by
        rw [Tree.multiplexers_of_mem ht.nodup hmessage] at hu
        exact Node.uuids_subset hmessage (Node.uuid_of_mem_multiplexers hu)
      obtain ⟨-, -, hold⟩ :=
        (new_or_old ht hmessage hv hk hre hgs hx).resolve_left fun h => h.2 (hus hin)
      rw [Tree.multiplexers_of_mem ht.nodup hmessage] at hu hold
      have hi := Node.multiplexers_unique (Node.nodup_of_mem hmessage ht.nodup) hold hu
      exact ⟨x.2.uuid, (hafter _ i).2 (.inr ⟨x, hx, rfl, hi⟩), fun hmem => notMem_of_created hgs hmem (hus hin)⟩

omit hk hus hgs in
/-- New multiplexers get the next identifiers that are free, if there are enough. -/
theorem finishMultiplexers_setChildren :
    finishMultiplexers (t.setChildren view.uuid (ns ++ gs.map (·.2))) view.uuid
        ((gs.filter (·.1)).map (·.2.uuid)) =
      match nextIdentifiers (view.int .multiplexerRangeFirst) (view.int .multiplexerRangeLast)
        (identifiers (t.setChildren view.uuid (ns ++ gs.map (·.2))) message.uuid
          ((gs.filter (·.1)).map (·.2.uuid))) (gs.filter (·.1)).length with
      | some is => .ok ((t.setChildren view.uuid (ns ++ gs.map (·.2))).mapData
          (numbered (((gs.filter (·.1)).map (·.2.uuid)).zip is)))
      | none => .error (.inconsistent .identifiersExhausted) := by
  have hview := Tree.mem_all_of_child hmessage hv
  have hself := Tree.mem_setChildren_self ht.nodup hview (ns ++ gs.map (·.2))
  obtain ⟨hnodup, -⟩ := Rebuilt.created ht hview hre
  obtain ⟨p, hp, -, hpu, hpc⟩ := Tree.mem_setChildren_parent ht.nodup hmessage hv (ns ++ gs.map (·.2))
  have hfind := Tree.find?_of_mem hre.valid.nodup hself
  have hparent := Tree.parent?_of_child hre.valid.nodup hp hpc
  rw [finishMultiplexers, Tree.node_eq_ok.2 hfind]
  simp only [bind, Except.bind]
  rw [hparent]
  simp only [hpu]
  rw [assignIdentifiers_eq hre.valid.nodup hnodup, List.length_map]
  rfl

/-- What becomes of the multiplexers of the message. -/
theorem renumbers_finish {t' : Tree} (h : finishMultiplexers (t.setChildren view.uuid (ns ++ gs.map (·.2)))
      view.uuid ((gs.filter (·.1)).map (·.2.uuid)) = .ok t') :
    Renumbers (view.int .multiplexerRangeFirst) (view.int .multiplexerRangeLast) t.uuids view.uuids
      (t.multiplexers message.uuid) (t'.multiplexers message.uuid) := by
  obtain ⟨around, hbefore, hout, hafter⟩ := exists_multiplexers ht hmessage hv hk hre
  rw [finishMultiplexers_setChildren ht hmessage hv hre] at h
  generalize hcreated : (gs.filter (·.1)).map (·.2.uuid) = created at h
  cases his : nextIdentifiers (view.int .multiplexerRangeFirst) (view.int .multiplexerRangeLast)
      (identifiers (t.setChildren view.uuid (ns ++ gs.map (·.2))) message.uuid created)
      (gs.filter (·.1)).length with
  | none => rw [his] at h; cases h
  | some is =>
    rw [his] at h
    obtain rfl := Except.ok.inj h
    obtain ⟨hlength, hdistinct, hfree⟩ := (nextIdentifiers_spec _).1 is his
    rw [Tree.multiplexers_numbered]
    refine renumbers_of_lookup (by rw [← hcreated, List.length_map, hlength]) hdistinct hfree
      (fun x hx hnot => mem_identifiers.2 ⟨x.1, hx, hnot⟩) (fun u hu hut => ?_) (fun x hx => ?_) fun x hx hvs => ?_
    · exact notMem_of_created hgs (hcreated ▸ hu) (hus hut)
    · rcases (hafter x.1 x.2).1 hx with h | ⟨y, hy, hyu, hyi⟩
      · exact .inr ⟨(hout x h).1, (hbefore x).2 (.inl h)⟩
      · obtain rfl : (y.2.uuid, y.2.int .identifier) = x := Prod.ext hyu hyi
        exact (new_or_old ht hmessage hv hk hre hgs hy).imp (fun h => hcreated ▸ h.1) And.right
    · have h := ((hbefore x).1 hx).resolve_right fun h => hvs (Node.uuid_of_mem_multiplexers (i := x.2) h)
      exact ⟨(hafter x.1 x.2).2 (.inl h), (hout x h).1⟩

/-- Too few identifiers are left for the new multiplexers. -/
theorem finish_exhausted (h : (unused (view.int .multiplexerRangeFirst) (view.int .multiplexerRangeLast)
      (staying (t.multiplexers message.uuid) view gs)).card < (gs.filter (·.1)).length) :
    finishMultiplexers (t.setChildren view.uuid (ns ++ gs.map (·.2))) view.uuid
      ((gs.filter (·.1)).map (·.2.uuid)) = .error (.inconsistent .identifiersExhausted) := by
  have hused : unused (view.int .multiplexerRangeFirst) (view.int .multiplexerRangeLast)
      (identifiers (t.setChildren view.uuid (ns ++ gs.map (·.2))) message.uuid
        ((gs.filter (·.1)).map (·.2.uuid))) = unused (view.int .multiplexerRangeFirst)
          (view.int .multiplexerRangeLast) (staying (t.multiplexers message.uuid) view gs) := by
    ext i
    rw [mem_unused, mem_unused, mem_identifiers_setChildren ht hmessage hv hk hre hus hgs]
  rw [finishMultiplexers_setChildren ht hmessage hv hre, (nextIdentifiers_spec _).2.2 (hused ▸ h)]

end

end ViewExpansion

end DeviceModel
