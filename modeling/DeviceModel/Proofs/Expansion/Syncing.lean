import DeviceModel.Proofs.Expansion.Views

/-!
Bringing the reference points of a view in step. Main statements: a valid tree is still valid with the
children that the view gets (`valid_sync`); and these are reference points for the sources in their order, the
old ones where there were some, with the groups as they were behind them (`sync_eq`), so nothing changes where
they stand already (`sync_of_stands`).
-/

namespace DeviceModel

namespace ViewExpansion

/-- Putting a child in another place changes the order only. -/
theorem place_filter_perm {cs : List Node} (hn : (cs.map Node.uuid).Nodup) {n : Node} (h : n ∈ cs)
    (row : Nat) : (Node.place row n (cs.filter (·.uuid != n.uuid))).Perm cs := by
  refine (Node.place_perm row n _).trans ?_
  obtain ⟨before, behind, rfl⟩ := List.append_of_mem h
  rw [List.map_append, List.map_cons, List.nodup_append', List.nodup_cons] at hn
  obtain ⟨-, ⟨hbehind, -⟩, hdis⟩ := hn
  have hfilter : ∀ l : List Node, n.uuid ∉ l.map Node.uuid → l.filter (·.uuid != n.uuid) = l := by
    refine fun l hl => List.filter_eq_self.2 fun m hm => bne_iff_ne.2 fun hmn => ?_
    exact hl (hmn ▸ List.mem_map_of_mem hm)
  rw [List.filter_append, List.filter_cons_of_neg (by simp), hfilter behind hbehind,
    hfilter before fun hm => hdis hm (List.mem_cons_self ..)]
  exact List.perm_middle.symm

/-- A reference point without anything below it. -/
def IsSeed (f : Family) (n : Node) : Prop := n.kind = f.point ∧ n.children = []

theorem syncFrom_spec {f : Family} (hf : f.Lawful) {points : List (Node × Option Uuid)} {row : Nat}
    {cs : List Node} {ss : List SeedSource} {s : Supply} {rest : List Uuid}
    (hp : ∀ x ∈ points, ∀ src ∈ ss, x.2 = some src.uuid → x.1 ∈ cs)
    (hs : s.Issued (cs.flatMap Node.uuids ++ rest)) :
    (syncFrom f points row cs ss s).2.Issued
        ((syncFrom f points row cs ss s).1.flatMap Node.uuids ++ rest) ∧
      ∀ c ∈ (syncFrom f points row cs ss s).1, c ∈ cs ∨ IsSeed f c := by
  induction ss generalizing row cs s with
  | nil => exact ⟨hs, fun c hc => .inl hc⟩
  | cons src ss ih =>
    -- What is put in place holds the old children, and perhaps a new reference point.
    have step : ∀ (ds : List Node) (s' : Supply), (∀ c ∈ cs, c ∈ ds) → (∀ c ∈ ds, c ∈ cs ∨ IsSeed f c) →
        s'.Issued (ds.flatMap Node.uuids ++ rest) →
        (syncFrom f points (row + 1) ds ss s').2.Issued
            ((syncFrom f points (row + 1) ds ss s').1.flatMap Node.uuids ++ rest) ∧
          ∀ c ∈ (syncFrom f points (row + 1) ds ss s').1, c ∈ cs ∨ IsSeed f c := by
      intro ds s' hsub hds hs'
      obtain ⟨hissued, hmem⟩ := @ih (row + 1) ds s'
        (fun x hx t ht h => hsub _ (hp x hx t (List.mem_cons_of_mem _ ht) h)) hs'
      exact ⟨hissued, fun c hc => (hmem c hc).elim (hds c) .inr⟩
    rw [syncFrom]
    cases hfind : points.find? (·.2 == some src.uuid) with
    | some x =>
      have hx : x.2 = some src.uuid := by simpa using List.find?_some hfind
      have hxm := hp x (List.mem_of_find?_eq_some hfind) src (List.mem_cons_self ..) hx
      have hnodup : (cs.map Node.uuid).Nodup :=
        (Node.map_uuid_sublist cs).nodup ((List.sublist_append_left _ _).nodup hs.nodup)
      have hperm := place_filter_perm hnodup hxm row
      exact step _ s (fun c hc => hperm.mem_iff.2 hc) (fun c hc => .inl (hperm.mem_iff.1 hc))
        (hs.perm ((hperm.flatMap_right _).append_right rest))
    | none =>
      have hperm := Node.place_perm row (Node.leaf (draw s).1 (f.newSeed src)) cs
      refine step _ (draw s).2 (fun c hc => hperm.mem_iff.2 (List.mem_cons_of_mem _ hc)) (fun c hc => ?_)
        (hs.draw.perm ((hperm.flatMap_right _).append_right rest))
      rcases List.mem_cons.1 (hperm.mem_iff.1 hc) with rfl | hc
      · exact .inr ⟨hf.kind_newSeed src, rfl⟩
      · exact .inl hc

theorem sync_spec {f : Family} (hf : f.Lawful) {children : List Node} (sources : List SeedSource)
    {s : Supply} {rest : List Uuid} (hs : s.Issued (children.flatMap Node.uuids ++ rest)) :
    (sync f children sources s).2.Issued ((sync f children sources s).1.flatMap Node.uuids ++ rest) ∧
      ∀ c ∈ (sync f children sources s).1, c ∈ children ∨ IsSeed f c := by
  have hkept := hs.sublist (((List.filter_sublist (p := fun n => !(n.kind == f.point &&
    !(Family.sourceOf? n.data).any fun s => sources.any (·.uuid == s)))).flatMap Node.uuids).append_right
      rest)
  -- A reference point that is put in place is not stale, since its source is one of the table's.
  have hpoints : ∀ x ∈ (children.filter (·.kind == f.point)).map fun n => (n, Family.sourceOf? n.data),
      ∀ src ∈ sources, x.2 = some src.uuid → x.1 ∈ children.filter fun n => !(n.kind == f.point &&
        !(Family.sourceOf? n.data).any fun s => sources.any (·.uuid == s)) := by
    intro x hx src hsrc h
    obtain ⟨n, hn, rfl⟩ := List.mem_map.1 hx
    refine List.mem_filter.2 ⟨List.mem_of_mem_filter hn, ?_⟩
    have hany : sources.any (·.uuid == src.uuid) = true := List.any_eq_true.2 ⟨src, hsrc, by simp⟩
    simp [show Family.sourceOf? n.data = some src.uuid from h, hany]
  obtain ⟨hissued, hmem⟩ := syncFrom_spec hf hpoints hkept
  exact ⟨hissued, fun c hc => (hmem c hc).imp_left List.mem_of_mem_filter⟩

/-- The identifiers of the new children are new to the tree, or were below the view. -/
theorem valid_sync {f : Family} (hf : f.Lawful) {t : Tree} (ht : t.Valid) {view : Node}
    (hv : view ∈ t.all) (hk : view.kind = f.view) (sources : List SeedSource) {s : Supply}
    (hs : s.Issued t.uuids) : (t.setChildren view.uuid (sync f view.children sources s).1).Valid := by
  obtain ⟨outside, hold, hnew⟩ := Tree.exists_outside ht.nodup hv
  obtain ⟨hissued, hmem⟩ := sync_spec hf sources (hs.perm hold.symm)
  refine ht.setChildren hv (fun c hc => ?_) ((hnew _).nodup_iff.2 hissued.nodup)
  rcases hmem c hc with hc | hc
  · have hct := Tree.mem_all_of_child hv hc
    exact ⟨ht.allowed view hv c hc, ht.allowedRoot.of_mem hct⟩
  · exact ⟨hk ▸ hc.1 ▸ hf.allows_point, Node.allowed_iff.2 (by simp [hc.2])⟩

/-! ### The children that the view gets -/

/-- The reference point for a source: the one that there was, or where there was none a new one. -/
inductive Resynced (f : Family) (old : List Node) (us : List Uuid) (n : Node) (s : SeedSource) : Prop
  | kept (mem : n ∈ old) (source : Family.sourceOf? n.data = some s.uuid)
  | new (none : ∀ m ∈ old, Family.sourceOf? m.data ≠ some s.uuid) (uuid : n.uuid ∉ us)
    (eq : n = .leaf n.uuid (f.newSeed s))

theorem Resynced.mono {f : Family} {old : List Node} {us vs : List Uuid} {n : Node} {s : SeedSource}
    (h : Resynced f old us n s) (hvs : vs ⊆ us) : Resynced f old vs n s := by
  cases h with
  | kept mem source => exact .kept mem source
  | new none uuid eq => exact .new none (fun h => uuid (hvs h)) eq

theorem Resynced.source_eq {f : Family} (hf : f.Lawful) {old : List Node} {us : List Uuid} {n : Node}
    {s : SeedSource} (h : Resynced f old us n s) : Family.sourceOf? n.data = some s.uuid := by
  cases h with
  | kept mem source => exact source
  | new none uuid eq => rw [eq]; exact hf.source_newSeed s

/-- Points with their sources. -/
def sourced (points : List Node) : List (Node × Option Uuid) := points.map fun n => (n, Family.sourceOf? n.data)

theorem find?_sourced {points : List Node} {u : Uuid} {x : Node × Option Uuid}
    (h : (sourced points).find? (·.2 == some u) = some x) : x.1 ∈ points ∧ Family.sourceOf? x.1.data = some u := by
  obtain ⟨n, hn, rfl⟩ := List.mem_map.1 (List.mem_of_find?_eq_some h)
  exact ⟨hn, by simpa using List.find?_some h⟩

theorem find?_sourced_eq_none {points : List Node} {u : Uuid} :
    (sourced points).find? (·.2 == some u) = none ↔ ∀ n ∈ points, Family.sourceOf? n.data ≠ some u := by
  simp [sourced, List.find?_eq_none]

theorem place_append (placed : List Node) (n : Node) (cs : List Node) :
    Node.place placed.length n (placed ++ cs) = placed ++ n :: cs := by
  rw [Node.place, List.take_left' rfl, List.drop_left' rfl]

/-- The loop: `placed` stands in front, behind it the old points that are still to be placed, and then the
groups. -/
theorem syncFrom_eq {f : Family} {points placed rest gs : List Node} {ss : List SeedSource} {s : Supply}
    (hss : (ss.map SeedSource.uuid).Nodup) (hs : s.Issued ((placed ++ rest ++ gs).map Node.uuid))
    (hmem : ∀ src ∈ ss, ∀ x, (sourced points).find? (·.2 == some src.uuid) = some x → x.1 ∈ rest)
    (hrest : ∀ n ∈ rest, ∃ src ∈ ss, ∃ x, (sourced points).find? (·.2 == some src.uuid) = some x ∧ x.1 = n) :
    ∃ ns, (syncFrom f (sourced points) placed.length (placed ++ rest ++ gs) ss s).1 = placed ++ ns ++ gs ∧
      List.Forall₂ (Resynced f points s.taken) ns ss := by
  induction ss generalizing placed rest s with
  | nil =>
    obtain rfl : rest = [] := List.eq_nil_iff_forall_not_mem.2 fun n hn => by
      obtain ⟨src, hsrc, -⟩ := hrest n hn
      cases hsrc
    exact ⟨[], rfl, .nil⟩
  | cons src ss ih =>
    obtain ⟨hne, hss⟩ := List.nodup_cons.1 hss
    rw [syncFrom]
    cases hfind : (sourced points).find? (·.2 == some src.uuid) with
    | some x =>
      obtain ⟨hxp, hxs⟩ := find?_sourced hfind
      have hxr := hmem src (List.mem_cons_self ..) x hfind
      -- The point is taken out of those that are to be placed, and nowhere else.
      have hfilter : (placed ++ rest ++ gs).filter (·.uuid != x.1.uuid) =
          placed ++ (rest.filter (·.uuid != x.1.uuid) ++ gs) := by
        have hdistinct := hs.nodup
        rw [List.map_append, List.map_append] at hdistinct
        obtain ⟨hfront, -, hback⟩ := List.nodup_append'.1 hdistinct
        obtain ⟨-, -, hmiddle⟩ := List.nodup_append'.1 hfront
        have hx := List.mem_map_of_mem (f := Node.uuid) hxr
        have hkeep : ∀ l : List Node, x.1.uuid ∉ l.map Node.uuid → l.filter (·.uuid != x.1.uuid) = l := by
          refine fun l hl => List.filter_eq_self.2 fun m hm => bne_iff_ne.2 fun hmx => ?_
          exact hl (hmx ▸ List.mem_map_of_mem hm)
        rw [List.filter_append, List.filter_append, hkeep placed fun h => hmiddle h hx,
          hkeep gs fun h => hback (List.mem_append_right _ hx) h, List.append_assoc]
      have hperm := place_filter_perm hs.nodup (List.mem_append_left gs (List.mem_append_right placed hxr))
        placed.length
      rw [hfilter, place_append] at hperm
      show ∃ ns, (syncFrom f (sourced points) (placed.length + 1)
        (Node.place placed.length x.1 ((placed ++ rest ++ gs).filter (·.uuid != x.1.uuid))) ss s).1 = _ ∧ _
      rw [hfilter, place_append]
      have hnext := @ih (placed ++ [x.1]) (rest.filter (·.uuid != x.1.uuid)) s hss
        (by simpa using hs.perm (hperm.map Node.uuid)) (fun t ht y hy => ?_) fun n hn => ?_
      · obtain ⟨ns, hns, hresynced⟩ := hnext
        refine ⟨x.1 :: ns, ?_, .cons (.kept hxp hxs) hresynced⟩
        simpa using hns
      · -- Another source has another point.
        obtain ⟨hyp, hys⟩ := find?_sourced hy
        have hyr := hmem t (List.mem_cons_of_mem _ ht) y hy
        refine List.mem_filter.2 ⟨hyr, bne_iff_ne.2 fun hyx => ?_⟩
        have hrest := hs.nodup.sublist (((List.sublist_append_right placed rest).trans
          (List.sublist_append_left _ gs)).map Node.uuid)
        obtain heq : y.1 = x.1 := List.inj_on_of_nodup_map hrest hyr hxr hyx
        rw [heq, hxs] at hys
        exact hne (Option.some.inj hys ▸ List.mem_map_of_mem ht)
      · obtain ⟨hn, hnx⟩ := List.mem_filter.1 hn
        obtain ⟨t, ht, y, hy, rfl⟩ := hrest n hn
        refine ⟨t, (List.mem_cons.1 ht).resolve_left fun h => ?_, y, hy, rfl⟩
        rw [h, hfind] at hy
        cases hy
        simp at hnx
    | none =>
      show ∃ ns, (syncFrom f (sourced points) (placed.length + 1) (Node.place placed.length
        (.leaf (draw s).1 (f.newSeed src)) (placed ++ rest ++ gs)) ss (draw s).2).1 = _ ∧ _
      rw [List.append_assoc, place_append]
      have hnext := @ih (placed ++ [.leaf (draw s).1 (f.newSeed src)]) rest (draw s).2 hss ?_ (fun t ht y hy => hmem t (List.mem_cons_of_mem _ ht) y hy) fun n hn => ?_
      · obtain ⟨ns, hns, hresynced⟩ := hnext
        refine ⟨.leaf (draw s).1 (f.newSeed src) :: ns, by simpa using hns,
          .cons (.new (find?_sourced_eq_none.1 hfind) (draw_notMem s) rfl) hresynced⟩
      · refine hs.draw.perm ?_
        simp only [List.map_append, List.map_cons, List.append_assoc, List.singleton_append]
        exact List.perm_middle
      · obtain ⟨t, ht, y, hy, rfl⟩ := hrest n hn
        refine ⟨t, (List.mem_cons.1 ht).resolve_left fun h => ?_, y, hy, rfl⟩
        rw [h, hfind] at hy
        cases hy

/-- The reference points among the children of a view. -/
def seedNodes (f : Family) (cs : List Node) : List Node := cs.filter (·.kind == f.point)

/-- The groups among the children of a view. -/
def groupNodes (f : Family) (cs : List Node) : List Node := cs.filter (·.kind == f.group)

/-- Reference points for different sources in front, and groups behind them. -/
structure Seeded (f : Family) (cs : List Node) : Prop where
  sorted : cs = seedNodes f cs ++ groupNodes f cs
  sources : ((seedNodes f cs).map fun n => Family.sourceOf? n.data).Nodup

theorem seedNodes_append {f : Family} (hf : f.Lawful) {ns gs : List Node} (hns : ∀ n ∈ ns, n.kind = f.point)
    (hgs : ∀ n ∈ gs, n.kind = f.group) :
    seedNodes f (ns ++ gs) = ns ∧ groupNodes f (ns ++ gs) = gs := by
  have hne := hf.point_ne_group
  rw [seedNodes, groupNodes, List.filter_append, List.filter_append]
  constructor
  · rw [List.filter_eq_self.2 fun n hn => by simp [hns n hn], List.filter_eq_nil_iff.2 fun n hn => by
      simp [hgs n hn, Ne.symm hne], List.append_nil]
  · rw [List.filter_eq_nil_iff.2 fun n hn => by simp [hns n hn, hne], List.filter_eq_self.2 fun n hn => by
      simp [hgs n hn], List.nil_append]

/-- Reference points for the sources of a table, and groups. -/
theorem seeded_of_sources {f : Family} (hf : f.Lawful) {ns gs : List Node} {ss : List SeedSource}
    (hns : List.Forall₂ (fun n s => n.kind = f.point ∧ Family.sourceOf? n.data = some s.uuid) ns ss)
    (hgs : ∀ n ∈ gs, n.kind = f.group) (hss : (ss.map SeedSource.uuid).Nodup) : Seeded f (ns ++ gs) := by
  obtain ⟨hseeds, hgroups⟩ := seedNodes_append hf
    (fun n hn => (exists_of_forall₂ hns hn).elim fun _ h => h.2.1) hgs
  have hsources : (ns.map fun n => Family.sourceOf? n.data) = (ss.map SeedSource.uuid).map some := by
    rw [List.map_map]
    exact (map_eq_of_forall₂ hns fun n s h => h.2.symm).symm
  refine ⟨by rw [hseeds, hgroups], ?_⟩
  rw [hseeds, hsources]
  exact hss.map (Option.some_injective _)

section

variable {f : Family} {cs : List Node} (h : Seeded f cs) {ss : List SeedSource}
include h

theorem Seeded.eq_of_source {n m : Node} (hn : n ∈ seedNodes f cs) (hm : m ∈ seedNodes f cs)
    (hnm : Family.sourceOf? n.data = Family.sourceOf? m.data) : n = m :=
  List.inj_on_of_nodup_map h.sources hn hm hnm

theorem Seeded.find?_sourced {n : Node} (hn : n ∈ seedNodes f cs) {u : Uuid}
    (hu : Family.sourceOf? n.data = some u) :
    (sourced (seedNodes f cs)).find? (·.2 == some u) = some (n, some u) := by
  cases hfind : (sourced (seedNodes f cs)).find? (·.2 == some u) with
  | none => exact absurd hu (find?_sourced_eq_none.1 hfind n hn)
  | some x =>
    obtain ⟨hx, hxu⟩ := ViewExpansion.find?_sourced hfind
    have hsource : x.2 = some u := by simpa using List.find?_some hfind
    rw [← h.eq_of_source hx hn (hxu.trans hu.symm), ← hsource]

variable (hf : f.Lawful) (hss : (ss.map SeedSource.uuid).Nodup)
include hf hss

/-- What becomes of the children of a view: reference points for the sources in their order, and the groups as
they were. -/
theorem sync_eq {s : Supply} (hs : s.Issued (cs.map Node.uuid)) :
    ∃ ns, (sync f cs ss s).1 = ns ++ groupNodes f cs ∧
      List.Forall₂ (Resynced f (seedNodes f cs) s.taken) ns ss := by
  have hne := hf.point_ne_group
  have hkept : cs.filter (fun n => !(n.kind == f.point && !(Family.sourceOf? n.data).any fun u =>
      ss.any (·.uuid == u))) = (seedNodes f cs).filter (fun n => (Family.sourceOf? n.data).any fun u =>
        ss.any (·.uuid == u)) ++ groupNodes f cs := by
    conv_lhs => rw [h.sorted]
    rw [List.filter_append]
    congr 1
    · exact List.filter_congr fun n hn => by simp [(List.mem_filter.1 hn).2]
    · exact List.filter_eq_self.2 fun n hn => by
        have hk : n.kind = f.group := by simpa using (List.mem_filter.1 hn).2
        simp [hk, Ne.symm hne]
  rw [sync]
  simp only
  rw [hkept]
  refine @syncFrom_eq _ _ [] _ _ _ _ hss ?_ (fun src hsrc x hx => ?_) fun n hn => ?_
  · refine hs.sublist ?_
    conv_rhs => rw [h.sorted]
    rw [List.nil_append]
    exact (List.filter_sublist.append_right _).map _
  · obtain ⟨hxp, hxs⟩ := ViewExpansion.find?_sourced hx
    refine List.mem_filter.2 ⟨hxp, ?_⟩
    rw [hxs, Option.any_some]
    exact List.any_eq_true.2 ⟨src, hsrc, by simp⟩
  · obtain ⟨hn, hany⟩ := List.mem_filter.1 hn
    obtain ⟨u, hu, hany⟩ := (Option.any_eq_true ..).1 hany
    obtain ⟨src, hsrc, hsu⟩ := List.any_eq_true.1 hany
    have hsource : Family.sourceOf? n.data = some src.uuid := by rw [hu, beq_iff_eq.1 hsu]
    exact ⟨src, hsrc, _, h.find?_sourced hn hsource, rfl⟩

/-- Reference points that stand for the sources stay as they are. -/
theorem sync_of_stands {s : Supply} (hs : s.Issued (cs.map Node.uuid))
    (hstands : List.Forall₂ (fun n s => Family.sourceOf? n.data = some s.uuid) (seedNodes f cs) ss) :
    (sync f cs ss s).1 = cs := by
  obtain ⟨ns, hns, hresynced⟩ := sync_eq h hf hss hs
  have heq : ns = seedNodes f cs := by
    have hmem := (List.forall₂_and_left (p := (· ∈ seedNodes f cs)) _ _).2 ⟨fun n hn => hn, hstands⟩
    have hsame : List.Forall₂ (· = ·) ns (seedNodes f cs) := by
      refine (forall₂_comp hresynced hmem.flip).imp ?_
      rintro n m ⟨src, hn, hm, hms⟩
      cases hn with
      | kept mem source => exact h.eq_of_source mem hm (source.trans hms.symm)
      | new none => exact absurd hms (none m hm)
    rwa [List.forall₂_eq_eq_eq] at hsame
  rw [hns, heq]
  exact h.sorted.symm

end

end ViewExpansion

end DeviceModel
