import DeviceModel.Proofs.Expansion.Again
import DeviceModel.Proofs.Expansion.Syncing

/-!
Two builds side by side. Main statement: groups that are built from the same old groups and leaves are the same
but for identifiers that are drawn (`parallel_groups`).
-/

namespace DeviceModel

/-- The same identifier, or two that are new: `us` were there on the one side and `vs` on the other. -/
def Corresponds (us vs : List Uuid) (u v : Uuid) : Prop := u = v ∨ u ∉ us ∧ v ∉ vs

/-- The same node but for new identifiers at and below it. -/
inductive Twin (us vs : List Uuid) : Node → Node → Prop
  | intro {n m : Node} (uuid : Corresponds us vs n.uuid m.uuid) (data : m.data = n.data)
      (children : List.Forall₂ (Twin us vs) n.children m.children) : Twin us vs n m

variable {us vs : List Uuid} {σ α β : Type}

theorem Twin.refl (n : Node) : Twin us vs n n := by
  induction n using Node.inductOn with
  | h n ih => exact .intro (.inl rfl) rfl (List.forall₂_same.2 ih)

theorem Twin.mono {us' vs' : List Uuid} {n m : Node} (h : Twin us vs n m) (hu : us' ⊆ us) (hv : vs' ⊆ vs) :
    Twin us' vs' n m := by
  induction n using Node.inductOn generalizing m with
  | h n ih =>
    obtain ⟨uuid, data, children⟩ := h
    refine .intro (uuid.imp_right fun ⟨h, h'⟩ => ⟨fun hmem => h (hu hmem), fun hmem => h' (hv hmem)⟩) data ?_
    have hmem := (List.forall₂_and_left (p := (· ∈ n.children)) _ _).2 ⟨fun c hc => hc, children⟩
    exact hmem.imp fun c d hcd => ih c hcd.1 hcd.2

/-- Where no identifier is new the nodes are the same. -/
theorem Twin.eq {n m : Node} (h : Twin us vs n m) (hn : n.uuids ⊆ us) : m = n := by
  induction n using Node.inductOn generalizing m with
  | h n ih =>
    obtain ⟨uuid, data, children⟩ := h
    have hu : n.uuid = m.uuid := uuid.resolve_right fun h => h.1 (hn (Node.uuid_mem_uuids n.mem_all_self))
    have hmem := (List.forall₂_and_left (p := (· ∈ n.children)) _ _).2 ⟨fun c hc => hc, children⟩
    have hsame : List.Forall₂ (· = ·) n.children m.children := hmem.imp fun c d hcd =>
      (ih c hcd.1 hcd.2 fun u hu => hn (Node.uuids_subset (Node.mem_all_of_child hcd.1) hu)).symm
    rw [List.forall₂_eq_eq_eq] at hsame
    rw [← m.eta, ← n.eta, hu, data, hsame]

/-- Two steps, each from a state of its own and with a supply that offers none of `us` and none of `vs`. -/
def Parallel (I : σ → σ → Prop) (us vs : List Uuid) (b c : StateT σ Fresh α) (R : α → α → Prop) : Prop :=
  ∀ st st' s s', I st st' → s.taken = us → s'.taken = vs →
    R (b st s).1.1 (c st' s').1.1 ∧ I (b st s).1.2 (c st' s').1.2 ∧
      (b st s).2.taken = us ∧ (c st' s').2.taken = vs

section

variable {I : σ → σ → Prop} {b c : StateT σ Fresh α} {R : α → α → Prop}

theorem parallel_pure {a a' : α} (h : R a a') : Parallel I us vs (pure a) (pure a') R :=
  fun _ _ _ _ hi hs hs' => ⟨h, hi, hs, hs'⟩

theorem Parallel.bind {f g : α → StateT σ Fresh β} {S : β → β → Prop} (hb : Parallel I us vs b c R)
    (hf : ∀ a a', R a a' → Parallel I us vs (f a) (g a') S) : Parallel I us vs (b >>= f) (c >>= g) S := by
  intro st st' s s' hi hs hs'
  obtain ⟨ha, hi, hs, hs'⟩ := hb st st' s s' hi hs hs'
  exact hf _ _ ha _ _ _ _ hi hs hs'

end

namespace ViewExpansion

/-- The same old groups and leaves, the groups among `known`. -/
structure SamePool (known : List (List Uuid × Uuid × Data)) (st st' : State) : Prop where
  groups : st'.groups = st.groups
  leaves : st'.leaves = st.leaves
  subset : st.groups ⊆ known

/-- Two groups that have been built side by side: both new, or both in the place of the same old one. -/
structure Regrouped (f : Family) (us vs : List Uuid) (known : List (List Uuid × Uuid × Data))
    (x y : Bool × Node) : Prop where
  flag : y.1 = x.1
  twin : Twin us vs x.2 y.2
  fresh : x.1 = true → x.2.uuid ∉ us ∧ y.2.uuid ∉ vs
  known : x.1 = false → y.2.uuid = x.2.uuid ∧ ∃ e ∈ known, e.2.1 = x.2.uuid ∧
    ∃ name i, x.2.data = f.groupData name x.2.data.path i (some e.2.2)

variable {f : Family} {known : List (List Uuid × Uuid × Data)}

theorem parallel_identify (o : Option Uuid) : Parallel (SamePool known) us vs (identify o) (identify o)
    fun u v => (o = none → u ∉ us ∧ v ∉ vs) ∧ ∀ k, o = some k → u = k ∧ v = k := by
  intro st st' s s' hi hs hs'
  cases o with
  | some u => exact ⟨⟨nofun, fun k hk => by cases hk; exact ⟨rfl, rfl⟩⟩, ⟨hi.groups, hi.leaves, hi.subset⟩, hs, hs'⟩
  | none =>
    exact ⟨⟨fun _ => ⟨hs ▸ draw_notMem s, hs' ▸ draw_notMem s'⟩, nofun⟩,
      ⟨hi.groups, hi.leaves, hi.subset⟩, hs, hs'⟩

theorem corresponds_of_identify {o : Option Uuid} {u v : Uuid}
    (h : (o = none → u ∉ us ∧ v ∉ vs) ∧ ∀ k, o = some k → u = k ∧ v = k) : Corresponds us vs u v := by
  cases o with
  | none => exact .inr (h.1 rfl)
  | some k => exact .inl ((h.2 k rfl).1.trans (h.2 k rfl).2.symm)

theorem parallel_takeLeaf (path : List Uuid) (source : Uuid) :
    Parallel (SamePool known) us vs (takeLeaf path source) (takeLeaf path source) Eq := by
  intro st st' s s' hi hs hs'
  cases h : st.leaves.find? (·.1 == (path, source)) with
  | some e =>
    have h' : st'.leaves.find? (·.1 == (path, source)) = some e := by rw [hi.leaves]; exact h
    rw [takeLeaf_known h, takeLeaf_known h']
    exact ⟨rfl, ⟨hi.groups, by rw [hi.leaves], hi.subset⟩, hs, hs'⟩
  | none =>
    have h' : st'.leaves.find? (·.1 == (path, source)) = none := by rw [hi.leaves]; exact h
    rw [takeLeaf_new h, takeLeaf_new h']
    exact ⟨rfl, hi, hs, hs'⟩

theorem parallel_takeGroups (path : List Uuid) :
    Parallel (SamePool known) us vs (takeGroups path) (takeGroups path) fun p q =>
      q = p ∧ ∀ x ∈ p, ∃ e ∈ known, e.2 = x := by
  intro st st' s s' hi hs hs'
  rw [takeGroups_eq, takeGroups_eq, hi.groups]
  refine ⟨⟨rfl, fun x hx => ?_⟩, ⟨rfl, hi.leaves, fun e he => hi.subset (List.mem_of_mem_filter he)⟩, hs, hs'⟩
  obtain ⟨e, he, rfl⟩ := List.mem_map.1 hx
  exact ⟨e, hi.subset (List.mem_of_mem_filter he), rfl⟩

theorem parallel_points (path : List Uuid) (leaves : List (Leaf × Data)) (ps : List Placed) :
    Parallel (SamePool known) us vs (points f path leaves ps) (points f path leaves ps)
      (List.Forall₂ (Twin us vs)) := by
  induction ps with
  | nil => exact parallel_pure .nil
  | cons p ps ih =>
    rw [points]
    cases leaves[p.index]? with
    | none => exact ih
    | some x =>
      refine (parallel_takeLeaf path x.1.uuid).bind fun o o' ho => ?_
      subst ho
      refine (parallel_identify o).bind fun u v huv => ih.bind fun ns ms hns => parallel_pure (.cons ?_ hns)
      exact .intro (corresponds_of_identify huv) rfl .nil

theorem parallel_chunks (hf : f.Lawful) (g : LeafGroup) (leaves : List (Leaf × Data)) (i : Nat)
    {previous : List (Uuid × Data)} (hp : ∀ x ∈ previous, ∃ e ∈ known, e.2 = x) (cs : List (List Placed)) :
    Parallel (SamePool known) us vs (chunks f g leaves i previous cs) (chunks f g leaves i previous cs)
      (List.Forall₂ (Regrouped f us vs known)) := by
  induction cs generalizing i previous with
  | nil => exact parallel_pure .nil
  | cons c cs ih =>
    refine (parallel_identify _).bind fun u v huv => (parallel_points g.path leaves c).bind fun ns ms hns => ?_
    refine (ih (i + 1) fun x hx => hp x (List.mem_of_mem_drop hx)).bind fun xs ys hxs =>
      parallel_pure (.cons ⟨rfl, .intro (corresponds_of_identify huv) rfl hns, fun hnew => ?_, fun hold => ?_⟩ hxs)
    · exact huv.1 (by simpa using hnew)
    · obtain ⟨x, hx⟩ : ∃ x, previous.head? = some x := Option.isSome_iff_exists.1 (by simpa using hold)
      obtain ⟨e, he, rfl⟩ := hp x (List.mem_of_head? hx)
      obtain ⟨hu, hv⟩ := huv.2 e.2.1 (by rw [hx]; rfl)
      refine ⟨hv.trans hu.symm, e, he, hu.symm, g.name, i, ?_⟩
      simp only [hx, Option.map_some]
      rw [hf.path_groupData]

/-- Groups that are built from the same old ones. -/
theorem parallel_groups (hf : f.Lawful) (data? : Uuid → Option Data) (skipped : List Uuid)
    (gs : List LeafGroup) : Parallel (SamePool known) us vs (groups f data? skipped gs)
      (groups f data? skipped gs) (List.Forall₂ (Regrouped f us vs known)) := by
  induction gs with
  | nil => exact parallel_pure .nil
  | cons g gs ih =>
    rw [groups]
    split
    · exact ih
    · refine (parallel_takeGroups g.path).bind fun p q hpq => ?_
      obtain ⟨rfl, hp⟩ := hpq
      refine (parallel_chunks hf g _ 0 hp _).bind fun xs ys hxs => ih.bind fun xs' ys' hxs' => ?_
      exact parallel_pure (List.rel_append hxs hxs')

/-! ### Reference points -/

/-- The reference points that two views have for a source: the same one, or none and a new one. -/
inductive Resumes (f : Family) (vs : List Uuid) (x : SeedSource) :
    Option (Uuid × Uuid × Data) → Option (Uuid × Uuid × Data) → Prop
  | kept (e : Uuid × Uuid × Data) : Resumes f vs x (some e) (some e)
  | drawn {u : Uuid} (hu : u ∉ vs) : Resumes f vs x none (some (x.uuid, u, f.newSeed x))

theorem find?_filter_ne {l : List (Uuid × Uuid × Data)} {u v : Uuid} (h : u ≠ v) :
    (l.filter (·.1 != v)).find? (·.1 == u) = l.find? (·.1 == u) := by
  rw [List.find?_filter]
  congr 1
  funext e
  by_cases he : e.1 = u <;> simp [he, h]

/-- Reference points that are built from the same old ones, or anew where one has been made already. -/
theorem twin_seeds (hf : f.Lawful) {ss : List SeedSource} (hss : (ss.map SeedSource.uuid).Nodup) {st st' : State}
    {s s' : Supply} (hs : us ⊆ s.taken) (h : ∀ x ∈ ss, Resumes f vs x (st.seeds.find? (·.1 == x.uuid))
      (st'.seeds.find? (·.1 == x.uuid))) :
    List.Forall₂ (Twin us vs) (seeds f ss st s).1.1 (seeds f ss st' s').1.1 := by
  induction ss generalizing st st' s s' with
  | nil => exact .nil
  | cons x ss ih =>
    obtain ⟨hne, hss⟩ := List.nodup_cons.1 hss
    have hother : ∀ y ∈ ss, y.uuid ≠ x.uuid := fun y hy heq => hne (heq ▸ List.mem_map_of_mem hy)
    have hx := h x List.mem_cons_self
    show List.Forall₂ _ ((seed f x st s).1.1 :: (seeds f ss (seed f x st s).1.2 (seed f x st s).2).1.1)
      ((seed f x st' s').1.1 :: (seeds f ss (seed f x st' s').1.2 (seed f x st' s').2).1.1)
    cases hfind : st.seeds.find? (·.1 == x.uuid) with
    | some e =>
      rw [hfind] at hx
      cases hfind' : st'.seeds.find? (·.1 == x.uuid) with
      | none => rw [hfind'] at hx; cases hx
      | some e' =>
        rw [hfind'] at hx
        cases hx
        rw [seed_known hfind, seed_known hfind']
        refine .cons (.refl _) (ih hss hs fun y hy => ?_)
        simp only
        rw [find?_filter_ne (hother y hy), find?_filter_ne (hother y hy)]
        exact h y (List.mem_cons_of_mem _ hy)
    | none =>
      rw [hfind] at hx
      cases hfind' : st'.seeds.find? (·.1 == x.uuid) with
      | none => rw [hfind'] at hx; cases hx
      | some e' =>
        rw [hfind'] at hx
        cases hx with
        | drawn hu =>
          rw [seed_new hfind, seed_known hfind']
          refine .cons (.intro (.inr ⟨fun hmem => draw_notMem s (hs hmem), hu⟩) ?_ .nil)
            (ih hss (by rwa [taken_draw]) fun y hy => ?_)
          · exact hf.name_newSeed x
          · simp only
            rw [find?_filter_ne (hother y hy)]
            exact h y (List.mem_cons_of_mem _ hy)

theorem find?_seedKeys {cs : List Node} (h : Seeded f cs) {n : Node} (hn : n ∈ seedNodes f cs) {u : Uuid}
    (hu : Family.sourceOf? n.data = some u) : (seedKeys f cs).find? (·.1 == u) = some (u, n.uuid, n.data) := by
  have hmem : (u, n.uuid, n.data) ∈ seedKeys f cs := List.mem_filterMap.2 ⟨n, hn, by rw [hu]; rfl⟩
  cases hfind : (seedKeys f cs).find? (·.1 == u) with
  | none => exact absurd (List.find?_eq_none.1 hfind _ hmem) (by simp)
  | some e =>
    obtain ⟨m, hm, hme⟩ := List.mem_filterMap.1 (List.mem_of_find?_eq_some hfind)
    obtain ⟨v, hv, rfl⟩ := Option.map_eq_some_iff.1 hme
    obtain rfl : v = u := by simpa using List.find?_some hfind
    rw [h.eq_of_source hm hn (hv.trans hu.symm)]

theorem find?_seedKeys_eq_none {cs : List Node} {u : Uuid}
    (h : ∀ n ∈ seedNodes f cs, Family.sourceOf? n.data ≠ some u) : (seedKeys f cs).find? (·.1 == u) = none := by
  refine List.find?_eq_none.2 fun e he => ?_
  obtain ⟨m, hm, hme⟩ := List.mem_filterMap.1 he
  obtain ⟨v, hv, rfl⟩ := Option.map_eq_some_iff.1 hme
  simpa using fun hvu : v = u => h m hm (hvu ▸ hv)

/-- The reference points of a view before and after they have been brought in step. -/
theorem resumes_sync (hf : f.Lawful) {cs ns gs : List Node} (h : Seeded f cs) {ss : List SeedSource}
    (hns : List.Forall₂ (Resynced f (seedNodes f cs) vs) ns ss) (hgs : ∀ n ∈ gs, n.kind = f.group)
    (hss : (ss.map SeedSource.uuid).Nodup) : ∀ x ∈ ss,
      Resumes f vs x ((seedKeys f cs).find? (·.1 == x.uuid)) ((seedKeys f (ns ++ gs)).find? (·.1 == x.uuid)) := by
  have hkind : ∀ {n : Node} {s : SeedSource}, Resynced f (seedNodes f cs) vs n s → n.kind = f.point := by
    intro n s hn
    cases hn with
    | kept mem source => simpa using (List.mem_filter.1 mem).2
    | new none uuid eq => rw [eq]; exact hf.kind_newSeed s
  have hseeded := seeded_of_sources hf (hns.imp fun n s hn => ⟨hkind hn, hn.source_eq hf⟩) hgs hss
  have hseeds := (seedNodes_append hf (fun n hn => (exists_of_forall₂ hns hn).elim fun _ h => hkind h.2) hgs).1
  intro x hx
  obtain ⟨n, hn, hnx⟩ := exists_of_forall₂ hns.flip hx
  rw [find?_seedKeys hseeded (hseeds.symm ▸ hn) (hnx.source_eq hf)]
  cases hnx with
  | kept mem source => rw [find?_seedKeys h mem source]; exact .kept _
  | new none uuid eq => rw [find?_seedKeys_eq_none none, eq]; exact .drawn uuid

/-! ### One build -/

/-- Reference points leave the groups and leaves that are to be taken up. -/
theorem pool_seeds (f : Family) (ss : List SeedSource) (st : State) (s : Supply) :
    (seeds f ss st s).1.2.groups = st.groups ∧ (seeds f ss st s).1.2.leaves = st.leaves := by
  induction ss generalizing st s with
  | nil => exact ⟨rfl, rfl⟩
  | cons x ss ih =>
    have hone : (seed f x st s).1.2.groups = st.groups ∧ (seed f x st s).1.2.leaves = st.leaves := by
      cases h : st.seeds.find? (·.1 == x.uuid) with
      | some e => rw [seed_known h]; exact ⟨rfl, rfl⟩
      | none => rw [seed_new h]; exact ⟨rfl, rfl⟩
    obtain ⟨hgroups, hleaves⟩ := ih (seed f x st s).1.2 (seed f x st s).2
    exact ⟨hgroups.trans hone.1, hleaves.trans hone.2⟩

/-- Each group that is built is new, or stands in the place of an old one. -/
theorem regrouped (hf : f.Lawful) {view : Node} {shape : Shape} {z : ZeroBits} {p : Plan} {s s₁ s₂ : Supply}
    (hplan : Gives (plan f view shape z) s p s₁) {data? : Uuid → Option Data} {skipped : List Uuid}
    {gs : List LeafGroup} {xs : List (Bool × Node)} {st : State}
    (hrun : groups f data? skipped gs p.state s₁ = ((xs, st), s₂)) :
    ∀ x ∈ xs, Regrouped f s.taken s.taken (groupKeys f view.children) x x := by
  obtain ⟨-, hseeds, -⟩ := gives_plan.1 hplan
  have hpool := (pool_seeds f shape.seeds (.ofChildren f view.children) s).1
  have htaken := taken_seeds f shape.seeds (.ofChildren f view.children) s
  rw [hseeds] at hpool htaken
  have hboth := (parallel_groups hf data? skipped gs p.state p.state s₁ s₁
    ⟨rfl, rfl, fun _ he => hpool ▸ he⟩ htaken htaken).1
  rw [hrun] at hboth
  exact List.forall₂_same.1 hboth

end ViewExpansion

end DeviceModel
