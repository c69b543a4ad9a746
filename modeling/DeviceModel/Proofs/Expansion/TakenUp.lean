import DeviceModel.Proofs.Expansion.Again

/-!
What a view that is rebuilt takes up of its old children. Main statement: a reference point, a group or a
leaf that was there before under what it is known by keeps its identifier (`keepsIdentities_of_run`).
-/

namespace DeviceModel

namespace ViewExpansion

abbrev LeafKey := (List Uuid × Uuid) × Uuid

/-- What is below the view after it has been rebuilt has the identifiers that it had before. -/
structure KeepsIdentities (f : Family) (before after : List Node) : Prop where
  /-- A reference point for the same source, with all but its name and its place. -/
  seeds : ∀ e ∈ seedKeys f before, ∀ e' ∈ seedKeys f after, e.1 = e'.1 → e'.2.1 = e.2.1 ∧
    ∀ a, a ≠ .name → a ≠ .offset → a ≠ .blockOffset → e'.2.2.get? a = e.2.2.get? a
  /-- A group with the same path and place among the groups of that path. -/
  groups : ∀ path (i : Nat) e e', ((groupKeys f before).filter (·.1 == path))[i]? = some e →
    ((groupKeys f after).filter (·.1 == path))[i]? = some e' → e'.2.1 = e.2.1
  /-- A leaf with the same path and parameter. -/
  leaves : ∀ e ∈ leafKeys f before, ∀ e' ∈ leafKeys f after, e.1 = e'.1 → e'.2 = e.2

variable {f : Family} {α β : Type}

/-! ### Reference points -/

/-- A reference point that is known is taken up with all but its name. -/
def TakesUp (f : Family) (known : List (Uuid × Uuid × Data)) (n : Node) (s : SeedSource) : Prop :=
  ∀ e ∈ known, e.1 = s.uuid → n = .leaf e.2.1 (e.2.2.put .name (.string (f.seedName s)))

theorem seed_takesUp (s : SeedSource) {st : State} (hst : (st.seeds.map Prod.fst).Nodup) (sup : Supply) :
    ∃ n st₁ sup₁, seed f s st sup = ((n, st₁), sup₁) ∧ TakesUp f st.seeds n s ∧
      st₁.seeds = st.seeds.filter (·.1 != s.uuid) ∧ st₁.groups = st.groups ∧ st₁.leaves = st.leaves := by
  have hfind : ∀ e ∈ st.seeds, e.1 = s.uuid → st.seeds.find? (·.1 == s.uuid) = some e :=
    fun e he hs => hs ▸ find?_of_nodup hst he
  cases h : st.seeds.find? (·.1 == s.uuid) with
  | some e =>
    refine ⟨_, _, _, seed_known h sup, fun e' he' hs => ?_, rfl, rfl, rfl⟩
    rw [Option.some.inj (h.symm.trans (hfind e' he' hs))]
  | none =>
    have hnone : ∀ e ∈ st.seeds, e.1 ≠ s.uuid := fun e he hs => by simpa [hs] using List.find?_eq_none.1 h e he
    refine ⟨_, _, _, seed_new h sup, fun e he hs => absurd hs (hnone e he), ?_, rfl, rfl⟩
    exact (List.filter_eq_self.2 fun e he => bne_iff_ne.2 (hnone e he)).symm

theorem seeds_takeUp {ss : List SeedSource} (hss : (ss.map SeedSource.uuid).Nodup) {st : State}
    (hst : (st.seeds.map Prod.fst).Nodup) {sup sup' : Supply} {ns : List Node} {st' : State}
    (h : seeds f ss st sup = ((ns, st'), sup')) :
    List.Forall₂ (TakesUp f st.seeds) ns ss ∧ st'.groups = st.groups ∧ st'.leaves = st.leaves := by
  induction ss generalizing st sup ns st' sup' with
  | nil => cases h; exact ⟨.nil, rfl, rfl⟩
  | cons s ss ih =>
    obtain ⟨hs, hss⟩ := List.nodup_cons.1 hss
    obtain ⟨n, st₁, sup₁, hseed, htakes, hleft, hgroups, hleaves⟩ := seed_takesUp (f := f) s hst sup
    rw [seeds, bind_of_eq hseed] at h
    cases hrun : seeds f ss st₁ sup₁ with
    | mk r sup₂ =>
      rw [bind_of_eq hrun] at h
      cases h
      obtain ⟨hmore, hgroups', hleaves'⟩ := ih hss (hleft ▸ (List.filter_sublist.map _).nodup hst) hrun
      refine ⟨.cons htakes ?_, hgroups'.trans hgroups, hleaves'.trans hleaves⟩
      -- The sources to come are others, so what is known of them is still there.
      have hstill : ∀ x ∈ ss, ∀ e ∈ st.seeds, e.1 = x.uuid → e ∈ st₁.seeds := fun x hx e he hex =>
        hleft ▸ List.mem_filter.2 ⟨he, bne_iff_ne.2 fun hes => hs (hes ▸ hex ▸ List.mem_map_of_mem hx)⟩
      exact ((List.forall₂_and_left _ _).2 ⟨hstill, hmore.flip⟩).flip.imp
        fun m x hx e he hex => hx.2 e (hx.1 e he hex) hex

theorem seedKeys_keep {ns : List Node} {ss : List SeedSource} {known : List (Uuid × Uuid × Data)}
    (hns : List.Forall₂ (SeedStands f) ns ss) (htakes : List.Forall₂ (TakesUp f known) ns ss) :
    ∀ e ∈ known, ∀ e' ∈ seedKeys f ns, e.1 = e'.1 → e'.2.1 = e.2.1 ∧
      ∀ a, a ≠ .name → a ≠ .offset → a ≠ .blockOffset → e'.2.2.get? a = e.2.2.get? a := by
  intro e he e' he' hk
  obtain ⟨n, hn, hne⟩ := List.mem_filterMap.1 he'
  obtain ⟨u, hu, rfl⟩ := Option.map_eq_some_iff.1 hne
  obtain ⟨src, hsrc, hstands, htaken⟩ := exists_of_forall₂ (forall₂_and hns htakes) (List.mem_of_mem_filter hn)
  have hnode := htaken e he (hk.trans (Option.some.inj (hu.symm.trans hstands.source)))
  refine ⟨congrArg Node.uuid hnode, fun a ha ho hb => ?_⟩
  rw [hnode]
  exact Data.get?_put_of_ne (Ne.symm ha) _ _

/-! ### Groups -/

theorem takes_identify (G : List (List Uuid × Uuid × Data)) (known : Option Uuid) :
    Makes (·.groups = G) (identify known) fun u => ∀ v, known = some v → u = v := by
  cases known with
  | some u => exact fun _ _ h => ⟨fun _ hv => Option.some.inj hv, h⟩
  | none => exact fun _ _ h => ⟨nofun, h⟩

theorem takes_takeLeaf (G : List (List Uuid × Uuid × Data)) (path : List Uuid) (source : Uuid) :
    Makes (·.groups = G) (takeLeaf path source) fun _ => True := by
  intro st sup h
  cases hfind : st.leaves.find? (·.1 == (path, source)) with
  | some e => rw [takeLeaf_known hfind]; exact ⟨trivial, h⟩
  | none => rw [takeLeaf_new hfind]; exact ⟨trivial, h⟩

theorem takes_points (G : List (List Uuid × Uuid × Data)) (path : List Uuid) (leaves : List (Leaf × Data))
    (ps : List Placed) : Makes (·.groups = G) (points f path leaves ps) fun _ => True := by
  induction ps with
  | nil => exact makes_pure trivial
  | cons p ps ih =>
    rw [points]
    cases leaves[p.index]? with
    | none => exact ih
    | some x =>
      exact (takes_takeLeaf G path x.1.uuid).bind fun known _ => (takes_identify G known).bind
        fun u _ => ih.bind fun ns _ => makes_pure trivial

/-- The nodes of a group have the identifiers of those that stood there before, as far as they go. -/
theorem takes_chunks (hf : f.Lawful) (G : List (List Uuid × Uuid × Data)) (g : LeafGroup)
    (leaves : List (Leaf × Data)) (i : Nat) (previous : List (Uuid × Data)) (cs : List (List Placed)) :
    Makes (·.groups = G) (chunks f g leaves i previous cs) fun r =>
      (∀ x ∈ r, x.2.kind = f.group ∧ x.2.data.path = g.path) ∧
        ∀ (j : Nat) p x, previous[j]? = some p → r[j]? = some x → x.2.uuid = p.1 := by
  induction cs generalizing i previous with
  | nil => exact makes_pure ⟨nofun, nofun⟩
  | cons c cs ih =>
    refine (takes_identify G _).bind fun u hu => (takes_points G g.path leaves c).bind fun ns _ => ?_
    refine (ih (i + 1) (previous.drop 1)).bind fun r hr => makes_pure ⟨?_, fun j p x hp hx => ?_⟩
    · exact List.forall_mem_cons.2 ⟨⟨hf.kind_groupData _ _ _ _, hf.path_groupData _ _ _ _⟩, hr.1⟩
    · cases j with
      | zero =>
        rw [List.getElem?_cons_zero] at hx
        obtain rfl := Option.some.inj hx
        exact hu p.1 (by rw [List.head?_eq_getElem?, hp]; rfl)
      | succ j =>
        rw [List.getElem?_cons_succ] at hx
        exact hr.2 j p x (by rw [List.getElem?_drop, Nat.add_comm, hp]) hx

/-- What a group of leaves adds to the groups that come after it. -/
theorem groups_cons {data? : Uuid → Option Data} {skipped : List Uuid} {g : LeafGroup}
    (h : (placeable data? skipped g).isEmpty = false) (gs : List LeafGroup) (st : State) (sup : Supply) :
    groups f data? skipped (g :: gs) st sup =
      let r := chunks f g (placeable data? skipped g) 0 ((st.groups.filter (·.1 == g.path)).map (·.2))
        (f.pack ((placeable data? skipped g).map (·.2)))
        { st with groups := st.groups.filter (·.1 != g.path) } sup
      let more := groups f data? skipped gs r.1.2 r.2
      ((r.1.1 ++ more.1.1, more.1.2), more.2) := by
  rw [groups, h]
  rfl

theorem filter_path_self {ns ms : List Node} {path : List Uuid} (hn : ∀ n ∈ ns, n.data.path = path)
    (hm : ∀ m ∈ ms, m.data.path ≠ path) : (ns ++ ms).filter (·.data.path == path) = ns := by
  rw [List.filter_append, List.filter_eq_self.2 fun n h => beq_iff_eq.2 (hn n h),
    List.filter_eq_nil_iff.2 fun m h => by simpa using hm m h, List.append_nil]

theorem filter_path_of_ne {ns : List Node} {path : List Uuid} (hn : ∀ n ∈ ns, n.data.path ≠ path)
    (ms : List Node) : (ns ++ ms).filter (·.data.path == path) = ms.filter (·.data.path == path) := by
  rw [List.filter_append, List.filter_eq_nil_iff.2 fun n h => by simpa using hn n h, List.nil_append]

theorem groups_takeUp (hf : f.Lawful) (data? : Uuid → Option Data) (skipped : List Uuid)
    {gs : List LeafGroup} (hp : (gs.map LeafGroup.path).Nodup) (st : State) (sup : Supply) :
    (∀ n ∈ (groups f data? skipped gs st sup).1.1.map (·.2),
      n.kind = f.group ∧ n.data.path ∈ gs.map LeafGroup.path) ∧
    ∀ path (j : Nat) e n, (st.groups.filter (·.1 == path))[j]? = some e →
      (((groups f data? skipped gs st sup).1.1.map (·.2)).filter (·.data.path == path))[j]? = some n →
        n.uuid = e.2.1 := by
  induction gs generalizing st sup with
  | nil => exact ⟨nofun, fun _ _ _ _ _ h => nomatch h⟩
  | cons g gs ih =>
    obtain ⟨hnot, hp⟩ := List.nodup_cons.1 hp
    cases hempty : (placeable data? skipped g).isEmpty with
    | true =>
      rw [groups, hempty]
      obtain ⟨hkind, hsame⟩ := ih hp st sup
      exact ⟨fun n hn => (hkind n hn).imp_right (List.mem_cons_of_mem _), hsame⟩
    | false =>
      simp only [groups_cons hempty, List.map_append]
      obtain ⟨⟨hhere, htaken⟩, hleft⟩ := takes_chunks hf (st.groups.filter (·.1 != g.path)) g
        (placeable data? skipped g) 0 ((st.groups.filter (·.1 == g.path)).map (·.2))
        (f.pack ((placeable data? skipped g).map (·.2)))
        { st with groups := st.groups.filter (·.1 != g.path) } sup rfl
      generalize chunks f g _ 0 _ _ _ sup = r at hhere htaken hleft ⊢
      obtain ⟨hkind, hsame⟩ := ih hp r.1.2 r.2
      generalize groups f data? skipped gs r.1.2 r.2 = more at hkind hsame ⊢
      have hhere : ∀ n ∈ r.1.1.map (·.2), n.kind = f.group ∧ n.data.path = g.path :=
        List.forall_mem_map.2 hhere
      refine ⟨fun n hn => ?_, fun path j e n he hn => ?_⟩
      · rcases List.mem_append.1 hn with hn | hn
        · exact ⟨(hhere n hn).1, (hhere n hn).2 ▸ List.mem_cons_self ..⟩
        · exact (hkind n hn).imp_right (List.mem_cons_of_mem _)
      by_cases hpath : path = g.path
      · subst hpath
        rw [filter_path_self (fun n hn => (hhere n hn).2) fun m hm h => hnot (h ▸ (hkind m hm).2),
          List.getElem?_map] at hn
        obtain ⟨x, hx, rfl⟩ := Option.map_eq_some_iff.1 hn
        exact htaken j e.2 x (by rw [List.getElem?_map, he]; rfl) hx
      · -- What is known at another path is still there.
        have hother : ∀ x ∈ st.groups, ((x.1 == path) && (x.1 != g.path)) = (x.1 == path) := fun x _ =>
          Bool.and_eq_left_iff_imp.2 fun h => bne_iff_ne.2 fun hx => hpath ((eq_of_beq h).symm.trans hx)
        rw [filter_path_of_ne fun n hn h => hpath (h.symm.trans (hhere n hn).2)] at hn
        refine hsame path j e n ?_ hn
        rw [hleft, List.filter_filter, List.filter_congr hother]
        exact he

/-! ### Leaves -/

/-- Of the `known` leaves those that have been made are taken up, and the others left. -/
structure Taken (known made : List LeafKey) (st : State) : Prop where
  left : st.leaves = known.filter fun e => e.1 ∉ made.map Prod.fst
  same : ∀ e ∈ known, ∀ e' ∈ made, e.1 = e'.1 → e'.2 = e.2

/-- The step makes leaves behind those `given`, and takes up what is known of them. -/
structure TakesLeaves (given : List LeafKey) (b : Builder α) (out : α → List LeafKey) : Prop where
  behind : ∀ st s, given.Sublist (out (b st s).1.1)
  taken : ∀ known st s, (known.map Prod.fst).Nodup → Taken known given st →
    ((out (b st s).1.1).map Prod.fst).Nodup → Taken known (out (b st s).1.1) (b st s).1.2

section

variable {given : List LeafKey} {b : Builder α} {out : α → List LeafKey}

theorem takesLeaves_pure {a : α} (h : out a = given) : TakesLeaves given (pure a) out where
  behind := fun _ _ => h ▸ .refl _
  taken := fun _ _ _ _ ht _ => h ▸ ht

theorem TakesLeaves.bind {c : α → Builder β} {out' : β → List LeafKey} (hb : TakesLeaves given b out)
    (hc : ∀ a, TakesLeaves (out a) (c a) out') : TakesLeaves given (b >>= c) out' where
  behind := fun st s => (hb.behind st s).trans ((hc _).behind _ _)
  taken := fun known st s hn ht hd => (hc _).taken known _ _ hn
    (hb.taken known st s hn ht ((((hc _).behind _ _).map _).nodup hd)) hd

/-- A step that leaves the known leaves. -/
theorem takesLeaves_of_eq (h : ∀ st s, (b st s).1.2.leaves = st.leaves) :
    TakesLeaves given b fun _ => given where
  behind := fun _ _ => .refl _
  taken := fun _ st s _ ht _ => ⟨(h st s).trans ht.left, ht.same⟩

theorem leaves_identify (known : Option Uuid) (st : State) (s : Supply) :
    (identify known st s).1.2.leaves = st.leaves := by
  cases known <;> rfl

/-- What is known under a key that is new is taken up with it. -/
theorem Taken.take {known : List LeafKey} {st st' : State} (h : Taken known given st) {key : List Uuid × Uuid}
    (hkey : key ∉ given.map Prod.fst) (hleft : st'.leaves = st.leaves.filter (·.1 != key)) {u : Uuid}
    (hu : ∀ e ∈ st.leaves, e.1 = key → u = e.2) : Taken known (given ++ [(key, u)]) st' where
  left := by
    rw [hleft, h.left, List.filter_filter]
    refine List.filter_congr fun e _ => ?_
    rw [Bool.eq_iff_iff]
    simp only [Bool.and_eq_true, bne_iff_ne, decide_eq_true_eq, List.map_append, List.mem_append, List.map_cons,
      List.map_nil, List.mem_singleton, not_or]
    exact and_comm
  same := by
    intro e he e' he' hk
    rcases List.mem_append.1 he' with he' | he'
    · exact h.same e he e' he' hk
    · obtain rfl := List.mem_singleton.1 he'
      have hk : e.1 = key := hk
      exact hu e (h.left ▸ List.mem_filter.2 ⟨he, by simpa [hk] using hkey⟩) hk

/-- A leaf is made under its key, and what is known under that key is taken up. -/
theorem takesLeaves_identify (path : List Uuid) (source : Uuid) :
    TakesLeaves given (takeLeaf path source >>= identify) fun u => given ++ [((path, source), u)] where
  behind := fun _ _ => List.sublist_append_left _ _
  taken := by
    intro known st s hn ht hd
    have hkey : (path, source) ∉ given.map Prod.fst := by
      rw [List.map_append, List.nodup_append'] at hd
      exact fun h => hd.2.2 h (List.mem_singleton_self _)
    cases h : st.leaves.find? (·.1 == (path, source)) with
    | some e =>
      have hfind : ∀ e' ∈ st.leaves, e'.1 = (path, source) → e' = e := fun e' he' hk =>
        Option.some.inj ((hk ▸ find?_of_nodup (ht.left ▸ (List.filter_sublist.map _).nodup hn) he').symm.trans h)
      rw [bind_of_eq (takeLeaf_known h s)]
      exact ht.take hkey rfl fun e' he' hk => congrArg Prod.snd (hfind e' he' hk).symm
    | none =>
      have hnone : ∀ e ∈ st.leaves, e.1 ≠ (path, source) := fun e he hk => by
        simpa [hk] using List.find?_eq_none.1 h e he
      rw [bind_of_eq (takeLeaf_new h s)]
      refine (ht.take hkey ?_ fun e he hk => absurd hk (hnone e he) : Taken known _ (identify none st s).1.2)
      exact (List.filter_eq_self.2 fun e he => bne_iff_ne.2 (hnone e he)).symm

end

theorem takesLeaves_points (hf : f.Lawful) {leaves : List (Leaf × Data)} (hl : ∀ x ∈ leaves, x.2.kind = f.point)
    (given : List LeafKey) (path : List Uuid) (ps : List Placed) :
    TakesLeaves given (points f path leaves ps) fun ns => given ++ pointKeys path ns := by
  induction ps generalizing given with
  | nil => exact takesLeaves_pure (List.append_nil _)
  | cons p ps ih =>
    rw [points]
    cases hp : leaves[p.index]? with
    | none => exact ih given
    | some x =>
      have hsource := hf.source_leafData x.1 x.2 p.position (hl _ (List.mem_of_getElem? hp))
      simp only
      rw [← bind_assoc]
      refine (takesLeaves_identify path x.1.uuid).bind fun u => (ih _).bind fun ns => takesLeaves_pure ?_
      rw [List.append_assoc, List.singleton_append]
      refine congrArg (given ++ ·) (List.filterMap_cons_some ?_)
      rw [Node.leaf, hsource]
      rfl

theorem takesLeaves_chunks (hf : f.Lawful) {leaves : List (Leaf × Data)} (hl : ∀ x ∈ leaves, x.2.kind = f.point)
    (given : List LeafKey) (g : LeafGroup) (i : Nat) (previous : List (Uuid × Data)) (cs : List (List Placed)) :
    TakesLeaves given (chunks f g leaves i previous cs) fun r => given ++ leafKeys f (r.map (·.2)) := by
  induction cs generalizing given i previous with
  | nil => exact takesLeaves_pure (List.append_nil _)
  | cons c cs ih =>
    refine (takesLeaves_of_eq (leaves_identify _)).bind fun u => (takesLeaves_points hf hl given g.path c).bind
      fun ns => (ih _ (i + 1) (previous.drop 1)).bind fun r => takesLeaves_pure ?_
    rw [List.append_assoc, List.map_cons, leafKeys_eq, List.filter_cons_of_pos (by simp [Node.kind, hf.kind_groupData]),
      List.flatMap_cons, hf.path_groupData, ← leafKeys_eq]

theorem takesLeaves_groups (hf : f.Lawful) {data? : Uuid → Option Data}
    (hd : ∀ u d, data? u = some d → d.kind = f.point) (skipped : List Uuid) (given : List LeafKey)
    (gs : List LeafGroup) : TakesLeaves given (groups f data? skipped gs) fun r =>
      given ++ leafKeys f (r.map (·.2)) := by
  induction gs generalizing given with
  | nil => exact takesLeaves_pure (List.append_nil _)
  | cons g gs ih =>
    rw [groups]
    split
    · exact ih given
    · refine (takesLeaves_of_eq fun _ _ => rfl).bind fun previous => (takesLeaves_chunks hf
        (kind_of_placeable hd) given g 0 previous _).bind fun cs => (ih _).bind fun more => takesLeaves_pure ?_
      rw [List.map_append, leafKeys_append, List.append_assoc]

/-! ### All children -/

section

variable (hf : f.Lawful) {shape : Shape} (hp : shape.Proper) {before ns : List Node} {skipped : List Uuid}
  (hns : List.Forall₂ (SeedStands f) ns shape.seeds) {gs : List (Bool × Node)}
  (hgs : List.Forall₂ (BlockStands f) (gs.map (·.2))
    (blocks f (unplacedOf (seedData? shape.seeds ns)) skipped shape.groups))
include hf hp hns hgs

theorem keepsIdentities_of_run (hseeds : ((seedKeys f before).map Prod.fst).Nodup)
    (hleaves : ((leafKeys f before).map Prod.fst).Nodup) {st st' : State} {s s₁ s₂ : Supply}
    (hplan : seeds f shape.seeds (.ofChildren f before) s = ((ns, st), s₁))
    (hrun : groups f (seedData? shape.seeds ns) skipped shape.groups st s₁ = ((gs, st'), s₂)) :
    KeepsIdentities f before (ns ++ gs.map (·.2)) := by
  have hkns : ∀ n ∈ ns, n.kind = f.point := fun n hn =>
    (exists_of_forall₂ hns hn).elim fun _ hs => hs.2.kind
  have hkgs : ∀ n ∈ gs.map (·.2), n.kind = f.group := fun n hn =>
    (exists_of_forall₂ hgs hn).elim fun _ hb => hb.2.kind
  have hafter := ofChildren_append hf hkns hkgs
  have hafterSeeds : seedKeys f (ns ++ gs.map (·.2)) = seedKeys f ns := congrArg State.seeds hafter
  have hafterGroups : groupKeys f (ns ++ gs.map (·.2)) = groupKeys f (gs.map (·.2)) :=
    congrArg State.groups hafter
  have hafterLeaves : leafKeys f (ns ++ gs.map (·.2)) = leafKeys f (gs.map (·.2)) :=
    congrArg State.leaves hafter
  have hstart : ((State.ofChildren f before).seeds.map Prod.fst).Nodup := hseeds
  obtain ⟨htakes, hgroups, hleft⟩ := seeds_takeUp hp.seeds hstart hplan
  refine ⟨?_, ?_, ?_⟩
  · rw [hafterSeeds]
    exact seedKeys_keep hns htakes
  · rw [hafterGroups]
    intro path i e e' he he'
    have htaken := (groups_takeUp hf (seedData? shape.seeds ns) skipped hp.paths st s₁).2
    rw [hrun, hgroups] at htaken
    rw [groupKeys_of_stands hgs, List.filter_map, List.getElem?_map] at he'
    obtain ⟨n, hn, rfl⟩ := Option.map_eq_some_iff.1 he'
    exact htaken path i e n he hn
  · rw [hafterLeaves]
    have hkinds : ∀ u d, seedData? shape.seeds ns u = some d → d.kind = f.point :=
      fun _ _ => kind_of_seedData? hns
    have hstart : Taken (leafKeys f before) [] st := ⟨by rw [hleft]; simp [State.ofChildren], nofun⟩
    have htaken := (takesLeaves_groups hf hkinds skipped [] shape.groups).taken _ st s₁ hleaves hstart
    rw [hrun] at htaken
    exact (htaken (by rw [List.nil_append, keys_of_stands hgs]; exact nodup_keys hf hp.paths hp.leaves)).same

end

end ViewExpansion

end DeviceModel
