import DeviceModel.Proofs.Expansion.Standing
import DeviceModel.Proofs.Tree.Children

/-!
Identifiers of views that are rebuilt. Main statements: below a view no identifier is given twice
(`carries_seeds`, `carries_groups`), where those of its old children are taken up (`pool_ofChildren`); and every
node is either created or reused, and no more are reused than were there (`tallied_run`).
-/

namespace DeviceModel

namespace ViewExpansion

/-- The identifiers that can be taken up. -/
def State.pool (st : State) : List Uuid :=
  st.seeds.map (·.2.1) ++ (st.groups.map (·.2.1) ++ st.leaves.map (·.2))

/-! ### Old children -/

theorem pool_cons_point {f : Family} {c : Node} (hp : c.kind = f.point) (hg : c.kind ≠ f.group)
    (cs : List Node) : (State.ofChildren f (c :: cs)).pool =
      ((Family.sourceOf? c.data).map fun _ => c.uuid).toList ++ (State.ofChildren f cs).pool := by
  have hp : (c.kind == f.point) = true := beq_iff_eq.2 hp
  have hg : (c.kind == f.group) = false := beq_eq_false_iff_ne.2 hg
  simp only [State.pool, State.ofChildren, seedKeys, groupKeys, leafKeys, List.filter_cons, hp, hg]
  cases h : Family.sourceOf? c.data <;> simp [h]

theorem pool_cons_group {f : Family} {c : Node} (hp : c.kind ≠ f.point) (hg : c.kind = f.group)
    (cs : List Node) : (State.ofChildren f (c :: cs)).pool.Perm
      (c.uuid :: (c.children.filterMap fun l => (Family.sourceOf? l.data).map fun _ => l.uuid) ++
        (State.ofChildren f cs).pool) := by
  have hp : (c.kind == f.point) = false := beq_eq_false_iff_ne.2 hp
  have hg : (c.kind == f.group) = true := beq_iff_eq.2 hg
  simp only [State.pool, State.ofChildren, seedKeys, groupKeys, leafKeys, List.filter_cons, hp, hg,
    if_true, List.map_cons, List.flatMap_cons, List.map_append, List.map_filterMap, Option.map_map,
    Function.comp_def, Bool.false_eq_true, if_false]
  grind [List.perm_append_comm]

theorem filterMap_uuid_sublist (p : Node → Option Uuid) (cs : List Node) :
    (cs.filterMap fun l => (p l).map fun _ => l.uuid).Sublist (cs.map Node.uuid) := by
  induction cs with
  | nil => exact .slnil
  | cons c cs ih =>
    rw [List.filterMap_cons, List.map_cons]
    cases p c with
    | none => exact ih.cons _
    | some _ => exact ih.cons_cons _

/-- What can be taken up below a view is what was there. -/
theorem pool_ofChildren {f : Family} (hne : f.point ≠ f.group) (cs : List Node) :
    (State.ofChildren f cs).pool.Subperm (cs.flatMap Node.uuids) := by
  induction cs with
  | nil => exact .refl _
  | cons c cs ih =>
    rw [List.flatMap_cons]
    by_cases hp : c.kind = f.point
    · have hone : (((Family.sourceOf? c.data).map fun _ => c.uuid).toList).Sublist c.uuids := by
        rw [Node.uuids_eq]
        cases Family.sourceOf? c.data <;> simp
      rw [pool_cons_point hp (hp ▸ hne)]
      exact hone.subperm.append ih
    · by_cases hg : c.kind = f.group
      · have hone : (c.uuid :: c.children.filterMap fun l =>
            (Family.sourceOf? l.data).map fun _ => l.uuid).Sublist c.uuids := by
          rw [Node.uuids_eq]
          exact ((filterMap_uuid_sublist _ _).trans (Node.map_uuid_sublist c.children)).cons_cons _
        exact (pool_cons_group hp hg cs).subperm.trans (hone.subperm.append ih)
      · have hp : (c.kind == f.point) = false := beq_eq_false_iff_ne.2 hp
        have hg : (c.kind == f.group) = false := beq_eq_false_iff_ne.2 hg
        have hpool : (State.ofChildren f (c :: cs)).pool = (State.ofChildren f cs).pool := by
          simp only [State.pool, State.ofChildren, seedKeys, groupKeys, leafKeys, List.filter_cons,
            hp, hg, Bool.false_eq_true, if_false]
        rw [hpool]
        exact ih.trans (List.sublist_append_right _ _).subperm

/-! ### Steps -/

theorem carries_identify (known : Option Uuid) :
    Carries State.pool known.toList (identify known) fun u => [u] := by
  cases known with
  | some u => exact fun _ _ _ hs => hs
  | none => exact fun _ _ _ hs => Supply.Issued.draw hs

theorem carries_seed (f : Family) (s : SeedSource) :
    Carries State.pool [] (seed f s) Node.uuids := by
  intro st sup rest hs
  cases h : st.seeds.find? (·.1 == s.uuid) with
  | some e =>
    have hsub := map_subperm (·.2.1) (find?_cons_filter_subperm h)
    rw [seed_known h]
    exact hs.subperm ((hsub.append (.refl _)).append (.refl _))
  | none =>
    rw [seed_new h]
    exact Supply.Issued.draw hs

theorem carries_seeds (f : Family) (ss : List SeedSource) :
    Carries State.pool [] (seeds f ss) (List.flatMap Node.uuids) := by
  induction ss with
  | nil => exact carries_pure (.refl _)
  | cons s ss ih =>
    refine (carries_seed f s).bind fun n => ?_
    exact (ih.after n.uuids).bind fun ns => carries_pure (.refl _)

theorem carries_takeLeaf (path : List Uuid) (source : Uuid) :
    Carries State.pool [] (takeLeaf path source) Option.toList := by
  intro st sup rest hs
  cases h : st.leaves.find? (·.1 == (path, source)) with
  | some e =>
    have hsub := map_subperm (·.2) (find?_cons_filter_subperm h)
    rw [takeLeaf_known h]
    refine hs.count fun v => ?_
    have hv := hsub.count_le v
    simp only [State.pool, List.map_cons, List.count_append, List.count_cons, Option.toList,
      List.count_nil, bne] at hv ⊢
    omega
  | none =>
    rw [takeLeaf_new h]
    exact hs

theorem carries_takeGroups (path : List Uuid) :
    Carries State.pool [] (takeGroups path) (List.map Prod.fst) := by
  intro st sup rest hs
  rw [takeGroups_eq]
  refine hs.count fun v => ?_
  have hv := ((List.filter_append_perm (·.1 == path) st.groups).map (·.2.1)).count_eq v
  simp only [State.pool, List.map_append, List.count_append, List.map_map, Function.comp_def,
    List.count_nil, bne] at hv ⊢
  omega

theorem carries_points (f : Family) (path : List Uuid) (leaves : List (Leaf × Data))
    (ps : List Placed) : Carries State.pool [] (points f path leaves ps) (List.flatMap Node.uuids) := by
  induction ps with
  | nil => exact carries_pure (.refl _)
  | cons p ps ih =>
    rw [points]
    cases leaves[p.index]? with
    | none => exact ih
    | some x =>
      refine (carries_takeLeaf path x.1.uuid).bind fun known => (carries_identify known).bind fun u => ?_
      exact (ih.after [u]).bind fun ns => carries_pure (.refl _)

theorem carries_chunks (f : Family) (g : LeafGroup) (leaves : List (Leaf × Data)) (i : Nat)
    (previous : List (Uuid × Data)) (cs : List (List Placed)) :
    Carries State.pool (previous.map Prod.fst) (chunks f g leaves i previous cs)
      (List.flatMap fun x => x.2.uuids) := by
  induction cs generalizing i previous with
  | nil => exact carries_pure (List.nil_sublist _).subperm
  | cons c cs ih =>
    have hsplit : previous.map Prod.fst =
        (previous.head?.map Prod.fst).toList ++ (previous.drop 1).map Prod.fst := by
      cases previous <;> rfl
    have hhead := (carries_identify (previous.head?.map Prod.fst)).frame
      ((previous.drop 1).map Prod.fst)
    refine (hhead.mono (hsplit ▸ List.perm_append_comm.subperm) fun _ => .refl _).bind fun u => ?_
    refine ((carries_points f g.path leaves c).after _).bind fun ns => ?_
    have hrest := (ih (i + 1) (previous.drop 1)).frame (u :: ns.flatMap Node.uuids)
    refine (hrest.mono ?_ fun _ => .refl _).bind fun more => carries_pure ?_
    · refine List.Perm.subperm (List.perm_iff_count.2 fun v => ?_)
      simp only [List.count_append, List.count_cons, List.count_nil]
      omega
    · rw [List.flatMap_cons, Node.uuids_eq]

theorem carries_groups (f : Family) (data? : Uuid → Option Data) (skipped : List Uuid)
    (gs : List LeafGroup) : Carries State.pool [] (groups f data? skipped gs)
      (List.flatMap fun x => x.2.uuids) := by
  induction gs with
  | nil => exact carries_pure (.refl _)
  | cons g gs ih =>
    rw [groups]
    split
    · exact ih
    · refine (carries_takeGroups g.path).bind fun previous => (carries_chunks f g _ 0 previous _).bind
        fun ns => (ih.after _).bind fun more => carries_pure ?_
      rw [List.flatMap_append]

/-! ### Counts -/

variable {f : Family} {α β : Type}

/-- The step makes `out.1` nodes in all where there were `made`, each counted once. What it reuses comes
from the pool and from `held` identifiers taken out of it; `out.2` of these are still held then. -/
structure Tallies (made held : Nat) (b : Builder α) (out : α → Nat × Nat) : Prop where
  counted : ∀ st s, (b st s).1.2.created + (b st s).1.2.reused + made =
    st.created + st.reused + (out (b st s).1.1).1
  bounded : ∀ st s, (b st s).1.2.reused + (b st s).1.2.pool.length + (out (b st s).1.1).2 ≤
    st.reused + st.pool.length + held

section

variable {made held : Nat} {b : Builder α} {out : α → Nat × Nat}

theorem tallies_pure {a : α} (hm : (out a).1 = made) (hh : (out a).2 ≤ held) :
    Tallies made held (pure a) out where
  counted := fun _ _ => congrArg _ hm.symm
  bounded := fun _ _ => Nat.add_le_add_left hh _

theorem Tallies.bind {c : α → Builder β} {out' : β → Nat × Nat} (hb : Tallies made held b out)
    (hc : ∀ a, Tallies (out a).1 (out a).2 (c a) out') : Tallies made held (b >>= c) out' where
  counted := fun st s => by
    have hfirst := hb.counted st s
    have hsecond : ((b >>= c) st s).1.2.created + ((b >>= c) st s).1.2.reused + (out (b st s).1.1).1 =
        (b st s).1.2.created + (b st s).1.2.reused + (out' ((b >>= c) st s).1.1).1 := (hc _).counted _ _
    omega
  bounded := fun st s => ((hc _).bounded _ _).trans (hb.bounded st s)

end

/-! ### Steps -/

variable {made held : Nat}

theorem tallies_identify (known : Option Uuid) :
    Tallies made (known.toList.length + held) (identify known) fun _ => (made + 1, held) := by
  cases known with
  | some u => exact ⟨fun st s => by simp only [identify_some]; omega, fun st s => by
      simp only [identify_some, State.pool, Option.toList_some, List.length_singleton]; omega⟩
  | none =>
    have hrun : ∀ st s, identify none st s = (((draw s).1, { st with created := st.created + 1 }), (draw s).2) :=
      fun _ _ => rfl
    exact ⟨fun st s => by simp only [hrun]; omega, fun st s => by
      simp only [hrun, State.pool, Option.toList_none, List.length_nil]; omega⟩

theorem length_filter_of_find? {κ γ : Type} [BEq κ] [LawfulBEq κ] [DecidableEq κ] [DecidableEq γ] {key : κ} {l : List (κ × γ)}
    {e : κ × γ} (h : l.find? (·.1 == key) = some e) : (l.filter (·.1 != key)).length + 1 ≤ l.length :=
  (find?_cons_filter_subperm h).length_le

theorem tallies_seed (s : SeedSource) :
    Tallies made held (seed f s) fun n => (made + n.all.length, held) := by
  refine ⟨fun st sup => ?_, fun st sup => ?_⟩
  all_goals
    cases h : st.seeds.find? (·.1 == s.uuid) with
    | some e =>
      have hless := length_filter_of_find? h
      rw [seed_known h]
      simp only [State.pool, List.length_append, List.length_map, Node.leaf, Node.all_eq, List.flatMap_nil,
        List.length_singleton]
      omega
    | none =>
      rw [seed_new h]
      simp only [State.pool, Node.leaf, Node.all_eq, List.flatMap_nil, List.length_singleton]
      omega

theorem tallies_seeds (ss : List SeedSource) :
    Tallies made held (seeds f ss) fun ns => (made + (ns.flatMap Node.all).length, held) := by
  induction ss generalizing made with
  | nil => exact tallies_pure rfl (le_refl _)
  | cons s ss ih =>
    refine (tallies_seed s).bind fun n => ih.bind fun ns => tallies_pure ?_ (le_refl _)
    rw [List.flatMap_cons, List.length_append, Nat.add_assoc]

theorem tallies_takeLeaf (path : List Uuid) (source : Uuid) :
    Tallies made held (takeLeaf path source) fun known => (made, known.toList.length + held) where
  counted := fun st s => by
    cases h : st.leaves.find? (·.1 == (path, source)) with
    | some e => rw [takeLeaf_known h]
    | none => rw [takeLeaf_new h]
  bounded := fun st s => by
    cases h : st.leaves.find? (·.1 == (path, source)) with
    | some e =>
      have hless := length_filter_of_find? h
      rw [takeLeaf_known h]
      simp only [State.pool, List.length_append, List.length_map, Option.toList_some, List.length_singleton]
      omega
    | none =>
      rw [takeLeaf_new h]
      simp

theorem tallies_takeGroups (path : List Uuid) :
    Tallies made held (takeGroups path) fun previous => (made, previous.length + held) where
  counted := fun _ _ => rfl
  bounded := fun st s => by
    have hsplit := (List.filter_append_perm (·.1 == path) st.groups).length_eq
    simp only [takeGroups_eq, State.pool, List.length_append, List.length_map, bne] at hsplit ⊢
    omega

theorem tallies_points (path : List Uuid) (leaves : List (Leaf × Data)) (ps : List Placed) :
    Tallies made held (points f path leaves ps) fun ns => (made + (ns.flatMap Node.all).length, held) := by
  induction ps generalizing made with
  | nil => exact tallies_pure rfl (le_refl _)
  | cons p ps ih =>
    rw [points]
    cases leaves[p.index]? with
    | none => exact ih
    | some x =>
      refine (tallies_takeLeaf path x.1.uuid).bind fun known => (tallies_identify known).bind
        fun u => ih.bind fun ns => tallies_pure ?_ (le_refl _)
      rw [List.flatMap_cons, List.length_append, Node.leaf, Node.all_eq, List.flatMap_nil, List.length_singleton,
        Nat.add_assoc]

theorem tallies_chunks (g : LeafGroup) (leaves : List (Leaf × Data)) (i : Nat) (previous : List (Uuid × Data))
    (cs : List (List Placed)) : Tallies made (previous.length + held) (chunks f g leaves i previous cs)
      fun r => (made + (r.flatMap (·.2.all)).length, held) := by
  induction cs generalizing made i previous with
  | nil => exact tallies_pure rfl (Nat.le_add_left _ _)
  | cons c cs ih =>
    have hsplit : previous.length + held =
        (previous.head?.map Prod.fst).toList.length + ((previous.drop 1).length + held) := by
      cases previous with
      | nil => simp
      | cons p previous =>
        simp only [List.length_cons, List.head?_cons, Option.map_some, Option.toList_some, List.length_nil,
          List.drop_one, List.tail_cons]
        omega
    rw [chunks, hsplit]
    refine (tallies_identify _).bind fun u => (tallies_points g.path leaves c).bind fun ns =>
      (ih (i + 1) (previous.drop 1)).bind fun r => tallies_pure ?_ (le_refl _)
    rw [List.flatMap_cons, List.length_append, Node.all_eq, List.length_cons]
    dsimp only
    omega

theorem tallies_groups (data? : Uuid → Option Data) (skipped : List Uuid) (gs : List LeafGroup) :
    Tallies made held (groups f data? skipped gs) fun r => (made + (r.flatMap (·.2.all)).length, held) := by
  induction gs generalizing made with
  | nil => exact tallies_pure rfl (le_refl _)
  | cons g gs ih =>
    rw [groups]
    split
    · exact ih
    · refine (tallies_takeGroups g.path).bind fun previous => (tallies_chunks g _ 0 previous _).bind fun cs =>
        ih.bind fun more => tallies_pure ?_ (le_refl _)
      rw [List.flatMap_append, List.length_append, Nat.add_assoc]

/-- What is below a view that has been rebuilt is created or reused, and what is reused was below it. -/
theorem tallied_run (hne : f.point ≠ f.group) {before : List Node} {ss : List SeedSource} {ns : List Node}
    {data? : Uuid → Option Data} {skipped : List Uuid} {lgs : List LeafGroup} {gs : List (Bool × Node)}
    {st st' : State} {s s₁ s₂ : Supply} (hplan : seeds f ss (.ofChildren f before) s = ((ns, st), s₁))
    (hrun : groups f data? skipped lgs st s₁ = ((gs, st'), s₂)) :
    st'.created + st'.reused = ((ns ++ gs.map (·.2)).flatMap Node.all).length ∧
      st'.reused ≤ (before.flatMap Node.all).length := by
  have hfirst : Tallies 0 0 (seeds f ss) _ := tallies_seeds ss
  have hsecond : Tallies (ns.flatMap Node.all).length 0 (groups f data? skipped lgs) _ :=
    tallies_groups data? skipped lgs
  have hcount := hfirst.counted (.ofChildren f before) s
  have hbound := hfirst.bounded (.ofChildren f before) s
  have hcount' := hsecond.counted st s₁
  have hbound' := hsecond.bounded st s₁
  have hpool := (pool_ofChildren hne before).length_le
  rw [hplan] at hcount hbound
  rw [hrun] at hcount' hbound'
  simp only [State.ofChildren] at hcount hbound hcount' hbound' hpool
  rw [List.flatMap_append, List.length_append, List.flatMap_map]
  have hbelow : (before.flatMap Node.uuids).length = (before.flatMap Node.all).length := by
    simp only [List.length_flatMap, Node.uuids, List.length_map]
  constructor <;> omega

end ViewExpansion

end DeviceModel
