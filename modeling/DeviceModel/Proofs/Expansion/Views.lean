import DeviceModel.Proofs.Expansion.Identifiers
import DeviceModel.Proofs.Register.UpToDate
import DeviceModel.Proofs.Workspace.Outcomes

/-!
Rebuilding a view in its tree. Main statements: when planning and building succeed (`gives_plan`,
`gives_build`), and that a valid tree is still valid with the new children of the view (`Rebuilt.valid`).
-/

namespace DeviceModel

namespace ViewExpansion

/-- References whose reference point is too wide for any group. -/
def oversized (f : Family) (shape : Shape) (data? : Uuid → Option Data) : List Uuid :=
  (references shape).filter fun u => (data? u).any (!f.fits ·)

/-- References whose leaves cannot be placed. -/
def unready (f : Family) (shape : Shape) (data? : Uuid → Option Data) : List Uuid :=
  (references shape).filter fun u => !(data? u).any f.ready

/-- The references of a shape are those of its leaves. -/
theorem mem_references {shape : Shape} {u : Uuid} :
    u ∈ references shape ↔ ∃ l ∈ shape.groups.flatMap LeafGroup.leaves, l.reference = u := by
  have hfold : ∀ us acc : List Uuid, u ∈ us.foldl
      (fun us u => if us.contains u then us else us ++ [u]) acc ↔ u ∈ acc ∨ u ∈ us := by
    intro us acc
    induction us generalizing acc with
    | nil => simp
    | cons v us ih =>
      rw [List.foldl_cons, ih, List.mem_cons, ← or_assoc]
      refine or_congr_left ?_
      split
      · rename_i hv
        rw [or_iff_left_of_imp fun h => h ▸ List.contains_iff_mem.1 hv]
      · rw [List.mem_append, List.mem_singleton]
  rw [references, hfold, or_iff_right List.not_mem_nil]
  simp only [List.mem_flatMap, List.mem_map]
  constructor
  · rintro ⟨g, hg, l, hl, rfl⟩
    exact ⟨l, ⟨g, hg, hl⟩, rfl⟩
  · rintro ⟨l, ⟨g, hg, hl⟩, rfl⟩
    exact ⟨g, hg, l, hl, rfl⟩

theorem requireView_ok {f : Family} {view : Node} {shape : Shape} {a : Unit} :
    requireView f view shape = .ok a ↔ view.kind = f.view ∧ f.tableOf? view.data = some shape.table := by
  unfold requireView
  split
  · rename_i h
    exact iff_of_false nofun fun h' => h h'.1
  · rename_i h
    rw [not_not] at h
    split
    · rename_i h'
      exact iff_of_false nofun fun h'' => h' h''.2
    · rename_i h'
      exact iff_of_true rfl ⟨h, not_not.1 h'⟩

theorem gives_plan {f : Family} {view : Node} {shape : Shape} {z : ZeroBits} {s s' : Supply} {p : Plan} :
    Gives (plan f view shape z) s p s' ↔
      (view.kind = f.view ∧ f.tableOf? view.data = some shape.table) ∧
        seeds f shape.seeds (.ofChildren f view.children) s = ((p.seeds, p.state), s') ∧
          oversized f shape (seedData? shape.seeds p.seeds) = [] ∧
            (unready f shape (seedData? shape.seeds p.seeds) = [] ∨ z ≠ .abort) ∧
              p.skipped = unready f shape (seedData? shape.seeds p.seeds) := by
  unfold plan
  simp only [gives_bind, gives_liftM, gives_liftM_state, requireView_ok, gives_unless, gives_pure]
  constructor
  · rintro ⟨_, _, ⟨hview, rfl⟩, ⟨ns, st⟩, s₁, hrun, hfits, hready, rfl, rfl⟩
    refine ⟨hview, hrun, by simpa [oversized] using hfits, ?_, rfl⟩
    by_cases h : z = .abort
    · exact .inl (by simpa [unready, h] using hready)
    · exact .inr h
  · rintro ⟨hview, hrun, hfits, hready, hskipped⟩
    refine ⟨(), s, ⟨hview, rfl⟩, (p.seeds, p.state), s', hrun, ?_, ?_, ?_, rfl⟩
    · exact fun h => by simp [show (references shape).filter _ = [] from hfits] at h
    · rintro ⟨h, hz⟩
      simp [show (references shape).filter _ = [] from hready.resolve_right fun h => h hz] at h
    · cases p
      exact congrArg (Plan.mk _ _) hskipped.symm

theorem gives_build {f : Family} {t t' : Tree} {view : Node} {shape : Shape} {p : Plan} {e : Expansion}
    {s s' : Supply} : Gives (build f t view shape p) s (t', e) s' ↔
      ∃ gs st s₁, groups f (seedData? shape.seeds p.seeds) p.skipped shape.groups p.state s =
          ((gs, st), s₁) ∧
        Gives (f.finish (t.setChildren view.uuid (p.seeds ++ gs.map (·.2))) view.uuid
          ((gs.filter (·.1)).map (·.2.uuid))) s₁ t' s' ∧
        e = ⟨view.uuid, st.created, st.reused, (Node.all.below view.children).length - st.reused,
          p.skipped⟩ := by
  unfold build
  simp only [gives_bind, gives_liftM_state, gives_pure]
  constructor
  · rintro ⟨⟨gs, st⟩, s₁, hrun, t'', s'', hfin, he, rfl⟩
    cases he
    exact ⟨gs, st, s₁, hrun, hfin, rfl⟩
  · rintro ⟨gs, st, s₁, hrun, hfin, rfl⟩
    exact ⟨(gs, st), s₁, hrun, t', s', hfin, rfl, rfl⟩

theorem taken_seeds (f : Family) (ss : List SeedSource) (st : State) (s : Supply) :
    (seeds f ss st s).2.taken = s.taken := by
  induction ss generalizing st s with
  | nil => rfl
  | cons x ss ih =>
    have hone : (seed f x st s).2.taken = s.taken := by
      cases h : st.seeds.find? (·.1 == x.uuid) with
      | some e => rw [seed_known h]
      | none => rw [seed_new h]; rfl
    exact (ih _ _).trans hone

/-- Nothing is below a block but its points. -/
theorem BlockStands.mem_all {f : Family} {n m : Node} {b : Block} (h : BlockStands f n b) (hm : m ∈ n.all) :
    m = n ∨ m ∈ n.children ∧ ∃ p, PointStands f m p := by
  refine (Node.mem_all.1 hm).imp_right fun ⟨c, hc, hmc⟩ => ?_
  obtain ⟨p, -, hp⟩ := exists_of_forall₂ h.points hc
  rw [Node.all_eq, hp.children, List.flatMap_nil, List.mem_singleton] at hmc
  subst hmc
  exact ⟨hc, p, hp⟩

/-! ### Validity -/

section

variable {f : Family} (hf : f.Lawful)
include hf

theorem SeedStands.allowed {n : Node} {s : SeedSource} (h : SeedStands f n s) :
    f.view.allows n.kind = true ∧ n.Allowed :=
  ⟨h.kind ▸ hf.allows_point, Node.allowed_iff.2 (by simp [h.children])⟩

theorem BlockStands.allowed {n : Node} {b : Block} (h : BlockStands f n b) :
    f.view.allows n.kind = true ∧ n.Allowed := by
  refine ⟨h.kind ▸ hf.allows_group, Node.allowed_iff.2 fun c hc => ?_⟩
  obtain ⟨p, -, hp⟩ := exists_of_forall₂ h.points hc
  exact ⟨h.kind ▸ hp.kind ▸ hf.group_allows, Node.allowed_iff.2 (by simp [hp.children])⟩

theorem valid_setChildren {t : Tree} (ht : t.Valid) {view : Node} (hv : view ∈ t.all)
    (hk : view.kind = f.view) {ns gs : List Node} {ss : List SeedSource} {bs : List Block}
    (hns : List.Forall₂ (SeedStands f) ns ss) (hgs : List.Forall₂ (BlockStands f) gs bs)
    (hu : (t.setChildren view.uuid (ns ++ gs)).uuids.Nodup) :
    (t.setChildren view.uuid (ns ++ gs)).Valid := by
  refine ht.setChildren hv (fun c hc => ?_) hu
  rw [hk]
  rcases List.mem_append.1 hc with hc | hc
  · exact (exists_of_forall₂ hns hc).elim fun _ h => h.2.allowed hf
  · exact (exists_of_forall₂ hgs hc).elim fun _ h => h.2.allowed hf

omit hf in
theorem kind_of_seedData? {ns : List Node} {ss : List SeedSource}
    (hns : List.Forall₂ (SeedStands f) ns ss) {u : Uuid} {d : Data} (h : seedData? ss ns u = some d) :
    d.kind = f.point := by
  obtain ⟨⟨s, n⟩, hx, rfl⟩ := Option.map_eq_some_iff.1 h
  have hn := (List.of_mem_zip (List.mem_of_find?_eq_some hx)).2
  exact (exists_of_forall₂ hns hn).elim fun _ h => h.2.kind

/-- A view whose children have been built anew. -/
structure Rebuilt (f : Family) (t : Tree) (view : Node) (shape : Shape) (ns : List Node)
    (skipped : List Uuid) (gs : List Node) (s : Supply) : Prop where
  seeds : List.Forall₂ (SeedStands f) ns shape.seeds
  blocks : List.Forall₂ (BlockStands f) gs
    (blocks f (unplacedOf (seedData? shape.seeds ns)) skipped shape.groups)
  valid : (t.setChildren view.uuid (ns ++ gs)).Valid
  issued : s.Issued (t.setChildren view.uuid (ns ++ gs)).uuids

theorem rebuilt {t : Tree} (ht : t.Valid) {view : Node} (hv : view ∈ t.all) {shape : Shape}
    {z : ZeroBits} {p : Plan} {gs : List (Bool × Node)} {st : State} {s s₁ s₂ : Supply}
    (hs : s.Issued t.uuids) (hplan : Gives (plan f view shape z) s p s₁)
    (hrun : groups f (seedData? shape.seeds p.seeds) p.skipped shape.groups p.state s₁ =
      ((gs, st), s₂)) : Rebuilt f t view shape p.seeds p.skipped (gs.map (·.2)) s₂ := by
  obtain ⟨⟨hk, -⟩, hseeds, -⟩ := gives_plan.1 hplan
  obtain ⟨outside, hold, hnew⟩ := Tree.exists_outside ht.nodup hv
  have hns := (seeds_stand hf shape.seeds _ s (knowsSeeds_ofChildren view.children)).1
  rw [hseeds] at hns
  have hkinds : ∀ u d, seedData? shape.seeds p.seeds u = some d → d.kind = f.point :=
    fun _ _ h => kind_of_seedData? hns h
  have hgs := (groups_stand hf hkinds p.skipped shape.groups p.state s₁ trivial).1
  rw [hrun] at hgs
  -- The identifiers go from the tree to the pool, from there to the new children, and back.
  have hpool := hs.subperm (((pool_ofChildren hf.point_ne_group view.children).append
    (.refl outside)).trans hold.symm.subperm)
  have hone := carries_seeds f shape.seeds _ s outside hpool
  rw [hseeds] at hone
  have htwo := (carries_groups f (seedData? shape.seeds p.seeds) p.skipped shape.groups).after
    (p.seeds.flatMap Node.uuids) p.state s₁ outside hone
  rw [hrun] at htwo
  have hissued : s₂.Issued (t.setChildren view.uuid (p.seeds ++ gs.map (·.2))).uuids := by
    refine htwo.count fun u => ?_
    have hu := (hnew (p.seeds ++ gs.map (·.2))).count_eq u
    rw [hu]
    simp only [List.flatMap_append, List.flatMap_map, List.count_append]
    omega
  exact ⟨hns, hgs, valid_setChildren hf ht hv hk hns hgs hissued.nodup, hissued⟩

end

end ViewExpansion

end DeviceModel
