import DeviceModel.Document.Format
import DeviceModel.Proofs.Tree.Traversal
import Mathlib

/-!
Identifiers on load. Main statement: the identifiers of a draft are accepted exactly if they are distinct and none
of the other trees', the missing ones are filled in as new ones whatever a generator yields, and what is refused is
the first repeated one (`Draft.complete_spec`).
-/

namespace DeviceModel

namespace Draft

/-- Induction on a draft from its children. -/
theorem inductOn {P : Draft → Prop} (d : Draft) (h : ∀ d : Draft, (∀ c ∈ d.children, P c) → P d) : P d :=
  h d fun c _ => inductOn c h
termination_by sizeOf d
decreasing_by
  rename_i hc
  obtain ⟨u, d, cs⟩ := d
  have := List.sizeOf_lt_of_mem hc
  simp only [Draft.mk.sizeOf_spec] at *
  omega

/-- The nodes in pre-order, by their paths, with their identifiers where they have one. -/
def slots (path : List Nat) : Draft → List (List Nat × Option Uuid)
  | ⟨u, _, cs⟩ => (path, u) :: each path 0 cs
where
  each (path : List Nat) (i : Nat) : List Draft → List (List Nat × Option Uuid)
    | [] => []
    | c :: cs => slots (path ++ [i]) c ++ each path (i + 1) cs

/-- The identifiers of the nodes that have one. -/
def given (xs : List (List Nat × Option Uuid)) : List Uuid := xs.filterMap Prod.snd

/-- Which nodes have identifiers does not depend on where the draft lies. -/
theorem map_snd_slots (d : Draft) (path : List Nat) :
    (d.slots path).map Prod.snd = d.uuid :: d.children.flatMap fun c => (c.slots []).map Prod.snd := by
  induction d using inductOn generalizing path with
  | h d ih =>
    obtain ⟨u, a, cs⟩ := d
    have each : ∀ (ds : List Draft) (i : Nat), (∀ c ∈ ds, c ∈ cs) →
        (slots.each path i ds).map Prod.snd = ds.flatMap fun c => (c.slots []).map Prod.snd := by
      intro ds
      induction ds with
      | nil => exact fun _ _ => rfl
      | cons c ds ihs =>
        intro i hds
        have hc := ih c (hds c (by simp))
        rw [slots.each, List.map_append, ihs (i + 1) fun d hd => hds d (by simp [hd]), List.flatMap_cons,
          hc (path ++ [i]), hc []]
    rw [slots, List.map_cons, each cs 0 fun _ hc => hc]

theorem given_slots (d : Draft) (path : List Nat) :
    given (d.slots path) = d.uuid.toList ++ d.children.flatMap fun c => given (c.slots []) := by
  have hgiven : ∀ xs : List (List Nat × Option Uuid), given xs = (xs.map Prod.snd).filterMap id :=
    fun xs => (List.filterMap_map (f := Prod.snd) (g := id) (l := xs)).symm
  simp only [hgiven, map_snd_slots d path]
  cases d.uuid <;> simp [List.filterMap_flatMap]

/-! ### The identifiers that are there -/

/-- One node more, where `seen` is known; its identifier must be new. -/
def collectSlot (seen : List Uuid) : List Nat × Option Uuid → Except SchemaError (List Uuid)
  | (_, none) => .ok seen
  | (path, some u) => if u ∈ seen then .error ⟨.duplicate, some u, path⟩ else .ok (u :: seen)

theorem collect_eq (path : List Nat) (d : Draft) (seen : List Uuid) :
    d.collect path seen = (d.slots path).foldlM collectSlot seen := by
  induction d using inductOn generalizing path seen with
  | h d ih =>
    obtain ⟨u, a, cs⟩ := d
    have each : ∀ (ds : List Draft) (i : Nat) (seen : List Uuid), (∀ c ∈ ds, c ∈ cs) →
        collect.each path i ds seen = (slots.each path i ds).foldlM collectSlot seen := by
      intro ds
      induction ds with
      | nil => exact fun _ _ _ => rfl
      | cons c ds ihs =>
        intro i seen hds
        rw [collect.each, slots.each, List.foldlM_append, ih c (hds c (by simp))]
        cases (c.slots (path ++ [i])).foldlM collectSlot seen with
        | error e => rfl
        | ok seen => exact ihs (i + 1) seen fun d hd => hds d (by simp [hd])
    rw [slots, List.foldlM_cons]
    cases u with
    | none => exact each cs 0 seen fun _ hc => hc
    | some u =>
      rw [collect, collectSlot]
      split
      · rfl
      · exact each cs 0 (u :: seen) fun _ hc => hc

/-- The identifiers are distinct and none of `seen`. -/
def Unseen (seen us : List Uuid) : Prop := us.Nodup ∧ ∀ u ∈ us, u ∉ seen

theorem unseen_cons {seen us : List Uuid} {u : Uuid} :
    Unseen seen (u :: us) ↔ u ∉ seen ∧ Unseen (u :: seen) us := by
  rw [Unseen, Unseen, List.nodup_cons, List.forall_mem_cons]
  simp only [List.mem_cons, not_or]
  constructor
  · rintro ⟨⟨hu, hus⟩, hseen, hnot⟩
    exact ⟨hseen, hus, fun v hv => ⟨fun hvu => hu (hvu ▸ hv), hnot v hv⟩⟩
  · rintro ⟨hseen, hus, hnot⟩
    exact ⟨⟨fun hu => (hnot u hu).1 rfl, hus⟩, hseen, fun v hv => (hnot v hv).2⟩

/-- The first node of `xs` whose identifier is in `seen` or that of a node before it. -/
def Repeats (seen : List Uuid) (xs : List (List Nat × Option Uuid)) (path : List Nat) (u : Uuid) : Prop :=
  ∃ before behind, xs = before ++ (path, some u) :: behind ∧ Unseen seen (given before) ∧
    (u ∈ seen ∨ u ∈ given before)

variable {seen : List Uuid} {xs : List (List Nat × Option Uuid)} {path p : List Nat} {u v : Uuid}

theorem Repeats.cons_none (h : Repeats seen xs p v) : Repeats seen ((path, none) :: xs) p v := by
  obtain ⟨before, behind, rfl, hnew, hold⟩ := h
  exact ⟨(path, none) :: before, behind, rfl, hnew, hold⟩

theorem Repeats.cons_some (hu : u ∉ seen) (h : Repeats (u :: seen) xs p v) :
    Repeats seen ((path, some u) :: xs) p v := by
  obtain ⟨before, behind, rfl, hnew, hold⟩ := h
  refine ⟨(path, some u) :: before, behind, rfl, unseen_cons.2 ⟨hu, hnew⟩, ?_⟩
  simp only [given, List.filterMap_cons, List.mem_cons] at hold ⊢
  tauto

/-- What is no repetition has no first one. -/
theorem Repeats.not_unseen (h : Repeats seen xs p v) : ¬Unseen seen (given xs) := by
  obtain ⟨before, behind, rfl, -, hold⟩ := h
  rintro ⟨hnodup, hnot⟩
  simp only [given, List.filterMap_append, List.filterMap_cons] at hnodup hnot
  rcases hold with hold | hold
  · exact hnot v (by simp) hold
  · exact (List.nodup_append.1 hnodup).2.2 v hold v (by simp) rfl

/-- Either all identifiers are new and are collected, or the first repeated one is refused. -/
theorem foldlM_collectSlot (seen : List Uuid) (xs : List (List Nat × Option Uuid)) :
    (Unseen seen (given xs) ∧ xs.foldlM collectSlot seen = .ok ((given xs).reverse ++ seen)) ∨
      ∃ path u, Repeats seen xs path u ∧ xs.foldlM collectSlot seen = .error ⟨.duplicate, some u, path⟩ := by
  induction xs generalizing seen with
  | nil => exact .inl ⟨⟨.nil, nofun⟩, rfl⟩
  | cons x xs ih =>
    obtain ⟨path, u⟩ := x
    rw [List.foldlM_cons]
    cases u with
    | none => exact (ih seen).imp id fun ⟨p, v, hrepeats, herror⟩ => ⟨p, v, hrepeats.cons_none, herror⟩
    | some u =>
      by_cases hu : u ∈ seen
      · refine .inr ⟨path, u, ⟨[], xs, rfl, ⟨.nil, nofun⟩, .inl hu⟩, ?_⟩
        rw [collectSlot, if_pos hu]
        rfl
      · rw [collectSlot, if_neg hu]
        refine (ih (u :: seen)).imp (fun ⟨hnew, hok⟩ => ⟨unseen_cons.2 ⟨hu, hnew⟩, ?_⟩)
          fun ⟨p, v, hrepeats, herror⟩ => ⟨p, v, hrepeats.cons_some hu, herror⟩
        refine hok.trans ?_
        simp [given]

/-! ### The identifiers that are missing -/

/-- The identifiers in use, and what a generator has yielded. -/
structure Filling where
  used : List Uuid
  yields : List Uuid

/-- The first of what was yielded that is not in use, and what was yielded behind it. -/
def firstNew (used : List Uuid) : List Uuid → Option (Uuid × List Uuid)
  | [] => none
  | y :: ys => if y ∈ used then firstNew used ys else some (y, ys)

/-- An identifier from the generator, which is asked again as long as it yields one that is in use; none if it has
not yet yielded one that is not. -/
def pick : StateT Filling Option Uuid := fun s =>
  (firstNew s.used s.yields).map fun (u, ys) => (u, ⟨u :: s.used, ys⟩)

/-- The node with identifiers from the generator where the draft has none. -/
def fillFrom : Draft → StateT Filling Option Node
  | ⟨u, d, cs⟩ => do
    let u ← u.getDM pick
    return ⟨u, d, ← each cs⟩
where
  each : List Draft → StateT Filling Option (List Node)
    | [] => pure []
    | c :: cs => return (← fillFrom c) :: (← each cs)

/-- The node of a draft whose identifiers are distinct and none of `others`, with what the generator yields; none
if it has not yet yielded enough. -/
def completeFrom (d : Draft) (others yields : List Uuid) : Except SchemaError (Option Node) :=
  (d.collect [] others).map fun seen => ((d.fillFrom ⟨seen, yields⟩).map Prod.fst)

/-- The node has the data of the draft, and the identifiers that it gives where it gives them. -/
inductive Becomes : Draft → Node → Prop
  | node {d : Draft} {n : Node} (data : n.data = d.data) (uuid : ∀ u, d.uuid = some u → n.uuid = u)
    (children : List.Forall₂ Becomes d.children n.children) : Becomes d n

variable {d : Draft} {n : Node} {s s' : Filling}

theorem fillFrom_eq_some : d.fillFrom s = some (n, s') ↔ ∃ r, d.uuid.getDM pick s = some (n.uuid, r) ∧
    n.data = d.data ∧ fillFrom.each d.children r = some (n.children, s') := by
  obtain ⟨u, a, cs⟩ := d
  simp only [fillFrom, bind, StateT.bind, pure, StateT.pure, Option.bind_eq_some_iff, Option.some.injEq,
    Prod.mk.injEq, Prod.exists]
  constructor
  · rintro ⟨u, r, hu, cs, r', hcs, rfl, rfl⟩
    exact ⟨r, hu, rfl, hcs⟩
  · rintro ⟨r, hu, rfl, hcs⟩
    exact ⟨n.uuid, r, hu, n.children, s', hcs, n.eta, rfl⟩

theorem fillFrom_each_cons {c : Draft} {cs : List Draft} {ns : List Node} :
    fillFrom.each (c :: cs) s = some (ns, s') ↔ ∃ m ms r, ns = m :: ms ∧ c.fillFrom s = some (m, r) ∧
      fillFrom.each cs r = some (ms, s') := by
  simp only [fillFrom.each, bind, StateT.bind, pure, StateT.pure, Option.bind_eq_some_iff, Option.some.injEq,
    Prod.mk.injEq, Prod.exists]
  constructor
  · rintro ⟨m, r, hm, ms, r', hms, rfl, rfl⟩
    exact ⟨m, ms, r, rfl, hm, hms⟩
  · rintro ⟨m, ms, r, rfl, hm, hms⟩
    exact ⟨m, r, hm, ms, s', hms, rfl, rfl⟩

theorem firstNew_spec {used ys : List Uuid} {u : Uuid} {zs : List Uuid} (h : firstNew used ys = some (u, zs)) :
    u ∉ used ∧ ∃ skipped, (∀ y ∈ skipped, y ∈ used) ∧ ys = skipped ++ u :: zs := by
  induction ys with
  | nil => cases h
  | cons y ys ih =>
    rw [firstNew] at h
    split at h
    · rename_i hy
      obtain ⟨hu, skipped, hskipped, rfl⟩ := ih h
      exact ⟨hu, y :: skipped, List.forall_mem_cons.2 ⟨hy, hskipped⟩, rfl⟩
    · rename_i hy
      cases h
      exact ⟨hy, [], nofun, rfl⟩

theorem firstNew_eq_none {used ys : List Uuid} (h : firstNew used ys = none) : ∀ y ∈ ys, y ∈ used := by
  induction ys with
  | nil => exact nofun
  | cons y ys ih =>
    rw [firstNew] at h
    split at h
    · exact List.forall_mem_cons.2 ⟨‹_›, ih h⟩
    · cases h

/-- The step from `s` to `s'` has used the identifiers `us`, which are new, in addition. -/
structure Adds (us : List Uuid) (s s' : Filling) : Prop where
  unseen : Unseen s.used us
  used : s'.used = us.reverse ++ s.used

theorem Adds.refl (s : Filling) : Adds [] s s := ⟨⟨.nil, nofun⟩, rfl⟩

theorem Adds.trans {us vs : List Uuid} {r : Filling} (h : Adds us s r) (k : Adds vs r s') : Adds (us ++ vs) s s' := by
  have hvs := k.unseen
  rw [h.used] at hvs
  refine ⟨⟨List.nodup_append.2 ⟨h.unseen.1, hvs.1, ?_⟩, ?_⟩, ?_⟩
  · rintro u hu v hv rfl
    exact hvs.2 u hv (by simp [hu])
  · intro u hu
    rcases List.mem_append.1 hu with hu | hu
    · exact h.unseen.2 u hu
    · exact fun hs => hvs.2 u hu (by simp [hs])
  · rw [k.used, h.used, List.reverse_append, List.append_assoc]

/-- A node has the identifier that is given, or a new one. -/
theorem adds_getDM {o : Option Uuid} {u : Uuid} (h : o.getDM pick s = some (u, s')) :
    ∃ us, Adds us s s' ∧ [u].Perm (o.toList ++ us) ∧ (∀ v, o = some v → u = v) := by
  cases o with
  | some v =>
    cases h
    exact ⟨[], .refl s, .refl _, fun _ h => Option.some.inj h⟩
  | none =>
    obtain ⟨⟨u, zs⟩, hfirst, heq⟩ := Option.map_eq_some_iff.1 h
    cases heq
    exact ⟨[u], ⟨unseen_cons.2 ⟨(firstNew_spec hfirst).1, .nil, nofun⟩, rfl⟩, .refl _, nofun⟩

theorem append_append_perm (us vs ws zs : List Uuid) :
    ((us ++ vs) ++ (ws ++ zs)).Perm ((us ++ ws) ++ (vs ++ zs)) :=
  List.perm_iff_count.2 fun u => by simp only [List.count_append]; omega

/-- Filled in, a draft has the identifiers that it gives, and new ones. -/
theorem adds_fillFrom (h : d.fillFrom s = some (n, s')) :
    d.Becomes n ∧ ∃ us, Adds us s s' ∧ n.uuids.Perm (given (d.slots []) ++ us) := by
  induction d using inductOn generalizing n s s' with
  | h d ih =>
    obtain ⟨r, hu, hdata, hcs⟩ := fillFrom_eq_some.1 h
    obtain ⟨us, hus, huuid, hgiven⟩ := adds_getDM hu
    have each : ∀ (cs : List Draft) (ns : List Node) (r s' : Filling), (∀ c ∈ cs, c ∈ d.children) →
        fillFrom.each cs r = some (ns, s') → List.Forall₂ Becomes cs ns ∧
          ∃ us, Adds us r s' ∧ (ns.flatMap Node.uuids).Perm ((cs.flatMap fun c => given (c.slots [])) ++ us) := by
      intro cs
      induction cs with
      | nil =>
        intro ns r s' _ h
        cases h
        exact ⟨.nil, [], .refl _, .refl _⟩
      | cons c cs ihs =>
        intro ns r s' hcs h
        obtain ⟨m, ms, r', rfl, hm, hms⟩ := fillFrom_each_cons.1 h
        obtain ⟨hbecomes, vs, hvs, hperm⟩ := ih c (hcs c (by simp)) hm
        obtain ⟨hrest, ws, hws, hperms⟩ := ihs ms r' s' (fun c hc => hcs c (by simp [hc])) hms
        refine ⟨.cons hbecomes hrest, vs ++ ws, hvs.trans hws, ?_⟩
        rw [List.flatMap_cons, List.flatMap_cons]
        exact (hperm.append hperms).trans (append_append_perm ..)
    obtain ⟨hchildren, vs, hvs, hperm⟩ := each d.children n.children r s' (fun _ hc => hc) hcs
    refine ⟨.node hdata (fun u h => hgiven u h) hchildren, us ++ vs, hus.trans hvs, ?_⟩
    rw [n.uuids_eq, given_slots]
    exact (huuid.append hperm).trans (append_append_perm ..)

/-! ### When the generator has yielded enough -/

/-- How many nodes have no identifier. -/
def missing (d : Draft) : Nat := (d.slots []).countP (·.2.isNone)

/-- So many identifiers from the generator. -/
def picks : Nat → Filling → Option Filling
  | 0, s => some s
  | k + 1, s => pick s >>= fun r => picks k r.2

theorem picks_add (j k : Nat) (s : Filling) : picks (j + k) s = picks j s >>= picks k := by
  induction j generalizing s with
  | zero => rw [Nat.zero_add]; rfl
  | succ j ih =>
    rw [Nat.succ_add, picks, picks]
    cases pick s with
    | none => rfl
    | some r => exact ih r.2

theorem missing_eq (d : Draft) : d.missing = (if d.uuid.isNone then 1 else 0) + (d.children.map missing).sum := by
  have hmissing : ∀ xs : List (List Nat × Option Uuid), xs.countP (·.2.isNone) = (xs.map Prod.snd).countP (·.isNone) :=
    fun xs => by rw [List.countP_map]; rfl
  have hchild : ∀ c : Draft, ((c.slots []).map Prod.snd).countP (·.isNone) = c.missing := fun c => (hmissing _).symm
  rw [missing, hmissing, map_snd_slots, List.countP_cons, List.countP_flatMap, Nat.add_comm]
  congr 2
  exact List.map_congr_left fun c _ => hchild c

/-- Filling in a draft takes one identifier for each that is missing. -/
theorem map_fillFrom (d : Draft) (s : Filling) : (d.fillFrom s).map Prod.snd = picks d.missing s := by
  induction d using inductOn generalizing s with
  | h d ih =>
    obtain ⟨u, a, cs⟩ := d
    have each : ∀ (ds : List Draft) (s : Filling), (∀ c ∈ ds, c ∈ cs) →
        (fillFrom.each ds s).map Prod.snd = picks (ds.map missing).sum s := by
      intro ds
      induction ds with
      | nil => exact fun _ _ => rfl
      | cons c ds ihs =>
        intro s hds
        have hc := ih c (hds c (by simp)) s
        rw [List.map_cons, List.sum_cons, picks_add, ← hc]
        simp only [fillFrom.each, bind, StateT.bind, pure, StateT.pure]
        cases c.fillFrom s with
        | none => rfl
        | some r =>
          have hrest := ihs r.2 fun d hd => hds d (by simp [hd])
          simp only [Option.bind_some, Option.map_some, ← hrest]
          cases fillFrom.each ds r.2 <;> rfl
    have hcs := fun s => each cs s fun _ hc => hc
    rw [missing_eq, picks_add]
    have hrest : ∀ u r, ((fillFrom.each cs r).bind fun x => some ((⟨u, a, x.1⟩ : Node), x.2)).map Prod.snd =
        picks (cs.map missing).sum r := by
      intro u r
      rw [← hcs r]
      cases fillFrom.each cs r <;> rfl
    cases u with
    | some u => exact hrest u s
    | none =>
      simp only [fillFrom, bind, StateT.bind, pure, StateT.pure, Option.getDM, Option.isNone_none, if_true, picks]
      cases pick s with
      | none => rfl
      | some r => exact hrest r.1 r.2

/-- So many new identifiers are there if the generator has yielded so many that are distinct and not in use. -/
theorem isSome_picks (k : Nat) (s : Filling) :
    (picks k s).isSome = true ↔ k ≤ (s.yields.toFinset \ s.used.toFinset).card := by
  induction k generalizing s with
  | zero => simp [picks]
  | succ k ih =>
    rw [picks, pick]
    cases hfirst : firstNew s.used s.yields with
    | none =>
      have hempty : s.yields.toFinset \ s.used.toFinset = ∅ := by
        rw [Finset.sdiff_eq_empty_iff_subset]
        exact fun y hy => by simpa using firstNew_eq_none hfirst y (by simpa using hy)
      simp [hempty]
    | some r =>
      obtain ⟨u, zs⟩ := r
      obtain ⟨hu, skipped, hskipped, hyields⟩ := firstNew_spec hfirst
      have hinsert : s.yields.toFinset \ s.used.toFinset = insert u (zs.toFinset \ (u :: s.used).toFinset) := by
        ext y
        simp only [hyields, Finset.mem_sdiff, List.mem_toFinset, List.mem_append, List.mem_cons, Finset.mem_insert]
        grind
      have hcard : (s.yields.toFinset \ s.used.toFinset).card = (zs.toFinset \ (u :: s.used).toFinset).card + 1 := by
        rw [hinsert, Finset.card_insert_of_notMem (by simp)]
      rw [hcard, Nat.add_le_add_iff_right]
      exact ih ⟨u :: s.used, zs⟩

/-! ### The identifiers of a supply -/

/-- What a supply gives, a generator gives that yields what is drawn: the identifiers `us`. -/
structure Mirrors (s : Supply) (us : List Uuid) (x : Fresh α) (y : StateT Filling Option α) : Prop where
  taken : (x s).2.taken = s.taken
  next : s.next ≤ (x s).2.next
  below : ∀ u ∈ us, u.val < (x s).2.next
  gives (used ys : List Uuid) (known : ∀ u ∈ used, u ∈ s.taken ∨ u.val < s.next) :
    y ⟨used, us ++ ys⟩ = some ((x s).1, ⟨us.reverse ++ used, ys⟩)

theorem mirrors_pure (s : Supply) (a : α) : Mirrors s [] (pure a) (pure a) :=
  ⟨rfl, Nat.le_refl _, nofun, fun _ _ _ => rfl⟩

theorem mirrors_draw (s : Supply) : Mirrors s [(draw s).1] draw pick where
  taken := rfl
  next := Nat.le_of_lt (Nat.lt_of_le_of_lt (draw_lt s).1 (draw_lt s).2)
  below u hu := by
    rw [List.mem_singleton.1 hu]
    exact (draw_lt s).2
  gives used ys known := by
    have hnew : (draw s).1 ∉ used := by
      intro hu
      rcases known _ hu with htaken | hlt
      · exact draw_notMem s htaken
      · exact absurd (draw_lt s).1 (Nat.not_le.2 hlt)
    rw [pick, List.cons_append, firstNew, if_neg hnew]
    rfl

theorem Mirrors.bind {s : Supply} {us vs : List Uuid} {x : Fresh α} {y : StateT Filling Option α} {f : α → Fresh β}
    {g : α → StateT Filling Option β} (hx : Mirrors s us x y) (hf : Mirrors (x s).2 vs (f (x s).1) (g (x s).1)) :
    Mirrors s (us ++ vs) (x >>= f) (y >>= g) where
  taken := hf.taken.trans hx.taken
  next := Nat.le_trans hx.next hf.next
  below u hu := by
    rcases List.mem_append.1 hu with hu | hu
    · exact Nat.lt_of_lt_of_le (hx.below u hu) hf.next
    · exact hf.below u hu
  gives used ys known := by
    have hknown : ∀ u ∈ us.reverse ++ used, u ∈ (x s).2.taken ∨ u.val < (x s).2.next := by
      intro u hu
      rcases List.mem_append.1 hu with hu | hu
      · exact .inr (hx.below u (List.mem_reverse.1 hu))
      · exact (known u hu).imp (hx.taken ▸ id) fun hlt => Nat.lt_of_lt_of_le hlt hx.next
    have hgives := hf.gives (us.reverse ++ used) ys hknown
    rw [← List.append_assoc, ← List.reverse_append] at hgives
    show (y ⟨used, us ++ vs ++ ys⟩).bind (fun p => g p.1 p.2) = _
    rw [List.append_assoc, hx.gives used (vs ++ ys) known]
    exact hgives

/-- A draft is filled in by a supply as by a generator. -/
theorem exists_mirrors_fill (d : Draft) (s : Supply) : ∃ us, Mirrors s us d.fill d.fillFrom := by
  induction d using inductOn generalizing s with
  | h d ih =>
    obtain ⟨u, a, cs⟩ := d
    have each : ∀ (ds : List Draft) (s : Supply), (∀ c ∈ ds, c ∈ cs) →
        ∃ us, Mirrors s us (fill.each ds) (fillFrom.each ds) := by
      intro ds
      induction ds with
      | nil => exact fun s _ => ⟨[], mirrors_pure s []⟩
      | cons c ds ihs =>
        intro s hds
        obtain ⟨us, hus⟩ := ih c (hds c (by simp)) s
        obtain ⟨vs, hvs⟩ := ihs (c.fill s).2 fun d hd => hds d (by simp [hd])
        exact ⟨us ++ (vs ++ []), hus.bind (hvs.bind (mirrors_pure _ _))⟩
    have hrest := fun s => each cs s fun _ hc => hc
    cases u with
    | some u =>
      obtain ⟨us, hus⟩ := hrest s
      exact ⟨[] ++ (us ++ []), (mirrors_pure s u).bind (hus.bind (mirrors_pure _ _))⟩
    | none =>
      obtain ⟨us, hus⟩ := hrest (draw s).2
      exact ⟨[(draw s).1] ++ (us ++ []), (mirrors_draw s).bind (hus.bind (mirrors_pure _ _))⟩

/-! ### All of it -/

/-- The identifiers of a draft are distinct and none of the trees `others`. -/
def Distinct (d : Draft) (others : List Tree) : Prop := Unseen (others.flatMap Tree.uuids) (given (d.slots []))

theorem collect_root (d : Draft) (others : List Uuid) :
    (Unseen others (given (d.slots [])) ∧ d.collect [] others = .ok ((given (d.slots [])).reverse ++ others)) ∨
      ∃ path u, Repeats others (d.slots []) path u ∧ d.collect [] others = .error ⟨.duplicate, some u, path⟩ := by
  rw [collect_eq]
  exact foldlM_collectSlot others (d.slots [])

/-- A draft with distinct identifiers becomes a node with distinct identifiers. -/
theorem unseen_of_fillFrom {others : List Uuid} (hd : Unseen others (given (d.slots [])))
    (hs : s.used = (given (d.slots [])).reverse ++ others) (h : d.fillFrom s = some (n, s')) :
    d.Becomes n ∧ Unseen others n.uuids := by
  obtain ⟨hbecomes, us, hadds, hperm⟩ := adds_fillFrom h
  have hnew := hadds.unseen
  rw [hs] at hnew
  refine ⟨hbecomes, hperm.nodup_iff.2 (List.nodup_append.2 ⟨hd.1, hnew.1, ?_⟩), fun u hu => ?_⟩
  · rintro u hu v hv rfl
    exact hnew.2 u hv (by simp [hu])
  · rcases List.mem_append.1 (hperm.mem_iff.1 hu) with hu | hu
    · exact hd.2 u hu
    · exact fun ho => hnew.2 u hu (by simp [ho])

/-- The identifiers of a document are accepted exactly if they are distinct and none of the other trees'. What is
missing is filled in as soon as the generator has yielded enough identifiers that are not in use, whatever else it
yields; and of identifiers that are repeated the first is refused. A supply gives what some generator gives. -/
theorem complete_spec (d : Draft) (others : List Tree) :
    (∀ yields, (d.Distinct others → ∃ r, d.completeFrom (others.flatMap Tree.uuids) yields = .ok r ∧
        (r.isSome = true ↔ d.missing ≤
          (yields.toFinset \ (given (d.slots []) ++ others.flatMap Tree.uuids).toFinset).card) ∧
        ∀ n ∈ r, d.Becomes n ∧ n.uuids.Nodup ∧ ∀ u ∈ n.uuids, ∀ t ∈ others, u ∉ t.uuids) ∧
      (¬d.Distinct others → ∃ path u, Repeats (others.flatMap Tree.uuids) (d.slots []) path u ∧
        d.completeFrom (others.flatMap Tree.uuids) yields = .error ⟨.duplicate, some u, path⟩)) ∧
    ∀ s, ∃ yields, d.completeFrom (others.flatMap Tree.uuids) yields =
      (d.complete (others.flatMap Tree.uuids) s).map (some ·.1) := by
  obtain ⟨hdistinct, hcollect⟩ | ⟨path, u, hrepeats, hcollect⟩ := d.collect_root (others.flatMap Tree.uuids)
  · refine ⟨fun yields => ⟨fun _ => ?_, fun hnot => absurd hdistinct hnot⟩, fun s => ?_⟩
    · rw [completeFrom, hcollect]
      refine ⟨_, rfl, ?_, fun n hn => ?_⟩
      · have hsome := isSome_picks d.missing ⟨(given (d.slots [])).reverse ++ others.flatMap Tree.uuids, yields⟩
        rw [← map_fillFrom, Option.isSome_map] at hsome
        rw [Option.isSome_map, hsome, List.toFinset_append, List.toFinset_append, List.toFinset_reverse]
      · obtain ⟨⟨n, s'⟩, hfill, rfl⟩ := Option.map_eq_some_iff.1 hn
        obtain ⟨hbecomes, hnodup, hnot⟩ := unseen_of_fillFrom hdistinct rfl hfill
        exact ⟨hbecomes, hnodup, fun u hu t ht hut => hnot u hu (List.mem_flatMap.2 ⟨t, ht, hut⟩)⟩
    · rw [complete, hcollect]
      obtain ⟨us, hus⟩ := d.exists_mirrors_fill
        (s.avoiding ((given (d.slots [])).reverse ++ others.flatMap Tree.uuids ++ s.taken))
      have hgives := hus.gives ((given (d.slots [])).reverse ++ others.flatMap Tree.uuids) []
        fun u hu => .inl (List.mem_append_left _ hu)
      refine ⟨us, ?_⟩
      rw [List.append_nil] at hgives
      rw [completeFrom, hcollect]
      simp only [Except.map, hgives, Option.map_some]
  · refine ⟨fun yields => ⟨fun hdistinct => absurd hdistinct hrepeats.not_unseen, fun _ => ?_⟩, fun s => ⟨[], ?_⟩⟩
    · rw [completeFrom, hcollect]
      exact ⟨path, u, hrepeats, rfl⟩
    · rw [completeFrom, complete, hcollect]
      rfl

end Draft

end DeviceModel
