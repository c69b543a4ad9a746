import DeviceModel.Proofs.Expansion.SettledViews
import DeviceModel.Proofs.Tree.Relabel

/-!
Identifiers of multiplexers. Main statements: there are as many next identifiers as are free, and no two are
the same (`nextIdentifiers_spec`); giving new multiplexers their identifiers changes nothing else
(`assignIdentifiers_eq`); and a settled view stays settled with other identifiers (`Settled.renumber`).
-/

namespace DeviceModel

/-! ### Free identifiers -/

section

variable {first last i : Int} {used : List Int}

/-- The integers from `first` to `last` that are not used. -/
def unused (first last : Int) (used : List Int) : Finset Int :=
  ((Finset.range (last + 1 - first).toNat).image fun n => first + Int.ofNat n).filter fun i => i ∉ used

@[simp] theorem mem_unused : i ∈ unused first last used ↔ (first ≤ i ∧ i ≤ last) ∧ i ∉ used := by
  simp only [unused, Finset.mem_filter, Finset.mem_image, Finset.mem_range]
  refine and_congr_left' ⟨?_, fun h => ⟨(i - first).toNat, ?_, ?_⟩⟩
  · rintro ⟨n, hn, rfl⟩
    simp
    omega
  · omega
  · simp
    omega

theorem nextFree_mem (h : nextFree used first last = some i) : i ∈ unused first last used := by
  obtain ⟨n, -, rfl⟩ := List.mem_map.1 (List.mem_of_find?_eq_some h)
  have hi := List.find?_some h
  simp only [Bool.and_eq_true, decide_eq_true_eq, Bool.not_eq_true', List.contains_eq_mem,
    decide_eq_false_iff_not] at hi
  exact mem_unused.2 ⟨⟨by simp, hi.1⟩, hi.2⟩

/-- There is a next one as long as there are any: one more than those used are looked at. -/
theorem nextFree_eq_none : nextFree used first last = none ↔ unused first last used = ∅ := by
  refine ⟨fun h => ?_, fun h => ?_⟩
  · rw [nextFree, List.find?_eq_none] at h
    simp only [List.mem_map, List.mem_range, forall_exists_index, and_imp, forall_apply_eq_imp_iff₂,
      Bool.and_eq_true, decide_eq_true_eq, Bool.not_eq_true', List.contains_eq_mem,
      decide_eq_false_iff_not, not_and, not_not] at h
    refine Finset.eq_empty_of_forall_notMem fun i hi => ?_
    obtain ⟨⟨hfirst, hlast⟩, hnot⟩ := mem_unused.1 hi
    by_cases hn : (i - first).toNat < used.length + 1
    · refine hnot ?_
      have hmem := h _ hn (by simp; omega)
      rwa [show first + Int.ofNat (i - first).toNat = i by simp; omega] at hmem
    · -- All that are looked at are used.
      have hsub : (List.range (used.length + 1)).map (fun n => first + Int.ofNat n) ⊆ used := by
        intro j hj
        obtain ⟨n, hn', rfl⟩ := List.mem_map.1 hj
        have := List.mem_range.1 hn'
        exact h n this (by simp; omega)
      have hnodup : ((List.range (used.length + 1)).map fun n => first + Int.ofNat n).Nodup :=
        List.nodup_range.map fun a b hab => by simpa using hab
      have hlength := (hnodup.subperm hsub).length_le
      simp at hlength
  · cases hi : nextFree used first last with
    | none => rfl
    | some i => exact absurd (nextFree_mem hi) (h ▸ Finset.notMem_empty i)

/-- All that come before it are used. -/
theorem nextFree_least (h : nextFree used first last = some i) {j : Int} (hj : first ≤ j) (hji : j < i) :
    j ∈ used := by
  rw [nextFree, List.find?_map, Option.map_eq_some_iff] at h
  obtain ⟨n, hn, rfl⟩ := h
  obtain ⟨hfree, -, hbefore⟩ := List.find?_range_eq_some.1 hn
  have hnext := hbefore (j - first).toNat (by simp at hji; omega)
  have hsame : first + Int.ofNat (j - first).toNat = j := by simp; omega
  simp only [Function.comp_apply, hsame, Bool.not_eq_true', Bool.and_eq_false_iff, decide_eq_false_iff_not,
    Bool.not_eq_false', List.contains_eq_mem, decide_eq_true_eq, Bool.and_eq_true] at hnext hfree
  exact hnext.resolve_left fun hlast => hlast (hji.le.trans hfree.1)

/-- Which identifiers are used is all that matters. -/
theorem nextFree_congr {used' : List Int} (h : ∀ i, i ∈ used ↔ i ∈ used') :
    nextFree used first last = nextFree used' first last := by
  have hsame : unused first last used = unused first last used' := by
    ext i
    rw [mem_unused, mem_unused, h]
  cases hi : nextFree used first last with
  | none => rw [nextFree_eq_none.2 (hsame ▸ nextFree_eq_none.1 hi)]
  | some i =>
    cases hj : nextFree used' first last with
    | none => rw [nextFree_eq_none.2 (hsame ▸ nextFree_eq_none.1 hj)] at hi; cases hi
    | some j =>
      obtain ⟨⟨hfi, -⟩, hui⟩ := mem_unused.1 (nextFree_mem hi)
      obtain ⟨⟨hfj, -⟩, huj⟩ := mem_unused.1 (nextFree_mem hj)
      rcases lt_trichotomy i j with hij | rfl | hij
      · exact absurd ((h i).2 (nextFree_least hj hfi hij)) hui
      · rfl
      · exact absurd ((h j).1 (nextFree_least hi hfj hij)) huj

/-- The next `n` identifiers that are free, one after the other. -/
def nextIdentifiers (first last : Int) (used : List Int) : Nat → Option (List Int)
  | 0 => some []
  | n + 1 => do
    let i ← nextFree used first last
    return i :: (← nextIdentifiers first last (i :: used) n)

theorem unused_cons : unused first last (i :: used) = (unused first last used).erase i := by
  ext j
  simp only [mem_unused, List.mem_cons, not_or, Finset.mem_erase]
  tauto

theorem nextIdentifiers_congr {used' : List Int} (h : ∀ i, i ∈ used ↔ i ∈ used') (n : Nat) :
    nextIdentifiers first last used n = nextIdentifiers first last used' n := by
  induction n generalizing used used' with
  | zero => rfl
  | succ n ih =>
    rw [nextIdentifiers, nextIdentifiers, nextFree_congr h]
    refine congrArg _ (funext fun i => ?_)
    have hcons : ∀ j, j ∈ i :: used ↔ j ∈ i :: used' := fun j => by simp only [List.mem_cons, h j]
    rw [ih hcons]

/-- They are distinct and free, and there are enough exactly if as many are free. -/
theorem nextIdentifiers_spec (n : Nat) :
    (∀ is, nextIdentifiers first last used n = some is →
      is.length = n ∧ is.Nodup ∧ ∀ i ∈ is, i ∈ unused first last used) ∧
    (nextIdentifiers first last used n = none ↔ (unused first last used).card < n) := by
  induction n generalizing used with
  | zero => exact ⟨fun is h => by obtain rfl := Option.some.inj h; simp, by simp [nextIdentifiers]⟩
  | succ n ih =>
    cases hi : nextFree used first last with
    | none =>
      have hnone : nextIdentifiers first last used (n + 1) = none := by simp [nextIdentifiers, hi]
      refine ⟨fun is h => absurd (hnone.symm.trans h) (Option.some_ne_none is).symm, iff_of_true hnone ?_⟩
      rw [nextFree_eq_none.1 hi]
      exact Nat.succ_pos n
    | some i =>
      obtain ⟨hspec, hnone⟩ := @ih (i :: used)
      have hmem := nextFree_mem hi
      have heq : nextIdentifiers first last used (n + 1) =
          (nextIdentifiers first last (i :: used) n).map (i :: ·) := by
        simp [nextIdentifiers, hi, Option.map_eq_bind]
      rw [unused_cons] at hspec hnone
      refine ⟨fun is h => ?_, ?_⟩
      · obtain ⟨js, hjs, rfl⟩ := Option.map_eq_some_iff.1 (heq ▸ h)
        obtain ⟨hlength, hnodup, hunused⟩ := hspec js hjs
        refine ⟨by rw [List.length_cons, hlength], List.nodup_cons.2 ⟨fun h => ?_, hnodup⟩, ?_⟩
        · exact Finset.notMem_erase i _ (hunused i h)
        · exact List.forall_mem_cons.2 ⟨hmem, fun j hj => Finset.mem_of_mem_erase (hunused j hj)⟩
      · have hcard := Finset.card_erase_of_mem hmem
        have hpos := Finset.card_pos.2 ⟨i, hmem⟩
        rw [heq, Option.map_eq_none_iff, hnone]
        omega

end

namespace Family

/-- The same attributes, or those of a multiplexer with another identifier. -/
def Renumbered (d e : Data) : Prop := e = d ∨ d.kind = .multiplexer ∧ ∃ i, e = d.put .identifier (.integer i)

theorem Renumbered.kind {d e : Data} (h : Renumbered d e) : e.kind = d.kind := by
  rcases h with rfl | ⟨-, i, rfl⟩
  · rfl
  · exact Data.kind_put _ _ _

theorem Renumbered.path {d e : Data} (h : Renumbered d e) : e.path = d.path := by
  rcases h with rfl | ⟨-, i, rfl⟩
  · rfl
  · rw [Data.path, Data.path, Data.get?_put_of_ne (show Attr.identifier ≠ .path by decide)]

theorem Renumbered.eq {d e : Data} (h : Renumbered d e) (hk : d.kind ≠ .multiplexer) : e = d :=
  h.resolve_right fun h => hk h.1

/-- A multiplexer with another identifier is built again as it is. -/
theorem groupData_renumbered {name : String} {path : List Uuid} {chunk : Nat} {d e : Data}
    (h : can.groupData name path chunk (some d) = d) (he : Renumbered d e) :
    can.groupData name path chunk (some e) = e := by
  rcases he with rfl | ⟨hk, i, rfl⟩
  · exact h
  · have hother : ∀ a, a ≠ .identifier → (d.put .identifier (.integer i)).get? a = d.get? a :=
      fun a ha => Data.get?_put_of_ne (Ne.symm ha) _ _
    have hint : (d.put .identifier (.integer i)).get? .identifier = some (.integer i) :=
      Data.get?_put (f := .hex .identifier) (hk ▸ rfl) rfl
    rw [groupData_can, Option.getD_some] at h ⊢
    refine Data.ext_get? (by simp [hk]) fun a => ?_
    by_cases ha : a = .identifier
    · subst ha
      rw [hint, Data.get?_of (f := .hex .identifier) (v := .integer i) (nodup_multiplexerAttrs ..) ?_ rfl rfl]
      simp [multiplexerAttrs, Data.int, Data.int?, hint, Value.integer?]
    · have hcycle : (d.put .identifier (.integer i)).int? .cycleTime = d.int? .cycleTime := by
        rw [Data.int?, Data.int?, hother .cycleTime (by decide)]
      have hcomment : (d.put .identifier (.integer i)).text? .comment = d.text? .comment := by
        rw [Data.text?, Data.text?, hother .comment (by decide)]
      refine (Eq.trans ?_ (congrArg (fun d => d.get? a) h)).trans (hother a ha).symm
      rw [multiplexerAttrs, multiplexerAttrs, hcycle, hcomment]
      exact Data.get?_of_congr (Ne.symm ha) _ [(_, _)] _ _ _

/-! ### New identifiers -/

/-- The multiplexers of the list get the identifiers beside them. -/
def numbered (l : List (Uuid × Int)) (u : Uuid) (d : Data) : Data :=
  match l.lookup u with
  | some i => d.put .identifier (.integer i)
  | none => d

theorem numbered_of_notMem {l : List (Uuid × Int)} {u : Uuid} (h : u ∉ l.map Prod.fst) (d : Data) :
    numbered l u d = d := by
  rcases lookup_or l u with ⟨-, hnone⟩ | ⟨i, hi, -⟩
  · rw [numbered, hnone]
  · exact absurd (List.mem_map_of_mem hi) h

theorem numbered_cons_self (l : List (Uuid × Int)) (u : Uuid) (i : Int) (d : Data) :
    numbered ((u, i) :: l) u d = d.put .identifier (.integer i) := by
  rw [numbered, List.lookup_cons_self]

theorem numbered_cons_of_ne (l : List (Uuid × Int)) {u v : Uuid} (i : Int) (h : v ≠ u) (d : Data) :
    numbered ((u, i) :: l) v d = numbered l v d := by
  rw [numbered, numbered, List.lookup_cons, beq_false_of_ne h]

/-- Multiplexers get the next free identifiers in turn, and nothing else changes. -/
theorem assignIdentifiers_eq {first last : Int} {t : Tree} (ht : t.uuids.Nodup) {used : List Int}
    {us : List Uuid} (hus : us.Nodup) : assignIdentifiers first last t used us =
      match nextIdentifiers first last used us.length with
      | some is => .ok (t.mapData (numbered (us.zip is)))
      | none => .error (.inconsistent .identifiersExhausted) := by
  induction us generalizing t used with
  | nil => exact congrArg Except.ok (Tree.mapData_eq_self fun _ _ => rfl).symm
  | cons u us ih =>
    obtain ⟨hu, hus⟩ := List.nodup_cons.1 hus
    rw [assignIdentifiers, List.length_cons, nextIdentifiers]
    cases hi : nextFree used first last with
    | none => rfl
    | some i =>
      simp only [Tree.modify_eq_mapData ht]
      rw [ih (by simpa using ht) hus]
      simp only [Option.bind_eq_bind, Option.bind_some]
      cases hjs : nextIdentifiers first last (i :: used) us.length with
      | none => rfl
      | some js =>
        have hself : ∀ d, numbered (us.zip js) u d = d := numbered_of_notMem fun h => by
          obtain ⟨p, hp, rfl⟩ := List.mem_map.1 h
          exact hu (List.of_mem_zip hp).1
        refine congrArg Except.ok (t.mapData_mapData.trans (Tree.mapData_congr fun n _ => ?_))
        rw [List.zip_cons_cons, Node.only]
        split
        · rename_i hv
          rw [hv, hself, numbered_cons_self]
        · rename_i hv
          rw [numbered_cons_of_ne _ _ hv]

theorem numbered_or (l : List (Uuid × Int)) (u : Uuid) (d : Data) :
    numbered l u d = d ∨ ∃ i, (u, i) ∈ l ∧ numbered l u d = d.put .identifier (.integer i) := by
  rcases lookup_or l u with ⟨hu, -⟩ | ⟨i, hi, hsome⟩
  · exact .inl (numbered_of_notMem hu d)
  · exact .inr ⟨i, hi, by rw [numbered, hsome]⟩

/-- Identifiers are given to the multiplexers of `us`, and nothing else changes. -/
theorem assigned_ok {first last : Int} {t t' : Tree} (ht : t.uuids.Nodup) {used : List Int}
    {us : List Uuid} (hus : us.Nodup) (h : assignIdentifiers first last t used us = .ok t') :
    ∃ g : Uuid → Data → Data, t' = t.mapData g ∧
      ∀ v d, g v d = d ∨ v ∈ us ∧ ∃ i, g v d = d.put .identifier (.integer i) := by
  rw [assignIdentifiers_eq ht hus] at h
  cases his : nextIdentifiers first last used us.length with
  | none => rw [his] at h; cases h
  | some is =>
    rw [his] at h
    refine ⟨_, (Except.ok.inj h).symm, fun v d => (numbered_or _ v d).imp_right ?_⟩
    rintro ⟨i, hi, heq⟩
    exact ⟨(List.of_mem_zip hi).1, i, heq⟩

theorem finished_ok {t t' : Tree} (ht : t.uuids.Nodup) {view : Uuid} {created : List Uuid}
    (hc : created.Nodup) (h : finishMultiplexers t view created = .ok t') :
    ∃ g : Uuid → Data → Data, t' = t.mapData g ∧
      ∀ v d, g v d = d ∨ v ∈ created ∧ ∃ i, g v d = d.put .identifier (.integer i) := by
  unfold finishMultiplexers at h
  cases hv : t.node view with
  | error x => rw [hv] at h; cases h
  | ok v =>
    rw [hv] at h
    simp only [bind, Except.bind] at h
    split at h
    · cases h
    · exact assigned_ok ht hc h

/-- Where no multiplexer is new nothing changes. -/
theorem finished_nil {t : Tree} (ht : t.Valid) {view : Node} (hv : view ∈ t.all)
    (hk : view.kind = .canTable) : finishMultiplexers t view.uuid [] = .ok t := by
  have hroot : view ≠ t.root := by
    rintro rfl
    have hr := ht.root
    rw [hk] at hr
    cases h : t.kind <;> rw [h] at hr <;> cases hr
  obtain ⟨p, hp, hc⟩ := Node.exists_parent hv hroot
  unfold finishMultiplexers
  rw [Tree.node_eq_ok.2 (Tree.find?_of_mem ht.nodup hv), Tree.parent?_of_child ht.nodup hp hc]
  rfl

end Family

namespace ViewExpansion

/-! ### Settled views -/

theorem unplaced_can {d : Data} (h : d.kind = .signal ∨ d.kind = .multiplexer) : d.unplaced = d := by
  rcases h with h | h <;> exact Data.unplaced_of_field? (by rw [h]; rfl) (by rw [h]; rfl)

theorem BlockStands.unplaced_can {n : Node} {b : Block} (h : BlockStands .can n b) : n.unplaced = n := by
  refine Node.mapData_eq_self fun m hm => ViewExpansion.unplaced_can ?_
  rcases h.mem_all hm with rfl | ⟨-, p, hp⟩
  · exact .inr h.kind
  · exact .inl hp.kind

section

variable {g : Uuid → Data → Data}

theorem BlockStands.renumber {n : Node} {b : Block} (h : BlockStands .can n b)
    (hg : ∀ m ∈ n.all, Family.Renumbered m.data (g m.uuid m.data)) : BlockStands .can (n.mapData g) b where
  kind := by rw [Node.kind_mapData, (hg n n.mem_all_self).kind]; exact h.kind
  path := by
    rw [Node.data_mapData, (hg n n.mem_all_self).path]
    exact h.path
  data := by
    have hd := h.data
    have hg := hg n n.mem_all_self
    rw [ViewExpansion.unplaced_can (.inr h.kind)] at hd
    rw [Node.data_mapData, ViewExpansion.unplaced_can (.inr (hg.kind.trans h.kind))]
    exact Family.groupData_renumbered hd hg
  points := by
    have hc : n.children.map (Node.mapData g) = n.children := by
      refine (List.map_congr_left fun c hc => ?_).trans (List.map_id _)
      obtain ⟨p, -, hp⟩ := exists_of_forall₂ h.points hc
      have hdata := (hg c (Node.mem_all_of_child hc)).eq (by rw [← Node.kind, hp.kind]; decide)
      rw [Node.mapData_eq, hdata, hp.children, List.map_nil, ← hp.children, Node.eta, id]
    rw [Node.children_mapData, hc]
    exact h.points

/-- The identifiers of multiplexers do not matter. -/
theorem Settled.renumber {shape : Shape} {z : ZeroBits} {view : Node} {ns gs : List Node}
    (h : Settled .can shape z view ns gs)
    (hg : ∀ m ∈ view.all, Family.Renumbered m.data (g m.uuid m.data)) :
    Settled .can shape z (view.mapData g) ns (gs.map (Node.mapData g)) := by
  have hns : ns.map (Node.mapData g) = ns := by
    refine (List.map_congr_left fun n hn => Node.mapData_eq_self fun m hm => ?_).trans (List.map_id _)
    obtain ⟨s, -, hs⟩ := exists_of_forall₂ h.seeds hn
    have hnv := Node.mem_all_of_child (h.children ▸ List.mem_append_left _ hn)
    rw [Node.all_eq, hs.children, List.flatMap_nil, List.mem_singleton] at hm
    subst hm
    exact (hg m hnv).eq (by rw [← Node.kind, hs.kind]; decide)
  have hview : (view.mapData g).data = view.data := by
    rw [Node.data_mapData]
    exact (hg view view.mem_all_self).eq (by rw [← Node.kind, h.kind]; decide)
  have hggs : ∀ n ∈ gs, ∀ m ∈ n.all, Family.Renumbered m.data (g m.uuid m.data) := fun n hn m hm =>
    hg m (Node.mem_all_trans hm (Node.mem_all_of_child (h.children ▸ List.mem_append_right _ hn)))
  refine { h with children := ?_, kind := ?_, table := ?_, blocks := ?_ }
  · rw [Node.children_mapData, h.children, List.map_append, hns]
  · rw [Node.kind, hview]
    exact h.kind
  · rw [hview]
    exact h.table
  · exact forall₂_map_left h.blocks fun n hn b hb => hb.renumber (hggs n hn)

end

end ViewExpansion

end DeviceModel
