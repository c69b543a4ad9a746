import DeviceModel.Proofs.Expansion.Syncing
import DeviceModel.Proofs.Workspace.Outcomes

/-!
The nodes that the rules of a tree make. Main statements: a new child is of the kind that was asked for
(`produces_newChild`), which its parent allows if it was offered (`allows_of_addable`), and what a drop
makes is of a kind that the target allows (`produces_childFrom`). Either can join any tree that the
supply knows the identifiers of.
-/

namespace DeviceModel

namespace Rules

/-- `n` keeps the rules of its kinds, and its identifiers are among those drawn from `s`. -/
structure IsNew (s : Supply) (n : Node) (s' : Supply) : Prop where
  allowed : n.Allowed
  issued : ∀ us, s.Issued us → s'.Issued (n.uuids ++ us)

theorem IsNew.joins {s s' : Supply} {n : Node} (h : IsNew s n s') {us : List Uuid} (hs : s.Issued us) :
    n.Joins us := by
  obtain ⟨hn, -, hdis⟩ := List.nodup_append.1 (h.issued us hs).nodup
  exact ⟨hn, fun u hu hus => hdis u hu u hus rfl, h.allowed⟩

/-- What the step gives is new and of a kind as `P` says. -/
def Produces (P : Kind → Prop) (b : Build Node) : Prop :=
  ∀ s n s', Gives b s n s' → P n.kind ∧ IsNew s n s'

variable {P Q R : Kind → Prop}

theorem produces_throw {x : Error} : Produces P (throw x) := fun _ _ _ h => absurd h gives_throw

theorem produces_if {c : Prop} [Decidable c] {b : Build Node} (h : Produces P b) {x : Error} :
    Produces P (if c then b else throw x) := by
  split
  · exact h
  · exact produces_throw

theorem gives_new {k : Kind} {attrs : List (Attr × Value)} {cs : List Node} {s s' : Supply} {n : Node} :
    Gives (new k attrs cs) s n s' ↔ ⟨(draw s).1, .of k attrs, cs⟩ = n ∧ (draw s).2 = s' := by
  simp only [new, gives_bind, gives_liftM_state, gives_pure]
  constructor
  · rintro ⟨u, _, hdraw, rfl, rfl⟩
    rw [hdraw]
    exact ⟨rfl, rfl⟩
  · rintro ⟨rfl, rfl⟩
    exact ⟨_, _, rfl, rfl, rfl⟩

/-- A new node without children has the attributes that it is made of. -/
theorem get?_of_gives_new {k : Kind} {attrs : List (Attr × Value)} {s s' : Supply} {n : Node}
    (h : Gives (new k attrs) s n s') (hn : (attrs.map Prod.fst).Nodup) {a : Attr} {v : Value} {f : Field}
    (hm : (a, v) ∈ attrs) (hf : k.field? a = some f) (hv : f.type.coerce? v = some v) :
    n.data.get? a = some v := by
  obtain ⟨rfl, -⟩ := gives_new.1 h
  exact Data.get?_of hn hm hf hv

theorem leaf_of_gives_new {k : Kind} {attrs : List (Attr × Value)} {s s' : Supply} {n : Node}
    (h : Gives (new k attrs) s n s') : n.children = [] ∧ n.kind = k := by
  obtain ⟨rfl, -⟩ := gives_new.1 h
  exact ⟨rfl, Data.kind_of _ _⟩

theorem produces_new {k : Kind} (hk : P k) (attrs : List (Attr × Value)) : Produces P (new k attrs) := by
  intro s n s' h
  obtain ⟨rfl, rfl⟩ := gives_new.1 h
  refine ⟨by rwa [Node.kind, Data.kind_of], Node.allowed_iff.2 (by simp), fun us hus => ?_⟩
  exact hus.draw

/-- A new node with two new children. -/
theorem produces_two {x y : Build Node} {k : Kind} (hx : Produces Q x) (hy : Produces R y) (hk : P k)
    (hq : ∀ c, Q c → k.allows c = true) (hr : ∀ c, R c → k.allows c = true)
    (attrs : List (Attr × Value)) : Produces P (do new k attrs [← x, ← y]) := by
  intro s n s' h
  simp only [gives_bind] at h
  obtain ⟨c, s₁, hc, d, s₂, hd, h⟩ := h
  obtain ⟨rfl, rfl⟩ := gives_new.1 h
  obtain ⟨hck, hc⟩ := hx _ _ _ hc
  obtain ⟨hdk, hd⟩ := hy _ _ _ hd
  refine ⟨by rwa [Node.kind, Data.kind_of], Node.allowed_iff.2 fun e he => ?_, fun us hus => ?_⟩
  · rw [Node.kind, Data.kind_of]
    rcases List.mem_cons.1 he with rfl | he
    · exact ⟨hq _ hck, hc.allowed⟩
    · rw [List.mem_singleton.1 he]
      exact ⟨hr _ hdk, hd.allowed⟩
  · refine (hd.issued _ (hc.issued us hus)).draw.perm ?_
    rw [Node.uuids_eq]
    refine .cons _ ?_
    simp only [List.flatMap_cons, List.flatMap_nil, List.append_nil]
    rw [← List.append_assoc]
    exact .append_right _ List.perm_append_comm

/-! ### Views -/

/-- The reference points of a new view. -/
def points (f : Family) (sources : List SeedSource) : Fresh (List Node) :=
  sources.mapM fun x => return Node.leaf (← draw) (f.newSeed x)

theorem points_cons (f : Family) (x : SeedSource) (xs : List SeedSource) (s : Supply) :
    points f (x :: xs) s = (.leaf (draw s).1 (f.newSeed x) :: (points f xs (draw s).2).1,
      (points f xs (draw s).2).2) := by
  rw [points, List.mapM_cons]
  rfl

theorem points_new {f : Family} (hf : f.Lawful) (sources : List SeedSource) (s : Supply) :
    (∀ c ∈ (points f sources s).1, ViewExpansion.IsSeed f c) ∧ ∀ us, s.Issued us →
      (points f sources s).2.Issued ((points f sources s).1.flatMap Node.uuids ++ us) := by
  induction sources generalizing s with
  | nil => exact ⟨by simp [points, pure, StateT.pure], fun us hus => hus⟩
  | cons x xs ih =>
    rw [points_cons]
    obtain ⟨hcs, hissued⟩ := ih (draw s).2
    refine ⟨List.forall_mem_cons.2 ⟨⟨hf.kind_newSeed x, rfl⟩, hcs⟩, fun us hus => ?_⟩
    exact (hissued _ hus.draw).perm List.perm_middle.symm

theorem seeded_eq (f : Family) (view : Data) (sources : List SeedSource) (s : Supply) :
    f.seeded view sources s =
      (⟨(draw s).1, view, (points f sources (draw s).2).1⟩, (points f sources (draw s).2).2) := rfl

theorem produces_newView {f : Family} (hf : f.Lawful) {view : Data} (hk : view.kind = f.view) (hp : P f.view)
    (table : Node) (l : Lookup) : Produces P (newView f view table l) := by
  unfold newView
  split
  · exact produces_throw
  · intro s n s' h
    simp only [gives_bind, gives_liftM, gives_liftM_state] at h
    obtain ⟨sources, _, ⟨-, rfl⟩, h⟩ := h
    rw [seeded_eq] at h
    obtain ⟨hcs, hissued⟩ := points_new hf sources (draw s).2
    cases h
    refine ⟨by rwa [Node.kind, hk], Node.allowed_iff.2 fun c hc => ?_, fun us hus => ?_⟩
    · refine ⟨?_, Node.allowed_iff.2 (by simp [(hcs c hc).2])⟩
      rw [Node.kind, hk, (hcs c hc).1]
      exact hf.allows_point
    · rw [Node.uuids_eq]
      exact (hissued _ hus.draw).perm List.perm_middle.symm

/-! ### Children that are asked for -/

theorem produces_new_self (k : Kind) (attrs : List (Attr × Value)) : Produces (· = k) (new k attrs) :=
  produces_new (P := (· = k)) rfl attrs

theorem SunSpec.produces_header (l : Lookup) : Produces (· = .headerBlock) (SunSpec.header l) :=
  have hpoint : ∀ c : Kind, c = .dataPoint → Kind.headerBlock.allows c = true := by
    rintro _ rfl
    decide
  produces_two (P := (· = .headerBlock)) (produces_new_self _ _) (produces_new_self _ _) rfl hpoint hpoint _

theorem SunSpec.produces_model (l : Lookup) (attrs : List (Attr × Value)) : Produces (· = .sunSpecModel)
    (do new .sunSpecModel attrs [← header l, ← new .fixedBlock []]) := by
  refine produces_two (P := (· = .sunSpecModel)) (produces_header l) (produces_new_self _ _) rfl ?_ ?_ _
  · rintro _ rfl
    decide
  · rintro _ rfl
    decide

theorem produces_newChild (j : TreeKind) (t : Tree) (p : Node) (k : Kind) (l : Lookup) :
    Produces (· = k) ((Rules.ofTree j).newChild t p k l) := by
  cases j with
  | parameters =>
    show Produces _ (Parameters.newChild t p k l)
    unfold Parameters.newChild
    split <;> first | exact produces_new_self _ _ | exact produces_throw
  | can =>
    show Produces _ (Can.newChild t p k l)
    unfold Can.newChild
    split <;> first | exact produces_new_self _ _ | exact produces_throw
  | sunSpec =>
    show Produces _ (SunSpec.newChild t p k l)
    unfold SunSpec.newChild
    split <;> first | exact SunSpec.produces_model l _ | exact produces_new_self _ _ | exact produces_throw
  | staticModbus =>
    show Produces _ (Modbus.newChild t p k l)
    unfold Modbus.newChild
    split <;> first | exact produces_new_self _ _ | exact produces_throw
  | anomalies =>
    show Produces _ (Anomalies.newChild t p k l)
    unfold Anomalies.newChild
    split <;> first | exact produces_new_self _ _ | exact produces_throw

/-- Whatever is offered is allowed. -/
theorem allows_of_addable (j : TreeKind) {t : Tree} {p : Node} {k : Kind}
    (h : k ∈ (Rules.ofTree j).addable t p) : p.kind.allows k = true := by
  have listed : ∀ {q : Kind} {ks : List Kind}, p.kind = q → ks.all q.allows = true → k ∈ ks →
      p.kind.allows k = true := fun hq hks hk => hq ▸ List.all_eq_true.1 hks k hk
  cases j with
  | parameters =>
    replace h : k ∈ Parameters.addable t p := h
    unfold Parameters.addable at h
    split at h
    · cases h
    split at h
    · exact listed ‹_› (by decide) h
    · split at h <;> exact listed ‹_› (by decide) h
    · split at h <;> exact listed ‹_› (by decide) h
    · exact listed ‹_› (by decide) h
    · exact listed ‹_› (by decide) h
    · exact listed ‹_› (by decide) h
    · cases h
  | can =>
    replace h : k ∈ Can.addable t p := h
    unfold Can.addable at h
    split at h
    · cases h
    split at h
    · exact listed ‹_› (by decide) h
    · exact listed ‹_› (by decide) h
    · exact listed ‹_› (by decide) h
    · split at h <;> exact listed ‹_› (by decide) h
    · cases h
  | sunSpec =>
    replace h : k ∈ SunSpec.addable t p := h
    unfold SunSpec.addable at h
    split at h
    · cases h
    split at h
    · exact listed ‹_› (by decide) h
    · exact listed ‹_› (by decide) h
    · exact listed ‹_› (by decide) h
    · exact listed ‹_› (by decide) h
    · cases h
  | staticModbus =>
    replace h : k ∈ Modbus.addable t p := h
    unfold Modbus.addable at h
    split at h
    · cases h
    split at h
    · exact listed ‹_› (by decide) h
    · exact listed ‹_› (by decide) h
    · cases h
  | anomalies =>
    replace h : k ∈ Anomalies.addable t p := h
    unfold Anomalies.addable at h
    split at h
    · exact listed ‹_› (by decide) h
    · exact listed ‹_› (by decide) h
    · exact listed ‹_› (by decide) h
    · cases h

/-! ### Children that drops make -/

theorem Anomalies.produces_childFrom (t : Tree) (target source : Node) (l : Lookup) :
    Produces (target.kind.allows · = true) (Anomalies.childFrom t target source l) := by
  unfold Anomalies.childFrom
  split
  · rename_i h
    have hk : target.kind = .anomaly := eq_of_beq (Bool.and_eq_true_iff.1 h).1
    rw [hk]
    exact produces_new (by decide) _
  · exact produces_throw

theorem SunSpec.produces_childFrom (t : Tree) (target source : Node) (l : Lookup) :
    Produces (target.kind.allows · = true) (SunSpec.childFrom t target source l) := by
  unfold SunSpec.childFrom
  split
  · rename_i ht
    rw [ht]
    exact produces_new (by decide) _
  · rename_i ht
    rw [ht]
    exact produces_newView Family.lawful_sunSpec (Data.kind_of _ _) (by decide) _ _
  · rename_i ht
    rw [ht]
    exact produces_if (produces_new (by decide) _)
  · have ht : target.kind = .fixedBlock := ‹_›
    rw [ht]
    exact produces_if (produces_new (by decide) _)
  · exact produces_throw

theorem Modbus.produces_childFrom (t : Tree) (target source : Node) (l : Lookup) :
    Produces (target.kind.allows · = true) (Modbus.childFrom t target source l) := by
  unfold Modbus.childFrom
  split
  · rename_i ht
    rw [ht]
    exact produces_new (by decide) _
  · rename_i ht
    rw [ht]
    exact produces_newView Family.lawful_staticModbus (Data.kind_of _ _) (by decide) _ _
  · rename_i ht
    rw [ht]
    exact produces_if (produces_new (by decide) _)
  · have ht : target.kind = .staticModbusRoot := ‹_›
    rw [ht]
    exact produces_if (produces_new (by decide) _)
  · exact produces_throw

/-- What the child is depends on the source only, and on what it may be dropped on the target. -/
theorem Can.produces_childFrom {t : Tree} {target source : Node} (l : Lookup)
    (hd : Can.canDrop t target source = true) (ht : t.contains source.uuid = false) :
    Produces (target.kind.allows · = true) (Can.childFrom t target source l) := by
  have signal : target.kind.allows .signal = true → source.kind.isParameterLike = true →
      Produces (target.kind.allows · = true) (Can.childFrom t target source l) := by
    intro hk hs
    rw [Can.childFrom, if_pos hs]
    exact produces_new (P := (target.kind.allows · = true)) hk _
  rw [Can.canDrop, if_neg (by simp [ht])] at hd
  split at hd
  · cases hd
  split at hd
  · rename_i hk
    exact signal (hk ▸ rfl) hd
  · rename_i hk
    exact signal (hk ▸ rfl) hd
  · rename_i hk
    split at hd
    · have hs : source.kind = .table := eq_of_beq hd
      rw [Can.childFrom, if_neg (by rw [hs]; decide), if_pos hs, hk]
      exact produces_newView Family.lawful_can (Data.kind_of _ _) (by decide) _ _
    · exact signal (hk ▸ rfl) hd
  · cases hd

/-- A node that is dropped and not moved becomes a child of a kind that the target allows. -/
theorem produces_childFrom (j : TreeKind) {t : Tree} {target source : Node} (l : Lookup)
    (hd : (Rules.ofTree j).canDrop t target source = true)
    (hm : t.contains source.uuid = true → (Rules.ofTree j).moves t target source = false) :
    Produces (target.kind.allows · = true) ((Rules.ofTree j).childFrom t target source l) := by
  cases j with
  | parameters => exact produces_throw
  | can =>
    refine Can.produces_childFrom l hd (Bool.eq_false_iff.2 fun h => ?_)
    replace hd : Can.canDrop t target source = true := hd
    rw [Can.canDrop, if_pos h] at hd
    exact Bool.false_ne_true ((hm h).symm.trans hd)
  | sunSpec => exact SunSpec.produces_childFrom t target source l
  | staticModbus => exact Modbus.produces_childFrom t target source l
  | anomalies => exact Anomalies.produces_childFrom t target source l

theorem canMove_of_moves (j : TreeKind) {t : Tree} {target source : Node}
    (h : (Rules.ofTree j).moves t target source = true) : t.canMove target source = true := by
  cases j with
  | parameters | can | anomalies => exact h
  | sunSpec | staticModbus => exact (Bool.and_eq_true_iff.1 h).2

end Rules

end DeviceModel
