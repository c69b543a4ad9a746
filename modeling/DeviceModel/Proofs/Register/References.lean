import DeviceModel.Proofs.Register.Measure
import DeviceModel.Proofs.Schema.Attributes
import DeviceModel.Proofs.Supply
import DeviceModel.Proofs.Tree.Children

/-!
References to repeating blocks and the stand-ins below them. Main statements: when references are
brought in step every one of them mirrors its block (`syncedReferences_spec`), and references in step stay
as they are (`syncedReferences_of_inStep`).
-/

namespace DeviceModel

namespace Tree

/-- The children of a reference stand for the points of its block, in their order. -/
def Mirrors (t : Tree) (r : Node) : Prop :=
  r.children.map (·.ref? .original) = (t.referencedPoints r).map some

/-- Every reference mirrors its block. -/
def InStep (t : Tree) : Prop :=
  ∀ r ∈ t.all, r.kind = .tableRepeatingBlockReference → t.Mirrors r

/-! ### Stand-ins -/

def IsStandIn (n : Node) : Prop :=
  n.kind = .tableRepeatingBlockReferenceDataPointReference ∧ n.children = []

theorem ref?_standIn (u p : Uuid) :
    (Node.leaf u ((Data.initial .tableRepeatingBlockReferenceDataPointReference).put .original
      (.uuid p))).ref? .original = some p := by
  rw [Node.ref?, Data.ref?, Node.leaf, Data.get?_put (f := .ref .original [.dataPoint]) rfl rfl]
  rfl

theorem standIns_spec (old : List Node) (ps : List Uuid) (s : Supply) :
    (∀ c ∈ (standIns old ps s).1, IsStandIn c) ∧
      (standIns old ps s).1.map (·.ref? .original) = ps.map some := by
  induction ps generalizing s with
  | nil => exact ⟨by simp [standIns, pure, StateT.pure], rfl⟩
  | cons p ps ih =>
    have step : ∀ u s, (∀ c ∈ (Node.leaf u ((Data.initial
        .tableRepeatingBlockReferenceDataPointReference).put .original (.uuid p)) ::
          (standIns old ps s).1), IsStandIn c) ∧ _ :=
      fun u s => ⟨List.forall_mem_cons.2 ⟨⟨Data.kind_put _ _ _, rfl⟩, (ih s).1⟩,
        congrArg₂ List.cons (ref?_standIn u p) (ih s).2⟩
    cases hf : old.find? (·.ref? .original == some p) with
    | some c =>
      simp only [standIns, hf, bind, StateT.bind, pure, StateT.pure]
      exact step c.uuid s
    | none =>
      simp only [standIns, hf, bind, StateT.bind, pure, StateT.pure]
      exact step (draw s).1 (draw s).2

theorem uuids_standIns (old : List Node) (ps : List Uuid) (s : Supply) :
    (standIns old ps s).1.flatMap Node.uuids = (standIns old ps s).1.map Node.uuid := by
  rw [List.map_eq_flatMap]
  refine List.flatMap_congr fun c hc => ?_
  rw [Node.uuids_eq, ((standIns_spec old ps s).1 c hc).2]
  rfl

/-- The old nodes that stand for one of `ps`. -/
def standingFor (ps : List Uuid) (old : List Node) : List Node :=
  old.filter fun c => (c.ref? .original).any ps.contains

theorem issued_standIns {old : List Node} {ps : List Uuid} (hps : ps.Nodup) {s : Supply}
    {rest : List Uuid} (h : s.Issued ((standingFor ps old).map Node.uuid ++ rest)) :
    (standIns old ps s).2.Issued ((standIns old ps s).1.map Node.uuid ++ rest) := by
  induction ps generalizing s rest with
  | nil => exact h.sublist (List.sublist_append_right _ _)
  | cons p ps ih =>
    rw [List.nodup_cons] at hps
    have hsplit : ((standingFor [p] old).map Node.uuid ++
        ((standingFor ps old).map Node.uuid ++ rest)).Perm
          ((standingFor (p :: ps) old).map Node.uuid ++ rest) := by
      rw [← List.append_assoc, ← List.map_append]
      refine .append_right rest (.map _ ?_)
      -- Nothing stands for `p` and for one of `ps`.
      have hdisjoint : standingFor ps old = (standingFor (p :: ps) old).filter
          fun c => !(c.ref? .original).any [p].contains := by
        rw [standingFor, standingFor, List.filter_filter]
        refine List.filter_congr fun c _ => ?_
        cases c.ref? .original with
        | none => rfl
        | some q => by_cases hq : q = p <;> simp [hq, hps.1]
      have hone : standingFor [p] old = (standingFor (p :: ps) old).filter
          fun c => (c.ref? .original).any [p].contains := by
        rw [standingFor, standingFor, List.filter_filter]
        refine List.filter_congr fun c _ => ?_
        cases c.ref? .original with
        | none => rfl
        | some q => by_cases hq : q = p <;> simp [hq]
      rw [hdisjoint, hone]
      exact List.filter_append_perm _ _
    have h := h.perm hsplit
    cases hf : old.find? (·.ref? .original == some p) with
    | some c =>
      have hc : c ∈ standingFor [p] old := by
        have hcp := List.find?_some hf
        rw [standingFor, List.mem_filter]
        exact ⟨List.mem_of_find?_eq_some hf, by simp [eq_of_beq hcp]⟩
      have hreuse : s.Issued (c.uuid :: ((standingFor ps old).map Node.uuid ++ rest)) :=
        h.sublist ((List.singleton_sublist.2 (List.mem_map_of_mem hc)).append_right _)
      have hih := ih hps.2 (hreuse.perm List.perm_middle)
      simp only [standIns, hf, bind, StateT.bind, pure, StateT.pure]
      exact hih.perm List.perm_middle.symm
    | none =>
      have hnew := (h.sublist (List.sublist_append_right _ _)).draw
      have hih := ih hps.2 (hnew.perm List.perm_middle)
      simp only [standIns, hf, bind, StateT.bind, pure, StateT.pure]
      exact hih.perm List.perm_middle.symm

/-! ### One reference -/

theorem mem_referencedPoints_nodup {t : Tree} (ht : t.uuids.Nodup) (r : Node) :
    (t.referencedPoints r).Nodup := by
  unfold referencedPoints
  split
  · rename_i b _
    have hc : (t.children b).flatMap Node.uuids |>.Nodup := by
      unfold children
      cases hf : t.find? b with
      | none => exact List.nodup_nil
      | some n => exact Node.nodup_below (Node.nodup_of_mem (mem_of_find? hf).1 ht)
    exact ((List.filter_sublist.map _).trans (Node.map_uuid_sublist _)).nodup hc
  · exact List.nodup_nil

/-- The tree with the children of one reference in step with its block. -/
def syncedReference (t : Tree) (u : Uuid) : Fresh Tree :=
  match t.find? u with
  | none => pure t
  | some r => do
    let wanted := t.referencedPoints r
    if r.children.map (·.ref? .original) = wanted.map some then return t
    let cs ← standIns r.children wanted
    return t.setChildren u cs

theorem syncedReference_of_mirrors {t : Tree} {u : Uuid} {s : Supply}
    (h : ∀ r, t.find? u = some r → t.Mirrors r) : t.syncedReference u s = (t, s) := by
  unfold syncedReference
  cases hr : t.find? u with
  | none => rfl
  | some r => exact congrArg (fun x : Fresh Tree => x s) (if_pos (h r hr))

theorem syncedReference_of_not_mirrors {t : Tree} {u : Uuid} {r : Node} {s : Supply}
    (hr : t.find? u = some r) (h : ¬t.Mirrors r) :
    t.syncedReference u s = (t.setChildren u (standIns r.children (t.referencedPoints r) s).1,
      (standIns r.children (t.referencedPoints r) s).2) := by
  unfold syncedReference
  rw [hr]
  exact congrArg (fun x : Fresh Tree => x s) (if_neg h)

/-- The data points among the children of `b`. -/
def dataPoints (t : Tree) (b : Uuid) : List Uuid :=
  ((t.children b).filter (·.kind == .dataPoint)).map Node.uuid

theorem IsStandIn.eq_of_mem {c k : Node} (h : IsStandIn c) (hk : k ∈ c.all) : k = c := by
  rcases Node.mem_all.1 hk with rfl | ⟨d, hd, -⟩
  · rfl
  · rw [h.2] at hd; cases hd

/-- Stand-ins may stand below references. -/
theorem IsStandIn.allowed {c : Node} (h : IsStandIn c) :
    Kind.tableRepeatingBlockReference.allows c.kind = true ∧ c.Allowed := by
  have hk : Kind.tableRepeatingBlockReference.allows
      .tableRepeatingBlockReferenceDataPointReference = true := by decide
  refine ⟨?_, Node.allowed_iff.2 ?_⟩
  · rw [h.1]
    exact hk
  · simp [h.2]

theorem dataPoints_of_standIn {t : Tree} {b : Uuid} (h : ∀ n, t.find? b = some n → n.children = []) :
    t.dataPoints b = [] := by
  unfold dataPoints children
  cases hf : t.find? b with
  | none => rfl
  | some n => simp [h n hf]

section

variable {t : Tree} (ht : t.Valid) {r : Node} (hr : r ∈ t.all)
  (hk : r.kind = .tableRepeatingBlockReference)
include ht hr hk

theorem isStandIn_of_child {c : Node} (hc : c ∈ r.children) : IsStandIn c := by
  have hkind : ∀ k : Kind, Kind.tableRepeatingBlockReference.allows k = true →
      k = .tableRepeatingBlockReferenceDataPointReference := by
    intro k; cases k <;> decide
  have hnone : ∀ k : Kind,
      Kind.tableRepeatingBlockReferenceDataPointReference.allows k = false := by
    intro k; cases k <;> decide
  have hck := hkind _ (hk ▸ ht.allowed r hr c hc)
  refine ⟨hck, List.eq_nil_iff_forall_not_mem.2 fun d hd => ?_⟩
  have hcd := ht.allowed c (mem_all_of_child hr hc) d hd
  rw [hck, hnone] at hcd
  cases hcd

variable {cs : List Node} (hcs : ∀ c ∈ cs, IsStandIn c)
  (hn : (t.setChildren r.uuid cs).uuids.Nodup)
include hcs hn

/-- The data points below each node stay when stand-ins are exchanged: a reference has none among its
children, and neither has a stand-in. -/
theorem dataPoints_setChildren (b : Uuid) :
    (t.setChildren r.uuid cs).dataPoints b = t.dataPoints b := by
  have hedit : ∀ m : Node, m.uuid ≠ r.uuid →
      (((m.edit r.uuid fun n => { n with children := cs }).children.filter
        (·.kind == .dataPoint)).map Node.uuid) =
        (m.children.filter (·.kind == .dataPoint)).map Node.uuid := by
    intro m hm
    rw [Node.edit_of_ne hm, List.filter_map, List.map_map]
    have hkind : ∀ c : Node, (c.edit r.uuid fun n => { n with children := cs }).kind = c.kind :=
      fun c => Node.kind_edit fun _ => rfl
    simp only [Function.comp_def, hkind]
    exact List.map_congr_left fun c _ => Node.uuid_edit fun hc => hc
  by_cases hb : b = r.uuid
  · -- The reference itself: stand-ins before and after.
    have hself := find?_of_mem hn (mem_setChildren_self ht.nodup hr cs)
    have hnew : (t.setChildren r.uuid cs).dataPoints b = [] := by
      unfold dataPoints children
      rw [hb, hself]
      exact List.map_eq_nil_iff.2 (List.filter_eq_nil_iff.2 fun c hc => by simp [(hcs c hc).1])
    have hold : t.dataPoints b = [] := by
      unfold dataPoints children
      rw [hb, find?_of_mem ht.nodup hr]
      exact List.map_eq_nil_iff.2 (List.filter_eq_nil_iff.2 fun c hc => by
        simp [(isStandIn_of_child ht hr hk hc).1])
    rw [hnew, hold]
  · have hnode : ∀ k, (t.setChildren r.uuid cs).find? b = some k → k.children = [] ∨
        ∃ m, t.find? b = some m ∧ k = m.edit r.uuid fun n => { n with children := cs } := by
      intro k hkb
      obtain ⟨hkm, hku⟩ := mem_of_find? hkb
      rcases mem_all_setChildren ht.nodup hr hkm with rfl | ⟨c, hc, hkc⟩ | ⟨m, hm, hmr, rfl⟩
      · exact absurd hku.symm hb
      · rw [(hcs c hc).eq_of_mem hkc]
        exact .inl (hcs c hc).2
      · rw [Node.uuid_edit fun hm => hm] at hku
        exact .inr ⟨m, hku ▸ find?_of_mem ht.nodup hm, rfl⟩
    cases hf : t.find? b with
    | none =>
      rw [dataPoints_of_standIn (t := t) (by simp [hf]), dataPoints_of_standIn fun k hkb => ?_]
      rcases hnode k hkb with h | ⟨m, hm, -⟩
      · exact h
      · rw [hf] at hm; cases hm
    | some m =>
      obtain ⟨hm, rfl⟩ := mem_of_find? hf
      by_cases hbelow : ∃ c ∈ r.children, m ∈ c.all
      · obtain ⟨c, hc, hmc⟩ := hbelow
        have hmnil : m.children = [] := by
          rw [(isStandIn_of_child ht hr hk hc).eq_of_mem hmc]
          exact (isStandIn_of_child ht hr hk hc).2
        rw [dataPoints_of_standIn (t := t) fun n hn => by rw [hf] at hn; cases hn; exact hmnil,
          dataPoints_of_standIn fun k hkb => ?_]
        rcases hnode k hkb with h | ⟨m', hm', rfl⟩
        · exact h
        · rw [hf] at hm'
          cases hm'
          rw [Node.edit_of_ne hb, hmnil]
          rfl
      · have hmem : (m.edit r.uuid fun n => { n with children := cs }) ∈
            (t.setChildren r.uuid cs).all := by
          refine Node.edit_mem_edit hm fun q hq hqu hmq => ?_
          obtain rfl := Node.eq_of_uuid ht.nodup hq hr hqu
          exact (Node.mem_all.1 hmq).resolve_right hbelow
        have hfind := find?_of_mem hn hmem
        rw [Node.uuid_edit fun hm => hm] at hfind
        unfold dataPoints children
        rw [hfind, hf]
        exact hedit m hb

theorem referencedPoints_setChildren {q : Node} :
    (t.setChildren r.uuid cs).referencedPoints q = t.referencedPoints q := by
  unfold referencedPoints
  split
  · exact dataPoints_setChildren ht hr hk hcs hn _
  · rfl

end

/-! ### All references -/

/-- A node without references at or below it. -/
def ReferenceFree (n : Node) : Prop :=
  ∀ m ∈ n.all, m.kind ≠ .tableRepeatingBlockReference ∧
    m.kind ≠ .tableRepeatingBlockReferenceDataPointReference

theorem referenceFree_of_leaf {n : Node} (hc : n.children = []) (hk : n.kind ≠ .tableRepeatingBlockReference ∧
    n.kind ≠ .tableRepeatingBlockReferenceDataPointReference) : ReferenceFree n := by
  intro m hm
  rcases Node.mem_all.1 hm with rfl | ⟨c, hcn, -⟩
  · exact hk
  · rw [hc] at hcn
    cases hcn

/-- What bringing references in step makes of a tree: it stays valid, and nothing changes but what is
below references. -/
structure Synced (t : Tree) (s : Supply) (t' : Tree) (s' : Supply) : Prop where
  valid : t'.Valid
  issued : s'.Issued t'.uuids
  kind : t'.kind = t.kind
  free : ∀ n, ReferenceFree n → (n ∈ t'.all ↔ n ∈ t.all)

theorem Synced.refl {t : Tree} {s : Supply} (ht : t.Valid) (hs : s.Issued t.uuids) :
    Synced t s t s :=
  ⟨ht, hs, rfl, fun _ _ => Iff.rfl⟩

theorem Synced.trans {t₁ t₂ t₃ : Tree} {s₁ s₂ s₃ : Supply} (h : Synced t₁ s₁ t₂ s₂)
    (h' : Synced t₂ s₂ t₃ s₃) : Synced t₁ s₁ t₃ s₃ :=
  ⟨h'.valid, h'.issued, h'.kind.trans h.kind, fun n hn => (h'.free n hn).trans (h.free n hn)⟩

/-- The references named by `us` are there, and all others are in step. -/
structure Pending (us : List Uuid) (t : Tree) : Prop where
  found : ∀ u ∈ us, ∃ r ∈ t.all, r.uuid = u ∧ r.kind = .tableRepeatingBlockReference
  others : ∀ r ∈ t.all, r.kind = .tableRepeatingBlockReference → r.uuid ∈ us ∨ t.Mirrors r

section

variable {t : Tree} (ht : t.Valid) {r : Node} (hr : r ∈ t.all)
  (hk : r.kind = .tableRepeatingBlockReference)
include ht hr hk

/-- No reference lies in another. -/
theorem uuid_notMem_reference {q : Node} (hq : q ∈ t.all)
    (hqk : q.kind = .tableRepeatingBlockReference) (hqr : q.uuid ≠ r.uuid) : r.uuid ∉ q.uuids := by
  intro hu
  obtain ⟨m, hm, hmu⟩ := Node.mem_uuids.1 hu
  obtain rfl := Node.eq_of_uuid ht.nodup (Node.mem_all_trans hm hq) hr hmu
  rcases Node.mem_all.1 hm with rfl | ⟨c, hc, hmc⟩
  · exact hqr rfl
  · have hs := isStandIn_of_child ht hq hqk hc
    rw [hs.eq_of_mem hmc, hs.1] at hk
    cases hk

theorem notMem_child_of_reference {q : Node} (hqk : q.kind = .tableRepeatingBlockReference) :
    ∀ c ∈ r.children, q ∉ c.all := by
  intro c hc hq
  have hs := isStandIn_of_child ht hr hk hc
  rw [hs.eq_of_mem hq, hs.1] at hqk
  cases hqk

variable {s s' : Supply} {cs : List Node} (hcs : ∀ c ∈ cs, IsStandIn c)
  (hs' : s'.Issued (t.setChildren r.uuid cs).uuids)
include hcs hs'

theorem synced_setChildren : Synced t s (t.setChildren r.uuid cs) s' := by
  have hvalid : (t.setChildren r.uuid cs).Valid :=
    ht.setChildren hr (fun c hc => hk ▸ (hcs c hc).allowed) hs'.nodup
  refine ⟨hvalid, hs', rfl, fun n hn => ⟨fun hnm => ?_, fun hnm => ?_⟩⟩
  · refine mem_of_mem_setChildren ht.nodup hr hnm (fun hu => ?_) fun c hc hnc => ?_
    · obtain ⟨m, hm, hmu⟩ := Node.mem_uuids.1 hu
      have hself := mem_setChildren_self ht.nodup hr cs
      obtain rfl := Node.eq_of_uuid hs'.nodup (Node.mem_all_trans hm hnm) hself hmu
      exact (hn _ hm).1 hk
    · rw [(hcs c hc).eq_of_mem hnc] at hn
      exact (hn c c.mem_all_self).2 (hcs c hc).1
  · refine mem_setChildren_of_mem ht.nodup hr hnm (fun hu => ?_) (fun c hc hnc => ?_) cs
    · obtain ⟨m, hm, hmu⟩ := Node.mem_uuids.1 hu
      obtain rfl := Node.eq_of_uuid ht.nodup (Node.mem_all_trans hm hnm) hr hmu
      exact (hn _ hm).1 hk
    · have hs := isStandIn_of_child ht hr hk hc
      rw [hs.eq_of_mem hnc] at hn
      exact (hn c c.mem_all_self).2 hs.1

/-- Bringing one reference in step leaves the others as they are. -/
theorem pending_setChildren {us : List Uuid} (h : Pending (r.uuid :: us) t)
    (hm : cs.map (·.ref? .original) = (t.referencedPoints r).map some) :
    Pending us (t.setChildren r.uuid cs) := by
  have hvalid := (synced_setChildren (s := s') ht hr hk hcs hs').valid
  have hself := mem_setChildren_self ht.nodup hr cs
  have hpoints := fun q => referencedPoints_setChildren (q := q) ht hr hk hcs hs'.nodup
  have hmself : (t.setChildren r.uuid cs).Mirrors { r with children := cs } :=
    hm.trans (congrArg (List.map some) (hpoints _).symm)
  refine ⟨fun u hu => ?_, fun q hq hqk => ?_⟩
  · by_cases hur : u = r.uuid
    · exact ⟨_, hself, hur.symm, hk⟩
    · obtain ⟨q, hq, rfl, hqk⟩ := h.found u (by simp [hu])
      refine ⟨q, mem_setChildren_of_mem ht.nodup hr hq ?_ ?_ cs, rfl, hqk⟩
      · exact uuid_notMem_reference ht hr hk hq hqk hur
      · exact notMem_child_of_reference ht hr hk hqk
  · by_cases hqr : q.uuid = r.uuid
    · exact .inr (Node.eq_of_uuid hs'.nodup hq hself hqr ▸ hmself)
    · have hqt : q ∈ t.all := by
        refine mem_of_mem_setChildren ht.nodup hr hq ?_ fun c hc hqc => ?_
        · exact uuid_notMem_reference (r := { r with children := cs }) hvalid hself hk hq hqk hqr
        · rw [(hcs c hc).eq_of_mem hqc, (hcs c hc).1] at hqk
          cases hqk
      rcases h.others q hqt hqk with hu | hmq
      · exact .inl ((List.mem_cons.1 hu).resolve_left hqr)
      · exact .inr (hmq.trans (congrArg (List.map some) (hpoints q).symm))

end

theorem syncedReference_spec {t : Tree} (ht : t.Valid) {s : Supply} (hs : s.Issued t.uuids) {u : Uuid}
    {us : List Uuid} (h : Pending (u :: us) t) :
    Synced t s (t.syncedReference u s).1 (t.syncedReference u s).2 ∧ Pending us (t.syncedReference u s).1 := by
  obtain ⟨r, hr, rfl, hk⟩ := h.found u (by simp)
  have hfind := find?_of_mem ht.nodup hr
  by_cases hm : t.Mirrors r
  · rw [syncedReference_of_mirrors fun q hq => by rw [hfind] at hq; cases hq; exact hm]
    refine ⟨.refl ht hs, fun v hv => h.found v (by simp [hv]), fun q hq hqk => ?_⟩
    rcases h.others q hq hqk with hu | hmq
    · rcases List.mem_cons.1 hu with hu | hu
      · exact .inr (Node.eq_of_uuid ht.nodup hq hr hu ▸ hm)
      · exact .inl hu
    · exact .inr hmq
  · rw [syncedReference_of_not_mirrors hfind hm]
    obtain ⟨hstand, horig⟩ := standIns_spec r.children (t.referencedPoints r) s
    obtain ⟨outside, hold, hnew⟩ := exists_outside ht.nodup hr
    have hsub : ((standingFor (t.referencedPoints r) r.children).map Node.uuid).Sublist
        (r.children.flatMap Node.uuids) :=
      (List.filter_sublist.map _).trans (Node.map_uuid_sublist r.children)
    have hissued := issued_standIns (mem_referencedPoints_nodup ht.nodup r)
      (hs.subperm ((hsub.append_right outside).subperm.trans hold.symm.subperm))
    have hs' := hissued.perm ((hnew _).trans (by rw [uuids_standIns]))
    exact ⟨synced_setChildren ht hr hk hstand hs', pending_setChildren ht hr hk hstand hs' h horig⟩

/-- The tree with its references in step. -/
def syncedReferences (t : Tree) : Fresh Tree :=
  ((t.ofKind .tableRepeatingBlockReference).map Node.uuid).foldlM syncedReference t

/-- At first all references may be out of step. -/
theorem pending_ofKind (t : Tree) :
    Pending ((t.ofKind .tableRepeatingBlockReference).map Node.uuid) t := by
  refine ⟨fun u hu => ?_, fun r hr hk => .inl ?_⟩
  · obtain ⟨r, hr, rfl⟩ := List.mem_map.1 hu
    rw [ofKind, List.mem_filter] at hr
    exact ⟨r, hr.1, rfl, by simpa using hr.2⟩
  · exact List.mem_map_of_mem (List.mem_filter.2 ⟨hr, by simp [hk]⟩)

/-- Afterwards every reference mirrors its block. -/
theorem syncedReferences_spec {t : Tree} (ht : t.Valid) {s : Supply} (hs : s.Issued t.uuids) :
    Synced t s (t.syncedReferences s).1 (t.syncedReferences s).2 ∧ (t.syncedReferences s).1.InStep := by
  have fold : ∀ (us : List Uuid) (t₁ : Tree) (s₁ : Supply), t₁.Valid → s₁.Issued t₁.uuids →
      Pending us t₁ → Synced t₁ s₁ (us.foldlM syncedReference t₁ s₁).1 (us.foldlM syncedReference t₁ s₁).2 ∧
        Pending [] (us.foldlM syncedReference t₁ s₁).1 := by
    intro us
    induction us with
    | nil => exact fun t₁ s₁ h₁ hs₁ hp => ⟨.refl h₁ hs₁, hp⟩
    | cons u us ih =>
      intro t₁ s₁ h₁ hs₁ hp
      obtain ⟨hsync, hp₂⟩ := syncedReference_spec h₁ hs₁ hp
      obtain ⟨hrest, hp₃⟩ := ih _ _ hsync.valid hsync.issued hp₂
      exact ⟨hsync.trans hrest, hp₃⟩
  obtain ⟨hsync, hdone⟩ := fold _ t s ht hs (pending_ofKind t)
  exact ⟨hsync, fun r hr hk => (hdone.others r hr hk).resolve_left (by simp)⟩

/-- References in step are left alone, and no identifier is drawn. -/
theorem syncedReferences_of_inStep {t : Tree} (ht : t.Valid) (h : t.InStep) (s : Supply) :
    t.syncedReferences s = (t, s) := by
  have fold : ∀ us : List Uuid, (∀ u ∈ us, ∀ r, t.find? u = some r → t.Mirrors r) →
      us.foldlM syncedReference t s = (t, s) := by
    intro us
    induction us with
    | nil => exact fun _ => rfl
    | cons u us ih =>
      intro hus
      have hu := syncedReference_of_mirrors (s := s) (hus u (by simp))
      rw [List.foldlM_cons, bind, Monad.toBind, StateT.instMonad]
      simp only [StateT.bind, hu]
      exact ih fun v hv => hus v (by simp [hv])
  refine fold _ fun u hu r hr => ?_
  obtain ⟨q, hq, rfl⟩ := List.mem_map.1 hu
  rw [ofKind, List.mem_filter] at hq
  obtain ⟨hrm, hru⟩ := mem_of_find? hr
  obtain rfl := Node.eq_of_uuid ht.nodup hrm hq.1 hru
  exact h r hrm (by simpa using hq.2)

end Tree

end DeviceModel
