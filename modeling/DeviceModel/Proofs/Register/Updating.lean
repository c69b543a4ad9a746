import DeviceModel.Proofs.Register.UpToDate
import DeviceModel.Proofs.Workspace.Outcomes

/-!
Bringing a layout up to date does not fail on a valid tree: stand-ins join below their references, and
every value of the layout has an attribute to go to. Main statement: what is done step by step gives the
tree laid out (`gives_updateLayout`).
-/

namespace DeviceModel

namespace Tree

/-! ### References -/

section

variable {t : Tree} (ht : t.Valid) {n : Node} (hn : n ∈ t.all)
include ht hn

/-- A last child that joins. -/
theorem insert_setChildren {cs : List Node} {c : Node}
    (hk : ∀ d ∈ cs ++ [c], n.kind.allows d.kind = true ∧ d.Allowed)
    (hu : (t.setChildren n.uuid (cs ++ [c])).uuids.Nodup) :
    (t.setChildren n.uuid cs).insert n.uuid none c = .ok (t.setChildren n.uuid (cs ++ [c])) := by
  obtain ⟨outside, -, hnew⟩ := exists_outside ht.nodup hn
  have hall := (hnew (cs ++ [c])).nodup_iff.1 hu
  have hperm : (c.uuids ++ (cs.flatMap Node.uuids ++ outside)).Perm
      ((cs ++ [c]).flatMap Node.uuids ++ outside) := by
    rw [List.flatMap_append, List.flatMap_singleton, ← List.append_assoc]
    exact .append_right _ List.perm_append_comm
  obtain ⟨hc, hold, hdis⟩ := List.nodup_append.1 (hperm.nodup_iff.2 hall)
  have hjoins : c.Joins (t.setChildren n.uuid cs).uuids :=
    ⟨hc, fun u hu h => hdis u hu u ((hnew cs).mem_iff.1 h) rfl, (hk c (by simp)).2⟩
  have hself := mem_setChildren_self ht.nodup hn cs
  have hinsert := insert_of_joins ((hnew cs).nodup_iff.2 hold) hself (hk c (by simp)).1 hjoins none
  refine hinsert.trans (congrArg Except.ok ?_)
  have htwice := Node.edit_edit (f := fun m => { m with children := cs }) (g := fun m => m.addChild none c)
    (u := n.uuid) t.root fun _ h => h
  refine congrArg (Tree.mk t.kind) (htwice.trans ?_)
  exact Node.edit_congr fun k _ _ => by simp [Node.addChild, Node.place]

/-- Last children that join one after the other. -/
theorem foldlM_insert (before : List Node) {cs : List Node}
    (hk : ∀ d ∈ before ++ cs, n.kind.allows d.kind = true ∧ d.Allowed)
    (hu : (t.setChildren n.uuid (before ++ cs)).uuids.Nodup) :
    cs.foldlM (fun t c => t.insert n.uuid none c) (t.setChildren n.uuid before) =
      .ok (t.setChildren n.uuid (before ++ cs)) := by
  induction cs generalizing before with
  | nil => rw [List.append_nil]; rfl
  | cons c cs ih =>
    have happend : before ++ c :: cs = before ++ [c] ++ cs := by simp
    rw [happend] at hk hu ⊢
    have hprefix : (t.setChildren n.uuid (before ++ [c])).uuids.Nodup := by
      obtain ⟨outside, -, hnew⟩ := exists_outside ht.nodup hn
      have hsub : ((before ++ [c]).flatMap Node.uuids).Sublist
          ((before ++ [c] ++ cs).flatMap Node.uuids) := by
        simp only [List.flatMap_append]
        exact List.sublist_append_left _ _
      exact (hnew _).nodup_iff.2 ((hsub.append_right outside).nodup ((hnew _).nodup_iff.1 hu))
    rw [List.foldlM_cons, insert_setChildren ht hn (fun d hd => hk d (List.mem_append_left _ hd)) hprefix]
    exact ih _ hk hu

end

theorem gives_syncReference {t : Tree} (ht : t.Valid) {s : Supply} (hs : s.Issued t.uuids) {u : Uuid}
    {us : List Uuid} (h : Pending (u :: us) t) :
    Gives (t.syncReference u) s (t.syncedReference u s).1 (t.syncedReference u s).2 := by
  obtain ⟨r, hr, rfl, hk⟩ := h.found u (by simp)
  have hfind := find?_of_mem ht.nodup hr
  unfold syncReference
  rw [hfind]
  by_cases hm : t.Mirrors r
  · rw [syncedReference_of_mirrors fun q hq => by rw [hfind] at hq; cases hq; exact hm]
    simp only [if_pos (show r.children.map (·.ref? .original) = (t.referencedPoints r).map some from hm)]
    exact gives_pure.2 ⟨rfl, rfl⟩
  · have hvalid := (syncedReference_spec ht hs h).1.valid
    rw [syncedReference_of_not_mirrors hfind hm] at hvalid ⊢
    simp only [if_neg (show ¬r.children.map (·.ref? .original) = (t.referencedPoints r).map some from hm)]
    have hcs := (standIns_spec r.children (t.referencedPoints r) s).1
    have hinsert := foldlM_insert ht hr [] (fun c hc => hk ▸ (hcs c hc).allowed) hvalid.nodup
    refine gives_bind.2 ⟨_, s, gives_liftM.2 ⟨detachChildren_of_mem ht.nodup hr, rfl⟩, ?_⟩
    refine gives_bind.2 ⟨_, _, gives_liftM_state.2 rfl, ?_⟩
    exact gives_liftM.2 ⟨hinsert, rfl⟩

theorem gives_syncReferences {t : Tree} (ht : t.Valid) {s : Supply} (hs : s.Issued t.uuids) :
    Gives t.syncReferences s (t.syncedReferences s).1 (t.syncedReferences s).2 := by
  have fold : ∀ (us : List Uuid) (t₁ : Tree) (s₁ : Supply), t₁.Valid → s₁.Issued t₁.uuids →
      Pending us t₁ → Gives (us.foldlM syncReference t₁) s₁ (us.foldlM syncedReference t₁ s₁).1
        (us.foldlM syncedReference t₁ s₁).2 := by
    intro us
    induction us with
    | nil => exact fun t₁ s₁ _ _ _ => gives_pure.2 ⟨rfl, rfl⟩
    | cons u us ih =>
      intro t₁ s₁ h₁ hs₁ hp
      obtain ⟨hsync, hp₂⟩ := syncedReference_spec h₁ hs₁ hp
      rw [List.foldlM_cons]
      exact gives_bind.2 ⟨_, _, gives_syncReference h₁ hs₁ hp, ih _ _ hsync.valid hsync.issued hp₂⟩
  exact fold _ t s ht hs (pending_ofKind t)

/-! ### Values -/

theorem setPlaced_eq {t : Tree} (ht : t.uuids.Nodup) {n : Node} (hn : n ∈ t.all) {p : Placement}
    (hu : n.uuid = p.uuid) (ha : p.attr.isLaidOut = true) (hf : (n.kind.field? p.attr).isSome = true) :
    t.setPlaced p = .ok (t.modify p.uuid (·.put p.attr (.integer p.value))) := by
  rw [setPlaced, ← hu, node_eq_ok.2 (find?_of_mem ht hn)]
  have hset := Data.set_integer ha hf p.value
  simp only [bind, Except.bind, hset]
  refine congrArg (fun r => Except.ok (Tree.mk t.kind r)) (Node.edit_congr fun m hm hmu => ?_)
  obtain rfl := Node.eq_of_uuid ht hm hn hmu
  rfl

/-- Values of attributes that there are can all be set. -/
theorem foldlM_setPlaced {t : Tree} (ht : t.uuids.Nodup) {ps : List Placement}
    (ha : ∀ p ∈ ps, p.attr.isLaidOut = true) (hps : Layout.Present t ps) :
    ps.foldlM setPlaced t = .ok (t.placeAll ps) := by
  induction ps generalizing t with
  | nil => rfl
  | cons p ps ih =>
    obtain ⟨n, hn, hu, hf⟩ := hps p (by simp)
    rw [List.foldlM_cons, setPlaced_eq ht hn hu (ha p (by simp)) hf]
    have hmap := modify_eq_mapData ht p.uuid (·.put p.attr (.integer p.value))
    refine ih (by rwa [hmap, uuids_mapData]) (fun q hq => ha q (by simp [hq])) fun q hq => ?_
    obtain ⟨m, hm, hmu, hmf⟩ := hps q (by simp [hq])
    rw [hmap, all_mapData]
    refine ⟨_, List.mem_map_of_mem hm, by rwa [Node.uuid_mapData], ?_⟩
    rw [Node.kind_mapData, Node.only]
    split
    · rwa [Data.kind_put]
    · exact hmf

theorem gives_updateLayout {t : Tree} (ht : t.Valid) {s : Supply} (hs : s.Issued t.uuids) {t' : Tree}
    {s' : Supply} : Gives t.updateLayout s t' s' ↔ t.relaidOut s = (t', s') := by
  have hplace : ∀ t₁ : Tree, t₁.Valid → t₁.layout.foldlM setPlaced t₁ = .ok (t₁.placeAll t₁.layout) :=
    fun t₁ h₁ => foldlM_setPlaced h₁.nodup (within_layout h₁).laidOut (present_layout h₁)
  have hrun : Gives t.updateLayout s (t.relaidOut s).1 (t.relaidOut s).2 := by
    unfold updateLayout
    cases hk : t.kind with
    | sunSpec =>
      have hvalid := (syncedReferences_spec ht hs).1.valid
      simp only [relaidOut, hk, if_true]
      exact gives_bind.2 ⟨_, _, gives_syncReferences ht hs, gives_liftM.2 ⟨hplace _ hvalid, rfl⟩⟩
    | staticModbus =>
      simp only [relaidOut, hk, reduceCtorEq, if_false]
      exact gives_bind.2 ⟨t, s, gives_pure.2 ⟨rfl, rfl⟩, gives_liftM.2 ⟨hplace t ht, rfl⟩⟩
    | parameters | can | anomalies =>
      have hnone : t.layout = [] := by simp only [layout, hk]
      simp only [relaidOut, hk, reduceCtorEq, if_false]
      exact gives_bind.2 ⟨t, s, gives_pure.2 ⟨rfl, rfl⟩, gives_liftM.2 ⟨by rw [hnone]; rfl, rfl⟩⟩
  refine ⟨fun h => ?_, fun h => ?_⟩
  · obtain ⟨h₁, h₂⟩ := gives_unique hrun h
    exact Prod.ext h₁ h₂
  · rwa [h] at hrun

end Tree

end DeviceModel
