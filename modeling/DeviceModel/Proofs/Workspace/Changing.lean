import DeviceModel.Proofs.Workspace.HandEdits

/-!
What requests do to the rows of trees. Main statements: a request that succeeds inserts a row of one tree,
takes one out, moves one, tells of all rows below a node, or of none (`changes_of_request`); what each of that
keeps of the rows below nodes of one kind (`Inserted.rowsOf`, `Removed.rowsOf`, `Moved.rowsOf`); and what one
operation after the other on a tree keeps (`keeps_of_run`).
-/

namespace DeviceModel

namespace Workspace

open Edit

variable {w w' : Workspace} {k : TreeKind} {a : Node}

/-! ### Requests -/

/-- What a request does to the rows of one tree. -/
inductive Changes (w : Workspace) (k : TreeKind) (w' : Workspace) : Prop
  | inserted {p : Node} {row : Option Nat} {c : Node} (hp : p.listing.IsPlain) (h : Inserted w k p row c w')
  | removed {p n : Node} (hp : p.listing.IsPlain) (h : Removed w k p n w')
  | moved {q n p : Node} {row : Option Nat} (hq : q.listing.IsPlain) (h : Moved w k q n p row w')
  | replaced {a : Node} {t : Tree} (ha : a.listing.IsPlain) (h : Replaced w k a t w')
  | attributes {t : Tree} (ht : t.listings = (w.tree k).listings) (h : Told w k [] t w')

theorem Changes.told (h : Changes w k w') : ∃ es t, Told w k es t w' := by
  cases h with
  | inserted _ h => exact h.exists_told
  | removed _ h => exact h.exists_told
  | moved _ h => exact h.exists_told
  | replaced _ h => exact ⟨_, _, h.told⟩
  | attributes _ h => exact ⟨_, _, h⟩

/-- A request changes one tree, and stays within the rules of its kind. -/
theorem Changes.proper (h : Changes w k w') (hw : w.Proper) : w'.Proper := by
  obtain ⟨es, t, h⟩ := h.told
  have hall : ∀ j, (w'.tree j).Valid ∧ (w'.tree j).kind = j := fun j => by
    by_cases hj : j = k
    · subst hj
      exact ⟨h.validAfter.1, h.validAfter.2.trans (hw.kind j)⟩
    · rw [h.others hj]
      exact ⟨hw.valid j, hw.kind j⟩
  exact ⟨fun j => (hall j).1, fun j => (hall j).2⟩

/-- The parameter tree has no references to repeating blocks. -/
theorem isPlain_parameters (hw : w.Proper) (ha : a ∈ (w.tree .parameters).all) : a.listing.IsPlain :=
  Tree.isPlain_of_kind (hw.valid _) (by rw [hw.kind]; decide) ha

/-- An operation that succeeds changes rows of its tree in one of these ways. -/
theorem changes_of_operation (hw : (w.tree k).Valid) (hk : (w.tree k).kind = k) {op : Operation}
    (h : op.Succeeds k w w') : Changes w k w' := by
  cases op with
  | addChild parent kind =>
    obtain ⟨u, h⟩ := h
    rcases addChild_told hw hk h with ⟨p, c, -, hc, h⟩ | ⟨a, t, ha, h, -⟩
    · exact .inserted (Node.isPlain_of_allows h.allows hc) h
    · exact .replaced (Tree.isPlain_of_array ha) h
  | delete u =>
    rcases delete_told hw hk h with ⟨p, n, hg, h⟩ | ⟨a, t, ha, h, -⟩
    · have hn := Tree.isMade_of_not_isGenerated hw (Tree.mem_all_of_child h.mem h.child) hg
      exact .removed (Node.isPlain_of_allows (hw.allowed p h.mem n h.child) hn) h
    · exact .replaced (Tree.isPlain_of_array ha) h
  | drop payload target row =>
    obtain ⟨u, h⟩ := h
    obtain ⟨p, -, ⟨q, n, hg, h⟩ | ⟨c, hc, h⟩⟩ := drop_told hw h
    · have hn := Tree.isMade_of_not_isGenerated hw (Tree.mem_all_of_child h.mem h.child) hg
      exact .moved (Node.isPlain_of_allows (hw.allowed q h.mem n h.child) hn) h
    · exact .inserted (Node.isPlain_of_allows h.allows hc) h
  | setAttribute u name x =>
    obtain ⟨t, ht, h⟩ := setAttribute_told hw hk h
    exact .attributes ht h
  | expandView view table o =>
    obtain ⟨e, h⟩ := h
    obtain ⟨a, t, ha, h⟩ := expandView_told hw h
    exact .replaced (isPlain_of_view ha) h
  | syncSeeds view =>
    obtain ⟨a, t, ha, h⟩ := syncSeeds_told hw h
    exact .replaced (isPlain_of_view ha) h

theorem Operation.succeeds_iff {op : Operation} : op.Succeeds k w w' ↔ Gives (op.run k) w () w' := by
  cases op with
  | delete | setAttribute | syncSeeds => exact Iff.rfl
  | addChild | drop | expandView => exact gives_discard.symm

theorem changes_of_request (hw : w.Proper) {r : Request} (h : Gives r.run w () w') : Changes w r.tree w' := by
  cases r with
  | operate k op => exact changes_of_operation (hw.valid k) (hw.kind k) (Operation.succeeds_iff.2 h)
  | setAttributeText k u name text =>
    simp only [Request.run, setAttributeText, gives_bind] at h
    obtain ⟨f, v, hfield, h⟩ := h
    obtain rfl := field_ok hfield
    split at h
    · obtain ⟨t, ht, h⟩ := setAttribute_told (hw.valid k) (hw.kind k) h
      exact .attributes ht h
    · exact absurd h gives_throw
  | setArrayLength array length =>
    obtain ⟨a, t, h⟩ := setArrayLength_told (hw.valid _) h
    exact .replaced (isPlain_parameters hw h.mem) h
  | expandTable k table =>
    obtain ⟨e, h⟩ := gives_discard.1 h
    obtain rfl : k = .parameters := not_not.1 (gives_unless.1 h).1
    obtain ⟨a, t, h⟩ := expandTable_told (hw.valid _) h
    exact .replaced (isPlain_parameters hw h.mem) h

/-! ### Rows below nodes of one kind -/

section

variable {p q n c : Node} {row : Option Nat} {j : TreeKind} {top : Kind} (htop : top.IsTop j)
  {P : List (Uuid × Kind) → Prop} (hs : (w.tree k).RowsOf top P)
include htop

/-- What stands below the root only is the node that has come in itself. -/
theorem Inserted.eq_of_top (h : Inserted w k p row c w') {x : Node} (hx : x ∈ c.all) (hk : x.kind = top) : x = c := by
  refine (Node.mem_all.1 hx).resolve_right fun ⟨d, hd, hxd⟩ => ?_
  obtain ⟨hallows, hd⟩ := Node.allowed_iff.1 h.joins.2.2 d hd
  refine hd.kind_ne_of_top htop (fun hdk => ?_) (fun hdk => ?_) hxd hk
  · have hroot := h.allows
    rw [htop c.kind (hdk ▸ hallows), Kind.not_allows_rootKind] at hroot
    cases hroot
  · rw [hdk, Kind.not_allows_rootKind] at hallows
    cases hallows

include hs

/-- No such node is at or below a node of another kind, but for the root. -/
theorem Replaced.rowsOf {t : Tree} (h : Replaced w k a t w') (ha : a.kind ≠ top) (hr : a.kind ≠ j.rootKind) :
    (w'.tree k).RowsOf top P := by
  intro l hl hlk
  have hplain := Listing.isPlain_of_top htop hlk
  have hlt := (h.told.sameRows l hplain).1 hl
  obtain ⟨a', ha', hentry, hout⟩ := h.outside
  refine (hout l hlt hplain).elim (fun hmem => ?_) fun hold => hs l hold hlk
  obtain ⟨x, hx, hxu⟩ := Node.mem_uuids.1 hmem
  obtain rfl := Node.eq_listing_of_uuid h.told.valid.nodup hlt (Node.mem_all_trans hx ha') hxu.symm
  rw [← (Prod.mk.inj hentry).2] at ha hr
  exact absurd hlk ((h.told.valid.allowedRoot.of_mem ha').kind_ne_of_top htop ha hr hx)

variable (hw : (w.tree k).Valid)
include hw

theorem Inserted.rowsOf (h : Inserted w k p row c w') (hnew : c.kind = top → P c.listing.rows)
    (hin : p.kind = top → P (Listing.place (row.getD p.listing.rows.length) c.entry p.listing.rows)) :
    (w'.tree k).RowsOf top P := by
  intro l hl hlk
  rcases h.listing hw hl (Listing.isPlain_of_top htop hlk) with hlc | ⟨m, hm, rfl⟩
  · obtain ⟨x, hx, rfl⟩ := List.mem_map.1 hlc
    obtain rfl := h.eq_of_top htop hx hlk
    exact hnew hlk
  · rw [Listing.kind_withRow] at hlk
    by_cases hu : m.uuid = p.uuid
    · obtain rfl := Node.eq_listing_of_uuid hw.nodup hm h.mem hu
      rw [Listing.withRow, if_pos hu]
      exact hin hlk
    · rw [Listing.withRow_of_ne hu]
      exact hs m hm hlk

omit htop in
/-- Only the parent has other rows without a child. -/
theorem rowsOf_withoutAll (hq : q ∈ (w.tree k).all) (hn : n ∈ q.children)
    (hout : q.kind = top → P (q.listing.withoutAll [n.uuid]).rows) {m : Listing} (hm : m ∈ (w.tree k).listings)
    (hk : m.kind = top) : P (m.withoutAll [n.uuid]).rows := by
  by_cases hu : m.uuid = q.uuid
  · obtain rfl := Node.eq_listing_of_uuid hw.nodup hm hq hu
    exact hout hk
  · rw [Tree.withoutAll_of_ne hw.nodup hq hn hm hu]
    exact hs m hm hk

theorem Removed.rowsOf (h : Removed w k q n w') (hout : q.kind = top → P (q.listing.withoutAll [n.uuid]).rows) :
    (w'.tree k).RowsOf top P := by
  intro l hl hlk
  obtain ⟨m, hm, rfl⟩ := h.listing hl (Listing.isPlain_of_top htop hlk)
  exact rowsOf_withoutAll hs hw h.mem h.child hout hm hlk

/-- A move within the same rows, or from some to others. -/
theorem Moved.rowsOf (h : Moved w k q n p row w')
    (hwithin : p = q → q.kind = top → P (Listing.place (row.getD (q.listing.withoutAll [n.uuid]).rows.length) n.entry
      (q.listing.withoutAll [n.uuid]).rows))
    (hin : p ≠ q → p.kind = top → P (Listing.place (row.getD p.listing.rows.length) n.entry p.listing.rows))
    (hout : p ≠ q → q.kind = top → P (q.listing.withoutAll [n.uuid]).rows) : (w'.tree k).RowsOf top P := by
  intro l hl hlk
  obtain ⟨m, hm, rfl⟩ := h.listing hw hl (Listing.isPlain_of_top htop hlk)
  rw [Listing.kind_withRow, Listing.kind_withoutAll] at hlk
  by_cases hpq : p = q
  · subst hpq
    by_cases hu : m.uuid = p.uuid
    · obtain rfl := Node.eq_listing_of_uuid hw.nodup hm h.mem hu
      rw [Listing.withRow, if_pos (by exact hu)]
      exact hwithin rfl hlk
    · rw [Tree.withoutAll_of_ne hw.nodup h.mem h.child hm hu, Listing.withRow_of_ne hu]
      exact hs m hm hlk
  · by_cases hu : m.uuid = p.uuid
    · obtain rfl := Node.eq_listing_of_uuid hw.nodup hm h.target hu
      rw [Tree.withoutAll_of_ne hw.nodup h.mem h.child hm fun hu => hpq (Node.eq_of_uuid hw.nodup h.target h.mem hu),
        Listing.withRow, if_pos hu]
      exact hin hpq hlk
    · rw [Listing.withRow_of_ne (l := m.withoutAll [n.uuid]) hu]
      exact rowsOf_withoutAll hs hw h.mem h.child (hout hpq) hm hlk

end

/-! ### Runs -/

/-- A run of operations on the tree `k`, where those that succeed are as `P` says. Whatever else happens in
between leaves that tree alone. -/
inductive RunOf (k : TreeKind) (P : Workspace → Operation → Prop) (w : Workspace) : Workspace → Prop
  | start : RunOf k P w w
  | operate {v : Workspace} (op : Operation) : RunOf k P w v → (∀ v', op.Succeeds k v v' → P v op) →
      RunOf k P w (outcome (op.run k) v).2
  | elsewhere {v w' : Workspace} : RunOf k P w v → w'.tree k = v.tree k → RunOf k P w w'

/-- What holds of the tree and is kept by operations that succeed holds after a run. -/
theorem keeps_of_run {P : Workspace → Operation → Prop} {Q : Tree → Prop} (hw : (w.tree k).Valid)
    (hk : (w.tree k).kind = k) (hq : Q (w.tree k))
    (hstep : ∀ v v' op, (v.tree k).Valid → (v.tree k).kind = k → Q (v.tree k) → P v op → op.Succeeds k v v' →
      Q (v'.tree k)) (h : RunOf k P w w') : (w'.tree k).Valid ∧ (w'.tree k).kind = k ∧ Q (w'.tree k) := by
  induction h with
  | start => exact ⟨hw, hk, hq⟩
  | @operate v op _ hp ih =>
    obtain ⟨hv, hvk, hvq⟩ := ih
    rcases ho : outcome (op.run k) v with ⟨r, v'⟩
    cases r with
    | error x =>
      rw [(atomic_operation hv op x v' ho).trees k]
      exact ⟨hv, hvk, hvq⟩
    | ok _ =>
      have hrun : op.Succeeds k v v' := Operation.succeeds_iff.2 ho
      obtain ⟨es, t, htold⟩ := (changes_of_operation hv hvk hrun).told
      exact ⟨htold.validAfter.1, htold.validAfter.2.trans hvk, hstep v v' op hv hvk hvq (hp v' hrun) hrun⟩
  | elsewhere _ ht ih => rwa [ht]

/-- One operation after the other. -/
def operated (w : Workspace) (k : TreeKind) (ops : List Operation) : Workspace :=
  ops.foldl (fun w op => (outcome (op.run k) w).2) w

theorem run_operated {P : Workspace → Operation → Prop} {ops : List Operation} (h : ∀ op ∈ ops, ∀ v, P v op) :
    RunOf k P w (w.operated k ops) := by
  induction ops using List.reverseRecOn with
  | nil => exact .start
  | append_singleton ops op ih =>
    rw [operated, List.foldl_append]
    exact .operate op (ih fun op hop => h op (List.mem_append_left _ hop)) fun _ _ => h op (by simp) _

end Workspace

end DeviceModel
