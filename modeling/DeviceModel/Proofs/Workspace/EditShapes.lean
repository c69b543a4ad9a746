import DeviceModel.Proofs.Rules.ByHand
import DeviceModel.Proofs.Tree.Places
import DeviceModel.Proofs.Workspace.ArrayRows

/-!
What edits by hand make of a tree. Main statements: a child that is added is the last of its parent, and has its
stand-ins if it is a parameter in the first group of an array (`added_of_addChild`); a node that is deleted goes
with its stand-ins (`deleted_of_delete`); what is dropped is at its row, moved there or new
(`dropped_of_drop`).
-/

namespace DeviceModel

open Edit

/-! ### Trees -/

namespace Tree

/-- With the length of `p` in step if it is an array. -/
def recounted (t : Tree) (p : Node) : Tree := if p.kind = .array then t.edit p.uuid counted else t

/-- The elements of an array that take stand-ins for a new child of its first element `p`. -/
def followers (t : Tree) (p : Node) (kind : Kind) : List Uuid :=
  if t.isFirstElement p.uuid ∧ kind = .parameter then
    (((t.parent? p.uuid).map Node.children).getD []).tail.map Node.uuid
  else []

/-- `t'` has `c` as the last child of `p` besides, and stand-ins for it as the last children of what takes
them. -/
def Gains (t : Tree) (p c : Node) (t' : Tree) : Prop :=
  t'.Valid ∧ ∃ g, t' = { t with root := t.root.extend g } ∧ g p.uuid = [c] ∧
    (∀ v ∈ t.followers p c.kind, ∃ m, g v = [m] ∧ IsStandInFor c m ∧ m.uuid ∉ t.uuids) ∧
    ∀ v, v ≠ p.uuid → v ∉ t.followers p c.kind → g v = []

/-- `t'` has not got the child `n` of `p`, nor its stand-ins if `p` is the first group of an array. -/
def Loses (t : Tree) (p n : Node) (t' : Tree) : Prop :=
  t'.Valid ∧ ∃ us, t' = { t with root := t.root.withoutAll us } ∧
    ∀ x ∈ t.all, x.uuid ∈ us ↔ x = n ∨ ∃ a, t.IsShared a p n ∧ GoesWith a n x

/-- The node `p` lists `c` at `row`; last if there is no such row or none is given. -/
def Sits (t : Tree) (p c : Node) (row : Option Nat) : Prop :=
  ∃ l ∈ t.listings, l.uuid = p.uuid ∧ l.kind = p.kind ∧
    l.rows[min (row.getD l.rows.length) (l.rows.length - 1)]? = some c.entry

variable {t t' : Tree} {p n c : Node}

theorem recounted_of_ne (h : p.kind ≠ .array) : t.recounted p = t := if_neg h

theorem sameRows_recounted (t : Tree) (p : Node) : t.SameRows (t.recounted p) := by
  unfold recounted
  split
  · exact sameRows_counted p.uuid
  · exact .refl t

theorem followers_of_first (ht : t.uuids.Nodup) {a : Node} (ha : a ∈ t.all) (hp : p ∈ a.children)
    (hfirst : t.isFirstElement p.uuid = true) : t.followers p .parameter = a.children.tail.map Node.uuid := by
  rw [followers, if_pos ⟨hfirst, rfl⟩, parent?_of_child ht ha hp]
  rfl

/-- There are arrays in the parameter tree only. -/
theorem isFirstElement_of_kind (ht : t.Valid) (hk : t.kind ≠ .parameters) (hp : p ∈ t.all) :
    t.isFirstElement p.uuid = false := by
  refine Bool.eq_false_iff.2 fun h => ?_
  obtain ⟨a, ha, hak, -⟩ := exists_array_of_isFirstElement ht.nodup hp h
  rw [kind_of_mem ht ha, hak] at hk
  exact hk rfl

/-- A new child that nothing takes stand-ins for. -/
theorem gains_of_insert (ht : t.Valid) (hnone : t.followers p c.kind = [])
    (h : t.insert p.uuid none c = .ok t') : t.Gains p c t' := by
  refine ⟨ht.insert h, Node.solely p.uuid [c], insert_eq_extend ht h, Node.solely_self _ _, ?_, fun v hv _ => Node.solely_of_ne hv _⟩
  rw [hnone]
  simp

theorem sits_of_listing {row : Option Nat} {m : Node} (hm : m ∈ t.all)
    (h : m.listing = p.listing.withRow p.uuid row c.entry) : t.Sits p c row := by
  have hrows : m.listing.rows = Listing.place (row.getD p.listing.rows.length) c.entry p.listing.rows := by
    rw [h, Listing.withRow, if_pos (by rfl)]
  have hlength : m.listing.rows.length = p.listing.rows.length + 1 := by
    rw [hrows, ← Listing.place_min, Listing.place, List.length_append, List.length_cons,
      List.length_take_of_le (min_le_right ..), List.length_drop]
    omega
  have hrow : min (row.getD m.listing.rows.length) (m.listing.rows.length - 1) =
      min (row.getD p.listing.rows.length) p.listing.rows.length := by
    rw [hlength]
    cases row <;> simp
  refine ⟨m.listing, Node.listing_mem_listings hm, by rw [h]; exact Listing.uuid_withRow,
    by rw [h]; exact Listing.kind_withRow, ?_⟩
  rw [hrow, hrows, ← Listing.place_min]
  exact Listing.getElem?_place (min_le_right ..)

theorem sits_addChild (ht : t.uuids.Nodup) (hp : p ∈ t.all) (row : Option Nat) :
    (t.edit p.uuid fun m => m.addChild row c).Sits p c row := by
  have hself : p.addChild row c ∈ (t.edit p.uuid fun m => m.addChild row c).all :=
    Node.mem_edit_of_mem (f := fun m => m.addChild row c) ht hp rfl (Node.mem_all_self _)
  exact sits_of_listing hself (Node.listing_addChild p row c)

theorem sits_move (ht : t.Valid) (hn : n ∈ t.all) (hp : p ∈ t.all) {row : Option Nat}
    (h : t.move n.uuid p.uuid row = .ok t') : t'.Sits p n row := by
  have hsits := sits_of_listing (mem_all_move ht hn hp h) (Node.listing_addChild (p.without n.uuid) row n)
  rwa [Sits, Node.uuid_without, Node.kind_without] at hsits

/-- What has been gained is the last child. -/
theorem Gains.sits (h : t.Gains p c t') (hp : p ∈ t.all) : t'.Sits p c none := by
  obtain ⟨-, g, rfl, hc, -⟩ := h
  refine sits_of_listing (m := p.extend g) (Node.extend_mem_extend hp) ?_
  rw [Node.listing_extend, hc, Listing.withRow, if_pos (by rfl), Option.getD_none, Listing.place_of_le (Nat.le_refl _)]
  rfl

/-- A child of a node that is no first group of an array goes alone. -/
theorem loses_of_without (ht : t.Valid) (hn : n ∈ t.all) (hno : t.isFirstElement p.uuid = false)
    (hv : { t with root := t.root.without n.uuid : Tree }.Valid) :
    t.Loses p n { t with root := t.root.without n.uuid } := by
  refine ⟨hv, [n.uuid], rfl, fun x hx => ?_⟩
  rw [List.mem_singleton]
  constructor
  · exact fun hu => .inl (Node.eq_of_uuid ht.nodup hx hn hu)
  · rintro (rfl | ⟨a, hs, -⟩)
    · rfl
    · rw [(isFirstElement_iff ht.nodup).2 ⟨a, hs.array, hs.kind, p, hs.first, rfl⟩] at hno
      cases hno

/-- A member of the first group of the array `a` goes with its stand-ins. -/
theorem loses_of_standIns (ht : t.Valid) {a : Node} (hs : t.IsShared a p n)
    (hv : { t with root := t.root.withoutAll (Edit.standIns t a.uuid n.uuid ++ [n.uuid]) : Tree }.Valid) :
    t.Loses p n { t with root := t.root.withoutAll (Edit.standIns t a.uuid n.uuid ++ [n.uuid]) } := by
  have hn := mem_all_of_child hs.mem hs.child
  refine ⟨hv, _, rfl, fun x hx => (mem_standIns ht.nodup hs.array hn hx).trans ⟨fun h => .inr ⟨a, hs, h⟩, ?_⟩⟩
  rintro (rfl | ⟨b, hb, hgoes⟩)
  · exact .inr rfl
  · rwa [Node.parent_unique ht.nodup_root hs.array hb.array hs.element hb.element rfl]

end Tree

/-! ### Workspaces -/

namespace Workspace

variable {w w' : Workspace} {k : TreeKind} {p n c : Node} {t : Tree}

/-- The tree `t` has come in the place of `k`, laid out if it has a layout, and the others are as they were. -/
structure Becomes (w : Workspace) (k : TreeKind) (t : Tree) (w' : Workspace) : Prop where
  valid : t.Valid
  puts : ∃ s, s.Issued t.uuids ∧ w.Puts k (settled k t s) w'

/-- `c` is the last child of `p` now, a child of the kind as the rules make it. -/
structure Added (w : Workspace) (k : TreeKind) (p : Node) (kind : Kind) (c : Node) (w' : Workspace) : Prop where
  made : ∃ s s', Gives ((Rules.ofTree k).newChild (w.tree k) p kind (w.models.others k)) s c s'
  kind : c.kind = kind
  joins : c.Joins (w.tree k).uuids
  becomes : ∃ t, (w.tree k).Gains p c t ∧ w.Becomes k (t.recounted p) w'
  sits : (w'.tree k).Sits p c none

/-- `n` is gone from below `p`. -/
structure Deleted (w : Workspace) (k : TreeKind) (p n : Node) (w' : Workspace) : Prop where
  mem : p ∈ (w.tree k).all
  child : n ∈ p.children
  becomes : ∃ t, (w.tree k).Loses p n t ∧ w.Becomes k (t.recounted p) w'

/-- `c` is the child of `p` at `row`: it is `n` that has been moved, or what the rules make from `n`. -/
structure Dropped (w : Workspace) (k : TreeKind) (p n : Node) (row : Option Nat) (c : Node) (w' : Workspace) :
    Prop where
  source : (c = n ∧ n ∈ (w.tree k).all ∧ ∃ t, (w.tree k).move n.uuid p.uuid row = .ok t ∧ w.Becomes k t w') ∨
    (c.Joins (w.tree k).uuids ∧ p.kind.allows c.kind = true ∧
      (∃ s s', Gives ((Rules.ofTree k).childFrom (w.tree k) p n (w.models.others k)) s c s') ∧
      w.Becomes k ((w.tree k).edit p.uuid fun m => m.addChild row c) w')
  sits : (w'.tree k).Sits p c row

theorem Becomes.congr (h : w.Becomes k t w') {w₁ w₂ : Workspace} (h₁ : Untouched w₁ w) (h₂ : Untouched w' w₂) :
    w₁.Becomes k t w₂ := by
  obtain ⟨hv, s, hs, hput⟩ := h
  exact ⟨hv, s, hs, hput.congr h₁.trees h₂.trees⟩

theorem becomes_of_told {es : List ViewEvent} (h : Told w k es t w') : w.Becomes k t w' := ⟨h.valid, h.puts⟩

/-- Rows are not changed by a layout, those of references to repeating blocks aside. -/
theorem Becomes.sits (h : w.Becomes k t w') {t₀ : Tree} (hrows : t₀.SameRows t) {row : Option Nat}
    (hs : t₀.Sits p c row) (hp : p.listing.IsPlain) : (w'.tree k).Sits p c row := by
  obtain ⟨hv, s, hs₀, hput⟩ := h
  obtain ⟨l, hl, hu, hk, hrow⟩ := hs
  have hplain : l.IsPlain := by rwa [Listing.IsPlain, hk]
  rw [hput.tree]
  exact ⟨l, ((hrows.trans (sameRows_settled hv hs₀)) l hplain).2 hl, hu, hk, hrow⟩

theorem Becomes.exists_mem (h : w.Becomes k t w') (hn : n ∈ t.all) (hf : Tree.ReferenceFree n) :
    ∃ m ∈ (w'.tree k).all, m.uuid = n.uuid ∧ m.kind = n.kind ∧
      ∀ a : Attr, a.isLaidOut = false → m.data.get? a = n.data.get? a := by
  obtain ⟨hv, s, hs, hput⟩ := h
  rw [hput.tree]
  unfold Edit.settled
  split
  · exact Tree.exists_mem_relaidOut hv hs hn hf
  · exact ⟨n, hn, rfl, rfl, fun _ _ => rfl⟩

theorem Inserted.becomes (hw : (w.tree k).Valid) {row : Option Nat} (h : Inserted w k p row c w') :
    w.Becomes k ((w.tree k).edit p.uuid fun m => m.addChild row c) w' := by
  obtain ⟨hp, -, -, r, hr, htold⟩ := h
  have hsame : ((w.tree k).edit p.uuid fun m => m.addChild (some r) c) =
      (w.tree k).edit p.uuid fun m => m.addChild row c := by
    refine congrArg (Tree.mk (w.tree k).kind) (Node.edit_congr fun m hm hu => ?_)
    obtain rfl := Node.eq_of_uuid hw.nodup hm hp hu
    exact congrArg (Node.mk m.uuid m.data) (hr ▸ Listing.place_min)
  exact hsame ▸ becomes_of_told htold

end Workspace

namespace Edit

open Workspace

variable {w w' : Workspace} {k : TreeKind}

theorem becomes_of_transaction {scope : Uuid} {f : Tree → Edit (Tree × α)} (hf : Silent (f (w.tree k))) {a : α}
    (h : Gives (transaction k scope f) w a w') :
    ∃ t v, Gives (f (w.tree k)) w (t, a) v ∧ (t.Valid → w.Becomes k t w') := by
  obtain ⟨t, v, v₁, b, v₂, hrun, hc, ha, ha'⟩ := transaction_ok h
  refine ⟨t, v, hrun, fun ht => ?_⟩
  obtain ⟨s, hs, hput⟩ := puts_of_commit hc ht
  exact ⟨ht, s, hs, hput.congr (fun j => (ha j).trans ((hf.untouched hrun).trees j)) ha'⟩

/-! ### Adding -/

section

variable (hw : (w.tree .parameters).Valid)
include hw

/-- A new child of a node of the parameter tree. -/
theorem becomes_of_addParameter {p c : Node} (hp : p ∈ (w.tree .parameters).all) {u : Uuid}
    (h : Gives (addParameter p.uuid c) w u w') : u = c.uuid ∧ c.Joins (w.tree .parameters).uuids ∧
      ∃ t, (w.tree .parameters).Gains p c t ∧ w.Becomes .parameters (t.recounted p) w' := by
  have hnt := hw.nodup
  simp only [addParameter, gives_bind, gives_tree, gives_liftM] at h
  obtain ⟨_, _, ⟨rfl, rfl⟩, p', _, ⟨hfind, rfl⟩, h⟩ := h
  obtain ⟨hp', hpu⟩ := Tree.mem_of_find? (Tree.node_eq_ok.1 hfind)
  obtain rfl := Node.eq_of_uuid hnt hp hp' hpu.symm
  split at h
  · rename_i hplain
    have hinserted := inserted_of_insertNode hw hp h
    have hnone : (w.tree .parameters).followers p c.kind = [] := if_neg fun hf => by
      simp [show (w.models.tree .parameters).isFirstElement p.uuid = true from hf.1, hf.2] at hplain
    refine ⟨insertNode_uuid h, hinserted.joins, _, Tree.gains_of_insert hw hnone
      (Tree.insert_of_joins hnt hp hinserted.allows hinserted.joins none), ?_⟩
    rw [Tree.recounted_of_ne hplain.1]
    exact hinserted.becomes hw
  rename_i hspecial
  obtain ⟨t, v, hrun, hput⟩ := becomes_of_transaction (by
    refine silent_bind (silent_liftM _) fun t => ?_
    split
    · exact silent_pure _
    · refine silent_bind (silent_foldlM (fun t e => ?_) _ _) fun _ => silent_pure _
      exact silent_bind (silent_fresh _) fun _ => silent_liftM _) h
  by_cases hpk : p.kind = .array
  · simp only [gives_bind, gives_liftM, if_pos hpk, gives_pure, Prod.mk.injEq] at hrun
    obtain ⟨t₁, _, ⟨hinsert, rfl⟩, ⟨rfl, hu⟩, rfl⟩ := hrun
    have hv := hw.insert hinsert
    obtain ⟨-, -, -, -, hjoins, rfl⟩ := Tree.insert_ok hinsert
    have hno : (w.tree .parameters).isFirstElement p.uuid = false := Tree.isFirstElement_array hw hp hpk
    have hself : p.addChild none c ∈ ((w.tree .parameters).edit p.uuid (·.addChild none c)).all :=
      Node.mem_edit_of_mem (f := (·.addChild none c)) hnt hp rfl (Node.mem_all_self _)
    have hcounted := Tree.valid_counted hv hself
    refine ⟨hu.symm, hjoins, _, Tree.gains_of_insert hw (if_neg fun hf => ?_) hinsert, ?_⟩
    · rw [hno] at hf
      exact Bool.false_ne_true hf.1
    · rw [Tree.recounted, if_pos hpk]
      exact hput hcounted
  · have hshared : ((w.models.tree .parameters).isFirstElement p.uuid && c.kind == .parameter) = true := by
      simpa [hpk] using hspecial
    obtain ⟨hfirst, hk⟩ := Bool.and_eq_true_iff.1 hshared
    have hk := eq_of_beq hk
    obtain ⟨a, ha, hak, hhead⟩ := Tree.exists_array_of_isFirstElement hnt hp hfirst
    have hpa := List.mem_of_mem_head? hhead
    have hparent := Tree.parent?_of_child hnt ha hpa
    simp only [if_neg hpk, hshared, if_true, show (w.models.tree .parameters).parent? p.uuid = some a from hparent,
      Option.map_some, Option.getD_some] at hrun
    have hu : u = c.uuid := by
      simp only [gives_bind, gives_liftM, gives_pure, Prod.mk.injEq] at hrun
      obtain ⟨-, -, -, -, -, -, ⟨-, hu⟩, -⟩ := hrun
      exact hu.symm
    obtain ⟨-, hjoins, hv, g, rfl, hself, hg, hnone⟩ := extended_of_member hw ha hak hhead hrun
    have hfollowers : (w.tree .parameters).followers p c.kind = a.children.tail.map Node.uuid := by
      rw [hk]
      exact Tree.followers_of_first hnt ha hpa hfirst
    refine ⟨hu, hjoins, _, ⟨hv, g, rfl, hself, ?_, ?_⟩, ?_⟩
    · rwa [hfollowers]
    · rwa [hfollowers]
    · rw [Tree.recounted_of_ne hpk]
      exact hput hv

end

theorem added_of_addChild (hw : (w.tree k).Valid) (hk : (w.tree k).kind = k) {parent : Uuid} {kind : Kind} {u : Uuid}
    (h : Gives (addChild k parent kind) w u w') : ∃ p ∈ (w.tree k).all, p.uuid = parent ∧
      kind ∈ (Rules.ofTree k).addable (w.tree k) p ∧ ∃ c, c.uuid = u ∧ w.Added k p kind c w' := by
  obtain ⟨p, hp, rfl, hadd, c, s, s', hnew, v, hv, hrun⟩ := addChild_ok h
  obtain ⟨hck, -⟩ := Rules.produces_newChild k _ p kind _ s c s' hnew
  have hplain : p.listing.IsPlain := Node.isPlain_of_allows (Rules.allows_of_addable k hadd) (Rules.kind_of_addable hadd).2
  have hwv : (v.tree k).Valid := by rwa [hv.trees k]
  have hpv : p ∈ (v.tree k).all := by rwa [hv.trees k]
  obtain ⟨hu, hjoins, t, hgains, hbecomes⟩ : u = c.uuid ∧ c.Joins (v.tree k).uuids ∧
      ∃ t, (v.tree k).Gains p c t ∧ v.Becomes k (t.recounted p) w' := by
    split at hrun
    · subst k
      exact becomes_of_addParameter hwv hpv hrun
    · rename_i hne
      have hinserted := inserted_of_insertNode hwv hpv hrun
      have hnone : (v.tree k).followers p c.kind = [] := if_neg fun hf => by
        rw [Tree.isFirstElement_of_kind hwv (by rwa [hv.trees k, hk]) hpv] at hf
        exact Bool.false_ne_true hf.1
      refine ⟨insertNode_uuid hrun, hinserted.joins, _, Tree.gains_of_insert hwv hnone
        (Tree.insert_of_joins hwv.nodup hpv hinserted.allows hinserted.joins none), ?_⟩
      rw [Tree.recounted_of_ne fun hpk => hne ?_]
      · exact hinserted.becomes hwv
      · rw [← hk, Tree.kind_of_mem hw hp, hpk]
        rfl
  have hsits := hbecomes.sits (Tree.sameRows_recounted t p) (hgains.sits hpv) hplain
  rw [hv.trees k] at hjoins hgains
  exact ⟨p, hp, rfl, hadd, c, hu.symm, ⟨s, s', hnew⟩, hck, hjoins, ⟨t, hgains, hbecomes.congr hv (.refl w')⟩, hsits⟩

/-! ### Deleting -/

section

variable (hw : (w.tree .parameters).Valid)
include hw

theorem becomes_of_removeParameter {n : Node} (hn : n ∈ (w.tree .parameters).all) {a : Unit}
    (h : Gives (removeParameter n.uuid) w a w') : ∃ p ∈ (w.tree .parameters).all, n ∈ p.children ∧
      ∃ t, (w.tree .parameters).Loses p n t ∧ w.Becomes .parameters (t.recounted p) w' := by
  have hnt := hw.nodup
  simp only [removeParameter, gives_bind, gives_tree] at h
  obtain ⟨_, _, ⟨rfl, rfl⟩, h⟩ := h
  split at h
  · exact absurd h gives_throw
  rename_i p hparent
  obtain ⟨hp, m, hm, hmu⟩ := (Tree.parent?_eq_some hnt).1 hparent
  obtain rfl := Node.eq_of_uuid hnt (Tree.mem_all_of_child hp hm) hn hmu
  refine ⟨p, hp, hm, ?_⟩
  split at h
  · rename_i hplain
    obtain ⟨q, hremoved⟩ := removed_of_removeNode hw hn h
    obtain ⟨r, -, htold⟩ := hremoved.told
    have hno : (w.models.tree .parameters).isFirstElement p.uuid = false := by simpa using hplain.2
    refine ⟨_, Tree.loses_of_without hw hn hno htold.valid, ?_⟩
    rw [Tree.recounted_of_ne hplain.1]
    exact becomes_of_told htold
  rename_i hspecial
  obtain ⟨t, v, hrun, hput⟩ := becomes_of_transaction (by
    refine silent_bind (silent_foldlM (fun t u => ?_) _ _) fun _ => silent_pure _
    exact silent_bind (silent_liftM _) fun _ => silent_pure _) h
  simp only [gives_bind, gives_pure, Prod.mk.injEq] at hrun
  obtain ⟨t₁, _, hfold, ⟨rfl, -⟩, rfl⟩ := hrun
  obtain ⟨hv, rfl⟩ := withoutAll_of_detach hw hfold
  cases hfirst : (w.models.tree .parameters).isFirstElement p.uuid with
  | false =>
    have hpk : p.kind = .array := by simpa [hfirst] using hspecial
    simp only [hfirst, Bool.false_eq_true, if_false, List.nil_append, if_pos hpk] at hput hv
    refine ⟨_, Tree.loses_of_without hw hn hfirst hv, ?_⟩
    rw [Tree.recounted, if_pos hpk]
    have hstays : p.without m.uuid ∈ ((w.tree .parameters).root.without m.uuid).all := by
      refine Node.without_mem_without hp fun k hk hkm hpk => ?_
      obtain rfl := Node.eq_of_uuid hnt hk hn hkm
      exact absurd (Node.length_all_le hpk) (Nat.not_le.2 (Node.length_all_lt_of_child hm))
    have hcounted := Tree.valid_counted hv hstays
    rw [Node.uuid_without] at hcounted
    exact hput hcounted
  | true =>
    obtain ⟨a, ha, hak, hhead⟩ := Tree.exists_array_of_isFirstElement hnt hp hfirst
    have hs : (w.tree .parameters).IsShared a p m := ⟨ha, hak, hhead, hm⟩
    have hscope : (w.models.tree .parameters).parent? p.uuid = some a := Tree.parent?_of_child hnt ha hs.element
    have hpk : p.kind ≠ .array := fun hk => by
      rw [show (w.models.tree .parameters).isFirstElement p.uuid = false from Tree.isFirstElement_array hw hp hk] at hfirst
      cases hfirst
    simp only [hfirst, if_true, hscope, Option.map_some, Option.getD_some, if_neg hpk] at hput hv
    refine ⟨_, Tree.loses_of_standIns hw hs hv, ?_⟩
    rw [Tree.recounted_of_ne hpk]
    exact hput hv

end

theorem deleted_of_delete (hw : (w.tree k).Valid) (hk : (w.tree k).kind = k) {u : Uuid}
    (h : Gives (delete k u) w () w') : ∃ n ∈ (w.tree k).all, n.uuid = u ∧ u ≠ (w.tree k).root.uuid ∧
      (Rules.ofTree k).canDelete (w.tree k) n = true ∧ ∃ p, w.Deleted k p n w' := by
  obtain ⟨n, hn, rfl, hcan, hrun⟩ := delete_ok h
  suffices hdeleted : ∃ p, w.Deleted k p n w' by
    obtain ⟨p, hd⟩ := hdeleted
    obtain ⟨-, -, -, hr⟩ := mem_of_parent? hw.nodup (Tree.parent?_of_child hw.nodup hd.mem hd.child)
    exact ⟨n, hn, rfl, hr, hcan, p, hd⟩
  split at hrun
  · subst k
    obtain ⟨p, hp, hnp, hbecomes⟩ := becomes_of_removeParameter hw hn hrun
    exact ⟨p, hp, hnp, hbecomes⟩
  · rename_i hne
    obtain ⟨p, hremoved⟩ := removed_of_removeNode hw hn hrun
    obtain ⟨r, -, htold⟩ := hremoved.told
    refine ⟨p, hremoved.mem, hremoved.child, _, Tree.loses_of_without hw hn
      (Tree.isFirstElement_of_kind hw (by rwa [hk]) hremoved.mem) htold.valid, ?_⟩
    rw [Tree.recounted_of_ne fun hpk => hne ?_]
    · exact becomes_of_told htold
    · rw [← hk, Tree.kind_of_mem hw hremoved.mem, hpk]
      rfl

/-! ### Dropping -/

theorem dropped_of_drop (hw : (w.tree k).Valid) {payload : List Nat} {target : Uuid} {row : Option Nat} {u : Uuid}
    (h : Gives (drop k payload target row) w u w') : ∃ p n c, w.Accepts k payload p n ∧ p.uuid = target ∧ c.uuid = u ∧
      w.Dropped k p n row c w' := by
  obtain ⟨source, p, n, hpayload, hp, rfl, hknown, hfound, hdrop, hdone⟩ := drop_ok hw h
  obtain ⟨hlength, rfl⟩ := readPayload_ok hpayload
  have haccepts : w.Accepts k payload p n := ⟨hlength, hp, hfound, hknown, hdrop⟩
  rcases hdone with ⟨⟨hn, rfl⟩, hcan, q, hmoved⟩ | ⟨hcopy, c, s, s', hnew, hinserted, rfl⟩
  · obtain ⟨r, t, -, hmove, htold⟩ := hmoved.told
    have hmade := Tree.isMade_of_not_isGenerated hw hn (Rules.not_isDerived_of_canMove hw hp hcan).1
    obtain ⟨n', hn', p', hp', hnu, hpu', -, -, -, hallows, -⟩ := Tree.move_ok hmove
    obtain rfl := Node.eq_of_uuid hw.nodup hn' hn hnu
    obtain rfl := Node.eq_of_uuid hw.nodup hp' hp hpu'
    have hbecomes := becomes_of_told htold
    refine ⟨p', n', n', haccepts, rfl, rfl, .inl ⟨rfl, hn, t, hmove, hbecomes⟩, ?_⟩
    exact hbecomes.sits (.refl t) (Tree.sits_move hw hn hp hmove) (Node.isPlain_of_allows hallows hmade)
  · have hmade := Rules.isMade_of_allows (Rules.kind_of_childFrom hdrop hcopy hnew).1 hinserted.allows
    have hbecomes := hinserted.becomes hw
    refine ⟨p, n, c, haccepts, rfl, rfl, .inr ⟨hinserted.joins, hinserted.allows, ⟨s, s', hnew⟩, hbecomes⟩, ?_⟩
    exact hbecomes.sits (.refl _) (Tree.sits_addChild hw.nodup hp row) (Node.isPlain_of_allows hinserted.allows hmade)

end Edit

end DeviceModel
