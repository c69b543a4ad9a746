import DeviceModel.Proofs.Register.Rows
import DeviceModel.Proofs.Workspace.ArrayEdits

/-!
Edits of one row, and what views of a tree are told of them. Main statements: an edit that puts in a node,
takes one out or moves one tells of that row (`insertNode_told`, `removeNode_told`, `moveNode_told`), and a
transaction of all rows below its scope (`transaction_told`); what adding, deleting and dropping do when they
succeed (`addChild_ok`, `delete_ok`, `drop_ok`), and what each of that leaves of the rows of a tree
(`Inserted.listing`, `Removed.listing`, `Moved.listing`).
-/

namespace DeviceModel

/-- Whether views are told of attributes, and not of rows. -/
def ViewEvent.isData : ViewEvent → Bool
  | .dataChanged .. => true
  | _ => false

namespace Edit

open Workspace

variable {w w' : Workspace} {k : TreeKind}

/-- The tree `t` has been put in the place of `k` and laid out. Views have been told `es`, and of
attributes. -/
structure Told (w : Workspace) (k : TreeKind) (es : List ViewEvent) (t : Tree) (w' : Workspace) : Prop where
  valid : t.Valid
  kind : t.kind = (w.tree k).kind
  puts : ∃ s, s.Issued t.uuids ∧ w.Puts k (settled k t s) w'
  events : ∃ ds : List ViewEvent, (∀ d ∈ ds, d.isData = true) ∧ w'.events = w.events ++ (es ++ ds).map (k, ·)

section

variable {es : List ViewEvent} {t : Tree}

/-- The same before and after steps that neither change a tree nor tell of one. -/
theorem Told.congr (h : Told w k es t w') {v v' : Workspace} (hv : Untouched v w) (hv' : Untouched w' v') :
    Told v k es t v' := by
  obtain ⟨s, hs, hput⟩ := h.puts
  obtain ⟨ds, hds, he⟩ := h.events
  exact ⟨h.valid, h.kind.trans (congrArg Tree.kind (hv.trees k)), ⟨s, hs, hput.congr hv.trees hv'.trees⟩, ds, hds,
    by rw [hv'.events, he, hv.events]⟩

theorem sameRows_settled (ht : t.Valid) {s : Supply} (hs : s.Issued t.uuids) : t.SameRows (settled k t s) := by
  unfold settled
  split
  · exact Tree.sameRows_relaidOut ht hs
  · exact .refl t

theorem Told.sameRows (h : Told w k es t w') : t.SameRows (w'.tree k) := by
  obtain ⟨s, hs, hput⟩ := h.puts
  rw [hput.tree]
  exact sameRows_settled h.valid hs

theorem Told.others (h : Told w k es t w') {j : TreeKind} (hj : j ≠ k) : w'.tree j = w.tree j := by
  obtain ⟨s, -, hput⟩ := h.puts
  exact hput.others j hj

theorem Told.validAfter (h : Told w k es t w') : (w'.tree k).Valid ∧ (w'.tree k).kind = (w.tree k).kind := by
  obtain ⟨s, hs, hput⟩ := h.puts
  rw [hput.tree]
  exact ⟨valid_settled h.valid hs, (kind_settled h.valid hs).trans h.kind⟩

end

/-! ### Edits of one row -/

theorem commit_events {t : Tree} {a : Unit} (h : Gives (commit k t) w a w') :
    ∃ ds : List ViewEvent, (∀ d ∈ ds, d.isData = true) ∧ w'.events = w.events ++ ds.map (k, ·) := by
  simp only [commit, gives_bind, gives_model] at h
  obtain ⟨_, _, ⟨rfl, rfl⟩, _, v, hv, h⟩ := h
  rw [gives_setModel] at hv
  subst hv
  split at h
  · simp only [gives_bind, gives_build, gives_setModel, gives_tell] at h
    obtain ⟨t', _, ⟨s, -, rfl⟩, _, _, rfl, rfl⟩ := h
    exact ⟨[.dataChanged t'.root.uuid t'.root.uuid], by simp [ViewEvent.isData], rfl⟩
  · rw [gives_pure] at h
    obtain ⟨-, rfl⟩ := h
    exact ⟨[], by simp, by simp [withModel]⟩

/-- Views are told, and then the tree is put in place. -/
theorem told_of_commit {es : List ViewEvent} {t : Tree} {v v' : Workspace} {a : Unit}
    (hc : Gives (commit k t) v a v') (ht : t.Valid) (hk : t.kind = (w.tree k).kind) (hv : Alike w v)
    (he : v.events = w.events ++ es.map (k, ·)) (hv' : Untouched v' w') : Told w k es t w' := by
  obtain ⟨s, hs, hput⟩ := puts_of_commit hc ht
  obtain ⟨ds, hds, hev⟩ := commit_events hc
  refine ⟨ht, hk, ⟨s, hs, hput.congr (fun j => hv j) hv'.trees⟩, ds, hds, ?_⟩
  rw [hv'.events, hev, he, List.map_append, List.append_assoc]

section

variable (hw : (w.tree k).Valid)
include hw

theorem insertNode_told {p n : Node} (hp : p ∈ (w.tree k).all) {row : Option Nat} {u : Uuid}
    (h : Gives (insertNode k p.uuid row n) w u w') :
    p.kind.allows n.kind = true ∧ n.Joins (w.tree k).uuids ∧ ∃ r, r = min (row.getD p.children.length) p.children.length ∧
      Told w k [.beginInsert p.uuid r r, .endInsert] ((w.tree k).edit p.uuid fun m => m.addChild (some r) n) w' := by
  simp only [insertNode, gives_bind, gives_tree, gives_tell, gives_liftM, gives_pure] at h
  obtain ⟨_, _, ⟨rfl, rfl⟩, p', _, ⟨hfind, rfl⟩, _, _, rfl, _, _, rfl, t, _, ⟨ht, rfl⟩, a, _, hc, -, rfl⟩ := h
  obtain ⟨hp', hpu⟩ := Tree.mem_of_find? (Tree.node_eq_ok.1 hfind)
  obtain rfl := Node.eq_of_uuid hw.nodup hp' hp hpu
  have hvalid := hw.insert ht
  obtain ⟨p, hpm, hpu, hallows, hjoins, rfl⟩ := Tree.insert_ok ht
  obtain rfl := Node.eq_of_uuid hw.nodup hpm hp' hpu
  refine ⟨hallows, hjoins, _, rfl, told_of_commit hc hvalid rfl (fun _ => rfl) ?_ (.refl _)⟩
  simp [withEvents]

theorem removeNode_told {u : Uuid} {a : Unit} (h : Gives (removeNode k u) w a w') :
    ∃ p ∈ (w.tree k).all, ∃ n ∈ p.children, n.uuid = u ∧ ∃ r, p.children[r]? = some n ∧
      Told w k [.beginRemove p.uuid r r, .endRemove] { w.tree k with root := (w.tree k).root.without u } w' := by
  simp only [removeNode, gives_bind, gives_tree, gives_tell, gives_liftM] at h
  obtain ⟨_, _, ⟨rfl, rfl⟩, p, _, ⟨hparent, rfl⟩, _, _, rfl, _, _, rfl, ⟨n, t⟩, _, ⟨ht, rfl⟩, hc⟩ := h
  have hparent := parentOf_ok hparent
  obtain ⟨hp, m, hm, rfl⟩ := (Tree.parent?_eq_some hw.nodup).1 hparent
  have hvalid := hw.detach ht
  obtain ⟨-, -, -, rfl⟩ := Tree.detach_ok ht
  obtain ⟨r, hr, hrow⟩ := Tree.row?_of_child hw.nodup hp hm
  refine ⟨p, hp, m, hm, rfl, r, hrow, told_of_commit hc hvalid rfl (fun _ => rfl) ?_ (.refl _)⟩
  rw [show (w.models.tree k).row? m.uuid = some r from hr]
  simp [withEvents]

theorem moveNode_told {u parent : Uuid} {row : Option Nat} {a : Unit} (h : Gives (moveNode k u parent row) w a w') :
    ∃ q ∈ (w.tree k).all, ∃ n ∈ q.children, n.uuid = u ∧ ∃ r, q.children[r]? = some n ∧
      ∃ t, (w.tree k).move u parent row = .ok t ∧
        Told w k [.beginMove q.uuid r r parent (row.getD ((w.tree k).children parent).length), .endMove] t w' := by
  simp only [moveNode, gives_bind, gives_tree, gives_tell, gives_liftM] at h
  obtain ⟨_, _, ⟨rfl, rfl⟩, p, _, ⟨hparent, rfl⟩, _, _, rfl, _, _, rfl, t, _, ⟨ht, rfl⟩, hc⟩ := h
  have hparent := parentOf_ok hparent
  obtain ⟨hp, m, hm, rfl⟩ := (Tree.parent?_eq_some hw.nodup).1 hparent
  have hvalid := hw.move ht
  obtain ⟨r, hr, hrow⟩ := Tree.row?_of_child hw.nodup hp hm
  refine ⟨p, hp, m, hm, rfl, r, hrow, t, ht, told_of_commit hc hvalid ?_ (fun _ => rfl) ?_ (.refl _)⟩
  · obtain ⟨-, -, -, -, -, -, -, -, -, -, rfl⟩ := Tree.move_ok ht
    rfl
  · rw [show (w.models.tree k).row? m.uuid = some r from hr]
    simp [withEvents, Workspace.tree]

end

/-! ### Transactions -/

/-- That all rows below `scope` are others. -/
def replaced (scope : Uuid) (old new : Nat) : List ViewEvent :=
  (if 0 < old then [.beginRemove scope 0 (old - 1), .endRemove] else []) ++
    if 0 < new then [.beginInsert scope 0 (new - 1), .endInsert] else []

theorem transaction_told {scope : Uuid} {f : Tree → Edit (Tree × α)} {a : α}
    (h : Gives (transaction k scope f) w a w') (hf : ∀ t b v, Gives (f (w.tree k)) w (t, b) v →
      t.Valid ∧ t.kind = (w.tree k).kind ∧ Untouched w v) :
    ∃ t v, Gives (f (w.tree k)) w (t, a) v ∧
      Told w k (replaced scope ((w.tree k).children scope).length (t.children scope).length) t w' := by
  simp only [transaction, gives_bind, gives_tree] at h
  obtain ⟨_, _, ⟨rfl, rfl⟩, ⟨t, a'⟩, v, hrun, h⟩ := h
  rw [gives_announce, gives_announce] at h
  simp only [gives_bind, gives_logNode, gives_pure] at h
  obtain ⟨b, v₂, hc, _, _, rfl, rfl, rfl⟩ := h
  obtain ⟨hvalid, hkind, huntouched⟩ := hf _ _ _ hrun
  refine ⟨t, v, hrun, told_of_commit hc hvalid hkind (fun j => huntouched.trees j) ?_ ⟨fun _ => rfl, rfl⟩⟩
  have hmap : ∀ (c : Prop) [Decidable c] (es : List ViewEvent),
      (if c then es else []).map (k, ·) = if c then es.map (k, ·) else [] := by
    intro c _ es
    split <;> rfl
  simp only [withEvents, huntouched.events, replaced, List.map_append, List.append_assoc, hmap]
  rfl

end Edit

/-! ### Rows that are put in, taken out and moved -/

namespace Workspace

open Edit

/-- `c` has become a child of `p` at `row`. -/
structure Inserted (w : Workspace) (k : TreeKind) (p : Node) (row : Option Nat) (c : Node) (w' : Workspace) :
    Prop where
  mem : p ∈ (w.tree k).all
  allows : p.kind.allows c.kind = true
  joins : c.Joins (w.tree k).uuids
  told : ∃ r, r = min (row.getD p.children.length) p.children.length ∧
    Told w k [.beginInsert p.uuid r r, .endInsert] ((w.tree k).edit p.uuid fun m => m.addChild (some r) c) w'

/-- `n` has been taken from below `p`. -/
structure Removed (w : Workspace) (k : TreeKind) (p n : Node) (w' : Workspace) : Prop where
  mem : p ∈ (w.tree k).all
  child : n ∈ p.children
  told : ∃ r, p.children[r]? = some n ∧ Told w k [.beginRemove p.uuid r r, .endRemove]
    { w.tree k with root := (w.tree k).root.without n.uuid } w'

/-- `n` has been moved from below `q` to below `p` at `row`. -/
structure Moved (w : Workspace) (k : TreeKind) (q n p : Node) (row : Option Nat) (w' : Workspace) : Prop where
  mem : q ∈ (w.tree k).all
  child : n ∈ q.children
  target : p ∈ (w.tree k).all
  told : ∃ r t, q.children[r]? = some n ∧ (w.tree k).move n.uuid p.uuid row = .ok t ∧
    Told w k [.beginMove q.uuid r r p.uuid (row.getD p.children.length), .endMove] t w'

variable {w w' v v' : Workspace} {k : TreeKind} {p q n c : Node} {row : Option Nat}

theorem Inserted.congr (h : Inserted w k p row c w') (hv : Untouched v w) (hv' : Untouched w' v') :
    Inserted v k p row c v' := by
  obtain ⟨hmem, hallows, hjoins, r, hr, htold⟩ := h
  have htold := htold.congr hv hv'
  rw [hv.trees k] at hmem hjoins htold
  exact ⟨hmem, hallows, hjoins, r, hr, htold⟩

theorem Moved.congr (h : Moved w k q n p row w') (hv' : Untouched w' v') : Moved w k q n p row v' := by
  obtain ⟨hmem, hchild, htarget, r, t, hr, ht, htold⟩ := h
  exact ⟨hmem, hchild, htarget, r, t, hr, ht, htold.congr (.refl w) hv'⟩

theorem Inserted.exists_told (h : Inserted w k p row c w') : ∃ es t, Told w k es t w' :=
  h.told.elim fun _ h => ⟨_, _, h.2⟩

theorem Removed.exists_told (h : Removed w k p n w') : ∃ es t, Told w k es t w' :=
  h.told.elim fun _ h => ⟨_, _, h.2⟩

theorem Moved.exists_told (h : Moved w k q n p row w') : ∃ es t, Told w k es t w' :=
  h.told.elim fun _ h => h.elim fun _ h => ⟨_, _, h.2.2⟩

/-- The node that is found for `source`: of the tree itself, or of another one. -/
def dropped? (w : Workspace) (k : TreeKind) (source : Uuid) : Option Node :=
  Lookup.node? (w.tree k :: w.models.others k) source

/-- The drop of `n` on `p` is accepted: the payload is the identifier of `n`, which is found in the tree or in
one that the tree takes drops from, and the rules allow it. -/
structure Accepts (w : Workspace) (k : TreeKind) (payload : List Nat) (p n : Node) : Prop where
  length : payload.length = 16
  target : p ∈ (w.tree k).all
  found : w.dropped? k (.ofBytes payload) = some n
  known : n ∈ (w.tree k).all ∨ (w.models.get k).acceptsDropsFrom n.kind.tree = true
  allowed : (Rules.ofTree k).canDrop (w.tree k) p n = true

/-! ### What is listed -/

section

variable (hw : (w.tree k).Valid) {l : Listing} (hl : l ∈ (w'.tree k).listings) (hp : l.IsPlain)
include hw hl hp

theorem Inserted.listing (h : Inserted w k p row c w') :
    l ∈ c.listings ∨ ∃ m ∈ (w.tree k).listings, l = m.withRow p.uuid row c.entry := by
  obtain ⟨r, hr, htold⟩ := h.told
  refine (Node.mem_listings_addChild hw.nodup_root ((htold.sameRows l hp).1 hl)).imp_right ?_
  rintro ⟨m, hm, rfl⟩
  refine ⟨m, hm, ?_⟩
  by_cases hmp : m.uuid = p.uuid
  · obtain rfl := Node.eq_listing_of_uuid hw.nodup_root hm h.mem hmp
    have hlength : p.children.length = p.listing.rows.length := (List.length_map _).symm
    rw [hr, hlength, Listing.withRow, Listing.withRow, if_pos hmp, if_pos hmp, Option.getD_some, Listing.place_min]
  · rw [Listing.withRow_of_ne hmp, Listing.withRow_of_ne hmp]

omit hw in
theorem Removed.listing (h : Removed w k p n w') :
    ∃ m ∈ (w.tree k).listings, l = m.withoutAll [n.uuid] := by
  obtain ⟨r, -, htold⟩ := h.told
  exact Node.mem_listings_without ((htold.sameRows l hp).1 hl)

theorem Moved.listing (h : Moved w k q n p row w') :
    ∃ m ∈ (w.tree k).listings, l = (m.withoutAll [n.uuid]).withRow p.uuid row n.entry := by
  obtain ⟨r, t, -, ht, htold⟩ := h.told
  obtain ⟨n', hn', hu, m, hm, rfl⟩ := Tree.mem_listings_move hw ht ((htold.sameRows l hp).1 hl)
  obtain rfl := Node.eq_of_uuid hw.nodup hn' (Tree.mem_all_of_child h.mem h.child) hu
  exact ⟨m, hm, rfl⟩

end

end Workspace

namespace Edit

open Workspace

variable {w w' : Workspace} {k : TreeKind} (hw : (w.tree k).Valid)

theorem readPayload_ok {payload : List Nat} {u : Uuid} (h : readPayload payload = .ok u) :
    payload.length = 16 ∧ u = .ofBytes payload := by
  unfold readPayload at h
  split at h
  · exact ⟨‹_›, (Except.ok.inj h).symm⟩
  · cases h

theorem dropped?_of_dropSource {target n : Node} {source : Uuid} {internal : Bool}
    (h : Gives (dropSource k target source) w (n, internal) w') : w.dropped? k source = some n := by
  simp only [dropSource, gives_bind, gives_models] at h
  obtain ⟨_, _, ⟨rfl, rfl⟩, h⟩ := h
  rw [dropped?, Lookup.node?, List.findSome?_cons]
  split at h
  · rename_i m hm
    obtain ⟨hpair, -⟩ := gives_pure.1 h
    cases hpair
    rw [show (w.tree k).find? source = some n from hm]
  · rename_i hnone
    simp only [gives_bind, gives_liftM, gives_unless_told, gives_pure] at h
    obtain ⟨m, _, ⟨hm, rfl⟩, -, hpair, -⟩ := h
    cases hpair
    rw [show (w.tree k).find? source = none from hnone]
    unfold Lookup.node at hm
    split at hm
    · rename_i m hm'
      cases hm
      exact hm'
    · cases hm

/-- What is dropped stands in the tree, or comes from one that the tree takes drops from. -/
theorem accepted_of_dropSource {target n : Node} {source : Uuid} {internal : Bool}
    (h : Gives (dropSource k target source) w (n, internal) w') :
    n ∈ (w.tree k).all ∨ (w.models.get k).acceptsDropsFrom n.kind.tree = true := by
  obtain ⟨rfl, -, hmem⟩ := internal_of_dropSource h
  simp only [dropSource, gives_bind, gives_models] at h
  obtain ⟨_, _, ⟨rfl, rfl⟩, h⟩ := h
  split at h
  · obtain ⟨hpair, -⟩ := gives_pure.1 h
    cases hpair
    exact .inl (hmem rfl)
  · simp only [gives_bind, gives_liftM, gives_unless_told, gives_pure] at h
    obtain ⟨m, _, ⟨-, rfl⟩, haccepts, hpair, -⟩ := h
    cases hpair
    exact .inr (by simpa using haccepts)

include hw

theorem inserted_of_insertNode {p n : Node} (hp : p ∈ (w.tree k).all) {row : Option Nat} {u : Uuid}
    (h : Gives (insertNode k p.uuid row n) w u w') : Inserted w k p row n w' := by
  obtain ⟨hallows, hjoins, r, hr, htold⟩ := insertNode_told hw hp h
  exact ⟨hp, hallows, hjoins, r, hr, htold⟩

omit hw in
theorem insertNode_uuid {parent : Uuid} {row : Option Nat} {n : Node} {u : Uuid}
    (h : Gives (insertNode k parent row n) w u w') : u = n.uuid := by
  simp only [insertNode, gives_bind, gives_tree, gives_tell, gives_liftM, gives_pure] at h
  obtain ⟨_, _, -, p, _, -, _, _, -, _, _, -, t, _, -, a, _, -, hu, -⟩ := h
  exact hu.symm

theorem removed_of_removeNode {n : Node} (hn : n ∈ (w.tree k).all) {a : Unit}
    (h : Gives (removeNode k n.uuid) w a w') : ∃ p, Removed w k p n w' := by
  obtain ⟨p, hp, m, hm, hmu, r, hr, htold⟩ := removeNode_told hw h
  obtain rfl := Node.eq_of_uuid hw.nodup (Tree.mem_all_of_child hp hm) hn hmu
  exact ⟨p, hp, hm, r, hr, htold⟩

theorem moved_of_moveNode {n p : Node} (hn : n ∈ (w.tree k).all) (hp : p ∈ (w.tree k).all) {row : Option Nat}
    {a : Unit} (h : Gives (moveNode k n.uuid p.uuid row) w a w') : ∃ q, Moved w k q n p row w' := by
  obtain ⟨q, hq, m, hm, hmu, r, hr, t, ht, htold⟩ := moveNode_told hw h
  obtain rfl := Node.eq_of_uuid hw.nodup (Tree.mem_all_of_child hq hm) hn hmu
  rw [Tree.children, Tree.find?_of_mem hw.nodup hp] at htold
  exact ⟨q, hq, hm, hp, r, t, hr, ht, htold⟩

omit hw in
/-- A child of a kind that is offered is new. -/
theorem addChild_ok {parent : Uuid} {kind : Kind} {u : Uuid} (h : Gives (addChild k parent kind) w u w') :
    ∃ p ∈ (w.tree k).all, p.uuid = parent ∧ kind ∈ (Rules.ofTree k).addable (w.tree k) p ∧
      ∃ c s s', Gives ((Rules.ofTree k).newChild (w.tree k) p kind (w.models.others k)) s c s' ∧
        ∃ v, Untouched w v ∧
          Gives (if k = .parameters then addParameter parent c else insertNode k parent none c) v u w' := by
  simp only [addChild, gives_bind, gives_models, gives_liftM, gives_unless, gives_build] at h
  obtain ⟨_, _, ⟨rfl, rfl⟩, p, _, ⟨hfind, rfl⟩, hoffered, c, _, ⟨s, hnew, rfl⟩, h⟩ := h
  obtain ⟨hp, hpu⟩ := Tree.mem_of_find? (Tree.node_eq_ok.1 hfind)
  have hmem : kind ∈ (Rules.ofTree k).addable (w.tree k) p := by simpa [Workspace.tree] using hoffered
  exact ⟨p, hp, hpu, hmem, c, _, s, hnew, w.withSupply s, ⟨fun _ => rfl, rfl⟩, h⟩

omit hw in
theorem delete_ok {u : Uuid} (h : Gives (delete k u) w () w') :
    ∃ n ∈ (w.tree k).all, n.uuid = u ∧ (Rules.ofTree k).canDelete (w.tree k) n = true ∧
      Gives (if k = .parameters then removeParameter u else removeNode k u) w () w' := by
  simp only [delete, gives_bind, gives_tree, gives_liftM, gives_unless_told] at h
  obtain ⟨_, _, ⟨rfl, rfl⟩, n, _, ⟨hfind, rfl⟩, hcan, h⟩ := h
  obtain ⟨hn, hu⟩ := Tree.mem_of_find? (Tree.node_eq_ok.1 hfind)
  rw [not_or, Bool.not_eq_true', Bool.not_eq_false] at hcan
  exact ⟨n, hn, hu, hcan.2, h⟩

/-- In other trees than that of the parameters it comes in as it is. -/
theorem addChild_inserted (hk : k ≠ .parameters) {parent : Uuid} {kind : Kind} {u : Uuid}
    (h : Gives (addChild k parent kind) w u w') : ∃ p c, kind ∈ (Rules.ofTree k).addable (w.tree k) p ∧
      (∃ s s', Gives ((Rules.ofTree k).newChild (w.tree k) p kind (w.models.others k)) s c s') ∧
        Inserted w k p none c w' := by
  obtain ⟨p, hp, rfl, hadd, c, s, s', hnew, v, hv, hrun⟩ := addChild_ok h
  rw [if_neg hk] at hrun
  rw [← hv.trees k] at hw hp
  exact ⟨p, c, hadd, ⟨s, s', hnew⟩, (inserted_of_insertNode hw hp hrun).congr hv (.refl w')⟩

/-- What is dropped is moved, or a child is made from it. -/
theorem drop_ok {payload : List Nat} {target : Uuid} {row : Option Nat} {u : Uuid}
    (h : Gives (drop k payload target row) w u w') :
    ∃ source p n, readPayload payload = .ok source ∧ p ∈ (w.tree k).all ∧ p.uuid = target ∧
      (n ∈ (w.tree k).all ∨ (w.models.get k).acceptsDropsFrom n.kind.tree = true) ∧
      w.dropped? k source = some n ∧ (Rules.ofTree k).canDrop (w.tree k) p n = true ∧
        (((n ∈ (w.tree k).all ∧ u = n.uuid) ∧ (w.tree k).canMove p n = true ∧ ∃ q, Moved w k q n p row w') ∨
          ((w.tree k).contains n.uuid = true → (Rules.ofTree k).moves (w.tree k) p n = false) ∧
            ∃ c s s', Gives ((Rules.ofTree k).childFrom (w.tree k) p n (w.models.others k)) s c s' ∧
              Inserted w k p row c w' ∧ u = c.uuid) := by
  simp only [drop, dropNode, gives_bind, gives_models, gives_liftM, gives_unless_told] at h
  obtain ⟨source, _, ⟨hpayload, rfl⟩, _, _, ⟨rfl, rfl⟩, p, _, ⟨hfind, rfl⟩, ⟨n, internal⟩, _, hsource, hdrop, h⟩ := h
  obtain ⟨hp, hpu⟩ := Tree.mem_of_find? (Tree.node_eq_ok.1 hfind)
  have haccepted := accepted_of_dropSource hsource
  have hfound := dropped?_of_dropSource hsource
  obtain ⟨rfl, hinternal, hmem⟩ := internal_of_dropSource hsource
  rw [Bool.not_eq_true', Bool.not_eq_false] at hdrop
  refine ⟨source, p, n, hpayload, hp, hpu, haccepted, hfound, hdrop, ?_⟩
  split at h
  · rename_i hmove
    simp only [gives_bind, gives_logNode, gives_pure] at h
    obtain ⟨a, v, hrun, _, _, rfl, rfl, rfl⟩ := h
    obtain ⟨q, hmoved⟩ := moved_of_moveNode hw (hmem hmove.1) hp hrun
    exact .inl ⟨⟨hmem hmove.1, rfl⟩, Rules.canMove_of_moves k hmove.2, q, hmoved.congr ⟨fun _ => rfl, rfl⟩⟩
  · rename_i hcopy
    simp only [gives_bind, gives_build, gives_logNode, gives_pure] at h
    obtain ⟨c, _, ⟨s, hnew, rfl⟩, u, v, hinsert, _, _, rfl, rfl, rfl⟩ := h
    have hinserted := inserted_of_insertNode (w := w.withSupply s) hw hp hinsert
    refine .inr ⟨fun hc => Bool.eq_false_iff.2 fun hm => hcopy ⟨hinternal.trans hc, hm⟩, c, _, s, hnew, ?_⟩
    exact ⟨hinserted.congr ⟨fun _ => rfl, rfl⟩ ⟨fun _ => rfl, rfl⟩, insertNode_uuid hinsert⟩

end Edit

end DeviceModel
