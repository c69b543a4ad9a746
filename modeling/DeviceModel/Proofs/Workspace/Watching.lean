import DeviceModel.Proofs.Workspace.Changing

/-!
Views that follow what they are told. Main statements: a view that has begun with a copy of a tree shows,
after any requests, the rows below every node, references to repeating blocks aside (`rows_of_watching`); and
below these it does not (`exists_rows_unseen`).
-/

namespace DeviceModel

open Edit

/-! ### Rows of a view -/

/-- What a view shows: the rows below each node. It may have been told which rows come in. -/
structure RowView where
  rows : Uuid → List Uuid
  coming : Option (Uuid × Nat × Nat)

namespace RowView

/-- The rows from `first` to `last`. -/
def slice (first last : Nat) (as : List α) : List α := (as.take (last + 1)).drop first

/-- All rows but those from `first` to `last`. -/
def cut (first last : Nat) (as : List α) : List α := as.take first ++ as.drop (last + 1)

/-- Rows that come in before the one at `row`. -/
def splice (row : Nat) (new as : List α) : List α := as.take row ++ new ++ as.drop row

/-- A view that begins with a copy of the tree. -/
def ofTree (t : Tree) : RowView := ⟨fun u => (t.children u).map Node.uuid, none⟩

def put (v : RowView) (u : Uuid) (us : List Uuid) : RowView := { v with rows := Function.update v.rows u us }

/-- Rows are copied from the tree, with all that is below them. -/
def takeIn (v : RowView) (t : Tree) (parent : Uuid) (first last : Nat) : RowView :=
  let ns := slice first last (t.children parent)
  { rows := fun u =>
      if u = parent then splice first (ns.map Node.uuid) (v.rows parent)
      else match (ns.flatMap Node.all).find? (·.uuid == u) with
        | some n => n.children.map Node.uuid
        | none => v.rows u
    coming := none }

/-- What a view does when it is told of something, where the tree has become `t`. -/
def handle (t : Tree) (v : RowView) : ViewEvent → RowView
  | .beginInsert parent first last => { v with coming := some (parent, first, last) }
  | .endInsert =>
    match v.coming with
    | some (parent, first, last) => v.takeIn t parent first last
    | none => v
  | .beginRemove parent first last => v.put parent (cut first last (v.rows parent))
  | .beginMove source first last target row =>
    let w := v.put source (cut first last (v.rows source))
    w.put target (splice (min row (w.rows target).length) (slice first last (v.rows source)) (w.rows target))
  | .endRemove | .endMove | .dataChanged .. => v

def follow (t : Tree) (v : RowView) (es : List ViewEvent) : RowView := es.foldl (handle t) v

/-- The view shows the rows below every node, references to repeating blocks and the stand-ins below these
aside. -/
structure Shows (v : RowView) (t : Tree) : Prop where
  settled : v.coming = none
  rows : ∀ l ∈ t.listings, l.IsPlain → v.rows l.uuid = l.rows.map Prod.fst

variable {v : RowView} {t t' : Tree} {u p : Uuid} {us : List Uuid}

@[simp] theorem rows_put_self : (v.put u us).rows u = us := Function.update_self ..

theorem rows_put_of_ne (h : p ≠ u) : (v.put u us).rows p = v.rows p := Function.update_of_ne h ..

theorem shows_ofTree (ht : t.uuids.Nodup) : (ofTree t).Shows t := by
  refine ⟨rfl, fun l hl _ => ?_⟩
  obtain ⟨n, hn, rfl⟩ := Tree.mem_listings.1 hl
  simp [ofTree, Tree.children, Tree.find?_of_mem ht hn, Node.entry]

theorem Shows.sameRows (h : v.Shows t) (hr : t.SameRows t') : v.Shows t' :=
  ⟨h.settled, fun l hl hp => h.rows l ((hr l hp).1 hl) hp⟩

theorem Shows.rows_of_mem (h : v.Shows t) {n : Node} (hn : n ∈ t.all) (hp : n.listing.IsPlain) :
    v.rows n.uuid = n.children.map Node.uuid := by
  rw [← n.uuid_listing, h.rows _ (Node.listing_mem_listings hn) hp, Node.rows_listing, List.map_map]
  rfl

theorem handle_of_isData {d : ViewEvent} (h : d.isData = true) (v : RowView) : v.handle t d = v := by
  revert h
  cases d <;> simp [ViewEvent.isData, handle]

/-- Of attributes a view need not know. -/
theorem follow_of_isData {ds : List ViewEvent} (hd : ∀ d ∈ ds, d.isData = true) : v.follow t ds = v := by
  induction ds with
  | nil => rfl
  | cons d ds ih =>
    rw [follow, List.foldl_cons, handle_of_isData (hd d (List.mem_cons_self ..))]
    exact ih fun d hd' => hd d (List.mem_cons_of_mem _ hd')

theorem follow_append (es ds : List ViewEvent) : v.follow t (es ++ ds) = (v.follow t es).follow t ds :=
  List.foldl_append ..

/-! ### Rows that come in -/

/-- A view that takes in rows shows the tree if it did so beside these, and the others of their parent. -/
theorem shows_takeIn (ht : t.Valid) {p : Node} (hp : p ∈ t.all) {first last : Nat}
    (hrows : splice first ((slice first last p.children).map Node.uuid) (v.rows p.uuid) = p.children.map Node.uuid)
    (hbeside : ∀ l ∈ t.listings, l.IsPlain → l.uuid ≠ p.uuid →
      l.uuid ∉ (slice first last p.children).flatMap Node.uuids → v.rows l.uuid = l.rows.map Prod.fst) :
    (v.takeIn t p.uuid first last).Shows t := by
  refine ⟨rfl, fun l hl hplain => ?_⟩
  obtain ⟨n, hn, rfl⟩ := Tree.mem_listings.1 hl
  have hmap : n.listing.rows.map Prod.fst = n.children.map Node.uuid := by
    rw [Node.rows_listing, List.map_map]
    rfl
  have hchildren : t.children p.uuid = p.children := by
    rw [Tree.children, Tree.find?_of_mem ht.nodup hp]
    rfl
  simp only [takeIn, hchildren, hmap, Node.uuid_listing]
  split
  · rename_i hu
    rw [hrows, Node.eq_of_uuid ht.nodup hn hp hu]
  · rename_i hu
    split
    · rename_i m hm
      obtain ⟨c, hc, hmc⟩ := List.mem_flatMap.1 (List.mem_of_find?_eq_some hm)
      have hcp : c ∈ p.children := List.mem_of_mem_take (List.mem_of_mem_drop hc)
      have hmt := Node.mem_all_trans hmc (Tree.mem_all_of_child hp hcp)
      rw [Node.eq_of_uuid ht.nodup hmt hn (by simpa using List.find?_some hm)]
    · rename_i hnone
      rw [← hmap]
      refine hbeside _ hl hplain hu fun hmem => ?_
      obtain ⟨c, hc, hnc⟩ := List.mem_flatMap.1 hmem
      obtain ⟨m, hm, hmu⟩ := Node.mem_uuids.1 hnc
      exact List.find?_eq_none.1 hnone m (List.mem_flatMap.2 ⟨c, hc, hm⟩) (by simpa using hmu)

/-! ### Rows that go -/

theorem cut_eq_filter [DecidableEq α] {as : List α} (h : as.Nodup) {r : Nat} {a : α} (hr : as[r]? = some a) :
    cut r r as = as.filter (· ∉ [a]) := by
  obtain ⟨hlt, rfl⟩ := List.getElem?_eq_some_iff.1 hr
  rw [cut, ← List.eraseIdx_eq_take_drop_succ, ← h.erase_getElem r hlt, h.erase_eq_filter]
  exact List.filter_congr fun b _ => by simp [bne, beq_eq_decide]

/-- A row that goes is one less below its parent, and is below no other node. -/
theorem rows_cut {t : Tree} (ht : t.uuids.Nodup) {q n : Node} (hq : q ∈ t.all) (hqp : q.listing.IsPlain) {r : Nat}
    (hr : q.children[r]? = some n) (h : v.Shows t) {l : Listing} (hl : l ∈ t.listings) (hp : l.IsPlain) :
    (v.put q.uuid (cut r r (v.rows q.uuid))).rows l.uuid = (l.withoutAll [n.uuid]).rows.map Prod.fst := by
  have hn : n ∈ q.children := List.mem_of_getElem? hr
  by_cases hu : l.uuid = q.uuid
  · obtain rfl := Node.eq_listing_of_uuid ht hl hq hu
    have hnodup := (Node.map_uuid_sublist q.children).nodup (Node.nodup_below (Node.nodup_of_mem hq ht))
    have hrow : (q.children.map Node.uuid)[r]? = some n.uuid := by rw [List.getElem?_map, hr]; rfl
    rw [Node.uuid_listing, rows_put_self, h.rows_of_mem hq hqp, cut_eq_filter hnodup hrow, Listing.withoutAll,
      Node.rows_listing, List.filter_map, List.filter_map, List.map_map]
    rfl
  · rw [rows_put_of_ne hu, h.rows l hl hp, Tree.withoutAll_of_ne ht hq hn hl hu]

theorem slice_self {as : List α} {r : Nat} {a : α} (h : as[r]? = some a) : slice r r as = [a] := by
  obtain ⟨hlt, rfl⟩ := List.getElem?_eq_some_iff.1 h
  rw [slice, List.drop_take, Nat.add_sub_cancel_left, List.drop_eq_getElem_cons hlt]
  rfl

theorem slice_all (as : List α) : slice 0 (as.length - 1) as = as := by
  rw [slice, List.drop_zero, List.take_of_length_le (by omega)]

theorem cut_all (as : List α) : cut 0 (as.length - 1) as = [] := by
  rw [cut, List.take_zero, List.nil_append, List.drop_of_length_le (by omega)]

theorem splice_singleton (row : Nat) (a : α) (as : List α) : splice row [a] as = Listing.place row a as := by
  rw [splice, Listing.place, List.append_assoc, List.singleton_append]

end RowView

/-! ### One edit -/

namespace Workspace

variable {w w' : Workspace} {k : TreeKind} {v : RowView} {t : Tree} {p q n c a : Node} {row : Option Nat}

section

variable (hw : (w.tree k).Valid) (hv : v.Shows (w.tree k))
include hw hv

theorem Removed.shows (h : Removed w k p n w') (hp : p.listing.IsPlain) :
    ∃ es t', Told w k es t' w' ∧ (v.follow t es).Shows (w'.tree k) := by
  obtain ⟨r, hr, htold⟩ := h.told
  refine ⟨_, _, htold, hv.settled, fun l hl hplain => ?_⟩
  obtain ⟨m, hm, rfl⟩ := h.listing hl hplain
  exact RowView.rows_cut hw.nodup h.mem hp hr hv hm hplain

theorem Moved.shows (h : Moved w k q n p row w') (hq : q.listing.IsPlain) :
    ∃ es t', Told w k es t' w' ∧ (v.follow t es).Shows (w'.tree k) := by
  obtain ⟨r, t', hr, -, htold⟩ := h.told
  refine ⟨_, _, htold, hv.settled, fun l hl hplain => ?_⟩
  obtain ⟨m, hm, rfl⟩ := h.listing hw hl hplain
  rw [Listing.IsPlain, Listing.kind_withRow] at hplain
  have hcut := RowView.rows_cut hw.nodup h.mem hq hr hv hm hplain
  have hmoved : RowView.slice r r (v.rows q.uuid) = [n.uuid] := by
    rw [hv.rows_of_mem h.mem hq]
    exact RowView.slice_self (by rw [List.getElem?_map, hr]; rfl)
  simp only [RowView.follow, List.foldl_cons, List.foldl_nil, RowView.handle, hmoved, RowView.splice_singleton,
    Listing.place_min, Listing.uuid_withRow]
  by_cases hu : m.uuid = p.uuid
  · obtain rfl := Node.eq_listing_of_uuid hw.nodup hm h.target hu
    have hfewer : ((p.listing.withoutAll [n.uuid]).rows.map Prod.fst).length ≤ p.children.length := by
      rw [List.length_map]
      exact (List.length_filter_le ..).trans_eq (List.length_map _)
    have hself : (p.listing.withoutAll [n.uuid]).uuid = p.uuid := rfl
    rw [Node.uuid_listing] at hcut
    rw [hself, RowView.rows_put_self, hcut, Listing.place_getD hfewer, Listing.withRow, if_pos hself, Listing.map_place,
      List.length_map]
    rfl
  · rw [Listing.uuid_withoutAll, RowView.rows_put_of_ne hu, hcut,
      Listing.withRow_of_ne (l := m.withoutAll [n.uuid]) hu]

variable (ht : t.Valid) (hr : t.SameRows (w'.tree k))
include ht hr

theorem Inserted.shows (h : Inserted w k p row c w') (hp : p.listing.IsPlain) :
    ∃ es t', Told w k es t' w' ∧ (v.follow t es).Shows (w'.tree k) := by
  obtain ⟨r, hmin, htold⟩ := h.told
  refine ⟨_, _, htold, ?_⟩
  have hle : r ≤ p.children.length := hmin ▸ Nat.min_le_right ..
  have hsame := htold.sameRows.trans hr.symm
  have hself : p.addChild (some r) c ∈ ((w.tree k).edit p.uuid (·.addChild (some r) c)).all :=
    Node.mem_edit_of_mem hw.nodup h.mem rfl (Node.mem_all_self _)
  have hplain : (p.addChild (some r) c).listing.IsPlain := hp
  obtain ⟨p', hp', hlisting⟩ := Tree.mem_listings.1 ((hsame _ hplain).2 (Node.listing_mem_listings hself))
  have hpu : p'.uuid = p.uuid := congrArg Listing.uuid hlisting
  have hrows : p'.children.map Node.entry = Listing.place r c.entry (p.children.map Node.entry) :=
    (congrArg Listing.rows hlisting).trans (Listing.map_place ..)
  have hrow : (p'.children.map Node.entry)[r]? = some c.entry := by
    rw [hrows, Listing.getElem?_place (by rwa [List.length_map])]
  obtain ⟨c', hc', hentry⟩ := Option.map_eq_some_iff.1 (List.getElem?_map ▸ hrow)
  have hslice := RowView.slice_self hc'
  have htaken : RowView.Shows (RowView.takeIn { v with coming := some (p.uuid, r, r) } t p'.uuid r r) t := by
    refine RowView.shows_takeIn ht hp' ?_ fun l hl hlp hne hbelow => ?_
    · rw [hslice, List.map_singleton, RowView.splice_singleton, hpu, hv.rows_of_mem h.mem hp]
      have huuids := congrArg (List.map Prod.fst) hrows
      rw [List.map_map, Listing.map_place, List.map_map] at huuids
      rw [show c'.uuid = c.uuid from congrArg Prod.fst hentry]
      exact huuids.symm
    · rw [hslice, List.flatMap_singleton] at hbelow
      rcases Node.mem_listings_addChild hw.nodup_root ((hsame l hlp).1 hl) with hlc | ⟨m, hm, rfl⟩
      · obtain ⟨x, hx, rfl⟩ := List.mem_map.1 hlc
        refine absurd (Tree.uuid_mem_of_sameRows htold.valid ht.nodup hsame ?_
          (Tree.mem_all_of_child hp' (List.mem_of_getElem? hc')) (congrArg Prod.fst hentry) hx hlp) hbelow
        exact Node.mem_all_trans (Node.mem_all_of_child (Node.mem_place.2 (.inl rfl))) hself
      · rw [Listing.uuid_withRow, hpu] at hne
        rw [Listing.uuid_withRow, Listing.withRow_of_ne hne]
        rw [Listing.withRow_of_ne hne] at hlp
        exact hv.rows m hm hlp
  rw [hpu] at htaken
  exact htaken.sameRows hr

omit hw ht hr in
/-- A view that has been told that all rows below a node go. -/
theorem rows_emptied (ha : a ∈ (w.tree k).all) (hp : a.listing.IsPlain) {es : List ViewEvent}
    (he : es = if 0 < a.children.length then [.beginRemove a.uuid 0 (a.children.length - 1), .endRemove] else []) :
    (v.follow t es).coming = none ∧ (v.follow t es).rows a.uuid = [] ∧
      ∀ u, u ≠ a.uuid → (v.follow t es).rows u = v.rows u := by
  have hrows := hv.rows_of_mem ha hp
  split at he
  · subst he
    refine ⟨hv.settled, ?_, fun u hu => RowView.rows_put_of_ne hu⟩
    have hcut := RowView.cut_all (v.rows a.uuid)
    rw [hrows, List.length_map] at hcut
    simp only [RowView.follow, List.foldl_cons, List.foldl_nil, RowView.handle, RowView.rows_put_self, hrows, hcut]
  · rename_i hempty
    subst he
    refine ⟨hv.settled, ?_, fun u _ => rfl⟩
    rw [show v.follow t [] = v from rfl, hrows, List.length_eq_zero_iff.1 (Nat.eq_zero_of_not_pos hempty), List.map_nil]

omit hw in
theorem Replaced.shows {t' : Tree} (h : Replaced w k a t' w') (hp : a.listing.IsPlain) :
    ∃ es t', Told w k es t' w' ∧ (v.follow t es).Shows (w'.tree k) := by
  refine ⟨_, _, h.told, RowView.Shows.sameRows ?_ hr⟩
  have hsame := h.told.sameRows.trans hr.symm
  obtain ⟨a', ha', hentry, hout⟩ := h.outside
  have hp' : a'.listing.IsPlain := by
    rwa [Listing.IsPlain, Node.kind_listing, (Prod.mk.inj hentry).2]
  obtain ⟨b, hb, hlisting⟩ := Tree.mem_listings.1 ((hsame _ hp').2 (Node.listing_mem_listings ha'))
  have hba : b.uuid = a.uuid := (congrArg Listing.uuid hlisting).trans (Prod.mk.inj hentry).1
  have hnew : (t'.children a.uuid).length = b.children.length := by
    have hlength := congrArg (List.length ∘ Listing.rows) hlisting
    rw [← (Prod.mk.inj hentry).1, Tree.children, Tree.find?_of_mem h.told.valid.nodup ha']
    simpa using hlength.symm
  -- Beside the rows that come in, all is as it was.
  have hbeside : ∀ l ∈ t.listings, l.IsPlain → l.uuid ≠ b.uuid → l.uuid ∉ b.children.flatMap Node.uuids →
      v.rows l.uuid = l.rows.map Prod.fst := by
    intro l hl hlp hne hbelow
    have hlt := (hsame l hlp).1 hl
    refine (hout l hlt hlp).elim (fun hmem => ?_) fun hold => hv.rows l hold hlp
    obtain ⟨x, hx, hxu⟩ := Node.mem_uuids.1 hmem
    obtain rfl := Node.eq_listing_of_uuid h.told.valid.nodup hlt (Node.mem_all_trans hx ha') hxu.symm
    have hxb := Tree.uuid_mem_of_sameRows h.told.valid ht.nodup hsame ha' hb (congrArg Listing.uuid hlisting) hx hlp
    rw [Node.uuids_eq, List.mem_cons] at hxb
    exact absurd hxb (not_or.2 ⟨hne, hbelow⟩)
  obtain ⟨hsettled, hempty, hothers⟩ := rows_emptied hv h.mem hp (t := t) rfl
  rw [replaced, RowView.follow_append, hnew]
  generalize v.follow t _ = v₁ at hsettled hempty hothers ⊢
  split
  · have htaken : RowView.Shows
        (RowView.takeIn { v₁ with coming := some (a.uuid, 0, b.children.length - 1) } t b.uuid 0 (b.children.length - 1)) t := by
      refine RowView.shows_takeIn ht hb ?_ fun l hl hlp hne hbelow => ?_
      · rw [RowView.slice_all, hba, hempty]
        simp [RowView.splice]
      · rw [RowView.slice_all] at hbelow
        rw [← hbeside l hl hlp hne hbelow]
        exact hothers _ (hba ▸ hne)
    rw [hba] at htaken
    exact htaken
  · rename_i hnone
    have hb0 := List.length_eq_zero_iff.1 (Nat.eq_zero_of_not_pos hnone)
    refine ⟨hsettled, fun l hl hlp => ?_⟩
    by_cases hlb : l.uuid = b.uuid
    · rw [Node.eq_listing_of_uuid ht.nodup hl hb hlb, Node.rows_listing, hb0]
      exact (congrArg v₁.rows hba).trans hempty
    · rw [← hbeside l hl hlp hlb (by simp [hb0])]
      exact hothers _ (hba ▸ hlb)

end

/-! ### Runs -/

theorem Changes.shows (h : Changes w k w') (hw : (w.tree k).Valid) (hv : v.Shows (w.tree k)) (ht : t.Valid)
    (hr : t.SameRows (w'.tree k)) : ∃ es t', Told w k es t' w' ∧ (v.follow t es).Shows (w'.tree k) := by
  cases h with
  | inserted hp h => exact h.shows hw hv ht hr hp
  | removed hp h => exact h.shows hw hv hp
  | moved hq h => exact h.shows hw hv hq
  | replaced ha h => exact h.shows hv ht hr ha
  | attributes hl h => exact ⟨_, _, h, (hv.sameRows (Tree.sameRows_of_listings hl)).sameRows h.sameRows⟩

/-- What the views of the tree `k` are told. -/
def heard (k : TreeKind) (es : List (TreeKind × ViewEvent)) : List ViewEvent :=
  es.filterMap fun e => if e.1 = k then some e.2 else none

theorem heard_of_told {es : List ViewEvent} {t : Tree} (h : Told w k es t w') (j : TreeKind) :
    ∃ ds : List ViewEvent, (∀ d ∈ ds, d.isData = true) ∧
      heard j (w'.events.drop w.events.length) = if j = k then es ++ ds else [] := by
  obtain ⟨ds, hds, he⟩ := h.events
  refine ⟨ds, hds, ?_⟩
  rw [he, List.drop_left, heard, List.filterMap_map]
  by_cases hj : j = k
  · simp [hj]
  · simp [hj, Ne.symm hj]

/-- A view of the tree `k` that has begun with a copy of it, after requests that succeed. Where it is told
that rows have come in, it copies them from a tree that has the rows of the model. -/
inductive Watching (k : TreeKind) (w : Workspace) : Workspace → RowView → Prop
  | start : Watching k w w (.ofTree (w.tree k))
  | request {w₁ w₂ : Workspace} {v : RowView} (r : Request) (t : Tree) : Watching k w w₁ v → Gives r.run w₁ () w₂ →
      t.Valid → t.SameRows (w₂.tree k) →
      Watching k w w₂ (v.follow t (heard k (w₂.events.drop w₁.events.length)))

theorem shows_of_watching (hw : w.Proper) (h : Watching k w w' v) : w'.Proper ∧ v.Shows (w'.tree k) := by
  induction h with
  | start => exact ⟨hw, RowView.shows_ofTree (hw.valid k).nodup⟩
  | @request w₁ w₂ v r t _ hrun ht hr ih =>
    obtain ⟨hproper, hv⟩ := ih
    obtain ⟨j, hchanges⟩ : ∃ j, Changes w₁ j w₂ := ⟨_, changes_of_request hproper hrun⟩
    refine ⟨hchanges.proper hproper, ?_⟩
    by_cases hj : k = j
    · subst hj
      obtain ⟨es, t', htold, hshows⟩ := hchanges.shows (hproper.valid k) hv ht hr
      obtain ⟨ds, hds, hheard⟩ := heard_of_told htold k
      rw [hheard, if_pos rfl, RowView.follow_append, RowView.follow_of_isData hds]
      exact hshows
    · obtain ⟨es, t', htold⟩ := hchanges.told
      obtain ⟨ds, -, hheard⟩ := heard_of_told htold k
      rw [hheard, if_neg hj, htold.others hj]
      exact hv

/-- Whatever is asked for that succeeds: a view that has begun with a copy of the tree, and follows what it
is told, has the rows of the tree below every node. References to repeating blocks have their rows from the
layout, of which views are not told. -/
theorem rows_of_watching (hw : w.Proper) (h : Watching k w w' v) {n : Node} (hn : n ∈ (w'.tree k).all)
    (hk : k = .sunSpec → n.kind ≠ .tableRepeatingBlockReference ∧
      n.kind ≠ .tableRepeatingBlockReferenceDataPointReference) : v.rows n.uuid = n.children.map Node.uuid := by
  obtain ⟨hproper, hshows⟩ := shows_of_watching hw h
  refine hshows.rows_of_mem hn ?_
  by_cases hsun : k = .sunSpec
  · exact hk hsun
  · exact Tree.isPlain_of_kind (hproper.valid k) (by rwa [hproper.kind]) hn

/-- A model whose fixed block has a reference to the repeating block of an expanded view. -/
def makeReference : Edit Unit := do
  let table ← addChild .parameters (← Edit.tree .parameters).root.uuid .table
  let axis ← addChild .parameters table .enumeration
  let _ ← addChild .parameters axis .enumerator
  let row ← addChild .parameters table .group
  let _ ← addChild .parameters row .parameter
  let _ ← Edit.expandTable .parameters table
  let model ← addChild .sunSpec (← Edit.tree .sunSpec).root.uuid .sunSpecModel
  let view ← dropNode .sunSpec table model none
  let _ ← expandView .sunSpec view none {}
  let _ ← dropNode .sunSpec ⟨20⟩ ⟨16⟩ none

def withReference : Workspace := (outcome makeReference (initial 0)).2

/-- What a request leaves. -/
def after (w : Workspace) (r : Request) : Workspace := (outcome r.run w).2

/-- A request as a view watches it that reads the tree when it has been laid out. -/
theorem watching_after {w₁ : Workspace} {r : Request} (h : Watching k w w₁ v)
    (hrun : (outcome r.run w₁).1.toOption = some ()) (ht : ((w₁.after r).tree k).Valid) : Watching k w (w₁.after r)
      (v.follow ((w₁.after r).tree k) (heard k ((w₁.after r).events.drop w₁.events.length))) :=
  .request r _ h (gives_of_toOption hrun) ht (.refl _)

theorem proper_withReference : withReference.Proper := by
  have hall : ∀ k ∈ TreeKind.all, (withReference.tree k).Valid ∧ (withReference.tree k).kind = k := by decide +kernel
  exact ⟨fun k => (hall k k.mem_all).1, fun k => (hall k k.mem_all).2⟩

/-- The fixed block is moved to the end of its model, and another one comes in behind it. -/
theorem rows_of_watching_withReference : ∃ w' v, Watching .sunSpec withReference w' v ∧
    ∃ n ∈ (w'.tree .sunSpec).all, n.kind = .sunSpecModel ∧ v.rows n.uuid = [⟨15⟩, ⟨18⟩, ⟨16⟩, ⟨24⟩] ∧
      v.rows n.uuid = n.children.map Node.uuid := by
  have hmoved := watching_after (r := .operate .sunSpec (.drop (Uuid.bytes ⟨16⟩) ⟨17⟩ none))
    (.start (k := .sunSpec) (w := withReference)) (by decide +kernel) (by decide +kernel)
  have hadded := watching_after (r := .operate .sunSpec (.addChild ⟨17⟩ .fixedBlock)) hmoved
    (by decide +kernel) (by decide +kernel)
  have hfind : ∃ n ∈ (((withReference.after (.operate .sunSpec (.drop (Uuid.bytes ⟨16⟩) ⟨17⟩ none))).after
      (.operate .sunSpec (.addChild ⟨17⟩ .fixedBlock))).tree .sunSpec).all, n.kind = .sunSpecModel ∧
        n.children.map Node.uuid = [⟨15⟩, ⟨18⟩, ⟨16⟩, ⟨24⟩] := by decide +kernel
  obtain ⟨n, hn, hk, hrows⟩ := hfind
  have hsame := rows_of_watching proper_withReference hadded hn fun _ => by rw [hk]; decide
  exact ⟨_, _, hadded, n, hn, hk, hsame.trans hrows, hsame⟩

/-- The reference is made one to nothing: its rows go, and no view is told. -/
theorem exists_rows_unseen : ∃ w' v, withReference.Proper ∧ Watching .sunSpec withReference w' v ∧
    ∃ n ∈ (w'.tree .sunSpec).all, n.kind = .tableRepeatingBlockReference ∧ v.rows n.uuid = [⟨23⟩] ∧
      n.children = [] := by
  have hset := watching_after (r := .operate .sunSpec (.setAttribute ⟨22⟩ "original" .null))
    (.start (k := .sunSpec) (w := withReference)) (by decide +kernel) (by decide +kernel)
  exact ⟨_, _, proper_withReference, hset, by decide +kernel⟩

end Workspace

end DeviceModel
