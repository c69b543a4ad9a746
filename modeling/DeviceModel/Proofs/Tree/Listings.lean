import DeviceModel.Proofs.Tree.Children
import DeviceModel.Proofs.Tree.Spreading

/-!
Trees as their nodes list the nodes below them. Main statements: what any node lists after a change is what
it listed before, but for the row that was put in (`mem_listings_addChild`), those that were taken out
(`mem_listings_withoutAll`), or both (`mem_listings_move`); and nodes that list the same, down to the
leaves, have the same below them (`listings_eq_of_entry`).
-/

namespace DeviceModel

/-- What a node shows of the nodes right below it: their identifiers and kinds, in their order. -/
structure Listing where
  uuid : Uuid
  kind : Kind
  rows : List (Uuid × Kind)
  deriving DecidableEq

namespace Listing

/-- `a` in front of the row at `row`; last when there is none. -/
def place (row : Nat) (a : α) (as : List α) : List α := as.take row ++ a :: as.drop row

theorem map_place (f : α → β) (row : Nat) (a : α) (as : List α) :
    (place row a as).map f = place row (f a) (as.map f) := by
  simp [place, List.map_take, List.map_drop]

theorem mem_place {row : Nat} {a b : α} {as : List α} : b ∈ place row a as ↔ b = a ∨ b ∈ as := by
  rw [place, List.mem_append, List.mem_cons, or_left_comm, ← List.mem_append, List.take_append_drop]

theorem getElem?_place {row : Nat} {a : α} {as : List α} (h : row ≤ as.length) : (place row a as)[row]? = some a := by
  rw [place, List.getElem?_append_right (List.length_take_le ..), List.length_take_of_le h, Nat.sub_self]
  rfl

/-- A row is placed last from the length of the list on. -/
theorem place_of_le {row : Nat} {a : α} {as : List α} (h : as.length ≤ row) : place row a as = as ++ [a] := by
  rw [place, List.take_of_length_le h, List.drop_of_length_le h]

/-- A row counted beyond the end is the last. -/
theorem place_min {row : Nat} {a : α} {as : List α} : place (min row as.length) a as = place row a as := by
  rcases Nat.le_total row as.length with hle | hle
  · rw [min_eq_left hle]
  · rw [min_eq_right hle, place_of_le (Nat.le_refl _), place_of_le hle]

theorem place_getD {row : Option Nat} {m : Nat} {a : α} {as : List α} (h : as.length ≤ m) :
    place (row.getD m) a as = place (row.getD as.length) a as := by
  cases row with
  | some r => rfl
  | none => rw [Option.getD_none, Option.getD_none, place_of_le h, place_of_le (Nat.le_refl _)]

theorem filter_place {p : α → Bool} {row : Nat} {a : α} {as : List α} (h : p a = false) :
    (place row a as).filter p = as.filter p := by
  rw [place, List.filter_append, List.filter_cons_of_neg (by simp [h]), ← List.filter_append,
    List.take_append_drop]

/-- The listing with a row put in, if it is that of `p`. -/
def withRow (p : Uuid) (row : Option Nat) (e : Uuid × Kind) (l : Listing) : Listing :=
  if l.uuid = p then { l with rows := place (row.getD l.rows.length) e l.rows } else l

/-- The listing without the rows of `us`. -/
def withoutAll (us : List Uuid) (l : Listing) : Listing :=
  { l with rows := l.rows.filter fun e => e.1 ∉ us }

variable {p : Uuid} {row : Option Nat} {e : Uuid × Kind} {us : List Uuid} {l : Listing}

@[simp] theorem uuid_withRow : (l.withRow p row e).uuid = l.uuid := by
  unfold withRow; split <;> rfl

@[simp] theorem kind_withRow : (l.withRow p row e).kind = l.kind := by
  unfold withRow; split <;> rfl

theorem withRow_of_ne (h : l.uuid ≠ p) : l.withRow p row e = l := if_neg h

@[simp] theorem uuid_withoutAll : (l.withoutAll us).uuid = l.uuid := rfl

@[simp] theorem kind_withoutAll : (l.withoutAll us).kind = l.kind := rfl

theorem withoutAll_of_notMem (h : ∀ e ∈ l.rows, e.1 ∉ us) : l.withoutAll us = l := by
  rw [withoutAll, List.filter_eq_self.2 fun e he => decide_eq_true (h e he)]

end Listing

namespace Node

/-- The row that a node is. -/
def entry (n : Node) : Uuid × Kind := (n.uuid, n.kind)

def listing (n : Node) : Listing := ⟨n.uuid, n.kind, n.children.map entry⟩

/-- The listings of the node and all nodes below it. -/
def listings (n : Node) : List Listing := n.all.map listing

@[simp] theorem uuid_listing (n : Node) : n.listing.uuid = n.uuid := rfl

@[simp] theorem kind_listing (n : Node) : n.listing.kind = n.kind := rfl

@[simp] theorem rows_listing (n : Node) : n.listing.rows = n.children.map entry := rfl

theorem listing_mem_listings {m n : Node} (h : m ∈ n.all) : m.listing ∈ n.listings := List.mem_map_of_mem h

theorem listings_eq (n : Node) : n.listings = n.listing :: n.children.flatMap listings := by
  rw [listings, all_eq, List.map_cons, List.map_flatMap]; rfl

theorem uuid_mem_of_listing {n : Node} {l : Listing} (h : l ∈ n.listings) : l.uuid ∈ n.uuids := by
  obtain ⟨m, hm, rfl⟩ := List.mem_map.1 h
  exact uuid_mem_uuids hm

/-- Where identifiers are distinct, a node has one listing. -/
theorem eq_listing_of_uuid {n m : Node} (hn : n.uuids.Nodup) {l : Listing} (hl : l ∈ n.listings)
    (hm : m ∈ n.all) (h : l.uuid = m.uuid) : l = m.listing := by
  obtain ⟨k, hk, rfl⟩ := List.mem_map.1 hl
  rw [eq_of_uuid hn hk hm h]

/-- Lists of nodes with the same entries, taken node by node. -/
theorem map_eq_of_entry {f : Node → β} {cs' cs : List Node} (h : cs'.map entry = cs.map entry)
    (hf : ∀ c' ∈ cs', ∀ c ∈ cs, c'.entry = c.entry → f c' = f c) : cs'.map f = cs.map f := by
  induction cs' generalizing cs with
  | nil =>
    rw [List.map_eq_nil_iff.1 h.symm]
  | cons c' cs' ih =>
    cases cs with
    | nil => cases h
    | cons c cs =>
      obtain ⟨hc, hcs⟩ := List.cons.inj h
      rw [List.map_cons, List.map_cons, hf c' (List.mem_cons_self ..) c (List.mem_cons_self ..) hc,
        ih hcs fun d' hd' d hd => hf d' (List.mem_cons_of_mem _ hd') d (List.mem_cons_of_mem _ hd)]

/-- Behind the first row there is none of its node. -/
theorem filter_behind {q n : Node} (hq : q.uuids.Nodup) {cs : List Node} (h : q.children = n :: cs) :
    (cs.map entry).filter (·.1 ∉ [n.uuid]) = cs.map entry := by
  have hnodup := (map_uuid_sublist q.children).nodup (nodup_below hq)
  rw [h, List.map_cons, List.nodup_cons] at hnodup
  refine List.filter_eq_self.2 fun e he => ?_
  obtain ⟨c, hc, rfl⟩ := List.mem_map.1 he
  exact decide_eq_true fun hcn => hnodup.1 (List.mem_singleton.1 hcn ▸ List.mem_map_of_mem hc)

/-- The row of a child has its kind. -/
theorem kind_of_row {q n : Node} (hq : q.uuids.Nodup) (hn : n ∈ q.children) {e : Uuid × Kind} (he : e ∈ q.listing.rows)
    (hu : e.1 = n.uuid) : e.2 = n.kind := by
  obtain ⟨c, hc, rfl⟩ := List.mem_map.1 he
  rw [← eq_of_uuid hq (mem_all_of_child hc) (mem_all_of_child hn) hu]
  rfl

/-! ### Rows put in and taken out -/

theorem listing_edit_of_ne {u : Uuid} {f : Node → Node} {n : Node} (hn : n.uuid ≠ u)
    (hf : ∀ c ∈ n.children, c.uuid = u → (f c).entry = c.entry) : (n.edit u f).listing = n.listing := by
  rw [edit_of_ne hn, listing, listing, List.map_map]
  refine congrArg (Listing.mk _ _) (List.map_congr_left fun c hc => ?_)
  by_cases hu : c.uuid = u
  · rw [Function.comp_apply, edit_self hu, hf c hc hu]
  · rw [Function.comp_apply, edit_of_ne hu]
    rfl

/-- An edit that gives a node nothing but other attributes of its kind. -/
theorem listings_edit_of_listing {u : Uuid} {f : Node → Node} (hf : ∀ m, (f m).entry = m.entry)
    (hc : ∀ m, (f m).children = m.children) (n : Node) : (n.edit u f).listings = n.listings := by
  induction n using inductOn with
  | h n ih =>
    by_cases hu : n.uuid = u
    · have hentry := Prod.mk.inj (hf n)
      rw [edit_self hu, listings_eq, listings_eq n, hc, listing, listing, hc, hentry.1, hentry.2]
    · rw [listings_eq, listing_edit_of_ne hu fun c _ _ => hf c, listings_eq n, edit_of_ne hu, List.flatMap_map]
      exact congrArg _ (List.flatMap_congr ih)

theorem listings_mapData {g : Uuid → Data → Data} {n : Node}
    (hg : ∀ m ∈ n.all, (g m.uuid m.data).kind = m.kind) : (n.mapData g).listings = n.listings := by
  rw [listings, listings, all_mapData, List.map_map]
  refine List.map_congr_left fun m hm => ?_
  rw [Function.comp_apply, listing, listing, children_mapData, List.map_map, kind_mapData, hg m hm, uuid_mapData]
  refine congrArg (Listing.mk _ _) (List.map_congr_left fun c hc => ?_)
  rw [Function.comp_apply, entry, kind_mapData, hg c (mem_all_trans (mem_all_of_child hc) hm), uuid_mapData, entry]

/-- A node of an edited node is one of those put in, or lists what it did. -/
theorem mem_listings_edit {u : Uuid} {f : Node → Node} {n : Node}
    (hf : ∀ m ∈ n.all, m.uuid = u → (f m).entry = m.entry) {l : Listing} (h : l ∈ (n.edit u f).listings) :
    (∃ m ∈ n.all, m.uuid = u ∧ l ∈ (f m).listings) ∨ (l ∈ n.listings ∧ l.uuid ≠ u) := by
  obtain ⟨k, hk, rfl⟩ := List.mem_map.1 h
  rcases mem_all_edit hk with ⟨m, hm, hu, hk⟩ | ⟨m, hm, hu, rfl⟩
  · exact .inl ⟨m, hm, hu, listing_mem_listings hk⟩
  · have hlisting : (m.edit u f).listing = m.listing :=
      listing_edit_of_ne hu fun c hc => hf c (mem_all_trans (mem_all_of_child hc) hm)
    rw [hlisting]
    exact .inr ⟨listing_mem_listings hm, hu⟩

theorem listing_addChild (n : Node) (row : Option Nat) (c : Node) :
    (n.addChild row c).listing = n.listing.withRow n.uuid row c.entry := by
  rw [Listing.withRow, if_pos (by rfl), rows_listing, List.length_map]
  exact congrArg (Listing.mk _ _) (Listing.map_place entry _ c n.children)

/-- What is listed with a child put in is what the child lists, or what was listed before with the row of
the child. -/
theorem mem_listings_addChild {n c : Node} (hn : n.uuids.Nodup) {p : Uuid} {row : Option Nat} {l : Listing}
    (h : l ∈ (n.edit p fun m => m.addChild row c).listings) :
    l ∈ c.listings ∨ ∃ m ∈ n.listings, l = m.withRow p row c.entry := by
  rcases mem_listings_edit (f := fun m => m.addChild row c) (fun _ _ _ => rfl) h with ⟨m, hm, rfl, hl⟩ | ⟨hl, hne⟩
  · rw [listings_eq, List.mem_cons, List.mem_flatMap] at hl
    rcases hl with rfl | ⟨d, hd, hl⟩
    · exact .inr ⟨_, listing_mem_listings hm, listing_addChild m row c⟩
    · rcases mem_place.1 hd with rfl | hd
      · exact .inl hl
      · obtain ⟨k, hk, rfl⟩ := List.mem_map.1 hl
        have hkm : k.uuid ≠ m.uuid := fun h => uuid_notMem_below (nodup_of_mem hm hn)
          (List.mem_flatMap.2 ⟨d, hd, h ▸ uuid_mem_uuids hk⟩)
        refine .inr ⟨k.listing, listing_mem_listings ?_, (Listing.withRow_of_ne hkm).symm⟩
        exact mem_all_trans hk (mem_all_trans (mem_all_of_child hd) hm)
  · exact .inr ⟨l, hl, (Listing.withRow_of_ne hne).symm⟩

theorem listing_withoutAll (us : List Uuid) (n : Node) :
    (n.withoutAll us).listing = n.listing.withoutAll us := by
  rw [listing, children_withoutAll, List.map_map, uuid_withoutAll, kind_withoutAll, Listing.withoutAll, rows_listing,
    List.filter_map]
  refine congrArg (Listing.mk _ _) (List.map_congr_left fun c _ => ?_)
  rw [Function.comp_apply, entry, uuid_withoutAll, kind_withoutAll, entry]

theorem mem_listings_withoutAll {us : List Uuid} {n : Node} {l : Listing} (h : l ∈ (n.withoutAll us).listings) :
    ∃ m ∈ n.listings, l = m.withoutAll us := by
  obtain ⟨k, hk, rfl⟩ := List.mem_map.1 h
  obtain ⟨m, hm, rfl⟩ := mem_all_withoutAll hk
  exact ⟨m.listing, listing_mem_listings hm, listing_withoutAll us m⟩

theorem mem_listings_without {u : Uuid} {n : Node} {l : Listing} (h : l ∈ (n.without u).listings) :
    ∃ m ∈ n.listings, l = m.withoutAll [u] := by
  have hall : l ∈ (n.withoutAll [u]).listings := h
  exact mem_listings_withoutAll hall

theorem listing_extend (g : Uuid → List Node) (n : Node) :
    (n.extend g).listing = { n.listing with rows := n.listing.rows ++ (g n.uuid).map entry } := by
  rw [listing, children_extend, List.map_append, List.map_map, uuid_extend, kind_extend]
  refine congrArg (Listing.mk _ _) (congrArg (· ++ _) (List.map_congr_left fun c _ => ?_))
  rw [Function.comp_apply, entry, uuid_extend, kind_extend, entry]

/-- What is listed where children are added last all over a node. -/
theorem mem_listings_extend {g : Uuid → List Node} {n : Node} {l : Listing} (h : l ∈ (n.extend g).listings) :
    (∃ m ∈ n.listings, l = { m with rows := m.rows ++ (g m.uuid).map entry }) ∨
      ∃ m ∈ n.all, ∃ c ∈ g m.uuid, l ∈ c.listings := by
  obtain ⟨k, hk, rfl⟩ := List.mem_map.1 h
  rcases mem_all_extend hk with ⟨m, hm, rfl⟩ | ⟨m, hm, c, hc, hk⟩
  · exact .inl ⟨m.listing, listing_mem_listings hm, listing_extend g m⟩
  · exact .inr ⟨m, hm, c, hc, listing_mem_listings hk⟩

end Node

namespace Tree

def listings (t : Tree) : List Listing := t.root.listings

variable {t t' : Tree}

/-- The row of a node is where its parent lists it. -/
theorem row?_of_child (ht : t.uuids.Nodup) {p c : Node} (hp : p ∈ t.all) (hc : c ∈ p.children) :
    ∃ r, t.row? c.uuid = some r ∧ p.children[r]? = some c := by
  have hrow : t.row? c.uuid = p.children.findIdx? (·.uuid == c.uuid) := by
    rw [row?, parent?_of_child ht hp hc]
    rfl
  obtain ⟨r, hr⟩ : ∃ r, p.children.findIdx? (·.uuid == c.uuid) = some r :=
    Option.isSome_iff_exists.1 (List.findIdx?_isSome.trans (List.any_eq_true.2 ⟨c, hc, by simp⟩))
  obtain ⟨hlt, hu, -⟩ := List.findIdx?_eq_some_iff_getElem.1 hr
  refine ⟨r, hrow.trans hr, ?_⟩
  rw [List.getElem?_eq_getElem hlt, Node.eq_of_uuid ht (mem_all_of_child hp (List.getElem_mem hlt))
    (mem_all_of_child hp hc) (by simpa using hu)]

theorem mem_listings {l : Listing} : l ∈ t.listings ↔ ∃ n ∈ t.all, n.listing = l := List.mem_map

/-- `P` holds of the rows below every node of the kind. -/
def RowsOf (t : Tree) (k : Kind) (P : List (Uuid × Kind) → Prop) : Prop :=
  ∀ l ∈ t.listings, l.kind = k → P l.rows

/-- A tree of the root only lists nothing else. -/
theorem rowsOf_initial {k : TreeKind} {u : Uuid} {top : Kind} (h : top ≠ k.rootKind) (P : List (Uuid × Kind) → Prop) :
    (Tree.initial k u).RowsOf top P := by
  intro l hl hk
  obtain ⟨n, hn, rfl⟩ := mem_listings.1 hl
  obtain rfl : n = (Tree.initial k u).root := by
    simpa [Tree.all, Node.all_eq, Tree.initial, Node.leaf] using hn
  exact absurd (hk.symm.trans (valid_initial k u).root) h

/-- A node is listed by its parent only. -/
theorem eq_of_row (ht : t.uuids.Nodup) {q n : Node} (hq : q ∈ t.all) (hn : n ∈ q.children) {m : Listing}
    (hm : m ∈ t.listings) {e : Uuid × Kind} (he : e ∈ m.rows) (hu : e.1 = n.uuid) : e = n.entry ∧ m = q.listing := by
  obtain ⟨z, hz, rfl⟩ := mem_listings.1 hm
  obtain ⟨c, hc, rfl⟩ := List.mem_map.1 he
  obtain rfl := Node.parent_unique ht hz hq hc hn hu
  rw [Node.eq_of_uuid ht (mem_all_of_child hz hc) (mem_all_of_child hq hn) hu]
  exact ⟨rfl, rfl⟩

/-- Other nodes than its parent list the same without a node. -/
theorem withoutAll_of_ne (ht : t.uuids.Nodup) {q n : Node} (hq : q ∈ t.all) (hn : n ∈ q.children) {m : Listing}
    (hm : m ∈ t.listings) (hu : m.uuid ≠ q.uuid) : m.withoutAll [n.uuid] = m :=
  Listing.withoutAll_of_notMem fun _ he hen =>
    hu (congrArg Listing.uuid (eq_of_row ht hq hn hm he (List.mem_singleton.1 hen)).2)

/-- What is listed after a move. -/
theorem mem_listings_move (ht : t.Valid) {u parent : Uuid} {row : Option Nat}
    (h : t.move u parent row = .ok t') {l : Listing} (hl : l ∈ t'.listings) :
    ∃ n ∈ t.all, n.uuid = u ∧ ∃ m ∈ t.listings, l = (m.withoutAll [u]).withRow parent row n.entry := by
  obtain ⟨n, hn, p, hp, rfl, rfl, hr, hne, hanc, -, rfl⟩ := move_ok h
  refine ⟨n, hn, rfl, ?_⟩
  have hwithout := (Valid.without ht hn hr).nodup_root
  rcases Node.mem_listings_addChild hwithout hl with hl | ⟨m, hm, rfl⟩
  · -- Below what is moved nothing changes, for neither that nor its new parent is there.
    obtain ⟨k, hk, rfl⟩ := List.mem_map.1 hl
    refine ⟨k.listing, Node.listing_mem_listings (Node.mem_all_trans hk hn), ?_⟩
    have hrows : ∀ e ∈ k.listing.rows, e.1 ∉ [n.uuid] := by
      intro e he heu
      obtain ⟨c, hc, rfl⟩ := List.mem_map.1 he
      refine Node.uuid_notMem_below (Node.nodup_of_mem hn ht.nodup) ?_
      rw [← List.mem_singleton.1 heu]
      have hcn := Node.mem_all_trans (Node.mem_all_of_child hc) hk
      rcases Node.mem_all.1 hk with rfl | ⟨d, hd, hkd⟩
      · exact List.mem_flatMap.2 ⟨c, hc, Node.uuid_mem_uuids c.mem_all_self⟩
      · exact List.mem_flatMap.2 ⟨d, hd,
          Node.uuid_mem_uuids (Node.mem_all_trans (Node.mem_all_of_child hc) hkd)⟩
    have hkp : k.uuid ≠ p.uuid := fun hkp =>
      notMem_of_isAncestor ht.nodup hp hn hne hanc (hkp ▸ Node.uuid_mem_uuids hk)
    rw [Listing.withoutAll_of_notMem hrows, Listing.withRow_of_ne hkp]
  · obtain ⟨m', hm', rfl⟩ := Node.mem_listings_without hm
    exact ⟨m', hm', rfl⟩

/-- Nodes that list the same down to the leaves have the same below them. -/
theorem listings_eq_of_entry (ht : t.uuids.Nodup) {n n' : Node} (hn : n ∈ t.all) (hn' : n' ∈ t'.all)
    (he : n'.entry = n.entry)
    (h : ∀ l ∈ t'.listings, ∀ m ∈ n.all, l.uuid = m.uuid → l.kind = m.kind → l ∈ t.listings) :
    n'.listings = n.listings := by
  induction n using Node.inductOn generalizing n' with
  | h n ih =>
    obtain ⟨hu, hk⟩ := Prod.mk.inj he
    have hmem := h _ (Node.listing_mem_listings hn') n n.mem_all_self hu hk
    have hself : n'.listing = n.listing := Node.eq_listing_of_uuid ht hmem hn hu
    rw [Node.listings_eq, Node.listings_eq n, hself, List.flatMap_def, List.flatMap_def]
    refine congrArg (_ :: List.flatten ·) (Node.map_eq_of_entry (congrArg Listing.rows hself) fun c' hc' c hc hcc => ?_)
    refine ih c hc (mem_all_of_child hn hc) (mem_all_of_child hn' hc') hcc fun l hl m hm => ?_
    exact h l hl m (Node.mem_all_trans hm (Node.mem_all_of_child hc))

end Tree

end DeviceModel
