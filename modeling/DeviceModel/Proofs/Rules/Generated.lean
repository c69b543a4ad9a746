import DeviceModel.Proofs.Expansion.Tables
import DeviceModel.Proofs.Register.Rows
import DeviceModel.Proofs.Rules.NewNodes

/-!
What expansion made, and changes that spare it. Main statements: where a tree is spared (`Spares`) the views
of tables have the same below them (`Spares.listings`), and the tables have the same elements
(`Spares.forest`); adding and taking out rows spares a tree if neither is done where nodes are generated
(`spared_withRow`, `spared_withoutAll`).
-/

namespace DeviceModel

/-- What holds of the kind of a node and is passed on to children holds of all kinds below it. -/
theorem Node.Allowed.kind_of_mem {P : Kind → Prop} (hP : ∀ k c : Kind, P k → k.allows c = true → P c)
    {n m : Node} (h : n.Allowed) (hn : P n.kind) (hm : m ∈ n.all) : P m.kind := by
  induction n using Node.inductOn with
  | h n ih =>
    rcases Node.mem_all.1 hm with rfl | ⟨c, hc, hm⟩
    · exact hn
    · exact ih c hc (h.of_mem (Node.mem_all_of_child hc)) (hP _ _ hn (h n n.mem_all_self c hc)) hm

/-- Nodes of the kind stand below the root only. -/
def Kind.IsTop (top : Kind) (t : TreeKind) : Prop := ∀ k : Kind, k.allows top = true → k = t.rootKind

/-- What stands below the root only stands below nothing else. -/
theorem Node.Allowed.kind_ne_of_top {t : TreeKind} {top : Kind} (htop : top.IsTop t) {n m : Node} (h : n.Allowed)
    (hn : n.kind ≠ top) (hr : n.kind ≠ t.rootKind) (hm : m ∈ n.all) : m.kind ≠ top := by
  refine (h.kind_of_mem (P := fun k => k ≠ top ∧ k ≠ t.rootKind) (fun k c hk hc => ⟨?_, ?_⟩) ⟨hn, hr⟩ hm).1
  · rintro rfl
    exact hk.2 (htop k hc)
  · rintro rfl
    exact Bool.false_ne_true ((Kind.not_allows_rootKind t k).symm.trans hc)

/-- References to repeating blocks do not stand below the root. -/
theorem Listing.isPlain_of_top {t : TreeKind} {top : Kind} (htop : top.IsTop t) {l : Listing} (hk : l.kind = top) :
    l.IsPlain := by
  subst hk
  constructor <;> intro h
  · have hroot := htop .fixedBlock (by rw [h]; rfl)
    cases t <;> cases hroot
  · have hroot := htop .tableRepeatingBlockReference (by rw [h]; rfl)
    cases t <;> cases hroot

/-- Whether nodes of the kind are made in step with others only. -/
def Kind.isMade (k : Kind) : Bool :=
  [tableGroupElement, tableArrayElement, tableRepeatingBlockReferenceDataPointReference].contains k

theorem Kind.ne_tableGroupElement {k : Kind} (h : k.isMade = false) : k ≠ .tableGroupElement := by
  rintro rfl
  cases h

/-- References to repeating blocks allow nothing else. -/
theorem Node.isPlain_of_allows {p : Node} {k : Kind} (h : p.kind.allows k = true) (hk : k.isMade = false) :
    p.listing.IsPlain := by
  constructor <;> intro hp <;> (rw [show p.kind = _ from hp] at h; revert h hk; cases k <;> decide)

/-- The expanded elements of a table, with all below them. -/
def Node.forest (n : Node) : List (List Listing) :=
  (n.children.filter (·.kind == .tableGroupElement)).map Node.listings

/-- The rows of the expanded elements of a table. -/
def Listing.elements (l : Listing) : List (Uuid × Kind) := l.rows.filter (·.2 == .tableGroupElement)

namespace Tree

variable {t t' t₁ : Tree}

/-- The node `u` is at or below a view of a table, or an element of one. -/
def IsDerived (t : Tree) (u : Uuid) : Prop :=
  ∃ n ∈ t.all, u ∈ n.uuids ∧ (n.kind.isTableView = true ∨ n.kind = .tableGroupElement)

/-- The kinds of what expansion makes. -/
def derivedKinds : List Kind :=
  [.canTable, .signal, .multiplexer, .sunSpecTable, .dataPoint, .tableRepeatingBlock, .modbusTable, .functionData,
    .modbusTableRepeatingBlock, .tableGroupElement, .tableArrayElement]

theorem kind_of_isDerived (ht : t.Valid) {n : Node} (hn : n ∈ t.all) (h : t.IsDerived n.uuid) :
    n.kind ∈ derivedKinds := by
  obtain ⟨v, hv, hu, hk⟩ := h
  obtain ⟨m, hm, hmu⟩ := Node.mem_uuids.1 hu
  obtain rfl := Node.eq_of_uuid ht.nodup (Node.mem_all_trans hm hv) hn hmu
  have hclosed : ∀ k ∈ derivedKinds, ∀ c ∈ k.childKinds, c ∈ derivedKinds := by decide
  refine (ht.allowedRoot.of_mem hv).kind_of_mem (P := (· ∈ derivedKinds)) (fun k c hk hc => ?_) ?_ hm
  · exact hclosed k hk c (by simpa [Kind.allows] using hc)
  · revert hk
    cases v.kind <;> decide

theorem isPlain_of_isDerived (ht : t.Valid) {n : Node} (hn : n ∈ t.all) (h : t.IsDerived n.uuid) :
    n.listing.IsPlain := by
  have hk := kind_of_isDerived ht hn h
  constructor <;> intro hkind <;> (rw [show n.kind = _ from hkind] at hk; revert hk; decide)

section

variable (ht : t.Valid) {v n p : Node} (hv : v ∈ t.all) (hn : n ∈ t.all)
include ht

/-- Below a view of a table, and below its elements, all is generated. -/
theorem isGenerated_of_below (hv : v ∈ t.all) (hk : v.kind.isTableView = true ∨ v.kind = .tableGroupElement)
    (hnv : n ∈ v.all) (hne : v ≠ n) : t.isGenerated n.uuid = true := by
  have hn := Node.mem_all_trans hnv hv
  rw [isGenerated, find?_of_mem ht.nodup hn]
  simp only [Bool.or_eq_true, beq_iff_eq, List.any_eq_true]
  rcases hk with hk | hk
  · exact .inr ⟨v, (mem_ancestors ht.nodup hn).2 ⟨hv, Node.uuid_mem_uuids hnv, hne⟩, .inl hk⟩
  · refine .inl (.inl ?_)
    exact TableExpansion.isGenerated_of_mem (ht.allowedRoot.of_mem hv) (.inl hk) hnv

theorem isMade_of_not_isGenerated (hn : n ∈ t.all) (h : t.isGenerated n.uuid = false) :
    n.kind.isMade = false := by
  simp only [isGenerated, find?_of_mem ht.nodup hn, Bool.or_eq_false_iff, beq_eq_false_iff_ne] at h
  simp [Kind.isMade, h.1.1.1, h.1.1.2, h.1.2]

theorem not_isDerived_of_not_isGenerated (hn : n ∈ t.all) (h : t.isGenerated n.uuid = false)
    (hk : n.kind.isTableView = false) : ¬t.IsDerived n.uuid := by
  rintro ⟨v, hv, hu, hvk⟩
  obtain ⟨m, hm, hmu⟩ := Node.mem_uuids.1 hu
  obtain rfl := Node.eq_of_uuid ht.nodup (Node.mem_all_trans hm hv) hn hmu
  by_cases hne : v = m
  · subst hne
    rcases hvk with hvk | hvk
    · exact Bool.false_ne_true (hk.symm.trans hvk)
    · exact Kind.ne_tableGroupElement (isMade_of_not_isGenerated ht hn h) hvk
  · exact Bool.false_ne_true (h.symm.trans (isGenerated_of_below ht hv hvk hm hne))

/-- What is not generated has no parent that is derived. -/
theorem not_isDerived_of_child (hp : p ∈ t.all) (hn : n ∈ p.children) (h : t.isGenerated n.uuid = false) :
    ¬t.IsDerived p.uuid := by
  rintro ⟨v, hv, hu, hvk⟩
  obtain ⟨m, hm, hmu⟩ := Node.mem_uuids.1 hu
  obtain rfl := Node.eq_of_uuid ht.nodup (Node.mem_all_trans hm hv) hp hmu
  have hne : v ≠ n := fun hvn =>
    absurd (Node.length_all_le hm) (hvn ▸ (Node.length_all_lt_of_child hn).not_ge)
  have hgenerated := isGenerated_of_below ht hv hvk (Node.mem_all_trans (Node.mem_all_of_child hn) hm) hne
  exact Bool.false_ne_true (h.symm.trans hgenerated)

end

/-! ### Sparing -/

/-- What `l` lists is what `m` did, but for rows that are not generated. -/
structure Spared (t : Tree) (m l : Listing) : Prop where
  uuid : m.uuid = l.uuid
  kind : m.kind = l.kind
  derived : t.IsDerived m.uuid → l = m
  elements : l.elements = m.elements

theorem Spared.trans {l m o : Listing} (h : t.Spared o m) (h' : t.Spared m l) : t.Spared o l :=
  ⟨h.uuid.trans h'.uuid, h.kind.trans h'.kind, fun hd => (h'.derived (h.uuid ▸ hd)).trans (h.derived hd),
    h'.elements.trans h.elements⟩

/-- Nodes other than new ones list what they did, but for rows that are not generated. -/
def Spares (t t' : Tree) : Prop :=
  ∀ l ∈ t'.listings, l.IsPlain → l.uuid ∉ t.uuids ∨ ∃ m ∈ t.listings, t.Spared m l

theorem Spares.sameRows (h : t.Spares t₁) (hr : t₁.SameRows t') : t.Spares t' :=
  fun l hl hp => h l ((hr l hp).1 hl) hp

/-- A row comes in. -/
theorem spared_withRow {p : Uuid} (hp : ¬t.IsDerived p) {row : Option Nat} {e : Uuid × Kind}
    (he : e.2.isMade = false) (m : Listing) : t.Spared m (m.withRow p row e) := by
  refine ⟨Listing.uuid_withRow.symm, Listing.kind_withRow.symm, fun hm => ?_, ?_⟩
  · exact Listing.withRow_of_ne fun hmp => hp (hmp ▸ hm)
  · by_cases hm : m.uuid = p
    · rw [Listing.withRow, if_pos hm]
      exact Listing.filter_place (by simpa using Kind.ne_tableGroupElement he)
    · rw [Listing.withRow_of_ne hm]

/-- New nodes come in, one or more. -/
theorem spares_extend {g : Uuid → List Node} (hg : ∀ u ∈ t.uuids, g u ≠ [] → ¬t.IsDerived u ∧
    ∀ c ∈ g u, c.kind.isMade = false ∧ ∀ x ∈ c.uuids, x ∉ t.uuids) :
    t.Spares { t with root := t.root.extend g } := by
  intro l hl _
  rcases Node.mem_listings_extend hl with ⟨m, hm, rfl⟩ | ⟨m, hm, c, hc, hl⟩
  · refine .inr ⟨m, hm, rfl, rfl, fun hderived => ?_, ?_⟩
    · have hnone : g m.uuid = [] := by_contra fun hne => (hg _ (Node.uuid_mem_of_listing hm) hne).1 hderived
      rw [hnone, List.map_nil, List.append_nil]
    · rw [Listing.elements, Listing.elements, List.filter_append, List.append_right_eq_self, List.filter_eq_nil_iff]
      intro e he
      obtain ⟨c, hc, rfl⟩ := List.mem_map.1 he
      have hmade := ((hg _ (Node.uuid_mem_of_listing hm) (List.ne_nil_of_mem hc)).2 c hc).1
      simpa [Node.entry] using Kind.ne_tableGroupElement hmade
  · have hnew := ((hg _ (Node.uuid_mem_uuids hm) (List.ne_nil_of_mem hc)).2 c hc).2
    exact .inl (hnew _ (Node.uuid_mem_of_listing hl))

/-- Rows go. -/
theorem spared_withoutAll {us : List Uuid} (hus : ∀ n ∈ t.all, n.uuid ∈ us →
    n.kind.isMade = false ∧ ∀ p ∈ t.all, n ∈ p.children → ¬t.IsDerived p.uuid)
    {m : Listing} (hm : m ∈ t.listings) : t.Spared m (m.withoutAll us) := by
  obtain ⟨n, hn, rfl⟩ := mem_listings.1 hm
  refine ⟨rfl, rfl, fun hd => Listing.withoutAll_of_notMem fun e he hu => ?_, ?_⟩
  · obtain ⟨c, hc, rfl⟩ := List.mem_map.1 he
    exact (hus c (mem_all_of_child hn hc) hu).2 n hn hc hd
  · rw [Listing.elements, Listing.elements, Listing.withoutAll, List.filter_filter]
    refine List.filter_congr fun e he => ?_
    obtain ⟨c, hc, rfl⟩ := List.mem_map.1 he
    by_cases hu : c.uuid ∈ us
    · have hk := Kind.ne_tableGroupElement (hus c (mem_all_of_child hn hc) hu).1
      simp [Node.entry, hu, hk]
    · simp [Node.entry, hu]

section

variable (ht : t.Valid) (h : t.Spares t') {n n' : Node} (hn : n ∈ t.all) (hn' : n' ∈ t'.all)
  (he : n'.entry = n.entry)
include ht h hn hn' he

/-- What is derived has the same below it. -/
theorem Spares.listings (hd : ∀ m ∈ n.all, t.IsDerived m.uuid) : n'.listings = n.listings := by
  refine listings_eq_of_entry ht.nodup hn hn' he fun l hl m hm hu hk => ?_
  have hmt := Node.mem_all_trans hm hn
  have hplain := isPlain_of_isDerived ht hmt (hd m hm)
  rw [Listing.IsPlain, Node.kind_listing, ← hk] at hplain
  rcases h l hl hplain with hnew | ⟨o, ho, hspared⟩
  · exact absurd (mem_uuids.2 ⟨m, hmt, hu.symm⟩) hnew
  · rwa [hspared.derived (hspared.uuid.trans hu ▸ hd m hm)]

/-- Tables have the same elements. -/
theorem Spares.forest (hp : n.listing.IsPlain) : n'.forest = n.forest := by
  obtain ⟨hu, hk⟩ := Prod.mk.inj he
  rw [Listing.IsPlain, Node.kind_listing, ← hk] at hp
  have helements : n'.listing.elements = n.listing.elements := by
    rcases h _ (Node.listing_mem_listings hn') hp with hnew | ⟨o, ho, hspared⟩
    · exact absurd (mem_uuids.2 ⟨n, hn, hu.symm⟩) hnew
    · rw [hspared.elements, Node.eq_listing_of_uuid ht.nodup ho hn (hspared.uuid.trans hu)]
  simp only [Listing.elements, Node.rows_listing, List.filter_map] at helements
  refine Node.map_eq_of_entry helements fun c' hc' c hc hcc => ?_
  obtain ⟨hcn, hck⟩ := List.mem_filter.1 hc
  have hct := mem_all_of_child hn hcn
  refine h.listings ht hct (mem_all_of_child hn' (List.mem_of_mem_filter hc')) hcc fun m hm => ?_
  exact ⟨c, hct, Node.uuid_mem_uuids hm, .inr (by simpa using hck)⟩

end

end Tree

end DeviceModel
