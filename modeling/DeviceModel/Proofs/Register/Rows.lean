import DeviceModel.Proofs.Register.UpToDate
import DeviceModel.Proofs.Tree.Listings

/-!
The rows of a tree that is laid out. Main statement: bringing the layout up to date leaves the rows below
every node as they are, but for references to repeating blocks (`sameRows_relaidOut`).
-/

namespace DeviceModel

/-- The listing is neither of a reference to a repeating block nor of a stand-in below one. -/
def Listing.IsPlain (l : Listing) : Prop :=
  l.kind ≠ .tableRepeatingBlockReference ∧ l.kind ≠ .tableRepeatingBlockReferenceDataPointReference

namespace Tree

/-- The same nodes with the same rows, references to repeating blocks and the stand-ins below these aside. -/
def SameRows (t t' : Tree) : Prop := ∀ l : Listing, l.IsPlain → (l ∈ t'.listings ↔ l ∈ t.listings)

variable {t t' t₁ t₂ : Tree}

theorem SameRows.refl (t : Tree) : t.SameRows t := fun _ _ => Iff.rfl

theorem SameRows.symm (h : t.SameRows t') : t'.SameRows t := fun l hl => (h l hl).symm

theorem SameRows.trans (h : t.SameRows t₁) (h' : t₁.SameRows t₂) : t.SameRows t₂ :=
  fun l hl => (h' l hl).trans (h l hl)

theorem sameRows_of_listings (h : t'.listings = t.listings) : t.SameRows t' := fun _ _ => by rw [h]

/-- A node of a tree of another kind is no reference. -/
theorem isPlain_of_kind (ht : t.Valid) (hk : t.kind ≠ .sunSpec) {n : Node} (hn : n ∈ t.all) :
    n.listing.IsPlain := by
  have htree := kind_of_mem ht hn
  constructor <;> intro h <;> (rw [show n.kind = _ from h] at htree; exact hk htree)

/-- Nothing stands below a stand-in, and only stand-ins below a reference. -/
theorem isPlain_of_child (ht : t.Valid) {n c : Node} (hn : n ∈ t.all) (hc : c ∈ n.children)
    (h : c.listing.IsPlain) : n.listing.IsPlain := by
  have hallows := ht.allowed n hn c hc
  constructor
  · intro hk
    exact h.2 (isStandIn_of_child ht hn hk hc).1
  · intro hk
    rw [show n.kind = _ from hk] at hallows
    revert hallows
    cases c.kind <;> decide

/-- What is plain below a node is below it too where the rows are the same. -/
theorem uuid_mem_of_sameRows (ht : t.Valid) (ht' : t'.uuids.Nodup) (h : t.SameRows t') {n n' k : Node}
    (hn : n ∈ t.all) (hn' : n' ∈ t'.all) (hu : n'.uuid = n.uuid) (hk : k ∈ n.all) (hplain : k.listing.IsPlain) :
    k.uuid ∈ n'.uuids := by
  induction n using Node.inductOn generalizing n' with
  | h n ih =>
    rcases Node.mem_all.1 hk with rfl | ⟨c, hc, hkc⟩
    · exact hu ▸ Node.uuid_mem_uuids n'.mem_all_self
    · have hct := mem_all_of_child hn hc
      -- Whatever a plain node is below is plain.
      have hup : ∀ m : Node, m ∈ t.all → k ∈ m.all → m.listing.IsPlain := by
        intro m
        induction m using Node.inductOn with
        | h m ihm =>
          intro hm hkm
          rcases Node.mem_all.1 hkm with rfl | ⟨d, hd, hkd⟩
          · exact hplain
          · exact isPlain_of_child ht hm hd (ihm d hd (mem_all_of_child hm hd) hkd)
      have hlisting : n'.listing = n.listing :=
        (Node.eq_listing_of_uuid ht' ((h _ (hup n hn hk)).2 (Node.listing_mem_listings hn)) hn' hu.symm).symm
      have hrow : c.entry ∈ n'.children.map Node.entry := by
        rw [show n'.children.map Node.entry = n.children.map Node.entry from congrArg Listing.rows hlisting]
        exact List.mem_map_of_mem hc
      obtain ⟨c', hc', hentry⟩ := List.mem_map.1 hrow
      have hbelow := ih c hc hct (mem_all_of_child hn' hc') (congrArg Prod.fst hentry) hkc
      exact Node.uuids_subset (Node.mem_all_of_child hc') hbelow

/-! ### References brought in step -/

theorem sameRows_setChildren (ht : t.Valid) {r : Node} (hr : r ∈ t.all)
    (hk : r.kind = .tableRepeatingBlockReference) {cs : List Node} (hcs : ∀ c ∈ cs, IsStandIn c) :
    t.SameRows (t.setChildren r.uuid cs) := by
  intro l hl
  constructor
  · intro h
    obtain ⟨k, hkt, rfl⟩ := List.mem_map.1 h
    rcases mem_all_setChildren ht.nodup hr hkt with rfl | ⟨c, hc, hkc⟩ | ⟨m, hm, hne, rfl⟩
    · exact absurd hk hl.1
    · rw [(hcs c hc).eq_of_mem hkc] at hl
      exact absurd (hcs c hc).1 hl.2
    · rw [Node.listing_edit_of_ne (f := fun n => { n with children := cs }) hne fun _ _ _ => rfl]
      exact Node.listing_mem_listings hm
  · intro h
    obtain ⟨m, hm, rfl⟩ := List.mem_map.1 h
    have hne : m.uuid ≠ r.uuid := fun hu => hl.1 (Node.eq_of_uuid ht.nodup hm hr hu ▸ hk)
    rw [← Node.listing_edit_of_ne (f := fun n => { n with children := cs }) hne fun _ _ _ => rfl]
    refine Node.listing_mem_listings (Node.edit_mem_edit hm fun q hq hqu hmq => ?_)
    obtain rfl := Node.eq_of_uuid ht.nodup hq hr hqu
    refine (Node.mem_all.1 hmq).resolve_right fun ⟨c, hc, hmc⟩ => ?_
    have hstand := isStandIn_of_child ht hr hk hc
    rw [hstand.eq_of_mem hmc] at hl
    exact hl.2 hstand.1

theorem sameRows_syncedReference (ht : t.Valid) {u : Uuid}
    (hu : ∃ r ∈ t.all, r.uuid = u ∧ r.kind = .tableRepeatingBlockReference) (s : Supply) :
    t.SameRows (t.syncedReference u s).1 := by
  obtain ⟨r, hr, rfl, hk⟩ := hu
  have hfind := find?_of_mem ht.nodup hr
  by_cases hm : t.Mirrors r
  · rw [syncedReference_of_mirrors fun q hq => by rw [hfind] at hq; cases hq; exact hm]
    exact .refl t
  · rw [syncedReference_of_not_mirrors hfind hm]
    exact sameRows_setChildren ht hr hk (standIns_spec r.children _ s).1

theorem sameRows_syncedReferences (ht : t.Valid) {s : Supply} (hs : s.Issued t.uuids) :
    t.SameRows (t.syncedReferences s).1 := by
  have fold : ∀ (us : List Uuid) (t₁ : Tree) (s₁ : Supply), t₁.Valid → s₁.Issued t₁.uuids →
      Pending us t₁ → t₁.SameRows (us.foldlM syncedReference t₁ s₁).1 := by
    intro us
    induction us with
    | nil => exact fun t₁ _ _ _ _ => .refl t₁
    | cons u us ih =>
      intro t₁ s₁ h₁ hs₁ hp
      obtain ⟨hsync, hp₂⟩ := syncedReference_spec h₁ hs₁ hp
      exact (sameRows_syncedReference h₁ (hp.found u (by simp)) s₁).trans (ih _ _ hsync.valid hsync.issued hp₂)
  exact fold _ t s ht hs (pending_ofKind t)

theorem sameRows_mapData {g : Uuid → Data → Data} (hg : ∀ m ∈ t.all, (g m.uuid m.data).kind = m.kind) :
    t.SameRows (t.mapData g) :=
  sameRows_of_listings (Node.listings_mapData hg)

theorem sameRows_placeAll (ht : t.uuids.Nodup) (ps : List Placement) : t.SameRows (t.placeAll ps) := by
  rw [placeAll_eq_mapData ht]
  exact sameRows_mapData fun _ _ => Layout.kind_place ..

theorem sameRows_relaidOut (ht : t.Valid) {s : Supply} (hs : s.Issued t.uuids) :
    t.SameRows (t.relaidOut s).1 := by
  cases hk : t.kind with
  | sunSpec =>
    simp only [relaidOut, hk]
    exact (sameRows_syncedReferences ht hs).trans
      (sameRows_placeAll (syncedReferences_spec ht hs).1.valid.nodup _)
  | staticModbus =>
    simp only [relaidOut, hk]
    exact sameRows_placeAll ht.nodup _
  | parameters | can | anomalies =>
    simp only [relaidOut, hk]
    exact .refl t

end Tree

end DeviceModel
