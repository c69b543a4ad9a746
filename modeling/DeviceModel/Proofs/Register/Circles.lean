import DeviceModel.Proofs.Register.Rows
import DeviceModel.Proofs.Register.Settling
import DeviceModel.Proofs.Tree.Places

/-!
Sizes of a register map under changes. Whether they come to an end depends on which references stand where,
and on nothing else (`settles_iff_of_refers`); so a layout does not matter (`settles_relaidOut`). Main
statements: a new child with no references but those to repeating blocks keeps the sizes ending
(`settles_addChild`), and so does what goes (`settles_withoutAll`); what is moved closes a circle exactly if it
comes to stand in something that its size depends on (`settles_move_iff`).
-/

namespace DeviceModel.Tree

/-- Below the node `p` stands the reference `u`, which names `o`. -/
def Refers (t : Tree) (p u : Uuid) (o : Option Uuid) : Prop :=
  ∃ d, t.root.Stands p u d ∧ d.kind.isBlockReference = true ∧ d.ref? .original = o

/-- The sizes of the nodes `u` come to an end. -/
def EndsAt (t : Tree) (u : Uuid) : Prop := ∀ r ∈ t.all, r.uuid = u → Links.Ends t.parts r

variable {t t' : Tree} {p u : Uuid} {o : Option Uuid}

theorem refers_of_child {m r : Node} (hm : m ∈ t.all) (hr : r ∈ m.children) (hk : r.kind.isBlockReference = true) :
    t.Refers m.uuid r.uuid (r.ref? .original) :=
  ⟨r.data, Node.stands_of_child hm hr, hk, rfl⟩

theorem Refers.child (h : t.Refers p u o) : ∃ m ∈ t.all, m.uuid = p ∧ ∃ r ∈ m.children, r.uuid = u ∧
    r.kind.isBlockReference = true ∧ r.ref? .original = o := by
  obtain ⟨_, ⟨m, hm, hp, r, hr, hu, rfl⟩, hk, ho⟩ := h
  exact ⟨m, hm, hp, r, hr, hu, hk, ho⟩

theorem ends_of_not_reference {n : Node} (hk : n.kind.isBlockReference = false) : Links.Ends t.parts n :=
  ⟨1, Links.endsWithin_of_nil (parts_of_not_reference hk) 0⟩

theorem exists_of_mem_parts {r c : Node} (h : c ∈ t.parts r) :
    r.kind.isBlockReference = true ∧ ∃ m ∈ t.all, r.ref? .original = some m.uuid ∧ c ∈ m.children := by
  unfold parts at h
  split at h
  · rename_i hk
    refine ⟨hk, ?_⟩
    cases ho : r.ref? .original with
    | none => simp [ho] at h
    | some b =>
      rw [ho, Option.map_some, Option.getD_some, children] at h
      cases hf : t.find? b with
      | none => simp [hf] at h
      | some m =>
        obtain ⟨hm, rfl⟩ := mem_of_find? hf
        rw [hf] at h
        exact ⟨m, hm, rfl, h⟩
  · cases h

theorem mem_parts_of_child (ht : t.uuids.Nodup) {r m c : Node} (hk : r.kind.isBlockReference = true) (hm : m ∈ t.all)
    (ho : r.ref? .original = some m.uuid) (hc : c ∈ m.children) : c ∈ t.parts r := by
  rw [parts, if_pos hk, ho, Option.map_some, Option.getD_some, children, find?_of_mem ht hm]
  exact hc

/-- A root is no reference. -/
theorem isBlockReference_root (ht : t.Valid) : t.root.kind.isBlockReference = false := by
  rw [ht.root]
  cases t.kind <;> rfl

/-! ### The references that count -/

/-- What a reference leads to is the same where the references that stand in what the nodes of `A` name are the
same, but for those whose sizes are known to end. -/
theorem ends_of_refers (ht : t.uuids.Nodup) {A : Node → Prop} (hA : ∀ a, A a → ∀ b ∈ t.parts a, A b)
    (hrefers : ∀ a, A a → a.kind.isBlockReference = true → ∀ b, a.ref? .original = some b →
      ∀ u o, t'.Refers b u o → t.Refers b u o ∨ t'.EndsAt u)
    {r r' : Node} (hr : A r) (h : Links.Ends t.parts r)
    (hk : r'.kind.isBlockReference = r.kind.isBlockReference) (ho : r'.ref? .original = r.ref? .original) :
    Links.Ends t'.parts r' := by
  refine h.of_simulates (S := fun a a' => A a ∧ a'.kind.isBlockReference = a.kind.isBlockReference ∧
    a'.ref? .original = a.ref? .original) ?_ ⟨hr, hk, ho⟩
  rintro a a' ⟨ha, hak, hao⟩ b' hb'
  obtain ⟨hk', m', hm', ho', hb⟩ := exists_of_mem_parts hb'
  cases hbk : b'.kind.isBlockReference with
  | false => exact .inr (ends_of_not_reference hbk)
  | true =>
    rw [hak] at hk'
    rw [hao] at ho'
    rcases hrefers a ha hk' m'.uuid ho' _ _ (refers_of_child hm' hb hbk) with hold | hends
    · obtain ⟨m, hm, hmu, b, hbm, -, hk, ho⟩ := hold.child
      have hmem := mem_parts_of_child ht hk' hm (hmu ▸ ho') hbm
      exact .inl ⟨b, hmem, hA a ha b hmem, hk.symm, ho.symm⟩
    · exact .inr (hends b' (mem_all_of_mem_parts hb') rfl)

theorem Settles.of_refers (h : t.Settles) (ht : t.uuids.Nodup) (ht' : t'.Valid)
    (hrefers : ∀ p u o, t'.Refers p u o → t.Refers p u o ∨ t'.EndsAt u) : t'.Settles := by
  rw [settles_iff_ends] at h ⊢
  intro n' hn'
  cases hk : n'.kind.isBlockReference with
  | false => exact ends_of_not_reference hk
  | true =>
    have hroot : n' ≠ t'.root := by
      rintro rfl
      rw [isBlockReference_root ht'] at hk
      cases hk
    obtain ⟨m', hm', hnm⟩ := Node.exists_parent hn' hroot
    rcases hrefers _ _ _ (refers_of_child hm' hnm hk) with hold | hends
    · obtain ⟨m, hm, -, n, hn, -, hnk, hno⟩ := hold.child
      exact ends_of_refers (A := fun _ => True) ht (fun _ _ _ _ => trivial) (fun _ _ _ b _ => hrefers b) trivial
        (h n (mem_all_of_child hm hn)) (hk.trans hnk.symm) hno.symm
    · exact hends n' hn' rfl

/-- Trees in which the same references stand in the same places. -/
theorem settles_iff_of_refers (ht : t.Valid) (ht' : t'.Valid) (h : ∀ p u o, t'.Refers p u o ↔ t.Refers p u o) :
    t'.Settles ↔ t.Settles :=
  ⟨fun hs => hs.of_refers ht'.nodup ht fun p u o hr => .inl ((h p u o).2 hr),
    fun hs => hs.of_refers ht.nodup ht' fun p u o hr => .inl ((h p u o).1 hr)⟩

/-! ### Layouts -/

theorem refers_mapData {g : Uuid → Data → Data} (hg : ∀ n ∈ t.all, Layout.Keeps g n) :
    (t.mapData g).Refers p u o ↔ t.Refers p u o := by
  constructor
  · intro h
    obtain ⟨m', hm', rfl, r', hr', rfl, hk, rfl⟩ := h.child
    rw [all_mapData] at hm'
    obtain ⟨m, hm, rfl⟩ := List.mem_map.1 hm'
    rw [Node.children_mapData] at hr'
    obtain ⟨r, hr, rfl⟩ := List.mem_map.1 hr'
    have hkeeps := hg r (mem_all_of_child hm hr)
    rw [hkeeps.kind_eq] at hk
    rw [hkeeps.ref_eq, Node.uuid_mapData, Node.uuid_mapData]
    exact refers_of_child hm hr hk
  · intro h
    obtain ⟨m, hm, rfl, r, hr, rfl, hk, rfl⟩ := h.child
    have hkeeps := hg r (mem_all_of_child hm hr)
    have hm' : m.mapData g ∈ (t.mapData g).all := by
      rw [all_mapData]
      exact List.mem_map_of_mem hm
    have hr' : r.mapData g ∈ (m.mapData g).children := by
      rw [Node.children_mapData]
      exact List.mem_map_of_mem hr
    have h' := refers_of_child hm' hr' (hkeeps.kind_eq ▸ hk)
    rwa [hkeeps.ref_eq, Node.uuid_mapData, Node.uuid_mapData] at h'

/-- What stands below a reference is no reference to a block, and has nothing below it. -/
theorem refers_setChildren (ht : t.Valid) {r : Node} (hr : r ∈ t.all) (hk : r.kind = .tableRepeatingBlockReference)
    {cs : List Node} (hcs : ∀ c ∈ cs, IsStandIn c) : (t.setChildren r.uuid cs).Refers p u o ↔ t.Refers p u o := by
  have hstand : ∀ {c : Node}, IsStandIn c → c.kind.isBlockReference = false := fun hc => by rw [hc.1]; rfl
  have hdata : ∀ c : Node, (c.edit r.uuid fun n => { n with children := cs }).data = c.data :=
    fun c => Node.data_edit fun _ => rfl
  have huuid : ∀ c : Node, (c.edit r.uuid fun n => { n with children := cs }).uuid = c.uuid :=
    fun c => Node.uuid_edit fun h => h
  constructor
  · intro h
    obtain ⟨m', hm', rfl, x, hx, rfl, hxk, rfl⟩ := h.child
    rcases mem_all_setChildren ht.nodup hr hm' with rfl | ⟨c, hc, hm'⟩ | ⟨m, hm, hmr, rfl⟩
    · exact absurd hxk (by simp [hstand (hcs x hx)])
    · rw [(hcs c hc).eq_of_mem hm', (hcs c hc).2] at hx
      cases hx
    · rw [Node.edit_of_ne hmr] at hx ⊢
      obtain ⟨y, hy, rfl⟩ := List.mem_map.1 hx
      refine ⟨_, ⟨m, hm, rfl, y, hy, (huuid y).symm, (hdata y).symm⟩, hxk, rfl⟩
  · intro h
    obtain ⟨m, hm, rfl, x, hx, rfl, hxk, rfl⟩ := h.child
    have hmr : m.uuid ≠ r.uuid := fun hu => by
      obtain rfl := Node.eq_of_uuid ht.nodup hm hr hu
      exact absurd hxk (by simp [hstand (isStandIn_of_child ht hr hk hx)])
    have hmem : (m.edit r.uuid fun n => { n with children := cs }) ∈ (t.setChildren r.uuid cs).all := by
      refine Node.edit_mem_edit hm fun q hq hqu hmq => ?_
      obtain rfl := Node.eq_of_uuid ht.nodup hq hr hqu
      refine (Node.mem_all.1 hmq).resolve_right fun ⟨c, hc, hmc⟩ => ?_
      have hs := isStandIn_of_child ht hr hk hc
      rw [hs.eq_of_mem hmc, hs.2] at hx
      cases hx
    refine ⟨x.data, ⟨_, hmem, huuid m, x.edit r.uuid fun n => { n with children := cs }, ?_, huuid x, hdata x⟩, hxk, rfl⟩
    rw [Node.edit_of_ne hmr]
    exact List.mem_map_of_mem hx

theorem refers_syncedReference (ht : t.Valid) {v : Uuid}
    (hv : ∃ r ∈ t.all, r.uuid = v ∧ r.kind = .tableRepeatingBlockReference) (s : Supply) :
    (t.syncedReference v s).1.Refers p u o ↔ t.Refers p u o := by
  obtain ⟨r, hr, rfl, hk⟩ := hv
  have hfind := find?_of_mem ht.nodup hr
  by_cases hm : t.Mirrors r
  · rw [syncedReference_of_mirrors fun q hq => by rw [hfind] at hq; cases hq; exact hm]
  · rw [syncedReference_of_not_mirrors hfind hm]
    exact refers_setChildren ht hr hk (standIns_spec r.children _ s).1

theorem refers_syncedReferences (ht : t.Valid) {s : Supply} (hs : s.Issued t.uuids) :
    (t.syncedReferences s).1.Refers p u o ↔ t.Refers p u o := by
  have fold : ∀ (us : List Uuid) (t₁ : Tree) (s₁ : Supply), t₁.Valid → s₁.Issued t₁.uuids → Pending us t₁ →
      ((us.foldlM syncedReference t₁ s₁).1.Refers p u o ↔ t₁.Refers p u o) := by
    intro us
    induction us with
    | nil => exact fun _ _ _ _ _ => Iff.rfl
    | cons v us ih =>
      intro t₁ s₁ h₁ hs₁ hp
      obtain ⟨hsync, hp₂⟩ := syncedReference_spec h₁ hs₁ hp
      exact (ih _ _ hsync.valid hsync.issued hp₂).trans (refers_syncedReference h₁ (hp.found v (by simp)) s₁)
  exact fold _ t s ht hs (pending_ofKind t)

theorem refers_placeAll (ht : t.Valid) : (t.placeAll t.layout).Refers p u o ↔ t.Refers p u o := by
  rw [placeAll_eq_mapData ht.nodup]
  exact refers_mapData fun n hn => keeps_place ht hn

theorem refers_relaidOut (ht : t.Valid) {s : Supply} (hs : s.Issued t.uuids) :
    (t.relaidOut s).1.Refers p u o ↔ t.Refers p u o := by
  cases hk : t.kind with
  | sunSpec =>
    simp only [relaidOut, hk]
    exact (refers_placeAll (syncedReferences_spec ht hs).1.valid).trans (refers_syncedReferences ht hs)
  | staticModbus =>
    simp only [relaidOut, hk]
    exact refers_placeAll ht
  | parameters | can | anomalies => simp only [relaidOut, hk]; exact Iff.rfl

theorem settles_relaidOut (ht : t.Valid) {s : Supply} (hs : s.Issued t.uuids) :
    (t.relaidOut s).1.Settles ↔ t.Settles :=
  settles_iff_of_refers ht (valid_relaidOut ht hs) fun _ _ _ => refers_relaidOut ht hs

/-! ### Children that come and go -/

/-- Trees of other kinds have no references. -/
theorem settles_of_kind (ht : t.Valid) (hk : t.kind ≠ .sunSpec ∧ t.kind ≠ .staticModbus) : t.Settles := by
  refine settles_iff_ends.2 fun n hn => ends_of_not_reference (Bool.eq_false_iff.2 fun hr => ?_)
  rw [kind_of_mem ht hn] at hk
  revert hk hr
  cases n.kind <;> decide

/-- A repeating block has no references in it. -/
theorem not_refers_of_isRepeatingBlock (ht : t.Valid) {b : Node} (hb : b ∈ t.all)
    (hk : b.kind.isRepeatingBlock = true) : ¬t.Refers b.uuid u o := by
  intro h
  obtain ⟨m, hm, hmu, r, hr, -, hrk, -⟩ := h.child
  obtain rfl := Node.eq_of_uuid ht.nodup hm hb hmu
  have hallows := ht.allowed m hm r hr
  revert hk hallows hrk
  cases m.kind <;> cases r.kind <;> decide

/-- A new child that has no references in it and, if it is one itself, names a repeating block. -/
theorem settles_addChild (ht : t.Valid) (h : t.Settles) {m c : Node} (hm : m ∈ t.all)
    (hallows : m.kind.allows c.kind = true) {row : Option Nat}
    (hv : (t.edit m.uuid fun n => n.addChild row c).Valid)
    (hc : ∀ p u d, c.Stands p u d → d.kind.isBlockReference = false)
    (hnew : c.kind.isBlockReference = true →
      ∃ b ∈ t.all, b.kind.isRepeatingBlock = true ∧ c.ref? .original = some b.uuid) :
    (t.edit m.uuid fun n => n.addChild row c).Settles := by
  have hrefers : ∀ p u o, (t.edit m.uuid fun n => n.addChild row c).Refers p u o →
      t.Refers p u o ∨ (p = m.uuid ∧ u = c.uuid ∧ c.kind.isBlockReference = true ∧ c.ref? .original = o) := by
    rintro p u o ⟨d, hstands, hk, ho⟩
    rcases Node.stands_edit_addChild hstands with hold | hbelow | ⟨rfl, rfl, rfl⟩
    · exact .inl ⟨d, hold, hk, ho⟩
    · rw [hc _ _ _ hbelow] at hk
      cases hk
    · exact .inr ⟨rfl, rfl, hk, ho⟩
  refine h.of_refers ht.nodup hv fun p u o hr => (hrefers p u o hr).imp_right ?_
  rintro ⟨-, rfl, hk, -⟩ r hr hu
  obtain ⟨b, hb, hbk, ho⟩ := hnew hk
  -- Nothing stands in the block, neither what stood there nor the child.
  have hnone : ∀ v o', ¬(t.edit m.uuid fun n => n.addChild row c).Refers b.uuid v o' := by
    intro v o' hv
    rcases hrefers _ _ _ hv with hold | ⟨hbm, -⟩
    · exact not_refers_of_isRepeatingBlock ht hb hbk hold
    · obtain rfl := Node.eq_of_uuid ht.nodup hb hm hbm
      revert hbk hallows hk
      cases b.kind <;> cases c.kind <;> decide
  have hself : c ∈ (t.edit m.uuid fun n => n.addChild row c).all :=
    Node.mem_edit_of_mem (f := fun n => n.addChild row c) ht.nodup hm rfl
      (Node.mem_all_of_child (Node.mem_place.2 (.inl rfl)))
  obtain rfl := Node.eq_of_uuid hv.nodup hr hself hu
  refine Links.ends_iff.2 fun x hx => ends_of_not_reference (Bool.eq_false_iff.2 fun hxk => ?_)
  obtain ⟨-, k, hkm, hko, hxk'⟩ := exists_of_mem_parts hx
  have hstands := refers_of_child hkm hxk' hxk
  rw [← Option.some.inj (ho.symm.trans hko)] at hstands
  exact hnone _ _ hstands

/-- New children with no references in them. -/
theorem settles_extend (ht : t.Valid) (h : t.Settles) {g : Uuid → List Node}
    (hv : { t with root := t.root.extend g : Tree }.Valid)
    (hg : ∀ u, ∀ c ∈ g u, ∀ x ∈ c.all, x.kind.isBlockReference = false) :
    { t with root := t.root.extend g : Tree }.Settles := by
  refine h.of_refers ht.nodup hv fun p u o => ?_
  rintro ⟨d, hstands, hk, ho⟩
  rcases Node.stands_extend hstands with hold | ⟨m, -, c, hc, ⟨y, hy, -, x, hx, -, rfl⟩ | ⟨-, -, rfl⟩⟩
  · exact .inl ⟨d, hold, hk, ho⟩
  · exact absurd hk (by simp [show x.data.kind.isBlockReference = false from
      hg _ c hc x (Node.mem_all_trans (Node.mem_all_of_child hx) hy)])
  · exact absurd hk (by simp [show c.data.kind.isBlockReference = false from hg _ c hc c c.mem_all_self])

theorem settles_withoutAll (ht : t.Valid) (h : t.Settles) {us : List Uuid}
    (hv : { t with root := t.root.withoutAll us : Tree }.Valid) :
    { t with root := t.root.withoutAll us : Tree }.Settles :=
  h.of_refers ht.nodup hv fun _ _ _ ⟨d, hstands, hd⟩ => .inl ⟨d, Node.stands_withoutAll hstands, hd⟩

/-! ### Moves -/

/-- `n`, or a reference that the size of `n` depends on, names `p`. -/
def LeadsInto (t : Tree) (n p : Node) : Prop :=
  ∃ r, Links.Reaches t.parts n r ∧ r.kind.isBlockReference = true ∧ r.ref? .original = some p.uuid

theorem not_leadsInto {n p : Node} (hk : n.kind.isBlockReference = false) : ¬t.LeadsInto n p := by
  rintro ⟨r, hr, hrk, -⟩
  rcases hr.cases_head with rfl | ⟨c, hc, -⟩
  · rw [hk] at hrk
    cases hrk
  · rw [parts_of_not_reference hk] at hc
    cases hc

section

variable (ht : t.Valid) {n p : Node} (hn : n ∈ t.all) {row : Option Nat}
  (hmove : t.move n.uuid p.uuid row = .ok t')
include ht hn hmove

theorem refers_move {q u : Uuid} {o : Option Uuid} : t'.Refers q u o ↔ (t.Refers q u o ∧ u ≠ n.uuid) ∨
    (q = p.uuid ∧ u = n.uuid ∧ n.kind.isBlockReference = true ∧ n.ref? .original = o) := by
  constructor
  · rintro ⟨d, hstands, hk, ho⟩
    rcases (stands_move ht hmove).1 hstands with ⟨hold, hu⟩ | ⟨hq, hu, m, hm, hmn, rfl⟩
    · exact .inl ⟨⟨d, hold, hk, ho⟩, hu⟩
    · obtain rfl := Node.eq_of_uuid ht.nodup hm hn hmn
      exact .inr ⟨hq, hu, hk, ho⟩
  · rintro (⟨⟨d, hstands, hd⟩, hu⟩ | ⟨hq, hu, hd⟩)
    · exact ⟨d, (stands_move ht hmove).2 (.inl ⟨hstands, hu⟩), hd⟩
    · exact ⟨n.data, (stands_move ht hmove).2 (.inr ⟨hq, hu, n, hn, rfl, rfl⟩), hd⟩

/-- The node that has been moved, with its attributes. -/
theorem exists_moved : ∃ m ∈ t'.all, m.uuid = p.uuid ∧ ∃ c ∈ m.children, c.uuid = n.uuid ∧ c.data = n.data :=
  (stands_move ht hmove).2 (.inr ⟨rfl, rfl, n, hn, rfl, rfl⟩)

theorem settles_move (h : t.Settles) (hcircle : ¬t.LeadsInto n p) : t'.Settles := by
  have hv := ht.move hmove
  obtain ⟨m, hm, -, c, hc, hcu, hcd⟩ := exists_moved ht hn hmove
  refine h.of_refers ht.nodup hv fun q u o hr => ?_
  rcases (refers_move ht hn hmove).1 hr with ⟨hold, -⟩ | ⟨-, rfl, -, -⟩
  · exact .inl hold
  refine .inr fun n' hn' hu => ?_
  obtain rfl := Node.eq_of_uuid hv.nodup hn' (mem_all_of_child hm hc) (hu.trans hcu.symm)
  -- What the size of `n` depends on does not name the block in which `n` stands now.
  refine ends_of_refers (A := fun a => Links.Reaches t.parts n a) ht.nodup (fun a ha b hb => ha.tail hb)
    (fun a ha hak b hb v o' hr => ?_) .refl (settles_iff_ends.1 h n hn) (by rw [Node.kind, hcd]; rfl)
    (by rw [Node.ref?, hcd]; rfl)
  rcases (refers_move ht hn hmove).1 hr with ⟨hold, -⟩ | ⟨rfl, -, -, -⟩
  · exact .inl hold
  · exact absurd ⟨a, ha, hak, hb⟩ hcircle

/-- The way from `n` to something that names `p` is still there, and `p` has `n` in it now. -/
theorem leads_of_leadsInto (h : t.LeadsInto n p) : ∃ r ∈ t'.all, Links.Leads t'.parts r r := by
  have hv := ht.move hmove
  obtain ⟨m, hm, hmu, c, hc, hcu, hcd⟩ := exists_moved ht hn hmove
  have hct := mem_all_of_child hm hc
  have hreaches : ∀ x, Links.Reaches t.parts n x → x.kind.isBlockReference = true →
      ∃ x', Links.Reaches t'.parts c x' ∧ x'.kind.isBlockReference = true ∧ x'.ref? .original = x.ref? .original := by
    intro x hx
    induction hx with
    | refl => exact fun hk => ⟨c, .refl, by rwa [Node.kind, hcd], by rw [Node.ref?, hcd]; rfl⟩
    | @tail y x _ hxy ih =>
      intro hk
      obtain ⟨hyk, b, hb, ho, hxb⟩ := exists_of_mem_parts hxy
      by_cases hxn : x.uuid = n.uuid
      · obtain rfl := Node.eq_of_uuid ht.nodup (mem_all_of_child hb hxb) hn hxn
        exact ⟨c, .refl, by rwa [Node.kind, hcd], by rw [Node.ref?, hcd]; rfl⟩
      · obtain ⟨y', hy', hyk', hyo'⟩ := ih hyk
        obtain ⟨b', hb', hbu, x', hx', -, hxk', hxo'⟩ :=
          ((refers_move ht hn hmove).2 (.inl ⟨refers_of_child hb hxb hk, hxn⟩)).child
        have hmem := mem_parts_of_child hv.nodup hyk' hb' (by rw [hyo', ho, hbu]) hx'
        exact ⟨x', hy'.tail hmem, hxk', hxo'⟩
  obtain ⟨r, hr, hk, ho⟩ := h
  obtain ⟨r', hr', hk', ho'⟩ := hreaches r hr hk
  refine ⟨c, hct, Relation.TransGen.tail' hr' ?_⟩
  exact mem_parts_of_child hv.nodup hk' hm (by rw [ho', ho, hmu]) hc

/-- A move closes a circle exactly if it puts something into what its size depends on. -/
theorem settles_move_iff (h : t.Settles) : t'.Settles ↔ ¬t.LeadsInto n p := by
  refine ⟨fun h' hinto => ?_, settles_move ht hn hmove h⟩
  obtain ⟨r, hr, hrr⟩ := leads_of_leadsInto ht hn hmove hinto
  exact (settles_iff_ends.1 h' r hr).not_leads hrr

end

end DeviceModel.Tree
