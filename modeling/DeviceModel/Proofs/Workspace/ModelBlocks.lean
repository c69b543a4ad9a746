import DeviceModel.Proofs.Workspace.Changing
import DeviceModel.Proofs.Workspace.RegisterRuns

/-!
Blocks of SunSpec models. Main statement: a model begins with its only header, at the first register, and has
a fixed block behind it, whatever is added, deleted or expanded, but for drops that take the header or the
last fixed block elsewhere or bring something in front of the header (`blocks_of_run`).
-/

namespace DeviceModel

namespace Listing

/-- The first row is a header, and no other is. -/
def HeaderFirst (es : List (Uuid × Kind)) : Prop :=
  ∃ e xs, es = e :: xs ∧ e.2 = .headerBlock ∧ ∀ x ∈ xs, x.2 ≠ .headerBlock

variable {es : List (Uuid × Kind)} {e : Uuid × Kind} {u : Uuid}

theorem headerFirst_place {row : Option Nat} (h : HeaderFirst es) (he : e.2 ≠ .headerBlock) (hrow : row ≠ some 0) :
    HeaderFirst (place (row.getD es.length) e es) := by
  obtain ⟨x, xs, rfl, hx, hxs⟩ := h
  obtain ⟨r, hr⟩ : ∃ r, row.getD (x :: xs).length = r + 1 := by
    cases row with
    | none => exact ⟨xs.length, rfl⟩
    | some r => exact Nat.exists_eq_succ_of_ne_zero fun h => hrow (congrArg some h)
  refine ⟨x, place r e xs, by rw [hr]; rfl, hx, fun y hy => ?_⟩
  rcases mem_place.1 hy with rfl | hy
  · exact he
  · exact hxs y hy

/-- Any row but the header may go. -/
theorem headerFirst_filter (h : HeaderFirst es) (hu : ∀ x ∈ es, x.1 = u → x.2 ≠ .headerBlock) :
    HeaderFirst (es.filter (·.1 ∉ [u])) := by
  obtain ⟨x, xs, rfl, hx, hxs⟩ := h
  have hne : x.1 ≠ u := fun hxu => hu x (List.mem_cons_self ..) hxu hx
  refine ⟨x, xs.filter (·.1 ∉ [u]), List.filter_cons_of_pos (by simp [hne]), hx, fun y hy => ?_⟩
  exact hxs y (List.mem_of_mem_filter hy)

/-- The header goes in front again. -/
theorem headerFirst_cons_filter (h : HeaderFirst es) (he : e ∈ es) (hk : e.2 = .headerBlock) : HeaderFirst (e :: es.filter (·.1 ∉ [e.1])) := by
  obtain ⟨x, xs, rfl, -, hxs⟩ := h
  obtain rfl := (List.mem_cons.1 he).resolve_right fun hex => hxs e hex hk
  exact ⟨e, xs.filter (·.1 ∉ [e.1]), by simp, hk, fun y hy => hxs y (List.mem_of_mem_filter hy)⟩

/-- A header in front, and a fixed block. -/
def HasBlocks (es : List (Uuid × Kind)) : Prop := HeaderFirst es ∧ ∃ e ∈ es, e.2 = .fixedBlock

end Listing

namespace Rules.SunSpec

variable {t : Tree} {p n c : Node} {l : Lookup} {s s' : Supply}

/-- A new model has a header and a fixed block. -/
theorem newChild_model {k : Kind} (h : Gives (newChild t p k l) s c s') (hk : c.kind = .sunSpecModel) :
    Listing.HeaderFirst c.listing.rows ∧ ∃ e ∈ c.listing.rows, e.2 = .fixedBlock := by
  obtain rfl : c.kind = k := (produces_newChild .sunSpec t p k l s c s' h).1
  simp only [newChild, hk, gives_bind] at h
  obtain ⟨d, s₁, hd, f, s₂, hf, h⟩ := h
  obtain ⟨rfl, -⟩ := gives_new.1 h
  have hdk : d.kind = .headerBlock := (produces_header l _ _ _ hd).1
  have hfk : f.kind = .fixedBlock := (produces_new_self .fixedBlock [] _ _ _ hf).1
  exact ⟨⟨d.entry, [f.entry], rfl, hdk, by simp [Node.entry, hfk]⟩, f.entry, by simp, hfk⟩

/-- A drop makes neither a model nor a header, and nothing from a header. -/
theorem kind_of_childFrom (h : Gives (childFrom t p n l) s c s') :
    n.kind ≠ .headerBlock ∧ c.kind ≠ .sunSpecModel ∧ c.kind ≠ .headerBlock := by
  have hnew : ∀ {k : Kind} {attrs : List (Attr × Value)}, k ≠ .sunSpecModel ∧ k ≠ .headerBlock →
      Gives (new k attrs) s c s' → c.kind ≠ .sunSpecModel ∧ c.kind ≠ .headerBlock := fun hk h =>
    (produces_new (P := fun k => k ≠ .sunSpecModel ∧ k ≠ .headerBlock) hk _ _ _ _ h).1
  have hlike : n.kind.isParameterLike = true → n.kind ≠ .headerBlock := fun hlike hk => by
    rw [hk] at hlike
    cases hlike
  unfold childFrom at h
  split at h
  · rename_i hk _
    exact ⟨by simp [hk], hnew (by decide) h⟩
  · rename_i hk _
    refine ⟨by simp [hk], (produces_newView (P := fun k => k ≠ .sunSpecModel ∧ k ≠ .headerBlock)
      Family.lawful_sunSpec (Data.kind_of _ _) (by decide) _ _ _ _ _ h).1⟩
  · split at h
    · exact ⟨hlike ‹_›, hnew (by decide) h⟩
    · exact absurd h gives_throw
  · split at h
    · exact ⟨hlike ‹_›, hnew (by decide) h⟩
    · exact absurd h gives_throw
  · exact absurd h gives_throw

theorem of_mem_addable {k : Kind} (h : k ∈ addable t p) (hk : p.kind = .sunSpecModel) : k = .fixedBlock := by
  simp only [addable, hk] at h
  split at h
  · cases h
  · exact List.mem_singleton.1 h

/-- The header of a model is not deleted, and a fixed block only if there is another. -/
theorem of_canDelete (ht : t.uuids.Nodup) (hp : p ∈ t.all) (hn : n ∈ p.children) (h : canDelete t n = true) :
    n.kind ≠ .headerBlock ∧
      (n.kind = .fixedBlock → ∃ d ∈ p.children, d.kind = .fixedBlock ∧ d.uuid ≠ n.uuid) := by
  have hkind := (Bool.and_eq_true_iff.1 h).2
  refine ⟨fun hk => by simp [hk] at hkind, fun hk => ?_⟩
  have hmany : 1 < (p.children.filter (·.kind == .fixedBlock)).length := by
    simpa [hk, Tree.parent?_of_child ht hp hn] using hkind
  by_contra! hnone
  have hsame : (p.children.filter (·.kind == .fixedBlock)).map Node.uuid ⊆ [n.uuid] := by
    intro u hu
    obtain ⟨d, hd, rfl⟩ := List.mem_map.1 hu
    obtain ⟨hd, hdk⟩ := List.mem_filter.1 hd
    exact List.mem_singleton.2 (hnone d hd (eq_of_beq hdk))
  have hnodup : ((p.children.filter (·.kind == .fixedBlock)).map Node.uuid).Nodup :=
    (List.filter_sublist.map Node.uuid).nodup
      ((Node.map_uuid_sublist p.children).nodup (Node.nodup_below (Node.nodup_of_mem hp ht)))
  have hlength := hnodup.length_le_of_subset hsame
  rw [List.length_map] at hlength
  exact absurd hmany hlength.not_gt

end Rules.SunSpec

theorem Kind.isTop_sunSpecModel : Kind.IsTop .sunSpecModel .sunSpec := by
  intro k
  cases k <;> decide

/-- The header of a model is at the first register, and so is what it begins with. -/
theorem Tree.offset_of_header {t : Tree} (hk : t.kind = .sunSpec) (ht : t.UpToDate) {m h : Node} {rest : List Node}
    (hm : m ∈ t.all) (hmk : m.kind = .sunSpecModel) (hchildren : m.children = h :: rest)
    (hhk : h.kind = .headerBlock) : h.int .offset = 0 ∧ ∀ c ∈ h.children.head?, c.int .offset = 0 := by
  have hmem : h ∈ m.children := hchildren ▸ List.mem_cons_self ..
  have hat : ∀ n ∈ t.all, ((n.kind.field? .offset).isSome = true →
      ⟨n.uuid, .offset, 0⟩ ∈ Layout.blocks t 0 m.children) → n.int .offset = 0 := by
    intro n hn hp
    by_cases hf : (n.kind.field? .offset).isSome = true
    · have hlayout : ⟨n.uuid, .offset, 0⟩ ∈ t.layout := by
        rw [Tree.layout, hk]
        exact List.mem_flatMap.2 ⟨m, List.mem_filter.2 ⟨hm, by simp [hmk]⟩, List.mem_append_left _ (hp hf)⟩
      rw [Node.int, Data.int, Data.int?, ht.holds _ hlayout n hn rfl hf]
      rfl
    · rw [Node.int, Data.int, Data.int?, Data.get?_eq_none.2 (Option.not_isSome_iff_eq_none.1 hf)]
      rfl
  have hblocks : Layout.blocks t 0 m.children =
      ⟨h.uuid, .offset, 0⟩ :: Layout.points t 0 0 h.children ++ Layout.blocks t (0 + t.total h.children) rest := by
    rw [hchildren, Layout.blocks]
    simp [hhk]
  refine ⟨hat h (Tree.mem_all_of_child hm hmem) fun _ => hblocks ▸ List.mem_cons_self .., fun c hc => ?_⟩
  obtain ⟨cs, hcs⟩ : ∃ cs, h.children = c :: cs := List.head?_eq_some_iff.1 hc
  have hcm := Tree.mem_all_of_child (Tree.mem_all_of_child hm hmem) (hcs ▸ List.mem_cons_self ..)
  refine hat c hcm fun hf => ?_
  rw [hblocks, hcs, Layout.points, if_pos hf]
  simp

/-- What the nodes are that the rows stand for. -/
theorem Listing.hasBlocks_map_entry {cs : List Node} : HasBlocks (cs.map Node.entry) ↔
    (∃ h rest, cs = h :: rest ∧ h.kind = .headerBlock ∧ ∀ c ∈ rest, c.kind ≠ .headerBlock) ∧
      ∃ c ∈ cs, c.kind = .fixedBlock := by
  constructor
  · rintro ⟨⟨e, es, hcs, he, hes⟩, x, hx, hxk⟩
    obtain ⟨h, rest, rfl, rfl, rfl⟩ := List.map_eq_cons_iff.1 hcs
    obtain ⟨c, hc, rfl⟩ := List.mem_map.1 hx
    exact ⟨⟨h, rest, rfl, he, fun d hd => hes _ (List.mem_map_of_mem hd)⟩, c, hc, hxk⟩
  · rintro ⟨⟨h, rest, rfl, hk, hrest⟩, c, hc, hck⟩
    refine ⟨⟨h.entry, rest.map Node.entry, rfl, hk, fun x hx => ?_⟩, c.entry, List.mem_map_of_mem hc, hck⟩
    obtain ⟨d, hd, rfl⟩ := List.mem_map.1 hx
    exact hrest d hd

/-- A row goes, which is neither the header nor the last fixed block. -/
theorem Listing.hasBlocks_withoutAll {q n : Node} (hq : q.uuids.Nodup) (hn : n ∈ q.children)
    (h : HasBlocks q.listing.rows) (hheader : n.kind ≠ .headerBlock)
    (hfixed : n.kind = .fixedBlock → ∃ d ∈ q.children, d.kind = .fixedBlock ∧ d.uuid ≠ n.uuid) :
    HasBlocks (q.listing.withoutAll [n.uuid]).rows := by
  obtain ⟨hfirst, e, he, hek⟩ := h
  refine ⟨headerFirst_filter hfirst fun x hx hxu => Node.kind_of_row hq hn hx hxu ▸ hheader, ?_⟩
  by_cases heu : e.1 = n.uuid
  · obtain ⟨d, hd, hdk, hdn⟩ := hfixed (Node.kind_of_row hq hn he heu ▸ hek)
    exact ⟨d.entry, List.mem_filter.2 ⟨List.mem_map_of_mem hd, by simpa [Node.entry] using hdn⟩, hdk⟩
  · exact ⟨e, List.mem_filter.2 ⟨he, by simpa using heu⟩, hek⟩

namespace Workspace

open Edit

variable {w w' : Workspace} {p q n c : Node} {row : Option Nat}

section

variable (hw : (w.tree .sunSpec).Valid) (hs : (w.tree .sunSpec).RowsOf .sunSpecModel Listing.HasBlocks)
include hs

/-- What is no header may come in behind the header. -/
theorem hasBlocks_place_model (hp : p ∈ (w.tree .sunSpec).all) (hk : p.kind = .sunSpecModel)
    (hc : c.kind ≠ .headerBlock) (hrow : row ≠ some 0) :
    Listing.HasBlocks (Listing.place (row.getD p.listing.rows.length) c.entry p.listing.rows) := by
  obtain ⟨hfirst, e, he, hek⟩ := hs _ (Node.listing_mem_listings hp) hk
  exact ⟨Listing.headerFirst_place hfirst hc hrow, e, Listing.mem_place.2 (.inr he), hek⟩

include hw

theorem Moved.hasBlocks (h : Moved w .sunSpec q n p row w')
    (hheader : n.kind = .headerBlock → p = q ∧ row = some 0)
    (hfront : n.kind ≠ .headerBlock → p.kind = .sunSpecModel → row ≠ some 0)
    (hfixed : n.kind = .fixedBlock → p ≠ q → ∃ d ∈ q.children, d.kind = .fixedBlock ∧ d.uuid ≠ n.uuid) :
    (w'.tree .sunSpec).RowsOf .sunSpecModel Listing.HasBlocks := by
  have hq := Node.nodup_of_mem h.mem hw.nodup
  have hother : p ≠ q → n.kind ≠ .headerBlock := fun hpq hnk => hpq (hheader hnk).1
  refine h.rowsOf Kind.isTop_sunSpecModel hs hw (fun hpq hqk => ?_)
    (fun hpq hpk => hasBlocks_place_model hs h.target hpk (hother hpq) (hfront (hother hpq) hpk))
    fun hpq hqk => Listing.hasBlocks_withoutAll hq h.child (hs _ (Node.listing_mem_listings h.mem) hqk) (hother hpq)
      fun hnk => hfixed hnk hpq
  subst hpq
  obtain ⟨hfirst, e, he, hek⟩ := hs _ (Node.listing_mem_listings h.mem) hqk
  refine ⟨?_, ?_⟩
  · by_cases hnk : n.kind = .headerBlock
    · rw [(hheader hnk).2]
      exact Listing.headerFirst_cons_filter hfirst (List.mem_map_of_mem h.child) hnk
    · exact Listing.headerFirst_place (Listing.headerFirst_filter hfirst fun x hx hxu =>
        Node.kind_of_row hq h.child hx hxu ▸ hnk) hnk (hfront hnk hqk)
  · by_cases heu : e.1 = n.uuid
    · exact ⟨n.entry, Listing.mem_place.2 (.inl rfl), (Node.kind_of_row hq h.child he heu).symm.trans hek⟩
    · exact ⟨e, Listing.mem_place.2 (.inr (List.mem_filter.2 ⟨he, by simpa using heu⟩)), hek⟩

end

/-! ### Runs by hand -/

/-- An edit by hand, or the expansion of a view, that leaves headers and the last fixed blocks where they are: no
header is dropped but in front of its own model, nothing else is dropped in front of a model, and no fixed block
is dropped elsewhere without another one in its model. -/
def LeavesBlocks (w : Workspace) : Operation → Prop
  | .addChild .. | .delete .. | .expandView .. => True
  | .drop payload target row => ∀ source ∈ (readPayload payload).toOption, ∀ n ∈ w.dropped? .sunSpec source,
      (n.kind = .headerBlock → row = some 0 ∧ ∃ q ∈ (w.tree .sunSpec).all, q.uuid = target ∧ n ∈ q.children) ∧
      (n.kind ≠ .headerBlock → row = some 0 → ∀ p ∈ (w.tree .sunSpec).all, p.uuid = target → p.kind ≠ .sunSpecModel) ∧
      (n.kind = .fixedBlock → ∀ q ∈ (w.tree .sunSpec).all, n ∈ q.children → q.uuid ≠ target →
        ∃ d ∈ q.children, d.kind = .fixedBlock ∧ d.uuid ≠ n.uuid)
  | .setAttribute .. | .syncSeeds .. => False

theorem hasBlocks_of_succeeds (hw : (w.tree .sunSpec).Valid)
    (hs : (w.tree .sunSpec).RowsOf .sunSpecModel Listing.HasBlocks) {op : Operation} (hop : LeavesBlocks w op)
    (h : op.Succeeds .sunSpec w w') : (w'.tree .sunSpec).RowsOf .sunSpecModel Listing.HasBlocks := by
  cases op with
  | addChild parent kind =>
    obtain ⟨u, h⟩ := h
    obtain ⟨p, c, hadd, ⟨s, s', hnew⟩, hinserted⟩ := addChild_inserted hw (by decide) h
    obtain ⟨hck, -⟩ := Rules.produces_newChild .sunSpec _ p kind _ s c s' hnew
    refine hinserted.rowsOf Kind.isTop_sunSpecModel hs hw
      (fun hc => Rules.SunSpec.newChild_model (l := w.models.others .sunSpec) hnew hc)
      fun hpk => hasBlocks_place_model hs hinserted.mem hpk ?_ (by simp)
    rw [hck, Rules.SunSpec.of_mem_addable hadd hpk]
    decide
  | delete u =>
    obtain ⟨n, hn, rfl, hcan, hrun⟩ := delete_ok h
    obtain ⟨q, hremoved⟩ := removed_of_removeNode hw hn hrun
    obtain ⟨hheader, hfixed⟩ := Rules.SunSpec.of_canDelete hw.nodup hremoved.mem hremoved.child hcan
    exact hremoved.rowsOf Kind.isTop_sunSpecModel hs hw fun hqk =>
      Listing.hasBlocks_withoutAll (Node.nodup_of_mem hremoved.mem hw.nodup) hremoved.child
        (hs _ (Node.listing_mem_listings hremoved.mem) hqk) hheader hfixed
  | drop payload target row =>
    obtain ⟨u, h⟩ := h
    obtain ⟨source, p, n, hpayload, hp, rfl, -, hfound, hdrop, hcases⟩ := drop_ok hw h
    obtain ⟨hheader, hfront, hfixed⟩ := hop source (by rw [hpayload]; rfl) n hfound
    rcases hcases with ⟨-, hmove, q, hmoved⟩ | ⟨hcopy, c, s, s', hnew, hinserted, -⟩
    · refine hmoved.hasBlocks hw hs (fun hnk => ?_) (fun hnk hpk hrow => hfront hnk hrow p hp rfl hpk) fun hnk hpq => ?_
      · obtain ⟨hrow, x, hx, hxu, hnx⟩ := hheader hnk
        obtain rfl := Node.eq_of_uuid hw.nodup hx hp hxu
        exact ⟨Node.parent_unique hw.nodup hx hmoved.mem hnx hmoved.child rfl, hrow⟩
      · exact hfixed hnk q hmoved.mem hmoved.child fun hqp => hpq (Node.eq_of_uuid hw.nodup hmoved.mem hp hqp).symm
    · obtain ⟨hnk, hmodel, hnoHeader⟩ := Rules.SunSpec.kind_of_childFrom (t := w.tree .sunSpec) hnew
      exact hinserted.rowsOf Kind.isTop_sunSpecModel hs hw (fun hc => absurd hc hmodel) fun hpk =>
        hasBlocks_place_model hs hp hpk hnoHeader fun hrow => hfront hnk hrow p hp rfl hpk
  | expandView view table o =>
    obtain ⟨e, h⟩ := h
    obtain ⟨a, t, ha, hreplaced⟩ := expandView_told hw h
    refine hreplaced.rowsOf Kind.isTop_sunSpecModel hs ?_ ?_
    all_goals
      intro hk
      rw [hk] at ha
      cases ha
  | setAttribute | syncSeeds => exact hop.elim

/-- However a SunSpec tree is edited by hand or expanded from its beginning, as long as no drop takes a header or
the last fixed block of a model away or brings something in front of a header: every model begins with its only
header, which is at the first register, and has a fixed block. -/
theorem blocks_of_run {u : Uuid} (hw : w.tree .sunSpec = .initial .sunSpec u) (h : RunOf .sunSpec LeavesBlocks w w')
    {m : Node} (hm : m ∈ (w'.tree .sunSpec).all) (hk : m.kind = .sunSpecModel) :
    (∃ header rest, m.children = header :: rest ∧ header.kind = .headerBlock ∧
      (∀ c ∈ rest, c.kind ≠ .headerBlock) ∧ header.int .offset = 0 ∧
        ∀ c ∈ header.children.head?, c.int .offset = 0) ∧ ∃ c ∈ m.children, c.kind = .fixedBlock := by
  obtain ⟨-, hkind, hdate, hs⟩ := keeps_of_run
    (Q := fun t => t.UpToDate ∧ t.RowsOf .sunSpecModel Listing.HasBlocks)
    (hw ▸ Tree.valid_initial .sunSpec u) (by rw [hw]; rfl)
    (hw ▸ ⟨Tree.upToDate_initial .sunSpec u, Tree.rowsOf_initial (by decide) _⟩)
    (fun v v' op hv hk hq hop hrun => ⟨((⟨hv, hk, hq.1⟩ : Sound .sunSpec v).operate (by rfl) hrun).upToDate,
      hasBlocks_of_succeeds hv hq.2 hop hrun⟩) h
  obtain ⟨⟨header, rest, hchildren, hheader, hrest⟩, hfixed⟩ :=
    Listing.hasBlocks_map_entry.1 (hs _ (Node.listing_mem_listings hm) hk)
  exact ⟨⟨header, rest, hchildren, hheader, hrest, Tree.offset_of_header hkind hdate hm hk hchildren hheader⟩, hfixed⟩

/-- Two models, and a second fixed block in the first. -/
def twoModels : List Operation :=
  [.addChild ⟨2⟩ .sunSpecModel, .addChild ⟨2⟩ .sunSpecModel, .addChild ⟨9⟩ .fixedBlock]

/-- One of the two fixed blocks is moved to the other model. -/
theorem blocks_of_run_twoModels : ∃ w', RunOf .sunSpec LeavesBlocks (initial 0) w' ∧
    ∃ m ∈ (w'.tree .sunSpec).all, m.uuid = ⟨9⟩ ∧
      (∃ header rest, m.children = header :: rest ∧ header.kind = .headerBlock ∧
        (∀ c ∈ rest, c.kind ≠ .headerBlock) ∧ header.int .offset = 0 ∧
          ∀ c ∈ header.children.head?, c.int .offset = 0) ∧ ∃ c ∈ m.children, c.kind = .fixedBlock := by
  have hrun : RunOf .sunSpec LeavesBlocks (initial 0) ((initial 0).operated .sunSpec twoModels) :=
    run_operated (by simp [twoModels, LeavesBlocks])
  have hmoved := RunOf.operate (.drop (Uuid.bytes ⟨8⟩) ⟨14⟩ none) hrun fun _ _ => by
    unfold LeavesBlocks
    decide +kernel
  have hfind : ∃ m ∈ ((outcome ((Operation.drop (Uuid.bytes ⟨8⟩) ⟨14⟩ none).run .sunSpec)
      ((initial 0).operated .sunSpec twoModels)).2.tree .sunSpec).all, m.uuid = ⟨9⟩ ∧ m.kind = .sunSpecModel := by
    decide +kernel
  obtain ⟨m, hm, hu, hk⟩ := hfind
  exact ⟨_, hmoved, m, hm, hu, blocks_of_run (u := ⟨2⟩) (by decide +kernel) hmoved hm hk⟩

/-- The header of one model is dropped on the other. -/
theorem exists_no_header : ∃ w', RunOf .sunSpec (fun _ op => op.isByHand = true) (initial 0) w' ∧
    (initial 0).tree .sunSpec = .initial .sunSpec ⟨2⟩ ∧
      (∃ m ∈ (w'.tree .sunSpec).all, m.kind = .sunSpecModel ∧ ∀ c ∈ m.children, c.kind ≠ .headerBlock) ∧
        ∃ m ∈ (w'.tree .sunSpec).all, m.kind = .sunSpecModel ∧ 1 < (m.children.filter (·.kind == .headerBlock)).length := by
  refine ⟨(initial 0).operated .sunSpec (twoModels ++ [.drop (Uuid.bytes ⟨12⟩) ⟨9⟩ none]),
    run_operated (by simp [twoModels, Operation.isByHand]), by decide +kernel, by decide +kernel, by decide +kernel⟩

end Workspace

end DeviceModel
