import DeviceModel.Proofs.Workspace.Changing

/-!
Selectors of multiplexed messages. Main statement: a multiplexed message with multiplexers or tables begins
with a signal, however the CAN tree is edited by hand, but for drops in front of it, or of it elsewhere
(`selector_of_run`).
-/

namespace DeviceModel

namespace Listing

/-- Rows with a multiplexer or a table among them begin with a signal. -/
def Selected (es : List (Uuid × Kind)) : Prop :=
  (∃ e ∈ es, e.2 = .multiplexer ∨ e.2 = .canTable) → ∃ e ∈ es.head?, e.2 = .signal

variable {es : List (Uuid × Kind)} {e : Uuid × Kind} {row : Nat}

theorem head?_place_of_ne (hrow : row ≠ 0) (hes : es ≠ []) : (place row e es).head? = es.head? := by
  obtain ⟨r, rfl⟩ := Nat.exists_eq_succ_of_ne_zero hrow
  obtain ⟨x, xs, rfl⟩ := List.exists_cons_of_ne_nil hes
  rfl

theorem selected_place_signal (he : e.2 = .signal) (h : Selected es) : Selected (place row e es) := by
  rintro ⟨x, hx, hk⟩
  by_cases hrow : row = 0
  · subst hrow
    exact ⟨e, rfl, he⟩
  · have hxe : x ∈ es := (mem_place.1 hx).resolve_left fun hxe => by
      rw [hxe, he] at hk
      exact absurd hk (by decide)
    rw [head?_place_of_ne hrow (List.ne_nil_of_mem hxe)]
    exact h ⟨x, hxe, hk⟩

/-- A signal may come in anywhere, and other rows behind a signal. -/
theorem selected_place {row : Option Nat} (hes : ∀ x ∈ es, x.2 = .signal ∨ x.2 = .multiplexer ∨ x.2 = .canTable)
    (h : Selected es) (he : e.2 = .signal ∨ ((∃ x ∈ es, x.2 = .signal) ∧ row ≠ some 0)) :
    Selected (place (row.getD es.length) e es) := by
  rcases he with he | ⟨⟨s, hs, -⟩, hrow⟩
  · exact selected_place_signal he h
  · intro _
    have hne : row.getD es.length ≠ 0 := by
      cases row with
      | none => exact (List.length_pos_of_mem hs).ne'
      | some r => exact fun hr => hrow (congrArg some hr)
    rw [head?_place_of_ne hne (List.ne_nil_of_mem hs)]
    obtain ⟨x, xs, rfl⟩ := List.exists_cons_of_ne_nil (List.ne_nil_of_mem hs)
    rcases hes x (List.mem_cons_self ..) with hx | hx
    · exact ⟨x, rfl, hx⟩
    · exact h ⟨x, List.mem_cons_self .., hx⟩

end Listing

namespace Rules.Can

variable {t : Tree} {p n c : Node} {l : Lookup} {s s' : Supply}

theorem exists_signal (h : hasSelector p = true) : ∃ c ∈ p.children, c.kind = .signal := by
  simpa [hasSelector] using h

theorem newChild_leaf {k : Kind} (h : Gives (newChild t p k l) s c s') : c.children = [] := by
  unfold newChild at h
  split at h
  all_goals first
    | exact absurd h gives_throw
    | (obtain ⟨rfl, -⟩ := gives_new.1 h; rfl)

/-- A drop makes a signal, or a view of a table. -/
theorem kind_of_childFrom (h : Gives (childFrom t p n l) s c s') :
    c.kind = .signal ∨ (c.kind = .canTable ∧ n.kind = .table) := by
  unfold childFrom at h
  split at h
  · exact .inl (produces_new (P := (· = .signal)) rfl _ _ _ _ h).1
  split at h
  · rename_i hk
    exact .inr ⟨(produces_newView (P := (· = .canTable)) Family.lawful_can (Data.kind_of _ _) rfl _ _ _ _ _ h).1, hk⟩
  · exact absurd h gives_throw

/-- Where a table of the parameters is dropped on a multiplexed message, this has a selector. -/
theorem hasSelector_of_canDrop (h : canDrop t p n = true) (hmove : t.contains n.uuid = true → t.canMove p n = false)
    (hp : p.kind = .multiplexedMessage) (hn : n.kind = .table) : hasSelector p = true := by
  unfold canDrop at h
  split at h
  · rename_i hc
    exact absurd h (by simp [hmove hc])
  · split at h
    · cases h
    · by_contra hnone
      simp only [hp, hn, if_neg hnone] at h
      exact absurd h (by decide)

/-- Under a multiplexed message the first signal comes first. -/
theorem of_mem_addable {k : Kind} (h : k ∈ addable t p) (hk : p.kind = .multiplexedMessage) :
    k = .signal ∨ (k = .multiplexer ∧ hasSelector p = true) := by
  simp only [addable, hk] at h
  split at h
  · cases h
  · split at h
    · exact .inr ⟨List.mem_singleton.1 h, ‹_›⟩
    · exact .inl (List.mem_singleton.1 h)

/-- The signals of a message that multiplexes are not deleted. -/
theorem of_canDelete (ht : t.uuids.Nodup) (hp : p ∈ t.all) (hn : n ∈ p.children) (h : canDelete t n = true)
    (hk : p.kind = .multiplexedMessage) (hs : n.kind = .signal) :
    ∀ c ∈ p.children, c.kind ≠ .multiplexer ∧ c.kind ≠ .canTable := by
  simpa [canDelete, Tree.parent?_of_child ht hp hn, hk, hs] using (Bool.and_eq_true_iff.1 h).2

end Rules.Can

theorem Kind.isTop_multiplexedMessage : Kind.IsTop .multiplexedMessage .can := by
  intro k
  cases k <;> decide

/-- What the nodes are that the rows stand for. -/
theorem Listing.selected_map_entry {cs : List Node} : Selected (cs.map Node.entry) ↔
    ((∃ c ∈ cs, c.kind = .multiplexer ∨ c.kind = .canTable) → ∃ c ∈ cs.head?, c.kind = .signal) := by
  simp [Selected, Node.entry, List.head?_map]

/-- A row goes, and the selector not before what it selects. -/
theorem Listing.selected_withoutAll {q n : Node} (hq : q.uuids.Nodup) (hn : n ∈ q.children) (h : Selected q.listing.rows)
    (hout : n.kind = .signal → ∀ cs, q.children = n :: cs → Selected (cs.map Node.entry)) :
    Selected (q.listing.withoutAll [n.uuid]).rows := by
  obtain ⟨d, cs, hchildren⟩ := List.exists_cons_of_ne_nil (List.ne_nil_of_mem hn)
  rw [Node.rows_listing, hchildren] at h
  by_cases hd : d = n
  · subst hd
    rw [Listing.withoutAll, Node.rows_listing, hchildren, List.map_cons, List.filter_cons_of_neg (by simp [Node.entry]),
      Node.filter_behind hq hchildren]
    by_cases hds : d.kind = .signal
    · exact hout hds cs hchildren
    · -- What is no signal in front has nothing behind it that is selected.
      rintro ⟨e, he, hek⟩
      obtain ⟨y, hy, hyk⟩ := h ⟨e, List.mem_cons_of_mem _ he, hek⟩
      obtain rfl := Option.some.inj hy
      exact absurd hyk hds
  · have hdn : d.uuid ≠ n.uuid := fun hu => hd (Node.eq_of_uuid hq
      (Node.mem_all_of_child (hchildren ▸ List.mem_cons_self ..)) (Node.mem_all_of_child hn) hu)
    rw [Listing.withoutAll, Node.rows_listing, hchildren, List.map_cons,
      List.filter_cons_of_pos (by simpa [Node.entry] using hdn)]
    rintro ⟨y, hy, hyk⟩
    have hmem : y ∈ (d :: cs).map Node.entry := (List.mem_cons.1 hy).elim (fun h => h ▸ List.mem_cons_self ..)
      fun h => List.mem_cons_of_mem _ (List.mem_of_mem_filter h)
    exact h ⟨y, hmem, hyk⟩

namespace Workspace

open Edit

variable {w w' : Workspace} {p q n c : Node} {row : Option Nat}

section

variable (hw : (w.tree .can).Valid)
include hw

/-- What is below a multiplexed message is a signal, or what one selects. -/
theorem kind_of_message (hp : p ∈ (w.tree .can).all) (hk : p.kind = .multiplexedMessage) {e : Uuid × Kind}
    (he : e ∈ p.listing.rows) : e.2 = .signal ∨ e.2 = .multiplexer ∨ e.2 = .canTable := by
  obtain ⟨c, hc, rfl⟩ := List.mem_map.1 he
  have hallows := hw.allowed p hp c hc
  rw [hk] at hallows
  simpa [Kind.allows, Kind.childKinds, Node.entry] using hallows

variable (hs : (w.tree .can).RowsOf .multiplexedMessage Listing.Selected)
include hs

/-- A signal may come into a message anywhere, and other rows behind one. -/
theorem selected_place_message (hp : p ∈ (w.tree .can).all) (hk : p.kind = .multiplexedMessage)
    (hc : c.kind = .signal ∨ (Rules.Can.hasSelector p = true ∧ row ≠ some 0)) :
    Listing.Selected (Listing.place (row.getD p.listing.rows.length) c.entry p.listing.rows) := by
  refine Listing.selected_place (fun x => kind_of_message hw hp hk) (hs _ (Node.listing_mem_listings hp) hk) ?_
  refine hc.imp_right fun ⟨hselector, hrow⟩ => ⟨?_, hrow⟩
  obtain ⟨d, hd, hdk⟩ := Rules.Can.exists_signal hselector
  exact ⟨d.entry, List.mem_map_of_mem hd, hdk⟩

theorem Moved.selected (h : Moved w .can q n p row w')
    (hin : p.kind = .multiplexedMessage → n.kind = .signal ∨ (Rules.Can.hasSelector p = true ∧ row ≠ some 0))
    (hout : q.kind = .multiplexedMessage → n.kind = .signal → ∀ cs, q.children = n :: cs →
      Listing.Selected (cs.map Node.entry) ∨ (p = q ∧ row = some 0)) :
    (w'.tree .can).RowsOf .multiplexedMessage Listing.Selected := by
  have hq := Node.nodup_of_mem h.mem hw.nodup
  have hrest : q.kind = .multiplexedMessage → ¬(n.kind = .signal ∧ p = q ∧ row = some 0) →
      Listing.Selected (q.listing.withoutAll [n.uuid]).rows := fun hqk hstays =>
    Listing.selected_withoutAll hq h.child (hs _ (Node.listing_mem_listings h.mem) hqk) fun hns cs hcs =>
      (hout hqk hns cs hcs).resolve_right fun hfront => hstays ⟨hns, hfront⟩
  refine h.rowsOf Kind.isTop_multiplexedMessage hs hw (fun hpq hqk => ?_)
    (fun _ hpk => selected_place_message hw hs h.target hpk (hin hpk)) fun hpq hqk => hrest hqk fun h => hpq h.2.1
  subst hpq
  by_cases hfront : n.kind = .signal ∧ row = some 0
  · rw [hfront.2]
    exact fun _ => ⟨n.entry, rfl, hfront.1⟩
  · refine Listing.selected_place (fun x hx => kind_of_message hw h.mem hqk (List.mem_of_mem_filter hx))
      (hrest hqk fun h => hfront ⟨h.1, h.2.2⟩) ?_
    by_cases hns : n.kind = .signal
    · exact .inl hns
    · obtain ⟨hselector, hrow⟩ := (hin hqk).resolve_left hns
      obtain ⟨d, hd, hdk⟩ := Rules.Can.exists_signal hselector
      refine .inr ⟨⟨d.entry, List.mem_filter.2 ⟨List.mem_map_of_mem hd, decide_eq_true fun hdn => hns ?_⟩, hdk⟩, hrow⟩
      rwa [← Node.eq_of_uuid hq (Node.mem_all_of_child hd) (Node.mem_all_of_child h.child) (List.mem_singleton.1 hdn)]

end

/-! ### Runs by hand -/

/-- An edit by hand that leaves selectors where they are: multiplexers and views are moved to multiplexed messages
only that have a selector, neither these nor views of tables dropped come in front of one, and no selector is moved
from in front of what it selects. -/
def LeavesSelectors (w : Workspace) : Operation → Prop
  | .addChild .. | .delete .. => True
  | .drop payload target row => ∀ source ∈ (readPayload payload).toOption, ∀ n ∈ w.dropped? .can source,
      (n.kind = .multiplexer ∨ n.kind = .canTable → ∀ p ∈ (w.tree .can).all, p.uuid = target →
        p.kind = .multiplexedMessage → Rules.Can.hasSelector p = true) ∧
      (n.kind = .multiplexer ∨ n.kind = .canTable ∨ n.kind = .table → row = some 0 →
        ∀ p ∈ (w.tree .can).all, p.uuid = target → p.kind ≠ .multiplexedMessage) ∧
      ∀ q ∈ (w.tree .can).all, q.kind = .multiplexedMessage → q.children.head? = some n →
        (∃ c ∈ q.children.tail, c.kind = .multiplexer ∨ c.kind = .canTable) →
          (∃ c ∈ q.children.tail.head?, c.kind = .signal) ∨ (target = q.uuid ∧ row = some 0)
  | .setAttribute .. | .expandView .. | .syncSeeds .. => False

theorem selected_of_succeeds (hw : (w.tree .can).Valid)
    (hs : (w.tree .can).RowsOf .multiplexedMessage Listing.Selected) {op : Operation} (hop : LeavesSelectors w op)
    (h : op.Succeeds .can w w') : (w'.tree .can).RowsOf .multiplexedMessage Listing.Selected := by
  cases op with
  | addChild parent kind =>
    obtain ⟨u, h⟩ := h
    obtain ⟨p, c, hadd, ⟨s, s', hnew⟩, hinserted⟩ := addChild_inserted hw (by decide) h
    obtain ⟨hck, -⟩ := Rules.produces_newChild .can _ p kind _ s c s' hnew
    refine hinserted.rowsOf Kind.isTop_multiplexedMessage hs hw (fun _ => ?_) fun hpk =>
      selected_place_message hw hs hinserted.mem hpk ?_
    · rw [Node.rows_listing, Rules.Can.newChild_leaf (l := w.models.others .can) hnew]
      exact fun ⟨e, he, _⟩ => absurd he List.not_mem_nil
    · rcases Rules.Can.of_mem_addable hadd hpk with rfl | ⟨-, hselector⟩
      · exact .inl hck
      · exact .inr ⟨hselector, by simp⟩
  | delete u =>
    obtain ⟨n, hn, rfl, hcan, hrun⟩ := delete_ok h
    obtain ⟨q, hremoved⟩ := removed_of_removeNode hw hn hrun
    refine hremoved.rowsOf Kind.isTop_multiplexedMessage hs hw fun hqk =>
      Listing.selected_withoutAll (Node.nodup_of_mem hremoved.mem hw.nodup) hremoved.child
        (hs _ (Node.listing_mem_listings hremoved.mem) hqk) fun hns cs hcs => ?_
    refine Listing.selected_map_entry.2 fun ⟨c, hc, hck⟩ => ?_
    have hnone := Rules.Can.of_canDelete hw.nodup hremoved.mem hremoved.child hcan hqk hns c
      (hcs ▸ List.mem_cons_of_mem _ hc)
    exact absurd hck (not_or.2 hnone)
  | drop payload target row =>
    obtain ⟨u, h⟩ := h
    obtain ⟨source, p, n, hpayload, hp, rfl, -, hfound, hdrop, hcases⟩ := drop_ok hw h
    obtain ⟨hin, hfront, hout⟩ := hop source (by rw [hpayload]; rfl) n hfound
    rcases hcases with ⟨-, hmove, q, hmoved⟩ | ⟨hcopy, c, s, s', hnew, hinserted, -⟩
    · refine hmoved.selected hw hs (fun hpk => ?_) fun hqk hns cs hcs => ?_
      · have hallows := Tree.allows_of_canMove hmove
        rw [hpk] at hallows
        have hnk : n.kind = .signal ∨ n.kind = .multiplexer ∨ n.kind = .canTable := by
          simpa [Kind.allows, Kind.childKinds] using hallows
        exact hnk.imp_right fun hnk => ⟨hin hnk p hp rfl hpk, fun hrow => hfront (hnk.imp_right .inl) hrow p hp rfl hpk⟩
      · by_cases hback : p = q ∧ row = some 0
        · exact .inr hback
        · refine .inl (Listing.selected_map_entry.2 fun hselected => ?_)
          have hleft := hout q hmoved.mem hqk
          rw [hcs] at hleft
          refine (hleft rfl hselected).resolve_right fun hpq => hback ⟨?_, hpq.2⟩
          exact Node.eq_of_uuid hw.nodup hp hmoved.mem hpq.1
    · have hck := Rules.Can.kind_of_childFrom hnew
      refine hinserted.rowsOf Kind.isTop_multiplexedMessage hs hw (fun hc => ?_) fun hpk =>
        selected_place_message hw hs hp hpk ?_
      · rw [hc] at hck
        simp at hck
      · rcases hck with hck | ⟨-, hnk⟩
        · exact .inl hck
        · refine .inr ⟨Rules.Can.hasSelector_of_canDrop hdrop hcopy hpk hnk, fun hrow => ?_⟩
          exact hfront (.inr (.inr hnk)) hrow p hp rfl hpk
  | setAttribute | expandView | syncSeeds => exact hop.elim

/-- However a CAN tree is edited by hand from its beginning, as long as no drop brings something in front of a
selector or takes one away: a multiplexed message with multiplexers or tables has a signal, and begins with
one. -/
theorem selector_of_run {u : Uuid} (hw : w.tree .can = .initial .can u) (h : RunOf .can LeavesSelectors w w') {m : Node}
    (hm : m ∈ (w'.tree .can).all) (hk : m.kind = .multiplexedMessage)
    (hc : ∃ c ∈ m.children, c.kind = .multiplexer ∨ c.kind = .canTable) :
    (∃ c ∈ m.children, c.kind = .signal) ∧ ∃ c ∈ m.children.head?, c.kind = .signal := by
  obtain ⟨-, -, hs⟩ := keeps_of_run (Q := (·.RowsOf .multiplexedMessage Listing.Selected))
    (hw ▸ Tree.valid_initial .can u) (by rw [hw]; rfl) (hw ▸ Tree.rowsOf_initial (by decide) _)
    (fun _ _ _ hv _ hs hop hrun => selected_of_succeeds hv hs hop hrun) h
  have hfirst := Listing.selected_map_entry.1 (hs _ (Node.listing_mem_listings hm) hk) hc
  exact ⟨hfirst.imp fun _ hc => ⟨List.mem_of_mem_head? hc.1, hc.2⟩, hfirst⟩

/-- A multiplexed message with its selector, and a multiplexer with a signal. -/
def multiplexing : List Operation :=
  [.addChild ⟨1⟩ .multiplexedMessage, .addChild ⟨5⟩ .signal, .addChild ⟨5⟩ .multiplexer, .addChild ⟨7⟩ .signal]

/-- The signal of the multiplexer is moved behind the selector. -/
theorem selector_of_run_multiplexing : ∃ w', RunOf .can LeavesSelectors (initial 0) w' ∧
    ∃ m ∈ (w'.tree .can).all, m.children.map Node.kind = [.signal, .multiplexer, .signal] ∧
      ∃ c ∈ m.children.head?, c.kind = .signal := by
  have hrun : RunOf .can LeavesSelectors (initial 0) ((initial 0).operated .can multiplexing) :=
    run_operated (by simp [multiplexing, LeavesSelectors])
  have hmoved := RunOf.operate (.drop (Uuid.bytes ⟨8⟩) ⟨5⟩ none) hrun fun _ _ => by
    unfold LeavesSelectors
    decide +kernel
  have hfind : ∃ m ∈ ((outcome ((Operation.drop (Uuid.bytes ⟨8⟩) ⟨5⟩ none).run .can)
      ((initial 0).operated .can multiplexing)).2.tree .can).all, m.kind = .multiplexedMessage ∧
        m.children.map Node.kind = [.signal, .multiplexer, .signal] ∧
          ∃ c ∈ m.children, c.kind = .multiplexer ∨ c.kind = .canTable := by decide +kernel
  obtain ⟨m, hm, hk, hkinds, hc⟩ := hfind
  exact ⟨_, hmoved, m, hm, hkinds, (selector_of_run (u := ⟨1⟩) (by decide +kernel) hmoved hm hk hc).2⟩

/-- The selector is dropped on another message. -/
theorem exists_no_selector : ∃ w', RunOf .can (fun _ op => op.isByHand = true) (initial 0) w' ∧
    (initial 0).tree .can = .initial .can ⟨1⟩ ∧ ∃ m ∈ (w'.tree .can).all, m.kind = .multiplexedMessage ∧
      (∃ c ∈ m.children, c.kind = .multiplexer) ∧ ∀ c ∈ m.children, c.kind ≠ .signal := by
  refine ⟨(initial 0).operated .can (multiplexing ++ [.addChild ⟨1⟩ .message, .drop (Uuid.bytes ⟨6⟩) ⟨9⟩ none]),
    run_operated (by simp [multiplexing, Operation.isByHand]), by decide +kernel, by decide +kernel⟩

end Workspace

end DeviceModel
