import DeviceModel.Proofs.Can.Frames

/-!
The signals that a CAN matrix lays out. Main statements: the frame of a message places the signals in it and in
its multiplexers, and no others (`places_perm`); and of the signals of a valid tree these are the ones that are no
reference signals of a table, in the order of the tree (`laidOut_sublist`, `exists_mem_laidOut`).
-/

namespace DeviceModel

namespace Can

variable {l : Lookup} {t : Tree}

/-- Where a signal lies: in a frame or in one of its sections, and at what bits of it. -/
structure Place where
  holder : String
  signal : String
  startBit : Int
  bits : Int
  deriving DecidableEq, Repr

def Signal.place (holder : String) (s : Signal) : Place := ⟨holder, s.name, s.startBit, s.bits⟩

/-- The places of the selector, of the signals of all sections, and of those of each section. -/
def Frame.places (f : Frame) : List Place :=
  (f.selector.toList.map fun s => ⟨f.name, s.name, s.startBit, s.bits⟩) ++ f.signals.map (Signal.place f.name) ++
    f.sections.flatMap fun s => s.signals.map (Signal.place s.name)

/-- The signals that a child of the message `m` brings to its frame, with the nodes that they lie in. -/
def laidOutBy (m c : Node) : List (Node × Node) :=
  if c.kind = .signal then [(m, c)] else (multiplexers c).flatMap fun y => y.children.map (y, ·)

/-- The signals of a frame that is no clone, in the order of the tree. -/
def laidOutIn (m : Node) : List (Node × Node) :=
  if m.kind = .message ∨ m.kind = .multiplexedMessage then m.children.flatMap (laidOutBy m) else []

/-- The signals that are laid out, with the messages or multiplexers that they lie in. -/
def laidOut (t : Tree) : List (Node × Node) := t.root.children.flatMap laidOutIn

/-- The place that a signal has by its node. -/
def placeOf (x : Node × Node) : Place := ⟨x.1.name, x.2.name, x.2.int .startBit, x.2.int .bits⟩

theorem multiplexers_signal {c : Node} (h : c.kind = .signal) : multiplexers c = [] := by
  simp [multiplexers, h]

/-- Signals of all sections first, and then those of each section. -/
theorem flatMap_laidOutBy_perm (m : Node) (cs : List Node) : (cs.flatMap (laidOutBy m)).Perm
    ((cs.filter (·.kind == .signal)).map (m, ·) ++ (cs.flatMap multiplexers).flatMap fun y => y.children.map (y, ·)) := by
  induction cs with
  | nil => exact .nil
  | cons c cs ih =>
    rw [List.flatMap_cons, laidOutBy]
    split
    · rename_i hk
      rw [List.filter_cons_of_pos (by simp [hk]), List.flatMap_cons, multiplexers_signal hk, List.nil_append]
      exact ih.cons _
    · rename_i hk
      rw [List.filter_cons_of_neg (by simp [hk]), List.flatMap_cons, List.flatMap_append]
      exact (ih.append_left _).trans (List.perm_append_comm_assoc ..)

theorem map_place {h : Node} {ns : List Node} {ss : List Signal}
    (hss : List.Forall₂ (fun n s => Signal.ofNode l t n = .ok s) ns ss) :
    ss.map (Signal.place h.name) = (ns.map (h, ·)).map placeOf := by
  rw [List.map_map]
  refine (map_eq_of_forall₂ (hss.imp fun n s hs => ?_) fun n s hs => hs)
  obtain ⟨hname, hstart, hbits, -⟩ := Signal.of_ofNode hs
  simp only [Function.comp_apply, Signal.place, placeOf, hname, hstart, hbits]

theorem flatMap_place {ys : List Node} {ss : List Section}
    (hss : List.Forall₂ (fun y s => Section.ofNode l t y = .ok s) ys ss) :
    (ss.flatMap fun s => s.signals.map (Signal.place s.name)) =
      (ys.flatMap fun y => y.children.map (y, ·)).map placeOf := by
  induction hss with
  | nil => rfl
  | @cons y s ys ss hs _ ih =>
    obtain ⟨hname, -, hsignals⟩ := Section.of_ofNode hs
    rw [List.flatMap_cons, List.flatMap_cons, List.map_append, ih, hname, map_place hsignals]

theorem places_plain {m : Node} (hm : m.kind = .message) (hc : ∀ c ∈ m.children, c.kind = .signal) {f : Frame}
    (h : Frame.plain l t m = .ok f) : f.places = (laidOutIn m).map placeOf := by
  obtain ⟨ss, rfl, hss⟩ := Frame.exists_of_plain h
  have hlaid : laidOutIn m = m.children.map (m, ·) := by
    rw [laidOutIn, if_pos (.inl hm), List.map_eq_flatMap]
    exact List.flatMap_congr fun c hcm => by rw [laidOutBy, if_pos (hc c hcm)]
  rw [hlaid, ← map_place (l := l) (t := t) hss]
  simp [Frame.places, Frame.header]

theorem places_multiplexed {m : Node} (hm : m.kind = .multiplexedMessage) {f : Frame}
    (h : Frame.multiplexed l t m = .ok f) : f.places.Perm ((laidOutIn m).map placeOf) := by
  obtain ⟨ss, sections, rfl, hss, hsections⟩ := Frame.exists_of_multiplexed h
  have hall : Frame.places { Frame.header m with
      selector := ss.head?.map fun s => ⟨s.name, s.startBit, s.bits⟩
      signals := ss.drop 1
      sections := sections } =
        ss.map (Signal.place m.name) ++ sections.flatMap fun s => s.signals.map (Signal.place s.name) := by
    cases ss <;> rfl
  rw [hall, map_place hss, flatMap_place hsections, ← List.map_append, laidOutIn, if_pos (.inr hm)]
  exact ((flatMap_laidOutBy_perm m m.children).map placeOf).symm

/-- The frames of messages that are no clones lay out the signals of these messages, and no others. -/
def Matrix.LaysOut (m : Matrix) (t : Tree) : Prop :=
  ∃ fs : List (Option Frame), m.frames = fs.filterMap id ∧
    List.Forall₂ (fun c x => c.kind = .multiplexedMessageClone ∨
      ∃ f, x = some f ∧ f.places.Perm ((laidOutIn c).map placeOf)) t.root.children fs

theorem laysOut_of_ofModels {ms : Models} (ht : (ms.tree .can).Valid) (hk : (ms.tree .can).kind = .can)
    {title : String} {m : Matrix} (h : Matrix.ofModels ms title = .ok m) : m.LaysOut (ms.tree .can) := by
  obtain ⟨fs, hfs, rfl⟩ := return_eq_ok_iff.1 h
  refine ⟨fs, rfl, ?_⟩
  have hmem := (List.forall₂_and_left (p := (· ∈ (ms.tree .can).root.children)) _ _).2
    ⟨fun c hc => hc, forall₂_of_mapM hfs⟩
  refine hmem.imp fun c x ⟨hc, hx⟩ => ?_
  have hallows := ht.allowed _ (ms.tree .can).root_mem c hc
  rw [ht.root, hk] at hallows
  have hkinds : ∀ j : Kind, Kind.canRoot.allows j = true →
      j = .message ∨ j = .multiplexedMessage ∨ j = .multiplexedMessageClone := by
    intro j; cases j <;> decide
  rcases hkinds _ hallows with hck | hck | hck
  · obtain ⟨f, rfl, hf⟩ := Frame.within_message hck hx
    refine .inr ⟨f, rfl, .of_eq (places_plain hck (fun d hd => ?_) hf)⟩
    have hd := ht.allowed c (Tree.mem_all_of_child (ms.tree .can).root_mem hc) d hd
    rw [hck] at hd
    revert hd
    cases d.kind <;> decide
  · obtain ⟨f, rfl, hf⟩ := Frame.within_multiplexed hck hx
    exact .inr ⟨f, rfl, places_multiplexed hck hf⟩
  · exact .inl hck

/-! ### Signals of the tree -/

/-- A signal that is laid out lies in a message or in a multiplexer. -/
theorem holder_of_laidOut (ht : t.Valid) {x : Node × Node} (hx : x ∈ laidOut t) :
    x.1 ∈ t.all ∧ x.2 ∈ x.1.children ∧ x.2.kind = .signal ∧
      (x.1.kind = .message ∨ x.1.kind = .multiplexedMessage ∨ x.1.kind = .multiplexer) := by
  obtain ⟨m, hm, hx⟩ := List.mem_flatMap.1 hx
  have hmt := Tree.mem_all_of_child t.root_mem hm
  unfold laidOutIn at hx
  split at hx
  · rename_i hk
    obtain ⟨c, hc, hx⟩ := List.mem_flatMap.1 hx
    unfold laidOutBy at hx
    split at hx
    · rename_i hck
      obtain rfl := List.mem_singleton.1 hx
      exact ⟨hmt, hc, hck, hk.imp_right .inl⟩
    · obtain ⟨y, hy, hx⟩ := List.mem_flatMap.1 hx
      obtain ⟨d, hd, rfl⟩ := List.mem_map.1 hx
      have hyt : y ∈ t.all := Node.mem_all_trans (mem_all_of_mem_multiplexers hy) (Tree.mem_all_of_child hmt hc)
      have hyk : y.kind = .multiplexer := by
        unfold multiplexers at hy
        split at hy
        · rename_i hck
          rw [List.mem_singleton.1 hy, hck]
        · exact eq_of_beq (List.mem_filter.1 hy).2
        · cases hy
      refine ⟨hyt, hd, ?_, .inr (.inr hyk)⟩
      have hallows := ht.allowed y hyt d hd
      rw [hyk] at hallows
      revert hallows
      cases d.kind <;> decide
  · cases hx

/-- A signal that is no reference signal of a table is laid out. -/
theorem exists_mem_laidOut (ht : t.Valid) (hk : t.kind = .can) {n : Node} (hn : n ∈ t.all) (hnk : n.kind = .signal)
    (htable : t.parentKind? n.uuid ≠ some .canTable) : ∃ h, (h, n) ∈ laidOut t := by
  rcases t.exists_message_of_signal ht hk hn hnk htable with ⟨m, hm, hmk, hnm⟩ | ⟨y, hy, hyk, hny⟩
  · refine ⟨m, List.mem_flatMap.2 ⟨m, hm, ?_⟩⟩
    rw [laidOutIn, if_pos hmk]
    refine List.mem_flatMap.2 ⟨n, hnm, ?_⟩
    rw [laidOutBy, if_pos hnk]
    exact List.mem_singleton_self _
  · obtain ⟨m, hm, hmk, hym⟩ := t.exists_message_of_multiplexer ht hk hy hyk
    obtain ⟨c, hc, hyc⟩ := List.mem_flatMap.1 hym
    refine ⟨y, List.mem_flatMap.2 ⟨m, hm, ?_⟩⟩
    rw [laidOutIn, if_pos (.inr hmk)]
    refine List.mem_flatMap.2 ⟨c, hc, ?_⟩
    rw [laidOutBy, if_neg fun hck => by rw [multiplexers_signal hck] at hyc; cases hyc]
    exact List.mem_flatMap.2 ⟨y, hyc, List.mem_map_of_mem hny⟩

theorem children_sublist (n : Node) : n.children.Sublist n.all := by
  rw [Node.all_eq]
  refine .cons _ ?_
  conv_lhs => rw [← List.flatMap_singleton' n.children]
  exact .flatMap_right _ fun c _ => by rw [Node.all_eq]; exact (List.nil_sublist _).cons_cons c

theorem laidOutBy_sublist (m c : Node) : ((laidOutBy m c).map Prod.snd).Sublist c.all := by
  unfold laidOutBy
  split
  · rw [Node.all_eq]
    exact (List.nil_sublist _).cons_cons c
  · rw [List.map_flatMap]
    simp only [List.map_map, Function.comp_def, List.map_id']
    unfold multiplexers
    split
    · rw [List.flatMap_singleton]
      exact children_sublist c
    · rw [Node.all_eq]
      have hbelow := List.filter_sublist (p := (·.kind == .multiplexer)) (l := c.children)
      exact .cons _ ((List.Sublist.flatMap_right _ fun y _ => children_sublist y).trans (hbelow.flatMap Node.all))
    · exact List.nil_sublist _

/-- Signals are laid out in the order of the tree. -/
theorem laidOut_sublist (ht : t.Valid) : ((laidOut t).map Prod.snd).Sublist (t.ofKind .signal) := by
  have hall : ((laidOut t).map Prod.snd).Sublist t.all := by
    rw [Tree.all, Node.all_eq, laidOut, List.map_flatMap]
    refine .cons _ (.flatMap_right _ fun m _ => ?_)
    unfold laidOutIn
    split
    · rw [Node.all_eq, List.map_flatMap]
      exact .cons _ (.flatMap_right _ fun c _ => laidOutBy_sublist m c)
    · exact List.nil_sublist _
  have hsignals := hall.filter (·.kind == .signal)
  rwa [List.filter_eq_self.2 fun n hn => ?_] at hsignals
  obtain ⟨x, hx, rfl⟩ := List.mem_map.1 hn
  simpa using (holder_of_laidOut ht hx).2.2.1

end Can

end DeviceModel
