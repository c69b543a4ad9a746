import DeviceModel.Proofs.Can.Frames
import DeviceModel.Proofs.Export.Exportable

/-!
Signals in symbol files. Main statement: where the check of the CAN tree finds no errors and no
multiplexed message has a single child that is no signal, every signal that is sent has its line, in the
paragraph of its message and in the section of its multiplexer, and the paragraph of a clone says what
that of its original says (`Models.exists_paragraphs`).
-/

namespace DeviceModel

open Can

namespace Node

/-- The signal that selects the multiplexers of a message: the first of its signals. -/
def selector? (message : Node) : Option Node :=
  if message.kind = .multiplexedMessage then message.children.find? (·.kind == .signal) else none

/-- A line that says the name, the place and the size of a signal. -/
def IsVarLine (n : Node) (line : String) : Prop :=
  ∃ rest, Trails rest ∧ line = "Var=" ++ n.name ++ (if n.flag .signed then " signed " else " unsigned ") ++
    Text.intText (n.int .startBit) ++ "," ++ Text.intText (n.int .bits) ++ rest

theorem IsVarLine.isVar {n : Node} {line : String} (h : n.IsVarLine line) : isVar line = true := by
  obtain ⟨rest, -, rfl⟩ := h
  simp only [String.append_assoc]
  exact beginsWith_iff.2 ⟨_, rfl⟩

/-- A line that says for what value of `selector` a multiplexer is sent. -/
def IsMuxLine (selector n : Node) (line : String) : Prop :=
  ∃ rest, Trails rest ∧ line = "Mux=" ++ n.name ++ " " ++ Text.intText (selector.int .startBit) ++ "," ++
    Text.intText (selector.int .bits) ++ " " ++ Text.hexText (n.int .identifier) ++ "h" ++ rest

/-- In `p`, the line of a multiplexer is followed by lines of signals, and `n` has one of those. -/
def IsInSection (selector multiplexer n : Node) (p : List String) : Prop :=
  ∃ head vars, head :: vars <:+: p ∧ IsMuxLine selector multiplexer head ∧ (∀ v ∈ vars, isVar v = true) ∧
    ∃ line ∈ vars, n.IsVarLine line

end Node

namespace Tree

/-- A signal that is sent: no reference signal of a table, and no selector. -/
def IsSent (t : Tree) (n : Node) : Prop :=
  n.kind = .signal ∧ t.parentKind? n.uuid ≠ some .canTable ∧ ∀ m ∈ t.all, m.selector? ≠ some n

/-- A multiplexed message with a single child has a signal. -/
def HasSelectors (t : Tree) : Prop :=
  ∀ m ∈ t.all, m.kind = .multiplexedMessage → m.children.length = 1 → Rules.Can.hasSelector m = true

end Tree

namespace Can

variable {l : Lookup} {t : Tree}

theorem isVarLine_of_ofNode {n : Node} {s : Signal} (h : Signal.ofNode l t n = .ok s) :
    n.IsVarLine s.line := by
  obtain ⟨hname, hstart, hbits, hsigned⟩ := Signal.of_ofNode h
  exact ⟨s.details, s.trails_details, by rw [s.line_eq, hname, hstart, hbits, hsigned]⟩

namespace Frame

/-- The other signals of a multiplexed message stand among those of its frame. -/
theorem exists_signal_of_multiplexed {m n : Node} {f : Frame} (h : multiplexed l t m = .ok f)
    (hm : m.kind = .multiplexedMessage) (hn : n ∈ m.children) (hk : n.kind = .signal)
    (hselector : m.selector? ≠ some n) : ∃ s ∈ f.signals, Signal.ofNode l t n = .ok s := by
  obtain ⟨ss, sections, rfl, hss, -⟩ := exists_of_multiplexed h
  have hmem : n ∈ m.children.filter (·.kind == .signal) := List.mem_filter.2 ⟨hn, by simp [hk]⟩
  rw [Node.selector?, if_pos hm, ← List.head?_filter] at hselector
  generalize m.children.filter (·.kind == .signal) = ns at hss hmem hselector
  cases hss with
  | nil => cases hmem
  | cons hs hrest =>
    rcases List.mem_cons.1 hmem with rfl | hmem
    · exact absurd rfl hselector
    · exact exists_of_forall₂ hrest hmem

/-- Where a multiplexed message has a selector, the signals of its multiplexers stand in their sections. -/
theorem isInSection_of_multiplexed {m y n : Node} {f : Frame} (h : multiplexed l t m = .ok f)
    (hm : m.kind = .multiplexedMessage) (hselector : Rules.Can.hasSelector m = true)
    (hy : y ∈ m.children.flatMap multiplexers) (hn : n ∈ y.children) :
    ∃ v, m.selector? = some v ∧ Node.IsInSection v y n f.lines := by
  obtain ⟨ss, sections, rfl, hss, hsections⟩ := exists_of_multiplexed h
  obtain ⟨s, hs, hys⟩ := exists_of_forall₂ hsections hy
  obtain ⟨hname, hvalue, hsignals⟩ := Section.of_ofNode hys
  obtain ⟨v, hv, hnv⟩ := exists_of_forall₂ hsignals hn
  rw [Node.selector?, if_pos hm, ← List.head?_filter]
  obtain ⟨c, hc, hck⟩ := List.any_eq_true.1 hselector
  have hmem : c ∈ m.children.filter (·.kind == .signal) := List.mem_filter.2 ⟨hc, hck⟩
  generalize m.children.filter (·.kind == .signal) = ns at hss hmem
  cases hss with
  | nil => cases hmem
  | @cons first u _ us hu =>
    obtain ⟨-, hstart, hbits, -⟩ := Signal.of_ofNode hu
    obtain ⟨head, hlines, rest, hrest, hhead⟩ := s.exists_lines ⟨u.name, u.startBit, u.bits⟩ us
    refine ⟨first, rfl, head, (us ++ s.signals).map Signal.line, ?_, ⟨rest, hrest, ?_⟩, ?_, ?_⟩
    · exact hlines ▸ section_infix (f := { header m with selector := _, signals := _, sections := _ }) rfl hs
    · rw [hhead, hname, hvalue, hstart, hbits]
    · exact fun w hw => (List.mem_map.1 hw).elim fun u hu => hu.2 ▸ u.isVar_line
    · exact ⟨v.line, List.mem_map_of_mem (List.mem_append_right _ hv), isVarLine_of_ofNode hnv⟩

/-- The head of a message begins the lines of its frame. -/
theorem headLines_prefix {m : Node} (hm : m.kind = .message ∨ m.kind = .multiplexedMessage) {fuel : Nat}
    {f : Frame} (h : within l t fuel m = .ok (some f)) : (header m).headLines <+: f.lines := by
  rcases hm with hm | hm
  · obtain ⟨f, hf, h⟩ := within_message hm h
    cases hf
    obtain ⟨ss, rfl, -⟩ := exists_of_plain h
    exact List.prefix_append _ _
  · obtain ⟨f, hf, h⟩ := within_multiplexed hm h
    cases hf
    obtain ⟨ss, sections, rfl, -⟩ := exists_of_multiplexed h
    exact List.prefix_append _ _

/-- The head of a clone begins the lines of its frame. -/
theorem headLines_renamed_prefix {m : Node} (hm : m.kind = .multiplexedMessage) {fuel : Nat} {f : Frame}
    (h : within l t fuel m = .ok (some f)) (c : Node) :
    ((header m).renamed c).headLines <+: (f.renamed c).lines := by
  obtain ⟨f, hf, h⟩ := within_multiplexed hm h
  cases hf
  obtain ⟨ss, sections, rfl, -⟩ := exists_of_multiplexed h
  exact List.prefix_append _ _

/-- The signals of a message, but for the selector, have their lines in its frame. -/
theorem exists_line_of_within {m n : Node} (hm : m.kind = .message ∨ m.kind = .multiplexedMessage)
    {fuel : Nat} {f : Frame} (h : within l t fuel m = .ok (some f)) (hn : n ∈ m.children)
    (hk : n.kind = .signal) (hselector : m.selector? ≠ some n) : ∃ line ∈ f.lines, n.IsVarLine line := by
  have hsignal : ∃ s ∈ f.signals, Signal.ofNode l t n = .ok s := by
    rcases hm with hm | hm
    · obtain ⟨f, hf, h⟩ := within_message hm h
      cases hf
      obtain ⟨ss, rfl, hss⟩ := exists_of_plain h
      exact exists_of_forall₂ hss hn
    · obtain ⟨f, hf, h⟩ := within_multiplexed hm h
      cases hf
      exact exists_signal_of_multiplexed h hm hn hk hselector
  obtain ⟨s, hs, hns⟩ := hsignal
  exact ⟨s.line, line_mem_lines hs, isVarLine_of_ofNode hns⟩

/-- A frame under another name has the lines of signals and sections that it had. -/
theorem filter_isBody_renamed (f : Frame) (n : Node) :
    (f.renamed n).lines.filter isBody = f.lines.filter isBody := by
  rw [filter_isBody, filter_isBody]
  rfl

end Frame

end Can

theorem Node.IsInSection.exists_line {selector y n : Node} {p : List String}
    (h : IsInSection selector y n p) : ∃ line ∈ p, n.IsVarLine line := by
  obtain ⟨head, vars, hinfix, -, -, line, hline, hn⟩ := h
  exact ⟨line, hinfix.subset (List.mem_cons_of_mem _ hline), hn⟩

namespace Check

/-- A multiplexed message with multiplexers has a selector, or it is an error. -/
theorem hasSelector_of_passes {t : Tree} {l : Lookup} (hkind : t.kind = .can) {m : Node}
    (h : Passes t l m) (hm : m.kind = .multiplexedMessage) (hlength : 1 < m.children.length) :
    Rules.Can.hasSelector m = true := by
  have hselector : m.children.head?.any (·.kind == .signal) = true := by
    by_contra hnone
    refine h .noSelector (List.mem_append_right _ ?_) rfl
    rw [hkind]
    change _ ∈ Rules.Can.issues t m l
    simp [Rules.Can.issues, hm, Rules.Can.messageIssues, hlength, Bool.eq_false_iff.2 hnone]
  obtain ⟨c, hc, hck⟩ := (Option.any_eq_true _ _).1 hselector
  exact List.any_eq_true.2 ⟨c, List.mem_of_head? hc, hck⟩

end Check

namespace Models

section

variable {ms : Models} (hv : ∀ k, (ms.tree k).Valid) (hk : ∀ k, (ms.tree k).kind = k)
  (hcheck : ((ms.tree .can).check ms.lookup (ms.get .can).root).hasErrors = false)

include hv hcheck

/-- Where the check of a tree finds no errors, every node of it passes. -/
theorem passes_of_hasErrors {n : Node} (hn : n ∈ (ms.tree .can).all) :
    Check.Passes (ms.tree .can) ms.lookup n := by
  have hfind : (ms.tree .can).find? (ms.get .can).root = some (ms.tree .can).root :=
    Tree.find?_of_mem (hv _).nodup (Tree.root_mem _)
  rw [Tree.check, hfind, CheckResult.hasErrors, decide_eq_false_iff_not, Nat.not_lt, Nat.le_zero] at hcheck
  exact Check.passes_of_count hcheck n hn

include hk

/-- A clone that names a node of its tree names a multiplexed message. -/
theorem multiplexed_of_clone {c m : Node} (hc : c ∈ (ms.tree .can).all)
    (hck : c.kind = .multiplexedMessageClone) {o : Uuid} (ho : c.ref? .original = some o)
    (hm : (ms.tree .can).find? o = some m) : m.kind = .multiplexedMessage := by
  obtain ⟨m', hm', hmk⟩ := Check.exists_target (passes_of_hasErrors hv hcheck hc) (a := .original)
    (f := .ref .original [.multiplexedMessage]) (by rw [hck]; rfl) rfl (by simp [Field.ref]) ho
  have hmk : m'.kind = .multiplexedMessage := List.mem_singleton.1 hmk
  have hfind := find?_of_node? hv hk hm' (k := .can) (by rw [hmk]; rfl)
  rw [hm] at hfind
  exact Option.some.inj hfind ▸ hmk

/-- Every child of the root has a frame, where it is not refused. -/
theorem exists_frame_of_within {x : Node} (hx : x ∈ (ms.tree .can).root.children) {fuel : Nat}
    {y : Option Frame} (h : Frame.within ms.lookup (ms.tree .can) fuel x = .ok y) : ∃ f, y = some f := by
  have hxt := Tree.mem_all_of_child (Tree.root_mem _) hx
  have hallows := (hv _).allowed _ (Tree.root_mem _) x hx
  rw [(hv _).root, hk] at hallows
  have hkinds : x.kind = .message ∨ x.kind = .multiplexedMessage ∨ x.kind = .multiplexedMessageClone := by
    simpa [TreeKind.rootKind, Kind.allows, Kind.childKinds] using hallows
  rcases hkinds with hxk | hxk | hxk
  · exact (Frame.within_message hxk h).imp fun _ => And.left
  · exact (Frame.within_multiplexed hxk h).imp fun _ => And.left
  · obtain ⟨o, m, z, fuel', -, ho, hm, hz, rfl⟩ := Frame.within_clone hxk h
    obtain ⟨f, rfl, -⟩ := Frame.within_multiplexed (multiplexed_of_clone hv hk hcheck hxt hxk ho hm) hz
    exact ⟨_, rfl⟩

/-- A multiplexed message with multiplexers has a selector. -/
theorem hasSelector_of_multiplexers (hselectors : (ms.tree .can).HasSelectors) {x y : Node}
    (hx : x ∈ (ms.tree .can).all) (hxk : x.kind = .multiplexedMessage)
    (hy : y ∈ x.children.flatMap multiplexers) : Rules.Can.hasSelector x = true := by
  obtain ⟨c, hc, -⟩ := List.mem_flatMap.1 hy
  by_cases hlength : x.children.length = 1
  · exact hselectors x hx hxk hlength
  · refine Check.hasSelector_of_passes (hk _) (passes_of_hasErrors hv hcheck hx) hxk ?_
    have := List.length_pos_of_mem hc
    omega

/-- A signal that is sent lies in a message, and where that has a frame, the signal has its line there. -/
theorem exists_message_of_isSent (hselectors : (ms.tree .can).HasSelectors) {n : Node}
    (hn : n ∈ (ms.tree .can).all) (hsent : (ms.tree .can).IsSent n) :
    ∃ x ∈ (ms.tree .can).root.children, n ∈ x.all ∧
      ∀ fuel f, Frame.within ms.lookup (ms.tree .can) fuel x = .ok (some f) →
        (Frame.header x).headLines <+: f.lines ∧ (∃ line ∈ f.lines, n.IsVarLine line) ∧
          ∀ y ∈ (ms.tree .can).all, y.kind = .multiplexer → n ∈ y.children →
            ∃ v, x.selector? = some v ∧ Node.IsInSection v y n f.lines := by
  obtain ⟨hnk, htable, hselector⟩ := hsent
  rcases Tree.exists_message_of_signal (hv _) (hk _) hn hnk htable with
    ⟨x, hx, hxk, hnx⟩ | ⟨y, hy, hyk, hny⟩
  · have hxt := Tree.mem_all_of_child (Tree.root_mem _) hx
    refine ⟨x, hx, Node.mem_all_of_child hnx, fun fuel f hf => ⟨Frame.headLines_prefix hxk hf,
      Frame.exists_line_of_within hxk hf hnx hnk (hselector x hxt), fun y hy hyk hny => ?_⟩⟩
    obtain rfl := Node.parent_unique (hv _).nodup hxt hy hnx hny rfl
    rcases hxk with hxk | hxk <;> rw [hxk] at hyk <;> cases hyk
  · obtain ⟨x, hx, hxk, hyx⟩ := Tree.exists_message_of_multiplexer (hv _) (hk _) hy hyk
    have hxt := Tree.mem_all_of_child (Tree.root_mem _) hx
    have hxselector := hasSelector_of_multiplexers hv hk hcheck hselectors hxt hxk hyx
    obtain ⟨c, hc, hyc⟩ := List.mem_flatMap.1 hyx
    have hnx : n ∈ x.all := Node.mem_all_trans (Node.mem_all_of_child hny)
      (Node.mem_all_trans (mem_all_of_mem_multiplexers hyc) (Node.mem_all_of_child hc))
    refine ⟨x, hx, hnx, fun fuel f hf => ?_⟩
    obtain ⟨g, hg, hmultiplexed⟩ := Frame.within_multiplexed hxk hf
    obtain rfl := Option.some.inj hg
    obtain ⟨v, hxv, hsection⟩ := Frame.isInSection_of_multiplexed hmultiplexed hxk hxselector hyx hny
    refine ⟨Frame.headLines_prefix (.inr hxk) hf, hsection.exists_line, fun z hz _ hnz => ?_⟩
    obtain rfl := Node.parent_unique (hv _).nodup hy hz hny hnz rfl
    exact ⟨v, hxv, hsection⟩

/-- The frame of a clone is that of a multiplexed message under the name of the clone. -/
theorem exists_original_of_clone {c : Node} (hc : c ∈ (ms.tree .can).all)
    (hck : c.kind = .multiplexedMessageClone) {fuel : Nat} {g : Frame}
    (h : Frame.within ms.lookup (ms.tree .can) fuel c = .ok (some g)) :
    ∃ x ∈ (ms.tree .can).root.children, x.kind = .multiplexedMessage ∧ c.ref? .original = some x.uuid ∧
      ∀ fuel f, Frame.within ms.lookup (ms.tree .can) fuel x = .ok (some f) → g = f.renamed c := by
  obtain ⟨o, x, y, fuel', -, ho, hfind, hy, hg⟩ := Frame.within_clone hck h
  obtain ⟨hxt, rfl⟩ := Tree.mem_of_find? hfind
  have hxk := multiplexed_of_clone hv hk hcheck hc hck ho hfind
  refine ⟨x, Tree.mem_children_root_of_message (hv _) (hk _) hxt (.inr (.inl hxk)), hxk, ho,
    fun fuel f hf => ?_⟩
  obtain ⟨f', rfl, hmultiplexed'⟩ := Frame.within_multiplexed hxk hy
  obtain ⟨f'', hf'', hmultiplexed⟩ := Frame.within_multiplexed hxk hf
  obtain rfl := Option.some.inj hf''
  cases Except.ok.inj (hmultiplexed.symm.trans hmultiplexed')
  exact Option.some.inj hg

/-- Where the check of the CAN tree finds no errors and every multiplexed message with a single child has
a signal, the children of the root have paragraphs in the symbol file. In that of its message, under the
head of it, every signal that is sent has its line, and one of a multiplexer has it in a section of that.
The paragraph of a clone has the head and the titles of the clone, and the lines of signals and sections
that its original has. -/
theorem exists_paragraphs (hselectors : (ms.tree .can).HasSelectors) {title : String} {m : Matrix}
    (hm : Matrix.ofModels ms title = .ok m) :
    ∃ paragraph : Node → List String,
      (∀ x ∈ (ms.tree .can).root.children, IsParagraph (paragraph x) m.lines) ∧
      (∀ n ∈ (ms.tree .can).all, (ms.tree .can).IsSent n →
        ∃ x ∈ (ms.tree .can).root.children, n ∈ x.all ∧ (Frame.header x).headLines <+: paragraph x ∧
          (∃ line ∈ paragraph x, n.IsVarLine line) ∧
          ∀ y ∈ (ms.tree .can).all, y.kind = .multiplexer → n ∈ y.children →
            ∃ v, x.selector? = some v ∧ Node.IsInSection v y n (paragraph x)) ∧
      ∀ c ∈ (ms.tree .can).all, c.kind = .multiplexedMessageClone →
        ∃ x ∈ (ms.tree .can).root.children, x.kind = .multiplexedMessage ∧
          c.ref? .original = some x.uuid ∧ ((Frame.header x).renamed c).headLines <+: paragraph c ∧
          (∀ line ∈ paragraph c, isTitle line = true → line = "[" ++ c.name ++ "]") ∧
          (paragraph c).filter isBody = (paragraph x).filter isBody := by
  obtain ⟨frames, hframes, rfl⟩ := return_eq_ok_iff.1 hm
  have hframe : ∀ x ∈ (ms.tree .can).root.children, ∃ f, Frame.within ms.lookup (ms.tree .can)
      ((ms.tree .can).size + 1) x = .ok (some f) ∧ f ∈ frames.filterMap id := by
    intro x hx
    obtain ⟨y, hy, hwithin⟩ := exists_of_forall₂ (forall₂_of_mapM hframes) hx
    obtain ⟨f, rfl⟩ := exists_frame_of_within hv hk hcheck hx hwithin
    exact ⟨f, hwithin, List.mem_filterMap.2 ⟨_, hy, rfl⟩⟩
  have : Nonempty Frame := ⟨Frame.header (ms.tree .can).root⟩
  choose! frame hwithin hmem using hframe
  refine ⟨Frame.lines ∘ frame, fun x hx => Matrix.isParagraph (hmem x hx), ?_, ?_⟩
  · intro n hn hsent
    obtain ⟨x, hx, hnx, hlines⟩ := exists_message_of_isSent hv hk hcheck hselectors hn hsent
    exact ⟨x, hx, hnx, hlines _ _ (hwithin x hx)⟩
  · intro c hc hck
    have hroot := Tree.mem_children_root_of_message (hv _) (hk _) hc (.inr (.inr hck))
    obtain ⟨x, hx, hxk, ho, hrenamed⟩ := exists_original_of_clone hv hk hcheck hc hck (hwithin c hroot)
    have hc : frame c = (frame x).renamed c := hrenamed _ _ (hwithin x hx)
    have hbody : (frame c).lines.filter isBody = (frame x).lines.filter isBody :=
      hc ▸ Frame.filter_isBody_renamed _ c
    have hhead : ((Frame.header x).renamed c).headLines <+: (frame c).lines :=
      hc ▸ Frame.headLines_renamed_prefix hxk (hwithin x hx) c
    refine ⟨x, hx, hxk, ho, hhead, fun line hline ht => ?_, hbody⟩
    rw [Frame.eq_title_of_mem_lines hline ht, hc]
    rfl

end

/-- A project with a multiplexed message of the given children, and a clone of it. -/
def multiplexedProject (children : List Node) : Models where
  parameters := { tree := .initial .parameters ⟨10⟩ }
  can := { tree := ⟨.can, ⟨⟨30⟩, .initial .canRoot,
    [⟨⟨31⟩, .of .multiplexedMessage [(.identifier, .integer 1), (.length, .integer 8)], children⟩,
      .leaf ⟨32⟩ (.of .multiplexedMessageClone [(.identifier, .integer 2), (.original, .uuid ⟨31⟩)])]⟩⟩ }
  sunSpec := { tree := .initial .sunSpec ⟨20⟩ }
  staticModbus := { tree := .initial .staticModbus ⟨40⟩ }
  anomalies := { tree := .initial .anomalies ⟨50⟩ }

def byteAt (uuid : Uuid) (name : String) (start : Int) : Node :=
  .leaf uuid (.of .signal [(.name, .string name), (.bits, .integer 8), (.startBit, .integer start)])

def page : Node := byteAt ⟨34⟩ "Page" 0

def torque : Node := byteAt ⟨35⟩ "Torque" 8

def torqueMux : Node := ⟨⟨33⟩, .of .multiplexer [(.length, .integer 8)], [torque]⟩

theorem exists_paragraphs_multiplexedProject :
    ∃ m, Matrix.ofModels (multiplexedProject [page, torqueMux]) "Drive" = .ok m ∧
      ∃ p, IsParagraph p m.lines ∧ Node.IsInSection page torqueMux torque p := by
  obtain ⟨m, hm⟩ : ∃ m, Matrix.ofModels (multiplexedProject [page, torqueMux]) "Drive" = .ok m := ⟨_, rfl⟩
  have hselectors : ((multiplexedProject [page, torqueMux]).tree .can).HasSelectors := by
    unfold Tree.HasSelectors
    decide +kernel
  have hsent : ((multiplexedProject [page, torqueMux]).tree .can).IsSent torque := by
    unfold Tree.IsSent
    decide +kernel
  have hpage : ∀ x ∈ ((multiplexedProject [page, torqueMux]).tree .can).root.children,
      ∀ v ∈ x.selector?, v = page := by
    decide +kernel
  obtain ⟨paragraph, hparagraph, hsignals, -⟩ := exists_paragraphs
    (by intro k; cases k <;> decide +kernel) (by intro k; cases k <;> rfl) (by decide +kernel) hselectors hm
  obtain ⟨x, hx, -, -, -, hsections⟩ := hsignals _ (by decide +kernel) hsent
  obtain ⟨v, hxv, hsection⟩ := hsections torqueMux (by decide +kernel) rfl (List.mem_singleton_self _)
  exact ⟨m, hm, paragraph x, hparagraph x hx, hpage x hx v hxv ▸ hsection⟩

/-- Without a selector the check finds no errors, and the signals of the multiplexers are lost. -/
theorem exists_signal_without_line : ∃ ms : Models, ms.Clean ∧ ∃ m, Matrix.ofModels ms "Drive" = .ok m ∧
    ∃ n ∈ (ms.tree .can).all, (ms.tree .can).IsSent n ∧ ∀ line ∈ m.lines, ¬n.IsVarLine line := by
  have hclean : (multiplexedProject [torqueMux]).Clean :=
    ⟨by intro k; cases k <;> decide +kernel, by intro k; cases k <;> rfl, by decide +kernel⟩
  have hsent : ((multiplexedProject [torqueMux]).tree .can).IsSent torque := by
    unfold Tree.IsSent
    decide +kernel
  obtain ⟨m, hm, hlines⟩ : ∃ m ∈ (Matrix.ofModels (multiplexedProject [torqueMux]) "Drive").toOption,
      ∀ line ∈ m.lines, isVar line = false := by
    decide +kernel
  refine ⟨_, hclean, m, mem_toOption_iff.1 hm, torque, by decide +kernel, hsent, fun line hline hvar => ?_⟩
  exact absurd hvar.isVar (by simp [hlines line hline])

end Models

end DeviceModel
