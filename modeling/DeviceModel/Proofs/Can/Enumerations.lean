import DeviceModel.Proofs.Can.Frames
import DeviceModel.Proofs.Export.Exportable
import DeviceModel.Proofs.Rules.Offers

/-!
The enumerations of a CAN matrix. Main statement: the values of a signal are named as its enumeration names them,
where enumerations with one name list the same (`Matrix.enumeration_of_signal`).
-/

namespace DeviceModel

namespace Can

variable {l : Lookup} {t : Tree}

/-- Under a name stands what is there first; another enumeration is added under a new name only. -/
theorem lookup_addEnumeration {es : List (String × Enumeration)} (h : es.Pairwise (·.1 < ·.1)) (name k : String)
    (e : Enumeration) :
    (addEnumeration name e es).lookup k = (es.lookup k).or (if k == name then some e else none) := by
  induction es with
  | nil => rw [addEnumeration, List.lookup_cons]; cases k == name <;> rfl
  | cons p es ih =>
    obtain ⟨j, w⟩ := p
    obtain ⟨hj, hes⟩ := List.pairwise_cons.1 h
    rw [addEnumeration]
    split
    · rename_i hname
      rw [hname, List.lookup_cons]
      cases k == j <;> simp
    · split
      · rename_i hname hlt
        by_cases hk : k = name
        · have hnot : ((j, w) :: es).lookup name = none := by
            refine List.lookup_eq_none_iff.2 fun p hp => ?_
            rcases List.mem_cons.1 hp with rfl | hp
            · simpa using hname
            · simpa using (String.lt_trans hlt (hj p hp)).ne
          rw [hk, hnot, List.lookup_cons_self]
          simp
        · rw [List.lookup_cons, beq_eq_false_iff_ne.2 hk]
          simp
      · rw [List.lookup_cons, List.lookup_cons, ih hes]
        cases k == j <;> rfl

/-- What a signal brings to the enumerations: the name and the values of its own. -/
def namedBy (l : Lookup) (n : Node) : Option (String × Enumeration) := do
  let e ← enumerationOf l n
  let owner ← l.treeOf? e
  return (enumerationName l e, (owner.children e).map fun v => (v.int .value, v.name))

theorem enumerationsOf_eq : enumerationsOf l t =
    ((t.ofKind .signal).filterMap (namedBy l)).foldl (fun es p => addEnumeration p.1 p.2 es) [] := by
  rw [enumerationsOf, List.foldl_filterMap]
  congr 1
  funext es n
  unfold namedBy
  cases enumerationOf l n with
  | none => rfl
  | some e =>
    simp only [Option.bind_eq_bind, Option.bind_some]
    cases l.treeOf? e <;> rfl

theorem lookup_foldl_addEnumeration {es : List (String × Enumeration)} (h : es.Pairwise (·.1 < ·.1)) (k : String)
    (ps : List (String × Enumeration)) :
    (ps.foldl (fun es p => addEnumeration p.1 p.2 es) es).lookup k = (es.lookup k).or (ps.lookup k) := by
  induction ps generalizing es with
  | nil => simp
  | cons p ps ih =>
    rw [List.foldl_cons, ih (pairwise_addEnumeration p.1 p.2 h), lookup_addEnumeration h, Option.or_assoc,
      List.lookup_cons]
    cases k == p.1 <;> rfl

/-- Of the enumerations with one name, the matrix has that of the first signal. -/
theorem lookup_enumerationsOf (k : String) :
    (enumerationsOf l t).lookup k = ((t.ofKind .signal).filterMap (namedBy l)).lookup k := by
  rw [enumerationsOf_eq, lookup_foldl_addEnumeration .nil, List.lookup_nil, Option.none_or]

/-! ### The signals of a frame -/

/-- A signal is named by the enumeration of its node. -/
theorem Signal.enumeration_of_ofNode {n : Node} {s : Signal} (h : Signal.ofNode l t n = .ok s) :
    s.enumeration = (enumerationOf l n).map (enumerationName l) := by
  unfold Signal.ofNode at h
  dsimp only at h
  split at h
  · cases h
  · cases Except.ok.inj h
    split <;> rfl

namespace Frame

/-- The signals of all sections, and those of each. -/
def allSignals (f : Frame) : List Signal := f.signals ++ f.sections.flatMap Section.signals

variable (ht : t.Valid)
include ht

/-- The signals that are made of the children of a message or of a multiplexer. -/
theorem exists_node_of_children {m : Node} (hm : m ∈ t.all) (hk : m.kind = .message ∨ m.kind = .multiplexer)
    {ss : List Signal} (hss : List.Forall₂ (fun c s => Signal.ofNode l t c = .ok s) m.children ss) {s : Signal}
    (hs : s ∈ ss) : ∃ n ∈ t.ofKind .signal, Signal.ofNode l t n = .ok s := by
  obtain ⟨c, hc, hcs⟩ := exists_of_forall₂ hss.flip hs
  have hkinds : ∀ j : Kind, m.kind.allows j = true → j = .signal := by
    rcases hk with hk | hk <;> rw [hk] <;> intro j <;> cases j <;> decide
  exact ⟨c, List.mem_filter.2 ⟨Tree.mem_all_of_child hm hc, by simp [hkinds _ (ht.allowed m hm c hc)]⟩, hcs⟩

/-- The signals of a frame are those of nodes of the tree. -/
theorem exists_node_of_within {fuel : Nat} {m : Node} (hm : m ∈ t.all) {f : Frame}
    (h : within l t fuel m = .ok (some f)) {s : Signal} (hs : s ∈ f.allSignals) :
    ∃ n ∈ t.ofKind .signal, Signal.ofNode l t n = .ok s := by
  induction fuel using Nat.strongRecOn generalizing m f with
  | ind fuel ih =>
    rcases kind_of_within h with hk | hk | hk
    · obtain ⟨f, hf, hplain⟩ := within_message hk h
      cases hf
      obtain ⟨ss, rfl, hss⟩ := exists_of_plain hplain
      have hs : s ∈ ss := by simpa [allSignals, header] using hs
      exact exists_node_of_children ht hm (.inl hk) hss hs
    · obtain ⟨f, hf, hmultiplexed⟩ := within_multiplexed hk h
      cases hf
      obtain ⟨ss, sections, rfl, hss, hsections⟩ := exists_of_multiplexed hmultiplexed
      rcases List.mem_append.1 hs with hs | hs
      · obtain ⟨c, hc, hcs⟩ := exists_of_forall₂ hss.flip (List.mem_of_mem_drop hs)
        obtain ⟨hcm, hck⟩ := List.mem_filter.1 hc
        exact ⟨c, List.mem_filter.2 ⟨Tree.mem_all_of_child hm hcm, hck⟩, hcs⟩
      · obtain ⟨x, hx, hsx⟩ := List.mem_flatMap.1 hs
        obtain ⟨y, hy, hyx⟩ := exists_of_forall₂ hsections.flip hx
        obtain ⟨c, hc, hyc⟩ := List.mem_flatMap.1 hy
        have hyt := Node.mem_all_trans (mem_all_of_mem_multiplexers hyc) (Tree.mem_all_of_child hm hc)
        exact exists_node_of_children ht hyt (.inr (kind_of_mem_multiplexers hyc)) (Section.of_ofNode hyx).2.2 hsx
    · obtain ⟨o, original, y, fuel', hfuel, -, ho, hy, hf⟩ := within_clone hk h
      obtain ⟨g, rfl, rfl⟩ := Option.map_eq_some_iff.1 hf.symm
      exact ih fuel' hfuel (Tree.mem_of_find? ho).1 hy hs

end Frame

/-- Of the enumerations that signals refer to, those with one name list the same. -/
def NamesAgree (l : Lookup) (t : Tree) : Prop :=
  ∀ n ∈ t.ofKind .signal, ∀ n' ∈ t.ofKind .signal, ∀ p ∈ namedBy l n, ∀ p' ∈ namedBy l n', p.1 = p'.1 → p.2 = p'.2

theorem namedBy_of_node? {n v : Node} {e : Uuid} (he : enumerationOf l n = some e) (hv : l.node? e = some v) :
    namedBy l n = some (enumerationName l e, v.children.map fun c => (c.int .value, c.name)) := by
  obtain ⟨owner, howner, hfind⟩ := Lookup.exists_treeOf? hv
  simp [namedBy, he, howner, Tree.children, hfind]

/-- Where names agree, every signal has what it brings. -/
theorem lookup_of_namesAgree (h : NamesAgree l t) {n : Node} (hn : n ∈ t.ofKind .signal)
    {p : String × Enumeration} (hp : namedBy l n = some p) : (enumerationsOf l t).lookup p.1 = some p.2 := by
  rw [lookup_enumerationsOf]
  obtain ⟨hnot, -⟩ | ⟨e, he, hlookup⟩ := lookup_or ((t.ofKind .signal).filterMap (namedBy l)) p.1
  · exact absurd (List.mem_map.2 ⟨p, List.mem_filterMap.2 ⟨n, hn, hp⟩, rfl⟩) hnot
  · obtain ⟨n', hn', hp'⟩ := List.mem_filterMap.1 he
    exact hlookup.trans (congrArg some (h n' hn' n hn _ hp' p hp rfl))

/-- The values of a signal are named as its enumeration lists them. -/
theorem Matrix.enumeration_of_signal {ms : Models} (ht : (ms.tree .can).Valid)
    (hagree : NamesAgree ms.lookup (ms.tree .can)) {title : String} {m : Matrix}
    (h : Matrix.ofModels ms title = .ok m) {f : Frame} (hf : f ∈ m.frames) {s : Signal} (hs : s ∈ f.allSignals) :
    (∃ n ∈ (ms.tree .can).ofKind .signal, Signal.ofNode ms.lookup (ms.tree .can) n = .ok s) ∧
      ∀ n ∈ (ms.tree .can).ofKind .signal, Signal.ofNode ms.lookup (ms.tree .can) n = .ok s →
        s.enumeration = (enumerationOf ms.lookup n).map (enumerationName ms.lookup) ∧
        ∀ e v, enumerationOf ms.lookup n = some e → ms.lookup.node? e = some v →
          m.enumerations.lookup (enumerationName ms.lookup e) =
            some (v.children.map fun c => (c.int .value, c.name)) := by
  obtain ⟨fs, hfs, rfl⟩ := return_eq_ok_iff.1 h
  obtain ⟨x, hx, rfl⟩ := List.mem_filterMap.1 hf
  obtain ⟨c, hc, hcx⟩ := exists_of_forall₂ (forall₂_of_mapM hfs).flip hx
  have hct := Tree.mem_all_of_child (ms.tree .can).root_mem hc
  refine ⟨Frame.exists_node_of_within ht hct hcx hs, fun n hn hns => ?_⟩
  refine ⟨Signal.enumeration_of_ofNode hns, fun e v he hv => ?_⟩
  exact lookup_of_namesAgree hagree hn (namedBy_of_node? he hv)

/-- An enumeration of the values 0 and 1. -/
def twoValues (uuid : Nat) (name zero one : String) : Node :=
  ⟨⟨uuid⟩, .of .enumeration [(.name, .string name)],
    [.leaf ⟨uuid + 1⟩ (.of .enumerator [(.name, .string zero), (.value, .integer 0)]),
      .leaf ⟨uuid + 2⟩ (.of .enumerator [(.name, .string one), (.value, .integer 1)])]⟩

def enumeratedByte (uuid : Nat) (name : String) (start : Int) (enumeration : Nat) : Node :=
  .leaf ⟨uuid⟩ (.of .signal [(.name, .string name), (.bits, .integer 8), (.startBit, .integer start),
    (.enumeration, .uuid ⟨enumeration⟩)])

/-- A project with a message of two signals; the values of each have names of their own. -/
def enumeratedProject (first second : String) : Models where
  parameters := { tree := ⟨.parameters, ⟨⟨10⟩, .initial .root,
    [twoValues 11 first "Off" "On", twoValues 14 second "Slow" "Fast"]⟩⟩ }
  can := { tree := ⟨.can, ⟨⟨30⟩, .initial .canRoot,
    [⟨⟨31⟩, .of .message [(.name, .string "Status"), (.length, .integer 8)],
      [enumeratedByte 32 "Switch" 0 11, enumeratedByte 33 "Gear" 8 14]⟩]⟩⟩ }
  sunSpec := { tree := .initial .sunSpec ⟨20⟩ }
  staticModbus := { tree := .initial .staticModbus ⟨40⟩ }
  anomalies := { tree := .initial .anomalies ⟨50⟩ }

/-- What a signal of the project makes of the matrix. -/
theorem Matrix.enumeration_of_signal_enumeratedProject :
    ∃ m, Matrix.ofModels (enumeratedProject "Switch" "Gear") "Drive" = .ok m ∧ ∃ f ∈ m.frames, ∃ s ∈ f.allSignals,
      s.enumeration = some "Gear" ∧ m.enumerations.lookup "Gear" = some [(0, "Slow"), (1, "Fast")] := by
  have hagree : NamesAgree (enumeratedProject "Switch" "Gear").lookup
      ((enumeratedProject "Switch" "Gear").tree .can) := by
    unfold NamesAgree
    decide +kernel
  obtain ⟨m, hm, f, hf, s, hs, hns⟩ : ∃ m ∈ (Matrix.ofModels (enumeratedProject "Switch" "Gear") "Drive").toOption,
      ∃ f ∈ m.frames, ∃ s ∈ f.allSignals, s ∈ (Signal.ofNode (enumeratedProject "Switch" "Gear").lookup
        ((enumeratedProject "Switch" "Gear").tree .can) (enumeratedByte 33 "Gear" 8 14)).toOption := by
    decide +kernel
  have hm := mem_toOption_iff.1 hm
  obtain ⟨hname, hlookup⟩ := (enumeration_of_signal (by decide +kernel) hagree hm hf hs).2 _ (by decide +kernel)
    (mem_toOption_iff.1 hns)
  exact ⟨m, hm, f, hf, s, hs, hname,
    hlookup ⟨14⟩ (twoValues 14 "Gear" "Slow" "Fast") (by decide +kernel) (by decide +kernel)⟩

/-- Two enumerations whose names make one identifier are listed as one. -/
theorem exists_signal_misnamed : ∃ ms : Models, ms.Clean ∧ ∃ m, Matrix.ofModels ms "Drive" = .ok m ∧
    ∃ f ∈ m.frames, ∃ s ∈ f.allSignals, ∃ n ∈ (ms.tree .can).ofKind .signal,
      Signal.ofNode ms.lookup (ms.tree .can) n = .ok s ∧
      ∃ e ∈ enumerationOf ms.lookup n, ∃ v ∈ ms.lookup.node? e, s.enumeration = some (enumerationName ms.lookup e) ∧
        m.enumerations.lookup (enumerationName ms.lookup e) ≠
          some (v.children.map fun c => (c.int .value, c.name)) := by
  have hclean : (enumeratedProject "Run Mode" "Run-Mode").Clean :=
    ⟨by intro k; cases k <;> decide +kernel, by intro k; cases k <;> rfl, by decide +kernel⟩
  obtain ⟨m, hm, f, hf, s, hs, hns, hname, hlookup⟩ :
      ∃ m ∈ (Matrix.ofModels (enumeratedProject "Run Mode" "Run-Mode") "Drive").toOption,
        ∃ f ∈ m.frames, ∃ s ∈ f.allSignals, s ∈ (Signal.ofNode (enumeratedProject "Run Mode" "Run-Mode").lookup
          ((enumeratedProject "Run Mode" "Run-Mode").tree .can) (enumeratedByte 33 "Gear" 8 14)).toOption ∧
        s.enumeration = some "Run_Mode" ∧
        m.enumerations.lookup "Run_Mode" = some [(0, "Off"), (1, "On")] := by
    decide +kernel
  have he : enumerationName (enumeratedProject "Run Mode" "Run-Mode").lookup ⟨14⟩ = "Run_Mode" := by decide +kernel
  refine ⟨_, hclean, m, mem_toOption_iff.1 hm, f, hf, s, hs, enumeratedByte 33 "Gear" 8 14, by decide +kernel,
    mem_toOption_iff.1 hns, ⟨14⟩, by decide +kernel, twoValues 14 "Run-Mode" "Slow" "Fast", by decide +kernel, ?_, ?_⟩
  · rw [hname, he]
  · rw [he, hlookup]
    decide +kernel

end Can

end DeviceModel
