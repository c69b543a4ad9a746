import DeviceModel.Proofs.Can.SymbolLines
import DeviceModel.Proofs.Check.Findings

/-!
The frames of a CAN tree. Main statements: what the frame of a message is made of
(`Frame.exists_of_multiplexed`), and that signals and multiplexers lie in messages
(`Tree.exists_message_of_signal`, `Tree.exists_message_of_multiplexer`).
-/

namespace DeviceModel

namespace Can

variable {l : Lookup} {t : Tree}

/-- A signal has the name, the place and the size of its node. -/
theorem Signal.of_ofNode {n : Node} {s : Signal} (h : Signal.ofNode l t n = .ok s) :
    s.name = n.name ∧ s.startBit = n.int .startBit ∧ s.bits = n.int .bits ∧ s.signed = n.flag .signed := by
  unfold Signal.ofNode at h
  dsimp only at h
  split at h
  · cases h
  · cases Except.ok.inj h
    split <;> exact ⟨rfl, rfl, rfl, rfl⟩

theorem Section.of_ofNode {n : Node} {s : Section} (h : Section.ofNode l t n = .ok s) :
    s.name = n.name ∧ s.value = n.int .identifier ∧
      List.Forall₂ (fun c v => Signal.ofNode l t c = .ok v) n.children s.signals := by
  obtain ⟨vs, hvs, rfl⟩ := return_eq_ok_iff.1 h
  exact ⟨rfl, rfl, forall₂_of_mapM hvs⟩

/-- The multiplexers that a child of a message brings. -/
def multiplexers (n : Node) : List Node :=
  match n.kind with
  | .multiplexer => [n]
  | .canTable => n.children.filter (·.kind == .multiplexer)
  | _ => []

theorem Part.of_ofNode {n : Node} {q : Part} (h : Part.ofNode l t n = .ok q) :
    (n.kind = .signal ∧ ∃ s, q = .signal s ∧ Signal.ofNode l t n = .ok s) ∨
      (n.kind ≠ .signal ∧ ∃ ss, q = .sections ss ∧
        List.Forall₂ (fun c s => Section.ofNode l t c = .ok s) (multiplexers n) ss) := by
  unfold Part.ofNode at h
  unfold multiplexers
  split at h
  · rename_i hk
    obtain ⟨s, hs, rfl⟩ := return_eq_ok_iff.1 h
    exact .inl ⟨hk, s, rfl, hs⟩
  · rename_i hk
    obtain ⟨s, hs, rfl⟩ := return_eq_ok_iff.1 h
    exact .inr ⟨by simp [hk], [s], rfl, by simpa [hk] using hs⟩
  · rename_i hk
    obtain ⟨ss, hss, rfl⟩ := return_eq_ok_iff.1 h
    exact .inr ⟨by simp [hk], ss, rfl, by simpa [hk] using forall₂_of_mapM hss⟩
  · rename_i hsignal hmultiplexer htable
    cases h
    refine .inr ⟨hsignal, [], rfl, ?_⟩
    split
    · exact absurd ‹_› hmultiplexer
    · exact absurd ‹_› htable
    · exact .nil

/-- The parts of a message are the signals among its children and the sections of the others. -/
theorem forall₂_of_parts {ns : List Node} {qs : List Part}
    (h : List.Forall₂ (fun n q => Part.ofNode l t n = .ok q) ns qs) :
    List.Forall₂ (fun n s => Signal.ofNode l t n = .ok s) (ns.filter (·.kind == .signal))
      (qs.filterMap Part.signal?) ∧
    List.Forall₂ (fun n s => Section.ofNode l t n = .ok s) (ns.flatMap multiplexers)
      (qs.flatMap Part.sectionList) := by
  induction h with
  | nil => exact ⟨.nil, .nil⟩
  | @cons n q ns qs hq _ ih =>
    rcases Part.of_ofNode hq with ⟨hk, s, rfl, hs⟩ | ⟨hk, ss, rfl, hss⟩
    · simp only [List.filter_cons, hk, beq_self_eq_true, if_true, List.filterMap_cons, Part.signal?,
        List.flatMap_cons, multiplexers, Part.sectionList, List.nil_append]
      exact ⟨.cons hs ih.1, ih.2⟩
    · have hne : (n.kind == .signal) = false := by simpa using hk
      simp only [List.filter_cons, hne, Bool.false_eq_true, if_false, List.filterMap_cons, Part.signal?,
        List.flatMap_cons, Part.sectionList]
      exact ⟨ih.1, List.rel_append hss ih.2⟩

namespace Frame

/-- The frame under the name of a clone. -/
def renamed (f : Frame) (n : Node) : Frame :=
  { f with name := n.name, id := n.int .identifier, extended := n.flag .extended }

/-- The frame of a multiplexed message has the first of its signals as selector, the others in all
sections, and a section for each multiplexer. -/
theorem exists_of_multiplexed {n : Node} {f : Frame} (h : multiplexed l t n = .ok f) :
    ∃ ss sections, f = { header n with
        selector := ss.head?.map fun s => ⟨s.name, s.startBit, s.bits⟩
        signals := ss.drop 1
        sections := sections } ∧
      List.Forall₂ (fun c s => Signal.ofNode l t c = .ok s) (n.children.filter (·.kind == .signal)) ss ∧
      List.Forall₂ (fun c s => Section.ofNode l t c = .ok s) (n.children.flatMap multiplexers) sections := by
  obtain ⟨qs, hqs, rfl⟩ := return_eq_ok_iff.1 h
  have hparts := forall₂_of_parts (forall₂_of_mapM hqs)
  exact ⟨_, _, rfl, hparts⟩

theorem exists_of_plain {n : Node} {f : Frame} (h : plain l t n = .ok f) :
    ∃ ss, f = { header n with signals := ss } ∧
      List.Forall₂ (fun c s => Signal.ofNode l t c = .ok s) n.children ss := by
  obtain ⟨ss, hss, rfl⟩ := return_eq_ok_iff.1 h
  exact ⟨ss, rfl, forall₂_of_mapM hss⟩

theorem within_message {n : Node} (hk : n.kind = .message) {fuel : Nat} {x : Option Frame}
    (h : within l t fuel n = .ok x) : ∃ f, x = some f ∧ plain l t n = .ok f := by
  unfold within at h
  simp only [hk] at h
  obtain ⟨f, hf, rfl⟩ := return_eq_ok_iff.1 h
  exact ⟨f, rfl, hf⟩

theorem within_multiplexed {n : Node} (hk : n.kind = .multiplexedMessage) {fuel : Nat} {x : Option Frame}
    (h : within l t fuel n = .ok x) : ∃ f, x = some f ∧ multiplexed l t n = .ok f := by
  unfold within at h
  simp only [hk] at h
  obtain ⟨f, hf, rfl⟩ := return_eq_ok_iff.1 h
  exact ⟨f, rfl, hf⟩

/-- The frame of a clone is that of its original under another name. -/
theorem within_clone {n : Node} (hk : n.kind = .multiplexedMessageClone) {fuel : Nat} {x : Option Frame}
    (h : within l t fuel n = .ok x) : ∃ o m y, ∃ fuel' < fuel, n.ref? .original = some o ∧ t.find? o = some m ∧
      within l t fuel' m = .ok y ∧ x = y.map (renamed · n) := by
  unfold within at h
  simp only [hk] at h
  split at h
  · rename_i fuel' o ho
    obtain ⟨m, hm, h⟩ := bind_eq_ok_iff.1 h
    obtain ⟨y, hy, rfl⟩ := return_eq_ok_iff.1 h
    have hfind := Tree.node_eq_ok.1 (mapError_eq_ok_iff.1 hm)
    exact ⟨o, m, y, fuel', Nat.lt_succ_self _, ho, hfind, hy, rfl⟩
  · cases h

/-- Only messages and clones have a frame. -/
theorem kind_of_within {n : Node} {fuel : Nat} {f : Frame} (h : within l t fuel n = .ok (some f)) :
    n.kind = .message ∨ n.kind = .multiplexedMessage ∨ n.kind = .multiplexedMessageClone := by
  unfold within at h
  split at h
  · exact .inl ‹_›
  · exact .inr (.inl ‹_›)
  · exact .inr (.inr ‹_›)
  · obtain ⟨_, _, h⟩ := bind_eq_ok_iff.1 h
    cases h

end Frame

theorem mem_all_of_mem_multiplexers {n y : Node} (h : y ∈ multiplexers n) : y ∈ n.all := by
  unfold multiplexers at h
  split at h
  · exact List.mem_singleton.1 h ▸ n.mem_all_self
  · exact Node.mem_all_of_child (List.mem_filter.1 h).1
  · cases h

theorem kind_of_mem_multiplexers {n y : Node} (h : y ∈ multiplexers n) : y.kind = .multiplexer := by
  unfold multiplexers at h
  split at h
  · exact List.mem_singleton.1 h ▸ ‹_›
  · simpa using (List.mem_filter.1 h).2
  · cases h

end Can

namespace Tree

variable {t : Tree} (ht : t.Valid) (hkind : t.kind = .can)
include ht hkind

/-- Messages, multiplexed ones and clones stand below the root. -/
theorem mem_children_root_of_message {n : Node} (hn : n ∈ t.all)
    (hk : n.kind = .message ∨ n.kind = .multiplexedMessage ∨ n.kind = .multiplexedMessageClone) :
    n ∈ t.root.children := by
  have hup : ∀ j : Kind, j.allows n.kind = true → j = .canRoot := by
    intro j
    rcases hk with hk | hk | hk <;> rw [hk] <;> cases j <;> decide
  refine mem_children_root ht (by rwa [hkind]) ?_ hn rfl
  rw [hkind]
  rcases hk with hk | hk | hk <;> rw [hk] <;> decide

/-- A multiplexer is one of those that a child of a multiplexed message brings. -/
theorem exists_message_of_multiplexer {y : Node} (hy : y ∈ t.all) (hk : y.kind = .multiplexer) :
    ∃ m ∈ t.root.children, m.kind = .multiplexedMessage ∧ y ∈ m.children.flatMap Can.multiplexers := by
  obtain ⟨p, hp, hyp⟩ := Node.exists_parent hy (by
    rintro rfl
    rw [ht.root, hkind] at hk
    cases hk)
  have hallows := hk ▸ ht.allowed p hp y hyp
  have hkinds : ∀ j : Kind, j.allows .multiplexer = true → j = .multiplexedMessage ∨ j = .canTable := by
    intro j; cases j <;> decide
  rcases hkinds _ hallows with hpk | hpk
  · refine ⟨p, mem_children_root_of_message ht hkind hp (.inr (.inl hpk)), hpk, ?_⟩
    exact List.mem_flatMap.2 ⟨y, hyp, by simp [Can.multiplexers, hk]⟩
  · obtain ⟨m, hm, hmk, hpm⟩ : ∃ m ∈ t.all, m.kind = .multiplexedMessage ∧ p ∈ m.children :=
      parent_of_kind ht (by intro j; cases j <;> decide) (by rw [hkind]; decide) hp hpk
    refine ⟨m, mem_children_root_of_message ht hkind hm (.inr (.inl hmk)), hmk, ?_⟩
    exact List.mem_flatMap.2 ⟨p, hpm, by simp [Can.multiplexers, hpk, hyp, hk]⟩

/-- A signal that is no reference signal of a table lies in a message or in a multiplexer. -/
theorem exists_message_of_signal {n : Node} (hn : n ∈ t.all) (hk : n.kind = .signal)
    (htable : t.parentKind? n.uuid ≠ some .canTable) :
    (∃ m ∈ t.root.children, (m.kind = .message ∨ m.kind = .multiplexedMessage) ∧ n ∈ m.children) ∨
      ∃ y ∈ t.all, y.kind = .multiplexer ∧ n ∈ y.children := by
  obtain ⟨p, hp, hnp⟩ := Node.exists_parent hn (by
    rintro rfl
    rw [ht.root, hkind] at hk
    cases hk)
  have hallows := hk ▸ ht.allowed p hp n hnp
  have hkinds : ∀ j : Kind, j.allows .signal = true →
      (j = .message ∨ j = .multiplexedMessage) ∨ j = .multiplexer ∨ j = .canTable := by
    intro j; cases j <;> decide
  rcases hkinds _ hallows with hpk | hpk | hpk
  · exact .inl ⟨p, mem_children_root_of_message ht hkind hp (by tauto), hpk, hnp⟩
  · exact .inr ⟨p, hp, hpk, hnp⟩
  · refine absurd ?_ htable
    rw [parentKind?, parent?_of_child ht.nodup hp hnp, Option.map_some, hpk]

end Tree

end DeviceModel
