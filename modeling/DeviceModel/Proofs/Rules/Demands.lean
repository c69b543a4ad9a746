import DeviceModel.Proofs.Check.Findings
import DeviceModel.Proofs.Expansion.Regrown
import DeviceModel.Proofs.Register.UpToDate

/-!
What the rules of each tree demand of a node: the issues that are no mere warnings are absent just when it holds
(`Sound`). Main statement: where the demands on a node that stays were met they are met again, if the multiplexers
are numbered and the layout is up to date (`Tree.Kept.sound_rules`).
-/

namespace DeviceModel

/-- No errors among the issues. -/
def Sound (is : List Issue) : Prop := ∀ i ∈ is, i.level ≠ .error

@[simp] theorem sound_nil : Sound [] := nofun

@[simp] theorem sound_append {is js : List Issue} : Sound (is ++ js) ↔ Sound is ∧ Sound js := List.forall_mem_append

@[simp] theorem sound_singleton {i : Issue} : Sound [i] ↔ i.level ≠ .error := List.forall_mem_singleton

@[simp] theorem sound_ite {c : Prop} [Decidable c] {is js : List Issue} :
    Sound (if c then is else js) ↔ (c → Sound is) ∧ (¬c → Sound js) := by
  by_cases hc : c <;> simp [hc]

@[simp] theorem sound_flatMap {α : Type} {f : α → List Issue} {as : List α} :
    Sound (as.flatMap f) ↔ ∀ a ∈ as, Sound (f a) := List.forall_mem_flatMap

/-- Keys repeat where issues say so. -/
theorem Issue.sound_repeats {key : Node → Option Int} {issue : String → String → Int → Issue}
    (hissue : ∀ a b i, (issue a b i).level = .error) (ns : List Node) :
    Sound (repeats key issue ns) ↔ (ns.filterMap key).Nodup := by
  have hgo : ∀ seen : List (Int × String), Sound (repeats.go key issue seen ns) ↔
      (∀ i ∈ ns.filterMap key, i ∉ seen.map Prod.fst) ∧ (ns.filterMap key).Nodup := by
    induction ns with
    | nil => simp [repeats.go]
    | cons n ns ih =>
      intro seen
      cases hk : key n with
      | none => simp [repeats.go, hk, ih]
      | some i =>
        have hfind : Sound ((seen.find? (·.1 == i)).elim [] fun e => [issue e.2 n.name i]) ↔
            i ∉ seen.map Prod.fst := by
          cases hf : seen.find? (·.1 == i) with
          | none => simpa using fun x hx => List.find?_eq_none.1 hf (i, x) hx
          | some e =>
            have he : e.1 = i := by simpa using List.find?_some hf
            simpa [hissue] using ⟨e.2, he ▸ List.mem_of_find?_eq_some hf⟩
        have hstep : repeats.go key issue seen (n :: ns) =
            ((seen.find? (·.1 == i)).elim [] fun e => [issue e.2 n.name i]) ++
              repeats.go key issue ((i, n.name) :: seen) ns := by
          cases hf : seen.find? (·.1 == i) <;> simp only [repeats.go, hk, hf, Option.elim]
        rw [hstep, sound_append, hfind, ih, List.filterMap_cons_some hk, List.nodup_cons, List.forall_mem_cons]
        simp only [List.map_cons, List.mem_cons, not_or]
        constructor
        · rintro ⟨hi, hseen, hn⟩
          exact ⟨⟨hi, fun j hj => (hseen j hj).2⟩, fun hm => (hseen i hm).1 rfl, hn⟩
        · rintro ⟨⟨hi, hseen⟩, hm, hn⟩
          exact ⟨hi, fun j hj => ⟨fun he => hm (he ▸ hj), hseen j hj⟩, hn⟩
  exact (hgo []).trans (and_iff_right fun _ _ => List.not_mem_nil)

theorem Issue.sound_repeats_of_warning {key : Node → Option Int} {issue : String → String → Int → Issue}
    (hissue : ∀ a b i, (issue a b i).level ≠ .error) (ns : List Node) : Sound (repeats key issue ns) := by
  have hgo : ∀ seen : List (Int × String), Sound (repeats.go key issue seen ns) := by
    induction ns with
    | nil => exact fun _ => sound_nil
    | cons n ns ih =>
      intro seen
      cases hk : key n with
      | none => simpa only [repeats.go, hk] using ih seen
      | some i =>
        simp only [repeats.go, hk, sound_append]
        refine ⟨?_, ih _⟩
        split
        · exact sound_singleton.2 (hissue _ _ _)
        · exact sound_nil
  exact hgo []

namespace Rules

/-! ### Parameters -/

namespace Parameters

/-- Only parameters and arrays can have errors. -/
theorem sound_of_kind {t : Tree} {n : Node} {l : Lookup} (hp : n.kind ≠ .parameter) (ha : n.kind ≠ .array) :
    Sound (issues t n l) := by
  unfold issues
  split
  · exact absurd (by assumption) hp
  · exact absurd (by assumption) ha
  · exact Issue.sound_repeats_of_warning (by simp [Issue.level]) _
  · exact Issue.sound_repeats_of_warning (by simp [Issue.level]) _
  · simp [tableIssues, Issue.level]
  · simp [Issue.level]
  · exact sound_nil

theorem sound_parameterIssues {n : Node} {l : Lookup} : Sound (parameterIssues n l) ↔
    ∀ a b, n.data.decimal? .minimum = some a → n.data.decimal? .maximum = some b → b.less a = false := by
  unfold parameterIssues
  cases n.data.decimal? .minimum <;> cases n.data.decimal? .maximum <;> cases n.data.decimal? .defaultValue <;>
    simp [Issue.level]

theorem sound_arrayIssues {n : Node} : Sound (arrayIssues n) ↔ n.int .length = n.children.length ∧
    ∀ first rest, n.children = first :: rest → ∃ k, elementKind? first.kind = some k ∧
      ∀ e ∈ rest, e.kind = k ∧ e.ref? .original = some first.uuid := by
  unfold arrayIssues
  simp only [sound_append]
  refine and_congr (by simp [Issue.level]) ?_
  cases hc : n.children with
  | nil => simp
  | cons first rest =>
    cases hk : elementKind? first.kind with
    | none => simp [hk, Issue.level]
    | some k =>
      have helement : ∀ e : Node, Sound (elementIssues first k e) ↔
          e.kind = k ∧ e.ref? .original = some first.uuid := by
        intro e
        by_cases he : e.kind = k <;> by_cases ho : e.ref? .original = some first.uuid <;>
          simp [elementIssues, he, ho, Issue.level]
      simp [hk, helement]

end Parameters

/-! ### CAN -/

namespace Can

variable {t : Tree} {n : Node}

theorem sound_signalIssues {l : Lookup} : Sound (signalIssues t n l) ↔ (t.parentKind? n.uuid ≠ some .canTable →
    ∀ length, frameLength? t n.uuid = some length →
      0 ≤ n.int .startBit ∧ n.int .startBit + n.int .bits ≤ 8 * length) := by
  refine (sound_append.trans (and_iff_left ?legacy)).trans (sound_append.trans ?_)
  case legacy => cases n.ref? .parameter <;> simp [Issue.level]
  refine (and_iff_right (by simp [Issue.level])).trans ?_
  cases frameLength? t n.uuid with
  | none => simp
  | some length =>
    by_cases hp : t.parentKind? n.uuid = some .canTable
    · simp [hp]
    · simp [hp, Issue.level]

theorem sound_messageIssues : Sound (messageIssues t n) ↔
    (∀ m ∈ t.root.children, m.uuid ≠ n.uuid → m.data.int? .identifier ≠ n.data.int? .identifier) ∧
      (n.kind = .multiplexedMessage → 1 < n.children.length → n.children.head?.any (·.kind == .signal) = true) := by
  unfold messageIssues
  simp [Issue.level]

/-- The message of a multiplexer, and the other multiplexers in it. -/
theorem sound_multiplexerIssues (ht : t.Valid) {m : Node} (hm : m ∈ t.all) (hmk : m.kind = .multiplexedMessage)
    (hn : n ∈ m.all) (hk : n.kind = .multiplexer) : Sound (multiplexerIssues t n) ↔
      ∀ x ∈ t.multiplexers m.uuid, x.1 ≠ n.uuid → x.2 ≠ n.int .identifier := by
  have hnt := Node.mem_all_trans hn hm
  have hfind : (t.ancestors n.uuid).find? (·.kind == .multiplexedMessage) = some m := by
    have hmn : m ≠ n := by
      rintro rfl
      exact absurd (hmk.symm.trans hk) (by decide)
    have hmem := (Tree.mem_ancestors ht.nodup hnt).2 ⟨hm, Node.uuid_mem_uuids hn, hmn⟩
    have hsome : ((t.ancestors n.uuid).find? (·.kind == .multiplexedMessage)).isSome = true :=
      List.find?_isSome.2 ⟨m, hmem, by simp [hmk]⟩
    obtain ⟨q, hq⟩ := Option.isSome_iff_exists.1 hsome
    obtain ⟨hqt, hnq, -⟩ := (Tree.mem_ancestors ht.nodup hnt).1 (List.mem_of_find?_eq_some hq)
    obtain ⟨x, hx, hxn⟩ := Node.mem_uuids.1 hnq
    obtain rfl := Node.eq_of_uuid ht.nodup (Node.mem_all_trans hx hqt) hnt hxn
    rw [hq, Tree.message_unique ht hqt hm (by simpa using List.find?_some hq) hmk hx hn]
  rw [multiplexerIssues, hfind]
  simp only [sound_ite, sound_singleton, sound_nil, implies_true, and_true, List.contains_iff_mem,
    Family.mem_identifiers, List.mem_singleton, Issue.level, ne_eq, not_true_eq_false, imp_false, not_exists, not_and,
    not_not, Prod.forall]
  exact ⟨fun h u i hu hne hi => hne (h u (hi ▸ hu)), fun h u hu => by_contra fun hne => h u _ hu hne rfl⟩

/-- Multiplexers have identifiers of their own just when none is found fault with. -/
theorem numbered_iff (ht : t.Valid) : t.Numbered ↔
    ∀ n ∈ t.all, n.kind = .multiplexer → Sound (multiplexerIssues t n) := by
  have hmem : ∀ {m : Node}, m ∈ t.all → ∀ x : Uuid × Int, x ∈ t.multiplexers m.uuid ↔
      ∃ n ∈ m.all, n.kind = .multiplexer ∧ n.uuid = x.1 ∧ n.int .identifier = x.2 := fun hm x => by
    rw [Tree.multiplexers_of_mem ht.nodup hm]
    exact Node.mem_multiplexers
  constructor
  · intro h n hn hk
    cases hf : (t.ancestors n.uuid).find? (·.kind == .multiplexedMessage) with
    | none =>
      rw [multiplexerIssues, hf]
      exact sound_nil
    | some m =>
      obtain ⟨hmt, hnm, -⟩ := (Tree.mem_ancestors ht.nodup hn).1 (List.mem_of_find?_eq_some hf)
      obtain ⟨x, hx, hxn⟩ := Node.mem_uuids.1 hnm
      obtain rfl := Node.eq_of_uuid ht.nodup (Node.mem_all_trans hx hmt) hn hxn
      have hmk : m.kind = .multiplexedMessage := by simpa using List.find?_some hf
      refine (sound_multiplexerIssues ht hmt hmk hx hk).2 fun y hy hne hi => hne ?_
      have hself := (hmem hmt (x.uuid, x.int .identifier)).2 ⟨x, hx, hk, rfl, rfl⟩
      exact congrArg Prod.fst (List.inj_on_of_nodup_map (h m hmt hmk) hy hself hi)
  · intro h m hm hmk
    refine List.Nodup.map_on (fun x hx y hy hxy => ?_) (.of_map _ (Tree.nodup_multiplexers ht.nodup m.uuid))
    obtain ⟨n, hn, hnk, hnx, hni⟩ := (hmem hm y).1 hy
    have hne := (sound_multiplexerIssues ht hm hmk hn hnk).1 (h n (Node.mem_all_trans hn hm) hnk) x hx
    exact Prod.ext (by_contra fun hxu => hne (hnx ▸ hxu) (hxy.trans hni.symm)) hxy

theorem sound_viewIssues : Sound (viewIssues n) ↔
    (n.ref? .parameter).isSome = true ∧ n.int .multiplexerRangeFirst ≤ n.int .multiplexerRangeLast := by
  unfold viewIssues
  simp [Issue.level, Option.isSome_iff_ne_none]

end Can

/-! ### Register maps -/

namespace Register

theorem sound_pointIssues {t : Tree} {n : Node} {l : Lookup} : Sound (pointIssues t n l) ↔
    Sound (typeIssues ((t.parentKind? n.uuid).any fun k => k == .sunSpecTable || k == .modbusTable)
      (l.pointSize n)) := by
  refine sound_append.trans (and_iff_left ?factor)
  case factor => cases n.ref? .factorPoint <;> simp [Issue.level]

/-- A point has a type, if only one of a table may lack it, and the size of its type. -/
theorem sound_typeIssues {n : Node} {l : Lookup} {r : Bool} : Sound (typeIssues r (l.pointSize n)) ↔
    (r = false → (l.pointType? (n.ref? .pointType)).isSome = true) ∧
      ∀ t, l.pointType? (n.ref? .pointType) = some t → ∀ size, t.registers? = some size → n.int .size = size := by
  unfold Lookup.pointSize Lookup.pointType
  cases l.pointType? (n.ref? .pointType) with
  | none =>
    cases r <;> cases n.ref? .pointType <;> simp [typeIssues, bind, Except.bind, Issue.level]
  | some t =>
    cases hr : t.registers? with
    | none => simp [typeIssues, bind, Except.bind, hr, pure, Except.pure]
    | some size =>
      by_cases hs : size = n.int .size
      · simp [typeIssues, bind, Except.bind, hr, hs, pure, Except.pure]
      · simp [typeIssues, bind, Except.bind, hr, hs, Issue.level, eq_comm]

/-- The one error of a point without a type that is none of a table. -/
theorem error_of_pointIssues_iff {t : Tree} {n : Node} {l : Lookup} {i : Issue}
    (hparent : ((t.parentKind? n.uuid).any fun k => k == .sunSpecTable || k == .modbusTable) = false)
    (htype : l.pointType? (n.ref? .pointType) = none) : i ∈ pointIssues t n l ∧ i.level = .error ↔
      i = match n.ref? .pointType with
        | some u => .unknownType u
        | none => .noType := by
  have hfactor : ∀ is : List Issue, is = [] ∨ is = [.scaleFactorType] → i ∈ is → i.level ≠ .error := by
    rintro is (rfl | rfl) hi
    · cases hi
    · rw [List.mem_singleton.1 hi]
      decide
  have hsize : typeIssues false (l.pointSize n) = [match n.ref? .pointType with
      | some u => .unknownType u
      | none => .noType] := by
    unfold Lookup.pointSize Lookup.pointType
    rw [htype]
    cases n.ref? .pointType <;> rfl
  unfold pointIssues
  simp only [hparent, hsize]
  constructor
  · rintro ⟨hi, hlevel⟩
    refine List.mem_singleton.1 ((List.mem_append.1 hi).resolve_right fun hi => hfactor _ ?_ hi hlevel)
    cases n.ref? .factorPoint with
    | none => exact .inl rfl
    | some u => exact ite_eq_or_eq ..
  · rintro rfl
    refine ⟨List.mem_append_left _ (List.mem_singleton_self _), ?_⟩
    cases n.ref? .pointType <;> rfl

theorem sound_memberIssues {t : Tree} {n : Node} : Sound (memberIssues t n) ↔ 0 ≤ n.int .bitOffset ∧
    n.int .bitOffset + n.int .bitLength ≤ 16 * ((t.parent? n.uuid).map (·.int .size)).getD 0 := by
  unfold memberIssues
  simp [Issue.level]

theorem sound_driftIssues {t : Tree} (h : t.Holds t.layout) (scope : Uuid) : Sound (driftIssues t scope) := by
  have hdrift : t.drift = [] := by
    refine List.filterMap_eq_nil_iff.2 fun p hp => ?_
    cases hf : t.find? p.uuid with
    | none => rfl
    | some n =>
      obtain ⟨hn, hu⟩ := Tree.mem_of_find? hf
      cases hfield : n.kind.field? p.attr with
      | none => simp [hfield]
      | some f => simp [hfield, Data.int?, h p hp n hn hu (by rw [hfield]; rfl), Value.integer?]
  simp [driftIssues, hdrift]

end Register

end Rules

/-! ### Nodes that stay -/

namespace Node

@[simp] theorem uuid_core (n : Node) : n.core.uuid = n.uuid := by rw [core_eq]

@[simp] theorem kind_core (n : Node) : n.core.kind = n.kind := by
  rw [core_eq]
  exact n.data.kind_bare

theorem get?_core {n : Node} {a : Attr} (ha : a.isLaidOut = false) : n.core.data.get? a = n.data.get? a := by
  rw [core_eq]
  exact Data.get?_bare (Kind.not_given ha)

theorem ref?_core {n : Node} {a : Attr} (ha : a.isLaidOut = false) : n.core.ref? a = n.ref? a :=
  ref?_congr (get?_core ha)

theorem int?_core {n : Node} {a : Attr} (ha : a.isLaidOut = false) : n.core.data.int? a = n.data.int? a :=
  int?_congr (get?_core ha)

end Node

namespace Tree

/-- The frame of what is directly in a message or a multiplexer. -/
theorem frameLength?_of_child {t : Tree} (ht : t.Valid) {p n : Node} (hp : p ∈ t.all) (hn : n ∈ p.children)
    (hk : p.kind = .message ∨ p.kind = .multiplexedMessage ∨ p.kind = .multiplexer) :
    Rules.Can.frameLength? t n.uuid = some (p.int .length) := by
  rw [Rules.Can.frameLength?, ancestors_of_child ht.nodup hp hn,
    List.find?_cons_of_pos (by rcases hk with hk | hk | hk <;> rw [hk] <;> rfl)]
  rfl

/-- A signal that is no reference point is in a message or a multiplexer. -/
theorem frame_of_signal {p n : Node} (hallows : p.kind.allows n.kind = true) (hn : n.kind = .signal)
    (hp : p.kind ≠ .canTable) : p.kind = .message ∨ p.kind = .multiplexedMessage ∨ p.kind = .multiplexer := by
  have hkinds : ∀ k : Kind, k.allows .signal = true → k ≠ .canTable →
      k = .message ∨ k = .multiplexedMessage ∨ k = .multiplexer := by
    intro k; cases k <;> decide
  exact hkinds _ (hn ▸ hallows) hp

namespace Kept

variable {t t' : Tree} {m n : Node} (h : Kept t t' m n) (hc : t'.core = t.core) (ht : t.Valid) (ht' : t'.Valid)
include h

/-! ### Above and below -/

section

include hc ht ht'

/-- The root of one tree is that of the other, and other nodes have parents that stay. -/
theorem parent? : (t.parent? m.uuid = none ∧ t'.parent? n.uuid = none) ∨ ∃ q p, Kept t t' q p ∧ n ∈ p.children ∧
    m ∈ q.children ∧ t.parent? m.uuid = some q ∧ t'.parent? n.uuid = some p := by
  by_cases hr : n = t'.root
  · left
    have hu : m.uuid = t.root.uuid := by rw [h.uuid, hr, (root hc).uuid]
    rw [hu, hr, Tree.parent?, Tree.parent?, ancestors_root, ancestors_root]
    exact ⟨rfl, rfl⟩
  · right
    obtain ⟨q, p, hqp, -, hn, c, hcq, hcn⟩ := h.exists_parent hc hr
    have hct := mem_all_of_child hqp.before.mem hcq
    obtain rfl := Node.eq_of_uuid ht.nodup hct h.before.mem (hcn.uuid.trans h.uuid.symm)
    exact ⟨q, p, hqp, hn, hcq, parent?_of_child ht.nodup hqp.before.mem hcq,
      parent?_of_child ht'.nodup hqp.after.mem hn⟩

theorem parentKind? : t'.parentKind? n.uuid = t.parentKind? m.uuid := by
  rw [Tree.parentKind?, Tree.parentKind?]
  obtain ⟨hm, hn⟩ | ⟨q, p, hqp, -, -, hm, hn⟩ := h.parent? hc ht ht'
  · rw [hm, hn]
  · rw [hm, hn, Option.map_some, Option.map_some, hqp.kind]

end

omit h in
/-- Nodes of a kind that is not made are found again. -/
theorem exists_ofKind (hc : t'.core = t.core) (ht' : t'.Valid) {k : Kind} (hk : k ∉ Kind.madeKinds) {c : Node}
    (hcn : c ∈ t'.ofKind k) : ∃ d ∈ t.ofKind k, Kept t t' d c := by
  obtain ⟨hct, hck⟩ := List.mem_filter.1 hcn
  obtain ⟨d, hd⟩ := exists_kept hc (stays_of_kind ht' hct (by rwa [eq_of_beq hck]))
  exact ⟨d, List.mem_filter.2 ⟨hd.before.mem, by rwa [hd.kind]⟩, hd⟩

open Rules

/-! ### Parameters and anomalies -/

theorem sound_parameterIssues {l l' : Lookup} (hs : Sound (Parameters.parameterIssues m l)) :
    Sound (Parameters.parameterIssues n l') := by
  rw [Parameters.sound_parameterIssues] at hs ⊢
  rwa [← h.decimal? (a := .minimum) rfl, ← h.decimal? (a := .maximum) rfl]

section

include ht ht'

/-- The elements of an array are those that there were. -/
theorem sound_arrayIssues (hk : n.kind = .array) (hs : Sound (Parameters.arrayIssues m)) :
    Sound (Parameters.arrayIssues n) := by
  have hmap := h.map_children ht' (by rw [hk]; rfl) (by rw [hk]; decide) ht
    (g := fun x => (x.kind, x.uuid, x.ref? .original)) fun x => by simp [Node.ref?_core (a := .original) rfl]
  have hlength : m.children.length = n.children.length := by simpa using congrArg List.length hmap
  rw [Parameters.sound_arrayIssues, h.int (by rw [hk]; decide), hlength] at hs
  refine Parameters.sound_arrayIssues.2 ⟨hs.1, fun first rest hcs => ?_⟩
  rw [hcs, List.map_cons, List.map_eq_cons_iff] at hmap
  obtain ⟨first₀, rest₀, hcs₀, hfirst, hrest⟩ := hmap
  obtain ⟨k, hkind, helements⟩ := hs.2 first₀ rest₀ hcs₀
  simp only [Prod.mk.injEq] at hfirst
  refine ⟨k, hfirst.1 ▸ hkind, fun e he => ?_⟩
  have hmem := List.mem_map_of_mem (f := fun x : Node => (x.kind, x.uuid, x.ref? .original)) he
  rw [← hrest] at hmem
  obtain ⟨e₀, he₀, heq⟩ := List.mem_map.1 hmem
  simp only [Prod.mk.injEq] at heq
  rw [← heq.1, ← heq.2.2, ← hfirst.2.1]
  exact helements e₀ he₀

theorem sound_codes (hf : n.kind.isFilled = false) (hk : n.kind ≠ .table ∧ n.kind ≠ .tableGroupElement)
    (hs : Sound (Issue.repeats (·.data.int? .code) .sharedCode m.children)) :
    Sound (Issue.repeats (·.data.int? .code) .sharedCode n.children) := by
  have hmap := h.map_children ht' hf hk ht (g := fun x => x.data.int? .code) fun x => Node.int?_core rfl
  have hcodes : m.children.filterMap (·.data.int? .code) = n.children.filterMap (·.data.int? .code) := by
    simpa [List.filterMap_map] using congrArg (List.filterMap id) hmap
  rw [Issue.sound_repeats fun _ _ _ => rfl] at hs ⊢
  rwa [← hcodes]

end

/-! ### CAN -/

section

include hc ht ht'

theorem sound_signalIssues (hk : n.kind = .signal) {l l' : Lookup} (hs : Sound (Can.signalIssues t m l)) :
    Sound (Can.signalIssues t' n l') := by
  rw [Can.sound_signalIssues] at hs ⊢
  rw [h.parentKind? hc ht ht']
  intro hparent length hlength
  obtain ⟨-, hnone⟩ | ⟨q, p, hqp, hn, hm, hq, hp⟩ := h.parent? hc ht ht'
  · rw [Can.frameLength?, ancestors_of_parent?_eq_none hnone] at hlength
    cases hlength
  · have hqk : q.kind ≠ .canTable := fun hk => hparent (by rw [Tree.parentKind?, hq, Option.map_some, hk])
    have hpk := frame_of_signal (ht'.allowed p hqp.after.mem n hn) hk (hqp.kind ▸ hqk)
    rw [frameLength?_of_child ht' hqp.after.mem hn hpk] at hlength
    have hbefore := hs hparent (q.int .length) (frameLength?_of_child ht hqp.before.mem hm (hqp.kind ▸ hpk))
    have hgiven : Attr.length ∉ p.kind.given := by rcases hpk with hpk | hpk | hpk <;> rw [hpk] <;> decide
    rwa [hqp.int hgiven, Option.some.inj hlength, h.int (a := .startBit) (Kind.not_given rfl),
      h.int (a := .bits) (Kind.not_given rfl)] at hbefore

theorem sound_messageIssues (hroot : t'.root.kind = .canRoot)
    (hk : n.kind = .message ∨ n.kind = .multiplexedMessage ∨ n.kind = .multiplexedMessageClone)
    (hs : Sound (Can.messageIssues t m)) : Sound (Can.messageIssues t' n) := by
  have hchildren : n.kind.isFilled = false ∧ n.kind ≠ .table ∧ n.kind ≠ .tableGroupElement := by
    rcases hk with hk | hk | hk <;> rw [hk] <;> decide
  rw [Can.sound_messageIssues] at hs ⊢
  obtain ⟨hshared, hselector⟩ := hs
  refine ⟨fun c hcr hne => ?_, fun hmk hlength => ?_⟩
  · obtain ⟨d, hdr, hdc⟩ := (root hc).child ht' (by rw [hroot]; rfl) (by rw [hroot]; decide) hcr
    rw [← hdc.int? (Kind.not_given rfl), ← h.int? (Kind.not_given rfl)]
    exact hshared d hdr (by rwa [hdc.uuid, h.uuid])
  · have hmap := h.map_children ht' hchildren.1 hchildren.2 ht (g := Node.kind) Node.kind_core
    have hlen : m.children.length = n.children.length := by simpa using congrArg List.length hmap
    have hhead : m.children.head?.map Node.kind = n.children.head?.map Node.kind := by
      simpa using congrArg List.head? hmap
    have hany : ∀ o : Option Node, o.any (·.kind == .signal) = (o.map Node.kind).any (· == .signal) := by
      intro o; cases o <;> rfl
    rw [hany, ← hhead, ← hany]
    exact hselector (h.kind ▸ hmk) (hlen ▸ hlength)

end

theorem sound_viewIssues (hs : Sound (Can.viewIssues m)) : Sound (Can.viewIssues n) := by
  rw [Can.sound_viewIssues] at hs ⊢
  rwa [← h.ref? (a := .parameter) rfl, ← h.int (a := .multiplexerRangeFirst) (Kind.not_given rfl),
    ← h.int (a := .multiplexerRangeLast) (Kind.not_given rfl)]

/-! ### Register maps -/

theorem sound_driftIssues (hlaid : t' = t ∨ t'.UpToDate) (hs : Sound (Register.driftIssues t m.uuid)) :
    Sound (Register.driftIssues t' n.uuid) := by
  obtain rfl | hup := hlaid
  · rwa [← h.uuid]
  · exact Register.sound_driftIssues hup.holds _

section

include hc ht'

theorem sound_modelIssues (hlaid : t' = t ∨ t'.UpToDate) (hs : Sound (SunSpec.modelIssues t m)) :
    Sound (SunSpec.modelIssues t' n) := by
  have hshared : ∀ {t : Tree} {n : Node}, Sound (if (t.ofKind .sunSpecModel).any fun m =>
      m.uuid != n.uuid && m.int .id == n.int .id then [Issue.modelId (n.int .id)] else []) ↔
        ∀ c ∈ t.ofKind .sunSpecModel, c.uuid ≠ n.uuid → c.int .id ≠ n.int .id := by
    intro t n
    simp [Issue.level]
  rw [SunSpec.modelIssues, sound_append, hshared] at hs ⊢
  refine ⟨h.sound_driftIssues hlaid hs.1, fun c hcn hne => ?_⟩
  obtain ⟨d, hd, hdc⟩ := exists_ofKind hc ht' (by decide) hcn
  rw [← hdc.int (Kind.not_given rfl), ← h.int (Kind.not_given rfl)]
  exact hs.2 d hd (by rwa [hdc.uuid, h.uuid])

include ht

theorem sound_pointIssues {l l' : Lookup}
    (hpoint : l'.pointType? (n.ref? .pointType) = l.pointType? (m.ref? .pointType)) (hk : n.kind.isPoint = true)
    (hs : Sound (Register.pointIssues t m l)) : Sound (Register.pointIssues t' n l') := by
  have hgiven : ∀ k : Kind, k.isPoint = true → Attr.size ∉ k.given := by
    intro k; cases k <;> decide
  rw [Register.sound_pointIssues, Register.sound_typeIssues] at hs ⊢
  rwa [h.parentKind? hc ht ht', hpoint, ← h.int (hgiven _ hk)]

theorem sound_memberIssues (hk : n.kind = .dataPointBitfieldMember ∨ n.kind = .functionDataBitfieldMember)
    (hs : Sound (Register.memberIssues t m)) : Sound (Register.memberIssues t' n) := by
  have hgiven : ∀ k c : Kind, c = .dataPointBitfieldMember ∨ c = .functionDataBitfieldMember → k.allows c = true →
      Attr.size ∉ k.given := by
    rintro k c (rfl | rfl) <;> cases k <;> decide
  have hsize : (t.parent? m.uuid).map (·.int .size) = (t'.parent? n.uuid).map (·.int .size) := by
    obtain ⟨hm, hn⟩ | ⟨q, p, hqp, hn, -, hq, hp⟩ := h.parent? hc ht ht'
    · rw [hm, hn]
    · rw [hq, hp, Option.map_some, Option.map_some, hqp.int (hgiven _ _ hk (ht'.allowed p hqp.after.mem n hn))]
  rw [Register.sound_memberIssues] at hs ⊢
  rwa [← hsize, ← h.int (a := .bitOffset) (Kind.not_given rfl), ← h.int (a := .bitLength) (Kind.not_given rfl)]

end

/-! ### All rules -/

theorem sound_parameters (ht : t.Valid) (ht' : t'.Valid) {l l' : Lookup} (hs : Sound (Parameters.issues t m l)) :
    Sound (Parameters.issues t' n l') := by
  by_cases hp : n.kind = .parameter
  · simp only [Parameters.issues, h.kind, hp] at hs ⊢
    exact h.sound_parameterIssues hs
  by_cases ha : n.kind = .array
  · simp only [Parameters.issues, h.kind, ha] at hs ⊢
    exact h.sound_arrayIssues ht ht' ha hs
  · exact Parameters.sound_of_kind hp ha

theorem sound_anomalies (ht : t.Valid) (ht' : t'.Valid) (l l' : Lookup) (hs : Sound (Anomalies.issues t m l)) :
    Sound (Anomalies.issues t' n l') := by
  unfold Anomalies.issues at hs ⊢
  rw [h.kind] at hs
  have habbreviation : ∀ c : Bool, Sound (if c then [Issue.noAbbreviation] else []) := by
    simp [Issue.level]
  split
  · rename_i hk
    simp only [hk] at hs
    refine sound_append.2 ⟨h.sound_codes ht ht' ?_ ?_ (sound_append.1 hs).1, habbreviation _⟩ <;> rw [hk] <;> decide
  · rename_i hk
    simp only [hk] at hs
    refine sound_append.2 ⟨h.sound_codes ht ht' ?_ ?_ (sound_append.1 hs).1, habbreviation _⟩ <;> rw [hk] <;> decide
  · simp [Issue.level]
  · exact sound_nil

section

include hc ht ht'

theorem sound_can (hroot : t'.root.kind = .canRoot) (hnum : t'.Numbered) {l l' : Lookup}
    (hs : Sound (Can.issues t m l)) : Sound (Can.issues t' n l') := by
  unfold Can.issues at hs ⊢
  rw [h.kind] at hs
  split <;> rename_i hk <;> simp only [hk] at hs
  · exact h.sound_signalIssues hc ht ht' hk hs
  · exact h.sound_messageIssues hc ht ht' hroot (.inl hk) hs
  · exact h.sound_messageIssues hc ht ht' hroot (.inr (.inl hk)) hs
  · exact h.sound_messageIssues hc ht ht' hroot (.inr (.inr hk)) hs
  · exact (Can.numbered_iff ht').1 hnum n h.after.mem hk
  · exact h.sound_viewIssues hs
  · exact sound_nil

variable (hlaid : t' = t ∨ t'.UpToDate) {l l' : Lookup}
  (hpoint : l'.pointType? (n.ref? .pointType) = l.pointType? (m.ref? .pointType))
include hlaid hpoint

theorem sound_sunSpec (hs : Sound (SunSpec.issues t m l)) : Sound (SunSpec.issues t' n l') := by
  unfold SunSpec.issues at hs ⊢
  rw [h.kind] at hs
  split <;> rename_i hk <;> simp only [hk] at hs
  · exact h.sound_modelIssues hc ht' hlaid hs
  · exact h.sound_pointIssues hc ht ht' hpoint (by rw [hk]; rfl) hs
  · exact h.sound_pointIssues hc ht ht' hpoint (by rw [hk]; rfl) hs
  · exact h.sound_memberIssues hc ht ht' (.inl hk) hs
  · rw [h.ref? (a := .parameterTable) rfl] at hs
    exact sound_append.2 ⟨(sound_append.1 hs).1, by simp [Issue.level]⟩
  · rwa [h.ref? (a := .original) rfl] at hs
  · exact sound_nil

theorem sound_modbus (hs : Sound (Modbus.issues t m l)) : Sound (Modbus.issues t' n l') := by
  unfold Modbus.issues at hs ⊢
  rw [h.kind] at hs
  split <;> rename_i hk <;> simp only [hk] at hs
  · exact h.sound_driftIssues hlaid hs
  · exact h.sound_pointIssues hc ht ht' hpoint (by rw [hk]; rfl) hs
  · exact h.sound_pointIssues hc ht ht' hpoint (by rw [hk]; rfl) hs
  · exact h.sound_memberIssues hc ht ht' (.inr hk) hs
  · rwa [h.ref? (a := .parameterTable) rfl] at hs
  · rwa [h.ref? (a := .original) rfl] at hs
  · exact sound_nil

/-- A node that stays meets the demands of its tree as it did. -/
theorem sound_rules (hnum : t'.Numbered) (hs : Sound ((Rules.ofTree t.kind).issues t m l)) :
    Sound ((Rules.ofTree t'.kind).issues t' n l') := by
  have hkind := kind_of_core hc
  rw [← hkind] at hs
  cases hk : t'.kind <;> rw [hk] at hs
  · exact h.sound_parameters ht ht' hs
  · exact h.sound_can hc ht ht' (by rw [ht'.root, hk]; rfl) hnum hs
  · exact h.sound_sunSpec hc ht ht' hlaid hpoint hs
  · exact h.sound_modbus hc ht ht' hlaid hpoint hs
  · exact h.sound_anomalies ht ht' l l' hs

end

end Kept

end Tree

end DeviceModel
