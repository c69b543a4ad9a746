import DeviceModel.Proofs.Expansion.Edits
import DeviceModel.Proofs.Rules.Arrays

/-!
Trees with arrays under changes. Main statements: each change that an edit of the parameter tree is put
together from leaves the arrays consistent, and mirrored where no parameter comes into or leaves the
elements of an array (`evolves_addChild`, `evolves_move`, `evolves_setData` and others).
-/

namespace DeviceModel

open Node

namespace Tree

/-- A parameter tree with consistent arrays. -/
structure Consistent (t : Tree) : Prop where
  valid : t.Valid
  kind : t.kind = .parameters
  arrays : ∀ a ∈ t.all, a.kind = .array → a.IsConsistent

def Mirrored (t : Tree) : Prop := ∀ a ∈ t.all, a.kind = .array → a.IsMirrored

/-- What has become of a tree has consistent arrays, and under `c` they are mirrored if they were. -/
structure Evolves (c : Prop) (t t' : Tree) : Prop where
  consistent : t'.Consistent
  mirrored : c → t.Mirrored → t'.Mirrored

/-- Every array is like one that was there, or is known to be as it should. -/
theorem evolves_of_resembles {c : Prop} {t t' : Tree} (h : t.Consistent) (hv : t'.Valid)
    (hk : t'.kind = .parameters) (ha : ∀ b ∈ t'.all, b.kind = .array →
      (∃ a ∈ t.all, a.kind = .array ∧ a.Resembles c b) ∨
        b.IsConsistent ∧ (c → t.Mirrored → b.IsMirrored)) : t.Evolves c t' where
  consistent := by
    refine ⟨hv, hk, fun b hb hbk => ?_⟩
    rcases ha b hb hbk with ⟨a, hat, hak, hr⟩ | ⟨hb, -⟩
    · exact (h.arrays a hat hak).congr hr
    · exact hb
  mirrored := by
    intro hc hm b hb hbk
    rcases ha b hb hbk with ⟨a, hat, hak, hr⟩ | ⟨-, hb⟩
    · exact (hm a hat hak).congr hr hc
    · exact hb hc hm

theorem Evolves.refl {c : Prop} {t : Tree} (h : t.Consistent) : t.Evolves c t := ⟨h, fun _ hm => hm⟩

theorem Evolves.trans {c : Prop} {t t₁ t₂ : Tree} (h : t.Evolves c t₁) (h' : t₁.Evolves c t₂) :
    t.Evolves c t₂ :=
  ⟨h'.consistent, fun hc hm => h'.mirrored hc (h.mirrored hc hm)⟩

variable {c : Prop} {t : Tree}

/-! ### Elements of arrays -/

theorem isFirstElement_iff (ht : t.uuids.Nodup) {u : Uuid} : t.isFirstElement u = true ↔
    ∃ a ∈ t.all, a.kind = .array ∧ ∃ first ∈ a.children.head?, first.uuid = u := by
  simp only [isFirstElement, Option.any_eq_true, Bool.and_eq_true, beq_iff_eq]
  constructor
  · rintro ⟨a, hp, hk, first, hfirst, hu⟩
    exact ⟨a, ((parent?_eq_some ht).1 hp).1, hk, first, hfirst, hu⟩
  · rintro ⟨a, ha, hk, first, hfirst, rfl⟩
    exact ⟨a, parent?_of_child ht ha (List.mem_of_mem_head? hfirst), hk, first, hfirst, rfl⟩

theorem exists_array_of_isFirstElement (ht : t.uuids.Nodup) {p : Node} (hp : p ∈ t.all)
    (h : t.isFirstElement p.uuid = true) : ∃ a ∈ t.all, a.kind = .array ∧ p ∈ a.children.head? := by
  obtain ⟨a, ha, hk, first, hfirst, hu⟩ := (isFirstElement_iff ht).1 h
  obtain rfl := Node.eq_of_uuid ht (mem_all_of_child ha (List.mem_of_mem_head? hfirst)) hp hu
  exact ⟨a, ha, hk, hfirst⟩

/-- Kinds that an array does not allow are not those of its elements. -/
theorem Valid.kind_element (ht : t.Valid) {a e : Node} (ha : a ∈ t.all) (hk : a.kind = .array)
    (he : e ∈ a.children) {k : Kind} (hno : Kind.array.allows k = false) : e.kind ≠ k := by
  have hallows := ht.allowed a ha e he
  rw [hk] at hallows
  rintro rfl
  rw [hno] at hallows
  cases hallows

/-- An element of an array is its first, or stands for that. -/
theorem Consistent.element (h : t.Consistent) {a e : Node} (ha : a ∈ t.all) (hk : a.kind = .array)
    (he : e ∈ a.children) : ∃ first ∈ a.children.head?, (e = first ∧ (e.kind = .parameter ∨ e.kind = .group)) ∨
      e ∈ a.children.tail ∧ (e.kind = .arrayParameterElement ∨ e.kind = .arrayGroupElement) ∧
        e.ref? .original = some first.uuid := by
  have hcons := h.arrays a ha hk
  obtain ⟨first, rest, hc⟩ := List.exists_cons_of_ne_nil (List.ne_nil_of_mem he)
  have hhead : first ∈ a.children.head? := by rw [hc]; rfl
  refine ⟨first, hhead, ?_⟩
  have hfirst := hcons.first first hhead
  rw [hc] at he
  rcases List.mem_cons.1 he with rfl | he
  · exact .inl ⟨rfl, hfirst⟩
  · have htail : e ∈ a.children.tail := by rw [hc]; exact he
    obtain ⟨hkind, horiginal⟩ := hcons.others first hhead e htail
    refine .inr ⟨htail, ?_, horiginal⟩
    rcases hfirst with hf | hf <;> rw [hf] at hkind
    · exact .inl (Option.some.inj hkind).symm
    · exact .inr (Option.some.inj hkind).symm

/-- A first element that has children is a group. -/
theorem Consistent.group_of_allows (h : t.Consistent) {a first : Node} (ha : a ∈ t.all) (hk : a.kind = .array)
    (hfirst : first ∈ a.children.head?) {k : Kind} (hallows : first.kind.allows k = true) :
    first.kind = .group := by
  refine ((h.arrays a ha hk).first first hfirst).resolve_left fun hparameter => ?_
  rw [hparameter] at hallows
  cases hallows

/-- An array is no first element of another. -/
theorem Consistent.isFirstElement_array (h : t.Consistent) {p : Node} (hp : p ∈ t.all) (hk : p.kind = .array) :
    t.isFirstElement p.uuid = false := by
  refine Bool.eq_false_iff.2 fun hfirst => ?_
  obtain ⟨a, ha, hak, hpa⟩ := exists_array_of_isFirstElement h.valid.nodup hp hfirst
  exact h.valid.kind_element ha hak (List.mem_of_mem_head? hpa) (k := .array) (by decide) hk

/-- The members of a group are parameters. -/
theorem Valid.members_group (ht : t.Valid) {n : Node} (hn : n ∈ t.all) (hk : n.kind = .group) :
    TableExpansion.members n = n.children.filter (·.kind == .parameter) := by
  refine List.filter_congr fun m hm => ?_
  have hallows := ht.allowed n hn m hm
  rw [hk] at hallows
  have hmk : m.kind ≠ .arrayParameterElement := fun hmk => by
    rw [hmk] at hallows
    cases hallows
  simp [hmk]

/-- The children of another element of an array are all stand-ins. -/
theorem Valid.kind_standIn (ht : t.Valid) {n m : Node} (hn : n ∈ t.all) (hk : n.kind = .arrayGroupElement)
    (hm : m ∈ n.children) : m.kind = .arrayParameterElement := by
  have hallows := ht.allowed n hn m hm
  rw [hk] at hallows
  simpa [Kind.allows, Kind.childKinds] using hallows

theorem Valid.standIn_ne_root (ht : t.Valid) {n : Node} (hk : n.kind = .arrayParameterElement) : n ≠ t.root := by
  rintro rfl
  rw [ht.root] at hk
  revert hk
  cases t.kind <;> decide

/-- Nothing stands below a stand-in. -/
theorem Valid.uuids_standIn (ht : t.Valid) {n : Node} (hn : n ∈ t.all) (hk : n.kind = .arrayParameterElement) :
    n.uuids = [n.uuid] := by
  have hnone : n.children = [] := List.eq_nil_iff_forall_not_mem.2 fun c hc => by
    have hallows := ht.allowed n hn c hc
    rw [hk] at hallows
    cases hallows
  rw [Node.uuids_eq, hnone, List.flatMap_nil]

/-- A child of `p` that is no parameter in an element of an array. -/
def IsApart (t : Tree) (p n : Node) : Prop :=
  n.isMember = true → ∀ a ∈ t.all, a.kind = .array → p ∉ a.children

theorem Consistent.isApart (h : t.Consistent) {p n : Node} (hallows : p.kind.allows n.kind = true)
    (hk : p.kind ≠ .arrayGroupElement) (hn : n.isMember = true → t.isFirstElement p.uuid = false) :
    t.IsApart p n := by
  intro hm a ha hak hpa
  obtain ⟨first, hfirst, ⟨rfl, -⟩ | ⟨-, hp | hp, -⟩⟩ := h.element ha hak hpa
  · rw [(isFirstElement_iff h.valid.nodup).2 ⟨a, ha, hak, p, hfirst, rfl⟩] at hn
    exact absurd (hn hm) (by decide)
  · rw [hp] at hallows
    cases hallows
  · exact hk hp

/-! ### Changes at one node -/

/-- An array in a tree that has been changed at `p` is in what was put there, or is like one that was in
the tree. -/
theorem resembles_of_edit (ht : t.Valid) {p : Node} (hp : p ∈ t.all) {f : Node → Node}
    (hf : (f p).card = p.card)
    (hm : c → ∀ a ∈ t.all, a.kind = .array → p ∈ a.children → (f p).memberCards = p.memberCards)
    {b : Node} (hb : b ∈ (t.edit p.uuid f).all) (hk : b.kind = .array) :
    b ∈ (f p).all ∨ ∃ a ∈ t.all, a.kind = .array ∧ a.uuid ≠ p.uuid ∧ a.Resembles c b := by
  have only : ∀ m ∈ t.all, m.uuid = p.uuid → m = p := fun m hm hu => Node.eq_of_uuid ht.nodup hm hp hu
  have hcard : ∀ m ∈ t.all, m.uuid = p.uuid → (f m).card = m.card := fun m hm hu => by
    rw [only m hm hu, hf]
  rcases Node.mem_all_edit hb with ⟨m, hmt, hu, hbm⟩ | ⟨a, ha, hu, rfl⟩
  · exact .inl (only m hmt hu ▸ hbm)
  · rw [Node.kind_edit fun hau => congrArg (·.2.1) (hcard a ha hau)] at hk
    refine .inr ⟨a, ha, hk, hu, resembles_edit (fun m hma => hcard m (Node.mem_all_trans hma ha)) hu ?_⟩
    intro hc e he heu
    obtain rfl := only e (mem_all_of_child ha he) heu
    exact hm hc a ha hk he

section

variable (h : t.Consistent)
include h

theorem resembles_of_addChild {p n : Node} (hp : p ∈ t.all) (hpk : p.kind ≠ .array)
    (hc : c → t.IsApart p n) {row : Option Nat} {b : Node}
    (hb : b ∈ (t.edit p.uuid fun m => m.addChild row n).all) (hk : b.kind = .array) :
    b ∈ n.all ∨ ∃ a ∈ t.all, a.kind = .array ∧ a.Resembles c b := by
  have hmembers : c → ∀ a ∈ t.all, a.kind = .array → p ∈ a.children →
      (p.addChild row n).memberCards = p.memberCards := by
    intro hcc a ha hak hpa
    rw [memberCards, memberCards, members_addChild (Bool.eq_false_iff.2 fun hm => hc hcc hm a ha hak hpa)]
  rcases resembles_of_edit h.valid hp rfl hmembers hb hk with hbp | ⟨a, ha, hak, -, hr⟩
  · rcases Node.mem_all.1 hbp with rfl | ⟨d, hd, hbd⟩
    · exact absurd hk hpk
    · rcases Node.mem_place.1 hd with rfl | hd
      · exact .inl hbd
      · have hbt := Node.mem_all_trans hbd (mem_all_of_child hp hd)
        exact .inr ⟨b, hbt, hk, rfl, rfl, fun _ => rfl⟩
  · exact .inr ⟨a, ha, hak, hr⟩

/-- A new leaf under a node that is no array. -/
theorem evolves_addChild {p n : Node} (hp : p ∈ t.all) (hpk : p.kind ≠ .array) (hc : c → t.IsApart p n)
    (hn : n.children = []) (hlength : n.kind = .array → n.int .length = 0) {row : Option Nat}
    (hv : (t.edit p.uuid fun m => m.addChild row n).Valid) :
    t.Evolves c (t.edit p.uuid fun m => m.addChild row n) := by
  refine evolves_of_resembles h hv h.kind fun b hb hk => ?_
  refine (resembles_of_addChild h hp hpk hc hb hk).symm.imp id fun hbn => ?_
  rcases Node.mem_all.1 hbn with rfl | ⟨d, hd, -⟩
  · exact ⟨isConsistent_of_nil hn (hlength hk), fun _ _ => isMirrored_of_nil (by rw [hn]; rfl)⟩
  · rw [hn] at hd
    cases hd

/-! ### Nodes taken out -/

theorem resembles_of_without {p n : Node} (hp : p ∈ t.all) (hn : n ∈ p.children) (hc : c → t.IsApart p n)
    {b : Node} (hb : b ∈ (t.root.without n.uuid).all) (hk : b.kind = .array) (hbp : b.uuid ≠ p.uuid) :
    ∃ a ∈ t.all, a.kind = .array ∧ a.Resembles c b := by
  obtain ⟨a, ha, rfl⟩ := Node.mem_all_without hb
  rw [Node.uuid_without] at hbp
  rw [Node.kind_without] at hk
  refine ⟨a, ha, hk, show a.Resembles c (a.withoutAll [n.uuid]) from
    resembles_withoutAll (fun e he heu => ?_) fun hcc e he m hm hmu => ?_⟩
  · obtain rfl := Node.parent_unique h.valid.nodup ha hp he hn (List.mem_singleton.1 heu)
    exact hbp rfl
  · have hme := List.mem_of_mem_filter hm
    have het := mem_all_of_child ha he
    obtain rfl := Node.parent_unique h.valid.nodup het hp hme hn (List.mem_singleton.1 hmu)
    obtain rfl := Node.eq_of_uuid h.valid.nodup (mem_all_of_child hp hme) (mem_all_of_child hp hn)
      (List.mem_singleton.1 hmu)
    exact hc hcc (List.mem_filter.1 hm).2 a ha hk he

omit h in
theorem ne_of_array_without (ht : t.uuids.Nodup) {p n b : Node} (hp : p ∈ t.all) (hpk : p.kind ≠ .array)
    (hb : b ∈ (t.root.without n.uuid).all) (hk : b.kind = .array) : b.uuid ≠ p.uuid := by
  obtain ⟨a, ha, rfl⟩ := Node.mem_all_without hb
  rw [Node.kind_without] at hk
  rw [Node.uuid_without]
  exact fun hu => hpk (Node.eq_of_uuid ht ha hp hu ▸ hk)

/-- A node taken out that is no element of an array. -/
theorem evolves_without {p n : Node} (hp : p ∈ t.all) (hn : n ∈ p.children) (hpk : p.kind ≠ .array)
    (hc : c → t.IsApart p n) (hv : { t with root := t.root.without n.uuid : Tree }.Valid) :
    t.Evolves c { t with root := t.root.without n.uuid } := by
  exact evolves_of_resembles h hv h.kind fun b hb hk =>
    .inl (resembles_of_without h hp hn hc hb hk (ne_of_array_without h.valid.nodup hp hpk hb hk))

/-- A node that is no element of an array is moved under one that is no array. -/
theorem evolves_move {p q n : Node} (hp : p ∈ t.all) (hq : q ∈ t.all) (hn : n ∈ q.children)
    (hpk : p.kind ≠ .array) (hqk : q.kind ≠ .array) (hc : c → t.IsApart p n ∧ t.IsApart q n)
    {row : Option Nat} {t' : Tree} (hmove : t.move n.uuid p.uuid row = .ok t') : t.Evolves c t' := by
  have hnt := h.valid.nodup
  have hv := h.valid.move hmove
  obtain ⟨n', hn', p', hp', hnu, hpu, hr, hne, hanc, -, rfl⟩ := move_ok hmove
  obtain rfl := Node.eq_of_uuid hnt hn' (mem_all_of_child hq hn) hnu
  obtain rfl := Node.eq_of_uuid hnt hp' hp hpu
  have hmem := mem_without hnt hn' hp (notMem_of_isAncestor hnt hp hn' hne hanc)
  have hwithout := evolves_without h hq hn hqk (fun hcc => (hc hcc).2) (h.valid.without hn' hr)
  have hapart : c → ({ t with root := t.root.without n'.uuid } : Tree).IsApart (p'.without n'.uuid) n' := by
    intro hcc hm b hb hbk hpb
    obtain ⟨a, ha, rfl⟩ := Node.mem_all_without hb
    rw [Node.without_eq] at hpb
    obtain ⟨e, he, hep⟩ := List.mem_map.1 hpb
    have hea := List.mem_of_mem_filter he
    have hu := congrArg Node.uuid hep
    rw [Node.uuid_without, Node.uuid_without] at hu
    obtain rfl := Node.eq_of_uuid hnt (mem_all_of_child ha hea) hp hu
    exact (hc hcc).1 hm a ha (by rwa [Node.kind_without] at hbk) hea
  refine evolves_of_resembles h hv h.kind fun b hb hk => .inl ?_
  have hadded := resembles_of_addChild hwithout.consistent hmem (by rwa [Node.kind_without]) hapart
    (b := b) (by rwa [Node.uuid_without]) hk
  rcases hadded with hbn | ⟨a, ha, hak, hr⟩
  · exact ⟨b, Node.mem_all_trans hbn hn', hk, rfl, rfl, fun _ => rfl⟩
  · obtain ⟨a', ha', hak', hr'⟩ := resembles_of_without h hq hn (fun hcc => (hc hcc).2) ha hak
      (ne_of_array_without hnt hq hqk ha hak)
    exact ⟨a', ha', hak', hr'.trans hr⟩

/-! ### Attributes and tables -/

/-- Attributes that do not belong to what an array shows. -/
theorem evolves_setData {n : Node} (hn : n ∈ t.all) {d : Data} (hd : d.kind = n.kind)
    (horiginal : d.get? .original = n.data.get? .original)
    (hlength : n.kind = .array → d.get? .length = n.data.get? .length) :
    t.Evolves c (t.modify n.uuid fun _ => d) := by
  have hcard : ({ n with data := d } : Node).card = n.card := by
    simp only [card, Node.kind, ref?, Data.ref?, horiginal]
    rw [hd]
    rfl
  refine evolves_of_resembles h (h.valid.setData hn hd) h.kind fun b hb hk => .inl ?_
  rcases resembles_of_edit (c := c) h.valid hn hcard (fun _ _ _ _ _ => rfl) hb hk with
    hbn | ⟨a, ha, hak, -, hr⟩
  · rcases Node.mem_all.1 hbn with rfl | ⟨e, he, hbe⟩
    · have hnk : n.kind = .array := hd.symm.trans hk
      refine ⟨n, hn, hnk, ?_, rfl, fun _ => rfl⟩
      simp only [int, Data.int, Data.int?, hlength hnk]
    · exact ⟨b, Node.mem_all_trans hbe (mem_all_of_child hn he), hk, rfl, rfl, fun _ => rfl⟩
  · exact ⟨a, ha, hak, hr⟩

/-- Other children of a node that is neither an array nor an element of one. -/
theorem evolves_setChildren {p : Node} (hp : p ∈ t.all) (hpk : p.kind ≠ .array)
    (hpa : ∀ a ∈ t.all, a.kind = .array → p ∉ a.children) {cs : List Node}
    (hcs : ∀ d ∈ cs, ∀ b ∈ d.all, b.kind = .array → b ∈ t.all) (hv : (t.setChildren p.uuid cs).Valid) :
    t.Evolves c (t.setChildren p.uuid cs) := by
  refine evolves_of_resembles h hv h.kind fun b hb hk => .inl ?_
  rcases resembles_of_edit (c := c) h.valid hp rfl (fun _ a ha hak hpac => absurd hpac (hpa a ha hak)) hb hk
    with hbp | ⟨a, ha, hak, -, hr⟩
  · rcases Node.mem_all.1 hbp with rfl | ⟨d, hd, hbd⟩
    · exact absurd hk hpk
    · exact ⟨b, hcs d hd b hbd hk, hk, rfl, rfl, fun _ => rfl⟩
  · exact ⟨a, ha, hak, hr⟩

end

end Tree

end DeviceModel
