import DeviceModel.Proofs.Rules.ArrayTrees
import DeviceModel.Proofs.Rules.NewNodes
import DeviceModel.Workspace.Edits

/-!
Elements of arrays that come and go. Main statements: arrays stay consistent and mirrored when one is
counted again after a change of its elements (`evolves_counted`), when a parameter comes into the first
group with its stand-ins in the others (`evolves_extend`), when one goes with its stand-ins
(`evolves_withoutShared`), and when an array gets another length (`evolves_resized`).
-/

namespace DeviceModel

open Node

open Edit (counted resized newElement standIn)

/-! ### Counting -/

namespace Node

@[simp] theorem uuid_counted (a : Node) : (counted a).uuid = a.uuid := rfl

@[simp] theorem kind_counted (a : Node) : (counted a).kind = a.kind := Data.kind_put _ _ _

@[simp] theorem children_counted (a : Node) : (counted a).children = a.children := rfl

theorem card_counted (a : Node) : (counted a).card = a.card := by
  have horiginal : (counted a).ref? .original = a.ref? .original := by
    simp only [ref?, Data.ref?, counted, put]
    rw [Data.get?_put_of_ne (by decide)]
  rw [card, card, uuid_counted, kind_counted, horiginal]

theorem length_counted {a : Node} (hk : a.kind = .array) :
    (counted a).int .length = (counted a).children.length := by
  have hfield : (a.data.kind.field? .length).isSome = true := by
    rw [show a.data.kind = .array from hk]
    decide
  simp only [int, Data.int, Data.int?, counted, put]
  rw [Data.get?_put_integer rfl hfield]
  rfl

end Node

namespace Tree

variable {c : Prop} {t : Tree}

theorem valid_counted (ht : t.Valid) {a : Node} (ha : a ∈ t.all) : (t.edit a.uuid counted).Valid := by
  have hmodify : t.edit a.uuid counted =
      t.modify a.uuid (·.put .length (.integer a.children.length)) := by
    refine congrArg (Tree.mk t.kind) (Node.edit_congr fun m hm hu => ?_)
    obtain rfl := Node.eq_of_uuid ht.nodup hm ha hu
    rfl
  rw [hmodify]
  exact ht.modify fun m _ _ => Data.kind_put _ _ _

/-- An array is counted, and the others are as they were or should be. -/
theorem evolves_counted {t₁ : Tree} (h : t.Consistent) (hv : t₁.Valid) (hk : t₁.kind = .parameters)
    {a : Node} (ha : a ∈ t₁.all) (hothers : ∀ b ∈ t₁.all, b.kind = .array → b.uuid ≠ a.uuid →
      ∃ a' ∈ t.all, a'.kind = .array ∧ a'.Resembles c b)
    (hcons : (counted a).IsConsistent) (hm : c → t.Mirrored → (counted a).IsMirrored) :
    t.Evolves c (t₁.edit a.uuid counted) := by
  refine evolves_of_resembles h (valid_counted hv ha) hk fun b hb hbk => ?_
  rcases resembles_of_edit (c := c) hv ha (card_counted a) (fun _ _ _ _ _ => rfl) hb hbk with
    hba | ⟨d, hd, hdk, hdu, hr⟩
  · rcases Node.mem_all.1 hba with rfl | ⟨e, he, hbe⟩
    · exact .inr ⟨hcons, hm⟩
    · refine .inl (hothers b (Node.mem_all_trans hbe (mem_all_of_child ha he)) hbk fun hu => ?_)
      refine Node.uuid_notMem_below (Node.nodup_of_mem ha hv.nodup) (hu ▸ List.mem_flatMap.2 ⟨e, he, ?_⟩)
      exact Node.uuid_mem_uuids hbe
  · obtain ⟨a', ha', hak', hr'⟩ := hothers d hd hdk hdu
    exact .inl ⟨a', ha', hak', hr'.trans hr⟩

section

variable (h : t.Consistent)
include h

/-- The first element of an array. -/
theorem evolves_addFirst {p n : Node} (hp : p ∈ t.all) (hpk : p.kind = .array) (hpc : p.children = [])
    (hn : n.children = []) (hnk : n.kind = .parameter ∨ n.kind = .group)
    (hv : (t.edit p.uuid fun m => m.addChild none n).Valid) :
    t.Evolves c ((t.edit p.uuid fun m => m.addChild none n).edit p.uuid counted) := by
  have hmem : p.addChild none n ∈ (t.edit p.uuid fun m => m.addChild none n).all :=
    Node.mem_edit_of_mem h.valid.nodup hp rfl (Node.mem_all_self _)
  have hchildren : (p.addChild none n).children = [n] := by simp [addChild, place, hpc]
  refine evolves_counted h hv h.kind (a := p.addChild none n) hmem (fun b hb hbk hbp => ?_)
    ⟨length_counted hpk, ?_, ?_⟩ fun _ _ => isMirrored_of_nil (by rw [children_counted, hchildren]; rfl)
  · have hno : ∀ a ∈ t.all, a.kind = .array → p ∉ a.children := fun a ha hak hpa =>
      h.valid.kind_element ha hak hpa (k := .array) (by decide) hpk
    rcases resembles_of_edit (c := c) h.valid hp rfl (fun _ a ha hak hpa => absurd hpa (hno a ha hak)) hb hbk
      with hbn | ⟨a, ha, hak, -, hr⟩
    · rcases Node.mem_all.1 hbn with rfl | ⟨e, he, hbe⟩
      · exact absurd rfl hbp
      · rw [hchildren, List.mem_singleton] at he
        subst he
        rw [Node.all_eq, hn, List.flatMap_nil, List.mem_singleton] at hbe
        rw [hbe] at hbk
        rw [hbk] at hnk
        simp at hnk
    · exact ⟨a, ha, hak, hr⟩
  · simpa [hchildren] using hnk
  · simp [hchildren]

/-- The last element of an array goes. -/
theorem evolves_withoutLast {p n : Node} (hp : p ∈ t.all) (hpk : p.kind = .array)
    (hn : p.children.getLast? = some n)
    (hv : { t with root := t.root.without n.uuid : Tree }.Valid) :
    t.Evolves c (({ t with root := t.root.without n.uuid } : Tree).edit p.uuid counted) := by
  have hnp : n ∈ p.children := List.mem_of_getLast? hn
  have hnt := h.valid.nodup
  have hparent : ∀ q ∈ t.all, ∀ m ∈ q.children, m.uuid = n.uuid → q = p := fun q hq m hm hu =>
    Node.parent_unique hnt hq hp hm hnp hu
  have hnone : ∀ e ∈ p.children, ∀ m ∈ TableExpansion.members e, m.uuid ∉ [n.uuid] := by
    intro e he m hm hmu
    have hep := hparent e (mem_all_of_child hp he) m (List.mem_of_mem_filter hm) (List.mem_singleton.1 hmu)
    exact h.valid.kind_element hp hpk he (k := .array) (by decide) (hep ▸ hpk)
  have hmem : p.without n.uuid ∈ (t.root.without n.uuid).all :=
    Node.without_mem_without hp fun m hm hmu hpm => by
      obtain rfl := Node.eq_of_uuid hnt hm (mem_all_of_child hp hnp) hmu
      have := Node.length_all_le hpm
      have := Node.length_all_lt_of_child hnp
      omega
  have hcards := map_children_without_prefix (f := card) (Node.nodup_of_mem hp hnt) hn
    fun e _ => card_withoutAll [n.uuid] e
  have hfaces := map_children_without_prefix (f := face) (Node.nodup_of_mem hp hnt) hn
    fun e he => face_withoutAll (hnone e he)
  have hk : (p.without n.uuid).kind = .array := by rwa [Node.kind_without]
  have hevolves := evolves_counted (c := c) h hv h.kind hmem (fun b hb hbk hbp => ?_)
    ((h.arrays p hp hpk).of_start (length_counted hk) hcards)
    fun _ hm => (hm p hp hpk).of_start hfaces
  · rwa [Node.uuid_without] at hevolves
  · rw [Node.uuid_without] at hbp
    refine resembles_of_without h hp hnp (fun _ _ a ha hak hpa => ?_) hb hbk hbp
    exact h.valid.kind_element ha hak hpa (k := .array) (by decide) hpk

/-! ### Members of the first group -/

/-- A parameter comes into the first group of an array, and stand-ins for it into the others. -/
theorem evolves_extend {a p n : Node} (ha : a ∈ t.all) (hak : a.kind = .array)
    (hp : a.children.head? = some p) (hpk : p.kind = .group) {g : Uuid → List Node}
    (hn : n.kind = .parameter) (hnc : n.children = []) (hgp : g p.uuid = [n])
    (hge : ∀ e ∈ a.children.tail, ∃ m, g e.uuid = [m] ∧ m.kind = .arrayParameterElement ∧
      m.children = [] ∧ m.ref? .original = some n.uuid)
    (hg : ∀ u, u ≠ p.uuid → u ∉ a.children.tail.map Node.uuid → g u = [])
    (hv : { t with root := t.root.extend g : Tree }.Valid) :
    t.Evolves c { t with root := t.root.extend g } := by
  have hnt := h.valid.nodup
  obtain ⟨rest, hc⟩ := List.head?_eq_some_iff.1 hp
  have hpa : p ∈ a.children := List.mem_of_mem_head? hp
  have hnone : ∀ q ∈ t.all, q ∉ a.children → g q.uuid = [] := by
    intro q hq hqa
    refine hg _ (fun hu => hqa ?_) fun hu => hqa ?_
    · rwa [Node.eq_of_uuid hnt hq (mem_all_of_child ha hpa) hu]
    · obtain ⟨e, he, heu⟩ := List.mem_map.1 hu
      have hea := List.mem_of_mem_tail he
      rwa [← Node.eq_of_uuid hnt (mem_all_of_child ha hea) hq heu]
  have harray : ∀ q ∈ t.all, q.kind = .array → g q.uuid = [] := fun q hq hqk =>
    hnone q hq fun hqa => h.valid.kind_element ha hak hqa (k := .array) (by decide) hqk
  have hadded : ∀ q ∈ t.all, ∀ m ∈ g q.uuid, m.kind ≠ .array ∧ m.children = [] := by
    intro q hq m hm
    by_cases hqa : q ∈ a.children
    · rw [hc] at hqa hge
      rcases List.mem_cons.1 hqa with rfl | hqa
      · rw [hgp, List.mem_singleton] at hm
        rw [hm, hn]
        exact ⟨by decide, hnc⟩
      · obtain ⟨m', hm', hk, hmc, -⟩ := hge q hqa
        rw [hm', List.mem_singleton] at hm
        rw [hm, hk]
        exact ⟨by decide, hmc⟩
    · rw [hnone q hq hqa] at hm
      cases hm
  refine evolves_of_resembles h hv h.kind fun b hb hbk => .inr ?_
  rcases Node.mem_all_extend hb with ⟨q, hq, rfl⟩ | ⟨q, hq, m, hm, hbm⟩
  · rw [Node.kind_extend] at hbk
    refine ⟨(h.arrays q hq hbk).congr (c := False) (resembles_extend (harray q hq hbk) fun h => h.elim), ?_⟩
    intro _ hmirrored
    by_cases hqa : q = a
    · subst hqa
      refine (hmirrored q hq hak).extend hp hpk hn (harray q hq hak) hgp fun e he => ?_
      exact (hge e he).imp fun m hm => ⟨hm.1, hm.2.1, hm.2.2.2⟩
    · refine (hmirrored q hq hbk).congr (c := True) (resembles_extend (harray q hq hbk) fun _ e he => ?_) trivial
      rw [hnone e (mem_all_of_child hq he) fun hea => hqa (Node.parent_unique hnt hq ha he hea rfl)]
      rfl
  · obtain ⟨hmk, hmc⟩ := hadded q hq m hm
    rw [Node.all_eq, hmc, List.flatMap_nil, List.mem_singleton] at hbm
    exact absurd (hbm ▸ hbk) hmk

/-! ### Members that go -/

/-- `n` is a child of the group that is the first element of the array `a`. -/
structure IsShared (t : Tree) (a p n : Node) : Prop where
  array : a ∈ t.all
  kind : a.kind = .array
  first : p ∈ a.children.head?
  child : n ∈ p.children

/-- What goes with `n`: its stand-ins in the array. -/
def GoesWith (a n x : Node) : Prop :=
  (x ∈ a.all ∧ x.kind = .arrayParameterElement ∧ x.ref? .original = some n.uuid) ∨ x = n

/-- The elements behind a group stand for groups. -/
theorem Consistent.kind_other {q first e : Node} (hq : q ∈ t.all) (hqk : q.kind = .array)
    (hfirst : first ∈ q.children.head?) (hk : first.kind = .group) (he : e ∈ q.children.tail) :
    e.kind = .arrayGroupElement := by
  have hkind := ((h.arrays q hq hqk).others first hfirst e he).1
  rw [hk] at hkind
  exact (Option.some.inj hkind).symm

section

variable {a p n : Node} (hs : t.IsShared a p n)
include hs

omit h in
theorem IsShared.element : p ∈ a.children := List.mem_of_mem_head? hs.first

omit h in
theorem IsShared.mem : p ∈ t.all := mem_all_of_child hs.array hs.element

theorem IsShared.parent {q m : Node} (hq : q ∈ t.all) (hm : m ∈ q.children) (hu : m.uuid = n.uuid) :
    q = p :=
  Node.parent_unique h.valid.nodup hq (hs.mem) hm hs.child hu

theorem IsShared.group : p.kind = .group := by
  exact h.group_of_allows hs.array hs.kind hs.first (h.valid.allowed p (hs.mem) n hs.child)

/-- No element of an array goes. -/
theorem IsShared.not_element {q e : Node} (hq : q ∈ t.all) (hqk : q.kind = .array) (he : e ∈ q.children) :
    ¬GoesWith a n e := by
  have hqp : q ≠ p := fun hqp => by
    rw [hqp, hs.group h] at hqk
    cases hqk
  rintro (⟨-, hek, heo⟩ | rfl)
  · obtain ⟨first, hfirst, ⟨-, hk⟩ | ⟨-, -, ho⟩⟩ := h.element hq hqk he
    · rw [hek] at hk
      simp at hk
    · exact hqp (hs.parent h hq (List.mem_of_mem_head? hfirst) (Option.some.inj (ho.symm.trans heo)))
  · exact hqp (hs.parent h hq he rfl)

/-- Of the parameters in a first group only `n` goes. -/
theorem IsShared.goesWith_first {q m : Node} (hq : q ∈ t.all) (hk : q.kind = .group) (hm : m ∈ q.children) :
    GoesWith a n m ↔ m.uuid = n.uuid := by
  constructor
  · rintro (⟨-, hmk, -⟩ | rfl)
    · have hallows := h.valid.allowed q hq m hm
      rw [hk, hmk] at hallows
      cases hallows
    · rfl
  · exact fun hu => .inr (Node.eq_of_uuid h.valid.nodup (mem_all_of_child hq hm)
      (mem_all_of_child (hs.mem) hs.child) hu)

/-- Of the parameters in another element those go that stand for `n`. -/
theorem IsShared.goesWith_other {q first e m : Node} (hq : q ∈ t.all) (hqk : q.kind = .array)
    (hmirrored : q.IsMirrored) (hfirst : first ∈ q.children.head?) (hk : first.kind = .group)
    (he : e ∈ q.children.tail) (hm : m ∈ TableExpansion.members e) :
    GoesWith a n m ↔ m.ref? .original = some n.uuid := by
  have hek := h.kind_other hq hqk hfirst hk he
  have heq := List.mem_of_mem_tail he
  have het := mem_all_of_child hq heq
  have hme := List.mem_of_mem_filter hm
  constructor
  · rintro (⟨-, -, ho⟩ | rfl)
    · exact ho
    · rw [hs.parent h het hme rfl, hs.group h] at hek
      cases hek
  · intro ho
    -- The array is the one that `n` is in, since some parameter of its first group is `n`.
    have hmem := List.mem_map_of_mem (f := fun m => Node.ref? m .original) hm
    rw [show _ = _ from hmirrored first hfirst hk e he] at hmem
    obtain ⟨x, hx, hxo⟩ := List.mem_map.1 hmem
    have hfq := List.mem_of_mem_head? hfirst
    have hfp := hs.parent h (mem_all_of_child hq hfq) (List.mem_of_mem_filter hx) (Option.some.inj (hxo.trans ho))
    obtain rfl := Node.parent_unique h.valid.nodup hq hs.array hfq hs.element (by rw [hfp])
    exact .inl ⟨Node.mem_all_trans (Node.mem_all_of_child hme) (Node.mem_all_of_child heq),
      h.valid.kind_standIn het hek hme, ho⟩

omit h hs in
/-- What goes on both sides alike leaves lists that go together. -/
theorem map_filter_congr {β : Type} {l r : List Node} {f g : Node → β} {p q : Node → Bool} {s : β → Bool}
    (hfg : l.map f = r.map g) (hp : ∀ x ∈ l, p x = s (f x)) (hq : ∀ x ∈ r, q x = s (g x)) :
    (l.filter p).map f = (r.filter q).map g := by
  rw [List.filter_congr hp, List.filter_congr hq]
  have hl := List.filter_map (f := f) (p := s) (l := l)
  have hr := List.filter_map (f := g) (p := s) (l := r)
  exact hl.symm.trans ((congrArg _ hfg).trans hr)

/-- A child of the first group of an array goes, and its stand-ins in the array. -/
theorem evolves_withoutShared {us : List Uuid} (hus : ∀ x ∈ t.all, x.uuid ∈ us ↔ GoesWith a n x)
    (hv : { t with root := t.root.withoutAll us : Tree }.Valid) :
    t.Evolves c { t with root := t.root.withoutAll us } := by
  have hstay : ∀ q ∈ t.all, q.kind = .array → ∀ e ∈ q.children, e.uuid ∉ us := fun q hq hqk e he heu =>
    hs.not_element h hq hqk he ((hus e (mem_all_of_child hq he)).1 heu)
  refine evolves_of_resembles h hv h.kind fun b hb hbk => .inr ?_
  obtain ⟨q, hq, rfl⟩ := Node.mem_all_withoutAll hb
  rw [kind_withoutAll] at hbk
  have hchildren := children_withoutAll_of_notMem (hstay q hq hbk)
  refine ⟨(h.arrays q hq hbk).congr (c := False) (resembles_withoutAll (hstay q hq hbk) fun h => h.elim), ?_⟩
  intro _ hmirrored first' hfirst' hk e' he'
  rw [hchildren, List.head?_map, Option.mem_def, Option.map_eq_some_iff] at hfirst'
  rw [hchildren, ← List.map_tail] at he'
  obtain ⟨first, hfirst, rfl⟩ := hfirst'
  obtain ⟨e, he, rfl⟩ := List.mem_map.1 he'
  rw [kind_withoutAll] at hk
  have hft := mem_all_of_child hq (List.mem_of_mem_head? hfirst)
  have het := mem_all_of_child hq (List.mem_of_mem_tail he)
  have hold := hmirrored q hq hbk first hfirst hk e he
  rw [Node.Mirrors]
  simp only [members_withoutAll, List.map_map, Function.comp_def, ref?, data_withoutAll, uuid_withoutAll]
  refine map_filter_congr (s := fun o => decide (o ≠ some n.uuid)) hold (fun m hm => ?_) fun m hm => ?_
  · have hgoes := hs.goesWith_other h hq hbk (hmirrored q hq hbk) hfirst hk he hm
    exact decide_eq_decide.2 (not_congr ((hus m (mem_all_of_child het (List.mem_of_mem_filter hm))).trans hgoes))
  · have hmf := List.mem_of_mem_filter hm
    have hgoes := hs.goesWith_first h hft hk hmf
    simp only [ne_eq, Option.some.injEq]
    exact decide_eq_decide.2 (not_congr ((hus m (mem_all_of_child hft hmf)).trans hgoes))

end

end

end Tree

/-! ### New elements -/

open Rules (IsNew)

/-- A leaf that stands for the parameter `p`. -/
structure IsStandInFor (p m : Node) : Prop where
  kind : m.kind = .arrayParameterElement
  leaf : m.children = []
  original : m.ref? .original = some p.uuid

theorem standIn_new {p m : Node} {s s' : Supply} (h : standIn p s = (m, s')) :
    IsStandInFor p m ∧ IsNew s m s' := by
  obtain ⟨rfl, rfl⟩ := Prod.mk.injEq .. ▸ h
  refine ⟨⟨Data.kind_of _ _, rfl, ?_⟩, Node.allowed_iff.2 (by simp [Node.leaf]), fun us hus => hus.draw⟩
  exact Data.ref?_of_get? (Data.get?_of (v := .uuid p.uuid) (by simp) (by simp) rfl rfl)

/-- New nodes that are made one after the other. -/
theorem mapM_new {α : Type} {P : α → Node → Prop} {f : α → Fresh Node} {l : List α}
    (hf : ∀ a ∈ l, ∀ s n s', f a s = (n, s') → P a n ∧ IsNew s n s') {ns : List Node} {s s' : Supply}
    (h : l.mapM f s = (ns, s')) : List.Forall₂ P l ns ∧ (∀ n ∈ ns, n.Allowed) ∧
      ∀ us, s.Issued us → s'.Issued (ns.flatMap Node.uuids ++ us) := by
  induction l generalizing ns s s' with
  | nil =>
    obtain ⟨rfl, rfl⟩ := Prod.mk.injEq .. ▸ h
    exact ⟨.nil, by simp, fun us hus => hus⟩
  | cons a l ih =>
    rcases ha : f a s with ⟨n, v⟩
    rcases hl : l.mapM f v with ⟨ms, v'⟩
    simp only [List.mapM_cons, bind, StateT.bind, pure, StateT.pure, ha, hl] at h
    obtain ⟨rfl, rfl⟩ := h
    obtain ⟨hn, hnew⟩ := hf a (List.mem_cons_self ..) s n v ha
    obtain ⟨hms, hallowed, hissued⟩ := ih (fun b hb => hf b (List.mem_cons_of_mem _ hb)) hl
    refine ⟨.cons hn hms, List.forall_mem_cons.2 ⟨hnew.allowed, hallowed⟩, fun us hus => ?_⟩
    refine (hissued _ (hnew.issued us hus)).perm ?_
    rw [List.flatMap_cons, List.append_assoc]
    exact List.perm_append_comm_assoc ..

/-- `e` stands for the first element of an array, and so do the parameters in it. -/
structure IsElementFor (first e : Node) : Prop where
  kind : Rules.Parameters.elementKind? first.kind = some e.kind
  original : e.ref? .original = some first.uuid
  mirrors : first.kind = .group → e.Mirrors first
  noArray : ∀ m ∈ e.all, m.kind ≠ .array

section

variable {t : Tree} {array first : Node} {index : Nat}

/-- A node of a kind that stands for a first element. -/
theorem ref?_element {k : Kind} {f : Field} (hf : k.field? .original = some f)
    (hc : f.type.coerce? (.uuid first.uuid) = some (.uuid first.uuid)) (name : String) :
    (Data.of k [(.name, .string name), (.original, .uuid first.uuid)]).ref? .original = some first.uuid :=
  Data.ref?_of_get? (Data.get?_of (v := .uuid first.uuid) (by simp) (by simp) hf hc)

theorem newElement_group (hg : first.kind = .group) {s s' : Supply} {ms : List Node}
    (h : (first.children.filter (·.kind == .parameter)).mapM standIn (draw s).2 = (ms, s')) :
    newElement t array first index s = (⟨(draw s).1, .of .arrayGroupElement
      [(.name, .string (Edit.elementName t array first index)), (.original, .uuid first.uuid)], ms⟩, s') := by
  have hrun : newElement t array first index s =
      (⟨(draw s).1, .of .arrayGroupElement [(.name, .string (Edit.elementName t array first index)),
        (.original, .uuid first.uuid)],
        ((first.children.filter (·.kind == .parameter)).mapM standIn (draw s).2).1⟩,
        ((first.children.filter (·.kind == .parameter)).mapM standIn (draw s).2).2) := by
    rw [newElement]
    simp only [if_pos hg]
    rfl
  rw [hrun, h]

theorem newElement_parameter (hg : first.kind ≠ .group) (s : Supply) :
    newElement t array first index s = (.leaf (draw s).1 (.of .arrayParameterElement
      [(.name, .string (Edit.elementName t array first index)), (.original, .uuid first.uuid)]), (draw s).2) := by
  rw [newElement]
  simp only [if_neg hg]
  rfl

theorem isElementFor_group (hg : first.kind = .group)
    (hm : TableExpansion.members first = first.children.filter (·.kind == .parameter)) (s : Supply) :
    IsElementFor first (newElement t array first index s).1 ∧
      IsNew s (newElement t array first index s).1 (newElement t array first index s).2 := by
  rcases hms : (first.children.filter (·.kind == .parameter)).mapM standIn (draw s).2 with ⟨ms, v⟩
  rw [newElement_group hg hms]
  obtain ⟨hstand, hallowed, hissued⟩ := mapM_new (P := IsStandInFor)
    (fun p _ _ _ _ hp => standIn_new hp) hms
  have hkind : ∀ m ∈ ms, m.kind = .arrayParameterElement ∧ m.children = [] := fun m hm =>
    (exists_of_forall₂ hstand.flip hm).elim fun _ hx => ⟨hx.2.kind, hx.2.leaf⟩
  have horiginals : ms.map (·.ref? .original) =
      (first.children.filter (·.kind == .parameter)).map (some ·.uuid) :=
    map_eq_of_forall₂ hstand fun _ _ hm => hm.original
  refine ⟨⟨?_, ref?_element rfl rfl _, fun _ => ?_, fun m hmem => ?_⟩, ?_, fun us hus => ?_⟩
  · rw [hg, Node.kind, Data.kind_of]
    rfl
  · rw [Mirrors, hm, ← horiginals]
    exact congrArg _ (List.filter_eq_self.2 fun m hm => by simp [(hkind m hm).1])
  · rcases Node.mem_all.1 hmem with rfl | ⟨x, hx, hmem⟩
    · rw [Node.kind, Data.kind_of]
      decide
    · rw [Node.all_eq, (hkind x hx).2, List.flatMap_nil, List.mem_singleton] at hmem
      rw [hmem, (hkind x hx).1]
      decide
  · refine Node.allowed_iff.2 fun m hm => ⟨?_, hallowed m hm⟩
    rw [Node.kind, Data.kind_of, (hkind m hm).1]
    rfl
  · rw [Node.uuids_eq]
    exact (hissued _ hus.draw).perm List.perm_middle.symm

theorem isElementFor_parameter (hp : first.kind = .parameter) (s : Supply) :
    IsElementFor first (newElement t array first index s).1 ∧
      IsNew s (newElement t array first index s).1 (newElement t array first index s).2 := by
  have hg : first.kind ≠ .group := by simp [hp]
  rw [newElement_parameter hg]
  refine ⟨⟨?_, ref?_element rfl rfl _, fun h => absurd h hg, fun m hm => ?_⟩,
    Node.allowed_iff.2 (by simp [Node.leaf]), fun us hus => hus.draw⟩
  · rw [hp, Node.kind, Node.leaf, Data.kind_of]
    rfl
  · rw [Node.all_eq, Node.leaf, List.flatMap_nil, List.mem_singleton] at hm
    rw [hm, Node.kind, Data.kind_of]
    decide

end

namespace Tree

section

variable {t : Tree} (ht : t.Valid) {a : Node} (ha : a ∈ t.all)
include ht ha

/-- The children of a node first, and then it is counted. -/
theorem edit_counted (cs : List Node) : (t.edit a.uuid fun _ => counted { a with children := cs }) =
    (t.setChildren a.uuid cs).edit a.uuid counted := by
  have htwice := Node.edit_edit (u := a.uuid) (f := fun n => { n with children := cs }) (g := counted)
    t.root fun m hu => hu
  refine congrArg (Tree.mk t.kind) ((Node.edit_congr fun m hm hu => ?_).trans htwice.symm)
  rw [Node.eq_of_uuid ht.nodup hm ha hu]

theorem valid_take (length : Nat) : (t.setChildren a.uuid (a.children.take length)).Valid := by
  obtain ⟨outside, hold, hnew⟩ := exists_outside ht.nodup ha
  have hallowed := Node.allowed_iff.1 (ht.allowedRoot.of_mem ha)
  refine ht.setChildren ha (fun e he => hallowed e (List.mem_of_mem_take he)) ?_
  refine (hnew _).nodup_iff.2 (List.Sublist.nodup ?_ (hold.nodup_iff.1 ht.nodup))
  exact ((List.take_sublist ..).flatMap Node.uuids).append_right _

/-- New children come in behind. -/
theorem valid_append {more : List Node} {s s' : Supply} (hs : s.Issued t.uuids)
    (hmore : ∀ e ∈ more, a.kind.allows e.kind = true ∧ e.Allowed)
    (hissued : ∀ us, s.Issued us → s'.Issued (more.flatMap Node.uuids ++ us)) :
    (t.setChildren a.uuid (a.children ++ more)).Valid := by
  obtain ⟨outside, hold, hnew⟩ := exists_outside ht.nodup ha
  have hallowed := Node.allowed_iff.1 (ht.allowedRoot.of_mem ha)
  refine ht.setChildren ha (fun e he => (List.mem_append.1 he).elim (hallowed e) (hmore e)) ?_
  refine ((hnew _).trans ?_).nodup_iff.2 (hissued _ hs).nodup
  rw [List.flatMap_append, List.append_assoc]
  exact List.perm_append_comm_assoc .. |>.trans (.append_left _ hold.symm)

end

variable {c : Prop} {t : Tree} (h : t.Consistent)
include h

/-- New elements of an array, each for its first one. -/
theorem newElements_new {a first : Node} (ha : a ∈ t.all) (hk : a.kind = .array)
    (hfirst : first ∈ a.children.head?) {indices : List Nat} {more : List Node} {s s' : Supply}
    (hrun : indices.mapM (newElement t a first) s = (more, s')) : (∀ e ∈ more, IsElementFor first e) ∧
      (∀ e ∈ more, e.Allowed) ∧ ∀ us, s.Issued us → s'.Issued (more.flatMap Node.uuids ++ us) := by
  have hft := mem_all_of_child ha (List.mem_of_mem_head? hfirst)
  obtain ⟨helements, hallowed, hissued⟩ := mapM_new (P := fun _ e => IsElementFor first e)
    (fun i _ s n s' hn => by
      have hnew : IsElementFor first (newElement t a first i s).1 ∧
          IsNew s (newElement t a first i s).1 (newElement t a first i s).2 := by
        rcases (h.arrays a ha hk).first first hfirst with hfk | hfk
        · exact isElementFor_parameter hfk s
        · exact isElementFor_group hfk (h.valid.members_group hft hfk) s
      rwa [hn] at hnew) hrun
  exact ⟨fun e he => (exists_of_forall₂ helements.flip he).elim fun _ hx => hx.2, hallowed, hissued⟩

/-- Other elements of an array, counted. -/
theorem evolves_setElements {a : Node} (ha : a ∈ t.all) {cs : List Node}
    (hcs : ∀ e ∈ cs, ∀ b ∈ e.all, b.kind = .array → b ∈ t.all) (hv : (t.setChildren a.uuid cs).Valid)
    (hcons : (counted { a with children := cs }).IsConsistent)
    (hm : c → t.Mirrored → (counted { a with children := cs }).IsMirrored)
    (hno : ∀ q ∈ t.all, q.kind = .array → a ∉ q.children) :
    t.Evolves c (t.edit a.uuid fun _ => counted { a with children := cs }) := by
  rw [edit_counted h.valid ha]
  refine evolves_counted (a := { a with children := cs }) h hv h.kind
    (mem_setChildren_self h.valid.nodup ha cs) (fun b hb hbk hbu => ?_) hcons hm
  rcases resembles_of_edit (c := c) h.valid ha rfl (fun _ q hq hqk haq => absurd haq (hno q hq hqk)) hb hbk
    with hbn | ⟨q, hq, hqk, -, hr⟩
  · rcases Node.mem_all.1 hbn with rfl | ⟨e, he, hbe⟩
    · exact absurd rfl hbu
    · exact ⟨b, hcs e he b hbe hbk, hbk, rfl, rfl, fun _ => rfl⟩
  · exact ⟨q, hq, hqk, hr⟩

/-- An array of another length. -/
theorem evolves_resized {a b : Node} (ha : a ∈ t.all) (hk : a.kind = .array) {length : Nat}
    {s s' : Supply} (hs : s.Issued t.uuids) (hrun : Gives (Edit.resized t a length) s b s') :
    t.Evolves c (t.edit a.uuid fun _ => b) := by
  have hcons := h.arrays a ha hk
  have hold_mem : ∀ e ∈ a.children, ∀ b ∈ e.all, b.kind = .array → b ∈ t.all := fun e he b hb _ =>
    Node.mem_all_trans hb (mem_all_of_child ha he)
  have hno : ∀ q ∈ t.all, q.kind = .array → a ∉ q.children := fun q hq hqk haq =>
    h.valid.kind_element hq hqk haq (k := .array) (by decide) hk
  unfold Edit.resized at hrun
  split at hrun
  · obtain ⟨rfl, -⟩ := gives_pure.1 hrun
    refine evolves_setElements h ha (fun e he => hold_mem e (List.mem_of_mem_take he)) (valid_take h.valid ha length)
      ?_ (fun _ hm => ?_) hno
    · exact hcons.of_start (length_counted hk) ((List.take_prefix ..).map _)
    · exact (hm a ha hk).of_start ((List.take_prefix ..).map _)
  · split at hrun
    · exact absurd hrun gives_throw
    · rename_i first hfirst
      simp only [gives_bind, gives_liftM_state, gives_pure] at hrun
      obtain ⟨more, _, hmore, rfl, -⟩ := hrun
      obtain ⟨helements, hmoreAllowed, hissued⟩ := newElements_new h ha hk hfirst hmore
      refine evolves_setElements h ha (fun e he => ?_) ?_ ?_ (fun _ hm => ?_) hno
      · rcases List.mem_append.1 he with he | he
        · exact hold_mem e he
        · exact fun b hb hbk => absurd hbk ((helements e he).noArray b hb)
      · refine valid_append h.valid ha hs (fun e he => ⟨?_, hmoreAllowed e he⟩) hissued
        have hek := (helements e he).kind
        rcases hcons.first first hfirst with hf | hf <;> rw [hf] at hek <;>
          rw [hk, ← Option.some.inj hek] <;> rfl
      · exact hcons.append hfirst (fun e he => ⟨(helements e he).kind, (helements e he).original⟩)
          (length_counted hk) rfl
      · exact (hm a ha hk).append hfirst (fun hf e he => (helements e he).mirrors hf) rfl

end Tree

end DeviceModel
