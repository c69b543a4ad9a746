import DeviceModel.Proofs.Tree.Children
import DeviceModel.Proofs.Tree.Spreading
import DeviceModel.Rules.Parameters

/-!
Arrays and their elements. An array is consistent if its other elements stand for the first one, and
mirrored if the parameters in them stand for those in the first one. Main statements: either is read off
what the array shows (`IsConsistent.congr`, `IsMirrored.congr`), and a change elsewhere in the tree leaves
that as it is (`resembles_edit`, `resembles_extend`, `resembles_withoutAll`).
-/

namespace DeviceModel

namespace Node

/-- The stored length of an array is the number of its elements. The first is a parameter or a group; the
others are of the kind that goes with it and stand for it. -/
structure IsConsistent (array : Node) : Prop where
  length : array.int .length = array.children.length
  first : ∀ first ∈ array.children.head?, first.kind = .parameter ∨ first.kind = .group
  others : ∀ first ∈ array.children.head?, ∀ e ∈ array.children.tail,
    Rules.Parameters.elementKind? first.kind = some e.kind ∧ e.ref? .original = some first.uuid

/-- The parameters in `e` stand for those in `first`, in their order. -/
def Mirrors (e first : Node) : Prop :=
  (TableExpansion.members e).map (·.ref? .original) = (TableExpansion.members first).map (some ·.uuid)

/-- The elements behind a group stand for its parameters. -/
def IsMirrored (array : Node) : Prop :=
  ∀ first ∈ array.children.head?, first.kind = .group → ∀ e ∈ array.children.tail, e.Mirrors first

/-- What a node is to the elements of an array. -/
def card (n : Node) : Uuid × Kind × Option Uuid := (n.uuid, n.kind, n.ref? .original)

def memberCards (n : Node) : List (Uuid × Kind × Option Uuid) := (TableExpansion.members n).map card

/-- What an element is to its array, and the parameters in it. -/
def face (n : Node) : (Uuid × Kind × Option Uuid) × List (Uuid × Kind × Option Uuid) :=
  (n.card, n.memberCards)

/-- `b` has the length and the elements of `a`, and under `c` the same parameters in them. -/
structure Resembles (c : Prop) (a b : Node) : Prop where
  length : b.int .length = a.int .length
  elements : b.children.map card = a.children.map card
  members : c → b.children.map face = a.children.map face

variable {c : Prop} {a b d : Node}

theorem Resembles.trans (h : a.Resembles c b) (h' : b.Resembles c d) : a.Resembles c d :=
  ⟨h'.length.trans h.length, h'.elements.trans h.elements, fun hc => (h'.members hc).trans (h.members hc)⟩

/-- What a list shows in front and behind, a longer one shows too. -/
theorem head_tail_of_start {β : Type} {f : Node → β} {l m : List Node} (h : l.map f <+: m.map f) :
    (∀ x ∈ l.head?, ∃ y ∈ m.head?, f y = f x) ∧ ∀ x ∈ l.tail, ∃ y ∈ m.tail, f y = f x := by
  cases l with
  | nil => simp
  | cons x l =>
    cases m with
    | nil => simp at h
    | cons y m =>
      simp only [List.map_cons, List.cons_prefix_cons] at h
      refine ⟨by simpa using h.1.symm, fun z hz => ?_⟩
      simpa [eq_comm] using List.mem_map.1 (h.2.subset (List.mem_map_of_mem (f := f) hz))

/-- The first elements of a consistent array, counted. -/
theorem IsConsistent.of_start (h : a.IsConsistent) (hl : b.int .length = b.children.length)
    (hp : b.children.map card <+: a.children.map card) : b.IsConsistent where
  length := hl
  first := by
    intro first hfirst
    obtain ⟨x, hx, hcard⟩ := (head_tail_of_start hp).1 first hfirst
    simp only [card, Prod.mk.injEq] at hcard
    exact hcard.2.1 ▸ h.first x hx
  others := by
    intro first hfirst e he
    obtain ⟨x, hx, hcard⟩ := (head_tail_of_start hp).1 first hfirst
    obtain ⟨y, hy, hcard'⟩ := (head_tail_of_start hp).2 e he
    simp only [card, Prod.mk.injEq] at hcard hcard'
    rw [← hcard.1, ← hcard.2.1, ← hcard'.2.1, ← hcard'.2.2]
    exact h.others x hx y hy

theorem IsConsistent.congr (h : a.IsConsistent) (hr : a.Resembles c b) : b.IsConsistent := by
  refine h.of_start ?_ (hr.elements ▸ List.prefix_rfl)
  have hlength := congrArg List.length hr.elements
  rw [List.length_map, List.length_map] at hlength
  rw [hr.length, h.length, hlength]

/-- What the parameters in two nodes show is read off their cards. -/
theorem Mirrors.of_cards {e e' f f' : Node} (h : e'.Mirrors f') (he : e'.memberCards = e.memberCards)
    (hf : f'.memberCards = f.memberCards) : e.Mirrors f := by
  have originals := congrArg (List.map fun x : Uuid × Kind × Option Uuid => x.2.2) he
  have uuids := congrArg (List.map fun x : Uuid × Kind × Option Uuid => some x.1) hf
  simp only [memberCards, List.map_map, Function.comp_def, card] at originals uuids
  rw [Mirrors, ← originals, ← uuids, h]

theorem IsMirrored.of_start (h : a.IsMirrored) (hp : b.children.map face <+: a.children.map face) :
    b.IsMirrored := by
  intro first hfirst hk e he
  obtain ⟨x, hx, hface⟩ := (head_tail_of_start hp).1 first hfirst
  obtain ⟨y, hy, hface'⟩ := (head_tail_of_start hp).2 e he
  simp only [face, Prod.mk.injEq] at hface hface'
  have hxk : x.kind = .group := (congrArg (·.2.1) hface.1).trans hk
  exact (h x hx hxk y hy).of_cards hface'.2 hface.2

theorem IsMirrored.congr (h : a.IsMirrored) (hr : a.Resembles c b) (hc : c) : b.IsMirrored :=
  h.of_start (hr.members hc ▸ List.prefix_rfl)

/-- More elements that stand for the first one. -/
theorem IsConsistent.append (h : a.IsConsistent) {first : Node} (hf : first ∈ a.children.head?)
    {more : List Node} (hm : ∀ e ∈ more, Rules.Parameters.elementKind? first.kind = some e.kind ∧
      e.ref? .original = some first.uuid) (hl : b.int .length = b.children.length)
    (hb : b.children = a.children ++ more) : b.IsConsistent := by
  obtain ⟨rest, hc⟩ : ∃ rest, a.children = first :: rest := List.head?_eq_some_iff.1 hf
  have hothers := h.others first hf
  refine ⟨hl, ?_, ?_⟩ <;> simp only [hb, hc, List.cons_append, List.head?_cons, Option.mem_some_iff,
    forall_eq', List.tail_cons] at hothers ⊢
  · exact h.first first hf
  · exact fun e he => (List.mem_append.1 he).elim (hothers e) (hm e)

theorem IsMirrored.append (h : a.IsMirrored) {first : Node} (hf : first ∈ a.children.head?)
    {more : List Node} (hm : first.kind = .group → ∀ e ∈ more, e.Mirrors first)
    (hb : b.children = a.children ++ more) : b.IsMirrored := by
  obtain ⟨rest, hc⟩ : ∃ rest, a.children = first :: rest := List.head?_eq_some_iff.1 hf
  intro x hx hk e he
  rw [hb, hc, List.cons_append] at hx he
  obtain rfl := Option.some.inj hx
  rcases List.mem_append.1 he with he | he
  · exact h first hf hk e (by rwa [hc])
  · exact hm hk e he

/-- An array without elements. -/
theorem isConsistent_of_nil (h : a.children = []) (hl : a.int .length = 0) : a.IsConsistent :=
  ⟨by rw [hl, h]; rfl, by simp [h], by simp [h]⟩

theorem isMirrored_of_nil (h : a.children.tail = []) : a.IsMirrored := by
  intro first _ _ e he
  rw [h] at he
  cases he

/-! ### Members -/

theorem members_map {n : Node} {f : Node → Node} (hf : ∀ m ∈ n.children, (f m).kind = m.kind) (u : Uuid)
    (d : Data) : TableExpansion.members ⟨u, d, n.children.map f⟩ = (TableExpansion.members n).map f := by
  rw [TableExpansion.members, TableExpansion.members, List.filter_map]
  exact congrArg _ (List.filter_congr fun m hm => by simp [hf m hm])

/-- Whether a node is one of the parameters of an element of an array. -/
def isMember (n : Node) : Bool := n.kind == .parameter || n.kind == .arrayParameterElement

theorem members_append (u : Uuid) (d : Data) (l r : List Node) :
    TableExpansion.members ⟨u, d, l ++ r⟩ = TableExpansion.members ⟨u, d, l⟩ ++ r.filter isMember :=
  List.filter_append ..

theorem members_addChild {n m : Node} (hm : m.isMember = false) (row : Option Nat) :
    TableExpansion.members (n.addChild row m) = TableExpansion.members n := by
  have hsplit : n.children = n.children.take (row.getD n.children.length) ++
      n.children.drop (row.getD n.children.length) := (List.take_append_drop _ _).symm
  show (place _ _ _).filter isMember = n.children.filter isMember
  conv_rhs => rw [hsplit]
  rw [place, List.filter_append, List.filter_append, List.filter_cons_of_neg (by simp [hm])]

/-! ### Changes elsewhere -/

theorem card_edit {n : Node} {u : Uuid} {f : Node → Node} (hf : n.uuid = u → (f n).card = n.card) :
    (n.edit u f).card = n.card := by
  by_cases hu : n.uuid = u
  · rw [edit_self hu, hf hu]
  · rw [edit_of_ne hu]
    rfl

theorem face_edit {e : Node} {u : Uuid} {f : Node → Node}
    (hf : ∀ m ∈ e.all, m.uuid = u → (f m).card = m.card)
    (hm : e.uuid = u → (f e).memberCards = e.memberCards) : (e.edit u f).face = e.face := by
  refine Prod.ext (card_edit (hf e e.mem_all_self)) ?_
  by_cases hu : e.uuid = u
  · simpa [face, edit_self hu] using hm hu
  · have hcard : ∀ m ∈ e.children, (m.edit u f).card = m.card := fun m hm =>
      card_edit (hf m (mem_all_of_child hm))
    simp only [face, memberCards, edit_of_ne hu]
    rw [members_map fun m hm => congrArg (·.2.1) (hcard m hm), List.map_map]
    exact List.map_congr_left fun m hm => hcard m (List.mem_of_mem_filter hm)

theorem resembles_edit {u : Uuid} {f : Node → Node} (hf : ∀ m ∈ a.all, m.uuid = u → (f m).card = m.card)
    (ha : a.uuid ≠ u)
    (hm : c → ∀ e ∈ a.children, e.uuid = u → (f e).memberCards = e.memberCards) :
    a.Resembles c (a.edit u f) := by
  have hbelow : ∀ e ∈ a.children, ∀ m ∈ e.all, m.uuid = u → (f m).card = m.card := fun e he m hm =>
    hf m (mem_all_trans hm (mem_all_of_child he))
  rw [edit_of_ne ha]
  refine ⟨rfl, ?_, fun hc => ?_⟩
  · rw [List.map_map]
    exact List.map_congr_left fun e he => card_edit (hbelow e he e e.mem_all_self)
  · rw [List.map_map]
    exact List.map_congr_left fun e he => face_edit (hbelow e he) (hm hc e he)

theorem card_extend (g : Uuid → List Node) (n : Node) : (n.extend g).card = n.card := by
  simp [card, ref?]

/-- The parameters in an element and those added. -/
theorem members_extend (g : Uuid → List Node) (n : Node) :
    TableExpansion.members (n.extend g) =
      (TableExpansion.members n).map (extend g) ++ (g n.uuid).filter isMember := by
  rw [extend_eq, members_append, members_map fun m _ => kind_extend m]

theorem resembles_extend {g : Uuid → List Node} (ha : g a.uuid = [])
    (hm : c → ∀ e ∈ a.children, (g e.uuid).filter isMember = []) : a.Resembles c (a.extend g) := by
  refine ⟨by simp [int], ?_, fun hc => ?_⟩
  · rw [children_extend, ha, List.append_nil, List.map_map]
    exact List.map_congr_left fun e _ => card_extend g e
  · rw [children_extend, ha, List.append_nil, List.map_map]
    refine List.map_congr_left fun e he => Prod.ext (card_extend g e) ?_
    simp only [Function.comp_apply, face, memberCards]
    rw [members_extend, hm hc e he, List.append_nil, List.map_map]
    exact List.map_congr_left fun m _ => card_extend g m

/-- A parameter comes into the first group, and a stand-in for it into each of the others. -/
theorem IsMirrored.extend (h : a.IsMirrored) {first n : Node} (hf : first ∈ a.children.head?)
    (hk : first.kind = .group) (hn : n.kind = .parameter) {g : Uuid → List Node} (ha : g a.uuid = [])
    (hfirst : g first.uuid = [n])
    (he : ∀ e ∈ a.children.tail, ∃ m, g e.uuid = [m] ∧ m.kind = .arrayParameterElement ∧
      m.ref? .original = some n.uuid) : (a.extend g).IsMirrored := by
  intro x hx _ y hy
  rw [children_extend, ha, List.append_nil] at hx hy
  rw [List.head?_map, Option.mem_def, Option.map_eq_some_iff] at hx
  rw [← List.map_tail] at hy
  obtain ⟨first', hf', rfl⟩ := hx
  obtain rfl := Option.some.inj (hf'.symm.trans hf)
  obtain ⟨e, hmem, rfl⟩ := List.mem_map.1 hy
  obtain ⟨m, hm, hmk, hmo⟩ := he e hmem
  have hold := h first' hf hk e hmem
  simp only [Mirrors, members_extend, hm, hfirst, List.map_append, List.map_map, Function.comp_def, uuid_extend, ref?,
    data_extend] at hold hmo ⊢
  rw [hold]
  simp [isMember, hmk, hn, hmo]

theorem card_withoutAll (us : List Uuid) (n : Node) : (n.withoutAll us).card = n.card := by
  simp [card, ref?]

/-- The parameters that are left in an element. -/
theorem members_withoutAll (us : List Uuid) (n : Node) :
    TableExpansion.members (n.withoutAll us) =
      ((TableExpansion.members n).filter (·.uuid ∉ us)).map (withoutAll us) := by
  rw [TableExpansion.members, TableExpansion.members, children_withoutAll, List.filter_map, List.filter_filter,
    List.filter_filter]
  refine congrArg _ (List.filter_congr fun m _ => ?_)
  simp [Bool.and_comm]

theorem face_withoutAll {us : List Uuid} {e : Node} (hm : ∀ m ∈ TableExpansion.members e, m.uuid ∉ us) :
    (e.withoutAll us).face = e.face := by
  refine Prod.ext (card_withoutAll us e) ?_
  simp only [face, memberCards]
  rw [members_withoutAll, List.filter_eq_self.2 fun m hm' => decide_eq_true (hm m hm'), List.map_map]
  exact List.map_congr_left fun m _ => card_withoutAll us m

theorem resembles_withoutAll {us : List Uuid} (ha : ∀ e ∈ a.children, e.uuid ∉ us)
    (hm : c → ∀ e ∈ a.children, ∀ m ∈ TableExpansion.members e, m.uuid ∉ us) :
    a.Resembles c (a.withoutAll us) := by
  have hchildren := children_withoutAll_of_notMem ha
  refine ⟨by simp [int], ?_, fun hc => ?_⟩
  · rw [hchildren, List.map_map]
    exact List.map_congr_left fun e _ => card_withoutAll us e
  · rw [hchildren, List.map_map]
    exact List.map_congr_left fun e he => face_withoutAll (hm hc e he)

end Node

end DeviceModel
