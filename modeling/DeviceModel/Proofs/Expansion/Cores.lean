import DeviceModel.Proofs.Expansion.Families
import DeviceModel.Proofs.Rules.Generated
import DeviceModel.Proofs.Tree.Trail

/-!
What expansion and layout leave alone: a tree without the nodes that they make and without the values that
a layout gives. Main statements: a change of what they make keeps this core (`core_edit`, `core_mapData`),
where the cores of two trees are the same each node of one has its like in the other (`Stays.exists_like`),
a node that is not in the core is below one that expansion fills (`stays_or_made`), and nodes that stay agree in
what is neither laid out nor made, and so do their parents and their own children (`Kept`).
-/

namespace DeviceModel

/-! ### Attributes -/

/-- The attributes that a layout gives values, by the kind of the node. -/
def Kind.given (k : Kind) : List Attr :=
  .offset :: .blockOffset :: if k = .sunSpecModel then [.length] else if k.isBlockReference then [.size] else []

theorem Kind.isLaidOut_of_given {k : Kind} {a : Attr} (h : a ∈ k.given) : a.isLaidOut = true := by
  unfold given at h
  split at h
  · simp only [List.mem_cons, List.not_mem_nil, or_false] at h
    rcases h with rfl | rfl | rfl <;> rfl
  · split at h <;> simp only [List.mem_cons, List.not_mem_nil, or_false] at h
    · rcases h with rfl | rfl | rfl <;> rfl
    · rcases h with rfl | rfl <;> rfl

theorem Kind.not_given {k : Kind} {a : Attr} (h : a.isLaidOut = false) : a ∉ k.given := fun hg =>
  Bool.false_ne_true (h.symm.trans (isLaidOut_of_given hg))

namespace Data

/-- The attributes without the values that a layout gives. -/
def bare (d : Data) : Data := (d.kind.given.map fun a => (a, Value.integer 0)).foldl (fun d p => d.put p.1 p.2) d

@[simp] theorem kind_bare (d : Data) : d.bare.kind = d.kind := foldl_put_kind d _

theorem get?_bare {d : Data} {a : Attr} (h : a ∉ d.kind.given) : d.bare.get? a = d.get? a :=
  get?_foldl_put_of_notMem (by simpa [Function.comp_def] using h)

/-- What is given does not show. -/
theorem bare_congr {d e : Data} (hk : d.kind = e.kind) (h : ∀ a, a ∉ d.kind.given → d.get? a = e.get? a) :
    d.bare = e.bare := by
  have hgiven : ∀ as : List Attr, (∀ a ∈ as, a.isLaidOut = true) → ∀ d e : Data, d.kind = e.kind → ∀ a,
      (a ∉ as → d.get? a = e.get? a) →
        ((as.map fun a => (a, Value.integer 0)).foldl (fun d p => d.put p.1 p.2) d).get? a =
          ((as.map fun a => (a, Value.integer 0)).foldl (fun d p => d.put p.1 p.2) e).get? a := by
    intro as
    induction as with
    | nil => exact fun _ d e _ a h => h List.not_mem_nil
    | cons b as ih =>
      intro has d e hk a h
      refine ih (fun a ha => has a (List.mem_cons_of_mem _ ha)) _ _ (by simp [hk]) a fun ha => ?_
      by_cases hb : b = a
      · subst hb
        have hlaid := has _ (List.mem_cons_self ..)
        show (d.put b (.integer 0)).get? b = (e.put b (.integer 0)).get? b
        by_cases hf : (d.kind.field? b).isSome = true
        · rw [get?_put_integer hlaid hf, get?_put_integer hlaid (hk ▸ hf)]
        · rw [Option.not_isSome_iff_eq_none] at hf
          rw [put_of_field?_eq_none hf, put_of_field?_eq_none (hk ▸ hf), get?_eq_none.2 hf, get?_eq_none.2 (hk ▸ hf)]
      · rw [get?_put_of_ne hb, get?_put_of_ne hb]
        exact h fun hm => (List.mem_cons.1 hm).elim (fun h => hb h.symm) ha
  refine ext_get? (by simp [hk]) fun a => ?_
  rw [bare, bare, ← hk]
  exact hgiven _ (fun a ha => Kind.isLaidOut_of_given ha) d e hk a (h a)

theorem get?_of_bare {d e : Data} (h : d.bare = e.bare) {a : Attr} (ha : a ∉ d.kind.given) :
    d.get? a = e.get? a := by
  have hk : d.kind = e.kind := by rw [← kind_bare d, h, kind_bare]
  rw [← get?_bare ha, h, get?_bare (hk ▸ ha)]

theorem Similar.bare {d e : Data} (h : d.Similar e) : d.bare = e.bare :=
  bare_congr h.kind fun a ha => h.get? a (fun ho => ha (by simp [Kind.given, ho]))
    fun hb => ha (by simp [Kind.given, hb])

end Data

/-! ### Nodes -/

/-- Whether all children of nodes of the kind are made by expansion or by the layout. -/
def Kind.isFilled (k : Kind) : Bool := k.isTableView || k == .tableRepeatingBlockReference

namespace Node

theorem ref?_congr {m n : Node} {a : Attr} (h : m.data.get? a = n.data.get? a) : m.ref? a = n.ref? a := by
  rw [ref?, ref?, Data.ref?, Data.ref?, h]

theorem int?_congr {m n : Node} {a : Attr} (h : m.data.get? a = n.data.get? a) : m.data.int? a = n.data.int? a := by
  rw [Data.int?, Data.int?, h]

theorem int_congr {m n : Node} {a : Attr} (h : m.data.get? a = n.data.get? a) : m.int a = n.int a := by
  rw [int, int, Data.int, Data.int, int?_congr h]

/-- The children that are made by expansion or by the layout. -/
def made (n : Node) : List Node :=
  if n.kind.isFilled then n.children else n.children.filter (·.kind == .tableGroupElement)

/-- The children that are not. -/
def own (n : Node) : List Node :=
  if n.kind.isFilled then [] else n.children.filter (·.kind != .tableGroupElement)

/-- The node without what is made below it and without the values that are given. -/
def core : Node → Node
  | ⟨u, d, cs⟩ => ⟨u, d.bare, if d.kind.isFilled then [] else each cs⟩
where
  each : List Node → List Node
    | [] => []
    | c :: cs => if c.kind == .tableGroupElement then each cs else core c :: each cs

theorem each_core (cs : List Node) : core.each cs = (cs.filter (·.kind != .tableGroupElement)).map core := by
  induction cs with
  | nil => rfl
  | cons c cs ih => by_cases h : c.kind = .tableGroupElement <;> simp [core.each, h, ih]

theorem core_eq (n : Node) : n.core = ⟨n.uuid, n.data.bare, n.own.map core⟩ := by
  obtain ⟨u, d, cs⟩ := n
  rw [core, each_core, own, apply_ite (List.map core), List.map_nil]
  rfl

theorem mem_children_of_own {n c : Node} (h : c ∈ n.own) : c ∈ n.children := by
  unfold own at h
  split at h
  · cases h
  · exact List.mem_of_mem_filter h

theorem mem_children_of_made {n c : Node} (h : c ∈ n.made) : c ∈ n.children := by
  unfold made at h
  split at h
  · exact h
  · exact List.mem_of_mem_filter h

theorem own_or_made {n c : Node} (h : c ∈ n.children) : c ∈ n.own ∨ c ∈ n.made := by
  unfold own made
  split
  · exact .inr h
  · by_cases hk : c.kind = .tableGroupElement
    · exact .inr (List.mem_filter.2 ⟨h, by simp [hk]⟩)
    · exact .inl (List.mem_filter.2 ⟨h, by simp [hk]⟩)

/-- Where no child is made all of them are its own. -/
theorem own_eq_children {n : Node} (hk : n.kind.isFilled = false)
    (h : ∀ c ∈ n.children, c.kind ≠ .tableGroupElement) : n.own = n.children := by
  rw [own, hk, if_neg Bool.false_ne_true, List.filter_eq_self]
  exact fun c hc => by simpa using h c hc

section

variable {m n : Node} (h : m.core = n.core)
include h

theorem parts_of_core : m.uuid = n.uuid ∧ m.data.bare = n.data.bare ∧ m.own.map core = n.own.map core := by
  rw [core_eq, core_eq n] at h
  exact Node.mk.inj h

theorem uuid_of_core : m.uuid = n.uuid := (parts_of_core h).1

theorem bare_of_core : m.data.bare = n.data.bare := (parts_of_core h).2.1

theorem own_of_core : m.own.map core = n.own.map core := (parts_of_core h).2.2

theorem kind_of_core : m.kind = n.kind := by
  rw [kind, ← Data.kind_bare, bare_of_core h, Data.kind_bare]
  rfl

theorem get?_of_core {a : Attr} (ha : a ∉ m.kind.given) : m.data.get? a = n.data.get? a :=
  Data.get?_of_bare (bare_of_core h) ha

theorem exists_own_of_core {c : Node} (hc : c ∈ m.own) : ∃ d ∈ n.own, d.core = c.core := by
  have hmem := List.mem_map_of_mem (f := core) hc
  rw [own_of_core h] at hmem
  exact List.mem_map.1 hmem

end

/-- The node `m` is at or below `n`, and neither it nor a node between them is made. -/
inductive Stays : Node → Node → Prop
  | self (n : Node) : Stays n n
  | under {n c m : Node} (own : c ∈ n.own) (stays : Stays c m) : Stays n m

namespace Stays

variable {k m n p c : Node}

theorem mem (h : Stays n m) : m ∈ n.all := by
  induction h with
  | self n => exact n.mem_all_self
  | under own _ ih => exact mem_all_trans ih (mem_all_of_child (mem_children_of_own own))

theorem trans (h : Stays n m) (h' : Stays m k) : Stays n k := by
  induction h with
  | self => exact h'
  | under own _ ih => exact .under own (ih h')

theorem child (h : Stays n p) (hc : c ∈ p.own) : Stays n c := h.trans (.under hc (.self c))

/-- Other than the node itself each has a parent that stays. -/
theorem exists_parent (h : Stays n m) (hne : m ≠ n) : ∃ p, Stays n p ∧ m ∈ p.own := by
  induction h with
  | self => exact absurd rfl hne
  | @under n c m own stays ih =>
    by_cases hmc : m = c
    · exact ⟨n, .self n, hmc ▸ own⟩
    · obtain ⟨p, hp, hm⟩ := ih hmc
      exact ⟨p, .under own hp, hm⟩

/-- A node of the core has its like in a node of the same core. -/
theorem exists_like {n' m' : Node} (h : Stays n' m') (hn : n.core = n'.core) :
    ∃ m, Stays n m ∧ m.core = m'.core := by
  induction h generalizing n with
  | self => exact ⟨n, .self n, hn⟩
  | under own _ ih =>
    obtain ⟨d, hd, hdc⟩ := exists_own_of_core hn.symm own
    obtain ⟨m, hm, hmc⟩ := ih hdc
    exact ⟨m, .under hd hm, hmc⟩

end Stays

/-- What does not stay is at or below a node that is made. -/
theorem stays_or_made {n m : Node} (h : m ∈ n.all) :
    Stays n m ∨ ∃ p, Stays n p ∧ ∃ c ∈ p.made, m ∈ c.all := by
  induction n using inductOn with
  | h n ih =>
    rcases mem_all.1 h with rfl | ⟨c, hc, hm⟩
    · exact .inl (.self _)
    · rcases own_or_made hc with hown | hmade
      · refine (ih c hc hm).imp (.under hown) ?_
        rintro ⟨p, hp, hmade⟩
        exact ⟨p, .under hown hp, hmade⟩
      · exact .inr ⟨n, .self n, c, hmade, hm⟩

theorem not_own_of_made {n c : Node} (h : c ∈ n.made) : c ∉ n.own := by
  unfold made at h
  unfold own
  split
  · exact List.not_mem_nil
  · rename_i hk
    rw [if_neg hk] at h
    intro hown
    simp only [List.mem_filter, beq_iff_eq, bne_iff_ne] at h hown
    exact hown.2 h.2

/-- What stays is not below a node that is made. -/
theorem Stays.notMem_made {n m p c : Node} (hn : n.uuids.Nodup) (h : Stays n m) (hp : p ∈ n.all)
    (hc : c ∈ p.made) : m ∉ c.all := by
  have hcp := mem_children_of_made hc
  induction h with
  | self n =>
    intro hm
    have hle := length_all_le hm
    have hlt := (length_all_lt_of_child hcp).trans_le (length_all_le hp)
    omega
  | @under n b m own stays ih =>
    intro hm
    have hb := mem_children_of_own own
    rcases mem_all.1 hp with rfl | ⟨d, hd, hpd⟩
    · obtain rfl := child_unique hn hb hcp (uuid_mem_uuids stays.mem) (uuid_mem_uuids hm)
      exact not_own_of_made hc own
    · have hmd := mem_all_trans hm (mem_all_trans (mem_all_of_child hcp) hpd)
      obtain rfl := child_unique hn hb hd (uuid_mem_uuids stays.mem) (uuid_mem_uuids hmd)
      exact ih (nodup_of_mem (mem_all_of_child hb) hn) hpd hm

/-! ### Changes -/

/-- A change of a node that keeps its core keeps that of the nodes above. -/
theorem core_edit {n : Node} {u : Uuid} {f : Node → Node}
    (hf : ∀ m, Stays n m → m.uuid = u → (f m).core = m.core) (hk : ∀ m ∈ n.all, m.uuid = u → (f m).kind = m.kind) :
    (n.edit u f).core = n.core := by
  induction n using inductOn with
  | h n ih =>
    by_cases hu : n.uuid = u
    · rw [edit_self hu]
      exact hf n (.self n) hu
    · have hkc : ∀ c ∈ n.children, (c.edit u f).kind = c.kind := fun c hc =>
        kind_edit fun hcu => hk c (mem_all_of_child hc) hcu
      have hown : (n.edit u f).own = n.own.map (edit u f) := by
        have hkn : (n.edit u f).kind = n.kind := kind_edit fun h => absurd h hu
        rw [own, own, hkn, edit_of_ne hu]
        split
        · rfl
        · rw [List.filter_map]
          exact congrArg _ (List.filter_congr fun c hc => by rw [Function.comp_apply, hkc c hc])
      have hhead : (n.edit u f).uuid = n.uuid ∧ (n.edit u f).data = n.data := by
        rw [edit_of_ne hu]
        exact ⟨rfl, rfl⟩
      rw [core_eq, core_eq n, hown, hhead.1, hhead.2, List.map_map]
      refine congrArg (Node.mk _ _) (List.map_congr_left fun c hc => ?_)
      have hcm := mem_children_of_own hc
      exact ih c hcm (fun m hm => hf m (.under hc hm)) fun m hm => hk m (mem_all_trans hm (mem_all_of_child hcm))

/-- A change of attributes keeps the core where it changes none of its values. -/
theorem core_mapData {n : Node} {g : Uuid → Data → Data}
    (hg : ∀ m, Stays n m → (g m.uuid m.data).bare = m.data.bare)
    (hk : ∀ m ∈ n.all, (g m.uuid m.data).kind = m.kind) : (n.mapData g).core = n.core := by
  induction n using inductOn with
  | h n ih =>
    have hown : (n.mapData g).own = n.own.map (mapData g) := by
      rw [own, own, kind_mapData, hk n n.mem_all_self, children_mapData]
      split
      · rfl
      · rw [List.filter_map]
        refine congrArg _ (List.filter_congr fun c hc => ?_)
        rw [Function.comp_apply, kind_mapData, hk c (mem_all_of_child hc)]
    rw [core_eq, core_eq n, hown, uuid_mapData, data_mapData, hg n (.self n), List.map_map]
    refine congrArg (Node.mk _ _) (List.map_congr_left fun c hc => ?_)
    have hcm := mem_children_of_own hc
    exact ih c hcm (fun m hm => hg m (.under hc hm)) fun m hm => hk m (mem_all_trans hm (mem_all_of_child hcm))

/-- Children that are made do not show. -/
theorem core_setChildren {n : Node} {cs : List Node} (h : ({ n with children := cs } : Node).own = n.own) :
    ({ n with children := cs } : Node).core = n.core := by
  rw [core_eq, core_eq n, h]

theorem own_of_isFilled {n : Node} (h : n.kind.isFilled = true) : n.own = [] := by rw [own, h, if_pos rfl]

end Node

/-! ### Trees -/

/-- The kinds of nodes that are made. -/
def Kind.madeKinds : List Kind :=
  [.signal, .multiplexer, .dataPoint, .tableRepeatingBlock, .functionData, .modbusTableRepeatingBlock,
    .tableGroupElement, .tableArrayElement, .tableRepeatingBlockReferenceDataPointReference]

namespace Tree

def core (t : Tree) : Tree := { t with root := t.root.core }

/-- The node is in the core of the tree. -/
def Stays (t : Tree) (n : Node) : Prop := t.root.Stays n

variable {t t' : Tree} {n p c m : Node}

theorem Stays.mem (h : t.Stays n) : n ∈ t.all := Node.Stays.mem h

theorem Stays.exists_like (h : t'.Stays m) (hc : t'.core = t.core) : ∃ n, t.Stays n ∧ n.core = m.core :=
  Node.Stays.exists_like h (congrArg root hc.symm)

theorem kind_of_core (h : t'.core = t.core) : t'.kind = t.kind := show t'.core.kind = t.core.kind from congrArg kind h

theorem stays_or_made (h : n ∈ t.all) : t.Stays n ∨ ∃ p, t.Stays p ∧ ∃ c ∈ p.made, n ∈ c.all :=
  Node.stays_or_made h

/-- The kind of a node that is made. -/
theorem kind_of_made (ht : t.Valid) (hp : p ∈ t.all) (hc : c ∈ p.made) (hn : n ∈ c.all) :
    n.kind ∈ Kind.madeKinds := by
  have hcp := Node.mem_children_of_made hc
  have hclosed : ∀ k ∈ Kind.madeKinds, ∀ c ∈ k.childKinds, c ∈ Kind.madeKinds := by decide
  have hfilled : ∀ k : Kind, k.isFilled = true → ∀ c ∈ k.childKinds, c ∈ Kind.madeKinds := by
    intro k; cases k <;> decide
  refine (ht.allowedRoot.of_mem (mem_all_of_child hp hcp)).kind_of_mem (P := (· ∈ Kind.madeKinds))
    (fun k c hk hc => hclosed k hk c (by simpa [Kind.allows] using hc)) ?_ hn
  unfold Node.made at hc
  split at hc
  · rename_i hk
    exact hfilled _ hk _ (by simpa [Kind.allows] using ht.allowed p hp c hc)
  · rw [show c.kind = .tableGroupElement by simpa using (List.mem_filter.1 hc).2]
    decide

/-- Nodes of other kinds stay. -/
theorem stays_of_kind (ht : t.Valid) (hn : n ∈ t.all) (hk : n.kind ∉ Kind.madeKinds) : t.Stays n :=
  (stays_or_made hn).resolve_right fun ⟨_, hp, _, hc, hnc⟩ => hk (kind_of_made ht hp.mem hc hnc)

/-- The children of a node that is neither filled nor a table are its own. -/
theorem own_eq_children (ht : t.Valid) (hn : n ∈ t.all) (hf : n.kind.isFilled = false)
    (hk : n.kind ≠ .table ∧ n.kind ≠ .tableGroupElement) : n.own = n.children := by
  refine Node.own_eq_children hf fun c hc hck => ?_
  have hallows := ht.allowed n hn c hc
  have parent : ∀ k : Kind, k.allows .tableGroupElement = true → k = .table ∨ k = .tableGroupElement := by
    intro k; cases k <;> decide
  exact (parent _ (hck ▸ hallows)).elim hk.1 hk.2

/-- Other children of a node that is filled do not show in the core. -/
theorem core_setChildren (ht : t.uuids.Nodup) (hn : n ∈ t.all) {cs : List Node}
    (h : ({ n with children := cs } : Node).own = n.own) : (t.setChildren n.uuid cs).core = t.core := by
  refine congrArg (Tree.mk t.kind) (Node.core_edit (fun m hm hu => ?_) fun _ _ _ => rfl)
  obtain rfl := Node.eq_of_uuid ht hm.mem hn hu
  exact Node.core_setChildren h

theorem core_mapData {g : Uuid → Data → Data} (hg : ∀ m, t.Stays m → (g m.uuid m.data).bare = m.data.bare)
    (hk : ∀ m ∈ t.all, (g m.uuid m.data).kind = m.kind) : (t.mapData g).core = t.core :=
  congrArg (Tree.mk t.kind) (Node.core_mapData hg hk)

/-! ### Before and after -/

/-- The node stays, and this is what it was in `t` and is in `t'`. -/
structure Kept (t t' : Tree) (m n : Node) : Prop where
  before : t.Stays m
  after : t'.Stays n
  core : m.core = n.core

variable {t t' : Tree} {m n : Node}

theorem exists_kept (hc : t'.core = t.core) (h : t'.Stays n) : ∃ m, Kept t t' m n :=
  (h.exists_like hc).imp fun _ ⟨hm, hcore⟩ => ⟨hm, h, hcore⟩

namespace Kept

theorem root (hc : t'.core = t.core) : Kept t t' t.root t'.root :=
  ⟨.self _, .self _, (congrArg Tree.root hc).symm⟩

variable (h : Kept t t' m n)
include h

theorem symm : Kept t' t n m := ⟨h.after, h.before, h.core.symm⟩

theorem uuid : m.uuid = n.uuid := Node.uuid_of_core h.core

theorem kind : m.kind = n.kind := Node.kind_of_core h.core

theorem get? {a : Attr} (ha : a ∉ n.kind.given) : m.data.get? a = n.data.get? a :=
  Node.get?_of_core h.core (h.kind ▸ ha)

theorem ref? {a : Attr} (ha : a.isLaidOut = false) : m.ref? a = n.ref? a := Node.ref?_congr (h.get? (Kind.not_given ha))

theorem int? {a : Attr} (ha : a ∉ n.kind.given) : m.data.int? a = n.data.int? a := Node.int?_congr (h.get? ha)

theorem int {a : Attr} (ha : a ∉ n.kind.given) : m.int a = n.int a := Node.int_congr (h.get? ha)

theorem decimal? {a : Attr} (ha : a.isLaidOut = false) : m.data.decimal? a = n.data.decimal? a := by
  rw [Data.decimal?, Data.decimal?, h.get? (Kind.not_given ha)]

theorem name : m.name = n.name := by
  rw [Node.name, Node.name, Data.name, Data.name, Data.text, Data.text, Data.text?, Data.text?,
    h.get? (Kind.not_given rfl)]

theorem own {d : Node} (hd : d ∈ n.own) : ∃ c ∈ m.own, Kept t t' c d := by
  obtain ⟨c, hcm, hcd⟩ := Node.exists_own_of_core h.core.symm hd
  exact ⟨c, hcm, h.before.child hcm, h.after.child hd, hcd⟩

/-- The parent of a node that stays has stayed, with that child of its own. -/
theorem exists_parent (hc : t'.core = t.core) (hne : n ≠ t'.root) : ∃ q p, Kept t t' q p ∧ p.kind.isFilled = false ∧
    n ∈ p.children ∧ ∃ c ∈ q.children, Kept t t' c n := by
  obtain ⟨p, hp, hnp⟩ := Node.Stays.exists_parent h.after hne
  obtain ⟨q, hqp⟩ := exists_kept hc hp
  obtain ⟨c, hcq, hcn⟩ := hqp.own hnp
  have hfilled : p.kind.isFilled = false := by
    by_contra hf
    rw [Node.own_of_isFilled (by simpa using hf)] at hnp
    cases hnp
  exact ⟨q, p, hqp, hfilled, Node.mem_children_of_own hnp, c, Node.mem_children_of_own hcq, hcn⟩

variable (ht' : t'.Valid) (hf : n.kind.isFilled = false) (hk : n.kind ≠ .table ∧ n.kind ≠ .tableGroupElement)
include ht' hf hk

theorem child {d : Node} (hd : d ∈ n.children) : ∃ c ∈ m.children, Kept t t' c d := by
  obtain ⟨c, hcm, hcd⟩ := h.own (by rwa [own_eq_children ht' h.after.mem hf hk])
  exact ⟨c, Node.mem_children_of_own hcm, hcd⟩

theorem map_core (ht : t.Valid) : m.children.map Node.core = n.children.map Node.core := by
  rw [← own_eq_children ht h.before.mem (h.kind ▸ hf) (h.kind ▸ hk), ← own_eq_children ht' h.after.mem hf hk]
  exact Node.own_of_core h.core

/-- What is read off the cores of the children has stayed. -/
theorem map_children (ht : t.Valid) {α : Type} {g : Node → α} (hg : ∀ x : Node, g x.core = g x) :
    m.children.map g = n.children.map g := by
  have hmap : ∀ cs : List Node, (cs.map Node.core).map g = cs.map g := fun cs => by
    rw [List.map_map]
    exact List.map_congr_left fun x _ => hg x
  rw [← hmap, h.map_core ht' hf hk ht, hmap]

end Kept

end Tree

end DeviceModel
