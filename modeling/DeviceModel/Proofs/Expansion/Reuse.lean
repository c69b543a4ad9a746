import DeviceModel.Proofs.Expansion.TableTrees

/-!
What becomes of the nodes that were generated before. Main statement: every node that a table generates
is counted once, and takes up the node that was at its path, or else has a new identifier
(`generates_realize`); so when a table is expanded, a path that was there before keeps its identifier, and a leaf
its access level, and other paths have new identifiers (`expandTable_identities`).
-/

namespace DeviceModel

namespace TableExpansion

/-- The node takes up one of `previous` at its path, or there is none and its identifier is drawn from
`s` or later. -/
inductive Inherits (previous : List Node) (s : Supply) (n : Node) : Prop
  | kept {m : Node} (before : m ∈ previous) (path : m.data.path = n.data.path) (uuid : n.uuid = m.uuid)
    (access : n.kind = .tableArrayElement → n.ref? .accessLevel = m.ref? .accessLevel)
  | new (path : ∀ m ∈ previous, m.data.path ≠ n.data.path) (untaken : n.uuid ∉ s.taken)
    (later : s.next ≤ n.uuid.val)

/-- From `st` and `s` a step makes the nodes `ns`, and leaves `st'` and `s'`. -/
structure Generates (st : State) (s : Supply) (ns : List Node) (st' : State) (s' : Supply) : Prop where
  counted : st'.created + st'.reused = st.created + st.reused + ns.length
  fewer : st'.reused + st'.previous.length ≤ st.reused + st.previous.length
  previous : st'.previous = st.previous.filter fun m => m.data.path ∉ ns.map (·.data.path)
  taken : s'.taken = s.taken
  next : s.next ≤ s'.next
  inherits : ∀ n ∈ ns, Inherits st.previous s n

theorem generates_nil (st : State) (s : Supply) : Generates st s [] st s where
  counted := rfl
  fewer := Nat.le_refl _
  previous := by simp
  taken := rfl
  next := Nat.le_refl _
  inherits := by simp

/-- A node that comes later takes up what was there from the beginning, if its path is another one. -/
theorem Generates.earlier {st st' : State} {s s' : Supply} {ns : List Node} {n : Node}
    (h : Generates st s ns st' s') (hp : n.data.path ∉ ns.map (·.data.path))
    (hn : Inherits st'.previous s' n) : Inherits st.previous s n := by
  cases hn with
  | kept before path uuid access =>
    rw [h.previous] at before
    exact .kept (List.mem_of_mem_filter before) path uuid access
  | new path untaken later =>
    refine .new (fun m hm hmn => path m ?_ hmn) (h.taken ▸ untaken) (Nat.le_trans h.next later)
    rw [h.previous]
    exact List.mem_filter.2 ⟨hm, by simpa [hmn] using hp⟩

theorem Generates.append {st₁ st₂ st₃ : State} {s₁ s₂ s₃ : Supply} {ns ms : List Node}
    (h : Generates st₁ s₁ ns st₂ s₂) (h' : Generates st₂ s₂ ms st₃ s₃)
    (hd : (ns.map (·.data.path)).Disjoint (ms.map (·.data.path))) :
    Generates st₁ s₁ (ns ++ ms) st₃ s₃ where
  counted := by rw [h'.counted, h.counted, List.length_append]; omega
  fewer := Nat.le_trans h'.fewer h.fewer
  previous := by
    rw [h'.previous, h.previous, List.filter_filter]
    apply List.filter_congr
    intro m _
    simp [Bool.and_comm]
  taken := h'.taken.trans h.taken
  next := Nat.le_trans h.next h'.next
  inherits n hn := by
    rcases List.mem_append.1 hn with hn | hn
    · exact h.inherits n hn
    · exact h.earlier (fun hp => hd hp (List.mem_map_of_mem hn)) (h'.inherits n hn)

/-- The step that finds the identifier of one node. -/
theorem generates_identify {path : List Uuid} {st st' : State} {s s' : Supply} {v : Uuid}
    {found : Option Data} (h : identify path st s = (((v, found), st'), s')) {n : Node}
    (hp : n.data.path = path) (hu : n.uuid = v)
    (ha : n.kind = .tableArrayElement → n.ref? .accessLevel = found >>= (·.ref? .accessLevel)) :
    Generates st s [n] st' s' := by
  have hfilter : st.previous.filter (!samePath path ·) =
      st.previous.filter fun m => m.data.path ∉ [n].map (·.data.path) := by
    apply List.filter_congr
    intro m _
    simp [samePath, hp, Bool.beq_eq_decide_eq]
  cases hf : st.previous.find? (samePath path) with
  | some m =>
    have hm := List.mem_of_find?_eq_some hf
    have hmp : m.data.path = path := by simpa [samePath] using List.find?_some hf
    have hlen : (st.previous.filter (!samePath path ·)).length < st.previous.length :=
      List.length_filter_lt_length_iff_exists.2 ⟨m, hm, by simp [samePath, hmp]⟩
    rw [identify_known hf] at h
    cases h
    exact {
      counted := by simp; omega
      fewer := by simp only; omega
      previous := hfilter
      taken := rfl
      next := Nat.le_refl _
      inherits := by
        intro k hk
        rw [List.mem_singleton.1 hk]
        exact .kept hm (hmp.trans hp.symm) hu ha }
  | none =>
    have hnone : ∀ m ∈ st.previous, m.data.path ≠ path := by simpa [samePath] using List.find?_eq_none.1 hf
    rw [identify_new hf] at h
    cases h
    exact {
      counted := by simp; omega
      fewer := Nat.le_refl _
      previous := by
        rw [← hfilter]
        exact (List.filter_eq_self.2 fun m hm => by simpa [samePath] using hnone m hm).symm
      taken := taken_draw s
      next := Nat.le_of_lt (by have := draw_lt s; omega)
      inherits := by
        intro k hk
        rw [List.mem_singleton.1 hk]
        refine .new (fun m hm => hp ▸ hnone m hm) (hu ▸ draw_notMem s) ?_
        rw [hu]
        exact (draw_lt s).1 }

/-- The nodes of a scheme. -/
theorem generates_realize {sch : Scheme} {path : List Uuid} {st st' : State} {s s' : Supply}
    {ns : List Node} (h : realize sch path st s = ((ns, st'), s')) (hd : (paths ns).Nodup) :
    Generates st s (ns.flatMap Node.all) st' s' := by
  induction sch generalizing path st s ns st' s' with
  | nil => cases h; exact generates_nil st s
  | leaf u name abbr i rest ih =>
    rcases hid : identify (path ++ [u]) st s with ⟨⟨⟨v, found⟩, st₁⟩, s₁⟩
    rcases hrest : realize rest path st₁ s₁ with ⟨⟨ms, st₂⟩, s₂⟩
    rw [realize, bind_of_eq hid] at h
    replace h := (bind_of_eq hrest).symm.trans h
    cases h
    rw [paths_cons, Node.leaf, paths_nil, List.nil_append, List.nodup_cons] at hd
    rw [List.flatMap_cons, Node.leaf, Node.all_eq, List.flatMap_nil]
    have hhead : Generates st s [⟨v, leafData u name abbr i (path ++ [u])
        (found >>= (·.ref? .accessLevel)), []⟩] st₁ s₁ :=
      generates_identify hid (path_leafData ..) rfl fun _ => access_leafData ..
    exact hhead.append (ih hrest hd.2) (List.singleton_disjoint.2 hd.1)
  | group u name inner rest ihi ih =>
    rcases hid : identify (path ++ [u]) st s with ⟨⟨⟨v, found⟩, st₁⟩, s₁⟩
    rcases hinner : realize inner (path ++ [u]) st₁ s₁ with ⟨⟨cs, st₂⟩, s₂⟩
    rcases hrest : realize rest path st₂ s₂ with ⟨⟨ms, st₃⟩, s₃⟩
    rw [realize, bind_of_eq hid] at h
    replace h := (bind_of_eq hinner).symm.trans h
    replace h := (bind_of_eq hrest).symm.trans h
    cases h
    rw [paths_cons, List.nodup_cons, List.mem_append, not_or, List.nodup_append'] at hd
    obtain ⟨⟨hcs, hms⟩, hdi, hdr, hdis⟩ := hd
    have hall : (⟨v, groupData u name (path ++ [u]), cs⟩ :: ms : List Node).flatMap Node.all =
        [⟨v, groupData u name (path ++ [u]), cs⟩] ++ (cs.flatMap Node.all ++ ms.flatMap Node.all) := by
      simp [Node.all_eq ⟨v, _, cs⟩]
    rw [hall]
    have hhead : Generates st s [⟨v, groupData u name (path ++ [u]), cs⟩] st₁ s₁ := by
      refine generates_identify hid (path_groupData ..) rfl fun hk => ?_
      rw [Node.kind, kind_groupData] at hk
      cases hk
    have hbelow := (ihi hinner hdi).append (ih hrest hdr) hdis
    refine hhead.append hbelow (List.singleton_disjoint.2 fun hm => ?_)
    rw [List.map_append] at hm
    exact (List.mem_append.1 hm).elim hcs hms

end TableExpansion

namespace Tree

open TableExpansion

variable {t t' : Tree} {u : Uuid} {s s' : Supply} {e : Expansion}

/-- Expanding a table puts the nodes of its scheme in the place of those generated before. -/
theorem gives_expandTable_iff : Gives (t.expandTable u) s (t', e) s' ↔
    ∃ a, (t.find? u = some a ∧ a.kind = .table) ∧
      ∃ ns st, realize (scheme a) [] (start a) s = ((ns, st), s') ∧
        t' = (t.edit u fun _ => { a with children := kept a ++ ns }) ∧
        e = ⟨a.uuid, st.created, st.reused, ((generated a).flatMap Node.all).length - st.reused, []⟩ := by
  have hexpand : ∀ a b, expand a s = ((b, e), s') ↔
      ∃ ns st, realize (scheme a) [] (start a) s = ((ns, st), s') ∧
        b = { a with children := kept a ++ ns } ∧
        e = ⟨a.uuid, st.created, st.reused, ((generated a).flatMap Node.all).length - st.reused, []⟩ := by
    intro a b
    rcases hrun : realize (scheme a) [] (start a) s with ⟨⟨ns, st⟩, s₁⟩
    rw [expand_eq hrun, Node.below_eq]
    constructor
    · intro h
      cases h
      exact ⟨ns, st, rfl, rfl, rfl⟩
    · rintro ⟨_, _, h, rfl, rfl⟩
      cases h
      rfl
  simp only [gives_expandTable, hexpand]
  constructor
  · rintro ⟨a, ha, _, ⟨ns, st, hrun, rfl, he⟩, ht⟩
    exact ⟨a, ha, ns, st, hrun, ht, he⟩
  · rintro ⟨a, ha, ns, st, hrun, ht, he⟩
    exact ⟨a, ha, _, ⟨ns, st, hrun, rfl, he⟩, ht⟩

/-- What is generated when a table of the tree is expanded. -/
theorem expandTable_generates (ht : t.Valid) {a : Node} (ha : a ∈ t.all)
    (h : Gives (t.expandTable a.uuid) s (t', e) s') :
    ∃ ns st, Stands (scheme a) [] ns ∧ (paths ns).Nodup ∧
      Generates (start a) s (ns.flatMap Node.all) st s' ∧
      t' = t.setChildren a.uuid (kept a ++ ns) ∧
      e = ⟨a.uuid, st.created, st.reused, ((generated a).flatMap Node.all).length - st.reused, []⟩ := by
  obtain ⟨b, ⟨hb, -⟩, ns, st, hrun, rfl, he⟩ := gives_expandTable_iff.1 h
  obtain rfl := Option.some.inj (hb.symm.trans (find?_of_mem ht.nodup ha))
  have hstands := (stands_realize (scheme b) [] (start b) s trivial).1
  rw [hrun] at hstands
  have hd := nodup_paths hstands (distinct_scheme (Node.nodup_of_mem ha ht.nodup))
  exact ⟨ns, st, hstands, hd, generates_realize hrun hd, edit_eq_setChildren ht.nodup ha _, he⟩

end Tree

/-! ### Identifiers -/

namespace TableExpansion

/-- The nodes that a table has generated. -/
def products (table : Node) : List Node := (generated table).flatMap Node.all

/-- In `b` every path that was in `a` has the identifier that it had there, and a leaf its access level;
other paths have identifiers that were not `known`. -/
structure KeepsIdentities (a b : Node) (known : Uuid → Prop) : Prop where
  same : ∀ m ∈ products a, ∀ n ∈ products b, n.data.path = m.data.path → n.uuid = m.uuid
  access : ∀ m ∈ products a, ∀ n ∈ products b, n.data.path = m.data.path →
    n.kind = .tableArrayElement → n.ref? .accessLevel = m.ref? .accessLevel
  new : ∀ n ∈ products b, (∀ m ∈ products a, m.data.path ≠ n.data.path) → ¬known n.uuid

/-- What is generated for `b` from the nodes that `a` has generated, keeps their identifiers. -/
theorem keepsIdentities_of_generates {a b : Node} {st : State} {s s' : Supply}
    (h : Generates (start a) s (products b) st s') (hp : (paths (generated a)).Nodup) :
    KeepsIdentities a b fun v => v ∈ s.taken ∨ v.val < s.next := by
  have hprevious : ∀ m, m ∈ (start a).previous ↔ m ∈ products a :=
    fun m => (Node.postorder_each_perm (generated a)).mem_iff
  have hkept : ∀ m ∈ products a, ∀ n ∈ products b, n.data.path = m.data.path → n.uuid = m.uuid ∧
      (n.kind = .tableArrayElement → n.ref? .accessLevel = m.ref? .accessLevel) := by
    intro m hm n hn hnm
    cases h.inherits n hn with
    | @kept m' before path uuid access =>
      obtain rfl : m' = m :=
        List.inj_on_of_nodup_map hp ((hprevious m').1 before) hm (path.trans hnm)
      exact ⟨uuid, access⟩
    | new path => exact absurd hnm.symm (path m ((hprevious m).2 hm))
  refine ⟨fun m hm n hn h => (hkept m hm n hn h).1, fun m hm n hn h => (hkept m hm n hn h).2, ?_⟩
  intro n hn hne
  cases h.inherits n hn with
  | kept before path => exact absurd path (hne _ ((hprevious _).1 before))
  | new _ untaken later =>
    rintro (h | h)
    · exact untaken h
    · omega

end TableExpansion

namespace Tree

open TableExpansion

/-- A table whose generated nodes have distinct paths keeps their identifiers. -/
theorem expandTable_identities {t t' : Tree} {s s' : Supply} {e : Expansion} (ht : t.Valid)
    (hs : s.Issued t.uuids) {a : Node} (ha : a ∈ t.all) (hp : (paths (generated a)).Nodup)
    (h : Gives (t.expandTable a.uuid) s (t', e) s') :
    ∃ b, t'.find? a.uuid = some b ∧ KeepsIdentities a b (fun v => v ∈ s.taken ∨ v.val < s.next) ∧
      (paths (generated b)).Nodup ∧ t'.uuids.Nodup := by
  obtain ⟨ns, st, hstands, hd, hgen, ht', -⟩ := expandTable_generates ht ha h
  obtain ⟨-, -, -, -, -, -, -, hvalid⟩ := expandTable_ok ht hs h
  have hmem := mem_setChildren_self ht.nodup ha (kept a ++ ns)
  rw [← ht'] at hmem
  have hgenerated : generated { a with children := kept a ++ ns } = ns :=
    generated_expanded (kind_scheme hstands)
  have hproducts : products { a with children := kept a ++ ns } = ns.flatMap Node.all :=
    congrArg _ hgenerated
  exact ⟨{ a with children := kept a ++ ns }, find?_of_mem hvalid.nodup hmem,
    keepsIdentities_of_generates (hproducts ▸ hgen) hp, by rwa [hgenerated], hvalid.nodup⟩

end Tree

end DeviceModel
