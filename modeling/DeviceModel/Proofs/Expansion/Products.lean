import DeviceModel.Proofs.Expansion.Reuse

/-!
What an expanded table holds. Main statement: a group for each combination of enumerators, in it the
members of the arrays and groups of the table, and nothing else in the project changes
(`expandTable_product`).
-/

namespace DeviceModel

namespace TableExpansion

/-! ### Combinations -/

/-- `n` is the group that stands for `source` at `path`. -/
structure GroupOf (source : Node) (path : List Uuid) (n : Node) : Prop where
  kind : n.kind = .tableGroupElement
  name : n.name = source.name
  path : n.data.path = path
  original : n.ref? .original = some source.uuid

/-- `n` is the leaf that stands for `member` at `path`, and `index` its place in an array. -/
structure LeafOf (member : Node) (path : List Uuid) (index : Option Nat) (n : Node) : Prop where
  kind : n.kind = .tableArrayElement
  name : n.name = member.name
  abbreviation : n.text? .abbreviation = member.text? .abbreviation
  path : n.data.path = path
  index : n.data.get? .curveIndex = some (.orNull (fun i => .integer i) index)
  original : n.ref? .original = some member.uuid
  leaf : n.children = []

/-- One leaf below `path` for each parameter among the children of `n`. -/
def LeavesOf (n : Node) (path : List Uuid) (index : Option Nat) (cs : List Node) : Prop :=
  List.Forall₂ (fun m c => LeafOf m (path ++ [m.uuid]) index c) (members n) cs

/-- `c` stands for the element `e` at `index` of an array: a leaf, or a group of leaves. -/
def ElementOf (e : Node) (index : Nat) (path : List Uuid) (c : Node) : Prop :=
  if isGroup e then GroupOf e path c ∧ LeavesOf e path (some index) c.children
  else LeafOf e path (some index) c

/-- `cs` stands for what is in the array or group `s`. -/
def ContentsOf (s : Node) (path : List Uuid) (cs : List Node) : Prop :=
  if s.kind = .group then LeavesOf s path none cs
  else List.Forall₂ (fun e c => ElementOf e.1 e.2 (path ++ [e.1.uuid]) c) s.children.zipIdx cs

/-- `ns` are the groups below `path`: for each axis one level with a group for each enumerator, and
below the last one a group for each array and group of `sources`. -/
def ProductOf (sources : List Node) : List (List Node) → List Uuid → List Node → Prop
  | [], path, ns => List.Forall₂ (fun s n => GroupOf s (path ++ [s.uuid]) n ∧
      ContentsOf s (path ++ [s.uuid]) n.children) sources ns
  | enumerators :: axes, path, ns => List.Forall₂ (fun e n => GroupOf e (path ++ [e.uuid]) n ∧
      ProductOf sources axes (path ++ [e.uuid]) n.children) enumerators ns

/-- The number of leaves of an element of an array. -/
def elementWidth (e : Node) : Nat := if isGroup e then (members e).length else 1

/-- The number of leaves that an array or group gives a combination. -/
def width (s : Node) : Nat :=
  if s.kind = .group then (members s).length else (s.children.map elementWidth).sum

/-- The number of leaves among `ns` and below. -/
def leafCount (ns : List Node) : Nat := (ns.flatMap Node.all).countP (·.kind == .tableArrayElement)

/-! ### The nodes of a scheme -/

section

variable {path : List Uuid} {ns : List Node}

theorem groupOf_groupData (source : Node) (v : Uuid) (path : List Uuid) (cs : List Node) :
    GroupOf source path ⟨v, groupData source.uuid source.name path, cs⟩ := by
  have hname : (groupData source.uuid source.name path).get? .name = some (.string source.name) :=
    Data.get?_of (v := .string source.name) (by simp) (by simp) rfl rfl
  have horiginal : (groupData source.uuid source.name path).get? .original = some (.uuid source.uuid) :=
    Data.get?_of (v := .uuid source.uuid) (by simp) (by simp) rfl rfl
  exact {
    kind := kind_groupData ..
    name := Data.text_of_get? hname
    path := path_groupData ..
    original := Data.ref?_of_get? horiginal }

theorem leafOf_leafData (m : Node) (v : Uuid) (path : List Uuid) (index : Option Nat)
    (access : Option Uuid) :
    LeafOf m path index (.leaf v (leafData m.uuid m.name (m.text? .abbreviation) index path access)) := by
  have hstring : ∀ s : Option String,
      (FieldType.mk .string true false).coerce? (.orNull .string s) = some (.orNull .string s) := by
    rintro (_ | s) <;> rfl
  have hindex : ∀ i : Option Nat, (FieldType.mk .integer true false).coerce?
      (.orNull (fun i => .integer i) i) = some (.orNull (fun i => .integer i) i) := by
    rintro (_ | i) <;> rfl
  generalize habbr : m.text? .abbreviation = abbr
  have hname : (leafData m.uuid m.name abbr index path access).get? .name = some (.string m.name) :=
    Data.get?_of (v := .string m.name) (by simp) (by simp) rfl rfl
  have habbreviation : (leafData m.uuid m.name abbr index path access).get? .abbreviation =
      some (.orNull .string abbr) :=
    Data.get?_of (v := .orNull .string abbr) (by simp) (by simp) rfl (hstring abbr)
  have hcurve : (leafData m.uuid m.name abbr index path access).get? .curveIndex =
      some (.orNull (fun i => .integer i) index) :=
    Data.get?_of (v := .orNull (fun i => .integer i) index) (by simp) (by simp) rfl (hindex index)
  have horiginal : (leafData m.uuid m.name abbr index path access).get? .original =
      some (.uuid m.uuid) :=
    Data.get?_of (v := .uuid m.uuid) (by simp) (by simp) rfl rfl
  exact {
    kind := kind_leafData ..
    name := Data.text_of_get? hname
    abbreviation := by
      rw [habbr, Node.leaf, Node.text?, Data.text?, habbreviation]
      cases abbr <;> rfl
    path := path_leafData ..
    index := hcurve
    original := Data.ref?_of_get? horiginal
    leaf := rfl }

theorem leavesOf_stands {n : Node} {index : Option Nat}
    (h : Stands (Scheme.ofLeaves index (members n)) path ns) : LeavesOf n path index ns := by
  unfold LeavesOf
  generalize members n = ms at h
  induction ms generalizing ns with
  | nil => cases h; exact .nil
  | cons m ms ih =>
    cases h with
    | leaf h => exact .cons (leafOf_leafData ..) (ih h)

theorem elementOf_stands {es : List Node} {i : Nat} (h : Stands (Scheme.ofElements i es) path ns) :
    List.Forall₂ (fun e c => ElementOf e.1 e.2 (path ++ [e.1.uuid]) c) (es.zipIdx i) ns := by
  induction es generalizing i ns with
  | nil => cases h; exact .nil
  | cons e es ih =>
    rw [Scheme.ofElements] at h
    rw [List.zipIdx_cons]
    split at h
    · rename_i hg
      cases h with
      | group hi h =>
        refine .cons ?_ (ih h)
        rw [ElementOf, if_pos hg]
        exact ⟨groupOf_groupData .., leavesOf_stands hi⟩
    · rename_i hg
      cases h with
      | leaf h =>
        refine .cons ?_ (ih h)
        rw [ElementOf, if_neg hg]
        exact leafOf_leafData ..

theorem contentsOf_stands {s : Node} (hs : s.kind = .array ∨ s.kind = .group)
    (h : Stands (Scheme.ofSource s) path ns) : ContentsOf s path ns := by
  rw [Scheme.ofSource] at h
  rw [ContentsOf]
  rcases hs with hs | hs
  · rw [if_neg (by simp [hs])]
    simp only [hs] at h
    exact elementOf_stands h
  · rw [if_pos hs]
    simp only [hs] at h
    exact leavesOf_stands h

theorem product_row {ss : List Node} (hs : ∀ s ∈ ss, s.kind = .array ∨ s.kind = .group)
    (h : Stands (Scheme.ofRow ss) path ns) : ProductOf ss [] path ns := by
  rw [ProductOf]
  induction ss generalizing ns with
  | nil => cases h; exact .nil
  | cons s ss ih =>
    cases h with
    | group hi h =>
      exact .cons ⟨groupOf_groupData .., contentsOf_stands (hs s (by simp)) hi⟩
        (ih (fun t ht => hs t (by simp [ht])) h)

/-- What stands for the scheme of a table are its combinations. -/
theorem product_stands {ss : List Node} (hs : ∀ s ∈ ss, s.kind = .array ∨ s.kind = .group)
    {axes : List (List Node)} (h : Stands (Scheme.ofLevels ss axes) path ns) :
    ProductOf ss axes path ns := by
  induction axes generalizing path ns with
  | nil => exact product_row hs h
  | cons es axes ih =>
    rw [Scheme.ofLevels] at h
    rw [ProductOf]
    clear hs
    induction es generalizing ns with
    | nil => cases h; exact .nil
    | cons e es ihe =>
      cases h with
      | group hi h => exact .cons ⟨groupOf_groupData .., ih hi⟩ (ihe h)

end

/-! ### The number of leaves -/

theorem leafCount_cons (n : Node) (ns : List Node) : leafCount (n :: ns) =
    leafCount [n] + leafCount ns := by
  simp [leafCount]

theorem leafCount_singleton (n : Node) : leafCount [n] =
    leafCount n.children + if n.kind = .tableArrayElement then 1 else 0 := by
  simp [leafCount, Node.all_eq n, List.countP_cons]

theorem GroupOf.leafCount {source n : Node} {path : List Uuid} (h : GroupOf source path n) :
    leafCount [n] = TableExpansion.leafCount n.children := by
  simp [leafCount_singleton, h.kind]

theorem LeafOf.leafCount {m n : Node} {path : List Uuid} {index : Option Nat}
    (h : LeafOf m path index n) : leafCount [n] = 1 := by
  rw [leafCount_singleton, h.leaf, if_pos h.kind]
  rfl

theorem leafCount_forall₂ {α : Type} {R : α → Node → Prop} {f : α → Nat} {as : List α} {ns : List Node}
    (h : List.Forall₂ R as ns) (hf : ∀ a ∈ as, ∀ n, R a n → leafCount [n] = f a) :
    leafCount ns = (as.map f).sum := by
  induction h with
  | nil => rfl
  | cons hr _ ih =>
    rw [leafCount_cons, hf _ (by simp) _ hr, ih fun a ha => hf a (by simp [ha]), List.map_cons,
      List.sum_cons]

theorem leafCount_leavesOf {n : Node} {path : List Uuid} {index : Option Nat} {cs : List Node}
    (h : LeavesOf n path index cs) : leafCount cs = (members n).length := by
  rw [leafCount_forall₂ h (f := fun _ => 1) fun _ _ _ hc => hc.leafCount]
  simp

theorem leafCount_elementOf {e c : Node} {i : Nat} {path : List Uuid} (h : ElementOf e i path c) :
    leafCount [c] = elementWidth e := by
  rw [ElementOf] at h
  rw [elementWidth]
  split at h
  · rename_i hg
    rw [if_pos hg, h.1.leafCount, leafCount_leavesOf h.2]
  · rename_i hg
    rw [if_neg hg, h.leafCount]

theorem leafCount_contentsOf {s : Node} {path : List Uuid} {cs : List Node}
    (h : ContentsOf s path cs) : leafCount cs = width s := by
  rw [ContentsOf] at h
  rw [width]
  split at h
  · rename_i hs
    rw [if_pos hs, leafCount_leavesOf h]
  · rename_i hs
    have hsum := leafCount_forall₂ h (f := elementWidth ∘ Prod.fst) fun _ _ _ hc => leafCount_elementOf hc
    rw [if_neg hs, hsum, ← List.map_map, List.zipIdx_map_fst]

/-- Every combination of enumerators has as many leaves as the arrays and groups give it. -/
theorem leafCount_product {ss : List Node} {axes : List (List Node)} {path : List Uuid}
    {ns : List Node} (h : ProductOf ss axes path ns) :
    leafCount ns = (axes.map List.length).prod * (ss.map width).sum := by
  induction axes generalizing path ns with
  | nil =>
    rw [ProductOf] at h
    rw [leafCount_forall₂ h (f := width) fun s _ n hn => by rw [hn.1.leafCount, leafCount_contentsOf hn.2]]
    simp
  | cons es axes ih =>
    rw [ProductOf] at h
    rw [leafCount_forall₂ h (f := fun _ => (axes.map List.length).prod * (ss.map width).sum)
      fun e _ n hn => by rw [hn.1.leafCount, ih hn.2]]
    simp [Nat.mul_assoc]

/-! ### Trees -/

/-- `t'` is the tree `t` with the table `a` expanded to `forest`, of which `e` reports. -/
structure Expands (t : Tree) (a : Node) (forest : List Node) (e : Expansion) (t' : Tree) : Prop where
  placed : t' = t.edit a.uuid fun n => { n with children := kept n ++ forest }
  generated : ∃ b, t'.find? a.uuid = some b ∧ generated b = forest ∧ kept b = kept a
  product : ProductOf (sources a) (axes a) [] forest
  leaves : leafCount forest = ((axes a).map List.length).prod * ((sources a).map width).sum
  paths : (paths forest).Nodup
  made : e.created + e.reused = (forest.flatMap Node.all).length
  found : e.reused + e.removed = ((TableExpansion.generated a).flatMap Node.all).length

end TableExpansion

namespace Tree

open TableExpansion

/-- Expanding a table gives its combinations and changes nothing else. -/
theorem expands_expandTable {t t' : Tree} {s s' : Supply} {e : Expansion} (ht : t.Valid)
    (hs : s.Issued t.uuids) {a : Node} (ha : a ∈ t.all) (h : Gives (t.expandTable a.uuid) s (t', e) s') :
    ∃ forest, Expands t a forest e t' := by
  obtain ⟨ns, st, hstands, hd, hgen, ht', rfl⟩ := expandTable_generates ht ha h
  obtain ⟨-, -, -, -, -, -, -, hvalid⟩ := expandTable_ok ht hs h
  have hkind := kind_scheme hstands
  have hproduct : ProductOf (sources a) (axes a) [] ns :=
    product_stands (fun c hc => by simpa [sources] using (List.mem_filter.1 hc).2) hstands
  have hprevious : (start a).previous.length = ((generated a).flatMap Node.all).length :=
    (Node.postorder_each_perm (generated a)).length_eq
  have hcounted := hgen.counted
  have hfewer := hgen.fewer
  simp only [start] at hcounted hfewer hprevious
  refine ⟨ns, ?_, ?_, hproduct, leafCount_product hproduct, hd, by simpa using hcounted, ?_⟩
  · rw [ht', setChildren]
    apply congrArg (Tree.mk t.kind)
    apply Node.edit_congr
    intro m hm hu
    obtain rfl := Node.eq_of_uuid ht.nodup hm ha hu
    rfl
  · refine ⟨{ a with children := kept a ++ ns }, ?_, generated_expanded hkind, kept_expanded hkind⟩
    have hmem := mem_setChildren_self ht.nodup ha (kept a ++ ns)
    rw [← ht'] at hmem
    exact find?_of_mem hvalid.nodup hmem
  · simp only
    omega

/-- A table can always be expanded. -/
theorem exists_expandTable {t : Tree} (ht : t.Valid) {a : Node} (ha : a ∈ t.all) (hk : a.kind = .table)
    (s : Supply) : ∃ t' e s', Gives (t.expandTable a.uuid) s (t', e) s' := by
  rcases hrun : realize (scheme a) [] (start a) s with ⟨⟨ns, st⟩, s'⟩
  exact ⟨_, _, s', gives_expandTable_iff.2
    ⟨a, ⟨find?_of_mem ht.nodup ha, hk⟩, ns, st, hrun, rfl, rfl⟩⟩

end Tree

end DeviceModel
