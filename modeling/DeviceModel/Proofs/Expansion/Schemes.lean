import DeviceModel.Proofs.Lists
import DeviceModel.Proofs.Schema.Attributes
import DeviceModel.Proofs.Supply
import DeviceModel.Proofs.Tree.Traversal
import DeviceModel.Expansion.Table

/-!
What a parameter table generates, apart from identifiers. Main statements: the levels of a table are the
nodes of its scheme (`levels_eq`), and the nodes of a scheme that stand already are taken up as they are
(`realize_again`).
-/

namespace DeviceModel

namespace TableExpansion

/-- Groups and leaves side by side, each known by the node that it is generated from. -/
inductive Scheme
  | nil
  | leaf (source : Uuid) (name : String) (abbreviation : Option String) (index : Option Nat)
      (rest : Scheme)
  | group (source : Uuid) (name : String) (inner rest : Scheme)

namespace Scheme

def ofLeaves (index : Option Nat) : List Node → Scheme
  | [] => nil
  | m :: ms => leaf m.uuid m.name (m.text? .abbreviation) index (ofLeaves index ms)

def ofElements (index : Nat) : List Node → Scheme
  | [] => nil
  | e :: es =>
    if isGroup e then
      group e.uuid e.name (ofLeaves (some index) (members e)) (ofElements (index + 1) es)
    else leaf e.uuid e.name (e.text? .abbreviation) (some index) (ofElements (index + 1) es)

def ofSource (s : Node) : Scheme :=
  match s.kind with
  | .group => ofLeaves none (members s)
  | .array => ofElements 0 s.children
  | _ => nil

def ofRow : List Node → Scheme
  | [] => nil
  | s :: ss => group s.uuid s.name (ofSource s) (ofRow ss)

def ofAxis (inner : Scheme) : List Node → Scheme
  | [] => nil
  | e :: es => group e.uuid e.name inner (ofAxis inner es)

def ofLevels (sources : List Node) : List (List Node) → Scheme
  | [] => ofRow sources
  | enumerators :: axes => ofAxis (ofLevels sources axes) enumerators

/-- The nodes that what stands side by side is generated from. -/
def keys : Scheme → List Uuid
  | nil => []
  | leaf u _ _ _ rest => u :: rest.keys
  | group u _ _ rest => u :: rest.keys

/-- Nothing is generated twice at one place. -/
inductive Distinct : Scheme → Prop
  | nil : Distinct nil
  | leaf {u : Uuid} {name : String} {abbr : Option String} {i : Option Nat} {rest : Scheme} :
      u ∉ rest.keys → Distinct rest → Distinct (leaf u name abbr i rest)
  | group {u : Uuid} {name : String} {inner rest : Scheme} :
      u ∉ rest.keys → Distinct inner → Distinct rest → Distinct (group u name inner rest)

end Scheme

def groupData (source : Uuid) (name : String) (path : List Uuid) : Data :=
  .of .tableGroupElement [(.name, .string name), (.path, .ofPath path), (.original, .uuid source)]

def leafData (source : Uuid) (name : String) (abbr : Option String) (index : Option Nat)
    (path : List Uuid) (access : Option Uuid) : Data :=
  .of .tableArrayElement [(.name, .string name), (.abbreviation, .orNull .string abbr),
    (.path, .ofPath path), (.curveIndex, .orNull (fun i => .integer i) index),
    (.original, .uuid source), (.accessLevel, .ofRef access)]

/-- The nodes of a scheme at `path`. -/
def realize : Scheme → List Uuid → Builder (List Node)
  | .nil, _ => pure []
  | .leaf u name abbr i rest, path => do
    let (v, previous) ← identify (path ++ [u])
    let n := Node.leaf v (leafData u name abbr i (path ++ [u]) (previous >>= (·.ref? .accessLevel)))
    return n :: (← realize rest path)
  | .group u name inner rest, path => do
    let (v, _) ← identify (path ++ [u])
    let cs ← realize inner (path ++ [u])
    return ⟨v, groupData u name (path ++ [u]), cs⟩ :: (← realize rest path)

/-! ### Levels -/

open Scheme

theorem leaves_eq (path : List Uuid) (index : Option Nat) (ms : List Node) :
    leaves path index ms = realize (ofLeaves index ms) path := by
  induction ms with
  | nil => rfl
  | cons m ms ih => simp only [leaves, leaf, ofLeaves, realize, bind_assoc, pure_bind, ih]; rfl

theorem elements_eq (path : List Uuid) (index : Nat) (es : List Node) :
    elements path index es = realize (ofElements index es) path := by
  induction es generalizing index with
  | nil => rfl
  | cons e es ih =>
    rw [elements, ofElements]
    split
    · simp only [realize, leaves_eq, pure_bind, ih]; rfl
    · simp only [leaf, realize, bind_assoc, pure_bind, ih]; rfl

theorem row_eq (path : List Uuid) (ss : List Node) : row path ss = realize (ofRow ss) path := by
  induction ss with
  | nil => rfl
  | cons s ss ih =>
    simp only [row, ofRow, realize, ih]
    apply bind_congr
    intro x
    split
    · rename_i hk
      simp only [ofSource, hk, leaves_eq]; rfl
    · rename_i hk
      simp only [ofSource, hk, elements_eq]; rfl
    · rename_i hg ha
      rw [show ofSource s = .nil from ?_]
      · rfl
      · unfold ofSource
        split
        · exact absurd ‹_› hg
        · exact absurd ‹_› ha
        · rfl

theorem axis_eq {inner : List Uuid → Builder (List Node)} {s : Scheme}
    (h : ∀ path, inner path = realize s path) (path : List Uuid) (es : List Node) :
    axis inner path es = realize (ofAxis s es) path := by
  induction es with
  | nil => rfl
  | cons e es ih => simp only [axis, ofAxis, realize, h, ih]; rfl

/-- The levels of a table are the nodes of its scheme. -/
theorem levels_eq (sources : List Node) (axes : List (List Node)) (path : List Uuid) :
    levels sources axes path = realize (ofLevels sources axes) path := by
  induction axes generalizing path with
  | nil => exact row_eq path sources
  | cons es axes ih => exact axis_eq ih path es

/-! ### Steps -/

theorem identify_known {path : List Uuid} {st : State} {n : Node}
    (h : st.previous.find? (samePath path) = some n) (s : Supply) :
    identify path st s = (((n.uuid, some n.data),
      { st with previous := st.previous.filter (!samePath path ·), reused := st.reused + 1 }), s) := by
  simp only [identify, bind, StateT.bind, get, getThe, MonadStateOf.get, StateT.get, pure, StateT.pure, h]
  rfl

theorem identify_new {path : List Uuid} {st : State}
    (h : st.previous.find? (samePath path) = none) (s : Supply) :
    identify path st s = ((((draw s).1, none), { st with created := st.created + 1 }), (draw s).2) := by
  simp only [identify, bind, StateT.bind, get, getThe, MonadStateOf.get, StateT.get, pure, StateT.pure, h]
  rfl

/-- The nodes stand for a scheme at `path`. A leaf may have any access level. -/
inductive Stands : Scheme → List Uuid → List Node → Prop
  | nil {path : List Uuid} : Stands .nil path []
  | leaf {u v : Uuid} {name : String} {abbr : Option String} {i : Option Nat} {rest : Scheme}
      {path : List Uuid} {access : Option Uuid} {ns : List Node} : Stands rest path ns →
      Stands (.leaf u name abbr i rest) path
        (.leaf v (leafData u name abbr i (path ++ [u]) access) :: ns)
  | group {u v : Uuid} {name : String} {inner rest : Scheme} {path : List Uuid} {cs ns : List Node} :
      Stands inner (path ++ [u]) cs → Stands rest path ns →
      Stands (.group u name inner rest) path (⟨v, groupData u name (path ++ [u]), cs⟩ :: ns)

theorem stands_realize (sch : Scheme) (path : List Uuid) :
    Makes (fun _ => True) (realize sch path) (Stands sch path) := by
  induction sch generalizing path with
  | nil => exact makes_pure .nil
  | leaf u name abbr i rest ih =>
    apply makes_any.bind
    intro x _
    exact (ih path).bind fun ns h => makes_pure h.leaf
  | group u name inner rest ihi ih =>
    apply makes_any.bind
    intro x _
    exact (ihi _).bind fun cs hc => (ih path).bind fun ns h => makes_pure (hc.group h)

/-- The identifiers that can be taken up. -/
def State.pool (st : State) : List Uuid := st.previous.map Node.uuid

theorem carries_identify (path : List Uuid) :
    Carries State.pool [] (identify path) fun x => [x.1] := by
  intro st s rest hs
  cases h : st.previous.find? (samePath path) with
  | some n =>
    have hsub := map_subperm Node.uuid (find?_cons_filter_subperm h)
    rw [identify_known h]
    exact hs.subperm (hsub.append (.refl _))
  | none =>
    rw [identify_new h]
    exact hs.draw

theorem carries_realize (sch : Scheme) (path : List Uuid) :
    Carries State.pool [] (realize sch path) (List.flatMap Node.uuids) := by
  induction sch generalizing path with
  | nil => exact carries_pure (.refl _)
  | leaf u name abbr i rest ih =>
    apply (carries_identify _).bind
    intro x
    exact ((ih path).after [x.1]).bind fun ns => carries_pure (.refl _)
  | group u name inner rest ihi ih =>
    apply (carries_identify _).bind
    intro x
    apply ((ihi _).after [x.1]).bind
    intro cs
    apply ((ih path).after (x.1 :: cs.flatMap Node.uuids)).bind
    intro ns
    apply carries_pure
    rw [List.flatMap_cons, Node.uuids_eq]

/-! ### Paths -/

section

variable {sch : Scheme} {path : List Uuid} {ns : List Node}

theorem path_groupData (u : Uuid) (name : String) (path : List Uuid) :
    (groupData u name path).path = path := Data.path_of (by simp) (by simp) rfl

theorem path_leafData (u : Uuid) (name : String) (abbr : Option String) (i : Option Nat)
    (path : List Uuid) (access : Option Uuid) :
    (leafData u name abbr i path access).path = path := Data.path_of (by simp) (by simp) rfl

theorem access_leafData (u : Uuid) (name : String) (abbr : Option String) (i : Option Nat)
    (path : List Uuid) (access : Option Uuid) :
    (leafData u name abbr i path access).ref? .accessLevel = access := by
  have hc : (FieldType.mk .uuid true false).coerce? (.ofRef access) = some (.ofRef access) := by
    cases access <;> rfl
  rw [Data.ref?, leafData, Data.get?_of (v := .ofRef access) (by simp) (by simp) rfl hc]
  cases access <;> rfl

/-- The paths of the nodes of a scheme. -/
def paths (ns : List Node) : List (List Uuid) := (ns.flatMap Node.all).map (·.data.path)

@[simp] theorem paths_nil : paths [] = [] := rfl

theorem paths_cons (n : Node) (ns : List Node) :
    paths (n :: ns) = n.data.path :: (paths n.children ++ paths ns) := by
  simp [paths, Node.all_eq n]

/-- A path leads through one of the keys. -/
theorem exists_key (h : Stands sch path ns) {p : List Uuid} (hp : p ∈ paths ns) :
    ∃ k ∈ sch.keys, path ++ [k] <+: p := by
  induction h generalizing p with
  | nil => cases hp
  | leaf _ ih =>
    rw [paths_cons, List.mem_cons, Node.leaf, path_leafData] at hp
    rcases hp with rfl | hp
    · exact ⟨_, List.mem_cons_self .., List.prefix_rfl⟩
    · exact (ih hp).imp fun _ => And.imp_left (List.mem_cons_of_mem _)
  | group _ _ ihi ih =>
    rw [paths_cons, List.mem_cons, List.mem_append, path_groupData] at hp
    rcases hp with rfl | hp | hp
    · exact ⟨_, List.mem_cons_self .., List.prefix_rfl⟩
    · obtain ⟨k, -, hk⟩ := ihi hp
      exact ⟨_, List.mem_cons_self .., (List.prefix_append _ _).trans hk⟩
    · exact (ih hp).imp fun _ => And.imp_left (List.mem_cons_of_mem _)

/-- Paths through different keys are different. -/
theorem notMem_paths (h : Stands sch path ns) {u : Uuid} (hu : u ∉ sch.keys) {p : List Uuid}
    (hp : path ++ [u] <+: p) : p ∉ paths ns := by
  intro hm
  obtain ⟨k, hk, hkp⟩ := exists_key h hm
  have heq := (List.prefix_of_prefix_length_le hkp hp (by simp)).eq_of_length (by simp)
  obtain rfl := List.singleton_inj.1 (List.append_cancel_left heq)
  exact hu hk

theorem nodup_paths (h : Stands sch path ns) (hd : sch.Distinct) : (paths ns).Nodup := by
  induction h with
  | nil => exact List.nodup_nil
  | leaf h ih =>
    cases hd with
    | leaf hu hd =>
      rw [paths_cons, Node.leaf, path_leafData]
      exact List.nodup_cons.2 ⟨notMem_paths h hu List.prefix_rfl, ih hd⟩
  | group hi h ihi ih =>
    cases hd with
    | group hu hdi hd =>
      rw [paths_cons, path_groupData, List.nodup_cons, List.mem_append, List.nodup_append']
      refine ⟨fun hm => ?_, ihi hdi, ih hd, fun p hp hp' => ?_⟩
      · refine hm.elim (fun hm => ?_) (notMem_paths h hu List.prefix_rfl)
        obtain ⟨k, -, hk⟩ := exists_key hi hm
        simpa using hk.length_le
      · obtain ⟨k, -, hk⟩ := exists_key hi hp
        exact notMem_paths h hu ((List.prefix_append _ _).trans hk) hp'

/-! ### Once more -/

/-- Nodes of the paths `ps` have been taken up, and no others. -/
structure Takes (ps : List (List Uuid)) (st st' : State) : Prop where
  created : st'.created = st.created
  reused : st'.reused = st.reused + ps.length
  fewer : st'.previous.Sublist st.previous
  keeps : ∀ m ∈ st.previous, m.data.path ∉ ps → m ∈ st'.previous

theorem takes_nil (st : State) : Takes [] st st := ⟨rfl, rfl, .refl _, fun _ hm _ => hm⟩

theorem Takes.trans {ps qs : List (List Uuid)} {st₁ st₂ st₃ : State} (h : Takes ps st₁ st₂)
    (h' : Takes qs st₂ st₃) : Takes (ps ++ qs) st₁ st₃ where
  created := h'.created.trans h.created
  reused := by rw [h'.reused, h.reused, List.length_append, Nat.add_assoc]
  fewer := h'.fewer.trans h.fewer
  keeps m hm hp := by
    rw [List.mem_append, not_or] at hp
    exact h'.keeps m (h.keeps m hm hp.1) hp.2

theorem Takes.nodup {ps : List (List Uuid)} {st st' : State} (h : Takes ps st st')
    (hn : (st.previous.map (·.data.path)).Nodup) : (st'.previous.map (·.data.path)).Nodup :=
  (h.fewer.map _).nodup hn

theorem identify_again {st : State} (hn : (st.previous.map (·.data.path)).Nodup) {n : Node}
    (hm : n ∈ st.previous) (s : Supply) :
    ∃ st', identify n.data.path st s = (((n.uuid, some n.data), st'), s) ∧ Takes [n.data.path] st st' := by
  refine ⟨_, identify_known (find?_of_nodup hn hm) s, rfl, rfl, List.filter_sublist, ?_⟩
  intro m hm hp
  rw [List.mem_singleton] at hp
  exact List.mem_filter.2 ⟨hm, by simpa [samePath] using hp⟩

/-- The nodes of a scheme that stand already are taken up as they are. -/
theorem realize_again (h : Stands sch path ns) (hd : (paths ns).Nodup) {st : State}
    (hn : (st.previous.map (·.data.path)).Nodup) (hm : ∀ m ∈ ns.flatMap Node.all, m ∈ st.previous)
    (s : Supply) : ∃ st', realize sch path st s = ((ns, st'), s) ∧ Takes (paths ns) st st' := by
  induction h generalizing st with
  | nil => exact ⟨st, rfl, takes_nil st⟩
  | @leaf u v name abbr i rest path access ns h ih =>
    rw [List.flatMap_cons, Node.leaf, Node.all_eq] at hm
    rw [paths_cons, Node.leaf, path_leafData, paths_nil, List.nil_append] at hd ⊢
    obtain ⟨st₁, hid, ht⟩ := identify_again hn (hm _ (List.mem_cons_self ..)) s
    rw [path_leafData] at hid ht
    obtain ⟨st₂, hrest, ht'⟩ := ih hd.of_cons (ht.nodup hn) fun m hmr =>
      ht.keeps m (hm m (by simp [hmr])) fun hp =>
        (List.nodup_cons.1 hd).1 (List.mem_singleton.1 hp ▸ List.mem_map_of_mem hmr)
    refine ⟨st₂, ?_, ht.trans ht'⟩
    rw [realize, bind_of_eq hid]
    apply (bind_of_eq hrest).trans
    -- The leaf is built with the access level that is read of what it was.
    exact congrArg (fun a => ((Node.leaf v (leafData u name abbr i (path ++ [u]) a) :: ns, st₂), s))
      (access_leafData u name abbr i (path ++ [u]) access)
  | @group u v name inner rest path cs ns hi h ihi ih =>
    rw [List.flatMap_cons, Node.all_eq] at hm
    rw [paths_cons, path_groupData] at hd ⊢
    obtain ⟨hu, hd⟩ := List.nodup_cons.1 hd
    obtain ⟨hdi, hdr, hdis⟩ := List.nodup_append'.1 hd
    obtain ⟨st₁, hid, ht⟩ := identify_again hn (hm _ (List.mem_cons_self ..)) s
    rw [path_groupData] at hid ht
    have hm₁ : ∀ m, m ∈ cs.flatMap Node.all ∨ m ∈ ns.flatMap Node.all → m ∈ st₁.previous := by
      intro m hmr
      refine ht.keeps m (hm m ?_) fun hp => hu ?_
      · rw [List.cons_append, List.mem_cons, List.mem_append]
        exact .inr hmr
      · rw [← List.mem_singleton.1 hp, List.mem_append]
        exact hmr.imp List.mem_map_of_mem List.mem_map_of_mem
    obtain ⟨st₂, hinner, hti⟩ := ihi hdi (ht.nodup hn) fun m hmi => hm₁ m (.inl hmi)
    obtain ⟨st₃, hrest, htr⟩ := ih hdr (hti.nodup (ht.nodup hn)) fun m hmr =>
      hti.keeps m (hm₁ m (.inr hmr)) fun hp => hdis hp (List.mem_map_of_mem hmr)
    refine ⟨st₃, ?_, ht.trans (hti.trans htr)⟩
    rw [realize, bind_of_eq hid]
    apply (bind_of_eq hinner).trans
    exact bind_of_eq hrest

end

end TableExpansion

end DeviceModel
