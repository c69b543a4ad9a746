import DeviceModel.Proofs.Code.Generated
import DeviceModel.Proofs.Tree.Traversal

/-!
Register tables and the files around them. Main statements: the points of a table are nodes of its tree
(`Lookup.point_mem_of_sunSpecRegisters`, `Lookup.point_mem_of_modbusRegisters`), the functions by hand that
the table of a model names are declared (`Code.exists_mem_manualOf`), and what addresses a table takes
and what accessors it names (`Code.exists_of_mem_addresses_tableSource`,
`Code.exists_of_namesAccessor_tableSource`).
-/

namespace DeviceModel

open Code

/-! ### The points of tables -/

namespace Lookup

variable {l : Lookup} {t : Tree}

theorem point_of_ofPoint {n : Node} {offset inBlock : Int} {header : Bool} {reference : Option Node}
    {r : Register} (h : Register.ofPoint l n offset inBlock header reference = .ok r) : r.point = n := by
  obtain ⟨size, -, h⟩ := bind_eq_ok_iff.1 h
  obtain ⟨type, -, rfl⟩ := return_eq_ok_iff.1 h
  rfl

theorem point_mem_of_blockRegisters {ps : List Placement} {header : Bool} {n : Node} (hn : n ∈ t.all)
    {rs : List Register} (h : l.blockRegisters t ps header n = .ok rs) {r : Register} (hr : r ∈ rs) :
    r.point ∈ t.all := by
  unfold blockRegisters at h
  split at h
  · obtain ⟨q, hq, rfl⟩ := return_eq_ok_iff.1 h
    rwa [List.mem_singleton.1 hr, point_of_ofPoint hq]
  · obtain ⟨q, hq, rfl⟩ := return_eq_ok_iff.1 h
    rwa [List.mem_singleton.1 hr, point_of_ofPoint hq]
  · obtain ⟨c, -, hc⟩ := (mem_mapM_iff h).1 hr
    unfold referencedRegister at hc
    split at hc
    · cases hc
    · obtain ⟨p, hp, hc⟩ := bind_eq_ok_iff.1 hc
      rw [point_of_ofPoint hc]
      exact (Tree.mem_of_find? (Tree.node_eq_ok.1 hp)).1
  · cases h
    cases hr

/-- The points of a model are nodes of its tree. -/
theorem point_mem_of_sunSpecRegisters {model : Uuid} {rs : List Register}
    (h : l.sunSpecRegisters t model = .ok rs) {r : Register} (hr : r ∈ rs) : r.point ∈ t.all := by
  obtain ⟨blocks, hblocks, rfl⟩ := return_eq_ok_iff.1 h
  obtain ⟨qs, hqs, hr⟩ := List.mem_flatten.1 hr
  obtain ⟨block, hblock, hqs⟩ := List.mem_flatten.1 hqs
  obtain ⟨b, hb, hblock⟩ := (mem_mapM_iff hblocks).1 hblock
  have hbt := Tree.mem_all_of_mem_children hb
  split at hblock
  · obtain ⟨n, hn, hqs⟩ := (mem_mapM_iff hblock).1 hqs
    exact point_mem_of_blockRegisters (Tree.mem_all_of_child hbt hn) hqs hr
  · obtain ⟨n, hn, hqs⟩ := (mem_mapM_iff hblock).1 hqs
    exact point_mem_of_blockRegisters (Tree.mem_all_of_child hbt hn) hqs hr
  · cases hblock
    cases hqs

/-- The points of the static map are nodes of its tree. -/
theorem point_mem_of_modbusRegisters {rs : List Register} (h : l.modbusRegisters t = .ok rs) {r : Register}
    (hr : r ∈ rs) : r.point ∈ t.all := by
  obtain ⟨qss, hqss, rfl⟩ := return_eq_ok_iff.1 h
  obtain ⟨qs, hqs, hr⟩ := List.mem_flatten.1 hr
  obtain ⟨n, hn, hqs⟩ := (mem_mapM_iff hqss).1 hqs
  have hnt := Tree.mem_all_of_child (Tree.root_mem t) hn
  unfold flatRegisters at hqs
  split at hqs
  · obtain ⟨q, hq, rfl⟩ := return_eq_ok_iff.1 hqs
    rwa [List.mem_singleton.1 hr, point_of_ofPoint hq]
  · obtain ⟨q, hq, rfl⟩ := return_eq_ok_iff.1 hqs
    rwa [List.mem_singleton.1 hr, point_of_ofPoint hq]
  · split at hqs
    · cases hqs
    · obtain ⟨p, hp, hq⟩ := (mem_mapM_iff hqs).1 hr
      rw [point_of_ofPoint hq]
      exact Tree.mem_all_of_mem_children (List.mem_filter.1 hp).1
  · cases hqs
    cases hr

end Lookup

/-! ### Functions written by hand -/

namespace Code

/-- The points so far, with that of a register unless it is among them. -/
def withPoint (ns : List Node) (r : Register) : List Node :=
  if ns.any (·.uuid == r.point.uuid) then ns else ns ++ [r.point]

theorem distinctPoints_eq (rs : List Register) : distinctPoints rs = rs.foldl withPoint [] := rfl

theorem subset_withPoint (ns : List Node) (r : Register) : ns ⊆ withPoint ns r := by
  unfold withPoint
  split
  · exact List.Subset.refl _
  · exact List.subset_append_left ..

theorem exists_mem_withPoint (ns : List Node) (r : Register) : ∃ n ∈ withPoint ns r, n.uuid = r.point.uuid := by
  unfold withPoint
  split
  · rename_i hany
    obtain ⟨n, hn, hu⟩ := List.any_eq_true.1 hany
    exact ⟨n, hn, beq_iff_eq.1 hu⟩
  · exact ⟨r.point, by simp, rfl⟩

theorem mem_or_eq_of_mem_withPoint {ns : List Node} {r : Register} {n : Node} (h : n ∈ withPoint ns r) :
    n ∈ ns ∨ n = r.point := by
  unfold withPoint at h
  split at h
  · exact .inl h
  · simpa using h

theorem subset_foldl_withPoint (ns : List Node) (rs : List Register) : ns ⊆ rs.foldl withPoint ns := by
  induction rs generalizing ns with
  | nil => exact List.Subset.refl _
  | cons r rs ih => exact List.Subset.trans (subset_withPoint ns r) (ih _)

theorem exists_mem_foldl_withPoint {rs : List Register} (ns : List Node) {r : Register} (hr : r ∈ rs) :
    ∃ n ∈ rs.foldl withPoint ns, n.uuid = r.point.uuid := by
  induction rs generalizing ns with
  | nil => cases hr
  | cons q rs ih =>
    rcases List.mem_cons.1 hr with rfl | hr
    · obtain ⟨n, hn, hu⟩ := exists_mem_withPoint ns r
      exact ⟨n, subset_foldl_withPoint _ rs hn, hu⟩
    · exact ih _ hr

theorem exists_of_mem_foldl_withPoint {rs : List Register} (ns : List Node) {n : Node}
    (h : n ∈ rs.foldl withPoint ns) : n ∈ ns ∨ ∃ r ∈ rs, n = r.point := by
  induction rs generalizing ns with
  | nil => exact .inl h
  | cons r rs ih =>
    rcases ih _ h with h | ⟨q, hq, rfl⟩
    · exact (mem_or_eq_of_mem_withPoint h).imp_right fun h => ⟨r, List.mem_cons_self .., h⟩
    · exact .inr ⟨q, List.mem_cons_of_mem _ hq, rfl⟩

/-- Every point of the registers is among the distinct ones. -/
theorem point_mem_distinctPoints {t : Tree} (ht : t.uuids.Nodup) {rs : List Register}
    (hrs : ∀ r ∈ rs, r.point ∈ t.all) {r : Register} (hr : r ∈ rs) : r.point ∈ distinctPoints rs := by
  rw [distinctPoints_eq]
  obtain ⟨n, hn, hu⟩ := exists_mem_foldl_withPoint [] hr
  obtain ⟨q, hq, rfl⟩ := (exists_of_mem_foldl_withPoint [] hn).resolve_left List.not_mem_nil
  have hfind := Tree.find?_of_mem ht (hrs q hq)
  rw [hu, Tree.find?_of_mem ht (hrs r hr)] at hfind
  exact Option.some.inj hfind ▸ hn

/-- The functions that the table of a model names are among those to be written by hand. -/
theorem exists_mem_manualOf {t : Tree} (ht : t.uuids.Nodup) (base : String) {rs : List Register}
    (hrs : ∀ r ∈ rs, r.point ∈ t.all) {r : Register} (hr : r ∈ rs)
    (himplemented : r.point.flag .notImplemented = false) {a : Attr} {suffix : String}
    (ha : (a, suffix) ∈ [(Attr.handCodedGetter, "get"), (Attr.handCodedSetter, "set")])
    (hflag : r.point.flag a = true) :
    ∃ f ∈ manualOf t base rs, f.name = manualFunction base r.point suffix := by
  have hpoint : r.point ∈ (distinctPoints rs).filter fun n => !n.flag .notImplemented :=
    List.mem_filter.2 ⟨point_mem_distinctPoints ht hrs hr, by simp [himplemented]⟩
  have hfunction : ∃ f ∈ manualFunctions t base r.point, f.name = manualFunction base r.point suffix := by
    simp only [List.mem_cons, Prod.mk.injEq, List.not_mem_nil, or_false] at ha
    rcases ha with ⟨rfl, rfl⟩ | ⟨rfl, rfl⟩ <;> simp [manualFunctions, hflag]
  obtain ⟨f, hf, hname⟩ := hfunction
  exact ⟨f, List.mem_flatMap.2 ⟨_, hpoint, hf⟩, hname⟩

/-! ### The names of files -/

/-- The name is that of a register table. -/
def IsTable (name : String) : Prop := name = modbusBase ++ ".c" ∨ ∃ id, name = sunSpecBase id ++ ".c"

theorem sunSpecBase_eq (id : Int) : sunSpecBase id = "sunspecInterfaceGen" ++ Text.intText id := rfl

theorem head?_sunSpecBase (id : Int) : (sunSpecBase id).toList.head? = some 's' := by
  rw [sunSpecBase_eq, String.toList_append, List.head?_append]
  simp

theorem IsTable.head? {name : String} (h : IsTable name) : name.toList.head? = some 's' := by
  obtain rfl | ⟨id, rfl⟩ := h
  · simp [modbusBase]
  · rw [String.toList_append, List.head?_append, head?_sunSpecBase, Option.some_or]

theorem IsTable.getLast? {name : String} (h : IsTable name) : name.toList.getLast? = some 'c' := by
  have hlast : ".c".toList.getLast? = some 'c' := by simp
  obtain rfl | ⟨id, rfl⟩ := h <;> rw [String.toList_append, List.getLast?_append, hlast, Option.some_or]

theorem not_isTable_of_header {ending : String} (h : ending.toList.getLast? = some 'h') (base : String) :
    ¬IsTable (base ++ ending) := by
  intro htable
  have hlast := htable.getLast?
  rw [String.toList_append, List.getLast?_append, h, Option.some_or] at hlast
  exact absurd hlast (by decide)

theorem not_isTable_manual (id : Int) : ¬IsTable (sunSpecBase id ++ "_manual.c") := by
  rintro (h | ⟨i, h⟩)
  · have hlead : ¬"sunspecInterfaceGen".toList <+: (modbusBase ++ ".c").toList := by simp [modbusBase]
    rw [← h, sunSpecBase_eq, String.append_assoc, String.toList_append] at hlead
    exact hlead (List.prefix_append _ _)
  · have hname : (Text.intText id).toList ++ "_manual".toList = (Text.intText i).toList := by
      have hext : "_manual.c".toList = "_manual".toList ++ ".c".toList := by simp
      have hlist := congrArg String.toList h
      simp only [sunSpecBase_eq, String.append_assoc, String.toList_append, hext,
        List.append_cancel_left_eq] at hlist
      rwa [← List.append_assoc, List.append_cancel_right_eq] at hlist
    have hm : 'm' ∈ (Text.intText i).toList := hname ▸ List.mem_append_right _ (by simp)
    rcases Text.isDigit_of_mem_intText hm with h | h <;> exact absurd h (by decide)

/-! ### Tables -/

theorem exists_of_mem_addresses_tableSource {base : String} (hbase : '&' ∉ base.toList) {includes : List String}
    {es : List RegisterEntry} {x : String} (hx : x ∈ (tableSource base includes es).addresses) :
    ∃ e ∈ es, x ∈ addresses e.lines := by
  have hhead : addressesIn (tableType ++ base ++ "[" ++ Text.natText es.length ++ "] = \x7b").toList = [] :=
    addressesIn_eq_nil (by simp [tableType, hbase])
  have hend : addressesIn "\x7d;".toList = [] := addressesIn_eq_nil (by simp)
  have hlines : x ∈ addresses (es.flatMap RegisterEntry.lines) := by
    have hx : x ∈ addresses (tableSource base includes es).body := hx
    simpa only [tableSource, addresses_line, addresses_block, addresses_nil, hhead, hend, List.nil_append,
      List.append_nil] using hx
  exact mem_addresses_flatMap.1 hlines

theorem exists_of_namesAccessor_tableSource {base : String} {includes : List String}
    {es : List RegisterEntry} {x : String} (hx : (tableSource base includes es).NamesAccessor x) :
    ∃ e ∈ es, ∃ field ∈ [".getter = ", ".setter = "], field ++ x ++ "," ∈ e.lines.flatMap Lines.texts := by
  obtain ⟨field, hfield, hx⟩ := hx
  have hline := accessorLine hfield x
  have hlines : field ++ x ++ "," ∈ (es.flatMap RegisterEntry.lines).flatMap Lines.texts := by
    simp only [CFile.texts, tableSource, List.flatMap_cons, List.flatMap_nil, Lines.texts_line,
      Lines.texts_block, List.mem_append, List.mem_singleton, List.append_nil] at hx
    rcases hx with hx | hx | hx
    · simp [hx, tableType] at hline
    · exact hx
    · simp [hx] at hline
  obtain ⟨ls, hls, hx⟩ := List.mem_flatMap.1 hlines
  obtain ⟨e, he, hls⟩ := List.mem_flatMap.1 hls
  exact ⟨e, he, field, hfield, List.mem_flatMap.2 ⟨ls, hls, hx⟩⟩

/-- The files of a model are its table, two headers, and the functions by hand. -/
theorem exists_of_sunSpecFiles {l : Lookup} {t : Tree} {model : Node} {fs : List CFile}
    (h : sunSpecFiles l t model = .ok fs) : ∃ rs, l.sunSpecRegisters t model.uuid = .ok rs ∧
      ∃ base includes header source manual, base = sunSpecBase (model.int .id) ∧
        fs = [tableSource base includes (rs.map (RegisterEntry.ofRegister l t base)), header, source, manual] ∧
        header.name = base ++ ".h" ∧ source.name = base ++ "_manual.c" ∧ manual.name = base ++ "_manual.h" ∧
        manual.body = (manualOf t base rs).map ManualFunction.declaration ∧
        (manualOf t base rs ≠ [] → manual.name ∈ includes) := by
  obtain ⟨rs, hrs, rfl⟩ := return_eq_ok_iff.1 h
  refine ⟨rs, mapError_eq_ok_iff.1 hrs, _, _, _, _, _, rfl, rfl, rfl, rfl, rfl, rfl, fun hne => ?_⟩
  rw [if_neg (by simpa using hne)]
  exact List.mem_singleton_self _

end Code

end DeviceModel
