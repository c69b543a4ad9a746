import DeviceModel.Proofs.Code.Tables
import DeviceModel.Proofs.Export.Exportable

/-!
References in generated C. Main statements: where every member of a bit field names a parameter with an
item, nothing but parameters has one, and no function of the static map is written by hand, every address
that is taken in the sources of bit fields and tables is that of a variable with a definition, and every
accessor that a table names is declared in a header that the table includes
(`Models.closed_of_codeFiles`); where a check finds no errors, nothing but parameters has an item
(`Models.Clean.itemsAreParameters`).
-/

namespace DeviceModel

open Code

namespace Models

variable {ms : Models}

/-- The trees that there are register tables of. -/
def tableTrees : List TreeKind := [.sunSpec, .staticModbus]

/-- Every member of a bit field names a parameter with an item. -/
def MembersHaveItems (ms : Models) : Prop :=
  ∀ k ∈ tableTrees, ∀ n ∈ (ms.tree k).all, isBitfield n.kind = true → ∀ c ∈ n.children,
    ∀ p ∈ c.ref? .parameter, ms.lookup.hasInterfaceItem p = true

/-- What has an item, of that which points and members name as their parameters, is a parameter. -/
def ItemsAreParameters (ms : Models) : Prop :=
  ∀ k ∈ tableTrees, ∀ n ∈ (ms.tree k).all, ∀ p ∈ n.ref? .parameter, ms.lookup.hasInterfaceItem p = true →
    ∃ m ∈ (ms.tree .parameters).all, m.uuid = p ∧ m.kind.isParameterLike = true

/-- No point of the static map has functions written by hand. -/
def NoneByHand (ms : Models) : Prop :=
  ∀ n ∈ (ms.tree .staticModbus).all, n.flag .notImplemented = false →
    n.flag .handCodedGetter = false ∧ n.flag .handCodedSetter = false

/-- What is neither a parameter nor stands for one has no item. -/
theorem hasInterfaceItem_eq_false {l : Lookup} {p : Uuid} {m : Node} (hm : l.node? p = some m)
    (hflag : m.kind.field? .usesInterfaceItem = none) (horiginal : m.kind.field? .original = none) :
    l.hasInterfaceItem p = false := by
  have hnone : Lookup.original? m = none := by
    rw [Lookup.original?, Node.ref?, Data.ref?, Data.get?_eq_none.2 horiginal]
    rfl
  have hattribute : l.attribute? p .usesInterfaceItem = none := by
    unfold Lookup.attribute? Lookup.originalSteps
    rw [hm]
    change Lookup.attributeFrom l _ 4 m = none
    simp [Lookup.attributeFrom, Data.get?_eq_none.2 hflag, hnone]
  rw [Lookup.hasInterfaceItem, hattribute]
  rfl

/-- Where a check finds no errors, nothing but parameters has an item. -/
theorem Clean.itemsAreParameters (h : ms.Clean) : ms.ItemsAreParameters := by
  intro k _ n hn p hp hi
  obtain ⟨f, hf, -⟩ := Data.exists_field_of_get? (Data.get?_of_ref? hp)
  have htargets : ∀ j : Kind, ∀ f ∈ j.field? .parameter, f.type.base = .uuid ∧ f.targets ≠ [] ∧
      ∀ i ∈ f.targets, i.isParameterLike = true ∨
        (i.field? .usesInterfaceItem = none ∧ i.field? .original = none) := by
    intro j; cases j <;> decide
  obtain ⟨hbase, hne, hkinds⟩ := htargets _ f hf
  obtain ⟨m, hm, hmf⟩ := h.target hn hf hbase hne hp
  rcases hkinds _ hmf with hmk | ⟨hflag, horiginal⟩
  · have htree : ∀ j : Kind, j.isParameterLike = true → j.tree = .parameters := by
      intro j; cases j <;> decide
    obtain ⟨hmt, hu⟩ := Tree.mem_of_find? (find?_of_node? h.valid h.kind hm (htree _ hmk))
    exact ⟨m, hmt, hu, hmk⟩
  · rw [hasInterfaceItem_eq_false hm hflag horiginal] at hi
    cases hi

theorem exists_of_codeFiles {files : List CFile} (h : ms.codeFiles = .ok files) :
    ∃ bitfields tables flat, Bitfield.files ms.lookup (tableTrees.map ms.tree) = .ok bitfields ∧
      ((ms.tree .sunSpec).ofKind .sunSpecModel).mapM (sunSpecFiles ms.lookup (ms.tree .sunSpec)) = .ok tables ∧
      modbusFiles ms.lookup (ms.tree .staticModbus) = .ok flat ∧
      files = InterfaceItem.files ms.lookup (ms.tree .parameters) ++ bitfields ++ tables.flatten ++ flat := by
  obtain ⟨bitfields, hbitfields, h⟩ := bind_eq_ok_iff.1 h
  obtain ⟨tables, htables, h⟩ := bind_eq_ok_iff.1 h
  obtain ⟨flat, hflat, rfl⟩ := return_eq_ok_iff.1 h
  exact ⟨bitfields, tables, flat, hbitfields, htables, hflat, rfl⟩

/-- The item of a parameter that a node names is defined. -/
theorem exists_definition (hitems : ms.ItemsAreParameters) {k : TreeKind} (hk : k ∈ tableTrees)
    {n : Node} (hn : n ∈ (ms.tree k).all) {p : Uuid} (hp : n.ref? .parameter = some p)
    (hi : ms.lookup.hasInterfaceItem p = true) :
    ∃ g ∈ InterfaceItem.files ms.lookup (ms.tree .parameters), g.name = interfaceSource ∧
      g.Defines (ms.lookup.interfaceItem p) := by
  obtain ⟨m, hm, rfl, hmk⟩ := hitems k hk n hn p hp hi
  exact InterfaceItem.exists_defines hm hmk hi

/-- A table over nodes of the tree `k`, which includes a declaration of every function by hand. -/
structure TableOf (ms : Models) (files : List CFile) (k : TreeKind) (base : String) (rs : List Register)
    (f : CFile) : Prop where
  tree : k ∈ tableTrees
  plain : '&' ∉ base.toList
  points : ∀ r ∈ rs, r.point ∈ (ms.tree k).all
  table : ∃ includes, f = tableSource base includes (rs.map (RegisterEntry.ofRegister ms.lookup (ms.tree k) base))
  byHand : ∀ r ∈ rs, r.point.flag .notImplemented = false → ∀ a suffix,
    (a, suffix) ∈ [(Attr.handCodedGetter, "get"), (Attr.handCodedSetter, "set")] → r.point.flag a = true →
      ∃ g ∈ files, (∃ stem, g.name = stem ++ ".h") ∧ g.name ∈ f.includes ∧
        g.Declares (manualFunction base r.point suffix)

namespace TableOf

variable {files : List CFile} {k : TreeKind} {base : String} {rs : List Register} {f : CFile}

/-- The addresses in a table are those of items. -/
theorem exists_definition (h : ms.TableOf files k base rs f) (hitems : ms.ItemsAreParameters) {x : String}
    (hx : x ∈ f.addresses) :
    ∃ g ∈ InterfaceItem.files ms.lookup (ms.tree .parameters), g.name = interfaceSource ∧ g.Defines x := by
  obtain ⟨includes, rfl⟩ := h.table
  obtain ⟨e, he, hx⟩ := exists_of_mem_addresses_tableSource h.plain hx
  obtain ⟨r, hr, rfl⟩ := List.mem_map.1 he
  obtain ⟨n, hn, p, hp, hi, rfl⟩ := RegisterEntry.exists_parameter_of_mem_addresses h.plain hx
  have hnt : n ∈ (ms.tree k).all := by
    rcases hn with rfl | hn
    · exact h.points r hr
    · exact hn
  exact Models.exists_definition hitems h.tree hnt hp hi

/-- The accessors that a table names are declared in what it includes. -/
theorem exists_declaration (h : ms.TableOf files k base rs f) {bitfields : List CFile}
    (hbitfields : Bitfield.files ms.lookup (tableTrees.map ms.tree) = .ok bitfields)
    (hsub : bitfields ⊆ files) {x : String} (hx : f.NamesAccessor x) :
    ∃ g ∈ files, (∃ stem, g.name = stem ++ ".h") ∧ g.name ∈ f.includes ∧ g.Declares x := by
  obtain ⟨includes, hf⟩ := h.table
  obtain ⟨e, he, field, hfield, hx⟩ := exists_of_namesAccessor_tableSource (hf ▸ hx)
  obtain ⟨r, hr, rfl⟩ := List.mem_map.1 he
  obtain ⟨himplemented, haccessor⟩ := RegisterEntry.exists_of_namesAccessor hfield hx
  rcases haccessor with ⟨hk, haccessor⟩ | ⟨a, suffix, ha, hflag, rfl⟩
  · obtain ⟨g, hg, hname, hget, hset⟩ := Bitfield.exists_declares hbitfields (List.mem_map_of_mem h.tree)
      (h.points r hr) hk
    refine ⟨g, hsub hg, ⟨"bitfields", by rw [hname]; rfl⟩, ?_, ?_⟩
    · rw [hf, hname]
      exact List.mem_append_left _ (by simp)
    · rcases haccessor with rfl | rfl
      · exact hget
      · exact hset
  · exact h.byHand r hr himplemented a suffix ha hflag

end TableOf

theorem declares_of_mem_manualOf {g : CFile} {fs : List ManualFunction}
    (hg : g.body = fs.map ManualFunction.declaration) {f : ManualFunction} (hf : f ∈ fs) : g.Declares f.name := by
  refine ⟨"int32_t", f.parameter ++ " *registers", isWord_cType .int32, ?_⟩
  rw [hg]
  refine List.mem_map.2 ⟨f, hf, congrArg Lines.line (String.toList_inj.1 ?_)⟩
  simp [ManualFunction.signature]

/-- The files of a model, of which one is a table. -/
theorem tableOf_of_sunSpecFiles (ht : (ms.tree .sunSpec).uuids.Nodup) {model : Node} {fs files : List CFile}
    (h : sunSpecFiles ms.lookup (ms.tree .sunSpec) model = .ok fs) (hsub : fs ⊆ files) {f : CFile} (hf : f ∈ fs) :
    f.name.toList.head? = some 's' ∧ (IsTable f.name → ∃ base rs, ms.TableOf files .sunSpec base rs f) := by
  obtain ⟨rs, hrs, base, includes, header, source, manual, hbase, rfl, hheader, hsource, hmanual, hbody, hinclude⟩ :=
    exists_of_sunSpecFiles h
  have hlead : ∀ ending, (base ++ ending).toList.head? = some 's' := by
    intro ending
    rw [hbase, String.toList_append, List.head?_append, head?_sunSpecBase, Option.some_or]
  have hpoints := fun r hr => Lookup.point_mem_of_sunSpecRegisters hrs (r := r) hr
  simp only [List.mem_cons, List.not_mem_nil, or_false] at hf
  rcases hf with rfl | rfl | rfl | rfl
  · refine ⟨hlead ".c", fun _ => ⟨base, rs, by decide, ?_, hpoints, ⟨includes, rfl⟩, ?_⟩⟩
    · simp [hbase, sunSpecBase_eq]
    · intro r hr himplemented a suffix ha hflag
      obtain ⟨g, hg, hname⟩ := exists_mem_manualOf ht base hpoints hr himplemented ha hflag
      refine ⟨manual, hsub (by simp), ⟨base ++ "_manual", ?_⟩, ?_, hname ▸ declares_of_mem_manualOf hbody hg⟩
      · rw [hmanual, String.append_assoc]
        rfl
      · exact List.mem_append_right _ (hinclude (List.ne_nil_of_mem hg))
  · exact ⟨hheader ▸ hlead _, fun hf => absurd (hheader ▸ hf) (not_isTable_of_header (by simp) base)⟩
  · exact ⟨hsource ▸ hlead _, fun hf => absurd (hsource ▸ hf) (hbase ▸ not_isTable_manual _)⟩
  · exact ⟨hmanual ▸ hlead _, fun hf => absurd (hmanual ▸ hf) (not_isTable_of_header (by simp) base)⟩

/-- The files of the static map, of which one is a table. -/
theorem tableOf_of_modbusFiles (files : List CFile) (hhand : ms.NoneByHand) {fs : List CFile}
    (h : modbusFiles ms.lookup (ms.tree .staticModbus) = .ok fs) {f : CFile} (hf : f ∈ fs) :
    f.name.toList.head? = some 's' ∧
      (IsTable f.name → ∃ rs, ms.TableOf files .staticModbus modbusBase rs f) := by
  obtain ⟨rs, hrs, rfl⟩ := return_eq_ok_iff.1 h
  have hpoints := fun r hr => Lookup.point_mem_of_modbusRegisters (mapError_eq_ok_iff.1 hrs) (r := r) hr
  rcases List.mem_cons.1 hf with rfl | hf
  · refine ⟨show (modbusBase ++ ".c").toList.head? = some 's' by simp [modbusBase],
      fun _ => ⟨rs, by decide, by simp [modbusBase], hpoints, ⟨[], rfl⟩, ?_⟩⟩
    intro r hr himplemented a suffix ha hflag
    obtain ⟨hgetter, hsetter⟩ := hhand _ (hpoints r hr) himplemented
    simp only [List.mem_cons, Prod.mk.injEq, List.not_mem_nil, or_false] at ha
    rcases ha with ⟨rfl, -⟩ | ⟨rfl, -⟩
    · rw [hgetter] at hflag
      cases hflag
    · rw [hsetter] at hflag
      cases hflag
  · obtain rfl := List.mem_singleton.1 hf
    exact ⟨show (modbusBase ++ ".h").toList.head? = some 's' by simp [modbusBase],
      fun hf => absurd hf (not_isTable_of_header (by simp) modbusBase)⟩

/-- The addresses in the files of bit fields are those of items. -/
theorem exists_definition_of_bitfields (hmembers : ms.MembersHaveItems) (hitems : ms.ItemsAreParameters)
    {fs : List CFile} (h : Bitfield.files ms.lookup (tableTrees.map ms.tree) = .ok fs) {f : CFile}
    (hf : f ∈ fs) {x : String} (hx : x ∈ f.addresses) :
    ∃ g ∈ InterfaceItem.files ms.lookup (ms.tree .parameters), g.name = interfaceSource ∧ g.Defines x := by
  obtain ⟨t, ht, n, hn, hk, c, hc, p, hp, rfl⟩ := Bitfield.exists_parameter_of_mem_addresses h hf hx
  obtain ⟨k, hkt, rfl⟩ := List.mem_map.1 ht
  exact exists_definition hitems hkt (Tree.mem_all_of_child hn hc) hp (hmembers k hkt n hn hk c hc p hp)

theorem name_of_mem_interfaceFiles {f : CFile}
    (hf : f ∈ InterfaceItem.files ms.lookup (ms.tree .parameters)) :
    f.name = interfaceSource ∨ f.name = interfaceHeader := by
  rcases List.mem_cons.1 hf with rfl | hf
  · exact .inl rfl
  · exact .inr (List.mem_singleton.1 hf ▸ rfl)

theorem name_of_mem_bitfieldFiles {l : Lookup} {ts : List Tree} {fs : List CFile}
    (h : Bitfield.files l ts = .ok fs) {f : CFile} (hf : f ∈ fs) :
    f.name = bitfieldSource ∨ f.name = bitfieldHeader := by
  obtain ⟨bs, -, rfl⟩ := return_eq_ok_iff.1 h
  rcases List.mem_cons.1 hf with rfl | hf
  · exact .inl rfl
  · exact .inr (List.mem_singleton.1 hf ▸ rfl)

/-- The files of a project are those of the interface, those of bit fields, and those of tables. -/
theorem cases_of_mem_codeFiles (ht : (ms.tree .sunSpec).uuids.Nodup) (hhand : ms.NoneByHand)
    {files : List CFile} (h : ms.codeFiles = .ok files) {f : CFile} (hf : f ∈ files) :
    (f.name = interfaceSource ∨ f.name = interfaceHeader) ∨
      ((f.name = bitfieldSource ∨ f.name = bitfieldHeader) ∧
        ∃ fs, Bitfield.files ms.lookup (tableTrees.map ms.tree) = .ok fs ∧ f ∈ fs) ∨
      (f.name.toList.head? = some 's' ∧ (IsTable f.name → ∃ k base rs, ms.TableOf files k base rs f)) := by
  obtain ⟨bitfields, tables, flat, hbitfields, htables, hflat, hfiles⟩ := exists_of_codeFiles h
  have hmem := hf
  rw [hfiles, List.mem_append, List.mem_append, List.mem_append] at hmem
  rcases hmem with ((hf | hf) | hf) | hf
  · exact .inl (name_of_mem_interfaceFiles hf)
  · exact .inr (.inl ⟨name_of_mem_bitfieldFiles hbitfields hf, bitfields, hbitfields, hf⟩)
  · obtain ⟨fs, hfs, hf⟩ := List.mem_flatten.1 hf
    obtain ⟨model, -, hmodel⟩ := (mem_mapM_iff htables).1 hfs
    have hsub : fs ⊆ files := by
      intro g hg
      rw [hfiles]
      exact List.mem_append_left _ (List.mem_append_right _ (List.mem_flatten.2 ⟨fs, hfs, hg⟩))
    obtain ⟨hlead, htable⟩ := tableOf_of_sunSpecFiles ht hmodel hsub hf
    exact .inr (.inr ⟨hlead, fun hf => ⟨_, htable hf⟩⟩)
  · obtain ⟨hlead, htable⟩ := tableOf_of_modbusFiles files hhand hflat hf
    exact .inr (.inr ⟨hlead, fun hf => ⟨_, _, htable hf⟩⟩)

theorem exists_tableOf (ht : (ms.tree .sunSpec).uuids.Nodup) (hhand : ms.NoneByHand) {files : List CFile}
    (h : ms.codeFiles = .ok files) {f : CFile} (hf : f ∈ files) (hname : IsTable f.name) :
    ∃ k base rs, ms.TableOf files k base rs f := by
  have hlead := hname.head?
  rcases cases_of_mem_codeFiles ht hhand h hf with (hf | hf) | ⟨hf | hf, -⟩ | ⟨-, htable⟩
  · exact absurd (hf ▸ hlead) (by simp [interfaceSource])
  · exact absurd (hf ▸ hlead) (by simp [interfaceHeader])
  · exact absurd (hf ▸ hlead) (by simp [bitfieldSource])
  · exact absurd (hf ▸ hlead) (by simp [bitfieldHeader])
  · exact htable hname

theorem exists_bitfields (ht : (ms.tree .sunSpec).uuids.Nodup) (hhand : ms.NoneByHand) {files : List CFile}
    (h : ms.codeFiles = .ok files) {f : CFile} (hf : f ∈ files) (hname : f.name = bitfieldSource) :
    ∃ fs, Bitfield.files ms.lookup (tableTrees.map ms.tree) = .ok fs ∧ f ∈ fs := by
  rcases cases_of_mem_codeFiles ht hhand h hf with (hf | hf) | ⟨-, hfs⟩ | ⟨hlead, -⟩
  · exact absurd (hf.symm.trans hname) (by simp [interfaceSource, bitfieldSource])
  · exact absurd (hf.symm.trans hname) (by simp [interfaceHeader, bitfieldSource])
  · exact hfs
  · exact absurd (hname ▸ hlead) (by simp [bitfieldSource])

/-- Where every member of a bit field names a parameter with an item, nothing but parameters has one, and
no function of the static map is written by hand, generated code is closed: the sources of bit fields and
tables take the addresses of variables that the source of the interface defines, and the accessors that a
table names are declared in headers that it includes. -/
theorem closed_of_codeFiles (ht : (ms.tree .sunSpec).uuids.Nodup) (hmembers : ms.MembersHaveItems)
    (hitems : ms.ItemsAreParameters) (hhand : ms.NoneByHand) {files : List CFile}
    (h : ms.codeFiles = .ok files) :
    (∀ f ∈ files, f.name = bitfieldSource ∨ IsTable f.name → ∀ x ∈ f.addresses,
      ∃ g ∈ files, g.name = interfaceSource ∧ g.Defines x) ∧
    ∀ f ∈ files, IsTable f.name → ∀ x, f.NamesAccessor x →
      ∃ g ∈ files, (∃ stem, g.name = stem ++ ".h") ∧ g.name ∈ f.includes ∧ g.Declares x := by
  obtain ⟨bitfields, tables, flat, hbitfields, -, -, hfiles⟩ := exists_of_codeFiles h
  have hinterface : InterfaceItem.files ms.lookup (ms.tree .parameters) ⊆ files := by
    intro g hg
    simp [hfiles, hg]
  have hsub : bitfields ⊆ files := by
    intro g hg
    simp [hfiles, hg]
  constructor
  · intro f hf hname x hx
    have hdefines : ∃ g ∈ InterfaceItem.files ms.lookup (ms.tree .parameters), g.name = interfaceSource ∧
        g.Defines x := by
      rcases hname with hname | hname
      · obtain ⟨fs, hfs, hmem⟩ := exists_bitfields ht hhand h hf hname
        exact exists_definition_of_bitfields hmembers hitems hfs hmem hx
      · obtain ⟨k, base, rs, htable⟩ := exists_tableOf ht hhand h hf hname
        exact htable.exists_definition hitems hx
    obtain ⟨g, hg, hdefines⟩ := hdefines
    exact ⟨g, hinterface hg, hdefines⟩
  · intro f hf hname x hx
    obtain ⟨k, base, rs, htable⟩ := exists_tableOf ht hhand h hf hname
    exact htable.exists_declaration hbitfields hsub hx

/-- A parameter that is gathered in a bit field, a model with a function by hand, and a point of the
static map. -/
def codeProject (usesItem byHand : Bool) : Models where
  parameters := { tree := ⟨.parameters, ⟨⟨1⟩, .initial .root,
    .leaf ⟨5⟩ (.of .parameter [(.name, .string "Torque"), (.usesInterfaceItem, .bool usesItem)]) ::
      pointTypes.root.children⟩⟩ }
  can := { tree := .initial .can ⟨30⟩ }
  sunSpec :=
    let t : Tree := ⟨.sunSpec, ⟨⟨20⟩, .initial .sunSpecRoot, [⟨⟨21⟩, .of .sunSpecModel [(.id, .integer 700)],
      [⟨⟨22⟩, .initial .headerBlock, []⟩, ⟨⟨23⟩, .initial .fixedBlock,
        [.leaf ⟨24⟩ (.of .dataPoint [(.name, .string "Torque"), (.pointType, .uuid ⟨3⟩), (.size, .integer 1),
          (.parameter, .uuid ⟨5⟩), (.handCodedGetter, .bool true)])]⟩]⟩]⟩⟩
    { tree := t.placeAll t.layout }
  staticModbus :=
    let t : Tree := ⟨.staticModbus, ⟨⟨40⟩, .initial .staticModbusRoot,
      [⟨⟨41⟩, shortPoint .functionDataBitfield,
        [.leaf ⟨42⟩ (.of .functionDataBitfieldMember [(.parameter, .uuid ⟨5⟩), (.bitLength, .integer 1)])]⟩,
        .leaf ⟨43⟩ (.of .functionData [(.name, .string "Speed"), (.pointType, .uuid ⟨3⟩), (.size, .integer 1),
          (.handCodedSetter, .bool byHand)])]⟩⟩
    { tree := t.placeAll t.layout }
  anomalies := { tree := .initial .anomalies ⟨50⟩ }

theorem clean_codeProject (usesItem byHand : Bool) : (codeProject usesItem byHand).Clean :=
  ⟨by intro k; cases k <;> cases usesItem <;> cases byHand <;> decide +kernel,
    by intro k; cases k <;> rfl,
    by cases usesItem <;> cases byHand <;> decide +kernel⟩

theorem closed_of_codeFiles_codeProject : ∃ files, (codeProject true false).codeFiles = .ok files ∧
    (∃ f ∈ files, f.name = bitfieldSource ∧ "interfaceItem_Torque" ∈ f.addresses) ∧
    (∃ g ∈ files, g.name = interfaceSource ∧ g.Defines "interfaceItem_Torque") ∧
    ∃ f ∈ files, IsTable f.name ∧ ∃ g ∈ files, g.name ∈ f.includes ∧
      g.Declares "sunspecInterfaceGen700_Torque_get" := by
  obtain ⟨files, hfiles, ⟨f, hf, hname, haddress⟩, t, ht, htable, haccessor⟩ :
      ∃ files ∈ (codeProject true false).codeFiles.toOption,
        (∃ f ∈ files, f.name = bitfieldSource ∧ "interfaceItem_Torque" ∈ f.addresses) ∧
        ∃ t ∈ files, t.name = sunSpecBase 700 ++ ".c" ∧
          ".getter = sunspecInterfaceGen700_Torque_get," ∈ t.texts := by
    decide +kernel
  have hfiles := mem_toOption_iff.1 hfiles
  have hmembers : (codeProject true false).MembersHaveItems := by
    unfold MembersHaveItems
    decide +kernel
  have hhand : (codeProject true false).NoneByHand := by
    unfold NoneByHand
    decide +kernel
  have hitems := (clean_codeProject true false).itemsAreParameters
  obtain ⟨haddresses, haccessors⟩ := closed_of_codeFiles (by decide +kernel) hmembers hitems hhand hfiles
  obtain ⟨g, hg, -, hinclude, hdeclares⟩ := haccessors t ht (.inr ⟨700, htable⟩)
    "sunspecInterfaceGen700_Torque_get" ⟨".getter = ", by simp, haccessor⟩
  exact ⟨files, hfiles, ⟨f, hf, hname, haddress⟩, haddresses f hf (.inl hname) _ haddress,
    t, ht, .inr ⟨700, htable⟩, g, hg, hinclude, hdeclares⟩

/-- A member that names a parameter without an item, and a function by hand in the static map, are no
errors to the check, but the code takes an address without a definition, or names a function without a
declaration. -/
theorem exists_clean_open :
    (∃ ms : Models, ms.Clean ∧ ∃ files, ms.codeFiles = .ok files ∧ ∃ f ∈ files, f.name = bitfieldSource ∧
      ∃ x ∈ f.addresses, ∀ g ∈ files, g.name = interfaceSource → ¬g.Defines x) ∧
    ∃ ms : Models, ms.Clean ∧ ∃ files, ms.codeFiles = .ok files ∧ ∃ f ∈ files, IsTable f.name ∧
      ∃ x, f.NamesAccessor x ∧ ∀ g ∈ files, g.name ∈ f.includes → ¬g.Declares x := by
  constructor
  · obtain ⟨files, hfiles, ⟨f, hf, hname, haddress⟩, hnone⟩ :
        ∃ files ∈ (codeProject false false).codeFiles.toOption,
          (∃ f ∈ files, f.name = bitfieldSource ∧ "interfaceItem_Torque" ∈ f.addresses) ∧
          ∀ g ∈ files, g.name = interfaceSource → g.texts = [] := by
      decide +kernel
    refine ⟨_, clean_codeProject false false, files, mem_toOption_iff.1 hfiles, f, hf, hname, _, haddress, ?_⟩
    rintro g hg hgname ⟨type, -, hline⟩
    exact absurd (CFile.mem_texts hline) (by simp [hnone g hg hgname])
  · obtain ⟨files, hfiles, f, hf, hname, haccessor, hnone⟩ :
        ∃ files ∈ (codeProject true true).codeFiles.toOption, ∃ f ∈ files, f.name = modbusBase ++ ".c" ∧
          ".setter = staticmodbusInterfaceGen_Speed_set," ∈ f.texts ∧ ∀ g ∈ files, g.name ∈ f.includes →
            ∀ s ∈ g.texts, ¬"staticmodbusInterfaceGen_Speed_set".toList <:+: s.toList := by
      decide +kernel
    refine ⟨_, clean_codeProject true true, files, mem_toOption_iff.1 hfiles, f, hf, .inl hname,
      "staticmodbusInterfaceGen_Speed_set", ⟨".setter = ", by simp, haccessor⟩, ?_⟩
    intro g hg hinclude hdeclares
    obtain ⟨s, hs, hinfix⟩ := hdeclares.exists_infix
    exact hnone g hg hinclude s hs hinfix

end Models

end DeviceModel
