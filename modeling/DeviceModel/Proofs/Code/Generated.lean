import DeviceModel.Proofs.Code.Names
import DeviceModel.Proofs.Lists
import DeviceModel.Proofs.Tree.Traversal

/-!
What each of the generators of C code takes the address of, names, defines and declares. Main statements:
parameters with items have definitions (`InterfaceItem.exists_defines`), the accessors of bit fields take
the addresses of the items of their members and are declared (`Bitfield.exists_member_of_mem_addresses`,
`Bitfield.exists_declares`), and what tables refer to (`RegisterEntry.exists_parameter_of_mem_addresses`,
`RegisterEntry.exists_of_namesAccessor`).
-/

namespace DeviceModel

namespace Code

/-! ### Texts without addresses -/

@[simp] theorem amp_notMem_intText (i : Int) : '&' ∉ (Text.intText i).toList := by
  intro h
  rcases Text.isDigit_of_mem_intText h with h | h <;> exact absurd h (by decide)

@[simp] theorem amp_notMem_natText (n : Nat) : '&' ∉ (Text.natText n).toList := amp_notMem_intText n

@[simp] theorem amp_notMem_identifier (s : String) : '&' ∉ (identifier s).toList :=
  fun h => absurd (isWordChar_of_mem_identifier h) (by decide)

@[simp] theorem amp_notMem_mask (bits : Int) : '&' ∉ (mask bits).toList := by
  have hdigits : ∀ n, '&' ∉ Text.hexDigits n := by
    intro n h
    obtain ⟨c, hc, hamp⟩ := List.mem_map.1 h
    obtain ⟨d, hd, rfl⟩ := Text.exists_of_mem_toDigits (by decide) hc
    have hnone : ∀ d < 16, (Nat.digitChar d).toUpper ≠ '&' := by decide
    exact hnone d hd hamp
  simp [mask, hdigits]

theorem isWord_cType (type : PointType) : IsWord type.cType := by
  cases type <;> simp [PointType.cType, IsWord, isWordChar]

@[simp] theorem amp_notMem_cType (type : PointType) : '&' ∉ type.cType.toList :=
  amp_notMem_of_isWord (isWord_cType type)

@[simp] theorem amp_notMem_upper_name (type : PointType) : '&' ∉ (upper type.name).toList := by
  cases type <;> decide +kernel

@[simp] theorem amp_notMem_bitfieldBase (t : Tree) (u : Uuid) : '&' ∉ (bitfieldBase t u).toList := by
  have hkind : ∀ k : TreeKind, '&' ∉ k.name.toList := by intro k; cases k <;> simp [TreeKind.name]
  simp [bitfieldBase, hkind]

/-! ### The addresses of lines -/

/-- The addresses that lines take. -/
def addresses (ls : List Lines) : List String := (ls.flatMap Lines.texts).flatMap fun s => addressesIn s.toList

@[simp] theorem addresses_nil : addresses [] = [] := rfl

@[simp] theorem addresses_line (s : String) (ls : List Lines) :
    addresses (.line s :: ls) = addressesIn s.toList ++ addresses ls := by
  simp [addresses]

@[simp] theorem addresses_block (ls ks : List Lines) :
    addresses (.block ls :: ks) = addresses ls ++ addresses ks := by
  simp [addresses]

@[simp] theorem addresses_append (ls ks : List Lines) : addresses (ls ++ ks) = addresses ls ++ addresses ks := by
  simp [addresses]

theorem mem_addresses_flatMap {f : α → List Lines} {l : List α} {x : String} :
    x ∈ addresses (l.flatMap f) ↔ ∃ a ∈ l, x ∈ addresses (f a) := by
  induction l with
  | nil => simp
  | cons a l ih => simp [ih]

theorem mem_addresses_map {f : α → Lines} {l : List α} {x : String} :
    x ∈ addresses (l.map f) ↔ ∃ a ∈ l, x ∈ addresses [f a] := by
  rw [List.map_eq_flatMap, mem_addresses_flatMap]

end Code

open Code

/-! ### Interface items -/

theorem isWord_itemType (l : Lookup) (p : Uuid) : IsWord ("InterfaceItem_" ++ l.itemType p) := by
  refine IsWord.append ⟨by simp, by simp [isWordChar]⟩ ?_
  unfold Lookup.itemType
  split
  · exact fun _ => isWordChar_of_mem_identifier
  · simp [isWordChar]

/-- A parameter that has an item has its definition. -/
theorem InterfaceItem.exists_defines {l : Lookup} {t : Tree} {n : Node} (hn : n ∈ t.all)
    (hk : n.kind.isParameterLike = true) (hi : l.hasInterfaceItem n.uuid = true) :
    ∃ g ∈ InterfaceItem.files l t, g.name = interfaceSource ∧ g.Defines (l.interfaceItem n.uuid) := by
  refine ⟨_, List.mem_cons_self .., rfl, _, isWord_itemType l n.uuid, ?_⟩
  refine List.mem_flatMap.2 ⟨_, List.mem_filterMap.2 ⟨n, List.mem_filter.2 ⟨hn, hk⟩, if_pos hi⟩, ?_⟩
  exact List.mem_cons_of_mem _ (List.mem_cons_self ..)

/-! ### Bit fields -/

namespace BitfieldMember

variable {m : BitfieldMember} (hitem : IsWord m.item) (hmask : '&' ∉ m.mask.toList)
include hitem hmask

theorem addresses_gather {type : String} (htype : '&' ∉ type.toList) :
    addresses [m.gather type] = [m.item] := by
  have hline := addressesIn_of_eq
    (s := "value |= ((" ++ type ++ ") InterfaceItem_getRaw(&" ++ m.item ++ ") & " ++ m.mask ++ ") << " ++
      Text.intText m.offset ++ ";")
    ("value |= ((" ++ type ++ ") InterfaceItem_getRaw(").toList
    (") ".toList ++ '&' :: ' ' :: (m.mask ++ ") << " ++ Text.intText m.offset ++ ";").toList)
    (by simp) (by simp [htype]) hitem (by simp [isWordChar])
  rw [addressesIn_blank (by simp) (by simp [hmask])] at hline
  rw [gather, addresses_line, hline]
  rfl

theorem addresses_handOut : addresses [m.handOut] = [m.item] := by
  have hline := addressesIn_of_eq
    (s := "InterfaceItem_setRaw(&" ++ m.item ++ ", (value >> " ++ Text.intText m.offset ++ ") & " ++ m.mask ++ ");")
    "InterfaceItem_setRaw(".toList
    ((", (value >> " ++ Text.intText m.offset ++ ") ").toList ++ '&' :: ' ' :: (m.mask ++ ");").toList)
    (by simp) (by simp) hitem (by simp [isWordChar])
  rw [addressesIn_blank (by simp) (by simp [hmask])] at hline
  rw [handOut, addresses_line, hline]
  rfl

omit hitem hmask in
theorem of_ofNode {l : Lookup} {n : Node} {m : BitfieldMember} (h : ofNode l n = .ok m) :
    ∃ p, n.ref? .parameter = some p ∧ m = ⟨l.interfaceItem p, n.int .bitOffset, Code.mask (n.int .bitLength)⟩ := by
  unfold ofNode at h
  split at h
  · exact ⟨_, ‹_›, (Except.ok.inj h).symm⟩
  · cases h

end BitfieldMember

namespace Bitfield

/-- The accessors of a bit field take the addresses of the items of its members. -/
theorem exists_member_of_mem_addresses {b : Bitfield} (hbase : '&' ∉ b.base.toList)
    (htype : '&' ∉ b.type.toList) (hmembers : ∀ m ∈ b.members, IsWord m.item ∧ '&' ∉ m.mask.toList)
    {x : String} (hx : x ∈ addresses b.definition) : ∃ m ∈ b.members, x = m.item := by
  have hlines : x ∈ addresses (b.members.map (BitfieldMember.gather b.type)) ∨
      x ∈ addresses (b.members.map BitfieldMember.handOut) := by
    simpa [definition, getter, setter, hbase, htype, Lines.blank, addressesIn_eq_nil] using hx
  simp only [mem_addresses_map] at hlines
  rcases hlines with ⟨m, hm, hx⟩ | ⟨m, hm, hx⟩
  · rw [BitfieldMember.addresses_gather (hmembers m hm).1 (hmembers m hm).2 htype] at hx
    exact ⟨m, hm, List.mem_singleton.1 hx⟩
  · rw [BitfieldMember.addresses_handOut (hmembers m hm).1 (hmembers m hm).2] at hx
    exact ⟨m, hm, List.mem_singleton.1 hx⟩

theorem of_ofNode {l : Lookup} {t : Tree} {n : Node} {b : Bitfield} (h : ofNode l t n = .ok b) :
    b.base = bitfieldBase t n.uuid ∧ (∃ type : PointType, b.type = type.cType) ∧
      List.Forall₂ (fun c m => BitfieldMember.ofNode l c = .ok m) n.children b.members := by
  obtain ⟨type, -, h⟩ := bind_eq_ok_iff.1 h
  obtain ⟨ms, hms, rfl⟩ := return_eq_ok_iff.1 h
  exact ⟨rfl, ⟨type, rfl⟩, forall₂_of_mapM hms⟩

variable {l : Lookup} {ts : List Tree}

/-- The bit fields of trees are those of their nodes. -/
theorem exists_node_of_mem_ofTrees {bs : List Bitfield} (h : ofTrees l ts = .ok bs) {b : Bitfield} (hb : b ∈ bs) :
    ∃ t ∈ ts, ∃ n ∈ t.all, isBitfield n.kind = true ∧ ofNode l t n = .ok b := by
  obtain ⟨bss, hbss, rfl⟩ := return_eq_ok_iff.1 h
  obtain ⟨cs, hcs, hb⟩ := List.mem_flatten.1 hb
  obtain ⟨t, ht, hcs⟩ := (mem_mapM_iff hbss).1 hcs
  obtain ⟨n, hn, hnb⟩ := (mem_mapM_iff hcs).1 hb
  exact ⟨t, ht, n, (List.mem_filter.1 hn).1, (List.mem_filter.1 hn).2, hnb⟩

theorem exists_mem_ofTrees {bs : List Bitfield} (h : ofTrees l ts = .ok bs) {t : Tree} (ht : t ∈ ts) {n : Node}
    (hn : n ∈ t.all) (hk : isBitfield n.kind = true) : ∃ b ∈ bs, ofNode l t n = .ok b := by
  obtain ⟨bss, hbss, rfl⟩ := return_eq_ok_iff.1 h
  obtain ⟨cs, hcs, htcs⟩ := exists_of_forall₂ (forall₂_of_mapM hbss) ht
  obtain ⟨b, hb, hnb⟩ := exists_of_forall₂ (forall₂_of_mapM htcs) (List.mem_filter.2 ⟨hn, hk⟩)
  exact ⟨b, List.mem_flatten.2 ⟨cs, hcs, hb⟩, hnb⟩

/-- The accessors of every bit field are declared. -/
theorem exists_declares {fs : List CFile} (h : files l ts = .ok fs) {t : Tree} (ht : t ∈ ts) {n : Node}
    (hn : n ∈ t.all) (hk : isBitfield n.kind = true) :
    ∃ g ∈ fs, g.name = bitfieldHeader ∧ g.Declares (bitfieldBase t n.uuid ++ "_get") ∧
      g.Declares (bitfieldBase t n.uuid ++ "_set") := by
  obtain ⟨bs, hbs, rfl⟩ := return_eq_ok_iff.1 h
  obtain ⟨b, hb, hnb⟩ := exists_mem_ofTrees hbs ht hn hk
  obtain ⟨hbase, ⟨type, htype⟩, -⟩ := of_ofNode hnb
  refine ⟨_, List.mem_cons_of_mem _ (List.mem_cons_self ..), rfl, ⟨type.cType, "void", isWord_cType type, ?_⟩,
    ⟨"void", type.cType ++ " value", ⟨by simp, by simp [isWordChar]⟩, ?_⟩⟩
  · refine List.mem_flatMap.2 ⟨b, hb, List.mem_cons.2 (.inl (congrArg _ ?_))⟩
    rw [getter, hbase, htype]
    apply String.toList_inj.1
    simp
  · refine List.mem_flatMap.2 ⟨b, hb, List.mem_cons_of_mem _ (List.mem_singleton.2 (congrArg _ ?_))⟩
    rw [setter, hbase, htype]
    apply String.toList_inj.1
    simp

/-- The source of bit fields takes the addresses of the items that their members name. -/
theorem exists_parameter_of_mem_addresses {fs : List CFile} (h : files l ts = .ok fs) {f : CFile} (hf : f ∈ fs)
    {x : String} (hx : x ∈ addresses f.body) : ∃ t ∈ ts, ∃ n ∈ t.all, isBitfield n.kind = true ∧
      ∃ c ∈ n.children, ∃ p, c.ref? .parameter = some p ∧ x = l.interfaceItem p := by
  obtain ⟨bs, hbs, rfl⟩ := return_eq_ok_iff.1 h
  have hmember : ∀ b ∈ bs, ∃ t ∈ ts, ∃ n ∈ t.all, isBitfield n.kind = true ∧
      b.base = bitfieldBase t n.uuid ∧ (∃ type : PointType, b.type = type.cType) ∧
      ∀ m ∈ b.members, ∃ c ∈ n.children, ∃ p, c.ref? .parameter = some p ∧
        m = ⟨l.interfaceItem p, c.int .bitOffset, Code.mask (c.int .bitLength)⟩ := by
    intro b hb
    obtain ⟨t, ht, n, hn, hk, hnb⟩ := exists_node_of_mem_ofTrees hbs hb
    obtain ⟨hbase, htype, hmembers⟩ := of_ofNode hnb
    refine ⟨t, ht, n, hn, hk, hbase, htype, fun m hm => ?_⟩
    obtain ⟨c, hc, hcm⟩ := exists_of_forall₂ hmembers.flip hm
    exact ⟨c, hc, BitfieldMember.of_ofNode hcm⟩
  rcases List.mem_cons.1 hf with rfl | hf
  · obtain ⟨b, hb, hx⟩ := mem_addresses_flatMap.1 hx
    obtain ⟨t, ht, n, hn, hk, hbase, ⟨type, htype⟩, hmembers⟩ := hmember b hb
    have hwords : ∀ m ∈ b.members, IsWord m.item ∧ '&' ∉ m.mask.toList := by
      intro m hm
      obtain ⟨c, -, p, -, rfl⟩ := hmembers m hm
      exact ⟨isWord_interfaceItem l p, amp_notMem_mask _⟩
    obtain ⟨m, hm, rfl⟩ := exists_member_of_mem_addresses (by simp [hbase]) (by simp [htype]) hwords hx
    obtain ⟨c, hc, p, hp, rfl⟩ := hmembers m hm
    exact ⟨t, ht, n, hn, hk, c, hc, p, hp, rfl⟩
  · -- The header only declares functions.
    obtain rfl := List.mem_singleton.1 hf
    obtain ⟨b, hb, hx⟩ := mem_addresses_flatMap.1 hx
    obtain ⟨t, -, n, -, -, hbase, ⟨type, htype⟩, -⟩ := hmember b hb
    simp [declaration, getter, setter, hbase, htype, addressesIn_eq_nil] at hx

end Bitfield

/-! ### Register tables -/

theorem Code.of_pointItem {l : Lookup} {n : Node} {x : String} (h : pointItem l n = some x) :
    ∃ p, n.ref? .parameter = some p ∧ l.hasInterfaceItem p = true ∧ x = l.interfaceItem p := by
  obtain ⟨p, hp, rfl⟩ := Option.map_eq_some_iff.1 h
  obtain ⟨hp, hi⟩ := Option.filter_eq_some_iff.1 hp
  exact ⟨p, hp, hi, rfl⟩

/-- Only the address of a variable is one. -/
theorem Code.mem_addressesIn_address (before : String) {x : String} {name : Option String}
    (hbefore : '&' ∉ before.toList)
    (hname : ∀ s ∈ name, IsWord s) (hx : x ∈ addressesIn (before ++ address name ++ ",").toList) :
    name = some x := by
  cases name with
  | none =>
    rw [addressesIn_eq_nil (by simp [address, hbefore])] at hx
    cases hx
  | some s =>
    have hline := addressesIn_of_eq (s := before ++ address (some s) ++ ",") before.toList
      [','] (by simp [address]) hbefore (hname s rfl) (by simp [isWordChar])
    rw [hline, addressesIn_eq_nil (by simp)] at hx
    rw [List.mem_singleton.1 hx]

theorem Code.isWord_of_pointItem {l : Lookup} {n : Node} : ∀ s ∈ pointItem l n, IsWord s := by
  intro s hs
  obtain ⟨p, -, -, rfl⟩ := of_pointItem hs
  exact isWord_interfaceItem l p

/-- Functions written by hand are no addresses. -/
theorem RegisterSource.eq_of_mem_addresses_item {getter setter name : Option String} {x : String}
    (hgetter : ∀ f ∈ getter, '&' ∉ f.toList) (hsetter : ∀ f ∈ setter, '&' ∉ f.toList)
    (hname : ∀ s ∈ name, IsWord s) (hx : x ∈ addresses (item getter setter name).lines) : name = some x := by
  have hfunction : ∀ field : String, '&' ∉ field.toList → ∀ function : Option String,
      (∀ f ∈ function, '&' ∉ f.toList) →
        addresses (function.toList.map fun f => .line (field ++ f ++ ",")) = [] := by
    intro field hfield function h
    cases function with
    | none => rfl
    | some f => simp [addressesIn_eq_nil, hfield, h f rfl]
  rw [lines, addresses_append, addresses_append, hfunction _ (by simp) _ hgetter,
    hfunction _ (by simp) _ hsetter] at hx
  split at hx
  · cases hx
  · exact mem_addressesIn_address ".item = " (by simp) hname (by simpa using hx)

/-- The lines of a register with functions written by hand. -/
theorem RegisterSource.exists_of_mem_texts_item {getter setter name : Option String} {line : String}
    (h : line ∈ (item getter setter name).lines.flatMap Lines.texts) :
    (∃ f ∈ getter, line = ".getter = " ++ f ++ ",") ∨ (∃ f ∈ setter, line = ".setter = " ++ f ++ ",") ∨
      line = ".item = " ++ address name ++ "," := by
  rw [lines, List.flatMap_append, List.flatMap_append, List.mem_append, List.mem_append] at h
  rcases h with (h | h) | h
  · exact .inl (by simpa using h)
  · exact .inr (.inl (by simpa using h))
  · split at h
    · cases h
    · exact .inr (.inr (by simpa using h))

/-- How the line of an accessor begins. -/
theorem Code.accessorLine {field : String} (hfield : field ∈ [".getter = ", ".setter = "]) (x : String) :
    (field ++ x ++ ",").toList.take 3 = ['.', 'g', 'e'] ∨ (field ++ x ++ ",").toList.take 3 = ['.', 's', 'e'] := by
  simp only [List.mem_cons, List.not_mem_nil, or_false] at hfield
  rcases hfield with rfl | rfl <;> simp

theorem Code.eq_of_accessorLine {field x y : String} (hfield : field ∈ [".getter = ", ".setter = "])
    (field' : String) (hfield' : field' ∈ [".getter = ", ".setter = "])
    (h : field ++ x ++ "," = field' ++ y ++ ",") : x = y := by
  simp only [List.mem_cons, List.not_mem_nil, or_false] at hfield hfield'
  have hlist := congrArg String.toList h
  apply String.toList_inj.1
  rcases hfield with rfl | rfl <;> rcases hfield' with rfl | rfl <;> simp at hlist
  all_goals exact hlist

namespace RegisterEntry

variable {l : Lookup} {t : Tree} {base : String}

/-- The source of a register takes no address but that of the item of the point. -/
theorem pointItem_of_mem_addresses (hbase : '&' ∉ base.toList) {n : Node} {x : String}
    (hx : x ∈ addresses (sourceOf l t base n).lines) : pointItem l n = some x := by
  unfold sourceOf at hx
  split at hx
  · simp [RegisterSource.lines, addressesIn_eq_nil] at hx
  · split at hx
    · simp [RegisterSource.lines, addressesIn_eq_nil] at hx
    · refine RegisterSource.eq_of_mem_addresses_item ?_ ?_ isWord_of_pointItem hx
      all_goals
        intro f hf
        obtain ⟨-, hf⟩ := Option.ite_none_right_eq_some.1 hf
        cases hf
        simp [manualFunction, hbase]

/-- A table takes the addresses of the items of points and of their scale factors. -/
theorem exists_parameter_of_mem_addresses (hbase : '&' ∉ base.toList) {r : Register} {x : String}
    (hx : x ∈ addresses (ofRegister l t base r).lines) :
    ∃ n, (n = r.point ∨ n ∈ t.all) ∧ ∃ p, n.ref? .parameter = some p ∧ l.hasInterfaceItem p = true ∧
      x = l.interfaceItem p := by
  have hnone : addressesIn "\x7b".toList = [] ∧ addressesIn "\x7d,".toList = [] ∧
      addressesIn (".offset = " ++ Text.intText r.offset ++ ",").toList = [] ∧
      addressesIn (".size = " ++ Text.intText r.size ++ ",").toList = [] ∧
      addressesIn (".type = SUNSPEC_TYPE_" ++ upper r.type.name ++ ",").toList = [] := by
    simp [addressesIn_eq_nil]
  have hlines : x ∈ addresses (sourceOf l t base r.point).lines ∨ x ∈ addressesIn
      (".scaleFactor = " ++ address (r.factor? >>= t.find? >>= pointItem l) ++ ",").toList := by
    simpa only [lines, ofRegister, addresses_line, addresses_block, addresses_append, addresses_nil, hnone,
      List.nil_append, List.append_nil, List.mem_append] using hx
  rcases hlines with hx | hx
  · exact ⟨r.point, .inl rfl, of_pointItem (pointItem_of_mem_addresses hbase hx)⟩
  · have hname : ∀ s ∈ r.factor? >>= t.find? >>= pointItem l, IsWord s := by
      intro s hs
      obtain ⟨n, -, hn⟩ := Option.bind_eq_some_iff.1 hs
      exact isWord_of_pointItem s hn
    obtain ⟨n, hn, hitem⟩ := Option.bind_eq_some_iff.1 (mem_addressesIn_address _ (by simp) hname hx)
    obtain ⟨u, -, hfind⟩ := Option.bind_eq_some_iff.1 hn
    exact ⟨n, .inr (Tree.mem_of_find? hfind).1, of_pointItem hitem⟩

theorem of_accessorLine {n : Node} {field x : String} (hfield : field ∈ [".getter = ", ".setter = "])
    (hx : field ++ x ++ "," ∈ (sourceOf l t base n).lines.flatMap Lines.texts) :
    n.flag .notImplemented = false ∧
      ((isBitfield n.kind = true ∧
          (x = bitfieldBase t n.uuid ++ "_get" ∨ x = bitfieldBase t n.uuid ++ "_set")) ∨
        ∃ a suffix, (a, suffix) ∈ [(Attr.handCodedGetter, "get"), (Attr.handCodedSetter, "set")] ∧
          n.flag a = true ∧ x = manualFunction base n suffix) := by
  have hline := accessorLine hfield x
  unfold sourceOf at hx
  split at hx
  · simp only [RegisterSource.lines, List.flatMap_cons, List.flatMap_nil, Lines.texts_line,
      List.append_nil, List.mem_singleton] at hx
    simp [hx] at hline
  · rename_i himplemented
    refine ⟨Bool.eq_false_iff.2 himplemented, ?_⟩
    split at hx
    · rename_i hk
      refine .inl ⟨hk, ?_⟩
      simp only [RegisterSource.lines, List.flatMap_cons, List.flatMap_nil, Lines.texts_line,
        List.append_nil, List.mem_append, List.mem_singleton] at hx
      rcases hx with hx | hx
      · refine .inl (eq_of_accessorLine hfield ".getter = " (by simp) (hx.trans ?_))
        apply String.toList_inj.1
        simp
      · refine .inr (eq_of_accessorLine hfield ".setter = " (by simp) (hx.trans ?_))
        apply String.toList_inj.1
        simp
    · refine .inr ?_
      rcases RegisterSource.exists_of_mem_texts_item hx with ⟨f, hf, hx⟩ | ⟨f, hf, hx⟩ | hx
      · obtain ⟨hflag, hf⟩ := Option.ite_none_right_eq_some.1 hf
        cases hf
        exact ⟨_, _, List.mem_cons_self .., hflag, eq_of_accessorLine hfield _ (by simp) hx⟩
      · obtain ⟨hflag, hf⟩ := Option.ite_none_right_eq_some.1 hf
        cases hf
        exact ⟨_, _, List.mem_cons_of_mem _ (List.mem_cons_self ..), hflag,
          eq_of_accessorLine hfield _ (by simp) hx⟩
      · simp [hx] at hline

/-- The accessors that a table names are those of bit fields and functions written by hand. -/
theorem exists_of_namesAccessor {r : Register} {field x : String} (hfield : field ∈ [".getter = ", ".setter = "])
    (hx : field ++ x ++ "," ∈ (ofRegister l t base r).lines.flatMap Lines.texts) :
    r.point.flag .notImplemented = false ∧
      ((isBitfield r.point.kind = true ∧
          (x = bitfieldBase t r.point.uuid ++ "_get" ∨ x = bitfieldBase t r.point.uuid ++ "_set")) ∨
        ∃ a suffix, (a, suffix) ∈ [(Attr.handCodedGetter, "get"), (Attr.handCodedSetter, "set")] ∧
          r.point.flag a = true ∧ x = manualFunction base r.point suffix) := by
  have htexts : (ofRegister l t base r).lines.flatMap Lines.texts = ["\x7b",
      ".offset = " ++ Text.intText r.offset ++ ",", ".size = " ++ Text.intText r.size ++ ",",
      ".type = SUNSPEC_TYPE_" ++ upper r.type.name ++ ","] ++
      (sourceOf l t base r.point).lines.flatMap Lines.texts ++
      [".scaleFactor = " ++ address (r.factor? >>= t.find? >>= pointItem l) ++ ",", "\x7d,"] := by
    simp [lines, ofRegister]
  have hsource : field ++ x ++ "," ∈ (sourceOf l t base r.point).lines.flatMap Lines.texts := by
    have hline := accessorLine hfield x
    rw [htexts] at hx
    simp only [List.mem_append, List.mem_cons, List.not_mem_nil, or_false] at hx
    rcases hx with (hx | hx) | hx
    · rcases hx with hx | hx | hx | hx <;> simp [hx] at hline
    · exact hx
    · rcases hx with hx | hx <;> simp [hx] at hline
  exact of_accessorLine hfield hsource

end RegisterEntry

end DeviceModel
