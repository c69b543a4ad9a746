import DeviceModel.Proofs.Lists
import DeviceModel.Proofs.Text.Digits
import DeviceModel.Proofs.Xml.Tokens
import DeviceModel.Smdx.Reader
import DeviceModel.Smdx.Writer

/-!
Models that are written as documents and read again. Main statements: what is read is the model that was
written but for its texts, unless a scale factor is neither a constant nor a point
(`Model.ofDocument_toDocument`), and a model that was read from a document comes back as it was
(`Model.ofText_text_of_ofText`).
-/

namespace DeviceModel.Smdx

/-! ### Texts -/

theorem trimmed_trimmed (s : Option String) : trimmed (trimmed s) = trimmed s := by
  cases s with
  | none => rfl
  | some s =>
    by_cases h : Text.trim s = ""
    · simp [trimmed, Option.filter, h]
    · simp [trimmed, Option.filter, h, Text.trim_trim]

theorem Texts.trimmed_trimmed (t : Texts) : t.trimmed.trimmed = t.trimmed := by
  simp only [Texts.trimmed, Smdx.trimmed_trimmed]

theorem trimmed_textsFor (es : List Document.Entry) (id : String) :
    (textsFor es id).trimmed = textsFor es id := by
  unfold textsFor
  cases es.reverse.find? (·.id == id) with
  | none => rfl
  | some e => exact e.texts.trimmed_trimmed

/-- The texts under an id that all its entries share. -/
theorem textsFor_eq {es : List Document.Entry} {id : String} {t : Texts}
    (hid : ∃ e ∈ es, e.id = id) (ht : ∀ e ∈ es, e.id = id → e.texts = t) :
    textsFor es id = t.trimmed := by
  unfold textsFor
  cases hfind : es.reverse.find? (·.id == id) with
  | none =>
    obtain ⟨e, he, hu⟩ := hid
    exact absurd (beq_iff_eq.2 hu) (by simpa using List.find?_eq_none.1 hfind e (List.mem_reverse.2 he))
  | some e =>
    have he := List.mem_reverse.1 (List.mem_of_find?_eq_some hfind)
    have hu : e.id = id := by simpa using List.find?_some hfind
    simp [ht e he hu]

/-! ### The first symbol of each id -/

theorem firstOfEach_append (ss : List Symbol) (s : Symbol) : firstOfEach (ss ++ [s]) =
    if (firstOfEach ss).any (·.id == s.id) then firstOfEach ss else firstOfEach ss ++ [s] := by
  rw [firstOfEach, List.foldl_append]
  rfl

theorem mem_of_mem_firstOfEach {ss : List Symbol} {s : Symbol} (h : s ∈ firstOfEach ss) : s ∈ ss := by
  induction ss using List.reverseRecOn with
  | nil => cases h
  | append_singleton ss r ih =>
    rw [firstOfEach_append] at h
    split at h
    · exact List.mem_append_left _ (ih h)
    · rcases List.mem_append.1 h with h | h
      · exact List.mem_append_left _ (ih h)
      · exact List.mem_append_right _ h

theorem exists_mem_firstOfEach {ss : List Symbol} {s : Symbol} (h : s ∈ ss) :
    ∃ r ∈ firstOfEach ss, r.id = s.id := by
  induction ss using List.reverseRecOn with
  | nil => cases h
  | append_singleton ss r ih =>
    rw [firstOfEach_append]
    split
    · rename_i hany
      rcases List.mem_append.1 h with h | h
      · exact ih h
      · rw [List.mem_singleton.1 h]
        obtain ⟨q, hq, hid⟩ := List.any_eq_true.1 hany
        exact ⟨q, hq, by simpa using hid⟩
    · rcases List.mem_append.1 h with h | h
      · exact (ih h).imp fun _ => And.imp_left (List.mem_append_left _)
      · exact ⟨r, List.mem_append_right _ (List.mem_singleton_self r), by rw [List.mem_singleton.1 h]⟩

/-! ### What is read of what was written -/

/-- The symbol with the texts that its id has. -/
def Symbol.retexted (symbols : String → Texts) (s : Symbol) : Symbol := { s with texts := symbols s.id }

/-- The point with the texts that its id and those of its symbols have. -/
def Point.retexted (points symbols : String → Texts) (p : Point) : Point :=
  { p with texts := points p.id, symbols := p.symbols.map (Symbol.retexted symbols) }

def Block.retexted (points symbols : String → Texts) (b : Block) : Block :=
  { b with points := b.points.map (Point.retexted points symbols) }

/-- The values of the symbols have 64 bits. -/
def Point.HasWords (p : Point) : Prop := ∀ s ∈ p.symbols, Text.is64 s.value = true

variable {points symbols : List Document.Entry} {next : Int}

theorem Symbol.ofDocument_toDocument {s : Symbol} (h : Text.is64 s.value = true) (point : String) :
    Symbol.ofDocument symbols point s.toDocument = .ok (s.retexted (textsFor symbols)) := by
  simp only [ofDocument, toDocument, Text.trimChars_intText, Text.readInt?_intText h, retexted]

theorem symbols_toDocument {ss : List Symbol} (h : ∀ s ∈ ss, Text.is64 s.value = true) (point : String) :
    (ss.map Symbol.toDocument).mapM (Symbol.ofDocument symbols point) =
      .ok (ss.map (Symbol.retexted (textsFor symbols))) := by
  induction ss with
  | nil => rfl
  | cons s ss ih =>
    obtain ⟨hs, hss⟩ := List.forall_mem_cons.1 h
    rw [List.map_cons, List.mapM_cons, Symbol.ofDocument_toDocument hs, ih hss]
    rfl

theorem sizeOf_toDocument (p : Point) : sizeOf p.toDocument p.type = .ok p.size := by
  by_cases h : p.type.registers? = some p.size
  · simp [sizeOf, Point.toDocument, h]
  · simp [sizeOf, Point.toDocument, h]

theorem Point.ofDocument_toDocument {p : Point} (h : p.HasWords) :
    Point.ofDocument points symbols next p.toDocument =
      .ok (p.retexted (textsFor points) (textsFor symbols)) := by
  have htype : PointType.ofName? p.toDocument.type = some p.type := PointType.ofName?_name p.type
  have hsymbols : p.toDocument.symbols.mapM (Symbol.ofDocument symbols p.toDocument.id) =
      .ok (p.symbols.map (Symbol.retexted (textsFor symbols))) := symbols_toDocument h p.id
  have haccess : (p.toDocument.access == some "rw" || p.toDocument.access == some "RW") = p.writable := by
    cases hp : p.writable <;> simp [toDocument, hp]
  have hmandatory :
      (p.toDocument.mandatory == some "true" || p.toDocument.mandatory == some "M") = p.mandatory := by
    cases hp : p.mandatory <;> simp [toDocument, hp]
  simp only [ofDocument, htype, sizeOf_toDocument, hsymbols, haccess, hmandatory, bind, Except.bind]
  rfl

theorem pointsOf_toDocument (points symbols : List Document.Entry) (next : Int) {ps : List Point}
    (h : ∀ p ∈ ps, p.HasWords) :
    ∃ next', pointsOf points symbols next (ps.map Point.toDocument) =
      .ok (ps.map (Point.retexted (textsFor points) (textsFor symbols)), next') := by
  induction ps generalizing next with
  | nil => exact ⟨next, rfl⟩
  | cons p ps ih =>
    obtain ⟨hp, hps⟩ := List.forall_mem_cons.1 h
    obtain ⟨next', hrest⟩ := ih (p.offset + p.size) hps
    refine ⟨next', ?_⟩
    rw [List.map_cons, pointsOf, Point.ofDocument_toDocument hp]
    simp only [bind, Except.bind, Point.retexted] at hrest ⊢
    rw [hrest]
    rfl

theorem blocksOf_toDocument {bs : List Block} (h : ∀ b ∈ bs, ∀ p ∈ b.points, p.HasWords) :
    blocksOf points symbols next (bs.map Block.toDocument) =
      .ok (bs.map (Block.retexted (textsFor points) (textsFor symbols))) := by
  induction bs generalizing next with
  | nil => rfl
  | cons b bs ih =>
    obtain ⟨hb, hbs⟩ := List.forall_mem_cons.1 h
    obtain ⟨next', hpoints⟩ := pointsOf_toDocument points symbols next hb
    have hrepeating : (b.toDocument.type == some "repeating") = b.repeating := by
      cases hr : b.repeating <;> simp [Block.toDocument, hr]
    rw [List.map_cons, blocksOf]
    simp only [bind, Except.bind, show b.toDocument.points = b.points.map Point.toDocument from rfl, hpoints,
      hrepeating, ih hbs]
    rfl

/-- The document of characters whose tokens are found within `n` cuts. -/
def Document.ofCharsWithin? (n : Nat) (cs : List Char) : Option Document :=
  Xml.Element.ofCharsWithin? n pattern cs >>= ofElement?

theorem Document.ofText?_of_ofCharsWithin? {n : Nat} {s : String} {d : Document}
    (hmark : s.toList.head? ≠ some '\ufeff') (h : ofCharsWithin? n s.toList = some d) :
    ofText? s = some d := by
  obtain ⟨e, he, hd⟩ := Option.bind_eq_some_iff.1 h
  rw [ofText?, Xml.Element.ofText?_of_ofCharsWithin? hmark he]
  exact hd

namespace Model

theorem ofText?_text {n : Nat} {m : Model} {d : Document}
    (h : Document.ofCharsWithin? n m.toDocument.toElement.documentChars = some d) :
    Document.ofText? m.text = some d :=
  Document.ofText?_of_ofCharsWithin? (Xml.Element.head?_document_ne _)
    ((Xml.Element.toList_document _).symm ▸ h)

/-- The texts that a point's id has in the document of a model. -/
def pointTexts (m : Model) : String → Texts := textsFor m.strings.points

def symbolTexts (m : Model) : String → Texts := textsFor m.strings.symbols

/-- The model with the texts of its document, which has one for each id. -/
def reread (m : Model) : Model :=
  { m with texts := m.texts.trimmed, blocks := m.blocks.map (Block.retexted m.pointTexts m.symbolTexts) }

theorem points_reread (m : Model) :
    m.reread.points = m.points.map (Point.retexted m.pointTexts m.symbolTexts) := by
  simp only [points, reread, List.flatMap_map, List.map_flatMap]
  rfl

theorem point?_isSome (m : Model) (id : String) : (m.point? id).isSome = m.points.any (·.id == id) := by
  rw [Bool.eq_iff_iff, point?, List.find?_isSome, List.any_eq_true]

theorem danglingFactor?_reread (m : Model) : m.reread.danglingFactor? = m.danglingFactor? := by
  have hpoint : ∀ id, (m.reread.point? id).isSome = (m.point? id).isSome := by
    intro id
    rw [point?_isSome, point?_isSome, points_reread, List.any_map]
    rfl
  simp only [danglingFactor?, hpoint]
  rw [points_reread, List.findSome?_map]
  rfl

/-- A model that is written and read again keeps all but its texts, and is refused for a scale factor that
is neither a constant nor a point of it. -/
theorem ofDocument_toDocument {m : Model} (h : ∀ p ∈ m.points, p.HasWords) :
    ofDocument m.toDocument = match m.danglingFactor? with
      | some (p, sf) => .error (.unknownScaleFactor p sf)
      | none => .ok m.reread := by
  have hblocks : ∀ b ∈ m.blocks, ∀ p ∈ b.points, p.HasWords := fun b hb p hp =>
    h p (List.mem_flatMap.2 ⟨b, hb, hp⟩)
  rw [← danglingFactor?_reread]
  simp only [ofDocument, toDocument, blocksOf_toDocument hblocks, bind, Except.bind]
  rfl

end Model

/-! ### Models that were read -/

/-- The texts of a point and its symbols are those of their ids. -/
structure Point.TextsOf (points symbols : List Document.Entry) (p : Point) : Prop where
  texts : p.texts = textsFor points p.id
  symbols : ∀ s ∈ p.symbols, s.texts = textsFor symbols s.id
  words : p.HasWords

theorem Symbol.texts_of_ofDocument {point : String} {d : Document.Symbol} {s : Symbol}
    (h : Symbol.ofDocument symbols point d = .ok s) :
    s.texts = textsFor symbols s.id ∧ Text.is64 s.value = true := by
  unfold ofDocument at h
  split at h
  · rename_i hread
    cases h
    exact ⟨rfl, Text.is64_of_readInt? hread⟩
  · cases h

theorem Point.textsOf_of_ofDocument {d : Document.Point} {p : Point}
    (h : Point.ofDocument points symbols next d = .ok p) : p.TextsOf points symbols := by
  unfold ofDocument at h
  split at h
  · cases h
  · obtain ⟨size, -, h⟩ := bind_eq_ok_iff.1 h
    obtain ⟨ss, hss, rfl⟩ := return_eq_ok_iff.1 h
    have hread : ∀ s ∈ ss, s.texts = textsFor symbols s.id ∧ Text.is64 s.value = true := by
      intro s hs
      obtain ⟨d', -, hd'⟩ := (mem_mapM_iff hss).1 hs
      exact Symbol.texts_of_ofDocument hd'
    exact ⟨rfl, fun s hs => (hread s hs).1, fun s hs => (hread s hs).2⟩

theorem textsOf_of_pointsOf {ds : List Document.Point} {ps : List Point} {next' : Int}
    (h : pointsOf points symbols next ds = .ok (ps, next')) : ∀ p ∈ ps, p.TextsOf points symbols := by
  induction ds generalizing next ps next' with
  | nil => cases h; exact fun _ hp => (List.not_mem_nil hp).elim
  | cons d ds ih =>
    obtain ⟨p, hp, h⟩ := bind_eq_ok_iff.1 h
    obtain ⟨⟨qs, n⟩, hqs, h⟩ := bind_eq_ok_iff.1 h
    cases h
    exact List.forall_mem_cons.2 ⟨Point.textsOf_of_ofDocument hp, ih hqs⟩

theorem textsOf_of_blocksOf {ds : List Document.Block} {bs : List Block}
    (h : blocksOf points symbols next ds = .ok bs) : ∀ b ∈ bs, ∀ p ∈ b.points, p.TextsOf points symbols := by
  induction ds generalizing next bs with
  | nil => cases h; exact fun _ hb => (List.not_mem_nil hb).elim
  | cons d ds ih =>
    obtain ⟨⟨ps, n⟩, hps, h⟩ := bind_eq_ok_iff.1 h
    obtain ⟨cs, hcs, rfl⟩ := return_eq_ok_iff.1 h
    exact List.forall_mem_cons.2 ⟨textsOf_of_pointsOf hps, ih hcs⟩

theorem Point.retexted_eq {p : Point} {ps ss : String → Texts} (hp : ps p.id = p.texts)
    (hs : ∀ s ∈ p.symbols, ss s.id = s.texts) : p.retexted ps ss = p := by
  have hsymbols : p.symbols.map (Symbol.retexted ss) = p.symbols := by
    conv_rhs => rw [← List.map_id p.symbols]
    exact List.map_congr_left fun s h => by simp [Symbol.retexted, hs s h]
  simp [retexted, hp, hsymbols]

namespace Model

variable {m : Model}

theorem pointTexts_eq (h : ∀ p ∈ m.points, p.TextsOf points symbols) {p : Point} (hp : p ∈ m.points) :
    m.pointTexts p.id = p.texts := by
  have hshared : ∀ e ∈ m.strings.points, e.id = p.id → e.texts = p.texts := by
    intro e he hid
    obtain ⟨q, hq, rfl⟩ := List.mem_map.1 he
    rw [(h p hp).texts, (h q hq).texts, show q.id = p.id from hid]
  have htexts : textsFor m.strings.points p.id = p.texts.trimmed :=
    textsFor_eq ⟨_, List.mem_map.2 ⟨p, hp, rfl⟩, rfl⟩ hshared
  rw [pointTexts, htexts, (h p hp).texts, trimmed_textsFor]

theorem symbolTexts_eq (h : ∀ p ∈ m.points, p.TextsOf points symbols) {p : Point} (hp : p ∈ m.points)
    {s : Symbol} (hs : s ∈ p.symbols) : m.symbolTexts s.id = s.texts := by
  have hall : ∀ r ∈ m.points.flatMap (·.symbols), r.texts = textsFor symbols r.id := by
    intro r hr
    obtain ⟨q, hq, hr⟩ := List.mem_flatMap.1 hr
    exact (h q hq).symbols r hr
  have hs' := List.mem_flatMap.2 ⟨p, hp, hs⟩
  obtain ⟨r, hr, hid⟩ := exists_mem_firstOfEach hs'
  have hshared : ∀ e ∈ m.strings.symbols, e.id = s.id → e.texts = s.texts := by
    intro e he hid
    obtain ⟨q, hq, rfl⟩ := List.mem_map.1 he
    rw [hall s hs', hall q (mem_of_mem_firstOfEach hq), show q.id = s.id from hid]
  have htexts : textsFor m.strings.symbols s.id = s.texts.trimmed :=
    textsFor_eq ⟨_, List.mem_map.2 ⟨r, hr, rfl⟩, hid⟩ hshared
  rw [symbolTexts, htexts, hall s hs', trimmed_textsFor]

theorem reread_eq (htexts : m.texts.trimmed = m.texts) (h : ∀ p ∈ m.points, p.TextsOf points symbols) :
    m.reread = m := by
  have hblock : ∀ b ∈ m.blocks, b.retexted m.pointTexts m.symbolTexts = b := by
    intro b hb
    have hpoints : b.points.map (Point.retexted m.pointTexts m.symbolTexts) = b.points := by
      conv_rhs => rw [← List.map_id b.points]
      refine List.map_congr_left fun p hp => ?_
      have hp : p ∈ m.points := List.mem_flatMap.2 ⟨b, hb, hp⟩
      exact Point.retexted_eq (pointTexts_eq h hp) fun s hs => symbolTexts_eq h hp hs
    simp [Block.retexted, hpoints]
  have hblocks : m.blocks.map (Block.retexted m.pointTexts m.symbolTexts) = m.blocks := by
    conv_rhs => rw [← List.map_id m.blocks]
    exact List.map_congr_left hblock
  simp [reread, htexts, hblocks]

/-- A model with the texts of ids is read from its document as it is. -/
theorem ofDocument_toDocument_of_textsOf (htexts : m.texts.trimmed = m.texts)
    (h : ∀ p ∈ m.points, p.TextsOf points symbols) (hfactor : m.danglingFactor? = none) :
    ofDocument m.toDocument = .ok m := by
  rw [ofDocument_toDocument fun p hp => (h p hp).words, hfactor, reread_eq htexts h]

/-- A model that was read is written as a document that is read as the same model. -/
theorem ofDocument_toDocument_of_ofDocument {d : Document} (h : ofDocument d = .ok m) :
    ofDocument m.toDocument = .ok m := by
  obtain ⟨blocks, hblocks, h⟩ := bind_eq_ok_iff.1 h
  have htexts := textsOf_of_blocksOf hblocks
  dsimp only at h
  split at h
  · cases h
  · rename_i hfactor
    cases h
    refine ofDocument_toDocument_of_textsOf ?_ (List.forall_mem_flatMap.2 htexts) hfactor
    dsimp only
    cases ((d.strings.find? (·.locale == "en")).or d.strings.head?) >>= (·.model) with
    | none => rfl
    | some t => exact t.trimmed_trimmed

/-- A model that was read from a text is written as a text that is read as the same model, where that
text is read as the document that was written. -/
theorem ofText_text_of_ofText {x : String} (h : ofText x = .ok m)
    (hraw : Document.ofText? m.text = some m.toDocument) : ofText m.text = .ok m := by
  unfold ofText at h
  split at h
  · rw [ofText, hraw]
    exact ofDocument_toDocument_of_ofDocument h
  · cases h

/-- Two points, one of them with the scale factor of the other. -/
def pairText : String :=
  "<sunSpecModels><model id=\"7\"><block><point id=\"P\" type=\"int16\" sf=\"S\"/>" ++
    "<point id=\"S\" type=\"sunssf\"/></block></model></sunSpecModels>"

def pairDocument : Document where
  version := ""
  model := {
    id := 7
    length := none
    name := none
    blocks := [{
      type := none
      length := none
      name := none
      points := [⟨"P", none, "int16", none, some "S", none, none, none, []⟩,
        ⟨"S", none, "sunssf", none, none, none, none, none, []⟩] }] }
  strings := []

/-- The model of `pairText`. -/
def pairModel : Model where
  id := 7
  name := "model_7"
  length := 2
  texts := {}
  blocks := [{
    repeating := false
    name := none
    length := 2
    points := [
      { id := "P", type := .int16, scaleFactor := some "S" }, { id := "S", offset := 1, type := .sunssf }] }]

theorem ofText_pairText : ofText pairText = .ok pairModel := by
  have hdocument : Document.ofText? pairText = some pairDocument :=
    Document.ofText?_of_ofCharsWithin? (n := 8) (by decide +kernel) (by decide +kernel)
  rw [ofText, hdocument]
  decide +kernel

theorem ofText_text_of_ofText_pairModel :
    (∃ x, ofText x = .ok pairModel) ∧ Document.ofText? pairModel.text = some pairModel.toDocument ∧
      ofText pairModel.text = .ok pairModel := by
  have hraw : Document.ofText? pairModel.text = some pairModel.toDocument :=
    ofText?_text (n := 30) (by decide +kernel)
  exact ⟨⟨pairText, ofText_pairText⟩, hraw, ofText_text_of_ofText ofText_pairText hraw⟩

end Model

end DeviceModel.Smdx
