import DeviceModel.Text.Cut
import DeviceModel.Xml.Basic

/-!
Tokens of marked-up documents. An element that is closed in its own tag has a beginning and an end like
any other; comments and instructions are no tokens. Main statement: every token takes up text.
-/

namespace DeviceModel.Xml

/-- What stands in a tag behind its name. -/
inductive TagPart
  | attribute (name value : List Char)
  /-- A name and an equals sign, but no value in quotes. -/
  | unquoted (name : List Char)
  /-- A word without an equals sign. -/
  | bare
  deriving DecidableEq, Repr

/-- One form for the ends of lines. -/
def normalizeLines : List Char → List Char
  | '\r' :: '\n' :: cs | '\r' :: '\u0085' :: cs => '\n' :: normalizeLines cs
  | c :: cs =>
    (if c = '\r' ∨ c = '\u0085' ∨ c = '\u2028' then '\n' else c) :: normalizeLines cs
  | [] => []

theorem length_dropWhile_le (p : Char → Bool) (cs : List Char) :
    (cs.dropWhile p).length ≤ cs.length := by
  induction cs with
  | nil => simp
  | cons c cs ih =>
    simp only [List.dropWhile]
    split
    · simp only [List.length_cons]; omega
    · simp

def inName (c : Char) : Bool := c ≠ '=' && !isSpace c

/-- The parts of a tag. Behind a part that is no attribute, reading goes on at the next word. -/
def tagParts (cs : List Char) : List TagPart :=
  match _hs : cs.dropWhile isSpace with
  | [] => []
  | c :: ds =>
    let name := c :: ds.takeWhile inName
    match _he : (ds.dropWhile inName).dropWhile isSpace with
    | '=' :: es =>
      match _hv : es.dropWhile isSpace with
      | [] => [.unquoted name]
      | q :: vs =>
        if q = '"' ∨ q = '\'' then
          match _hq : Text.cut? [q] vs with
          | some (value, rest) => .attribute name value :: tagParts rest
          | none => [.unquoted name]
        else .unquoted name :: tagParts (vs.dropWhile (!isSpace ·))
    | rest => .bare :: tagParts rest
termination_by cs.length
decreasing_by
  all_goals
    have h₁ := length_dropWhile_le isSpace cs
    have h₂ := length_dropWhile_le isSpace (ds.dropWhile inName)
    have h₃ := length_dropWhile_le inName ds
    rw [_hs] at h₁
    rw [_he] at h₂
    simp only [List.length_cons] at *
  · have h₄ := length_dropWhile_le isSpace es
    have h₅ := Text.length_of_cut? _hq
    rw [_hv] at h₄
    simp only [List.length_cons] at *
    omega
  · have h₄ := length_dropWhile_le isSpace es
    have h₅ := length_dropWhile_le (!isSpace ·) vs
    rw [_hv] at h₄
    simp only [List.length_cons] at *
    omega
  · omega

namespace TagPart

def attribute? : TagPart → Option (List Char × List Char)
  | .attribute name value => some (name, value)
  | .unquoted _ | .bare => none

/-- The attributes in front of the first part that is none. -/
def leading : List TagPart → List (List Char × List Char)
  | .attribute name value :: ps => (name, value) :: leading ps
  | _ => []

/-- The attributes whose name no part before them has. -/
def first (seen : List (List Char)) : List TagPart → List (List Char × List Char)
  | [] => []
  | .attribute name value :: ps =>
    if name ∈ seen then first seen ps else (name, value) :: first (name :: seen) ps
  | .unquoted name :: ps => first (name :: seen) ps
  | .bare :: ps => first seen ps

end TagPart

/-- The attributes of a tag, which must hold nothing else and none of them twice. -/
def attributes? (ps : List TagPart) : Option (List Attribute) := do
  let pairs ← ps.mapM TagPart.attribute?
  if (pairs.map (·.1)).Nodup then
    some (pairs.map fun (k, v) => ⟨String.ofList k, String.ofList v⟩)
  else none

/-- The inside of a tag, up to the bracket that no quotes enclose. -/
def tag? (quote : Option Char) : List Char → Option (List Char × List Char)
  | [] => none
  | c :: cs =>
    if quote.isNone && c == '>' then some ([], cs)
    else
      let quote := if quote == some c then none
        else if quote.isNone && (c == '"' || c == '\'') then some c
        else quote
      (tag? quote cs).map fun (inside, rest) => (c :: inside, rest)

theorem length_of_tag? {quote : Option Char} {cs inside rest : List Char}
    (h : tag? quote cs = some (inside, rest)) : rest.length < cs.length := by
  induction cs generalizing quote inside with
  | nil => cases h
  | cons c cs ih =>
    simp only [tag?] at h
    split at h
    · cases h; simp
    · simp only [Option.map_eq_some_iff, Prod.mk.injEq] at h
      obtain ⟨⟨n, r⟩, hr, rfl, rfl⟩ := h
      have : r.length < cs.length := ih hr
      simp only [List.length_cons]
      omega

/-- What follows a document type, with brackets in it in pairs. -/
def afterDocumentType? (depth : Nat) : List Char → Option (List Char)
  | [] => none
  | '<' :: cs => afterDocumentType? (depth + 1) cs
  | '>' :: cs => if depth = 0 then some cs else afterDocumentType? (depth - 1) cs
  | _ :: cs => afterDocumentType? depth cs

theorem length_of_afterDocumentType? {depth : Nat} {cs rest : List Char}
    (h : afterDocumentType? depth cs = some rest) : rest.length < cs.length := by
  fun_induction afterDocumentType? depth cs with
  | case1 => cases h
  | case2 depth cs ih => have := ih h; simp only [List.length_cons]; omega
  | case3 cs => cases h; simp
  | case4 depth cs _ ih => have := ih h; simp only [List.length_cons]; omega
  | case5 depth c cs _ _ ih => have := ih h; simp only [List.length_cons]; omega

inductive Token
  | start (name : List Char) (parts : List TagPart)
  | stop
  /-- A piece of text; none for a reference to nothing known. -/
  | text (s : Option (List Char))
  | documentType
  deriving DecidableEq, Repr

namespace Token

def isText : Token → Bool
  | .text _ => true
  | _ => false

/-- What may stand in front of the outermost element. -/
def isBlank : Token → Bool
  | .text (some s) => s.all isSpace
  | .documentType => true
  | _ => false

end Token

/-- What the text of a document is cut into. -/
inductive Cut
  | token (t : Token)
  | passed
  | opening (name : List Char) (parts : List TagPart) (closed : Bool)
  | closing (name : List Char)

/-- The tag with `inside` between its brackets. -/
def openingOf (inside : List Char) : Cut :=
  let closed := inside.getLast? == some '/'
  let inside := if closed then inside.dropLast else inside
  .opening (inside.takeWhile (!isSpace ·)) (tagParts (inside.dropWhile (!isSpace ·))) closed

/-- The document type, which must have a name. -/
def documentType? (cs : List Char) : Option (List Char) :=
  match cs.dropWhile isSpace with
  | '>' :: _ | [] => none
  | _ => afterDocumentType? 0 cs

theorem length_of_documentType? {cs rest : List Char} (h : documentType? cs = some rest) :
    rest.length < cs.length := by
  unfold documentType? at h
  split at h
  · cases h
  · cases h
  · exact length_of_afterDocumentType? h

/-- The words with which markup begins, whatever their case. -/
def keyword? (word : String) (cs : List Char) : Option (List Char) :=
  let n := word.length
  if (cs.take n).map Char.toUpper = word.toList then some (cs.drop n) else none

/-- The next cut and what follows it. -/
def next? : List Char → Option (Cut × List Char)
  | '<' :: '?' :: cs => (Text.cut? ['?', '>'] cs).map fun (_, rest) => (.passed, rest)
  | '<' :: '/' :: cs => (Text.cut? ['>'] cs).map fun (name, rest) =>
      (.closing (name.reverse.dropWhile isSpace).reverse, rest)
  | '<' :: '!' :: '-' :: '-' :: cs =>
    (Text.cut? ['-', '-', '>'] cs).map fun (_, rest) => (.passed, rest)
  | '<' :: '!' :: cs =>
    match keyword? "[CDATA[" cs with
    | some cs => (Text.cut? [']', ']', '>'] cs).map fun (s, rest) =>
        (.token (.text (some (normalizeLines s))), rest)
    | none => (keyword? "DOCTYPE" cs >>= documentType?).map fun rest => (.token .documentType, rest)
  | '<' :: cs => (tag? none cs).map fun (inside, rest) => (openingOf inside, rest)
  | '&' :: cs => (referenceName? cs).map fun (name, rest) =>
      (.token (.text ((resolve? name).map ([·]))), rest)
  | c :: cs =>
    let more := cs.takeWhile fun d => d ≠ '<' && d ≠ '&'
    some (.token (.text (some (normalizeLines (c :: more)))),
      cs.dropWhile fun d => d ≠ '<' && d ≠ '&')
  | [] => none

theorem length_of_keyword? {word : String} {cs rest : List Char} (h : keyword? word cs = some rest) :
    rest.length ≤ cs.length := by
  unfold keyword? at h
  simp only at h
  split at h
  · cases h; simp
  · cases h

theorem length_of_next? {cs rest : List Char} {t : Cut} (h : next? cs = some (t, rest)) :
    rest.length < cs.length := by
  unfold next? at h
  split at h
  · simp only [Option.map_eq_some_iff, Prod.mk.injEq] at h
    obtain ⟨⟨a, b⟩, hc, -, rfl⟩ := h
    have := Text.length_of_cut? hc
    simp only [List.length_cons]; omega
  · simp only [Option.map_eq_some_iff, Prod.mk.injEq] at h
    obtain ⟨⟨a, b⟩, hc, -, rfl⟩ := h
    have := Text.length_of_cut? hc
    simp only [List.length_cons]; omega
  · simp only [Option.map_eq_some_iff, Prod.mk.injEq] at h
    obtain ⟨⟨a, b⟩, hc, -, rfl⟩ := h
    have := Text.length_of_cut? hc
    simp only [List.length_cons]; omega
  · split at h
    · rename_i hk
      simp only [Option.map_eq_some_iff, Prod.mk.injEq] at h
      obtain ⟨⟨a, b⟩, hc, -, rfl⟩ := h
      have := Text.length_of_cut? hc
      have := length_of_keyword? hk
      simp only [List.length_cons]; omega
    · simp only [Option.map_eq_some_iff, Prod.mk.injEq, Option.bind_eq_bind,
        Option.bind_eq_some_iff] at h
      obtain ⟨b, ⟨d, hk, hd⟩, -, rfl⟩ := h
      have := length_of_keyword? hk
      have := length_of_documentType? hd
      simp only [List.length_cons]; omega
  · simp only [Option.map_eq_some_iff, Prod.mk.injEq] at h
    obtain ⟨⟨a, b⟩, hc, -, rfl⟩ := h
    have := length_of_tag? hc
    simp only [List.length_cons]; omega
  · simp only [Option.map_eq_some_iff, Prod.mk.injEq] at h
    obtain ⟨⟨a, b⟩, hr, -, rfl⟩ := h
    have := length_of_referenceName? hr
    simp only [List.length_cons]; omega
  · cases h
    have := length_dropWhile_le (fun d => d ≠ '<' && d ≠ '&') (by assumption)
    simp only [List.length_cons]; omega
  · cases h

/-- The tokens up to the end of the outermost element, with the names of the elements in `opened`
around the place that is reached. What follows that end is not looked at. -/
def tokens? (opened : List (List Char)) (cs : List Char) : Option (List Token) :=
  match _cut : next? cs with
  | none => none
  | some (.passed, rest) => tokens? opened rest
  | some (.token t, rest) => (tokens? opened rest).map (t :: ·)
  | some (.opening name parts closed, rest) =>
    if !closed then (tokens? (name :: opened) rest).map (.start name parts :: ·)
    else if opened.isEmpty then some [.start name parts, .stop]
    else (tokens? opened rest).map fun ts => .start name parts :: .stop :: ts
  | some (.closing name, rest) =>
    match opened with
    | [] => none
    | o :: os =>
      if o ≠ name then none
      else if os.isEmpty then some [.stop]
      else (tokens? os rest).map (.stop :: ·)
termination_by cs.length
decreasing_by all_goals exact length_of_next? _cut

/-- The tokens of a document, without a byte order mark. -/
def tokensOf? (s : String) : Option (List Token) :=
  match s.toList with
  | '\ufeff' :: cs => tokens? [] cs
  | cs => tokens? [] cs

end DeviceModel.Xml
