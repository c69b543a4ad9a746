import DeviceModel.Xml.Basic
import DeviceModel.Xml.Reader

/-!
Tokens by the number of cuts that yield them. Main statement: what is found within any number of cuts are
the tokens of the text (`tokens?_of_tokensWithin`).
-/

namespace DeviceModel.Xml

/-- `tokens?`, with at most so many cuts. -/
def tokensWithin : Nat → List (List Char) → List Char → Option (List Token)
  | 0, _, _ => none
  | n + 1, opened, cs =>
    match next? cs with
    | none => none
    | some (.passed, rest) => tokensWithin n opened rest
    | some (.token t, rest) => (tokensWithin n opened rest).map (t :: ·)
    | some (.opening name parts closed, rest) =>
      if !closed then (tokensWithin n (name :: opened) rest).map (.start name parts :: ·)
      else if opened.isEmpty then some [.start name parts, .stop]
      else (tokensWithin n opened rest).map fun ts => .start name parts :: .stop :: ts
    | some (.closing name, rest) =>
      match opened with
      | [] => none
      | o :: os =>
        if o ≠ name then none
        else if os.isEmpty then some [.stop]
        else (tokensWithin n os rest).map (.stop :: ·)

theorem tokens?_of_tokensWithin {n : Nat} {opened : List (List Char)} {cs : List Char} {ts : List Token}
    (h : tokensWithin n opened cs = some ts) : tokens? opened cs = some ts := by
  induction n generalizing opened cs ts with
  | zero => cases h
  | succ n ih =>
    have hmap : ∀ {opened rest ts} {f : List Token → List Token},
        (tokensWithin n opened rest).map f = some ts → (tokens? opened rest).map f = some ts := by
      intro opened rest ts f h
      obtain ⟨us, hus, rfl⟩ := Option.map_eq_some_iff.1 h
      rw [ih hus, Option.map_some]
    rw [tokens?]
    rw [tokensWithin] at h
    split at h <;> rename_i hcut <;> rw [hcut]
    · cases h
    · exact ih h
    · exact hmap h
    · split at h <;> rename_i hclosed
      · exact (if_pos hclosed).trans (hmap h)
      · refine (if_neg hclosed).trans ?_
        split at h <;> rename_i houter
        · exact (if_pos houter).trans h
        · exact (if_neg houter).trans (hmap h)
    · cases opened with
      | nil => cases h
      | cons o os =>
        dsimp only at h ⊢
        split at h <;> rename_i hname
        · cases h
        · refine (if_neg hname).trans ?_
          split at h <;> rename_i houter
          · exact (if_pos houter).trans h
          · exact (if_neg houter).trans (hmap h)

/-! ### The characters of what is written -/

def attributeChars (a : Attribute) : List Char :=
  ' ' :: a.name.toList ++ ['=', '"'] ++ a.written.toList ++ ['"']

def newlineChars (depth : Nat) : List Char := '\n' :: List.replicate (2 * depth) ' '

theorem toList_attributeTexts (as : List Attribute) :
    (as.map attributeText).flatMap String.toList = as.flatMap attributeChars := by
  rw [List.flatMap_map]
  exact congrArg (List.flatMap · as) (funext fun a => by simp [attributeText, attributeChars])

theorem toList_newline (depth : Nat) : (newline depth).toList = newlineChars depth := by
  simp [newline, newlineChars]

namespace Item

/-- `write`, character by character. -/
def chars (depth : Nat) : Item → List Char
  | .text s => s.toList.flatMap escapeText
  | .element n as c =>
    let head := '<' :: n.toList ++ as.flatMap attributeChars
    if c.isEmpty then head ++ ['/', '>']
    else head ++ ['>'] ++ inside depth c ++ ['<', '/'] ++ n.toList ++ ['>']
where
  inside (depth : Nat) : List Item → List Char
    | [] => []
    | i@(.text _) :: is => chars (depth + 1) i ++ inside depth is
    | [i@(.element ..)] => newlineChars (depth + 1) ++ chars (depth + 1) i ++ newlineChars depth
    | i@(.element ..) :: is => newlineChars (depth + 1) ++ chars (depth + 1) i ++ inside depth is

mutual

theorem toList_write (depth : Nat) : (i : Item) → (i.write depth).toList = i.chars depth
  | .text s => by simp [write, chars, escaped]
  | .element n as c => by
    simp only [write, chars]
    split <;> simp [toList_attributeTexts, toList_inside depth c]

theorem toList_inside (depth : Nat) :
    (is : List Item) → (write.inside depth is).toList = chars.inside depth is
  | [] => by simp [write.inside, chars.inside]
  | .text s :: is => by
    simp [write.inside, chars.inside, toList_write (depth + 1) (.text s), toList_inside depth is]
  | [.element n as c] => by
    simp [write.inside, chars.inside, toList_newline, toList_write (depth + 1) (.element n as c)]
  | .element n as c :: i :: is => by
    simp [write.inside, chars.inside, toList_newline, toList_write (depth + 1) (.element n as c),
      toList_inside depth (i :: is)]

end

end Item

namespace Element

def documentChars (e : Element) : List Char :=
  "<?xml version=\"1.0\" encoding=\"UTF-8\"?>\n".toList ++ e.item.chars 0 ++ "\n".toList

theorem toList_document (e : Element) : e.document.toList = e.documentChars := by
  have happend : ∀ r s t : String, (r ++ s ++ t).toList = r.toList ++ s.toList ++ t.toList := by simp
  exact (happend _ _ _).trans (congrArg (_ ++ · ++ _) (Item.toList_write 0 e.item))

/-- The outermost element of characters whose tokens are found within `n` cuts. -/
def ofCharsWithin? (n : Nat) (pattern : Pattern) (cs : List Char) : Option Element := do
  let ts := (← tokensWithin n [] cs).dropWhile Token.isBlank
  match ← (← Cursor.ofTokens? ts).next? with
  | (.start name tag, c) =>
    let (item, _) ← readElement (4 * ts.length) pattern name tag c
    item.element?
  | _ => none

theorem ofText?_of_ofCharsWithin? {n : Nat} {pattern : Pattern} {s : String} {e : Element}
    (hmark : s.toList.head? ≠ some '\ufeff') (h : ofCharsWithin? n pattern s.toList = some e) :
    ofText? pattern s = some e := by
  obtain ⟨ts, hts, h⟩ := Option.bind_eq_some_iff.1 h
  have htokens : tokensOf? s = some ts := by
    unfold tokensOf?
    split
    · rename_i hs
      exact absurd (by rw [hs]; rfl) hmark
    · exact tokens?_of_tokensWithin hts
  rw [ofText?, htokens]
  exact h

theorem head?_documentChars (e : Element) : e.documentChars.head? = some '<' := by
  have happend : ∀ {cs ds es : List Char}, cs.head? = some '<' → (cs ++ ds ++ es).head? = some '<' := by
    intro cs ds es h
    rw [List.append_assoc, List.head?_append, h, Option.some_or]
  exact happend (by simp)

theorem head?_document_ne (e : Element) : e.document.toList.head? ≠ some '\ufeff' := by
  rw [toList_document, head?_documentChars]
  decide

end Element

end DeviceModel.Xml
