import DeviceModel.Proofs.Document.Values

/-!
Text that is shown, and text that is entered. Main statement: what is shown of a value of an attribute is read as
the value; only for the least integer, and in hexadecimal for integers below zero, it is refused
(`Kind.parse_display`).
-/

namespace DeviceModel

/-! ### Text that is shown -/

namespace Text

/-- Text that is still there when the blanks around it are gone, all of it. -/
def Printed (s : String) : Prop := s ≠ "" ∧ ∀ c ∈ s.toList, isBlank c = false

theorem printed_iff {cs : List Char} :
    Printed (String.ofList cs) ↔ cs ≠ [] ∧ ∀ c ∈ cs, isBlank c = false := by
  rw [Printed, String.toList_ofList, ne_eq, String.ofList_eq_empty_iff]

theorem Printed.trim {s : String} (h : Printed s) : trim s = s := by
  rw [Text.trim, trimChars_of_notBlank h.2, String.ofList_toList]

theorem printed_intText (i : Int) : Printed (intText i) := by
  refine ⟨fun h => ?_, fun c hc => isBlank_of_mem_intText hc⟩
  have hnil := congrArg String.toList h
  cases i with
  | ofNat n => exact Nat.toDigits_ne_nil (toList_intText_ofNat n ▸ hnil)
  | negSucc n => cases (toList_intText_negSucc n).symm.trans hnil

theorem printed_hexText (i : Int) : Printed ("0x" ++ hexText i) := by
  refine ⟨by simp, fun c hc => ?_⟩
  rw [hexText.eq_def, String.toList_append] at hc
  rcases List.mem_append.1 hc with hc | hc
  · rcases List.mem_cons.1 hc with rfl | hc
    · rfl
    · rw [List.mem_singleton.1 hc]
      rfl
  · rw [String.toList_ofList] at hc
    exact isBlank_of_mem_hexDigits hc

end Text

theorem Decimal.printed_text (d : Decimal) : Text.Printed d.text := by
  refine Text.printed_iff.2 ⟨?_, fun c hc => ?_⟩
  · obtain ⟨whole, fraction, hw, -, -, -, hc⟩ := d.chars_eq
    simp [hc, hw]
  · rcases isDigit_of_mem_chars hc with hc | rfl | rfl
    · exact Text.isBlank_of_isDigit hc
    · rfl
    · rfl

theorem Uuid.printed_text (u : Uuid) : Text.Printed u.text := by
  obtain ⟨a, b, c, d, e, hu, -, hp⟩ := u.chars_eq
  have hdigits : ∀ x ∈ a ++ b ++ c ++ d ++ e, Text.isBlank x = false := by
    intro x hx
    rw [hp] at hx
    obtain ⟨n, hn, rfl⟩ := exists_of_mem_places hx
    exact Text.isBlank_digitChar hn
  refine Text.printed_iff.2 ⟨by simp [hu], fun x hx => ?_⟩
  have hmem : x ∈ a ++ b ++ c ++ d ++ e ∨ x = '-' := by
    simp only [hu, List.append_assoc, List.cons_append, List.mem_append, List.mem_cons] at hx ⊢
    grind
  rcases hmem with hmem | rfl
  · exact hdigits x hmem
  · rfl

/-! ### Values -/

namespace Value

/-- The values that attributes have: integers of 64 bits, identifiers of 128, and decimals of 96 bits and 28
places. -/
def InRange : Value → Prop
  | .integer i => Text.is64 i = true
  | .decimal d => d.Storable
  | .uuid u => u.Storable
  | .null | .string _ | .bool _ | .list _ => True

/-- The value without the sign of a zero. -/
def reread : Value → Value
  | .decimal d => .decimal d.reread
  | v => v

theorem reread_eq {v : Value} (h : v.Storable) : v.reread = v := by
  cases v with
  | decimal d => exact congrArg Value.decimal (Decimal.reread_eq h.2)
  | _ => rfl

end Value

namespace Base

/-- The names of a choice are told apart without regard to case, and have no blanks. -/
def TellsApart : Base → Prop
  | .choice names => ∀ s ∈ names, names.find? (sameLetters s) = some s ∧ s ≠ "" ∧
      s.toList.all (!Text.isBlank ·) = true
  | _ => True

instance : DecidablePred TellsApart
  | .choice names => inferInstanceAs (Decidable (∀ s ∈ names, names.find? (sameLetters s) = some s ∧
      s ≠ "" ∧ s.toList.all (!Text.isBlank ·) = true))
  | .string | .integer | .decimal | .bool | .uuid => inferInstanceAs (Decidable True)

end Base

namespace Field

/-- The values whose text is read as the value. The least integer is past 64 bits without its minus, and a
negative integer is in hexadecimal past 64 bits. -/
def ReadsBack (f : Field) (v : Value) : Prop :=
  ∀ i, v = .integer i → i ≠ -9223372036854775808 ∧ (f.hexadecimal = true → 0 ≤ i)

variable {f : Field} {v : Value}

theorem parse_of_printed {s : String} (hlist : f.type.list = false) (hs : Text.Printed s) :
    f.parse s = f.parseBase s := by
  rw [parse, hs.trim]
  simp only [hs.1, false_and, if_false, hlist, Bool.false_eq_true]

theorem printed_display (hbase : f.type.base ≠ .string) (happart : f.type.base.TellsApart)
    (hv : f.type.base.holds v = true) : Text.Printed (f.display v) := by
  cases hb : f.type.base <;> rw [hb] at hbase happart hv <;> cases v <;> first | cases hv | skip
  case string.string => exact absurd rfl hbase
  case integer.integer i =>
    rw [display]
    split
    · exact Text.printed_hexText i
    · exact Text.printed_intText i
  case decimal.decimal d => exact d.printed_text
  case bool.bool b =>
    have hprinted : ∀ b, (Value.bool b).text ≠ "" ∧ (Value.bool b).text.toList.all (!Text.isBlank ·) = true := by
      decide
    exact ⟨(hprinted b).1, by simpa [display] using (hprinted b).2⟩
  case uuid.uuid u => exact u.printed_text
  case choice.string names s =>
    obtain ⟨-, hne, hblank⟩ := happart s (by simpa [Base.holds] using hv)
    exact ⟨hne, by simpa [display, Value.text] using hblank⟩

theorem ofText?_display (hbase : f.type.base ≠ .string) (happart : f.type.base.TellsApart)
    (hv : f.type.base.holds v = true) (hrange : v.InRange) (hback : f.ReadsBack v) :
    f.type.base.ofText? (f.display v) = some v.reread := by
  cases hb : f.type.base <;> rw [hb] at hbase happart hv <;> cases v <;> first | cases hv | skip
  case string.string => exact absurd rfl hbase
  case integer.integer i =>
    obtain ⟨hleast, hnonneg⟩ := hback i rfl
    rw [display, Base.ofText?]
    split
    · rename_i hhex
      rw [Text.parseInteger?_hexText hrange, if_neg (Int.not_lt.2 (hnonneg hhex))]
      rfl
    · rw [Text.parseInteger?_intText hrange, if_neg hleast]
      rfl
  case decimal.decimal d =>
    exact congrArg (Option.map Value.decimal) (Decimal.ofText?_text hrange)
  case bool.bool b =>
    have htext : ∀ b, Base.bool.ofText? (Value.bool b).text = some (.bool b) := by decide
    exact htext b
  case uuid.uuid u =>
    rw [Base.ofText?, show f.display (.uuid u) = u.text from rfl, Uuid.ofText?_text (u := u) hrange]
    rfl
  case choice.string names s =>
    obtain ⟨hfind, -⟩ := happart s (by simpa [Base.holds] using hv)
    exact congrArg (Option.map Value.string) hfind

theorem ofText?_display_eq_none (hv : f.type.base.holds v = true) (hrange : v.InRange) (hback : ¬f.ReadsBack v) :
    f.type.base.ofText? (f.display v) = none := by
  simp only [ReadsBack, not_forall, not_and] at hback
  obtain ⟨i, rfl, hi⟩ := hback
  have hb : f.type.base = .integer := by
    cases hb : f.type.base <;> rw [hb] at hv <;> first | rfl | cases hv
  rw [hb, display, Base.ofText?]
  have hrange' := Text.is64_iff.1 hrange
  split
  · rename_i hhex
    -- The least integer is a negative one.
    have hneg : i < 0 := by
      by_cases hleast : i = -9223372036854775808
      · omega
      · exact Int.not_le.1 (hi hleast).2
    rw [Text.parseInteger?_hexText hrange, if_pos hneg]
    rfl
  · rename_i hhex
    have hleast : i = -9223372036854775808 := by
      by_contra hleast
      exact hhex (hi hleast).1
    rw [Text.parseInteger?_intText hrange, if_pos hleast]
    rfl

end Field

namespace Kind

theorem tellsApart {k : Kind} : ∀ f ∈ k.fields, f.type.base.TellsApart := by
  cases k <;> decide

/-- What is shown of a value is read as the value where it reads back, and is refused elsewhere. -/
theorem parse_display {k : Kind} {f : Field} {v : Value} (hf : f ∈ k.fields)
    (hbase : f.type.base ≠ .string) (hlist : f.type.list = false) (hv : f.type.holds v = true)
    (hrange : v.InRange) :
    (f.ReadsBack v → ∃ w, f.parse (f.display v) = .ok w ∧ w.same v = true ∧ (v.Storable → w = v)) ∧
    (¬f.ReadsBack v → f.parse (f.display v) = .error (.parse f.attr (f.display v))) := by
  have happart := tellsApart f hf
  by_cases hnull : v = .null
  · subst hnull
    have hoptional : f.type.optional = true := hv
    have hparse : f.parse (f.display .null) = .ok .null := by
      rw [Field.parse, show Text.trim (f.display .null) = "" by rfl, if_pos ⟨rfl, hoptional⟩]
    exact ⟨fun _ => ⟨.null, hparse, rfl, fun _ => rfl⟩, fun hback => absurd (fun i hi => by cases hi) hback⟩
  · have hbv : f.type.base.holds v = true := by
      cases v <;> simp_all [FieldType.holds]
    have hparse := Field.parse_of_printed hlist (Field.printed_display hbase happart hbv)
    rw [hparse, Field.parseBase]
    refine ⟨fun hback => ⟨v.reread, ?_, ?_, Value.reread_eq⟩, fun hback => ?_⟩
    · rw [Field.ofText?_display hbase happart hbv hrange hback]
    · cases v with
      | decimal d => exact d.same_reread
      | list vs => simp [FieldType.holds, hlist] at hv
      | _ => simp [Value.reread, Value.same]
    · rw [Field.ofText?_display_eq_none hbv hrange hback]

/-- The identifier of a message is entered as it is shown, but not one below zero. -/
theorem parse_display_identifier :
    (∃ w, (Field.hex .identifier).parse ((Field.hex .identifier).display (.integer 6844)) = .ok w ∧
      w.same (.integer 6844) = true ∧ (Value.Storable (.integer 6844) → w = .integer 6844)) ∧
    (Field.hex .identifier).parse ((Field.hex .identifier).display (.integer (-1))) =
      .error (.parse .identifier ((Field.hex .identifier).display (.integer (-1)))) :=
  have hf : Field.hex .identifier ∈ Kind.message.fields := by decide
  have shown {i : Int} (hi : Text.is64 i = true) :=
    parse_display hf (by decide) rfl (v := .integer i) rfl hi
  ⟨(shown (i := 6844) rfl).1 fun _ hi => by cases hi; decide,
    (shown (i := -1) rfl).2 fun hback => absurd ((hback _ rfl).2 rfl) (by decide)⟩

/-- An identifier below zero is shown as a text that nothing is read from. -/
theorem exists_display_unread : ∃ (k : Kind) (f : Field) (v : Value), f ∈ k.fields ∧ f.type.base = .integer ∧
    f.type.list = false ∧ f.type.holds v = true ∧ v.InRange ∧ ∀ w, f.parse (f.display v) ≠ .ok w :=
  ⟨.message, .hex .identifier, .integer (-1), by decide, rfl, rfl, rfl,
    show Text.is64 (-1) = true from rfl, fun w hw => by
    rw [show (Field.hex .identifier).parse ((Field.hex .identifier).display (.integer (-1))) =
      .error (.parse .identifier "0xFFFFFFFFFFFFFFFF") by decide +kernel] at hw
    cases hw⟩

end Kind

end DeviceModel
