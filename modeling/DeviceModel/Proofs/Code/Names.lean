import DeviceModel.Code.RegisterTable
import Mathlib

/-!
Names in generated C: the variables whose addresses are taken, the accessors that tables name, and the
lines that define and declare them. Main statements: where an address stands in a line, it is that of the
name behind it (`Code.addressesIn_of_eq`), and an ampersand in front of a blank takes none
(`Code.addressesIn_blank`).
-/

namespace DeviceModel

/-! ### Characters -/

namespace Text

theorem exists_of_mem_toDigits {b : Nat} (hb : 1 < b) {n : Nat} {c : Char} (h : c ∈ Nat.toDigits b n) :
    ∃ d < b, c = Nat.digitChar d := by
  induction n using Nat.strongRecOn with
  | ind n ih =>
    by_cases hn : n < b
    · rw [Nat.toDigits_of_lt_base hn] at h
      exact ⟨n, hn, List.mem_singleton.1 h⟩
    · rw [Nat.toDigits_of_base_le hb (by omega)] at h
      rcases List.mem_append.1 h with h | h
      · exact ih (n / b) (Nat.div_lt_self (by omega) hb) h
      · exact ⟨n % b, Nat.mod_lt _ (by omega), List.mem_singleton.1 h⟩

theorem isDigit_of_mem_intText {i : Int} {c : Char} (h : c ∈ (intText i).toList) :
    c.isDigit = true ∨ c = '-' := by
  have hnat : ∀ n, c ∈ (natText n).toList → c.isDigit = true := fun n h =>
    Nat.isDigit_of_mem_toDigits (b := 10) (n := n) (by decide) (by decide) (by simpa [natText] using h)
  unfold intText at h
  split at h
  · exact .inl (hnat _ h)
  · rw [String.toList_append, List.mem_append] at h
    rcases h with h | h
    · exact .inr (by simpa using h)
    · exact .inl (hnat _ h)

end Text

namespace Code

/-- Characters that a name may have. -/
def IsWord (s : String) : Prop := s ≠ "" ∧ ∀ c ∈ s.toList, isWordChar c = true

theorem isWordChar_of_mem_identifier {s : String} {c : Char} (h : c ∈ (identifier s).toList) :
    isWordChar c = true :=
  isWordChar_of_mem_identifierChars (by simpa [identifier] using h)

theorem IsWord.append {s : String} (hs : IsWord s) {r : String} (hr : ∀ c ∈ r.toList, isWordChar c = true) :
    IsWord (s ++ r) := by
  refine ⟨by simp [hs.1], fun c hc => ?_⟩
  rw [String.toList_append, List.mem_append] at hc
  exact hc.elim (hs.2 c) (hr c)

theorem isWord_interfaceItem (l : Lookup) (p : Uuid) : IsWord (l.interfaceItem p) :=
  IsWord.append ⟨by simp, by simp [isWordChar]⟩ fun _ => isWordChar_of_mem_identifier

/-! ### Addresses -/

/-- The names that stand right behind an ampersand. -/
def addressesIn : List Char → List String
  | [] => []
  | c :: cs =>
    if c = '&' then
      match cs.takeWhile isWordChar with
      | [] => addressesIn cs
      | w :: ws => String.ofList (w :: ws) :: addressesIn cs
    else addressesIn cs

theorem addressesIn_append {cs : List Char} (h : '&' ∉ cs) (ds : List Char) :
    addressesIn (cs ++ ds) = addressesIn ds := by
  induction cs with
  | nil => rfl
  | cons c cs ih =>
    rw [List.mem_cons, not_or] at h
    rw [List.cons_append, addressesIn, if_neg (Ne.symm h.1), ih h.2]

theorem addressesIn_eq_nil {cs : List Char} (h : '&' ∉ cs) : addressesIn cs = [] := by
  rw [← List.append_nil cs, addressesIn_append h, addressesIn]

theorem amp_notMem_of_isWord {s : String} (h : IsWord s) : '&' ∉ s.toList :=
  fun hm => absurd (h.2 _ hm) (by decide)

/-- An address is that of the name behind it, up to the first character that no name has. -/
theorem addressesIn_address {s : String} (h : IsWord s) {ds : List Char}
    (hd : ∀ c ∈ ds.head?, isWordChar c = false) :
    addressesIn ('&' :: (s.toList ++ ds)) = s :: addressesIn ds := by
  have hnone : ds.takeWhile isWordChar = [] := by
    cases ds with
    | nil => rfl
    | cons d ds => exact List.takeWhile_cons_of_neg (by simp [hd d rfl])
  have hword : (s.toList ++ ds).takeWhile isWordChar = s.toList := by
    rw [List.takeWhile_append_of_pos h.2, hnone, List.append_nil]
  obtain ⟨c, cs, hs⟩ := List.exists_cons_of_ne_nil (l := s.toList) (by simpa using h.1)
  rw [addressesIn, if_pos rfl, hword, addressesIn_append (amp_notMem_of_isWord h), hs]
  exact congrArg (· :: _) (by rw [← hs, String.ofList_toList])

/-- The address in a line that takes one. -/
theorem addressesIn_of_eq {s name : String} (before after : List Char)
    (hs : s.toList = before ++ '&' :: (name.toList ++ after)) (hbefore : '&' ∉ before) (hname : IsWord name)
    (hafter : ∀ c ∈ after.head?, isWordChar c = false) :
    addressesIn s.toList = name :: addressesIn after := by
  rw [hs, addressesIn_append hbefore, addressesIn_address hname hafter]

/-- An ampersand in front of a blank takes no address. -/
theorem addressesIn_blank {cs ds : List Char} (hc : '&' ∉ cs) (hd : '&' ∉ ds) :
    addressesIn (cs ++ '&' :: ' ' :: ds) = [] := by
  have hblank : isWordChar ' ' = false := by decide
  rw [addressesIn_append hc, addressesIn, if_pos rfl, List.takeWhile_cons_of_neg (by simp [hblank])]
  exact addressesIn_eq_nil (by simp [hd])

end Code

namespace Lines

/-- The lines of blocks, without their indentation. -/
def texts : Lines → List String
  | .line s => [s]
  | .block ls => each ls
where
  each : List Lines → List String
    | [] => []
    | l :: ls => texts l ++ each ls

theorem each_eq (ls : List Lines) : texts.each ls = ls.flatMap texts := by
  induction ls with
  | nil => rfl
  | cons l ls ih => rw [texts.each, ih, List.flatMap_cons]

@[simp] theorem texts_line (s : String) : texts (.line s) = [s] := by rw [texts]

@[simp] theorem texts_block (ls : List Lines) : texts (.block ls) = ls.flatMap texts := by
  rw [texts, each_eq]

end Lines

namespace CFile

/-- The lines of a file. -/
def texts (f : CFile) : List String := f.body.flatMap Lines.texts

theorem mem_texts {f : CFile} {s : String} (h : .line s ∈ f.body) : s ∈ f.texts :=
  List.mem_flatMap.2 ⟨_, h, by simp⟩

/-- The variables whose addresses a file takes. -/
def addresses (f : CFile) : List String := f.texts.flatMap fun s => Code.addressesIn s.toList

/-- A line of the file begins the definition of a variable. -/
def Defines (f : CFile) (name : String) : Prop :=
  ∃ type, Code.IsWord type ∧ .line (type ++ " " ++ name ++ " = \x7b") ∈ f.body

/-- A line of the file declares a function. -/
def Declares (f : CFile) (name : String) : Prop :=
  ∃ type parameters, Code.IsWord type ∧ .line (type ++ " " ++ name ++ "(" ++ parameters ++ ");") ∈ f.body

theorem Declares.exists_infix {f : CFile} {name : String} (h : f.Declares name) :
    ∃ s ∈ f.texts, name.toList <:+: s.toList := by
  obtain ⟨type, parameters, -, hline⟩ := h
  exact ⟨_, mem_texts hline, (type ++ " ").toList, ("(" ++ parameters ++ ");").toList, by simp⟩

/-- A line of the file names a getter or a setter. -/
def NamesAccessor (f : CFile) (name : String) : Prop :=
  ∃ field ∈ [".getter = ", ".setter = "], field ++ name ++ "," ∈ f.texts

end CFile

end DeviceModel
