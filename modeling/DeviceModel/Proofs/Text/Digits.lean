import DeviceModel.Text.Blank
import DeviceModel.Text.Integer
import Mathlib

/-!
Digits of numbers. Main statements: an integer of 64 bits is read from its text (`readInt?_intText`), and an
entered one is read from what is shown of it, but for the least one and, in hexadecimal, those below zero
(`parseInteger?_intText`, `parseInteger?_hexText`).

### Text without the blanks around it
-/

namespace DeviceModel.Text

theorem dropBlanks_of_head? {cs : List Char} (h : ∀ c ∈ cs.head?, isBlank c = false) :
    dropBlanks cs = cs := by
  cases cs with
  | nil => rfl
  | cons c cs => exact List.dropWhile_cons_of_neg (by simp [h c rfl])

theorem isBlank_of_mem_head? {cs : List Char} {c : Char} (h : c ∈ (dropBlanks cs).head?) :
    isBlank c = false := by
  have hnot := List.head?_dropWhile_not isBlank cs
  rw [show cs.dropWhile isBlank = dropBlanks cs from rfl, h] at hnot
  simpa using hnot

/-- Text with no blank at either end. -/
theorem trimChars_eq_self {cs : List Char} (hhead : ∀ c ∈ cs.head?, isBlank c = false)
    (hlast : ∀ c ∈ cs.getLast?, isBlank c = false) : trimChars cs = cs := by
  rw [trimChars, dropBlanks_of_head? hhead, dropBlanks_of_head? (by simpa using hlast),
    List.reverse_reverse]

/-- A text without blanks is what trimming leaves of it. -/
theorem trimChars_of_notBlank {cs : List Char} (h : ∀ c ∈ cs, isBlank c = false) : trimChars cs = cs :=
  trimChars_eq_self (fun c hc => h c (List.mem_of_head? hc)) fun c hc => h c (List.mem_of_getLast? hc)

theorem trimChars_trimChars (cs : List Char) : trimChars (trimChars cs) = trimChars cs := by
  have hprefix : trimChars cs <+: dropBlanks cs := List.rdropWhile_prefix isBlank (dropBlanks cs)
  refine trimChars_eq_self (fun c hc => ?_) fun c hc => ?_
  · obtain ⟨rest, hrest⟩ := hprefix
    have hmem : c ∈ (dropBlanks cs).head? := by
      rw [← hrest, List.head?_append, Option.mem_def.1 hc]
      rfl
    exact isBlank_of_mem_head? hmem
  · rw [trimChars, List.getLast?_reverse] at hc
    exact isBlank_of_mem_head? hc

theorem trim_trim (s : String) : trim (trim s) = trim s := by
  rw [trim, trim, String.toList_ofList, trimChars_trimChars]

end DeviceModel.Text

/-! ### Digits -/

namespace DeviceModel

namespace Text

theorem digitValue?_digitChar {d : Nat} (h : d < 16) : digitValue? (Nat.digitChar d) = some d := by
  revert d; decide

theorem isBlank_digitChar {d : Nat} (h : d < 16) : isBlank (Nat.digitChar d) = false := by
  revert d; decide

theorem readDigits_append {base : Nat} {n : Nat} {cs ds : List Char} :
    readDigits base n (cs ++ ds) = (readDigits base n cs).bind (readDigits base · ds) := by
  induction cs generalizing n with
  | nil => rfl
  | cons c cs ih =>
    simp only [List.cons_append, readDigits, Option.bind_eq_bind]
    cases digitValue? c with
    | none => rfl
    | some d =>
      simp only [Option.bind_some]
      split
      · exact ih
      · rfl

/-- What is read as digits consists of digits. -/
theorem digitValue?_of_readDigits {base n m : Nat} {cs : List Char} (h : readDigits base n cs = some m) :
    ∀ c ∈ cs, digitValue? c ≠ none := by
  induction cs generalizing n with
  | nil => nofun
  | cons c cs ih =>
    obtain ⟨d, hd, h⟩ := Option.bind_eq_some_iff.1 h
    split at h
    · simpa [hd] using ih h
    · cases h

theorem minus_notMem_of_readNat? {base n : Nat} {cs : List Char} (h : readNat? base cs = some n) : '-' ∉ cs := by
  rw [readNat?] at h
  split at h
  · cases h
  · exact fun hm => digitValue?_of_readDigits h '-' hm rfl

theorem le_ofDigitChars (cs : List Char) (n : Nat) : n ≤ Nat.ofDigitChars 10 cs n := by
  induction cs generalizing n with
  | nil => exact Nat.le_refl n
  | cons c cs ih =>
    rw [Nat.ofDigitChars_cons]
    exact Nat.le_trans (by omega) (ih _)

theorem head?_toDigits_ne {n : Nat} (h : 0 < n) : (Nat.toDigits 10 n).head? ≠ some '0' := by
  induction n using Nat.strongRecOn with
  | ind n ih =>
    by_cases hn : n < 10
    · rw [Nat.toDigits_of_lt_base hn]
      simp only [List.head?_cons, ne_eq, Option.some.injEq, Nat.digitChar_eq_zero]
      omega
    · have hhead := ih (n / 10) (by omega) (by omega)
      rw [Nat.toDigits_of_base_le (by decide) (by omega), List.head?_append]
      cases hd : Nat.toDigits 10 (n / 10) with
      | nil => exact absurd hd Nat.toDigits_ne_nil
      | cons c cs => rwa [hd] at hhead

/-- Only zero begins with a zero. -/
theorem length_toDigits_or (n : Nat) :
    (Nat.toDigits 10 n).length = 1 ∨ (Nat.toDigits 10 n).head? ≠ some '0' := by
  cases n with
  | zero => exact .inl rfl
  | succ n => exact .inr (head?_toDigits_ne (Nat.succ_pos n))

/-! ### Integers in text -/

theorem toNat_of_isDigit {c : Char} (h : c.isDigit = true) : 48 ≤ c.toNat ∧ c.toNat ≤ 57 := by
  simpa [Char.isDigit, UInt32.le_iff_toNat_le] using h

theorem isBlank_of_isDigit {c : Char} (h : c.isDigit = true) : isBlank c = false := by
  have := toNat_of_isDigit h
  simp only [isBlank, Bool.or_eq_false_iff, Bool.and_eq_false_iff, decide_eq_false_iff_not,
    beq_eq_false_iff_ne]
  omega

theorem digitValue?_of_isDigit {c : Char} (h : c.isDigit = true) :
    digitValue? c = some (c.toNat - '0'.toNat) := by
  have hc : '0' ≤ c ∧ c ≤ '9' := by simpa [Char.isDigit, Char.le_def] using h
  rw [digitValue?, if_pos hc]

theorem readDigits_of_isDigit {cs : List Char} (h : ∀ c ∈ cs, c.isDigit = true) (n : Nat) :
    readDigits 10 n cs = some (Nat.ofDigitChars 10 cs n) := by
  induction cs generalizing n with
  | nil => rfl
  | cons c cs ih =>
    have hc := h c (List.mem_cons_self ..)
    have hlt : c.toNat - '0'.toNat < 10 := by
      have := toNat_of_isDigit hc
      have : '0'.toNat = 48 := rfl
      omega
    simp only [readDigits, digitValue?_of_isDigit hc, Option.bind_eq_bind, Option.bind_some, if_pos hlt,
      Nat.ofDigitChars_cons, ih (fun d hd => h d (List.mem_cons_of_mem _ hd)), Nat.mul_comm n 10]

theorem isDigit_of_mem_digits {c : Char} {n : Nat} (h : c ∈ Nat.toDigits 10 n) : c.isDigit = true :=
  Nat.isDigit_of_mem_toDigits (by decide) (by decide) h

theorem readNat?_toDigits (n : Nat) : readNat? 10 (Nat.toDigits 10 n) = some n := by
  rw [readNat?, if_neg (by simp [Nat.toDigits_ne_nil]),
    readDigits_of_isDigit fun c hc => isDigit_of_mem_digits hc, Nat.ofDigitChars_ten_toDigits]

theorem toList_intText_ofNat (n : Nat) : (intText (.ofNat n)).toList = Nat.toDigits 10 n := by
  rw [intText, natText, String.toList_ofList]

theorem toList_intText_negSucc (n : Nat) :
    (intText (.negSucc n)).toList = '-' :: Nat.toDigits 10 (n + 1) := by
  simp [intText, natText]

/-- Without a sign, an integer is the number that its digits make. -/
theorem readInt?_of_unsigned {base : Nat} {cs : List Char} (h : ∀ c ∈ cs.head?, c ≠ '+' ∧ c ≠ '-') :
    readInt? base cs = ((readNat? base cs).map fun n : Nat => (n : Int)).filter is64 := by
  unfold readInt?
  split
  · exact absurd rfl (h _ rfl).1
  · exact absurd rfl (h _ rfl).2
  · cases readNat? base cs <;> rfl

theorem readInt?_toDigits (n : Nat) : readInt? 10 (Nat.toDigits 10 n) = (some (n : Int)).filter is64 := by
  have hunsigned : ∀ c ∈ (Nat.toDigits 10 n).head?, c ≠ '+' ∧ c ≠ '-' := by
    intro c hc
    have hdigit : c.isDigit = true := isDigit_of_mem_digits (List.mem_of_head? hc)
    constructor <;> rintro rfl <;> exact absurd hdigit (by decide)
  rw [readInt?_of_unsigned hunsigned, readNat?_toDigits, Option.map_some]

/-- An integer of 64 bits is read from its text. -/
theorem readInt?_intText {i : Int} (h : is64 i = true) : readInt? 10 (intText i).toList = some i := by
  cases i with
  | ofNat n =>
    rw [toList_intText_ofNat, readInt?_toDigits]
    exact Option.filter_some_pos h
  | negSucc n =>
    rw [toList_intText_negSucc, readInt?, readNat?_toDigits]
    exact Option.filter_some_pos h

theorem is64_iff {i : Int} : is64 i = true ↔ -2 ^ 63 ≤ i ∧ i < 2 ^ 63 := by
  simp only [is64, Bool.and_eq_true, decide_eq_true_eq]
  omega

theorem is64_of_readInt? {base : Nat} {cs : List Char} {i : Int} (h : readInt? base cs = some i) :
    is64 i = true :=
  (Option.filter_eq_some_iff.1 h).2

theorem isBlank_of_mem_intText {i : Int} {c : Char} (h : c ∈ (intText i).toList) : isBlank c = false := by
  cases i with
  | ofNat n => exact isBlank_of_isDigit (isDigit_of_mem_digits (toList_intText_ofNat n ▸ h))
  | negSucc n =>
    rw [toList_intText_negSucc] at h
    rcases List.mem_cons.1 h with rfl | h
    · rfl
    · exact isBlank_of_isDigit (isDigit_of_mem_digits h)

theorem trimChars_intText (i : Int) : trimChars (intText i).toList = (intText i).toList :=
  trimChars_of_notBlank fun _ hc => isBlank_of_mem_intText hc

/-! ### Hexadecimal digits -/

theorem digitValue?_upper {d : Nat} (h : d < 16) : digitValue? (Nat.digitChar d).toUpper = some d := by
  revert d; decide

theorem upper_digitChar {d : Nat} (h : d < 16) : (Nat.digitChar d).toUpper ≠ '+' ∧
    (Nat.digitChar d).toUpper ≠ '-' ∧ isBlank (Nat.digitChar d).toUpper = false := by
  revert d; decide

/-- The digits of a number, cut behind the last but one. -/
theorem hexDigits_eq (n : Nat) : hexDigits n = (if n < 16 then [] else hexDigits (n / 16)) ++
    [(Nat.digitChar (n % 16)).toUpper] := by
  split
  · rename_i hn
    rw [hexDigits, Nat.toDigits_of_lt_base hn, Nat.mod_eq_of_lt hn]
    rfl
  · rename_i hn
    rw [hexDigits, Nat.toDigits_of_base_le (by decide) (Nat.le_of_not_lt hn), List.map_append]
    rfl

theorem exists_of_mem_hexDigits {c : Char} {n : Nat} (h : c ∈ hexDigits n) :
    ∃ d < 16, c = (Nat.digitChar d).toUpper := by
  induction n using Nat.strongRecOn with
  | ind n ih =>
    rw [hexDigits_eq, List.mem_append, List.mem_singleton] at h
    rcases h with h | h
    · split at h
      · cases h
      · exact ih (n / 16) (by omega) h
    · exact ⟨n % 16, Nat.mod_lt _ (by decide), h⟩

theorem isBlank_of_mem_hexDigits {c : Char} {n : Nat} (h : c ∈ hexDigits n) : isBlank c = false := by
  obtain ⟨d, hd, rfl⟩ := exists_of_mem_hexDigits h
  exact (upper_digitChar hd).2.2

theorem readDigits_hexDigits (n : Nat) : readDigits 16 0 (hexDigits n) = some n := by
  induction n using Nat.strongRecOn with
  | ind n ih =>
    have hd : n % 16 < 16 := Nat.mod_lt _ (by decide)
    have hbefore : readDigits 16 0 (if n < 16 then [] else hexDigits (n / 16)) = some (n / 16) := by
      split
      · rename_i hn
        rw [Nat.div_eq_of_lt hn]
        rfl
      · exact ih (n / 16) (by omega)
    rw [hexDigits_eq, readDigits_append, hbefore]
    simp only [Option.bind_some, readDigits, digitValue?_upper hd, Option.bind_eq_bind, if_pos hd]
    exact congrArg some (Nat.div_add_mod' n 16)

theorem hexDigits_ne_nil (n : Nat) : hexDigits n ≠ [] := by
  rw [hexDigits_eq]
  exact List.append_ne_nil_of_right_ne_nil _ (List.cons_ne_nil _ _)

/-! ### Entered integers -/

theorem parseInteger?_of_digits {s : String} (h : ∀ c ∈ s.toList, c.isDigit = true) :
    parseInteger? s = readInt? 10 s.toList := by
  rw [parseInteger?, trimChars_of_notBlank fun c hc => isBlank_of_isDigit (h c hc)]
  split
  · rename_i r heq
    exact absurd (h '-' (by simp [heq])) (by decide)
  · dsimp only
    split
    · rename_i r heq
      exact absurd (h 'x' (by simp [heq])) (by decide)
    · rename_i r heq
      exact absurd (h 'X' (by simp [heq])) (by decide)
    · rfl

theorem parseInteger?_minus {s : String} {ds : List Char} (hs : s.toList = '-' :: ds)
    (h : ∀ c ∈ ds, c.isDigit = true) : parseInteger? s = ((readInt? 10 ds).map (- ·)).filter is64 := by
  have htrim : trimChars ('-' :: ds) = '-' :: ds :=
    trimChars_of_notBlank (List.forall_mem_cons.2 ⟨rfl, fun c hc => isBlank_of_isDigit (h c hc)⟩)
  rw [parseInteger?, hs, htrim]
  split
  · rename_i r heq
    obtain rfl := (List.cons.inj heq).2
    dsimp only
    split
    · exact absurd (h 'x' (by simp)) (by decide)
    · exact absurd (h 'X' (by simp)) (by decide)
    · rfl
  · rename_i hnot
    exact absurd rfl (hnot ds)

theorem parseInteger?_hexadecimal {s : String} {cs : List Char} (hs : s.toList = '0' :: 'x' :: cs)
    (h : ∀ c ∈ cs, isBlank c = false) : parseInteger? s = readInt? 16 cs := by
  have htrim : trimChars ('0' :: 'x' :: cs) = '0' :: 'x' :: cs :=
    trimChars_of_notBlank (List.forall_mem_cons.2 ⟨rfl, List.forall_mem_cons.2 ⟨rfl, h⟩⟩)
  rw [parseInteger?, hs, htrim]
  rfl

theorem readInt?_hexDigits (n : Nat) : readInt? 16 (hexDigits n) = (some (n : Int)).filter is64 := by
  have hunsigned : ∀ c ∈ (hexDigits n).head?, c ≠ '+' ∧ c ≠ '-' := by
    intro c hc
    obtain ⟨d, hd, rfl⟩ := exists_of_mem_hexDigits (List.mem_of_head? hc)
    exact ⟨(upper_digitChar hd).1, (upper_digitChar hd).2.1⟩
  rw [readInt?_of_unsigned hunsigned, readNat?, if_neg (by simp [hexDigits_ne_nil]), readDigits_hexDigits,
    Option.map_some]

/-- The text of an integer is read back, but for the least one: behind the minus it is past 64 bits. -/
theorem parseInteger?_intText {i : Int} (h : is64 i = true) :
    parseInteger? (intText i) = if i = -9223372036854775808 then none else some i := by
  cases i with
  | ofNat n =>
    have hdigits : ∀ c ∈ (intText (.ofNat n)).toList, c.isDigit = true := by
      rw [toList_intText_ofNat]
      exact fun c hc => isDigit_of_mem_digits hc
    rw [parseInteger?_of_digits hdigits, readInt?_intText h, if_neg (by simp)]
  | negSucc n =>
    rw [parseInteger?_minus (toList_intText_negSucc n) fun c hc => isDigit_of_mem_digits hc, readInt?_toDigits]
    by_cases hleast : Int.negSucc n = -9223372036854775808
    · rw [if_pos hleast, Option.filter_some_neg (by simp [is64]; omega)]
      rfl
    · have hrange := is64_iff.1 h
      rw [if_neg hleast, Option.filter_some_pos (by simp [is64]; omega)]
      exact Option.filter_some_pos h

/-- A hexadecimal text is read back, but for those of negative integers, which are past 64 bits. -/
theorem parseInteger?_hexText {i : Int} (h : is64 i = true) :
    parseInteger? ("0x" ++ hexText i) = if i < 0 then none else some i := by
  have hread : ∀ n, parseInteger? ("0x" ++ String.ofList (hexDigits n)) = (some (n : Int)).filter is64 := by
    intro n
    have hblank : ∀ c ∈ hexDigits n, isBlank c = false := fun c hc => isBlank_of_mem_hexDigits hc
    rw [parseInteger?_hexadecimal (by simp) hblank, readInt?_hexDigits]
  cases i with
  | ofNat n =>
    rw [hexText, hread, if_neg (by simp)]
    exact Option.filter_some_pos h
  | negSucc n =>
    rw [hexText, hread, if_pos (Int.negSucc_lt_zero n)]
    exact Option.filter_some_neg (by simp [is64] at h ⊢; omega)

end Text

end DeviceModel
