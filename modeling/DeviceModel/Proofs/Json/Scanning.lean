import DeviceModel.Proofs.Json.Grammar
import DeviceModel.Proofs.Text.Digits
import Mathlib

/-!
The reader of documents on the texts of the writers. Main statement: it gives the document that was
written (`ofText?_of_writes`).
-/

namespace DeviceModel.Json

/-! ### Strings -/

theorem hex4?_of_lt {n : Nat} (h : n < 0x20) :
    hex4? '0' '0' (Nat.digitChar (n / 16)) (Nat.digitChar (n % 16)) = some n := by
  revert n; decide

theorem scanChar_control {c : Char} (h : c.toNat < 0x20) (r : List Char) :
    scanChar ('\\' :: 'u' :: '0' :: '0' :: Nat.digitChar (c.toNat / 16) ::
      Nat.digitChar (c.toNat % 16) :: r) = some (c, r) := by
  have hl : isLowSurrogate c.toNat = false := by simp [isLowSurrogate]; omega
  have hh : isHighSurrogate c.toNat = false := by simp [isHighSurrogate]; omega
  simp [scanChar, hex4?_of_lt h, hl, hh, Char.ofNat_toNat]

theorem scanChar_plain {c : Char} (hb : c ≠ '\\') (h : ¬c.toNat < 0x20) (r : List Char) :
    scanChar (c :: r) = some (c, r) := by
  unfold scanChar
  split <;> simp_all

theorem scanChar_escape (c : Char) (r : List Char) : scanChar (escape c ++ r) = some (c, r) := by
  unfold escape
  split
  case h_8 =>
    split
    · rename_i h; exact scanChar_control h r
    · rename_i hb _ _ _ _ _ h; exact scanChar_plain hb h r
  all_goals simp [scanChar, unescape?]

theorem escape_eq (c : Char) : ∃ d ds, escape c = d :: ds ∧ d ≠ '"' := by
  unfold escape
  split
  case h_8 =>
    split
    · exact ⟨_, _, rfl, by decide⟩
    · exact ⟨_, _, rfl, by assumption⟩
  all_goals exact ⟨_, _, rfl, by decide⟩

theorem scanString_escape {s : List Char} {fuel : Nat} (h : s.length < fuel) (r : List Char) :
    scanString fuel (s.flatMap escape ++ '"' :: r) = some (s, r) := by
  induction s generalizing fuel with
  | nil =>
    obtain ⟨fuel, rfl⟩ := Nat.exists_eq_succ_of_ne_zero (Nat.ne_of_gt h)
    rfl
  | cons c s ih =>
    obtain ⟨fuel, rfl⟩ := Nat.exists_eq_succ_of_ne_zero (Nat.ne_of_gt (Nat.zero_lt_of_lt h))
    obtain ⟨d, ds, hd, hq⟩ := escape_eq c
    have hc := scanChar_escape c (s.flatMap escape ++ '"' :: r)
    rw [List.flatMap_cons, List.append_assoc]
    rw [hd, List.cons_append] at hc ⊢
    unfold scanString
    split
    · rename_i heq; cases heq
    · rename_i heq; exact absurd (List.cons.inj heq).1 hq
    · rename_i heq _
      cases heq
      rw [hc]
      simp [ih (Nat.lt_of_succ_lt_succ h)]

theorem scanString_quote (s : String) (r : List Char) :
    scanString (s.toList.flatMap escape ++ '"' :: r).length (s.toList.flatMap escape ++ '"' :: r) =
      some (s.toList, r) := by
  refine scanString_escape ?_ r
  have hlen : s.toList.length ≤ (s.toList.flatMap escape).length := by
    generalize s.toList = cs
    induction cs with
    | nil => exact Nat.le_refl _
    | cons c cs ih =>
      obtain ⟨d, ds, hd, -⟩ := escape_eq c
      rw [List.flatMap_cons, hd, List.length_append, List.length_cons, List.length_cons]
      omega
  rw [List.length_append, List.length_cons]
  omega

/-! ### Numbers -/

/-- What may follow a number: nothing that would belong to it. -/
def Stops (r : List Char) : Prop :=
  ∀ c ∈ r.head?, c.isDigit = false ∧ c ≠ '.' ∧ c ≠ 'e' ∧ c ≠ 'E'

theorem spanDigits_append {ds r : List Char} (hd : ∀ c ∈ ds, c.isDigit = true) (hr : Stops r) :
    spanDigits (ds ++ r) = (ds, r) := by
  have hspan : r.takeWhile Char.isDigit = [] ∧ r.dropWhile Char.isDigit = r := by
    cases r with
    | nil => exact ⟨rfl, rfl⟩
    | cons c r =>
      have hc := (hr c rfl).1
      exact ⟨List.takeWhile_cons_of_neg (by simp [hc]), List.dropWhile_cons_of_neg (by simp [hc])⟩
  rw [spanDigits, List.span_eq_takeWhile_dropWhile, List.takeWhile_append_of_pos hd,
    List.dropWhile_append_of_pos hd, hspan.1, hspan.2, List.append_nil]

theorem scanFraction_of_stops {r : List Char} (hr : Stops r) : scanFraction r = some (none, r) := by
  unfold scanFraction
  split
  · exact absurd rfl (hr '.' rfl).2.1
  · rfl

theorem scanExponent_of_stops {r : List Char} (hr : Stops r) : scanExponent r = some (none, r) := by
  cases r with
  | nil => rfl
  | cons c r =>
    have hc := hr c rfl
    simp [scanExponent, hc.2.2.1, hc.2.2.2]

/-- All digits of a number of 64 bits are taken in. -/
theorem addDigits_eq {ds : List Char} {n : Nat}
    (h : Nat.ofDigitChars 10 ds n ≤ 18446744073709551615) :
    addDigits n ds = (Nat.ofDigitChars 10 ds n, 0) := by
  induction ds generalizing n with
  | nil => simp [addDigits]
  | cons c ds ih =>
    rw [Nat.ofDigitChars_cons] at h
    have hle := Nat.le_trans (Text.le_ofDigitChars ds _) h
    rw [addDigits, Nat.ofDigitChars_cons, Nat.mul_comm n 10]
    simp only [if_pos hle]
    exact ih h

/-- A number behind its sign. -/
def scanUnsigned (negative : Bool) (cs : List Char) : Option (Json × List Char) := do
  let (whole, r) := spanDigits cs
  if whole.isEmpty || whole.length != 1 && whole.head? == some '0' then none
  else
    let (fraction, r) ← scanFraction r
    let (exponent, r) ← scanExponent r
    let number ← makeNumber negative whole fraction exponent
    some (number, r)

theorem scanNumber_minus (cs : List Char) : scanNumber ('-' :: cs) = scanUnsigned true cs := rfl

theorem scanNumber_of_ne {c : Char} (h : c ≠ '-') (cs : List Char) :
    scanNumber (c :: cs) = scanUnsigned false (c :: cs) := by
  unfold scanNumber
  split
  rename_i hsign
  split at hsign
  · rename_i heq; exact absurd (List.cons.inj heq).1 h
  · cases hsign; rfl

theorem isDigit_of_mem_toDigits {c : Char} {n : Nat} (h : c ∈ Nat.toDigits 10 n) :
    c.isDigit = true :=
  Nat.isDigit_of_mem_toDigits (by decide) (by decide) h

theorem exists_toDigits_eq (n : Nat) :
    ∃ c cs, Nat.toDigits 10 n = c :: cs ∧ c.isDigit = true := by
  obtain ⟨c, cs, h⟩ := List.exists_cons_of_ne_nil (Nat.toDigits_ne_nil (n := n) (b := 10))
  exact ⟨c, cs, h, isDigit_of_mem_toDigits (n := n) (by simp [h])⟩

theorem scanUnsigned_toDigits {n : Nat} {r : List Char} {j : Json} {negative : Bool} (hr : Stops r)
    (hj : makeNumber negative (Nat.toDigits 10 n) none none = some j) :
    scanUnsigned negative (Nat.toDigits 10 n ++ r) = some (j, r) := by
  have hz : ((Nat.toDigits 10 n).isEmpty || (Nat.toDigits 10 n).length != 1 &&
      (Nat.toDigits 10 n).head? == some '0') = false := by
    have hne : Nat.toDigits 10 n ≠ [] := Nat.toDigits_ne_nil
    rcases Text.length_toDigits_or n with h | h <;> simp [h, hne]
  rw [scanUnsigned, spanDigits_append (fun c hc => isDigit_of_mem_toDigits hc) hr]
  simp only [hz, Bool.false_eq_true, if_false, scanFraction_of_stops hr, scanExponent_of_stops hr,
    Option.bind_eq_bind, Option.bind_some, hj]

theorem addDigits_toDigits {n : Nat} (h : n ≤ 18446744073709551615) :
    addDigits 0 (Nat.toDigits 10 n) = (n, 0) := by
  have hv := Nat.ofDigitChars_ten_toDigits (n := n)
  rw [addDigits_eq (by rwa [hv]), hv]

/-- An integer of 64 bits is read back from its digits. -/
theorem scanNumber_intText {i : Int} {r : List Char} (h : Text.is64 i = true) (hr : Stops r) :
    scanNumber ((Text.intText i).toList ++ r) = some (.integer i, r) := by
  have h64 : -9223372036854775808 ≤ i ∧ i ≤ 9223372036854775807 := by simpa [Text.is64] using h
  cases i with
  | ofNat n =>
    obtain ⟨c, cs, hcs, hc⟩ := exists_toDigits_eq n
    have hminus : c ≠ '-' := by rintro rfl; exact absurd hc (by decide)
    have hn : n ≤ 18446744073709551615 := by
      have hle : (n : Int) ≤ 9223372036854775807 := h64.2
      omega
    have hmake : makeNumber false (Nat.toDigits 10 n) none none = some (.integer n) := by
      simp [makeNumber, addDigits_toDigits hn]
    have hscan := scanUnsigned_toDigits hr hmake
    rw [Text.intText, Text.natText, String.toList_ofList]
    rw [hcs, List.cons_append] at hscan ⊢
    rw [scanNumber_of_ne hminus]
    exact hscan
  | negSucc n =>
    have hn : n + 1 ≤ 9223372036854775808 := by
      have := h64.1
      omega
    have hmake : makeNumber true (Nat.toDigits 10 (n + 1)) none none =
        some (.integer (Int.negSucc n)) := by
      simp [makeNumber, addDigits_toDigits (Nat.le_trans hn (by decide)), hn, Int.negSucc_eq]
    have htext : (Text.intText (Int.negSucc n)).toList = '-' :: Nat.toDigits 10 (n + 1) := by
      simp [Text.intText, Text.natText]
    rw [htext, List.cons_append, scanNumber_minus]
    exact scanUnsigned_toDigits hr hmake

/-! ### Documents -/

theorem scanValue_of_isDigit {c : Char} (h : c.isDigit = true ∨ c = '-') (fuel depth : Nat)
    (cs : List Char) : scanValue (fuel + 1) depth (c :: cs) = scanNumber (c :: cs) := by
  unfold scanValue
  split
  case h_7 => rfl
  all_goals
    rename_i heq
    cases heq
    exact absurd h (by decide)

theorem skip_append {w : List Char} (hw : Blank w) (cs : List Char) : skip (w ++ cs) = skip cs := by
  rw [skip, skip, List.dropWhile_append_of_pos hw]

theorem skip_cons {c : Char} (h : isSpace c = false) (cs : List Char) : skip (c :: cs) = c :: cs :=
  List.dropWhile_cons_of_neg (by simp [h])

/-- A document begins with a character that neither is blank nor closes anything. -/
def Opens (cs : List Char) : Prop :=
  ∃ c ds, cs = c :: ds ∧ isSpace c = false ∧ c ≠ ']' ∧ c ≠ '\x7d'

theorem opens_of_writes {j : Json} {cs : List Char} (h : Writes j cs) : Opens cs := by
  cases h with
  | integer i h =>
    cases i with
    | ofNat n =>
      obtain ⟨c, cs, hcs, hc⟩ := exists_toDigits_eq n
      refine ⟨c, cs, by rw [Text.intText, Text.natText, String.toList_ofList, hcs], ?_, ?_, ?_⟩
      · by_contra hs
        simp only [isSpace, Bool.not_eq_false, Bool.or_eq_true, beq_iff_eq] at hs
        rcases hs with ((rfl | rfl) | rfl) | rfl <;> exact absurd hc (by decide)
      · rintro rfl; exact absurd hc (by decide)
      · rintro rfl; exact absurd hc (by decide)
    | negSucc n => exact ⟨'-', Nat.toDigits 10 (n + 1), by simp [Text.intText, Text.natText], by decide⟩
  | _ => exact ⟨_, _, rfl, by decide⟩

theorem opens_of_writesItems {js : List Json} {cs : List Char} (h : WritesItems js cs) : Opens cs := by
  cases h with
  | last w hw h => obtain ⟨c, ds, rfl, hc⟩ := opens_of_writes h; exact ⟨c, _, rfl, hc⟩
  | more w hw h hs => obtain ⟨c, ds, rfl, hc⟩ := opens_of_writes h; exact ⟨c, _, rfl, hc⟩

theorem opens_of_writesMembers {ms : List (String × Json)} {cs : List Char}
    (h : WritesMembers ms cs) : Opens cs := by
  cases h <;> exact ⟨'"', _, rfl, by decide⟩

theorem skip_of_opens {cs : List Char} (h : Opens cs) {w : List Char} (hw : Blank w)
    (r : List Char) : skip (w ++ (cs ++ r)) = cs ++ r := by
  obtain ⟨c, ds, rfl, hc, -⟩ := h
  rw [skip_append hw]
  exact skip_cons hc _

theorem stops_of_blank {w : List Char} (hw : Blank w) {c : Char} (hc : c = ']' ∨ c = '\x7d')
    (r : List Char) : Stops (w ++ c :: r) := by
  intro d hd
  cases w with
  | nil =>
    cases hd
    rcases hc with rfl | rfl <;> decide
  | cons b w =>
    cases hd
    have hb := hw d (by simp)
    simp only [isSpace, Bool.or_eq_true, beq_iff_eq] at hb
    rcases hb with ((rfl | rfl) | rfl) | rfl <;> decide

theorem stops_comma (r : List Char) : Stops (',' :: r) := by
  intro c hc
  cases hc
  decide

theorem length_quote (k : String) : 2 ≤ (quote k).length := by simp [quote]

theorem scanValue_quote (fuel levels : Nat) (s : String) (r : List Char) :
    scanValue (fuel + 1) levels (quote s ++ r) = some (.string s, r) := by
  have hs := scanString_quote s r
  rw [quote, List.cons_append, List.append_assoc, List.singleton_append, scanValue, hs]
  simp

theorem scanValue_array {cs : List Char} (h : Opens cs) {w : List Char} (hw : Blank w)
    (fuel levels : Nat) (r : List Char) :
    scanValue (fuel + 1) (levels + 1) ('[' :: (w ++ (cs ++ r))) =
      (scanValue.scanItems fuel levels [] (cs ++ r)).map fun (js, r) => (.array js, r) := by
  rw [scanValue, skip_of_opens h hw]
  obtain ⟨c, ds, rfl, -, hc, -⟩ := h
  split
  · rename_i heq; exact absurd (List.cons.inj heq).1 hc
  · rfl

theorem scanValue_object {cs : List Char} (h : Opens cs) {w : List Char} (hw : Blank w)
    (fuel levels : Nat) (r : List Char) :
    scanValue (fuel + 1) (levels + 1) ('\x7b' :: (w ++ (cs ++ r))) =
      (scanValue.scanMembers fuel levels [] (cs ++ r)).map fun (ms, r) => (.object ms, r) := by
  rw [scanValue, skip_of_opens h hw]
  obtain ⟨c, ds, rfl, -, -, hc⟩ := h
  split
  · rename_i heq; exact absurd (List.cons.inj heq).1 hc
  · rfl

/-- The members behind a key and its value. -/
theorem scanMembers_key {fuel levels : Nat} (done : List (String × Json)) (k : String)
    {v cs r : List Char} {j : Json} (hv : Blank v) (ho : Opens cs)
    (h : scanValue fuel levels (cs ++ r) = some (j, r)) :
    scanValue.scanMembers (fuel + 1) levels done (quote k ++ ':' :: (v ++ (cs ++ r))) =
      match skip r with
      | ',' :: r => scanValue.scanMembers fuel levels ((k, j) :: done) (skip r)
      | '\x7d' :: r => some (((k, j) :: done).reverse, r)
      | _ => none := by
  have hk := scanString_quote k (':' :: (v ++ (cs ++ r)))
  rw [quote, List.cons_append, List.append_assoc, List.singleton_append, scanValue.scanMembers]
  simp only [hk, Option.bind_eq_bind, Option.bind_some, skip_cons (c := ':') rfl,
    skip_of_opens ho hv, h, String.ofList_toList] <;> rfl

mutual

/-- The reader gives the document of a text and stops behind it. -/
theorem scanValue_of_writes {j : Json} {cs : List Char} (h : Writes j cs) (fuel levels : Nat)
    (r : List Char) (hd : j.depth ≤ levels) (hf : 2 * cs.length ≤ fuel) (hr : Stops r) :
    scanValue fuel levels (cs ++ r) = some (j, r) := by
  obtain ⟨c, ds, hc, -⟩ := opens_of_writes h
  obtain ⟨fuel, rfl⟩ : ∃ n, fuel = n + 1 := ⟨fuel - 1, by rw [hc, List.length_cons] at hf; omega⟩
  cases h with
  | null => rfl
  | true => rfl
  | false => rfl
  | integer i h =>
    have hscan := scanNumber_intText h hr
    have hsign : c.isDigit = true ∨ c = '-' := by
      cases i with
      | ofNat n =>
        have hm : c ∈ Nat.toDigits 10 n := by
          rw [Text.intText, Text.natText, String.toList_ofList] at hc
          simp [hc]
        exact .inl (isDigit_of_mem_toDigits hm)
      | negSucc n =>
        have hc : '-' :: Nat.toDigits 10 (n + 1) = c :: ds := by
          simpa [Text.intText, Text.natText] using hc
        exact .inr (List.cons.inj hc).1.symm
    rw [hc, List.cons_append] at hscan ⊢
    rw [scanValue_of_isDigit hsign]
    exact hscan
  | string s => exact scanValue_quote fuel levels s r
  | emptyArray =>
    obtain ⟨levels, rfl⟩ : ∃ n, levels = n + 1 := ⟨levels - 1, by rw [depth] at hd; omega⟩
    rfl
  | array w hw h =>
    obtain ⟨levels, rfl⟩ : ∃ n, levels = n + 1 := ⟨levels - 1, by rw [depth] at hd; omega⟩
    rw [List.length_cons, List.length_append] at hf
    have hjs := scanItems_of_writes h fuel levels [] r (Nat.le_of_succ_le_succ hd) (by omega)
    rw [List.cons_append, List.append_assoc, scanValue_array (opens_of_writesItems h) hw, hjs]
    rfl
  | emptyObject =>
    obtain ⟨levels, rfl⟩ : ∃ n, levels = n + 1 := ⟨levels - 1, by rw [depth] at hd; omega⟩
    rfl
  | object w hw h =>
    obtain ⟨levels, rfl⟩ : ∃ n, levels = n + 1 := ⟨levels - 1, by rw [depth] at hd; omega⟩
    rw [List.length_cons, List.length_append] at hf
    have hms := scanMembers_of_writes h fuel levels [] r (Nat.le_of_succ_le_succ hd) (by omega)
    rw [List.cons_append, List.append_assoc, scanValue_object (opens_of_writesMembers h) hw, hms]
    rfl

theorem scanItems_of_writes {js : List Json} {cs : List Char} (h : WritesItems js cs)
    (fuel levels : Nat) (done : List Json) (r : List Char) (hd : depth.items js ≤ levels)
    (hf : 2 * cs.length ≤ fuel) :
    scanValue.scanItems fuel levels done (cs ++ r) = some (done.reverse ++ js, r) := by
  cases h with
  | last w hw h =>
    rename_i j cs
    simp only [List.length_append, List.length_cons, List.length_nil] at hf
    obtain ⟨fuel, rfl⟩ : ∃ n, fuel = n + 1 := ⟨fuel - 1, by omega⟩
    have hj := scanValue_of_writes h fuel levels (w ++ ']' :: r)
      (by simpa [depth.items] using hd) (by omega) (stops_of_blank hw (.inl rfl) r)
    have hskip : skip (w ++ ']' :: r) = ']' :: r := (skip_append hw _).trans (skip_cons rfl r)
    rw [List.append_assoc, List.append_assoc, List.singleton_append, scanValue.scanItems]
    simp [hj, hskip]
  | more w hw h hs =>
    rename_i j cs js ds
    simp only [List.length_append, List.length_cons] at hf
    obtain ⟨fuel, rfl⟩ : ∃ n, fuel = n + 1 := ⟨fuel - 1, by omega⟩
    rw [depth.items, Nat.max_le] at hd
    have hj := scanValue_of_writes h fuel levels (',' :: (w ++ (ds ++ r))) hd.1
      (by omega) (stops_comma _)
    have hjs := scanItems_of_writes hs fuel levels (j :: done) r hd.2 (by omega)
    rw [List.append_assoc, List.cons_append, List.append_assoc, scanValue.scanItems]
    simp [hj, hjs, skip_cons (c := ',') rfl, skip_of_opens (opens_of_writesItems hs) hw]

theorem scanMembers_of_writes {ms : List (String × Json)} {cs : List Char} (h : WritesMembers ms cs)
    (fuel levels : Nat) (done : List (String × Json)) (r : List Char)
    (hd : depth.members ms ≤ levels) (hf : 2 * cs.length ≤ fuel) :
    scanValue.scanMembers fuel levels done (cs ++ r) = some (done.reverse ++ ms, r) := by
  cases h with
  | last k v w hv hw h =>
    rename_i j cs
    have hq := length_quote k
    simp only [List.length_append, List.length_cons, List.length_nil] at hf
    obtain ⟨fuel, rfl⟩ : ∃ n, fuel = n + 1 := ⟨fuel - 1, by omega⟩
    have hj := scanValue_of_writes h fuel levels (w ++ '\x7d' :: r)
      (by simpa [depth.members] using hd) (by omega) (stops_of_blank hw (.inr rfl) r)
    have hskip : skip (w ++ '\x7d' :: r) = '\x7d' :: r := (skip_append hw _).trans (skip_cons rfl r)
    have hkey := scanMembers_key done k hv (opens_of_writes h) hj
    simp only [List.append_assoc, List.cons_append, List.nil_append] at hkey ⊢
    rw [hkey, hskip]
    simp
  | more k v w hv hw h hs =>
    rename_i j cs ms ds
    have hq := length_quote k
    simp only [List.length_append, List.length_cons] at hf
    obtain ⟨fuel, rfl⟩ : ∃ n, fuel = n + 1 := ⟨fuel - 1, by omega⟩
    rw [depth.members, Nat.max_le] at hd
    have hj := scanValue_of_writes h fuel levels (',' :: (w ++ (ds ++ r))) hd.1
      (by omega) (stops_comma _)
    have hms := scanMembers_of_writes hs fuel levels ((k, j) :: done) r hd.2 (by omega)
    have hkey := scanMembers_key done k hv (opens_of_writes h) hj
    simp only [List.append_assoc, List.cons_append] at hkey ⊢
    rw [hkey, skip_cons rfl]
    simp [hms, skip_of_opens (opens_of_writesMembers hs) hw]

end

theorem ofChars?_of_writes {j : Json} {cs : List Char} (h : Writes j cs) (hd : j.depth ≤ maxDepth) :
    ofChars? cs = some j := by
  have hscan := scanValue_of_writes h (2 * cs.length + 2) maxDepth [] hd (by omega)
    (by intro c hc; cases hc)
  have hskip := skip_of_opens (opens_of_writes h) blank_nil []
  rw [List.append_nil, List.nil_append] at hskip
  rw [List.append_nil] at hscan
  have hend : skip [] = [] := rfl
  simp [ofChars?, hskip, hscan, hend]

/-! ### Keys that are distinct already -/

theorem put_of_notMem {k : String} {ms : List (String × Json)} (h : k ∉ ms.map Prod.fst) (j : Json) :
    put ms k j = ms ++ [(k, j)] := by
  induction ms with
  | nil => rfl
  | cons m ms ih =>
    rw [List.map_cons, List.mem_cons, not_or] at h
    obtain ⟨l, i⟩ := m
    rw [put, if_neg (Ne.symm h.1), ih h.2, List.cons_append]

theorem merged_items {js : List Json} (h : ∀ j ∈ js, merged j = j) : merged.items js = js := by
  induction js with
  | nil => rfl
  | cons j js ih => rw [merged.items, h j (by simp), ih fun i hi => h i (by simp [hi])]

theorem merged_members {done ms : List (String × Json)} (hk : ((done ++ ms).map Prod.fst).Nodup)
    (h : ∀ m ∈ ms, merged m.2 = m.2) : merged.members done ms = done ++ ms := by
  induction ms generalizing done with
  | nil => simp [merged.members]
  | cons m ms ih =>
    obtain ⟨k, j⟩ := m
    have hnot : k ∉ done.map Prod.fst := by
      rw [List.map_append, List.nodup_append] at hk
      exact fun hm => hk.2.2 k hm k (by simp) rfl
    rw [merged.members, h (k, j) (by simp), put_of_notMem hnot, ih]
    · simp
    · simpa using hk
    · exact fun i hi => h i (by simp [hi])

theorem merged_of_plain {j : Json} (h : j.Plain) : merged j = j := by
  induction j using inductOn with
  | array js ih =>
    cases h with
    | array h => rw [merged, merged_items fun j hj => ih j hj (h j hj)]
  | object ms ih =>
    cases h with
    | object hk h =>
      rw [merged, merged_members (by simpa using hk) fun m hm => ih m hm (h m hm), List.nil_append]
  | _ => rfl

/-- A plain document is read from each of its texts. -/
theorem ofText?_of_writes {j : Json} {cs : List Char} (h : Writes j cs) (hp : j.Plain)
    (hd : j.depth ≤ maxDepth) : ofText? (String.ofList cs) = some j := by
  rw [ofText?, ofWholeText?, String.toList_ofList, ofChars?_of_writes h hd, Option.map_some,
    merged_of_plain hp]

end DeviceModel.Json
