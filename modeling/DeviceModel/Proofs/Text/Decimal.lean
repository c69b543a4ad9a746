import DeviceModel.Decimal
import DeviceModel.Proofs.Text.Digits
import Mathlib

/-!
The text of decimal numbers. Main statements: it reads back as the number, with its scale
(`Decimal.ofText?_text`), and is of no more than 31 characters (`Decimal.length_chars_le`); a text that is read as
a number has at most two minuses (`Decimal.count_minus_of_ofChars?`).
-/

namespace DeviceModel

namespace Decimal

/-- Digits that fit are read one after the other. -/
theorem scan_digits {point seen : Bool} {ds : List Char} {m s : Nat}
    (hd : ∀ c ∈ ds, c.isDigit = true) (hm : Nat.ofDigitChars 10 ds m ≤ maxMantissa)
    (hs : point = true → s + ds.length ≤ maxScale) (cs : List Char) :
    scan point seen m s (ds ++ cs) =
      scan point (seen || !ds.isEmpty) (Nat.ofDigitChars 10 ds m)
        (if point then s + ds.length else s) cs := by
  induction ds generalizing seen m s with
  | nil => simp
  | cons c ds ih =>
    rw [Nat.ofDigitChars_cons] at hm
    have hc := hd c (by simp)
    have hfit : m * 10 + (c.toNat - '0'.toNat) ≤ maxMantissa ∧ (point = true → s < maxScale) := by
      refine ⟨?_, fun hp => ?_⟩
      · rw [Nat.mul_comm]
        exact Nat.le_trans (Text.le_ofDigitChars ds _) hm
      · have := hs hp
        rw [List.length_cons] at this
        omega
    rw [List.cons_append, scan, if_pos hc]
    simp only [if_pos hfit]
    rw [Nat.ofDigitChars_cons, Nat.mul_comm 10 m]
    refine (ih (fun d h => hd d (by simp [h])) (by rwa [Nat.mul_comm]) fun hp => ?_).trans ?_
    · have := hs hp
      rw [List.length_cons] at this
      rw [if_pos hp]
      omega
    · cases point <;> simp [Nat.add_comm, Nat.add_left_comm]

/-- The digits before and behind the point. -/
theorem chars_eq (d : Decimal) : ∃ whole fraction, whole ≠ [] ∧ fraction.length = d.scale ∧
    (∀ c ∈ whole ++ fraction, c.isDigit = true) ∧
    Nat.ofDigitChars 10 (whole ++ fraction) 0 = d.mantissa ∧
    d.chars = (if d.negative then ['-'] else []) ++ whole ++
      (if d.scale = 0 then [] else '.' :: fraction) := by
  let ds := List.replicate (d.scale + 1 - (Nat.toDigits 10 d.mantissa).length) '0' ++
    Nat.toDigits 10 d.mantissa
  have hl : d.scale + 1 ≤ ds.length := by simp [ds]; omega
  refine ⟨ds.take (ds.length - d.scale), ds.drop (ds.length - d.scale), ?_, ?_, ?_, ?_, rfl⟩
  · rw [← List.length_pos_iff, List.length_take]
    omega
  · rw [List.length_drop]
    omega
  · rw [List.take_append_drop]
    intro c hc
    rcases List.mem_append.1 hc with hc | hc
    · rw [(List.mem_replicate.1 hc).2]
      rfl
    · exact Nat.isDigit_of_mem_toDigits (by decide) (by decide) hc
  · rw [List.take_append_drop, Nat.ofDigitChars_append, Nat.ofDigitChars_replicate_zero,
      Nat.mul_zero, Nat.ofDigitChars_ten_toDigits]

theorem scan_chars {whole fraction : List Char} {m s : Nat} (hw : whole ≠ [])
    (hl : fraction.length = s) (hd : ∀ c ∈ whole ++ fraction, c.isDigit = true)
    (hv : Nat.ofDigitChars 10 (whole ++ fraction) 0 = m) (hm : m ≤ maxMantissa)
    (hs : s ≤ maxScale) :
    scan false false 0 0 (whole ++ if s = 0 then [] else '.' :: fraction) = some (m, s) := by
  rw [Nat.ofDigitChars_append] at hv
  have hwd := fun c hc => hd c (List.mem_append_left _ hc)
  have hfd := fun c hc => hd c (List.mem_append_right _ hc)
  have hseen : (!whole.isEmpty) = true := by simp [hw]
  have hwm : Nat.ofDigitChars 10 whole 0 ≤ maxMantissa :=
    Nat.le_trans (Text.le_ofDigitChars fraction _) (hv ▸ hm)
  rw [scan_digits hwd hwm (by simp), Bool.false_or, hseen, if_neg Bool.false_ne_true]
  by_cases h0 : s = 0
  · rw [List.length_eq_zero_iff.1 (hl.trans h0), Nat.ofDigitChars_nil] at hv
    rw [if_pos h0, scan, if_pos rfl, hv, h0]
  · have hpoint : scan true true _ 0 (fraction ++ []) = _ :=
      scan_digits hfd (hv ▸ hm) (fun _ => by omega) []
    rw [List.append_nil, hv, Nat.zero_add, hl] at hpoint
    rw [if_neg h0, scan.eq_2, if_neg (by decide), if_pos (by decide)]
    exact hpoint

theorem not_isExponentMark {c : Char} (h : c.isDigit = true) : isExponentMark c = false := by
  rw [isExponentMark, Bool.or_eq_false_iff, beq_eq_false_iff_ne, beq_eq_false_iff_ne]
  constructor <;> rintro rfl <;> exact absurd h (by decide)

theorem ofPlain?_of_isDigit {c : Char} (h : c.isDigit = true) (cs : List Char) :
    ofPlain? (c :: cs) = (scan false false 0 0 (c :: cs)).map fun (m, s) => ofParts false m s := by
  unfold ofPlain?
  split
  · rename_i heq; cases heq; exact absurd h (by decide)
  · rename_i heq; cases heq; exact absurd h (by decide)
  · rfl

/-- The number without the sign of a zero, which is lost when it is written and read. -/
def reread (d : Decimal) : Decimal := ofParts d.negative d.mantissa d.scale

theorem reread_eq {d : Decimal} (hz : d.mantissa = 0 → d.negative = false) : d.reread = d := by
  obtain ⟨negative, m, s⟩ := d
  cases negative with
  | false => rfl
  | true =>
    have hm : (m != 0) = true := by simpa using hz
    rw [reread, ofParts, hm]
    rfl

theorem same_reread (d : Decimal) : d.reread.same d = true := by
  have hsame : d.reread.numerator = d.numerator := by
    by_cases hm : d.mantissa = 0
    · simp [reread, ofParts, numerator, signed, hm]
    · rw [reread_eq fun h => absurd h hm]
  rw [same, hsame]
  exact beq_self_eq_true _

theorem ofPlain?_chars {d : Decimal} (h : d.Storable) : ofPlain? d.chars = some d.reread := by
  obtain ⟨whole, fraction, hw, hl, hd, hv, hc⟩ := d.chars_eq
  have hscan := scan_chars hw hl hd hv h.1 h.2
  obtain ⟨c, whole, rfl⟩ := List.exists_cons_of_ne_nil hw
  rw [hc]
  obtain ⟨negative, m, s⟩ := d
  cases negative with
  | false =>
    simp only [Bool.false_eq_true, if_false, List.nil_append, List.cons_append] at hscan ⊢
    rw [ofPlain?_of_isDigit (hd c (by simp)), hscan]
    rfl
  | true =>
    simp only [if_true, List.cons_append, List.nil_append, ofPlain?] at hscan ⊢
    rw [hscan]
    rfl

/-- The characters of a number: its digits, a minus and a point. -/
theorem isDigit_of_mem_chars {d : Decimal} {c : Char} (h : c ∈ d.chars) :
    c.isDigit = true ∨ c = '-' ∨ c = '.' := by
  obtain ⟨whole, fraction, hw, hl, hd, hv, hc⟩ := d.chars_eq
  rw [hc, List.mem_append, List.mem_append] at h
  rcases h with (h | h) | h
  · split at h
    · exact .inr (.inl (List.mem_singleton.1 h))
    · cases h
  · exact .inl (hd c (List.mem_append_left _ h))
  · split at h
    · cases h
    · rcases List.mem_cons.1 h with rfl | h
      · exact .inr (.inr rfl)
      · exact .inl (hd c (List.mem_append_right _ h))

/-- A number with a stored form is read back from its text, but for the sign of a zero. -/
theorem ofText?_text {d : Decimal} (h : d.Storable) :
    ofText? d.text = some d.reread := by
  have hmark : d.chars.dropWhile (!isExponentMark ·) = [] := by
    rw [List.dropWhile_eq_nil_iff]
    intro c hm
    rcases isDigit_of_mem_chars hm with hc | rfl | rfl
    · rw [not_isExponentMark hc]
      rfl
    · rfl
    · rfl
  rw [ofText?, text, String.toList_ofList, ofChars?, hmark]
  exact ofPlain?_chars h

/-- A sign, 29 digits and a point. -/
theorem length_chars_le {d : Decimal} (h : d.Storable) : d.chars.length ≤ 31 := by
  have hdigits : (Nat.toDigits 10 d.mantissa).length ≤ 29 :=
    Nat.toDigits_length 10 d.mantissa 29 (by decide) (Nat.lt_of_le_of_lt h.1 (by decide))
  have hscale : d.scale ≤ 28 := h.2
  let ds := List.replicate (d.scale + 1 - (Nat.toDigits 10 d.mantissa).length) '0' ++ Nat.toDigits 10 d.mantissa
  have hds : ds.length ≤ 29 := by
    simp only [ds, List.length_append, List.length_replicate]
    omega
  have hsign : (if d.negative then ['-'] else []).length ≤ 1 := by split <;> simp
  have hpoint : (if d.scale = 0 then [] else '.' :: ds.drop (ds.length - d.scale)).length ≤
      (ds.drop (ds.length - d.scale)).length + 1 := by split <;> simp
  calc d.chars.length
      = (if d.negative then ['-'] else []).length + (ds.take (ds.length - d.scale)).length +
          (if d.scale = 0 then [] else '.' :: ds.drop (ds.length - d.scale)).length := by
        rw [← List.length_append, ← List.length_append]
        rfl
    _ ≤ 1 + (ds.take (ds.length - d.scale)).length + ((ds.drop (ds.length - d.scale)).length + 1) := by omega
    _ = ds.length + 2 := by
        rw [List.length_take, List.length_drop]
        omega
    _ ≤ 31 := by omega

/-! ### Text that is read -/

theorem minus_notMem_of_scan {point seen : Bool} {m s : Nat} {cs : List Char} {r : Nat × Nat}
    (h : scan point seen m s cs = some r) : '-' ∉ cs := by
  induction cs generalizing point seen m s with
  | nil => exact List.not_mem_nil
  | cons c cs ih =>
    rw [scan] at h
    rw [List.mem_cons, not_or]
    split at h
    · rename_i hc
      refine ⟨by rintro rfl; exact absurd hc (by decide), ?_⟩
      by_cases hfit : m * 10 + (c.toNat - '0'.toNat) ≤ maxMantissa ∧ (point = true → s < maxScale)
      · simp only [if_pos hfit] at h
        exact ih h
      · simp only [if_neg hfit] at h
        split at h
        · rename_i hrest
          exact fun hm => absurd (List.all_eq_true.1 hrest.2 _ hm) (by decide)
        · cases h
    · split at h
      · rename_i hpoint
        exact ⟨by rw [hpoint.1]; decide, ih h⟩
      · split at h
        · rename_i hbar
          exact ⟨by rw [hbar.1]; decide, ih h⟩
        · cases h

theorem count_minus_of_ofPlain? {cs : List Char} {d : Decimal} (h : ofPlain? cs = some d) : cs.count '-' ≤ 1 := by
  have hscan : ∀ {negative : Bool} {r : List Char},
      (scan false false 0 0 r).map (fun (m, s) => ofParts negative m s) = some d → r.count '-' = 0 := by
    intro _ r h
    obtain ⟨p, hp, -⟩ := Option.map_eq_some_iff.1 h
    exact List.count_eq_zero.2 (minus_notMem_of_scan hp)
  unfold ofPlain? at h
  split at h
  · rw [List.count_cons_self, hscan h]
  · rw [List.count_cons_of_ne (by decide), hscan h]
    decide
  · rw [hscan h]
    decide

theorem minus_notMem_of_exponent? {cs : List Char} {n : Nat} (h : exponent? cs = some n) : '-' ∉ cs := by
  unfold exponent? at h
  split at h
  · simpa using Text.minus_notMem_of_readNat? h
  · exact Text.minus_notMem_of_readNat? h

/-- The number and its exponent have a sign each. -/
theorem count_minus_of_ofChars? {cs : List Char} {d : Decimal} (h : ofChars? cs = some d) : cs.count '-' ≤ 2 := by
  unfold ofChars? at h
  split at h
  · exact (count_minus_of_ofPlain? h).trans (by decide)
  · rename_i c exponent hmark
    obtain ⟨e, he, h⟩ := Option.bind_eq_some_iff.1 h
    have hbefore := count_minus_of_ofPlain? he
    have hc : c ≠ '-' := by
      have hhead := List.head?_dropWhile_not (!isExponentMark ·) cs
      rw [hmark] at hhead
      rintro rfl
      cases hhead
    have hbehind : exponent.count '-' ≤ 1 := by
      split at h
      · obtain ⟨n, hn, -⟩ := Option.bind_eq_some_iff.1 h
        rw [List.count_cons_self, List.count_eq_zero.2 (minus_notMem_of_exponent? hn)]
      · obtain ⟨n, hn, -⟩ := Option.bind_eq_some_iff.1 h
        rw [List.count_eq_zero.2 (minus_notMem_of_exponent? hn)]
        decide
    rw [← List.takeWhile_append_dropWhile (p := (!isExponentMark ·)) (l := cs), List.count_append, hmark,
      List.count_cons_of_ne hc]
    omega

end Decimal

end DeviceModel
