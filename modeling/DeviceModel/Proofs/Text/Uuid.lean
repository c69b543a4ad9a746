import DeviceModel.Proofs.Text.Digits
import DeviceModel.Uuid

/-!
The text of identifiers. Main statements: it reads back as the identifier (`Uuid.ofText?_text`), and a text that is
read as an identifier is of at least 32 characters (`Uuid.length_of_ofChars?`).
-/

namespace DeviceModel

namespace Text

theorem splitOn_of_notMem {sep : Char} {cs : List Char} (h : sep ∉ cs) : splitOn sep cs = [cs] := by
  induction cs with
  | nil => rfl
  | cons c cs ih =>
    rw [List.mem_cons, not_or] at h
    simp [splitOn, Ne.symm h.1, ih h.2]

theorem splitOn_append {sep : Char} {cs : List Char} (h : sep ∉ cs) (ds : List Char) :
    splitOn sep (cs ++ sep :: ds) = cs :: splitOn sep ds := by
  induction cs with
  | nil => simp [splitOn]
  | cons c cs ih =>
    rw [List.mem_cons, not_or] at h
    simp [splitOn, Ne.symm h.1, ih h.2]

/-- What stands between the separators, and these themselves. -/
theorem length_splitOn (sep : Char) (cs : List Char) :
    ((splitOn sep cs).map List.length).sum + (splitOn sep cs).length = cs.length + 1 := by
  induction cs with
  | nil => rfl
  | cons c cs ih =>
    rw [splitOn]
    split
    · simp only [List.map_cons, List.sum_cons, List.length_nil, List.length_cons]
      omega
    · cases hs : splitOn sep cs with
      | nil => exact absurd hs (splitOn_ne_nil sep cs)
      | cons p ps =>
        rw [hs] at ih
        simp only [List.map_cons, List.sum_cons, List.length_cons] at ih ⊢
        omega

end Text

namespace Uuid

theorem length_places (n v : Nat) : (places n v).length = n := by
  induction n generalizing v with
  | zero => rfl
  | succ n ih => simp [places, ih]

theorem exists_of_mem_places {c : Char} {n v : Nat} (h : c ∈ places n v) :
    ∃ d < 16, c = Nat.digitChar d := by
  induction n generalizing v with
  | zero => simp [places] at h
  | succ n ih =>
    rcases List.mem_append.1 h with h | h
    · exact ih h
    · exact ⟨v % 16, Nat.mod_lt _ (by decide), List.mem_singleton.1 h⟩

theorem ne_of_mem_places {c : Char} {n v : Nat} (h : c ∈ places n v) : c ≠ '-' ∧ c ≠ '\x7b' := by
  obtain ⟨d, hd, rfl⟩ := exists_of_mem_places h
  clear h
  revert d
  decide

theorem readDigits_places (n v : Nat) : Text.readDigits 16 0 (places n v) = some (v % 16 ^ n) := by
  induction n generalizing v with
  | zero => simp [places, Text.readDigits, Nat.mod_one]
  | succ n ih =>
    have hd : v % 16 < 16 := Nat.mod_lt _ (by decide)
    rw [places, Text.readDigits_append, ih]
    simp only [Option.bind_some, Text.readDigits, Text.digitValue?_digitChar hd, Option.bind_eq_bind,
      if_pos hd]
    rw [Nat.pow_succ', Nat.mod_mul, Nat.mul_comm, Nat.add_comm]

/-- The text of an identifier in its five groups. -/
theorem chars_eq (u : Uuid) : ∃ a b c d e, u.chars = a ++ '-' :: b ++ '-' :: c ++ '-' :: d ++ '-' :: e ∧
    [a, b, c, d, e].map List.length = [8, 4, 4, 4, 12] ∧ a ++ b ++ c ++ d ++ e = places 32 u.val := by
  have hl := length_places 32 u.val
  refine ⟨_, _, _, _, _, rfl, ?_, ?_⟩
  · simp [hl]
  · generalize places 32 u.val = ds at hl
    simp only [List.append_assoc]
    have cut : ∀ i n, (ds.drop i).take n ++ ds.drop (i + n) = ds.drop i := fun i n => by
      rw [← List.drop_drop]; exact List.take_append_drop n _
    have last : (ds.drop 20).take 12 = ds.drop 20 := List.take_of_length_le (by simp [hl])
    rw [last, cut 16 4, cut 12 4, cut 8 4, cut 0 8]
    rfl

theorem readHyphenated?_chars {u : Uuid} (h : u.Storable) : readHyphenated? u.chars = some u.val := by
  obtain ⟨a, b, c, d, e, hu, hl, hp⟩ := u.chars_eq
  have dash : ∀ cs : List Char, (∀ x ∈ cs, x ∈ a ++ b ++ c ++ d ++ e) → '-' ∉ cs :=
    fun cs hcs hm => (ne_of_mem_places (hp ▸ hcs _ hm)).1 rfl
  have hs : Text.splitOn '-' u.chars = [a, b, c, d, e] := by
    rw [hu]
    simp only [List.append_assoc, List.cons_append]
    rw [Text.splitOn_append (dash a fun x hx => by simp [hx]),
      Text.splitOn_append (dash b fun x hx => by simp [hx]),
      Text.splitOn_append (dash c fun x hx => by simp [hx]),
      Text.splitOn_append (dash d fun x hx => by simp [hx]),
      Text.splitOn_of_notMem (dash e fun x hx => by simp [hx])]
  have hne : (places 32 u.val).isEmpty = false := by
    cases hds : places 32 u.val with
    | nil => have hlen := length_places 32 u.val; rw [hds] at hlen; cases hlen
    | cons => rfl
  rw [readHyphenated?, hs]
  simp only [if_pos hl, hp, Text.readNat?, hne, readDigits_places, Bool.false_eq_true, if_false]
  exact congrArg some (Nat.mod_eq_of_lt h)

/-- An identifier of 128 bits is read back from its text. -/
theorem ofText?_text {u : Uuid} (h : u.Storable) : ofText? u.text = some u := by
  obtain ⟨a, b, c, d, e, hu, hl, hp⟩ := u.chars_eq
  simp only [List.map_cons, List.map_nil, List.cons.injEq, and_true] at hl
  obtain ⟨ha, hb, hc, hd, he⟩ := hl
  have hlen : u.chars.length ≠ 32 := by simp [hu, ha, hb, hc, hd, he]
  have hurn : (u.chars.take 9).map Char.toLower ≠ urn := by
    have htake : u.chars.take 9 = a ++ ['-'] := by
      rw [hu]
      simp only [List.append_assoc, List.cons_append]
      rw [List.take_append, ha, List.take_of_length_le (by omega)]
      rfl
    rw [htake, List.map_append]
    intro h
    have hlast := congrArg List.getLast? h
    simp [urn] at hlast
  have hr := readHyphenated?_chars h
  rw [ofText?, text, String.toList_ofList, ofChars?, if_neg hlen, if_neg hurn]
  · exact congrArg (Option.map Uuid.mk) hr
  · -- An opening brace would be one of the digits.
    intro r hbrace
    obtain ⟨x, a, rfl⟩ := List.exists_cons_of_length_pos (l := a) (by omega)
    rw [hu] at hbrace
    refine (ne_of_mem_places (n := 32) (v := u.val) ?_).2 (List.cons.inj hbrace).1
    rw [← hp]
    simp

/-- Four hyphens, apart from the digits. -/
theorem count_minus_chars (u : Uuid) : 4 ≤ u.chars.count '-' := by
  obtain ⟨a, b, c, d, e, hu, -⟩ := u.chars_eq
  simp only [hu, List.count_append, List.count_cons_self]
  omega

theorem length_of_readHyphenated? {cs : List Char} {n : Nat} (h : readHyphenated? cs = some n) : cs.length = 36 := by
  have hlength := Text.length_splitOn '-' cs
  unfold readHyphenated? at h
  split at h
  · rename_i a b c d e hs
    split at h
    · rename_i hl
      rw [hs, hl] at hlength
      simp only [List.sum_cons, List.sum_nil, List.length_cons, List.length_nil] at hlength
      omega
    · cases h
  · cases h

theorem length_of_ofChars? {cs : List Char} {u : Uuid} (h : ofChars? cs = some u) : 32 ≤ cs.length := by
  obtain ⟨n, hn, -⟩ := Option.map_eq_some_iff.1 h
  split at hn
  · omega
  · split at hn
    · have := length_of_readHyphenated? hn
      rw [List.length_drop] at this
      omega
    · split at hn
      · split at hn
        · have := length_of_readHyphenated? hn
          rw [List.length_dropLast] at this
          rw [List.length_cons]
          omega
        · cases hn
      · have := length_of_readHyphenated? hn
        omega

end Uuid

end DeviceModel
