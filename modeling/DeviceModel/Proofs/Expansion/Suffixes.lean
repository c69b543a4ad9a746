import DeviceModel.Proofs.Expansion.Families

/-!
Suffixes of overflow groups. A word of letters is a number without a zero, in which `A` counts one and `Z`
26, and each letter 26 times what it would count one place further on. Main statement: the suffixes behind
the first chunk's are all words in their order, none of them twice (`chunkSuffix_enumerates`), so the
multiplexers of one group have different names (`chunk_of_name`).
-/

namespace DeviceModel.Family

def IsCapital (c : Char) : Prop := 'A' ≤ c ∧ c ≤ 'Z'

theorem isCapital_iff {c : Char} : IsCapital c ↔ 65 ≤ c.toNat ∧ c.toNat ≤ 90 := Iff.rfl

/-- A word over the letters A to Z. -/
structure Capitals (s : List Char) : Prop where
  ne_nil : s ≠ []
  capital : ∀ c ∈ s, IsCapital c

/-- The number that the letters `s` make behind `n`. -/
def ordinal (n : Nat) (s : List Char) : Nat := s.foldl (fun n c => 26 * n + (c.toNat - 64)) n

theorem ordinal_cons (n : Nat) (c : Char) (s : List Char) :
    ordinal n (c :: s) = ordinal (26 * n + (c.toNat - 64)) s := List.foldl_cons ..

theorem ordinal_append (n : Nat) (s t : List Char) :
    ordinal n (s ++ t) = ordinal (ordinal n s) t := List.foldl_append

/-! ### Letters -/

theorem toNat_letter {n : Nat} (h : n < 26) : (Char.ofNat (65 + n)).toNat = 65 + n := by
  rw [Char.toNat_ofNat, if_pos (.inl (by omega))]

theorem isCapital_letter {n : Nat} (h : n < 26) : IsCapital (Char.ofNat (65 + n)) := by
  rw [isCapital_iff, toNat_letter h]
  omega

theorem letter_of_isCapital {c : Char} (h : IsCapital c) :
    c.toNat - 65 < 26 ∧ Char.ofNat (65 + (c.toNat - 65)) = c := by
  obtain ⟨hA, hZ⟩ := isCapital_iff.1 h
  exact ⟨by omega, by rw [Nat.add_sub_cancel' hA, Char.ofNat_toNat]⟩

/-- The number before is that of the letters before the last one. -/
theorem letters_concat (n : Nat) {d : Nat} (h : d < 26) :
    letters (26 * (n + 1) + d) = letters n ++ [Char.ofNat (65 + d)] := by
  rw [letters, if_neg (by omega), show (26 * (n + 1) + d) / 26 - 1 = n by omega,
    show (26 * (n + 1) + d) % 26 = d by omega]

theorem capitals_letters (n : Nat) : Capitals (letters n) := by
  fun_induction letters n with
  | case1 n h => exact ⟨by simp, by simpa using isCapital_letter h⟩
  | case2 n h ih =>
    have hlast := isCapital_letter (Nat.mod_lt n (by omega : 26 > 0))
    exact ⟨by simp, List.forall_mem_append.2 ⟨ih.capital, by simpa using hlast⟩⟩

/-- Numbers are counted from zero, words from one. -/
theorem ordinal_letters (n : Nat) : ordinal 0 (letters n) = n + 1 := by
  fun_induction letters n with
  | case1 n h =>
    simp only [ordinal_cons, toNat_letter h]
    simp [ordinal]
    omega
  | case2 n h ih =>
    rw [ordinal_append, ih, ordinal_cons, toNat_letter (Nat.mod_lt n (by omega))]
    simp only [ordinal, List.foldl_nil]
    omega

theorem letters_injective : Function.Injective letters := by
  intro m n h
  have hordinal := congrArg (ordinal 0) h
  rwa [ordinal_letters, ordinal_letters, Nat.add_right_cancel_iff] at hordinal

/-- Every word is that of a number, by its last letter and the number of the letters before. -/
theorem exists_letters {s : List Char} (h : Capitals s) : ∃ n, letters n = s := by
  obtain ⟨hne, hs⟩ := h
  induction s using List.reverseRecOn with
  | nil => exact absurd rfl hne
  | append_singleton s c ih =>
    rw [List.forall_mem_append, List.forall_mem_singleton] at hs
    obtain ⟨hc, hletter⟩ := letter_of_isCapital hs.2
    by_cases h : s = []
    · refine ⟨c.toNat - 65, ?_⟩
      rw [letters, if_pos hc, hletter, h]
      rfl
    · obtain ⟨n, rfl⟩ := ih h hs.1
      exact ⟨26 * (n + 1) + (c.toNat - 65), by rw [letters_concat n hc, hletter]⟩

/-! ### Order -/

section

variable {s t : List Char} (hs : ∀ c ∈ s, IsCapital c) (ht : ∀ c ∈ t, IsCapital c)
include hs ht

/-- Between words of one length the numbers that they stand behind decide. -/
theorem ordinal_lt_of_lt {m n : Nat} (h : m < n) (hlength : s.length = t.length) :
    ordinal m s < ordinal n t := by
  induction s generalizing m n t with
  | nil => rwa [List.length_eq_zero_iff.1 hlength.symm]
  | cons c s ih =>
    cases t with
    | nil => cases hlength
    | cons d t =>
      rw [List.forall_mem_cons] at hs ht
      have hc := isCapital_iff.1 hs.1
      have hd := isCapital_iff.1 ht.1
      rw [ordinal_cons, ordinal_cons]
      exact ih hs.2 ht.2 (by omega) (Nat.succ.inj hlength)

/-- Between words of one length the first letters that differ decide. -/
theorem ordinal_lt_of_lex (h : List.Lex (· < ·) s t) (n : Nat) (hlength : s.length = t.length) :
    ordinal n s < ordinal n t := by
  induction h generalizing n with
  | nil => cases hlength
  | cons _ ih =>
    rw [List.forall_mem_cons] at hs ht
    exact ih hs.2 ht.2 _ (Nat.succ.inj hlength)
  | @rel c s d t hcd =>
    rw [List.forall_mem_cons] at hs ht
    have hc := isCapital_iff.1 hs.1
    have hcd : c.toNat < d.toNat := hcd
    rw [ordinal_cons, ordinal_cons]
    exact ordinal_lt_of_lt hs.2 ht.2 (by omega) (Nat.succ.inj hlength)

/-- The longer word stands behind the letters that it has more. -/
theorem ordinal_lt_of_length (h : s.length < t.length) : ordinal 0 s < ordinal 0 t := by
  obtain ⟨front, back, rfl, hback⟩ : ∃ front back, t = front ++ back ∧ s.length = back.length :=
    ⟨_, _, (List.take_append_drop (t.length - s.length) t).symm, by simp; omega⟩
  rw [List.forall_mem_append] at ht
  have hfront : front ≠ [] := by
    rintro rfl
    simp [hback] at h
  obtain ⟨n, rfl⟩ := exists_letters ⟨hfront, ht.1⟩
  rw [ordinal_append, ordinal_letters]
  exact ordinal_lt_of_lt hs ht.2 n.succ_pos hback

theorem ordinal_lt_of_shortlex (h : List.Shortlex (· < ·) s t) : ordinal 0 s < ordinal 0 t := by
  rcases List.shortlex_def.1 h with h | ⟨hlength, h⟩
  · exact ordinal_lt_of_length hs ht h
  · exact ordinal_lt_of_lex hs ht h 0 hlength

end

theorem shortlex_letters {m n : Nat} : List.Shortlex (· < ·) (letters m) (letters n) ↔ m < n := by
  have hlt : ∀ {m n}, List.Shortlex (· < ·) (letters m) (letters n) → m < n := by
    intro m n h
    have hordinal := ordinal_lt_of_shortlex (capitals_letters m).capital (capitals_letters n).capital h
    rwa [ordinal_letters, ordinal_letters, Nat.add_lt_add_iff_right] at hordinal
  refine ⟨hlt, fun h => ?_⟩
  rcases trichotomous_of (List.Shortlex (· < ·)) (letters m) (letters n) with hmn | hmn | hnm
  · exact hmn
  · exact absurd (letters_injective hmn) h.ne
  · exact absurd (hlt hnm) h.not_gt

/-! ### The search for the letters -/

/-- A search that puts the letters of `n` in front of those found, the last one first. It is over after
finitely many turns, and none of them takes one from zero. -/
inductive Finds : Nat → List Char → List Char → Prop
  | last {n : Nat} {found : List Char} (h : n < 26) : Finds n found (Char.ofNat (65 + n % 26) :: found)
  | turn {n next : Nat} {found ls : List Char} (h : 26 ≤ n) (hnext : next + 1 = n / 26)
      (rest : Finds next (Char.ofNat (65 + n % 26) :: found) ls) : Finds n found ls

theorem Finds.eq {n : Nat} {found ls : List Char} (h : Finds n found ls) : ls = letters n ++ found := by
  induction h with
  | last h => rw [letters, if_pos h, Nat.mod_eq_of_lt h, List.singleton_append]
  | @turn n next found ls h hnext _ ih =>
    have hletters : letters n = letters next ++ [Char.ofNat (65 + n % 26)] := by
      rw [letters, if_neg (by omega), ← hnext, Nat.add_sub_cancel]
    rw [ih, hletters, List.append_assoc, List.singleton_append]

theorem finds_letters (n : Nat) (found : List Char) : Finds n found (letters n ++ found) := by
  fun_induction letters n generalizing found with
  | case1 n h =>
    have hlast : Finds n found (Char.ofNat (65 + n % 26) :: found) := .last h
    rwa [Nat.mod_eq_of_lt h] at hlast
  | case2 n h ih =>
    -- From 26 on there is something to take one from.
    have hnext : n / 26 - 1 + 1 = n / 26 := by omega
    rw [List.append_assoc]
    exact .turn (by omega) hnext (ih _)

/-- The first chunk has no suffix to be searched for. -/
inductive FindsSuffix : Nat → String → Prop
  | first : FindsSuffix 0 ""
  | further {n : Nat} {ls : List Char} (h : Finds n [] ls) :
      FindsSuffix (n + 1) (String.ofList ('_' :: ls))

theorem findsSuffix_iff {chunk : Nat} {s : String} : FindsSuffix chunk s ↔ s = chunkSuffix chunk := by
  constructor
  · rintro (_ | h)
    · rfl
    · rw [h.eq, List.append_nil, chunkSuffix]
  · rintro rfl
    cases chunk with
    | zero => exact .first
    | succ n =>
      have hfinds := finds_letters n []
      rw [List.append_nil] at hfinds
      exact .further hfinds

/-! ### Suffixes -/

theorem chunkSuffix_injective : Function.Injective chunkSuffix := by
  intro m n h
  cases m with
  | zero =>
    cases n with
    | zero => rfl
    | succ n => simp [chunkSuffix] at h
  | succ m =>
    cases n with
    | zero => simp [chunkSuffix] at h
    | succ n =>
      rw [chunkSuffix, chunkSuffix, String.ofList_inj, List.cons_inj_right] at h
      rw [letters_injective h]

/-- The name of a multiplexer tells which chunk of its group it holds. -/
theorem chunk_of_name {name : String} {path : List Uuid} {m n : Nat} {d e : Option Data}
    (h : (can.groupData name path m d).name = (can.groupData name path n e).name) : m = n := by
  have hname : ∀ (i : Nat) (d : Option Data),
      (can.groupData name path i d).name = name ++ chunkSuffix i := by
    intro i d
    rw [groupData_can]
    exact Data.text_of_get? (Data.get?_of (nodup_multiplexerAttrs ..) (List.mem_cons_self ..) rfl rfl)
  rw [hname, hname, String.append_right_inj] at h
  exact chunkSuffix_injective h

/-- Chunks have different suffixes. From the second chunk on they are the words over A to Z, the shorter
before the longer and those of one length in alphabetical order. The search for each of them ends with it,
and never takes one from zero. -/
theorem chunkSuffix_enumerates :
    Function.Injective chunkSuffix ∧
    (∀ n, chunkSuffix (n + 1) = String.ofList ('_' :: letters n)) ∧
    Set.range letters = {s | Capitals s} ∧
    (∀ m n, m < n ↔ List.Shortlex (· < ·) (letters m) (letters n)) ∧
    ∀ chunk s, FindsSuffix chunk s ↔ s = chunkSuffix chunk := by
  refine ⟨chunkSuffix_injective, fun _ => rfl, Set.ext fun s => ?_, fun _ _ => shortlex_letters.symm,
    fun _ _ => findsSuffix_iff⟩
  constructor
  · rintro ⟨n, rfl⟩
    exact capitals_letters n
  · exact exists_letters

example : [1, 26, 27, 702, 703].map chunkSuffix = ["_A", "_Z", "_AA", "_ZZ", "_AAA"] := by cbv

end DeviceModel.Family
