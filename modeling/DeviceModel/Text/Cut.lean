/-!
Cutting a text at the first occurrence of a pattern. Main statement: nothing is lost.
-/

namespace DeviceModel.Text

/-- What stands before and behind the first occurrence of `pat`. -/
def cut? (pat : List Char) : List Char → Option (List Char × List Char)
  | [] => if pat.isEmpty then some ([], []) else none
  | c :: cs =>
    match pat.isPrefixOf? (c :: cs) with
    | some after => some ([], after)
    | none => (cut? pat cs).map fun (before, after) => (c :: before, after)

theorem isPrefixOf?_eq {pat cs after : List Char} (h : pat.isPrefixOf? cs = some after) :
    cs = pat ++ after := by
  induction pat generalizing cs with
  | nil => exact Option.some.inj h
  | cons p ps ih =>
    cases cs with
    | nil => cases h
    | cons c cs =>
      change (if p == c then ps.isPrefixOf? cs else none) = some after at h
      split at h
      · rename_i hc
        rw [ih h, eq_of_beq hc]
        rfl
      · cases h

theorem eq_of_cut? {pat cs before after : List Char} (h : cut? pat cs = some (before, after)) :
    cs = before ++ pat ++ after := by
  induction cs generalizing before with
  | nil =>
    simp only [cut?] at h
    split at h
    · rename_i hp
      cases h
      simpa using hp.symm
    · cases h
  | cons c cs ih =>
    simp only [cut?] at h
    split at h
    · rename_i hp
      cases h
      simpa using isPrefixOf?_eq hp
    · simp only [Option.map_eq_some_iff, Prod.mk.injEq] at h
      obtain ⟨⟨b, a⟩, hb, rfl, rfl⟩ := h
      simp [ih hb]

theorem length_of_cut? {pat cs before after : List Char} (h : cut? pat cs = some (before, after)) :
    cs.length = before.length + pat.length + after.length := by
  rw [eq_of_cut? h, List.length_append, List.length_append]

theorem cut?_eq_none {c : Char} {pat cs : List Char} (h : c ∉ cs) :
    cut? (c :: pat) cs = none := by
  induction cs with
  | nil => rfl
  | cons d cs ih =>
    have hd : (c == d) = false := by
      simp only [beq_eq_false_iff_ne, ne_eq]
      rintro rfl
      simp at h
    have hp : (c :: pat).isPrefixOf? (d :: cs) = none := by
      change (if c == d then pat.isPrefixOf? cs else none) = none
      rw [hd]
      rfl
    simp [cut?, hp, ih fun hm => h (List.mem_cons_of_mem _ hm)]

end DeviceModel.Text
