import Mathlib

/-!
Searches that follow links from one item to others. Main statements: where the items with links are
finitely many, a search ends exactly if no item that it comes to leads back to itself
(`ends_iff_not_leads`), and then it ends in no more steps than there are such items (`endsWithin_length`).
-/

namespace DeviceModel.Links

variable {α : Type} (next : α → List α)

/-- Whatever links are followed from `a` on, there are fewer than `fuel` of them in a row. -/
def EndsWithin : Nat → α → Prop
  | 0, _ => False
  | fuel + 1, a => ∀ b ∈ next a, EndsWithin fuel b

def Ends (a : α) : Prop := ∃ fuel, EndsWithin next fuel a

/-- From `a` one comes to `b` in one step or more. -/
def Leads : α → α → Prop := Relation.TransGen fun a b => b ∈ next a

/-- The same in no step or more. -/
def Reaches : α → α → Prop := Relation.ReflTransGen fun a b => b ∈ next a

variable {next}

theorem EndsWithin.mono {fuel fuel' : Nat} (hle : fuel ≤ fuel') {a : α} (h : EndsWithin next fuel a) :
    EndsWithin next fuel' a := by
  induction fuel generalizing fuel' a with
  | zero => exact h.elim
  | succ fuel ih =>
    obtain ⟨m, rfl⟩ : ∃ m, fuel' = m + 1 := ⟨fuel' - 1, by omega⟩
    exact fun b hb => ih (by omega) (h b hb)

theorem endsWithin_of_nil {a : α} (h : next a = []) (fuel : Nat) : EndsWithin next (fuel + 1) a := by
  simp [EndsWithin, h]

theorem ends_iff {a : α} : Ends next a ↔ ∀ b ∈ next a, Ends next b := by
  constructor
  · rintro ⟨fuel, h⟩ b hb
    cases fuel with
    | zero => exact h.elim
    | succ fuel => exact ⟨fuel, h b hb⟩
  · intro h
    choose! fuel hfuel using h
    refine ⟨((next a).map fuel).sum + 1, fun b hb => (hfuel b hb).mono ?_⟩
    exact List.le_sum_of_mem (List.mem_map_of_mem hb)

/-- What the search comes to takes fewer steps. -/
theorem EndsWithin.of_leads {fuel : Nat} {a b : α} (h : EndsWithin next (fuel + 1) a)
    (hab : Leads next a b) : EndsWithin next fuel b := by
  induction hab with
  | single hb => exact h _ hb
  | tail _ hc ih =>
    cases fuel with
    | zero => exact ih.elim
    | succ fuel => exact (ih _ hc).mono (Nat.le_succ fuel)

theorem Ends.of_reaches {a b : α} (h : Ends next a) (hab : Reaches next a b) : Ends next b := by
  induction hab with
  | refl => exact h
  | tail _ hc ih => exact ends_iff.1 ih _ hc

theorem Ends.not_leads {a : α} (h : Ends next a) : ¬Leads next a a := by
  obtain ⟨fuel, h⟩ := h
  intro haa
  induction fuel with
  | zero => exact h
  | succ fuel ih => exact ih (h.of_leads haa)

/-- A search ends that is followed by another one that ends, but for where it ends anyway. -/
theorem Ends.of_simulates {β : Type} {next' : β → List β} {S : α → β → Prop}
    (hS : ∀ a a', S a a' → ∀ b' ∈ next' a', (∃ b ∈ next a, S b b') ∨ Ends next' b') {a : α} {a' : β}
    (h : Ends next a) (ha : S a a') : Ends next' a' := by
  obtain ⟨fuel, h⟩ := h
  induction fuel generalizing a a' with
  | zero => exact h.elim
  | succ fuel ih =>
    refine ends_iff.2 fun b' hb' => ?_
    rcases hS a a' ha b' hb' with ⟨b, hb, hbb⟩ | hends
    · exact ih hbb (h b hb)
    · exact hends

/-- What leads back to itself is no item that a search ends at. -/
theorem not_endsWithin {a : α} (haa : Leads next a a) (fuel : Nat) : ¬EndsWithin next fuel a :=
  fun h => Ends.not_leads ⟨fuel, h⟩ haa

section

variable {xs : List α} (hxs : ∀ a, ∀ b ∈ next a, b ∈ xs ∨ next b = [])
include hxs

theorem ends_of_not_leads {a : α} (h : ∀ b, Reaches next a b → ¬Leads next b b) : Ends next a := by
  -- "Comes later on the way from `a`" is an order of the items.
  let later (c b : {b // b ∈ xs}) : Prop := Reaches next a b ∧ Leads next b c
  have : IsTrans _ later := ⟨fun _ _ _ hdc hcb => ⟨hcb.1, hcb.2.trans hdc.2⟩⟩
  have : Std.Irrefl later := ⟨fun b hb => h b hb.1 hb.2⟩
  have : Finite {b // b ∈ xs} := (List.finite_toSet xs).to_subtype
  have hwf := Finite.wellFounded_of_trans_of_irrefl later
  have hends : ∀ b : {b // b ∈ xs}, Reaches next a b → Ends next b.1 := by
    intro b
    induction b using hwf.induction with
    | _ b ih =>
      refine fun hb => ends_iff.2 fun c hc => ?_
      rcases hxs b c hc with hmem | hnil
      · exact ih ⟨c, hmem⟩ ⟨hb, .single hc⟩ (hb.tail hc)
      · exact ⟨1, endsWithin_of_nil hnil 0⟩
  refine ends_iff.2 fun b hb => ?_
  rcases hxs a b hb with hmem | hnil
  · exact hends ⟨b, hmem⟩ (.single hb)
  · exact ⟨1, endsWithin_of_nil hnil 0⟩

theorem ends_iff_not_leads {a : α} : Ends next a ↔ ∀ b, Reaches next a b → ¬Leads next b b :=
  ⟨fun h _ hb => (h.of_reaches hb).not_leads, ends_of_not_leads hxs⟩

/-- With more fuel a search ends at more items, until one more step adds none. -/
theorem endsWithin_length {a : α} (ha : a ∈ xs) (h : Ends next a) : EndsWithin next (xs.length + 1) a := by
  classical
  let among (m : Nat) : Finset α := {b ∈ xs.toFinset | EndsWithin next (m + 1) b}
  have hgrow : Monotone among := fun m n hmn b hb => by
    simp only [among, Finset.mem_filter] at hb ⊢
    exact ⟨hb.1, hb.2.mono (by omega)⟩
  have hstay : ∀ m, among m = among (m + 1) → among (m + 1) = among (m + 2) := by
    refine fun m hm => (hgrow (Nat.le_succ _)).antisymm fun b hb => ?_
    simp only [among, Finset.mem_filter] at hb ⊢
    refine ⟨hb.1, fun c hc => ?_⟩
    rcases hxs b c hc with hmem | hnil
    · have hlater : c ∈ among (m + 1) := by simp [among, hmem, hb.2 c hc]
      rw [← hm] at hlater
      exact (Finset.mem_filter.1 hlater).2
    · exact endsWithin_of_nil hnil m
  obtain ⟨fuel, hfuel⟩ := h
  have hall : among (xs.length + fuel) = among xs.length := by
    refine (Finset.eq_of_subset_of_card_le (hgrow (by omega)) (le_of_eq ?_)).symm
    refine Nat.stabilises_of_monotone (f := fun m => (among m).card) (fun m n hmn =>
      Finset.card_le_card (hgrow hmn)) (fun m => ?_) (fun m hm => ?_) (by omega)
    · exact (Finset.card_filter_le _ _).trans xs.toFinset_card_le
    · exact congrArg _ (hstay m (Finset.eq_of_subset_of_card_le (hgrow (by omega)) (le_of_eq hm.symm)))
  have hmem : a ∈ among (xs.length + fuel) := by
    simp only [among, Finset.mem_filter, List.mem_toFinset]
    exact ⟨ha, hfuel.mono (by omega)⟩
  rw [hall] at hmem
  exact (Finset.mem_filter.1 hmem).2

end

end DeviceModel.Links
