import Mathlib

/-!
Lists of results, lists that go together, and lists with distinct keys.
-/

namespace DeviceModel

theorem mapM_congr_left [Monad m] [LawfulMonad m] {f g : α → m β} {l : List α}
    (h : ∀ a ∈ l, f a = g a) : l.mapM f = l.mapM g := by
  induction l with
  | nil => rfl
  | cons a l ih => rw [List.mapM_cons, List.mapM_cons, h a (by simp), ih fun b hb => h b (by simp [hb])]

theorem forall₂_of_mapM {ε : Type} {f : α → Except ε β} {l : List α} {bs : List β} (h : l.mapM f = .ok bs) :
    List.Forall₂ (fun a b => f a = .ok b) l bs := by
  induction l generalizing bs with
  | nil => cases h; exact .nil
  | cons a l ih =>
    rw [List.mapM_cons] at h
    cases ha : f a with
    | error x => simp [ha, bind, Except.bind] at h
    | ok b =>
      cases hl : l.mapM f with
      | error x => simp [ha, hl, bind, Except.bind] at h
      | ok cs =>
        simp only [ha, hl, bind, Except.bind, pure, Except.pure, Except.ok.injEq] at h
        exact h ▸ .cons ha (ih hl)

theorem bind_eq_ok_iff {ε : Type} {x : Except ε α} {f : α → Except ε β} {b : β} :
    x >>= f = .ok b ↔ ∃ a, x = .ok a ∧ f a = .ok b := by
  cases x <;> simp [bind, Except.bind]

theorem return_eq_ok_iff {ε : Type} {x : Except ε α} {g : α → β} {b : β} :
    (do return g (← x)) = .ok b ↔ ∃ a, x = .ok a ∧ g a = b :=
  bind_eq_ok_iff.trans (by simp [pure, Except.pure])

theorem exists_bind_iff {ε : Type} {x : Except ε α} {f : α → Except ε β} :
    (∃ b, x >>= f = .ok b) ↔ ∃ a, x = .ok a ∧ ∃ b, f a = .ok b := by
  cases x <;> simp [bind, Except.bind]

theorem exists_return_iff {ε : Type} {x : Except ε α} {g : α → β} :
    (∃ b, (do return g (← x)) = .ok b) ↔ ∃ a, x = .ok a :=
  exists_bind_iff.trans (exists_congr fun _ => and_iff_left ⟨_, rfl⟩)

theorem mem_toOption_iff {ε : Type} {x : Except ε α} {a : α} : a ∈ x.toOption ↔ x = .ok a := by
  cases x <;> simp [Except.toOption]

theorem mapError_eq_ok_iff {ε ε' : Type} {g : ε → ε'} {x : Except ε α} {a : α} :
    x.mapError g = .ok a ↔ x = .ok a := by
  cases x <;> simp [Except.mapError]

theorem exists_mapM_iff {ε : Type} {f : α → Except ε β} {l : List α} :
    (∃ bs, l.mapM f = .ok bs) ↔ ∀ a ∈ l, ∃ b, f a = .ok b := by
  induction l with
  | nil => exact ⟨fun _ _ ha => (List.not_mem_nil ha).elim, fun _ => ⟨[], rfl⟩⟩
  | cons a l ih =>
    rw [List.forall_mem_cons, ← ih, List.mapM_cons]
    cases ha : f a with
    | error e => simp [bind, Except.bind]
    | ok b => cases l.mapM f <;> simp [bind, Except.bind, pure, Except.pure]

theorem exists_of_forall₂ {R : α → β → Prop} {l : List α} {m : List β} (h : List.Forall₂ R l m) {a : α}
    (ha : a ∈ l) : ∃ b ∈ m, R a b := by
  induction h with
  | nil => cases ha
  | cons hr _ ih =>
    rcases List.mem_cons.1 ha with rfl | ha
    · exact ⟨_, List.mem_cons_self .., hr⟩
    · exact (ih ha).imp fun _ => And.imp_left (List.mem_cons_of_mem _)

/-- The results of a run are those of its steps. -/
theorem mem_mapM_iff {ε : Type} {f : α → Except ε β} {l : List α} {bs : List β} (h : l.mapM f = .ok bs)
    {b : β} : b ∈ bs ↔ ∃ a ∈ l, f a = .ok b := by
  have hsteps := forall₂_of_mapM h
  constructor
  · exact exists_of_forall₂ hsteps.flip
  · rintro ⟨a, ha, hb⟩
    obtain ⟨c, hc, hac⟩ := exists_of_forall₂ hsteps ha
    exact Except.ok.inj (hb.symm.trans hac) ▸ hc

theorem forall₂_comp {R : α → β → Prop} {S : β → γ → Prop} {l : List α} {m : List β} {n : List γ}
    (h : List.Forall₂ R l m) (k : List.Forall₂ S m n) :
    List.Forall₂ (fun a c => ∃ b, R a b ∧ S b c) l n := by
  induction h generalizing n with
  | nil => cases k; exact .nil
  | cons hr _ ih =>
    cases k with
    | cons hs k => exact .cons ⟨_, hr, hs⟩ (ih k)

theorem forall₂_and {R S : α → β → Prop} {l : List α} {m : List β} (h : List.Forall₂ R l m)
    (h' : List.Forall₂ S l m) : List.Forall₂ (fun a b => R a b ∧ S a b) l m := by
  induction h with
  | nil => exact .nil
  | cons hr _ ih =>
    cases h' with
    | cons hs h' => exact .cons ⟨hr, hs⟩ (ih h')

theorem map_eq_of_forall₂ {R : α → β → Prop} {f : α → γ} {g : β → γ} {l : List α}
    {m : List β} (h : List.Forall₂ R l m) (hfg : ∀ a b, R a b → g b = f a) : m.map g = l.map f := by
  induction h with
  | nil => rfl
  | cons hr _ ih => rw [List.map_cons, List.map_cons, hfg _ _ hr, ih]

theorem countP_eq_of_forall₂ {p : α → Bool} {R : α → α → Prop} {l m : List α}
    (h : List.Forall₂ R l m) (hp : ∀ a b, R a b → p b = p a) : m.countP p = l.countP p := by
  induction h with
  | nil => rfl
  | cons hab _ ih => rw [List.countP_cons, List.countP_cons, ih, hp _ _ hab]

theorem exists_flatten_of_forall₂ {R : α → β → Prop} {h : γ → List β} {l : List α} {n : List γ}
    (hl : List.Forall₂ R l (n.flatMap h)) :
    ∃ ls, l = ls.flatten ∧ List.Forall₂ (fun k c => List.Forall₂ R k (h c)) ls n := by
  induction n generalizing l with
  | nil => exact ⟨[], List.forall₂_nil_right_iff.1 hl, .nil⟩
  | cons c n ih =>
    rw [List.flatMap_cons] at hl
    obtain ⟨ls, hls, hrest⟩ := ih (List.forall₂_drop_append _ _ _ hl)
    refine ⟨_ :: ls, ?_, .cons (List.forall₂_take_append _ _ _ hl) hrest⟩
    rw [List.flatten_cons, ← hls, List.take_append_drop]

/-- Where keys are distinct, each finds its own. -/
theorem find?_of_nodup [BEq β] [LawfulBEq β] {key : α → β} {l : List α} (hn : (l.map key).Nodup) {a : α}
    (ha : a ∈ l) : l.find? (key · == key a) = some a := by
  induction l with
  | nil => cases ha
  | cons b l ih =>
    rw [List.map_cons, List.nodup_cons] at hn
    rcases List.mem_cons.1 ha with rfl | ha
    · exact List.find?_cons_of_pos (by simp)
    · have hb : key b ≠ key a := fun h => hn.1 (h ▸ List.mem_map_of_mem ha)
      rw [List.find?_cons_of_neg (by simpa using hb), ih hn.2 ha]

/-- A key is found exactly where there is an entry with it. -/
theorem lookup_or [BEq α] [LawfulBEq α] (l : List (α × β)) (a : α) :
    a ∉ l.map Prod.fst ∧ l.lookup a = none ∨ ∃ b, (a, b) ∈ l ∧ l.lookup a = some b := by
  cases h : l.lookup a with
  | none =>
    refine .inl ⟨fun hm => ?_, rfl⟩
    obtain ⟨p, hp, rfl⟩ := List.mem_map.1 hm
    simpa using List.lookup_eq_none_iff.1 h p hp
  | some b =>
    obtain ⟨l₁, l₂, rfl, -⟩ := List.lookup_eq_some_iff.1 h
    exact .inr ⟨b, by simp, rfl⟩

end DeviceModel
