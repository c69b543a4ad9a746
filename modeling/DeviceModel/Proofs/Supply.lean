import DeviceModel.Supply
import Mathlib

/-!
Identifiers that a supply will not give out again, and steps that take up identifiers from their state or draw
new ones. Main statements: one that is drawn is new (`Issued.draw`), and what holds of single steps holds of
steps in a row (`Carries.bind`, `Makes.bind`).
-/

namespace DeviceModel

namespace Supply

/-- Distinct identifiers, none of which will be drawn: each is taken or lies below what comes next. -/
structure Issued (s : Supply) (us : List Uuid) : Prop where
  nodup : us.Nodup
  known : ∀ u ∈ us, u ∈ s.taken ∨ u.val < s.next

variable {s : Supply} {us vs : List Uuid}

theorem Issued.subperm (h : s.Issued us) (hs : vs.Subperm us) : s.Issued vs := by
  obtain ⟨ws, hp, hw⟩ := hs
  exact ⟨hp.nodup_iff.1 (hw.nodup h.nodup), fun u hu => h.known u (hw.subset (hp.mem_iff.2 hu))⟩

theorem Issued.perm (h : s.Issued us) (hp : vs.Perm us) : s.Issued vs := h.subperm hp.subperm

theorem Issued.sublist (h : s.Issued us) (hs : vs.Sublist us) : s.Issued vs := h.subperm hs.subperm

/-- Fewer of the same. -/
theorem Issued.count (h : s.Issued us) (hc : ∀ u, vs.count u ≤ us.count u) : s.Issued vs :=
  h.subperm (List.subperm_ext_iff.2 fun u _ => hc u)

theorem issued_of_taken (hn : us.Nodup) (ht : us ⊆ s.taken) : s.Issued us :=
  ⟨hn, fun _ hu => .inl (ht hu)⟩

/-- What is drawn is none of the identifiers known so far. -/
theorem Issued.draw (h : s.Issued us) : (draw s).2.Issued ((DeviceModel.draw s).1 :: us) := by
  have hlt := draw_lt s
  refine ⟨List.nodup_cons.2 ⟨fun hm => ?_, h.nodup⟩, fun u hu => ?_⟩
  · rcases h.known _ hm with ht | hn
    · exact draw_notMem s ht
    · omega
  · rcases List.mem_cons.1 hu with rfl | hu
    · exact .inr hlt.2
    · rcases h.known u hu with ht | hn
      · exact .inl (taken_draw s ▸ ht)
      · exact .inr (by omega)

end Supply

/-! ### Steps that draw -/

theorem map_subperm {α β : Type} (g : α → β) {l m : List α} (h : l.Subperm m) :
    (l.map g).Subperm (m.map g) := by
  obtain ⟨k, hp, hs⟩ := h
  exact ⟨k.map g, hp.map g, hs.map g⟩

theorem find?_cons_filter_subperm [DecidableEq α] {p : α → Bool} {l : List α} {a : α}
    (h : l.find? p = some a) : (a :: l.filter (!p ·)).Subperm l := by
  have hp := List.mem_filter.2 ⟨List.mem_of_find?_eq_some h, List.find?_some h⟩
  have hs := (List.singleton_sublist.2 hp).append_right (l.filter (!p ·))
  exact hs.subperm.trans (List.filter_append_perm p l).subperm

variable {σ α β : Type}

theorem bind_of_eq {b : StateT σ Fresh α} {f : α → StateT σ Fresh β} {st st' : σ} {s s' : Supply} {a : α}
    (h : b st s = ((a, st'), s')) : (b >>= f) st s = f a st' s' := by
  simp only [bind, StateT.bind, h]

/-- Of the identifiers `given` and those in its state the step makes those of its result, and leaves the
others in its state; more are drawn. -/
def Carries (pool : σ → List Uuid) (given : List Uuid) (b : StateT σ Fresh α)
    (out : α → List Uuid) : Prop :=
  ∀ st s rest, s.Issued (given ++ pool st ++ rest) →
    (b st s).2.Issued (out (b st s).1.1 ++ pool (b st s).1.2 ++ rest)

section

variable {pool : σ → List Uuid} {given vs : List Uuid} {b : StateT σ Fresh α} {out out' : α → List Uuid}

theorem carries_pure {a : α} (h : (out a).Subperm given) : Carries pool given (pure a) out :=
  fun _ _ _ hs => hs.subperm ((h.append (.refl _)).append (.refl _))

theorem Carries.bind {f : α → StateT σ Fresh β} {out' : β → List Uuid} (hb : Carries pool given b out)
    (hf : ∀ a, Carries pool (out a) (f a) out') : Carries pool given (b >>= f) out' :=
  fun st s rest hs => hf _ _ _ rest (hb st s rest hs)

theorem Carries.mono (h : Carries pool given b out) (hg : given.Subperm vs)
    (ho : ∀ a, (out' a).Subperm (out a)) : Carries pool vs b out' := by
  intro st s rest hs
  have hr := h st s rest (hs.subperm ((hg.append (.refl _)).append (.refl _)))
  exact hr.subperm (((ho _).append (.refl _)).append (.refl _))

/-- Identifiers that are set aside stay. -/
theorem Carries.frame (h : Carries pool given b out) (vs : List Uuid) :
    Carries pool (vs ++ given) b (fun a => vs ++ out a) := by
  intro st s rest hs
  have swap : ∀ us ws : List Uuid, (us ++ ws ++ (vs ++ rest)).Perm (vs ++ us ++ ws ++ rest) := by
    intro us ws
    grind [List.perm_append_comm]
  exact (h st s (vs ++ rest) (hs.perm (swap _ _))).perm (swap _ _).symm

/-- What a step gives behind what has been given. -/
theorem Carries.after (h : Carries pool [] b out) (vs : List Uuid) :
    Carries pool vs b fun a => vs ++ out a :=
  (h.frame vs).mono (by rw [List.append_nil]) fun _ => .refl _

end

/-- The step makes something of which `P` holds out of a state of which `I` holds, and leaves such a
state. -/
def Makes (I : σ → Prop) (b : StateT σ Fresh α) (P : α → Prop) : Prop :=
  ∀ st s, I st → P (b st s).1.1 ∧ I (b st s).1.2

section

variable {I : σ → Prop} {b : StateT σ Fresh α} {P Q : α → Prop}

theorem makes_pure {a : α} (h : P a) : Makes I (pure a) P := fun _ _ hi => ⟨h, hi⟩

theorem makes_any : Makes (fun _ => True) b fun _ => True := fun _ _ _ => ⟨trivial, trivial⟩

theorem Makes.bind {f : α → StateT σ Fresh β} {R : β → Prop} (hb : Makes I b P)
    (hf : ∀ a, P a → Makes I (f a) R) : Makes I (b >>= f) R :=
  fun st s hi => hf _ (hb st s hi).1 _ _ (hb st s hi).2

end

end DeviceModel
