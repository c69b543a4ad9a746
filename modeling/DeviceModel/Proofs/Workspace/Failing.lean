import DeviceModel.Proofs.Workspace.Committing

/-!
Edits that fail. An edit is put together from steps that leave the trees alone and tell the views nothing
(`Silent`), and from steps that do not fail any more. Main statements: an edit that begins with steps of
the first sort and ends with steps of the second has left everything as it was if it fails
(`atomic_bind`, `atomic_bind_of_gives`), and so has a transaction (`atomic_transaction`).
-/

namespace DeviceModel

namespace Workspace

/-- The trees are the same, and the views have been told nothing. -/
structure Untouched (w w' : Workspace) : Prop where
  trees : ∀ k, w'.tree k = w.tree k
  events : w'.events = w.events

theorem Untouched.refl (w : Workspace) : Untouched w w := ⟨fun _ => rfl, rfl⟩

theorem Untouched.trans {w₁ w₂ w₃ : Workspace} (h : Untouched w₁ w₂) (h' : Untouched w₂ w₃) :
    Untouched w₁ w₃ :=
  ⟨fun k => (h'.trees k).trans (h.trees k), h'.events.trans h.events⟩

end Workspace

namespace Edit

open Workspace

variable {w w' : Workspace} {k : TreeKind}

/-! ### Silent steps -/

/-- The step changes no tree and tells the views nothing, whether it succeeds or not. -/
def Silent (e : Edit α) : Prop := ∀ w, Untouched w (outcome e w).2

theorem Silent.untouched {e : Edit α} (h : Silent e) {a : α} (hg : Gives e w a w') : Untouched w w' := by
  have hw := h w
  rwa [show outcome e w = _ from hg] at hw

/-- A step is silent exactly if being untouched since any state is kept by it. -/
theorem silent_iff_keeps {e : Edit α} : Silent e ↔ ∀ w, Keeps (Untouched w) e :=
  ⟨fun h _ v hv => hv.trans (h v), fun h w => h w w (.refl w)⟩

theorem silent_bind {e : Edit α} {f : α → Edit β} (he : Silent e) (hf : ∀ a, Silent (f a)) :
    Silent (e >>= f) :=
  silent_iff_keeps.2 fun w => keeps_bind (silent_iff_keeps.1 he w) fun a => silent_iff_keeps.1 (hf a) w

theorem silent_pure (a : α) : Silent (pure a : Edit α) := fun w => .refl w

theorem silent_throw (x : Error) : Silent (throw x : Edit α) := fun w => .refl w

theorem silent_liftM (r : Except Error α) : Silent (liftM r : Edit α) :=
  silent_iff_keeps.2 fun _ => keeps_liftM r

theorem silent_models : Silent models := fun w => .refl w

theorem silent_tree (k : TreeKind) : Silent (tree k) := fun w => .refl w

theorem silent_logNode (l : LogLevel) (k : TreeKind) (kind : Kind) (u : Uuid) (text : String) :
    Silent (logNode l k kind u text) := fun _ => ⟨fun _ => rfl, rfl⟩

theorem silent_build (b : Build α) : Silent (build b) := by
  intro w
  rw [outcome_build]
  exact ⟨fun _ => rfl, rfl⟩

theorem silent_fresh (b : Fresh α) : Silent (fresh b) := silent_build _

/-- A step that is refused under a condition, with a word about it first. -/
theorem silent_unless_told {c : Prop} [Decidable c] {l : Edit Unit} (hl : Silent l) (x : Error)
    {e : Edit α} (he : Silent e) : Silent (if c then do l; throw x; e else e) :=
  silent_iff_keeps.2 fun w => keeps_unless_told (silent_iff_keeps.1 hl w) (silent_iff_keeps.1 he w)

theorem silent_forIn {f : α → β → Edit (ForInStep β)} (hf : ∀ a b, Silent (f a b)) (l : List α) (b : β) :
    Silent (forIn l b f) :=
  silent_iff_keeps.2 fun w => keeps_forIn (fun a b => silent_iff_keeps.1 (hf a b) w) l b

theorem silent_foldlM {f : β → α → Edit β} (hf : ∀ b a, Silent (f b a)) (b : β) (l : List α) :
    Silent (l.foldlM f b) :=
  silent_iff_keeps.2 fun w => keeps_foldlM (fun b a => silent_iff_keeps.1 (hf b a) w) b l

/-! ### Edits that fail early or not at all -/

/-- If the edit fails on `w`, it has changed no tree and told the views nothing. -/
def Atomic (w : Workspace) (e : Edit α) : Prop :=
  ∀ x w', outcome e w = (.error x, w') → Untouched w w'

theorem Silent.atomic {e : Edit α} (h : Silent e) (w : Workspace) : Atomic w e := by
  intro x w' hx
  have hw := h w
  rwa [hx] at hw

theorem atomic_of_gives {e : Edit α} {a : α} (h : ∃ w', Gives e w a w') : Atomic w e :=
  fun _ _ hx => h.elim fun _ hg => absurd hg (not_gives_of_outcome hx)

/-- What silent steps lead to may fail. -/
theorem atomic_bind {e : Edit α} {f : α → Edit β} (he : Silent e)
    (hf : ∀ a v, Gives e w a v → Atomic v (f a)) : Atomic w (e >>= f) := by
  intro x w' hx
  rw [outcome_bind] at hx
  have hw := he w
  rcases h : outcome e w with ⟨r, v⟩
  rw [h] at hx hw
  cases r with
  | error y =>
    cases hx
    exact hw
  | ok a => exact hw.trans (hf a v h x w' hx)

/-- What may fail leads to steps that do not. -/
theorem atomic_bind_of_gives {e : Edit α} {f : α → Edit β} (he : Atomic w e)
    (hf : ∀ a v, Gives e w a v → ∃ b w', Gives (f a) v b w') : Atomic w (e >>= f) := by
  intro x w' hx
  rw [outcome_bind] at hx
  rcases h : outcome e w with ⟨r, v⟩
  rw [h] at hx
  cases r with
  | error y =>
    cases hx
    exact he x w' h
  | ok a =>
    obtain ⟨b, w'', hb⟩ := hf a v h
    exact absurd hb (not_gives_of_outcome hx)

/-- The result left out. -/
theorem atomic_discard {e : Edit α} (he : Atomic w e) : Atomic w (do let _ ← e) :=
  atomic_bind_of_gives he fun _ _ _ => ⟨(), _, gives_pure.2 ⟨rfl, rfl⟩⟩

/-- A word at the end. -/
theorem atomic_logged {e : Edit α} (he : Atomic w e) (level : LogLevel) (kind : Kind) (u : α → Uuid)
    (text : α → String) (g : α → β) : Atomic w (do
      let a ← e
      logNode level k kind (u a) (text a)
      return g a) :=
  atomic_bind_of_gives he fun _ _ _ =>
    ⟨_, exists_gives_bind (a := ()) (gives_logNode.2 rfl) ⟨_, gives_pure.2 ⟨rfl, rfl⟩⟩⟩

theorem atomic_unless {c : Prop} [Decidable c] {x : Error} {e : Edit α} (he : ¬c → Atomic w e) :
    Atomic w (if c then do throw x; e else e) := by
  split
  · exact atomic_bind (silent_throw x) fun _ _ h => absurd h gives_throw
  · exact he ‹_›

/-- The same with a word about it first. -/
theorem atomic_unless_told {c : Prop} [Decidable c] {l : Edit Unit} (hl : Silent l) {x : Error} {e : Edit α}
    (he : ¬c → Atomic w e) : Atomic w (if c then do l; throw x; e else e) := by
  split
  · exact atomic_bind hl fun _ _ _ => atomic_bind (silent_throw x) fun _ _ h => absurd h gives_throw
  · exact he ‹_›

/-- A transaction changes a copy silently, and puts it in place without fail. -/
theorem atomic_transaction {scope : Uuid} {f : Tree → Edit (Tree × α)} (hf : Silent (f (w.tree k)))
    (ht : ∀ t a v, Gives (f (w.tree k)) w (t, a) v → hasLayout k = true → t.Valid) :
    Atomic w (transaction k scope f) := by
  rcases h : outcome (f (w.tree k)) w with ⟨r, v⟩
  cases r with
  | error y =>
    intro x w' hx
    rw [transaction, outcome_bind, show outcome (tree k) w = (.ok (w.tree k), w) from rfl] at hx
    simp only at hx
    rw [outcome_bind, h] at hx
    cases hx
    exact hf.atomic w y v h
  | ok p =>
    obtain ⟨t, a⟩ := p
    exact atomic_of_gives (exists_transaction scope h (ht t a v h))

end Edit

end DeviceModel
