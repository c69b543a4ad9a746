import DeviceModel.Workspace.Edits
import Mathlib

/-!
What steps give that may fail. A step that is put together from others succeeds exactly if these do, one
after the other (`gives_bind`), and keeps what these keep, even if it fails (`keeps_bind`); the lemmas on the
single steps of an edit say what they leave of a workspace.
-/

namespace DeviceModel

section

variable {s s' : σ}

/-- What the step makes of a state. -/
def outcome (e : ExceptT Error (StateM σ) α) (s : σ) : Except Error α × σ := e s

/-- The step succeeds on `s` with the result `a` and leaves `s'`. -/
def Gives (e : ExceptT Error (StateM σ) α) (s : σ) (a : α) (s' : σ) : Prop :=
  outcome e s = (.ok a, s')

theorem outcome_bind (e : ExceptT Error (StateM σ) α) (f : α → ExceptT Error (StateM σ) β) (s : σ) :
    outcome (e >>= f) s =
      match outcome e s with
      | (.ok a, s') => outcome (f a) s'
      | (.error x, s') => (.error x, s') := by
  simp only [outcome, bind, ExceptT.bind, ExceptT.mk, StateT.bind]
  rcases e s with ⟨r, s'⟩
  cases r <;> rfl

theorem outcome_liftM (r : Except Error α) (s : σ) :
    outcome (liftM r : ExceptT Error (StateM σ) α) s = (r, s) := by
  cases r <;> rfl

theorem gives_bind {e : ExceptT Error (StateM σ) α} {f : α → ExceptT Error (StateM σ) β} {b : β} :
    Gives (e >>= f) s b s' ↔ ∃ a v, Gives e s a v ∧ Gives (f a) v b s' := by
  rw [Gives, outcome_bind]
  rcases h : outcome e s with ⟨r, v⟩
  cases r with
  | error => simp [Gives, h]
  | ok a =>
    simp only [Gives, h, Prod.mk.injEq, Except.ok.injEq]
    exact ⟨fun hf => ⟨a, v, ⟨rfl, rfl⟩, hf⟩, fun ⟨_, _, ⟨ha, hv⟩, hf⟩ => ha ▸ hv ▸ hf⟩

theorem exists_gives_bind {e : ExceptT Error (StateM σ) α} {f : α → ExceptT Error (StateM σ) β}
    {a : α} {b : β} {v : σ} (h : Gives e s a v) (hf : ∃ s', Gives (f a) v b s') :
    ∃ s', Gives (e >>= f) s b s' :=
  hf.imp fun _ hs => gives_bind.2 ⟨a, v, h, hs⟩

/-- The same with what is known of the state that is left. -/
theorem exists_gives_bind_and {e : ExceptT Error (StateM σ) α} {f : α → ExceptT Error (StateM σ) β}
    {a : α} {b : β} {v : σ} {P : σ → Prop} (h : Gives e s a v) (hf : ∃ s', Gives (f a) v b s' ∧ P s') :
    ∃ s', Gives (e >>= f) s b s' ∧ P s' :=
  hf.imp fun _ hs => ⟨gives_bind.2 ⟨a, v, h, hs.1⟩, hs.2⟩

/-- The step fails on `s` with `x`. -/
def Fails (e : ExceptT Error (StateM σ) α) (s : σ) (x : Error) : Prop := ∃ s', outcome e s = (.error x, s')

theorem fails_bind {e : ExceptT Error (StateM σ) α} (f : α → ExceptT Error (StateM σ) β) {x : Error}
    (h : Fails e s x) : Fails (e >>= f) s x :=
  h.imp fun s' hs => by rw [outcome_bind, hs]

theorem fails_bind_of_gives {e : ExceptT Error (StateM σ) α} {f : α → ExceptT Error (StateM σ) β} {a : α}
    {v : σ} {x : Error} (h : Gives e s a v) (hf : Fails (f a) v x) : Fails (e >>= f) s x :=
  hf.imp fun s' hs => by rw [outcome_bind, show outcome e s = _ from h]; exact hs

theorem fails_liftM {r : Except Error α} {x : Error} (h : r = .error x) :
    Fails (liftM r : ExceptT Error (StateM σ) α) s x :=
  ⟨s, by rw [outcome_liftM, h]⟩

theorem gives_of_toOption {e : ExceptT Error (StateM σ) α} {a : α}
    (h : (outcome e s).1.toOption = some a) : Gives e s a (outcome e s).2 := by
  refine Prod.ext ?_ rfl
  cases hr : (outcome e s).1 with
  | error x => simp [hr, Except.toOption] at h
  | ok b => simpa [hr, Except.toOption] using h

theorem error_of_toOption {e : ExceptT Error (StateM σ) α} (h : (outcome e s).1.toOption = none) :
    ∃ x, outcome e s = (.error x, (outcome e s).2) := by
  cases hr : (outcome e s).1 with
  | error x => exact ⟨x, Prod.ext hr rfl⟩
  | ok a => simp [hr, Except.toOption] at h

theorem exists_ok_of_toOption {ε : Type} {x : Except ε α} {p : α → Bool} (h : x.toOption.any p = true) :
    ∃ a, x = .ok a ∧ p a = true := by
  cases x with
  | error e => cases h
  | ok a => exact ⟨a, rfl, h⟩

theorem gives_unique {e : ExceptT Error (StateM σ) α} {a b : α} {v v' : σ} (h : Gives e s a v)
    (h' : Gives e s b v') : a = b ∧ v = v' := by
  simpa [Gives, Prod.mk.injEq] using h.symm.trans h'

theorem gives_iff_of_outcome {e : ExceptT Error (StateM σ) α} {a b : α} {v : σ}
    (h : outcome e s = (.ok a, v)) : Gives e s b s' ↔ a = b ∧ v = s' := by
  rw [Gives, h, Prod.mk.injEq, Except.ok.injEq]

theorem not_gives_of_outcome {e : ExceptT Error (StateM σ) α} {b : α} {x : Error} {v : σ}
    (h : outcome e s = (.error x, v)) : ¬Gives e s b s' := by
  simp [Gives, h]

@[simp] theorem gives_pure {a b : α} :
    Gives (pure a : ExceptT Error (StateM σ) α) s b s' ↔ a = b ∧ s = s' :=
  gives_iff_of_outcome rfl

@[simp] theorem gives_throw {x : Error} {a : α} :
    ¬Gives (throw x : ExceptT Error (StateM σ) α) s a s' :=
  not_gives_of_outcome rfl

/-- A step that is refused under a condition. -/
theorem gives_unless {c : Prop} [Decidable c] {x : Error} {e : ExceptT Error (StateM σ) α} {a : α} :
    Gives (if c then do throw x; e else e) s a s' ↔ ¬c ∧ Gives e s a s' := by
  split
  · rename_i hc
    refine iff_of_false (fun h => ?_) fun h => h.1 hc
    obtain ⟨_, _, h, -⟩ := gives_bind.1 h
    exact gives_throw h
  · rename_i hc
    exact (and_iff_right hc).symm

/-- The same with a word about it first. -/
theorem gives_unless_told {c : Prop} [Decidable c] {l : ExceptT Error (StateM σ) Unit} {x : Error}
    {e : ExceptT Error (StateM σ) α} {a : α} :
    Gives (if c then do l; throw x; e else e) s a s' ↔ ¬c ∧ Gives e s a s' := by
  split
  · rename_i hc
    refine iff_of_false (fun h => ?_) fun h => h.1 hc
    obtain ⟨_, _, -, h⟩ := gives_bind.1 h
    obtain ⟨_, _, h, -⟩ := gives_bind.1 h
    exact gives_throw h
  · rename_i hc
    exact (and_iff_right hc).symm

theorem gives_liftM {r : Except Error α} {a : α} :
    Gives (liftM r : ExceptT Error (StateM σ) α) s a s' ↔ r = .ok a ∧ s = s' := by
  rw [Gives, outcome_liftM, Prod.mk.injEq]

theorem gives_liftM_state {b : StateM σ α} {a : α} :
    Gives (liftM b : ExceptT Error (StateM σ) α) s a s' ↔ b s = (a, s') := by
  refine (gives_iff_of_outcome (a := (b s).1) (v := (b s).2) rfl).trans ?_
  rw [← Prod.mk.injEq]
  exact Iff.rfl

/-- A step whose result is not used. -/
theorem gives_discard {e : ExceptT Error (StateM σ) α} {b : Unit} :
    Gives (do let _ ← e) s b s' ↔ ∃ a, Gives e s a s' := by
  simp only [gives_bind, gives_pure]
  constructor
  · rintro ⟨a, _, h, -, rfl⟩
    exact ⟨a, h⟩
  · rintro ⟨a, h⟩
    exact ⟨a, s', h, trivial, rfl⟩

/-! ### Steps for each of a list -/

variable {f : α → ExceptT Error (StateM σ) β}

theorem gives_mapM_cons {a : α} {l : List α} {bs : List β} : Gives ((a :: l).mapM f) s bs s' ↔
    ∃ b v cs, Gives (f a) s b v ∧ Gives (l.mapM f) v cs s' ∧ b :: cs = bs := by
  simp only [List.mapM_cons, gives_bind, gives_pure]
  constructor
  · rintro ⟨b, v, hb, cs, v', hcs, rfl, rfl⟩
    exact ⟨b, v, cs, hb, hcs, rfl⟩
  · rintro ⟨b, v, cs, hb, hcs, rfl⟩
    exact ⟨b, v, hb, cs, s', hcs, rfl, rfl⟩

/-- What every step does for the one it is taken for is done for all in the end. -/
theorem inv_of_mapM {I : List α → σ → Prop} {l : List α} {bs : List β}
    (hf : ∀ a l s b s', I (a :: l) s → Gives (f a) s b s' → I l s') (h : Gives (l.mapM f) s bs s')
    (hi : I l s) : I [] s' := by
  induction l generalizing s bs with
  | nil =>
    rw [List.mapM_nil, gives_pure] at h
    exact h.2 ▸ hi
  | cons a l ih =>
    obtain ⟨b, v, cs, ha, hl, -⟩ := gives_mapM_cons.1 h
    exact ih hl (hf a l s b v hi ha)

/-- Steps that succeed wherever `I` holds, and keep it. -/
theorem exists_mapM {I : σ → Prop} {P : β → Prop} {l : List α}
    (hf : ∀ a ∈ l, ∀ s, I s → ∃ b s', Gives (f a) s b s' ∧ P b ∧ I s') (hi : I s) :
    ∃ bs s', Gives (l.mapM f) s bs s' ∧ (∀ b ∈ bs, P b) ∧ I s' := by
  induction l generalizing s with
  | nil => exact ⟨[], s, by rw [List.mapM_nil, gives_pure]; exact ⟨rfl, rfl⟩, by simp, hi⟩
  | cons a l ih =>
    obtain ⟨b, v, hb, hp, hv⟩ := hf a (List.mem_cons_self ..) s hi
    obtain ⟨cs, s', hcs, hps, hs'⟩ := ih (fun c hc => hf c (List.mem_cons_of_mem _ hc)) hv
    exact ⟨b :: cs, s', gives_mapM_cons.2 ⟨b, v, cs, hb, hcs, rfl⟩, List.forall_mem_cons.2 ⟨hp, hps⟩, hs'⟩

end

/-! ### What a step keeps -/

section

/-- Whatever comes of the step, it keeps what holds of the state. -/
def Keeps (I : σ → Prop) (e : ExceptT Error (StateM σ) α) : Prop := ∀ s, I s → I (outcome e s).2

variable {I : σ → Prop}

theorem keeps_pure (a : α) : Keeps I (pure a : ExceptT Error (StateM σ) α) := fun _ h => h

theorem keeps_throw (x : Error) : Keeps I (throw x : ExceptT Error (StateM σ) α) := fun _ h => h

theorem keeps_liftM (r : Except Error α) : Keeps I (liftM r : ExceptT Error (StateM σ) α) := by
  intro s h
  rwa [outcome_liftM]

theorem keeps_bind {e : ExceptT Error (StateM σ) α} {f : α → ExceptT Error (StateM σ) β} (he : Keeps I e)
    (hf : ∀ a, Keeps I (f a)) : Keeps I (e >>= f) := by
  intro s hs
  have hv := he s hs
  rw [outcome_bind]
  rcases h : outcome e s with ⟨r, v⟩
  rw [h] at hv
  cases r with
  | error x => exact hv
  | ok a => exact hf a v hv

/-- The result left out. -/
theorem keeps_discard {e : ExceptT Error (StateM σ) α} (he : Keeps I e) : Keeps I (do let _ ← e) :=
  keeps_bind he fun _ => keeps_pure ()

theorem keeps_unless {c : Prop} [Decidable c] {x : Error} {e : ExceptT Error (StateM σ) α} (he : Keeps I e) :
    Keeps I (if c then do throw x; e else e) := by
  split
  · exact keeps_bind (keeps_throw x) fun _ => he
  · exact he

/-- The same with a word about it first. -/
theorem keeps_unless_told {c : Prop} [Decidable c] {l : ExceptT Error (StateM σ) Unit} {x : Error}
    {e : ExceptT Error (StateM σ) α} (hl : Keeps I l) (he : Keeps I e) :
    Keeps I (if c then do l; throw x; e else e) := by
  split
  · exact keeps_bind hl fun _ => keeps_bind (keeps_throw x) fun _ => he
  · exact he

theorem keeps_forIn {f : α → β → ExceptT Error (StateM σ) (ForInStep β)} (hf : ∀ a b, Keeps I (f a b))
    (l : List α) (b : β) : Keeps I (forIn l b f) := by
  induction l generalizing b with
  | nil => exact keeps_pure b
  | cons a l ih =>
    rw [List.forIn_cons]
    refine keeps_bind (hf a b) fun r => ?_
    cases r with
    | done b => exact keeps_pure b
    | yield b => exact ih b

theorem keeps_mapM {f : α → ExceptT Error (StateM σ) β} (hf : ∀ a, Keeps I (f a)) (l : List α) :
    Keeps I (l.mapM f) := by
  induction l with
  | nil => exact keeps_pure []
  | cons a l ih =>
    rw [List.mapM_cons]
    exact keeps_bind (hf a) fun b => keeps_bind ih fun bs => keeps_pure (b :: bs)

theorem keeps_foldlM {f : β → α → ExceptT Error (StateM σ) β} (hf : ∀ b a, Keeps I (f b a)) (b : β) (l : List α) :
    Keeps I (l.foldlM f b) := by
  induction l generalizing b with
  | nil => exact keeps_pure b
  | cons a l ih =>
    rw [List.foldlM_cons]
    exact keeps_bind (hf b a) ih

end

namespace Workspace

def withModel (w : Workspace) (k : TreeKind) (m : Model) : Workspace :=
  { w with models := w.models.set k m }

def withSupply (w : Workspace) (s : Supply) : Workspace := { w with supply := s }

def withEvents (w : Workspace) (es : List (TreeKind × ViewEvent)) : Workspace := { w with events := es }

def withLog (w : Workspace) (ls : List LogLine) : Workspace := { w with log := ls }

variable (w : Workspace)

end Workspace

namespace Edit

variable {w w' : Workspace}

@[simp] theorem gives_models {ms : Models} : Gives models w ms w' ↔ w.models = ms ∧ w = w' :=
  gives_iff_of_outcome rfl

@[simp] theorem gives_model {k : TreeKind} {m : Model} :
    Gives (model k) w m w' ↔ w.models.get k = m ∧ w = w' :=
  gives_iff_of_outcome rfl

@[simp] theorem gives_tree {k : TreeKind} {t : Tree} :
    Gives (tree k) w t w' ↔ w.models.tree k = t ∧ w = w' :=
  gives_iff_of_outcome rfl

@[simp] theorem gives_setModel {k : TreeKind} {m : Model} {a : Unit} :
    Gives (setModel k m) w a w' ↔ w.withModel k m = w' :=
  (gives_iff_of_outcome rfl).trans (and_iff_right rfl)

@[simp] theorem gives_tell {k : TreeKind} {e : ViewEvent} {a : Unit} :
    Gives (tell k e) w a w' ↔ w.withEvents (w.events ++ [(k, e)]) = w' :=
  (gives_iff_of_outcome rfl).trans (and_iff_right rfl)

@[simp] theorem gives_logNode {l : LogLevel} {k : TreeKind} {kind : Kind} {u : Uuid} {text : String}
    {a : Unit} : Gives (logNode l k kind u text) w a w' ↔
      w.withLog (w.log ++ [.ofNode l k kind u text]) = w' :=
  (gives_iff_of_outcome rfl).trans (and_iff_right rfl)

/-! Reading a workspace keeps whatever holds of it. -/

variable {I : Workspace → Prop}

theorem keeps_models : Keeps I models := fun _ h => h

theorem keeps_model (k : TreeKind) : Keeps I (model k) := fun _ h => h

theorem keeps_tree (k : TreeKind) : Keeps I (tree k) := fun _ h => h

theorem outcome_build (b : Build α) (w : Workspace) : outcome (build b) w =
    ((outcome b (w.supply.avoiding w.models.uuids)).1,
      w.withSupply (outcome b (w.supply.avoiding w.models.uuids)).2) := by
  rw [build, outcome_bind, show outcome (get : Edit Workspace) w = (.ok w, w) from rfl]
  simp only
  rw [show b.run (w.supply.avoiding w.models.uuids) = outcome b (w.supply.avoiding w.models.uuids) from rfl]
  rcases outcome b (w.supply.avoiding w.models.uuids) with ⟨r, s⟩
  cases r <;> rfl

theorem gives_build {b : Build α} {a : α} : Gives (build b) w a w' ↔
    ∃ s, Gives b (w.supply.avoiding w.models.uuids) a s ∧ w.withSupply s = w' := by
  rw [Gives, outcome_build]
  rcases hb : outcome b (w.supply.avoiding w.models.uuids) with ⟨r, s⟩
  simp only [Gives, hb, Prod.mk.injEq]
  exact ⟨fun ⟨hr, hw⟩ => ⟨s, ⟨hr, rfl⟩, hw⟩, fun ⟨_, ⟨hr, hs⟩, hw⟩ => ⟨hr, hs ▸ hw⟩⟩

theorem fails_build {b : Build α} {x : Error} (h : Fails b (w.supply.avoiding w.models.uuids) x) :
    Fails (build b) w x :=
  h.elim fun s' hs => ⟨w.withSupply s', by rw [outcome_build, hs]⟩

theorem gives_fresh {b : Fresh α} {a : α} : Gives (fresh b) w a w' ↔
    ∃ s, b (w.supply.avoiding w.models.uuids) = (a, s) ∧ w.withSupply s = w' := by
  simp only [fresh, gives_build, gives_liftM_state]

end Edit

end DeviceModel
