import DeviceModel.Error

/-!
New identifiers. A supply counts upwards and passes over the identifiers in use, so no identifier is
given out twice, and none that is in use. Main statements: `draw_notMem` and `draw_lt`.
-/

namespace DeviceModel

structure Supply where
  next : Nat
  taken : List Uuid

abbrev Fresh := StateM Supply

/-- A step that may draw new identifiers and may fail. -/
abbrev Build := ExceptT Error Fresh

namespace Supply

/-- A number to begin a supply with, from 16 random bytes: it has the marks of a random identifier, and
its last four bytes are left to count. -/
def start (random : List Nat) : Nat :=
  (Uuid.ofBytes (random.zipIdx.map fun (b, i) =>
    if i = 6 then 0x40 + b % 16 else if i = 8 then 0x80 + b % 64 else if i < 12 then b else 0)).val

/-- The first identifier from `n` upwards that is not taken. -/
def firstFree (taken : List Uuid) (n : Nat) : Nat :=
  if h : ⟨n⟩ ∈ taken then firstFree (taken.erase ⟨n⟩) (n + 1) else n
termination_by taken.length
decreasing_by
  have := List.length_erase_of_mem h
  have := List.length_pos_of_mem h
  omega

theorem le_firstFree (taken : List Uuid) (n : Nat) : n ≤ firstFree taken n := by
  fun_induction firstFree taken n with
  | case1 taken n h ih => omega
  | case2 => exact Nat.le_refl _

theorem firstFree_notMem (taken : List Uuid) (n : Nat) : ⟨firstFree taken n⟩ ∉ taken := by
  fun_induction firstFree taken n with
  | case1 taken n h ih =>
    have hn := le_firstFree (taken.erase ⟨n⟩) (n + 1)
    refine fun hm => ih ((List.mem_erase_of_ne ?_).2 hm)
    simp only [ne_eq, Uuid.mk.injEq]
    omega
  | case2 taken n h => exact h

/-- The supply with `uuids` as the identifiers in use. -/
def avoiding (s : Supply) (uuids : List Uuid) : Supply := { s with taken := uuids }

end Supply

/-- A new identifier. -/
def draw : Fresh Uuid := fun s =>
  let n := Supply.firstFree s.taken s.next
  (⟨n⟩, { s with next := n + 1 })

theorem draw_notMem (s : Supply) : (draw s).1 ∉ s.taken := Supply.firstFree_notMem s.taken s.next

/-- What was drawn lies below everything that is drawn later. -/
theorem draw_lt (s : Supply) : s.next ≤ (draw s).1.val ∧ (draw s).1.val < (draw s).2.next :=
  ⟨Supply.le_firstFree s.taken s.next, Nat.lt_succ_self _⟩

theorem taken_draw (s : Supply) : (draw s).2.taken = s.taken := rfl

end DeviceModel
