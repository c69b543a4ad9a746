import DeviceModel.Json.Reader
import DeviceModel.Uuid

/-!
Value sets: the values that a product gives to parameters. Main statement: the values are in the order
of the parameters.
-/

namespace DeviceModel

structure ValueSet where
  name : Option String
  values : List (Uuid × Decimal)
  deriving DecidableEq, Repr

/-- A value set and the name under which it is shown. -/
structure Product where
  name : String
  path : String
  set : ValueSet

namespace ValueSet

/-- The values with `d` as that of `u`, in the order of the identifiers. -/
def insert (u : Uuid) (d : Decimal) : List (Uuid × Decimal) → List (Uuid × Decimal)
  | [] => [(u, d)]
  | (v, e) :: r =>
    if u = v then (u, d) :: r
    else if u.val < v.val then (u, d) :: (v, e) :: r
    else (v, e) :: insert u d r

/-- A number that was written without quotes, as its digits say. -/
def decimal? : Json → Option Decimal
  | .string s => Decimal.ofText? s
  | .integer i => some (.ofInt i)
  | .float x => Decimal.ofText? (String.ofList (plain x))
  | _ => none
where
  /-- The shortest digits of a number, without an exponent. -/
  plain (x : Binary64) : List Char :=
    let (d, e) := x.shortest
    Decimal.chars ⟨x.negative, d * Nat.pow 10 e.toNat, (-e).toNat⟩

def values? (members : List (String × Json)) : Option (List (Uuid × Decimal)) :=
  members.foldlM (fun vs (k, j) => do return insert (← Uuid.ofText? k) (← decimal? j) vs) []

def ofJson? (j : Json) : Option ValueSet := do
  match ← Json.record? ["name", "values"] j with
  | [name, values] =>
    let name ← match name with
      | none | some .null => pure none
      | some (.string s) => pure (some s)
      | some _ => none
    let values ← match values with
      | none => pure []
      | some j => values? (← j.object?)
    return ⟨name, values⟩
  | _ => none

def ofText? (s : String) : Option ValueSet := Json.ofWholeText? s >>= ofJson?

def value? (s : ValueSet) (u : Uuid) : Option Decimal := s.values.lookup u

theorem mem_insert {u v : Uuid} {d e : Decimal} {vs : List (Uuid × Decimal)}
    (h : (v, e) ∈ insert u d vs) : (v, e) = (u, d) ∨ (v, e) ∈ vs := by
  induction vs with
  | nil => simpa [insert] using h
  | cons p r ih =>
    obtain ⟨w, f⟩ := p
    simp only [insert] at h
    split at h
    · rcases List.mem_cons.1 h with h | h
      · exact .inl h
      · exact .inr (List.mem_cons_of_mem _ h)
    · split at h
      · simpa using h
      · rcases List.mem_cons.1 h with h | h
        · exact .inr (h ▸ List.mem_cons_self)
        · exact (ih h).imp_right (List.mem_cons_of_mem _)

theorem pairwise_insert (u : Uuid) (d : Decimal) {vs : List (Uuid × Decimal)}
    (h : vs.Pairwise (·.1.val < ·.1.val)) : (insert u d vs).Pairwise (·.1.val < ·.1.val) := by
  induction vs with
  | nil => simp [insert]
  | cons p r ih =>
    obtain ⟨v, e⟩ := p
    obtain ⟨hr, hp⟩ := List.pairwise_cons.1 h
    simp only [insert]
    split
    · rename_i huv
      exact List.pairwise_cons.2 ⟨fun q hq => huv ▸ hr q hq, hp⟩
    · rename_i hne
      split
      · rename_i hlt
        refine List.pairwise_cons.2 ⟨fun q hq => ?_, h⟩
        rcases List.mem_cons.1 hq with rfl | hq
        · exact hlt
        · exact Nat.lt_trans hlt (hr q hq)
      · rename_i hnlt
        refine List.pairwise_cons.2 ⟨fun q hq => ?_, ih hp⟩
        rcases mem_insert (v := q.1) (e := q.2) hq with hq | hq
        · have hu : q.1 = u := congrArg Prod.fst hq
          have : u.val ≠ v.val := fun h => hne (by cases u; cases v; simpa using h)
          rw [hu]
          show v.val < u.val
          omega
        · exact hr q hq

end ValueSet

end DeviceModel
