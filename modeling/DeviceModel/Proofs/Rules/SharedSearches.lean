import DeviceModel.Proofs.Document.Files
import DeviceModel.Proofs.Rules.ArrayElements
import DeviceModel.Proofs.Tree.Links
import DeviceModel.Proofs.Tree.Places
import DeviceModel.Tree.Lookup

/-!
When the search for an attribute that an element of an array shares with its original comes to an end.
The original may be another element. Main statement: `effective_iff_not_leads`, for any tree. Under changes the
searches come to an end where the elements of arrays that stand somewhere stood somewhere before, or have an
original that is none (`SearchesEnd.of_stands`); so parameters may come in with their stand-ins
(`searchesEnd_extend`), nodes may go (`searchesEnd_withoutAll`), be counted (`searchesEnd_counted`) and be moved
(`searchesEnd_move`).
-/

namespace DeviceModel.Tree

/-- The original of an element of an array, unless it names itself. -/
def originals (t : Tree) (u : Uuid) : List Uuid :=
  match t.find? u with
  | some n =>
    if n.kind = .arrayParameterElement then ((n.ref? .original).filter (· ≠ u)).toList else []
  | none => []

section

variable {t : Tree}

theorem originals_of_notMem {u : Uuid} (hu : u ∉ t.uuids) : t.originals u = [] := by
  cases hf : t.find? u with
  | none => simp only [originals, hf]
  | some n =>
    obtain ⟨hn, rfl⟩ := mem_of_find? hf
    exact absurd (mem_uuids.2 ⟨n, hn, rfl⟩) hu

theorem closed_originals (u : Uuid) : ∀ v ∈ t.originals u, v ∈ t.uuids ∨ t.originals v = [] := by
  intro v _
  by_cases hv : v ∈ t.uuids
  · exact .inl hv
  · exact .inr (originals_of_notMem hv)

/-- An element stores no attribute that it shares. -/
theorem get?_of_shared {n : Node} (hk : n.kind = .arrayParameterElement) {a : Attr}
    (ha : Kind.sharedAttributes.contains a = true) : n.data.get? a = none := by
  have hfields : ∀ a : Attr, Kind.sharedAttributes.contains a = true →
      Kind.arrayParameterElement.field? a = none := by intro a; cases a <;> decide
  rw [Data.get?_eq_none, show n.data.kind = _ from hk]
  exact hfields a ha

theorem isSome_effectiveWithin_of_not_shared {a : Attr} (ha : Kind.sharedAttributes.contains a = false)
    (fuel : Nat) (u : Uuid) : (t.effectiveWithin a (fuel + 1) u).isSome = true := by
  rw [effectiveWithin]
  cases t.find? u with
  | none => rfl
  | some n =>
    cases hv : n.data.get? a with
    | some v => simp [hv]
    | none => simp only [hv, ha, Bool.false_eq_true, and_false, if_false, Option.isSome_some]

/-- A shared attribute is searched along the originals. -/
theorem isSome_effectiveWithin {a : Attr} (ha : Kind.sharedAttributes.contains a = true) {fuel : Nat}
    {u : Uuid} :
    (t.effectiveWithin a fuel u).isSome = true ↔ Links.EndsWithin t.originals fuel u := by
  induction fuel generalizing u with
  | zero => simp [effectiveWithin, Links.EndsWithin]
  | succ fuel ih =>
    rw [effectiveWithin, Links.EndsWithin, originals]
    cases t.find? u with
    | none => simp
    | some n =>
      by_cases hk : n.kind = .arrayParameterElement
      · simp only [get?_of_shared hk ha, hk, ha, and_self, if_true]
        cases n.ref? .original with
        | none => simp
        | some o => by_cases ho : o = u <;> simp [ho, ih]
      · cases hv : n.data.get? a <;> simp [hv, hk]

/-- More fuel gives the same value. -/
theorem effectiveWithin_mono {a : Attr} {fuel fuel' : Nat} (hle : fuel ≤ fuel') {u : Uuid}
    {v : Option Value} (h : t.effectiveWithin a fuel u = some v) : t.effectiveWithin a fuel' u = some v := by
  induction fuel generalizing fuel' u with
  | zero => simp [effectiveWithin] at h
  | succ fuel ih =>
    obtain ⟨m, rfl⟩ : ∃ m, fuel' = m + 1 := ⟨fuel' - 1, by omega⟩
    rw [effectiveWithin] at h ⊢
    cases hf : t.find? u with
    | none => simpa only [hf] using h
    | some n =>
      simp only [hf] at h ⊢
      cases hv : n.data.get? a with
      | some w => simpa only [hv] using h
      | none =>
        simp only [hv] at h ⊢
        split at h
        · rename_i hshared
          rw [if_pos hshared]
          cases ho : n.ref? .original with
          | none => simpa only [ho] using h
          | some o =>
            simp only [ho] at h ⊢
            split at h
            · rename_i hself
              rwa [if_pos hself]
            · rename_i hother
              rw [if_neg hother]
              exact ih (by omega) h
        · rename_i hshared
          rwa [if_neg hshared]

/-- What the search finds in any number of steps it finds in one more than there are nodes. -/
theorem effective?_of_effectiveWithin {a : Attr} {fuel : Nat} {u : Uuid} {v : Option Value}
    (h : t.effectiveWithin a fuel u = some v) : t.effective? u a = v := by
  suffices hsome : (t.effectiveWithin a (t.size + 1) u).isSome = true by
    obtain ⟨w, hw⟩ := Option.isSome_iff_exists.1 hsome
    have hle := effectiveWithin_mono (Nat.le_max_left (t.size + 1) fuel) hw
    rw [effectiveWithin_mono (Nat.le_max_right (t.size + 1) fuel) h, Option.some.injEq] at hle
    rw [effective?, hw, hle, Option.join_some]
  cases ha : Kind.sharedAttributes.contains a with
  | false => exact isSome_effectiveWithin_of_not_shared ha _ u
  | true =>
    have hends : Links.Ends t.originals u := ⟨fuel, (isSome_effectiveWithin ha).1 (by simp [h])⟩
    rw [isSome_effectiveWithin ha]
    by_cases hu : u ∈ t.uuids
    · have hlength : t.uuids.length = t.size := List.length_map _
      exact hlength ▸ Links.endsWithin_length closed_originals hu hends
    · exact Links.endsWithin_of_nil (originals_of_notMem hu) _

/-- The search for an attribute of `u` comes to an end exactly if the attribute is none that elements of
arrays share, or the originals after `u` do not lead back to one of them; and what it finds is the
attribute that `u` has. -/
theorem effective_iff_not_leads (t : Tree) (u : Uuid) (a : Attr) :
    ((∃ fuel, (t.effectiveWithin a fuel u).isSome = true) ↔
      (Kind.sharedAttributes.contains a = true →
        ∀ v, Links.Reaches t.originals u v → ¬Links.Leads t.originals v v)) ∧
    ∀ fuel v, t.effectiveWithin a fuel u = some v → t.effective? u a = v := by
  refine ⟨?_, fun _ _ => effective?_of_effectiveWithin⟩
  cases ha : Kind.sharedAttributes.contains a with
  | false => exact ⟨fun _ h => (Bool.false_ne_true h).elim,
      fun _ => ⟨1, isSome_effectiveWithin_of_not_shared ha 0 u⟩⟩
  | true =>
    rw [← Links.ends_iff_not_leads closed_originals]
    simp only [isSome_effectiveWithin ha, forall_const]
    rfl

/-- An array of a parameter and two elements, of which the second names `original`. -/
def arrayOfThree (original : Uuid) : Tree :=
  ⟨.parameters, ⟨⟨1⟩, .initial .root, [⟨⟨2⟩, .initial .array,
    [.leaf ⟨3⟩ (.of .parameter [(.units, .string "A")]),
      .leaf ⟨4⟩ (.of .arrayParameterElement [(.original, .uuid ⟨5⟩)]),
      .leaf ⟨5⟩ (.of .arrayParameterElement [(.original, .uuid original)])]⟩]⟩⟩

theorem effective_iff_not_leads_arrayOfThree :
    (arrayOfThree ⟨3⟩).effectiveWithin .units 3 ⟨4⟩ = some (some (.string "A")) ∧
      (∀ v, Links.Reaches (arrayOfThree ⟨3⟩).originals ⟨4⟩ v →
        ¬Links.Leads (arrayOfThree ⟨3⟩).originals v v) ∧
      (arrayOfThree ⟨3⟩).effective? ⟨4⟩ .units = some (.string "A") := by
  have hsearch : (arrayOfThree ⟨3⟩).effectiveWithin .units 3 ⟨4⟩ = some (some (.string "A")) := by
    decide +kernel
  obtain ⟨hiff, hvalue⟩ := effective_iff_not_leads (arrayOfThree ⟨3⟩) ⟨4⟩ .units
  exact ⟨hsearch, hiff.1 ⟨3, by rw [hsearch]; rfl⟩ (by decide), hvalue 3 _ hsearch⟩

/-- A file is read in which two elements of an array are the originals of each other, and no number of
steps gives one its units. -/
theorem exists_loaded_circular : ∃ text t s, Tree.ofText text .parameters [] ⟨0, []⟩ = .ok (t, s) ∧
    ∃ n ∈ t.all, n.kind = .arrayParameterElement ∧ ∀ fuel, t.effectiveWithin .units fuel n.uuid = none := by
  have hs : (arrayOfThree ⟨4⟩).Storable := ⟨by decide +kernel, by decide +kernel⟩
  have ho : ∀ o ∈ ([] : List Tree), ∀ u ∈ (arrayOfThree ⟨4⟩).uuids, u ∉ o.uuids := by simp
  obtain ⟨s, hload⟩ := ofText_text (show (arrayOfThree ⟨4⟩).Valid by decide +kernel) hs ho ⟨0, []⟩
  have hcircle : ∃ n ∈ (arrayOfThree ⟨4⟩).stored.all, n.kind = .arrayParameterElement ∧
      ∃ u ∈ (arrayOfThree ⟨4⟩).stored.originals n.uuid,
        n.uuid ∈ (arrayOfThree ⟨4⟩).stored.originals u := by decide +kernel
  obtain ⟨n, hn, hk, u, hu, hnu⟩ := hcircle
  refine ⟨_, _, s, hload, n, hn, hk, fun fuel => ?_⟩
  rw [← Option.not_isSome_iff_eq_none, isSome_effectiveWithin (by decide)]
  exact Links.not_endsWithin (.tail (.single hu) hnu) fuel

end

/-! ### Changes -/

open Edit (counted)

/-- The search for any attribute of any node comes to an end. -/
def SearchesEnd (t : Tree) : Prop := ∀ u a, ∃ fuel, (t.effectiveWithin a fuel u).isSome = true

variable {t t' : Tree} {u v : Uuid}

theorem searchesEnd_iff : t.SearchesEnd ↔ ∀ u, Links.Ends t.originals u := by
  constructor
  · intro h u
    obtain ⟨fuel, hfuel⟩ := h u .units
    exact ⟨fuel, (isSome_effectiveWithin (by decide)).1 hfuel⟩
  · intro h u a
    cases ha : Kind.sharedAttributes.contains a with
    | false => exact ⟨1, isSome_effectiveWithin_of_not_shared ha 0 u⟩
    | true => exact (h u).imp fun fuel hfuel => (isSome_effectiveWithin ha).2 hfuel

theorem mem_originals (ht : t.uuids.Nodup) : v ∈ t.originals u ↔
    ∃ n ∈ t.all, n.uuid = u ∧ n.kind = .arrayParameterElement ∧ n.ref? .original = some v ∧ v ≠ u := by
  constructor
  · intro h
    unfold originals at h
    split at h
    · rename_i n hf
      obtain ⟨hn, rfl⟩ := mem_of_find? hf
      split at h
      · rename_i hk
        obtain ⟨ho, hne⟩ := Option.filter_eq_some_iff.1 (Option.mem_toList.1 h)
        exact ⟨n, hn, rfl, hk, ho, by simpa using hne⟩
      · cases h
    · cases h
  · rintro ⟨n, hn, rfl, hk, ho, hne⟩
    simp [originals, find?_of_mem ht hn, hk, ho, hne]

/-- What stands for another element of an array stood for it before. -/
theorem SearchesEnd.of_stands (h : t.SearchesEnd) (ht : t.Valid) (ht' : t'.Valid)
    (hstands : ∀ p u d, t'.root.Stands p u d → d.kind = .arrayParameterElement → (∃ q, t.root.Stands q u d) ∨
      ∃ c ∈ t'.all, c.kind ≠ .arrayParameterElement ∧ d.ref? .original = some c.uuid) : t'.SearchesEnd := by
  rw [searchesEnd_iff] at h ⊢
  refine fun u => (h u).of_simulates (S := Eq) ?_ rfl
  rintro u _ rfl v hv
  obtain ⟨n, hn, rfl, hk, ho, hne⟩ := (mem_originals ht'.nodup).1 hv
  obtain ⟨p, hp⟩ := exists_stands hn (ht'.standIn_ne_root hk)
  rcases hstands p n.uuid n.data hp hk with ⟨q, m, hm, -, e, he, heu, hed⟩ | ⟨c, hc, hck, hco⟩
  · refine .inl ⟨v, (mem_originals ht.nodup).2 ⟨e, mem_all_of_child hm he, heu, ?_, ?_, hne⟩, rfl⟩
    · rw [Node.kind, hed]
      exact hk
    · rw [Node.ref?, hed]
      exact ho
  · obtain rfl : c.uuid = v := Option.some.inj (hco.symm.trans ho)
    refine .inr (Links.ends_iff.2 fun w hw => ?_)
    obtain ⟨m, hm, hmc, hmk, -⟩ := (mem_originals ht'.nodup).1 hw
    exact absurd (Node.eq_of_uuid ht'.nodup hm hc hmc ▸ hmk) hck

/-- New leaves, of which the elements of arrays stand for another one that is none. -/
theorem searchesEnd_extend (h : t.SearchesEnd) (ht : t.Valid) {g : Uuid → List Node}
    (hv : { t with root := t.root.extend g : Tree }.Valid) {p c : Node} (hp : p ∈ t.all) (hc : c ∈ g p.uuid)
    (hk : c.kind ≠ .arrayParameterElement) (hg : ∀ u, ∀ m ∈ g u, m.children = [] ∧
      (m.kind = .arrayParameterElement → m.ref? .original = some c.uuid)) :
    { t with root := t.root.extend g : Tree }.SearchesEnd := by
  refine h.of_stands ht hv fun q u d hstands hd => ?_
  rcases Node.stands_extend hstands with hold | ⟨m, hm, e, he, hbelow | ⟨-, -, rfl⟩⟩
  · exact .inl ⟨q, hold⟩
  · exact absurd hbelow (Node.not_stands_of_leaf (hg _ e he).1)
  · have hself : c ∈ (p.extend g).children := by
      rw [Node.children_extend]
      exact List.mem_append_right _ hc
    exact .inr ⟨c, Node.mem_all_trans (Node.mem_all_of_child hself) (Node.extend_mem_extend hp), hk, (hg _ e he).2 hd⟩

theorem searchesEnd_withoutAll (h : t.SearchesEnd) (ht : t.Valid) {us : List Uuid}
    (hv : { t with root := t.root.withoutAll us : Tree }.Valid) :
    { t with root := t.root.withoutAll us : Tree }.SearchesEnd :=
  h.of_stands ht hv fun p _ _ hstands _ => .inl ⟨p, Node.stands_withoutAll hstands⟩

theorem searchesEnd_counted (h : t.SearchesEnd) (ht : t.Valid) {a : Node} (ha : a ∈ t.all) (hk : a.kind = .array) :
    (t.edit a.uuid counted).SearchesEnd := by
  refine h.of_stands ht (valid_counted ht ha) fun p u d hstands hd => ?_
  rcases Node.stands_edit (f := counted) (fun _ => ⟨rfl, rfl⟩) hstands with hold | ⟨m, hm, hma, rfl⟩
  · exact .inl ⟨p, hold⟩
  · obtain rfl := Node.eq_of_uuid ht.nodup hm ha hma
    exact absurd ((Node.kind_counted m).trans hk) (by rw [show (counted m).kind = .arrayParameterElement from hd]; decide)

theorem searchesEnd_move (h : t.SearchesEnd) (ht : t.Valid) {row : Option Nat} (hmove : t.move u v row = .ok t') :
    t'.SearchesEnd := by
  refine h.of_stands ht (ht.move hmove) fun p x d hstands hd => ?_
  rcases (stands_move ht hmove).1 hstands with ⟨hold, -⟩ | ⟨-, rfl, n, hn, rfl, rfl⟩
  · exact .inl ⟨p, hold⟩
  · exact .inl (exists_stands hn (ht.standIn_ne_root hd))

end DeviceModel.Tree
