import DeviceModel.Proofs.Document.Files
import DeviceModel.Proofs.Register.Sums
import DeviceModel.Proofs.Tree.Links

/-!
When the sizes of a register map come to an end. The size of a reference is the sum of those of the
children of what it names, which may be anything that has an identifier. Main statement:
`settles_iff_not_leads`, for any tree.
-/

namespace DeviceModel

theorem isSome_mapM {f : α → Option β} {l : List α} :
    (l.mapM f).isSome = true ↔ ∀ a ∈ l, (f a).isSome = true := by
  induction l with
  | nil => simp
  | cons a l ih =>
    rw [List.forall_mem_cons, ← ih, List.mapM_cons]
    cases f a <;> cases l.mapM f <;> simp

namespace Tree

/-- What the size of a node is the sum of: the children of what a reference names. -/
def parts (t : Tree) (n : Node) : List Node :=
  if n.kind.isBlockReference then ((n.ref? .original).map t.children).getD [] else []

/-- Some number of steps gives each node its size. -/
def Settles (t : Tree) : Prop := ∀ n ∈ t.all, ∃ fuel, (t.sizeWithin fuel n).isSome = true

variable {t : Tree}

theorem parts_of_not_reference {n : Node} (hk : n.kind.isBlockReference = false) : t.parts n = [] := by
  simp [parts, hk]

theorem mem_all_of_mem_parts {n c : Node} (hc : c ∈ t.parts n) : c ∈ t.all := by
  unfold parts at hc
  split at hc
  · cases hb : n.ref? .original with
    | none => simp [hb] at hc
    | some b =>
      rw [hb, Option.map_some, Option.getD_some] at hc
      exact mem_all_of_mem_children hc
  · cases hc

theorem closed_parts (n : Node) : ∀ c ∈ t.parts n, c ∈ t.all ∨ t.parts c = [] :=
  fun _ hc => .inl (mem_all_of_mem_parts hc)

/-! ### Fuel -/

theorem sizeWithin_succ (fuel : Nat) (n : Node) :
    t.sizeWithin (fuel + 1) n =
      if n.kind.isBlockReference then ((t.parts n).mapM (t.sizeWithin fuel)).map List.sum
      else some (n.int .size) := by
  have hsum : ∀ sizes : List Int, sizes.foldr (· + ·) 0 = sizes.sum := fun _ => List.sum_eq_foldr.symm
  rw [sizeWithin, parts]
  split
  · cases n.ref? .original with
    | none => rfl
    | some b => simp only [Option.map_some, Option.getD_some, hsum]
  · rfl

theorem isSome_sizeWithin {fuel : Nat} {n : Node} :
    (t.sizeWithin fuel n).isSome = true ↔ Links.EndsWithin t.parts fuel n := by
  induction fuel generalizing n with
  | zero => simp [sizeWithin, Links.EndsWithin]
  | succ fuel ih =>
    rw [sizeWithin_succ, Links.EndsWithin]
    split
    · rw [Option.isSome_map, isSome_mapM]
      exact forall₂_congr fun c _ => ih
    · rename_i hk
      simp [parts_of_not_reference (t := t) (Bool.eq_false_iff.2 hk)]

/-- More fuel gives the same size. -/
theorem sizeWithin_mono {fuel fuel' : Nat} (hle : fuel ≤ fuel') {n : Node} {size : Int}
    (h : t.sizeWithin fuel n = some size) : t.sizeWithin fuel' n = some size := by
  induction fuel generalizing fuel' n size with
  | zero => simp [sizeWithin] at h
  | succ fuel ih =>
    obtain ⟨m, rfl⟩ : ∃ m, fuel' = m + 1 := ⟨fuel' - 1, by omega⟩
    rw [sizeWithin_succ] at h ⊢
    split
    · rename_i hk
      rw [if_pos hk] at h
      have hsome : ((t.parts n).mapM (t.sizeWithin fuel)).isSome = true := by
        rw [← Option.isSome_map (f := List.sum), h, Option.isSome_some]
      have hsame : ∀ c ∈ t.parts n, t.sizeWithin m c = t.sizeWithin fuel c := by
        intro c hc
        obtain ⟨size, hsize⟩ := Option.isSome_iff_exists.1 (isSome_mapM.1 hsome c hc)
        rw [hsize, ih (by omega) hsize]
      rw [mapM_congr_left hsame, h]
    · rename_i hk
      rwa [if_neg hk] at h

theorem settles_iff_ends : t.Settles ↔ ∀ n ∈ t.all, Links.Ends t.parts n :=
  forall₂_congr fun _ _ => exists_congr fun _ => isSome_sizeWithin

/-- As many steps as there are nodes are enough for all sizes that are found at all. -/
theorem Settles.sizeWithin_eq (h : t.Settles) {n : Node} (hn : n ∈ t.all) {fuel : Nat}
    (hfuel : t.size < fuel) : t.sizeWithin fuel n = some (t.sizeOf n) := by
  have hends := Links.endsWithin_length closed_parts hn (settles_iff_ends.1 h n hn)
  obtain ⟨size, hsize⟩ := Option.isSome_iff_exists.1 (isSome_sizeWithin.2 hends)
  have hof : t.sizeOf n = size := by rw [sizeOf, Tree.size, hsize, Option.getD_some]
  rw [hof]
  exact sizeWithin_mono hfuel hsize

theorem sizeOf_of_not_reference {n : Node} (hk : n.kind.isBlockReference = false) :
    t.sizeOf n = n.int .size := by
  rw [sizeOf, sizeWithin_succ, hk]
  rfl

/-- A reference has the size of the block that it names. -/
theorem Settles.sizeOf_reference (h : t.Settles) {n : Node} (hn : n ∈ t.all)
    (hk : n.kind.isBlockReference = true) : t.sizeOf n = ((n.ref? .original).map t.blockSize).getD 0 := by
  have hsize := h.sizeWithin_eq hn (show t.size < t.size + 1 + 1 by omega)
  have hparts : (t.parts n).mapM (t.sizeWithin (t.size + 1)) = some ((t.parts n).map t.sizeOf) := by
    rw [mapM_congr_left (g := fun c => some (t.sizeOf c)) fun c hc =>
      h.sizeWithin_eq (mem_all_of_mem_parts hc) (by omega)]
    exact List.mapM_pure
  rw [sizeWithin_succ, if_pos hk, hparts, Option.map_some, Option.some.injEq] at hsize
  rw [← hsize, parts, if_pos hk]
  cases n.ref? .original with
  | none => rfl
  | some b => exact List.sum_eq_foldr

/-- What references to repeating blocks lead to are points. -/
theorem settles_of_refersToBlocks (ht : t.Valid) (hr : t.RefersToBlocks) : t.Settles := by
  have hpoint : ∀ k child : Kind, k.isRepeatingBlock = true → k.allows child = true →
      child.isBlockReference = false := by
    intro k child; cases k <;> cases child <;> decide
  refine settles_iff_ends.2 fun n hn => ⟨2, fun c hc d hd => ?_⟩
  suffices hk : c.kind.isBlockReference = false by
    rw [parts_of_not_reference hk] at hd
    cases hd
  unfold parts at hc
  split at hc
  · rename_i hnk
    cases hb : n.ref? .original with
    | none => simp [hb] at hc
    | some b =>
      rw [hb, Option.map_some, Option.getD_some, children] at hc
      cases hf : t.find? b with
      | none => simp [hf] at hc
      | some m =>
        obtain ⟨hm, rfl⟩ := mem_of_find? hf
        rw [hf, Option.map_some, Option.getD_some] at hc
        exact hpoint _ _ (hr n hn hnk m hm hb) (ht.allowed m hm c hc)
  · cases hc

/-- The sizes of a tree come to an end exactly if no reference leads, over the references in what it
names and those in what these name, back to itself; as many steps as there are nodes are enough then. None
does where references name repeating blocks only. -/
theorem settles_iff_not_leads (t : Tree) :
    (t.Settles ↔ ∀ r ∈ t.all, r.kind.isBlockReference = true → ¬Links.Leads t.parts r r) ∧
    (t.Settles → ∀ n ∈ t.all, ∀ fuel, t.size < fuel → t.sizeWithin fuel n = some (t.sizeOf n)) ∧
    (t.Valid → t.RefersToBlocks → t.Settles) := by
  refine ⟨?_, fun h n hn fuel hfuel => h.sizeWithin_eq hn hfuel, settles_of_refersToBlocks⟩
  rw [settles_iff_ends]
  constructor
  · exact fun h r hr _ => (h r hr).not_leads
  · intro h n hn
    refine Links.ends_of_not_leads closed_parts fun r hnr hrr => ?_
    have hr : r ∈ t.all := by
      rcases hnr.cases_tail with rfl | ⟨_, -, hr⟩
      · exact hn
      · exact mem_all_of_mem_parts hr
    -- What leads anywhere has parts.
    have hk : r.kind.isBlockReference = true := by
      by_contra hk
      obtain ⟨c, hc, -⟩ := Relation.TransGen.head'_iff.1 hrr
      rw [parts_of_not_reference (Bool.eq_false_iff.2 hk)] at hc
      cases hc
    exact h r hr hk hrr

/-- A model whose fixed block has a reference to the block `block`. -/
def referringTo (block : Uuid) : Tree :=
  ⟨.sunSpec, ⟨⟨1⟩, .initial .sunSpecRoot, [⟨⟨2⟩, .initial .sunSpecModel,
    [⟨⟨3⟩, .initial .fixedBlock,
      [.leaf ⟨4⟩ (.of .tableRepeatingBlockReference [(.original, .uuid block)])]⟩,
      ⟨⟨5⟩, .initial .sunSpecTable, [⟨⟨6⟩, .initial .tableRepeatingBlock,
        [.leaf ⟨7⟩ (.of .dataPoint [(.size, .integer 2)])]⟩]⟩]⟩]⟩⟩

theorem settles_iff_not_leads_referringTo :
    ((referringTo ⟨6⟩).Valid ∧ (referringTo ⟨6⟩).RefersToBlocks) ∧
      ∀ n ∈ (referringTo ⟨6⟩).all, (referringTo ⟨6⟩).sizeWithin 9 n =
        some ((referringTo ⟨6⟩).sizeOf n) := by
  have hv : (referringTo ⟨6⟩).Valid := by decide +kernel
  have hr : (referringTo ⟨6⟩).RefersToBlocks := by unfold RefersToBlocks; decide +kernel
  obtain ⟨-, hsizes, hsettles⟩ := settles_iff_not_leads (referringTo ⟨6⟩)
  exact ⟨⟨hv, hr⟩, fun n hn => hsizes (hsettles hv hr) n hn 9 (by decide +kernel)⟩

/-- A file is read whose one reference names the fixed block that it stands in, and no number of steps
gives the reference a size. -/
theorem exists_loaded_endless : ∃ text t s, Tree.ofText text .sunSpec [] ⟨0, []⟩ = .ok (t, s) ∧
    ∃ r ∈ t.all, r.kind.isBlockReference = true ∧ ∀ fuel, t.sizeWithin fuel r = none := by
  have hs : (referringTo ⟨3⟩).Storable := ⟨by decide +kernel, by decide +kernel⟩
  have ho : ∀ o ∈ ([] : List Tree), ∀ u ∈ (referringTo ⟨3⟩).uuids, u ∉ o.uuids := by simp
  obtain ⟨s, hload⟩ := ofText_text (show (referringTo ⟨3⟩).Valid by decide +kernel) hs ho ⟨0, []⟩
  have hself : ∃ r ∈ (referringTo ⟨3⟩).stored.all, r.kind.isBlockReference = true ∧
      r ∈ (referringTo ⟨3⟩).stored.parts r := by decide +kernel
  obtain ⟨r, hr, hk, hrr⟩ := hself
  refine ⟨_, _, s, hload, r, hr, hk, fun fuel => ?_⟩
  rw [← Option.not_isSome_iff_eq_none, isSome_sizeWithin]
  exact Links.not_endsWithin (.single hrr) fuel

end Tree

end DeviceModel
